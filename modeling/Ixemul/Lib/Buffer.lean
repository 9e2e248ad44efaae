/-
# Ixemul.Lib.Buffer — C strings in a buffer, with a log of the writes.

A buffer has a character at every index; a program that writes into it lists the indices it writes to.
`Holds b s` says that the buffer begins with the characters `s`.  What is written behind them is appended
(`Safe.puts`), and a string in the buffer is compared and searched up to the NUL that ends it.
-/
import Ixemul.Lib.Logged
import Mathlib.Data.List.Range

namespace Ixemul.Lib

open Function List

abbrev Buf := Nat → Char

/-- A computation that logs the indices it writes to. -/
abbrev Writer (α : Type) := Logged Nat Buf α

/-- The character that ends a string. -/
def nul : Char := Char.ofNat 0

namespace Buffer

open Logged

/-- The buffer begins with `s`. -/
def Holds (s : List Char) (b : Buf) : Prop := ∀ i (h : i < s.length), b i = s[i]

/-- `buf[i] = c` -/
def put (i : Nat) (c : Char) : Writer Unit := store i (fun b => update b i c)

/-- The characters one after the other, from index `i` on. -/
def puts (i : Nat) : List Char → Writer Unit
  | [] => pure ()
  | c :: cs => do
    put i c
    puts (i + 1) cs

/-- The `n` characters from index `i` on. -/
def chars (b : Buf) (i n : Nat) : List Char := (range n).map fun k => b (i + k)

/-- `strcmp(buf + i, s) == 0` -/
def eqString (b : Buf) (i : Nat) (s : List Char) : Bool := chars b i (s.length + 1) == s ++ [nul]

/-- The first index from `i` on whose character is wanted, among `fuel`. -/
def scan (wanted : Char → Bool) (b : Buf) : (fuel i : Nat) → Option Nat
  | 0, _ => none
  | fuel + 1, i => if wanted (b i) then some i else scan wanted b fuel (i + 1)

section

variable {b : Buf} {s t : List Char} {c : Char} {i n : Nat}

theorem holds_nil : Holds [] b := fun _ h => absurd h (Nat.not_lt_zero _)

theorem Holds.left (h : Holds (s ++ t) b) : Holds s b := by
  intro i hi
  rw [h i (by rw [length_append]; omega), getElem_append_left hi]

theorem Holds.getElem? (h : Holds s b) {i : Nat} {c : Char} (hc : s[i]? = some c) : b i = c := by
  obtain ⟨hi, rfl⟩ := List.getElem?_eq_some_iff.mp hc
  exact h i hi

theorem Holds.concat (h : Holds s b) (hc : b s.length = c) : Holds (s ++ [c]) b := by
  intro i hi
  rw [length_append, length_singleton] at hi
  rcases lt_or_ge i s.length with hlt | hge
  · rw [h i hlt, getElem_append_left hlt]
  · obtain rfl : i = s.length := by omega
    rw [hc]
    simp

theorem Holds.update (h : Holds s b) (hi : s.length ≤ i) : Holds s (update b i c) := by
  intro k hk
  rw [update_of_ne (by omega), h k hk]

/-! ## Writing -/

theorem safe_put (hn : s.length < n) :
    Safe (· < n) (Holds s) (put s.length c) (fun _ => Holds (s ++ [c])) := by
  refine Safe.store hn fun b hb => ?_
  exact (hb.update le_rfl).concat (update_self _ _ _)

/-- **Characters written behind what the buffer holds are appended to it.** -/
theorem safe_puts (hn : s.length + t.length ≤ n) :
    Safe (· < n) (Holds s) (puts s.length t) (fun _ => Holds (s ++ t)) := by
  induction t generalizing s with
  | nil =>
    rw [append_nil]
    exact Safe.pure fun _ hb => hb
  | cons c cs ih =>
    rw [length_cons] at hn
    refine Safe.bind (safe_put (by omega)) fun _ => ?_
    have hlen : (s ++ [c]).length = s.length + 1 := by simp
    have hrest := ih (s := s ++ [c]) (by omega)
    rw [hlen, append_assoc] at hrest
    exact hrest

theorem safe_puts_zero (hn : t.length ≤ n) : Safe (· < n) (fun _ => True) (puts 0 t) (fun _ => Holds t) := by
  intro b _
  have h := safe_puts (by simpa using hn) b holds_nil
  exact h

/-! ## Reading -/

@[simp] theorem length_chars : (chars b i n).length = n := by
  simp [chars]

theorem getElem_chars {k : Nat} (h : k < (chars b i n).length) : (chars b i n)[k] = b (i + k) := by
  simp [chars]

theorem chars_eq (h : Holds s b) (hn : i + n ≤ s.length) : chars b i n = (s.drop i).take n := by
  apply ext_getElem
  · simp
    omega
  · intro k hk hk'
    rw [length_chars] at hk
    rw [getElem_chars, getElem_take, getElem_drop]
    exact h (i + k) (by omega)

theorem eqString_iff (h : Holds (s ++ [nul]) b) (hs : nul ∉ s) (ht : nul ∉ t) (hi : i ≤ s.length) :
    eqString b i t ↔ s.drop i = t := by
  have hlen : (s.drop i).length = s.length - i := length_drop
  rw [eqString, beq_iff_eq]
  constructor
  · intro heq
    -- the text is not shorter: its NUL would be one of `t`; nor longer: the NUL of `t` would be in it
    have hget (k : Nat) (hk : k < t.length + 1) : (t ++ [nul])[k]? = some (b (i + k)) := by
      have hk' : k < (chars b i (t.length + 1)).length := by rwa [length_chars]
      rw [← heq, getElem?_eq_getElem hk', getElem_chars]
    have hle : t.length ≤ s.length - i := by
      by_contra hlt
      have hend := hget (s.length - i) (by omega)
      have hnul : b (i + (s.length - i)) = nul := by
        apply h.getElem?
        have hsum : i + (s.length - i) = s.length := by omega
        rw [hsum, getElem?_append_right le_rfl, Nat.sub_self]
        rfl
      rw [getElem?_append_left (by omega), hnul] at hend
      exact ht (mem_of_getElem? hend)
    have hge : s.length - i ≤ t.length := by
      by_contra hlt
      have hend := hget t.length (by omega)
      rw [getElem?_append_right le_rfl, Nat.sub_self] at hend
      have hnul : s[i + t.length]? = some nul := by
        rw [getElem?_eq_getElem (by omega), ← h.left (i + t.length) (by omega)]
        exact hend.symm
      exact hs (mem_of_getElem? hnul)
    apply ext_getElem
    · omega
    · intro k hk hk'
      have hb := hget k (by omega)
      rw [getElem?_append_left hk', getElem?_eq_getElem hk'] at hb
      rw [getElem_drop, ← h.left (i + k) (by omega)]
      exact (Option.some.inj hb).symm
  · rintro rfl
    rw [chars_eq h (by simp; omega)]
    rw [drop_append_of_le_length hi, take_of_length_le (by simp)]

theorem chars_zero_iff (h : Holds (s ++ [nul]) b) (ht : nul ∉ t) :
    chars b 0 t.length = t ↔ s.take t.length = t := by
  rcases lt_or_ge s.length t.length with hlt | hge
  · -- both sides fail: the NUL is among the characters, and the text is too short
    refine iff_of_false (fun heq => ?_) fun heq => ?_
    · have hmem : nul ∈ t := by
        have hlen : s.length < (chars b 0 t.length).length := by rwa [length_chars]
        have hnul : b (0 + s.length) = nul := by
          apply h.getElem?
          rw [Nat.zero_add, getElem?_append_right le_rfl, Nat.sub_self]
          rfl
        rw [← heq, ← hnul, ← getElem_chars hlen]
        exact getElem_mem hlen
      exact ht hmem
    · have hlen := congrArg length heq
      rw [length_take] at hlen
      omega
  · rw [chars_eq h (by simp; omega), drop_zero, take_append_of_le_length hge]

theorem scan_isSome {wanted : Char → Bool} {fuel k : Nat} (hk : wanted (b (i + k))) (hf : k < fuel) :
    ∃ j, scan wanted b fuel i = some j ∧ i ≤ j ∧ j ≤ i + k := by
  induction fuel generalizing i k with
  | zero => exact absurd hf (Nat.not_lt_zero _)
  | succ fuel ih =>
    rw [scan]
    split
    · exact ⟨i, rfl, le_rfl, Nat.le_add_right _ _⟩
    · rename_i hno
      cases k with
      | zero => exact absurd hk hno
      | succ k =>
        obtain ⟨j, hj, hle, hge⟩ := ih (i := i + 1) (k := k) (by rwa [Nat.add_right_comm]) (by omega)
        exact ⟨j, hj, by omega, by omega⟩

end

end Buffer

end Ixemul.Lib
