/-
# Ixemul.Cli.LineBuffer — the buffer in which the command line is written (`execve.c`).

`compatible_startup` writes the line into 1024 bytes from `kmalloc`.  Before each argument it looks whether
the argument, with a blank and a NUL, still fits, and doubles the buffer if not; it does not look again.
An argument that needs more than twice the buffer is written beyond its end.

How large the buffer is when an argument's turn comes depends on those before it only by where they end: each
of them can double it once (`doublings`).  `krealloc` is taken to succeed.
-/
import Mathlib.Data.Nat.Find
import Mathlib.Algebra.BigOperators.Group.List.Basic
import Ixemul.Cli.Model

namespace Ixemul.Cli

open List

/-- What is copied for an argument: `quote` returns NULL also if there is no memory for the quoted string. -/
def element (memory : Bool) (arg : List Char) : List Char := if memory then (quote arg).getD arg else arg

/-- `max` after the check before an element at `cp`. -/
def enlarge (cp max : Nat) (el : List Char) : Nat := if max ≤ cp + (el.length + 2) then max * 2 else max

/-- The bytes that are written from `cp` on, each with the size of the buffer at the time: for an element
those of `strcpy`, the blank and the NUL; at the end the newline and the NUL. -/
def lineWrites : (cp max : Nat) → List (List Char) → List (Nat × Nat)
  | cp, max, [] => [(cp, max), (cp + 1, max)]
  | cp, max, el :: els =>
    (range (el.length + 1)).map (fun k => (cp + k, enlarge cp max el)) ++
      [(cp + el.length, enlarge cp max el), (cp + el.length + 1, enlarge cp max el)] ++
      lineWrites (cp + el.length + 1) (enlarge cp max el) els

/-- Every byte of the line is written inside of the buffer. -/
def LineInside (els : List (List Char)) : Prop := ∀ w ∈ lineWrites 0 1024 els, w.1 < w.2

/-- Where element `i` is written: behind the elements before it, each with its blank. -/
def position (els : List (List Char)) (i : Nat) : Nat := ((els.take i).map fun el => el.length + 1).sum

/-- The last `m` elements before element `i`, with blank and NUL, reach up to 1024, 2048, 4096 and so on. -/
def Doubles (els : List (List Char)) (i m : Nat) : Prop :=
  ∀ k < m, 1024 * 2 ^ k ≤ position els (i - m + k + 1) + 1

instance (els : List (List Char)) (i : Nat) : DecidablePred (Doubles els i) :=
  fun _ => inferInstanceAs (Decidable (∀ _, _))

/-- How often the buffer is doubled before element `i`. -/
def doublings (els : List (List Char)) (i : Nat) : Nat := Nat.findGreatest (Doubles els i) i

/-- Element `i`, with its blank and NUL, lies below twice the size that the buffer has before it; so does,
behind the last element, the newline with its NUL. -/
def Fits (els : List (List Char)) (i : Nat) : Prop :=
  position els (i + 1) + (if i + 1 = els.length then 1 else 0) < 2 * (1024 * 2 ^ doublings els i)

variable {cp max i : Nat} {el : List Char} {els : List (List Char)}

theorem position_succ (h : i < els.length) : position els (i + 1) = position els i + els[i].length + 1 := by
  rw [position, take_succ_eq_append_getElem h, map_append, sum_append, map_singleton, sum_singleton]
  rfl

theorem position_mono (els : List (List Char)) : Monotone (position els) := by
  refine monotone_nat_of_le_succ fun i => ?_
  by_cases h : i < els.length
  · rw [position_succ h]
    omega
  · simp only [position]
    rw [take_of_length_le (by omega), take_of_length_le (by omega)]

theorem doubles_succ {m : Nat} (hm : m ≤ i) : Doubles els (i + 1) (m + 1) ↔
    Doubles els i m ∧ 1024 * 2 ^ m ≤ position els (i + 1) + 1 := by
  simp only [Doubles, Nat.forall_lt_succ_right, Nat.add_sub_add_right, Nat.sub_add_cancel hm]

theorem doublings_succ (els : List (List Char)) (i : Nat) : doublings els (i + 1) =
    if 1024 * 2 ^ doublings els i ≤ position els (i + 1) + 1 then doublings els i + 1
    else doublings els i := by
  have hspec : Doubles els i (doublings els i) := Nat.findGreatest_spec (Nat.zero_le i) nofun
  have hle : doublings els i ≤ i := Nat.findGreatest_le i
  have hmax : ∀ {m}, m ≤ i → Doubles els i m → m ≤ doublings els i := Nat.le_findGreatest
  refine Nat.findGreatest_eq_iff.mpr ?_
  split
  · rename_i hreach
    refine ⟨by omega, fun _ => (doubles_succ hle).mpr ⟨hspec, hreach⟩, fun n hn hni hdoubles => ?_⟩
    obtain ⟨m, rfl⟩ := Nat.exists_eq_succ_of_ne_zero (Nat.ne_zero_of_lt hn)
    have := hmax (by omega) ((doubles_succ (by omega)).mp hdoubles).1
    omega
  · rename_i hreach
    refine ⟨by omega, fun _ k hk => ?_, fun n hn hni hdoubles => ?_⟩
    · exact (hspec k hk).trans (Nat.add_le_add_right (position_mono els (by omega)) 1)
    · obtain ⟨m, rfl⟩ := Nat.exists_eq_succ_of_ne_zero (Nat.ne_zero_of_lt hn)
      obtain ⟨hm, hreach'⟩ := (doubles_succ (by omega)).mp hdoubles
      have := hmax (by omega) hm
      obtain rfl : m = doublings els i := by omega
      exact hreach hreach'

theorem enlarge_eq (h : i < els.length) : enlarge (position els i) (1024 * 2 ^ doublings els i) els[i] =
    1024 * 2 ^ doublings els (i + 1) := by
  rw [doublings_succ, position_succ h, enlarge]
  split <;> rename_i hle
  · rw [if_pos (by omega), Nat.pow_succ, Nat.mul_assoc]
  · rw [if_neg (by omega)]

theorem forall_lineWrites_cons : (∀ w ∈ lineWrites cp max (el :: els), w.1 < w.2) ↔
    cp + el.length + 1 < enlarge cp max el ∧
      ∀ w ∈ lineWrites (cp + el.length + 1) (enlarge cp max el) els, w.1 < w.2 := by
  simp only [lineWrites, forall_mem_append, forall_mem_map, forall_mem_cons, mem_range]
  refine and_congr_left fun _ => ⟨fun h => h.2.2.1, fun h => ⟨fun k hk => ?_, ?_, h, nofun⟩⟩
  · omega
  · exact Nat.lt_of_succ_lt h

/-- An element is inside of the buffer, be that enlarged or not, if it is inside of one of twice the size. -/
theorem lt_enlarge_iff {n : Nat} (hn : n ≤ cp + el.length + 2) : n < enlarge cp max el ↔ n < 2 * max := by
  rw [enlarge]
  split <;> omega

theorem fits_iff (hi : i < els.length) : Fits els i ↔
    position els (i + 1) + (if i + 1 = els.length then 1 else 0) < 1024 * 2 ^ doublings els (i + 1) := by
  rw [← enlarge_eq hi, Fits, lt_enlarge_iff]
  rw [position_succ hi]
  split <;> omega

theorem forall_lineWrites_drop (hi : i < els.length) :
    (∀ w ∈ lineWrites (position els i) (1024 * 2 ^ doublings els i) (els.drop i), w.1 < w.2) ↔
      position els (i + 1) < 1024 * 2 ^ doublings els (i + 1) ∧
        ∀ w ∈ lineWrites (position els (i + 1)) (1024 * 2 ^ doublings els (i + 1)) (els.drop (i + 1)),
          w.1 < w.2 := by
  rw [drop_eq_getElem_cons hi, forall_lineWrites_cons, enlarge_eq hi, ← position_succ hi]

theorem forall_lineWrites {n : Nat} (hn : els.length = i + 1 + n) :
    (∀ w ∈ lineWrites (position els i) (1024 * 2 ^ doublings els i) (els.drop i), w.1 < w.2) ↔
      ∀ j, i ≤ j → j < els.length → Fits els j := by
  induction n generalizing i with
  | zero =>
    have hi : i < els.length := by omega
    have hfits := fits_iff hi
    rw [if_pos (by omega)] at hfits
    rw [forall_lineWrites_drop hi, drop_of_length_le (by omega)]
    simp only [lineWrites, forall_mem_cons]
    constructor
    · rintro ⟨-, -, hlast, -⟩ j hij hj
      obtain rfl : i = j := by omega
      exact hfits.mpr hlast
    · intro h
      have hlast := hfits.mp (h i le_rfl hi)
      exact ⟨by omega, by omega, hlast, nofun⟩
  | succ n ih =>
    have hi : i < els.length := by omega
    have hfits := fits_iff hi
    rw [if_neg (by omega)] at hfits
    rw [forall_lineWrites_drop hi, ih (by omega)]
    constructor
    · rintro ⟨hfit, hrest⟩ j hij hj
      rcases Nat.eq_or_lt_of_le hij with rfl | hij
      · exact hfits.mpr hfit
      · exact hrest j hij hj
    · exact fun h => ⟨hfits.mp (h i le_rfl hi), fun j hij => h j (by omega)⟩

/-- What is copied for the arguments behind the first; with each is said whether `quote` gets memory. -/
def elements (argv : List (List Char × Bool)) : List (List Char) := argv.tail.map fun a => element a.2 a.1

/-- **The line is written inside of its buffer if and only if every element lies below twice the size that
the buffer has before it.** -/
theorem lineInside_iff (argv : List (List Char × Bool)) :
    LineInside (elements argv) ↔ ∀ i < (elements argv).length, Fits (elements argv) i := by
  generalize elements argv = els
  cases els with
  | nil => exact iff_of_true (by simp [LineInside, lineWrites]) nofun
  | cons el els =>
    refine (forall_lineWrites (i := 0) (n := els.length) (Nat.add_comm ..)).trans ?_
    exact ⟨fun h i => h i (Nat.zero_le i), fun h i _ => h i⟩

/-- An argument of 2047 letters, for which the buffer is made 2048 bytes long. -/
theorem not_lineInside_long : ¬ LineInside (elements [(['c'], true), (replicate 2047 'a', true)]) := by
  have hplain : element true (replicate 2047 'a') = replicate 2047 'a' := by
    have hquote : ¬ needsQuote (replicate 2047 'a') := by
      rintro ⟨c, hc, hq⟩
      rw [eq_of_mem_replicate hc] at hq
      exact absurd hq (by decide)
    rw [element, quote, if_neg hquote]
    rfl
  have hmax : enlarge 0 1024 (replicate 2047 'a') = 2048 := by
    rw [enlarge, length_replicate]
    rfl
  rw [LineInside, elements, tail_cons, map_singleton, hplain, forall_lineWrites_cons, length_replicate, hmax]
  rintro ⟨-, hend⟩
  exact absurd (hend _ mem_cons_self) (by decide)

end Ixemul.Cli
