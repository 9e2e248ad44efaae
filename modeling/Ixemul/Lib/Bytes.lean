/-
# Ixemul.Lib.Bytes — memory as bytes, and words of four of them.

A memory gives a byte for every address.  A run of bytes is written and read as a list (`write`, `read`):
what was written is read back, and what lies apart from it is not touched.  A word of 32 bits is four
bytes with the highest first (`be32`, `ofBe32`).
-/
import Mathlib.Data.BitVec
import Mathlib.Data.List.Range

namespace Ixemul.Lib.Bytes

open List

abbrev Byte := BitVec 8

/-! ## Words -/

def be32 (w : BitVec 32) : List Byte :=
  [w.extractLsb' 24 8, w.extractLsb' 16 8, w.extractLsb' 8 8, w.extractLsb' 0 8]

/-- The word that the first four bytes make. -/
def ofBe32 : List Byte → BitVec 32
  | b₃ :: b₂ :: b₁ :: b₀ :: _ => b₃ ++ b₂ ++ b₁ ++ b₀
  | _ => 0

@[simp] theorem length_be32 (w : BitVec 32) : (be32 w).length = 4 := rfl

theorem ofBe32_be32_append (w : BitVec 32) (bs : List Byte) : ofBe32 (be32 w ++ bs) = w := by
  show (w.extractLsb' 24 8 ++ w.extractLsb' 16 8 ++ w.extractLsb' 8 8 ++ w.extractLsb' 0 8 : BitVec 32) = w
  apply BitVec.eq_of_getLsbD_eq
  intro i hi
  grind

theorem ofBe32_be32 (w : BitVec 32) : ofBe32 (be32 w) = w := by
  simpa using ofBe32_be32_append w []

/-! ## Runs of bytes -/

abbrev Mem := Nat → Byte

def read (m : Mem) (a n : Nat) : List Byte := (range n).map fun i => m (a + i)

def write (m : Mem) (a : Nat) (bs : List Byte) : Mem :=
  fun i => if a ≤ i then bs[i - a]?.getD (m i) else m i

variable {m m' : Mem} {a b n k : Nat} {bs : List Byte}

@[simp] theorem length_read : (read m a n).length = n := by
  simp [read]

theorem read_congr (h : ∀ i, a ≤ i → i < a + n → m i = m' i) : read m a n = read m' a n := by
  apply map_congr_left
  intro i hi
  rw [mem_range] at hi
  exact h (a + i) (Nat.le_add_right a i) (by omega)

theorem read_add : read m a (n + k) = read m a n ++ read m (a + n) k := by
  unfold read
  rw [range_add, map_append, map_map]
  congr 1
  apply map_congr_left
  intro i _
  show m (a + (n + i)) = m (a + n + i)
  rw [add_assoc]

theorem take_read (h : k ≤ n) : (read m a n).take k = read m a k := by
  obtain ⟨j, rfl⟩ := Nat.exists_eq_add_of_le h
  rw [read_add, take_left' length_read]

theorem drop_read (h : k ≤ n) : (read m a n).drop k = read m (a + k) (n - k) := by
  obtain ⟨j, rfl⟩ := Nat.exists_eq_add_of_le h
  rw [read_add, drop_left' length_read, Nat.add_sub_cancel_left]

theorem write_inside (h : a ≤ b) (hlt : b < a + bs.length) : write m a bs b = bs.get ⟨b - a, by omega⟩ := by
  rw [write, if_pos h, getElem?_eq_getElem (by omega)]
  rfl

theorem write_outside (h : b < a ∨ a + bs.length ≤ b) : write m a bs b = m b := by
  unfold write
  split
  · rw [getElem?_eq_none (by omega)]
    rfl
  · rfl

theorem read_write_self : read (write m a bs) a bs.length = bs := by
  apply ext_getElem length_read
  intro i hi hbs
  simp only [read, getElem_map, getElem_range]
  rw [write_inside (Nat.le_add_right a i) (by omega)]
  simp

theorem read_write_of_length (h : bs.length = n) : read (write m a bs) a n = bs := by
  subst h
  exact read_write_self

theorem read_write_apart (h : b + n ≤ a ∨ a + bs.length ≤ b) : read (write m a bs) b n = read m b n :=
  read_congr fun i hlo hhi => write_outside (by omega)

/-! ## Words in memory -/

/-- The word at an address. -/
def word (m : Mem) (a : Nat) : BitVec 32 := ofBe32 (read m a 4)

theorem word_congr (h : ∀ i, a ≤ i → i < a + 4 → m i = m' i) : word m a = word m' a := by
  rw [word, word, read_congr h]

theorem word_write_self (m : Mem) (a : Nat) (w : BitVec 32) : word (write m a (be32 w)) a = w := by
  rw [word, read_write_of_length (length_be32 w), ofBe32_be32]

theorem word_write_apart (h : b + 4 ≤ a ∨ a + bs.length ≤ b) : word (write m a bs) b = word m b := by
  rw [word, word, read_write_apart h]

end Ixemul.Lib.Bytes
