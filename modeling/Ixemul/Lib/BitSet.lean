/-
# Ixemul.Lib.BitSet — sets of numbers as bits of 32-bit words.

A set is the memory from the address of its first word on: a word for every index.  Setting and clearing a
bit changes the one bit and no other word; copying words takes all of their bits along.
-/
import Mathlib.Data.BitVec

namespace Ixemul.Lib.BitSet

open BitVec Function

abbrev Words := Nat → BitVec 32

def mask (n : Nat) : BitVec 32 := 1#32 <<< (n % 32)

def isSet (n : Nat) (w : Words) : Bool := w (n / 32) &&& mask n != 0

def set (n : Nat) (w : Words) : Words := update w (n / 32) (w (n / 32) ||| mask n)

def clr (n : Nat) (w : Words) : Words := update w (n / 32) (w (n / 32) &&& ~~~mask n)

/-- The first `n` words of `src` are copied. -/
def copy (n : Nat) (src dst : Words) : Words := fun k => if k < n then src k else dst k

variable {m n k : Nat} {w src dst : Words}

theorem getLsbD_mask (n i : Nat) : (mask n).getLsbD i = decide (n % 32 = i) := by
  have hlt : n % 32 < 32 := Nat.mod_lt _ (by decide)
  rw [mask, ← twoPow_eq]
  simp [hlt]

theorem isSet_eq (n : Nat) (w : Words) : isSet n w = (w (n / 32)).getLsbD (n % 32) := by
  rw [isSet]
  cases hbit : (w (n / 32)).getLsbD (n % 32) with
  | true =>
    rw [bne_iff_ne]
    intro hzero
    have hone : (w (n / 32) &&& mask n).getLsbD (n % 32) := by
      rw [getLsbD_and, hbit, getLsbD_mask]
      simp
    rw [hzero] at hone
    simp at hone
  | false =>
    rw [bne_eq_false_iff_eq]
    apply eq_of_getLsbD_eq
    intro i hi
    rw [getLsbD_and, getLsbD_mask]
    by_cases h : n % 32 = i
    · subst h
      simp [hbit]
    · simp [h]

theorem isSet_set : isSet m (set n w) = (decide (m = n) || isSet m w) := by
  rw [isSet_eq, isSet_eq]
  by_cases hword : m / 32 = n / 32
  · have hsame : n % 32 = m % 32 ↔ m = n := by omega
    rw [set, hword, update_self, getLsbD_or, getLsbD_mask, Bool.or_comm]
    simp [hsame]
  · have hne : m ≠ n := fun h => hword (congrArg (· / 32) h)
    rw [set, update_of_ne hword]
    simp [hne]

theorem isSet_clr : isSet m (clr n w) = (!decide (m = n) && isSet m w) := by
  rw [isSet_eq, isSet_eq]
  by_cases hword : m / 32 = n / 32
  · have hsame : n % 32 = m % 32 ↔ m = n := by omega
    have hlt : m % 32 < 32 := Nat.mod_lt _ (by decide)
    rw [clr, hword, update_self, getLsbD_and, getLsbD_not, getLsbD_mask, Bool.and_comm]
    simp [hsame, hlt]
  · have hne : m ≠ n := fun h => hword (congrArg (· / 32) h)
    rw [clr, update_of_ne hword]
    simp [hne]

theorem clr_apply_of_ne (h : k ≠ n / 32) : clr n w k = w k := update_of_ne h _ _

theorem isSet_zero : isSet n (fun _ => 0) = false := by
  rw [isSet_eq]
  simp

theorem isSet_copy (h : n / 32 < k) : isSet n (copy k src dst) = isSet n src := by
  rw [isSet_eq, isSet_eq, copy, if_pos h]

end Ixemul.Lib.BitSet
