/-
# Ixemul.Lib.MoveDown — cells of an array that are moved down in place.

A loop copies cell `i + d` to cell `i`, from low indices to high.  What it reads lies above all that it has
written, so each cell gets what stood `d` above it at the start (`moveDown_apply`), although the cells that
are read and those that are written overlap.
-/
import Mathlib.Logic.Function.Basic

namespace Ixemul.Lib

open Function

variable {α : Type*}

/-- From cell `i` on, `n` cells one after the other get what stands `d` above them. -/
def moveDown (d : Nat) (cells : Nat → α) (i : Nat) : Nat → (Nat → α)
  | 0 => cells
  | n + 1 => moveDown d (update cells i (cells (i + d))) (i + 1) n

/-- The cells after the loop, by those before it. -/
theorem moveDown_apply (d : Nat) (cells : Nat → α) (i n j : Nat) :
    moveDown d cells i n j = if i ≤ j ∧ j < i + n then cells (j + d) else cells j := by
  induction n generalizing cells i with
  | zero => rw [moveDown, if_neg (by omega)]
  | succ n ih =>
    rw [moveDown, ih]
    -- the cell read for j is above the one written, so it is still what it was
    by_cases hlow : i + 1 ≤ j ∧ j < i + 1 + n
    · rw [if_pos hlow, if_pos (by omega), update_of_ne (by omega)]
    · rw [if_neg hlow]
      by_cases hi : j = i
      · subst hi
        rw [update_self, if_pos (by omega)]
      · rw [update_of_ne hi, if_neg (by omega)]

end Ixemul.Lib
