/-
# Ixemul.Lib.Align — rounding an address down to a power of two.

C code masks the low bits away, with `~(a - 1)` or with `-a`.  Both are the same word, and for `a = 2 ^ k`
masking with it takes `x % 2 ^ k` off `x`.
-/
import Mathlib.Data.BitVec
import Mathlib.Tactic.Ring

namespace Ixemul.Lib.Align

open BitVec

variable {w k : Nat} (x a : BitVec w)

def down : BitVec w := x &&& ~~~(a - 1)

theorem not_sub_one : ~~~(a - 1) = -a := by
  have h := neg_eq_not_add (a - 1)
  rw [eq_comm, ← eq_sub_iff_add_eq] at h
  rw [h]
  show -(a - 1) - (1 : BitVec w) = -a
  ring

theorem and_neg : x &&& -a = down x a := by
  rw [down, not_sub_one]

theorem toNat_and_add_toNat_and_not (m : BitVec w) : (x &&& m).toNat + (x &&& ~~~m).toNat = x.toNat := by
  have hapart : (x &&& m) &&& (x &&& ~~~m) = 0#w := by
    ext i hi
    simp only [getElem_and, getElem_not, getElem_zero]
    cases m[i] <;> simp
  have hwhole : (x &&& m) ||| (x &&& ~~~m) = x := by
    ext i hi
    simp only [getElem_or, getElem_and, getElem_not]
    cases m[i] <;> simp
  rw [← toNat_add_of_and_eq_zero hapart, add_eq_or_of_and_eq_zero _ _ hapart, hwhole]

variable {a}

theorem toNat_and_sub_one (ha : a.toNat = 2 ^ k) : (x &&& (a - 1)).toNat = x.toNat % 2 ^ k := by
  have hlow : (a - 1).toNat = 2 ^ k - 1 := by
    have hpos : 0 < 2 ^ k := Nat.two_pow_pos k
    have hone : (1 : BitVec w).toNat = 1 % 2 ^ w := toNat_ofNat ..
    rw [Nat.mod_eq_of_lt (by omega)] at hone
    rw [toNat_sub_of_le (by rw [le_def]; omega), ha, hone]
  rw [toNat_and, hlow, Nat.and_two_pow_sub_one_eq_mod]

theorem toNat_down (ha : a.toNat = 2 ^ k) : (down x a).toNat = x.toNat - x.toNat % 2 ^ k := by
  have hwhole := toNat_and_add_toNat_and_not x (a - 1)
  rw [toNat_and_sub_one x ha] at hwhole
  exact Nat.eq_sub_of_add_eq' hwhole

/-! ## Rounding up -/

/-- The next multiple of `2 ^ k`. -/
def up (k p : Nat) : Nat := p + 2 ^ k - 1 - (p + 2 ^ k - 1) % 2 ^ k

variable (k) (p : Nat)

theorem dvd_up : 2 ^ k ∣ up k p := Nat.dvd_sub_mod _

theorem le_up : p ≤ up k p := by
  unfold up
  omega

variable {k p}

/-- From one multiple of a power of two to the next one of a larger power, it is at least the smaller one, and
as much is left of the larger. -/
theorem up_bounds {j : Nat} (hj : 2 ^ j ∣ p) (hk : ¬ 2 ^ k ∣ p) :
    p + 2 ^ j ≤ up k p ∧ up k p + 2 ^ j ≤ p + 2 ^ k := by
  have hjk : 2 ^ j ∣ 2 ^ k := by
    refine Nat.pow_dvd_pow 2 (Nat.le_of_not_lt fun hlt => hk ?_)
    exact (Nat.pow_dvd_pow 2 (Nat.le_of_lt hlt)).trans hj
  have hdvd : 2 ^ j ∣ up k p := hjk.trans (dvd_up k p)
  have hlt : p < up k p := Nat.lt_of_le_of_ne (le_up k p) fun heq => hk (heq ▸ dvd_up k p)
  have hupper : up k p < p + 2 ^ k := by
    unfold up
    omega
  -- both differences are multiples of the smaller power, and not zero
  have hlow := Nat.le_of_dvd (Nat.sub_pos_of_lt hlt) (Nat.dvd_sub hdvd hj)
  have hhigh := Nat.le_of_dvd (Nat.sub_pos_of_lt hupper) (Nat.dvd_sub (Nat.dvd_add hj hjk) hdvd)
  omega

end Ixemul.Lib.Align
