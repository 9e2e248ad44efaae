/-
# Ixemul.Lib.Forest — parents, ancestors and roots.

A forest is given by the parent of every node, with a depth that a parent is less of, so that the way up
ends.  `Above` is being a proper ancestor.  A loop that goes up from a node and looks for another finds it
exactly if it is above (`climb_iff`); nodes one of which is above the other have the same root.
-/
import Mathlib.Logic.Relation

namespace Ixemul.Lib

structure Forest (ι : Type*) where
  parent : ι → Option ι
  depth : ι → Nat
  depth_parent : ∀ {i p}, parent i = some p → depth p < depth i

namespace Forest

variable {ι : Type*} (F : Forest ι) {a b c p : ι}

/-- `a` is a proper ancestor of `b`. -/
def Above (a b : ι) : Prop := Relation.TransGen (fun x y => F.parent y = some x) a b

variable {F}

theorem Above.trans (hab : F.Above a b) (hbc : F.Above b c) : F.Above a c := Relation.TransGen.trans hab hbc

theorem Above.depth_lt (h : F.Above a b) : F.depth a < F.depth b := by
  induction h with
  | single h => exact F.depth_parent h
  | tail _ h ih => exact Nat.lt_trans ih (F.depth_parent h)

theorem not_above_self : ¬ F.Above a a := fun h => Nat.lt_irrefl _ h.depth_lt

theorem above_of_parent_none (h : F.parent b = none) : ¬ F.Above a b := by
  intro hab
  obtain ⟨c, -, hc⟩ := Relation.TransGen.tail'_iff.mp hab
  rw [h] at hc
  cases hc

theorem above_iff_of_parent (h : F.parent b = some p) : F.Above a b ↔ p = a ∨ F.Above a p := by
  constructor
  · intro hab
    obtain ⟨c, hac, hc⟩ := Relation.TransGen.tail'_iff.mp hab
    cases h.symm.trans hc
    rcases Relation.reflTransGen_iff_eq_or_transGen.mp hac with heq | hac
    · exact .inl heq
    · exact .inr hac
  · rintro (rfl | hap)
    · exact Relation.TransGen.single h
    · exact hap.tail h

/-! ## The way up -/

section Climb

variable [DecidableEq ι]

/-- Whether `a` is met on the way up from a node, in at most so many steps. -/
def climb (F : Forest ι) (a : ι) : Nat → ι → Bool
  | 0, _ => false
  | n + 1, b =>
    match F.parent b with
    | none => false
    | some p => if p = a then true else F.climb a n p

theorem climb_iff {n : Nat} (hn : F.depth b ≤ n) : F.climb a n b ↔ F.Above a b := by
  induction n generalizing b with
  | zero =>
    have hroot : F.parent b = none := by
      cases hp : F.parent b with
      | none => rfl
      | some => exact absurd (F.depth_parent hp) (by omega)
    simp only [climb, Bool.false_eq_true, above_of_parent_none hroot]
  | succ n ih =>
    rw [climb]
    cases hp : F.parent b with
    | none => simp only [Bool.false_eq_true, above_of_parent_none hp]
    | some p =>
      have hlt := F.depth_parent hp
      rw [above_iff_of_parent hp, ← ih (by omega)]
      by_cases hpa : p = a
      · simp [hpa]
      · simp [hpa]

end Climb

/-! ## Roots -/

def rootFrom (F : Forest ι) : Nat → ι → ι
  | 0, b => b
  | n + 1, b =>
    match F.parent b with
    | none => b
    | some p => F.rootFrom n p

/-- The node at the end of the way up. -/
def root (F : Forest ι) (b : ι) : ι := F.rootFrom (F.depth b) b

theorem rootFrom_eq {n m : Nat} (hn : F.depth b ≤ n) (hm : F.depth b ≤ m) :
    F.rootFrom n b = F.rootFrom m b := by
  induction n generalizing b m with
  | zero =>
    cases m with
    | zero => rfl
    | succ =>
      rw [rootFrom, rootFrom]
      cases hp : F.parent b with
      | none => rfl
      | some => exact absurd (F.depth_parent hp) (by omega)
  | succ n ih =>
    cases hp : F.parent b with
    | none =>
      cases m with
      | zero | succ => simp only [rootFrom, hp]
    | some =>
      have hlt := F.depth_parent hp
      cases m with
      | zero => omega
      | succ =>
        simp only [rootFrom, hp]
        exact ih (by omega) (by omega)

theorem root_parent (h : F.parent b = some p) : F.root p = F.root b := by
  have hlt := F.depth_parent h
  obtain ⟨m, hm⟩ : ∃ m, F.depth b = m + 1 := ⟨F.depth b - 1, by omega⟩
  rw [root, root, hm]
  simp only [rootFrom, h]
  exact rootFrom_eq (Nat.le_refl _) (by omega)

theorem Above.root_eq (h : F.Above a b) : F.root a = F.root b := by
  induction h with
  | single h => exact root_parent h
  | tail _ h ih => exact ih.trans (root_parent h)

end Forest

end Ixemul.Lib
