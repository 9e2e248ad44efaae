/-
# Ixemul.Lib.Run — runs of a transition system and their invariants.

What is to hold in every run of a system is proved from its start and one step (`Reachable.invariant`); a
run of one system is a run of another when every step of it is matched by steps of the other
(`Reachable.simulate`).  Where steps carry a label, a run is kept with its history (`History`), so that one
can ask of the steps it took whether they met a condition.
-/
import Mathlib.Logic.Relation

namespace Ixemul.Lib.Run

open List

variable {σ : Type*} {I : σ → Prop}

/-- A transition system. -/
structure System (σ : Type*) where
  init : σ → Prop
  step : σ → σ → Prop

/-- The states that some run of the system gets to. -/
inductive Reachable (S : System σ) : σ → Prop where
  | init {s : σ} (h : S.init s) : Reachable S s
  | step {s t : σ} (hs : Reachable S s) (h : S.step s t) : Reachable S t

variable {S : System σ}

theorem Reachable.invariant (hinit : ∀ s, S.init s → I s)
    (hstep : ∀ s t, I s → S.step s t → I t) {s : σ} (h : Reachable S s) : I s := by
  induction h with
  | init h => exact hinit _ h
  | step _ h ih => exact hstep _ _ ih h

theorem Reachable.steps {s t : σ} (hs : Reachable S s)
    (h : Relation.ReflTransGen S.step s t) : Reachable S t := by
  induction h with
  | refl => exact hs
  | tail _ h ih => exact .step ih h

/-- **Forward simulation**: where related states step to related states, with any number of steps on the
abstract side, every reachable state is related to a reachable one. -/
theorem Reachable.simulate {τ : Type*} {T : System τ} {R : σ → τ → Prop}
    (hinit : ∀ s, S.init s → ∃ t, T.init t ∧ R s t)
    (hstep : ∀ s s' t, R s t → S.step s s' → ∃ t', Relation.ReflTransGen T.step t t' ∧ R s' t')
    {s : σ} (h : Reachable S s) : ∃ t, Reachable T t ∧ R s t := by
  induction h with
  | init h =>
    obtain ⟨t, ht, hR⟩ := hinit _ h
    exact ⟨t, .init ht, hR⟩
  | step _ h ih =>
    obtain ⟨t, ht, hR⟩ := ih
    obtain ⟨t', hsteps, hR'⟩ := hstep _ _ _ hR h
    exact ⟨t', ht.steps hsteps, hR'⟩

/-! ## Runs with their history -/

variable {α : Type*} {step : σ → α → σ → Prop} {s t : σ} {tr : List (σ × α)} {C P : σ → α → Prop}

/-- `tr` lists the steps of a run from `s` to `t`, each with the state it was taken in. -/
inductive History (step : σ → α → σ → Prop) : σ → List (σ × α) → σ → Prop where
  | nil (s : σ) : History step s [] s
  | snoc {s t u : σ} {tr : List (σ × α)} {a : α} (h : History step s tr t) (hs : step t a u) :
      History step s (tr ++ [(t, a)]) u

theorem History.invariant (hstep : ∀ s a t, I s → C s a → step s a t → I t) (h : History step s tr t)
    (hs : I s)
    (hC : ∀ x ∈ tr, C x.1 x.2) : I t := by
  induction h with
  | nil => exact hs
  | snoc _ hst ih =>
    have hprev := ih fun x hx => hC x (mem_append_left _ hx)
    exact hstep _ _ _ hprev (hC _ (mem_append_right _ (mem_singleton_self _))) hst

theorem History.forall_steps (hstep : ∀ s a t, I s → C s a → step s a t → I t ∧ P s a)
    (h : History step s tr t) (hs : I s)
    (hC : ∀ x ∈ tr, C x.1 x.2) : ∀ x ∈ tr, P x.1 x.2 := by
  induction h with
  | nil => exact fun x hx => absurd hx not_mem_nil
  | @snoc t u tr a h hst ih =>
    rw [forall_mem_append, forall_mem_singleton] at hC ⊢
    have hprev : I t := h.invariant (fun s a t hs hc hst => (hstep s a t hs hc hst).1) hs hC.1
    exact ⟨ih hC.1, (hstep t a u hprev hC.2 hst).2⟩

/-- Where the steps that say `P` are those that meet `C`, and these keep an invariant, the runs all of whose
steps say `P` are those all of whose steps meet `C`. -/
theorem History.forall_iff (hstep : ∀ s a t, I s → step s a t → (P s a ↔ C s a) ∧ (C s a → I t))
    (h : History step s tr t)
    (hs : I s) : (∀ x ∈ tr, P x.1 x.2) ↔ ∀ x ∈ tr, C x.1 x.2 := by
  constructor
  · refine h.forall_steps (fun s a t hI hP hst => ?_) hs
    obtain ⟨hiff, hkeep⟩ := hstep s a t hI hst
    exact ⟨hkeep (hiff.mp hP), hiff.mp hP⟩
  · refine h.forall_steps (fun s a t hI hC hst => ?_) hs
    obtain ⟨hiff, hkeep⟩ := hstep s a t hI hst
    exact ⟨hkeep hC, hiff.mpr hC⟩

/-- Where `C` says which steps keep an invariant `I`, and no other step leads from it to where `G` holds, the
runs that stay inside `G` are those whose steps all meet `C`. -/
theorem History.always_iff_of_invariant {G : σ → Prop} (hG : ∀ s, I s → G s)
    (hkeep : ∀ s a t, I s → C s a → step s a t → I t) (hneed : ∀ s a t, I s → step s a t → G t → C s a)
    (h : History step s tr t) (hs : I s) :
    ((∀ x ∈ tr, G x.1) ∧ G t) ↔ ∀ x ∈ tr, C x.1 x.2 := by
  induction h with
  | nil => simp [hG _ hs]
  | @snoc t u tr a h hst ih =>
    simp only [forall_mem_append, forall_mem_singleton]
    constructor
    · rintro ⟨⟨htr, ht⟩, hu⟩
      have hall := ih.mp ⟨htr, ht⟩
      exact ⟨hall, hneed t a u (h.invariant hkeep hs hall) hst hu⟩
    · rintro ⟨htr, hc⟩
      have hu := hkeep t a u (h.invariant hkeep hs htr) hc hst
      exact ⟨ih.mpr htr, hG u hu⟩

/-- Where `C` says exactly which steps keep `I`, the runs that stay inside `I` are those whose steps all
meet `C`. -/
theorem History.always_iff (hstep : ∀ s a t, I s → step s a t → (I t ↔ C s a)) (h : History step s tr t)
    (hs : I s) :
    ((∀ x ∈ tr, I x.1) ∧ I t) ↔ ∀ x ∈ tr, C x.1 x.2 :=
  h.always_iff_of_invariant (fun _ hs => hs) (fun s a t hs hc hst => (hstep s a t hs hst).mpr hc)
    (fun s a t hs hst ht => (hstep s a t hs hst).mp ht) hs

/-! Where a step is what a function computes, under a condition, a list of actions gives a run. -/

variable {E : σ → α → Prop} {run : σ → α → σ}

/-- The states that `run` goes through, each with the action taken in it. -/
def trace (run : σ → α → σ) (s : σ) : List α → List (σ × α)
  | [] => []
  | a :: as => (s, a) :: trace run (run s a) as

theorem History.trace {s₀ : σ}
    (h : History (fun s a t => E s a ∧ t = run s a) s₀ tr s) (as : List α)
    (has : ∀ x ∈ trace run s as, E x.1 x.2) :
    History (fun s a t => E s a ∧ t = run s a) s₀ (tr ++ Run.trace run s as) (as.foldl run s) := by
  induction as generalizing s tr with
  | nil => simpa [Run.trace] using h
  | cons a as ih =>
    have hhead : E s a := has (s, a) mem_cons_self
    have htail := ih (h.snoc ⟨hhead, rfl⟩) fun x hx => has x (mem_cons_of_mem _ hx)
    rwa [append_assoc] at htail

end Ixemul.Lib.Run
