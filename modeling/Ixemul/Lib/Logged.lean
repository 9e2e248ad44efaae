/-
# Ixemul.Lib.Logged — computations on a state that log what they access.

A call that reads and writes memory is a function of the state that also lists its accesses, in order.
`Safe` is a pre- and postcondition with a condition on the accesses: from every state that meets `pre`, all
accesses meet `P`, and the result and the state after meet `post`.  There is one rule for each way of
composing computations; a loop over a list has an invariant (`Safe.forEach`).
-/
import Mathlib.Data.List.Basic

namespace Ixemul.Lib

open List

/-- A computation with result, state after and accesses. -/
def Logged (A σ α : Type) := σ → α × σ × List A

namespace Logged

variable {A σ α β : Type} {ι : Type*}

protected def pure (x : α) : Logged A σ α := fun s => (x, s, [])

protected def bind (m : Logged A σ α) (f : α → Logged A σ β) : Logged A σ β := fun s =>
  let r := m s
  let r' := f r.1 r.2.1
  (r'.1, r'.2.1, r.2.2 ++ r'.2.2)

instance : Monad (Logged A σ) where
  pure := Logged.pure
  bind := Logged.bind

/-- An access that yields what `f` finds in the state. -/
def load (a : A) (f : σ → α) : Logged A σ α := fun s => (f s, s, [a])

/-- An access that changes the state. -/
def store (a : A) (f : σ → σ) : Logged A σ Unit := fun s => ((), f s, [a])

/-- A part of the state whose accesses are not logged. -/
def look (f : σ → α) : Logged A σ α := fun s => (f s, s, [])

def change (f : σ → σ) : Logged A σ Unit := fun s => ((), f s, [])

/-- The accesses of a run. -/
def accesses (m : Logged A σ α) (s : σ) : List A := (m s).2.2

/-- The result of a run. -/
def result (m : Logged A σ α) (s : σ) : α := (m s).1

/-- The state after a run. -/
def final (m : Logged A σ α) (s : σ) : σ := (m s).2.1

section simp

variable (m : Logged A σ α) (g : α → Logged A σ β) (s : σ) (a : A) (x : α) (f : σ → α) (h : σ → σ)

@[simp] theorem accesses_pure : accesses (pure x : Logged A σ α) s = [] := rfl
@[simp] theorem result_pure : result (pure x : Logged A σ α) s = x := rfl
@[simp] theorem final_pure : final (pure x : Logged A σ α) s = s := rfl

@[simp] theorem accesses_bind :
    accesses (m >>= g) s = accesses m s ++ accesses (g (result m s)) (final m s) := rfl
@[simp] theorem result_bind : result (m >>= g) s = result (g (result m s)) (final m s) := rfl
@[simp] theorem final_bind : final (m >>= g) s = final (g (result m s)) (final m s) := rfl

@[simp] theorem accesses_load : accesses (load a f) s = [a] := rfl

@[simp] theorem accesses_look : accesses (look f : Logged A σ α) s = [] := rfl
@[simp] theorem result_look : result (look f : Logged A σ α) s = f s := rfl
@[simp] theorem final_look : final (look f : Logged A σ α) s = s := rfl

@[simp] theorem accesses_change : accesses (change h : Logged A σ Unit) s = [] := rfl

end simp

/-! ## Pre- and postconditions -/

/-- From a state that meets `pre`, all accesses meet `P` and the end meets `post`. -/
def Safe (P : A → Prop) (pre : σ → Prop) (m : Logged A σ α) (post : α → σ → Prop) : Prop :=
  ∀ s, pre s → (∀ a ∈ accesses m s, P a) ∧ post (result m s) (final m s)

variable {P : A → Prop} {pre : σ → Prop} {post : α → σ → Prop} {m : Logged A σ α} {a : A}
  {f : ι → Logged A σ Unit} {xs : List ι}

theorem Safe.pure {x : α} (h : ∀ s, pre s → post x s) : Safe P pre (pure x : Logged A σ α) post :=
  fun s hs => ⟨by simp, h s hs⟩

theorem Safe.bind {mid : α → σ → Prop} {post : β → σ → Prop} {f : α → Logged A σ β}
    (hm : Safe P pre m mid) (hf : ∀ x, Safe P (mid x) (f x) post) : Safe P pre (m >>= f) post := by
  intro s hs
  obtain ⟨hacc, hmid⟩ := hm s hs
  obtain ⟨hacc', hpost⟩ := hf _ _ hmid
  refine ⟨?_, hpost⟩
  exact forall_mem_append.mpr ⟨hacc, hacc'⟩

theorem Safe.load {f : σ → α} (ha : P a) (h : ∀ s, pre s → post (f s) s) : Safe P pre (load a f) post :=
  fun s hs => ⟨fun _ hb => mem_singleton.mp hb ▸ ha, h s hs⟩

theorem Safe.store {f : σ → σ} {post : Unit → σ → Prop} (ha : P a)
    (h : ∀ s, pre s → post () (f s)) : Safe P pre (store a f) post :=
  fun s hs => ⟨fun _ hb => mem_singleton.mp hb ▸ ha, h s hs⟩

theorem Safe.look {f : σ → α} (h : ∀ s, pre s → post (f s) s) : Safe P pre (look f : Logged A σ α) post :=
  fun s hs => ⟨by simp, h s hs⟩

theorem Safe.bind_look {s₀ : σ} {post : β → σ → Prop} {f : σ → α} {g : α → Logged A σ β}
    (h : Safe P (· = s₀) (g (f s₀)) post) : Safe P (· = s₀) (Logged.look f >>= g) post := by
  rintro s rfl
  exact h s rfl

theorem Safe.change {f : σ → σ} {post : Unit → σ → Prop} (h : ∀ s, pre s → post () (f s)) :
    Safe P pre (change f : Logged A σ Unit) post :=
  fun s hs => ⟨by simp, h s hs⟩

/-- A loop over a list. -/
def forEach (xs : List ι) (f : ι → Logged A σ Unit) : Logged A σ Unit :=
  match xs with
  | [] => pure ()
  | x :: xs => do f x; forEach xs f

theorem Safe.forEach_done (inv : List ι → σ → Prop)
    (h : ∀ made x, x ∈ xs → Safe P (inv made) (f x) (fun _ => inv (made ++ [x]))) (made : List ι) :
    Safe P (inv made) (forEach xs f) (fun _ => inv (made ++ xs)) := by
  induction xs generalizing made with
  | nil =>
    rw [append_nil]
    exact Safe.pure fun _ hs => hs
  | cons x xs ih =>
    have hhead := h made x mem_cons_self
    have htail := ih (fun made y hy => h made y (mem_cons_of_mem _ hy)) (made ++ [x])
    rw [append_assoc] at htail
    exact Safe.bind hhead fun _ => htail

theorem Safe.forEach (inv : List ι → σ → Prop)
    (hpre : ∀ s, pre s → inv [] s)
    (h : ∀ made x, x ∈ xs → Safe P (inv made) (f x) (fun _ => inv (made ++ [x]))) :
    Safe P pre (forEach xs f) (fun _ => inv xs) :=
  fun s hs => Safe.forEach_done inv h [] s (hpre s hs)

theorem mem_accesses_forEach (inv : σ → Prop) {x : ι}
    (hx : x ∈ xs) (hinv : ∀ y s, inv s → inv (final (f y) s)) (ha : ∀ s, inv s → a ∈ accesses (f x) s)
    {s : σ} (hs : inv s) : a ∈ accesses (forEach xs f) s := by
  induction xs generalizing s with
  | nil => exact absurd hx not_mem_nil
  | cons y xs ih =>
    rcases mem_cons.mp hx with rfl | hrest
    · exact mem_append_left _ (ha s hs)
    · exact mem_append_right _ (ih hrest (hinv y s hs))

end Logged

end Ixemul.Lib
