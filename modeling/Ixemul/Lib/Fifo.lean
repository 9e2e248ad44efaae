/-
# Ixemul.Lib.Fifo — a bounded queue with a record of everything that passed through it.

The abstract side of a byte stream: elements are put behind the queue, in lots that fit, and taken from
its front.  Whatever the interleaving, what was given is what was taken followed by what is queued.
-/
import Ixemul.Lib.Run

namespace Ixemul.Lib.Fifo

open Lib.Run

variable {α : Type*}

structure Channel (α : Type*) where
  queue : List α
  /-- everything that was ever put, in order -/
  given : List α
  /-- everything that was ever taken, in order -/
  taken : List α

/-- One lot put, or one lot taken. -/
inductive Step (cap : Nat) : Channel α → Channel α → Prop where
  | put {q : Channel α} (xs : List α) (h : q.queue.length + xs.length ≤ cap) :
      Step cap q { q with queue := q.queue ++ xs, given := q.given ++ xs }
  | take {q : Channel α} (xs rest : List α) (h : q.queue = xs ++ rest) :
      Step cap q { q with queue := rest, taken := q.taken ++ xs }

/-- The queue of at most `cap` elements, empty at first. -/
def system (α : Type*) (cap : Nat) : System (Channel α) where
  init := fun q => q = ⟨[], [], []⟩
  step := Step cap

/-- **Nothing is lost, duplicated or reordered**, and the bound holds. -/
theorem conserved {cap : Nat} {q : Channel α} (h : Reachable (system α cap) q) :
    q.taken ++ q.queue = q.given ∧ q.queue.length ≤ cap := by
  refine h.invariant (I := fun q => q.taken ++ q.queue = q.given ∧ q.queue.length ≤ cap) ?_ ?_
  · rintro q rfl
    simp
  · rintro q q' ⟨heq, hlen⟩ hstep
    cases hstep with
    | put xs h =>
      refine ⟨?_, by simpa using h⟩
      simp only [← heq, List.append_assoc]
    | take xs rest h =>
      refine ⟨?_, ?_⟩
      · simp only [← heq, h, List.append_assoc]
      · have := congrArg List.length h
        simp only [List.length_append] at this
        simp only
        omega

end Ixemul.Lib.Fifo
