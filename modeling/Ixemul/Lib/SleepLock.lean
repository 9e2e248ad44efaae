/-
# Ixemul.Lib.SleepLock — a lock of two flags, and those who sleep until it is free.

One flag says that the lock is taken, the other that somebody wants it.  Who finds it taken sets the second
flag and sleeps; who leaves wakes all who sleep if that flag is set, and clears both.  A sleeper may also
wake up by itself, and looks at the lock again.  As long as nobody enters who did not find the lock free,
there is one inside at most, and who sleeps without having been woken can rely on both flags (`Exclusive`).
-/
import Mathlib.Tactic.Common

namespace Ixemul.Lib.SleepLock

open Function

/-- Where a task is, as far as the lock goes. -/
inductive Place where
  | out
  | asleep (woken : Bool)
  | inside
  deriving DecidableEq, Repr

structure State (ι : Type*) where
  locked : Bool
  wanted : Bool
  place : ι → Place

/-- Who sleeps is woken, if the lock is wanted. -/
def Place.wake (wanted : Bool) : Place → Place
  | .asleep woken => .asleep (woken || wanted)
  | p => p

theorem Place.wake_eq_inside {wanted : Bool} {p : Place} (h : p.wake wanted = .inside) : p = .inside := by
  cases p with
  | inside => rfl
  | out | asleep => exact nomatch h

theorem Place.wake_eq_asleep {wanted : Bool} {p : Place} (h : p.wake wanted = .asleep false) :
    p = .asleep false ∧ wanted = false := by
  cases p with
  | out | inside => exact nomatch h
  | asleep woken =>
    have hboth : (woken || wanted) = false := Place.asleep.inj h
    rw [Bool.or_eq_false_iff] at hboth
    exact ⟨congrArg Place.asleep hboth.1, hboth.2⟩

variable {ι : Type*}

/-! ## The steps -/

namespace State

/-- Both flags are cleared, who sleeps is woken. -/
def free (l : State ι) : State ι := ⟨false, false, fun t => (l.place t).wake l.wanted⟩

variable [DecidableEq ι]

/-- One task goes to another place. -/
def goTo (l : State ι) (t : ι) (p : Place) : State ι := { l with place := update l.place t p }

def leave (l : State ι) (t : ι) : State ι := l.free.goTo t .out

theorem goTo_eq_self {l : State ι} {t : ι} {p : Place} (h : l.place t = p) : l.goTo t p = l := by
  rw [State.goTo, ← h, update_eq_self]

end State

variable [DecidableEq ι]

inductive Step : State ι → State ι → Prop where
  /-- what becomes of the second flag is left to the program -/
  | enter {l : State ι} {t : ι} {wanted : Bool} (hfree : l.locked = false) :
      Step l (({ l with locked := true, wanted } : State ι).goTo t .inside)
  /-- it does not come to sleep, or does -/
  | want {l : State ι} {t : ι} (ht : l.place t = .out) (hl : l.locked = true) :
      Step l ({ l with wanted := true } : State ι)
  | sleep {l : State ι} {t : ι} (ht : l.place t = .out) (hl : l.locked = true) :
      Step l (({ l with wanted := true } : State ι).goTo t (.asleep false))
  | resume {l : State ι} {t : ι} {woken : Bool} (ht : l.place t = .asleep woken) : Step l (l.goTo t .out)
  | leave {l : State ι} {t : ι} (ht : l.place t = .inside) : Step l (l.leave t)

/-! ## What every step keeps -/

structure Exclusive (l : State ι) : Prop where
  locked : ∀ t, l.place t = .inside → l.locked = true
  one : ∀ t t', l.place t = .inside → l.place t' = .inside → t = t'
  asleep : ∀ t, l.place t = .asleep false → l.locked = true ∧ l.wanted = true

namespace Exclusive

variable {l l' : State ι} {t : ι}

omit [DecidableEq ι] in
theorem of_out (h : ∀ t, l.place t = .out) : Exclusive l where
  locked t ht := nomatch (h t).symm.trans ht
  one t _ ht := nomatch (h t).symm.trans ht
  asleep t ht := nomatch (h t).symm.trans ht

theorem goTo (h : Exclusive l) {p : Place} (hp : p ≠ .inside)
    (hasleep : p = .asleep false → l.locked ∧ l.wanted) : Exclusive (l.goTo t p) := by
  have hinside : ∀ t', (l.goTo t p).place t' = .inside → l.place t' = .inside :=
    (forall_update_iff l.place fun t' p => p = .inside → l.place t' = .inside).mpr
      ⟨fun h => absurd h hp, fun _ _ => id⟩
  constructor
  · exact fun t' ht' => h.locked t' (hinside t' ht')
  · exact fun t₁ t₂ h₁ h₂ => h.one t₁ t₂ (hinside t₁ h₁) (hinside t₂ h₂)
  · exact (forall_update_iff l.place fun _ p => p = .asleep false → _).mpr
      ⟨hasleep, fun t' _ => h.asleep t'⟩

omit [DecidableEq ι] in
theorem want (h : Exclusive l) : Exclusive ({ l with wanted := true } : State ι) :=
  { h with asleep := fun t ht => ⟨(h.asleep t ht).1, rfl⟩ }

theorem enter (h : Exclusive l) (hfree : l.locked = false) (wanted : Bool) :
    Exclusive (({ l with locked := true, wanted } : State ι).goTo t .inside) := by
  have hin : ∀ t', l.place t' ≠ .inside := by
    intro t' ht'
    rw [h.locked t' ht'] at hfree
    exact nomatch hfree
  have hasleep : ∀ t', l.place t' ≠ .asleep false := by
    intro t' ht'
    rw [(h.asleep t' ht').1] at hfree
    exact nomatch hfree
  have honly : ∀ t', update l.place t .inside t' = .inside → t' = t :=
    (forall_update_iff l.place fun t' p => p = .inside → t' = t).mpr
      ⟨fun _ => rfl, fun t' _ ht' => absurd ht' (hin t')⟩
  constructor
  · exact fun _ _ => rfl
  · exact fun t₁ t₂ h₁ h₂ => (honly t₁ h₁).trans (honly t₂ h₂).symm
  · exact (forall_update_iff l.place fun _ p => p = .asleep false → _).mpr
      ⟨nofun, fun t' _ ht' => absurd ht' (hasleep t')⟩

/-- Who leaves was the only one inside, and knew whether anybody slept. -/
theorem leave (h : Exclusive l) (ht : l.place t = .inside) : Exclusive (l.leave t) := by
  have hin : ∀ t', (l.leave t).place t' ≠ .inside :=
    (forall_update_iff l.free.place fun _ p => p ≠ .inside).mpr
      ⟨nofun, fun t' hne ht' => hne (h.one t' t (Place.wake_eq_inside ht') ht)⟩
  constructor
  · exact fun t' ht' => absurd ht' (hin t')
  · exact fun t₁ _ h₁ _ => absurd h₁ (hin t₁)
  · refine (forall_update_iff l.free.place fun _ p => p = .asleep false → _).mpr
      ⟨nofun, fun t' _ ht' => ?_⟩
    obtain ⟨hsleeps, hunwanted⟩ := Place.wake_eq_asleep ht'
    rw [(h.asleep t' hsleeps).2] at hunwanted
    exact nomatch hunwanted

/-- A step of a program is one of the lock's, or does not touch the lock. -/
theorem step (h : Exclusive l) (hstep : l' = l ∨ Step l l') : Exclusive l' := by
  rcases hstep with rfl | hstep
  · exact h
  cases hstep with
  | enter hfree => exact h.enter hfree _
  | want => exact h.want
  | sleep ht hl => exact h.want.goTo nofun fun _ => ⟨hl, rfl⟩
  | resume => exact h.goTo nofun nofun
  | leave ht => exact h.leave ht

end Exclusive

end Ixemul.Lib.SleepLock
