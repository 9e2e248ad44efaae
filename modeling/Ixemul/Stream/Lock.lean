/-
# Ixemul.Stream.Lock — the lock of a stream (unp.c: get_stream, release_stream).

The lock is the flag UNF_LOCKED.  Who finds it set leaves UNF_WANT_LOCK behind and sleeps, both inside one
Forbid; `ix_sleep` may come back early, and then the loop looks again.  UNF_WANT_LOCK is cleared by who gets
the lock as well as by who gives it up, and nobody is forgotten by that.

A pass of the loop is one step; between two passes a task counts as awake, which only adds runs.  The calls
of `stream_read` and `stream_write` use the lock in this way (`callLock`).
-/
import Ixemul.Lib.SleepLock
import Ixemul.Stream.Wakeup

namespace Ixemul.Stream.Lock

open Lib Lib.Run

/-- Where a task is. -/
inductive Pc where
  | idle
  /-- in the loop of `get_stream` -/
  | trying
  | asleep (woken : Bool)
  /-- between `get_stream` and its `release_stream` -/
  | holding
  deriving DecidableEq, Repr

/-- UNF_LOCKED and UNF_WANT_LOCK, and the tasks. -/
structure Sys where
  locked : Bool
  wantLock : Bool
  pc : Nat → Pc

/-- `ix_wakeup` on the flags, if the lock is wanted. -/
def Pc.wake (wantLock : Bool) : Pc → Pc
  | .asleep woken => .asleep (woken || wantLock)
  | pc => pc

namespace Sys

def start : Sys := ⟨false, false, fun _ => .idle⟩

def setPc (y : Sys) (t : Nat) (pc : Pc) : Sys := { y with pc := Function.update y.pc t pc }

/-- One pass of the loop of `get_stream`; `intr` says that `ix_sleep` finds a signal and does not sleep. -/
def tryLock (y : Sys) (t : Nat) (intr : Bool) : Sys :=
  if !y.locked then ({ y with wantLock := false, locked := true } : Sys).setPc t .holding
  else ({ y with wantLock := true } : Sys).setPc t (if intr then .trying else .asleep false)

def releaseStream (y : Sys) (t : Nat) : Sys :=
  (⟨false, false, fun t' => (y.pc t').wake y.wantLock⟩ : Sys).setPc t .idle

end Sys

inductive Step : Sys → Sys → Prop where
  | getStream {y : Sys} {t : Nat} (ht : y.pc t = .idle) : Step y (y.setPc t .trying)
  | tryLock {y : Sys} {t : Nat} (intr : Bool) (ht : y.pc t = .trying) : Step y (y.tryLock t intr)
  /-- it was woken, or a signal came -/
  | resume {y : Sys} {t : Nat} {woken : Bool} (ht : y.pc t = .asleep woken) : Step y (y.setPc t .trying)
  | releaseStream {y : Sys} {t : Nat} (ht : y.pc t = .holding) : Step y (y.releaseStream t)

def system : System Sys := ⟨(· = Sys.start), Step⟩

/-! ## The places of the lock -/

def Pc.place : Pc → SleepLock.Place
  | .idle => .out
  | .trying => .out
  | .asleep woken => .asleep woken
  | .holding => .inside

def Sys.lock (y : Sys) : SleepLock.State Nat := ⟨y.locked, y.wantLock, fun t => (y.pc t).place⟩

theorem place_wake (wantLock : Bool) (pc : Pc) : (pc.wake wantLock).place = pc.place.wake wantLock := by
  cases pc <;> rfl

theorem lock_setPc (y : Sys) (t : Nat) (pc : Pc) : (y.setPc t pc).lock = y.lock.goTo t pc.place :=
  congrArg (SleepLock.State.mk y.locked y.wantLock) (Function.comp_update Pc.place y.pc t pc)

theorem lock_releaseStream (y : Sys) (t : Nat) : (y.releaseStream t).lock = y.lock.leave t := by
  rw [Sys.releaseStream, lock_setPc]
  congr 1
  exact congrArg (SleepLock.State.mk false false) (funext fun t' => place_wake y.wantLock (y.pc t'))

theorem lock_step {y y' : Sys} (h : Step y y') : y'.lock = y.lock ∨ SleepLock.Step y.lock y'.lock := by
  cases h with
  | @getStream t ht =>
    have hout : y.lock.place t = .out := congrArg Pc.place ht
    left
    rw [lock_setPc]
    exact SleepLock.State.goTo_eq_self hout
  | @tryLock t intr ht =>
    have hout : y.lock.place t = .out := congrArg Pc.place ht
    right
    unfold Sys.tryLock
    rcases Bool.eq_false_or_eq_true y.locked with hl | hl
    · rw [if_neg (by simp [hl]), lock_setPc]
      cases intr with
      | false => exact .sleep hout hl
      | true =>
        have hstay : (({ y with wantLock := true } : Sys).lock).goTo t .out =
            { y.lock with wanted := true } :=
          SleepLock.State.goTo_eq_self hout
        show SleepLock.Step y.lock ((({ y with wantLock := true } : Sys).lock).goTo t .out)
        rw [hstay]
        exact .want hout hl
    · rw [if_pos (by simp [hl]), lock_setPc]
      exact .enter hl
  | @resume t woken ht =>
    right
    rw [lock_setPc]
    exact .resume (congrArg Pc.place ht)
  | @releaseStream t ht =>
    right
    rw [lock_releaseStream]
    exact .leave (congrArg Pc.place ht)

theorem exclusive_of_reachable {y : Sys} (h : Reachable system y) : SleepLock.Exclusive y.lock := by
  refine h.invariant (I := fun y => SleepLock.Exclusive y.lock) ?_ ?_
  · rintro _ rfl
    exact .of_out fun _ => rfl
  · exact fun y y' hy hstep => hy.step (lock_step hstep)

/-- **The lock of a stream**: one task at most is between `get_stream` and `release_stream`, and a task
that sleeps in `get_stream` and was not woken is waited for by both flags. -/
theorem one_holder_and_flags_of_asleep {y : Sys} (h : Reachable system y) :
    (∀ t t', y.pc t = .holding → y.pc t' = .holding → t = t') ∧
    ∀ t, y.pc t = .asleep false → y.locked = true ∧ y.wantLock = true := by
  have hy := exclusive_of_reachable h
  constructor
  · exact fun t t' ht ht' => hy.one t t' (congrArg Pc.place ht) (congrArg Pc.place ht')
  · exact fun t ht => hy.asleep t (congrArg Pc.place ht)

/-- Task 0 has the lock, task 1 sleeps for it. -/
def waited : Sys := (((((Sys.start.setPc 0 .trying).tryLock 0 false).setPc 1 .trying).tryLock 1 false))

theorem reachable_waited : Reachable system waited := by
  have h₀ : Reachable system Sys.start := .init rfl
  have h₁ := h₀.step (.getStream (t := 0) rfl)
  have h₂ := h₁.step (.tryLock (t := 0) false rfl)
  have h₃ := h₂.step (.getStream (t := 1) rfl)
  exact h₃.step (.tryLock (t := 1) false rfl)

theorem flags_of_waited : waited.pc 0 = .holding ∧ waited.pc 1 = .asleep false ∧
    waited.locked = true ∧ waited.wantLock = true :=
  ⟨rfl, rfl, (one_holder_and_flags_of_asleep reachable_waited).2 1 rfl⟩

/-! ## The calls on a stream -/

section Calls

variable {α : Type*}

def callPlace : Wakeup.Pc α → SleepLock.Place
  | .lockAsleep _ woken => .asleep woken
  | .testing _ => .inside
  | .toSleep _ => .inside
  | .waking _ => .inside
  | .leaving _ _ => .inside
  | _ => .out

def callLock (y : Wakeup.Sys α) : SleepLock.State Nat :=
  ⟨y.locked, y.wantLock, fun t => callPlace (y.pc t)⟩

theorem callLock_setPc (y : Wakeup.Sys α) (t : Nat) (pc : Wakeup.Pc α) :
    callLock (y.setPc t pc) = (callLock y).goTo t (callPlace pc) :=
  congrArg (SleepLock.State.mk y.locked y.wantLock) (Function.comp_update callPlace y.pc t pc)

theorem callPlace_wake (pc : Wakeup.Pc α) : callPlace pc.wake = callPlace pc := by
  cases pc <;> rfl

theorem callPlace_wakeLock (wantLock : Bool) (pc : Wakeup.Pc α) :
    callPlace (pc.wakeLock wantLock) = (callPlace pc).wake wantLock := by
  cases pc <;> rfl

theorem callLock_wake (y : Wakeup.Sys α) : callLock y.wake = callLock y :=
  congrArg (SleepLock.State.mk y.locked y.wantLock) (funext fun t => callPlace_wake (y.pc t))

theorem callLock_release (y : Wakeup.Sys α) : callLock y.release = (callLock y).free :=
  congrArg (SleepLock.State.mk false false) (funext fun t => callPlace_wakeLock y.wantLock (y.pc t))

theorem callLock_shutEnd (y : Wakeup.Sys α) : callLock y.shutEnd = callLock y := by
  unfold Wakeup.Sys.shutEnd
  split
  · rfl
  · exact callLock_wake _

theorem callLock_stay {y : Wakeup.Sys α} {t : Nat} {pc : Wakeup.Pc α} (pc' : Wakeup.Pc α)
    (ht : y.pc t = pc) (h : callPlace pc' = callPlace pc) : callLock (y.setPc t pc') = callLock y := by
  rw [callLock_setPc, h]
  exact SleepLock.State.goTo_eq_self (congrArg callPlace ht)

theorem callLock_step {y y' : Wakeup.Sys α} {op : Wakeup.Op α} (h : Wakeup.Step y op y') :
    callLock y' = callLock y ∨ SleepLock.Step (callLock y) (callLock y') := by
  cases h with
  | start ht | gone ht | leave ht | giveUp ht | woken ht =>
    exact .inl (callLock_stay _ ht rfl)
  | lock ht hf hl =>
    rw [callLock_setPc]
    exact .inr (.enter hl)
  | @lockSleep t call intr ht hf hl =>
    have hout : (callLock y).place t = .out := congrArg callPlace ht
    cases intr with
    | true =>
      have hstay := callLock_stay (y := { y with wantLock := true }) (.locking call) ht rfl
      right
      show SleepLock.Step (callLock y) (callLock (Wakeup.Sys.setPc { y with wantLock := true } t _))
      rw [if_pos rfl, hstay]
      exact .want hout hl
    | false =>
      rw [callLock_setPc]
      exact .inr (.sleep hout hl)
  | lockWoken ht =>
    rw [callLock_setPc]
    exact .inr (.resume (congrArg callPlace ht))
  | @copy t call call' ss ht =>
    exact .inl (callLock_stay (.waking call') ht rfl)
  | @wake t call ht =>
    have hpc : y.wake.pc t = .waking call := congrArg Wakeup.Pc.wake ht
    rw [callLock_stay (.testing call) hpc rfl, callLock_wake]
    exact .inl rfl
  | @sleep t call intr ht =>
    have hout : callPlace (if intr then Wakeup.Pc.locking call else .asleep call false) = .out := by
      cases intr <;> rfl
    rw [callLock_setPc, callLock_release, hout]
    exact .inr (.leave (congrArg callPlace ht))
  | release ht =>
    rw [callLock_setPc, callLock_release]
    exact .inr (.leave (congrArg callPlace ht))
  | close => exact .inl (callLock_shutEnd (y.shut _))
  | shut => exact .inl rfl
  | shutEnd => exact .inl (callLock_shutEnd y)

/-- `stream_read` and `stream_write` keep to the lock, whatever is closed meanwhile. -/
theorem exclusive_callLock {buffer : Nat → α} {tr : List (Wakeup.Sys α × Wakeup.Op α)} {y : Wakeup.Sys α}
    (h : History Wakeup.Step (Wakeup.Sys.start buffer) tr y) : SleepLock.Exclusive (callLock y) := by
  refine h.invariant (I := fun y => SleepLock.Exclusive (callLock y)) (C := fun _ _ => True) ?_ ?_ ?_
  · exact fun y op y' hy _ hstep => hy.step (callLock_step hstep)
  · exact .of_out fun _ => rfl
  · exact fun _ _ => trivial

theorem exclusive_callLock_sleeping : SleepLock.Exclusive (callLock Wakeup.aboutToSleep) := by
  obtain ⟨tr, h, -⟩ := Wakeup.history_aboutToSleep
  exact exclusive_callLock h

end Calls

end Ixemul.Stream.Lock
