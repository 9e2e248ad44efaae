/-
# Ixemul.FileLock — the lock of an open file (get_file.c).

`__read`, `__write`, `lseek` and `unp_accept` do their work on a `struct file` between `__get_file` and
`__release_file`.  They block all signals before, but SIGKILL and SIGSTOP cannot be blocked.  `issig` drops
SIGSTOP, unless the task is traced; where `ix_sleep` comes back with -1 for SIGKILL, `__get_file` gives up and
says so; none of the four looks at what it says.  The call goes on without the lock, and its `__release_file`
clears a lock that is not its own.

`unp_accept` gives the lock back before it sleeps and takes it again after: one use after another.
-/
import Ixemul.Lib.SleepLock
import Ixemul.KernSig.Issig

namespace Ixemul.FileLock

open Lib Lib.Run
open KernSig

/-- Where a task is. -/
inductive Pc where
  | idle
  /-- in the loop of `__get_file` -/
  | trying
  | asleep (woken : Bool)
  /-- between `__get_file` and its `__release_file`; `got` is whether the former returned 0 -/
  | inside (got : Bool)
  deriving DecidableEq, Repr

/-- FSFF_LOCKED and FSFF_WANTLOCK of `f_sync_flags`, the tasks, the signals that are pending for each, and
whether its parent traces it (STRC without SVFORK). -/
structure Sys where
  locked : Bool
  wantLock : Bool
  pc : Nat → Pc
  pSig : Nat → SigSet
  traced : Nat → Bool

/-- What `sigsetmask(~0)` makes of `p_sigmask`. -/
def allBlocked : SigSet := BitVec.allOnes 32 &&& ~~~ sigcantmask

/-- CURSIG may find a signal to be taken: SIGKILL, or SIGSTOP in a task whose parent, asked by `issig`, may
put SIGKILL in its place. -/
def Interrupts (traced : Bool) (pSig : SigSet) : Prop :=
  Has pSig sigkill ∨ (traced = true ∧ Has pSig sigstop)

instance (traced : Bool) (pSig : SigSet) : Decidable (Interrupts traced pSig) :=
  inferInstanceAs (Decidable (_ ∨ _))

/-- For a task that is not traced that is what `issig` looks for (`issig_chosen`). -/
theorem interrupts_iff_deliverable {p : KernSig.Proc} (hmask : p.pSigmask = allBlocked)
    (hkill : p.uSignal sigkill = sigDfl ∧ ¬ Has p.pSigignore sigkill) (hstop : p.uSignal sigstop = sigDfl) :
    Interrupts false p.pSig ↔ ∃ s, Deliverable p s := by
  constructor
  · rintro (h | ⟨⟨⟩, -⟩)
    have hscan : Scanned p sigkill := ⟨h, by rw [hmask]; decide, fun hs => absurd hs.2 (by decide)⟩
    exact ⟨sigkill, by decide, hscan, hkill.2, .inr ⟨hkill.1, by decide⟩⟩
  · rintro ⟨s, hs, ⟨hpend, hfree, -⟩, -, hact⟩
    have hcant : Has sigcantmask s := by
      rw [hmask, allBlocked, BitVec.allOnes_and, has_not hs, not_not] at hfree
      exact hfree
    rw [sigcantmask, has_or hs, has_sigmask hs (by decide), has_sigmask hs (by decide)] at hcant
    rcases hcant with rfl | rfl
    · exact .inl hpend
    · exact absurd hact (by simp [hstop, show Has stopsigmask sigstop by decide])

/-- `ix_wakeup` on the flags, if the lock is wanted. -/
def Pc.wake (wantLock : Bool) : Pc → Pc
  | .asleep woken => .asleep (woken || wantLock)
  | pc => pc

namespace Sys

def start : Sys := ⟨false, false, fun _ => .idle, fun _ => 0, fun _ => false⟩

def setPc (y : Sys) (t : Nat) (pc : Pc) : Sys := { y with pc := Function.update y.pc t pc }

/-- One pass of the loop of `__get_file`; `intr` says that `ix_sleep` finds a signal and does not sleep. -/
def tryLock (y : Sys) (t : Nat) (intr : Bool) : Sys :=
  if !y.locked then ({ y with locked := true } : Sys).setPc t (.inside true)
  else ({ y with wantLock := true } : Sys).setPc t (if intr then .inside false else .asleep false)

/-- `ix_sleep` comes back. -/
def resume (y : Sys) (t : Nat) (intr : Bool) : Sys := y.setPc t (if intr then .inside false else .trying)

def releaseFile (y : Sys) (t : Nat) : Sys :=
  ({ y with locked := false, wantLock := false, pc := fun t' => (y.pc t').wake y.wantLock } : Sys).setPc t
    .idle

end Sys

inductive Op where
  | getFile (t : Nat)
  | tryLock (t : Nat) (intr : Bool)
  | resume (t : Nat) (intr : Bool)
  | releaseFile (t : Nat)
  | signal (t : Nat) (pSig : SigSet) (traced : Bool)

/-- A sleep ends in -1 only for a signal that is to be taken.  Signals come, and go when they are taken,
at any time, and so does the parent's tracing. -/
inductive Step : Sys → Op → Sys → Prop where
  | getFile {y : Sys} {t : Nat} (ht : y.pc t = .idle) : Step y (.getFile t) (y.setPc t .trying)
  | tryLock {y : Sys} {t : Nat} {intr : Bool} (ht : y.pc t = .trying)
      (hintr : intr = true → Interrupts (y.traced t) (y.pSig t)) : Step y (.tryLock t intr) (y.tryLock t intr)
  | resume {y : Sys} {t : Nat} {woken intr : Bool} (ht : y.pc t = .asleep woken)
      (hintr : intr = true → Interrupts (y.traced t) (y.pSig t)) : Step y (.resume t intr) (y.resume t intr)
  | releaseFile {y : Sys} {t : Nat} {got : Bool} (ht : y.pc t = .inside got) :
      Step y (.releaseFile t) (y.releaseFile t)
  | signal {y : Sys} {t : Nat} {pSig : SigSet} {traced : Bool} : Step y (.signal t pSig traced)
      { y with pSig := Function.update y.pSig t pSig, traced := Function.update y.traced t traced }

/-- SIGKILL is not pending for a task, nor SIGSTOP if it is traced, when it has to sleep in `__get_file`, nor
when its sleep ends. -/
def Undisturbed (y : Sys) : Op → Prop
  | .tryLock t _ => y.locked = true → ¬ Interrupts (y.traced t) (y.pSig t)
  | .resume t _ => ¬ Interrupts (y.traced t) (y.pSig t)
  | _ => True

/-- The task is between `__get_file` and `__release_file`. -/
def Sys.Inside (y : Sys) (t : Nat) : Prop := ∃ got, y.pc t = .inside got

/-- The task has set FSFF_LOCKED and not cleared it yet. -/
def Sys.Holds (y : Sys) (t : Nat) : Prop := y.pc t = .inside true

/-! ## The places of the lock -/

def Pc.place : Pc → SleepLock.Place
  | .idle => .out
  | .trying => .out
  | .asleep woken => .asleep woken
  | .inside _ => .inside

def Sys.lock (y : Sys) : SleepLock.State Nat := ⟨y.locked, y.wantLock, fun t => (y.pc t).place⟩

theorem place_wake (wantLock : Bool) (pc : Pc) : (pc.wake wantLock).place = pc.place.wake wantLock := by
  cases pc <;> rfl

theorem lock_setPc (y : Sys) (t : Nat) (pc : Pc) : (y.setPc t pc).lock = y.lock.goTo t pc.place :=
  congrArg (SleepLock.State.mk y.locked y.wantLock) (Function.comp_update Pc.place y.pc t pc)

theorem lock_releaseFile (y : Sys) (t : Nat) : (y.releaseFile t).lock = y.lock.leave t := by
  rw [Sys.releaseFile, lock_setPc]
  congr 1
  exact congrArg (SleepLock.State.mk false false) (funext fun t' => place_wake y.wantLock (y.pc t'))

theorem Inside.place {y : Sys} {t : Nat} (h : y.Inside t) : y.lock.place t = .inside := by
  obtain ⟨got, hgot⟩ := h
  exact congrArg Pc.place hgot

theorem lock_step {y y' : Sys} {op : Op} (hquiet : Undisturbed y op) (h : Step y op y') :
    y'.lock = y.lock ∨ SleepLock.Step y.lock y'.lock := by
  cases h with
  | @getFile t ht =>
    have hout : y.lock.place t = .out := congrArg Pc.place ht
    left
    rw [lock_setPc]
    exact SleepLock.State.goTo_eq_self hout
  | @tryLock t intr ht hintr =>
    have hout : y.lock.place t = .out := congrArg Pc.place ht
    right
    unfold Sys.tryLock
    rcases Bool.eq_false_or_eq_true y.locked with hl | hl
    · rw [if_neg (by simp [hl]), lock_setPc, Bool.eq_false_iff.mpr (mt hintr (hquiet hl))]
      exact .sleep hout hl
    · rw [if_pos (by simp [hl]), lock_setPc]
      exact .enter hl
  | @resume t woken intr ht hintr =>
    right
    rw [Sys.resume, lock_setPc, Bool.eq_false_iff.mpr (mt hintr hquiet)]
    exact .resume (congrArg Pc.place ht)
  | @releaseFile t got ht =>
    right
    rw [lock_releaseFile]
    exact .leave (congrArg Pc.place ht)
  | signal => exact .inl rfl

/-- Task 0 has the lock, task 1 sleeps for it. -/
def waited : Sys := (((Sys.start.setPc 0 .trying).tryLock 0 false).setPc 1 .trying).tryLock 1 false

end Ixemul.FileLock
