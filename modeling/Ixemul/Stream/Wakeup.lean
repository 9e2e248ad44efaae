/-
# Ixemul.Stream.Wakeup — who wakes a task that sleeps on a stream (unp.c, pipe.c).

Here `stream_read` and `stream_write` are taken apart.  A call that finds nothing to do goes to sleep on the
stream, and every call that moves a pointer wakes all who sleep there; between its test and its Forbid the
sleeper has the lock.  But `__pclose` and `close_stream` close an end without the lock, and a task that has
made its test and is not asleep yet misses their wake-up.  The second end that is closed wakes nobody at
all, it frees the stream.

`__pclose` closes an end of a pipe inside one Forbid, in one step.  `close_stream` closes that of a socket
under the base lock, which keeps other closers out and nobody else: its flag and its wake-up are two steps.
One pass of the loops is one step, as nothing but the flags can change under the lock.  A stream that was
freed is not looked into.
-/
import Ixemul.Lib.Run
import Ixemul.Stream.Model

namespace Ixemul.Stream.Wakeup

open Lib.Run
open Function

variable {α : Type*} {ss ss' : SockStream α} {c : ReadCall α} {d : WriteCall α} {κ κ' : Type*}

/-! ## One pass of the loops -/

/-- What a pass of the loop comes to: the call returns, or has to sleep, or has moved the pointers. -/
inductive Turn (α κ : Type*) where
  | leave (value : Int) (err : Errno)
  | sleep
  | copy (ss : SockStream α) (call : κ)

def readTurn (ss : SockStream α) (c : ReadCall α) : Turn α (ReadCall α) :=
  if c.len = 0 then .leave c.reallyRead .unchanged
  else if !canRead ss then
    if c.reallyRead ≠ 0 ∨ ss.noWriter then .leave c.reallyRead .zero
    else if c.fndelay then .leave (-1) .eagain
    else .sleep
  else
    .copy (readLower (readUpper ss c).1 (readUpper ss c).2).1
      (readLower (readUpper ss c).1 (readUpper ss c).2).2

def writeTurn (ss : SockStream α) (d : WriteCall α) : Turn α (WriteCall α) :=
  if d.len = 0 then .leave d.written .unchanged
  else if ss.noReader then .leave (-1) .epipe
  else if !canWrite ss then
    if d.fndelay then if d.written = 0 then .leave (-1) .eagain else .leave d.written .unchanged
    else .sleep
  else
    .copy (writeLower (writeUpper ss d).1 (writeUpper ss d).2).1
      (writeLower (writeUpper ss d).1 (writeUpper ss d).2).2

theorem readLoop_succ (fuel : Nat) (ss : SockStream α) (c : ReadCall α) :
    readLoop (fuel + 1) ss c =
      match readTurn ss c with
      | .leave value err => (ss, c, .ret value err)
      | .sleep => (ss, c, .sleep c)
      | .copy ss' c' => readLoop fuel ss' c' := by
  simp only [readLoop, readTurn]
  split_ifs <;> rfl

theorem writeLoop_succ (fuel : Nat) (ss : SockStream α) (d : WriteCall α) :
    writeLoop (fuel + 1) ss d =
      match writeTurn ss d with
      | .leave value err => (ss, d, .ret value err)
      | .sleep => (ss, d, .sleep d)
      | .copy ss' d' => writeLoop fuel ss' d' := by
  simp only [writeLoop, writeTurn]
  split_ifs <;> rfl

/-- A call of either kind. -/
inductive Call (α : Type*) where
  | read (c : ReadCall α)
  | write (d : WriteCall α)

def Turn.map {κ κ' : Type*} (g : κ → κ') : Turn α κ → Turn α κ'
  | .leave value err => .leave value err
  | .sleep => .sleep
  | .copy ss call => .copy ss (g call)

def turn (ss : SockStream α) : Call α → Turn α (Call α)
  | .read c => (readTurn ss c).map .read
  | .write d => (writeTurn ss d).map .write

def Call.reads : Call α → Bool
  | .read _ => true
  | .write _ => false

/-- There is nothing to read, or no room to write. -/
def Call.Starved (ss : SockStream α) : Call α → Prop
  | .read _ => canRead ss = false
  | .write _ => canWrite ss = false

/-- The other end is not closed. -/
def Call.HasPeer (ss : SockStream α) : Call α → Prop
  | .read _ => ss.noWriter = false
  | .write _ => ss.noReader = false

theorem readTurn_sleep (h : readTurn ss c = .sleep) : canRead ss = false ∧ ss.noWriter = false := by
  unfold readTurn at h
  split_ifs at h with hlen hcan hgot hdelay
  rw [not_or] at hgot
  exact ⟨by simpa using hcan, by simpa using hgot.2⟩

theorem writeTurn_sleep (h : writeTurn ss d = .sleep) : canWrite ss = false ∧ ss.noReader = false := by
  unfold writeTurn at h
  split_ifs at h with hrest hreader hcan hdelay
  exact ⟨by simpa using hcan, by simpa using hreader⟩

theorem readTurn_copy {c' : ReadCall α} (h : readTurn ss c = .copy ss' c') :
    ss'.noReader = ss.noReader ∧ ss'.noWriter = ss.noWriter := by
  unfold readTurn at h
  split_ifs at h
  cases h
  unfold readLower readUpper
  split <;> split <;> exact ⟨rfl, rfl⟩

theorem writeTurn_copy {d' : WriteCall α} (h : writeTurn ss d = .copy ss' d') :
    ss'.noReader = ss.noReader ∧ ss'.noWriter = ss.noWriter := by
  unfold writeTurn at h
  split_ifs at h
  cases h
  unfold writeLower writeUpper
  split_ifs <;> exact ⟨rfl, rfl⟩

theorem Turn.eq_sleep_of_map {g : κ → κ'} {r : Turn α κ} (h : r.map g = .sleep) : r = .sleep := by
  cases r with
  | sleep => rfl
  | leave | copy => exact nomatch h

theorem Turn.eq_copy_of_map {g : κ → κ'} {r : Turn α κ} {call : κ'}
    (h : r.map g = .copy ss call) : ∃ call', r = .copy ss call' := by
  cases r with
  | sleep | leave => exact nomatch h
  | copy ss' call' =>
    cases h
    exact ⟨call', rfl⟩

variable {call : Call α}

theorem turn_copy {call' : Call α} (h : turn ss call = .copy ss' call') :
    ss'.noReader = ss.noReader ∧ ss'.noWriter = ss.noWriter := by
  cases call with
  | read =>
    obtain ⟨c', hc⟩ := Turn.eq_copy_of_map h
    exact readTurn_copy hc
  | write =>
    obtain ⟨d', hd⟩ := Turn.eq_copy_of_map h
    exact writeTurn_copy hd

theorem Call.HasPeer.of_eq (h : call.HasPeer ss)
    (hr : ss'.noReader = ss.noReader) (hw : ss'.noWriter = ss.noWriter) : call.HasPeer ss' := by
  cases call with
  | read => exact hw.trans h
  | write => exact hr.trans h

theorem turn_sleep (h : turn ss call = .sleep) : call.Starved ss ∧ call.HasPeer ss := by
  cases call with
  | read => exact readTurn_sleep (Turn.eq_sleep_of_map h)
  | write => exact writeTurn_sleep (Turn.eq_sleep_of_map h)

/-! ## Tasks -/

/-- Where a task is. -/
inductive Pc (α : Type*) where
  | idle
  /-- in `get_stream` -/
  | locking (call : Call α)
  /-- asleep for the lock -/
  | lockAsleep (call : Call α) (woken : Bool)
  /-- at the head of the loop -/
  | testing (call : Call α)
  /-- it has to sleep, and is before Forbid -/
  | toSleep (call : Call α)
  /-- asleep on the stream -/
  | asleep (call : Call α) (woken : Bool)
  /-- it has moved the pointers, and is before `ix_wakeup` -/
  | waking (call : Call α)
  /-- out of the loop -/
  | leaving (value : Int) (err : Errno)

/-- UNF_LOCKED and UNF_WANT_LOCK stand beside the stream, whether it was freed, and the end for which a
`close_stream` has set its flag and has not sent its wake-up yet. -/
structure Sys (α : Type*) where
  ss : SockStream α
  locked : Bool
  wantLock : Bool
  freed : Bool
  closing : Option Bool
  pc : Nat → Pc α

def Sys.start (buffer : Nat → α) : Sys α :=
  ⟨initStream buffer, false, false, false, none, fun _ => .idle⟩

/-- `ix_wakeup` on the stream. -/
def Pc.wake : Pc α → Pc α
  | .asleep call _ => .asleep call true
  | pc => pc

/-- `ix_wakeup` on its flags, if the lock is wanted. -/
def Pc.wakeLock (wantLock : Bool) : Pc α → Pc α
  | .lockAsleep call woken => .lockAsleep call (woken || wantLock)
  | pc => pc

namespace Sys

def setPc (y : Sys α) (t : Nat) (pc : Pc α) : Sys α := { y with pc := update y.pc t pc }

def wake (y : Sys α) : Sys α := { y with pc := fun t => (y.pc t).wake }

/-- `release_stream` -/
def release (y : Sys α) : Sys α :=
  { y with locked := false, wantLock := false, pc := fun t => (y.pc t).wakeLock y.wantLock }

end Sys

/-- UNF_NO_READER is set for the end that reads, UNF_NO_WRITER for the other. -/
def setFlag (readStream : Bool) (ss : SockStream α) : SockStream α :=
  if readStream then { ss with noReader := true } else { ss with noWriter := true }

def streamIsClosed (ss : SockStream α) : Bool := ss.noReader && ss.noWriter

/-- `close_stream` sets the flag of an end. -/
def Sys.shut (y : Sys α) (readStream : Bool) : Sys α :=
  { y with ss := setFlag readStream y.ss, closing := some readStream }

/-- It frees the stream, or wakes those who sleep. -/
def Sys.shutEnd (y : Sys α) : Sys α :=
  if streamIsClosed y.ss then { y with closing := none, freed := true }
  else ({ y with closing := none } : Sys α).wake

/-- `__pclose`, of the last reference to an end. -/
def Sys.close (y : Sys α) (readStream : Bool) : Sys α := (y.shut readStream).shutEnd

inductive Op (α : Type*) where
  | start (t : Nat) (call : Call α)
  | lock (t : Nat)
  | lockSleep (t : Nat) (intr : Bool)
  | lockWoken (t : Nat)
  | gone (t : Nat)
  | pass (t : Nat)
  | wake (t : Nat)
  | sleep (t : Nat) (intr : Bool)
  | woken (t : Nat)
  | release (t : Nat)
  | close (readStream : Bool)
  | shut (readStream : Bool)
  | shutEnd

inductive Step : Sys α → Op α → Sys α → Prop where
  | start {y : Sys α} {t : Nat} {call : Call α} (ht : y.pc t = .idle) :
      Step y (.start t call) (y.setPc t (.locking call))
  | lock {y : Sys α} {t : Nat} {call : Call α} (ht : y.pc t = .locking call) (hf : y.freed = false)
      (hl : y.locked = false) :
      Step y (.lock t) (({ y with locked := true, wantLock := false } : Sys α).setPc t (.testing call))
  /-- `ix_sleep` does not sleep if a signal is there -/
  | lockSleep {y : Sys α} {t : Nat} {call : Call α} {intr : Bool} (ht : y.pc t = .locking call)
      (hf : y.freed = false) (hl : y.locked = true) :
      Step y (.lockSleep t intr) (({ y with wantLock := true } : Sys α).setPc t
        (if intr then .locking call else .lockAsleep call false))
  /-- a task that sleeps may be woken, or leave its sleep for a signal of its own -/
  | lockWoken {y : Sys α} {t : Nat} {call : Call α} {woken : Bool} (ht : y.pc t = .lockAsleep call woken) :
      Step y (.lockWoken t) (y.setPc t (.locking call))
  | gone {y : Sys α} {t : Nat} {call : Call α} (ht : y.pc t = .locking call) (hf : y.freed = true) :
      Step y (.gone t) (y.setPc t .idle)
  | leave {y : Sys α} {t : Nat} {call : Call α} {value : Int} {err : Errno} (ht : y.pc t = .testing call)
      (hf : y.freed = false) (h : turn y.ss call = .leave value err) :
      Step y (.pass t) (y.setPc t (.leaving value err))
  | giveUp {y : Sys α} {t : Nat} {call : Call α} (ht : y.pc t = .testing call) (hf : y.freed = false)
      (h : turn y.ss call = .sleep) : Step y (.pass t) (y.setPc t (.toSleep call))
  | copy {y : Sys α} {t : Nat} {call call' : Call α} {ss : SockStream α} (ht : y.pc t = .testing call)
      (hf : y.freed = false) (h : turn y.ss call = .copy ss call') :
      Step y (.pass t) (({ y with ss } : Sys α).setPc t (.waking call'))
  | wake {y : Sys α} {t : Nat} {call : Call α} (ht : y.pc t = .waking call) (hf : y.freed = false) :
      Step y (.wake t) (y.wake.setPc t (.testing call))
  /-- from Forbid to Permit, the lock is released -/
  | sleep {y : Sys α} {t : Nat} {call : Call α} {intr : Bool} (ht : y.pc t = .toSleep call)
      (hf : y.freed = false) :
      Step y (.sleep t intr) (y.release.setPc t (if intr then .locking call else .asleep call false))
  | woken {y : Sys α} {t : Nat} {call : Call α} {woken : Bool} (ht : y.pc t = .asleep call woken) :
      Step y (.woken t) (y.setPc t (.locking call))
  | release {y : Sys α} {t : Nat} {value : Int} {err : Errno} (ht : y.pc t = .leaving value err)
      (hf : y.freed = false) : Step y (.release t) (y.release.setPc t .idle)
  /-- any task closes an end -/
  | close {y : Sys α} {readStream : Bool} (hf : y.freed = false) (hc : y.closing = none) :
      Step y (.close readStream) (y.close readStream)
  | shut {y : Sys α} {readStream : Bool} (hf : y.freed = false) (hc : y.closing = none) :
      Step y (.shut readStream) (y.shut readStream)
  | shutEnd {y : Sys α} {readStream : Bool} (hc : y.closing = some readStream) : Step y .shutEnd y.shutEnd

/-- At the end of a close no task of the other end is about to sleep, and nobody sleeps on a stream that is
freed who was not woken. -/
def Sys.InTime (y : Sys α) (readStream : Bool) : Prop :=
  (∀ t call, y.pc t = .toSleep call → call.reads = readStream) ∧
    (streamIsClosed y.ss = true → ∀ t call, y.pc t ≠ .asleep call false)

def ClosesInTime (y : Sys α) : Op α → Prop
  | .close readStream => (y.shut readStream).InTime readStream
  | .shutEnd => ∀ readStream, y.closing = some readStream → y.InTime readStream
  | _ => True

/-! ## The invariant -/

/-- The task has the lock. -/
def Pc.Holds : Pc α → Prop
  | .testing _ => True
  | .toSleep _ => True
  | .waking _ => True
  | .leaving _ _ => True
  | _ => False

/-- The other end is not closed, or is being closed and the wake-up is to come. -/
def Sys.Peer (y : Sys α) (call : Call α) : Prop := call.HasPeer y.ss ∨ y.closing = some (!call.reads)

structure Watched (y : Sys α) : Prop where
  locked : ∀ t, (y.pc t).Holds → y.locked = true
  one : ∀ t t', (y.pc t).Holds → (y.pc t').Holds → t = t'
  toSleep : ∀ t call, y.pc t = .toSleep call → call.Starved y.ss ∧ y.Peer call
  asleep : ∀ t call, y.pc t = .asleep call false →
    y.Peer call ∧ (call.Starved y.ss ∨ ∃ t' call', y.pc t' = .waking call')

theorem Watched.start (buffer : Nat → α) : Watched (Sys.start buffer) where
  locked _ h := h.elim
  one _ _ h := h.elim
  toSleep _ _ h := nomatch h
  asleep _ _ h := nomatch h

section Parts

variable {y : Sys α} {t : Nat} {pc : Pc α} {call : Call α} {ss : SockStream α} {readStream : Bool}

theorem forall_setPc {Q : Call α → Prop} {g : Call α → Pc α} (hpc : ∀ call, pc = g call → Q call)
    (h : ∀ t' ≠ t, ∀ call, y.pc t' = g call → Q call) :
    ∀ t' call, (y.setPc t pc).pc t' = g call → Q call :=
  (forall_update_iff y.pc fun _ pc => ∀ call, pc = g call → Q call).mpr ⟨hpc, h⟩

theorem Watched.setPc (h : Watched y) (hholds : pc.Holds → (y.pc t).Holds)
    (hto : ∀ call, pc = .toSleep call → call.Starved y.ss ∧ y.Peer call)
    (hasleep : ∀ call, pc ≠ .asleep call false)
    (hwaking : ∀ call, y.pc t = .waking call → ∀ t' call', y.pc t' ≠ .asleep call' false) :
    Watched (y.setPc t pc) := by
  have hmono : ∀ t', ((y.setPc t pc).pc t').Holds → (y.pc t').Holds :=
    (forall_update_iff y.pc fun t' pc => pc.Holds → (y.pc t').Holds).mpr ⟨hholds, fun _ _ => id⟩
  constructor
  · exact fun t' ht' => h.locked t' (hmono t' ht')
  · exact fun t₁ t₂ h₁ h₂ => h.one t₁ t₂ (hmono t₁ h₁) (hmono t₂ h₂)
  · exact forall_setPc hto fun t' _ => h.toSleep t'
  · refine forall_setPc (fun call hpc => absurd hpc (hasleep call)) fun t' _ call ht' => ?_
    refine (h.asleep t' call ht').imp_right (Or.imp_right fun ⟨t₁, call₁, h₁⟩ => ⟨t₁, call₁, ?_⟩)
    have hne₁ : t₁ ≠ t := by
      rintro rfl
      exact hwaking call₁ h₁ t' call ht'
    exact (update_of_ne hne₁ ..).trans h₁

/-- No other task has the lock, and so none is to wake the others. -/
theorem Watched.of_alone (halone : ∀ t' ≠ t, ¬ (y.pc t').Holds) (hlocked : pc.Holds → y.locked)
    (hpc : ∀ call, pc = .toSleep call ∨ pc = .asleep call false → call.Starved y.ss ∧ y.Peer call)
    (hasleep : ∀ t' ≠ t, ∀ call, y.pc t' = .asleep call false →
      y.Peer call ∧ (call.Starved y.ss ∨ ∃ call', pc = .waking call')) : Watched (y.setPc t pc) where
  locked := (forall_update_iff y.pc fun _ pc => pc.Holds → y.locked).mpr
    ⟨hlocked, fun t' hne ht' => absurd ht' (halone t' hne)⟩
  one := by
    have hholder : ∀ t', ((y.setPc t pc).pc t').Holds → t' = t :=
      (forall_update_iff y.pc fun t' pc => pc.Holds → t' = t).mpr
        ⟨fun _ => rfl, fun t' hne ht' => absurd ht' (halone t' hne)⟩
    exact fun t₁ t₂ h₁ h₂ => (hholder t₁ h₁).trans (hholder t₂ h₂).symm
  toSleep := forall_setPc (fun call h => hpc call (.inl h))
    fun t' hne call ht' => absurd (by rw [ht']; trivial) (halone t' hne)
  asleep := by
    refine forall_setPc (fun call h => (hpc call (.inr h)).symm.imp_right .inl) fun t' hne call ht' => ?_
    refine (hasleep t' hne call ht').imp_right (Or.imp_right fun ⟨call', h⟩ => ⟨t, call', ?_⟩)
    exact (update_self ..).trans h

/-- Nobody has the lock that is free. -/
theorem Watched.lock (h : Watched y) (hl : y.locked = false) :
    Watched (({ y with locked := true, wantLock := false } : Sys α).setPc t (.testing call)) := by
  have hfree : ∀ t', ¬ (y.pc t').Holds := by
    intro t' ht'
    rw [h.locked t' ht'] at hl
    exact nomatch hl
  refine .of_alone (fun t' _ => hfree t') (fun _ => rfl) nofun fun t' _ call' ht' => ?_
  refine (h.asleep t' call' ht').imp_right (Or.imp_right fun ⟨t₁, call₁, h₁⟩ => ?_)
  exact absurd (by rw [h₁]; trivial) (hfree t₁)

theorem wake_ne_asleep (pc : Pc α) (call : Call α) : pc.wake ≠ .asleep call false := by
  cases pc <;> exact nofun

theorem wake_eq_toSleep (h : pc.wake = .toSleep call) : pc = .toSleep call := by
  cases pc <;> first | exact h | exact nomatch h

theorem holds_wake (pc : Pc α) : pc.wake.Holds ↔ pc.Holds := by
  cases pc <;> exact Iff.rfl

/-- After `ix_wakeup` nobody sleeps who was not woken. -/
theorem Watched.wake (h : Watched y) : Watched y.wake where
  locked t' ht' := h.locked t' ((holds_wake _).mp ht')
  one t₁ t₂ h₁ h₂ := h.one t₁ t₂ ((holds_wake _).mp h₁) ((holds_wake _).mp h₂)
  toSleep t' call ht' := h.toSleep t' call (wake_eq_toSleep ht')
  asleep _ call ht' := absurd ht' (wake_ne_asleep _ call)

/-- The pointers move while a task has the lock; who sleeps will be woken by it. -/
theorem Watched.copy (h : Watched y) {call' : Call α} (ht : (y.pc t).Holds)
    (hr : ss.noReader = y.ss.noReader) (hw : ss.noWriter = y.ss.noWriter) :
    Watched (({ y with ss } : Sys α).setPc t (.waking call')) :=
  .of_alone (fun t' hne ht' => hne (h.one t' t ht' ht)) (fun _ => h.locked t ht) nofun
    fun t' _ call ht' => ⟨(h.asleep t' call ht').1.imp_left (·.of_eq hr hw), .inr ⟨call', rfl⟩⟩

theorem holds_wakeLock (wantLock : Bool) (pc : Pc α) : (pc.wakeLock wantLock).Holds ↔ pc.Holds := by
  cases pc <;> exact Iff.rfl

theorem wakeLock_eq_asleep {wantLock : Bool} {woken : Bool}
    (h : pc.wakeLock wantLock = .asleep call woken) : pc = .asleep call woken := by
  cases pc <;> first | exact h | exact nomatch h

/-- The task that has the lock gives it up. -/
theorem Watched.release (h : Watched y) (ht : (y.pc t).Holds) (hpc : ¬ pc.Holds)
    (hwaking : ∀ call, y.pc t ≠ .waking call)
    (hasleep : ∀ call, pc = .asleep call false → call.Starved y.ss ∧ y.Peer call) :
    Watched (y.release.setPc t pc) := by
  apply Watched.of_alone
  · exact fun t' hne ht' => hne (h.one t' t ((holds_wakeLock ..).mp ht') ht)
  · exact fun hholds => absurd hholds hpc
  · rintro call (rfl | hpc')
    · exact absurd trivial hpc
    · exact hasleep call hpc'
  · intro t' _ call ht'
    refine (h.asleep t' call (wakeLock_eq_asleep ht')).imp_right (Or.imp_right fun ⟨t₁, call₁, h₁⟩ => ?_)
    -- who is to wake has the lock, so it would be this task
    rw [h.one t₁ t (by rw [h₁]; trivial) ht] at h₁
    exact absurd h₁ (hwaking call₁)

theorem Call.Starved.setFlag (h : call.Starved ss) (readStream : Bool) :
    call.Starved (setFlag readStream ss) := by
  cases readStream <;> cases call <;> exact h

/-- A flag is set by who will send the wake-up. -/
theorem Sys.Peer.shut (h : y.Peer call) (hc : y.closing = none) : (y.shut readStream).Peer call := by
  have hpeer : call.HasPeer y.ss := h.resolve_right (by rw [hc]; exact nofun)
  by_cases hcall : readStream = !call.reads
  · exact .inr (congrArg some hcall)
  · left
    cases call <;> cases readStream <;> first | exact hpeer | exact absurd rfl hcall

theorem Watched.shut (h : Watched y) (hc : y.closing = none) : Watched (y.shut readStream) where
  locked := h.locked
  one := h.one
  toSleep t call ht := (h.toSleep t call ht).imp (·.setFlag readStream) (·.shut hc)
  asleep t call ht := (h.asleep t call ht).imp (·.shut hc) (Or.imp_left (·.setFlag readStream))

/-- Either everybody is woken, or nobody has to be. -/
theorem Watched.shutEnd (h : Watched y) (hc : y.closing = some readStream) (hmeets : y.InTime readStream) :
    Watched y.shutEnd := by
  obtain ⟨hto, hasleep⟩ := hmeets
  have hpeer : ∀ t call, y.pc t = .toSleep call → call.HasPeer y.ss := by
    refine fun t call ht => (h.toSleep t call ht).2.resolve_right fun heq => ?_
    rw [hc, hto t call ht] at heq
    cases readStream <;> cases heq
  unfold Sys.shutEnd
  split
  · rename_i hclosed
    refine ⟨h.locked, h.one, fun t call ht => ?_, fun t call ht => absurd ht (hasleep hclosed t call)⟩
    exact ⟨(h.toSleep t call ht).1, .inl (hpeer t call ht)⟩
  · refine ⟨h.wake.locked, h.wake.one, fun t call ht => ?_,
      fun _ call ht => absurd ht (wake_ne_asleep _ call)⟩
    have hto := wake_eq_toSleep ht
    exact ⟨(h.toSleep t call hto).1, .inl (hpeer t call hto)⟩

end Parts

/-! ## Runs -/

/-- One step of any task. -/
theorem Watched.step {y y' : Sys α} {op : Op α} (h : Watched y) (hmeets : ClosesInTime y op)
    (hstep : Step y op y') : Watched y' := by
  cases hstep with
  | start ht | lockWoken ht | gone ht | woken ht =>
    exact h.setPc (fun hp => hp.elim) nofun nofun (by rw [ht]; exact nofun)
  | lock ht hf hl => exact h.lock hl
  | @lockSleep t call intr ht =>
    have hwant : Watched ({ y with wantLock := true } : Sys α) := ⟨h.locked, h.one, h.toSleep, h.asleep⟩
    cases intr with
    | true | false =>
      exact hwant.setPc (fun hp => hp.elim) nofun nofun fun _ hw => nomatch ht.symm.trans hw
  | leave ht =>
    exact h.setPc (fun _ => by rw [ht]; trivial) nofun nofun (by rw [ht]; exact nofun)
  | giveUp ht hf hturn =>
    apply h.setPc fun _ => by rw [ht]; trivial
    · rintro call' ⟨⟩
      exact (turn_sleep hturn).imp_right .inl
    · exact nofun
    · rw [ht]
      exact nofun
  | copy ht hf hturn => exact h.copy (by rw [ht]; trivial) (turn_copy hturn).1 (turn_copy hturn).2
  | @wake t call ht =>
    apply h.wake.setPc
    · intro _
      show ((y.pc t).wake).Holds
      rw [ht]
      trivial
    · exact nofun
    · exact nofun
    · exact fun _ _ t' call' => wake_ne_asleep _ call'
  | @sleep t call intr ht =>
    have hcall := h.toSleep t call ht
    apply h.release (by rw [ht]; trivial) _ (by rw [ht]; exact nofun)
    · cases intr with
      | true => exact nofun
      | false =>
        rintro call' ⟨⟩
        exact hcall
    · cases intr <;> exact id
  | release ht => exact h.release (by rw [ht]; trivial) id (by rw [ht]; exact nofun) nofun
  | close _ hc => exact (h.shut hc).shutEnd rfl hmeets
  | shut _ hc => exact h.shut hc
  | shutEnd hc => exact h.shutEnd hc (hmeets _ hc)

/-- **No wake-up is lost**: in every run in which the ends are closed in time, a task that sleeps in
`stream_read` or `stream_write` and was not woken has nothing to do, unless a call has moved a pointer, or
`close_stream` has set its flag, and is about to wake it. -/
theorem nothing_to_do_of_asleep {buffer : Nat → α} {tr : List (Sys α × Op α)} {y : Sys α}
    (h : History Step (Sys.start buffer) tr y) (hmeets : ∀ x ∈ tr, ClosesInTime x.1 x.2)
    (hquiet : ∀ t call, y.pc t ≠ .waking call) (hclosing : y.closing = none) :
    (∀ t c, y.pc t = .asleep (.read c) false → canRead y.ss = false ∧ y.ss.noWriter = false) ∧
    (∀ t d, y.pc t = .asleep (.write d) false → canWrite y.ss = false ∧ y.ss.noReader = false) := by
  have hy : Watched y := h.invariant (fun _ _ _ hy hm hs => hy.step hm hs) (.start buffer) hmeets
  have hasleep : ∀ t call, y.pc t = .asleep call false → call.Starved y.ss ∧ call.HasPeer y.ss := by
    intro t call ht
    obtain ⟨hpeer, hstarved | ⟨t', call', ht'⟩⟩ := hy.asleep t call ht
    · exact ⟨hstarved, hpeer.resolve_right (by rw [hclosing]; exact nofun)⟩
    · exact absurd ht' (hquiet t' call')
  exact ⟨fun t c ht => hasleep t (.read c) ht, fun t d ht => hasleep t (.write d) ht⟩

/-- A call of `stream_read` for one byte. -/
def oneByte : Call Nat := .read ⟨false, [], 0, 1⟩

/-- Task 0 has the lock of an empty stream and has found nothing to read. -/
def aboutToSleep : Sys Nat :=
  let y := (Sys.start fun _ => 0).setPc 0 (.locking oneByte)
  let y := ({ y with locked := true, wantLock := false } : Sys Nat).setPc 0 (.testing oneByte)
  y.setPc 0 (.toSleep oneByte)

theorem history_aboutToSleep : ∃ tr, History Step (Sys.start fun _ => 0) tr aboutToSleep ∧
    ∀ x ∈ tr, ClosesInTime x.1 x.2 := by
  have h₁ := (History.nil (Sys.start fun _ => 0)).snoc (@Step.start _ _ 0 oneByte rfl)
  have h₂ := h₁.snoc (@Step.lock _ _ 0 oneByte rfl rfl rfl)
  have h₃ := h₂.snoc (@Step.giveUp _ _ 0 oneByte rfl rfl rfl)
  exact ⟨_, h₃, by simp [ClosesInTime]⟩

theorem nothing_to_do_of_asleep_empty :
    canRead (aboutToSleep.release.setPc 0 (.asleep oneByte false)).ss = false ∧
      (aboutToSleep.release.setPc 0 (.asleep oneByte false)).ss.noWriter = false := by
  obtain ⟨tr, h, hmeets⟩ := history_aboutToSleep
  have hsleep := h.snoc (@Step.sleep _ _ 0 oneByte false rfl rfl)
  have hmeets' : ∀ x ∈ tr ++ [(aboutToSleep, .sleep 0 false)], ClosesInTime x.1 x.2 :=
    List.forall_mem_append.mpr ⟨hmeets, List.forall_mem_singleton.mpr trivial⟩
  have hquiet : ∀ t call, (aboutToSleep.release.setPc 0 (.asleep oneByte false)).pc t ≠ .waking call := by
    intro t call
    rcases t with _ | t <;> exact nofun
  exact (nothing_to_do_of_asleep hsleep hmeets' hquiet rfl).1 0 _ rfl

/-- The writing end is closed while task 0 is about to sleep: it sleeps then although UNF_NO_WRITER is
set, and there is no other task to wake it.  And: task 0 sleeps, the reading end is shut down, which
wakes it, and it sleeps again; the writing end is closed then, which frees the stream without a wake-up.
-/
theorem asleep_on_closed_stream :
    (∃ tr y, History Step (Sys.start fun _ => 0) tr y ∧ y.pc 0 = .asleep oneByte false ∧
      y.ss.noWriter = true ∧ ∀ t ≠ 0, y.pc t = .idle) ∧
    ∃ tr y, History Step (Sys.start fun _ => 0) tr y ∧ y.pc 0 = .asleep oneByte false ∧
      y.ss.noWriter = true ∧ y.freed = true ∧ ∀ t ≠ 0, y.pc t = .idle := by
  obtain ⟨tr, h, -⟩ := history_aboutToSleep
  constructor
  · have hclose := h.snoc (@Step.close _ _ false rfl rfl)
    have hsleep := hclose.snoc (@Step.sleep _ _ 0 oneByte false rfl rfl)
    refine ⟨_, _, hsleep, rfl, rfl, ?_⟩
    intro t ht
    rcases t with _ | t
    · exact absurd rfl ht
    · rfl
  · have h₁ := h.snoc (@Step.sleep _ _ 0 oneByte false rfl rfl)
    have h₂ := h₁.snoc (@Step.close _ _ true rfl rfl)
    have h₃ := h₂.snoc (@Step.woken _ _ 0 oneByte true rfl)
    have h₄ := h₃.snoc (@Step.lock _ _ 0 oneByte rfl rfl rfl)
    have h₅ := h₄.snoc (@Step.giveUp _ _ 0 oneByte rfl rfl rfl)
    have h₆ := h₅.snoc (@Step.sleep _ _ 0 oneByte false rfl rfl)
    have h₇ := h₆.snoc (@Step.close _ _ false rfl rfl)
    refine ⟨_, _, h₇, rfl, rfl, rfl, ?_⟩
    intro t ht
    rcases t with _ | t
    · exact absurd rfl ht
    · rfl

end Ixemul.Stream.Wakeup
