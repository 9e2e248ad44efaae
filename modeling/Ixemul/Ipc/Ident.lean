/-
# Ixemul.Ipc.Ident — identifiers over whole runs of the semaphore and message calls.

`semget` and `msgget` hand out identifiers that pack a slot and a sequence number; five calls take them
back. The system here is both tables together with the calls that sleep and, as history, the identifiers
handed out and not yet removed.

The decoders compare the sequence number of a slot with the upper half of the INDEX, which is zero, while a
slot in use has been given the number 1 by its get call.  So in every reachable state nothing at all is
accepted (`Fresh.semCheck`, `Fresh.msgCheck`).
-/
import Ixemul.Ipc.Sem
import Ixemul.Ipc.Msg
import Ixemul.Lib.Run

namespace Ixemul.Ipc

open Lib.Run

/-! ## The system -/

/-- Both tables, the sleeping calls, and the identifiers handed out and not removed since. -/
structure IpcState where
  sem : SemState
  msg : MsgState
  semWaiting : List SemWaiting
  sndWaiting : List SndWaiting
  rcvWaiting : List RcvWaiting
  liveSem : List Id
  liveMsg : List Id

/-- An identifier returned by a get call becomes live. -/
def record (r : Ret) (live : List Id) : List Id :=
  if r.errno = none then BitVec.ofInt 32 r.val :: live else live

/-- An identifier removed by IPC_RMID is live no more. -/
def forget (removed : Bool) (id : Id) (live : List Id) : List Id :=
  if removed then live.filter (· != id) else live

/-- The call was an IPC_RMID that went through. -/
def semRemoved (cmd : SemCmd) (o : CtlOutcome) : Bool :=
  match cmd, o with
  | .ipcRmid, .ret r _ => r.errno = none
  | _, _ => false

def msgRemoved (cmd : MsgCmd) (o : MsgOutcome) : Bool :=
  match cmd, o with
  | .ipcRmid, .ret r _ => r.errno = none
  | _, _ => false

/-- A call that goes to sleep joins those that do. -/
def IpcState.afterSem (s : IpcState) (sem : SemState) : SemOutcome → IpcState
  | .sleep w => { s with sem, semWaiting := w :: s.semWaiting }
  | _ => { s with sem }

def IpcState.afterMsg (s : IpcState) (msg : MsgState) : MsgOutcome → IpcState
  | .sleepSnd w => { s with msg, sndWaiting := w :: s.sndWaiting }
  | .sleepRcv w => { s with msg, rcvWaiting := w :: s.rcvWaiting }
  | .ret _ _ => { s with msg }

/-- One call of any process, or a sleeping call that goes on.  A run ends at a call that reads behind the end
of a table. -/
inductive IpcStep (s : IpcState) : IpcState → Prop where
  | semget (cred : Ucred) (key nsems : Int) (flg : GetFlg) :
      IpcStep s { s with
        sem := (semget s.sem cred key nsems flg).1
        liveSem := record (semget s.sem cred key nsems flg).2 s.liveSem }
  | semctl (cred : Ucred) (id : Id) (semnum : Int) (cmd : SemCmd)
      (hin : (semctl s.sem cred id semnum cmd).2 ≠ .outOfRange) :
      IpcStep s { s with
        sem := (semctl s.sem cred id semnum cmd).1
        liveSem := forget (semRemoved cmd (semctl s.sem cred id semnum cmd).2) id s.liveSem }
  | semop (p : Task) (id : Id) (sops : List SemBuf) (hin : (semop s.sem p id sops).2 ≠ .outOfRange) :
      IpcStep s (s.afterSem (semop s.sem p id sops).1 (semop s.sem p id sops).2)
  | semopResume (w : SemWaiting) (rest : List SemWaiting) (interrupted : Bool)
      (hw : s.semWaiting.Perm (w :: rest)) :
      IpcStep s ({ s with semWaiting := rest }.afterSem (semopResume s.sem w interrupted).1
        (semopResume s.sem w interrupted).2)
  | msgget (cred : Ucred) (key : Int) (flg : GetFlg) :
      IpcStep s { s with
        msg := (msgget s.msg cred key flg).1
        liveMsg := record (msgget s.msg cred key flg).2 s.liveMsg }
  | msgctl (cred : Ucred) (id : Id) (cmd : MsgCmd) (msg : MsgState) (o : MsgOutcome)
      (hr : msgctl s.msg cred id cmd = .ok (msg, o)) :
      IpcStep s { s with msg, liveMsg := forget (msgRemoved cmd o) id s.liveMsg }
  | msgsnd (id : Id) (a : SndArgs) (msg : MsgState) (o : MsgOutcome)
      (hr : msgsnd s.msg id a = .ok (msg, o)) : IpcStep s (s.afterMsg msg o)
  | msgrcv (id : Id) (a : RcvArgs) (msg : MsgState) (o : MsgOutcome)
      (hr : msgrcv s.msg id a = .ok (msg, o)) : IpcStep s (s.afterMsg msg o)
  | msgsndResume (w : SndWaiting) (rest : List SndWaiting) (interrupted : Bool) (msg : MsgState)
      (o : MsgOutcome) (hw : s.sndWaiting.Perm (w :: rest))
      (hr : msgsndResume s.msg w interrupted = .ok (msg, o)) :
      IpcStep s ({ s with sndWaiting := rest }.afterMsg msg o)
  | msgrcvResume (w : RcvWaiting) (rest : List RcvWaiting) (interrupted : Bool) (msg : MsgState)
      (o : MsgOutcome) (hw : s.rcvWaiting.Perm (w :: rest))
      (hr : msgrcvResume s.msg w interrupted = .ok (msg, o)) :
      IpcStep s ({ s with rcvWaiting := rest }.afterMsg msg o)

/-- The initialised tables. -/
def ipcInitial : IpcState where
  sem := seminit
  msg := msgInitial
  semWaiting := []
  sndWaiting := []
  rcvWaiting := []
  liveSem := []
  liveMsg := []

def ipcSystem : System IpcState where
  init := (· = ipcInitial)
  step := IpcStep

/-! ## What a program may expect -/

/-- A call that takes an identifier. -/
inductive IdCall where
  | semop (p : Task) (id : Id) (sops : List SemBuf)
  | semctl (cred : Ucred) (id : Id) (semnum : Int) (cmd : SemCmd)
  | msgsnd (id : Id) (a : SndArgs)
  | msgrcv (id : Id) (a : RcvArgs)
  | msgctl (cred : Ucred) (id : Id) (cmd : MsgCmd)

/-- **The call treats its identifier as a program expects**: a live one is accepted, any other is
rejected with EINVAL, which leaves the tables alone and indexes none of them beyond its end. -/
def Honoured (s : IpcState) : IdCall → Prop
  | .semop p id sops =>
    (id ∈ s.liveSem → ∃ ix, semCheck s.sem id = .accept ix) ∧
      (id ∉ s.liveSem → semop s.sem p id sops = (s.sem, .ret (semFail .einval)))
  | .semctl cred id semnum cmd =>
    (id ∈ s.liveSem → ∃ ix, semCheck s.sem id = .accept ix) ∧
      (id ∉ s.liveSem → semctl s.sem cred id semnum cmd = (s.sem, .ret (semFail .einval) .nothing))
  | .msgsnd id a =>
    (id ∈ s.liveMsg → ∃ q, msgCheck s.msg id = .ok q) ∧
      (id ∉ s.liveMsg → msgsnd s.msg id a = .ok (s.msg, .plain (msgFail .einval)))
  | .msgrcv id a =>
    (id ∈ s.liveMsg → ∃ q, msgCheck s.msg id = .ok q) ∧
      (id ∉ s.liveMsg → msgrcv s.msg id a = .ok (s.msg, .plain (msgFail .einval)))
  | .msgctl cred id cmd =>
    (id ∈ s.liveMsg → ∃ q, msgCheck s.msg id = .ok q) ∧
      (id ∉ s.liveMsg → msgctl s.msg cred id cmd = .ok (s.msg, .plain (msgFail .einval)))

/-- The calls that are made with an identifier that is not live and, for semaphores, does not name a
slot beyond the end of the table. -/
def Stale (s : IpcState) : IdCall → Prop
  | .semop _ id _ => id ∉ s.liveSem ∧ ¬ BeyondSema id
  | .semctl _ id _ _ => id ∉ s.liveSem ∧ ¬ BeyondSema id
  | .msgsnd id _ => id ∉ s.liveMsg
  | .msgrcv id _ => id ∉ s.liveMsg
  | .msgctl _ id _ => id ∉ s.liveMsg

/-! ## The invariant of every run -/

/-- Every slot in use was given its first sequence number, every other one has none, and no call
sleeps. -/
structure Fresh (s : IpcState) : Prop where
  sem : ∀ ix, (s.sem.sema ix).perm.seq = if (s.sem.sema ix).alloc then 1 else 0
  msg : ∀ q, (s.msg.msqids q).perm.seq = if (s.msg.msqids q).qbytes = 0 then 0 else 1
  semWaiting : s.semWaiting = []
  sndWaiting : s.sndWaiting = []
  rcvWaiting : s.rcvWaiting = []

variable {s t : IpcState}

/-- **No identifier is accepted**: a slot in use has the sequence number 1, and the number it is
compared with is 0. -/
theorem Fresh.semCheck (f : Fresh s) (id : Id) :
    (BeyondSema id ∧ semCheck s.sem id = .outOfRange) ∨
      (¬ BeyondSema id ∧ semCheck s.sem id = .reject .einval) := by
  unfold BeyondSema
  fun_cases Ipc.semCheck s.sem id with
  | case1 _ h1 => exact .inr ⟨fun hb => absurd hb.2 (Nat.not_lt.mpr h1), rfl⟩
  | case2 _ _ h2 => exact .inr ⟨fun hb => absurd h2 (Nat.not_lt.mpr hb.1), rfl⟩
  | case3 _ _ h2 _ hok =>
    rw [not_or, Bool.not_eq_false, not_not, ipcidToSeq_ipcidToIx] at hok
    have hseq := f.sem ⟨_, h2⟩
    rw [hok.1, hok.2] at hseq
    exact absurd hseq (by decide)
  | case4 _ h1 h2 => exact .inl ⟨⟨Nat.not_lt.mp h2, Nat.not_le.mp h1⟩, rfl⟩

theorem Fresh.msgCheck (f : Fresh s) (id : Id) : msgCheck s.msg id = .error .einval := by
  simp only [Ipc.msgCheck, ipcidToSeq_ipcidToIx]
  split
  · rename_i h
    have hseq := f.msg ⟨_, h⟩
    by_cases hq : (s.msg.msqids ⟨_, h⟩).qbytes = 0
    · rw [if_pos hq]
    · rw [if_neg hq] at hseq ⊢
      rw [if_pos (by rw [hseq]; decide)]
  · rfl

/-- A semaphore call leaves a fresh state by the error or by the access out of range. -/
theorem Fresh.semop (f : Fresh s) (p : Task) (id : Id) (sops : List SemBuf) :
    semop s.sem p id sops =
      (s.sem, if BeyondSema id then .outOfRange else .ret (semFail .einval)) := by
  unfold Ipc.semop
  rcases f.semCheck id with ⟨hb, hc⟩ | ⟨hb, hc⟩
  · rw [hc, if_pos hb]
  · rw [hc, if_neg hb]

theorem Fresh.semctl (f : Fresh s) (cred : Ucred) (id : Id) (semnum : Int) (cmd : SemCmd) :
    semctl s.sem cred id semnum cmd =
      (s.sem, if BeyondSema id then .outOfRange else .ret (semFail .einval) .nothing) := by
  unfold Ipc.semctl
  rcases f.semCheck id with ⟨hb, hc⟩ | ⟨hb, hc⟩
  · rw [hc, if_pos hb]
  · rw [hc, if_neg hb]

theorem Fresh.msgsnd (f : Fresh s) (id : Id) (a : SndArgs) :
    msgsnd s.msg id a = .ok (s.msg, .plain (msgFail .einval)) := by
  unfold Ipc.msgsnd
  rw [f.msgCheck]

theorem Fresh.msgrcv (f : Fresh s) (id : Id) (a : RcvArgs) :
    msgrcv s.msg id a = .ok (s.msg, .plain (msgFail .einval)) := by
  unfold Ipc.msgrcv
  rw [f.msgCheck]

theorem Fresh.msgctl (f : Fresh s) (cred : Ucred) (id : Id) (cmd : MsgCmd) :
    msgctl s.msg cred id cmd = .ok (s.msg, .plain (msgFail .einval)) := by
  unfold Ipc.msgctl
  rw [f.msgCheck]

theorem fresh_initial : Fresh ipcInitial :=
  ⟨fun _ => rfl, fun _ => rfl, rfl, rfl, rfl⟩

/-- **One step keeps a fresh state fresh**: the get calls give an unused slot its first number, and no
other call gets past its identifier check. -/
theorem Fresh.step (f : Fresh s) (h : IpcStep s t) : Fresh t := by
  cases h with
  | semget cred key nsems flg =>
    refine { f with sem := fun ix => ?_ }
    rcases semget_cases s.sem cred key nsems flg with he | ⟨jx, ha, -, he⟩
    · show ((Ipc.semget s.sem cred key nsems flg).1.sema ix).perm.seq = _
      rw [he]
      exact f.sem ix
    · have hseq := f.sem jx
      rw [ha] at hseq
      show ((Ipc.semget s.sem cred key nsems flg).1.sema ix).perm.seq = _
      rw [he]
      by_cases hij : ix = jx
      · subst hij
        simp [semCreate, IpcPerm.create, SemidDs.alloc, hseq]
      · simpa [semCreate, hij] using f.sem ix
  | semctl =>
    rw [f.semctl]
    exact { f with }
  | semop p id =>
    rw [f.semop]
    by_cases hb : BeyondSema id
    · rw [if_pos hb]
      exact { f with }
    · rw [if_neg hb]
      exact { f with }
  | semopResume w rest interrupted hw =>
    rw [f.semWaiting] at hw
    exact absurd hw.length_eq (by simp)
  | msgget cred key flg =>
    refine { f with msg := fun q => ?_ }
    show ((Ipc.msgget s.msg cred key flg).1.msqids q).perm.seq = _
    rcases msgget_cases s.msg cred key flg with he | ⟨p, hfree, -, he⟩
    · rw [he]
      exact f.msg q
    · have hseq := f.msg p
      rw [if_pos hfree] at hseq
      rw [he]
      by_cases hqp : q = p
      · subst hqp
        simp [MsgState.setQueue, msgCreate, IpcPerm.create, hseq, msgmnb]
      · simpa [MsgState.setQueue, hqp] using f.msg q
  | msgctl cred id cmd msg o hr =>
    rw [f.msgctl] at hr
    cases hr
    exact { f with }
  | msgsnd id a msg o hr =>
    rw [f.msgsnd] at hr
    cases hr
    exact { f with }
  | msgrcv id a msg o hr =>
    rw [f.msgrcv] at hr
    cases hr
    exact { f with }
  | msgsndResume w rest interrupted msg o hw =>
    rw [f.sndWaiting] at hw
    exact absurd hw.length_eq (by simp)
  | msgrcvResume w rest interrupted msg o hw =>
    rw [f.rcvWaiting] at hw
    exact absurd hw.length_eq (by simp)

theorem fresh_of_reachable (h : Reachable ipcSystem s) : Fresh s := by
  refine h.invariant (fun s hs => ?_) fun _ _ f hst => f.step hst
  have he : s = ipcInitial := hs
  rw [he]
  exact fresh_initial

theorem honoured_iff_rejects {live accepted rejected : Prop} (h : ¬ accepted) :
    (live → accepted) ∧ (¬ live → rejected) ↔ ¬ live ∧ rejected := by
  constructor
  · rintro ⟨hacc, hrej⟩
    have hdead : ¬ live := fun hl => h (hacc hl)
    exact ⟨hdead, hrej hdead⟩
  · rintro ⟨hdead, hrej⟩
    exact ⟨fun hl => absurd hl hdead, fun _ => hrej⟩

/-- **Which calls treat their identifier as a program expects**: in every state of every run, exactly
those that are made with an identifier that is NOT live and, for semaphores, names no slot between
SEMMNI and SEMMSL. -/
theorem identifiers_honoured_iff (s : IpcState) (h : Reachable ipcSystem s) (c : IdCall) :
    Honoured s c ↔ Stale s c := by
  have f := fresh_of_reachable h
  have hno : ∀ id, ¬ ∃ ix, semCheck s.sem id = .accept ix := by
    rintro id ⟨ix, ha⟩
    rcases f.semCheck id with ⟨-, hc⟩ | ⟨-, hc⟩ <;> rw [hc] at ha <;> cases ha
  have hno' : ∀ id, ¬ ∃ q, msgCheck s.msg id = .ok q := by
    rintro id ⟨q, ha⟩
    rw [f.msgCheck] at ha
    cases ha
  cases c with
  | semop p id =>
    simp only [Honoured, Stale, f.semop]
    rw [honoured_iff_rejects (hno id)]
    apply and_congr_right'
    by_cases hb : BeyondSema id <;> simp [hb]
  | semctl cred id =>
    simp only [Honoured, Stale, f.semctl]
    rw [honoured_iff_rejects (hno id)]
    apply and_congr_right'
    by_cases hb : BeyondSema id <;> simp [hb]
  | msgsnd id a => exact (honoured_iff_rejects (hno' id)).trans (and_iff_left (f.msgsnd id a))
  | msgrcv id a => exact (honoured_iff_rejects (hno' id)).trans (and_iff_left (f.msgrcv id a))
  | msgctl cred id cmd =>
    exact (honoured_iff_rejects (hno' id)).trans (and_iff_left (f.msgctl cred id cmd))

/-- The state after `semget(IPC_PRIVATE, 1, 0600)` on fresh tables. -/
def afterSemget : IpcState :=
  { ipcInitial with
    sem := (semget ipcInitial.sem ⟨0, 0⟩ ipcPrivate 1 ⟨0o600, false, false⟩).1
    liveSem := record (semget ipcInitial.sem ⟨0, 0⟩ ipcPrivate 1 ⟨0o600, false, false⟩).2 [] }

theorem afterSemget_reachable : Reachable ipcSystem afterSemget :=
  .step (.init rfl) (.semget ⟨0, 0⟩ ipcPrivate 1 ⟨0o600, false, false⟩)

/-- With one set there, in slot 0, the number of the slot alone is no identifier, and is rejected. -/
theorem identifiers_honoured_afterSemget :
    afterSemget.liveSem = [65536] ∧ Honoured afterSemget (.semop 1 0 []) := by
  refine ⟨by decide, (identifiers_honoured_iff afterSemget afterSemget_reachable (.semop 1 0 [])).mpr ?_⟩
  exact ⟨show (0 : Id) ∉ afterSemget.liveSem by decide, by decide⟩

/-- **The identifier just handed out is rejected**: `semget` returns 65536, and `semop` with it leaves
by EINVAL. -/
theorem identifier_not_honoured :
    Reachable ipcSystem afterSemget ∧ 65536 ∈ afterSemget.liveSem ∧
      (semop afterSemget.sem 1 65536 []).2 = .ret (semFail .einval) ∧
      ¬ Honoured afterSemget (.semop 1 65536 []) := by
  have hlive : (65536 : Id) ∈ afterSemget.liveSem := by decide
  refine ⟨afterSemget_reachable, hlive, by decide, ?_⟩
  rintro ⟨hacc, -⟩
  obtain ⟨ix, hix⟩ := hacc hlive
  revert hix
  have hrej : semCheck afterSemget.sem 65536 = .reject .einval := by decide
  exact fun h => by cases h

end Ixemul.Ipc
