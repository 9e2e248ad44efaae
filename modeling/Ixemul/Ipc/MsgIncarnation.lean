/-
# Ixemul.Ipc.MsgIncarnation — senders that sleep while their queue is removed and another one made.

IPC_RMID marks a slot free, and the next `msgget` may make another queue in it.  A sender that sleeps in
between is to fail.  When it goes on it looks whether the slot is free; and while the sender that waits
first holds MSG_LOCKED in its sleep, nothing is made in the slot.  For every sender behind the first neither
says which queue is in the slot.

The runs are of all calls on the tables, by any tasks.  The queues made in a slot are counted beside the
tables, and a sleeping sender is kept with the number of the queue that its identifier named.
-/
import Ixemul.Lib.Run
import Ixemul.Ipc.MsgDelivery

namespace Ixemul.Ipc

open Lib.Run Function

variable {s s' : MsgState} {q : Fin msgmni} {h : Nat} {o : MsgOutcome} {mq : MsqidDs} {fuel n g : Nat}
  {a : SndArgs} {previous prev : Option Nat} {w : SndWaiting} {i : Bool} {p : Fin msgmni}

/-! ## Which calls lock, unlock or make a queue -/

theorem ret_ne_sleepSnd {r : Ret} {reply : MsgReply} (w : SndWaiting) :
    MsgOutcome.ret r reply ≠ .sleepSnd w := by
  intro hw
  cases hw

theorem bind_eq_ok {ε α β : Type} {x : Except ε α} {f : α → Except ε β} {b : β} (h : x >>= f = .ok b) :
    ∃ v, x = .ok v ∧ f v = .ok b := by
  cases x with
  | error => cases h
  | ok v => exact ⟨v, rfl, h⟩

/-- Every queue is locked as it was, and no queue was made. -/
structure SameSlots (s s' : MsgState) : Prop where
  locked : ∀ p, (s'.msqids p).locked = (s.msqids p).locked
  free : ∀ p, (s.msqids p).qbytes = 0 → (s'.msqids p).qbytes = 0

theorem SameSlots.refl (s : MsgState) : SameSlots s s := ⟨fun _ => rfl, fun _ h0 => h0⟩

theorem SameSlots.of_msqids (heq : s'.msqids = s.msqids) : SameSlots s s' :=
  ⟨fun p => by rw [heq], fun p h0 => by rw [heq, h0]⟩

theorem SameSlots.trans {s'' : MsgState} (h1 : SameSlots s s') (h2 : SameSlots s' s'') : SameSlots s s'' :=
  ⟨fun p => (h2.locked p).trans (h1.locked p), fun p h0 => h2.free p (h1.free p h0)⟩

theorem SameSlots.update (hmq : s'.msqids = update s.msqids q mq)
    (hlock : mq.locked = (s.msqids q).locked) (hfree : (s.msqids q).qbytes = 0 → mq.qbytes = 0) :
    SameSlots s s' where
  locked := by
    rw [hmq]
    exact (forall_update_iff s.msqids fun p mq => mq.locked = (s.msqids p).locked).mpr
      ⟨hlock, fun _ _ => rfl⟩
  free := by
    rw [hmq]
    exact (forall_update_iff s.msqids fun p mq => (s.msqids p).qbytes = 0 → mq.qbytes = 0).mpr
      ⟨hfree, fun _ _ => id⟩

/-- Rewriting one queue's record, but for its permissions and its limit. -/
theorem SameSlots.counters (hmq : s'.msqids = Function.update s.msqids q mq)
    (hperm : mq.perm = (s.msqids q).perm) (hqb : mq.qbytes = (s.msqids q).qbytes) : SameSlots s s' :=
  .update hmq (congrArg IpcPerm.flag hperm) (fun h0 => hqb.trans h0)

theorem freeSegs_msqids (hrun : freeSegs fuel s h = .ok s') : s'.msqids = s.msqids := by
  fun_induction freeSegs fuel s h with
  | case3 _ _ _ _ _ _ _ ih => exact (ih hrun :)
  | case2 => cases hrun
  | case1 | case4 =>
    cases hrun
    rfl

theorem msgFreehdr_msqids (hrun : msgFreehdr s h = .ok s') : s'.msqids = s.msqids := by
  obtain ⟨s1, hfree, hrun⟩ := bind_eq_ok hrun
  split at hrun
  · cases hrun
  · cases hrun
    exact (freeSegs_msqids hfree :)

theorem allocSegs_msqids (hrun : allocSegs n s h = .ok s') : s'.msqids = s.msqids := by
  fun_induction allocSegs n s h with
  | case1 =>
    cases hrun
    rfl
  | case6 _ _ _ _ _ _ _ _ _ ih => exact (ih hrun :)
  | _ => cases hrun

theorem enqueue_slots {pid : Nat} (hrun : enqueue s q h pid = .ok s') : SameSlots s s' := by
  revert hrun
  fun_cases enqueue s q h pid with
  | case2 => exact nofun
  | _ =>
    rintro ⟨⟩
    exact .counters rfl rfl rfl

theorem sndQueue_slots (hrun : sndQueue s q a h = .ok (s', o)) :
    SameSlots (s.setQueue q ((s.msqids q).setLocked false)) s' ∧ (∀ w, o ≠ .sleepSnd w) ∧
      ((s.msqids q).qbytes ≠ 0 → o = .plain (plainReturn 0)) := by
  simp only [sndQueue] at hrun
  have hqb : ((s.setQueue q ((s.msqids q).setLocked false)).msqids q).qbytes = (s.msqids q).qbytes := by
    rw [setQueue_self]
    rfl
  rw [hqb] at hrun
  generalize s.setQueue q ((s.msqids q).setLocked false) = s1 at hrun ⊢
  split at hrun
  · rename_i h0
    obtain ⟨s2, hfree, hrun⟩ := bind_eq_ok hrun
    cases hrun
    exact ⟨.of_msqids (msgFreehdr_msqids hfree), ret_ne_sleepSnd, fun hlive => absurd h0 hlive⟩
  · obtain ⟨s2, henq, hrun⟩ := bind_eq_ok hrun
    cases hrun
    exact ⟨enqueue_slots henq, ret_ne_sleepSnd, fun _ => rfl⟩

theorem plainReturn_ne_fail (e : Errno) : MsgOutcome.plain (plainReturn 0) ≠ .plain (msgFail e) := by
  intro he
  injection he with hret
  cases hret

theorem sndBody_slots (hrun : sndBody s q a h = .ok (s', o)) :
    SameSlots (s.setQueue q ((s.msqids q).setLocked false)) s' ∧ (∀ w, o ≠ .sleepSnd w) ∧
      ((s.msqids q).qbytes ≠ 0 → ((∃ e, o = .plain (msgFail e)) ↔ a.type.toInt < 1)) := by
  simp only [sndBody] at hrun
  obtain ⟨s1, hs1⟩ : ∃ s1, s1 = s.setHdr h { s.msghdrs h with type := a.type } := ⟨_, rfl⟩
  have hmq : s1.msqids = s.msqids := by
    rw [hs1]
    rfl
  rw [← hs1] at hrun
  split at hrun
  · rename_i htype
    obtain ⟨s2, hfree, hrun⟩ := bind_eq_ok hrun
    cases hrun
    refine ⟨.of_msqids ?_, ret_ne_sleepSnd, fun _ => ⟨fun _ => htype, fun _ => ⟨_, rfl⟩⟩⟩
    simp only [MsgState.setQueue, msgFreehdr_msqids hfree, hmq]
  · rename_i htype
    obtain ⟨r, -, hrun⟩ := bind_eq_ok hrun
    split at hrun
    · cases hrun
    · obtain ⟨hslots, hnosleep, hret⟩ := sndQueue_slots hrun
      refine ⟨SameSlots.trans (.of_msqids ?_) hslots, hnosleep, fun hlive => ?_⟩
      · simp only [MsgState.setQueue, hmq]
      · have ho := hret (by rw [hmq]; exact hlive)
        refine ⟨?_, fun hbad => absurd hbad htype⟩
        rintro ⟨e, he⟩
        exact absurd (ho.symm.trans he) (plainReturn_ne_fail e)

theorem msgsndCopy_slots (hrun : msgsndCopy s q a = .ok (s', o)) :
    SameSlots s s' ∧ (∀ w, o ≠ .sleepSnd w) ∧
      ((s.msqids q).qbytes ≠ 0 → ((∃ e, o = .plain (msgFail e)) ↔ a.type.toInt < 1)) := by
  revert hrun
  fun_cases msgsndCopy s q a with
  | case6 _ hunlocked _ _ h =>
    intro hrun
    obtain ⟨s1, halloc, hrun⟩ := bind_eq_ok hrun
    have hmq : s1.msqids = update s.msqids q ((s.msqids q).setLocked true) :=
      (allocSegs_msqids halloc).trans rfl
    obtain ⟨hslots, hnosleep, hfails⟩ := sndBody_slots hrun
    have hq : s1.msqids q = (s.msqids q).setLocked true := by
      rw [hmq, update_self]
    refine ⟨SameSlots.trans ?_ hslots, hnosleep, fun hlive => hfails (by rw [hq]; exact hlive)⟩
    -- the queue was unlocked, and is again
    have hback : (s1.setQueue q ((s1.msqids q).setLocked false)).msqids =
        update s.msqids q ((s.msqids q).setLocked false) := by
      simp only [MsgState.setQueue, hmq, update_self, update_idem]
      rfl
    exact .update hback (Bool.eq_false_iff.mpr hunlocked).symm fun h0 => h0
  | _ => rintro ⟨⟩

/-- **A round of `msgsnd`** refuses the message at once, puts the call to sleep, which locks the queue, or
leaves every lock as it was and fails for a bad type only. -/
theorem msgsndRound_cases (hlive : (s.msqids q).qbytes ≠ 0)
    (hrun : msgsndRound s q a = .ok (s', o)) :
    (s' = s ∧ (∃ e, o = .plain (msgFail e)) ∧
        (a.msgsz.toNat > (s.msqids q).qbytes ∨
          (needMoreResources s q a.msgsz ∧ a.nowait))) ∨
      (s' = s.setQueue q ((s.msqids q).setLocked true) ∧ o = .sleepSnd ⟨q, a, !(s.msqids q).locked⟩ ∧
        a.nowait = false ∧ ¬ a.msgsz.toNat > (s.msqids q).qbytes ∧
        needMoreResources s q a.msgsz) ∨
      (SameSlots s s' ∧ (∀ w, o ≠ .sleepSnd w) ∧ ¬ a.msgsz.toNat > (s.msqids q).qbytes ∧
        needMoreResources s q a.msgsz = false ∧
        ((∃ e, o = .plain (msgFail e)) ↔ a.type.toInt < 1)) := by
  revert hrun
  fun_cases msgsndRound s q a with
  | case1 _ hbig =>
    rintro ⟨⟩
    exact .inl ⟨rfl, ⟨_, rfl⟩, .inl hbig⟩
  | case2 _ hfit hneed hnowait =>
    rintro ⟨⟩
    exact .inl ⟨rfl, ⟨_, rfl⟩, .inr ⟨hneed, hnowait⟩⟩
  | case3 _ hfit hneed hwait =>
    rintro ⟨⟩
    exact .inr (.inl ⟨rfl, rfl, Bool.eq_false_iff.mpr hwait, hfit, hneed⟩)
  | case4 _ hfit hneed =>
    intro hrun
    obtain ⟨hslots, hnosleep, hfails⟩ := msgsndCopy_slots hrun
    exact .inr (.inr ⟨hslots, hnosleep, hfit, Bool.eq_false_iff.mpr hneed, hfails hlive⟩)

theorem takeOut_slots (hrun : takeOut s q previous prev h = .ok (.message s' g)) : SameSlots s s' := by
  have hwrite : ∀ v, SameSlots s (writePrev s q prev v) := by
    intro v
    cases prev with
    | none => exact .counters rfl rfl rfl
    | some => exact .of_msqids rfl
  revert hrun
  fun_cases takeOut s q previous prev h with
  | case1 | case3 => exact nofun
  | case2 | case4 =>
    rintro ⟨⟩
    exact (hwrite _).trans (.counters rfl rfl rfl)
  | case5 => exact fun hrun => (Selected.message.inj (Except.ok.inj hrun)).1 ▸ hwrite _

theorem selectType_slots {a : RcvArgs} (hrun : selectType s q a fuel previous prev = .ok (.message s' g)) :
    SameSlots s s' := by
  fun_induction selectType s q a fuel previous prev with
  | case3 => exact takeOut_slots hrun
  | case5 _ _ _ _ _ _ ih => exact ih hrun
  | _ => cases hrun

theorem msgSelect_slots {a : RcvArgs} (hrun : msgSelect s q a = .ok (.message s' g)) : SameSlots s s' := by
  unfold msgSelect at hrun
  split at hrun
  · revert hrun
    fun_cases selectFirst s q a with
    | case3 | case5 =>
      rintro ⟨⟩
      exact .counters rfl rfl rfl
    | _ => exact nofun
  · exact selectType_slots hrun

/-- **`msgrcv`** leaves every lock as it was. -/
theorem msgrcvRound_slots {a : RcvArgs} (hrun : msgrcvRound s q a = .ok (s', o)) :
    SameSlots s s' ∧ ∀ w, o ≠ .sleepSnd w := by
  obtain ⟨sel, hsel, hrun⟩ := bind_eq_ok hrun
  cases sel with
  | tooBig =>
    cases hrun
    exact ⟨.refl s, ret_ne_sleepSnd⟩
  | nothing =>
    change (if a.nowait then _ else _) = _ at hrun
    split at hrun
    · cases hrun
      exact ⟨.refl s, ret_ne_sleepSnd⟩
    · cases hrun
      exact ⟨.refl s, fun _ => nofun⟩
  | message s1 =>
    obtain ⟨out, -, hrun⟩ := bind_eq_ok hrun
    obtain ⟨s3, hfree, hrun⟩ := bind_eq_ok hrun
    cases hrun
    have hcount : SameSlots s1 s' := .counters (msgFreehdr_msqids hfree) rfl rfl
    exact ⟨(msgSelect_slots hsel).trans hcount, ret_ne_sleepSnd⟩

theorem rmidLoop_slots {msghdr : Option Nat} (hrun : rmidLoop q fuel s msghdr = .ok s') : SameSlots s s' := by
  fun_induction rmidLoop q fuel s msghdr with
  | case1 =>
    cases hrun
    exact .refl _
  | case2 => cases hrun
  | case3 fuel s h mq m ih =>
    obtain ⟨s2, hfree, hrun⟩ := bind_eq_ok hrun
    have hcount : SameSlots s s2 := .counters (msgFreehdr_msqids hfree) rfl rfl
    exact hcount.trans (ih s2 hrun)

/-- **`msgctl`** leaves every lock as it was, and makes no queue. -/
theorem msgctl_slots {cred : Ucred} {id : Id} {cmd : MsgCmd}
    (hrun : msgctl s cred id cmd = .ok (s', o)) : SameSlots s s' ∧ ∀ w, o ≠ .sleepSnd w := by
  revert hrun
  fun_cases msgctl s cred id cmd with
  | case2 =>
    intro hrun
    obtain ⟨s2, hrmid, hrun⟩ := bind_eq_ok hrun
    cases hrun
    obtain ⟨s1, hloop, hrmid⟩ := bind_eq_ok hrmid
    split at hrmid
    · cases hrmid
    · split at hrmid
      · cases hrmid
      · cases hrmid
        exact ⟨(rmidLoop_slots hloop).trans (.update rfl rfl (fun _ => rfl)), ret_ne_sleepSnd⟩
  | case5 q hc =>
    rintro ⟨⟩
    exact ⟨.update rfl rfl (fun h0 => absurd h0 (msgCheck_live hc)), ret_ne_sleepSnd⟩
  | _ =>
    rintro ⟨⟩
    exact ⟨.refl s, ret_ne_sleepSnd⟩

/-- What is locked stays locked, and no queue is made there. -/
def LocksKept (s s' : MsgState) : Prop :=
  ∀ p, (s.msqids p).locked = true →
    (s'.msqids p).locked = true ∧ ((s.msqids p).qbytes = 0 → (s'.msqids p).qbytes = 0)

theorem SameSlots.locksKept (h : SameSlots s s') (hnosleep : ∀ w, o ≠ .sleepSnd w) {Q : SndWaiting → Prop} :
    LocksKept s s' ∧ ∀ w, o = .sleepSnd w → Q w :=
  ⟨fun p hp => ⟨(h.locked p).trans hp, h.free p⟩, fun w hw => absurd hw (hnosleep w)⟩

/-- A call that `msgsnd` puts to sleep: it holds the lock if the queue was not locked. -/
def FallsAsleep (s s' : MsgState) (w : SndWaiting) : Prop :=
  w.weOwnIt = !(s.msqids w.q).locked ∧ w.args.nowait = false ∧ (s'.msqids w.q).locked = true ∧
    (s.msqids w.q).qbytes ≠ 0

/-- **A round of `msgsnd`** undoes no lock. -/
theorem msgsndRound_locks (hlive : (s.msqids q).qbytes ≠ 0)
    (hrun : msgsndRound s q a = .ok (s', o)) :
    LocksKept s s' ∧ ∀ w, o = .sleepSnd w → w.q = q ∧ FallsAsleep s s' w := by
  rcases msgsndRound_cases hlive hrun with ⟨rfl, ⟨e, rfl⟩, -⟩ | ⟨rfl, rfl, hwait, -⟩ | ⟨hslots, hnosleep, -⟩
  · exact (SameSlots.refl _).locksKept ret_ne_sleepSnd
  · have hq : (s.setQueue q ((s.msqids q).setLocked true)).msqids q = (s.msqids q).setLocked true :=
      setQueue_self
    constructor
    · exact (forall_update_iff s.msqids fun p mq => (s.msqids p).locked →
        mq.locked ∧ ((s.msqids p).qbytes = 0 → mq.qbytes = 0)).mpr
        ⟨fun _ => ⟨rfl, id⟩, fun _ _ hp => ⟨hp, id⟩⟩
    · intro w hw
      cases hw
      exact ⟨rfl, rfl, hwait, by rw [hq]; rfl, hlive⟩
  · exact hslots.locksKept hnosleep

/-- Is it a call, and not one that goes on? -/
def MsgCall.isNew : MsgCall → Bool
  | .sndResume _ _ => false
  | .rcvResume _ _ => false
  | _ => true

/-- **No new call undoes a lock.** -/
theorem run_locks {call : MsgCall} (hnew : call.isNew) (hrun : call.run s = .ok (s', o)) :
    LocksKept s s' ∧ ∀ w, o = .sleepSnd w → FallsAsleep s s' w := by
  cases call with
  | msgget cred key flg =>
    cases hrun
    refine ⟨fun p hp => ?_, fun w hw => absurd hw (ret_ne_sleepSnd w)⟩
    rcases msgget_cases s cred key flg with he | ⟨q, -, hunlocked, he⟩ <;> rw [he]
    · exact ⟨hp, fun h0 => h0⟩
    · have hpq : p ≠ q := by
        rintro rfl
        rw [hp] at hunlocked
        cases hunlocked
      rw [setQueue_other hpq]
      exact ⟨hp, fun h0 => h0⟩
  | msgctl =>
    obtain ⟨hslots, hnosleep⟩ := msgctl_slots hrun
    exact hslots.locksKept hnosleep
  | msgsnd id a =>
    revert hrun
    simp only [MsgCall.run]
    fun_cases msgsnd s id a with
    | case1 =>
      rintro ⟨⟩
      exact (SameSlots.refl s).locksKept ret_ne_sleepSnd
    | case2 q hc =>
      intro hrun
      obtain ⟨hlocks, hsleep⟩ := msgsndRound_locks (msgCheck_live hc) hrun
      exact ⟨hlocks, fun w hw => (hsleep w hw).2⟩
  | msgrcv id a =>
    revert hrun
    simp only [MsgCall.run]
    fun_cases msgrcv s id a with
    | case1 =>
      rintro ⟨⟩
      exact (SameSlots.refl s).locksKept ret_ne_sleepSnd
    | case2 =>
      intro hrun
      obtain ⟨hslots, hnosleep⟩ := msgrcvRound_slots hrun
      exact hslots.locksKept hnosleep
  | sndResume | rcvResume => cases hnew

theorem msgrcvResume_slots {w : RcvWaiting} (hrun : msgrcvResume s w i = .ok (s', o)) :
    SameSlots s s' ∧ ∀ w, o ≠ .sleepSnd w := by
  revert hrun
  fun_cases msgrcvResume s w i with
  | case3 => exact msgrcvRound_slots
  | _ =>
    rintro ⟨⟩
    exact ⟨.refl s, ret_ne_sleepSnd⟩

theorem unlockedBy_other (hp : w.weOwnIt → p ≠ w.q) : (s.unlockedBy w).msqids p = s.msqids p := by
  unfold MsgState.unlockedBy
  split
  · rename_i hown
    exact setQueue_other (hp hown)
  · rfl

/-- **A sender that goes on** fails, or goes round its loop once more. -/
theorem msgsndResume_cases (hrun : msgsndResume s w i = .ok (s', o)) :
    ((i ∨ (s.msqids w.q).qbytes = 0) ∧ s' = s.unlockedBy w ∧ ∃ e, o = .plain (msgFail e)) ∨
      (i = false ∧ (s.msqids w.q).qbytes ≠ 0 ∧
        msgsndRound (s.unlockedBy w) w.q w.args = .ok (s', o)) := by
  revert hrun
  fun_cases msgsndResume s w i with
  | case1 _ hi =>
    intro hrun
    obtain ⟨hs, ho⟩ := Prod.mk.inj (Except.ok.inj hrun)
    exact .inl ⟨.inl hi, hs.symm, _, ho.symm⟩
  | case2 _ hi h0 =>
    intro hrun
    obtain ⟨hs, ho⟩ := Prod.mk.inj (Except.ok.inj hrun)
    exact .inl ⟨.inr ((SameQbytes.unlockedBy s w w.q).symm.trans h0), hs.symm, _, ho.symm⟩
  | case3 _ hi hlive =>
    intro hrun
    exact .inr ⟨Bool.eq_false_iff.mpr hi, fun h0 => hlive ((SameQbytes.unlockedBy s w w.q).trans h0), hrun⟩

/-! ## Runs -/

/-- A call asleep: a sender, with the number of the queue that its identifier named, or a receiver. -/
inductive Sleeper where
  | sender (w : SndWaiting) (k : Nat)
  | receiver (w : RcvWaiting)

/-- The tables, how many queues have been made in each slot, and the calls asleep, by task. -/
structure Slots (τ : Type) where
  tables : MsgState
  made : Fin msgmni → Nat
  asleep : τ → Option Sleeper

inductive SlotOp (τ : Type) where
  | call (t : τ) (call : MsgCall)
  | resume (t : τ) (interrupted : Bool)

/-- A queue has been made where a slot was free and is not any more. -/
def madeAfter (made : Fin msgmni → Nat) (s s' : MsgState) (q : Fin msgmni) : Nat :=
  if (s.msqids q).qbytes = 0 ∧ (s'.msqids q).qbytes ≠ 0 then made q + 1 else made q

/-- What is left of a call; `k` numbers the queue a sender waits for. -/
def MsgOutcome.sleeper (k : Fin msgmni → Nat) : MsgOutcome → Option Sleeper
  | .ret _ _ => none
  | .sleepSnd w => some (.sender w (k w.q))
  | .sleepRcv w => some (.receiver w)

variable {τ : Type} {y : Slots τ} {t : τ} {z : Option Sleeper} {k : Nat}

/-- The `k`th queue made in slot `q` is there. -/
def Slots.Alive (y : Slots τ) (q : Fin msgmni) (k : Nat) : Prop :=
  (y.tables.msqids q).qbytes ≠ 0 ∧ y.made q = k

/-- The step puts a message into no queue but the one its call was made for; and a call whose queue is
gone fails. -/
def InItsQueue (y : Slots τ) : SlotOp τ → Prop
  | .call _ call => ∀ q a s' o, call.sending y.tables = some (q, a) → call.run y.tables = .ok (s', o) →
      ∀ p, s'.letters p ≠ y.tables.letters p → p = q
  | .resume t i => ∀ w k s' o, y.asleep t = some (.sender w k) →
      msgsndResume y.tables w i = .ok (s', o) →
      (∀ p, s'.letters p ≠ y.tables.letters p → p = w.q ∧ y.Alive w.q k) ∧
        (¬ y.Alive w.q k → ∃ e, o = .plain (msgFail e))

/-- The message is refused, for its size or for its type. -/
def Refused (s : MsgState) (w : SndWaiting) : Prop :=
  w.args.msgsz.toNat > (s.msqids w.q).qbytes ∨
    (needMoreResources s w.q w.args.msgsz = false ∧ w.args.type.toInt < 1)

/-- What a sender that goes on has to find: it holds the lock, a signal has ended its sleep, the slot is
free, its queue is there, or its message is refused. -/
def Guarded (y : Slots τ) : SlotOp τ → Prop
  | .call _ _ => True
  | .resume t i => ∀ w k, y.asleep t = some (.sender w k) →
      w.weOwnIt = true ∨ i = true ∨ (y.tables.msqids w.q).qbytes = 0 ∨ y.Alive w.q k ∨
        Refused y.tables w

/-- The tables are well formed; a sender that holds a lock holds it alone, and its queue is the last one
made in the slot; and no sender sleeps that would not wait. -/
structure SlotInv (y : Slots τ) : Prop where
  wf : WellFormed y.tables
  owner : ∀ t w k, y.asleep t = some (.sender w k) → w.weOwnIt = true →
    (y.tables.msqids w.q).locked = true ∧ y.made w.q = k
  alone : ∀ t t' w w' k k', y.asleep t = some (.sender w k) → y.asleep t' = some (.sender w' k') →
    w.weOwnIt = true → w'.weOwnIt = true → w.q = w'.q → t = t'
  patient : ∀ t w k, y.asleep t = some (.sender w k) → w.args.nowait = false

theorem SndEffect.changed {c c' : Fin msgmni → List Letter}
    (he : SndEffect q a c o c') (hp : c' p ≠ c p) : p = q ∧ o = .plain (plainReturn 0) := by
  cases he with
  | failed | asleep => exact absurd rfl hp
  | sent =>
    refine ⟨?_, rfl⟩
    by_contra hpq
    exact hp (update_of_ne hpq ..)

theorem inItsQueue_resume_iff (inv : SlotInv y)
    (ht : y.asleep t = some (.sender w k)) (hrun : msgsndResume y.tables w i = .ok (s', o)) :
    InItsQueue y (.resume t i) ↔ y.Alive w.q k ∨ ∃ e, o = .plain (msgFail e) := by
  have hcall : (MsgCall.sndResume w i).run y.tables = .ok (s', o) := hrun
  have heffect := (run_sending inv.wf rfl hcall).2
  constructor
  · intro hits
    by_cases halive : y.Alive w.q k
    · exact .inl halive
    · exact .inr ((hits w k s' o ht hrun).2 halive)
  · intro hcases w' k' s'' o' ht' hrun'
    rw [ht] at ht'
    cases ht'
    rw [hrun] at hrun'
    cases hrun'
    refine ⟨fun p hp => ?_, fun hdead => hcases.resolve_left hdead⟩
    obtain ⟨hpq, ho⟩ := heffect.changed hp
    rcases hcases with halive | ⟨e, he⟩
    · exact ⟨hpq, halive⟩
    · exact absurd (ho.symm.trans he) (plainReturn_ne_fail e)

/-- Where it does not hold the lock, it fails exactly if a signal has ended its sleep, the slot is free, or
its message is refused. -/
theorem fails_iff (hwait : w.args.nowait = false) (hown : w.weOwnIt = false)
    (hrun : msgsndResume s w i = .ok (s', o)) :
    (∃ e, o = .plain (msgFail e)) ↔ i ∨ (s.msqids w.q).qbytes = 0 ∨ Refused s w := by
  have hsame : s.unlockedBy w = s := by rw [MsgState.unlockedBy, hown, if_neg (by simp)]
  rcases msgsndResume_cases hrun with ⟨hearly, -, hfail⟩ | ⟨hi, hlive, hround⟩
  · refine ⟨fun _ => ?_, fun _ => hfail⟩
    rcases hearly with hi | h0
    · exact .inl hi
    · exact .inr (.inl h0)
  · rw [hsame] at hround
    rw [hi, Refused]
    rcases msgsndRound_cases hlive hround with ⟨-, hfail, hcause⟩ | ⟨-, rfl, -, hfit, hneed⟩ |
      ⟨-, -, hfit, hneed, hfails⟩
    · refine ⟨fun _ => .inr (.inr ?_), fun _ => hfail⟩
      rcases hcause with hbig | ⟨-, hnowait⟩
      · exact .inl hbig
      · rw [hwait] at hnowait
        cases hnowait
    · refine iff_of_false ?_ ?_
      · rintro ⟨e, he⟩
        cases he
      · rintro (hi' | h0 | hbig | ⟨hno, -⟩)
        · cases hi'
        · exact hlive h0
        · exact hfit hbig
        · rw [hneed] at hno
          cases hno
    · rw [hfails, hneed]
      simp only [Bool.false_eq_true, false_or, true_and]
      exact ⟨fun h => .inr (.inr h), fun h => (h.resolve_left hlive).resolve_left hfit⟩

variable [DecidableEq τ] {op : SlotOp τ} {y' : Slots τ}

/-- Task `t` has done its step. -/
def Slots.next (y : Slots τ) (t : τ) (s' : MsgState) (z : Option Sleeper) : Slots τ :=
  ⟨s', madeAfter y.made y.tables s', update y.asleep t z⟩

@[simp] theorem Slots.next_asleep (y : Slots τ) (t : τ) (s' : MsgState) (z : Option Sleeper) :
    (y.next t s' z).asleep = update y.asleep t z := rfl

inductive SlotStep : Slots τ → SlotOp τ → Slots τ → Prop where
  | call {y : Slots τ} {t : τ} {call : MsgCall} {s' : MsgState} {o : MsgOutcome}
      (hidle : y.asleep t = none) (hnew : call.isNew = true) (hrun : call.run y.tables = .ok (s', o)) :
      SlotStep y (.call t call) (y.next t s' (o.sleeper y.made))
  | sender {y : Slots τ} {t : τ} {w : SndWaiting} {k : Nat} {i : Bool} {s' : MsgState} {o : MsgOutcome}
      (ht : y.asleep t = some (.sender w k)) (hrun : msgsndResume y.tables w i = .ok (s', o)) :
      SlotStep y (.resume t i) (y.next t s' (o.sleeper (fun _ => k)))
  | receiver {y : Slots τ} {t : τ} {w : RcvWaiting} {i : Bool} {s' : MsgState} {o : MsgOutcome}
      (ht : y.asleep t = some (.receiver w)) (hrun : msgrcvResume y.tables w i = .ok (s', o)) :
      SlotStep y (.resume t i) (y.next t s' (o.sleeper y.made))

/-- Task `t` may do its step when the locks of the others are left to them, and a lock it goes to sleep
with is nobody else's. -/
theorem SlotInv.next (inv : SlotInv y) (hwf : WellFormed s')
    (hothers : ∀ t' w k, t' ≠ t → y.asleep t' = some (.sender w k) → w.weOwnIt →
      (s'.msqids w.q).locked ∧
        ((y.tables.msqids w.q).qbytes = 0 → (s'.msqids w.q).qbytes = 0))
    (hz : ∀ w k, z = some (.sender w k) → w.args.nowait = false ∧ (y.tables.msqids w.q).qbytes ≠ 0 ∧
      (w.weOwnIt → (s'.msqids w.q).locked ∧ y.made w.q = k ∧
        ∀ t' w' k', t' ≠ t → y.asleep t' = some (.sender w' k') → w'.weOwnIt → w'.q ≠ w.q)) :
    SlotInv (y.next t s' z) := by
  have hcases : ∀ t' w k, (y.next t s' z).asleep t' = some (.sender w k) →
      (t' = t ∧ z = some (.sender w k)) ∨ (t' ≠ t ∧ y.asleep t' = some (.sender w k)) := by
    intro t' w k hs
    by_cases ht : t' = t
    · subst ht
      rw [Slots.next_asleep, update_self] at hs
      exact .inl ⟨rfl, hs⟩
    · rw [Slots.next_asleep, update_of_ne ht] at hs
      exact .inr ⟨ht, hs⟩
  have hmade : ∀ p, ((y.tables.msqids p).qbytes = 0 → (s'.msqids p).qbytes = 0) →
      (y.next t s' z).made p = y.made p := by
    intro p hp
    exact if_neg fun hc => hc.2 (hp hc.1)
  refine ⟨hwf, ?_, ?_, ?_⟩
  · intro t' w k hs hown
    rcases hcases t' w k hs with ⟨-, hz'⟩ | ⟨ht, hs'⟩
    · obtain ⟨-, hlive, hlock⟩ := hz w k hz'
      obtain ⟨hlocked, hk, -⟩ := hlock hown
      exact ⟨hlocked, (hmade w.q (fun h0 => absurd h0 hlive)).trans hk⟩
    · obtain ⟨hlocked, hfree⟩ := hothers t' w k ht hs' hown
      exact ⟨hlocked, (hmade w.q hfree).trans (inv.owner t' w k hs' hown).2⟩
  · intro t1 t2 w1 w2 k1 k2 hs1 hs2 hown1 hown2 hq
    rcases hcases t1 w1 k1 hs1 with ⟨rfl, hz1⟩ | ⟨ht1, hs1'⟩
    · rcases hcases t2 w2 k2 hs2 with ⟨rfl, -⟩ | ⟨ht2, hs2'⟩
      · rfl
      · exact absurd hq.symm (((hz w1 k1 hz1).2.2 hown1).2.2 t2 w2 k2 ht2 hs2' hown2)
    · rcases hcases t2 w2 k2 hs2 with ⟨rfl, hz2⟩ | ⟨ht2, hs2'⟩
      · exact absurd hq (((hz w2 k2 hz2).2.2 hown2).2.2 t1 w1 k1 ht1 hs1' hown1)
      · exact inv.alone t1 t2 w1 w2 k1 k2 hs1' hs2' hown1 hown2 hq
  · intro t' w k hs
    rcases hcases t' w k hs with ⟨-, hz'⟩ | ⟨-, hs'⟩
    · exact (hz w k hz').1
    · exact inv.patient t' w k hs'

theorem sleeper_eq_sender {k : Fin msgmni → Nat} (hz : o.sleeper k = some (.sender w n)) : o = .sleepSnd w ∧
    n = k w.q := by
  cases o with
  | ret | sleepRcv => cases hz
  | sleepSnd =>
    cases hz
    exact ⟨rfl, rfl⟩

/-- A step that undoes no lock keeps the invariant. -/
theorem SlotInv.locksKept (inv : SlotInv y) (hwf : WellFormed s')
    (hround : LocksKept y.tables s' ∧ ∀ w, o = .sleepSnd w → FallsAsleep y.tables s' w) :
    SlotInv (y.next t s' (o.sleeper y.made)) := by
  obtain ⟨hlocks, hsleep⟩ := hround
  refine inv.next hwf ?_ ?_
  · intro t' w k _ hs hown
    exact hlocks w.q (inv.owner t' w k hs hown).1
  · intro w k hz
    obtain ⟨rfl, rfl⟩ := sleeper_eq_sender hz
    obtain ⟨hmine, hwait, hlocked, hlive⟩ := hsleep w rfl
    refine ⟨hwait, hlive, fun hown => ⟨hlocked, rfl, ?_⟩⟩
    intro t' w' k' _ hs' hown' hq
    have hheld := (inv.owner t' w' k' hs' hown').1
    rw [hown, hq.symm, hheld] at hmine
    cases hmine

/-- What the others have locked stays locked when a sender goes on, and if it sleeps again with the lock,
the queue is nobody else's. -/
theorem SlotInv.sender (inv : SlotInv y)
    (ht : y.asleep t = some (.sender w k)) (hrun : msgsndResume y.tables w i = .ok (s', o))
    (hk : ∀ w', o = .sleepSnd w' → y.made w.q = k) :
    SlotInv (y.next t s' (o.sleeper (fun _ => k))) := by
  have hcall : (MsgCall.sndResume w i).run y.tables = .ok (s', o) := hrun
  -- the other owners have other queues
  have hapart : ∀ t' w' k', t' ≠ t → y.asleep t' = some (.sender w' k') → w'.weOwnIt →
      w.weOwnIt → w'.q ≠ w.q := by
    intro t' w' k' htt hs' hown' hown hq
    exact htt (inv.alone t' t w' w k' k hs' ht hown' hown hq)
  have hfirst : ∀ t' w' k', t' ≠ t → y.asleep t' = some (.sender w' k') → w'.weOwnIt →
      (y.tables.unlockedBy w).msqids w'.q = y.tables.msqids w'.q :=
    fun t' w' k' htt hs' hown' => unlockedBy_other (hapart t' w' k' htt hs' hown')
  have hround : LocksKept (y.tables.unlockedBy w) s' ∧ ∀ w', o = .sleepSnd w' →
      w'.q = w.q ∧ FallsAsleep (y.tables.unlockedBy w) s' w' := by
    rcases msgsndResume_cases hrun with ⟨-, rfl, e, rfl⟩ | ⟨-, hlive, hround⟩
    · exact (SameSlots.refl _).locksKept ret_ne_sleepSnd
    · exact msgsndRound_locks (by rw [SameQbytes.unlockedBy]; exact hlive) hround
  obtain ⟨hlocks, hsleep⟩ := hround
  refine inv.next (run_effect inv.wf hcall).1 ?_ ?_
  · intro t' w' k' htt hs' hown'
    have hrec := hfirst t' w' k' htt hs' hown'
    have hkept := hlocks w'.q (by rw [hrec]; exact (inv.owner t' w' k' hs' hown').1)
    rwa [hrec] at hkept
  · intro w' n hz
    obtain ⟨ho, rfl⟩ := sleeper_eq_sender hz
    obtain ⟨hq, hmine, hwait, hlocked, hlive⟩ := hsleep w' ho
    refine ⟨hwait, ?_, fun hown' => ⟨hlocked, by rw [hq]; exact hk w' ho, ?_⟩⟩
    · rw [hq] at hlive ⊢
      rwa [SameQbytes.unlockedBy] at hlive
    · intro t2 w2 k2 htt hs2 hown2 hq2
      have hheld := (inv.owner t2 w2 k2 hs2 hown2).1
      rw [hown', ← hq2, hfirst t2 w2 k2 htt hs2 hown2, hheld] at hmine
      cases hmine

/-- **What a sender that goes on has to find** is exactly this. -/
theorem inItsQueue_iff_guarded (inv : SlotInv y)
    (hstep : SlotStep y op y') : InItsQueue y op ↔ Guarded y op := by
  cases hstep with
  | call =>
    refine ⟨fun _ => trivial, fun _ q a s' o hs hrun' p hp => ?_⟩
    exact ((run_sending inv.wf hs hrun').2.changed hp).1
  | @sender t w k i s' o ht hrun =>
    rw [inItsQueue_resume_iff inv ht hrun]
    have hguard : Guarded y (.resume t i) ↔ (w.weOwnIt ∨ i ∨
        (y.tables.msqids w.q).qbytes = 0 ∨ y.Alive w.q k ∨ Refused y.tables w) := by
      refine ⟨fun hg => hg w k ht, fun hg w' k' ht' => ?_⟩
      rw [ht] at ht'
      cases ht'
      exact hg
    rw [hguard]
    cases hown : w.weOwnIt with
    | true =>
      -- the lock has kept its queue the last one made there
      refine iff_of_true ?_ (.inl rfl)
      by_cases hlive : (y.tables.msqids w.q).qbytes = 0
      · rcases msgsndResume_cases hrun with ⟨-, -, hfail⟩ | ⟨-, hlive', -⟩
        · exact .inr hfail
        · exact absurd hlive hlive'
      · exact .inl ⟨hlive, (inv.owner t w k ht hown).2⟩
    | false =>
      rw [fails_iff (inv.patient t w k ht) hown hrun]
      tauto
  | receiver ht =>
    constructor
    · intro _ w k ht'
      rw [ht] at ht'
      cases ht'
    · intro _ w k s'' o'' ht'
      rw [ht] at ht'
      cases ht'

/-- The invariant is kept by every step at which a sender that goes on finds what it has to. -/
theorem SlotInv.step (inv : SlotInv y) (hstep : SlotStep y op y') (hguard : Guarded y op) : SlotInv y' := by
  cases hstep with
  | call hidle hnew hrun => exact inv.locksKept (run_effect inv.wf hrun).1 (run_locks hnew hrun)
  | @sender t w k i s' o ht hrun =>
    refine inv.sender ht hrun fun w' ho => ?_
    have hits := (inItsQueue_resume_iff inv ht hrun).mp
      ((inItsQueue_iff_guarded inv (.sender ht hrun)).mpr hguard)
    rcases hits with halive | ⟨e, he⟩
    · exact halive.2
    · rw [ho] at he
      cases he
  | @receiver t w i s' o ht hrun =>
    have hcall : (MsgCall.rcvResume w i).run y.tables = .ok (s', o) := hrun
    obtain ⟨hslots, hnosleep⟩ := msgrcvResume_slots hrun
    exact inv.locksKept (run_effect inv.wf hcall).1 (hslots.locksKept hnosleep)

/-- **Senders that sleep while their queue is removed.**  In every run of the calls, from any well-formed
tables and with nobody asleep, the messages go into the queues they were sent to, and the calls whose queue
is gone fail, exactly if every sender that goes on holds the lock, was interrupted, finds its queue or a
free slot, or has its message refused. -/
theorem goes_on_right_iff {y y' : Slots τ} {tr : List (Slots τ × SlotOp τ)} (hw : WellFormed y.tables)
    (hidle : ∀ t, y.asleep t = none) (hrun : History SlotStep y tr y') :
    (∀ x ∈ tr, InItsQueue x.1 x.2) ↔ ∀ x ∈ tr, Guarded x.1 x.2 := by
  have inv : SlotInv y := by
    refine ⟨hw, ?_, ?_, ?_⟩ <;>
    · intro t
      simp [hidle]
  exact hrun.forall_iff (fun x op x' hx hst => ⟨inItsQueue_iff_guarded hx hst, hx.step hst⟩) inv

/-- Fresh tables but for one queue that allows a single byte. -/
def smallQueue : MsgState :=
  msgInitial.setQueue 0 ⟨IpcPerm.zero, none, none, 0, 0, 1, 0, 0⟩

/-- A message of that size. -/
def oneByte : SndArgs := ⟨1, 1, fun _ => 7, 1, false⟩

theorem smallQueue_wellFormed : WellFormed smallQueue :=
  msgInitial_create rfl rfl rfl rfl (by decide)

/-- The first message fills the queue, and a sender goes to sleep; the queue is removed, and the sender, which
has locked it, goes on and fails. -/
theorem goes_on_right_iff_removed :
    ∃ (tr : List (Slots Nat × SlotOp Nat)) (y : Slots Nat),
      History SlotStep ⟨smallQueue, fun _ => 1, fun _ => none⟩ tr y ∧
      tr.map Prod.snd = [.call 0 (.msgsnd 0 oneByte), .call 1 (.msgsnd 0 oneByte),
        .call 0 (.msgctl ⟨0, 0⟩ 0 .ipcRmid), .resume 1 false] ∧ ∀ x ∈ tr, InItsQueue x.1 x.2 := by
  have h₁ : History SlotStep ⟨smallQueue, fun _ => 1, fun _ => none⟩ _ _ :=
    (History.nil _).snoc (@SlotStep.call Nat _ _ 0 (.msgsnd 0 oneByte) _ _ rfl rfl rfl)
  have h₂ := h₁.snoc (@SlotStep.call Nat _ _ 1 (.msgsnd 0 oneByte) _ _ rfl rfl rfl)
  have h₃ := h₂.snoc (@SlotStep.call Nat _ _ 0 (.msgctl ⟨0, 0⟩ 0 .ipcRmid) _ _ rfl rfl rfl)
  have h := h₃.snoc (@SlotStep.sender Nat _ _ 1 ⟨0, oneByte, true⟩ 1 false _ _ rfl rfl)
  refine ⟨_, _, h, rfl, (goes_on_right_iff smallQueue_wellFormed (fun _ => rfl) h).mpr ?_⟩
  simp only [List.nil_append, List.forall_mem_append, List.forall_mem_singleton, Guarded, true_and]
  rintro w k ⟨⟩
  exact .inl rfl

/-- The first message fills the queue, and two senders go to sleep; the queue is removed, the sender that
has locked it goes on and fails, and another queue is made in the slot. -/
def reusedSlot : List (SlotOp Nat) :=
  [.call 0 (.msgsnd 0 oneByte), .call 1 (.msgsnd 0 oneByte), .call 2 (.msgsnd 0 oneByte),
    .call 0 (.msgctl ⟨0, 0⟩ 0 .ipcRmid), .resume 1 false, .call 0 (.msgget ⟨0, 0⟩ 0 ⟨0, true, false⟩)]

/-- **A message in a queue it was not sent to**: the other sender goes on after that, and its message is the
first one in the second queue of the slot. -/
theorem sent_to_later_queue :
    WellFormed smallQueue ∧
      ∃ (tr : List (Slots Nat × SlotOp Nat)) (y : Slots Nat) (s' : MsgState),
        History SlotStep ⟨smallQueue, fun _ => 1, fun _ => none⟩ tr y ∧ tr.map Prod.snd = reusedSlot ∧
        y.asleep 2 = some (.sender ⟨0, oneByte, false⟩ 1) ∧ y.made 0 = 2 ∧ y.tables.letters 0 = [] ∧
        msgsndResume y.tables ⟨0, oneByte, false⟩ false = .ok (s', .plain (plainReturn 0)) ∧
        (s'.letters 0).map Letter.text = [[7]] := by
  refine ⟨?_, _, _, _, ((((((History.nil _).snoc (.call rfl rfl rfl)).snoc (.call rfl rfl rfl)).snoc
    (.call rfl rfl rfl)).snoc (.call rfl rfl rfl)).snoc (.sender rfl rfl)).snoc (.call rfl rfl rfl),
    rfl, rfl, rfl, ?_, rfl, ?_⟩
  · exact smallQueue_wellFormed
  · decide
  · decide

end Ixemul.Ipc
