/-
# Ixemul.Ipc.MsgQueue — queues that come and go: msginit, msgget and msgctl.

Every call is followed through its exits over the invariant of `MsgInv`.  What a write leaves alone is
said by `SameSegs` and `SameLinks`, once for a header and once for a queue's record; a header comes into
a call's hands by `Tables.detach`, and goes back to the free list by `Tables.release_wellFormed`.

IPC_RMID drains a queue, message by message (`Draining.round`, `rmidLoop_spec`).  No other call of these
changes what a queue holds (`msgget_spec`, `msgctl_spec`).
-/
import Ixemul.Ipc.MsgContents

namespace Ixemul.Ipc

open Lib Lib.Links
open Function List

variable {s s' : MsgState} {L : Layout} {st : Option (Fin msgmni) → Option Nat} {h : Nat}
  {loose : Option Nat} {q : Fin msgmni} {l : List Nat} {mq : MsqidDs}

/-! ## Frame lemmas -/

theorem setQueue_self : (s.setQueue q mq).msqids q = mq := update_self ..

theorem setQueue_other {p : Fin msgmni} (hp : p ≠ q) : (s.setQueue q mq).msqids p = s.msqids p :=
  update_of_ne hp ..

theorem hdrStart_setQueue (s : MsgState) (q : Fin msgmni) (mq : MsqidDs) :
    hdrStart (s.setQueue q mq) = update (hdrStart s) (some q) mq.first := by
  funext o
  cases o with
  | none => rfl
  | some p =>
    by_cases hp : p = q
    · subst hp
      simp [hdrStart, setQueue_self]
    · simp [hdrStart, setQueue_other hp, hp]

theorem hdrStart_setQueue_same (hf : mq.first = (s.msqids q).first) :
    hdrStart (s.setQueue q mq) = hdrStart s := by
  rw [hdrStart_setQueue, hf]
  exact update_eq_self (some q) (hdrStart s)

theorem hdrStart_setHdr (s : MsgState) (h : Nat) (m : Msg) : hdrStart (s.setHdr h m) = hdrStart s := by
  funext o
  cases o <;> rfl

theorem hdrNext_setHdr (s : MsgState) (h : Nat) (m : Msg) :
    hdrNext (s.setHdr h m) = update (hdrNext s) h m.next :=
  comp_update Msg.next s.msghdrs h m

/-- The segments are where they were, and the headers say so. -/
structure SameSegs (s s' : MsgState) : Prop where
  msgmaps : s'.msgmaps = s.msgmaps
  freeMsgmaps : s'.freeMsgmaps = s.freeMsgmaps
  nfreeMsgmaps : s'.nfreeMsgmaps = s.nfreeMsgmaps
  ts : ∀ g, (s'.msghdrs g).ts = (s.msghdrs g).ts
  spot : ∀ g, (s'.msghdrs g).spot = (s.msghdrs g).spot

/-- The headers are linked as they were, too. -/
structure SameLinks (s s' : MsgState) : Prop extends SameSegs s s' where
  freeMsghdrs : s'.freeMsghdrs = s.freeMsghdrs
  next : ∀ g, (s'.msghdrs g).next = (s.msghdrs g).next
  live : ∀ q, (s'.msqids q).qbytes ≠ 0 ↔ (s.msqids q).qbytes ≠ 0

theorem SameSegs.segStart (f : SameSegs s s') : Ipc.segStart s' = Ipc.segStart s := by
  funext o
  cases o with
  | none => exact f.freeMsgmaps
  | some g => exact f.spot g

theorem SameSegs.setHdr {m : Msg} (hts : m.ts = (s.msghdrs h).ts) (hspot : m.spot = (s.msghdrs h).spot) :
    SameSegs s (s.setHdr h m) where
  msgmaps := rfl
  freeMsgmaps := rfl
  nfreeMsgmaps := rfl
  ts := (forall_update_iff s.msghdrs fun g m => m.ts = (s.msghdrs g).ts).mpr ⟨hts, fun _ _ => rfl⟩
  spot := (forall_update_iff s.msghdrs fun g m => m.spot = (s.msghdrs g).spot).mpr ⟨hspot, fun _ _ => rfl⟩

theorem SameSegs.setQueue (s : MsgState) (q : Fin msgmni) (mq : MsqidDs) : SameSegs s (s.setQueue q mq) :=
  ⟨rfl, rfl, rfl, fun _ => rfl, fun _ => rfl⟩

theorem SameSegs.trans {s'' : MsgState} (h1 : SameSegs s s') (h2 : SameSegs s' s'') : SameSegs s s'' where
  msgmaps := h2.msgmaps.trans h1.msgmaps
  freeMsgmaps := h2.freeMsgmaps.trans h1.freeMsgmaps
  nfreeMsgmaps := h2.nfreeMsgmaps.trans h1.nfreeMsgmaps
  ts g := (h2.ts g).trans (h1.ts g)
  spot g := (h2.spot g).trans (h1.spot g)

theorem liveQueue_congr (hb : ∀ q, (s'.msqids q).qbytes ≠ 0 ↔ (s.msqids q).qbytes ≠ 0)
    (o : Option (Fin msgmni)) : liveQueue s' o ↔ liveQueue s o := by
  cases o with
  | none => exact Iff.rfl
  | some q => exact hb q

/-- The tables only depend on the links. -/
theorem Tables.congr (t : Tables s L loose st) (f : SameLinks s s') : Tables s' L loose st where
  segs := by
    rw [f.msgmaps, f.segStart]
    exact t.segs
  hdrs := t.hdrs.congr (fun _ => Iff.rfl) (liveQueue_congr f.live) (fun i _ => f.next i) fun _ _ => rfl
  free := by rw [t.free, f.freeMsghdrs]
  bound := t.bound
  nfree := by rw [f.nfreeMsgmaps, t.nfree]
  size := by
    intro q g hg
    rw [f.ts]
    exact t.size q g hg

theorem SameLinks.setQueue (hb : mq.qbytes ≠ 0 ↔ (s.msqids q).qbytes ≠ 0) :
    SameLinks s (s.setQueue q mq) := by
  refine ⟨.setQueue s q mq, rfl, fun _ => rfl, ?_⟩
  exact (forall_update_iff s.msqids fun p mq => mq.qbytes ≠ 0 ↔ (s.msqids p).qbytes ≠ 0).mpr
    ⟨hb, fun _ _ => Iff.rfl⟩

@[simp] theorem bytesOf_setQueue : bytesOf (s.setQueue q mq) l = bytesOf s l :=
  bytesOf_congr (fun _ _ => rfl)

theorem Tables.setQueue (t : Tables s L loose (hdrStart s)) (hf : mq.first = (s.msqids q).first)
    (hb : mq.qbytes ≠ 0 ↔ (s.msqids q).qbytes ≠ 0) :
    Tables (s.setQueue q mq) L loose (hdrStart (s.setQueue q mq)) := by
  rw [hdrStart_setQueue_same hf]
  exact t.congr (.setQueue hb)

/-- Every queue in use is in order. -/
def QueuesOk (s : MsgState) (L : Layout) : Prop :=
  ∀ q, (s.msqids q).qbytes ≠ 0 → QueueOk s q (L.hdrs (some q))

theorem QueuesOk.setQueue (hq : ∀ p, p ≠ q → (s.msqids p).qbytes ≠ 0 → QueueOk s p (L.hdrs (some p)))
    (hok : mq.qbytes ≠ 0 → mq.last = (L.hdrs (some q)).getLast? ∧
      mq.qnum = (L.hdrs (some q)).length ∧ mq.cbytes = bytesOf s (L.hdrs (some q))) :
    QueuesOk (s.setQueue q mq) L := by
  intro p hp
  by_cases hpq : p = q
  · subst hpq
    rw [setQueue_self] at hp
    obtain ⟨hl, hn, hc⟩ := hok hp
    refine ⟨?_, ?_, ?_⟩
    · rw [setQueue_self, hl]
    · rw [setQueue_self, hn]
    · rw [setQueue_self, hc, bytesOf_setQueue]
  · rw [setQueue_other hpq] at hp
    exact (hq p hpq hp).congr (setQueue_other hpq) fun _ _ => rfl

/-- Fields of a queue that are not links or counts may change. -/
theorem WellFormedBy.setQueue (w : WellFormedBy s L) (hf : mq.first = (s.msqids q).first)
    (hl : mq.last = (s.msqids q).last) (hn : mq.qnum = (s.msqids q).qnum)
    (hc : mq.cbytes = (s.msqids q).cbytes) (hb : mq.qbytes ≠ 0 ↔ (s.msqids q).qbytes ≠ 0) :
    WellFormedBy (s.setQueue q mq) L := by
  obtain ⟨t, hq⟩ := wellFormedBy_iff.mp w
  refine wellFormedBy_iff.mpr ⟨t.setQueue hf hb, QueuesOk.setQueue (fun p _ => hq p) fun hlive => ?_⟩
  have hok := hq q (hb.mp hlive)
  exact ⟨hl.trans hok.last, hn.trans hok.qnum, hc.trans hok.cbytes⟩

@[simp] theorem letters_setQueue : L.letters (s.setQueue q mq) = L.letters s := rfl

theorem WellFormedBy.setLocked (w : WellFormedBy s L) (b : Bool) :
    WellFormedBy (s.setQueue q ((s.msqids q).setLocked b)) L :=
  w.setQueue rfl rfl rfl rfl Iff.rfl

/-! ## How a call ends well -/

/-- No queue allows so many bytes that the segment count of a message wraps. -/
def QbytesBounded (s : MsgState) : Prop := ∀ q, (s.msqids q).qbytes ≤ 2 ^ 32 - 8

/-- The limits of the queues are what they were. -/
def SameQbytes (s s' : MsgState) : Prop := ∀ q, (s'.msqids q).qbytes = (s.msqids q).qbytes

theorem SameQbytes.setQueue (hb : mq.qbytes = (s.msqids q).qbytes) : SameQbytes s (s.setQueue q mq) :=
  (forall_update_iff s.msqids fun p mq => mq.qbytes = (s.msqids p).qbytes).mpr ⟨hb, fun _ _ => rfl⟩

theorem SameQbytes.trans {s'' : MsgState} (h1 : SameQbytes s s') (h2 : SameQbytes s' s'') :
    SameQbytes s s'' := fun p => (h2 p).trans (h1 p)

theorem SameQbytes.live (hb : SameQbytes s s') (q : Fin msgmni) :
    (s'.msqids q).qbytes ≠ 0 ↔ (s.msqids q).qbytes ≠ 0 := by
  rw [hb q]

/-- The tables as a sender that goes on leaves them first: without its lock. -/
def MsgState.unlockedBy (s : MsgState) (w : SndWaiting) : MsgState :=
  if w.weOwnIt then s.setQueue w.q ((s.msqids w.q).setLocked false) else s

theorem WellFormedBy.unlockedBy (w : WellFormedBy s L) (wt : SndWaiting) :
    WellFormedBy (s.unlockedBy wt) L ∧ L.letters (s.unlockedBy wt) = L.letters s := by
  unfold MsgState.unlockedBy
  split
  · exact ⟨w.setLocked false, rfl⟩
  · exact ⟨w, rfl⟩

theorem SameQbytes.unlockedBy (s : MsgState) (wt : SndWaiting) : SameQbytes s (s.unlockedBy wt) := by
  unfold MsgState.unlockedBy
  split
  · exact SameQbytes.setQueue rfl
  · exact fun _ => rfl

/-- The call comes to an end, in well-formed tables with the same limits. -/
def EndsWell (s : MsgState) (r : Except Abort (MsgState × MsgOutcome)) : Prop :=
  ∃ s' o, r = .ok (s', o) ∧ WellFormed s' ∧ SameQbytes s s'

theorem EndsWell.same (w : WellFormedBy s L) (o : MsgOutcome) : EndsWell s (.ok (s, o)) :=
  ⟨s, o, rfl, ⟨L, w⟩, fun _ => rfl⟩

theorem hdrStart_released (hmq : s'.msqids = s.msqids) (hfree : some h = s'.freeMsghdrs) :
    update (hdrStart s) none (some h) = hdrStart s' := by
  funext o
  cases o with
  | none => exact hfree
  | some => simp [hdrStart, hmq]

/-- **Giving the header in hand back** leaves well-formed tables, and every queue with what it held. -/
theorem Tables.release_wellFormed (t : Tables s L (some h) (hdrStart s))
    (hsize : (L.segs (some h)).length = segCount (s.msghdrs h).ts)
    (hq : QueuesOk s L) :
    ∃ s' L', msgFreehdr s h = .ok s' ∧ WellFormedBy s' L' ∧ s'.msqids = s.msqids ∧
      L'.letters s' = L.letters s := by
  obtain ⟨s', L', hrun, t', hmq, hother, hlists, hpool, hsegs⟩ := t.release hsize
  rw [hdrStart_released hmq t'.free] at t'
  have hqueued : ∀ q, ∀ g ∈ L.hdrs (some q), g ≠ h := by
    rintro q g hg rfl
    exact t.loose_off _ hg
  refine ⟨s', L', hrun, wellFormedBy_iff.mpr ⟨t', fun q hq' => ?_⟩, hmq, ?_⟩
  · rw [hlists]
    rw [hmq] at hq'
    refine (hq q hq').congr (by rw [hmq]) fun g hg => ?_
    rw [hother g (hqueued q g hg)]
  · funext q
    refine Layout.letters_congr (hlists q) fun g hg => ?_
    have hgh := hqueued q g hg
    exact Layout.letter_congr (by rw [hother g hgh]) (by rw [hother g hgh]) (hsegs g hgh)
      (fun _ _ => by rw [hpool])

/-! ## Initialisation and msgget -/

/-- The layout `msginit` sets up: everything is free. -/
def initLayout : Layout where
  segs := fun o => if o = none then range msgseg else []
  hdrs := fun o => if o = none then range msgtql else []

/-- **`msginit` sets up well-formed tables**, whatever they held before. -/
theorem msginit_wellFormed (s : MsgState) :
    ∃ s', msginit s = .ok s' ∧ WellFormed s' ∧ ∀ q, (s'.msqids q).qbytes = 0 := by
  have hssz : ¬ smallPowerOfTwo msgssz = false := by decide
  have hseg : ¬ msgseg > 32767 := by decide
  refine ⟨_, by rw [msginit, if_neg hssz, if_neg hseg], ⟨initLayout, ?_⟩, fun _ => rfl⟩
  have hnoq : ∀ q, initLayout.hdrs (some q) = [] := fun q => by simp [initLayout]
  refine ⟨?_, ?_, ?_, ?_, fun q hq => absurd rfl hq⟩
  · refine Pool.ofRange (by decide) (fun o => ?_) (fun i hi => ?_) rfl
    · cases o with
      | none => simp [Layout.liveMsg]
      | some => simp [Layout.liveMsg, hnoq]
    · show (if i < msgseg then _ else _) = _
      rw [if_pos hi]
      rfl
  · refine Pool.ofRange (by decide) (fun o => ?_) (fun i hi => ?_) rfl
    · cases o with
      | none | some => simp [liveQueue]
    · simp only [hdrNext, hi, if_true]
      rfl
  · simp [initLayout]
  · intro q g hg
    exact absurd hg not_mem_nil

theorem liveQueue_setQueue (o : Option (Fin msgmni)) :
    liveQueue (s.setQueue q mq) o ↔ if o = some q then mq.qbytes ≠ 0 else liveQueue s o := by
  cases o with
  | none => simp [liveQueue]
  | some p =>
    by_cases hpq : p = q
    · subst hpq
      simp [liveQueue, setQueue_self]
    · simp [liveQueue, setQueue_other hpq, hpq]

/-- A free slot becomes an empty queue. -/
theorem WellFormedBy.create (w : WellFormedBy s L) (hfree : (s.msqids q).qbytes = 0)
    (hf : mq.first = none) (hl : mq.last = none) (hn : mq.qnum = 0) (hc : mq.cbytes = 0)
    (hb : mq.qbytes ≠ 0) : WellFormedBy (s.setQueue q mq) L := by
  have hnl : ¬ liveQueue s (some q) := fun hc => hc hfree
  have hempty : L.hdrs (some q) = [] := w.hdrs.idle _ hnl
  refine ⟨w.segs, ?_, w.nfree, w.size, QueuesOk.setQueue (fun p _ => w.queue p) fun _ => ?_⟩
  · have hstart := hdrStart_setQueue s q mq
    have henl := w.hdrs.enlist (hdrStart (s.setQueue q mq)) hnl
      (by rw [hstart, update_self, hf]; rfl) (by
        intro o ho
        have hoq : o ≠ some q := by
          rintro rfl
          exact hnl ho
        rw [hstart, update_of_ne hoq])
    refine henl.congr (fun _ => Iff.rfl) (fun o => ?_) (fun _ _ => rfl) fun _ _ => rfl
    rw [liveQueue_setQueue]
    split <;> simp_all
  · rw [hempty, hl, hn, hc]
    exact ⟨rfl, rfl, rfl⟩

theorem msgInitial_create (hf : mq.first = none) (hl : mq.last = none) (hn : mq.qnum = 0)
    (hc : mq.cbytes = 0) (hb : mq.qbytes ≠ 0) : WellFormed (msgInitial.setQueue q mq) := by
  obtain ⟨s', hrun, ⟨L, w⟩, hq⟩ := msginit_wellFormed msgZero
  cases hrun
  exact ⟨L, w.create (hq q) hf hl hn hc hb⟩

/-- Fresh tables but for one queue, whose sequence number is zero. -/
def openQueue : MsgState :=
  msgInitial.setQueue 0 ⟨IpcPerm.zero, none, none, 0, 0, msgmnb, 0, 0⟩

theorem openQueue_wellFormed : WellFormed openQueue :=
  msgInitial_create rfl rfl rfl rfl (by decide)

theorem QbytesBounded.setQueue (hb : QbytesBounded s) (hq : mq.qbytes ≤ 2 ^ 32 - 8) :
    QbytesBounded (s.setQueue q mq) :=
  (forall_update_iff s.msqids fun _ mq => mq.qbytes ≤ 2 ^ 32 - 8).mpr ⟨hq, fun p _ => hb p⟩

/-- **`msgget` keeps the tables well formed**, and what the queues hold: a new queue holds nothing. -/
theorem msgget_spec (cred : Ucred) (key : Int) (flg : GetFlg) (w : WellFormedBy s L) :
    WellFormedBy (msgget s cred key flg).1 L ∧ L.letters (msgget s cred key flg).1 = L.letters s := by
  rcases msgget_cases s cred key flg with he | ⟨q, hfree, -, he⟩ <;> rw [he]
  · exact ⟨w, rfl⟩
  · exact ⟨w.create hfree rfl rfl rfl rfl (by simp [msgCreate, msgmnb]), rfl⟩

theorem msgget_bounded (cred : Ucred) (key : Int) (flg : GetFlg) (hb : QbytesBounded s) :
    QbytesBounded (msgget s cred key flg).1 := by
  rcases msgget_cases s cred key flg with he | ⟨q, -, -, he⟩ <;> rw [he]
  · exact hb
  · exact hb.setQueue (by simp [msgCreate, msgmnb])

/-! ## Taking a header out of a queue -/

theorem loose_iff {i : Nat} : (i < msgtql ∧ some h ≠ some i) ↔ (i < msgtql ∧ i ≠ h) := by
  rw [ne_eq, Option.some.injEq, ne_comm, ne_eq, eq_comm]

/-- A header leaves its queue and is in the hands of the call. -/
theorem Tables.detach {st' : Option (Fin msgmni) → Option Nat} (t : Tables s L none st)
    (hl : (L.hdrs (some q)).Perm (h :: l))
    (hp : Pool (pointer Nat) (fun i => i < msgtql ∧ i ≠ h) (liveQueue s') (hdrNext s') st'
      (update L.hdrs (some q) l))
    (hfree : st' none = s'.freeMsghdrs) (f : SameSegs s s') :
    Tables s' ⟨L.segs, update L.hdrs (some q) l⟩ (some h) st' := by
  have hmem : ∀ g, g ∈ L.hdrs (some q) ↔ g = h ∨ g ∈ l := fun g => hl.mem_iff.trans mem_cons
  have hm := (hmem h).mpr (.inl rfl)
  have hsub : ∀ p, ∀ g ∈ update L.hdrs (some q) l (some p), g ∈ L.hdrs (some p) := by
    intro p g hg
    rcases Pool.mem_update.mp hg with ⟨hpq, hgl⟩ | ⟨-, hgp⟩
    · rw [hpq]
      exact (hmem g).mpr (.inr hgl)
    · exact hgp
  refine ⟨?_, ?_, hfree, ?_, f.nfreeMsgmaps.trans t.nfree, ?_⟩
  · rw [f.msgmaps, f.segStart]
    refine t.segs.congr (fun _ => Iff.rfl) (fun o => ?_) (fun _ _ => rfl) fun _ _ => rfl
    cases o with
    | none => simp [Layout.liveMsg]
    | some g =>
      -- `h` was live on its queue and is now live in hand
      constructor
      · rintro (⟨p, hg⟩ | hg)
        · exact .inl ⟨p, hsub p g hg⟩
        · cases hg
          exact .inl ⟨q, hm⟩
      · rintro (⟨p, hg⟩ | hg)
        · by_cases hpq : p = q
          · subst hpq
            rcases (hmem g).mp hg with rfl | hgl
            · exact .inr rfl
            · exact .inl ⟨p, Pool.mem_update.mpr (.inl ⟨rfl, hgl⟩)⟩
          · exact .inl ⟨p, Pool.mem_update.mpr (.inr ⟨by simpa using hpq, hg⟩)⟩
        · simp at hg
  · exact hp.congr (fun _ => loose_iff) (fun _ => Iff.rfl) (fun _ _ => rfl) fun _ _ => rfl
  · rintro g hg
    cases hg
    exact (t.hdrs.within _ _ hm).1
  · intro p g hg
    rw [f.ts]
    exact t.size p g (hsub p g hg)

theorem Tables.univ_iff {i : Nat} :
    (i < msgtql ∧ i ≠ h) ↔ ((i < msgtql ∧ (none : Option Nat) ≠ some i) ∧ i ≠ h) := by
  simp

/-! ## IPC_RMID -/

/-- The state of IPC_RMID: what is left of the queue is the list from `msghdr` on. -/
structure Draining (s : MsgState) (L : Layout) (q : Fin msgmni) (msghdr : Option Nat) : Prop where
  tables : Tables s L none (update (hdrStart s) (some q) msghdr)
  live : (s.msqids q).qbytes ≠ 0
  qnum : (s.msqids q).qnum = (L.hdrs (some q)).length
  cbytes : (s.msqids q).cbytes = bytesOf s (L.hdrs (some q))
  others : ∀ p, p ≠ q → (s.msqids p).qbytes ≠ 0 → QueueOk s p (L.hdrs (some p))

theorem Draining.head_eq {msghdr : Option Nat} (d : Draining s L q msghdr) :
    (L.hdrs (some q)).head? = msghdr := by
  have hc := d.tables.hdrs.chain (some q) d.live
  rw [update_self] at hc
  cases hq : L.hdrs (some q) with
  | nil =>
    rw [hq] at hc
    exact hc.symm
  | cons =>
    rw [hq] at hc
    exact hc.1.symm

/-- One message leaves the queue that is removed. -/
theorem Draining.detach (d : Draining s L q (some h)) {l : List Nat} (hl : L.hdrs (some q) = h :: l)
    {s1 : MsgState} (hlinks : SameLinks s s1) (hstart : hdrStart s1 = hdrStart s) :
    Tables s1 ⟨L.segs, update L.hdrs (some q) l⟩ (some h)
      (update (hdrStart s1) (some q) (s.msghdrs h).next) := by
  have t := d.tables
  have hpop := t.hdrs.pop (update (hdrStart s) (some q) (s.msghdrs h).next) hl
    (by simp [hdrNext]) fun p _ hp => by rw [update_of_ne hp, update_of_ne hp]
  refine t.detach (.of_eq hl) ?_ rfl hlinks.toSameSegs
  rw [hstart]
  exact hpop.congr (fun _ => Tables.univ_iff) (liveQueue_congr hlinks.live) (fun i _ => hlinks.next i)
    (fun _ _ => rfl)

/-- One round: the first message that is left is freed. -/
theorem Draining.round (d : Draining s L q (some h)) :
    ∃ s' L', msgFreehdr (s.setQueue q
        { s.msqids q with
          cbytes := ((s.msqids q).cbytes + 2 ^ 32 - (s.msghdrs h).ts) % 2 ^ 32
          qnum := ((s.msqids q).qnum + 2 ^ 32 - 1) % 2 ^ 32 }) h = .ok s' ∧
      Draining s' L' q (s.msghdrs h).next ∧
      (L.hdrs (some q)).length = (L'.hdrs (some q)).length + 1 ∧ SameQbytes s s' ∧
      ∀ p, p ≠ q → L'.letters s' p = L.letters s p := by
  have t := d.tables
  obtain ⟨l, hl⟩ := head?_eq_some_iff.mp d.head_eq
  have hbound := bytesOf_bounded (l := h :: l) t.segs (by rw [← hl]; exact t.hdrs.nodup _)
    (fun g hg => t.size q g (by rw [hl]; exact hg))
  have hcb := d.cbytes
  have hqn := d.qnum
  rw [hl] at hcb hqn
  simp only [bytesOf, length_cons] at hcb hqn hbound
  have hlen : l.length + 1 ≤ msgtql := by
    have hle := t.hdrs.length_le (fun _ hi => hi.1) (some q)
    rwa [hl, length_cons] at hle
  simp only [msgtql] at hlen
  obtain ⟨s1, hs1⟩ : ∃ s1, s1 = s.setQueue q { s.msqids q with
      cbytes := ((s.msqids q).cbytes + 2 ^ 32 - (s.msghdrs h).ts) % 2 ^ 32
      qnum := ((s.msqids q).qnum + 2 ^ 32 - 1) % 2 ^ 32 } := ⟨_, rfl⟩
  rw [← hs1]
  have hlinks : SameLinks s s1 := by
    rw [hs1]
    exact .setQueue Iff.rfl
  have hstart1 : hdrStart s1 = hdrStart s := by
    rw [hs1]
    exact hdrStart_setQueue_same rfl
  have t1 := d.detach hl hlinks hstart1
  have hsize : (L.segs (some h)).length = segCount (s1.msghdrs h).ts := by
    rw [hlinks.ts]
    exact t.size q h (by simp [hl])
  obtain ⟨s', L', hrun, t', hmq, hother, hlists, hpool, hsegs⟩ := t1.release hsize
  rw [update_comm (Option.some_ne_none q), hdrStart_released hmq t'.free] at t'
  have hqueued : ∀ p, ∀ g ∈ update L.hdrs (some q) l (some p), g ≠ h := by
    rintro p g hg rfl
    exact t1.loose_off _ hg
  have hts : ∀ p, ∀ g ∈ update L.hdrs (some q) l (some p),
      (s'.msghdrs g).ts = (s.msghdrs g).ts := by
    intro p g hg
    rw [hother g (hqueued p g hg), hlinks.ts]
  have hlq : L'.hdrs (some q) = l := by
    rw [hlists]
    exact update_self ..
  have hmq' : s'.msqids q = s1.msqids q := by rw [hmq]
  have hlp : ∀ p, p ≠ q → L'.hdrs (some p) = L.hdrs (some p) := by
    intro p hp
    rw [hlists]
    exact update_of_ne (by simpa using hp) ..
  refine ⟨s', L', hrun, ⟨t', ?_, ?_, ?_, ?_⟩, by rw [hl, hlq]; rfl, ?_, ?_⟩
  · rw [hmq', hs1, setQueue_self]
    exact d.live
  · rw [hmq', hs1, setQueue_self, hlq]
    show ((s.msqids q).qnum + 2 ^ 32 - 1) % 2 ^ 32 = l.length
    omega
  · rw [hmq', hs1, setQueue_self, hlq, bytesOf_congr (fun g hg => hts q g (by simpa using hg))]
    show ((s.msqids q).cbytes + 2 ^ 32 - (s.msghdrs h).ts) % 2 ^ 32 = bytesOf s l
    omega
  · intro p hp hlive
    rw [hmq, hs1, setQueue_other hp] at hlive
    have hpq' : (some p : Option (Fin msgmni)) ≠ some q := by simpa using hp
    rw [hlp p hp]
    refine (d.others p hp hlive).congr (by rw [hmq, hs1, setQueue_other hp]) fun g hg => ?_
    exact hts p g (by rw [update_of_ne hpq']; exact hg)
  · intro p
    rw [hmq, hs1]
    refine SameQbytes.setQueue ?_ p
    rfl
  · intro p hp
    refine Layout.letters_congr (hlp p hp) fun g hg => ?_
    have hgh := hqueued p g (by rw [update_of_ne (by simpa using hp)]; exact hg)
    refine Layout.letter_congr ?_ ?_ (hsegs g hgh) fun _ _ => by rw [hpool, hs1]; rfl
    · rw [hother g hgh, hs1]
      rfl
    · rw [hother g hgh, hs1]
      rfl

/-- **The loop of IPC_RMID** frees every message of the queue, whatever their number. -/
theorem rmidLoop_spec (fuel : Nat) (s : MsgState) (L : Layout) (msghdr : Option Nat)
    (d : Draining s L q msghdr) (hfuel : (L.hdrs (some q)).length ≤ fuel) :
    ∃ s' L', rmidLoop q fuel s msghdr = .ok s' ∧ Draining s' L' q none ∧ SameQbytes s s' ∧
      ∀ p, p ≠ q → L'.letters s' p = L.letters s p := by
  induction fuel generalizing s L msghdr with
  | zero =>
    have hnil : L.hdrs (some q) = [] := length_eq_zero_iff.mp (Nat.le_zero.mp hfuel)
    have hnone := d.head_eq
    rw [hnil] at hnone
    cases hnone
    exact ⟨s, L, rfl, d, fun _ => rfl, fun _ _ => rfl⟩
  | succ fuel ih =>
    cases msghdr with
    | none => exact ⟨s, L, rfl, d, fun _ => rfl, fun _ _ => rfl⟩
    | some =>
      obtain ⟨s1, L1, hrun, d1, hlen, hb, hc⟩ := d.round
      obtain ⟨s', L', hrun', d', hb', hc'⟩ := ih s1 L1 _ d1 (by omega)
      refine ⟨s', L', ?_, d', hb.trans hb', fun p hp => (hc' p hp).trans (hc p hp)⟩
      simp only [rmidLoop]
      rw [hrun]
      exact hrun'

/-- **Removing a queue**, empty or not: no panic, the tables are well formed without it, and the other
queues hold what they held. -/
theorem msgRmid_spec (w : WellFormedBy s L) (hq : (s.msqids q).qbytes ≠ 0) :
    ∃ s' L', msgRmid s q = .ok s' ∧ WellFormedBy s' L' ∧
      (∀ p, (s'.msqids p).qbytes = if p = q then 0 else (s.msqids p).qbytes) ∧
      L'.letters s' = update (L.letters s) q [] := by
  obtain ⟨t, hqs⟩ := wellFormedBy_iff.mp w
  have hstart : update (hdrStart s) (some q) (s.msqids q).first = hdrStart s :=
    update_eq_self ..
  have d : Draining s L q (s.msqids q).first :=
    ⟨by rw [hstart]; exact t, hq, (hqs q hq).qnum, (hqs q hq).cbytes, fun p _ hp => hqs p hp⟩
  obtain ⟨s1, L1, hrun, d1, hb, hc⟩ :=
    rmidLoop_spec msgtql s L _ d (w.hdrs.length_le (fun _ hi => hi) _)
  have hnil : L1.hdrs (some q) = [] := head?_eq_none_iff.mp d1.head_eq
  have hcb : (s1.msqids q).cbytes = 0 := by
    rw [d1.cbytes, hnil]
    rfl
  have hqn : (s1.msqids q).qnum = 0 := by
    rw [d1.qnum, hnil]
    rfl
  refine ⟨s1.setQueue q { s1.msqids q with qbytes := 0 }, L1, ?_, ?_, fun p => ?_, ?_⟩
  · unfold msgRmid
    rw [hrun]
    show (if (s1.msqids q).cbytes ≠ 0 then _ else _) = _
    rw [if_neg (not_not_intro hcb), if_neg (not_not_intro hqn)]
  · -- the queue leaves the pool of headers with its list empty
    have hret := d1.tables.hdrs.retire (hdrStart (s1.setQueue q { s1.msqids q with qbytes := 0 })) hnil
      (fun p _ hp => by rw [hdrStart_setQueue, update_of_ne hp, update_of_ne hp])
    refine ⟨?_, ?_, d1.tables.nfree, d1.tables.size,
      QueuesOk.setQueue d1.others fun hp => absurd rfl hp⟩
    · refine d1.tables.segs.congr (fun _ => Iff.rfl) (fun o => ?_) (fun _ _ => rfl) (fun _ _ => rfl)
      cases o with
      | none | some => simp [Layout.liveMsg]
    · refine hret.congr (fun i => by simp) (fun o => ?_) (fun _ _ => rfl) (fun _ _ => rfl)
      rw [liveQueue_setQueue]
      split <;> simp_all
  · by_cases hpq : p = q
    · subst hpq
      rw [setQueue_self, if_pos rfl]
    · rw [setQueue_other hpq, if_neg hpq]
      exact hb p
  · funext p
    by_cases hpq : p = q
    · subst hpq
      rw [update_self, Layout.letters, hnil, map_nil]
    · rw [update_of_ne hpq]
      exact hc p hpq

/-- An identifier that passes the checks names a queue that exists. -/
theorem msgCheck_live {id : Id} (hc : msgCheck s id = .ok q) : (s.msqids q).qbytes ≠ 0 := by
  revert hc
  fun_cases msgCheck s id with
  | case3 _ _ _ hlive =>
    rintro ⟨⟩
    exact hlive
  | _ => exact nofun

/-- **`msgctl` keeps the tables well formed and never panics**; it leaves the queues what they hold, but
for one that it removes. -/
theorem msgctl_spec (cred : Ucred) (id : Id) (cmd : MsgCmd) (w : WellFormedBy s L) :
    ∃ s' o L', msgctl s cred id cmd = .ok (s', o) ∧ WellFormedBy s' L' ∧
      (QbytesBounded s → QbytesBounded s') ∧
      (L'.letters s' = L.letters s ∨ ∃ q, L'.letters s' = update (L.letters s) q []) := by
  fun_cases msgctl s cred id cmd with
  | case2 q hc =>
    obtain ⟨s', L', hrun, w', hqb, hletters⟩ := msgRmid_spec w (msgCheck_live hc)
    refine ⟨s', .plain (plainReturn 0), L', ?_, w', fun hb p => ?_, .inr ⟨q, hletters⟩⟩
    · rw [hrun]
      rfl
    · rw [hqb]
      split
      · exact Nat.zero_le _
      · exact hb p
  | case5 q hc mq uid gid mode qbytes hroot qb hne =>
    -- what is stored is clamped to MSGMNB
    have hclamp : qb ≤ msgmnb := by
      show (if qbytes.toNat > msgmnb then msgmnb else qbytes.toNat) ≤ msgmnb
      split <;> omega
    refine ⟨_, _, L, rfl, w.setQueue ?_ ?_ ?_ ?_ ⟨fun _ => msgCheck_live hc, fun _ => hne⟩,
      fun hb => hb.setQueue (le_trans hclamp (by decide)), .inl rfl⟩ <;> rfl
  | _ => exact ⟨s, _, L, rfl, w, fun hb => hb, .inl rfl⟩

end Ixemul.Ipc
