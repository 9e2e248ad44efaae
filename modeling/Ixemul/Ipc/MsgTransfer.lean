/-
# Ixemul.Ipc.MsgTransfer — messages that come and go: msgrcv and msgsnd.

`msgrcv` takes a message out of its queue, from the head or from behind another one, copies it and gives its
header back.  `msgsnd` takes a header off the free list, gives it segments and text, and queues it or gives
it back.  What they do to the messages on the queues is said once, by `RcvEffect` and `SndEffect`.

The number of segments of a message is computed in 32 bits.  It is the number needed as long as no queue
allows 2^32 - 7 bytes or more (`segsNeeded_eq`); a message so large makes the call panic (`sndBody_huge`).

## What is assumed, and what is not shown

A round starts in well-formed tables (`WellFormedBy`), at a queue that exists (`qbytes ≠ 0`); that every call
leaves such tables behind is put together in `MsgSafe`. The calls run under Forbid, so a round is one step,
and as in the source the caller's memory is read and written without a check. A round may end asleep. That
somebody wakes the sleeper, or that there is room when he goes on, is not shown.
-/
import Ixemul.Ipc.MsgQueue

namespace Ixemul.Ipc

open Lib Lib.Links
open Function List

variable {s s' : MsgState} {L : Layout} {st : Option (Fin msgmni) → Option Nat} {h : Nat}
  {q : Fin msgmni} {l m : List Nat} {mq : MsqidDs} {P : MsgOutcome → (Fin msgmni → List Letter) → Prop}

/-! ## What a call does to the queues -/

/-- The bytes at the sender's pointer. -/
def SndArgs.body (a : SndArgs) : List UInt8 := (range a.msgsz.toNat).map a.text

/-- What `msgsnd` does to the messages on the queues: nothing, unless it succeeds. -/
inductive SndEffect (q : Fin msgmni) (a : SndArgs) (c : Fin msgmni → List Letter) :
    MsgOutcome → (Fin msgmni → List Letter) → Prop where
  | failed (e : Errno) : SndEffect q a c (.plain (msgFail e)) c
  | asleep (w : SndWaiting) : SndEffect q a c (.sleepSnd w) c
  | sent (h : Nat) (htype : 1 ≤ a.type.toInt) :
      SndEffect q a c (.plain (plainReturn 0)) (update c q (c q ++ [⟨h, a.type, a.body⟩]))

/-- Does a receiver that asks for `msgtyp` take a message of this type? -/
def wanted (msgtyp type : BitVec 32) : Bool := msgtyp == 0 || typeMatches msgtyp type

/-- The message is not longer than the receiver allows. -/
def Fits (a : RcvArgs) (x : Letter) : Prop := x.text.length ≤ a.msgsz.toNat ∨ a.noerror = true

/-- The receiver that asks with `a` got the message `x`, and these bytes were written behind its type. -/
structure Delivered (a : RcvArgs) (x : Letter) (m : Nat) (out : List UInt8) : Prop where
  size : m = min x.text.length a.msgsz.toNat
  length : out.length = copied m
  text : out.take m = x.text.take m

/-- What `msgrcv` does to them: it takes out the first message it wants, if there is one and it is not too
long. -/
inductive RcvEffect (q : Fin msgmni) (a : RcvArgs) (c : Fin msgmni → List Letter) :
    MsgOutcome → (Fin msgmni → List Letter) → Prop where
  | failed (e : Errno)
      (hno : ∀ x, (c q).find? (fun y => wanted a.msgtyp y.type) = some x → ¬ Fits a x) :
      RcvEffect q a c (.plain (msgFail e)) c
  | asleep (w : RcvWaiting) (hno : (c q).find? (fun y => wanted a.msgtyp y.type) = none) :
      RcvEffect q a c (.sleepRcv w) c
  | received {pre post : List Letter} {x : Letter} {m : Nat} {out : List UInt8}
      (hq : c q = pre ++ x :: post) (hpre : ∀ y ∈ pre, wanted a.msgtyp y.type = false)
      (hx : wanted a.msgtyp x.type = true) (hfits : Fits a x) (hout : Delivered a x m out) :
      RcvEffect q a c (.ret (plainReturn m) (.message x.type out)) (update c q (pre ++ post))

/-- The call comes to an end, in well-formed tables with the same limits, and with these messages on the
queues. -/
def EndsWith (s : MsgState) (r : Except Abort (MsgState × MsgOutcome))
    (P : MsgOutcome → (Fin msgmni → List Letter) → Prop) : Prop :=
  ∃ s' o L', r = .ok (s', o) ∧ WellFormedBy s' L' ∧ SameQbytes s s' ∧ P o (L'.letters s')

theorem EndsWith.endsWell {r : Except Abort (MsgState × MsgOutcome)}
    (he : EndsWith s r P) : EndsWell s r := by
  obtain ⟨s', o, L', hr, w, hb, -⟩ := he
  exact ⟨s', o, hr, ⟨L', w⟩, hb⟩

/-- A call that changes nothing. -/
theorem EndsWith.same {o : MsgOutcome}
    (w : WellFormedBy s L) (hP : P o (L.letters s)) : EndsWith s (.ok (s, o)) P :=
  ⟨s, o, L, rfl, w, fun _ => rfl, hP⟩

/-- One queue gets other headers, and no message is changed. -/
theorem Layout.letters_update (hsame : ∀ g, L.letter s' g = L.letter s g) :
    Layout.letters ⟨L.segs, update L.hdrs (some q) l⟩ s' =
      update (L.letters s) q (l.map (L.letter s)) := by
  funext p
  by_cases hpq : p = q
  · subst hpq
    rw [update_self, Layout.letters]
    dsimp only
    rw [update_self]
    exact map_congr_left fun g _ => hsame g
  · have hpq' : (some p : Option (Fin msgmni)) ≠ some q := by simpa using hpq
    rw [update_of_ne hpq, Layout.letters]
    dsimp only
    rw [update_of_ne hpq']
    exact map_congr_left fun g _ => hsame g

theorem letter_setNext (v : Option Nat) (h g : Nat) :
    L.letter (s.setHdr h { s.msghdrs h with next := v }) g = L.letter s g := by
  by_cases hgh : g = h
  · subst hgh
    simp [Layout.letter, letterIn, MsgState.setHdr]
  · simp [Layout.letter, letterIn, MsgState.setHdr, hgh]

/-! ## msgrcv -/

/-- The header `h` has been taken out of queue `q`, whose counters still count it. -/
structure TakenBy (s : MsgState) (L : Layout) (q : Fin msgmni) (h : Nat) : Prop where
  tables : Tables s L (some h) (hdrStart s)
  size : (L.segs (some h)).length = segCount (s.msghdrs h).ts
  last : (s.msqids q).last = (L.hdrs (some q)).getLast?
  qnum : (s.msqids q).qnum = (L.hdrs (some q)).length + 1
  cbytes : (s.msqids q).cbytes = bytesOf s (L.hdrs (some q)) + (s.msghdrs h).ts
  others : ∀ p, p ≠ q → (s.msqids p).qbytes ≠ 0 → QueueOk s p (L.hdrs (some p))

theorem setQueue_setQueue (mq mq' : MsqidDs) : (s.setQueue q mq).setQueue q mq' = s.setQueue q mq' := by
  simp [MsgState.setQueue]

theorem setQueue_eq_self (hm : mq = s.msqids q) : s.setQueue q mq = s := by
  subst hm
  simp [MsgState.setQueue]

theorem bytesOf_append (l m : List Nat) : bytesOf s (l ++ m) = bytesOf s l + bytesOf s m := by
  induction l with
  | nil => simp [bytesOf]
  | cons g l ih =>
    simp only [cons_append, bytesOf, ih]
    omega

theorem getLast?_append_cons (m : List Nat) (x : Nat) (l : List Nat) :
    (m ++ x :: l).getLast? = (x :: l).getLast? := by
  simp [getLast?_append, getLast?_cons]

theorem some_eq_getLast?_iff (hnd : (m ++ h :: l).Nodup) : some h = (m ++ h :: l).getLast? ↔ l = [] := by
  cases l with
  | nil => simp
  | cons =>
    simp only [reduceCtorEq, iff_false]
    intro hlast
    rw [getLast?_append_cons, getLast?_cons_cons] at hlast
    have hm := mem_of_getLast? hlast.symm
    exact (nodup_cons.mp (nodup_append.mp hnd).2.1).1 hm

section

variable (w : WellFormedBy s L) (hq : (s.msqids q).qbytes ≠ 0)
include w hq

/-- The first message is taken out. -/
theorem takeOut_head (hl : L.hdrs (some q) = h :: l) :
    takeOut s q none none h = .ok (.message (s.setQueue q
      { s.msqids q with first := (s.msghdrs h).next, last := l.getLast? }) h) := by
  have hlast := (w.queue q hq).last
  have hc := w.hdrs.chain (some q) hq
  have hnd := w.hdrs.nodup (some q)
  rw [hl] at hlast hc hnd
  have hiff := some_eq_getLast?_iff (m := []) hnd
  simp only [nil_append] at hiff
  simp only [takeOut, writePrev, setQueue_self]
  rw [hlast]
  by_cases hnil : l = []
  · subst hnil
    have hnext : (s.msghdrs h).next = none := hc.2
    rw [if_pos (hiff.mpr rfl), if_neg (by simp), setQueue_setQueue, hnext]
    rfl
  · rw [if_neg (fun e => hnil (hiff.mp e))]
    have hlast' : l.getLast? = (h :: l).getLast? := by
      obtain ⟨x, l', rfl⟩ := exists_cons_of_ne_nil hnil
      rw [getLast?_cons_cons]
    rw [hlast']

/-- A message is taken out from behind another one. -/
theorem takeOut_behind {y : Nat} (hl : L.hdrs (some q) = m ++ y :: h :: l) :
    takeOut s q (some y) (some y) h = .ok (.message
      ((s.setHdr y { s.msghdrs y with next := (s.msghdrs h).next }).setQueue q
        { s.msqids q with last := (m ++ y :: l).getLast? }) h) := by
  have hlast := (w.queue q hq).last
  have hnd := w.hdrs.nodup (some q)
  rw [hl] at hlast hnd
  have hiff := some_eq_getLast?_iff (m := m ++ [y]) (h := h) (l := l) (by simpa using hnd)
  simp only [append_assoc, cons_append, nil_append] at hiff
  have hmq : (s.setHdr y { s.msghdrs y with next := (s.msghdrs h).next }).msqids = s.msqids := rfl
  simp only [takeOut, writePrev, hmq]
  rw [hlast]
  by_cases hnil : l = []
  · subst hnil
    simp
  · rw [if_neg (fun e => hnil (hiff.mp e))]
    have hlast' : (m ++ y :: l).getLast? = (s.msqids q).last := by
      obtain ⟨x, l', rfl⟩ := exists_cons_of_ne_nil hnil
      rw [hlast, getLast?_append_cons, getLast?_append_cons, getLast?_cons_cons,
        getLast?_cons_cons, getLast?_cons_cons]
    rw [hlast', setQueue_eq_self (by rw [hmq])]

/-- `*prev` is the next message to look at. -/
theorem readPrev_eq (hl : L.hdrs (some q) = m ++ l) : readPrev s q m.getLast? = (pointer Nat).first l := by
  have hc := w.hdrs.chain (some q) hq
  rw [hl] at hc
  rcases eq_nil_or_concat' m with rfl | ⟨m', y, rfl⟩
  · exact hc.eq_first
  · rw [append_assoc] at hc
    simp only [getLast?_concat]
    exact hc.next_eq

/-- The tables after a message was taken out, wherever it stood. -/
theorem WellFormedBy.takenBy (first : Option Nat) (hl : L.hdrs (some q) = m ++ h :: l) (f : SameSegs s s')
    (hmq : s'.msqids =
      update s.msqids q { s.msqids q with first, last := (m ++ l).getLast? })
    (hp : Pool (pointer Nat) (fun i => (i < msgtql ∧ none ≠ some i) ∧ i ≠ h) (liveQueue s)
      (hdrNext s') (hdrStart s') (update L.hdrs (some q) (m ++ l))) :
    TakenBy s' ⟨L.segs, update L.hdrs (some q) (m ++ l)⟩ q h := by
  obtain ⟨t, hqs⟩ := wellFormedBy_iff.mp w
  have hmem : h ∈ L.hdrs (some q) := by simp [hl]
  have hlive : ∀ p, (s'.msqids p).qbytes ≠ 0 ↔ (s.msqids p).qbytes ≠ 0 := by
    intro p
    rw [hmq]
    by_cases hpq : p = q
    · subst hpq
      rw [update_self]
    · rw [update_of_ne hpq]
  have hother : ∀ p, p ≠ q → s'.msqids p = s.msqids p := by
    intro p hp
    rw [hmq, update_of_ne hp]
  refine ⟨t.detach ?_ ?_ rfl f, ?_, ?_, ?_, ?_, ?_⟩
  · rw [hl]
    exact perm_middle
  · exact hp.congr (fun _ => Tables.univ_iff) (liveQueue_congr hlive) (fun _ _ => rfl) fun _ _ => rfl
  · rw [f.ts]
    exact t.size q h hmem
  · dsimp only
    rw [hmq, update_self, update_self]
  · dsimp only
    rw [hmq, update_self, update_self]
    show (s.msqids q).qnum = (m ++ l).length + 1
    rw [(hqs q hq).qnum, hl]
    simp only [length_append, length_cons]
    omega
  · dsimp only
    rw [hmq, f.ts, bytesOf_congr (fun g _ => f.ts g), update_self, update_self]
    show (s.msqids q).cbytes = bytesOf s (m ++ l) + (s.msghdrs h).ts
    rw [(hqs q hq).cbytes, hl, bytesOf_append, bytesOf_append]
    simp only [bytesOf]
    omega
  · intro p hp' hlp
    dsimp only
    rw [update_of_ne (by simpa using hp')]
    exact (hqs p ((hlive p).mp hlp)).congr (hother p hp') fun g _ => f.ts g

/-- **Taking a message out**, wherever in its queue it is, meets no panic. -/
theorem takeOut_spec (hl : L.hdrs (some q) = m ++ h :: l) :
    ∃ s', takeOut s q m.getLast? m.getLast? h = .ok (.message s' h) ∧
      TakenBy s' ⟨L.segs, update L.hdrs (some q) (m ++ l)⟩ q h ∧ SameQbytes s s' ∧
      ∀ g, L.letter s' g = L.letter s g := by
  obtain ⟨t, -⟩ := wellFormedBy_iff.mp w
  rcases eq_nil_or_concat' m with rfl | ⟨m', y, rfl⟩
  · -- at the head
    refine ⟨_, takeOut_head w hq hl, w.takenBy hq _ hl (.setQueue _ _ _) rfl ?_, ?_,
      fun _ => rfl⟩
    · apply t.hdrs.pop _ hl
      · rw [hdrStart_setQueue, update_self]
        rfl
      · intro p _ hp
        rw [hdrStart_setQueue, update_of_ne hp]
    · exact SameQbytes.setQueue rfl
  · -- behind `y`
    have hl' : L.hdrs (some q) = m' ++ y :: h :: l := by simpa using hl
    rw [getLast?_concat]
    refine ⟨_, takeOut_behind w hq hl', w.takenBy hq (s.msqids q).first hl ?_ ?_ ?_, ?_,
      fun g => letter_setNext _ y g⟩
    · refine SameSegs.trans ?_ (.setQueue _ _ _)
      exact .setHdr rfl rfl
    · rw [append_assoc]
      rfl
    · have hunl := t.hdrs.unlink hl'
      rw [hdrStart_setQueue_same (by rfl), hdrStart_setHdr]
      show Pool _ _ _ (hdrNext (s.setHdr y _)) _ _
      rw [hdrNext_setHdr, append_assoc]
      exact hunl
    · exact SameQbytes.setQueue rfl

end

/-- Header `h` is the first one of queue `q` whose message is wanted: it stands behind the headers `m`. -/
structure FirstWanted (s : MsgState) (L : Layout) (q : Fin msgmni) (a : RcvArgs) (m : List Nat) (h : Nat)
    (l : List Nat) : Prop where
  split : L.hdrs (some q) = m ++ h :: l
  passed : ∀ g ∈ m, wanted a.msgtyp (s.msghdrs g).type = false
  wanted : wanted a.msgtyp (s.msghdrs h).type = true

/-- What a search may end with. -/
def SelectedOk (s : MsgState) (q : Fin msgmni) : Selected → Prop
  | .nothing => True
  | .tooBig => True
  | .message s' h => SameQbytes s s' ∧ ∃ L', TakenBy s' L' q h

/-- And it is about the first message that is wanted. -/
def SelectedFirst (s : MsgState) (L : Layout) (q : Fin msgmni) (a : RcvArgs) : Selected → Prop
  | .nothing => ∀ g ∈ L.hdrs (some q), wanted a.msgtyp (s.msghdrs g).type = false
  | .tooBig => ∃ m h l, FirstWanted s L q a m h l ∧ tooLong a (s.msghdrs h) = true
  | .message s' h => SelectedOk s q (.message s' h) ∧ (∀ g, L.letter s' g = L.letter s g) ∧
      ∃ m l, FirstWanted s L q a m h l ∧ tooLong a (s.msghdrs h) = false ∧
        TakenBy s' ⟨L.segs, update L.hdrs (some q) (m ++ l)⟩ q h

/-- The search for a type ends at the first message that is wanted, or at the end of the queue. -/
theorem selectType_spec (a : RcvArgs) (h0 : a.msgtyp ≠ 0) (w : WellFormedBy s L)
    (hq : (s.msqids q).qbytes ≠ 0) (fuel : Nat) (hl : L.hdrs (some q) = m ++ l)
    (hm : ∀ g ∈ m, wanted a.msgtyp (s.msghdrs g).type = false) (hfuel : l.length ≤ fuel) :
    ∃ sel, selectType s q a fuel m.getLast? m.getLast? = .ok sel ∧ SelectedFirst s L q a sel := by
  have hwanted : ∀ ty, wanted a.msgtyp ty = typeMatches a.msgtyp ty := by
    intro ty
    rw [wanted, beq_false_of_ne h0, Bool.false_or]
  have hend : ∀ {m : List Nat}, L.hdrs (some q) = m ++ [] →
      (∀ g ∈ m, wanted a.msgtyp (s.msghdrs g).type = false) → SelectedFirst s L q a .nothing := by
    intro m hl hm
    rw [append_nil] at hl
    show ∀ g ∈ L.hdrs (some q), _
    rw [hl]
    exact hm
  induction fuel generalizing m l with
  | zero =>
    have hnil : l = [] := length_eq_zero_iff.mp (Nat.le_zero.mp hfuel)
    rw [hnil] at hl
    refine ⟨.nothing, ?_, hend hl hm⟩
    rw [selectType, readPrev_eq w hq hl]
    rfl
  | succ fuel ih =>
    have hread := readPrev_eq w hq hl
    rw [selectType, hread]
    cases l with
    | nil => exact ⟨.nothing, rfl, hend hl hm⟩
    | cons h l =>
      simp only [LinkType.first, pointer]
      by_cases htype : typeMatches a.msgtyp (s.msghdrs h).type
      · rw [if_pos htype]
        have hfirst : FirstWanted s L q a m h l := ⟨hl, hm, by rw [hwanted, htype]⟩
        by_cases hlong : tooLong a (s.msghdrs h)
        · rw [if_pos hlong]
          exact ⟨.tooBig, rfl, m, h, l, hfirst, hlong⟩
        · rw [if_neg hlong]
          obtain ⟨s', hrun, hk, hb, hsame⟩ := takeOut_spec w hq hl
          exact ⟨.message s' h, hrun, ⟨hb, _, hk⟩, hsame, m, l, hfirst, Bool.eq_false_iff.mpr hlong, hk⟩
      · rw [if_neg htype]
        have hm' : ∀ g ∈ m ++ [h], wanted a.msgtyp (s.msghdrs g).type = false := by
          rw [forall_mem_append, forall_mem_singleton, hwanted]
          exact ⟨hm, Bool.eq_false_iff.mpr htype⟩
        have hnext := ih (by simpa using hl) hm' (by simpa using hfuel)
        rw [getLast?_concat] at hnext
        exact hnext

/-- With a `msgtyp` of 0 the first message is taken. -/
theorem selectFirst_spec (a : RcvArgs) (h0 : a.msgtyp = 0) (w : WellFormedBy s L)
    (hq : (s.msqids q).qbytes ≠ 0) :
    ∃ sel, selectFirst s q a = .ok sel ∧ SelectedFirst s L q a sel := by
  have hc := w.hdrs.chain (some q) hq
  cases hl : L.hdrs (some q) with
  | nil =>
    rw [hl] at hc
    have hfirst : (s.msqids q).first = none := hc
    refine ⟨.nothing, by simp only [selectFirst, hfirst], ?_⟩
    show ∀ g ∈ L.hdrs (some q), _
    rw [hl]
    exact fun _ hg => absurd hg not_mem_nil
  | cons h l =>
    have hfirst : (s.msqids q).first = some h := by
      rw [hl] at hc
      exact hc.1
    have hnext : (s.msghdrs h).next = (pointer Nat).first l := by
      rw [hl] at hc
      exact hc.2.eq_first
    have hwanted : FirstWanted s L q a [] h l :=
      ⟨hl, fun _ hg => absurd hg not_mem_nil, by simp [wanted, h0]⟩
    simp only [selectFirst, hfirst]
    by_cases hlong : tooLong a (s.msghdrs h)
    · rw [if_pos hlong]
      exact ⟨.tooBig, rfl, [], h, l, hwanted, hlong⟩
    · rw [if_neg hlong]
      -- both branches leave what the search by type would leave
      obtain ⟨s', hrun, hk, hb, hsame⟩ := takeOut_spec (m := []) w hq hl
      rw [getLast?_nil, takeOut_head w hq hl] at hrun
      cases hrun
      have hok : SelectedFirst s L q a (.message (s.setQueue q
          { s.msqids q with first := (s.msghdrs h).next, last := l.getLast? }) h) :=
        ⟨⟨hb, _, hk⟩, hsame, [], l, hwanted, Bool.eq_false_iff.mpr hlong, hk⟩
      have hnd := w.hdrs.nodup (some q)
      rw [hl] at hnd
      have hiff := some_eq_getLast?_iff (m := []) hnd
      rw [nil_append] at hiff
      have hlast := (w.queue q hq).last
      rw [hl] at hlast
      rw [hnext] at hok
      cases l with
      | nil =>
        rw [hlast, if_pos (hiff.mpr rfl)]
        exact ⟨_, rfl, hok⟩
      | cons =>
        rw [hlast, if_neg (fun e => by simpa using hiff.mp e), hnext]
        exact ⟨_, rfl, hok⟩

theorem segCount_mono {n k : Nat} (hnk : n ≤ k) : segCount n ≤ segCount k :=
  Nat.div_le_div_right (by omega)

theorem length_text (hsize : (L.segs (some h)).length = segCount (s.msghdrs h).ts) :
    (L.letter s h).text.length = (s.msghdrs h).ts := by
  simp only [Layout.letter, letterIn]
  rw [length_take, length_flatMap_segBytes, hsize]
  apply min_eq_left
  simp only [segCount, msgssz]
  omega

/-- **Delivering the message taken out** meets no panic and leaves well-formed tables, with the other
messages where they were. -/
theorem msgrcvCopy_endsWith (a : RcvArgs) (k : TakenBy s L q h) :
    EndsWith s (msgrcvCopy s q a h) (fun o c => c = L.letters s ∧
      ∃ (m : Nat) (out : List UInt8), o = .ret (plainReturn m) (.message (s.msghdrs h).type out) ∧
        Delivered a (L.letter s h) m out) := by
  have t := k.tables
  have hoff := t.loose_off (some q)
  have hbound := bytesOf_bounded t.segs
    (nodup_cons.mpr ⟨hoff, t.hdrs.nodup _⟩)
    (fun g hg => by
      rcases mem_cons.mp hg with rfl | hg
      · exact k.size
      · exact t.size q g hg)
  simp only [bytesOf] at hbound
  have hlen := t.hdrs.length_le (fun _ hi => hi.1) (some q)
  simp only [msgtql] at hlen
  have hcb := k.cbytes
  have hqn := k.qnum
  obtain ⟨s1, hs1⟩ : ∃ s1, s1 = s.setQueue q { s.msqids q with
      cbytes := ((s.msqids q).cbytes + 2 ^ 32 - (s.msghdrs h).ts) % 2 ^ 32
      qnum := ((s.msqids q).qnum + 2 ^ 32 - 1) % 2 ^ 32
      lrpid := a.pid } := ⟨_, rfl⟩
  have hlinks : SameLinks s s1 := by
    rw [hs1]
    exact .setQueue Iff.rfl
  have hqb : SameQbytes s s1 := by
    rw [hs1]
    refine SameQbytes.setQueue ?_
    rfl
  have hpool : s1.msgpool = s.msgpool := by
    rw [hs1]
    rfl
  have t1 : Tables s1 L (some h) (hdrStart s1) := by
    rw [hs1]
    exact t.setQueue rfl Iff.rfl
  have hqs : QueuesOk s1 L := by
    rw [hs1]
    refine QueuesOk.setQueue k.others fun _ => ⟨k.last, ?_, ?_⟩
    · show ((s.msqids q).qnum + 2 ^ 32 - 1) % 2 ^ 32 = _
      omega
    · show ((s.msqids q).cbytes + 2 ^ 32 - (s.msghdrs h).ts) % 2 ^ 32 = _
      omega
  obtain ⟨msgsz, hmsz⟩ : ∃ n, n = if a.msgsz.toNat > (s.msghdrs h).ts then (s.msghdrs h).ts
    else a.msgsz.toNat := ⟨_, rfl⟩
  have hmin : msgsz = min (s.msghdrs h).ts a.msgsz.toNat := by
    rw [hmsz]
    split <;> omega
  have hle : msgsz ≤ (s.msghdrs h).ts := by
    rw [hmin]
    exact min_le_left ..
  obtain ⟨out, hout, hlength, hbytes⟩ := copyOut_bytes s1 msgsz
    (by rw [hlinks.msgmaps]; exact t.segs.chain (some h) (.inr rfl))
    (fun i hi => t.segs.within (some h) i hi) (by rw [k.size]; exact segCount_mono hle)
  obtain ⟨s2, L2, hrun, w2, hmq, hletters⟩ :=
    t1.release_wellFormed (by rw [hlinks.ts]; exact k.size) hqs
  refine ⟨s2, .ret (plainReturn msgsz) (.message (s.msghdrs h).type out), L2, ?_, w2, ?_, ?_, msgsz, out,
    rfl, ?_, hlength, ?_⟩
  · simp only [msgrcvCopy]
    rw [← hs1, ← hmsz]
    have hspot : segStart s (some h) = (s.msghdrs h).spot := rfl
    rw [hspot] at hout
    rw [hout]
    show (msgFreehdr s1 h >>= _) = _
    rw [hrun]
    rfl
  · intro p
    rw [hmq]
    exact hqb p
  · rw [hletters, hs1, letters_setQueue]
  · rw [length_text k.size, hmin]
  · rw [hbytes, hpool]
    simp only [Layout.letter, letterIn]
    rw [take_take, min_eq_left hle]

/-- The header found is that of the first message wanted, as the list of messages has it. -/
theorem FirstWanted.find? {a : RcvArgs} (f : FirstWanted s L q a m h l) :
    L.letters s q = m.map (L.letter s) ++ L.letter s h :: l.map (L.letter s) ∧
      (∀ y ∈ m.map (L.letter s), Ipc.wanted a.msgtyp y.type = false) ∧
      (L.letters s q).find? (fun y => Ipc.wanted a.msgtyp y.type) = some (L.letter s h) := by
  have hsplit : L.letters s q = m.map (L.letter s) ++ L.letter s h :: l.map (L.letter s) := by
    rw [Layout.letters, f.split, map_append, map_cons]
  have hpassed : ∀ y ∈ m.map (L.letter s), Ipc.wanted a.msgtyp y.type = false := by
    intro y hy
    obtain ⟨g, hg, rfl⟩ := mem_map.mp hy
    exact f.passed g hg
  refine ⟨hsplit, hpassed, ?_⟩
  rw [hsplit, find?_append, find?_eq_none.mpr (fun y hy => by simp [hpassed y hy]),
    Option.none_or]
  exact find?_cons_of_pos f.wanted

/-- The length that is tested is that of the text. -/
theorem tooLong_iff (a : RcvArgs) (hsize : (L.segs (some h)).length = segCount (s.msghdrs h).ts) :
    tooLong a (s.msghdrs h) ↔ ¬ Fits a (L.letter s h) := by
  rw [Fits, length_text hsize, tooLong, Bool.and_eq_true, decide_eq_true_eq, not_or, not_le,
    Bool.not_eq_true, Bool.not_eq_true']

/-- **`msgrcv` on a queue in use** ends well, whatever it asks for. -/
theorem msgrcvRound_endsWith (a : RcvArgs) (w : WellFormedBy s L) (hq : (s.msqids q).qbytes ≠ 0) :
    EndsWith s (msgrcvRound s q a) (RcvEffect q a (L.letters s)) := by
  have hsel : ∃ sel, msgSelect s q a = .ok sel ∧ SelectedFirst s L q a sel := by
    unfold msgSelect
    split
    · rename_i h0
      exact selectFirst_spec a h0 w hq
    · rename_i h0
      exact selectType_spec a h0 w hq msgtql rfl (fun _ hg => absurd hg not_mem_nil)
        (w.hdrs.length_le (fun _ hi => hi) _)
  obtain ⟨sel, hrun, hok⟩ := hsel
  unfold msgrcvRound
  rw [hrun]
  cases sel with
  | nothing =>
    have hnone : (L.letters s q).find? (fun y => wanted a.msgtyp y.type) = none := by
      rw [find?_eq_none]
      intro y hy
      obtain ⟨g, hg, rfl⟩ := mem_map.mp hy
      rw [Bool.not_eq_true]
      exact hok g hg
    show EndsWith s (if a.nowait then _ else _) _
    split
    · exact .same w (.failed _ (fun x hx => by rw [hnone] at hx; cases hx))
    · exact .same w (.asleep _ hnone)
  | tooBig =>
    obtain ⟨m, h, l, hfirst, hlong⟩ := hok
    refine .same w (.failed _ (fun x hx => ?_))
    rw [hfirst.find?.2.2] at hx
    cases hx
    exact (tooLong_iff a (w.size q h (by simp [hfirst.split]))).mp hlong
  | message s' h =>
    obtain ⟨⟨hb, -⟩, hsame, m, l, hfirst, hshort, k⟩ := hok
    obtain ⟨s'', o, L', hcopy, w', hb', hletters, n, out, rfl, hout⟩ := msgrcvCopy_endsWith a k
    have htype : (s'.msghdrs h).type = (s.msghdrs h).type := congrArg Letter.type (hsame h)
    have hpost : L'.letters s'' = update (L.letters s) q
        (m.map (L.letter s) ++ l.map (L.letter s)) := by
      rw [hletters, Layout.letters_update hsame, map_append]
    have hdelivered : Delivered a (L.letter s h) n out := by
      rw [← hsame h]
      exact hout
    have hfits : Fits a (L.letter s h) := by
      by_contra hno
      rw [(tooLong_iff a (w.size q h (by simp [hfirst.split]))).mpr hno] at hshort
      cases hshort
    obtain ⟨hsplit, hpassed, -⟩ := hfirst.find?
    refine ⟨s'', _, L', hcopy, w', hb.trans hb', ?_⟩
    rw [htype, hpost]
    exact .received hsplit hpassed hfirst.wanted hfits hdelivered

/-! ## msgsnd -/

/-- A header is taken off the free list, and has no segments yet. -/
theorem WellFormedBy.takeHdr (w : WellFormedBy s L) (hf : s.freeMsghdrs = some h) (ts : Nat) :
    ∃ L', Tables { s.setHdr h { s.msghdrs h with spot := -1, ts } with
        freeMsghdrs := (s.msghdrs h).next } L' (some h)
        (hdrStart { s.setHdr h { s.msghdrs h with spot := -1, ts } with
          freeMsghdrs := (s.msghdrs h).next }) ∧
      L'.segs (some h) = [] ∧ L'.segs = L.segs ∧ ∀ q, L'.hdrs (some q) = L.hdrs (some q) := by
  obtain ⟨l, hl⟩ : ∃ l, L.hdrs none = h :: l := by
    have hc := w.hdrs.chain none trivial
    cases hn : L.hdrs none with
    | nil =>
      rw [hn] at hc
      exact absurd (hf.symm.trans hc) (by simp [pointer])
    | cons x l =>
      rw [hn] at hc
      cases Option.some.inj (hf.symm.trans hc.1)
      exact ⟨l, rfl⟩
  have hoff : ∀ q, h ∉ L.hdrs (some q) := by
    intro q hm
    have := w.hdrs.apart none (some q) h (by simp [hl]) hm
    cases this
  have hidle : ¬ L.liveMsg (some h) := by
    rintro ⟨q, hm⟩
    exact hoff q hm
  obtain ⟨s', hs'⟩ : ∃ s' : MsgState, s' = { s.setHdr h { s.msghdrs h with spot := -1, ts } with
    freeMsghdrs := (s.msghdrs h).next } := ⟨_, rfl⟩
  rw [← hs']
  have hother : ∀ g, g ≠ h → s'.msghdrs g = s.msghdrs g := by
    intro g hg
    simp [hs', MsgState.setHdr, hg]
  have hnext : ∀ g, hdrNext s' g = hdrNext s g := by
    intro g
    by_cases hg : g = h
    · subst hg
      simp [hdrNext, hs', MsgState.setHdr]
    · simp [hdrNext, hother g hg]
  refine ⟨⟨L.segs, update L.hdrs none l⟩, ⟨?_, ?_, rfl, ?_, ?_, ?_⟩, w.segs.idle _ hidle, rfl,
    fun q => by simp⟩
  · have henl := w.segs.enlist (segStart s') hidle
      (by simp [segStart, hs', MsgState.setHdr]) (by
        rintro (_ | g) hg
        · simp [segStart, hs', MsgState.setHdr]
        · have hgh : g ≠ h := by
            rintro rfl
            exact hidle hg
          simp [segStart, hother g hgh])
    refine henl.congr (fun _ => Iff.rfl) (fun o => ?_) (fun _ _ => by simp [hs', MsgState.setHdr])
      (fun _ _ => rfl)
    cases o with
    | none | some => simp [Layout.liveMsg]
  · have hpop := w.hdrs.pop (hdrStart s') hl (by simp [hdrStart, hs', hdrNext])
      (by
        rintro (_ | q) - hq
        · exact absurd rfl hq
        · simp [hdrStart, hs', MsgState.setHdr])
    refine hpop.congr (fun _ => loose_iff) (liveQueue_congr (fun q => ?_)) (fun i _ => hnext i)
      (fun _ _ => rfl)
    rw [hs']
    rfl
  · rintro g hg
    cases hg
    exact w.hdrs.within none h (by simp [hl])
  · rw [hs']
    exact w.nfree
  · intro q g hg
    have hg' : g ∈ L.hdrs (some q) := by simpa using hg
    have hgh : g ≠ h := by
      rintro rfl
      exact hoff q hg'
    rw [hother g hgh]
    exact w.size q g hg'

/-- The header in hand is put behind a queue. -/
theorem Tables.attach (t : Tables s L (some h) st)
    (hsize : (L.segs (some h)).length = segCount (s.msghdrs h).ts) (hl : L.hdrs (some q) = l)
    (hp : Pool (pointer Nat) (fun i => (i < msgtql ∧ some h ≠ some i) ∨ i = h) (liveQueue s')
      (hdrNext s') (hdrStart s') (update L.hdrs (some q) (l ++ [h])))
    (f : SameSegs s s') :
    Tables s' ⟨L.segs, update L.hdrs (some q) (l ++ [h])⟩ none (hdrStart s') := by
  have hmem : ∀ p g, g ∈ update L.hdrs (some q) (l ++ [h]) (some p) ↔
      g ∈ L.hdrs (some p) ∨ (p = q ∧ g = h) := by
    intro p g
    by_cases hpq : p = q
    · subst hpq
      simp [hl]
    · simp [hpq]
  refine ⟨?_, ?_, rfl, by simp, f.nfreeMsgmaps.trans t.nfree, ?_⟩
  · rw [f.msgmaps, f.segStart]
    refine t.segs.congr (fun _ => Iff.rfl) (fun o => ?_) (fun _ _ => rfl) fun _ _ => rfl
    cases o with
    | none => simp [Layout.liveMsg]
    | some g =>
      constructor
      · rintro (⟨p, hg⟩ | hg)
        · rcases (hmem p g).mp hg with hg | ⟨-, rfl⟩
          · exact .inl ⟨p, hg⟩
          · exact .inr rfl
        · simp at hg
      · rintro (⟨p, hg⟩ | hg)
        · exact .inl ⟨p, (hmem p g).mpr (.inl hg)⟩
        · cases hg
          exact .inl ⟨q, (hmem q h).mpr (.inr ⟨rfl, rfl⟩)⟩
  · have hb := t.bound h rfl
    refine hp.congr (fun i => ?_) (fun _ => Iff.rfl) (fun _ _ => rfl) fun _ _ => rfl
    by_cases hih : i = h
    · simp [hih, hb]
    · have hhi : h ≠ i := fun e => hih e.symm
      simp [hih, hhi]
  · intro p g hg
    rw [f.ts]
    rcases (hmem p g).mp hg with hg | ⟨-, rfl⟩
    · exact t.size p g hg
    · exact hsize

/-- The tables are well formed again when the queue counts its new message. -/
theorem Tables.attach_wellFormed (t : Tables s L (some h) (hdrStart s))
    (hsize : (L.segs (some h)).length = segCount (s.msghdrs h).ts)
    (hq : (s.msqids q).qbytes ≠ 0) (hqs : QueuesOk s L) (hl : L.hdrs (some q) = l)
    (hp : Pool (pointer Nat) (fun i => (i < msgtql ∧ some h ≠ some i) ∨ i = h) (liveQueue s)
      (hdrNext s') (hdrStart s') (update L.hdrs (some q) (l ++ [h])))
    (f : SameSegs s s') (hmq : s'.msqids = update s.msqids q mq) (hlast : mq.last = some h)
    (hqn : mq.qnum = ((s.msqids q).qnum + 1) % 2 ^ 32)
    (hcb : mq.cbytes = ((s.msqids q).cbytes + (s.msghdrs h).ts) % 2 ^ 32)
    (hqb : mq.qbytes = (s.msqids q).qbytes) (hsame : ∀ g, L.letter s' g = L.letter s g) :
    ∃ L', WellFormedBy s' L' ∧ SameQbytes s s' ∧
      L'.letters s' = update (L.letters s) q (L.letters s q ++ [L.letter s h]) := by
  have hsameq : SameQbytes s s' := by
    intro p
    rw [hmq]
    exact SameQbytes.setQueue hqb p
  -- neither counter wraps
  have hbound := bytesOf_bounded (l := h :: l) t.segs
    (nodup_cons.mpr ⟨by rw [← hl]; exact t.loose_off _, by rw [← hl]; exact t.hdrs.nodup _⟩)
    (fun g hg => by
      rcases mem_cons.mp hg with rfl | hg
      · exact hsize
      · exact t.size q g (by rw [hl]; exact hg))
  simp only [bytesOf] at hbound
  have hlen := t.hdrs.length_le (fun _ hi => hi.1) (some q)
  rw [hl] at hlen
  simp only [msgtql] at hlen
  have hqn' := (hqs q hq).qnum
  have hcb' := (hqs q hq).cbytes
  rw [hl] at hqn' hcb'
  have hp' := hp.congr (fun _ => Iff.rfl) (liveQueue_congr hsameq.live) (fun _ _ => rfl)
    (fun _ _ => rfl)
  have hbehind : L.letters s q ++ [L.letter s h] = (l ++ [h]).map (L.letter s) := by
    rw [Layout.letters, hl, map_append, map_singleton]
  refine ⟨_, wellFormedBy_iff.mpr ⟨t.attach hsize hl hp' f, fun p hlive => ?_⟩, hsameq,
    by rw [Layout.letters_update hsame, hbehind]⟩
  by_cases hpq : p = q
  · subst hpq
    dsimp only
    rw [update_self]
    have hrec : s'.msqids p = mq := by rw [hmq, update_self]
    refine ⟨by rw [hrec, hlast]; simp, ?_, ?_⟩
    · rw [hrec, hqn, length_append, length_singleton]
      omega
    · rw [hrec, hcb, bytesOf_congr (fun g _ => f.ts g), bytesOf_append]
      simp only [bytesOf]
      omega
  · have hpq' : (some p : Option (Fin msgmni)) ≠ some q := by simpa using hpq
    have hrest : s'.msqids p = s.msqids p := by rw [hmq, update_of_ne hpq]
    rw [hrest] at hlive
    dsimp only
    rw [update_of_ne hpq']
    exact (hqs p hlive).congr hrest fun g _ => f.ts g

/-- **Queueing the message in hand** leaves well-formed tables, with the message behind the others. -/
theorem enqueue_spec (pid : Nat) (t : Tables s L (some h) (hdrStart s))
    (hsize : (L.segs (some h)).length = segCount (s.msghdrs h).ts)
    (hq : (s.msqids q).qbytes ≠ 0) (hqs : QueuesOk s L) :
    ∃ s', enqueue s q h pid = .ok s' ∧ ∃ L', WellFormedBy s' L' ∧ SameQbytes s s' ∧
      L'.letters s' = update (L.letters s) q (L.letters s q ++ [L.letter s h]) := by
  have hc := t.hdrs.chain (some q) hq
  have hx : ¬ (h < msgtql ∧ some h ≠ some h) := by simp
  obtain ⟨l, hl⟩ : ∃ l, L.hdrs (some q) = l := ⟨_, rfl⟩
  rw [hl] at hc
  unfold enqueue
  rcases eq_nil_or_concat' l with rfl | ⟨m, y, rfl⟩
  · -- the queue was empty
    have hfirst : (s.msqids q).first = none := hc
    simp only [hfirst]
    refine ⟨_, rfl, t.attach_wellFormed hsize hq hqs hl ?_ ?_ rfl rfl rfl rfl rfl (fun g => ?_)⟩
    · have hpush := t.hdrs.push (o := some q) (x := h)
        (update (hdrStart s) (some q) (some h)) hq hx (update_self ..)
        (fun p _ hp => update_of_ne hp _ _)
      rw [hl] at hpush
      rw [hdrStart_setQueue, hdrStart_setHdr]
      show Pool _ _ _ (hdrNext (s.setHdr h _)) _ _
      rw [hdrNext_setHdr, ← hfirst]
      exact hpush
    · refine SameSegs.trans ?_ (.setQueue _ _ _)
      exact .setHdr rfl rfl
    · exact letter_setNext none h g
  · -- it goes behind the last one, `y`
    have hlast : (s.msqids q).last = some y := by
      rw [(hqs q hq).last, hl]
      simp
    obtain ⟨x, hfirst⟩ : ∃ x, (s.msqids q).first = some x := by
      have he := hc.eq_first
      cases m with
      | nil => exact ⟨y, he⟩
      | cons x => exact ⟨x, he⟩
    simp only [hfirst, hlast]
    refine ⟨_, rfl, t.attach_wellFormed hsize hq hqs hl ?_ ?_ rfl rfl rfl rfl rfl (fun g => ?_)⟩
    · have happ := t.hdrs.append hl hx
      rw [hdrStart_setQueue_same hfirst.symm, hdrStart_setHdr, append_assoc]
      show Pool _ _ _ (hdrNext ((s.setHdr y _).setHdr h _)) _ _
      rw [hdrNext_setHdr, hdrNext_setHdr]
      exact happ
    · refine (SameSegs.trans ?_ (.setHdr ?_ ?_)).trans (.setQueue _ _ _)
      · exact .setHdr rfl rfl
      · rfl
      · rfl
    · exact (letter_setNext none h g).trans (letter_setNext (some h) y g)

/-- **The message copied in** is queued. -/
theorem sndQueue_endsWith (a : SndArgs) (t : Tables s L (some h) (hdrStart s))
    (hsize : (L.segs (some h)).length = segCount (s.msghdrs h).ts) (hq : (s.msqids q).qbytes ≠ 0)
    (hqs : QueuesOk s L) : EndsWith s (sndQueue s q a h) (fun o c => o = .plain (plainReturn 0) ∧
      c = update (L.letters s) q (L.letters s q ++ [L.letter s h])) := by
  obtain ⟨s1, hs1⟩ : ∃ s1, s1 = s.setQueue q ((s.msqids q).setLocked false) := ⟨_, rfl⟩
  have hqb : SameQbytes s s1 := by
    rw [hs1]
    exact SameQbytes.setQueue rfl
  have t1 : Tables s1 L (some h) (hdrStart s1) := by
    rw [hs1]
    exact t.setQueue rfl Iff.rfl
  have hqs1 : QueuesOk s1 L := by
    have hok := hqs q hq
    rw [hs1]
    exact QueuesOk.setQueue (fun p _ => hqs p) fun _ => ⟨hok.last, hok.qnum, hok.cbytes⟩
  have hts1 : (s1.msghdrs h).ts = (s.msghdrs h).ts := by rw [hs1]; rfl
  have hq1 : (s1.msqids q).qbytes ≠ 0 := by
    rw [hqb]
    exact hq
  obtain ⟨s2, hrun, L2, w2, hqb2, hletters⟩ :=
    enqueue_spec a.pid t1 (by rw [hts1]; exact hsize) hq1 hqs1
  refine ⟨s2, .plain (plainReturn 0), L2, ?_, w2, hqb.trans hqb2, rfl, ?_⟩
  · simp only [sndQueue]
    rw [← hs1, if_neg hq1, hrun]
    rfl
  · rw [hletters, hs1]
    rfl

theorem SameLinks.setType (ty : BitVec 32) : SameLinks s (s.setHdr h { s.msghdrs h with type := ty }) := by
  refine ⟨.setHdr rfl rfl, rfl, fun g => ?_, fun _ => Iff.rfl⟩
  by_cases hgh : g = h
  · subst hgh
    simp [MsgState.setHdr]
  · simp [MsgState.setHdr, hgh]

/-- A message of a type below 1 is given back. -/
theorem sndRefused_endsWith (t : Tables s L (some h) (hdrStart s))
    (hsize : (L.segs (some h)).length = segCount (s.msghdrs h).ts) (hqs : QueuesOk s L) :
    EndsWith s (do
        let s ← msgFreehdr s h
        .ok (s.setQueue q ((s.msqids q).setLocked false), .plain (msgFail .einval)))
      (fun o c => o = .plain (msgFail .einval) ∧ c = L.letters s) := by
  obtain ⟨s1, L1, hrun, w1, hmq, hletters⟩ := t.release_wellFormed hsize hqs
  refine ⟨s1.setQueue q ((s1.msqids q).setLocked false), .plain (msgFail .einval), L1, ?_,
    w1.setLocked false, ?_, rfl, ?_⟩
  · rw [hrun]
    rfl
  · have hqb : SameQbytes s s1 := fun p => by rw [hmq]
    exact hqb.trans (SameQbytes.setQueue rfl)
  · rw [letters_setQueue, hletters]

/-- The text is copied into the segments of the message, and no other message is touched. -/
theorem sndFilled_letters (a : SndArgs) (t : Tables s L (some h) (hdrStart s))
    (hts : (s.msghdrs h).ts = a.msgsz.toNat)
    (hsize : (L.segs (some h)).length = segCount a.msgsz.toNat) :
    ∃ pool, copyIn s.msgmaps a.text a.msgsz.toNat a.msgsz.toNat 0 (s.msghdrs h).spot s.msgpool =
        .ok (pool, -1) ∧
      Tables { s with msgpool := pool } L (some h) (hdrStart { s with msgpool := pool }) ∧
      L.letters { s with msgpool := pool } = L.letters s ∧
      L.letter { s with msgpool := pool } h = ⟨h, (s.msghdrs h).type, a.body⟩ := by
  have hchain := t.segs.chain (some h) (.inr rfl)
  obtain ⟨pool, hcopy, hbytes, hother⟩ := copyIn_spec a.text a.msgsz.toNat a.msgsz.toNat 0 _ s.msgpool
    hchain (fun i hi => t.segs.within (some h) i hi) hsize le_rfl
  have hlinks : SameLinks s { s with msgpool := pool } :=
    ⟨⟨rfl, rfl, rfl, fun _ => rfl, fun _ => rfl⟩, rfl, fun _ => rfl, fun _ => Iff.rfl⟩
  have hstart : hdrStart { s with msgpool := pool } = hdrStart s := by
    funext o
    cases o <;> rfl
  refine ⟨pool, hcopy, ?_, ?_, ?_⟩
  · exact t.congr hlinks
  · funext p
    refine Layout.letters_congr rfl fun g hg => Layout.letter_congr rfl rfl rfl (fun k hk => ?_)
    refine hother k fun hkh => t.loose_off p ?_
    obtain rfl := Option.some.inj (t.segs.apart (some g) (some h) k hk hkh)
    exact hg
  · simp only [Layout.letter, letterIn, hts, hbytes, zero_add, SndArgs.body]

/-- **A header with all its segments**: a bad type gives them back, a good one is copied in and
queued. -/
theorem sndBody_endsWith (a : SndArgs) (t : Tables s L (some h) (hdrStart s))
    (hts : (s.msghdrs h).ts = a.msgsz.toNat) (hsize : (L.segs (some h)).length = segCount a.msgsz.toNat)
    (hq : (s.msqids q).qbytes ≠ 0) (hqs : QueuesOk s L) :
    EndsWith s (sndBody s q a h) (SndEffect q a (L.letters s)) := by
  obtain ⟨s1, hs1⟩ : ∃ s1, s1 = s.setHdr h { s.msghdrs h with type := a.type } := ⟨_, rfl⟩
  have hlinks : SameLinks s s1 := by
    rw [hs1]
    exact .setType a.type
  have hmq : s1.msqids = s.msqids := by
    rw [hs1]
    rfl
  have hstart : hdrStart s1 = hdrStart s := by
    rw [hs1, hdrStart_setHdr]
  have t1 : Tables s1 L (some h) (hdrStart s1) := by
    rw [hstart]
    exact t.congr hlinks
  have hqs1 : QueuesOk s1 L := by
    intro p hp
    rw [hmq] at hp
    exact (hqs p hp).congr (by rw [hmq]) fun g _ => hlinks.ts g
  have hts1 : (s1.msghdrs h).ts = a.msgsz.toNat := by rw [hlinks.ts, hts]
  have hletters1 : L.letters s1 = L.letters s := by
    funext p
    refine Layout.letters_congr rfl fun g hg => Layout.letter_congr ?_ (hlinks.ts g) rfl (fun _ _ => ?_)
    · have hgh : g ≠ h := by
        rintro rfl
        exact t.loose_off _ hg
      rw [hs1]
      simp [MsgState.setHdr, hgh]
    · rw [hs1]
      rfl
  simp only [sndBody]
  rw [← hs1]
  by_cases htype : a.type.toInt < 1
  · rw [if_pos htype]
    obtain ⟨s2, o, L2, hrun, w2, hqb, rfl, hletters2⟩ :=
      sndRefused_endsWith t1 (by rw [hts1]; exact hsize) hqs1
    refine ⟨s2, _, L2, hrun, w2, fun p => (hqb p).trans (by rw [hmq]), ?_⟩
    rw [hletters2, hletters1]
    exact .failed _
  · rw [if_neg htype]
    obtain ⟨pool, hcopy, tpool, hkept, hnew⟩ := sndFilled_letters a t1 hts1 hsize
    obtain ⟨s2, o, L2, hrun, w2, hqb, rfl, hletters2⟩ :=
      sndQueue_endsWith a tpool (by rw [← hts1] at hsize; exact hsize) (by rw [hmq]; exact hq)
        (fun p hp => (hqs1 p hp).congr rfl (fun _ _ => rfl))
    refine ⟨s2, .plain (plainReturn 0), L2, ?_, w2, fun p => (hqb p).trans (by rw [hmq]), ?_⟩
    · rw [hcopy]
      exact hrun
    · have htype1 : (s1.msghdrs h).type = a.type := by
        rw [hs1]
        simp [MsgState.setHdr]
      rw [hletters2, hkept, hletters1, hnew, htype1]
      exact .sent h (by omega)

/-- The number of segments asked for is the number needed: no queue allows a size at which the sum
wraps. -/
theorem segsNeeded_eq (msgsz : BitVec 32) (hle : msgsz.toNat ≤ 2 ^ 32 - 8) :
    segsNeeded msgsz = segCount msgsz.toNat := by
  simp only [segsNeeded, segCount, msgssz]
  omega

/-- **The queue is locked, a header and its segments are allocated**: the message is in the call's hands,
and the queues are as they were. -/
theorem sndAlloc_spec {msgsz : BitVec 32} (w : WellFormedBy s L) (q : Fin msgmni)
    (hf : s.freeMsghdrs = some h) (hn : (segsNeeded msgsz : Int) ≤ s.nfreeMsgmaps)
    (hsmall : msgsz.toNat % 2 ^ 16 = msgsz.toNat) :
    ∃ s' L', allocSegs (segsNeeded msgsz) (sndHeader s q msgsz h) h = .ok s' ∧
      Tables s' L' (some h) (hdrStart s') ∧ (s'.msghdrs h).ts = msgsz.toNat ∧
      (L'.segs (some h)).length = segsNeeded msgsz ∧ QueuesOk s' L' ∧ SameQbytes s s' ∧
      L'.letters s' = L.letters s := by
  have w1 : WellFormedBy (s.setQueue q ((s.msqids q).setLocked true)) L := w.setLocked true
  obtain ⟨L2, t2, hnil, hsegs2, hlists⟩ := w1.takeHdr hf (msgsz.toNat % 2 ^ 16)
  obtain ⟨s2, hs2⟩ : ∃ s2, s2 = sndHeader s q msgsz h := ⟨_, rfl⟩
  have t2' : Tables s2 L2 (some h) (hdrStart s2) := by
    rw [hs2]
    exact t2
  have hnf2 : s2.nfreeMsgmaps = s.nfreeMsgmaps := by
    rw [hs2]
    rfl
  obtain ⟨s3, L3, halloc, t3, hlen, hhd, hmq3, hfh3, hpool3, hsegs3, spot, hhdrs3⟩ :=
    allocSegs_spec (segsNeeded msgsz) s2 L2 t2' (by rw [hnf2]; exact hn)
  have hmq : s3.msqids = (s.setQueue q ((s.msqids q).setLocked true)).msqids := by
    rw [hmq3, hs2]
    rfl
  have hother : ∀ g, g ≠ h → s3.msghdrs g = s.msghdrs g := by
    intro g hgh
    rw [hhdrs3, hs2]
    simp [sndHeader, MsgState.setHdr, MsgState.setQueue, hgh]
  have hts : (s3.msghdrs h).ts = msgsz.toNat := by
    rw [hhdrs3, hs2]
    simpa [sndHeader, MsgState.setHdr] using hsmall
  have hqueued : ∀ p, ∀ g ∈ L.hdrs (some p), g ≠ h := by
    rintro p g hg rfl
    exact t3.loose_off (some p) (by rw [hhd, hlists]; exact hg)
  have hstart : hdrStart s2 = hdrStart s3 := by
    funext o
    cases o with
    | none => exact hfh3.symm
    | some => simp [hdrStart, hmq3]
  rw [hstart] at t3
  rw [← hs2]
  refine ⟨s3, L3, halloc, t3, hts, by rw [hlen, hnil]; simp, fun p hp => ?_, ?_, ?_⟩
  · have hp1 : ((s.setQueue q ((s.msqids q).setLocked true)).msqids p).qbytes ≠ 0 := by
      rw [← hmq]
      exact hp
    rw [hhd, hlists]
    refine (w1.queue p hp1).congr (by rw [hmq]) fun g hg => ?_
    rw [hother g (hqueued p g hg)]
    rfl
  · have hlock : SameQbytes s (s.setQueue q ((s.msqids q).setLocked true)) := SameQbytes.setQueue rfl
    intro p
    rw [hmq]
    exact hlock p
  · funext p
    refine Layout.letters_congr (by rw [hhd, hlists]) fun g hg => ?_
    have hgh := hqueued p g hg
    refine Layout.letter_congr (by rw [hother g hgh]) (by rw [hother g hgh])
      (by rw [hsegs3 g hgh, hsegs2]) fun _ _ => ?_
    rw [hpool3, hs2]
    rfl

/-- A message of so many bytes that no segment is asked for meets the end of its list at its first
byte. -/
theorem sndBody_huge (a : SndArgs) (hspot : (s.msghdrs h).spot = -1) (hts : 0 < (s.msghdrs h).ts)
    (hsz : 0 < a.msgsz.toNat) : ∃ e, sndBody s q a h = .error e := by
  obtain ⟨n, hn⟩ := Nat.exists_eq_add_one_of_ne_zero (Nat.pos_iff_ne_zero.mp hts)
  obtain ⟨k, hk⟩ := Nat.exists_eq_add_one_of_ne_zero (Nat.pos_iff_ne_zero.mp hsz)
  by_cases htype : a.type.toInt < 1
  · refine ⟨.panic .spotOutOfRange, ?_⟩
    simp only [sndBody]
    rw [if_pos htype]
    simp [msgFreehdr, MsgState.setHdr, hn, freeSegs, hspot]
    rfl
  · refine ⟨.panic .nextTooLow2, ?_⟩
    simp only [sndBody]
    rw [if_neg htype]
    simp [MsgState.setHdr, hk, copyIn, hspot]
    rfl

/-- **`msgsnd` on a queue in use** ends well, unless the queue allows messages for which the number of
segments wraps. -/
theorem msgsndRound_endsWith (a : SndArgs) (w : WellFormedBy s L) (hq : (s.msqids q).qbytes ≠ 0) :
    EndsWith s (msgsndRound s q a) (SndEffect q a (L.letters s)) ∨
      (2 ^ 32 - 8 < (s.msqids q).qbytes ∧ ∃ e, msgsndRound s q a = .error e) := by
  simp only [msgsndRound]
  by_cases hbig : a.msgsz.toNat > (s.msqids q).qbytes
  · rw [if_pos hbig]
    exact .inl (.same w (.failed _))
  rw [if_neg hbig]
  by_cases hneed : needMoreResources s q a.msgsz
  · rw [if_pos hneed]
    split
    · exact .inl (.same w (.failed _))
    · exact .inl ⟨_, _, L, rfl, w.setLocked true, SameQbytes.setQueue rfl, .asleep _⟩
  rw [if_neg hneed]
  simp only [needMoreResources, Bool.or_eq_true, decide_eq_true_eq, not_or] at hneed
  obtain ⟨⟨⟨hlock, hfit⟩, hsegs⟩, hhdr⟩ := hneed
  obtain ⟨h, hf⟩ : ∃ h, s.freeMsghdrs = some h := by
    cases hs : s.freeMsghdrs with
    | none => simp [hs] at hhdr
    | some h => exact ⟨h, rfl⟩
  simp only [msgsndCopy]
  rw [if_neg hlock, if_neg hsegs, if_neg hfit]
  simp only [hf]
  rw [if_neg hlock]
  by_cases hhuge : a.msgsz.toNat ≤ 2 ^ 32 - 8
  · -- the message fits into the segments there are, so its size fits into `msg_ts`
    have hcount := segsNeeded_eq a.msgsz hhuge
    have hnfree : (L.segs none).length ≤ msgseg := w.segs.length_le (fun _ hi => hi) none
    have hsmall : a.msgsz.toNat % 2 ^ 16 = a.msgsz.toNat := by
      rw [hcount, w.nfree] at hsegs
      simp only [segCount, msgssz, msgseg] at hsegs hnfree
      omega
    obtain ⟨s1, L1, halloc, t1, hts, hlen, hqs, hqb, hletters⟩ := sndAlloc_spec w q hf (by omega) hsmall
    obtain ⟨s2, o, L2, hbody, w2, hqb', heffect⟩ := sndBody_endsWith a t1 hts
      (by rw [hlen, hcount]) (by rw [hqb]; exact hq) hqs
    rw [hletters] at heffect
    refine .inl ⟨s2, o, L2, ?_, w2, hqb.trans hqb', heffect⟩
    rw [halloc]
    exact hbody
  · right
    have hnone : segsNeeded a.msgsz = 0 := by
      simp only [segsNeeded, msgssz]
      omega
    have hspot : ((sndHeader s q a.msgsz h).msghdrs h).spot = -1 := by
      simp [sndHeader, MsgState.setHdr]
    have hts : 0 < ((sndHeader s q a.msgsz h).msghdrs h).ts := by
      simp only [sndHeader, MsgState.setHdr, update_self]
      omega
    obtain ⟨e, he⟩ := sndBody_huge a hspot hts (by omega)
    refine ⟨by omega, e, ?_⟩
    rw [hnone]
    exact he

end Ixemul.Ipc
