/-
# Ixemul.Ipc.MsgDelivery — which message a receiver gets, and what of it.

What a queue holds is a list of messages (`MsgState.letters`), and every call that comes to an end does
nothing to the lists, empties one of them, puts a message behind the others, or takes one out
(`CallEffect`). `msgrcv` takes out the first message that its `msgtyp` asks for, for a negative one the
first of any type up to its absolute value.  A message that stays on its queue stays as it was sent; the
copy-out loop writes whole segments where the message has more than one, and so up to seven bytes too many.
-/
import Ixemul.Ipc.MsgTransfer

namespace Ixemul.Ipc

open Lib
open BitVec Function List

variable {s s' : MsgState} {L : Layout} {q : Fin msgmni} {o : MsgOutcome} {call : MsgCall}
  {c c' : Fin msgmni → List Letter} {a : SndArgs} {msgtyp type : BitVec 32} {x : Letter}

/-! ## What the calls do to the queues -/

theorem map_hdr_letters (s : MsgState) (q : Fin msgmni) : (s.letters q).map Letter.hdr = s.headers q := by
  simp [MsgState.letters, MsgState.letter, letterIn, comp_def]

theorem WellFormedBy.letters_fun (w : WellFormedBy s L) : s.letters = L.letters s :=
  funext w.letters_eq

theorem WellFormed.nodup_hdr (hw : WellFormed s) (q : Fin msgmni) : ((s.letters q).map Letter.hdr).Nodup := by
  obtain ⟨L, w⟩ := hw
  rw [map_hdr_letters, w.headers_eq]
  exact w.hdrs.nodup (some q)

/-- The queue a call of `msgsnd` is about, and the message it brings. -/
def MsgCall.sending (s : MsgState) : MsgCall → Option (Fin msgmni × SndArgs)
  | .msgsnd id a => (msgCheck s id).toOption.map (fun q => (q, a))
  | .sndResume w _ => some (w.q, w.args)
  | _ => none

/-- The queue a call of `msgrcv` takes a message from, if it gets that far, and what it asks for. -/
def MsgCall.receiving (s : MsgState) : MsgCall → Option (Fin msgmni × RcvArgs)
  | .msgrcv id a => (msgCheck s id).toOption.map (fun q => (q, a))
  | .rcvResume w false =>
    let mq := s.msqids w.q
    if mq.qbytes = 0 ∨ mq.perm.seq ≠ ipcidToSeq (ipcidToIx (BitVec.ofNat 32 w.q)) then none
    else some (w.q, w.args)
  | _ => none

theorem toOption_map_eq_some {α β ε : Type} {r : Except ε α} {f : α → β} {b : β}
    (h : r.toOption.map f = some b) : ∃ x, r = .ok x ∧ f x = b := by
  cases r with
  | error => cases h
  | ok x => exact ⟨x, rfl, Option.some.inj h⟩

/-- **A call of `msgsnd` that comes to an end.** -/
theorem msgsndRound_effect (w : WellFormedBy s L) (hq : (s.msqids q).qbytes ≠ 0)
    (hrun : msgsndRound s q a = .ok (s', o)) :
    ∃ L', WellFormedBy s' L' ∧ SndEffect q a (L.letters s) o (L'.letters s') := by
  rcases msgsndRound_endsWith a w hq with ⟨t, o', L', hrun', w', -, heffect⟩ | ⟨-, e, he⟩
  · rw [hrun] at hrun'
    cases hrun'
    exact ⟨L', w', heffect⟩
  · rw [hrun] at he
    cases he

theorem run_sending (hw : WellFormed s) (hs : call.sending s = some (q, a))
    (hrun : call.run s = .ok (s', o)) : WellFormed s' ∧ SndEffect q a s.letters o s'.letters := by
  obtain ⟨L, w⟩ := hw
  rw [w.letters_fun]
  have hdone : (∃ L', WellFormedBy s' L' ∧ SndEffect q a (L.letters s) o (L'.letters s')) →
      WellFormed s' ∧ SndEffect q a (L.letters s) o s'.letters := by
    rintro ⟨L', w', heffect⟩
    rw [w'.letters_fun]
    exact ⟨⟨L', w'⟩, heffect⟩
  apply hdone
  cases call with
  | msgsnd =>
    obtain ⟨p, hp, hpa⟩ := toOption_map_eq_some hs
    cases hpa
    simp only [MsgCall.run, msgsnd, hp] at hrun
    exact msgsndRound_effect w (msgCheck_live hp) hrun
  | sndResume wt i =>
    cases hs
    obtain ⟨w₁, hletters⟩ := w.unlockedBy wt
    rw [← hletters]
    revert hrun
    simp only [MsgCall.run]
    fun_cases msgsndResume s wt i with
    | case1 | case2 =>
      intro hrun
      obtain ⟨rfl, rfl⟩ := Prod.mk.inj (Except.ok.inj hrun)
      exact ⟨L, w₁, .failed _⟩
    | case3 _ _ hlive => exact msgsndRound_effect w₁ hlive
  | _ => cases hs

/-- **A call of `msgrcv` that looks for a message** comes to an end. -/
theorem run_receiving {a : RcvArgs} (hw : WellFormed s) (hr : call.receiving s = some (q, a)) :
    ∃ s' o, call.run s = .ok (s', o) ∧ WellFormed s' ∧ RcvEffect q a s.letters o s'.letters := by
  obtain ⟨L, w⟩ := hw
  have hround : call.run s = msgrcvRound s q a ∧ (s.msqids q).qbytes ≠ 0 := by
    cases call with
    | msgrcv =>
      obtain ⟨p, hp, hpa⟩ := toOption_map_eq_some hr
      cases hpa
      refine ⟨?_, msgCheck_live hp⟩
      simp only [MsgCall.run, msgrcv, hp]
    | rcvResume wt i =>
      cases i with
      | true => cases hr
      | false =>
        simp only [MsgCall.receiving] at hr
        split at hr
        · cases hr
        · rename_i hlive
          cases hr
          refine ⟨?_, fun h0 => hlive (.inl h0)⟩
          simp only [MsgCall.run, msgrcvResume]
          rw [if_neg (by simp), if_neg hlive]
    | _ => cases hr
  obtain ⟨s', o, L', hrun, w', -, heffect⟩ := msgrcvRound_endsWith a w hround.2
  refine ⟨s', o, hround.1.trans hrun, ⟨L', w'⟩, ?_⟩
  rw [w.letters_fun, w'.letters_fun]
  exact heffect

/-- What a call does to the messages on the queues. -/
inductive CallEffect (c : Fin msgmni → List Letter) : (Fin msgmni → List Letter) → Prop where
  | same : CallEffect c c
  | removed (q : Fin msgmni) : CallEffect c (update c q [])
  | sent (q : Fin msgmni) (x : Letter) (htype : 1 ≤ x.type.toInt) :
      CallEffect c (update c q (c q ++ [x]))
  | received (q : Fin msgmni) {pre post : List Letter} {x : Letter} (hq : c q = pre ++ x :: post) :
      CallEffect c (update c q (pre ++ post))

theorem SndEffect.toCall (h : SndEffect q a c o c') : CallEffect c c' := by
  cases h with
  | failed | asleep => exact .same
  | sent h htype => exact .sent q _ htype

theorem RcvEffect.toCall {a : RcvArgs} (h : RcvEffect q a c o c') : CallEffect c c' := by
  cases h with
  | failed | asleep => exact .same
  | received hq => exact .received q hq

/-- **Every call that comes to an end** leaves well-formed tables, and has one of these effects. -/
theorem run_effect (hw : WellFormed s) (hrun : call.run s = .ok (s', o)) :
    WellFormed s' ∧ CallEffect s.letters s'.letters := by
  have hrcv : ∀ {q a}, call.receiving s = some (q, a) →
      WellFormed s' ∧ CallEffect s.letters s'.letters := by
    intro q a hr
    obtain ⟨t, o', hrun', hw', heffect⟩ := run_receiving hw hr
    rw [hrun] at hrun'
    cases hrun'
    exact ⟨hw', heffect.toCall⟩
  have hsnd : ∀ {q a}, call.sending s = some (q, a) →
      WellFormed s' ∧ CallEffect s.letters s'.letters := by
    intro q a hs
    obtain ⟨hw', heffect⟩ := run_sending hw hs hrun
    exact ⟨hw', heffect.toCall⟩
  cases call with
  | msgget cred key flg =>
    obtain ⟨L, w⟩ := hw
    cases hrun
    obtain ⟨w', hletters⟩ := msgget_spec cred key flg w
    refine ⟨⟨L, w'⟩, ?_⟩
    rw [w'.letters_fun, hletters, w.letters_fun]
    exact .same
  | msgctl cred id cmd =>
    obtain ⟨L, w⟩ := hw
    obtain ⟨t, o', L', hrun', w', -, hletters⟩ := msgctl_spec cred id cmd w
    rw [MsgCall.run, hrun'] at hrun
    cases hrun
    refine ⟨⟨L', w'⟩, ?_⟩
    rw [w'.letters_fun, w.letters_fun]
    rcases hletters with hsame | ⟨p, hp⟩
    · rw [hsame]
      exact .same
    · rw [hp]
      exact .removed p
  | msgsnd id =>
    cases hc : msgCheck s id with
    | error =>
      simp only [MsgCall.run, msgsnd, hc] at hrun
      cases hrun
      exact ⟨hw, .same⟩
    | ok => exact hsnd (by rw [MsgCall.sending, hc]; rfl)
  | msgrcv id =>
    cases hc : msgCheck s id with
    | error =>
      simp only [MsgCall.run, msgrcv, hc] at hrun
      cases hrun
      exact ⟨hw, .same⟩
    | ok => exact hrcv (by rw [MsgCall.receiving, hc]; rfl)
  | sndResume => exact hsnd rfl
  | rcvResume w i =>
    simp only [MsgCall.run, msgrcvResume] at hrun
    split at hrun
    · cases hrun
      exact ⟨hw, .same⟩
    · rename_i hi
      split at hrun
      · cases hrun
        exact ⟨hw, .same⟩
      · rename_i hlive
        have hi' : i = false := Bool.eq_false_iff.mpr hi
        subst hi'
        exact hrcv (by simp only [MsgCall.receiving]; rw [if_neg hlive])

/-- The tables after a list of calls, up to the first one that does not come to an end. -/
def MsgState.after (s : MsgState) : List MsgCall → MsgState
  | [] => s
  | call :: calls =>
    match call.run s with
    | .ok (s', _) => s'.after calls
    | .error _ => s

/-- The types that `msgsnd` lets through are positive, and so is every type on a queue. -/
theorem types_positive (hw : WellFormed s) (htypes : ∀ q, ∀ x ∈ s.letters q, 1 ≤ x.type.toInt)
    (hrun : call.run s = .ok (s', o)) : ∀ q, ∀ x ∈ s'.letters q, 1 ≤ x.type.toInt := by
  have heffect := (run_effect hw hrun).2
  generalize s'.letters = c' at heffect ⊢
  have hupdate (p : Fin msgmni) {l : List Letter} (hl : ∀ x ∈ l, 1 ≤ x.type.toInt) :
      ∀ q, ∀ x ∈ update s.letters p l q, 1 ≤ x.type.toInt :=
    (forall_update_iff s.letters fun _ l => ∀ x ∈ l, 1 ≤ x.type.toInt).mpr ⟨hl, fun q _ => htypes q⟩
  cases heffect with
  | same => exact htypes
  | removed q => exact hupdate q (forall_mem_nil _)
  | sent q y htype =>
    exact hupdate q (forall_mem_append.mpr ⟨htypes q, forall_mem_singleton.mpr htype⟩)
  | @received q pre post y hq =>
    refine hupdate q fun x hx => htypes q x ?_
    rw [hq]
    exact (sublist_cons_self y post).append_left pre |>.mem hx

/-- Well-formed tables whose messages are of positive types, as after every run of calls on fresh ones. -/
structure WellTyped (s : MsgState) : Prop where
  wellFormed : WellFormed s
  positive : ∀ q, ∀ x ∈ s.letters q, 1 ≤ x.type.toInt

theorem WellTyped.after (h : WellTyped s) (calls : List MsgCall) : WellTyped (s.after calls) := by
  induction calls generalizing s with
  | nil => exact h
  | cons call calls ih =>
    rw [MsgState.after]
    split
    · rename_i s' o hrun
      exact ih ⟨(run_effect h.wellFormed hrun).1, types_positive h.wellFormed h.positive hrun⟩
    · exact h

/-! ## The message that is selected -/

/-- The message that the manual says is taken: the first one, the first one of type `msgtyp`, or the first
one of the lowest type up to the absolute value of `msgtyp`. -/
def documented (msgtyp : BitVec 32) (l : List Letter) : Option Letter :=
  if msgtyp = 0 then l.head?
  else if 0 < msgtyp.toInt then l.find? (fun x => x.type == msgtyp)
  else
    let low := l.filter (fun x => decide (x.type.toInt ≤ (msgtyp.toInt.natAbs : Int)))
    low.find? (fun x => low.all (fun y => decide (x.type.toInt ≤ y.type.toInt)))

theorem toInt_neg_of_pos {b : BitVec 32} (hb : 0 < b.toInt) : (-b).toInt = -b.toInt := by
  have hlt := toInt_lt (x := b)
  rw [toInt_neg]
  apply Int.bmod_eq_of_le <;> omega

theorem ne_zero_of_toInt {b : BitVec 32} (hb : b.toInt ≠ 0) : b ≠ 0 := by
  rintro rfl
  exact hb rfl

theorem wanted_iff (h0 : msgtyp.toInt ≠ 0) :
    wanted msgtyp type ↔ type = msgtyp ∨ type.toInt ≤ (-msgtyp).toInt := by
  rw [wanted, beq_false_of_ne (ne_zero_of_toInt h0), Bool.false_or, typeMatches, Bool.or_eq_true,
    beq_iff_eq, sle_iff_toInt_le, eq_comm]

theorem wanted_of_pos (hpos : 0 < msgtyp.toInt) :
    wanted msgtyp type ↔ type = msgtyp ∨ type.toInt ≤ -msgtyp.toInt := by
  rw [wanted_iff (by omega), toInt_neg_of_pos hpos]

/-- A negative one asks for all types up to a bound, which is its absolute value unless that has no
32 bits. -/
theorem wanted_of_neg (hneg : msgtyp.toInt < 0) : wanted msgtyp type ↔ type.toInt ≤ (-msgtyp).toInt := by
  rw [wanted_iff (by omega), or_iff_right_iff_imp]
  rintro rfl
  rw [toInt_neg, Int.bmod_def]
  omega

theorem toInt_neg_le_natAbs (b : BitVec 32) : (-b).toInt ≤ (b.toInt.natAbs : Int) := by
  rw [toInt_neg, Int.bmod_def]
  omega

section Selection

variable {msgtyp : BitVec 32} {pre post : List Letter} {x : Letter}

theorem find?_split {p : Letter → Bool} (hpre : ∀ y ∈ pre, p y = false) (hx : p x) :
    (pre ++ x :: post).find? p = some x := by
  rw [find?_append, find?_eq_none.mpr (fun y hy => by simp [hpre y hy]), Option.none_or,
    find?_cons_of_pos hx]

theorem documented_of_pos (hpos : 0 < msgtyp.toInt) (hpre : ∀ y ∈ pre, wanted msgtyp y.type = false)
    (hx : wanted msgtyp x.type) (hxpos : 1 ≤ x.type.toInt) :
    documented msgtyp (pre ++ x :: post) = some x := by
  rw [documented, if_neg (ne_zero_of_toInt (by omega)), if_pos hpos]
  have htype : x.type = msgtyp := by
    rcases (wanted_of_pos hpos).mp hx with htype | hle
    · exact htype
    · omega
  refine find?_split (fun y hy => ?_) (beq_iff_eq.mpr htype)
  refine beq_false_of_ne fun hy' => ?_
  have hwanted := (wanted_of_pos hpos).mpr (.inl hy')
  rw [hpre y hy] at hwanted
  cases hwanted

theorem documented_of_neg (hneg : msgtyp.toInt < 0) (hpre : ∀ y ∈ pre, wanted msgtyp y.type = false)
    (hx : wanted msgtyp x.type) :
    documented msgtyp (pre ++ x :: post) = some x ↔
      ∀ y ∈ pre ++ x :: post, x.type.toInt ≤ y.type.toInt := by
  have hxle := (wanted_of_neg hneg).mp hx
  have hxabs := Int.le_trans hxle (toInt_neg_le_natAbs msgtyp)
  rw [documented, if_neg (ne_zero_of_toInt (by omega)), if_neg (by omega)]
  constructor
  · intro hfound y hy
    have hall := find?_some hfound
    rw [all_eq_true] at hall
    by_cases hyabs : y.type.toInt ≤ (msgtyp.toInt.natAbs : Int)
    · exact of_decide_eq_true (hall y (mem_filter.mpr ⟨hy, decide_eq_true hyabs⟩))
    · omega
  · intro hmin
    rw [filter_append, filter_cons_of_pos (by simpa using hxabs)]
    refine find?_split (fun y hy => ?_) ?_
    · -- what stands in front of `x` is above the bound, and `x` is not
      have hy' := mem_of_mem_filter hy
      have habove : ¬ y.type.toInt ≤ (-msgtyp).toInt := by
        rw [← wanted_of_neg hneg, hpre y hy']
        decide
      rw [all_eq_false]
      exact ⟨x, by simp, by simp only [decide_eq_true_eq]; omega⟩
    · rw [all_eq_true, ← filter_cons_of_pos (by simpa using hxabs), ← filter_append]
      intro y hy
      exact decide_eq_true (hmin y (mem_of_mem_filter hy))

/-- **The first message that is wanted is the documented one** unless a lower type stands behind it where a
negative one was asked for. -/
theorem documented_iff (hpre : ∀ y ∈ pre, wanted msgtyp y.type = false)
    (hx : wanted msgtyp x.type) (hxpos : 1 ≤ x.type.toInt) :
    documented msgtyp (pre ++ x :: post) = some x ↔
      (msgtyp.toInt < 0 → ∀ y ∈ pre ++ x :: post, x.type.toInt ≤ y.type.toInt) := by
  rcases Int.lt_trichotomy msgtyp.toInt 0 with hneg | hzero | hpos
  · rw [documented_of_neg hneg hpre hx]
    exact ⟨fun h _ => h, fun h => h hneg⟩
  · have h0 : msgtyp = 0 := eq_of_toInt_eq hzero
    have hnil : pre = [] := by
      cases pre with
      | nil => rfl
      | cons y =>
        have hy := hpre y (by simp)
        simp [wanted, h0] at hy
    subst hnil
    rw [documented, if_pos h0]
    simp only [nil_append, head?_cons, true_iff]
    exact fun hn => by omega
  · exact iff_of_true (documented_of_pos hpos hpre hx hxpos) fun hn => by omega

end Selection

/-- **What `msgrcv` takes**, after any calls.  One that succeeds takes the first message that it wants out of
its queue, and leaves the others, and their order, and the other queues as they were.  That message is the
documented one unless `msgtyp` is negative and a message of a lower type stands behind it. -/
theorem msgrcv_documented_iff {s₀ : MsgState} {calls : List MsgCall} {id : Id} {a : RcvArgs} {r : Ret}
    {ty : BitVec 32} {out : List UInt8} (h₀ : WellTyped s₀) (hs : s₀.after calls = s)
    (hc : msgCheck s id = .ok q) (hrun : msgrcv s id a = .ok (s', .ret r (.message ty out))) :
    ∃ pre x post, (s.letters q).find? (fun y => wanted a.msgtyp y.type) = some x ∧
      s.letters q = pre ++ x :: post ∧ s'.letters q = pre ++ post ∧
      (∀ p, p ≠ q → s'.letters p = s.letters p) ∧ ty = x.type ∧
      (documented a.msgtyp (s.letters q) = some x ↔
        (a.msgtyp.toInt < 0 → ∀ y ∈ s.letters q, x.type.toInt ≤ y.type.toInt)) := by
  have h : WellTyped s := hs ▸ h₀.after calls
  have hr : (MsgCall.msgrcv id a).receiving s = some (q, a) := by
    rw [MsgCall.receiving, hc]
    rfl
  obtain ⟨t, o, hrun', -, heffect⟩ := run_receiving h.wellFormed hr
  rw [MsgCall.run, hrun] at hrun'
  cases hrun'
  generalize hc' : s'.letters = c' at heffect
  cases heffect with
  | @received pre post x m out' hq hpre hx =>
    have hmem : x ∈ s.letters q := by simp [hq]
    refine ⟨pre, x, post, ?_, hq, update_self .., fun p hp => update_of_ne hp .., rfl, ?_⟩
    · rw [hq]
      exact find?_split hpre hx
    · rw [hq]
      exact documented_iff hpre hx (h.positive q x hmem)

theorem openQueue_wellTyped : WellTyped openQueue where
  wellFormed := openQueue_wellFormed
  positive q x hx := by
    have hnil : ∀ q, openQueue.letters q = [] := by decide
    rw [hnil q] at hx
    cases hx

/-- That queue with two messages, the first of type 3 and the second of type 1. -/
def mixedTypes : MsgState :=
  openQueue.after [.msgsnd 0 ⟨1, 3, fun _ => 0, 0, false⟩, .msgsnd 0 ⟨1, 1, fun _ => 0, 0, false⟩]

/-- A receiver that asks for type 1 there gets it. -/
theorem msgrcv_documented_iff_one :
    ∃ pre x post, (mixedTypes.letters 0).find? (fun y => wanted 1 y.type) = some x ∧
      mixedTypes.letters 0 = pre ++ x :: post ∧
      (mixedTypes.after [.msgrcv 0 ⟨2, 8, 1, false, false⟩]).letters 0 = pre ++ post ∧
      (∀ p, p ≠ 0 → (mixedTypes.after [.msgrcv 0 ⟨2, 8, 1, false, false⟩]).letters p =
        mixedTypes.letters p) ∧ 1 = x.type ∧
      (documented 1 (mixedTypes.letters 0) = some x ↔
        ((1 : BitVec 32).toInt < 0 → ∀ y ∈ mixedTypes.letters 0, x.type.toInt ≤ y.type.toInt)) := by
  have hc : msgCheck mixedTypes 0 = .ok 0 := rfl
  have hrun : msgrcv mixedTypes 0 ⟨2, 8, 1, false, false⟩ =
      .ok (mixedTypes.after [.msgrcv 0 ⟨2, 8, 1, false, false⟩],
        .ret (plainReturn 0) (.message 1 [])) := rfl
  exact msgrcv_documented_iff openQueue_wellTyped rfl hc hrun

/-- **A lower type is passed over**: asked for a type of up to 5 in that queue, the code takes the message
of type 3 and leaves the one of type 1. -/
theorem lower_type_left :
    WellFormed mixedTypes ∧ (mixedTypes.letters 0).map Letter.type = [3, 1] ∧
      (documented (-5) (mixedTypes.letters 0)).map Letter.type = some 1 ∧
      msgrcv mixedTypes 0 ⟨2, 8, -5, false, false⟩ =
        .ok (mixedTypes.after [.msgrcv 0 ⟨2, 8, -5, false, false⟩],
          .ret (plainReturn 0) (.message 3 [])) ∧
      ((mixedTypes.after [.msgrcv 0 ⟨2, 8, -5, false, false⟩]).letters 0).map Letter.type = [1] :=
  ⟨(openQueue_wellTyped.after _).wellFormed, by decide, by decide, rfl, by decide⟩

/-! ## What the receiver gets -/

/-- A step of the tables after which header `h` is on queue `q`. -/
def StaysOn (q : Fin msgmni) (h : Nat) (s s' : MsgState) : Prop :=
  (∃ call o, MsgCall.run s call = .ok (s', o)) ∧ h ∈ s'.headers q

/-- The header of the first message that a receiver wants. -/
def MsgState.selects (s : MsgState) (q : Fin msgmni) (a : RcvArgs) : Option Nat :=
  ((s.letters q).find? (fun y => wanted a.msgtyp y.type)).map Letter.hdr

theorem CallEffect.mem (he : CallEffect c c') (hnd : ((c q).map Letter.hdr).Nodup)
    (hx : x ∈ c q) (hm : x.hdr ∈ (c' q).map Letter.hdr) : x ∈ c' q := by
  have hupdate (p : Fin msgmni) {l : List Letter} (hl : q = p → x.hdr ∈ l.map Letter.hdr → x ∈ l)
      (hm : x.hdr ∈ (update c p l q).map Letter.hdr) : x ∈ update c p l q := by
    by_cases hpq : q = p
    · subst hpq
      rw [update_self] at hm ⊢
      exact hl rfl hm
    · rwa [update_of_ne hpq]
  cases he with
  | same => exact hx
  | removed p => exact hupdate p (fun _ hm => absurd hm not_mem_nil) hm
  | sent p => exact hupdate p (fun hpq _ => mem_append_left _ (hpq ▸ hx)) hm
  | @received p pre post y hq =>
    refine hupdate p (fun hpq hl => ?_) hm
    subst hpq
    rw [hq] at hnd hx
    have hxy : x ≠ y := by
      rintro rfl
      rw [map_append] at hnd hl
      exact (nodup_middle.mp hnd).notMem hl
    simp only [mem_append, mem_cons] at hx ⊢
    rcases hx with hx | hx | hx
    · exact .inl hx
    · exact absurd hx hxy
    · exact .inr hx

/-- **A message that stays on its queue stays as it is**, whatever the calls. -/
theorem StaysOn.letter_mem (hw : WellFormed s) (hx : x ∈ s.letters q)
    (hrun : Relation.ReflTransGen (StaysOn q x.hdr) s s') : WellFormed s' ∧ x ∈ s'.letters q := by
  induction hrun with
  | refl => exact ⟨hw, hx⟩
  | tail _ hstep ih =>
    obtain ⟨⟨call, o, hcall⟩, hstays⟩ := hstep
    obtain ⟨hw', heffect⟩ := run_effect ih.1 hcall
    rw [← map_hdr_letters] at hstays
    exact ⟨hw', heffect.mem (ih.1.nodup_hdr q) ih.2 hstays⟩

theorem length_body (a : SndArgs) : a.body.length = a.msgsz.toNat := by
  simp [SndArgs.body]

theorem run_receiving_selected {b : RcvArgs} (hw : WellFormed s) (hx : x ∈ s.letters q)
    (hr : call.receiving s = some (q, b)) (hsel : s.selects q b = some x.hdr) (hfits : Fits b x) :
    ∃ s' m out, call.run s = .ok (s', .ret (plainReturn (m : Nat)) (.message x.type out)) ∧
      Delivered b x m out := by
  obtain ⟨y, hy, hhdr⟩ := Option.map_eq_some_iff.mp hsel
  have hyx : y = x :=
    inj_on_of_nodup_map (hw.nodup_hdr q) (mem_of_find?_eq_some hy) hx hhdr
  rw [hyx] at hy
  obtain ⟨s', o, hrun, -, heffect⟩ := run_receiving hw hr
  generalize s'.letters = c' at heffect
  cases heffect with
  | failed e hno => exact absurd hfits (hno x hy)
  | asleep w hno =>
    rw [hno] at hy
    cases hy
  | @received pre post z m out hq hpre hz hfits' hout =>
    have hzx : z = x := by
      rw [hq, find?_split hpre hz] at hy
      exact Option.some.inj hy
    subst hzx
    exact ⟨s', m, out, hrun, hout⟩

/-- **What was sent is received.**  A message that `msgsnd` has queued is in the last header of its queue;
a later `msgrcv` that selects it there, and allows its size or its truncation, returns the number of bytes
that were sent or that were asked for, whichever is less, and these bytes are those that were sent.  No
other byte is written exactly if they end with a segment or in the first one. -/
theorem msgrcv_gets_sent {a : SndArgs} (hw : WellFormed s) (hs : call.sending s = some (q, a))
    (hrun : call.run s = .ok (s', .plain (plainReturn 0))) :
    ∃ h, s'.headers q = s.headers q ++ [h] ∧
      ∀ (t : MsgState) (call' : MsgCall) (b : RcvArgs), Relation.ReflTransGen (StaysOn q h) s' t →
        call'.receiving t = some (q, b) → t.selects q b = some h →
        (a.msgsz.toNat ≤ b.msgsz.toNat ∨ b.noerror = true) →
        ∃ t' m out, call'.run t = .ok (t', .ret (plainReturn (m : Nat)) (.message a.type out)) ∧
          m = min a.msgsz.toNat b.msgsz.toNat ∧ out.take m = a.body.take m ∧
          (out.length = m ↔ m ≤ msgssz ∨ msgssz ∣ m) := by
  obtain ⟨hw', heffect⟩ := run_sending hw hs hrun
  generalize hc' : s'.letters = c' at heffect
  cases heffect with
  | sent h =>
    have hlast : s'.letters q = s.letters q ++ [⟨h, a.type, a.body⟩] := by
      rw [hc', update_self]
    refine ⟨h, ?_, ?_⟩
    · rw [← map_hdr_letters, ← map_hdr_letters, hlast, map_append, map_singleton]
    · intro t call' b hstays hr hsel hfits
      obtain ⟨x, hx⟩ : ∃ x : Letter, x = ⟨h, a.type, a.body⟩ := ⟨_, rfl⟩
      have hmem : x ∈ s'.letters q := by
        rw [hlast, hx]
        exact mem_append_right _ (mem_singleton_self _)
      have hhdr : x.hdr = h := by rw [hx]
      rw [← hhdr] at hstays hsel
      obtain ⟨hwt, hxt⟩ := StaysOn.letter_mem hw' hmem hstays
      have hxfits : Fits b x := by
        rw [Fits, hx, length_body]
        exact hfits
      obtain ⟨t', m, out, hrun', hout⟩ := run_receiving_selected hwt hxt hr hsel hxfits
      refine ⟨t', m, out, ?_, ?_, ?_, ?_⟩
      · rw [hrun', hx]
      · rw [hout.size, hx, length_body]
      · rw [hout.text, hx]
      · rw [hout.length]
        exact copied_eq_iff m

/-- A message of twelve bytes. -/
def twelveBytes : SndArgs := ⟨1, 1, fun i => UInt8.ofNat (i + 1), 12, false⟩

theorem msgrcv_gets_sent_twelve :
    ∃ h, (openQueue.after [.msgsnd 0 twelveBytes]).headers 0 = openQueue.headers 0 ++ [h] ∧
      ∀ (t : MsgState) (call' : MsgCall) (b : RcvArgs),
        Relation.ReflTransGen (StaysOn 0 h) (openQueue.after [.msgsnd 0 twelveBytes]) t →
        call'.receiving t = some (0, b) → t.selects 0 b = some h →
        (twelveBytes.msgsz.toNat ≤ b.msgsz.toNat ∨ b.noerror = true) →
        ∃ t' m out, call'.run t = .ok (t', .ret (plainReturn (m : Nat)) (.message 1 out)) ∧
          m = min twelveBytes.msgsz.toNat b.msgsz.toNat ∧ out.take m = twelveBytes.body.take m ∧
          (out.length = m ↔ m ≤ msgssz ∨ msgssz ∣ m) := by
  have hs : (MsgCall.msgsnd 0 twelveBytes).sending openQueue = some (0, twelveBytes) := rfl
  have hrun : (MsgCall.msgsnd 0 twelveBytes).run openQueue =
      .ok (openQueue.after [.msgsnd 0 twelveBytes], .plain (plainReturn 0)) := rfl
  exact msgrcv_gets_sent openQueue_wellFormed hs hrun

/-- **Four bytes too many**: received into a buffer of twelve bytes, the message of twelve bytes is
followed by the rest of its second segment. -/
theorem sixteen_bytes_written :
    WellFormed openQueue ∧
      msgsnd openQueue 0 twelveBytes =
        .ok (openQueue.after [.msgsnd 0 twelveBytes], .plain (plainReturn 0)) ∧
      ∃ s', msgrcv (openQueue.after [.msgsnd 0 twelveBytes]) 0 ⟨2, 12, 0, false, false⟩ =
        .ok (s', .ret (plainReturn 12)
          (.message 1 [1, 2, 3, 4, 5, 6, 7, 8, 9, 10, 11, 12, 0, 0, 0, 0])) :=
  ⟨openQueue_wellFormed, rfl, _, rfl⟩

end Ixemul.Ipc
