/-
# Ixemul.Ipc.MsgSafe — every call on the message tables keeps them well formed and never panics.

The calls on queues (`MsgQueue`) and on messages (`MsgTransfer`) put together, calls that go on after a
sleep included.  What the tables do not say is how large `msg_qbytes` may be: the calls are safe as long
as no queue allows 2^32 - 7 bytes or more (`QbytesBounded`), which is what every call keeps.
-/
import Ixemul.Ipc.MsgTransfer

namespace Ixemul.Ipc

variable {s : MsgState}

/-! ## All calls -/

/-- A call that ends well keeps the bound on the limits. -/
theorem EndsWell.bounded {r : Except Abort (MsgState × MsgOutcome)} (he : EndsWell s r)
    (hb : QbytesBounded s) : ∃ s' o, r = .ok (s', o) ∧ WellFormed s' ∧ QbytesBounded s' := by
  obtain ⟨s', o, hr, hw, hq⟩ := he
  exact ⟨s', o, hr, hw, fun p => by rw [hq p]; exact hb p⟩

theorem msgsndRound_endsWell {L : Layout} {q : Fin msgmni} (a : SndArgs) (w : WellFormedBy s L)
    (hq : (s.msqids q).qbytes ≠ 0) (hb : (s.msqids q).qbytes ≤ 2 ^ 32 - 8) :
    EndsWell s (msgsndRound s q a) := by
  rcases msgsndRound_endsWith a w hq with he | ⟨hhuge, -⟩
  · exact he.endsWell
  · exact absurd hhuge (not_lt.mpr hb)

theorem msgsnd_endsWell (id : Id) (a : SndArgs) (hw : WellFormed s) (hb : QbytesBounded s) :
    EndsWell s (msgsnd s id a) := by
  obtain ⟨L, w⟩ := hw
  unfold msgsnd
  cases hc : msgCheck s id with
  | error => exact .same w _
  | ok q => exact msgsndRound_endsWell a w (msgCheck_live hc) (hb q)

theorem msgrcv_endsWell (id : Id) (a : RcvArgs) (hw : WellFormed s) : EndsWell s (msgrcv s id a) := by
  obtain ⟨L, w⟩ := hw
  unfold msgrcv
  cases hc : msgCheck s id with
  | error => exact .same w _
  | ok => exact (msgrcvRound_endsWith a w (msgCheck_live hc)).endsWell

theorem msgsndResume_endsWell (wt : SndWaiting) (i : Bool) (hw : WellFormed s) (hb : QbytesBounded s) :
    EndsWell s (msgsndResume s wt i) := by
  obtain ⟨L, w⟩ := hw
  have w1 := (w.unlockedBy wt).1
  have hqb := SameQbytes.unlockedBy s wt
  fun_cases msgsndResume s wt i with
  | case1 | case2 => exact ⟨_, _, rfl, ⟨L, w1⟩, hqb⟩
  | case3 _ _ hlive =>
    obtain ⟨s2, o, hrun, hw2, hqb2⟩ := msgsndRound_endsWell wt.args w1 hlive (by rw [hqb]; exact hb _)
    exact ⟨s2, o, hrun, hw2, hqb.trans hqb2⟩

theorem msgrcvResume_endsWell (wt : RcvWaiting) (i : Bool) (hw : WellFormed s) :
    EndsWell s (msgrcvResume s wt i) := by
  obtain ⟨L, w⟩ := hw
  fun_cases msgrcvResume s wt i with
  | case1 | case2 => exact .same w _
  | case3 _ _ hlive => exact (msgrcvRound_endsWith wt.args w (fun h0 => hlive (.inl h0))).endsWell

/-- **The message tables stay well formed and no call panics.**  `msginit` sets them up, whatever was
there before; from well-formed tables in which no queue allows 2^32 - 7 bytes or more, every call, and
every call that goes on after a sleep, comes to an end in such tables. -/
theorem msg_wellFormed :
    (∀ s, ∃ s', msginit s = .ok s' ∧ WellFormed s' ∧ QbytesBounded s') ∧
      ∀ (s : MsgState) (c : MsgCall), WellFormed s → QbytesBounded s →
        ∃ s' o, c.run s = .ok (s', o) ∧ WellFormed s' ∧ QbytesBounded s' := by
  constructor
  · intro s
    obtain ⟨s', hrun, hw, hq⟩ := msginit_wellFormed s
    exact ⟨s', hrun, hw, fun q => by rw [hq q]; exact Nat.zero_le _⟩
  · intro s c hw hb
    cases c with
    | msgget cred key flg =>
      obtain ⟨L, w⟩ := hw
      exact ⟨_, _, rfl, ⟨L, (msgget_spec cred key flg w).1⟩, msgget_bounded cred key flg hb⟩
    | msgctl cred id cmd =>
      obtain ⟨L, w⟩ := hw
      obtain ⟨s', o, L', hrun, w', hb', -⟩ := msgctl_spec cred id cmd w
      exact ⟨s', o, hrun, ⟨L', w'⟩, hb' hb⟩
    | msgsnd id a => exact (msgsnd_endsWell id a hw hb).bounded hb
    | msgrcv id a => exact (msgrcv_endsWell id a hw).bounded hb
    | sndResume w i => exact (msgsndResume_endsWell w i hw hb).bounded hb
    | rcvResume w i => exact (msgrcvResume_endsWell w i hw).bounded hb

/-- A message of twelve bytes, which takes two segments, is sent to an open queue. -/
theorem msg_wellFormed_send :
    ∃ s' o, (MsgCall.msgsnd 0 ⟨1, 1, fun _ => 7, 12, false⟩).run openQueue = .ok (s', o) ∧
      WellFormed s' ∧ QbytesBounded s' := by
  obtain ⟨s', hrun, -, hb⟩ := msg_wellFormed.1 msgZero
  cases hrun
  exact msg_wellFormed.2 openQueue _ openQueue_wellFormed (hb.setQueue (by decide))

/-- Fresh tables but for one queue, which allows as many bytes as 32 bits can say. -/
def hugeQueue : MsgState :=
  msgInitial.setQueue 0 ⟨IpcPerm.zero, none, none, 0, 0, 2 ^ 32 - 1, 0, 0⟩

/-- **Well-formed tables alone do not rule a panic out**: in tables that allow it, a message of
2^32 - 1 bytes asks for no segment at all, and copying its first byte panics. -/
theorem hugeQueue_panics :
    WellFormed hugeQueue ∧
      (MsgCall.msgsnd 0 ⟨1, 1, fun _ => 0, 0xffffffff, false⟩).run hugeQueue =
        .error (.panic .nextTooLow2) := by
  constructor
  · exact msgInitial_create rfl rfl rfl rfl (by decide)
  · rfl

end Ixemul.Ipc
