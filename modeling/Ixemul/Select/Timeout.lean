/-
# Ixemul.Select.Timeout — how long `ix_select` waits (select.c, __fselect.c).

Every pass of the loop sends the timer request for the whole of the timeout, has the descriptors send their
packets, and waits for a signal; if the timer has not run out by then, the request is taken back and the
next pass begins.  A console answers a packet within ten seconds, whether there is a character or not, and
traffic on a pipe wakes its selectors.  So the time that has passed is forgotten each time.

Times are in microseconds from the call on.  Callbacks take no time, no descriptor becomes ready and no
other signal comes.

`Ixemul.Select.Model` has the same loop with the sets it works on and what the callbacks answer, and nothing
of time: there a pass is given as what `Wait` returned, here as when it did.  A pass that finds nothing ready
leaves the sets of that module alone, so under the assumption above they are not needed here.
-/
import Mathlib.Data.List.MinMax

namespace Ixemul.Select.Timeout

open List

/-! ## Descriptors -/

/-- The wait time that ACTION_WAIT_CHAR is sent with. -/
def waitTime : Nat := 10 * 1000000

/-- A handler, with the time it takes to answer each packet. -/
structure Handler where
  delay : Nat → Nat
  delay_le : ∀ j, delay j ≤ waitTime

/-- A selected descriptor.  `replyAt` is when the packet is answered that is in use, `sent` how many were sent
before; `traffic` are the times of the signals that others send on a pipe or socket, in the order in which
they are taken, and `seen` how many were. -/
inductive Desc where
  | console (h : Handler) (sent : Nat) (replyAt : Option Nat)
  | stream (traffic : Nat → Option Nat) (seen : Nat)

namespace Desc

/-- SELCMD_PREPARE: a packet is sent, unless one is in use. -/
def prepare (now : Nat) : Desc → Desc
  | .console h sent none => .console h (sent + 1) (some (now + h.delay sent))
  | d => d

/-- When the descriptor signals next. -/
def nextSignal : Desc → Option Nat
  | .console _ _ replyAt => replyAt
  | .stream traffic seen => traffic seen

/-- What has signalled: the packet is no longer in use (`handle_select_port`), the signal is cleared. -/
def collect (now : Nat) : Desc → Desc
  | .console h sent (some r) => .console h sent (if r ≤ now then none else some r)
  | .console h sent none => .console h sent none
  | .stream traffic seen =>
    match traffic seen with
    | some r => .stream traffic (if r ≤ now then seen + 1 else seen)
    | none => .stream traffic seen

end Desc

/-! ## The loop -/

structure State where
  now : Nat
  descs : List Desc

/-- When Wait returns: for a signal of a descriptor, or for the timer. -/
def wait (t now : Nat) (ds : List Desc) : Nat :=
  match (ds.filterMap Desc.nextSignal).min? with
  | some r => min (max now r) (now + t)
  | none => now + t

/-- The loop of `ix_select`, from the second pass on: when it returns 0, if it does within `fuel` passes. -/
def selectLoop (t : Nat) : Nat → State → Option Nat
  | 0, _ => none
  | fuel + 1, y =>
    let ds := y.descs.map (Desc.prepare y.now)
    let now := wait t y.now ds
    -- CheckIO: the timer request is done
    if y.now + t ≤ now then some now
    else selectLoop t fuel ⟨now, ds.map (Desc.collect now)⟩

/-- The first pass only polls, and finds nothing. -/
def ixSelect (t fuel : Nat) (descs : List Desc) : Option Nat := selectLoop t fuel ⟨0, descs⟩

/-! ## One pass -/

section

variable {t now : Nat} {d : Desc} {ds : List Desc}

theorem wait_some {m : Nat} (h : (ds.filterMap Desc.nextSignal).min? = some m) :
    wait t now ds = min (max now m) (now + t) := by
  rw [wait, h]

theorem wait_none (h : (ds.filterMap Desc.nextSignal).min? = none) : wait t now ds = now + t := by
  rw [wait, h]

theorem wait_bounds (t now : Nat) (ds : List Desc) : now ≤ wait t now ds ∧ wait t now ds ≤ now + t := by
  unfold wait
  split <;> omega

theorem le_wait_iff (ht : 0 < t) :
    now + t ≤ wait t now ds ↔ ∀ d ∈ ds, ∀ r, d.nextSignal = some r → now + t ≤ r := by
  cases hmin : (ds.filterMap Desc.nextSignal).min? with
  | none =>
    rw [wait_none hmin]
    rw [min?_eq_none_iff, filterMap_eq_nil_iff] at hmin
    refine iff_of_true le_rfl fun d hd r hr => ?_
    rw [hmin d hd] at hr
    cases hr
  | some m =>
    rw [wait_some hmin]
    rw [min?_eq_some_iff] at hmin
    obtain ⟨hmem, hle⟩ := hmin
    constructor
    · intro h d hd r hr
      have := hle r (mem_filterMap.mpr ⟨d, hd, hr⟩)
      omega
    · intro h
      obtain ⟨d, hd, hr⟩ := mem_filterMap.mp hmem
      have := h d hd m hr
      omega

theorem wait_of_lt (h : ¬ now + t ≤ wait t now ds) :
    ∃ d ∈ ds, ∃ r, d.nextSignal = some r ∧ wait t now ds = max now r := by
  cases hmin : (ds.filterMap Desc.nextSignal).min? with
  | none =>
    rw [wait_none hmin] at h
    exact absurd le_rfl h
  | some m =>
    rw [wait_some hmin] at h ⊢
    rw [min?_eq_some_iff] at hmin
    obtain ⟨d, hd, hr⟩ := mem_filterMap.mp hmin.1
    exact ⟨d, hd, m, hr, by omega⟩

theorem selectLoop_done {y : State} (h : y.now + t ≤ wait t y.now (y.descs.map (Desc.prepare y.now)))
    (fuel : Nat) : selectLoop t (fuel + 1) y = some (y.now + t) := by
  have hle := (wait_bounds t y.now (y.descs.map (Desc.prepare y.now))).2
  rw [selectLoop]
  simp only [if_pos h]
  rw [le_antisymm hle h]

theorem selectLoop_again {y : State} (h : ¬ y.now + t ≤ wait t y.now (y.descs.map (Desc.prepare y.now)))
    (fuel : Nat) :
    selectLoop t (fuel + 1) y =
      selectLoop t fuel ⟨wait t y.now (y.descs.map (Desc.prepare y.now)),
        (y.descs.map (Desc.prepare y.now)).map
          (Desc.collect (wait t y.now (y.descs.map (Desc.prepare y.now))))⟩ := by
  rw [selectLoop]
  simp only [if_neg h]

theorem selectLoop_le {fuel : Nat} {y : State} {T : Nat} (h : selectLoop t fuel y = some T) :
    y.now + t ≤ T := by
  induction fuel generalizing y with
  | zero => cases h
  | succ fuel ih =>
    by_cases hdone : y.now + t ≤ wait t y.now (y.descs.map (Desc.prepare y.now))
    · rw [selectLoop_done hdone] at h
      exact (Option.some.inj h).le
    · rw [selectLoop_again hdone] at h
      have hlater := ih h
      have hnow := (wait_bounds t y.now (y.descs.map (Desc.prepare y.now))).1
      exact le_trans (Nat.add_le_add_right hnow t) hlater

theorem prepare_prepare (now : Nat) (d : Desc) : (d.prepare now).prepare now = d.prepare now := by
  cases d with
  | console h sent replyAt => cases replyAt <;> rfl
  | stream => rfl

theorem collect_of_later (h : ∀ r, d.nextSignal = some r → now < r) : d.collect now = d := by
  cases d with
  | console hd sent replyAt =>
    cases replyAt with
    | none => rfl
    | some r =>
      have hlt : ¬ r ≤ now := not_le.mpr (h r rfl)
      simp only [Desc.collect, hlt, if_false]
  | stream traffic seen =>
    cases hr : traffic seen with
    | none => simp only [Desc.collect, hr]
    | some r =>
      have hlt : ¬ r ≤ now := not_le.mpr (h r hr)
      simp only [Desc.collect, hr, hlt, if_false]

end

/-! ## Signals that come at once -/

/-- The descriptor signals `n` times at once, and then not before `t`. -/
def QuietIn (t : Nat) : Nat → Desc → Prop
  | 0, d => ∀ r, (d.prepare 0).nextSignal = some r → t ≤ r
  | n + 1, d => (d.prepare 0).nextSignal = some 0 ∧ QuietIn t n ((d.prepare 0).collect 0)

/-- All signals of the descriptor before `t` come at once. -/
def Quiet (t : Nat) (d : Desc) : Prop := ∃ n, QuietIn t n d

theorem quietIn_prepare (t n : Nat) (d : Desc) : QuietIn t n (d.prepare 0) ↔ QuietIn t n d := by
  cases n <;> simp only [QuietIn, prepare_prepare]

section

variable {t : Nat} (ht : 0 < t)

include ht

theorem quietIn_collect {n N : Nat} {d : Desc} (h : QuietIn t n d) (hn : n ≤ N + 1) :
    ∃ m ≤ N, QuietIn t m ((d.prepare 0).collect 0) := by
  cases n with
  | zero =>
    refine ⟨0, Nat.zero_le _, ?_⟩
    rw [collect_of_later fun r hr => lt_of_lt_of_le ht (h r hr), quietIn_prepare]
    exact h
  | succ n => exact ⟨n, by omega, h.2⟩

theorem selectLoop_of_quietIn (N : Nat) {ds : List Desc} (h : ∀ d ∈ ds, ∃ n ≤ N, QuietIn t n d) :
    selectLoop t (N + 1) ⟨0, ds⟩ = some t := by
  induction N generalizing ds with
  | zero =>
    have hlate : 0 + t ≤ wait t 0 (ds.map (Desc.prepare 0)) := by
      rw [le_wait_iff ht, forall_mem_map]
      intro d hd r hr
      obtain ⟨n, hn, hq⟩ := h d hd
      obtain rfl : n = 0 := by omega
      have hle : t ≤ r := hq r hr
      omega
    rw [@selectLoop_done t ⟨0, ds⟩ hlate 0]
    simp
  | succ N ih =>
    by_cases hlate : 0 + t ≤ wait t 0 (ds.map (Desc.prepare 0))
    · rw [@selectLoop_done t ⟨0, ds⟩ hlate (N + 1)]
      simp
    · -- one of them signals before t, and so at once
      have hzero : wait t 0 (ds.map (Desc.prepare 0)) = 0 := by
        obtain ⟨d', hd', r, hr, hwait⟩ := wait_of_lt hlate
        obtain ⟨d, hd, rfl⟩ := mem_map.mp hd'
        obtain ⟨n, -, hq⟩ := h d hd
        cases n with
        | zero =>
          have hle : t ≤ r := hq r hr
          omega
        | succ =>
          obtain rfl : r = 0 := Option.some.inj (hr.symm.trans hq.1)
          simpa using hwait
      rw [@selectLoop_again t ⟨0, ds⟩ hlate (N + 1)]
      simp only [hzero]
      apply ih
      rw [forall_mem_map, forall_mem_map]
      intro d hd
      obtain ⟨n, hn, hq⟩ := h d hd
      exact quietIn_collect ht hq hn

theorem quiet_of_selectLoop (fuel : Nat) {ds : List Desc} (h : selectLoop t fuel ⟨0, ds⟩ = some t) :
    ∀ d ∈ ds, Quiet t d := by
  induction fuel generalizing ds with
  | zero => cases h
  | succ fuel ih =>
    by_cases hlate : 0 + t ≤ wait t 0 (ds.map (Desc.prepare 0))
    · intro d hd
      refine ⟨0, fun r hr => ?_⟩
      have hle := (le_wait_iff ht).mp hlate (d.prepare 0) (mem_map_of_mem hd) r hr
      omega
    · rw [@selectLoop_again t ⟨0, ds⟩ hlate fuel] at h
      -- a later end of this pass would make the last one end after t
      have hzero : wait t 0 (ds.map (Desc.prepare 0)) = 0 := by
        have hle := selectLoop_le h
        simp only at hle
        omega
      rw [hzero] at h
      have hrest := ih h
      rw [forall_mem_map, forall_mem_map] at hrest
      intro d hd
      obtain ⟨n, hq⟩ := hrest d hd
      by_cases hnow : (d.prepare 0).nextSignal = some 0
      · exact ⟨n + 1, hnow, hq⟩
      · have hlater : ∀ r, (d.prepare 0).nextSignal = some r → 0 < r := by
          intro r hr
          rcases Nat.eq_zero_or_pos r with rfl | hpos
          · exact absurd hr hnow
          · exact hpos
        rw [collect_of_later hlater, quietIn_prepare] at hq
        exact ⟨n, hq⟩

end

/-- **The timeout of select**: with no descriptor ready, `ix_select` returns 0 after having waited `t`
in total exactly if no descriptor signals before `t` other than at once. -/
theorem ixSelect_waits_iff {t : Nat} (ht : 0 < t) (descs : List Desc) :
    (∃ fuel, ixSelect t fuel descs = some t) ↔ ∀ d ∈ descs, Quiet t d := by
  constructor
  · rintro ⟨fuel, h⟩
    exact quiet_of_selectLoop ht fuel h
  · intro h
    -- a bound for the signals at once of all of them
    have hbound : ∃ N, ∀ d ∈ descs, ∃ n ≤ N, QuietIn t n d := by
      induction descs with
      | nil => exact ⟨0, forall_mem_nil _⟩
      | cons d ds ih =>
        rw [forall_mem_cons] at h
        obtain ⟨n, hn⟩ := h.1
        obtain ⟨N, hN⟩ := ih h.2
        refine ⟨max n N, forall_mem_cons.mpr ⟨⟨n, le_max_left _ _, hn⟩, fun d' hd' => ?_⟩⟩
        obtain ⟨m, hm, hq⟩ := hN d' hd'
        exact ⟨m, le_trans hm (le_max_right _ _), hq⟩
    obtain ⟨N, hN⟩ := hbound
    exact ⟨N + 1, selectLoop_of_quietIn ht N hN⟩

/-- A console that lets the ten seconds pass. -/
def silent : Handler := ⟨fun _ => waitTime, fun _ => Nat.le_refl _⟩

/-- Five seconds, on a console and on a pipe with a signal that was there when the call was made. -/
theorem ixSelect_waits_iff_five :
    ∃ fuel, ixSelect 5000000 fuel
      [.console silent 0 none, .stream (fun k => if k = 0 then some 0 else none) 0] = some 5000000 := by
  refine (ixSelect_waits_iff (by decide) _).mpr ?_
  rw [forall_mem_cons, forall_mem_singleton]
  refine ⟨⟨0, fun r hr => ?_⟩, ⟨1, rfl, fun r hr => ?_⟩⟩
  · have hr' : 0 + waitTime = r := Option.some.inj hr
    rw [← hr']
    decide
  · cases hr

/-- With a console and more than ten seconds the loop has no end: the packet is always answered before
the timer runs out, and with each answer the time starts anew. -/
theorem selectLoop_console {t : Nat} (ht : waitTime < t) (h : Handler) (fuel : Nat) {y : State}
    (hd : ∃ sent replyAt, Desc.console h sent replyAt ∈ y.descs ∧
      ∀ r, replyAt = some r → r ≤ y.now + waitTime) :
    selectLoop t fuel y = none := by
  induction fuel generalizing y with
  | zero => rfl
  | succ fuel ih =>
    obtain ⟨sent, replyAt, hmem, hreply⟩ := hd
    -- the packet that is in use, or is sent now
    obtain ⟨sent', r, hprep, hr⟩ : ∃ sent' r,
        (Desc.console h sent replyAt).prepare y.now = .console h sent' (some r) ∧ r ≤ y.now + waitTime := by
      cases replyAt with
      | some r => exact ⟨sent, r, rfl, hreply r rfl⟩
      | none => exact ⟨sent + 1, _, rfl, Nat.add_le_add_left (h.delay_le sent) _⟩
    have hmem' : Desc.console h sent' (some r) ∈ y.descs.map (Desc.prepare y.now) :=
      mem_map.mpr ⟨_, hmem, hprep⟩
    have hagain : ¬ y.now + t ≤ wait t y.now (y.descs.map (Desc.prepare y.now)) := by
      intro hle
      have := (le_wait_iff (Nat.zero_lt_of_lt ht)).mp hle _ hmem' r rfl
      omega
    rw [selectLoop_again hagain]
    have hnow := (wait_bounds t y.now (y.descs.map (Desc.prepare y.now))).1
    refine ih ⟨sent', _, mem_map_of_mem hmem', fun r' hr' => ?_⟩
    split at hr'
    · cases hr'
    · obtain rfl := Option.some.inj hr'
      exact le_trans hr (Nat.add_le_add_right hnow _)

/-- Fifteen seconds: on a console where nobody types, `ix_select` never returns; with one signal on a
pipe after ten seconds it returns after twenty-five. -/
theorem ixSelect_waits_longer :
    (∀ fuel, ixSelect 15000000 fuel [.console silent 0 none] = none) ∧
      ixSelect 15000000 2 [.stream (fun k => if k = 0 then some 10000000 else none) 0] = some 25000000 := by
  refine ⟨fun fuel => ?_, by decide⟩
  refine selectLoop_console (by decide) silent fuel ⟨0, none, mem_cons_self, fun r hr => ?_⟩
  cases hr

end Ixemul.Select.Timeout
