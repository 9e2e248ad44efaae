/-
# Ixemul.Proc.Selector — which children a `wait4` is about.

The three loops of `wait4` do not agree.  For 0, the children in the process group of the caller,
`possible_childs` lets every child pass, and the loop over the stopped children those of group 0 as well; for
a process that loop lets pass the children whose `p_pgrp` is the negated `pid`, which `setpgid` allows.  The
module says what a pass of `wait4` should end with and when it does.
-/
import Ixemul.Proc.Reap

namespace Ixemul.Proc

open List

variable {P : Type*} [DecidableEq P]

namespace Procs

/-- A death message fits. -/
def Dead (s : Procs P) (me : P) (pid : WaitPid P) : Prop :=
  ∃ dm ∈ (s.user me).zombies, pid.fits (s.user me).pgrp dm.child dm.pgrp = true

/-- `pid` means the child `c`. -/
def Meant (s : Procs P) (me : P) (pid : WaitPid P) (c : P) : Prop :=
  pid.fits (s.user me).pgrp c (s.user c).pgrp = true

/-- A child that nobody has waited for is meant. -/
def Awaited (s : Procs P) (kids : List P) (me : P) (pid : WaitPid P) : Prop :=
  ∃ c ∈ kids, (s.user c).stat ≠ .zomb ∧ s.Meant me pid c

/-- What a pass of `wait4 (pid, ..)` is to end with. -/
@[mk_iff]
structure Selects (s : Procs P) (kids : List P) (me : P) (pid : WaitPid P) (nohang : Bool)
    (r : WaitResult P) : Prop where
  echild : r = .echild ↔ ¬ s.Dead me pid ∧ ¬ s.Awaited kids me pid
  exited : ∀ c, r = .exited c →
    ∃ dm ∈ (s.user me).zombies, dm.child = c ∧ pid.fits (s.user me).pgrp c dm.pgrp = true
  stopped : ∀ c, r = .stopped c → c ∈ kids ∧ s.Meant me pid c
  zero : r = .zero → nohang = true

/-- A stopped child that nobody was told of, as far as the options let it pass. -/
def Stopped (s : Procs P) (untraced : Bool) (c : P) : Prop :=
  (s.user c).stat = .stop ∧ (s.user c).swted = false ∧ ((s.user c).strc ∨ untraced)

/-- A child that passes in the loop over the stopped ones and is not meant: its `p_pgrp` is `-pid`. -/
def Stray (s : Procs P) (me : P) (pid : WaitPid P) (c : P) : Prop :=
  match pid with
  | .myGroup => (s.user c).pgrp = 0 ∧ (s.user c).pgrp ≠ (s.user me).pgrp
  | .proc p number => p ≠ c ∧ (s.user c).pgrp = -number
  | _ => False

/-- The loops agree: there is a message; or each stopped child that is not meant has one that is meant before
it, and for the group of the caller a child that is not SZOMB comes with one of that group. -/
def Agrees (s : Procs P) (kids : List P) (me : P) (pid : WaitPid P) (untraced : Bool) : Prop :=
  s.Dead me pid ∨
    (∀ before d after, kids = before ++ d :: after → s.Stopped untraced d → s.Stray me pid d →
      ∃ c ∈ before, s.Stopped untraced c ∧ s.Meant me pid c) ∧
    (pid = .myGroup → (∃ c ∈ kids, (s.user c).stat ≠ .zomb) → s.Awaited kids me pid)

variable {s : Procs P} {kids : List P} {me : P} {pid : WaitPid P} {nohang untraced : Bool}

theorem possibleChilds_iff : s.possibleChilds kids pid ↔
    ∃ c ∈ kids, (s.user c).stat ≠ .zomb ∧ pid.fits (s.user c).pgrp c (s.user c).pgrp := by
  simp only [possibleChilds, any_eq_true, Bool.and_eq_true, decide_eq_true_eq]

/-- No child that fits is missed. -/
theorem Awaited.possibleChilds (h : s.Awaited kids me pid) : s.possibleChilds kids pid := by
  obtain ⟨c, hc, hstat, hfits⟩ := h
  refine possibleChilds_iff.mpr ⟨c, hc, hstat, ?_⟩
  cases pid with
  | myGroup => exact beq_self_eq_true _
  | _ => exact hfits

theorem Stray.not_meant {c : P} (h : s.Stray me pid c) : ¬ s.Meant me pid c := by
  cases pid with
  | any | group => exact h.elim
  | myGroup => exact fun hm => h.2 (beq_iff_eq.mp hm)
  | proc => exact fun hm => h.1 (beq_iff_eq.mp hm)

theorem fitsStopped_iff {c : P} : pid.fitsStopped (s.user me).pgrp c (s.user c).pgrp ↔
    s.Meant me pid c ∨ s.Stray me pid c := by
  cases pid with
  | any | group => simp [WaitPid.fitsStopped, Meant, WaitPid.fits, Stray]
  | myGroup | proc =>
    simp only [WaitPid.fitsStopped, Meant, WaitPid.fits, Stray, Bool.or_eq_true, beq_iff_eq]
    tauto

/-- The test of the loop over the stopped children. -/
theorem passes_iff {c : P} : (pid.fitsStopped (s.user me).pgrp c (s.user c).pgrp &&
    (s.user c).stat == .stop && !(s.user c).swted && ((s.user c).strc || untraced)) = true ↔
    s.Stopped untraced c ∧ (s.Meant me pid c ∨ s.Stray me pid c) := by
  simp only [Bool.and_eq_true, fitsStopped_iff, beq_iff_eq, Bool.not_eq_true', Bool.or_eq_true, Stopped]
  tauto

theorem Stopped.awaited {c : P} (h : s.Stopped untraced c) (hc : c ∈ kids) (hm : s.Meant me pid c) :
    s.Awaited kids me pid :=
  ⟨c, hc, by simp [h.1], hm⟩

/-- A stopped child is found: it is meant exactly if the loops agree. -/
theorem agrees_of_some {c : P} (hdead : ¬ s.Dead me pid)
    (h : s.stoppedChild kids (s.user me).pgrp pid untraced = some c) :
    s.Agrees kids me pid untraced ↔ s.Meant me pid c := by
  obtain ⟨hp, before, after, rfl, hbefore⟩ := find?_eq_some_iff_append.mp h
  obtain ⟨hstop, hpass⟩ := passes_iff.mp hp
  have hnone : ∀ d ∈ before, s.Stopped untraced d → ¬ (s.Meant me pid d ∨ s.Stray me pid d) := by
    intro d hd hds hor
    have hno := hbefore d hd
    rw [passes_iff.mpr ⟨hds, hor⟩] at hno
    cases hno
  rw [Agrees, or_iff_right hdead]
  constructor
  · rintro ⟨hfirst, -⟩
    refine hpass.resolve_right fun hstray => ?_
    obtain ⟨d, hd, hds, hfits⟩ := hfirst before c after rfl hstop hstray
    exact hnone d hd hds (.inl hfits)
  · intro hfits
    refine ⟨fun before' d after' heq hds hstray => ?_, fun _ _ => hstop.awaited (by simp) hfits⟩
    have hne : d ≠ c := by
      rintro rfl
      exact hstray.not_meant hfits
    -- nor does `d` stand before `c`
    rcases append_eq_append_iff.mp heq with ⟨l, rfl, hl⟩ | ⟨l, rfl, hl⟩
    · cases l with
      | nil => exact absurd (cons.inj hl).1.symm hne
      | cons =>
        obtain ⟨rfl, -⟩ := cons.inj hl
        exact ⟨c, by simp, hstop, hfits⟩
    · cases l with
      | nil => exact absurd (cons.inj hl).1 hne
      | cons =>
        obtain ⟨rfl, -⟩ := cons.inj hl
        exact absurd (.inr hstray) (hnone d (by simp) hds)

/-- No stopped child is found. -/
theorem agrees_of_none (hdead : ¬ s.Dead me pid)
    (h : s.stoppedChild kids (s.user me).pgrp pid untraced = none) :
    s.Agrees kids me pid untraced ↔ (s.possibleChilds kids pid → s.Awaited kids me pid) := by
  rw [Agrees, or_iff_right hdead, possibleChilds_iff]
  constructor
  · rintro ⟨-, hgroup⟩ ⟨c, hc, hstat, hfits⟩
    cases pid with
    | myGroup => exact hgroup rfl ⟨c, hc, hstat⟩
    | _ => exact ⟨c, hc, hstat, hfits⟩
  · intro hawaited
    refine ⟨?_, ?_⟩
    · rintro before d after rfl hds hstray
      exact absurd (passes_iff.mpr ⟨hds, .inr hstray⟩) (find?_eq_none.mp h d (by simp))
    · rintro rfl ⟨c, hc, hstat⟩
      exact hawaited ⟨c, hc, hstat, beq_self_eq_true _⟩

theorem selects_exited {dm : DeathMsg P} (hdm : dm ∈ (s.user me).zombies)
    (hfits : pid.fits (s.user me).pgrp dm.child dm.pgrp) :
    s.Selects kids me pid nohang (.exited dm.child) := by
  have hdead : s.Dead me pid := ⟨dm, hdm, hfits⟩
  simp only [selects_iff, reduceCtorEq, WaitResult.exited.injEq, hdead, not_true, false_and]
  simp only [false_imp_iff, implies_true, and_true, true_and]
  rintro c rfl
  exact ⟨dm, hdm, rfl, hfits⟩

theorem selects_stopped {c : P} (hc : c ∈ kids) (hstat : (s.user c).stat ≠ .zomb) :
    s.Selects kids me pid nohang (.stopped c) ↔ s.Meant me pid c := by
  constructor
  · exact fun h => (h.stopped c rfl).2
  · intro hfits
    have hawaited : s.Awaited kids me pid := ⟨c, hc, hstat, hfits⟩
    simp only [selects_iff, reduceCtorEq, WaitResult.stopped.injEq, hawaited, not_true, and_false]
    simp only [false_imp_iff, implies_true, and_true, true_and]
    rintro d rfl
    exact ⟨hc, hfits⟩

/-- **A pass of `wait4` ends as it is to exactly if the loops agree.** -/
theorem wait4_selects_iff (s : Procs P) (kids : List P) (me : P) (pid : WaitPid P) (nohang untraced : Bool) :
    (s.resume me).Selects kids me pid nohang (s.wait4 kids me pid nohang untraced).2 ↔
      (s.resume me).Agrees kids me pid untraced := by
  unfold Procs.wait4
  generalize s.resume me = s
  cases hf : (s.user me).zombies.find? fun dm => pid.fits (s.user me).pgrp dm.child dm.pgrp with
  | some dm =>
    have hfits := find?_some hf
    have hdm := mem_of_find?_eq_some hf
    refine iff_of_true ?_ (.inl ⟨dm, hdm, hfits⟩)
    cases hp : s.pfind (s.user dm.child).opptr <;> simpa only [hf, hp] using selects_exited hdm hfits
  | none =>
    have hdead : ¬ s.Dead me pid := by
      rintro ⟨dm, hdm, hfits⟩
      exact find?_eq_none.mp hf dm hdm hfits
    cases hc : s.stoppedChild kids (s.user me).pgrp pid untraced with
    | some c =>
      rw [agrees_of_some hdead hc]
      have hpass := find?_some hc
      have hstop := (passes_iff.mp hpass).1
      simpa only [hf, hc] using selects_stopped (mem_of_find?_eq_some hc) (by simp [hstop.1])
    | none =>
      rw [agrees_of_none hdead hc]
      simp only [hf, hc]
      cases hp : s.possibleChilds kids pid with
      | false =>
        have hno : ¬ s.Awaited kids me pid := by
          intro h
          cases hp.symm.trans h.possibleChilds
        simp [selects_iff, hdead, hno]
      | true => cases nohang <;> simp [selects_iff, hdead]

/-- Process 0, of group 0, has process 1 of group 7 for its only child. -/
def otherGroup : Procs Nat := forked.setUser 1 (.fresh 7)

/-- No child fits, and `wait4 (0, ..)` sleeps. -/
theorem sleeps_otherGroup : ¬ otherGroup.Dead 0 .myGroup ∧ ¬ otherGroup.Awaited [1] 0 .myGroup ∧
    (otherGroup.wait4 [1] 0 .myGroup false false).2 = .asleep := by
  refine ⟨?_, ?_, by decide⟩
  · rintro ⟨dm, hdm, -⟩
    cases hdm
  · rintro ⟨c, hc, -, hfits⟩
    rw [mem_singleton.mp hc] at hfits
    exact absurd hfits (by unfold Meant; decide)

end Procs

end Ixemul.Proc
