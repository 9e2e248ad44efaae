/-
# Ixemul.Proc.Reap — who is told about an exit, and how often.

A death message is sent once and is meant to be picked up once, by the process that forked the child.  But
while a process is held by a tracer and its old parent lives (`Held`), the message goes to the tracer, and a
`wait4` of the tracer that meets it reports the exit but leaves the message on the list.  In runs in which
nothing of this happens (`Meets`) every message lies on one list at most, its child is asleep on it, and a
message that has been reported lies on none (`Inv`).
-/
import Ixemul.Proc.Mail

namespace Ixemul.Proc

open Lib.Links Lib.Run
open Function List

variable {P : Type*}

namespace Procs

/-! ## The condition -/

/-- The process is in the hands of a tracer while its old parent lives. -/
def Held (s : Procs P) (c : P) : Prop := ∃ q, (s.user c).opptr = .proc q ∧ s.tree.live q = true

variable [DecidableEq P]

/-- No process is attached, exits, or has its death message picked up while it is held; and the memory for
the message is there. -/
def Meets (s : Procs P) : Op P → Prop
  | .attach _ task => ¬ s.Held task
  | .exit p _ alloc => ¬ s.Held p ∧ alloc = true
  | .wait4 me pid _ _ => ∀ dm, s.found me pid = some dm → ¬ s.Held dm.child
  | _ => True

/-! ## The invariant -/

structure Inv (s : Procs P) : Prop where
  tree : s.tree.Linked
  mail : Mail (fun p => (s.user p).zombies) s.told s.nextDm
  dead : ∀ {p}, s.tree.live p = false → (s.user p).zombies = []
  /-- The child of a message is still there, asleep on it. -/
  child : ∀ {p dm}, dm ∈ (s.user p).zombies →
    s.tree.live dm.child = true ∧ (s.user dm.child).pc = .death dm.id false
  /-- Nobody sleeps in a `wait4` for any child with messages to look at. -/
  asleep : ∀ {p}, (s.user p).pc = .wait4 .any false →
    (s.user p).zombies = [] ∧ (s.user p).stat = .sleep
  /-- A process that was forked is its parent's child, or held. -/
  orig : ∀ {c p}, s.tree.live c = true → (s.user c).pc.exited = false → s.orig c = .proc p →
    s.tree.live p = true ∧
      (s.tree.pptr c = .proc p ∧ (s.user c).opptr = .null ∨ (s.user c).opptr = .proc p)

variable {s s' : Procs P} {c p me task : P} {u : User P} {tree : Tree P} {pid : WaitPid P} {status : Int}
  {l : List (DeathMsg P)} {fits : DeathMsg P → Bool} {dm : DeathMsg P} {op : Op P}
  {tr : List (Procs P × Op P)} {d k : Nat}

omit [DecidableEq P] in
theorem inv_empty : (empty : Procs P).Inv where
  tree := Tree.linked_empty
  mail := by
    refine ⟨?_, ?_, ?_, ?_, ?_, ?_⟩ <;> simp [empty, User.fresh]
  dead := fun _ => rfl
  child := by simp [empty, User.fresh]
  asleep := by simp [empty, User.fresh]
  orig := by simp [empty, Tree.empty]

omit [DecidableEq P] in
theorem Inv.mourned (h : s.Inv) : s.Mourned :=
  ⟨⟨h.mail.lt, h.mail.one, h.mail.nodup, nofun, nofun, nodup_nil⟩, h.child⟩

/-- One process is given a new user structure and a new place in the tree. -/
theorem Inv.put (h : s.Inv) {orig : P → PPtr P} (hl : tree.Linked)
    (hlive : ∀ z, z ≠ c → tree.live z = s.tree.live z) (hc : s.tree.live c → tree.live c)
    (hpptr : ∀ z, z ≠ c → tree.pptr z = s.tree.pptr z) (ho : ∀ z, z ≠ c → orig z = s.orig z)
    (hz : u.zombies = (s.user c).zombies)
    (hk : s.Kept { s.setUser c u with tree, orig })
    (hasleep : u.pc = .wait4 .any false → u.zombies = [] ∧ u.stat = .sleep)
    (horig : ∀ q, tree.live c → u.pc.exited = false → orig c = .proc q → tree.live q ∧
      (tree.pptr c = .proc q ∧ u.opptr = .null ∨ u.opptr = .proc q)) :
    ({ s.setUser c u with tree, orig } : Procs P).Inv := by
  have hzs := setUser_zombies hz
  have hmono : ∀ {z}, s.tree.live z → tree.live z := by
    intro z hlz
    by_cases hzc : z = c
    · subst hzc
      exact hc hlz
    · rwa [hlive z hzc]
  refine ⟨hl, ?_, ?_, (h.mourned.kept hk).child, fun {q} => ?_, fun {d q} => ?_⟩
  · simp only [hzs]
    exact h.mail
  · intro q hq
    refine (hzs q).trans (h.dead (Bool.eq_false_iff.mpr fun hlq => ?_))
    cases hq.symm.trans (hmono hlq)
  · exact (forall_update_iff s.user fun _ v => v.pc = .wait4 .any false →
      v.zombies = [] ∧ v.stat = .sleep).mpr ⟨hasleep, fun _ _ => h.asleep⟩ q
  · refine (forall_update_iff s.user fun d v => tree.live d → v.pc.exited = false →
      orig d = .proc q → tree.live q ∧
        (tree.pptr d = .proc q ∧ v.opptr = .null ∨ v.opptr = .proc q)).mpr
      ⟨horig q, fun d hd hld hex hod => ?_⟩ d
    rw [hlive d hd] at hld
    rw [ho d hd] at hod
    rw [hpptr d hd]
    exact (h.orig hld hex hod).imp_left hmono

/-- One process changes, and nobody is born or dies. -/
theorem Inv.update (h : s.Inv) (hl : tree.Linked) (hlive : tree.live = s.tree.live)
    (hpptr : ∀ z, z ≠ c → tree.pptr z = s.tree.pptr z) (hz : u.zombies = (s.user c).zombies)
    (hdeath : ∀ id, u.pc = .death id false ↔ (s.user c).pc = .death id false)
    (hasleep : u.pc = .wait4 .any false → u.zombies = [] ∧ u.stat = .sleep)
    (hexit : u.pc.exited = false → (s.user c).pc.exited = false)
    (horig : ∀ q, s.tree.pptr c = .proc q ∧ (s.user c).opptr = .null ∨ (s.user c).opptr = .proc q →
      s.tree.live q → tree.pptr c = .proc q ∧ u.opptr = .null ∨ u.opptr = .proc q) :
    ({ s.setUser c u with tree := tree } : Procs P).Inv := by
  refine h.put hl (fun z _ => congrFun hlive z) (by rw [hlive]; exact id) hpptr (fun _ _ => rfl) hz
    (kept_update hz hdeath hlive s.told) hasleep fun q hlc hex ho => ?_
  rw [hlive] at hlc ⊢
  obtain ⟨hlq, hpq⟩ := h.orig hlc (hexit hex) ho
  exact ⟨hlq, horig q hpq hlq⟩

theorem Inv.setUser (h : s.Inv) (hz : u.zombies = (s.user c).zombies)
    (hop : u.opptr = (s.user c).opptr)
    (hdeath : ∀ id, u.pc = .death id false ↔ (s.user c).pc = .death id false)
    (hasleep : u.pc = .wait4 .any false → u.zombies = [] ∧ u.stat = .sleep)
    (hexit : u.pc.exited = false → (s.user c).pc.exited = false) : (s.setUser c u).Inv := by
  refine h.update h.tree rfl (fun _ _ => rfl) hz hdeath hasleep hexit ?_
  intro q hq _
  rwa [hop]

theorem Inv.wakeUser (h : s.Inv) (q : P) : (s.ixWakeup (.user q)).Inv where
  tree := h.tree
  mail := h.mail
  dead := h.dead
  child := (h.mourned.kept (kept_wakeUser q)).child
  asleep := fun hpc => h.asleep (wake_wait4.mp hpc).1
  orig := by
    intro c p hc hpc ho
    rw [ixWakeup, exited_wake] at hpc
    exact h.orig hc hpc ho

theorem Inv.resume (h : s.Inv) (p : P) : (s.resume p).Inv := by
  unfold Procs.resume
  split
  · next hpc =>
    refine h.setUser rfl rfl ?_ ?_ ?_
    · simp [hpc]
    · simp
    · simp [hpc, Pc.exited]
  · exact h

theorem Inv.stop (h : s.Inv) (hp : s.Waiting p pid) : (s.stop p).Inv := by
  have hpc := hp.resume_pc
  have hset : ((s.resume p).setUser p
      { (s.resume p).user p with stat := .stop, swted := false }).Inv := by
    refine (h.resume p).setUser rfl rfl ?_ ?_ ?_
    · simp [hpc]
    · simp [hpc]
    · exact fun hx => hx
  simp only [Procs.stop]
  split
  · exact hset.wakeUser _
  · exact hset

omit [DecidableEq P] in
theorem Inv.pptr_eq (h : s.Inv) (hc : s.tree.live c) (hpc : (s.user c).pc.exited = false)
    (ho : s.orig c = .proc p) (hheld : ¬ s.Held c) : s.tree.live p ∧ s.tree.pptr c = .proc p := by
  obtain ⟨hp, ⟨hpp, -⟩ | hop⟩ := h.orig hc hpc ho
  · exact ⟨hp, hpp⟩
  · exact absurd ⟨p, hop, hp⟩ hheld

/-- A process that nobody holds may be attached. -/
theorem Inv.attach (h : s.Inv) (hme : s.tree.live me) (ht : s.tree.live task)
    (hheld : ¬ s.Held task) : (s.attach me task).Inv := by
  by_cases hown : s.tree.pptr task = .proc me
  · rw [attach_own hown]
    exact h.setUser rfl rfl (fun _ => Iff.rfl) h.asleep fun hx => hx
  · rw [attach_other hown]
    refine h.update (h.tree.procReparent ht hme) Tree.procReparent_live ?_ rfl (fun _ => Iff.rfl)
      h.asleep (fun hx => hx) ?_
    · intro z hz
      rw [Tree.procReparent_pptr, update_of_ne hz]
    · -- the old parent is what `p_pptr` was
      rintro q (⟨hq, -⟩ | hq) hlq
      · exact .inr hq
      · exact absurd ⟨q, hq, hlq⟩ hheld

/-- A detach gives the process back to its old parent, if he lives. -/
theorem Inv.detach (h : s.Inv) (ht : s.tree.live task) (hstop : (s.user task).stat = .stop) :
    (s.detach task).Inv := by
  have hasleep : (s.user task).pc = .wait4 .any false → (s.user task).zombies = [] ∧ Stat.run = .sleep := by
    intro hpc
    rw [(h.asleep hpc).2] at hstop
    cases hstop
  rw [detach_eq]
  split
  · next hc =>
    cases hop : (s.user task).opptr with
    | proc q =>
      have hq : s.tree.live q := by
        have hsome := hc.2
        rw [hop] at hsome
        simpa [pfind] using hsome
      refine h.update (h.tree.procReparent ht hq) Tree.procReparent_live ?_ rfl (fun _ => Iff.rfl)
        hasleep (fun hx => hx) ?_
      · intro z hz
        rw [Tree.procReparent_pptr, update_of_ne hz]
      · rintro r hr -
        rw [hop] at hr
        obtain ⟨-, hr⟩ | hr := hr
        · cases hr
        · cases hr
          exact .inl ⟨by rw [Tree.procReparent_pptr, update_self], rfl⟩
    | null | init => simp [hop, pfind] at hc
  · next hc =>
    refine h.update h.tree rfl (fun _ _ => rfl) rfl (fun _ => Iff.rfl) hasleep (fun hx => hx) ?_
    rintro q (⟨hq, -⟩ | hq) hlq
    · exact .inl ⟨hq, rfl⟩
    · -- an old parent that lives and was not given the process is its parent already
      refine .inl ⟨?_, rfl⟩
      by_contra hne
      exact hc ⟨by rw [hq]; exact fun e => hne e.symm, by simp [hq, pfind, hlq]⟩

/-- A process is born. -/
theorem Inv.newProc (h : s.Inv) (hc : s.tree.live c = false) (hl : tree.Linked)
    (hlive : tree.live = Function.update s.tree.live c true)
    (hpptr : ∀ z, z ≠ c → tree.pptr z = s.tree.pptr z) {pgrp : Int} {v : PPtr P}
    (hv : ∀ q, v = .proc q → s.tree.live q ∧ tree.pptr c = .proc q) :
    ({ s.setUser c (.fresh pgrp) with
      tree := tree
      orig := Function.update s.orig c v } : Procs P).Inv := by
  have hdead : s.tree.live c ≠ true := by simp [hc]
  refine h.put hl (fun z hz => by rw [hlive, update_of_ne hz]) (fun hl => absurd hl hdead) hpptr
    (fun z hz => update_of_ne hz ..) (h.dead hc).symm (kept_new hc hlive) nofun
    fun q _ _ ho => ?_
  obtain ⟨hq, hpq⟩ := hv q (by simpa using ho)
  refine ⟨?_, .inl ⟨hpq, rfl⟩⟩
  rw [hlive, update_of_ne (Tree.ne_of_live hq hc)]
  exact hq

theorem Inv.sendDeathMsg (h : s.Inv) (hme : s.Running me) (hp : s.tree.live p) :
    (s.sendDeathMsg me p status true).Inv := by
  have htree : (s.sendDeathMsg me p status true).tree = s.tree := sendDeathMsg_tree.1
  have horig : (s.sendDeathMsg me p status true).orig = s.orig := sendDeathMsg_tree.2.1
  have htold : (s.sendDeathMsg me p status true).told = s.told := sendDeathMsg_tree.2.2
  have hu := s.sendDeathMsg_user me p status
  have hz : ∀ q, q ≠ p →
      ((s.sendDeathMsg me p status true).user q).zombies = (s.user q).zombies := by
    intro q hq
    rw [(hu q).1, if_neg hq]
  have hzp : ((s.sendDeathMsg me p status true).user p).zombies =
      (s.user p).zombies ++ [⟨s.nextDm, me, status, (s.user me).pgrp⟩] := by
    rw [(hu p).1, if_pos rfl]
  refine ⟨?_, ?_, ?_, ?_, ?_, ?_⟩
  · rw [htree]
    exact h.tree
  · rw [htold, sendDeathMsg_nextDm]
    exact h.mail.send rfl hzp hz
  · intro q hq
    rw [htree] at hq
    have hqp : q ≠ p := by
      rintro rfl
      rw [hp] at hq
      cases hq
    rw [hz q hqp]
    exact h.dead hq
  · exact (h.mourned.sendDeathMsg hme).child
  · intro q hq
    rw [(hu q).2.2.1] at hq
    split at hq
    · cases hq
    · next hqm =>
      -- a parent asleep in `wait4` has just been woken
      have hpc : (s.user q).pc = .wait4 .any false ∧ q ≠ p := by
        split at hq
        · obtain ⟨hpc, hne⟩ := wake_wait4.mp hq
          exact ⟨hpc, fun e => hne (by rw [e])⟩
        · next hns =>
          refine ⟨hq, ?_⟩
          rintro rfl
          exact hns ⟨(h.asleep hq).2, by rw [hq]; rfl⟩
      rw [hz q hpc.2, (hu q).2.2.2, if_neg hqm]
      exact h.asleep hpc.1
  · intro d q hd hex ho
    rw [htree] at hd ⊢
    rw [horig] at ho
    rw [(hu d).2.2.1] at hex
    split at hex
    · cases hex
    · rw [(hu d).2.1]
      refine h.orig hd ?_ ho
      split at hex
      · simpa using hex
      · exact hex

/-- An exit sends its message to the parent, if that is a process. -/
theorem Inv.exit (h : s.Inv) (hme : s.Running me) : (s.exit me status true).Inv := by
  unfold Procs.exit
  split
  · next p hp => exact h.sendDeathMsg hme (h.tree.live_parent hme.live hp)
  · refine h.setUser rfl rfl ?_ ?_ ?_
    · simp [hme.out]
    · simp
    · simp [Pc.exited]

/-! ### Picking a message up -/

/-- A message that was told is on no list. -/
theorem Inv.reap (h : s.Inv) (hfind : (s.user me).zombies.find? fits = some dm) :
    (s.reap me fits dm).Inv := by
  have hdm : dm ∈ (s.user me).zombies := mem_of_find?_eq_some hfind
  obtain ⟨hlc, hpcc⟩ := h.child hdm
  have hu := s.reap_user me fits dm
  have hsub := s.reap_sub me fits dm
  have hout : ∀ d ∈ ((s.reap me fits dm).user me).zombies, d.id ≠ dm.id := by
    intro d hd
    rw [(hu me).1, if_pos rfl] at hd
    exact eraseP_id_ne (h.mail.nodup me) hfind hd
  refine ⟨h.tree, h.mail.deliver hdm hsub hout, ?_, (h.mourned.reap hfind).child, ?_, ?_⟩
  · intro q hq
    have := hsub q
    rw [h.dead hq] at this
    exact sublist_nil.mp this
  · intro q hq
    rw [(hu q).2.2.1] at hq
    obtain ⟨hpc, -⟩ := wake_wait4.mp hq
    have hqc : q ≠ dm.child := by
      rintro rfl
      rw [hpcc] at hpc
      cases hpc
    rw [(hu q).2.2.2 hqc]
    refine ⟨?_, (h.asleep hpc).2⟩
    have := hsub q
    rw [(h.asleep hpc).1] at this
    exact sublist_nil.mp this
  · intro d q hd hex ho
    rw [(hu d).2.2.1, exited_wake] at hex
    rw [(hu d).2.1]
    exact h.orig hd hex ho

omit [DecidableEq P] in
theorem pfind_eq_none [DecidableEq P] {c : P} (h : ¬ s.Held c) : s.pfind (s.user c).opptr = none := by
  cases ho : (s.user c).opptr with
  | proc q =>
    refine if_neg ?_
    intro hq
    exact h ⟨q, ho, hq⟩
  | _ => rfl

section Pass

variable {kids : List P} {pid : WaitPid P} {nohang untraced : Bool} {dm : DeathMsg P}

/-- A message of a child that nobody holds is taken off its list. -/
theorem wait4_found (hf : s.found me pid = some dm) (hh : ¬ s.Held dm.child) :
    (s.wait4 kids me pid nohang untraced).1 =
      (s.resume me).reap me (fun d => pid.fits (s.user me).pgrp d.child d.pgrp) dm := by
  have hg : ((s.resume me).user me).pgrp = (s.user me).pgrp := resume_user.1
  have ho : ((s.resume me).user dm.child).opptr = (s.user dm.child).opptr := resume_user.2.2
  have hf' : (s.resume me).found me pid = some dm := found_resume.trans hf
  have hh' : ¬ (s.resume me).Held dm.child := by
    rintro ⟨q, hq, hlq⟩
    rw [ho] at hq
    rw [resume_tree] at hlq
    exact hh ⟨q, hq, hlq⟩
  unfold found at hf'
  rw [hg] at hf'
  simp only [Procs.wait4, hg, hf', pfind_eq_none hh']

theorem zombies_of_found_none (hf : s.found me .any = none) : (s.user me).zombies = [] :=
  eq_nil_iff_forall_not_mem.mpr (by simpa [found, WaitPid.fits] using hf)

theorem Inv.wait4 (h : s.Inv) (hme : s.Waiting me pid)
    (hm : ∀ dm, s.found me pid = some dm → ¬ s.Held dm.child) :
    (s.wait4 kids me pid nohang untraced).1.Inv := by
  have hr := h.resume me
  cases hf : s.found me pid with
  | some dm =>
    rw [wait4_found hf (hm dm hf)]
    refine hr.reap ?_
    rw [resume_user.2.1]
    exact hf
  | none =>
    rcases wait4_none hf with heq | ⟨c, heq⟩ | heq <;> rw [heq]
    · exact hr
    · exact hr.setUser rfl rfl (fun _ => Iff.rfl) hr.asleep fun hx => hx
    · have hpc := hme.resume_pc
      refine hr.setUser rfl rfl ?_ ?_ ?_
      · simp [hpc]
      · -- with `pid` -1, every message would have been found
        intro hany
        have hany : pid = .any := by simpa using hany
        subst hany
        refine ⟨?_, rfl⟩
        rw [resume_user.2.1]
        exact zombies_of_found_none hf
      · simp [hpc, Pc.exited]

end Pass

/-! ### Closing the library -/

theorem Inv.close (h : s.Inv) (hp : s.tree.live p)
    (hpc : ∀ id, (s.user p).pc ≠ .death id false) {fuel : Nat}
    (htree : s.tree.ixClose fuel p = some tree) : (s.close p tree).Inv := by
  have hlive := ixClose_live htree
  have hpptr := h.tree.ixClose_pptr hp htree
  obtain ⟨htree', hn, htd, ho⟩ := s.close_rest p tree
  have hu := s.close_user p tree
  have hlive' : ∀ {q}, tree.live q ↔ s.tree.live q ∧ q ≠ p := by
    intro q
    rw [hlive]
    by_cases hq : q = p <;> simp [hq]
  have hsub := s.close_sub p tree
  refine ⟨?_, ?_, ?_, ?_, ?_, ?_⟩
  · rw [htree']
    exact h.tree.ixClose hp htree
  · rw [hn, htd]
    exact h.mail.sub hsub
  · intro q hq
    rw [htree', hlive] at hq
    rw [(hu q).1]
    split
    · rfl
    · next hqp =>
      rw [update_of_ne hqp] at hq
      exact h.dead hq
  · exact (h.mourned.close hpc htree).child
  · intro q hq
    have hpcq := ((hu q).2.2.2.2.1 .any).mp hq
    rw [(hu q).2.2.1]
    refine ⟨?_, (h.asleep hpcq).2⟩
    have hnil := hsub q
    rw [(h.asleep hpcq).1] at hnil
    exact sublist_nil.mp hnil
  · intro c q hc hex hoc
    rw [htree', hlive'] at hc
    rw [(hu c).2.2.2.1] at hex
    have hoc' : s.orig c = .proc q ∧ q ≠ p := by
      rw [ho] at hoc
      split at hoc
      · cases hoc
      · next hne =>
        refine ⟨hoc, ?_⟩
        rintro rfl
        exact hne hoc
    obtain ⟨hlq, hpq⟩ := h.orig hc.1 hex hoc'.1
    rw [htree', hlive', (hu c).2.1, hpptr c hc.1]
    refine ⟨⟨hlq, hoc'.2⟩, ?_⟩
    rcases hpq with ⟨hpq, hop⟩ | hop
    · left
      rw [if_neg (by rw [hpq]; simpa using hoc'.2)]
      exact ⟨hpq, hop⟩
    · exact .inr hop

/-! ## Every run that meets the condition -/

/-- **Every step that meets the condition keeps the invariant.** -/
theorem Inv.step (h : s.Inv) (hm : s.Meets op) (hs : Step s op s') : s'.Inv := by
  cases hs with
  | start pgrp hp =>
    refine h.newProc hp (h.tree.ixOpen hp) rfl ?_ (by simp)
    exact fun z hz => update_of_ne hz ..
  | vfork hc hp =>
    refine h.newProc hc (h.tree.launcher hc hp.live) Tree.launcher_live ?_ ?_
    · intro z hz
      rw [Tree.launcher_pptr, update_of_ne hz]
    · intro q hq
      cases hq
      exact ⟨hp.live, by rw [Tree.launcher_pptr, update_self]⟩
  | attach hme ht => exact h.attach hme.live ht hm
  | detach hme ht _ _ hstop => exact h.detach ht hstop
  | stop hp => exact h.stop hp
  | cont hstop =>
    refine h.setUser rfl rfl (fun _ => Iff.rfl) ?_ fun hx => hx
    intro hpc
    rw [(h.asleep hpc).2] at hstop
    cases hstop
  | interrupt => exact h.wakeUser _
  | untrace => exact h.setUser rfl rfl (fun _ => Iff.rfl) h.asleep fun hx => hx
  | exit hp =>
    obtain ⟨-, rfl⟩ := hm
    exact h.exit hp
  | wait4 hme => exact h.wait4 hme hm
  | close hlive hpc htree =>
    refine h.close hlive ?_ htree
    intro id hid
    rcases hpc with hpc | ⟨i, hpc⟩ <;> rw [hid] at hpc <;> cases hpc

theorem inv_of_history (h : History Step empty tr s) (hm : ∀ x ∈ tr, Meets x.1 x.2) : s.Inv :=
  h.invariant (fun _ _ _ hi hc hst => hi.step hc hst) inv_empty hm

/-- No message comes, goes or is reported. -/
def SameMail (s s' : Procs P) : Prop :=
  s'.told = s.told ∧ (∀ q, (s'.user q).zombies = (s.user q).zombies) ∧ s'.nextDm = s.nextDm

omit [DecidableEq P] in
theorem SameMail.trans {s'' : Procs P} (h : s.SameMail s') (h' : s'.SameMail s'') : s.SameMail s'' :=
  ⟨h'.1.trans h.1, fun q => (h'.2.1 q).trans (h.2.1 q), h'.2.2.trans h.2.2⟩

theorem sameMail_setUser (hz : u.zombies = (s.user c).zombies) : s.SameMail (s.setUser c u) :=
  ⟨rfl, setUser_zombies hz, rfl⟩

theorem sameMail_resume : s.SameMail (s.resume p) :=
  ⟨resume_told, fun _ => resume_user.2.1, resume_nextDm⟩

theorem sameMail_stop : s.SameMail (s.stop p) := by
  have hset : s.SameMail ((s.resume p).setUser p
      { (s.resume p).user p with stat := .stop, swted := false }) :=
    sameMail_resume.trans (sameMail_setUser rfl)
  simp only [Procs.stop]
  split
  · exact hset
  · exact hset

/-- The list of `q` after a step that reports nothing: a new message may have come, and a process that
closes the library throws its messages away. -/
def ListAfter (s s' : Procs P) (op : Op P) (q : P) : Prop :=
  (∃ l, (s'.user q).zombies = (s.user q).zombies ++ l ∧ ∀ dm ∈ l, dm.id = s.nextDm) ∨
    (op = .close q ∧ (s'.user q).zombies = [])

/-- The operation is a pass of `wait4 (-1, ..)` by `p`. -/
def Op.waitsAny (p : P) : Op P → Bool
  | .wait4 me .any _ _ => me == p
  | _ => false

/-- What a step does to the messages: one is picked up, or none is reported. -/
inductive MailStep (s s' : Procs P) : Op P → Prop where
  | found {me : P} {pid : WaitPid P} {nohang untraced : Bool} {dm : DeathMsg P}
      (hf : s.found me pid = some dm) (ht : s'.told = s.told ++ [(me, dm.id)])
      (hz : ∀ q, (s'.user q).zombies =
        if q = me then (s.user me).zombies.eraseP fun d => pid.fits (s.user me).pgrp d.child d.pgrp
        else (s.user q).zombies)
      (hn : s'.nextDm = s.nextDm) : MailStep s s' (.wait4 me pid nohang untraced)
  | none {op : Op P} (ht : s'.told = s.told) (hn : s.nextDm ≤ s'.nextDm)
      (hany : ∀ q, op.waitsAny q → (s.user q).zombies = []) (hlist : ∀ q, s.ListAfter s' op q) :
      MailStep s s' op

/-- What a step does to the lists, for a count of what lies ahead of a message. -/
theorem Inv.step_mail (h : s.Inv) (hm : s.Meets op) (hs : Step s op s') : s.MailStep s' op := by
  have hquiet {op : Op P} {s' : Procs P} (hsame : s.SameMail s')
      (hany : ∀ q, op.waitsAny q → (s.user q).zombies = []) : s.MailStep s' op := by
    refine .none hsame.1 (Nat.le_of_eq hsame.2.2.symm) hany fun q => .inl ⟨[], ?_, by simp⟩
    rw [hsame.2.1, append_nil]
  cases hs with
  | start _ hp | vfork hp => exact hquiet ⟨rfl, setUser_zombies (h.dead hp).symm, rfl⟩ (by simp [Op.waitsAny])
  | @attach me task =>
    refine hquiet ?_ (by simp [Op.waitsAny])
    by_cases hown : s.tree.pptr task = .proc me
    · rw [attach_own hown]
      exact sameMail_setUser rfl
    · rw [attach_other hown]
      exact ⟨rfl, setUser_zombies rfl, rfl⟩
  | detach =>
    rw [detach_eq]
    exact hquiet ⟨rfl, setUser_zombies rfl, rfl⟩ (by simp [Op.waitsAny])
  | stop => exact hquiet sameMail_stop (by simp [Op.waitsAny])
  | cont | untrace => exact hquiet (sameMail_setUser rfl) (by simp [Op.waitsAny])
  | interrupt => exact hquiet ⟨rfl, fun _ => rfl, rfl⟩ (by simp [Op.waitsAny])
  | @exit p status =>
    obtain ⟨-, rfl⟩ := hm
    unfold Procs.exit
    split
    · next parent _ =>
      refine .none sendDeathMsg_tree.2.2 (by rw [sendDeathMsg_nextDm]; omega) (by simp [Op.waitsAny]) ?_
      intro q
      left
      rw [(s.sendDeathMsg_user p parent status q).1]
      split
      · next hq => exact ⟨_, by rw [hq], by simp⟩
      · exact ⟨[], by rw [append_nil], by simp⟩
    · exact hquiet (sameMail_setUser rfl) (by simp [Op.waitsAny])
  | @wait4 me pid nohang untraced =>
    cases hf : s.found me pid with
    | some dm =>
      rw [wait4_found hf (hm dm hf)]
      refine .found hf (by simp [Procs.reap, ixWakeup]) (fun q => ?_) (by simp [Procs.reap, ixWakeup])
      rw [(reap_user ..).1, resume_user.2.1, resume_user.2.1]
    | none =>
      refine hquiet ?_ fun q hq => ?_
      · rcases wait4_none hf with heq | ⟨c, heq⟩ | heq <;> rw [heq]
        · exact sameMail_resume
        · exact sameMail_resume.trans (sameMail_setUser rfl)
        · exact sameMail_resume.trans (sameMail_setUser rfl)
      · cases pid with
        | any =>
          obtain rfl : me = q := by simpa [Op.waitsAny] using hq
          exact zombies_of_found_none hf
        | _ => simp [Op.waitsAny] at hq
  | @close p fuel tree =>
    refine .none (s.close_rest p tree).2.2.1 (Nat.le_of_eq (s.close_rest p tree).2.1.symm)
      (by simp [Op.waitsAny]) fun q => ?_
    by_cases hqp : q = p
    · subst hqp
      exact .inr ⟨rfl, by rw [(s.close_user q tree q).1, if_pos rfl]⟩
    · exact .inl ⟨[], by rw [(s.close_user p tree q).1, if_neg hqp, append_nil], by simp⟩

theorem Inv.told_mono (h : s.Inv) (hm : s.Meets op) (hs : Step s op s') {x : P × Nat}
    (hx : x ∈ s.told) : x ∈ s'.told := by
  cases h.step_mail hm hs with
  | found _ ht =>
    rw [ht]
    exact mem_append_left _ hx
  | none ht => rwa [ht]

/-! ## From the exit to the report -/

/-- The message `d` lies on the list of `p`, behind at most `k` others. -/
def Pending (s : Procs P) (p : P) (d k : Nat) : Prop :=
  ∃ a dm b, (s.user p).zombies = a ++ dm :: b ∧ dm.id = d ∧ a.length ≤ k

/-- Every pass of the parent takes a message that lies ahead, or the one waited for. -/
theorem Inv.pending_step (h : s.Inv) (hm : s.Meets op) (hs : Step s op s')
    (hc : op ≠ .close p) (hp : s.Pending p d k) :
    (p, d) ∈ s'.told ∨
      if op.waitsAny p then 0 < k ∧ s'.Pending p d (k - 1) else s'.Pending p d k := by
  obtain ⟨a, dmd, b, hl, rfl, hk⟩ := hp
  cases h.step_mail hm hs with
  | @found me pid nohang untraced dm hf ht hz =>
    have hzp := hz p
    split_ifs at hzp with hme
    · subst hme
      unfold found at hf
      rw [hl] at hf hzp
      generalize hfits : (fun d : DeathMsg P => pid.fits (s.user p).pgrp d.child d.pgrp) = fits at hf hzp
      by_cases ha : ∃ x ∈ a, fits x
      · -- one before it is picked up
        obtain ⟨x, hx, hfx⟩ := ha
        have hlen := length_eraseP_of_mem hx hfx
        have hpos := length_pos_of_mem hx
        rw [eraseP_append_left hfx _ hx] at hzp
        right
        split
        · exact ⟨by omega, _, _, _, hzp, rfl, by omega⟩
        · exact ⟨_, _, _, hzp, rfl, by omega⟩
      · have ha : ∀ x ∈ a, ¬ fits x := fun x hx hfx => ha ⟨x, hx, hfx⟩
        rw [eraseP_append_right _ ha, eraseP_cons] at hzp
        rw [find?_append, find?_eq_none.mpr ha, Option.none_or, find?_cons] at hf
        cases hfd : fits dmd with
        | true =>
          rw [hfd] at hf
          rw [ht, Option.some.inj hf]
          exact .inl (mem_append_right _ (mem_singleton_self _))
        | false =>
          rw [hfd] at hzp
          have hw : (Op.wait4 p pid nohang untraced).waitsAny p ≠ true := by
            rw [← hfits] at hfd
            cases pid with
            | any => simp [WaitPid.fits] at hfd
            | _ => simp [Op.waitsAny]
          rw [if_neg hw]
          exact .inr ⟨a, dmd, _, hzp, rfl, hk⟩
    · right
      have hw : (Op.wait4 me pid nohang untraced).waitsAny p ≠ true := by
        cases pid <;> simp [Op.waitsAny, Ne.symm hme]
      rw [if_neg hw]
      exact ⟨a, dmd, b, hzp.trans hl, rfl, hk⟩
  | none _ _ hany hlist =>
    right
    have hw : op.waitsAny p ≠ true := by
      intro hw
      simp [hany p hw] at hl
    rw [if_neg hw]
    rcases hlist p with ⟨l, hl', -⟩ | ⟨he, -⟩
    · exact ⟨a, dmd, b ++ l, by rw [hl', hl]; simp, rfl, hk⟩
    · exact absurd he hc

/-- The number of passes of `wait4 (-1, ..)` that `p` made in a run. -/
def passes (p : P) (tr : List (Procs P × Op P)) : Nat := tr.countP fun x => x.2.waitsAny p

theorem pending_history (h : s.Inv)
    (hr : History Step s tr s') (hm : ∀ x ∈ tr, Meets x.1 x.2) (hc : ∀ x ∈ tr, x.2 ≠ .close p)
    (hp : s.Pending p d k) :
    (p, d) ∈ s'.told ∨ passes p tr ≤ k ∧ s'.Pending p d (k - passes p tr) := by
  induction hr with
  | nil => exact .inr ⟨Nat.zero_le _, hp⟩
  | @snoc t u tr op hr hst ih =>
    have hm' : ∀ x ∈ tr, Meets x.1 x.2 := fun x hx => hm x (mem_append_left _ hx)
    have hlast : (t, op) ∈ tr ++ [(t, op)] := mem_append_right _ (mem_singleton_self _)
    have hit : t.Inv := hr.invariant (fun _ _ _ hi hc hst => hi.step hc hst) h hm'
    rcases ih hm' (fun x hx => hc x (mem_append_left _ hx)) with ht | ⟨hle, hpt⟩
    · exact .inl (hit.told_mono (hm _ hlast) hst ht)
    · rcases hit.pending_step (hm _ hlast) hst (hc _ hlast) hpt with ht | hnext
      · exact .inl ht
      · right
        have hcount : passes p (tr ++ [(t, op)]) = passes p tr + if op.waitsAny p then 1 else 0 := by
          simp [passes, countP_append, countP_cons]
        rw [hcount]
        split at hnext
        · next hw =>
          obtain ⟨hpos, hnext⟩ := hnext
          rw [if_pos hw]
          exact ⟨by omega, by rwa [← Nat.sub_sub]⟩
        · next hw =>
          rw [if_neg hw]
          exact ⟨hle, hnext⟩

/-- The message `d` concerns nobody but `p`. -/
structure OnlyFor (s : Procs P) (p : P) (d : Nat) : Prop where
  sent : d < s.nextDm
  told : ∀ q, (q, d) ∈ s.told → q = p
  list : ∀ q dm, dm ∈ (s.user q).zombies → dm.id = d → q = p

/-- A message is told to nobody but the parent. -/
theorem OnlyFor.step (h : s.OnlyFor p d) (hi : s.Inv) (hm : s.Meets op)
    (hs : Step s op s') : s'.OnlyFor p d := by
  cases hi.step_mail hm hs with
  | @found me _ _ _ dm hf ht hz hn =>
    refine ⟨by rw [hn]; exact h.sent, ?_, ?_⟩
    · intro q hq
      rw [ht] at hq
      rcases mem_append.mp hq with hq | hq
      · exact h.told q hq
      · cases mem_singleton.mp hq
        exact h.list me dm (mem_of_find?_eq_some hf) rfl
    · intro q x hx
      rw [hz] at hx
      split_ifs at hx with hq
      · rw [hq]
        exact h.list me x (mem_of_mem_eraseP hx)
      · exact h.list q x hx
  | none ht hn _ hlist =>
    refine ⟨Nat.lt_of_lt_of_le h.sent hn, by rw [ht]; exact h.told, ?_⟩
    intro q x hx hid
    rcases hlist q with ⟨l, hl, hnew⟩ | ⟨-, hnil⟩
    · rw [hl] at hx
      rcases mem_append.mp hx with hx | hx
      · exact h.list q x hx hid
      · have := hnew x hx
        have := h.sent
        omega
    · rw [hnil] at hx
      cases hx

/-- An exit that meets the condition puts its message at the end of the list of the process that forked the
one that exits. -/
theorem Inv.exit_pending (h : s.Inv) (hm : s.Meets (.exit c status true))
    (hs : Step s (.exit c status true) s') (ho : s.orig c = .proc p) :
    s'.Pending p s.nextDm (s.user p).zombies.length ∧ s'.OnlyFor p s.nextDm := by
  cases hs with
  | exit hc =>
    obtain ⟨hp, hpp⟩ := h.pptr_eq hc.live (by rw [hc.out]; rfl) ho hm.1
    have heq : s.exit c status true = s.sendDeathMsg c p status true := by simp only [Procs.exit, hpp]
    rw [heq]
    have hu := s.sendDeathMsg_user c p status
    refine ⟨⟨(s.user p).zombies, ⟨s.nextDm, c, status, (s.user c).pgrp⟩, [], ?_, rfl, Nat.le_refl _⟩,
      ?_, ?_, ?_⟩
    · rw [(hu p).1, if_pos rfl]
    · rw [sendDeathMsg_nextDm]
      omega
    · intro q hq
      rw [sendDeathMsg_tree.2.2] at hq
      exact absurd (h.mail.told_lt hq) (Nat.lt_irrefl _)
    · intro q dm hdm hid
      by_contra hqp
      rw [(hu q).1, if_neg hqp] at hdm
      have := h.mail.lt hdm
      omega

theorem OnlyFor.history (h : s.OnlyFor p d) (hi : s.Inv)
    (hr : History Step s tr s') (hm : ∀ x ∈ tr, Meets x.1 x.2) : s'.Inv ∧ s'.OnlyFor p d :=
  hr.invariant (I := fun s => s.Inv ∧ s.OnlyFor p d)
    (fun _ _ _ hi hc hst => ⟨hi.1.step hc hst, hi.2.step hi.1 hc hst⟩) ⟨hi, h⟩ hm

/-- **An exit is reported once.**  Take a run from the start in which no process is attached, exits or is
picked up while it is held, and in it the exit of a process `c` whose parent `p`, the one that forked it, is
alive.  Whatever comes after, the exit is reported once at most, and to `p` only; once it has been, no list
holds the message; and as long as `p` does not exit itself, `p` gets the report when it has made one pass of
`wait4 (-1, ..)` more than there were messages before this one, and is never left asleep without it. -/
theorem exit_reported_once {tr tr' : List (Procs P × Op P)} {u : Procs P} {status : Int}
    (hr : History Step empty tr s) (hm : ∀ x ∈ tr, Meets x.1 x.2)
    (hexit : Step s (.exit c status true) s') (hme : s.Meets (.exit c status true))
    (ho : s.orig c = .proc p) (hr' : History Step s' tr' u) (hm' : ∀ x ∈ tr', Meets x.1 x.2) :
    (u.told.map Prod.snd).count s.nextDm ≤ 1 ∧
    (∀ q, (q, s.nextDm) ∈ u.told → q = p) ∧
    ((p, s.nextDm) ∈ u.told → ∀ q, ∀ dm ∈ (u.user q).zombies, dm.id ≠ s.nextDm) ∧
    ((∀ x ∈ tr', x.2 ≠ .close p) →
      ((s.user p).zombies.length < passes p tr' → (p, s.nextDm) ∈ u.told) ∧
      ((p, s.nextDm) ∉ u.told → (u.user p).pc ≠ .wait4 .any false)) := by
  have hi := inv_of_history hr hm
  have hi' : s'.Inv := hi.step hme hexit
  obtain ⟨hpend, honly⟩ := hi.exit_pending hme hexit ho
  obtain ⟨hiu, honlyu⟩ := honly.history hi' hr' hm'
  refine ⟨nodup_iff_count_le_one.mp hiu.mail.told_nodup _, honlyu.told, ?_, ?_⟩
  · intro ht q dm hdm
    exact hiu.mail.told_gone ht hdm
  · intro hc
    rcases pending_history hi' hr' hm' hc hpend with ht | ⟨hle, a, dm, b, hl, -, -⟩
    · exact ⟨fun _ => ht, fun hn => absurd ht hn⟩
    · refine ⟨fun hlt => by omega, ?_⟩
      intro _ hpc
      have := (hiu.asleep hpc).1
      rw [hl] at this
      simp at this

/-- Process 0 has forked process 1. -/
def forked : Procs Nat := (empty.start 0 0).vfork 1 0

theorem running_forked : forked.Running 1 := ⟨rfl, rfl, by decide⟩

theorem history_forked : ∃ tr, History Step empty tr forked ∧ ∀ x ∈ tr, Meets x.1 x.2 := by
  have h0 : Step (empty : Procs Nat) (.start 0) (empty.start 0 0) := .start 0 rfl
  have h1 : Step (empty.start 0 0) (.vfork 1 0) forked := .vfork rfl ⟨rfl, rfl, by decide⟩
  exact ⟨_, .snoc (.snoc (.nil _) h0) h1, by simp [Meets]⟩

theorem exit_reported_once_forked :
    (0, 0) ∈ ((forked.exit 1 0 true).wait4 [1] 0 .any false false).1.told := by
  obtain ⟨tr, hr, hm⟩ := history_forked
  have hheld : ∀ s : Procs Nat, (s.user 1).opptr = .null → ¬ s.Held 1 := by
    rintro s hs ⟨q, hq, -⟩
    rw [hs] at hq
    cases hq
  have hwait : Step (forked.exit 1 0 true) (.wait4 0 .any false false)
      ((forked.exit 1 0 true).wait4 [1] 0 .any false false).1 :=
    .wait4 ⟨rfl, .inl rfl, by decide⟩ ⟨rfl, rfl⟩
  have hfound : ∀ dm, (forked.exit 1 0 true).found 0 .any = some dm →
      ¬ (forked.exit 1 0 true).Held dm.child := by
    intro dm hdm
    cases hdm
    exact hheld _ rfl
  have hmain := exit_reported_once hr hm (.exit running_forked) ⟨hheld _ rfl, rfl⟩ rfl
    (.snoc (.nil _) hwait) (by simpa [Meets] using hfound)
  exact (hmain.2.2.2 (by simp)).1 (by decide)

/-- Process 2 traces the process 1 that process 0 has forked; process 1 exits. -/
def tracedExit : Procs Nat := ((forked.start 2 2).attach 2 1).exit 1 0 true

/-- Both `wait4` calls of the tracer report the exit, the second one frees the message, and there is
nothing left for the parent, alive as it is. -/
theorem tracer_told_twice : ∃ tr u, History Step empty tr u ∧ u.orig 1 = .proc 0 ∧
    u.tree.live 0 = true ∧ u.told = [(2, 0), (2, 0)] ∧ (u.user 0).zombies = [] ∧
    (u.user 2).zombies = [] := by
  obtain ⟨tr, hr, -⟩ := history_forked
  have h2 : Step forked (.start 2) (forked.start 2 2) := .start 2 rfl
  have h3 : Step (forked.start 2 2) (.attach 2 1) ((forked.start 2 2).attach 2 1) :=
    .attach ⟨rfl, rfl, by decide⟩ rfl (by decide) rfl
  have h4 : Step ((forked.start 2 2).attach 2 1) (.exit 1 0 true) tracedExit :=
    .exit ⟨rfl, rfl, by decide⟩
  have h5 : Step tracedExit (.wait4 2 .any false false) (tracedExit.wait4 [1] 2 .any false false).1 :=
    .wait4 ⟨rfl, .inl rfl, by decide⟩ ⟨rfl, rfl⟩
  have h6 : Step (tracedExit.wait4 [1] 2 .any false false).1 (.wait4 2 .any false false)
      ((tracedExit.wait4 [1] 2 .any false false).1.wait4 [] 2 .any false false).1 :=
    .wait4 ⟨rfl, .inl rfl, by decide⟩ rfl
  exact ⟨_, _, .snoc (.snoc (.snoc (.snoc (.snoc hr h2) h3) h4) h5) h6, rfl, rfl, rfl, rfl, rfl⟩

end Procs

end Ixemul.Proc
