/-
# Ixemul.Proc.Mail — death messages, and the children asleep on them (vfork.c).

A message is on one list at most, and numbered in the order of sending (`Mail`).  The child that sent it
sleeps on it until it has been taken off its list (`Mourned`).  Only an exit, a `wait4` that takes a message,
and closing the library change which messages there are and who sleeps (`Kept`).
-/
import Ixemul.Proc.Wait

namespace Ixemul.Proc

open Lib.Links Lib.Run
open Function List

variable {P : Type*}

/-! ## Messages -/

/-- Where the messages are: on the lists `z`, or reported; `next` have been sent. -/
structure Mail (z : P → List (DeathMsg P)) (told : List (P × Nat)) (next : Nat) : Prop where
  lt : ∀ {p dm}, dm ∈ z p → dm.id < next
  one : ∀ {p q dm dm'}, dm ∈ z p → dm' ∈ z q → dm.id = dm'.id → p = q
  nodup : ∀ p, ((z p).map DeathMsg.id).Nodup
  told_lt : ∀ {x}, x ∈ told → x.2 < next
  told_gone : ∀ {x p dm}, x ∈ told → dm ∈ z p → dm.id ≠ x.2
  told_nodup : (told.map Prod.snd).Nodup

namespace Mail

variable {z z' : P → List (DeathMsg P)} {told : List (P × Nat)} {next : Nat} {p : P} {dm : DeathMsg P}

theorem sub (h : Mail z told next) (hsub : ∀ q, (z' q).Sublist (z q)) : Mail z' told next where
  lt := fun hdm => h.lt ((hsub _).subset hdm)
  one := fun hdm hdm' => h.one ((hsub _).subset hdm) ((hsub _).subset hdm')
  nodup := fun q => (h.nodup q).sublist ((hsub q).map _)
  told_lt := h.told_lt
  told_gone := fun hx hdm => h.told_gone hx ((hsub _).subset hdm)
  told_nodup := h.told_nodup

/-- A new message is sent to `p`. -/
theorem send (h : Mail z told next) (hid : dm.id = next) (hp : z' p = z p ++ [dm])
    (hq : ∀ q, q ≠ p → z' q = z q) : Mail z' told (next + 1) := by
  have hmem : ∀ {q d}, d ∈ z' q → d ∈ z q ∨ (q = p ∧ d = dm) := by
    intro q d hd
    by_cases hqp : q = p
    · subst hqp
      rw [hp] at hd
      simpa using hd
    · rw [hq q hqp] at hd
      exact .inl hd
  refine ⟨?_, ?_, ?_, ?_, ?_, h.told_nodup⟩
  · intro q d hd
    rcases hmem hd with hd | ⟨-, rfl⟩
    · have := h.lt hd
      omega
    · omega
  · intro q r d d' hd hd' he
    rcases hmem hd with hd | ⟨rfl, rfl⟩ <;> rcases hmem hd' with hd' | ⟨rfl, rfl⟩
    · exact h.one hd hd' he
    · have := h.lt hd
      omega
    · have := h.lt hd'
      omega
    · rfl
  · intro q
    by_cases hqp : q = p
    · subst hqp
      rw [hp, map_append]
      refine nodup_append.mpr ⟨h.nodup q, by simp, ?_⟩
      intro a ha b hb
      obtain ⟨d, hd, rfl⟩ := mem_map.mp ha
      have hlt := h.lt hd
      simp only [map_cons, map_nil, mem_singleton] at hb
      omega
    · rw [hq q hqp]
      exact h.nodup q
  · intro x hx
    have := h.told_lt hx
    omega
  · intro x q d hx hd
    rcases hmem hd with hd | ⟨-, rfl⟩
    · exact h.told_gone hx hd
    · have := h.told_lt hx
      omega

/-- A message is told and taken off its list. -/
theorem deliver (h : Mail z told next) (hdm : dm ∈ z p) (hsub : ∀ q, (z' q).Sublist (z q))
    (hout : ∀ d ∈ z' p, d.id ≠ dm.id) : Mail z' (told ++ [(p, dm.id)]) next := by
  have hs := h.sub hsub
  refine ⟨hs.lt, hs.one, hs.nodup, ?_, ?_, ?_⟩
  · intro x hx
    rcases mem_append.mp hx with hx | hx
    · exact h.told_lt hx
    · rw [mem_singleton.mp hx]
      exact h.lt hdm
  · intro x q d hx hd
    rcases mem_append.mp hx with hx | hx
    · exact hs.told_gone hx hd
    · rw [mem_singleton.mp hx]
      intro he
      have hqp := h.one ((hsub q).subset hd) hdm he
      subst hqp
      exact hout d hd he
  · rw [map_append]
    refine nodup_append.mpr ⟨h.told_nodup, by simp, ?_⟩
    intro a ha b hb
    obtain ⟨x, hx, rfl⟩ := mem_map.mp ha
    simp only [map_cons, map_nil, mem_singleton] at hb
    rw [hb]
    exact (h.told_gone hx hdm).symm

end Mail

/-- The process has passed its exit. -/
def Pc.exited : Pc P → Bool
  | .death _ _ => true
  | .gone => true
  | _ => false

namespace Procs

/-- Every message is on one list, and its child is there, asleep on it. -/
structure Mourned (s : Procs P) : Prop where
  mail : Mail (fun p => (s.user p).zombies) [] s.nextDm
  child : ∀ {p dm}, dm ∈ (s.user p).zombies →
    s.tree.live dm.child = true ∧ (s.user dm.child).pc = .death dm.id false

theorem mourned_empty : (empty : Procs P).Mourned where
  mail := ⟨nofun, nofun, fun _ => nodup_nil, nofun, nofun, nodup_nil⟩
  child := nofun

/-- No message comes, and no sleeper comes, is woken or is gone. -/
structure Kept (s s' : Procs P) : Prop where
  next : s'.nextDm = s.nextDm
  zombies : ∀ q, (s'.user q).zombies.Sublist (s.user q).zombies
  asleep : ∀ {c id}, s.tree.live c = true → (s.user c).pc = .death id false →
    s'.tree.live c = true ∧ (s'.user c).pc = .death id false
  back : ∀ {c id}, (s'.user c).pc = .death id false → (s.user c).pc = .death id false

variable [DecidableEq P]

/-- The message that a pass of `wait4 (pid, ..)` finds. -/
def found (s : Procs P) (me : P) (pid : WaitPid P) : Option (DeathMsg P) :=
  (s.user me).zombies.find? fun dm => pid.fits (s.user me).pgrp dm.child dm.pgrp

variable {s s' s'' : Procs P} {c p q me task : P} {u : User P} {tree t t' : Tree P} {dm : DeathMsg P}
  {status : Int} {pid : WaitPid P} {fuel id : Nat} {op : Op P} {l : List (DeathMsg P)}
  {fits : DeathMsg P → Bool}

omit [DecidableEq P] in
theorem Kept.trans (h : s.Kept s') (h' : s'.Kept s'') : s.Kept s'' where
  next := h'.next.trans h.next
  zombies q := (h'.zombies q).trans (h.zombies q)
  asleep hc hid := h'.asleep (h.asleep hc hid).1 (h.asleep hc hid).2
  back hid := h.back (h'.back hid)

omit [DecidableEq P] in
/-- What changes no message and no sleep on one keeps who mourns. -/
theorem Mourned.kept (h : s.Mourned) (hk : s.Kept s') : s'.Mourned where
  mail := by
    rw [hk.next]
    exact h.mail.sub hk.zombies
  child hdm := by
    obtain ⟨hlive, hpc⟩ := h.child ((hk.zombies _).subset hdm)
    exact hk.asleep hlive hpc

theorem setUser_zombies (hz : u.zombies = (s.user c).zombies) (q : P) :
    ((s.setUser c u).user q).zombies = (s.user q).zombies := by
  rw [setUser_user]
  split
  · next hq => rw [hq, hz]
  · rfl

/-! ### Steps that keep them -/

/-- One process changes, but not its list, and its place only where it does not sleep on a message.  The
links between the processes do not matter. -/
theorem kept_update (hz : u.zombies = (s.user c).zombies)
    (hpc : ∀ id, u.pc = .death id false ↔ (s.user c).pc = .death id false)
    (hlive : tree.live = s.tree.live) (told : List (P × Nat)) :
    s.Kept { s.setUser c u with tree, told } := by
  have hpc' : ∀ d id, ((s.setUser c u).user d).pc = .death id false ↔ (s.user d).pc = .death id false := by
    intro d id
    rw [setUser_user]
    split
    · next hd =>
      subst hd
      exact hpc id
    · exact Iff.rfl
  refine ⟨rfl, ?_, ?_, fun hid => (hpc' _ _).mp hid⟩
  · exact fun q => setUser_zombies hz q ▸ List.Sublist.refl _
  · intro d id hd hid
    exact ⟨by rwa [hlive], (hpc' d id).mpr hid⟩

theorem kept_setUser (hz : u.zombies = (s.user c).zombies)
    (hpc : ∀ id, u.pc = .death id false ↔ (s.user c).pc = .death id false) : s.Kept (s.setUser c u) :=
  kept_update hz hpc rfl s.told

theorem kept_wakeUser (q : P) : s.Kept (s.ixWakeup (.user q)) where
  next := rfl
  zombies _ := List.Sublist.refl _
  asleep hc hid := ⟨hc, wake_death.mpr ⟨hid, nofun⟩⟩
  back hid := (wake_death.mp hid).1

theorem kept_resume : s.Kept (s.resume p) := by
  unfold resume
  split
  · next hpc =>
    apply kept_setUser
    · rfl
    · exact fun id => ⟨nofun, fun hid => nomatch hpc.symm.trans hid⟩
  · exact ⟨rfl, fun _ => List.Sublist.refl _, fun hc hid => ⟨hc, hid⟩, id⟩

theorem kept_attach : s.Kept (s.attach me task) := by
  by_cases h : s.tree.pptr task = .proc me
  · rw [attach_own h]
    exact kept_setUser rfl fun _ => Iff.rfl
  · rw [attach_other h]
    refine kept_update ?_ ?_ Tree.procReparent_live s.told
    · rfl
    · exact fun _ => Iff.rfl

theorem kept_detach : s.Kept (s.detach task) := by
  rw [detach_eq]
  refine kept_update ?_ ?_ ?_ s.told
  · rfl
  · exact fun _ => Iff.rfl
  · split
    · exact Tree.procReparent_live
    · rfl

theorem kept_stop : s.Kept (s.stop p) := by
  have hstat := kept_resume.trans (kept_setUser (s := s.resume p) (c := p)
    (u := { (s.resume p).user p with stat := .stop, swted := false }) rfl (fun _ => Iff.rfl))
  unfold stop
  simp only
  split
  · exact hstat.trans (kept_wakeUser _)
  · exact hstat

theorem kept_giveBack {t : P} : s.Kept (s.giveBack me t dm) := by
  show s.Kept { s.setUser dm.child { s.user dm.child with opptr := .null } with
    tree := s.tree.procReparent dm.child (.proc t), told := s.told ++ [(me, dm.id)] }
  refine kept_update ?_ ?_ Tree.procReparent_live _
  · rfl
  · exact fun _ => Iff.rfl

theorem kept_new {pgrp : Int} {orig : P → PPtr P} (hc : s.tree.live c = false)
    (hlive : tree.live = update s.tree.live c true) :
    s.Kept { s.setUser c (.fresh pgrp) with tree, orig } where
  next := rfl
  zombies q := by
    show ((s.setUser c (.fresh pgrp)).user q).zombies.Sublist _
    rw [setUser_user]
    split
    · exact nil_sublist _
    · exact List.Sublist.refl _
  asleep {d id} hd hid := by
    have hdc : d ≠ c := Tree.ne_of_live hd hc
    refine ⟨?_, ?_⟩
    · show tree.live d
      rw [hlive, update_of_ne hdc]
      exact hd
    · show ((s.setUser c (.fresh pgrp)).user d).pc = _
      rw [setUser_ne hdc]
      exact hid
  back {d id} hid := by
    change ((s.setUser c (.fresh pgrp)).user d).pc = _ at hid
    rw [setUser_user] at hid
    split at hid
    · exact nomatch hid
    · exact hid

theorem kept_gone (hme : s.Running me) : s.Kept (s.setUser me { s.user me with pc := .gone }) :=
  kept_setUser rfl (fun _ => ⟨nofun, fun hid => nomatch hme.out.symm.trans hid⟩)

theorem kept_ixSleep (hme : (s.user me).pc = .out) : s.Kept (s.ixSleep me (.wait4 pid false)) :=
  kept_setUser rfl (fun _ => ⟨nofun, fun hid => nomatch hme.symm.trans hid⟩)

theorem kept_sendDeathMsg_false (hme : s.Running me) : s.Kept (s.sendDeathMsg me p status false) := by
  have hgone : ∀ {s' : Procs P}, (∀ id, (s'.user me).pc ≠ .death id false) →
      s'.Kept (s'.setUser me { s'.user me with pc := .gone }) :=
    fun hpc => kept_setUser rfl fun id => ⟨nofun, fun hid => absurd hid (hpc id)⟩
  have hout : ∀ id, (s.user me).pc ≠ .death id false := fun id hid => nomatch hme.out.symm.trans hid
  simp only [Procs.sendDeathMsg, Bool.false_eq_true, if_false]
  split
  · refine (kept_wakeUser p).trans (hgone ?_)
    exact fun id hid => hout id (wake_death.mp hid).1
  · exact hgone hout

/-! ### Sending a message -/

theorem sendDeathMsg_user (s : Procs P) (me p : P) (status : Int) (q : P) :
    ((s.sendDeathMsg me p status true).user q).zombies = (if q = p then (s.user p).zombies ++
      [⟨s.nextDm, me, status, (s.user me).pgrp⟩] else (s.user q).zombies) ∧
    ((s.sendDeathMsg me p status true).user q).opptr = (s.user q).opptr ∧
    ((s.sendDeathMsg me p status true).user q).pc =
      (if q = me then .death s.nextDm false
      else if (s.user p).stat = .sleep ∧ wchan p (s.user p).pc = some (.user p)
      then wake (.user p) q (s.user q).pc else (s.user q).pc) ∧
    ((s.sendDeathMsg me p status true).user q).stat = (if q = me then .sleep else (s.user q).stat) := by
  simp only [sendDeathMsg, if_true]
  split <;> by_cases hqm : q = me <;> by_cases hqp : q = p <;>
    simp_all [ixSleep, ixWakeup, setUser, update_apply]

theorem sendDeathMsg_tree {alloc : Bool} :
    (s.sendDeathMsg me p status alloc).tree = s.tree ∧ (s.sendDeathMsg me p status alloc).orig = s.orig ∧
      (s.sendDeathMsg me p status alloc).told = s.told := by
  simp only [sendDeathMsg]
  cases alloc <;> simp <;> split <;> simp [ixSleep, ixWakeup]

theorem sendDeathMsg_nextDm : (s.sendDeathMsg me p status true).nextDm = s.nextDm + 1 := by
  simp only [sendDeathMsg, if_true]
  split <;> simp [ixSleep, ixWakeup]

/-- The message goes to a list, and its child to sleep on it. -/
theorem Mourned.sendDeathMsg (h : s.Mourned) (hme : s.Running me) :
    (s.sendDeathMsg me p status true).Mourned := by
  have hu := s.sendDeathMsg_user me p status
  have htree : (s.sendDeathMsg me p status true).tree = s.tree := sendDeathMsg_tree.1
  have hasleep : ∀ {c id}, (s.user c).pc = .death id false →
      ((s.sendDeathMsg me p status true).user c).pc = .death id false := by
    intro c id hid
    have hcm : c ≠ me := by
      rintro rfl
      exact nomatch hme.out.symm.trans hid
    rw [(hu c).2.2.1, if_neg hcm]
    split
    · exact wake_death.mpr ⟨hid, nofun⟩
    · exact hid
  constructor
  · rw [sendDeathMsg_nextDm]
    have hid : (⟨s.nextDm, me, status, (s.user me).pgrp⟩ : DeathMsg P).id = s.nextDm := rfl
    refine h.mail.send (p := p) hid ?_ ?_
    · rw [(hu p).1, if_pos rfl]
    · intro q hq
      rw [(hu q).1, if_neg hq]
  · intro q dm hdm
    rw [htree]
    rw [(hu q).1] at hdm
    have hmem : dm ∈ (s.user q).zombies ∨ dm = ⟨s.nextDm, me, status, (s.user me).pgrp⟩ := by
      split at hdm
      · next hq =>
        subst hq
        simpa using hdm
      · exact .inl hdm
    rcases hmem with hold | rfl
    · exact ⟨(h.child hold).1, hasleep (h.child hold).2⟩
    · refine ⟨hme.live, ?_⟩
      rw [(hu me).2.2.1, if_pos rfl]

/-! ### Picking a message up -/

theorem reap_user (s : Procs P) (me : P) (fits : DeathMsg P → Bool) (dm : DeathMsg P) (q : P) :
    ((s.reap me fits dm).user q).zombies =
      (if q = me then (s.user me).zombies.eraseP fits else (s.user q).zombies) ∧
    ((s.reap me fits dm).user q).opptr = (s.user q).opptr ∧
    ((s.reap me fits dm).user q).pc = wake (.dm dm.id) q (s.user q).pc ∧
    (q ≠ dm.child → ((s.reap me fits dm).user q).stat = (s.user q).stat) := by
  by_cases hqm : q = me <;> by_cases hqc : q = dm.child <;>
    simp_all [Procs.reap, ixWakeup, Procs.setUser, update_apply]

theorem reap_sub (s : Procs P) (me : P) (fits : DeathMsg P → Bool) (dm : DeathMsg P) (q : P) :
    ((s.reap me fits dm).user q).zombies.Sublist (s.user q).zombies := by
  rw [(s.reap_user me fits dm q).1]
  split
  · next hq =>
    rw [hq]
    exact eraseP_sublist
  · exact List.Sublist.refl _

omit [DecidableEq P] in
/-- No message left on the list has the number of the one that was taken. -/
theorem eraseP_id_ne {d : DeathMsg P}
    (hnd : (l.map DeathMsg.id).Nodup) (h : l.find? fits = some dm) (hd : d ∈ l.eraseP fits) :
    d.id ≠ dm.id := by
  intro he
  obtain ⟨hdm, a, b, rfl, ha⟩ := find?_eq_some_iff_append.mp h
  rw [eraseP_append_right _ (by simpa using ha), eraseP_cons_of_pos hdm] at hd
  rw [map_append] at hnd
  have hmem : dm.id ∈ a.map DeathMsg.id ++ b.map DeathMsg.id := by
    rw [← he, ← map_append]
    exact mem_map_of_mem hd
  exact (nodup_middle.mp hnd).notMem hmem

/-- The message is taken off, and its child wakes up. -/
theorem Mourned.reap (h : s.Mourned) {fits : DeathMsg P → Bool}
    (hfind : (s.user me).zombies.find? fits = some dm) : (s.reap me fits dm).Mourned := by
  have hdm : dm ∈ (s.user me).zombies := mem_of_find?_eq_some hfind
  have hu := s.reap_user me fits dm
  have hsub := s.reap_sub me fits dm
  refine ⟨h.mail.sub hsub, ?_⟩
  intro q d hd
  obtain ⟨hlive, hpc⟩ := h.child ((hsub q).subset hd)
  refine ⟨hlive, ?_⟩
  rw [(hu d.child).2.2.1]
  refine wake_death.mpr ⟨hpc, ?_⟩
  intro he
  -- a message of the same number would have been twice on the list
  have hid : d.id = dm.id := by simpa using he.symm
  have hqm := h.mail.one ((hsub q).subset hd) hdm hid
  subst hqm
  rw [(hu q).1, if_pos rfl] at hd
  exact eraseP_id_ne (h.mail.nodup q) hfind hd hid

theorem found_resume : (s.resume me).found me pid = s.found me pid := by
  obtain ⟨hg, hz, -⟩ := resume_user (s := s) (p := me) (q := me)
  rw [found, found, hg, hz]

/-- A `wait4` that finds no message returns, reports a child that stopped, or sleeps. -/
theorem wait4_none {kids : List P} {nohang untraced : Bool} (hf : s.found me pid = none) :
    (s.wait4 kids me pid nohang untraced).1 = s.resume me ∨
    (∃ c, (s.wait4 kids me pid nohang untraced).1 =
      (s.resume me).setUser c { (s.resume me).user c with swted := true }) ∨
    (s.wait4 kids me pid nohang untraced).1 = (s.resume me).ixSleep me (.wait4 pid false) := by
  have hf' : (s.resume me).found me pid = none := found_resume.trans hf
  unfold found at hf'
  simp only [Procs.wait4, hf']
  cases (s.resume me).stoppedChild kids ((s.resume me).user me).pgrp pid untraced with
  | some c => exact .inr (.inl ⟨c, rfl⟩)
  | none =>
    cases (s.resume me).possibleChilds kids pid with
    | false => exact .inl rfl
    | true =>
      cases nohang with
      | true => exact .inl rfl
      | false => exact .inr (.inr rfl)

/-! ### Closing the library -/

omit [DecidableEq P] in
@[simp] theorem exited_wake [DecidableEq P] {ch : Chan P} {pc : Pc P} :
    (wake ch p pc).exited = pc.exited := by
  cases pc <;> rfl

theorem wakeAll_rest (s : Procs P) (zs : List (DeathMsg P)) :
    (s.wakeAll zs).tree = s.tree ∧ (s.wakeAll zs).nextDm = s.nextDm ∧
      (s.wakeAll zs).orig = s.orig ∧ (s.wakeAll zs).told = s.told := by
  induction zs generalizing s with
  | nil => exact ⟨rfl, rfl, rfl, rfl⟩
  | cons dm zs ih => exact ih _

theorem wakeAll_user (s : Procs P) (zs : List (DeathMsg P)) (q : P) :
    ((s.wakeAll zs).user q).zombies = (s.user q).zombies ∧
    ((s.wakeAll zs).user q).opptr = (s.user q).opptr ∧
    ((s.wakeAll zs).user q).stat = (s.user q).stat ∧
    ((s.wakeAll zs).user q).pc.exited = (s.user q).pc.exited ∧
    (∀ pid, ((s.wakeAll zs).user q).pc = .wait4 pid false ↔ (s.user q).pc = .wait4 pid false) ∧
    ∀ id, (s.user q).pc = .death id false → (∀ dm ∈ zs, dm.id ≠ id) →
      ((s.wakeAll zs).user q).pc = .death id false := by
  induction zs generalizing s with
  | nil => simp [wakeAll]
  | cons dm zs ih =>
    obtain ⟨hz, hop, hst, hex, hw, hd⟩ := ih (s.ixWakeup (.dm dm.id))
    refine ⟨hz, hop, hst, hex.trans exited_wake, ?_, ?_⟩
    · intro pid
      exact (hw pid).trans (wake_wait4.trans (and_iff_left (by simp)))
    · intro id hid hne
      refine hd id (wake_death.mpr ⟨hid, ?_⟩) fun d hdm => hne d (mem_cons_of_mem _ hdm)
      simpa using hne dm (mem_cons_self ..)

theorem close_rest (s : Procs P) (p : P) (tree : Tree P) :
    (s.close p tree).tree = tree ∧ (s.close p tree).nextDm = s.nextDm ∧
    (s.close p tree).told = s.told ∧
    ∀ q, (s.close p tree).orig q = if s.orig q = .proc p then .init else s.orig q := by
  obtain ⟨ht, hn, ho, htd⟩ := wakeAll_rest { s with
    tree := tree
    orig := fun q => if s.orig q = PPtr.proc p then .init else s.orig q } (s.user p).zombies
  exact ⟨ht, hn, htd, fun q => congrFun ho q⟩

theorem close_user (s : Procs P) (p : P) (tree : Tree P) (q : P) :
    ((s.close p tree).user q).zombies = (if q = p then [] else (s.user q).zombies) ∧
    ((s.close p tree).user q).opptr = (s.user q).opptr ∧
    ((s.close p tree).user q).stat = (s.user q).stat ∧
    ((s.close p tree).user q).pc.exited = (s.user q).pc.exited ∧
    (∀ pid, ((s.close p tree).user q).pc = .wait4 pid false ↔ (s.user q).pc = .wait4 pid false) ∧
    ∀ id, (s.user q).pc = .death id false → (∀ dm ∈ (s.user p).zombies, dm.id ≠ id) →
      ((s.close p tree).user q).pc = .death id false := by
  have hw := wakeAll_user { s with
    tree := tree
    orig := fun q => if s.orig q = PPtr.proc p then .init else s.orig q } (s.user p).zombies q
  simp only [Procs.close, setUser_user]
  by_cases hq : q = p
  · subst hq
    simp only [↓reduceIte]
    exact ⟨trivial, hw.2⟩
  · simp only [if_neg hq]
    exact hw

/-- Closing the library puts no message on a list. -/
theorem close_sub (s : Procs P) (p : P) (tree : Tree P) (q : P) :
    ((s.close p tree).user q).zombies.Sublist (s.user q).zombies := by
  rw [(s.close_user p tree q).1]
  split
  · exact nil_sublist _
  · exact List.Sublist.refl _

omit [DecidableEq P] in
theorem orphan_live {x : Option P} [DecidableEq P] (h : t.orphan fuel x = some t') : t'.live = t.live := by
  fun_induction Tree.orphan fuel x t with
  | case1 =>
    cases h
    rfl
  | case2 => exact nomatch h
  | case3 fuel c t ih => exact ih h

theorem ixClose_live (h : t.ixClose fuel me = some t') : t'.live = update t.live me false := by
  obtain ⟨t₁, ht₁, rfl⟩ := Option.map_eq_some_iff.mp h
  simp only [Tree.unlink_eq]
  rw [orphan_live ht₁]

/-- Who closes the library wakes those that sleep on messages for it. -/
theorem Mourned.close (h : s.Mourned) (hp : ∀ id, (s.user p).pc ≠ .death id false)
    (htree : s.tree.ixClose fuel p = some tree) : (s.close p tree).Mourned := by
  have hu := s.close_user p tree
  obtain ⟨htree', hnext, -, -⟩ := s.close_rest p tree
  have hsub := s.close_sub p tree
  constructor
  · rw [hnext]
    exact h.mail.sub hsub
  · intro q dm hdm
    have hqp : q ≠ p := by
      rintro rfl
      rw [(hu q).1, if_pos rfl] at hdm
      exact not_mem_nil hdm
    have hold := (hsub q).subset hdm
    obtain ⟨hlive, hpc⟩ := h.child hold
    have hchild : dm.child ≠ p := fun e => hp _ (e ▸ hpc)
    constructor
    · rw [htree', ixClose_live htree, update_of_ne hchild]
      exact hlive
    · refine (hu dm.child).2.2.2.2.2 dm.id hpc ?_
      intro d hd he
      exact hqp (h.mail.one hold hd he.symm)

/-! ### Every step -/

/-- What a step does to the messages and to those who sleep on them. -/
inductive Effect (s : Procs P) : Op P → Procs P → Prop where
  | kept {op : Op P} {s' : Procs P} (h : s.Kept s') : Effect s op s'
  | sent {me p : P} {status : Int} (hme : s.Running me) :
      Effect s (.exit me status true) (s.sendDeathMsg me p status true)
  | reaped {op : Op P} {s₁ : Procs P} {me : P} {fits : DeathMsg P → Bool} {dm : DeathMsg P} (h : s.Kept s₁)
      (hfind : (s₁.user me).zombies.find? fits = some dm) : Effect s op (s₁.reap me fits dm)
  | closed {op : Op P} {p : P} {tree : Tree P} {fuel : Nat} (hp : ∀ id, (s.user p).pc ≠ .death id false)
      (htree : s.tree.ixClose fuel p = some tree) : Effect s op (s.close p tree)

/-- **Every step sends a message, takes one, closes the library or keeps all of it.** -/
theorem Step.effect (hs : Step s op s') : s.Effect op s' := by
  cases hs with
  | start pgrp hp => exact .kept (kept_new hp rfl)
  | vfork hc => exact .kept (kept_new hc Tree.launcher_live)
  | attach => exact .kept kept_attach
  | detach => exact .kept kept_detach
  | stop => exact .kept kept_stop
  | cont | untrace => exact .kept (kept_setUser rfl (fun _ => Iff.rfl))
  | interrupt => exact .kept (kept_wakeUser _)
  | @exit p status alloc hp =>
    unfold Procs.exit
    split
    · cases alloc with
      | true => exact .sent hp
      | false => exact .kept (kept_sendDeathMsg_false hp)
    · exact .kept (kept_gone hp)
  | @wait4 me pid nohang untraced kids hme =>
    cases hf : s.found me pid with
    | some dm =>
      have hf' : (s.resume me).found me pid = some dm := found_resume.trans hf
      unfold found at hf'
      simp only [Procs.wait4, hf']
      split
      · exact .kept (kept_resume.trans kept_giveBack)
      · exact .reaped kept_resume hf'
    | none =>
      rcases wait4_none hf with heq | ⟨c, heq⟩ | heq <;> rw [heq]
      · exact .kept kept_resume
      · exact .kept (kept_resume.trans (kept_setUser rfl (fun _ => Iff.rfl)))
      · exact .kept (kept_resume.trans (kept_ixSleep hme.resume_pc))
  | close hlive hpc htree =>
    refine .closed (fun id hid => ?_) htree
    rcases hpc with hpc | ⟨i, hpc⟩ <;> exact nomatch hpc.symm.trans hid

theorem Mourned.step (h : s.Mourned) (hs : Step s op s') : s'.Mourned := by
  cases hs.effect with
  | kept hk => exact h.kept hk
  | sent hme => exact h.sendDeathMsg hme
  | reaped hk hfind => exact (h.kept hk).reap hfind
  | closed hp htree => exact h.close hp htree

end Procs

end Ixemul.Proc
