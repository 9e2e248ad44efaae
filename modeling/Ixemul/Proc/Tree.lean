/-
# Ixemul.Proc.Tree — parents and children (`library/vfork.c`, `library/ix_close_68k.c`).

Every process keeps its parent (`p_pptr`), its youngest child (`p_cptr`) and its next older and next younger
sibling (`p_osptr`, `p_ysptr`).  `launcher` hangs a new child in, `proc_reparent` moves a process from one
parent to another, and `ix_close` takes an exiting process out after giving its children to init.  Init is
not a process here: its children have a `p_pptr` of 1, and stay linked to each other with no `p_cptr`
anywhere that leads to them.
-/
import Ixemul.Lib.Run
import Ixemul.Lib.Siblings

namespace Ixemul.Proc

open Lib Lib.Links Lib.Run
open Function

variable {P : Type*}

/-! ## The functions -/

/-- A value of `p_pptr` or `p_opptr`: NULL, the 1 that stands for init, or a process. -/
inductive PPtr (P : Type*) where
  | null
  | init
  | proc (p : P)
  deriving DecidableEq

/-- The process a `p_pptr` points to, if it points to one. -/
def PPtr.proc? : PPtr P → Option P
  | proc p => some p
  | _ => none

@[simp] theorem PPtr.proc?_eq_some {v : PPtr P} {p : P} : v.proc? = some p ↔ v = .proc p := by
  cases v <;> simp [PPtr.proc?]

/-- The tree links of every `struct user`, and which of them belong to a process that has the library
open. -/
structure Tree (P : Type*) where
  live : P → Bool
  pptr : P → PPtr P
  cptr : P → Option P
  osptr : P → Option P
  ysptr : P → Option P

namespace Tree

/-- Before the first process. -/
def empty : Tree P where
  live := fun _ => false
  pptr := fun _ => .null
  cptr := fun _ => none
  osptr := fun _ => none
  ysptr := fun _ => none

section Functions

variable [DecidableEq P]

/-- `ix_open`: the links of a process that opens the library. -/
def ixOpen (me : P) (t : Tree P) : Tree P where
  live := update t.live me true
  pptr := update t.pptr me .init
  cptr := update t.cptr me none
  osptr := update t.osptr me none
  ysptr := update t.ysptr me none

/-- `if (x) x->p_osptr = o`. -/
def setOsptr (t : Tree P) : (x o : Option P) → Tree P
  | some x, o => { t with osptr := update t.osptr x o }
  | none, _ => t

/-- `if (x) x->p_ysptr = y`. -/
def setYsptr (t : Tree P) : (x y : Option P) → Tree P
  | some x, y => { t with ysptr := update t.ysptr x y }
  | none, _ => t

/-- `if (parent && parent != 1 && parent->p_cptr == child) parent->p_cptr = o`. -/
def dropChild (t : Tree P) : (parent : PPtr P) → (child : P) → (o : Option P) → Tree P
  | .proc p, child, o =>
    if t.cptr p = some child then { t with cptr := update t.cptr p o } else t
  | _, _, _ => t

/-- `launcher`, run by the new process `me` for the process `parent` that called `vfork`. -/
def launcher (me parent : P) (t : Tree P) : Tree P :=
  let t := t.ixOpen me
  let t := t.setOsptr (some me) (t.cptr parent)
  let t := t.setYsptr (some me) none
  let t := t.setYsptr (t.osptr me) (some me)
  let t := { t with cptr := update t.cptr parent (some me) }
  { t with pptr := update t.pptr me (.proc parent) }

/-- The statements `proc_reparent` and `ix_close` share: the siblings of `me` are linked to each other
and its parent, if there is one, forgets it. -/
def unlink (me : P) (t : Tree P) : Tree P :=
  let o := t.osptr me
  let y := t.ysptr me
  let t := t.setOsptr y o
  let t := t.setYsptr o y
  t.dropChild (t.pptr me) me o

/-- `proc_reparent (child, parent)`.  Moved to init, a process is only unlinked. -/
def procReparent (child : P) (parent : PPtr P) (t : Tree P) : Tree P :=
  if t.pptr child = parent then t
  else
    let t := t.unlink child
    match parent with
    | .proc p =>
      let o := t.cptr p
      let t := t.setYsptr o (some child)
      let t := t.setOsptr (some child) o
      let t := t.setYsptr (some child) none
      let t := { t with cptr := update t.cptr p (some child) }
      { t with pptr := update t.pptr child parent }
    | _ => t

/-- The loop of `ix_close` that gives the children to init; `none` when `fuel` rounds are not enough. -/
def orphan : (fuel : Nat) → (child : Option P) → Tree P → Option (Tree P)
  | _, none, t => some t
  | 0, some _, _ => none
  | fuel + 1, some c, t =>
    orphan fuel (t.osptr c) { t with pptr := update t.pptr c .init }

/-- What `ix_close` does to the tree. -/
def ixClose (fuel : Nat) (me : P) (t : Tree P) : Option (Tree P) :=
  (orphan fuel (t.cptr me) t).map fun t =>
    let t := { t with cptr := update t.cptr me none }
    let t := t.unlink me
    { t with live := update t.live me false }

/-! ## What the functions write -/

variable {t : Tree P} {me child p z : P} {x o y : Option P} {v : PPtr P}

@[simp] theorem setOsptr_osptr : (t.setOsptr x o).osptr z = if x = some z then o else t.osptr z := by
  cases x <;> simp [setOsptr, update_apply, eq_comm]

@[simp] theorem setOsptr_ysptr : (t.setOsptr x o).ysptr = t.ysptr := by cases x <;> rfl

@[simp] theorem setOsptr_cptr : (t.setOsptr x o).cptr = t.cptr := by cases x <;> rfl

@[simp] theorem setOsptr_pptr : (t.setOsptr x o).pptr = t.pptr := by cases x <;> rfl

@[simp] theorem setOsptr_live : (t.setOsptr x o).live = t.live := by cases x <;> rfl

@[simp] theorem setYsptr_ysptr : (t.setYsptr x y).ysptr z = if x = some z then y else t.ysptr z := by
  cases x <;> simp [setYsptr, update_apply, eq_comm]

@[simp] theorem setYsptr_osptr : (t.setYsptr x y).osptr = t.osptr := by cases x <;> rfl

@[simp] theorem setYsptr_cptr : (t.setYsptr x y).cptr = t.cptr := by cases x <;> rfl

@[simp] theorem setYsptr_pptr : (t.setYsptr x y).pptr = t.pptr := by cases x <;> rfl

@[simp] theorem setYsptr_live : (t.setYsptr x y).live = t.live := by cases x <;> rfl

/-- Only the `p_cptr` that names the child is changed. -/
theorem dropChild_eq : t.dropChild v child o =
    { t with cptr := fun q => if v = .proc q ∧ t.cptr q = some child then o else t.cptr q } := by
  cases v with
  | proc p =>
    simp only [dropChild, PPtr.proc.injEq]
    split
    · congr 1
      funext q
      by_cases hq : q = p
      · simp_all
      · simp [hq, Ne.symm hq]
    · next hp =>
      have hc : (fun q => if p = q ∧ t.cptr q = some child then o else t.cptr q) = t.cptr := by
        funext q
        refine if_neg ?_
        rintro ⟨rfl, hq⟩
        exact hp hq
      rw [hc]
  | null | init => simp [dropChild]

/-- All that `unlink` writes. -/
theorem unlink_eq : t.unlink me =
    { live := t.live
      pptr := t.pptr
      cptr := fun q => if t.pptr me = .proc q ∧ t.cptr q = some me then t.osptr me else t.cptr q
      osptr := fun z => if t.ysptr me = some z then t.osptr me else t.osptr z
      ysptr := fun z => if t.osptr me = some z then t.ysptr me else t.ysptr z } := by
  simp only [unlink, dropChild_eq, setYsptr_osptr, setYsptr_cptr, setYsptr_pptr, setYsptr_live,
    setOsptr_cptr, setOsptr_pptr, setOsptr_live, Tree.mk.injEq, true_and]
  exact ⟨funext fun z => setOsptr_osptr, funext fun z => by simp⟩

@[simp] theorem launcher_live : (t.launcher me p).live = update t.live me true := by
  simp [launcher, ixOpen]

@[simp] theorem procReparent_live : (t.procReparent child v).live = t.live := by
  unfold procReparent
  split
  · rfl
  · cases v <;> simp [unlink_eq]

theorem procReparent_pptr : (t.procReparent child (.proc p)).pptr = update t.pptr child (.proc p) := by
  unfold procReparent
  split
  · next hsame => rw [← hsame, update_eq_self]
  · simp [unlink_eq]

@[simp] theorem launcher_pptr : (t.launcher me p).pptr = update t.pptr me (.proc p) := by
  simp [launcher, ixOpen]

/-- The loop gives the children of a list to init, each once. -/
theorem orphan_eq {c : Option P} {l : List P} (hl : (pointer P).Chain t.osptr c l) (fuel : Nat) :
    orphan fuel c t =
      if l.length ≤ fuel then some { t with pptr := fun z => if z ∈ l then .init else t.pptr z }
      else none := by
  induction l generalizing c t fuel with
  | nil =>
    cases hl
    simp [orphan, pointer]
  | cons d l ih =>
    obtain ⟨rfl, hl⟩ := hl
    cases fuel with
    | zero => simp [orphan, pointer]
    | succ fuel =>
      have hrec := ih (t := { t with pptr := update t.pptr d .init }) hl fuel
      show orphan fuel (t.osptr d) _ = _
      rw [hrec]
      have hpptr : ∀ z, (if z ∈ l then PPtr.init else update t.pptr d .init z) =
          if z ∈ d :: l then .init else t.pptr z := by
        intro z
        by_cases hzd : z = d
        · simp [hzd]
        · simp [hzd]
      simp [hpptr]

end Functions

/-! ## The invariant -/

variable {t t' : Tree P} {me child p z : P}

/-- The sibling links of every process. -/
def links (t : Tree P) : DLinks P := ⟨t.osptr, t.ysptr⟩

/-- Live processes and their siblings agree about each other; a live process has a live parent, or none. -/
def Linked (t : Tree P) : Prop :=
  ∃ age now, Siblings t.links t.cptr (fun c => (t.pptr c).proc?) (fun c => t.live c = true)
    (fun p => t.live p = true) age now

theorem linked_empty : (empty : Tree P).Linked := by
  refine ⟨fun _ => 0, 0, ?_⟩
  have h := Siblings.empty (empty : Tree P).links (empty : Tree P).cptr
    (fun c => ((empty : Tree P).pptr c).proc?) (fun _ => 0)
  simpa [empty] using h

/-- The children of a live process, as its links give them. -/
theorem Linked.children (h : t.Linked) (hp : t.live p) :
    ∃ l, DList t.links ⟨t.cptr p, (pointer P).first l.reverse⟩ l ∧
      ∀ c, c ∈ l ↔ t.live c ∧ t.pptr c = .proc p := by
  obtain ⟨age, now, hs⟩ := h
  obtain ⟨l, hl, hmem⟩ := hs.dlist hp
  exact ⟨l, hl, fun c => by simp [hmem]⟩

/-- A parent is alive. -/
theorem Linked.live_parent (h : t.Linked) (hc : t.live child) (hp : t.pptr child = .proc p) : t.live p := by
  obtain ⟨age, now, hs⟩ := h
  exact hs.owned hc (by simp [hp])

theorem ne_of_live (hz : t.live z) (hme : t.live me = false) : z ≠ me := by
  rintro rfl
  rw [hz] at hme
  cases hme

/-! ### One step -/

variable [DecidableEq P]

theorem live_update_true (z : P) : update t.live me true z ↔ t.live z ∨ z = me := by
  by_cases hz : z = me
  · simp [hz]
  · simp [hz]

theorem Linked.ixOpen_owner (h : t.Linked) (hme : t.live me = false) :
    ∃ age now, Siblings (t.ixOpen me).links (t.ixOpen me).cptr
      (fun c => ((t.ixOpen me).pptr c).proc?) (fun c => t.live c)
      (fun p => (t.ixOpen me).live p) age now := by
  obtain ⟨age, now, hs⟩ := h
  refine ⟨age, now, hs.addOwner ?_ ?_ ?_ live_update_true (update_self ..) ?_⟩
  · exact fun z hz => update_of_ne (ne_of_live hz hme) _ _
  · exact fun z hz => update_of_ne (ne_of_live hz hme) _ _
  · exact fun z hz => congrArg PPtr.proc? (update_of_ne (ne_of_live hz hme) _ _)
  · exact fun v hv => update_of_ne (ne_of_live hv hme) _ _

theorem Linked.ixOpen (h : t.Linked) (hme : t.live me = false) : (t.ixOpen me).Linked := by
  obtain ⟨age, now, hs⟩ := h.ixOpen_owner hme
  refine ⟨_, _, hs.addLone (by simp [hme]) live_update_true ?_ ?_ ?_⟩
  · exact update_self ..
  · exact update_self ..
  · simp [Tree.ixOpen, PPtr.proc?]

/-- A new child is hung in as the youngest. -/
theorem Linked.launcher (h : t.Linked) (hme : t.live me = false) (hp : t.live p) :
    (t.launcher me p).Linked := by
  have hpme : p ≠ me := ne_of_live hp hme
  obtain ⟨age, now, hs⟩ := h.ixOpen_owner hme
  have hcp : (t.ixOpen me).cptr p = t.cptr p := update_of_ne hpme _ _
  have hlive : (t.ixOpen me).live p := by simp [Tree.ixOpen, hpme, hp]
  -- the head of the parent's list is live, so it is not the new process
  have hhead : ∀ {z}, t.cptr p = some z → z ≠ me := by
    intro z hz
    exact ne_of_live (hs.head_spec hlive (hcp.trans hz)).1 hme
  unfold Linked
  rw [launcher_live]
  refine ⟨_, _, hs.add (by simp [hme]) hlive live_update_true ?_ ?_ ?_ ?_ ?_
    ?_ ?_ ?_ ?_⟩
  · simp [Tree.launcher, links]
  · have hne : t.cptr p ≠ some me := fun e => hhead e rfl
    simp [Tree.launcher, links, hcp, hne]
  · intro z hz
    simp [Tree.launcher, links, hz.symm]
  · intro z hz hpz
    simp [Tree.launcher, links, hpz]
  · intro z hz hpz
    simp [Tree.launcher, links, hpz, hz.symm]
  · simp [Tree.launcher]
  · intro v hv
    simp [Tree.launcher, hv]
  · simp [Tree.launcher]
  · intro z hz
    simp [Tree.launcher, hz]

theorem siblings_unlink {mem headed : P → Prop} {age : P → Nat} {now : Nat}
    (hs : Siblings t.links t.cptr (fun c => (t.pptr c).proc?) mem headed age now) (hc : mem child) :
    Siblings (t.unlink child).links (t.unlink child).cptr (fun c => (t.pptr c).proc?)
      (fun c => mem c ∧ c ≠ child) headed age now := by
  rw [unlink_eq]
  refine hs.remove hc (fun z => Iff.rfl) ?_ ?_ ?_ ?_ ?_ ?_
  · exact fun z hz => if_pos hz
  · exact fun z hz => if_neg hz
  · exact fun z hz => if_pos hz
  · exact fun z hz => if_neg hz
  · exact fun w hown hhead => if_pos ⟨PPtr.proc?_eq_some.mp hown, hhead⟩
  · exact fun w _ hne => if_neg fun hw => hne ⟨PPtr.proc?_eq_some.mpr hw.1, hw.2⟩

/-- A process moves to another parent. -/
theorem Linked.procReparent (h : t.Linked) (hc : t.live child) (hp : t.live p) :
    (t.procReparent child (.proc p)).Linked := by
  by_cases hsame : t.pptr child = .proc p
  · rwa [Tree.procReparent, if_pos hsame]
  obtain ⟨age, now, hs⟩ := h
  have hout := siblings_unlink hs hc
  unfold Linked
  rw [procReparent_live, Tree.procReparent, if_neg hsame]
  refine ⟨_, _, hout.add (x := child) (w := p) (by simp) hp ?_ ?_ ?_ ?_ ?_ ?_ ?_ ?_ ?_ ?_⟩
  · intro z
    by_cases hz : z = child
    · simp [hz, hc]
    · simp [hz]
  · simp [links]
  · simp [links]
  · intro z hz
    simp [links, hz.symm]
  · intro z hz hpz
    simp [links, hz.symm, hpz]
  · intro z hz hpz
    simp [links, hz.symm, hpz]
  · simp
  · intro v hv
    simp [hv]
  · simp
  · intro z hz
    simp [hz, unlink_eq]

/-- All that `ix_close` writes. -/
theorem ixClose_eq {l : List P} (hl : (pointer P).Chain t.osptr (t.cptr me) l) (fuel : Nat) :
    t.ixClose fuel me =
      if l.length ≤ fuel then
        some { (unlink me { t with
            pptr := fun z => if z ∈ l then .init else t.pptr z
            cptr := update t.cptr me none }) with
          live := update t.live me false }
      else none := by
  rw [ixClose, orphan_eq hl]
  split
  · simp [unlink_eq]
  · rfl

/-- The children go to init, and no other process gets another parent. -/
theorem Linked.ixClose_pptr (h : t.Linked) (hme : t.live me) {fuel : Nat}
    (hc : t.ixClose fuel me = some t') :
    ∀ z, t.live z → t'.pptr z = if t.pptr z = .proc me then .init else t.pptr z := by
  obtain ⟨l, hl, hmem⟩ := h.children hme
  rw [ixClose_eq hl.fwd] at hc
  split at hc
  · cases hc
    intro z hz
    simp only [unlink_eq, hmem, hz, true_and]
  · cases hc

/-- A process is taken out, and its children stay linked to each other. -/
theorem Linked.ixClose (h : t.Linked) (hme : t.live me) {fuel : Nat}
    (hc : t.ixClose fuel me = some t') : t'.Linked := by
  obtain ⟨l, hl, hmem⟩ := h.children hme
  obtain ⟨age, now, hs⟩ := h
  rw [ixClose_eq hl.fwd] at hc
  split at hc
  · have hlive : ∀ z, update t.live me false z ↔ t.live z ∧ z ≠ me := by
      intro z
      by_cases hz : z = me
      · simp [hz]
      · simp [hz]
    -- the children belong to nobody any more, and `me` owns no list
    have hgone : Siblings t.links (update t.cptr me none)
        (fun c => (if c ∈ l then PPtr.init else t.pptr c).proc?) (fun c => t.live c)
        (fun p => update t.live me false p) age now := by
      refine hs.disown ?_ ?_ hlive ?_
      · intro z hz hown
        rw [if_pos ((hmem z).mpr ⟨hz, PPtr.proc?_eq_some.mp hown⟩)]
        rfl
      · intro z hz hown
        rw [if_neg (fun hzl => hown (PPtr.proc?_eq_some.mpr ((hmem z).mp hzl).2))]
      · intro v hv
        exact update_of_ne ((hlive v).mp hv).2 _ _
    cases hc
    unfold Linked
    simp only [hlive]
    have hout := siblings_unlink (t := { t with
      pptr := fun z => if z ∈ l then .init else t.pptr z
      cptr := update t.cptr me none }) hgone hme
    simp only [hlive] at hout
    refine ⟨age, now, ?_⟩
    rw [unlink_eq] at hout ⊢
    exact hout
  · cases hc

/-! ## Every run -/

/-- A process starts from outside, a process forks a child, a live process gets another live parent, or a
process exits. -/
inductive Step : Tree P → Tree P → Prop where
  | start {t : Tree P} {me : P} (hme : t.live me = false) : Step t (t.ixOpen me)
  | vfork {t : Tree P} {me parent : P} (hme : t.live me = false) (hp : t.live parent = true) :
      Step t (t.launcher me parent)
  | reparent {t : Tree P} {child parent : P} (hc : t.live child = true) (hp : t.live parent = true) :
      Step t (t.procReparent child (.proc parent))
  | exit {t t' : Tree P} {me : P} {fuel : Nat} (hme : t.live me = true)
      (hc : t.ixClose fuel me = some t') : Step t t'

/-- The process tree of the library, from the first process on. -/
def processes : System (Tree P) where
  init := fun t => t = empty
  step := Step

theorem Linked.step (h : t.Linked) (hstep : Step t t') : t'.Linked := by
  cases hstep with
  | start hme => exact h.ixOpen hme
  | vfork hme hp => exact h.launcher hme hp
  | reparent hc hp => exact h.procReparent hc hp
  | exit hme hc => exact h.ixClose hme hc

theorem linked_of_reachable (h : Reachable processes t) : t.Linked := by
  refine h.invariant ?_ ?_
  · rintro t rfl
    exact linked_empty
  · intro t t' hl hstep
    exact hl.step hstep

/-- **The process tree.**  In every run, the children of a live process are exactly what `p_cptr` and
then `p_osptr` visit, each once, with `p_ysptr` leading back; and the parent of a live process is live. -/
theorem children_of_live (h : Reachable processes t) :
    (∀ p, t.live p = true → ∃ l : List P,
      (pointer P).Chain t.osptr (t.cptr p) l ∧ l.Nodup ∧
      (∀ c, c ∈ l ↔ t.live c = true ∧ t.pptr c = .proc p) ∧
      (pointer P).Chain t.ysptr ((pointer P).first l.reverse) l.reverse) ∧
    ∀ c p, t.live c = true → t.pptr c = .proc p → t.live p = true := by
  have hl := linked_of_reachable h
  refine ⟨?_, fun c p hc hp => hl.live_parent hc hp⟩
  intro p hp
  obtain ⟨l, hd, hmem⟩ := hl.children hp
  exact ⟨l, hd.fwd, hd.nodup, hmem, hd.bwd⟩

/-- Process 0 with its children 1 and 2. -/
def forked : Tree Nat := ((empty.ixOpen 0).launcher 1 0).launcher 2 0

theorem reachable_forked : Reachable processes forked := by
  have h0 : Reachable processes (empty.ixOpen 0) := .step (.init rfl) (.start rfl)
  have h1 : Reachable processes ((empty.ixOpen 0).launcher 1 0) := .step h0 (.vfork rfl rfl)
  exact .step h1 (.vfork rfl rfl)

theorem children_of_live_forked :
    ∃ l, (pointer Nat).Chain forked.osptr (forked.cptr 0) l ∧ 2 ∈ l ∧ 1 ∈ l := by
  obtain ⟨l, hl, -, hmem, -⟩ := (children_of_live reachable_forked).1 0 rfl
  exact ⟨l, hl, (hmem 2).mpr ⟨rfl, rfl⟩, (hmem 1).mpr ⟨rfl, rfl⟩⟩

end Tree

end Ixemul.Proc
