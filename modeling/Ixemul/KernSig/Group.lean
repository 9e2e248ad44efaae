/-
# Ixemul.KernSig.Group — a signal for a process group (`kern_sig.c`).

`_psignalgrp` follows `p_pptr` from the process to the top of its tree, and from there `sigprocessgrp` goes
through the tree twice along `p_cptr` and `p_osptr`: once to see whether every process still has a user area,
then to post the signal.  The recursion of the source is bounded by a fuel argument here; the result below
holds from some fuel on, and there nothing depends on it any more.

The tree is given by the links in the user areas (`IsTree`).  At every root of the forest that
`Ixemul.Proc.Tree` keeps there is one (`Layered.isTree`), provided that nobody is below himself.  That is
assumed and not shown of runs: the sibling links, which are what that module is about, do not exclude it.
What `_psignal` does for a process is left to `Ixemul.KernSig`.
-/
import Ixemul.Proc.Tree

namespace Ixemul.KernSig.Group

open Ixemul.Proc
open List

variable {P : Type*}

/-- The fields of `struct user` that take part. -/
structure UArea (P : Type*) where
  pptr : PPtr P
  cptr : Option P
  osptr : Option P
  pgrp : Nat

section Functions

variable (user : P → Option (UArea P))

mutual

/-- `sigprocessgrp` with `test` set; the result is missing when the fuel is. -/
def testProcess : Nat → P → Option Bool
  | 0, _ => none
  | fuel + 1, proc =>
    match user proc with
    | none => some false
    | some u => testLoop fuel u.cptr

/-- The loop of `sigprocessgrp` with `test` set. -/
def testLoop : Nat → Option P → Option Bool
  | _, none => some true
  | 0, some _ => none
  | fuel + 1, some p =>
    match user p with
    | none => some false
    | some u => do
      if ← testProcess fuel p then testLoop fuel u.osptr else some false

end

mutual

/-- `sigprocessgrp` with `test` clear: the processes that `_psignal` is called for.  The result is missing if
a user area is. -/
def postProcess (pgrp : Nat) : Nat → P → Option (List P)
  | 0, _ => none
  | fuel + 1, proc => do
    let u ← user proc
    let posts ← postLoop pgrp fuel u.cptr
    some (posts ++ if u.pgrp = pgrp then [proc] else [])

/-- The loop of `sigprocessgrp` with `test` clear. -/
def postLoop (pgrp : Nat) : Nat → Option P → Option (List P)
  | _, none => some []
  | 0, some _ => none
  | fuel + 1, some p => do
    let posts ← postProcess pgrp fuel p
    let u ← user p
    let later ← postLoop pgrp fuel u.osptr
    some (posts ++ later)

end

/-- The way to the top from `p`; `none` for a process without a user area. -/
def climb : Nat → (ok : P) → (p : PPtr P) → Option (Option P)
  | 0, _, .proc _ => none
  | fuel + 1, _, .proc p =>
    match user p with
    | none => some none
    | some u => climb fuel p u.pptr
  | _, ok, _ => some (some ok)

/-- `_psignalgrp`: the processes that the signal is posted to. -/
def psignalgrp (fuel : Nat) (proc : P) : Option (List P) :=
  match user proc with
  | none => some []
  | some u => (climb user fuel proc u.pptr).bind fun
    | none => some []
    | some ok => (testProcess user fuel ok).bind fun tested =>
      if tested then postProcess user u.pgrp fuel ok else some []

end Functions

/-! ## The tree -/

/-- The children of a process: the youngest one, what is below it, and its older siblings. -/
inductive Kids (P : Type*) where
  | nil
  | cons (p : P) (below rest : Kids P)

namespace Kids

/-- The processes, those below a process before it. -/
def procs : Kids P → List P
  | nil => []
  | cons p below rest => below.procs ++ p :: rest.procs

/-- The links of the user areas that are there lead through the children of `parent` from `ptr` on. -/
def Linked (user : P → Option (UArea P)) : PPtr P → Option P → Kids P → Prop
  | _, ptr, nil => ptr = none
  | parent, ptr, cons p below rest => ptr = some p ∧ ∃ cptr osptr,
      (∀ u, user p = some u → u.pptr = parent ∧ u.cptr = cptr ∧ u.osptr = osptr) ∧
      Linked user (.proc p) cptr below ∧ Linked user parent osptr rest

end Kids

/-- A tree of processes with `root` on top and `below` below it. -/
structure IsTree (user : P → Option (UArea P)) (root : P) (below : Kids P) : Prop where
  nodup : (below.procs ++ [root]).Nodup
  top : ∀ u, user root = some u → u.pptr = .null ∨ u.pptr = .init
  linked : ∃ cptr, (∀ u, user root = some u → u.cptr = cptr) ∧ below.Linked user (.proc root) cptr

variable {user : P → Option (UArea P)} {root : P} {below : Kids P} {parent : PPtr P} {ptr : Option P}
  {kids : Kids P} {fuel : Nat} {missing : Prop}

/-! ## Going through the children -/

theorem testLoop_eq (h : kids.Linked user parent ptr)
    (hfuel : 2 * kids.procs.length ≤ fuel) :
    testLoop user fuel ptr = some (kids.procs.all fun p => (user p).isSome) := by
  induction kids generalizing parent ptr fuel with
  | nil =>
    obtain rfl : ptr = none := h
    cases fuel <;> rfl
  | cons p below rest ihbelow ihrest =>
    obtain ⟨rfl, cptr, osptr, hu, hbelow, hrest⟩ := h
    simp only [Kids.procs, length_append, length_cons] at hfuel
    obtain ⟨fuel, rfl⟩ : ∃ n, fuel = n + 1 + 1 := ⟨fuel - 2, by omega⟩
    rw [testLoop, testProcess, Kids.procs, all_append, all_cons]
    cases huser : user p with
    | none => simp
    | some u =>
      obtain ⟨-, rfl, rfl⟩ := hu u huser
      simp only [ihbelow hbelow (show _ ≤ fuel by omega), ihrest hrest (show _ ≤ fuel + 1 by omega)]
      cases below.procs.all fun p => (user p).isSome <;> rfl

theorem postLoop_eq (h : kids.Linked user parent ptr)
    (hall : ∀ p ∈ kids.procs, (user p).isSome) (pgrp : Nat)
    (hfuel : 2 * kids.procs.length ≤ fuel) : postLoop user pgrp fuel ptr =
      some (kids.procs.filter fun p => (user p).map UArea.pgrp = some pgrp) := by
  induction kids generalizing parent ptr fuel with
  | nil =>
    obtain rfl : ptr = none := h
    cases fuel <;> rfl
  | cons p below rest ihbelow ihrest =>
    obtain ⟨rfl, cptr, osptr, hu, hbelow, hrest⟩ := h
    simp only [Kids.procs, length_append, length_cons] at hfuel
    simp only [Kids.procs, mem_append, mem_cons] at hall
    obtain ⟨fuel, rfl⟩ : ∃ n, fuel = n + 1 + 1 := ⟨fuel - 2, by omega⟩
    obtain ⟨u, huser⟩ := Option.isSome_iff_exists.mp (hall p (.inr (.inl rfl)))
    obtain ⟨-, rfl, rfl⟩ := hu u huser
    have hb := ihbelow hbelow (fun q hq => hall q (.inl hq)) (show _ ≤ fuel by omega)
    have hr := ihrest hrest (fun q hq => hall q (.inr (.inr hq))) (show _ ≤ fuel + 1 by omega)
    rw [postLoop, postProcess, Kids.procs, filter_append, filter_cons]
    simp only [huser, hb, hr, Option.bind_eq_bind, Option.bind_some, Option.map_some, Option.some.injEq,
      decide_eq_true_eq]
    split <;> simp

/-- The way up ends at the top, or at a process without a user area. -/
def Climbs (user : P → Option (UArea P)) (root : P) (missing : Prop) (p : PPtr P) : Prop :=
  ∃ n, ∀ fuel ≥ n, ∀ ok, climb user fuel ok p = some (some root) ∨ climb user fuel ok p = some none ∧ missing

theorem Climbs.step {p : P} (hp : user p = none → missing)
    (hup : ∀ u, user p = some u → ∃ n, ∀ fuel ≥ n,
      climb user fuel p u.pptr = some (some root) ∨ climb user fuel p u.pptr = some none ∧ missing) :
    Climbs user root missing (.proc p) := by
  cases huser : user p with
  | none =>
    refine ⟨1, fun fuel hfuel ok => .inr ⟨?_, hp huser⟩⟩
    obtain ⟨fuel, rfl⟩ := Nat.exists_eq_add_of_le' hfuel
    simp only [climb, huser]
  | some u =>
    obtain ⟨n, hn⟩ := hup u huser
    refine ⟨n + 1, fun fuel hfuel ok => ?_⟩
    obtain ⟨fuel, rfl⟩ := Nat.exists_eq_add_of_le' (Nat.le_of_add_left_le hfuel)
    simp only [climb, huser]
    exact hn fuel (by omega)

theorem Climbs.mem (h : kids.Linked user parent ptr) (hup : Climbs user root missing parent)
    (hmissing : ∀ p ∈ kids.procs, user p = none → missing) :
    ∀ p ∈ kids.procs, Climbs user root missing (.proc p) := by
  induction kids generalizing parent ptr with
  | nil => nofun
  | cons p below rest ihbelow ihrest =>
    obtain ⟨rfl, cptr, osptr, hu, hbelow, hrest⟩ := h
    simp only [Kids.procs, mem_append, mem_cons] at hmissing ⊢
    have hp : Climbs user root missing (.proc p) := by
      refine Climbs.step (hmissing p (.inr (.inl rfl))) fun u huser => ?_
      obtain ⟨n, hn⟩ := hup
      exact ⟨n, fun fuel hfuel => (hu u huser).1 ▸ hn fuel hfuel p⟩
    rintro q (hq | rfl | hq)
    · exact ihbelow hbelow hp (fun p hp => hmissing p (.inl hp)) q hq
    · exact hp
    · exact ihrest hrest hup (fun p hp => hmissing p (.inr (.inr hp))) q hq

/-! ## The whole tree -/

namespace IsTree

variable {fuel : Nat}

theorem testProcess_eq (h : IsTree user root below) (hfuel : 2 * below.procs.length < fuel) :
    testProcess user fuel root = some ((below.procs ++ [root]).all fun p => (user p).isSome) := by
  obtain ⟨cptr, hc, hlinked⟩ := h.linked
  obtain ⟨fuel, rfl⟩ := Nat.exists_eq_add_of_le' (Nat.one_le_of_lt hfuel)
  rw [testProcess, all_append, all_cons, all_nil]
  cases huser : user root with
  | none => simp
  | some u =>
    obtain rfl := hc u huser
    simp only [testLoop_eq hlinked (show _ ≤ fuel by omega), Option.isSome_some, Bool.and_true]

theorem postProcess_eq (h : IsTree user root below) (pgrp : Nat)
    (hall : ∀ p ∈ below.procs ++ [root], (user p).isSome)
    (hfuel : 2 * below.procs.length < fuel) : postProcess user pgrp fuel root =
      some ((below.procs ++ [root]).filter fun p => (user p).map UArea.pgrp = some pgrp) := by
  obtain ⟨cptr, hc, hlinked⟩ := h.linked
  obtain ⟨fuel, rfl⟩ := Nat.exists_eq_add_of_le' (Nat.one_le_of_lt hfuel)
  obtain ⟨u, huser⟩ := Option.isSome_iff_exists.mp (hall root (by simp))
  obtain rfl := hc u huser
  rw [postProcess, filter_append, filter_cons, filter_nil]
  simp only [huser, postLoop_eq hlinked (fun p hp => hall p (mem_append_left _ hp)) pgrp
    (show _ ≤ fuel by omega), Option.bind_eq_bind, Option.bind_some, Option.map_some, Option.some.injEq,
    decide_eq_true_eq]

theorem climbs (h : IsTree user root below) {p : P} (hp : p ∈ below.procs ++ [root]) :
    Climbs user root (∃ q ∈ below.procs ++ [root], user q = none) (.proc p) := by
  obtain ⟨cptr, -, hlinked⟩ := h.linked
  have hroot : Climbs user root (∃ q ∈ below.procs ++ [root], user q = none) (.proc root) := by
    refine Climbs.step (fun hu => ⟨root, by simp, hu⟩) fun u huser => ⟨0, fun fuel _ => .inl ?_⟩
    rcases h.top u huser with htop | htop <;> rw [htop, climb] <;> nofun
  rcases mem_append.mp hp with hp | hp
  · exact Climbs.mem hlinked hroot (fun q hq hu => ⟨q, mem_append_left _ hq, hu⟩) p hp
  · rwa [mem_singleton.mp hp]

/-- **The signal is posted once to every process of the tree that is in the group, if every process of the
tree has a user area; if one has none, nobody is signalled.** -/
theorem psignalgrp_posts (h : IsTree user root below) (proc : P) (hproc : proc ∈ below.procs ++ [root]) :
    ∃ n, ∀ fuel ≥ n, ∃ posts, psignalgrp user fuel proc = some posts ∧ posts.Nodup ∧
      ((∀ p ∈ below.procs ++ [root], (user p).isSome = true) → ∀ p, p ∈ posts ↔
        p ∈ below.procs ++ [root] ∧ (user p).map UArea.pgrp = (user proc).map UArea.pgrp) ∧
      ((∃ p ∈ below.procs ++ [root], user p = none) → posts = []) := by
  obtain ⟨n, hn⟩ := h.climbs hproc
  refine ⟨n + 2 * below.procs.length + 1, fun fuel hfuel => ?_⟩
  unfold psignalgrp
  cases huser : user proc with
  | none =>
    refine ⟨[], rfl, nodup_nil, fun hall => ?_, fun _ => rfl⟩
    exact absurd (hall proc hproc) (by simp [huser])
  | some u =>
    -- the first step of the way up has been made
    have hclimb := hn (fuel + 1) (by omega) proc
    simp only [climb, huser] at hclimb
    rcases hclimb with hclimb | ⟨hclimb, hmissing⟩
    · have htest := h.testProcess_eq (show _ < fuel by omega)
      simp only [hclimb, htest, Option.bind_some]
      by_cases hall : ∀ p ∈ below.procs ++ [root], (user p).isSome
      · have hpost := h.postProcess_eq u.pgrp hall (show _ < fuel by omega)
        refine ⟨_, (if_pos (all_eq_true.mpr hall)).trans hpost, h.nodup.filter _, ?_, ?_⟩
        · intro _ p
          rw [mem_filter, decide_eq_true_eq, Option.map_some]
        · rintro ⟨p, hp, hnone⟩
          exact absurd (hall p hp) (by simp [hnone])
      · refine ⟨[], if_neg fun h => hall (all_eq_true.mp h), nodup_nil, fun h => absurd h hall, ?_⟩
        exact fun _ => rfl
    · refine ⟨[], by simp only [hclimb, Option.bind_some], nodup_nil, fun hall => ?_, fun _ => rfl⟩
      obtain ⟨p, hp, hnone⟩ := hmissing
      exact absurd (hall p hp) (by simp [hnone])

end IsTree

/-! ## The trees of `Ixemul.Proc.Tree` -/

section Forest

open Relation

variable {t : Proc.Tree P} {pgrp : P → Nat} {depth : P → Nat} {max : Nat} {p c d : P} {l : List P}

/-- The user areas of the live processes of a tree. -/
def areas (t : Proc.Tree P) (pgrp : P → Nat) (p : P) : Option (UArea P) :=
  if t.live p then some ⟨t.pptr p, t.cptr p, t.osptr p, pgrp p⟩ else none

/-- The process `q` is live, and a child of `p`. -/
def Child (t : Proc.Tree P) (p q : P) : Prop := t.live q ∧ t.pptr q = .proc p

/-- Each live process is below its parent, at most `max` levels deep: nobody is below himself. -/
structure Layered (t : Proc.Tree P) (depth : P → Nat) (max : Nat) : Prop where
  child : ∀ {p q}, Child t p q → depth p < depth q
  le : ∀ {p}, t.live p → depth p ≤ max

variable (h : Layered t depth max)
include h

theorem Layered.depth_le (habove : ReflTransGen (Child t) c d) :
    depth c ≤ depth d := by
  induction habove with
  | refl => exact Nat.le_refl _
  | tail _ hchild ih => exact Nat.le_trans ih (Nat.le_of_lt (h.child hchild))

theorem Layered.not_below_self : ¬ TransGen (Child t) c c := by
  intro hself
  obtain ⟨d, habove, hchild⟩ := TransGen.tail'_iff.mp hself
  exact absurd (h.child hchild) (Nat.not_lt.mpr (h.depth_le habove))

/-- Siblings are not above each other. -/
theorem Layered.eq_of_above (hc : Child t p c) (hd : Child t p d)
    (habove : ReflTransGen (Child t) c d) : d = c := by
  refine (reflTransGen_iff_eq_or_transGen.mp habove).resolve_right fun habove => ?_
  obtain ⟨q, habove, hchild⟩ := TransGen.tail'_iff.mp habove
  obtain rfl : q = p := PPtr.proc.inj (hchild.2.symm.trans hd.2)
  exact absurd (h.child hc) (Nat.not_lt.mpr (h.depth_le habove))

/-- What is below a process is not below its sibling: the way up is one. -/
theorem Layered.disjoint (hc : Child t p c) (hd : Child t p d) {q : P}
    (hcq : ReflTransGen (Child t) c q) (hdq : ReflTransGen (Child t) d q) : c = d := by
  have hunique : Relator.RightUnique (Function.swap (Child t)) :=
    fun _ _ _ hx hy => PPtr.proc.inj (hx.2.symm.trans hy.2)
  rcases ReflTransGen.total_of_right_unique hunique (reflTransGen_swap.mpr hcq)
    (reflTransGen_swap.mpr hdq) with habove | habove
  · exact h.eq_of_above hd hc (reflTransGen_swap.mp habove)
  · exact (h.eq_of_above hc hd (reflTransGen_swap.mp habove)).symm

/-- The children of `p` from `ptr` on, when there is a tree below each of them. -/
theorem Layered.exists_kids {ptr : Option P}
    (hl : (Lib.Links.pointer P).Chain t.osptr ptr l) (hchild : ∀ c ∈ l, Child t p c)
    (hbelow : ∀ c ∈ l, ∃ kids : Kids P, kids.Linked (areas t pgrp) (.proc c) (t.cptr c) ∧ kids.procs.Nodup ∧
      ∀ q, q ∈ kids.procs ↔ TransGen (Child t) c q) :
    ∃ kids : Kids P, kids.Linked (areas t pgrp) (.proc p) ptr ∧ kids.procs.Nodup ∧
      ∀ q, q ∈ kids.procs ↔ ∃ c ∈ l, ReflTransGen (Child t) c q := by
  have hnodup := hl.nodup
  induction l generalizing ptr with
  | nil =>
    obtain rfl : ptr = none := hl
    exact ⟨.nil, rfl, nodup_nil, by simp [Kids.procs]⟩
  | cons c l ih =>
    obtain ⟨rfl, hl⟩ := hl
    obtain ⟨hc, hrest⟩ := forall_mem_cons.mp hchild
    obtain ⟨below, hlinked, hnd, hmem⟩ := hbelow c mem_cons_self
    obtain ⟨rest, hlinked', hnd', hmem'⟩ :=
      ih hl hrest (fun d hd => hbelow d (mem_cons_of_mem _ hd)) (nodup_cons.mp hnodup).2
    -- neither `c` nor what is below it is in the trees of the other children
    have hapart : ∀ q, ReflTransGen (Child t) c q → q ∉ rest.procs := by
      intro q hq hin
      obtain ⟨d, hd, hdq⟩ := (hmem' q).mp hin
      exact (nodup_cons.mp hnodup).1 (h.disjoint hc (hrest d hd) hq hdq ▸ hd)
    refine ⟨.cons c below rest, ⟨rfl, _, _, fun u hu => ?_, hlinked, hlinked'⟩, ?_, fun q => ?_⟩
    · rw [areas, if_pos hc.1] at hu
      cases hu
      exact ⟨hc.2, rfl, rfl⟩
    · refine nodup_append.mpr ⟨hnd, nodup_cons.mpr ⟨hapart c .refl, hnd'⟩, ?_⟩
      rintro q hq _ hq' rfl
      have hcq := (hmem q).mp hq
      rcases mem_cons.mp hq' with rfl | hq'
      · exact h.not_below_self hcq
      · exact hapart q hcq.to_reflTransGen hq'
    · rw [Kids.procs, mem_append, mem_cons, hmem, hmem']
      simp only [mem_cons, exists_eq_or_imp]
      rw [reflTransGen_iff_eq_or_transGen, or_left_comm, or_assoc]

/-- The processes below a live one, as its links give them. -/
theorem Layered.exists_below (ht : t.Linked) (pgrp : P → Nat) (hp : t.live p) :
    ∃ kids : Kids P, kids.Linked (areas t pgrp) (.proc p) (t.cptr p) ∧ kids.procs.Nodup ∧
      ∀ q, q ∈ kids.procs ↔ TransGen (Child t) p q := by
  induction hk : max - depth p using Nat.strongRecOn generalizing p with
  | ind k ih =>
    obtain ⟨l, hl, hmem⟩ := ht.children hp
    obtain ⟨kids, hlinked, hnd, hprocs⟩ := h.exists_kids hl.fwd (fun c hc => (hmem c).mp hc) fun c hc => by
      have hlt := h.child ((hmem c).mp hc)
      have hle := h.le ((hmem c).mp hc).1
      exact ih (max - depth c) (by omega) ((hmem c).mp hc).1 rfl
    refine ⟨kids, hlinked, hnd, fun q => ?_⟩
    rw [hprocs, TransGen.head'_iff]
    simp only [hmem]
    rfl

/-- **A root of the forest is the top of a tree** of the processes below it; so what is said above of a tree
holds in every state of the processes in which nobody is below himself. -/
theorem Layered.isTree (ht : t.Linked) (hroot : t.live root)
    (htop : t.pptr root = .null ∨ t.pptr root = .init) :
    ∃ below, IsTree (areas t pgrp) root below ∧
      ∀ q, q ∈ below.procs ++ [root] ↔ ReflTransGen (Child t) root q := by
  obtain ⟨below, hlinked, hnd, hprocs⟩ := h.exists_below ht pgrp hroot
  have harea : ∀ u, areas t pgrp root = some u → u = ⟨t.pptr root, t.cptr root, t.osptr root, pgrp root⟩ := by
    intro u hu
    rw [areas, if_pos hroot] at hu
    exact (Option.some.inj hu).symm
  refine ⟨below, ⟨?_, fun u hu => ?_, t.cptr root, fun u hu => ?_, hlinked⟩, fun q => ?_⟩
  · refine nodup_append.mpr ⟨hnd, nodup_singleton root, ?_⟩
    rintro q hq _ hq' rfl
    rw [mem_singleton.mp hq'] at hq
    exact h.not_below_self ((hprocs root).mp hq)
  · rw [harea u hu]
    exact htop
  · rw [harea u hu]
  · rw [mem_append, mem_singleton, hprocs, reflTransGen_iff_eq_or_transGen, or_comm]

end Forest

/-- Process 0 with its children 1 and 2, of which 2 is in another group. -/
def family : Nat → Option (UArea Nat)
  | 0 => some ⟨.init, some 1, none, 5⟩
  | 1 => some ⟨.proc 0, none, some 2, 5⟩
  | 2 => some ⟨.proc 0, none, none, 6⟩
  | _ => none

theorem psignalgrp_posts_family : ∃ n, ∀ fuel ≥ n, ∃ posts, psignalgrp family fuel 1 = some posts ∧
    0 ∈ posts := by
  have htree : IsTree family 0 (.cons 1 .nil (.cons 2 .nil .nil)) := by
    refine ⟨by decide, fun u hu => .inr (by cases hu; rfl), some 1, fun u hu => by cases hu; rfl, rfl,
      none, some 2, fun u hu => by cases hu; exact ⟨rfl, rfl, rfl⟩, rfl, rfl, none, none,
      fun u hu => by cases hu; exact ⟨rfl, rfl, rfl⟩, rfl, rfl⟩
  obtain ⟨n, hn⟩ := htree.psignalgrp_posts 1 (by decide)
  refine ⟨n, fun fuel hfuel => ?_⟩
  obtain ⟨posts, hposts, -, hmem, -⟩ := hn fuel hfuel
  exact ⟨posts, hposts, (hmem (by decide) 0).mpr (by decide)⟩

end Ixemul.KernSig.Group
