/-
# Ixemul.Unp.Names — the paths that sockets listen on (unp.c).

`unp_bind` refuses a path that some socket is listening on.  It does not register the path; that is done by
`unp_listen`, which does not look again.  Two sockets that are bound to one path before either listens both
get into `ix_unix_names`, as do two calls of `unp_listen` at a time for one socket.
-/
import Ixemul.Unp.Connect

namespace Ixemul.Unp

open Lib.Run
open Function List

/-- What `un->path` is, for a name that is there. -/
def Sys.pathOf (y : Sys) (n : Nat) : Option (List Char) := (y.name n).map UnixName.path

/-- No two entries of `ix_unix_names` have the same path. -/
def PathsDiffer (y : Sys) : Prop := y.names.Pairwise (fun n m => y.pathOf n ≠ y.pathOf m)

/-- A name is only added while its path is not found. -/
def AddsNew (y : Sys) : Op → Prop
  | .addName t _ => ∀ s backlog, y.pc t = .listening s backlog → y.findUnixName (y.sock s).path = none
  | _ => True

section

variable {y z : Sys} {n : Nat}

theorem findUnixName_eq_none {path : List Char} :
    y.findUnixName path = none ↔ ∀ n ∈ y.names, y.pathOf n ≠ some path := by
  rw [Sys.findUnixName, find?_eq_none]
  refine forall₂_congr fun n _ => ?_
  cases h : y.name n <;> simp [Sys.pathOf, h]

theorem pathOf_setName (un : UnixName) : (y.setName n un).pathOf = update y.pathOf n (some un.path) := by
  funext m
  by_cases h : m = n
  · subst h
    simp [Sys.pathOf, Sys.setName]
  · simp [Sys.pathOf, Sys.setName, h]

theorem pathOf_setName_same {un un' : UnixName} (h : y.name n = some un) (hpath : un'.path = un.path) :
    (y.setName n un').pathOf = y.pathOf := by
  rw [pathOf_setName, hpath]
  have hn : y.pathOf n = some un.path := by rw [Sys.pathOf, h, Option.map_some]
  rw [← hn, update_eq_self]

/-! ## What a step does to the list -/

/-- The list and the paths stay as they are. -/
def SameNames (y z : Sys) : Prop := z.names = y.names ∧ z.pathOf = y.pathOf

/-- One entry is taken out. -/
def DropsName (y z : Sys) (n : Nat) : Prop :=
  z.names = y.names.erase n ∧ z.pathOf = update y.pathOf n none

/-- One entry is put in front. -/
def AddsName (y z : Sys) (n : Nat) (path : List Char) : Prop :=
  y.name n = none ∧ z.names = n :: y.names ∧ z.pathOf = update y.pathOf n (some path)

theorem freeName_names (y : Sys) (s : Nat) :
    SameNames y (freeName y s) ∨ ∃ n, DropsName y (freeName y s) n := by
  unfold freeName
  cases h : (y.sock s).unixName with
  | none => exact .inl ⟨rfl, rfl⟩
  | some n =>
    refine .inr ⟨n, rfl, ?_⟩
    funext m
    by_cases hm : m = n
    · subst hm
      simp [Sys.pathOf]
    · simp [Sys.pathOf, hm]

/-- Only the end of `unp_listen` puts a name into the list, and only a close takes one out. -/
theorem Step.names {op : Op} (h : Step y op z) :
    (SameNames y z ∧ AddsNew y op) ∨ ((∃ n, DropsName y z n) ∧ AddsNew y op) ∨
      ∃ n s path, AddsName y z n path ∧ path = (y.sock s).path ∧
        (AddsNew y op ↔ y.findUnixName path = none) := by
  cases h with
  | @addName t s n backlog ht hn =>
    refine .inr (.inr ⟨n, s, _, ⟨hn, rfl, pathOf_setName _⟩, rfl, ?_⟩)
    constructor
    · exact fun h => h s backlog ht
    · rintro h s' backlog' ht'
      obtain ⟨rfl, -⟩ := Pc.listening.inj (ht.symm.trans ht')
      exact h
  | enqueue ht hn hun => exact .inl ⟨⟨rfl, pathOf_setName_same hun rfl⟩, trivial⟩
  | take ht hn => exact .inl ⟨⟨rfl, pathOf_setName_same hn rfl⟩, trivial⟩
  | @closeLast t f s =>
    rcases freeName_names (y.setSock s (closeStream (y.sock s) f true)) s with h | ⟨n, h⟩
    · exact .inl ⟨h, trivial⟩
    · exact .inr (.inl ⟨⟨n, h⟩, trivial⟩)
  | _ => exact .inl ⟨⟨rfl, rfl⟩, trivial⟩

/-! ## The invariant -/

/-- The paths differ, and every entry of the list is there. -/
structure Registered (y : Sys) : Prop where
  differ : PathsDiffer y
  present : ∀ n ∈ y.names, y.pathOf n ≠ none

theorem Registered.init : Registered Sys.init := ⟨List.Pairwise.nil, forall_mem_nil _⟩

section

variable (h : Registered y)
include h

theorem Registered.nodup : y.names.Nodup :=
  h.differ.imp fun hne heq => hne (congrArg y.pathOf heq)

theorem Registered.same (hs : SameNames y z) : Registered z := by
  obtain ⟨hnames, hpath⟩ := hs
  exact ⟨by rw [PathsDiffer, hnames, hpath]; exact h.differ, by rw [hnames, hpath]; exact h.present⟩

theorem Registered.drops (hd : DropsName y z n) : Registered z := by
  obtain ⟨hnames, hpath⟩ := hd
  have hne : ∀ m ∈ y.names.erase n, m ≠ n ∧ m ∈ y.names := fun m hm => (h.nodup.mem_erase_iff).mp hm
  constructor
  · rw [PathsDiffer, hnames, hpath]
    have hsub : (y.names.erase n).Pairwise (fun a b => y.pathOf a ≠ y.pathOf b) :=
      h.differ.sublist erase_sublist
    refine hsub.imp_of_mem fun ha hb hab => ?_
    rwa [update_of_ne (hne _ ha).1, update_of_ne (hne _ hb).1]
  · intro m hm
    rw [hnames] at hm
    rw [hpath, update_of_ne (hne m hm).1]
    exact h.present m (hne m hm).2

theorem Registered.adds_iff {path : List Char} (ha : AddsName y z n path) :
    PathsDiffer z ↔ y.findUnixName path = none := by
  obtain ⟨hn, hnames, hpath⟩ := ha
  have hnot : ∀ m ∈ y.names, m ≠ n := by
    rintro m hm rfl
    exact h.present m hm (by rw [Sys.pathOf, hn, Option.map_none])
  have hrest : y.names.Pairwise (fun a b => z.pathOf a ≠ z.pathOf b) := by
    refine h.differ.imp_of_mem fun ha hb hab => ?_
    rwa [hpath, update_of_ne (hnot _ ha), update_of_ne (hnot _ hb)]
  rw [PathsDiffer, hnames, pairwise_cons, findUnixName_eq_none]
  simp only [hrest, and_true]
  refine forall₂_congr fun m hm => ?_
  rw [hpath, update_self, update_of_ne (hnot m hm), ne_comm]

theorem Registered.adds {path : List Char} (ha : AddsName y z n path)
    (hfind : y.findUnixName path = none) : Registered z := by
  refine ⟨(h.adds_iff ha).mpr hfind, ?_⟩
  obtain ⟨-, hnames, hpath⟩ := ha
  rw [hnames, hpath, forall_mem_cons]
  refine ⟨by simp, fun m hm => ?_⟩
  by_cases hmn : m = n
  · simp [hmn]
  · rw [update_of_ne hmn]
    exact h.present m hm

theorem Registered.step {op : Op} (hmeets : AddsNew y op) (hstep : Step y op z) : Registered z := by
  obtain ⟨hs, -⟩ | ⟨⟨n, hd⟩, -⟩ | ⟨n, s, path, ha, -, hiff⟩ := hstep.names
  · exact h.same hs
  · exact h.drops hd
  · exact h.adds ha (hiff.mp hmeets)

theorem Registered.addsNew {op : Op} (hstep : Step y op z) (hz : PathsDiffer z) : AddsNew y op := by
  obtain ⟨-, hmeets⟩ | ⟨-, hmeets⟩ | ⟨n, s, path, ha, -, hiff⟩ := hstep.names
  · exact hmeets
  · exact hmeets
  · exact hiff.mpr ((h.adds_iff ha).mp hz)

end

end

/-- **One listener for each path**: in every run the paths of the list differ throughout exactly if every name
was added while its path was not found. -/
theorem pathsDiffer_iff {tr : List (Sys × Op)} {y : Sys} (h : History Step Sys.init tr y) :
    ((∀ x ∈ tr, PathsDiffer x.1) ∧ PathsDiffer y) ↔ ∀ x ∈ tr, AddsNew x.1 x.2 :=
  h.always_iff_of_invariant (fun _ hy => hy.differ) (fun _ _ _ hy hmeets hstep => hy.step hmeets hstep)
    (fun _ _ _ hy hstep hz => hy.addsNew hstep hz) Registered.init

/-- Two sockets are bound to two paths, and listen. -/
theorem pathsDiffer_iff_two : ∃ tr y, History Step Sys.init tr y ∧ y.names = [1, 0] ∧
    y.pathOf 0 = some ['p'] ∧ y.pathOf 1 = some ['q'] ∧ PathsDiffer y := by
  have h₁ := (History.nil Sys.init).snoc (@Step.socket _ 0 0 rfl rfl)
  have h₂ := h₁.snoc (@Step.bind _ 0 0 _ ['p'] rfl rfl rfl rfl)
  have h₃ := h₂.snoc (@Step.bound _ 0 0 ['p'] rfl)
  have h₄ := h₃.snoc (@Step.listen _ 0 0 5 _ rfl rfl (by decide) rfl rfl rfl)
  have h₅ := h₄.snoc (@Step.addName _ 0 0 0 5 rfl rfl)
  have h₆ := h₅.snoc (@Step.socket _ 1 1 rfl rfl)
  have h₇ := h₆.snoc (@Step.bind _ 1 1 _ ['q'] rfl rfl rfl rfl)
  have h₈ := h₇.snoc (@Step.bound _ 1 1 ['q'] rfl)
  have h₉ := h₈.snoc (@Step.listen _ 1 1 5 _ rfl rfl (by decide) rfl rfl rfl)
  have h := h₉.snoc (@Step.addName _ 1 1 1 5 rfl rfl)
  refine ⟨_, _, h, rfl, rfl, rfl, ((pathsDiffer_iff h).mpr ?_).2⟩
  simp only [nil_append, forall_mem_append, forall_mem_singleton, AddsNew, true_and, and_true]
  constructor
  · rintro s backlog ⟨⟩
    rfl
  · rintro s backlog ⟨⟩
    rfl

/-- Two sockets are bound to one path before the first of them listens: both get into the list. -/
theorem two_listeners : ∃ tr y, History Step Sys.init tr y ∧
    tr.map Prod.snd = [.socket 0 0, .socket 1 1, .bind 0 0 ['p'], .bound 0, .bind 1 1 ['p'], .bound 1,
      .listen 0 0 5, .addName 0 0, .listen 1 1 5, .addName 1 1] ∧
    y.names = [1, 0] ∧ y.pathOf 0 = some ['p'] ∧ y.pathOf 1 = some ['p'] ∧ ¬ PathsDiffer y := by
  have h₁ := (History.nil Sys.init).snoc (@Step.socket _ 0 0 rfl rfl)
  have h₂ := h₁.snoc (@Step.socket _ 1 1 rfl rfl)
  have h₃ := h₂.snoc (@Step.bind _ 0 0 _ ['p'] rfl rfl rfl rfl)
  have h₄ := h₃.snoc (@Step.bound _ 0 0 ['p'] rfl)
  have h₅ := h₄.snoc (@Step.bind _ 1 1 _ ['p'] rfl rfl rfl rfl)
  have h₆ := h₅.snoc (@Step.bound _ 1 1 ['p'] rfl)
  have h₇ := h₆.snoc (@Step.listen _ 0 0 5 _ rfl rfl (by decide) rfl rfl rfl)
  have h₈ := h₇.snoc (@Step.addName _ 0 0 0 5 rfl rfl)
  have h₉ := h₈.snoc (@Step.listen _ 1 1 5 _ rfl rfl (by decide) rfl rfl rfl)
  have h₁₀ := h₉.snoc (@Step.addName _ 1 1 1 5 rfl rfl)
  refine ⟨_, _, h₁₀, rfl, rfl, rfl, rfl, fun hdiffer => ?_⟩
  exact (pairwise_cons.mp hdiffer).1 0 mem_cons_self rfl

end Ixemul.Unp
