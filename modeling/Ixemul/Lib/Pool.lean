/-
# Ixemul.Lib.Pool — a pool of nodes shared out among lists that use ONE link field.

An allocator in C often keeps its records in an array and threads them through a single link field: free
records on a free list, used ones on the list of whoever owns them.  `Pool` states this for any set of
owners: every live owner's list is a chain, and the lists partition the nodes.  It is kept when nodes are
taken off or put on a list, at its head or further down, and when an owner comes or goes with an empty list.
In between a node may be on no list at all: it has then left the universe of the pool.
-/
import Ixemul.Lib.Links
import Mathlib.Data.List.Perm.Subperm
import Mathlib.Data.List.Range

namespace Ixemul.Lib

open Lib.Links
open Function List

variable {ι κ ο : Type*}

/-- The nodes `univ` are shared out among the lists of the owners; a live owner's list is the chain
from its start link. -/
structure Pool (K : LinkType ι κ) (univ : ι → Prop) (live : ο → Prop) (next : ι → κ) (start : ο → κ)
    (lists : ο → List ι) : Prop where
  chain : ∀ o, live o → K.Chain next (start o) (lists o)
  idle : ∀ o, ¬ live o → lists o = []
  owned : ∀ i, univ i → ∃ o, i ∈ lists o
  within : ∀ o, ∀ i ∈ lists o, univ i
  apart : ∀ o p i, i ∈ lists o → i ∈ lists p → o = p

namespace Pool

variable {K : LinkType ι κ} {univ univ' : ι → Prop} {live live' : ο → Prop} {next next' : ι → κ}
  {start : ο → κ} {lists : ο → List ι} {o p : ο} {x y : ι} {l m : List ι}

section

variable (h : Pool K univ live next start lists)
include h

theorem live_of_mem (hx : x ∈ lists o) : live o := by
  by_contra hl
  rw [h.idle o hl] at hx
  exact not_mem_nil hx

theorem nodup (o : ο) : (lists o).Nodup := by
  by_cases hl : live o
  · exact (h.chain o hl).nodup
  · rw [h.idle o hl]
    exact nodup_nil

theorem congr {start' : ο → κ} (hu : ∀ i, univ' i ↔ univ i)
    (hl : ∀ o, live' o ↔ live o) (hn : ∀ i, univ i → next' i = next i)
    (hs : ∀ o, live o → start' o = start o) : Pool K univ' live' next' start' lists where
  chain o ho := by
    have ho' := (hl o).mp ho
    rw [hs o ho']
    exact (h.chain o ho').congr fun i hi => hn i (h.within o i hi)
  idle o ho := h.idle o fun ho' => ho ((hl o).mpr ho')
  owned i hi := h.owned i ((hu i).mp hi)
  within o i hi := (hu i).mpr (h.within o i hi)
  apart := h.apart

theorem enlist (start' : ο → κ) (ho : ¬ live o)
    (hs : start' o = K.nil) (hs' : ∀ p, live p → start' p = start p) :
    Pool K univ (fun p => live p ∨ p = o) next start' lists where
  chain p hp := by
    rcases hp with hp | rfl
    · rw [hs' p hp]
      exact h.chain p hp
    · rw [h.idle p ho]
      exact hs
  idle p hp := h.idle p fun hl => hp (.inl hl)
  owned := h.owned
  within := h.within
  apart := h.apart

theorem retire (start' : ο → κ) (ho : lists o = [])
    (hs : ∀ p, live p → p ≠ o → start' p = start p) :
    Pool K univ (fun p => live p ∧ p ≠ o) next start' lists where
  chain p hp := by
    rw [hs p hp.1 hp.2]
    exact h.chain p hp.1
  idle p hp := by
    by_cases hpo : p = o
    · rw [hpo, ho]
    · exact h.idle p fun hl => hp ⟨hl, hpo⟩
  owned := h.owned
  within := h.within
  apart := h.apart

end

section Lists

variable [DecidableEq ο]

theorem mem_update {i : ι} : i ∈ update lists o l p ↔ (p = o ∧ i ∈ l) ∨ (p ≠ o ∧ i ∈ lists p) := by
  by_cases hp : p = o
  · subst hp
    simp
  · simp [hp]

section

variable (h : Pool K univ live next start lists)
include h

/-- An owner is given another list, of its own nodes and of nodes from outside. -/
theorem replace {start' : ο → κ} (hlo : live o)
    (hu : ∀ i, univ' i ↔ (univ i ∧ i ∉ lists o) ∨ i ∈ l) (hl : ∀ i ∈ l, univ i → i ∈ lists o)
    (ho : K.Chain next' (start' o) l)
    (hp : ∀ p, live p → p ≠ o → K.Chain next' (start' p) (lists p)) :
    Pool K univ' live next' start' (update lists o l) where
  chain := (forall_update_iff lists fun p l => live p → K.Chain next' (start' p) l).mpr
    ⟨fun _ => ho, fun p hpo hlp => hp p hlp hpo⟩
  idle := (forall_update_iff lists fun p l => ¬ live p → l = []).mpr
    ⟨absurd hlo, fun p _ => h.idle p⟩
  owned i hi := by
    rcases (hu i).mp hi with ⟨hi, hio⟩ | hi
    · obtain ⟨p, hip⟩ := h.owned i hi
      refine ⟨p, mem_update.mpr (.inr ⟨?_, hip⟩)⟩
      rintro rfl
      exact hio hip
    · exact ⟨o, mem_update.mpr (.inl ⟨rfl, hi⟩)⟩
  within p i hi := by
    rcases mem_update.mp hi with ⟨-, hi⟩ | ⟨hpo, hi⟩
    · exact (hu i).mpr (.inr hi)
    · exact (hu i).mpr (.inl ⟨h.within p i hi, fun hio => hpo (h.apart p o i hi hio)⟩)
  apart p r i hip hir := by
    -- a node of the new list was on no other list before
    have key : ∀ {q}, i ∈ l → i ∈ lists q → q = o := fun hil hiq =>
      h.apart _ o i hiq (hl i hil (h.within _ i hiq))
    rcases mem_update.mp hip with ⟨hpo, hil⟩ | ⟨-, hip⟩ <;>
      rcases mem_update.mp hir with ⟨hro, hil'⟩ | ⟨-, hir⟩
    · exact hpo.trans hro.symm
    · exact hpo.trans (key hil hir).symm
    · exact (key hil' hip).trans hro.symm
    · exact h.apart p r i hip hir

theorem remove {start' : ο → κ} (hl : (lists o).Perm (x :: l))
    (ho : live o → K.Chain next' (start' o) l)
    (hp : ∀ p, live p → p ≠ o → K.Chain next' (start' p) (lists p)) :
    Pool K (fun i => univ i ∧ i ≠ x) live next' start' (update lists o l) := by
  have hmem : ∀ i, i ∈ lists o ↔ i = x ∨ i ∈ l := fun i => hl.mem_iff.trans mem_cons
  have hxl : x ∉ l := (nodup_cons.mp (hl.nodup_iff.mp (h.nodup o))).1
  have hlo := h.live_of_mem ((hmem x).mpr (.inl rfl))
  refine h.replace hlo (fun i => ?_) (fun i hi _ => (hmem i).mpr (.inr hi)) (ho hlo) hp
  have hw := h.within o i
  have hne : i ∈ l → i ≠ x := fun hi hix => hxl (hix ▸ hi)
  rw [hmem] at hw ⊢
  tauto

theorem insert {start' : ο → κ} (hlo : live o) (hx : ¬ univ x)
    (hl : l.Perm (x :: lists o)) (ho : K.Chain next' (start' o) l)
    (hp : ∀ p, live p → p ≠ o → K.Chain next' (start' p) (lists p)) :
    Pool K (fun i => univ i ∨ i = x) live next' start' (update lists o l) := by
  have hmem : ∀ i, i ∈ l ↔ i = x ∨ i ∈ lists o := fun i => hl.mem_iff.trans mem_cons
  refine h.replace hlo (fun i => ?_) (fun i hi hiu => ?_) ho hp
  · have hw := h.within o i
    rw [hmem]
    tauto
  · rcases (hmem i).mp hi with rfl | hi
    · exact absurd hiu hx
    · exact hi

theorem pop (start' : ο → κ) (ho : lists o = x :: l)
    (hs : start' o = next x) (hs' : ∀ p, live p → p ≠ o → start' p = start p) :
    Pool K (fun i => univ i ∧ i ≠ x) live next start' (update lists o l) := by
  refine h.remove (.of_eq ho) (fun hlo => ?_) fun p hp hpo => ?_
  · have hc := h.chain o hlo
    rw [ho] at hc
    rw [hs]
    exact hc.2
  · rw [hs' p hp hpo]
    exact h.chain p hp

variable [DecidableEq ι]

theorem push (start' : ο → κ) (hlo : live o) (hx : ¬ univ x)
    (hs : start' o = K.ptr x) (hs' : ∀ p, live p → p ≠ o → start' p = start p) :
    Pool K (fun i => univ i ∨ i = x) live (update next x (start o)) start'
      (update lists o (x :: lists o)) := by
  have hoff : ∀ p, x ∉ lists p := fun p hp => hx (h.within p x hp)
  refine h.insert hlo hx (.refl _) ?_ fun p hp hpo => ?_
  · refine ⟨hs, ?_⟩
    rw [update_self]
    exact (h.chain o hlo).update_off (hoff o) _
  · rw [hs' p hp hpo]
    exact (h.chain p hp).update_off (hoff p) _

/-- **The head of one list becomes the head of another**, and takes the whole discipline with it. -/
theorem move {start' : ο → κ} (ho : lists o = x :: l)
    (hlp : live p) (hop : o ≠ p) (hso : start' o = next x) (hsp : start' p = K.ptr x)
    (hs' : ∀ r, live r → r ≠ o → r ≠ p → start' r = start r) :
    Pool K univ live (update next x (start p)) start'
      (update (update lists o l) p (x :: lists p)) := by
  have hx : x ∈ lists o := by simp [ho]
  -- in between, the lists of all owners but `o` start where they did
  have h1 := h.pop (update start o (next x)) ho (update_self ..)
    (fun r _ hr => update_of_ne hr _ _)
  have h2 := h1.push start' hlp (fun hc => hc.2 rfl) hsp
    (fun r hr hrp => by
      by_cases hro : r = o
      · subst hro
        rw [hso, update_self]
      · rw [hs' r hr hro hrp, update_of_ne hro])
  rw [update_of_ne hop.symm, update_of_ne hop.symm] at h2
  refine h2.congr (fun i => ?_) (fun _ => Iff.rfl) (fun _ _ => rfl) fun _ _ => rfl
  constructor
  · intro hi
    by_cases hix : i = x
    · exact .inr hix
    · exact .inl ⟨hi, hix⟩
  · rintro (hi | rfl)
    · exact hi.1
    · exact h.within o i hx

/-- A node behind another is taken off: the one before it takes over its link. -/
theorem unlink (ho : lists o = m ++ y :: x :: l) :
    Pool K (fun i => univ i ∧ i ≠ x) live (update next y (next x)) start
      (update lists o (m ++ y :: l)) := by
  have hy : y ∈ lists o := by simp [ho]
  refine h.remove (x := x) ?_ (fun hlo => ?_) fun p hp hpo => ?_
  · rw [ho, append_cons, append_cons m y l]
    exact perm_middle
  · have hc := h.chain o hlo
    rw [ho] at hc
    exact hc.unlink
  · refine (h.chain p hp).update_off (fun hyp => ?_) _
    exact hpo (h.apart _ _ _ hyp hy)

theorem append (ho : lists o = m ++ [y]) (hx : ¬ univ x) :
    Pool K (fun i => univ i ∨ i = x) live
      (update (update next y (K.ptr x)) x K.nil) start
      (update lists o (m ++ [y, x])) := by
  have hy : y ∈ lists o := by simp [ho]
  have hlo := h.live_of_mem hy
  have hoff : ∀ p, x ∉ lists p := fun p hp => hx (h.within p x hp)
  have hxy : x ≠ y := by
    rintro rfl
    exact hoff o hy
  refine h.insert hlo hx ?_ ?_ fun p hp hpo => ?_
  · rw [ho, append_cons]
    exact perm_append_singleton x _
  · have hc := h.chain o hlo
    rw [ho] at hc
    have hlast : next y = K.nil := hc.next_eq
    have hins := hc.insertAfter (by rw [← ho]; exact hoff o)
    rw [hlast, update_comm hxy] at hins
    exact hins
  · have hyp : y ∉ lists p := fun hyp => hpo (h.apart _ _ _ hyp hy)
    exact ((h.chain p hp).update_off hyp _).update_off (hoff p) _

end

end Lists

/-! ## Pools over an array -/

section Indices

variable {K : LinkType Nat κ} {univ : Nat → Prop} {next : Nat → κ} {lists : ο → List Nat} {n : Nat}

theorem ofRange [DecidableEq ο] (hn : 0 < n) (hlive : ∀ p, live p ↔ p = o)
    (hnext : ∀ i, i < n → next i = if i + 1 < n then K.ptr (i + 1) else K.nil)
    (hstart : start o = K.ptr 0) :
    Pool K (· < n) live next start (fun p => if p = o then range n else []) where
  chain p hp := by
    have hpo := (hlive p).mp hp
    subst hpo
    have hc := LinkType.chain_range' hnext (n - 1) 0 (by omega)
    rw [Nat.sub_add_cancel hn] at hc
    rw [if_pos rfl, hstart, range_eq_range']
    exact hc
  idle p hp := if_neg fun e => hp ((hlive p).mpr e)
  owned i hi := ⟨o, by simpa using hi⟩
  within p i hi := by
    by_cases hpo : p = o
    · simpa [hpo] using hi
    · simp [hpo] at hi
  apart p r i hip hir := by
    have key : ∀ {q : ο}, i ∈ (if q = o then range n else []) → q = o := by
      intro q hq
      by_contra hne
      simp [hne] at hq
    rw [key hip, key hir]

theorem length_flatMap_le (h : Pool K univ live next start lists) (hn : ∀ i, univ i → i < n)
    (os : List ο) (hos : os.Nodup) : (os.flatMap lists).length ≤ n := by
  have hnd : (os.flatMap lists).Nodup := by
    refine nodup_flatMap.mpr ⟨fun o _ => h.nodup o, hos.imp ?_⟩
    intro o p hop i hi hp
    exact hop (h.apart o p i hi hp)
  have hsub : os.flatMap lists ⊆ range n := by
    intro i hi
    obtain ⟨o, -, hio⟩ := mem_flatMap.mp hi
    exact mem_range.mpr (hn i (h.within o i hio))
  have hle := (subperm_of_subset hnd hsub).length_le
  rwa [length_range] at hle

theorem length_le (h : Pool K univ live next start lists) (hn : ∀ i, univ i → i < n) (o : ο) :
    (lists o).length ≤ n := by
  have hle := h.length_flatMap_le hn [o] (nodup_singleton o)
  simpa using hle

end Indices

end Pool

end Ixemul.Lib
