/-
# Ixemul.Lib.Sparse — a function that is zero almost everywhere, kept as a list of its other values.

A C program that needs a number for few of many keys keeps an array of entries: a key has at most one entry,
an entry is never zero, and a key without an entry stands for zero (`Sparse key val l f`).  The program
overwrites an entry, takes one out, or puts a new one at the end; a hole is filled with the last entry, and
the order of the entries does not matter.
-/
import Mathlib.Data.Set.Card

namespace Ixemul.Lib

open Function List

variable {α κ β : Type*} [Zero β] {key : α → κ} {val : α → β} {l m : List α} {e x : α} {f : κ → β}

/-- The entries `l` are the values of `f` other than zero. -/
structure Sparse (key : α → κ) (val : α → β) (l : List α) (f : κ → β) : Prop where
  nodup : (l.map key).Nodup
  nonzero : ∀ e ∈ l, val e ≠ 0
  value : ∀ e ∈ l, f (key e) = val e
  support : ∀ k, f k ≠ 0 → ∃ e ∈ l, key e = k

theorem perm_eraseIdx_of_swap {i : Nat} (hi : i < (l ++ [x]).length) :
    (((l ++ [x]).set i x).dropLast).Perm ((l ++ [x]).eraseIdx i) := by
  rw [length_append, length_singleton] at hi
  by_cases hlast : i = l.length
  · -- the hole is the last element itself
    subst hlast
    rw [eraseIdx_append_of_length_le le_rfl]
    simp
  · have hlt : i < l.length := by omega
    rw [set_append_left _ _ hlt, dropLast_concat, eraseIdx_append_of_lt_length hlt]
    exact (set_perm_cons_eraseIdx hlt x).trans (perm_append_singleton x _).symm

namespace Sparse

theorem nil : Sparse key val [] (0 : κ → β) :=
  ⟨nodup_nil, fun _ h => absurd h not_mem_nil, fun _ h => absurd h not_mem_nil,
    fun _ h => absurd rfl h⟩

theorem perm (h : Sparse key val l f) (hp : l.Perm m) : Sparse key val m f where
  nodup := (hp.map key).nodup_iff.mp h.nodup
  nonzero e he := h.nonzero e (hp.mem_iff.mpr he)
  value e he := h.value e (hp.mem_iff.mpr he)
  support k hk := by
    obtain ⟨e, he, hke⟩ := h.support k hk
    exact ⟨e, hp.mem_iff.mp he, hke⟩

theorem key_ne (h : Sparse key val l f) {k : κ} (hk : f k = 0) (he : e ∈ l) : key e ≠ k := by
  rintro rfl
  exact h.nonzero e he ((h.value e he).symm.trans hk)

theorem length_eq (h : Sparse key val l f) : l.length = {k | f k ≠ 0}.ncard := by
  classical
  have hset : {k | f k ≠ 0} = ((l.map key).toFinset : Set κ) := by
    ext k
    rw [coe_toFinset, Set.mem_ofPred_eq, Set.mem_ofPred_eq, mem_map]
    constructor
    · exact h.support k
    · rintro ⟨e, he, rfl⟩
      rw [h.value e he]
      exact h.nonzero e he
  rw [hset, Set.ncard_coe_finset, toFinset_card_of_nodup h.nodup, length_map]

theorem key_ne_of_mem (h : Sparse key val (m ++ e :: l) f) : ∀ d ∈ m ++ l, key d ≠ key e := by
  have hnd := h.nodup
  rw [map_append] at hnd
  have hmid := nodup_middle.mp hnd
  rw [← map_append] at hmid
  intro d hd he
  exact (nodup_cons.mp hmid).1 (mem_map.mpr ⟨d, hd, he⟩)

variable [DecidableEq κ]

theorem drop (h : Sparse key val (m ++ e :: l) f) : Sparse key val (m ++ l) (update f (key e) 0) := by
  have hne := h.key_ne_of_mem
  have hmem : ∀ d ∈ m ++ l, d ∈ m ++ e :: l := by
    intro d hd
    rw [mem_append] at hd
    rw [mem_append]
    tauto
  refine ⟨?_, fun d hd => h.nonzero d (hmem d hd), fun d hd => ?_, fun k hk => ?_⟩
  · have hnd := h.nodup
    rw [map_append] at hnd
    rw [map_append]
    exact (nodup_cons.mp (nodup_middle.mp hnd)).2
  · rw [update_of_ne (hne d hd)]
    exact h.value d (hmem d hd)
  · by_cases hke : k = key e
    · rw [hke, update_self] at hk
      exact absurd rfl hk
    · rw [update_of_ne hke] at hk
      obtain ⟨d, hd, hkd⟩ := h.support k hk
      refine ⟨d, ?_, hkd⟩
      rw [mem_append, mem_cons] at hd
      rw [mem_append]
      rcases hd with hd | rfl | hd
      · exact .inl hd
      · exact absurd hkd.symm hke
      · exact .inr hd

theorem concat (h : Sparse key val l f) (hk : f (key x) = 0) (hv : val x ≠ 0) :
    Sparse key val (l ++ [x]) (update f (key x) (val x)) := by
  refine ⟨?_, fun d hd => ?_, fun d hd => ?_, fun k hk' => ?_⟩
  · rw [map_append, nodup_append]
    refine ⟨h.nodup, nodup_singleton _, fun a ha b hb => ?_⟩
    obtain ⟨d, hd, rfl⟩ := mem_map.mp ha
    rw [mem_singleton.mp hb]
    exact h.key_ne hk hd
  · rcases mem_append.mp hd with hd | hd
    · exact h.nonzero d hd
    · rwa [mem_singleton.mp hd]
  · rcases mem_append.mp hd with hd | hd
    · rw [update_of_ne (h.key_ne hk hd)]
      exact h.value d hd
    · rw [mem_singleton.mp hd, update_self]
  · by_cases hkx : k = key x
    · exact ⟨x, by simp, hkx.symm⟩
    · rw [update_of_ne hkx] at hk'
      obtain ⟨d, hd, hkd⟩ := h.support k hk'
      exact ⟨d, mem_append_left _ hd, hkd⟩

theorem replace (h : Sparse key val (m ++ e :: l) f) (hk : key x = key e) (hv : val x ≠ 0) :
    Sparse key val (m ++ x :: l) (update f (key e) (val x)) := by
  have hnew := h.drop.concat (by rw [hk, update_self]) hv
  rw [hk, update_idem] at hnew
  exact hnew.perm ((perm_append_singleton x (m ++ l)).trans perm_middle.symm)

end Sparse

end Ixemul.Lib
