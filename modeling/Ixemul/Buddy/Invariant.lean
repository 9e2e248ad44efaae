/-
# Ixemul.Buddy.Invariant — what the memory says about the blocks.

`Headers s ts L` reads the state `s` as a set of blocks: `ts` are tiles (`Ixemul.Lib.Dyadic`), `L p i` is
the sequence of blocks on bucket `i` of pool `p`.  Every header word names its chunk and its pool, a free
block carries its bucket number, and the buckets hold exactly the free tiles, each on the list of its own
order. `ts` need not be all the blocks there are: while a block is being split its upper half has no header
yet.
-/
import Ixemul.Buddy.Model

namespace Ixemul.Buddy

open Lib.Links Lib.Dyadic IxList
open List

variable {s s' : State} {ts us : List (Tile Nat)} {L : Nat → Nat → List Nat} {t u : Tile Nat}
  {p i a : Nat}

/-- The memory of `s` describes the blocks `ts`; `L` are the free lists. -/
structure Headers (s : State) (ts : List (Tile Nat)) (L : Nat → Nat → List Nat) : Prop where
  list : ∀ p < numPools, ∀ i < numBuckets,
    DList s.mem.links (s.buckets p i) ((L p i).map (· + offsetNext))
  listed : ∀ p < numPools, ∀ i < numBuckets, ∀ a,
    a ∈ L p i ↔ (⟨p, a, i + minLog2, true⟩ : Tile Nat) ∈ ts
  pool_lt : ∀ t ∈ ts, t.tag < numPools
  min_le : ∀ t ∈ ts, minLog2 ≤ t.k
  free : ∀ t ∈ ts, t.free = true →
    t.k < maxLog2 ∧ s.mem.pool t.addr = 0 ∧ s.mem.index t.addr = (t.k - minLog2 : Nat)
  used : ∀ t ∈ ts, t.free = false → s.mem.pool t.addr = t.tag + 1
  chunk : ∀ t ∈ ts, ∀ c ∈ s.chunks, t.Within maxLog2 c → s.mem.execBlock t.addr <<< 2 = c.base

/-- The two states agree on what the allocator keeps in the block `t`: the header word, and the rest of
`struct free_block` while the block is free. -/
structure SameBlock (m m' : Mem) (t : Tile Nat) : Prop where
  pool : m'.pool t.addr = m.pool t.addr
  execBlock : m'.execBlock t.addr = m.execBlock t.addr
  index : t.free = true → m'.index t.addr = m.index t.addr
  next : t.free = true → m'.links.next (t.addr + offsetNext) = m.links.next (t.addr + offsetNext)
  prev : t.free = true → m'.links.prev (t.addr + offsetNext) = m.links.prev (t.addr + offsetNext)

namespace Headers

theorem mono (hH : Headers s ts L) (hm : s'.mem = s.mem) (hb : s'.buckets = s.buckets)
    (hc : s'.chunks ⊆ s.chunks) (hsub : us ⊆ ts) (hfree : ∀ t ∈ ts, t.free → t ∈ us) : Headers s' us L where
  list := by
    rw [hm, hb]
    exact hH.list
  listed := fun p hp i hi a => (hH.listed p hp i hi a).trans ⟨fun h => hfree _ h rfl, fun h => hsub h⟩
  pool_lt := fun t ht => hH.pool_lt t (hsub ht)
  min_le := fun t ht => hH.min_le t (hsub ht)
  free := fun t ht => hm ▸ hH.free t (hsub ht)
  used := fun t ht => hm ▸ hH.used t (hsub ht)
  chunk := fun t ht c h => hm ▸ hH.chunk t (hsub ht) c (hc h)

theorem perm (hH : Headers s ts L) (hp : ts.Perm us) : Headers s us L :=
  hH.mono rfl rfl (Subset.refl _) (fun _ => hp.mem_iff.mpr) fun _ ht _ => hp.mem_iff.mp ht

theorem mem_of_free (hu : u ∈ t :: ts) (ht : t.free = false) (hf : u.free) : u ∈ ts := by
  refine (mem_cons.mp hu).resolve_left ?_
  rintro rfl
  exact absurd hf (by simp [ht])

theorem tail (hH : Headers s (t :: ts) L) (ht : t.free = false) : Headers s ts L :=
  hH.mono rfl rfl (Subset.refl _) (subset_cons_self ..) fun _ hu hf => mem_of_free hu ht hf

theorem cons (hH : Headers s ts L) (ht : t.free = false) (hp : t.tag < numPools)
    (hk : minLog2 ≤ t.k) (hpool : s.mem.pool t.addr = t.tag + 1)
    (hchunk : ∀ c ∈ s.chunks, t.Within maxLog2 c → s.mem.execBlock t.addr <<< 2 = c.base) :
    Headers s (t :: ts) L where
  list := hH.list
  listed := fun p hp i hi a => (hH.listed p hp i hi a).trans
    ⟨mem_cons_of_mem _, fun h => mem_of_free h ht rfl⟩
  pool_lt := forall_mem_cons.mpr ⟨hp, hH.pool_lt⟩
  min_le := forall_mem_cons.mpr ⟨hk, hH.min_le⟩
  free := forall_mem_cons.mpr ⟨fun h => by simp [ht] at h, hH.free⟩
  used := forall_mem_cons.mpr ⟨fun _ => hpool, hH.used⟩
  chunk := forall_mem_cons.mpr ⟨hchunk, hH.chunk⟩

theorem mem_of_list (hH : Headers s ts L) (hp : p < numPools) (hi : i < numBuckets) {x : Nat}
    (hx : x ∈ (L p i).map (· + offsetNext)) :
    ∃ a, x = a + offsetNext ∧ (⟨p, a, i + minLog2, true⟩ : Tile Nat) ∈ ts := by
  obtain ⟨a, ha, rfl⟩ := mem_map.mp hx
  exact ⟨a, rfl, (hH.listed p hp i hi a).mp ha⟩

theorem congr (hH : Headers s ts L) (hb : s'.buckets = s.buckets) (hc : s'.chunks = s.chunks)
    (hm : ∀ t ∈ ts, SameBlock s.mem s'.mem t) : Headers s' ts L where
  list := by
    intro p hp i hi
    rw [hb]
    refine (hH.list p hp i hi).congr ?_ ?_
    · intro x hx
      obtain ⟨a, rfl, ha⟩ := hH.mem_of_list hp hi hx
      exact (hm _ ha).next rfl
    · intro x hx
      obtain ⟨a, rfl, ha⟩ := hH.mem_of_list hp hi hx
      exact (hm _ ha).prev rfl
  listed := hH.listed
  pool_lt := hH.pool_lt
  min_le := hH.min_le
  free := fun t ht hf => by
    rw [(hm t ht).pool, (hm t ht).index hf]
    exact hH.free t ht hf
  used := fun t ht hf => by
    rw [(hm t ht).pool]
    exact hH.used t ht hf
  chunk := fun t ht c hcm hw => by
    rw [(hm t ht).execBlock]
    exact hH.chunk t ht c (hc ▸ hcm) hw

theorem lists_disjoint (hH : Headers s ts L) (hA : ts.Pairwise Tile.Apart) {p' i' : Nat}
    (hp : p < numPools) (hi : i < numBuckets) (hp' : p' < numPools) (hi' : i' < numBuckets)
    (hne : ¬(p' = p ∧ i' = i)) :
    ((L p i).map (· + offsetNext)).Disjoint ((L p' i').map (· + offsetNext)) := by
  intro x hx hx'
  obtain ⟨a, rfl, ha⟩ := hH.mem_of_list hp hi hx
  obtain ⟨b, hb, hb'⟩ := hH.mem_of_list hp' hi' hx'
  have hab : a = b := add_right_cancel hb
  subst hab
  apply hne
  by_contra hcon
  have htu : (⟨p, a, i + minLog2, true⟩ : Tile Nat) ≠ ⟨p', a, i' + minLog2, true⟩ := by
    intro h
    simp only [Tile.mk.injEq, and_true, true_and] at h
    exact hcon ⟨h.1.symm, by omega⟩
  exact (hA.forall ha hb' htu).not_covers (Tile.covers_addr _) (Tile.covers_addr _)

end Headers

/-! ## `link_block` -/

theorem addr_ne_of_apart (hA : t.Apart u) : t.addr ≠ u.addr := by
  intro h
  exact hA.not_covers (h ▸ Tile.covers_addr t) (Tile.covers_addr u)

/-- **`link_block` adds a free block.**  Before the call the block may hold anything but its chunk. -/
theorem Headers.link (hH : Headers s ts L)
    (hA : ((⟨p, a, i + minLog2, true⟩ : Tile Nat) :: ts).Pairwise Tile.Apart)
    (hp : p < numPools) (hi : i < numBuckets)
    (hchunk : ∀ c ∈ s.chunks, (⟨p, a, i + minLog2, true⟩ : Tile Nat).Within maxLog2 c →
      s.mem.execBlock a <<< 2 = c.base) :
    Headers (linkBlock s p i a) (⟨p, a, i + minLog2, true⟩ :: ts) (setAt L p i (a :: L p i)) := by
  obtain ⟨hAa, hAts⟩ := pairwise_cons.mp hA
  have hne : ∀ t ∈ ts, t.addr ≠ a := fun t ht => (addr_ne_of_apart (hAa t ht)).symm
  have hnot : ∀ p' < numPools, ∀ i' < numBuckets, a + offsetNext ∉ (L p' i').map (· + offsetNext) := by
    intro p' hp' i' hi' hx
    obtain ⟨b, hb, hmem⟩ := hH.mem_of_list hp' hi' hx
    exact hne _ hmem (add_right_cancel hb).symm
  -- the other blocks have kept their headers
  have hset : Headers { s with mem := (s.mem.setPool a 0).setIndex a i } ts L :=
    hH.congr rfl rfl fun t ht => by
      constructor <;> simp [Mem.setPool, Mem.setIndex, hne t ht]
  have hd := hH.list p hp i hi
  constructor
  case list =>
    intro p' hp' i' hi'
    by_cases hpi : p' = p ∧ i' = i
    · obtain ⟨rfl, rfl⟩ := hpi
      simpa [linkBlock, State.setBucket, Mem.setPool, Mem.setIndex] using
        ixaddhead_dlist hd (hnot p' hp' i' hi')
    · -- the other buckets hold neither the new node nor a node of this bucket
      simp only [linkBlock, State.setBucket, Mem.setPool, Mem.setIndex, setAt_of_ne hpi]
      refine (ixaddhead_agreeOff hd (hnot p hp i hi)).dlist (hH.list p' hp' i' hi') ?_
      intro x hx hx'
      rcases mem_cons.mp hx with rfl | hx
      · exact hnot p' hp' i' hi' hx'
      · exact hH.lists_disjoint hAts hp hi hp' hi' hpi hx hx'
  case listed =>
    intro p' hp' i' hi' b
    by_cases hpi : p' = p ∧ i' = i
    · obtain ⟨rfl, rfl⟩ := hpi
      simp [hH.listed p' hp' i' hi' b]
    · rw [setAt_of_ne hpi, hH.listed p' hp' i' hi' b, mem_cons, or_iff_right]
      intro h
      simp only [Tile.mk.injEq] at h
      exact hpi ⟨h.1, by omega⟩
  case pool_lt => exact forall_mem_cons.mpr ⟨hp, hH.pool_lt⟩
  case min_le => exact forall_mem_cons.mpr ⟨Nat.le_add_left .., hH.min_le⟩
  case free =>
    refine forall_mem_cons.mpr ⟨fun _ => ⟨?_, ?_, ?_⟩, hset.free⟩
    · simp only [numBuckets, maxLog2, minLog2] at hi ⊢
      omega
    · simp [linkBlock, State.setBucket, Mem.setPool, Mem.setIndex]
    · simp [linkBlock, State.setBucket, Mem.setPool, Mem.setIndex]
  case used => exact forall_mem_cons.mpr ⟨fun h => by simp at h, hset.used⟩
  case chunk => exact forall_mem_cons.mpr ⟨hchunk, hH.chunk⟩

/-! ## `unlink_block` -/

/-- What both forms of `unlink_block` do to the state: the block `a` leaves bucket `i` and is marked as
a block of the pool. -/
def reserve (s : State) (p i a : Nat) : State :=
  let s' := s.setBucket p i (ixremove s.mem.links (s.buckets p i) (some (a + offsetNext)))
  { s' with mem := s'.mem.setPool a (p + 1) }

theorem unlinkBlock_some (h : s.mem.index a = (i : Int)) (ind : Nat) :
    unlinkBlock s p ind (some a) = (some a, reserve s p i a) := by
  simp [unlinkBlock, reserve, State.setBucket, Mem.setPool, h]

theorem unlinkBlock_none_nil (h : DList s.mem.links (s.buckets p i) ([] : List Nat)) :
    unlinkBlock s p i none = (none, s) := by
  have hset : setAt s.buckets p i (s.buckets p i) = s.buckets := by
    funext p' i'
    by_cases hpi : p' = p ∧ i' = i
    · obtain ⟨rfl, rfl⟩ := hpi
      exact setAt_self ..
    · exact setAt_of_ne hpi
  simp [unlinkBlock, ixremhead_nil h, State.setBucket, hset]

theorem unlinkBlock_none_cons {l : List Nat}
    (h : DList s.mem.links (s.buckets p i) ((a :: l).map (· + offsetNext))) :
    unlinkBlock s p i none = (some a, reserve s p i a) := by
  simp [unlinkBlock, ixremhead_cons h, reserve]

/-- **`unlink_block` takes a free block into use.** -/
theorem Headers.reserve (hH : Headers s (⟨p, a, i + minLog2, true⟩ :: ts) L)
    (hA : ((⟨p, a, i + minLog2, true⟩ : Tile Nat) :: ts).Pairwise Tile.Apart)
    (hi : i < numBuckets) :
    Headers (reserve s p i a) (⟨p, a, i + minLog2, false⟩ :: ts) (setAt L p i ((L p i).erase a)) := by
  have hp : p < numPools := hH.pool_lt _ (mem_cons_self ..)
  obtain ⟨hAa, hAts⟩ := pairwise_cons.mp hA
  have hne : ∀ t ∈ ts, t.addr ≠ a := fun t ht => (addr_ne_of_apart (hAa t ht)).symm
  have hd := hH.list p hp i hi
  have hmem : a ∈ L p i := (hH.listed p hp i hi a).mpr (mem_cons_self ..)
  have hnd : (L p i).Nodup := List.Nodup.of_map _ hd.nodup
  obtain ⟨l₁, l₂, hnotl, hl, herase⟩ := exists_erase_eq hmem
  rw [hl, map_append, map_cons] at hd
  have hrest : Headers (s.setBucket p i (ixremove s.mem.links (s.buckets p i) (some (a + offsetNext)))) ts
      (setAt L p i ((L p i).erase a)) := by
    refine ⟨?_, ?_, fun t ht => hH.pool_lt t (mem_cons_of_mem _ ht), fun t ht => hH.min_le t
      (mem_cons_of_mem _ ht), fun t ht => hH.free t (mem_cons_of_mem _ ht), fun t ht => hH.used t
      (mem_cons_of_mem _ ht), fun t ht => hH.chunk t (mem_cons_of_mem _ ht)⟩
    · intro p' hp' i' hi'
      by_cases hpi : p' = p ∧ i' = i
      · obtain ⟨rfl, rfl⟩ := hpi
        rw [setAt_self, herase, map_append]
        simpa [State.setBucket] using ixremove_dlist hd
      · simp only [State.setBucket, setAt_of_ne hpi]
        refine (ixremove_agreeOff hd).dlist (hH.list p' hp' i' hi') ?_
        have hdisj := hH.lists_disjoint hA hp hi hp' hi' hpi
        rwa [hl, map_append, map_cons] at hdisj
    · intro p' hp' i' hi' b
      by_cases hpi : p' = p ∧ i' = i
      · obtain ⟨rfl, rfl⟩ := hpi
        rw [setAt_self, hnd.mem_erase_iff, hH.listed p' hp' i' hi' b, mem_cons]
        exact ⟨fun ⟨hba, hb⟩ => hb.resolve_left fun h => hba (Tile.mk.inj h).2.1,
          fun hb => ⟨hne _ hb, .inr hb⟩⟩
      · rw [setAt_of_ne hpi, hH.listed p' hp' i' hi' b, mem_cons, or_iff_right]
        intro h
        have := (Tile.mk.inj h).2.2.1
        exact hpi ⟨(Tile.mk.inj h).1, by omega⟩
  have hmark : Headers (Buddy.reserve s p i a) ts (setAt L p i ((L p i).erase a)) :=
    hrest.congr rfl rfl fun t ht => by
      constructor <;> simp [Buddy.reserve, Mem.setPool, hne t ht]
  refine hmark.cons rfl hp (Nat.le_add_left ..) ?_ fun c hc hw => ?_
  · -- two bits are enough for a pool number plus one
    simp only [numPools] at hp
    simp only [Buddy.reserve, State.setBucket, Mem.setPool, Function.update_self]
    omega
  · exact hH.chunk _ (mem_cons_self ..) c hc ⟨hw.tag, hw.order, hw.base_le, hw.top_le, hw.aligned⟩

end Ixemul.Buddy
