/-
# Ixemul.Buddy.Run — every run of `b_alloc` and `b_free`.

The system is the allocator together with its callers: the blocks they hold (`live`), each with the
size and pool it was allocated with.  A step is a call of `b_alloc`, with any size and any answer Exec
may give; a call of `b_free` for a live block, with its size; or a write of somebody else to memory
that is not the allocator's.  The last one matters: what stands in live blocks, and what is in a chunk
when Exec hands it out, is arbitrary, so nothing there may be relied on.
-/
import Ixemul.Lib.Run
import Ixemul.Buddy.Blocks

namespace Ixemul.Buddy

open Lib.Links Lib.Dyadic IxList Lib.Run
open List

/-! ## The system -/

/-- A block a caller holds: what `b_alloc` returned, and what it was asked for. -/
structure Live where
  ptr : Nat
  size : Int
  pool : Nat
  deriving DecidableEq

structure Sys where
  st : State
  live : List Live

namespace Live

/-- The block of a small request. -/
def tile (b : Live) : Tile Nat := ⟨b.pool, b.ptr - offsetNext, bucketOf b.size + minLog2, false⟩

/-- The memory that is set aside for the request, header included. -/
def extent (b : Live) : Nat × Nat :=
  if isLarge b.size then (b.ptr, roundSize b.size) else (b.tile.addr, 2 ^ b.tile.k)

/-- The number of bytes the caller can use, from `ptr` on. -/
def usable (b : Live) : Nat :=
  if isLarge b.size then roundSize b.size else 2 ^ b.tile.k - offsetNext

end Live

/-- The live blocks cut from chunks, as tiles. -/
def smallTiles (live : List Live) : List (Tile Nat) :=
  (live.filter (fun b => !isLarge b.size)).map Live.tile

/-- The live blocks that came straight from Exec. -/
def largeRegions (live : List Live) : List (Nat × Nat) :=
  (live.filter (fun b => isLarge b.size)).map Live.extent

/-- The block at `a` is on bucket `i` of pool `p`: following the `next` links from the head gets to
it. -/
def OnList (s : State) (p i a : Nat) : Prop :=
  ∃ l, (pointer Nat).Chain s.mem.links.next (s.buckets p i).head l ∧ a + offsetNext ∈ l

/-- Memory may become `m` by writes of others: the header words of live blocks, and all of
`struct free_block` on the free lists, are left alone. -/
structure Spares (y : Sys) (m : Mem) : Prop where
  live : ∀ b ∈ y.live, isLarge b.size = false →
    m.pool (b.ptr - offsetNext) = y.st.mem.pool (b.ptr - offsetNext) ∧
      m.execBlock (b.ptr - offsetNext) = y.st.mem.execBlock (b.ptr - offsetNext)
  free : ∀ p < numPools, ∀ i < numBuckets, ∀ a, OnList y.st p i a →
    SameBlock y.st.mem m ⟨p, a, i + minLog2, true⟩

/-- The state after `b_alloc (size, pool)`. -/
def Sys.alloc (y : Sys) (allocMem : Nat → Option Nat) (size : Int) (pool : Nat) : Sys :=
  let r := bAlloc allocMem size pool y.st
  ⟨r.2, (r.1.map (fun p => (⟨p, size, pool⟩ : Live))).toList ++ y.live⟩

/-- The state after `b_free (b.ptr, b.size)`. -/
def Sys.free (y : Sys) (b : Live) : Sys := ⟨bFree b.ptr b.size y.st, y.live.erase b⟩

inductive Step : Sys → Sys → Prop where
  | alloc {y : Sys} {allocMem : Nat → Option Nat} {size : Int} {pool : Nat}
      (hp : pool < numPools) (hans : ExecAnswers y.st allocMem) :
      Step y (y.alloc allocMem size pool)
  | free {y : Sys} {b : Live} (hb : b ∈ y.live) : Step y (y.free b)
  | write {y : Sys} {m : Mem} (hm : Spares y m) : Step y { y with st := { y.st with mem := m } }

/-- The allocator after `init_buddy`, whatever is in memory. -/
def system : System Sys where
  init := fun y => ∃ m, y = ⟨initBuddy m, []⟩
  step := Step

/-! ## Sizes -/

theorem log2Loop_ge {size pow : Nat} (h : size ≤ 2 ^ pow) : size ≤ 2 ^ log2Loop size pow := by
  induction pow with
  | zero => simpa [log2Loop] using h
  | succ pow ih =>
    unfold log2Loop
    split_ifs with hgt
    · exact h
    · exact ih (by omega)

theorem log2Loop_le (size pow : Nat) : log2Loop size pow ≤ pow := by
  induction pow with
  | zero => exact le_rfl
  | succ =>
    unfold log2Loop
    split_ifs <;> omega

variable {size : Int}

theorem isLarge_eq_false (h : isLarge size = false) : roundSize size < 2044 := by
  simpa [isLarge, buddyLimit, maxLog2, offsetNext] using h

theorem minSize_le_roundSize (size : Int) : 16 ≤ roundSize size := by
  unfold roundSize minSize minLog2
  split_ifs with h
  · decide
  · omega

theorem le_roundSize (size : Int) : size ≤ roundSize size := by
  unfold roundSize
  split_ifs with h
  · omega
  · omega

theorem bucketOf_spec (h : isLarge size = false) :
    roundSize size + offsetNext ≤ 2 ^ (bucketOf size + minLog2) ∧ bucketOf size ≤ numBuckets := by
  have hlt := isLarge_eq_false h
  have hge := minSize_le_roundSize size
  have hfit : roundSize size + offsetNext ≤ 2 ^ log2 (roundSize size + offsetNext) := by
    refine log2Loop_ge ?_
    simp only [offsetNext, maxLog2]
    omega
  have hle : log2 (roundSize size + offsetNext) ≤ maxLog2 := log2Loop_le _ _
  -- twenty bytes do not fit into sixteen
  have hmin : minLog2 ≤ log2 (roundSize size + offsetNext) := by
    by_contra hcon
    have hp : 2 ^ log2 (roundSize size + offsetNext) ≤ 2 ^ minLog2 :=
      Nat.pow_le_pow_right (by omega) (by omega)
    simp only [offsetNext, minLog2] at hfit hp
    omega
  refine ⟨?_, ?_⟩
  · rw [bucketOf, Nat.sub_add_cancel hmin]
    exact hfit
  · simp only [bucketOf, numBuckets]
    omega

/-! ## The invariant of the system -/

/-- The heap's blocks in use are the callers' small blocks, Exec's other pieces their large ones. -/
structure Inv (y : Sys) (ts : List (Tile Nat)) : Prop where
  heap : Heap y.st (largeRegions y.live) ts
  used : (inUse ts).Perm (smallTiles y.live)
  pos : ∀ b ∈ y.live, 0 ≤ b.size

variable {y : Sys} {ts : List (Tile Nat)} {b : Live} {live live' : List Live} {s : State}
  {large : List (Nat × Nat)} {r : Nat × Nat}

theorem smallTiles_cons_large (h : isLarge b.size) : smallTiles (b :: live) = smallTiles live := by
  simp [smallTiles, h]

theorem smallTiles_cons_small (h : isLarge b.size = false) :
    smallTiles (b :: live) = b.tile :: smallTiles live := by
  simp [smallTiles, h]

theorem largeRegions_cons_large (h : isLarge b.size) :
    largeRegions (b :: live) = (b.ptr, roundSize b.size) :: largeRegions live := by
  simp [largeRegions, h, Live.extent]

theorem largeRegions_cons_small (h : isLarge b.size = false) :
    largeRegions (b :: live) = largeRegions live := by
  simp [largeRegions, h]

theorem smallTiles_perm (h : live.Perm live') :
    (smallTiles live).Perm (smallTiles live') := (h.filter _).map _

theorem largeRegions_perm (h : live.Perm live') :
    (largeRegions live).Perm (largeRegions live') := (h.filter _).map _

theorem inv_init (m : Mem) : Inv ⟨initBuddy m, []⟩ [] where
  heap :=
    { tiling := ⟨by simp, List.Pairwise.nil, by simp [initBuddy], List.Pairwise.nil⟩
      coalesced := fun c hc => by simp [initBuddy] at hc
      headers := by
        refine ⟨fun _ _ => [], ⟨?_, by simp, by simp, by simp, by simp, by simp, by simp⟩⟩
        exact fun p _ i _ => DList.empty _
      exec := List.Perm.refl _
      apart := List.Pairwise.nil
      space := by simp [initBuddy] }
  used := List.Perm.refl _
  pos := by simp

theorem Heap.addLarge (hH : Heap s large ts)
    (hr : ∀ q ∈ s.exec, RegionApart r q) (htop : r.1 + r.2 ≤ 2 ^ 32) :
    Heap { s with exec := r :: s.exec } (r :: large) ts where
  tiling := hH.tiling
  coalesced := hH.coalesced
  headers := hH.headers.imp fun _ hL => hL.mono rfl rfl (Subset.refl _) (Subset.refl _) fun _ ht _ => ht
  exec := (hH.exec.cons r).trans perm_middle.symm
  apart := pairwise_cons.mpr ⟨hr, hH.apart⟩
  space := forall_mem_cons.mpr ⟨htop, hH.space⟩

theorem Heap.dropLarge (hH : Heap s (r :: large) ts) : Heap { s with exec := s.exec.erase r } large ts where
  tiling := hH.tiling
  coalesced := hH.coalesced
  headers := hH.headers.imp fun _ hL => hL.mono rfl rfl (Subset.refl _) (Subset.refl _) fun _ ht _ => ht
  exec := by
    have hmem : r ∈ s.exec := hH.exec.mem_iff.mpr (by simp)
    have h := (perm_cons_erase hmem).symm.trans (hH.exec.trans perm_middle)
    exact List.Perm.cons_inv h
  apart := hH.apart.sublist erase_sublist
  space := fun q hq => hH.space q (mem_of_mem_erase hq)

theorem Heap.perm_large {large' : List (Nat × Nat)} (hH : Heap s large ts)
    (hp : large.Perm large') : Heap s large' ts :=
  { hH with exec := hH.exec.trans (hp.append_left _) }

theorem inv_alloc (hI : Inv y ts) {allocMem : Nat → Option Nat} {pool : Nat}
    (hp : pool < numPools) (hans : ExecAnswers y.st allocMem) :
    ∃ ts', Inv (y.alloc allocMem size pool) ts' := by
  unfold Sys.alloc bAlloc
  by_cases hneg : size < 0
  · rw [if_pos hneg]
    exact ⟨ts, hI⟩
  rw [if_neg hneg]
  have hpos : 0 ≤ size := by omega
  cases hlarge : isLarge size with
  | true =>
    cases hm : allocMem (roundSize size) with
    | none => exact ⟨ts, hI⟩
    | some q =>
      obtain ⟨-, -, htop, hfresh⟩ := hans _ _ hm
      refine ⟨ts, ?_, ?_, forall_mem_cons.mpr ⟨hpos, hI.pos⟩⟩
      · change Heap _ (largeRegions (⟨q, size, pool⟩ :: y.live)) ts
        rw [largeRegions_cons_large hlarge]
        exact hI.heap.addLarge hfresh htop
      · change (inUse ts).Perm (smallTiles (⟨q, size, pool⟩ :: y.live))
        rw [smallTiles_cons_large hlarge]
        exact hI.used
  | false =>
    obtain ⟨-, hbucket⟩ := bucketOf_spec hlarge
    rcases getBlock_spec hI.heap hp hans (numBuckets - bucketOf size) (Nat.sub_le ..) with
      ⟨h1, h2⟩ | ⟨fb, ts', h1, h2, h3⟩
    · simp only [h1, h2]
      exact ⟨ts, hI⟩
    · simp only [h1]
      rw [Nat.sub_sub_self hbucket] at h2
      refine ⟨⟨pool, fb, bucketOf size + minLog2, false⟩ :: ts', ?_, ?_,
        forall_mem_cons.mpr ⟨hpos, hI.pos⟩⟩
      · change Heap _ (largeRegions (⟨fb + offsetNext, size, pool⟩ :: y.live)) _
        rw [largeRegions_cons_small hlarge]
        exact h2
      · change (inUse _).Perm (smallTiles (⟨fb + offsetNext, size, pool⟩ :: y.live))
        rw [smallTiles_cons_small hlarge]
        exact (h3.trans hI.used).cons _

theorem inv_free (hI : Inv y ts) (hb : b ∈ y.live) : ∃ ts', Inv (y.free b) ts' := by
  have hperm := perm_cons_erase hb
  have hpos : ∀ b' ∈ y.live.erase b, 0 ≤ b'.size := fun b' hb' => hI.pos b' (mem_of_mem_erase hb')
  unfold Sys.free bFree
  cases hlarge : isLarge b.size with
  | true =>
    refine ⟨ts, ?_, ?_, hpos⟩
    · have hH := hI.heap.perm_large (largeRegions_perm hperm)
      rw [largeRegions_cons_large hlarge] at hH
      exact hH.dropLarge
    · have hU := hI.used.trans (smallTiles_perm hperm)
      rwa [smallTiles_cons_large hlarge] at hU
  | false =>
    obtain ⟨-, hbucket⟩ := bucketOf_spec hlarge
    have hH := hI.heap.perm_large (largeRegions_perm hperm)
    rw [largeRegions_cons_small hlarge] at hH
    have hU := hI.used.trans (smallTiles_perm hperm)
    rw [smallTiles_cons_small hlarge] at hU
    -- the block is one of the tiles in use, so its header says which pool it came from
    have hmem : b.tile ∈ ts := by
      have : b.tile ∈ inUse ts := hU.mem_iff.mpr (mem_cons_self ..)
      exact mem_of_mem_filter this
    obtain ⟨L, hL⟩ := hH.headers
    have hpool : y.st.mem.pool (b.ptr - offsetNext) = b.pool + 1 := hL.used _ hmem rfl
    simp only [hpool, Nat.add_sub_cancel]
    have htile := perm_cons_erase hmem
    have hH' := hH.perm htile
    rw [Live.tile, ← Nat.sub_sub_self hbucket] at hH'
    obtain ⟨ts', h1, h2⟩ := freeBlock_spec _ (Nat.sub_le ..) hH'
    rw [Nat.sub_sub_self hbucket] at h2
    refine ⟨ts', h1, h2.trans ?_, hpos⟩
    have hU' := (inUse_perm htile).symm.trans hU
    exact List.Perm.cons_inv hU'

theorem onList_iff (hH : Heap y.st (largeRegions y.live) ts) {p i : Nat} (hp : p < numPools)
    (hi : i < numBuckets) (a : Nat) :
    OnList y.st p i a ↔ (⟨p, a, i + minLog2, true⟩ : Tile Nat) ∈ ts := by
  obtain ⟨L, hL⟩ := hH.headers
  have hd := hL.list p hp i hi
  rw [← hL.listed p hp i hi a]
  constructor
  · rintro ⟨l, hl, ha⟩
    rw [hl.unique hd.fwd] at ha
    obtain ⟨b, hb, hba⟩ := mem_map.mp ha
    rwa [← add_right_cancel hba]
  · intro ha
    exact ⟨_, hd.fwd, mem_map_of_mem ha⟩

theorem Heap.bucket_of_free (hH : Heap s large ts) {t : Tile Nat}
    (ht : t ∈ ts) (hf : t.free) :
    ∃ p < numPools, ∃ i < numBuckets, ∃ a, t = ⟨p, a, i + minLog2, true⟩ := by
  obtain ⟨L, hL⟩ := hH.headers
  have hk := (hL.free t ht hf).1
  have hmin := hL.min_le t ht
  refine ⟨t.tag, hL.pool_lt t ht, t.k - minLog2, ?_, t.addr, ?_⟩
  · simp only [numBuckets]
    omega
  · rcases t with ⟨g, a, k, f⟩
    simp only at hf hmin
    simp [hf, Nat.sub_add_cancel hmin]

theorem inv_write (hI : Inv y ts) {m : Mem} (hm : Spares y m) :
    Inv { y with st := { y.st with mem := m } } ts where
  heap :=
    { hI.heap with
      headers := by
        obtain ⟨L, hL⟩ := hI.heap.headers
        refine ⟨L, hL.congr rfl rfl (fun t ht => ?_)⟩
        cases hf : t.free with
        | true =>
          obtain ⟨p, hp, i, hi, a, rfl⟩ := hI.heap.bucket_of_free ht hf
          exact hm.free p hp i hi a ((onList_iff hI.heap hp hi a).mpr ht)
        | false =>
          have hmem : t ∈ smallTiles y.live := by
            refine hI.used.mem_iff.mp (mem_filter.mpr ⟨ht, ?_⟩)
            simp [hf]
          obtain ⟨b, hb, rfl⟩ := mem_map.mp hmem
          obtain ⟨hb, hsmall⟩ := mem_filter.mp hb
          obtain ⟨h1, h2⟩ := hm.live b hb (by simpa using hsmall)
          exact ⟨h1, h2, fun h => by simp [hf] at h, fun h => by simp [hf] at h,
            fun h => by simp [hf] at h⟩ }
  used := hI.used
  pos := hI.pos

theorem inv_reachable (hy : Reachable system y) : ∃ ts, Inv y ts := by
  refine hy.invariant (I := fun y => ∃ ts, Inv y ts) ?_ ?_
  · rintro y ⟨m, rfl⟩
    exact ⟨[], inv_init m⟩
  · rintro y y' ⟨ts, hI⟩ hstep
    cases hstep with
    | alloc hp hans => exact inv_alloc hI hp hans
    | free hb => exact inv_free hI hb
    | write hm => exact ⟨ts, inv_write hI hm⟩

/-! ## What holds after each call -/

/-- `ts` are the blocks of the heap as its users see them. -/
structure Layout (y : Sys) (ts : List (Tile Nat)) : Prop where
  /-- every byte of every chunk is in exactly one block -/
  tiles : ∀ c ∈ y.st.chunks, ∀ x, c.base ≤ x → x < c.base + maxSize → ∃! t, t ∈ ts ∧ t.Covers x
  /-- a block of order `k` is cut from one chunk of its pool, at a multiple of `2 ^ k` from the base -/
  cut : ∀ t ∈ ts, minLog2 ≤ t.k ∧ ∃ c ∈ y.st.chunks, t.Within maxLog2 c
  /-- the blocks in use are the callers' small blocks -/
  live : (ts.filter (fun t => !t.free)).Perm (smallTiles y.live)
  /-- a free list holds free blocks of its own order only -/
  ofList : ∀ p < numPools, ∀ i < numBuckets, ∀ a,
    OnList y.st p i a → (⟨p, a, i + minLog2, true⟩ : Tile Nat) ∈ ts
  /-- a block is on a free list exactly when it is free, and then on that of its own order -/
  onList : ∀ t ∈ ts, ∀ p < numPools, ∀ i < numBuckets,
    (OnList y.st p i t.addr ↔ t.free = true ∧ p = t.tag ∧ i + minLog2 = t.k)
  /-- there is such a list for every free block -/
  bucket : ∀ t ∈ ts, t.free = true → t.tag < numPools ∧ t.k < numBuckets + minLog2
  /-- no two buddies of one order are both free -/
  coalesced : ∀ c ∈ y.st.chunks, ∀ t ∈ ts, ∀ u ∈ ts, t.Within maxLog2 c → u.Within maxLog2 c →
    t.free = true → u.free = true → u.k = t.k → u.addr - c.base ≠ (t.addr - c.base) ^^^ 2 ^ t.k
  /-- the chunks, and the large blocks, are what Exec has handed out -/
  exec : y.st.exec.Perm (y.st.chunks.map region ++ largeRegions y.live)

theorem Inv.layout (hI : Inv y ts) : Layout y ts := by
  have hH := hI.heap
  obtain ⟨L, hL⟩ := hH.headers
  constructor
  case tiles =>
    intro c hc x h1 h2
    obtain ⟨t, ht, hx⟩ := hH.tiling.cover c hc x h1 h2
    refine ⟨t, ⟨ht, hx⟩, ?_⟩
    rintro u ⟨hu, hux⟩
    exact hH.tiling.eq_of_covers hu ht hux hx
  case cut => exact fun t ht => ⟨hL.min_le t ht, hH.tiling.within t ht⟩
  case live => exact hI.used
  case ofList => exact fun p hp i hi a => (onList_iff hH hp hi a).mp
  case onList =>
    intro t ht p hp i hi
    rw [onList_iff hH hp hi]
    constructor
    · intro hmem
      -- the listed block starts where `t` starts
      have := hH.tiling.eq_of_covers hmem ht (Tile.covers_addr _) (Tile.covers_addr t)
      rw [← this]
      exact ⟨rfl, rfl, rfl⟩
    · rintro ⟨hf, rfl, hk⟩
      rcases t with ⟨g, a, k, f⟩
      rwa [hk, ← hf]
  case bucket =>
    intro t ht hf
    refine ⟨hL.pool_lt t ht, ?_⟩
    exact (hL.free t ht hf).1
  case coalesced =>
    intro c hc t ht u hu hwt hwu hft hfu hk heq
    refine hH.coalesced c hc t ht u hu hwt hwu hft hfu hk ?_
    have := hwu.base_le
    rw [buddyOf, ← heq]
    omega
  case exec => exact hH.exec

theorem extent_small (h : isLarge b.size = false) : b.extent = (b.tile.addr, 2 ^ b.tile.k) := by
  simp [Live.extent, h]

theorem Inv.live_apart (hI : Inv y ts) : y.live.Pairwise (fun b b' => RegionApart b.extent b'.extent) := by
  have hH := hI.heap
  -- split the callers' blocks into the large and the small ones
  have hsplit := filter_append_perm (fun b : Live => isLarge b.size) y.live
  refine (hsplit.pairwise_iff (fun h => Or.symm h)).mp (pairwise_append.mpr ⟨?_, ?_, ?_⟩)
  · have hap := (hH.exec.pairwise_iff (fun h => Or.symm h)).mp hH.apart
    have hlarge : (largeRegions y.live).Pairwise RegionApart := (pairwise_append.mp hap).2.1
    exact pairwise_map.mp hlarge
  · have htiles : (smallTiles y.live).Pairwise Tile.Apart := by
      refine (hI.used.pairwise_iff Tile.Apart.symm).mp ?_
      exact hH.tiling.apart.sublist filter_sublist
    refine (pairwise_map.mp htiles).imp_of_mem fun hb hb' hab => ?_
    rw [extent_small (by simpa using (mem_filter.mp hb).2),
      extent_small (by simpa using (mem_filter.mp hb').2)]
    exact hab
  · -- a small block lies in a chunk, and a chunk is apart from the large blocks
    intro b hb b' hb'
    have hlarge : b.extent ∈ largeRegions y.live := mem_map_of_mem hb
    have hsmall : b'.tile ∈ ts := by
      have : b'.tile ∈ inUse ts := hI.used.mem_iff.mpr (mem_map_of_mem hb')
      exact mem_of_mem_filter this
    obtain ⟨c, hc, hw⟩ := hH.tiling.within _ hsmall
    have hap := (hH.exec.pairwise_iff (fun h => Or.symm h)).mp hH.apart
    have hreg := (pairwise_append.mp hap).2.2 (region c) (mem_map_of_mem hc) _ hlarge
    rw [extent_small (b := b') (by simpa using (mem_filter.mp hb').2)]
    have h1 := hw.base_le; have h2 := hw.top_le
    rcases hreg with h | h
    · right
      simp only [region, maxSize] at h ⊢
      omega
    · left
      simp only [region] at h ⊢
      omega

theorem usable_ge : b.size ≤ b.usable := by
  have hle := le_roundSize b.size
  unfold Live.usable
  cases hlarge : isLarge b.size with
  | true => simpa using hle
  | false =>
    have hfit := (bucketOf_spec hlarge).1
    have : roundSize b.size ≤ 2 ^ b.tile.k - offsetNext := by
      simp only [Live.tile]
      omega
    rw [if_neg (by simp)]
    omega

theorem usable_lt (h : b.size < 2 ^ 31) : b.usable < 2 ^ 31 := by
  unfold Live.usable
  cases hlarge : isLarge b.size with
  | true =>
    simp only [if_true, roundSize]
    by_cases hmin : b.size < minSize
    · rw [if_pos hmin]
      decide
    · rw [if_neg hmin]
      omega
  | false =>
    have hbucket := (bucketOf_spec hlarge).2
    have hpow : 2 ^ (bucketOf b.size + minLog2) ≤ 2 ^ 16 :=
      Nat.pow_le_pow_right (by decide) (Nat.add_le_add_right hbucket minLog2)
    simp only [Bool.false_eq_true, if_false, Live.tile]
    omega

theorem Inv.all_back (hI : Inv y ts) (hnil : y.live = []) : y.st.chunks = [] ∧ y.st.exec = [] := by
  have hH := hI.heap
  obtain ⟨L, hL⟩ := hH.headers
  have hfree : ∀ t ∈ ts, t.free ∧ t.k < maxLog2 := by
    intro t ht
    have hf : t.free := by
      by_contra hf
      have hmem : t ∈ inUse ts := mem_filter.mpr ⟨ht, by simpa using hf⟩
      have := hI.used.mem_iff.mp hmem
      simp [hnil, smallTiles] at this
    exact ⟨hf, (hL.free t ht hf).1⟩
  have hchunks := hH.tiling.no_chunks hH.coalesced hfree
  refine ⟨hchunks, ?_⟩
  have hexec := hH.exec
  rw [hchunks, hnil] at hexec
  exact hexec.eq_nil

/-- **The buddy allocator is correct in every run.**  After each call the callers' small blocks and the
blocks on the free lists tile the chunks exactly, with every block at a multiple of its size, on the
free list of its own bucket iff it is free, and coalesced; any two live blocks are disjoint, each has
the requested number of usable bytes, and when all are freed everything is back with Exec. -/
theorem reachable_layout (hy : Reachable system y) :
    (∃ ts, Layout y ts) ∧
    y.live.Pairwise (fun b b' => RegionApart b.extent b'.extent) ∧
    (∀ b ∈ y.live, b.size ≤ b.usable) ∧
    (y.live = [] → y.st.chunks = [] ∧ y.st.exec = []) := by
  obtain ⟨ts, hI⟩ := inv_reachable hy
  exact ⟨⟨ts, hI.layout⟩, hI.live_apart, fun _ _ => usable_ge, hI.all_back⟩

/-- A run: a request for 100 bytes that Exec serves with a chunk at 64K. -/
def firstAlloc : Sys :=
  (⟨initBuddy ⟨fun _ => 0, fun _ => 0, fun _ => 0, ⟨fun _ => none, fun _ => none⟩⟩, []⟩ : Sys).alloc
    (fun n => if n = maxSize then some 65536 else none) 100 0

theorem firstAlloc_reachable : Reachable system firstAlloc := by
  refine .step (.init ⟨_, rfl⟩) (.alloc (by decide) ?_)
  intro n p h
  change (if n = maxSize then some 65536 else none) = some p at h
  split_ifs at h with hn
  cases h
  subst hn
  exact ⟨by decide, by decide, by decide, by simp [initBuddy]⟩

theorem reachable_layout_firstAlloc :
    firstAlloc.live = [⟨65540, 100, 0⟩] ∧ firstAlloc.st.chunks = [⟨0, 65536⟩] ∧
      (∃ ts, Layout firstAlloc ts) ∧
      ∀ b ∈ firstAlloc.live, b.size ≤ b.usable := by
  have h := reachable_layout firstAlloc_reachable
  exact ⟨by decide, by decide, h.1, h.2.2.1⟩

end Ixemul.Buddy
