/-
# Ixemul.Buddy.Blocks — `get_block` and `free_block` keep the heap.

`Heap s large ts` is the invariant of the allocator: the blocks `ts` tile the chunks, no two free buddies
are left apart, memory describes the blocks (`Headers`), and what Exec has handed out is the chunks and the
`large` pieces.  Every step of the two recursive functions is one lemma about `Heap`.  `free_block` decides
whether to join by reading `pool` and `index` at an address computed by xor; `Tiling.buddy_start` says that
a block DOES start there.
-/
import Ixemul.Buddy.Invariant

namespace Ixemul.Buddy

open Lib.Links Lib.Dyadic IxList
open List

variable {s : State} {ts us : List (Tile Nat)} {large : List (Nat × Nat)}
  {L : Nat → Nat → List Nat} {t u : Tile Nat} {p i a : Nat} {allocMem : Nat → Option Nat}

/-! ## The invariant -/

/-- Two pieces of memory, as (address, size), that share no byte. -/
def RegionApart (r q : Nat × Nat) : Prop := r.1 + r.2 ≤ q.1 ∨ q.1 + q.2 ≤ r.1

instance : Std.Symm RegionApart := ⟨fun _ _ => Or.symm⟩

/-- The piece of memory that is a chunk. -/
def region (c : Chunk Nat) : Nat × Nat := (c.base, maxSize)

/-- What Exec may answer in state `s`: nothing, or memory that nobody has, longword aligned (in fact
aligned to `MEM_BLOCKSIZE`), not at 0 and inside the address space. -/
def ExecAnswers (s : State) (allocMem : Nat → Option Nat) : Prop :=
  ∀ n p, allocMem n = some p →
    p ≠ 0 ∧ 8 ∣ p ∧ p + n ≤ 2 ^ 32 ∧ ∀ r ∈ s.exec, RegionApart (p, n) r

/-- The blocks in use. -/
def inUse (ts : List (Tile Nat)) : List (Tile Nat) := ts.filter (fun t => !t.free)

/-- The allocator's invariant: `ts` are its blocks, `large` the pieces that went straight through. -/
structure Heap (s : State) (large : List (Nat × Nat)) (ts : List (Tile Nat)) : Prop where
  tiling : Tiling maxLog2 s.chunks ts
  coalesced : NoFreeBuddies maxLog2 s.chunks ts
  headers : ∃ L, Headers s ts L
  exec : s.exec.Perm (s.chunks.map region ++ large)
  apart : s.exec.Pairwise RegionApart
  space : ∀ r ∈ s.exec, r.1 + r.2 ≤ 2 ^ 32

@[simp] theorem inUse_cons_free (h : t.free) : inUse (t :: ts) = inUse ts := by
  simp [inUse, h]

theorem inUse_perm (hp : ts.Perm us) : (inUse ts).Perm (inUse us) := hp.filter _

namespace Heap

theorem perm (hH : Heap s large ts) (hp : ts.Perm us) : Heap s large us :=
  { hH with
    tiling := hH.tiling.perm hp
    coalesced := hH.coalesced.mono (fun _ h => h) (fun _ h _ => hp.mem_iff.mpr h)
    headers := hH.headers.imp fun _ hL => hL.perm hp }

theorem chunk_of (hH : Heap s large ts) (ht : t ∈ ts) :
    ∃ c ∈ s.chunks, t.Within maxLog2 c ∧ s.mem.execBlock t.addr <<< 2 = c.base := by
  obtain ⟨c, hc, hw⟩ := hH.tiling.within t ht
  obtain ⟨L, hL⟩ := hH.headers
  exact ⟨c, hc, hw, hL.chunk t ht c hc hw⟩

theorem base_lt (hH : Heap s large ts) {c : Chunk Nat} (hc : c ∈ s.chunks) : c.base < 2 ^ 32 := by
  have hmem : region c ∈ s.exec :=
    hH.exec.mem_iff.mpr (mem_append_left _ (mem_map_of_mem hc))
  have := hH.space _ hmem
  simp only [region, maxSize, maxLog2] at this
  omega

/-! ## Taking blocks -/

theorem reserve (hH : Heap s large (⟨p, a, i + minLog2, true⟩ :: ts)) (hi : i < numBuckets) :
    Heap (reserve s p i a) large (⟨p, a, i + minLog2, false⟩ :: ts) :=
  { hH with
    tiling := hH.tiling.setFree false
    coalesced := hH.coalesced.mono (fun _ h => h) fun t ht hf =>
      mem_cons_of_mem _ (Headers.mem_of_free ht rfl hf)
    headers := by
      obtain ⟨L, hL⟩ := hH.headers
      exact ⟨_, hL.reserve hH.tiling.apart hi⟩ }

/-- The state in which `get_block` has obtained the chunk `fb`. -/
def withChunk (s : State) (p fb : Nat) : State :=
  { s with
    mem := (s.mem.setExecBlock fb (fb >>> 2)).setPool fb (p + 1)
    exec := (fb, maxSize) :: s.exec
    chunks := ⟨p, fb⟩ :: s.chunks }

theorem chunk_apart (hH : Heap s large ts) {fb : Nat}
    (hfresh : ∀ r ∈ s.exec, RegionApart (fb, maxSize) r) :
    ∀ d ∈ s.chunks, Chunk.Apart maxLog2 ⟨p, fb⟩ d := by
  intro d hd
  have hmem : region d ∈ s.exec :=
    hH.exec.mem_iff.mpr (mem_append_left _ (mem_map_of_mem hd))
  have := hfresh _ hmem
  simpa [Chunk.Apart, RegionApart, region, maxSize, Nat.one_shiftLeft] using this

theorem newChunk (hH : Heap s large ts) (hp : p < numPools) {fb : Nat} (h4 : 4 ∣ fb)
    (htop : fb + maxSize ≤ 2 ^ 32) (hfresh : ∀ r ∈ s.exec, RegionApart (fb, maxSize) r) :
    Heap (withChunk s p fb) large (⟨p, fb, maxLog2, false⟩ :: ts) := by
  have hT : Tiling maxLog2 ((⟨p, fb⟩ : Chunk Nat) :: s.chunks) (⟨p, fb, maxLog2, false⟩ :: ts) :=
    hH.tiling.addChunk (hH.chunk_apart hfresh) false
  have hA := pairwise_cons.mp hT.apart
  have hne : ∀ t ∈ ts, t.addr ≠ fb := fun t ht => (addr_ne_of_apart (hA.1 t ht)).symm
  obtain ⟨L, hL⟩ := hH.headers
  -- 30 bits hold the address of a longword
  have hbase : ((fb >>> 2) % 2 ^ 30) <<< 2 = fb := by
    simp only [maxSize, maxLog2] at htop
    omega
  refine ⟨hT, hH.coalesced.addChunk hT, ⟨L, ?_⟩, hH.exec.cons _,
    pairwise_cons.mpr ⟨hfresh, hH.apart⟩, forall_mem_cons.mpr ⟨htop, hH.space⟩⟩
  -- the old blocks are none of the new chunk's business, and the other way round
  have hold : Headers (withChunk s p fb) ts L := by
    have hkeep : Headers { withChunk s p fb with chunks := s.chunks } ts L :=
      hL.congr rfl rfl (fun t ht => by
        constructor <;> simp [withChunk, Mem.setExecBlock, Mem.setPool, hne t ht])
    refine ⟨hkeep.list, hkeep.listed, hkeep.pool_lt, hkeep.min_le, hkeep.free, hkeep.used, ?_⟩
    intro t ht c hc hw
    obtain ⟨d, hd, hwd⟩ := hH.tiling.within t ht
    have hcd : c = d := hT.chunk_unique hc (mem_cons_of_mem _ hd) hw hwd
    exact hkeep.chunk t ht c (hcd ▸ hd) hw
  refine hold.cons rfl hp (show 4 ≤ 16 by decide) ?_ fun c hc hw => ?_
  · simp only [numPools] at hp
    simp only [withChunk, Mem.setExecBlock, Mem.setPool, Function.update_self]
    omega
  · have hwn : (⟨p, fb, maxLog2, false⟩ : Tile Nat).Within maxLog2 ⟨p, fb⟩ :=
      ⟨rfl, le_rfl, le_rfl, le_rfl, by simp⟩
    have hcd := hT.chunk_unique hc (mem_cons_self ..) hw hwn
    rw [hcd]
    simpa [withChunk, Mem.setExecBlock, Mem.setPool] using hbase

/-- The state in which `get_block` has split the block `fb` and put its upper half on bucket `i`. -/
def withSplit (s : State) (p i fb : Nat) : State :=
  let buddy := fb + 1 <<< (i + minLog2)
  linkBlock { s with mem := s.mem.setExecBlock buddy (s.mem.execBlock fb) } p i buddy

theorem split (hH : Heap s large (⟨p, a, i + 1 + minLog2, false⟩ :: ts)) (hi : i < numBuckets) :
    Heap (withSplit s p i a) large
      (⟨p, a, i + minLog2, false⟩ :: ⟨p, a + 2 ^ (i + minLog2), i + minLog2, true⟩ :: ts) := by
  obtain ⟨k, hk⟩ : ∃ k, k = i + minLog2 := ⟨_, rfl⟩
  have hk1 : i + 1 + minLog2 = k + 1 := by omega
  rw [hk1] at hH
  have hT : Tiling maxLog2 s.chunks (⟨p, a, k, false⟩ :: ⟨p, a + 2 ^ k, k, true⟩ :: ts) :=
    hH.tiling.split
  obtain ⟨hAlo, hAhi⟩ := pairwise_cons.mp hT.apart
  have hAup := (pairwise_cons.mp hAhi).1
  obtain ⟨L, hL⟩ := hH.headers
  have hp : p < numPools := hL.pool_lt _ (mem_cons_self ..)
  obtain ⟨c, hc, hw, hbase⟩ := hH.chunk_of (mem_cons_self ..)
  change s.mem.execBlock a <<< 2 = c.base at hbase
  have hin : (⟨p, a, k, false⟩ : Tile Nat).Within maxLog2 c ∧
      (⟨p, a + 2 ^ k, k, true⟩ : Tile Nat).Within maxLog2 c := by
    have hpos : 0 < 2 ^ k := Nat.two_pow_pos k
    have h1 := hw.base_le; have h2 := hw.top_le
    simp only [pow_succ] at h1 h2
    exact ⟨hT.within_of_covers (x := a) (by simp) (Tile.covers_addr _) hc h1 (by omega),
      hT.within_of_covers (x := a + 2 ^ k) (by simp) (Tile.covers_addr _) hc (by omega) (by omega)⟩
  -- the lower half has the old header; the upper half gets the chunk's address from it
  have hlower : Headers s (⟨p, a, k, false⟩ :: ts) L := by
    have hpool : s.mem.pool a = p + 1 := hL.used _ (mem_cons_self ..) rfl
    refine (hL.tail rfl).cons rfl hp (by simp [hk]) hpool ?_
    intro d hd hwd
    rw [hT.chunk_unique hd hc hwd hin.1]
    exact hbase
  obtain ⟨s₁, hs₁⟩ : ∃ s₁, s₁ = ({ s with
      mem := s.mem.setExecBlock (a + 2 ^ k) (s.mem.execBlock a) } : State) := ⟨_, rfl⟩
  have hmark : Headers s₁ (⟨p, a, k, false⟩ :: ts) L := by
    refine hlower.congr (by rw [hs₁]) (by rw [hs₁]) fun t ht => ?_
    have hne : t.addr ≠ a + 2 ^ k := by
      rcases mem_cons.mp ht with rfl | ht
      · exact addr_ne_of_apart (hAlo _ (mem_cons_self ..))
      · exact (addr_ne_of_apart (hAup t ht)).symm
    constructor <;> simp [hs₁, Mem.setExecBlock, hne]
  have hexec : s₁.mem.execBlock (a + 2 ^ k) <<< 2 = c.base := by
    have hlt := hH.base_lt hc
    rw [← hbase, hs₁]
    simp only [Mem.setExecBlock, Function.update_self]
    rw [Nat.mod_eq_of_lt (by omega)]
  have hlink := hmark.link
    (by rw [← hk]; exact (List.Perm.swap _ _ _).pairwise_iff Tile.Apart.symm |>.mp hT.apart)
    hp hi (fun d hd hwd => by
      rw [← hk] at hwd
      have hd' : d ∈ s.chunks := by rw [hs₁] at hd; exact hd
      rw [hT.chunk_unique hd' hc hwd hin.2]
      exact hexec)
  have hstate : linkBlock s₁ p i (a + 2 ^ k) = withSplit s p i a := by
    simp only [withSplit, Nat.one_shiftLeft, hs₁, hk]
  rw [hstate, ← hk] at hlink
  rw [← hk]
  refine ⟨hT, ?_, ⟨_, hlink.perm (List.Perm.swap _ _ _)⟩, hH.exec, hH.apart, hH.space⟩
  -- the buddy of the upper half is the lower half, which is in use
  have hT' := hT.perm (List.Perm.swap _ _ _)
  have hold : NoFreeBuddies maxLog2 s.chunks (⟨p, a, k, false⟩ :: ts) :=
    hH.coalesced.mono (fun _ h => h) fun t ht hf => mem_cons_of_mem _ (Headers.mem_of_free ht rfl hf)
  have hcons := hold.cons hT' hc hin.2 (u := ⟨p, a, k, false⟩) (by simp)
    (buddyOf_upper hw.base_le hw.aligned).symm (by simp)
  exact hcons.mono (fun _ h => h) fun t ht _ => (List.Perm.swap _ _ _).mem_iff.mp ht

/-! ## Giving blocks back -/

theorem link (hH : Heap s large (⟨p, a, i + minLog2, false⟩ :: ts)) (hi : i < numBuckets)
    {c : Chunk Nat} (hc : c ∈ s.chunks)
    (hw : (⟨p, a, i + minLog2, false⟩ : Tile Nat).Within maxLog2 c) (hu : u ∈ ts)
    (haddr : u.addr = buddyOf c.base a (i + minLog2))
    (hno : ¬(u.free ∧ u.k = i + minLog2)) :
    Heap (linkBlock s p i a) large (⟨p, a, i + minLog2, true⟩ :: ts) := by
  have hT : Tiling maxLog2 s.chunks (⟨p, a, i + minLog2, true⟩ :: ts) := hH.tiling.setFree true
  obtain ⟨L, hL⟩ := hH.headers
  have hp : p < numPools := hL.pool_lt _ (mem_cons_self ..)
  have hlink := (hL.tail rfl).link hT.apart hp hi (fun d hd hwd =>
    hL.chunk _ (mem_cons_self ..) d hd hwd.setFree)
  refine ⟨hT, ?_, ⟨_, hlink⟩, hH.exec, hH.apart, hH.space⟩
  have hold : NoFreeBuddies maxLog2 s.chunks ts :=
    hH.coalesced.mono (fun _ h => h) fun t ht _ => mem_cons_of_mem _ ht
  exact hold.cons hT hc hw.setFree (mem_cons_of_mem _ hu) haddr hno

/-- Joining two buddies in use, the lower one first, makes one block of twice the size; its header is
the lower one's. -/
theorem join (hH : Heap s large
      (⟨p, a, i + minLog2, false⟩ :: ⟨p, a + 2 ^ (i + minLog2), i + minLog2, false⟩ :: ts))
    (hi : i < numBuckets) {c : Chunk Nat} (hc : c ∈ s.chunks)
    (hw : (⟨p, a, i + minLog2, false⟩ : Tile Nat).Within maxLog2 c)
    (hal : 2 ^ (i + minLog2 + 1) ∣ a - c.base) :
    Heap s large (⟨p, a, i + 1 + minLog2, false⟩ :: ts) := by
  have hk1 : i + 1 + minLog2 = i + minLog2 + 1 := by omega
  have hlt : i + minLog2 < maxLog2 := by
    simp only [numBuckets, maxLog2, minLog2] at hi ⊢
    omega
  have hT : Tiling maxLog2 s.chunks (⟨p, a, i + 1 + minLog2, false⟩ :: ts) := by
    exact hH.tiling.merge hc hw hlt hal
  obtain ⟨L, hL⟩ := hH.headers
  have hp : p < numPools := hL.pool_lt _ (mem_cons_self ..)
  have hpool : s.mem.pool a = p + 1 := hL.used _ (mem_cons_self ..) rfl
  refine ⟨hT, ?_, ⟨L, ?_⟩, hH.exec, hH.apart, hH.space⟩
  · exact hH.coalesced.mono (fun _ h => h) fun t ht hf =>
      mem_cons_of_mem _ (mem_cons_of_mem _ (Headers.mem_of_free ht rfl hf))
  · refine ((hL.tail rfl).tail rfl).cons rfl hp (Nat.le_add_left ..) hpool (fun d hd hwd => ?_)
    -- the pair lies in the chunk its lower half lies in
    have hdc : d = c := by
      have hpos' : 0 < 2 ^ (i + 1 + minLog2) := Nat.two_pow_pos _
      have h1 := hwd.base_le; have h2 := hwd.top_le; have h3 := hw.base_le; have h4 := hw.top_le
      simp only at h1 h2 h3 h4
      exact hT.chunk_eq hd hc ⟨h1, by omega⟩ ⟨h3, by omega⟩
    subst hdc
    exact hL.chunk _ (mem_cons_self ..) d hd hw

theorem giveBack (hH : Heap s large (⟨p, a, maxLog2, false⟩ :: ts)) : Heap (freeBlock p 0 a s) large ts := by
  obtain ⟨c, hc, hw⟩ := hH.tiling.within _ (mem_cons_self ..)
  have hca : c = ⟨p, a⟩ := by
    have h1 := hw.base_le; have h2 := hw.top_le; have h3 := hw.tag
    rcases c with ⟨g, b⟩
    simp only at h1 h2 h3
    rw [h3, show b = a by omega]
  subst hca
  have hcs : s.chunks.Perm (⟨p, a⟩ :: s.chunks.erase ⟨p, a⟩) := perm_cons_erase hc
  have hmem : (a, maxSize) ∈ s.exec :=
    hH.exec.mem_iff.mpr (mem_append_left _ (mem_map_of_mem hc))
  have hexec : (s.exec.erase (a, maxSize)).Perm ((s.chunks.erase ⟨p, a⟩).map region ++ large) := by
    have h1 := (perm_cons_erase hmem).symm.trans hH.exec
    have h2 := h1.trans ((hcs.map region).append_right large)
    exact List.Perm.cons_inv h2
  exact
    { tiling := (hH.tiling.perm_chunks hcs).dropChunk
      coalesced := hH.coalesced.mono (fun _ h => mem_of_mem_erase h)
        (fun _ h _ => mem_cons_of_mem _ h)
      headers := hH.headers.imp fun _ hL => hL.mono rfl rfl erase_subset (subset_cons_self ..)
        fun _ hu hf => Headers.mem_of_free hu rfl hf
      exec := hexec
      apart := hH.apart.sublist erase_sublist
      space := fun r hr => hH.space r (mem_of_mem_erase hr) }

end Heap

/-! ## The two recursions -/

/-- **`get_block`.**  It fails without a trace, or hands out a block of the bucket's size that was free
or is new; the blocks that were in use stay. -/
theorem getBlock_spec (hH : Heap s large ts) (hp : p < numPools) (hans : ExecAnswers s allocMem)
    (up : Nat) (hup : up ≤ numBuckets) :
    ((getBlock allocMem p up s).1 = none ∧ (getBlock allocMem p up s).2 = s) ∨
    ∃ fb ts', (getBlock allocMem p up s).1 = some fb ∧
      Heap (getBlock allocMem p up s).2 large
        (⟨p, fb, numBuckets - up + minLog2, false⟩ :: ts') ∧ (inUse ts').Perm (inUse ts) := by
  induction up with
  | zero =>
    unfold getBlock
    cases hm : allocMem maxSize with
    | none => exact .inl ⟨rfl, rfl⟩
    | some fb =>
      obtain ⟨-, h8, htop, hfresh⟩ := hans _ _ hm
      exact .inr ⟨fb, ts, rfl, hH.newChunk hp (dvd_trans (by decide) h8) htop hfresh, List.Perm.refl _⟩
  | succ up ih =>
    obtain ⟨i, hi⟩ : ∃ i, i = numBuckets - (up + 1) := ⟨_, rfl⟩
    have hilt : i < numBuckets := by omega
    have hnext : numBuckets - up = i + 1 := by omega
    unfold getBlock
    simp only [← hi]
    obtain ⟨L, hL⟩ := hH.headers
    cases hLi : L p i with
    | cons a =>
      -- the bucket is not empty: its first block
      have hd := hL.list p hp i hilt
      rw [hLi] at hd
      rw [unlinkBlock_none_cons hd]
      have hmem : (⟨p, a, i + minLog2, true⟩ : Tile Nat) ∈ ts :=
        (hL.listed p hp i hilt a).mp (by simp [hLi])
      have hperm := perm_cons_erase hmem
      refine .inr ⟨a, _, rfl, (hH.perm hperm).reserve hilt, ?_⟩
      have := inUse_perm hperm
      rw [inUse_cons_free rfl] at this
      exact this.symm
    | nil =>
      -- the bucket is empty: split a block of the next one
      have hd := hL.list p hp i hilt
      rw [hLi] at hd
      rw [unlinkBlock_none_nil hd]
      simp only
      have ih := ih (by omega)
      rcases hg : getBlock allocMem p up s with ⟨r, s'⟩
      rw [hg, hnext] at ih
      rcases ih with ⟨rfl, rfl⟩ | ⟨fb, ts', rfl, h2, h3⟩
      · exact .inl ⟨rfl, rfl⟩
      · refine .inr ⟨fb, _, rfl, h2.split hilt, ?_⟩
        rw [inUse_cons_free rfl]
        exact h3

theorem Heap.join_min {b : Nat} (hi : i < numBuckets) {c : Chunk Nat} (hc : c ∈ s.chunks)
    (hw : (⟨p, a, i + minLog2, false⟩ : Tile Nat).Within maxLog2 c)
    (hb : b = buddyOf c.base a (i + minLog2))
    (hwb : (⟨p, b, i + minLog2, false⟩ : Tile Nat).Within maxLog2 c)
    (hH : Heap s large (⟨p, b, i + minLog2, false⟩ :: ⟨p, a, i + minLog2, false⟩ :: ts)) :
    Heap s large (⟨p, if a < b then a else b, i + 1 + minLog2, false⟩ :: ts) := by
  rcases buddyOf_pair hw.base_le hw.aligned with ⟨hal, hup⟩ | ⟨hal, hup⟩
  · simp only at hal hup
    rw [← hb] at hup
    rw [if_pos (by omega)]
    rw [hup] at hH
    exact (hH.perm (List.Perm.swap _ _ _)).join hi hc hw hal
  · simp only at hal hup
    rw [← hb] at hal hup
    rw [if_neg (by omega)]
    rw [hup] at hH
    exact hH.join hi hc hwb hal

/-- **`free_block`.**  The block handed in ceases to be in use, and nothing else does; the heap is again
fully coalesced. -/
theorem freeBlock_spec (up : Nat) (hup : up ≤ numBuckets)
    (hH : Heap s large (⟨p, a, numBuckets - up + minLog2, false⟩ :: ts)) :
    ∃ ts', Heap (freeBlock p up a s) large ts' ∧ (inUse ts').Perm (inUse ts) := by
  induction up generalizing s a ts with
  | zero => exact ⟨ts, hH.giveBack, List.Perm.refl _⟩
  | succ up ih =>
    obtain ⟨i, hi⟩ : ∃ i, i = numBuckets - (up + 1) := ⟨_, rfl⟩
    have hilt : i < numBuckets := by omega
    have hnext : numBuckets - up = i + 1 := by omega
    have hklt : i + minLog2 < maxLog2 := by
      simp only [numBuckets, maxLog2, minLog2] at hilt ⊢
      omega
    rw [← hi] at hH
    obtain ⟨c, hc, hw, hbase⟩ := hH.chunk_of (mem_cons_self ..)
    change s.mem.execBlock a <<< 2 = c.base at hbase
    -- a block starts at the computed address
    obtain ⟨u, hu, hwu, haddr, hle, hne⟩ := hH.tiling.buddy_start (mem_cons_self ..) hc hw hklt
    have hu : u ∈ ts := (mem_cons.mp hu).resolve_left hne
    obtain ⟨L, hL⟩ := hH.headers
    have humem := mem_cons_of_mem (⟨p, a, i + minLog2, false⟩ : Tile Nat) hu
    unfold freeBlock
    simp only [← hi, hbase, Nat.one_shiftLeft]
    rw [show ((a - c.base) ^^^ 2 ^ (i + minLog2)) + c.base = u.addr from haddr.symm]
    by_cases hfree : u.free ∧ u.k = i + minLog2
    · -- the buddy is free and of the same size: take it off its list and go on with the pair
      obtain ⟨hf, hk⟩ := hfree
      obtain ⟨-, hpool, hindex⟩ := hL.free u humem hf
      rw [hk] at hindex
      have hueq : u = ⟨p, u.addr, i + minLog2, true⟩ := by
        rcases u with ⟨g, b, k, f⟩
        simp only at hf hk
        have htag := hwu.tag.trans hw.tag.symm
        simp only at htag
        rw [htag, hk, hf]
      rw [if_neg (by simp [hpool, hindex]), unlinkBlock_some hindex]
      rw [hueq] at hu
      have hperm := perm_cons_erase hu
      have hH₁ := (hH.perm ((hperm.cons _).trans (List.Perm.swap _ _ _))).reserve hilt
      have hwub : (⟨p, u.addr, i + minLog2, false⟩ : Tile Nat).Within maxLog2 c := by
        rw [hueq] at hwu
        exact hwu.setFree
      have hH₂ := Heap.join_min hilt (s := reserve s p i u.addr) hc hw haddr hwub hH₁
      rw [← hnext] at hH₂
      obtain ⟨ts', hts, huse⟩ := ih (by omega) hH₂
      refine ⟨ts', hts, huse.trans ?_⟩
      have := inUse_perm hperm
      exact this.symm
    · -- too bad: the buddy is in use, or cut up
      have hcond : s.mem.pool u.addr ≠ 0 ∨ s.mem.index u.addr ≠ (i : Int) := by
        by_cases hf : u.free
        · right
          have hk : u.k ≠ i + minLog2 := fun hk => hfree ⟨hf, hk⟩
          have hmin := hL.min_le u humem
          rw [(hL.free u humem hf).2.2]
          omega
        · left
          rw [hL.used u humem (by simpa using hf)]
          omega
      rw [if_pos hcond]
      refine ⟨_, hH.link hilt hc hw hu haddr hfree, ?_⟩
      rw [inUse_cons_free rfl]

end Ixemul.Buddy
