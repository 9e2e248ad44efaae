/-
# Ixemul.Malloc.Sound — what the pointers of malloc are good for.

The state is the memory, and for every pointer that the program holds the latest request for it and the
`mem_block` it lies in.  Between the calls the program stores into what it was given, and everything outside
the blocks may change.

`memalign` adds the alignment to the size without a look at the carry, so that for a size near 2^32 it gets
a small block.  And `realloc` compares the new size with that of the whole block; for a pointer of
`memalign`, which does not point to the start of it, the memory may end before the size does.
-/
import Ixemul.Lib.Run
import Ixemul.Malloc.Blocks

namespace Ixemul.Malloc

open Lib Lib.Bytes Lib.Run
open Function List

/-! ## Runs -/

structure Sys where
  mem : Mem
  held : Nat → Option Chunk

/-- The calls, with what `b_alloc` has for them; the alignment is `2 ^ k`. -/
inductive Op where
  | malloc (size : BitVec 32) (res : Option Nat)
  | memalign (k : Nat) (size : BitVec 32) (res : Option Nat)
  | valloc (size : BitVec 32) (res : Option Nat)
  | realloc (mem : Option Nat) (size : BitVec 32) (res : Option Nat)
  | free (mem : Option Nat)
  /-- the program stores -/
  | store (addr : Nat) (bs : List Byte)
  /-- others do -/
  | others (m : Mem)

/-- `b_alloc` may return this block for this size. -/
structure Fresh (y : Sys) (block size : Nat) : Prop where
  aligned : block % 4 = 0
  room : block + memBlockSize + size ≤ 2 ^ 32
  apart : ∀ p c, y.held p = some c → block + memBlockSize + size ≤ c.block ∨ c.fin ≤ block

def Grants (y : Sys) (size : BitVec 32) (res : Option Nat) : Prop :=
  ∀ s ∈ blockSize size, ∀ block ∈ res, Fresh y block s.toNat

/-- What can come next. -/
def Enabled (y : Sys) : Op → Prop
  | .malloc size res => Grants y size res
  | .memalign k size res => k < 24 ∧ Grants y (size + alignment k + 4) res
  | .valloc size res => Grants y (size + pagesize + 4) res
  | .realloc mem size res => (∀ p ∈ mem, (y.held p).isSome) ∧ Grants y size res
  | .free mem => ∀ p ∈ mem, (y.held p).isSome
  | .store addr bs => ∃ p c, y.held p = some c ∧ p ≤ addr ∧ addr + bs.length ≤ p + c.request
  | .others m => ∀ p c, y.held p = some c → ∀ a, c.block + 8 ≤ a → a < c.fin → m a = y.mem a

/-- The program holds the pointer that was returned, if one was. -/
def Sys.grant (y : Sys) (r : Option Nat × Mem) (request total : BitVec 32) (res : Option Nat) : Sys :=
  match r.1, blockSize total, res with
  | some p, some size, some block =>
    ⟨r.2, update y.held p (some ⟨request.toNat, block, size.toNat⟩)⟩
  | _, _, _ => ⟨r.2, y.held⟩

/-- The pointers into other blocks. -/
def Sys.without (y : Sys) (freed : Option Nat) : Nat → Option Chunk :=
  fun p => (y.held p).filter fun c => some c.block ≠ freed

/-- After `realloc` of a pointer: the same one, another one, or none. -/
def Sys.reallocated (y : Sys) (p : Nat) (r : Done) (size : BitVec 32) (res : Option Nat) : Sys :=
  match r.ret, r.freed with
  | none, freed => ⟨r.mem, y.without freed⟩
  | some _, none =>
    ⟨r.mem, update y.held p ((y.held p).map fun c => { c with request := size.toNat })⟩
  | some q, some block => Sys.grant ⟨y.mem, y.without (some block)⟩ (some q, r.mem) size size res

def Sys.run (y : Sys) : Op → Sys
  | .malloc size res => y.grant (malloc y.mem size res) size size res
  | .memalign k size res =>
    y.grant (memalign y.mem (alignment k) size res) size (size + alignment k + 4) res
  | .valloc size res => y.grant (valloc y.mem size res) size (size + pagesize + 4) res
  | .realloc none size res =>
    let r := realloc y.mem none size res
    y.grant (r.ret, r.mem) size size res
  | .realloc (some p) size res => y.reallocated p (realloc y.mem (some p) size res) size res
  | .free mem => ⟨(free y.mem mem).mem, y.without (free y.mem mem).freed⟩
  | .store addr bs => { y with mem := write y.mem addr bs }
  | .others m => { y with mem := m }

def Step (y : Sys) (op : Op) (y' : Sys) : Prop := Enabled y op ∧ y' = y.run op

/-- Nothing is allocated. -/
def Sys.start (m : Mem) : Sys := ⟨m, fun _ => none⟩

/-! ## What is to hold -/

/-- The bytes that were asked for lie in the block, before its last magic word, and `free` and `realloc`
find the block. -/
structure Serves (m : Mem) (p : Nat) (c : Chunk) : Prop where
  lo : c.block + realblock ≤ p
  hi : p + c.request ≤ c.block + realblock + c.size
  last : word m (c.block + realblock + c.size) = magic2
  found : findBlock m p = c.block

def Good (y : Sys) : Prop := ∀ p c, y.held p = some c → Serves y.mem p c

/-- What is to hold of the calls: `memalign` aligns, and `realloc` keeps what it can. -/
def Keeps (y : Sys) : Op → Prop
  | .memalign k size res => ∀ q, (memalign y.mem (alignment k) size res).1 = some q → 2 ^ k ∣ q
  | .valloc size res => ∀ q, (valloc y.mem size res).1 = some q → 4096 ∣ q
  | .realloc (some p) size res =>
    ∀ c, y.held p = some c → ∀ q, (realloc y.mem (some p) size res).ret = some q →
      read (realloc y.mem (some p) size res).mem q (min c.request size.toNat) =
        read y.mem p (min c.request size.toNat)
  | _ => True

/-- The sum of size and alignment has no carry.  With one, all is well only if nothing is returned: the next
multiple of the alignment is beyond the end of the address space, and no block ends just there. -/
def Uncarried (y : Sys) (k : Nat) (size : BitVec 32) (res : Option Nat) : Prop :=
  ∀ block ∈ res, size.toNat + 2 ^ k + 4 < 2 ^ 32 ∨
    (2 ^ 32 < block + realblock + 2 ^ k ∧ ∀ p c, y.held p = some c → c.fin ≠ 2 ^ 32)

/-- No sum has a carry, and where `realloc` finds the block to be large enough, the part of it behind the
pointer is. -/
def Careful (y : Sys) : Op → Prop
  | .memalign k size res => Uncarried y k size res
  | .valloc size res => Uncarried y 12 size res
  | .realloc (some p) size _ =>
    ∀ c, y.held p = some c → c.size < size.toNat ∨ p - (c.block + realblock) + size.toNat ≤ c.size
  | _ => True

/-! ## The invariant -/

structure Sound (y : Sys) : Prop where
  header : ∀ {p c}, y.held p = some c → Header y.mem c.block c.size
  points : ∀ {p c}, y.held p = some c → Points y.mem p c
  apart : ∀ {p q c c'}, y.held p = some c → y.held q = some c' → p ≠ q → c.fin ≤ c'.block ∨ c'.fin ≤ c.block

theorem sound_start (m : Mem) : Sound (Sys.start m) := ⟨nofun, nofun, nofun⟩

section Invariant

variable {y : Sys} {m : Mem} {p block size request : Nat} {c : Chunk} {held : Nat → Option Chunk}

theorem Sound.good (h : Sound y) : Good y := by
  intro p c hc
  have hpoints := h.points hc
  exact ⟨hpoints.lo, hpoints.hi, (h.header hc).last, findBlock_eq (h.header hc) hpoints⟩

theorem Sound.keep (h : Sound y) (hm : ∀ p c, y.held p = some c → ∀ a, c.Private p a → m a = y.mem a) :
    Sound ⟨m, y.held⟩ where
  header hc := (h.header hc).congr (h.points hc) (hm _ _ hc)
  points hc := (h.points hc).congr (hm _ _ hc)
  apart := h.apart

theorem Sound.sub (h : Sound y)
    (hsub : ∀ p c, held p = some c → y.held p = some c) : Sound ⟨y.mem, held⟩ where
  header hc := h.header (hsub _ _ hc)
  points hc := h.points (hsub _ _ hc)
  apart hc hc' hne := h.apart (hsub _ _ hc) (hsub _ _ hc') hne

theorem of_update {q : Nat} {c' : Chunk}
    (h : update held p (some c') q = some c) : (q = p ∧ c = c') ∨ (q ≠ p ∧ held q = some c) := by
  by_cases hq : q = p
  · subst hq
    rw [update_self] at h
    exact .inl ⟨rfl, (Option.some.inj h).symm⟩
  · rw [update_of_ne hq] at h
    exact .inr ⟨hq, h⟩

theorem Sound.add (h : Sound y) (hfresh : Fresh y block size)
    (hout : ∀ a, a < block + 8 ∨ block + memBlockSize + size ≤ a → m a = y.mem a)
    (hheader : Header m block size) (hpoints : Points m p ⟨request, block, size⟩) :
    Sound ⟨m, update y.held p (some ⟨request, block, size⟩)⟩ := by
  have hkeep : Sound ⟨m, y.held⟩ := by
    apply h.keep
    rintro q c hc a ⟨hlo, hhi, -⟩
    apply hout
    rcases hfresh.apart q c hc with hap | hap
    · exact .inr (by omega)
    · exact .inl (by omega)
  constructor
  · intro q c hc
    rcases of_update hc with ⟨-, rfl⟩ | ⟨-, hc⟩
    · exact hheader
    · exact hkeep.header hc
  · intro q c hc
    rcases of_update hc with ⟨rfl, rfl⟩ | ⟨-, hc⟩
    · exact hpoints
    · exact hkeep.points hc
  · intro q q' c c' hc hc' hne
    rcases of_update hc with ⟨rfl, rfl⟩ | ⟨-, hold⟩
    · rcases of_update hc' with ⟨rfl, -⟩ | ⟨-, hold'⟩
      · exact absurd rfl hne
      · exact hfresh.apart q' c' hold'
    · rcases of_update hc' with ⟨-, rfl⟩ | ⟨-, hold'⟩
      · exact (hfresh.apart q c hold).symm
      · exact h.apart hold hold' hne

end Invariant

/-! ## malloc -/

section Grant

variable {y : Sys} {r : Option Nat × Mem} {request total s size : BitVec 32} {res : Option Nat}
  {p block : Nat}

theorem grant_of_some (hret : r.1 = some p) (hs : blockSize total = some s) :
    y.grant r request total (some block) =
      ⟨r.2, update y.held p (some ⟨request.toNat, block, s.toNat⟩)⟩ := by
  simp only [Sys.grant, hret, hs]

theorem grant_of_none (hret : r.1 = none) : y.grant r request total res = ⟨r.2, y.held⟩ := by
  simp only [Sys.grant, hret]

theorem Sound.malloc (h : Sound y) (hg : Grants y size res) :
    Sound (y.grant (malloc y.mem size res) size size res) := by
  rcases malloc_cases y.mem size res with ⟨s, block, hs, rfl⟩ | hnone
  · have hfresh := hg s hs block rfl
    rw [malloc_some hs, grant_of_some rfl hs]
    apply h.add hfresh (fun a ha => initBlock_outside ha) (header_initBlock hs hfresh.aligned hfresh.room)
    refine ⟨le_rfl, ?_, .inl rfl⟩
    exact Nat.add_le_add_left (blockSize_spec hs).1 _
  · rw [hnone, grant_of_none rfl]
    exact h

end Grant

/-! ## memalign -/

section Memalign

variable {y : Sys} {size s : BitVec 32} {res : Option Nat} {k p block : Nat} {c : Chunk}

theorem Fresh.lt (h : Fresh y block s.toNat) : block + realblock < 2 ^ 32 := by
  have hroom := h.room
  unfold memBlockSize at hroom
  unfold realblock
  omega

theorem dvd_of_memalign (hk : k < 24) (hg : Grants y (size + alignment k + 4) res) {q : Nat}
    (hq : (memalign y.mem (alignment k) size res).1 = some q) : 2 ^ k ∣ q := by
  rcases malloc_cases y.mem (size + alignment k + 4) res with ⟨s, block, hs, rfl⟩ | hnone
  · have hfresh := hg s hs block rfl
    rcases lt_or_ge (2 ^ 32) (block + realblock + 2 ^ k) with hwraps | hroom
    · rw [memalign_wraps hk hs hfresh.lt hwraps] at hq
      cases hq
    · obtain ⟨q', hret, hdvd, -⟩ := memalign_ret hk hs hfresh.aligned hroom
      cases hret.symm.trans hq
      exact hdvd
  · rw [memalign_none hnone] at hq
    cases hq

/-- The pointer and the mark before it lie inside the block. -/
theorem Sound.aligned (h : Sound y) (hk : k < 24) (hs : blockSize (size + alignment k + 4) = some s)
    (hfresh : Fresh y block s.toNat) (hsize : size.toNat + 2 ^ k + 4 ≤ s.toNat) :
    Sound (y.grant (memalign y.mem (alignment k) size (some block)) size (size + alignment k + 4)
      (some block)) := by
  have hroom := hfresh.room
  unfold memBlockSize at hroom
  have hheader : Header (initBlock y.mem block s) block s.toNat :=
    header_initBlock hs hfresh.aligned hfresh.room
  rw [memalign_some hk hs hfresh.aligned (by unfold realblock; omega)]
  split
  · rw [grant_of_some rfl hs]
    apply h.add hfresh (fun a ha => initBlock_outside ha) hheader
    exact ⟨le_rfl, by dsimp only; omega, .inl rfl⟩
  · next hdvd =>
    rw [grant_of_some rfl hs]
    have hfour : 2 ^ 2 ∣ block + realblock := by
      have := hfresh.aligned
      unfold realblock
      omega
    obtain ⟨hlo, hhi⟩ := Align.up_bounds hfour hdvd
    have hpow : 2 ^ k < 2 ^ 24 := Nat.pow_lt_pow_right (by decide) hk
    generalize Align.up k (block + realblock) = start at hlo hhi
    apply h.add hfresh
    · intro a ha
      show write (initBlock y.mem block s) (start - 4) _ a = y.mem a
      rw [write_outside, initBlock_outside ha]
      rw [length_be32]
      unfold memBlockSize at ha
      unfold realblock at hlo hhi
      omega
    · exact hheader.write (by omega) (by rw [length_be32]; omega)
    · refine ⟨by dsimp only; omega, by dsimp only; omega, .inr ⟨hlo, by dsimp only; omega, ?_⟩⟩
      exact word_write_self _ _ _

theorem initBlock_old (hfresh : Fresh y block s.toNat) (hc : y.held p = some c) {a : Nat}
    (hlo : c.block + 8 ≤ a) (hhi : a < c.fin) : initBlock y.mem block s a = y.mem a := by
  apply initBlock_outside
  rcases hfresh.apart p c hc with hap | hap
  · exact .inr (by omega)
  · exact .inl (by omega)

/-- The last word of the address space is not in a block. -/
theorem Sound.wrapped (h : Sound y) (hk : k < 24) (hs : blockSize (size + alignment k + 4) = some s)
    (hfresh : Fresh y block s.toNat) (hwraps : 2 ^ 32 < block + realblock + 2 ^ k)
    (hend : ∀ p c, y.held p = some c → c.fin ≠ 2 ^ 32) :
    Sound (y.grant (memalign y.mem (alignment k) size (some block)) size (size + alignment k + 4)
      (some block)) := by
  rw [memalign_wraps hk hs hfresh.lt hwraps, grant_of_none rfl]
  apply h.keep
  rintro p c hc a ⟨hlo, hhi, -⟩
  have hheader := h.header hc
  have hbound : c.fin ≤ 2 ^ 32 - 4 := by
    have hne := hend p c hc
    have haligned := hheader.aligned
    have hsize := hheader.sizeAligned
    have hroom := hheader.room
    unfold Chunk.fin memBlockSize at *
    omega
  show write (initBlock y.mem block s) (2 ^ 32 - 4) _ a = y.mem a
  rw [write_outside (.inl (by omega)), initBlock_old hfresh hc hlo hhi]

theorem Sound.memalign (h : Sound y) (hk : k < 24) (hg : Grants y (size + alignment k + 4) res)
    (hc : Uncarried y k size res) :
    Sound (y.grant (memalign y.mem (alignment k) size res) size (size + alignment k + 4) res) := by
  rcases malloc_cases y.mem (size + alignment k + 4) res with ⟨s, block, hs, rfl⟩ | hnone
  · have hfresh := hg s hs block rfl
    rcases hc block rfl with hlt | ⟨hwraps, hend⟩
    · have hsize := (blockSize_spec hs).1
      rw [toNat_total hk, Nat.mod_eq_of_lt hlt] at hsize
      exact h.aligned hk hs hfresh hsize
    · exact h.wrapped hk hs hfresh hwraps hend
  · rw [memalign_none hnone, grant_of_none rfl]
    exact h

theorem memalign_needs (hk : k < 24) (hg : Grants y (size + alignment k + 4) res)
    (hgood : Good (y.grant (Malloc.memalign y.mem (alignment k) size res) size
      (size + alignment k + 4) res)) : Uncarried y k size res := by
  rintro block rfl
  rcases lt_or_ge (size.toNat + 2 ^ k + 4) (2 ^ 32) with hlt | hcarry
  · exact .inl hlt
  refine .inr ?_
  have hpow : 2 ^ k < 2 ^ 24 := Nat.pow_lt_pow_right (by decide) hk
  have htotal : (size + alignment k + 4).toNat = size.toNat + 2 ^ k + 4 - 2 ^ 32 := by
    rw [toNat_total hk]
    omega
  have hsmall : (size + alignment k + 4).toNat < 2 ^ 31 := by
    omega
  obtain ⟨s, hs⟩ := Option.isSome_iff_exists.mp (blockSize_isSome hsmall)
  have hfresh := hg s hs block rfl
  rcases lt_or_ge (2 ^ 32) (block + realblock + 2 ^ k) with hwraps | hroom
  · refine ⟨hwraps, ?_⟩
    intro p c hc hend
    rw [memalign_wraps hk hs hfresh.lt hwraps] at hgood
    have hlast := (hgood p c hc).last
    have haddr : c.block + realblock + c.size = 2 ^ 32 - 4 := by
      unfold Chunk.fin memBlockSize at hend
      unfold realblock
      omega
    rw [haddr] at hlast
    have hmark := (word_write_self ..).symm.trans hlast
    have hbyte := memalignPtr_magic (0 - BitVec.ofNat 32 (block + realblock))
    rw [hmark] at hbyte
    exact absurd hbyte (by decide)
  · have hspec := (blockSize_spec hs).2.1
    obtain ⟨q, hret, -, hlo⟩ := memalign_ret hk hs hfresh.aligned hroom
    rw [grant_of_some hret hs] at hgood
    have hhi := (hgood q _ (update_self ..)).hi
    dsimp only at hhi
    omega

end Memalign

/-! ## free and realloc -/

section Realloc

variable {y : Sys} {p n : Nat} {c : Chunk} {size : BitVec 32} {res : Option Nat} (h : Sound y)
include h

theorem Sound.without (freed : Option Nat) : Sound ⟨y.mem, y.without freed⟩ :=
  h.sub fun _ _ hc => (Option.filter_eq_some_iff.mp hc).1

variable (hc : y.held p = some c)
include hc

/-- Another size is asked for, and the block has it. -/
theorem Sound.request (hn : p + n ≤ c.block + realblock + c.size) :
    Sound ⟨y.mem, update y.held p (some { c with request := n })⟩ := by
  -- a chunk of the new state has the place of one of the old
  have hold : ∀ q c', update y.held p (some { c with request := n }) q = some c' →
      ∃ c'', y.held q = some c'' ∧ c''.block = c'.block ∧ c''.size = c'.size := by
    intro q c' hc'
    rcases of_update hc' with ⟨rfl, rfl⟩ | ⟨-, hq⟩
    · exact ⟨c, hc, rfl, rfl⟩
    · exact ⟨c', hq, rfl, rfl⟩
  constructor
  · intro q c' hc'
    obtain ⟨c'', hq, hblock, hsize⟩ := hold q c' hc'
    exact hblock ▸ hsize ▸ h.header hq
  · intro q c' hc'
    rcases of_update hc' with ⟨rfl, rfl⟩ | ⟨-, hq⟩
    · exact ⟨(h.points hc).lo, hn, (h.points hc).tag⟩
    · exact h.points hq
  · intro q q' c₁ c₂ h₁ h₂ hne
    obtain ⟨d₁, hq, hblock, hsize⟩ := hold q c₁ h₁
    obtain ⟨d₂, hq', hblock', hsize'⟩ := hold q' c₂ h₂
    have hap := h.apart hq hq' hne
    unfold Chunk.fin at hap ⊢
    rwa [hblock, hsize, hblock', hsize'] at hap

theorem free_held :
    free y.mem (some p) = ⟨none, some c.block, y.mem, false⟩ := by
  have hheader := h.header hc
  rw [free, findBlock_eq hheader (h.points hc), if_pos hheader.valid]

theorem realloc_held :
    realloc y.mem (some p) size res =
      if size = 0 then ⟨none, some c.block, y.mem, false⟩
      else if size.toNat ≤ c.size then ⟨some p, none, y.mem, false⟩
      else moveBlock y.mem p c.block (malloc y.mem size res) := by
  have hheader := h.header hc
  have hle : size ≤ sizeField y.mem c.block ↔ size.toNat ≤ c.size := by
    rw [BitVec.le_def, toNat_sizeField hheader]
  simp only [realloc, free_held h hc, findBlock_eq hheader (h.points hc), hheader.valid, not_true_eq_false,
    if_false, hle]

variable {block : Nat} {s : BitVec 32}

theorem moveBlock_eq (hs : blockSize size = some s)
    (hfresh : Fresh y block s.toNat) :
    moveBlock y.mem p c.block (malloc y.mem size (some block)) =
      ⟨some (block + realblock), some c.block,
        write (initBlock y.mem block s) (block + realblock) (read (initBlock y.mem block s) p c.size),
        false⟩ := by
  have hsize : sizeField (initBlock y.mem block s) c.block = sizeField y.mem c.block := by
    apply word_congr
    intro i hi hi'
    exact initBlock_old hfresh hc hi (by unfold Chunk.fin memBlockSize; omega)
  simp only [moveBlock, malloc_some hs, hsize, toNat_sizeField (h.header hc)]

theorem Sound.moved (hs : blockSize size = some s)
    (hfresh : Fresh y block s.toNat) (hlt : c.size < size.toNat) :
    Sound (y.reallocated p (moveBlock y.mem p c.block (Malloc.malloc y.mem size (some block))) size
      (some block)) := by
  have hle := (blockSize_spec hs).1
  rw [moveBlock_eq h hc hs hfresh]
  show Sound (Sys.grant ⟨y.mem, y.without (some c.block)⟩ (_, _) size size (some block))
  rw [grant_of_some rfl hs]
  apply (h.without (some c.block)).add
  · refine ⟨hfresh.aligned, hfresh.room, ?_⟩
    intro q c' hq
    exact hfresh.apart q c' (Option.filter_eq_some_iff.mp hq).1
  · intro a ha
    show write _ _ _ a = y.mem a
    rw [write_outside, initBlock_outside ha]
    rw [length_read]
    unfold memBlockSize at ha
    unfold realblock
    omega
  · apply (header_initBlock hs hfresh.aligned hfresh.room).write le_rfl
    rw [length_read]
    omega
  · exact ⟨le_rfl, Nat.add_le_add_left hle _, .inl rfl⟩

theorem read_moved (hfresh : Fresh y block s.toNat)
    (hn : n ≤ c.request) :
    read (write (initBlock y.mem block s) (block + realblock) (read (initBlock y.mem block s) p c.size))
      (block + realblock) n = read y.mem p n := by
  have hlo := (h.points hc).lo
  have hhi := (h.points hc).hi
  unfold realblock at hlo hhi
  have hsize : n ≤ c.size := by omega
  rw [← take_read hsize, read_write_of_length length_read, take_read hsize]
  apply read_congr
  intro i hi hi'
  exact initBlock_old hfresh hc (by omega) (by unfold Chunk.fin memBlockSize; omega)

end Realloc

/-! ## Steps -/

section Steps

variable {y y' : Sys} {op : Op} {p : Nat} {size : BitVec 32} {res : Option Nat} {c : Chunk} (h : Sound y)
include h

theorem Sound.realloc (hp : (y.held p).isSome) (hg : Grants y size res)
    (hc : Careful y (.realloc (some p) size res)) :
    Sound (y.reallocated p (realloc y.mem (some p) size res) size res) := by
  obtain ⟨c, hp⟩ := Option.isSome_iff_exists.mp hp
  rw [realloc_held h hp]
  split
  · exact h.without _
  · split
    · next hle =>
      have hroom := (hc c hp).resolve_left (not_lt.mpr hle)
      show Sound ⟨y.mem, update y.held p ((y.held p).map _)⟩
      rw [hp]
      exact h.request hp (by omega)
    · next hgt =>
      rcases malloc_cases y.mem size res with ⟨s, block, hs, rfl⟩ | hnone
      · exact h.moved hp hs (hg s hs block rfl) (not_le.mp hgt)
      · rw [hnone]
        exact h.without none

/-- What the program stores is its own. -/
theorem Sound.store {addr : Nat} {bs : List Byte} (hp : y.held p = some c) (hlo : p ≤ addr)
    (hhi : addr + bs.length ≤ p + c.request) :
    Sound ⟨write y.mem addr bs, y.held⟩ := by
  have hpoints := h.points hp
  have hfirst := hpoints.lo
  have hlast := hpoints.hi
  apply h.keep
  rintro q c' hq a ⟨ha, ha', hout⟩
  apply write_outside
  by_cases hpq : q = p
  · subst hpq
    cases hp.symm.trans hq
    omega
  · have hap := h.apart hq hp hpq
    unfold Chunk.fin memBlockSize at *
    unfold realblock at hfirst hlast
    omega

theorem Sound.step (hc : Careful y op) (hst : Step y op y') : Sound y' := by
  obtain ⟨hen, rfl⟩ := hst
  cases op with
  | malloc => exact h.malloc hen
  | memalign => exact h.memalign hen.1 hen.2 hc
  | valloc =>
    rw [Sys.run, valloc]
    exact h.memalign (k := 12) (by decide) hen hc
  | realloc mem =>
    cases mem with
    | none => exact h.malloc hen.2
    | some p => exact h.realloc (hen.1 p rfl) hen.2 hc
  | free mem =>
    cases mem with
    | none => exact h.without none
    | some p =>
      obtain ⟨c, hp⟩ := Option.isSome_iff_exists.mp (hen p rfl)
      show Sound ⟨(free y.mem (some p)).mem, y.without (free y.mem (some p)).freed⟩
      rw [free_held h hp]
      exact h.without _
  | store =>
    obtain ⟨p, c, hp, hlo, hhi⟩ := hen
    exact h.store hp hlo hhi
  | others => exact h.keep fun p c hp a ha => hen p c hp a ha.1 ha.2.1

/-- Where `realloc` leaves the block in place, the pointer is good for the new size only if the block has
that many bytes from it on. -/
theorem realloc_needs (hgood : Good (y.reallocated p (realloc y.mem (some p) size res) size res)) :
    Careful y (.realloc (some p) size res) := by
  intro c hp
  rcases lt_or_ge c.size size.toNat with hlt | hle
  · exact .inl hlt
  refine .inr ?_
  by_cases hzero : size = 0
  · have hhi := (h.points hp).hi
    rw [hzero]
    show p - (c.block + realblock) + 0 ≤ c.size
    omega
  · rw [realloc_held h hp, if_neg hzero, if_pos hle] at hgood
    have hheld : update y.held p ((y.held p).map fun c => { c with request := size.toNat }) p =
        some { c with request := size.toNat } := by
      rw [update_self, hp]
      rfl
    have hhi := (hgood p _ hheld).hi
    dsimp only at hhi
    omega

theorem careful_of_good (hst : Step y op y') (hgood : Good y') : Careful y op := by
  obtain ⟨hen, rfl⟩ := hst
  cases op with
  | memalign => exact memalign_needs hen.1 hen.2 hgood
  | valloc =>
    exact memalign_needs (by decide) hen hgood
  | realloc mem =>
    cases mem with
    | none => trivial
    | some => exact realloc_needs h hgood
  | malloc | free | store | others => trivial

theorem Sound.read_realloc {q : Nat} (hg : Grants y size res) (hp : y.held p = some c)
    (hq : (Malloc.realloc y.mem (some p) size res).ret = some q) :
    read (Malloc.realloc y.mem (some p) size res).mem q (min c.request size.toNat) =
      read y.mem p (min c.request size.toNat) := by
  rw [realloc_held h hp] at hq ⊢
  split at hq
  · cases hq
  next hzero =>
    rw [if_neg hzero]
    split at hq
    · next hle =>
      cases hq
      rw [if_pos hle]
    · next hgt =>
      rw [if_neg hgt]
      rcases malloc_cases y.mem size res with ⟨s, block, hs, rfl⟩ | hnone
      · have hfresh := hg s hs block rfl
        rw [moveBlock_eq h hp hs hfresh] at hq ⊢
        cases hq
        exact read_moved h hp hfresh (min_le_left _ _)
      · rw [hnone] at hq
        cases hq

theorem Sound.keeps (hen : Enabled y op) : Keeps y op := by
  cases op with
  | memalign => exact fun q hq => dvd_of_memalign hen.1 hen.2 hq
  | valloc =>
    intro q hq
    exact dvd_of_memalign (k := 12) (by decide) hen hq
  | realloc mem =>
    cases mem with
    | none => trivial
    | some => exact fun c hp q hq => h.read_realloc hen.2 hp hq
  | malloc | free | store | others => trivial

end Steps

/-! ## Runs -/

/-- **The pointers are good for what was asked for, and the calls keep what they are to keep, in exactly
those runs in which every call is a careful one.** -/
theorem good_iff_careful {m : Mem} {tr : List (Sys × Op)} {y : Sys}
    (h : History Step (Sys.start m) tr y) :
    (((∀ x ∈ tr, Good x.1) ∧ Good y) ∧ ∀ x ∈ tr, Keeps x.1 x.2) ↔ ∀ x ∈ tr, Careful x.1 x.2 := by
  have hgood : ((∀ x ∈ tr, Good x.1) ∧ Good y) ↔ ∀ x ∈ tr, Careful x.1 x.2 :=
    h.always_iff_of_invariant (fun _ => Sound.good) (fun _ _ _ hs hc hst => hs.step hc hst)
      (fun _ _ _ hs hst ht => careful_of_good hs hst ht) (sound_start m)
  have hkeeps : (∀ x ∈ tr, Careful x.1 x.2) → ∀ x ∈ tr, Keeps x.1 x.2 :=
    h.forall_steps (fun _ _ _ hs hc hst => ⟨hs.step hc hst, hs.keeps hst.1⟩) (sound_start m)
  exact ⟨fun hall => hgood.mp hall.1, fun hall => ⟨hgood.mpr hall, hkeeps hall⟩⟩

/-! ### Some runs -/

def blank : Sys := Sys.start fun _ => 0

theorem grants_first {m : Mem} {size s : BitVec 32} {block : Nat} (hs : blockSize size = some s)
    (haligned : block % 4 = 0) (hroom : block + memBlockSize + s.toNat ≤ 2 ^ 32) :
    Grants (Sys.start m) size (some block) := by
  rintro s' hs' block' ⟨⟩
  cases hs.symm.trans hs'
  exact ⟨haligned, hroom, nofun⟩

theorem enabled_memalign : Enabled blank (.memalign 4 8 (some 20)) :=
  ⟨by decide, grants_first (s := 28) (by decide) (by decide) (by decide)⟩

/-- It is moved to a larger block. -/
def movedRun : List Op := [.memalign 4 8 (some 20), .realloc (some 48) 32 (some 100)]

theorem enabled_movedRun : ∀ x ∈ trace Sys.run blank movedRun, Enabled x.1 x.2 := by
  simp only [movedRun, trace, forall_mem_cons]
  refine ⟨enabled_memalign, ⟨?_, ?_⟩, forall_mem_nil _⟩
  · rintro p ⟨⟩
    rfl
  · rintro s hs block ⟨⟩
    have h32 : blockSize 32 = some 32 := by decide
    cases h32.symm.trans hs
    refine ⟨by decide, by decide, ?_⟩
    intro p c hc
    rcases of_update hc with ⟨-, rfl⟩ | ⟨-, hc⟩
    · exact .inr (by decide)
    · cases hc

theorem careful_movedRun : ∀ x ∈ trace Sys.run blank movedRun, Careful x.1 x.2 := by
  simp only [movedRun, trace, forall_mem_cons]
  refine ⟨fun _ _ => .inl (by decide), ?_, forall_mem_nil _⟩
  intro c hc
  cases hc
  exact .inl (by decide)

theorem good_movedRun :
    ((∀ x ∈ trace Sys.run blank movedRun, Good x.1) ∧ Good (movedRun.foldl Sys.run blank)) ∧
      ∀ x ∈ trace Sys.run blank movedRun, Keeps x.1 x.2 :=
  (good_iff_careful ((History.nil blank).trace movedRun enabled_movedRun)).mpr careful_movedRun

/-- The sum of the size, the alignment and four is four. -/
def carryRun : List Op := [.memalign 4 0xfffffff0 (some 12)]

/-- The block has as many bytes as are asked for, but not from the pointer on. -/
def shortRun : List Op := [.memalign 4 8 (some 20), .realloc (some 48) 24 none]

/-- `memalign` returns a pointer to four bytes for a request of almost 2^32, and `realloc` one to twenty for
a request of twenty-four: the last four are the magic word. -/
theorem pointer_too_short :
    (History Step blank (trace Sys.run blank carryRun) (carryRun.foldl Sys.run blank) ∧
      (carryRun.foldl Sys.run blank).held 32 = some ⟨0xfffffff0, 12, 4⟩ ∧
      ¬ Good (carryRun.foldl Sys.run blank)) ∧
    (History Step blank (trace Sys.run blank shortRun) (shortRun.foldl Sys.run blank) ∧
      (shortRun.foldl Sys.run blank).held 48 = some ⟨24, 20, 28⟩ ∧
      ¬ Good (shortRun.foldl Sys.run blank)) := by
  have hcarry : ∀ x ∈ trace Sys.run blank carryRun, Enabled x.1 x.2 := by
    simp only [carryRun, trace, forall_mem_cons]
    exact ⟨⟨by decide, grants_first (s := 4) (by decide) (by decide) (by decide)⟩, forall_mem_nil _⟩
  have hshort : ∀ x ∈ trace Sys.run blank shortRun, Enabled x.1 x.2 := by
    simp only [shortRun, trace, forall_mem_cons]
    refine ⟨enabled_memalign, ⟨?_, ?_⟩, forall_mem_nil _⟩
    · rintro p ⟨⟩
      rfl
    · intro s hs block hnone
      cases hnone
  have hheld : (carryRun.foldl Sys.run blank).held 32 = some ⟨0xfffffff0, 12, 4⟩ := by decide +kernel
  have hheld' : (shortRun.foldl Sys.run blank).held 48 = some ⟨24, 20, 28⟩ := by decide +kernel
  refine ⟨⟨(History.nil blank).trace carryRun hcarry, hheld, ?_⟩,
    (History.nil blank).trace shortRun hshort, hheld', ?_⟩
  · intro hgood
    exact absurd (hgood 32 _ hheld).hi (by decide)
  · intro hgood
    exact absurd (hgood 48 _ hheld').hi (by decide)

end Ixemul.Malloc
