/-
# Ixemul.Malloc.Blocks — sizes, aligned addresses and blocks in memory.

What the calls of malloc.c do to memory, one by one: how large a block `malloc` asks for, where `memalign`
puts the pointer, what stands around the memory of a block (`Header`) and before a pointer into it
(`Points`), and that `free` and `realloc` find the block from these (`findBlock_eq`).  Both are kept by every
change to memory that leaves the bytes alone that are not the program's (`Chunk.Private`).
-/
import Ixemul.Lib.Align
import Ixemul.Malloc.Model

namespace Ixemul.Malloc

open Lib Lib.Bytes BitVec

/-! ## Sizes and addresses -/

theorem blockSize_spec {size s : BitVec 32} (h : blockSize size = some s) :
    size.toNat ≤ s.toNat ∧ s.toNat ≤ size.toNat + 4 ∧ s.toNat % 4 = 0 := by
  unfold blockSize at h
  by_cases hzero : size = 0
  · subst hzero
    cases h
    decide
  · simp only [if_neg hzero] at h
    split at h
    · cases h
    · next hpos =>
      cases h
      have hlt : size.toNat < 2 ^ 31 := by
        rw [toInt_eq_toNat_cond] at hpos
        split at hpos <;> omega
      have hsum : (size + 3).toNat = size.toNat + 3 := by
        show (size.toNat + 3) % 2 ^ 32 = _
        omega
      have hround : ((size + 3) &&& ~~~3).toNat = (size.toNat + 3) - (size.toNat + 3) % 4 := by
        rw [← hsum]
        exact Align.toNat_down (k := 2) (size + 3) (a := 4) rfl
      omega

theorem blockSize_isSome {size : BitVec 32} (h : size.toNat < 2 ^ 31) : (blockSize size).isSome := by
  unfold blockSize
  by_cases hzero : size = 0
  · subst hzero
    rfl
  · have hpos : 0 < size.toNat := by
      rcases Nat.eq_zero_or_pos size.toNat with h0 | h0
      · exact absurd (eq_of_toNat_eq h0) hzero
      · exact h0
    simp only [if_neg hzero]
    rw [if_neg]
    · rfl
    · rw [toInt_eq_toNat_of_lt (by omega)]
      omega

/-- The alignments are powers of two. -/
def alignment (k : Nat) : BitVec 32 := BitVec.ofNat 32 (2 ^ k)

theorem toNat_alignment {k : Nat} (hk : k < 24) : (alignment k).toNat = 2 ^ k := by
  rw [alignment, toNat_ofNat, Nat.mod_eq_of_lt]
  calc 2 ^ k < 2 ^ 24 := Nat.pow_lt_pow_right (by decide) hk
    _ < 2 ^ 32 := by decide

section AlStart

variable {p k : Nat}

theorem and_alignment_iff (hk : k < 24) (hp : p < 2 ^ 32) :
    BitVec.ofNat 32 p &&& (alignment k - 1) = 0 ↔ 2 ^ k ∣ p := by
  rw [← toNat_inj, Align.toNat_and_sub_one _ (toNat_alignment hk), toNat_ofNat,
    Nat.mod_eq_of_lt hp, Nat.dvd_iff_mod_eq_zero]
  rfl

theorem toNat_alStart (hk : k < 24) :
    (alStart p (alignment k)).toNat =
      (p + 2 ^ k - 1) % 2 ^ 32 - (p + 2 ^ k - 1) % 2 ^ 32 % 2 ^ k := by
  have hpos : 0 < 2 ^ k := Nat.two_pow_pos k
  have hsum : BitVec.ofNat 32 p + alignment k - 1 = BitVec.ofNat 32 (p + 2 ^ k - 1) := by
    have hsucc : p + 2 ^ k = p + 2 ^ k - 1 + 1 := by omega
    rw [alignment, ← ofNat_add, hsucc, ofNat_add]
    exact add_sub_cancel _ _
  rw [alStart, Align.and_neg, Align.toNat_down _ (toNat_alignment hk), hsum, toNat_ofNat]

theorem alStart_eq (hk : k < 24) (hp : p + 2 ^ k ≤ 2 ^ 32) :
    (alStart p (alignment k)).toNat = Align.up k p := by
  rw [toNat_alStart hk, Nat.mod_eq_of_lt (by omega)]
  rfl

theorem alStart_wraps (hk : k < 24) (hp : p < 2 ^ 32) (h : 2 ^ 32 < p + 2 ^ k) :
    alStart p (alignment k) = 0 := by
  have hpow : 2 ^ k < 2 ^ 24 := Nat.pow_lt_pow_right (by decide) hk
  have hmod : (p + 2 ^ k - 1) % 2 ^ 32 = p + 2 ^ k - 1 - 2 ^ 32 := by omega
  apply eq_of_toNat_eq
  rw [toNat_alStart hk, hmod, Nat.mod_eq_of_lt (by omega), Nat.sub_self]
  rfl

end AlStart

/-- The words that `memalign` makes of the start of an aligned block: the result, the place of the mark and
the distance. -/
theorem aligned_words {a : BitVec 32} {p start : Nat} (hstart : a.toNat = start) (hlo : p + 4 ≤ start) :
    pointer a = some start ∧ (a - 4).toNat = start - 4 ∧
      a - BitVec.ofNat 32 p = BitVec.ofNat 32 (start - p) := by
  have hne : a ≠ 0 := by
    rintro rfl
    have hzero : (0 : BitVec 32).toNat = 0 := rfl
    omega
  have hfour : (4 : BitVec 32).toNat = 4 := rfl
  refine ⟨?_, ?_, ?_⟩
  · rw [pointer, if_neg hne, hstart]
  · rw [toNat_sub_of_le (by rw [le_def]; omega), hstart, hfour]
  · have hwhole : BitVec.ofNat 32 start = a := by
      rw [← hstart, ofNat_toNat, setWidth_eq]
    have hsum : start = start - p + p := by omega
    rw [← hwhole]
    conv_lhs => rw [hsum, ofNat_add]
    exact add_sub_cancel _ _

/-! ## Blocks and pointers into them -/

/-- The latest request for a pointer, and its block with the size in it. -/
structure Chunk where
  request : Nat
  block : Nat
  size : Nat
deriving DecidableEq

/-- Where a block ends. -/
def Chunk.fin (c : Chunk) : Nat := c.block + memBlockSize + c.size

/-- The management information of a block. -/
structure Header (m : Mem) (block size : Nat) : Prop where
  aligned : block % 4 = 0
  sizeAligned : size % 4 = 0
  room : block + memBlockSize + size ≤ 2 ^ 32
  sizeWord : sizeField m block = BitVec.ofNat 32 size
  magic : word m (block + 12) = magic1 ∧ word m (block + 16) = magic1
  last : word m (block + realblock + size) = magic2

/-- A pointer with the bytes asked for inside the block; it is the start of the memory, or has the distance
from there before it. -/
structure Points (m : Mem) (p : Nat) (c : Chunk) : Prop where
  lo : c.block + realblock ≤ p
  hi : p + c.request ≤ c.block + realblock + c.size
  tag : p = c.block + realblock ∨ (c.block + realblock + 4 ≤ p ∧ p - (c.block + realblock) < 2 ^ 24 ∧
    word m (p - 4) = memalignPtr (BitVec.ofNat 32 (p - (c.block + realblock))))

/-- The bytes of the block that are not the program's. -/
def Chunk.Private (c : Chunk) (p a : Nat) : Prop :=
  c.block + 8 ≤ a ∧ a < c.fin ∧ (a < p ∨ p + c.request ≤ a)

section Blocks

variable {m m' : Mem} {p : Nat} {c : Chunk}

theorem Header.congr (h : Header m c.block c.size) (hp : Points m p c)
    (hm : ∀ a, c.Private p a → m' a = m a) : Header m' c.block c.size := by
  have hlo := hp.lo
  have hhi := hp.hi
  unfold Chunk.Private Chunk.fin memBlockSize realblock at *
  have hfront : ∀ a, c.block + 8 ≤ a → a + 4 ≤ c.block + 20 → word m' a = word m a := by
    intro a ha ha'
    apply word_congr
    intro i hi hi'
    exact hm i ⟨by omega, by omega, by omega⟩
  refine ⟨h.aligned, h.sizeAligned, h.room, ?_, ⟨?_, ?_⟩, ?_⟩
  · rw [← h.sizeWord]
    exact hfront _ (by omega) (by omega)
  · rw [← h.magic.1]
    exact hfront _ (by omega) (by omega)
  · rw [← h.magic.2]
    exact hfront _ (by omega) (by omega)
  · rw [← h.last]
    apply word_congr
    intro i hi hi'
    unfold realblock at hi hi'
    exact hm i ⟨by omega, by omega, by omega⟩

theorem Points.congr (h : Points m p c) (hm : ∀ a, c.Private p a → m' a = m a) : Points m' p c := by
  refine ⟨h.lo, h.hi, ?_⟩
  have hhi := h.hi
  refine h.tag.imp_right ?_
  rintro ⟨hlo, hlt, hword⟩
  refine ⟨hlo, hlt, ?_⟩
  rw [← hword]
  apply word_congr
  intro i hi hi'
  unfold Chunk.Private Chunk.fin memBlockSize realblock at *
  exact hm i ⟨by omega, by omega, by omega⟩

theorem toNat_sizeField (h : Header m c.block c.size) : (sizeField m c.block).toNat = c.size := by
  have := h.room
  rw [h.sizeWord, toNat_ofNat]
  unfold memBlockSize at this
  omega

theorem Header.valid (h : Header m c.block c.size) : Valid m c.block := by
  have := h.aligned
  refine ⟨by omega, h.magic.1, h.magic.2, ?_⟩
  rw [toNat_sizeField h]
  exact h.last

theorem memalignPtr_magic (x : BitVec 32) : (memalignPtr x).extractLsb' 24 8 = memalignMagic :=
  extractLsb'_append_eq_left

theorem memalignPtr_alignment {x : Nat} (h : x < 2 ^ 24) :
    ((memalignPtr (BitVec.ofNat 32 x)).extractLsb' 0 24).toNat = x := by
  have hlow : (memalignPtr (BitVec.ofNat 32 x)).extractLsb' 0 24 = (BitVec.ofNat 32 x).setWidth 24 :=
    extractLsb'_append_eq_right
  rw [hlow, toNat_setWidth, toNat_ofNat, Nat.mod_eq_of_lt (a := x) (by omega),
    Nat.mod_eq_of_lt h]

theorem findBlock_eq (h : Header m c.block c.size) (hp : Points m p c) : findBlock m p = c.block := by
  have hlo := hp.lo
  rcases hp.tag with heq | ⟨hlo', hlt, hword⟩
  · have hmagic : word m (p - 4) = magic1 := by
      rw [← h.magic.2, heq]
      rfl
    rw [findBlock, hmagic, heq]
    exact Nat.add_sub_cancel ..
  · rw [findBlock, hword, if_pos (memalignPtr_magic _), memalignPtr_alignment hlt]
    omega

end Blocks

/-! ## What malloc and memalign make of a block -/

section InitBlock

variable {m : Mem} {block : Nat} {s : BitVec 32}

theorem initBlock_outside {a : Nat} (h : a < block + 8 ∨ block + memBlockSize + s.toNat ≤ a) :
    initBlock m block s a = m a := by
  simp only [memBlockSize] at h
  simp only [initBlock, realblock]
  rw [write_outside (by rw [length_be32]; omega), write_outside (by rw [length_be32]; omega),
    write_outside (by rw [length_be32]; omega), write_outside (by rw [length_be32]; omega)]

theorem header_initBlock {size : BitVec 32} (hs : blockSize size = some s) (haligned : block % 4 = 0)
    (hroom : block + memBlockSize + s.toNat ≤ 2 ^ 32) : Header (initBlock m block s) block s.toNat := by
  refine ⟨haligned, (blockSize_spec hs).2.2, hroom, ?_, ⟨?_, ?_⟩, ?_⟩
  · rw [sizeField, initBlock, realblock, word_write_apart (.inl (by omega)),
      word_write_apart (.inl (by omega)), word_write_apart (.inl (by omega)), word_write_self,
      ofNat_toNat, setWidth_eq]
  · rw [initBlock, realblock, word_write_apart (.inl (by omega)), word_write_apart (.inl (by omega)),
      word_write_self]
  · rw [initBlock, realblock, word_write_apart (.inl (by omega)), word_write_self]
  · rw [initBlock, word_write_self]

end InitBlock

/-- What is written inside the memory of a block leaves the management information as it is. -/
theorem Header.write {m : Mem} {block size a : Nat} {bs : List Byte} (h : Header m block size)
    (hlo : block + realblock ≤ a) (hhi : a + bs.length ≤ block + realblock + size) :
    Header (write m a bs) block size := by
  -- as if all of it had been asked for
  have hall : Points m (block + realblock) ⟨size, block, size⟩ := ⟨le_rfl, le_rfl, .inl rfl⟩
  have hkeep : ∀ i, Chunk.Private ⟨size, block, size⟩ (block + realblock) i →
      Bytes.write m a bs i = m i := by
    rintro i ⟨-, -, hi⟩
    exact write_outside (by dsimp only at hi; omega)
  exact Header.congr h hall hkeep

section Calls

variable {m : Mem} {size s : BitVec 32} {res : Option Nat} {k block : Nat}

theorem malloc_some (hs : blockSize size = some s) :
    malloc m size (some block) = (some (block + realblock), initBlock m block s) := by
  simp only [malloc, hs]

theorem malloc_cases (m : Mem) (size : BitVec 32) (res : Option Nat) :
    (∃ s block, blockSize size = some s ∧ res = some block) ∨ malloc m size res = (none, m) := by
  unfold malloc
  cases hs : blockSize size with
  | none => exact .inr rfl
  | some s =>
    cases res with
    | none => exact .inr rfl
    | some block => exact .inl ⟨s, block, rfl, rfl⟩

theorem toNat_total (hk : k < 24) : (size + alignment k + 4).toNat = (size.toNat + 2 ^ k + 4) % 2 ^ 32 := by
  rw [toNat_add, toNat_add, toNat_alignment hk]
  exact Nat.mod_add_mod _ _ _

theorem memalign_none (h : malloc m (size + alignment k + 4) res = (none, m)) :
    memalign m (alignment k) size res = (none, m) := by
  simp only [memalign, h]

variable (hk : k < 24) (hs : blockSize (size + alignment k + 4) = some s)
include hk hs

theorem memalign_some (haligned : block % 4 = 0) (hroom : block + realblock + 2 ^ k ≤ 2 ^ 32) :
    memalign m (alignment k) size (some block) =
      if 2 ^ k ∣ block + realblock then (some (block + realblock), initBlock m block s)
      else (some (Align.up k (block + realblock)),
        write (initBlock m block s) (Align.up k (block + realblock) - 4)
          (be32 (memalignPtr (BitVec.ofNat 32 (Align.up k (block + realblock) - (block + realblock)))))) := by
  have hpos : 0 < 2 ^ k := Nat.two_pow_pos k
  have hlt : block + realblock < 2 ^ 32 := by omega
  simp only [memalign, malloc_some hs, and_alignment_iff hk hlt]
  split
  · rfl
  · next hdvd =>
    have hfour : 2 ^ 2 ∣ block + realblock := by
      unfold realblock
      omega
    have hlo := (Align.up_bounds hfour hdvd).1
    have hstart := alStart_eq hk hroom
    generalize Align.up k (block + realblock) = start at hlo hstart
    generalize alStart (block + realblock) (alignment k) = a at hstart
    obtain ⟨hret, htag, hdist⟩ := aligned_words hstart hlo
    rw [hret, htag, hdist]

/-- Where the next multiple is beyond the end of the address space, the last word there is overwritten, and
nothing is returned. -/
theorem memalign_wraps (hroom : block + realblock < 2 ^ 32) (h : 2 ^ 32 < block + realblock + 2 ^ k) :
    memalign m (alignment k) size (some block) =
      (none, write (initBlock m block s) (2 ^ 32 - 4)
        (be32 (memalignPtr (0 - BitVec.ofNat 32 (block + realblock))))) := by
  have hdvd : ¬ 2 ^ k ∣ block + realblock := by
    intro hdvd
    have hwhole : 2 ^ k ∣ 2 ^ 32 := pow_dvd_pow 2 (by omega)
    have hle := Nat.le_of_dvd (Nat.sub_pos_of_lt hroom) (Nat.dvd_sub hwhole hdvd)
    omega
  simp only [memalign, malloc_some hs, and_alignment_iff hk hroom, if_neg hdvd, alStart_wraps hk hroom h]
  rfl

theorem memalign_ret (haligned : block % 4 = 0) (hroom : block + realblock + 2 ^ k ≤ 2 ^ 32) :
    ∃ q, (memalign m (alignment k) size (some block)).1 = some q ∧ 2 ^ k ∣ q ∧ block + realblock ≤ q := by
  rw [memalign_some hk hs haligned hroom]
  split
  · next hdvd => exact ⟨_, rfl, hdvd, le_rfl⟩
  · exact ⟨_, rfl, Align.dvd_up _ _, Align.le_up _ _⟩

end Calls

end Ixemul.Malloc
