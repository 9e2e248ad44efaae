/-
# Ixemul.Kmalloc — the library's own malloc package (kmalloc.c).

`kmalloc` rounds the size up to longs, puts it into a long of its own before the memory, and takes both from
`b_alloc`; `kfree` finds the size there again.  Up to 0xfffffff8 bytes nothing wraps.  Above that the sum
wraps to 0 or 4, and a block of 24 bytes is handed out for almost 4 gigabytes.  `krealloc` has the same
arithmetic, and a test on the old size that is passed if the new one, or that of the old block, has wrapped.

The allocator is that of `Ixemul.Buddy`, in any state a run gets to.  What `b_alloc` and `b_free` do to the
bytes in memory is arbitrary, except in the blocks that others hold.
-/
import Ixemul.Lib.Align
import Ixemul.Lib.Bytes
import Ixemul.Buddy.Run

namespace Ixemul.Kmalloc

open Lib Lib.Bytes Lib.Run
open Buddy (Live Sys ExecAnswers RegionApart numPools)
open List

/-! ## The functions -/

/-- MEMF_PUBLIC, which is also the number of a pool. -/
def memfPublic : Nat := 1

/-- `(size + 3) & ~3` -/
def longs (size : BitVec 32) : BitVec 32 := (size + 3#32) &&& ~~~ 3#32

/-- The size that `kmalloc` asks for, with a long for itself. -/
def requested (size : BitVec 32) : Int := (longs size + 4#32).toInt

/-- The allocator with its callers' blocks, and the bytes in memory. -/
structure Heap where
  sys : Sys
  mem : Mem

/-- The byte is one that the holder of the block may use. -/
def Within (b : Live) (i : Nat) : Prop := b.ptr ≤ i ∧ i < b.ptr + b.usable

/-- What Exec answers, and what `b_alloc` and `b_free` leave in memory.  They write to no block that is held
before and after the call; `afterFree` gets the state without the block that is freed. -/
structure Env where
  allocMem : Nat → Option Nat
  afterAlloc : Sys → Mem → Mem
  afterFree : Sys → Mem → Mem
  alloc_spares : ∀ y m, ∀ b ∈ y.live, ∀ i, Within b i → afterAlloc y m i = m i
  free_spares : ∀ y m, ∀ b ∈ y.live, ∀ i, Within b i → afterFree y m i = m i

/-- `b_alloc (size, MEMF_PUBLIC)` -/
def bAlloc (e : Env) (size : Int) (h : Heap) : Option Nat × Heap :=
  ((Buddy.bAlloc e.allocMem size memfPublic h.sys.st).1,
    ⟨h.sys.alloc e.allocMem size memfPublic, e.afterAlloc h.sys h.mem⟩)

/-- `b_free (mem, size)` -/
def bFree (e : Env) (mem : Nat) (size : Int) (h : Heap) : Heap :=
  ⟨h.sys.free ⟨mem, size, memfPublic⟩, e.afterFree (h.sys.free ⟨mem, size, memfPublic⟩) h.mem⟩

/-- The size in front of the memory. -/
def sizeField (h : Heap) (mem : Nat) : BitVec 32 := word h.mem (mem - 4)

def kmalloc (e : Env) (size : BitVec 32) (h : Heap) : Option Nat × Heap :=
  match bAlloc e (requested size) h with
  | (none, h) => (none, h)
  | (some res, h) => (some (res + 4), { h with mem := write h.mem res (be32 (longs size)) })

def kfree (e : Env) (mem : Option Nat) (h : Heap) : Heap :=
  match mem with
  | none => h
  | some mem => bFree e (mem - 4) (sizeField h mem + 4#32).toInt h

/-- The size and the copy of the old memory, as they are put into the new block. -/
def moveTo (size : BitVec 32) (mem res : Nat) (h : Heap) : Heap :=
  let h := { h with mem := write h.mem res (be32 (longs size)) }
  { h with mem := write h.mem (res + 4) (read h.mem mem (sizeField h mem).toNat) }

def krealloc (e : Env) (mem : Option Nat) (size : BitVec 32) (h : Heap) : Option Nat × Heap :=
  match mem with
  | none => kmalloc e size h
  | some mem =>
    -- in that case the block is already large enough
    if longs size ≤ sizeField h mem then (some mem, h)
    else
      match bAlloc e (requested size) h with
      | (none, h) => (none, h)
      | (some res, h) => (some (res + 4), kfree e (some mem) (moveTo size mem res h))

/-! ## What is asked of them -/

/-- The block `b` from `b_alloc` has `n` bytes at `mem`, and `kfree` gives it back with its size. -/
structure Serves (n mem : Nat) (h : Heap) (b : Live) : Prop where
  held : b ∈ h.sys.live
  mem_eq : mem = b.ptr + 4
  room : n + 4 ≤ b.usable
  freed : ∀ e, (kfree e (some mem) h).sys = h.sys.free b

/-- What `kmalloc` has to keep to in the state `h`. -/
def KmallocMeets (e : Env) (n : BitVec 32) (h : Heap) : Prop :=
  ∀ mem, (kmalloc e n h).1 = some mem → ∃ b, Serves n.toNat mem (kmalloc e n h).2 b

/-- What `krealloc` has to keep to in the state `h`. -/
def KreallocMeets (e : Env) (mem : Nat) (n : BitVec 32) (h : Heap) : Prop :=
  ∀ mem', (krealloc e (some mem) n h).1 = some mem' →
    (∃ b, Serves n.toNat mem' (krealloc e (some mem) n h).2 b) ∧
      read (krealloc e (some mem) n h).2.mem mem' (min (sizeField h mem).toNat n.toNat) =
        read h.mem mem (min (sizeField h mem).toNat n.toNat)

/-- The block at `p` that `b_alloc` has for the request. -/
abbrev block (p : Nat) (n : BitVec 32) : Live := ⟨p, requested n, memfPublic⟩

/-- What `b_alloc` returns for it. -/
def given (e : Env) (n : BitVec 32) (h : Heap) : Option Nat :=
  (Buddy.bAlloc e.allocMem (requested n) memfPublic h.sys.st).1

/-- A live block that was asked for with `n`. -/
structure LiveBlock (h : Heap) (mem : Nat) (n : BitVec 32) : Prop where
  pos : 4 ≤ mem
  held : block (mem - 4) n ∈ h.sys.live
  field : sizeField h mem = longs n

/-- `b_alloc` has a block for the request. -/
def Obtains (e : Env) (n : BitVec 32) (h : Heap) : Prop := (given e n h).isSome = true

/-! ## Sizes -/

variable {n n₀ : BitVec 32}

theorem toNat_longs (n : BitVec 32) :
    (longs n).toNat = (n.toNat + 3) % 2 ^ 32 - (n.toNat + 3) % 2 ^ 32 % 4 := by
  have hround := Align.toNat_down (k := 2) (n + 3#32) (a := 4#32) rfl
  exact hround

theorem requested_eq (n : BitVec 32) :
    requested n = if (longs n).toNat = 0xfffffffc then 0
      else if (longs n).toNat + 4 < 2 ^ 31 then ((longs n).toNat + 4 : Int)
      else (longs n).toNat + 4 - 2 ^ 32 := by
  have hsum : (longs n + 4#32).toNat = ((longs n).toNat + 4) % 2 ^ 32 := BitVec.toNat_add _ _
  rw [requested, BitVec.toInt_eq_toNat_cond, hsum]
  split_ifs <;> omega

theorem requested_of_ne (h : longs n ≠ 0xfffffffc) (hpos : 0 ≤ requested n) :
    requested n = (longs n).toNat + 4 := by
  have hlongs := toNat_longs n
  have hnat : (longs n).toNat ≠ 0xfffffffc := fun h' => h (BitVec.eq_of_toNat_eq h')
  rw [requested_eq] at hpos ⊢
  split_ifs at hpos ⊢ <;> omega

theorem longs_of_le (h : n.toNat ≤ 0xfffffff8) : n.toNat ≤ (longs n).toNat ∧ longs n ≠ 0xfffffffc := by
  have hlongs := toNat_longs n
  refine ⟨by omega, fun heq => ?_⟩
  rw [heq] at hlongs
  change 0xfffffffc = _ at hlongs
  omega

theorem longs_le (n : BitVec 32) : longs n ≤ 0xfffffffc := by
  have hlongs := toNat_longs n
  show (longs n).toNat ≤ 0xfffffffc
  omega

theorem usable_lt (p : Nat) (n : BitVec 32) : (block p n).usable < 2 ^ 31 :=
  Buddy.usable_lt BitVec.toInt_lt

theorem longs_le_usable (p : Nat) (hpos : 0 ≤ requested n) (hne : longs n ≠ 0xfffffffc) :
    (longs n).toNat + 4 ≤ (block p n).usable := by
  have hge : requested n ≤ (block p n).usable :=
    Buddy.usable_ge
  have hreq := requested_of_ne hne hpos
  omega

theorem room_iff (p : Nat) (hpos : 0 ≤ requested n) :
    n.toNat + 4 ≤ (block p n).usable ↔ n.toNat ≤ 0xfffffff8 := by
  constructor
  · intro h
    have hlt := usable_lt p n
    omega
  · intro h
    obtain ⟨hle, hne⟩ := longs_of_le h
    have hroom := longs_le_usable p hpos hne
    omega

theorem usable_wrapped (p : Nat) (h : longs n = 0xfffffffc) : (block p n).usable = 28 := by
  have hzero : requested n = 0 := by
    rw [requested, h]
    rfl
  have hsmall : Buddy.isLarge 0 = false := by decide
  rw [block, hzero, Live.usable, hsmall]
  show 2 ^ (Buddy.bucketOf 0 + Buddy.minLog2) - Buddy.offsetNext = 28
  decide

theorem room_same_iff (p : Nat) (hpos : 0 ≤ requested n₀) (hle : longs n ≤ longs n₀) :
    n.toNat + 4 ≤ (block p n₀).usable ↔
      n.toNat ≤ 24 ∨ (n.toNat ≤ 0xfffffffc ∧ longs n₀ ≠ 0xfffffffc) := by
  have hlt := usable_lt p n₀
  by_cases hwrapped : longs n₀ = 0xfffffffc
  · rw [usable_wrapped p hwrapped]
    constructor
    · exact fun h => .inl (by omega)
    · rintro (h | ⟨-, h⟩)
      · omega
      · exact absurd hwrapped h
  · have hroom := longs_le_usable p hpos hwrapped
    have hlongs := toNat_longs n
    have hle' : (longs n).toNat ≤ (longs n₀).toNat := hle
    constructor
    · intro h
      exact .inr ⟨by omega, hwrapped⟩
    · intro h
      omega

/-! ## Blocks in memory -/

section Blocks

variable {y : Sys} {b b' : Live} {i : Nat}

theorem live_sound (hy : Reachable Buddy.system y) : ∀ b ∈ y.live, 0 ≤ b.size := by
  refine hy.invariant (I := fun y => ∀ b ∈ y.live, 0 ≤ b.size) ?_ ?_
  · rintro y ⟨m, rfl⟩ b hb
    exact absurd hb not_mem_nil
  · intro y y' hinv hstep
    cases hstep with
    | @alloc allocMem size =>
      intro b hb
      rcases mem_append.mp hb with hnew | hold
      · obtain ⟨p, hp, rfl⟩ := Option.map_eq_some_iff.mp (Option.mem_toList.mp hnew)
        unfold Buddy.bAlloc at hp
        by_cases hneg : size < 0
        · rw [if_pos hneg] at hp
          cases hp
        · exact Int.not_lt.mp hneg
      · exact hinv b hold
    | free => exact fun b hb => hinv b (mem_of_mem_erase hb)
    | write => exact hinv

theorem extent_of_within (hi : Within b i) : b.extent.1 ≤ i ∧ i < b.extent.1 + b.extent.2 := by
  obtain ⟨hlo, hhi⟩ := hi
  unfold Live.usable at hhi
  unfold Live.extent
  cases hlarge : Buddy.isLarge b.size with
  | true =>
    rw [hlarge] at hhi
    exact ⟨hlo, hhi⟩
  | false =>
    have hoff : Buddy.offsetNext = 4 := rfl
    rw [hlarge, if_neg Bool.false_ne_true, hoff] at hhi
    show b.ptr - 4 ≤ i ∧ i < b.ptr - 4 + 2 ^ b.tile.k
    omega

theorem sixteen_le_usable (b : Live) : 16 ≤ b.usable := by
  have hmin := Buddy.minSize_le_roundSize b.size
  unfold Live.usable
  cases hlarge : Buddy.isLarge b.size with
  | true =>
    exact hmin
  | false =>
    have hfit := (Buddy.bucketOf_spec hlarge).1
    have hk : b.tile.k = Buddy.bucketOf b.size + Buddy.minLog2 := rfl
    rw [if_neg Bool.false_ne_true, hk]
    omega

theorem not_within_of_apart (hap : RegionApart b.extent b'.extent) (hi : Within b i) : ¬ Within b' i := by
  intro hi'
  have h := extent_of_within hi
  have h' := extent_of_within hi'
  rcases hap with hap | hap <;> omega

theorem within_ptr (b : Live) : Within b b.ptr := by
  have := sixteen_le_usable b
  exact ⟨le_rfl, by omega⟩

theorem eq_of_ptr_eq (hy : Reachable Buddy.system y) (hb : b ∈ y.live) (hb' : b' ∈ y.live)
    (hptr : b.ptr = b'.ptr) : b = b' := by
  by_contra hne
  have hap := (Buddy.reachable_layout hy).2.1.forall hb hb' hne
  have hi : Within b b'.ptr := by
    rw [← hptr]
    exact within_ptr b
  exact not_within_of_apart hap hi (within_ptr b')

end Blocks

/-! ## kmalloc -/

section Calls

variable {e : Env} {h : Heap} {mem res : Nat} {b old : Live}

/-- The state after `b_alloc`, and after the size was put into the block. -/
def obtained (e : Env) (n : BitVec 32) (h : Heap) : Heap :=
  ⟨h.sys.alloc e.allocMem (requested n) memfPublic, e.afterAlloc h.sys h.mem⟩

theorem bAlloc_eq : bAlloc e (requested n) h = (given e n h, obtained e n h) := rfl

theorem obtained_live (hres : given e n h = some res) :
    (obtained e n h).sys.live = block res n :: h.sys.live := by
  show ((given e n h).map _).toList ++ h.sys.live = _
  rw [hres]
  rfl

theorem obtained_mem (hres : given e n h = some res) : block res n ∈ (obtained e n h).sys.live := by
  rw [obtained_live hres]
  exact mem_cons_self

theorem kmalloc_none (hres : given e n h = none) : (kmalloc e n h).1 = none := by
  rw [kmalloc, bAlloc_eq, hres]

theorem kmalloc_some (hres : given e n h = some res) :
    kmalloc e n h = (some (res + 4),
      ⟨(obtained e n h).sys, write (obtained e n h).mem res (be32 (longs n))⟩) := by
  rw [kmalloc, bAlloc_eq, hres]

theorem kfree_sys (hfield : sizeField h (res + 4) = longs n) (e : Env) :
    (kfree e (some (res + 4)) h).sys = h.sys.free (block res n) := by
  show h.sys.free ⟨res + 4 - 4, (sizeField h (res + 4) + 4#32).toInt, memfPublic⟩ = _
  rw [hfield]
  rfl

/-! ## krealloc -/

theorem kreallocMeets_same (hy : Reachable Buddy.system h.sys) (hl : LiveBlock h mem n₀)
    (hle : longs n ≤ longs n₀) :
    KreallocMeets e mem n h ↔ n.toNat ≤ 24 ∨ (n.toNat ≤ 0xfffffffc ∧ longs n₀ ≠ 0xfffffffc) := by
  have hsame : krealloc e (some mem) n h = (some mem, h) := by
    rw [krealloc, if_pos (by rw [hl.field]; exact hle)]
  have hmem : mem - 4 + 4 = mem := Nat.sub_add_cancel hl.pos
  have hserves : (∃ b, Serves n.toNat mem h b) ↔
      n.toNat + 4 ≤ (block (mem - 4) n₀).usable := by
    constructor
    · rintro ⟨b, hb⟩
      have hptr : b.ptr = mem - 4 := by
        have := hb.mem_eq
        omega
      rw [← eq_of_ptr_eq hy hb.held hl.held hptr]
      exact hb.room
    · intro hroom
      refine ⟨_, hl.held, hmem.symm, hroom, fun e => ?_⟩
      have hfield : sizeField h (mem - 4 + 4) = longs n₀ := hl.field
      exact kfree_sys hfield e
  have hmeets : KreallocMeets e mem n h ↔ ∃ b, Serves n.toNat mem h b := by
    unfold KreallocMeets
    rw [hsame]
    constructor
    · intro hm
      exact (hm mem rfl).1
    · rintro hb mem' hmem'
      obtain rfl := Option.some.inj hmem'
      exact ⟨hb, rfl⟩
  rw [hmeets, hserves]
  exact room_same_iff (mem - 4) (live_sound hy _ hl.held) hle

/-- The memory after the move: nothing but the new block has changed, which has the size and the old bytes. -/
theorem moveTo_spec (hb : res = b.ptr) (hold : old.ptr + 4 = mem)
    (hapart : ∀ i, Within old i → ¬ Within b i) (hroom : (sizeField h mem).toNat + 4 ≤ b.usable)
    (hfits : (sizeField h mem).toNat + 4 ≤ old.usable) :
    (∀ i, Within old i → (moveTo n mem res h).mem i = h.mem i) ∧
      word (moveTo n mem res h).mem res = longs n ∧
      read (moveTo n mem res h).mem (res + 4) (sizeField h mem).toNat =
        read h.mem mem (sizeField h mem).toNat := by
  subst hb hold
  -- the size stays what it was while the new one is written
  have hsize : ∀ i, Within old i → write h.mem b.ptr (be32 (longs n)) i = h.mem i := by
    intro i hi
    have hnot := hapart i hi
    unfold Within at hnot
    exact write_outside (by rw [length_be32]; omega)
  have hfield : sizeField { h with mem := write h.mem b.ptr (be32 (longs n)) } (old.ptr + 4) =
      sizeField h (old.ptr + 4) := by
    apply word_congr
    intro i hlo hhi
    exact hsize i ⟨by omega, by omega⟩
  have hbytes : read (write h.mem b.ptr (be32 (longs n))) (old.ptr + 4)
      (sizeField h (old.ptr + 4)).toNat = read h.mem (old.ptr + 4) (sizeField h (old.ptr + 4)).toNat := by
    apply read_congr
    intro i hlo hhi
    exact hsize i ⟨by omega, by omega⟩
  have hmoved : (moveTo n (old.ptr + 4) b.ptr h).mem = write (write h.mem b.ptr (be32 (longs n))) (b.ptr + 4)
      (read h.mem (old.ptr + 4) (sizeField h (old.ptr + 4)).toNat) := by
    rw [← hbytes, ← hfield]
    rfl
  rw [hmoved]
  refine ⟨?_, ?_, read_write_of_length length_read⟩
  · intro i hi
    have hnot := hapart i hi
    unfold Within at hnot
    rw [write_outside (by rw [length_read]; omega)]
    exact hsize i hi
  · rw [word_write_apart (.inl le_rfl)]
    exact word_write_self _ _ _

/-! ## Where a block is given out -/

variable (hy : Reachable Buddy.system h.sys) (hans : ExecAnswers h.sys.st e.allocMem)
include hy hans

theorem obtained_reachable (n : BitVec 32) : Reachable Buddy.system (obtained e n h).sys :=
  hy.step (.alloc (by decide) hans)

theorem eq_block (hres : given e n h = some res) (hb : b ∈ (obtained e n h).sys.live)
    (hptr : res + 4 = b.ptr + 4) : b = block res n :=
  eq_of_ptr_eq (obtained_reachable hy hans n) hb (obtained_mem hres) (add_right_cancel hptr).symm

theorem requested_nonneg (hres : given e n h = some res) : 0 ≤ requested n :=
  live_sound (obtained_reachable hy hans n) (block res n) (obtained_mem hres)

theorem kmallocMeets_iff : KmallocMeets e n h ↔ n.toNat ≤ 0xfffffff8 ∨ ¬ Obtains e n h := by
  unfold KmallocMeets Obtains
  cases hres : given e n h with
  | none =>
    refine iff_of_true (fun mem hmem => ?_) (.inr Bool.false_ne_true)
    rw [kmalloc_none hres] at hmem
    cases hmem
  | some res =>
    have hsome : ¬ ¬ (some res).isSome := not_not_intro rfl
    rw [kmalloc_some hres, or_iff_left hsome, ← room_iff res (requested_nonneg hy hans hres)]
    constructor
    · intro hmeets
      obtain ⟨b, hb⟩ := hmeets (res + 4) rfl
      rw [← eq_block hy hans hres hb.held hb.mem_eq]
      exact hb.room
    · rintro hroom mem hmem
      obtain rfl := Option.some.inj hmem
      exact ⟨block res n, obtained_mem hres, rfl, hroom, kfree_sys (word_write_self _ res _)⟩

theorem obtained_apart (hres : given e n h = some res) (hold : old ∈ h.sys.live) {i : Nat}
    (hi : Within old i) : ¬ Within (block res n) i := by
  have hreach := obtained_reachable hy hans n
  have hlive := obtained_live hres
  have hpair := (Buddy.reachable_layout hreach).2.1
  rw [hlive] at hpair
  have hap := rel_of_pairwise_cons hpair hold
  intro hi'
  exact not_within_of_apart hap hi' hi

theorem krealloc_moved (hl : LiveBlock h mem n₀) (hlt : ¬ longs n ≤ longs n₀)
    (hfits : n.toNat ≤ 0xfffffff8) (hres : given e n h = some res) :
    let h' := kfree e (some mem) (moveTo n mem res (obtained e n h))
    Serves n.toNat (res + 4) h' (block res n) ∧
      read h'.mem (res + 4) (longs n₀).toNat = read h.mem mem (longs n₀).toNat := by
  intro h'
  have hpos := requested_nonneg hy hans hres
  have hmem : mem - 4 + 4 = mem := Nat.sub_add_cancel hl.pos
  obtain ⟨hle, hne⟩ := longs_of_le hfits
  have hlt' : (longs n₀).toNat < (longs n).toNat := not_le.mp hlt
  have hne₀ : longs n₀ ≠ 0xfffffffc := fun heq => hlt (heq ▸ longs_le n)
  have holdroom := longs_le_usable (mem - 4) (live_sound hy _ hl.held) hne₀
  have hnewroom := longs_le_usable res hpos hne
  have hapart := fun i => obtained_apart (i := i) hy hans hres hl.held
  have hlive := obtained_mem hres
  generalize hb : block res n = b at hnewroom hapart hlive ⊢
  generalize hold : block (mem - 4) n₀ = old at holdroom hapart
  have hptr : res = b.ptr := by rw [← hb]
  have holdptr : old.ptr + 4 = mem := by rw [← hold, hmem]
  -- `b_alloc` left the old block alone
  have hspared : ∀ i, Within old i → (obtained e n h).mem i = h.mem i :=
    fun i hi => e.alloc_spares h.sys h.mem old (hold ▸ hl.held) i hi
  have hfield : sizeField (obtained e n h) mem = longs n₀ := by
    rw [← hl.field]
    apply word_congr
    intro i hlo hhi
    exact hspared i ⟨by omega, by omega⟩
  obtain ⟨hkept, hword, hbytes⟩ := moveTo_spec (n := n) hptr holdptr hapart
    (by rw [hfield]; omega) (by rw [hfield]; exact holdroom)
  -- so that it is freed with its size
  have hsize : sizeField (moveTo n mem res (obtained e n h)) (mem - 4 + 4) = longs n₀ := by
    rw [hmem, ← hfield]
    apply word_congr
    intro i hlo hhi
    exact hkept i ⟨by omega, by omega⟩
  have hfree : h'.sys = (obtained e n h).sys.free old := by
    have hfree := kfree_sys hsize e
    rw [hmem, hold] at hfree
    exact hfree
  have hstill : b ∈ h'.sys.live := by
    have hdiff : b ≠ old := by
      rintro rfl
      exact hapart _ (within_ptr b) (within_ptr b)
    rw [hfree]
    exact (mem_erase_of_ne hdiff).mpr hlive
  -- and the new block is left alone by that
  have hafter : ∀ i, Within b i → h'.mem i = (moveTo n mem res (obtained e n h)).mem i :=
    fun i hi => e.free_spares h'.sys _ b hstill i hi
  have hnew : sizeField h' (res + 4) = longs n := by
    rw [← hword, sizeField]
    apply word_congr
    intro i hlo hhi
    exact hafter i ⟨by omega, by omega⟩
  refine ⟨⟨hstill, by rw [hptr], by omega, fun e' => ?_⟩, ?_⟩
  · rw [kfree_sys hnew e', hb]
  · rw [hfield] at hbytes
    calc read h'.mem (res + 4) (longs n₀).toNat
        = read (moveTo n mem res (obtained e n h)).mem (res + 4) (longs n₀).toNat :=
          read_congr fun i hlo hhi => hafter i ⟨by omega, by omega⟩
      _ = read (obtained e n h).mem mem (longs n₀).toNat := hbytes
      _ = read h.mem mem (longs n₀).toNat := read_congr fun i hlo hhi => hspared i ⟨by omega, by omega⟩

theorem kreallocMeets_moved (hl : LiveBlock h mem n₀) (hlt : ¬ longs n ≤ longs n₀) :
    KreallocMeets e mem n h ↔ n.toNat ≤ 0xfffffff8 ∨ ¬ Obtains e n h := by
  have hlt' : ¬ longs n ≤ sizeField h mem := by
    rw [hl.field]
    exact hlt
  unfold KreallocMeets Obtains
  cases hres : given e n h with
  | none =>
    refine iff_of_true (fun mem' hmem' => ?_) (.inr Bool.false_ne_true)
    rw [krealloc, if_neg hlt', bAlloc_eq, hres] at hmem'
    cases hmem'
  | some res =>
    have hcall : krealloc e (some mem) n h =
        (some (res + 4), kfree e (some mem) (moveTo n mem res (obtained e n h))) := by
      rw [krealloc, if_neg hlt', bAlloc_eq, hres]
    have hsome : ¬ ¬ (some res).isSome := not_not_intro rfl
    rw [hcall, or_iff_left hsome]
    constructor
    · intro hmeets
      obtain ⟨⟨b, hb⟩, -⟩ := hmeets (res + 4) rfl
      -- whatever was freed, the block is one that `b_alloc` gave out
      rw [← room_iff res (requested_nonneg hy hans hres),
        ← eq_block hy hans hres (mem_of_mem_erase hb.held) hb.mem_eq]
      exact hb.room
    · intro hfits mem' hmem'
      obtain rfl := Option.some.inj hmem'
      obtain ⟨hserves, hbytes⟩ := krealloc_moved hy hans hl hlt hfits hres
      refine ⟨⟨_, hserves⟩, ?_⟩
      rw [hl.field, ← take_read (min_le_left _ _), hbytes, take_read (min_le_left _ _)]

end Calls

/-- For every size and every state of the allocator: `kmalloc` keeps to its specification exactly for sizes
up to 0xfffffff8, or where `b_alloc` has no block for the wrapped size; and so does `krealloc` for every
live block that is too small.  For a block that is large enough it does exactly if the size is not above
0xfffffffc, where it would be rounded to 0, and the size of the block itself did not wrap to 0xfffffffc;
at most 24 bytes are there even so. -/
theorem kmalloc_krealloc_iff (e : Env) (h : Heap) (hy : Reachable Buddy.system h.sys)
    (hans : ExecAnswers h.sys.st e.allocMem) (n : BitVec 32) :
    (KmallocMeets e n h ↔ n.toNat ≤ 0xfffffff8 ∨ ¬ Obtains e n h) ∧
      ∀ mem n₀, LiveBlock h mem n₀ →
        (KreallocMeets e mem n h ↔
          if longs n ≤ longs n₀ then n.toNat ≤ 24 ∨ (n.toNat ≤ 0xfffffffc ∧ longs n₀ ≠ 0xfffffffc)
          else n.toNat ≤ 0xfffffff8 ∨ ¬ Obtains e n h) := by
  refine ⟨kmallocMeets_iff hy hans, fun mem n₀ hl => ?_⟩
  by_cases hle : longs n ≤ longs n₀
  · rw [if_pos hle]
    exact kreallocMeets_same hy hl hle
  · rw [if_neg hle]
    exact kreallocMeets_moved hy hans hl hle

/-- The first call, with a chunk at 64K. -/
def firstCall : Env where
  allocMem := fun n => if n = Buddy.maxSize then some 65536 else none
  afterAlloc := fun _ m => m
  afterFree := fun _ m => m
  alloc_spares := fun _ _ _ _ _ _ => rfl
  free_spares := fun _ _ _ _ _ _ => rfl

def emptyHeap : Heap :=
  ⟨⟨Buddy.initBuddy ⟨fun _ => 0, fun _ => 0, fun _ => 0, ⟨fun _ => none, fun _ => none⟩⟩, []⟩, fun _ => 0⟩

theorem firstCall_answers : ExecAnswers emptyHeap.sys.st firstCall.allocMem := by
  intro n p h
  change (if n = Buddy.maxSize then some 65536 else none) = some p at h
  split_ifs at h with hn
  cases h
  subst hn
  exact ⟨by decide, by decide, by decide, by simp [emptyHeap, Buddy.initBuddy]⟩

theorem kmalloc_krealloc_hundred :
    (kmalloc firstCall 100 emptyHeap).1 = some 65544 ∧ KmallocMeets firstCall 100 emptyHeap := by
  have hy : Reachable Buddy.system emptyHeap.sys := .init ⟨_, rfl⟩
  exact ⟨by decide, (kmalloc_krealloc_iff firstCall emptyHeap hy firstCall_answers 100).1.mpr
    (.inl (by decide))⟩

/-- `kmalloc (0xfffffff9)` returns memory, in a block of 28 bytes. -/
theorem kmalloc_wraps :
    let r := kmalloc firstCall 0xfffffff9 emptyHeap
    r.1 = some 65544 ∧ r.2.sys.live = [⟨65540, 0, 1⟩] ∧ (⟨65540, 0, 1⟩ : Live).usable = 28 ∧
      ¬ KmallocMeets firstCall 0xfffffff9 emptyHeap := by
  have hy : Reachable Buddy.system emptyHeap.sys := .init ⟨_, rfl⟩
  have hobtains : Obtains firstCall 0xfffffff9 emptyHeap := by
    unfold Obtains
    decide
  refine ⟨by decide, by decide, by decide, fun h => ?_⟩
  rcases (kmallocMeets_iff hy firstCall_answers).mp h with hle | hnone
  · exact absurd hle (by decide)
  · exact hnone hobtains

end Ixemul.Kmalloc
