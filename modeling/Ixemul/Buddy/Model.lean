/-
# Ixemul.Buddy.Model — the buddy allocator of `library/buddy-alloc.c`.

The allocator cuts 64K chunks obtained from Exec into blocks of `2 ^ k` bytes.  Every block starts with one
longword of header, the bit fields `pool` (0 when the block is free, pool + 1 when it is in use) and
`exec_block` (the chunk's base address, shifted right twice); a free block also holds its bucket number and
two links.  The header of the buddy is found by address arithmetic alone.

Memory is one function per field of `struct free_block`.  Free lists are those of `Ixemul.IxList`, whose
nodes are the addresses `&fb->next`.  What Exec answers to `AllocMem` is a parameter of every call.
-/
import Ixemul.IxList
import Ixemul.Lib.Dyadic

namespace Ixemul.Buddy

open Lib.Links Lib.Dyadic IxList

/-! ## Constants -/

/-- No request for memory can be lower than `2 ^ minLog2`. -/
def minLog2 : Nat := 4
def minSize : Nat := 1 <<< minLog2
/-- The size the buddy system gets memory pieces from Exec in: 64K chunks. -/
def maxLog2 : Nat := 16
def maxSize : Nat := 1 <<< maxLog2
/-- From this size on `b_alloc` goes straight to Exec. -/
def buddyLimit : Nat := 1 <<< (maxLog2 - 5)
def numPools : Nat := 2
/-- The number of buckets of a pool; a whole chunk would be in the bucket after the last. -/
def numBuckets : Nat := maxLog2 - minLog2
/-- `offsetof (struct free_block, next)`: the application's memory starts here. -/
def offsetNext : Nat := 4

/-! ## State -/

/-- Memory, by the fields of `struct free_block`. -/
structure Mem where
  /-- 2 bits: 0 when the block is free, else the pool plus one -/
  pool : Nat → Nat
  /-- 30 bits: the base of the chunk, shifted right twice -/
  execBlock : Nat → Nat
  index : Nat → Int
  /-- the links of the `ixnode` at an address, that is of the block `offsetNext` below it -/
  links : DLinks Nat

structure State where
  mem : Mem
  /-- `free_list[pool].buckets[i]` -/
  buckets : Nat → Nat → DEnds Nat
  /-- the pieces of memory obtained from Exec and not yet handed back, as (address, size) -/
  exec : List (Nat × Nat)
  /-- history variable: those of them that `get_block` asked for, with their pool -/
  chunks : List (Chunk Nat)

namespace Mem

def setPool (m : Mem) (fb v : Nat) : Mem :=
  { m with pool := Function.update m.pool fb (v % 2 ^ 2) }

def setExecBlock (m : Mem) (fb v : Nat) : Mem :=
  { m with execBlock := Function.update m.execBlock fb (v % 2 ^ 30) }

def setIndex (m : Mem) (fb : Nat) (v : Int) : Mem :=
  { m with index := Function.update m.index fb v }

end Mem

/-- A table of two dimensions with one entry replaced. -/
def setAt {α : Type*} (f : Nat → Nat → α) (p i : Nat) (v : α) : Nat → Nat → α :=
  fun p' i' => if p' = p ∧ i' = i then v else f p' i'

@[simp] theorem setAt_self {α : Type*} (f : Nat → Nat → α) (p i : Nat) (v : α) : setAt f p i v p i = v := by
  simp [setAt]

theorem setAt_of_ne {α : Type*} {f : Nat → Nat → α} {p i p' i' : Nat} {v : α}
    (h : ¬(p' = p ∧ i' = i)) : setAt f p i v p' i' = f p' i' := by
  simp [setAt, h]

namespace State

def setBucket (s : State) (free_pool ind : Nat) (r : DLinks Nat × DEnds Nat) : State :=
  { s with
    mem := { s.mem with links := r.1 }
    buckets := setAt s.buckets free_pool ind r.2 }

end State

/-- After `init_buddy`: every bucket of every pool is the empty list. -/
def initBuddy (mem : Mem) : State where
  mem := mem
  buckets := fun _ _ => ixnewlist
  exec := []
  chunks := []

/-! ## Free lists -/

/-- `unlink_block`: reserve the given block, or the first one of bucket `ind` when none is given. -/
def unlinkBlock (s : State) (free_pool ind : Nat) : Option Nat → Option Nat × State
  | none =>
    let r := ixremhead s.mem.links (s.buckets free_pool ind)
    let s' := s.setBucket free_pool ind r.2
    match r.1 with
    | none => (none, s')
    | some node =>
      let fb := node - offsetNext
      (some fb, { s' with mem := s'.mem.setPool fb (free_pool + 1) })
  | some fb =>
    let s' := { s with mem := s.mem.setPool fb (free_pool + 1) }
    let ind := (s'.mem.index fb).toNat
    (some fb, s'.setBucket free_pool ind
      (ixremove s'.mem.links (s'.buckets free_pool ind) (some (fb + offsetNext))))

/-- `link_block`: put the block in front of bucket `ind`. -/
def linkBlock (s : State) (free_pool ind fb : Nat) : State :=
  let s' := { s with mem := (s.mem.setPool fb 0).setIndex fb ind }
  s'.setBucket free_pool ind
    (ixaddhead s'.mem.links (s'.buckets free_pool ind) (some (fb + offsetNext)))

/-- The loop of `log2`, at `pow`: the lower bound is `2 ^ (pow - 1)`, and 0 after the last shift. -/
def log2Loop (size : Nat) : Nat → Nat
  | 0 => 0
  | pow + 1 => if size > 1 <<< pow then pow + 1 else log2Loop size pow

/-- `log2`: the power of two that `size` is rounded up to; it knows the upper bound of its
argument. -/
def log2 (size : Nat) : Nat := log2Loop size maxLog2

/-! ## Splitting and coalescing

Both functions call themselves with `index + 1` until they reach the bucket after the last, so they
recurse on the number `up` of buckets above: `index = numBuckets - up`. -/

/-- `get_block (free_pool, numBuckets - up)`: take the first block of the bucket, or split a block of
the next one.  `allocMem` is what Exec answers. -/
def getBlock (allocMem : Nat → Option Nat) (free_pool : Nat) : Nat → State → Option Nat × State
  | 0, s =>
    match allocMem maxSize with
    | none => (none, s)
    | some fb =>
      (some fb,
        { s with
          mem := (s.mem.setExecBlock fb (fb >>> 2)).setPool fb (free_pool + 1)
          exec := (fb, maxSize) :: s.exec
          chunks := ⟨free_pool, fb⟩ :: s.chunks })
  | up + 1, s =>
    let index := numBuckets - (up + 1)
    match unlinkBlock s free_pool index none with
    | (some fb, s) => (some fb, s)
    | (none, s) =>
      match getBlock allocMem free_pool up s with
      | (none, s) => (none, s)
      | (some fb, s) =>
        -- when splitting a block, the upper buddy is always the one that is freed
        let buddy := fb + 1 <<< (index + minLog2)
        let s := { s with mem := s.mem.setExecBlock buddy (s.mem.execBlock fb) }
        (some fb, linkBlock s free_pool index buddy)

/-- `free_block (free_pool, numBuckets - up, fb)`: put the block on its free list, or recombine it with
its buddy and free the block of twice the size. -/
def freeBlock (free_pool : Nat) : Nat → Nat → State → State
  | 0, fb, s =>
    { s with exec := s.exec.erase (fb, maxSize), chunks := s.chunks.erase ⟨free_pool, fb⟩ }
  | up + 1, fb, s =>
    let index := numBuckets - (up + 1)
    let base := s.mem.execBlock fb <<< 2
    let buddy := ((fb - base) ^^^ (1 <<< (index + minLog2))) + base
    if s.mem.pool buddy ≠ 0 ∨ s.mem.index buddy ≠ index then
      -- too bad, buddy is not on freelist or of wrong size
      linkBlock s free_pool index fb
    else
      let s := (unlinkBlock s free_pool index (some buddy)).2
      freeBlock free_pool up (if fb < buddy then fb else buddy) s

/-! ## The interface -/

/-- The size a request is served with. -/
def roundSize (size : Int) : Nat := if size < minSize then minSize else size.toNat

/-- The request goes straight to Exec. -/
def isLarge (size : Int) : Bool := decide (roundSize size ≥ buddyLimit - offsetNext)

/-- The bucket of a small request. -/
def bucketOf (size : Int) : Nat := log2 (roundSize size + offsetNext) - minLog2

/-- `b_alloc`. -/
def bAlloc (allocMem : Nat → Option Nat) (size : Int) (pool : Nat) (s : State) : Option Nat × State :=
  if size < 0 then
    (none, s)
  else if isLarge size then
    match allocMem (roundSize size) with
    | none => (none, s)
    | some p => (some p, { s with exec := (p, roundSize size) :: s.exec })
  else
    let r := getBlock allocMem pool (numBuckets - bucketOf size) s
    (r.1.map (· + offsetNext), r.2)

/-- `b_free`. -/
def bFree (mem : Nat) (size : Int) (s : State) : State :=
  if isLarge size then
    { s with exec := s.exec.erase (mem, roundSize size) }
  else
    let fb := mem - offsetNext
    freeBlock (s.mem.pool fb - 1) (numBuckets - bucketOf size) fb s

end Ixemul.Buddy
