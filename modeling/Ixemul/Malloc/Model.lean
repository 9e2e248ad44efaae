/-
# Ixemul.Malloc.Model — malloc and its relatives (malloc.c, without POOLMEM).

Every block that `malloc` hands out lies in a `struct mem_block`: two links, the size, two magic words, the
memory itself, and another magic word behind it.  `memalign` asks for a larger block and returns an address
inside of it; the word before has a mark and the distance from the start of the memory, so that `free` and
`realloc` find the block again.  Sizes are 32-bit words, memory is one function from addresses to bytes.
What `b_alloc` has for a call is a parameter; the links and the count of the memory in use are not modelled.
-/
import Ixemul.Lib.Bytes

namespace Ixemul.Malloc

open Lib.Bytes

def magic1 : BitVec 32 := 0x55555555
def magic2 : BitVec 32 := 0xaaaaaaaa

/-- MEMALIGN_MAGIC -/
def memalignMagic : BitVec 8 := 0xdd

/-- PAGESIZE -/
def pagesize : BitVec 32 := 4096

/-- sizeof (struct mem_block) -/
def memBlockSize : Nat := 24

/-- offsetof (struct mem_block, realblock); `size` is at 8 and `magic` at 12. -/
def realblock : Nat := 20

/-! ## malloc -/

/-- The size that `malloc` makes of the one it is asked for, unless it refuses that. -/
def blockSize (size : BitVec 32) : Option (BitVec 32) :=
  let size := if size = 0 then 4 else size
  if size.toInt ≤ 0 then none else some ((size + 3) &&& ~~~3)

/-- What `malloc` writes to a new block. -/
def initBlock (m : Mem) (block : Nat) (size : BitVec 32) : Mem :=
  let m := write m (block + 8) (be32 size)
  let m := write m (block + 12) (be32 magic1)
  let m := write m (block + 16) (be32 magic1)
  write m (block + realblock + size.toNat) (be32 magic2)

/-- `res` is what `b_alloc` returns for the size and the management information. -/
def malloc (m : Mem) (size : BitVec 32) (res : Option Nat) : Option Nat × Mem :=
  match blockSize size, res with
  | some size, some block => (some (block + realblock), initBlock m block size)
  | _, _ => (none, m)

/-! ## memalign -/

/-- `struct memalign_ptr` as a word: the mark, and 24 bits. -/
def memalignPtr (alignment : BitVec 32) : BitVec 32 := memalignMagic ++ alignment.setWidth 24

/-- The start of the aligned block. -/
def alStart (p : Nat) (alignment : BitVec 32) : BitVec 32 :=
  (BitVec.ofNat 32 p + alignment - 1) &&& -alignment

/-- A word that is returned as a pointer. -/
def pointer (a : BitVec 32) : Option Nat := if a = 0 then none else some a.toNat

def memalign (m : Mem) (alignment size : BitVec 32) (res : Option Nat) : Option Nat × Mem :=
  match malloc m (size + alignment + 4) res with
  | (none, m) => (none, m)
  | (some p, m) =>
    if BitVec.ofNat 32 p &&& (alignment - 1) = 0 then (some p, m)
    else (pointer (alStart p alignment),
      write m (alStart p alignment - 4).toNat (be32 (memalignPtr (alStart p alignment - BitVec.ofNat 32 p))))

def valloc (m : Mem) (size : BitVec 32) (res : Option Nat) : Option Nat × Mem := memalign m pagesize size res

/-! ## free and realloc -/

/-- The block that `free` and `realloc` take a pointer to be in. -/
def findBlock (m : Mem) (mem : Nat) : Nat :=
  if (word m (mem - 4)).extractLsb' 24 8 = memalignMagic
  then mem - realblock - ((word m (mem - 4)).extractLsb' 0 24).toNat else mem - realblock

/-- block->size -/
def sizeField (m : Mem) (block : Nat) : BitVec 32 := word m (block + 8)

/-- The tests on the magic words. -/
def Valid (m : Mem) (block : Nat) : Prop :=
  block % 2 = 0 ∧ word m (block + 12) = magic1 ∧ word m (block + 16) = magic1 ∧
    word m (block + realblock + (sizeField m block).toNat) = magic2

instance (m : Mem) (block : Nat) : Decidable (Valid m block) := inferInstanceAs (Decidable (_ ∧ _))

/-- What a call comes to: the pointer it returns, the block it gives to `b_free`, and the memory.  `panic`
is set where a magic word was wrong. -/
structure Done where
  ret : Option Nat
  freed : Option Nat
  mem : Mem
  panic : Bool

def free (m : Mem) : Option Nat → Done
  | none => ⟨none, none, m, false⟩
  | some mem =>
    if Valid m (findBlock m mem) then ⟨none, some (findBlock m mem), m, false⟩ else ⟨none, none, m, true⟩

/-- The larger block of `realloc`: as many bytes are copied as the old block has, from the pointer on. -/
def moveBlock (m : Mem) (mem block : Nat) (new : Option Nat × Mem) : Done :=
  match new with
  | (none, _) => ⟨none, none, m, false⟩
  | (some res, m) => ⟨some res, some block, write m res (read m mem (sizeField m block).toNat), false⟩

/-- `res` is what `b_alloc` returns if `malloc` is called. -/
def realloc (m : Mem) (mem : Option Nat) (size : BitVec 32) (res : Option Nat) : Done :=
  match mem with
  | none => ⟨(malloc m size res).1, none, (malloc m size res).2, false⟩
  | some mem =>
    if size = 0 then free m (some mem)
    else if ¬ Valid m (findBlock m mem) then ⟨none, none, m, true⟩
    else if size ≤ sizeField m (findBlock m mem) then ⟨some mem, none, m, false⟩
    else moveBlock m mem (findBlock m mem) (malloc m size res)

end Ixemul.Malloc
