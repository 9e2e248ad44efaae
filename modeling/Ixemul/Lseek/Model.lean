/-
# Ixemul.Lseek.Model — seeking in files (lseek.c).

The `Seek` of AmigaDOS returns the position before the call and refuses to leave the file; so `lseek` asks
for the position once more after it has moved, and takes a refusal for a seek behind the end, which it makes
good by writing zeros (`__extend_file`).  Files that were read into memory are DTYPE_MEM.

Of AmigaDOS only this is used: `Seek` returns the previous position, or -1 with ERROR_SEEK_ERROR and without
a move; `Write` stores at the position some of the bytes it is given, at least one (`Handler`).  Positions
are LONGs.
-/
import Mathlib.Data.BitVec
import Ixemul.Headers

namespace Ixemul.Lseek

/-! ## AmigaDOS -/

/-- A file and the position of the handle in it. -/
structure DosFile where
  contents : List UInt8
  pos : Nat
  pos_le : pos ≤ contents.length
  size_lt : contents.length < 2 ^ 31

def DosFile.size (f : DosFile) : Nat := f.contents.length

inductive IoErr where
  | none
  | seekError
  | objectTooLarge
  deriving DecidableEq, Repr

/-- OFFSET_BEGINNING, OFFSET_CURRENT and OFFSET_END. -/
inductive Offset where
  | beginning
  | current
  | atEnd
  deriving DecidableEq, Repr

def DosFile.base (f : DosFile) : Offset → Nat
  | .beginning => 0
  | .current => f.pos
  | .atEnd => f.size

/-- What a call of AmigaDOS returns and sets. -/
structure Answer where
  res : Int
  ioErr : IoErr
  file : DosFile

/-- `Seek`. -/
def seek (f : DosFile) (off : Int) (mode : Offset) : Answer :=
  if h : 0 ≤ f.base mode + off ∧ f.base mode + off ≤ f.size then
    have hle : ((f.base mode : Int) + off).toNat ≤ f.contents.length := by
      unfold DosFile.size at h
      omega
    ⟨f.pos, .none, { f with pos := (f.base mode + off).toNat, pos_le := hle }⟩
  else ⟨-1, .seekError, f⟩

/-- How much of what it is given a handler takes with its `k`-th `Write`. -/
structure Handler where
  accept : Nat → Nat → Nat
  accept_pos : ∀ k len, 0 < len → 0 < accept k len
  accept_le : ∀ k len, accept k len ≤ len

/-- `Write`, the `k`-th one. -/
def write (h : Handler) (k : Nat) (f : DosFile) (buf : List UInt8) : Answer :=
  let stored := buf.take (h.accept k buf.length)
  if hfit : f.pos + stored.length < 2 ^ 31 then
    let after := f.contents.take f.pos ++ stored ++ f.contents.drop (f.pos + stored.length)
    have hpos : f.pos + stored.length ≤ after.length := by
      have := f.pos_le
      simp only [after, List.length_append, List.length_take, List.length_drop]
      omega
    have hsize : after.length < 2 ^ 31 := by
      have := f.pos_le
      have := f.size_lt
      simp only [after, List.length_append, List.length_take, List.length_drop]
      omega
    ⟨stored.length, .none, ⟨after, f.pos + stored.length, hpos, hsize⟩⟩
  else ⟨-1, .objectTooLarge, f⟩

/-- What surrounds the call: the handler, and whether `kmalloc` has a block of a given size. -/
structure Env where
  handler : Handler
  kmalloc : Nat → Bool

/-! ## lseek -/

inductive Errno where
  /-- 0 -/
  | none
  | einval
  | espipe
  | enomem
  | eio
  deriving DecidableEq, Repr

/-- `__ioerr_to_errno`, of the codes that occur here; 0 is none of those it knows. -/
def ioerrToErrno : IoErr → Errno
  | .seekError => .espipe
  | .objectTooLarge => .enomem
  | .none => .eio

/-- What a call returns, with `errno` and the file after it. -/
structure Reply (α : Type) where
  ret : Int
  errno : Errno
  file : α

/-- The loop that looks for a buffer, each time of half the size. -/
def getBuffer (kmalloc : Nat → Bool) (bufSize : Nat) : Option Nat :=
  if kmalloc bufSize then some bufSize
  else if bufSize = 0 then none
  else getBuffer kmalloc (bufSize / 2)
termination_by bufSize

/-- The loop that writes zeros.  `res` is what the last `Write` returned; without fuel there is no end to
it. -/
def writeLoop (h : Handler) (addToEof : Nat) :
    (fuel k written bufSize : Nat) → (res : Int) → DosFile → Option (Reply DosFile)
  | 0, _, written, _, res, f => if written < addToEof then none else some ⟨res, .none, f⟩
  | fuel + 1, k, written, bufSize, res, f =>
    if written < addToEof then
      let a := write h k f (List.replicate bufSize 0)
      if a.res < 0 then some ⟨a.res, ioerrToErrno a.ioErr, a.file⟩
      else
        let written := written + a.res.toNat
        let bufSize := if addToEof - written > bufSize then bufSize else addToEof - written
        writeLoop h addToEof fuel (k + 1) written bufSize a.res a.file
    else some ⟨res, .none, f⟩

/-- The size of the first buffer that is asked for. -/
def firstBuffer (addToEof : Nat) : Nat := if addToEof > 32 * 1024 then 32 * 1024 else addToEof

/-- `__extend_file`. -/
def extendFile (env : Env) (fuel : Nat) (f : DosFile) (addToEof : Nat) : Option (Reply DosFile) :=
  match getBuffer env.kmalloc (firstBuffer addToEof) with
  | none => some ⟨-1, .enomem, f⟩
  | some bufSize =>
    match writeLoop env.handler addToEof fuel 0 0 bufSize 0 f with
    | none => none
    | some r =>
      if r.ret < 0 then some r
      else
        let a := seek (seek r.file 0 .atEnd).file 0 .atEnd
        some ⟨a.res, ioerrToErrno a.ioErr, a.file⟩

/-- SEEK_SET, SEEK_CUR and SEEK_END, as `dir - 1` stands for them. -/
def whence (dir : Int) : Option Offset :=
  if dir = 0 then some .beginning
  else if dir = 1 then some .current
  else if dir = 2 then some .atEnd
  else none

/-- `previous_pos`; for SEEK_END the file is moved to its end first. -/
def previousPos (f : DosFile) : Offset → Answer
  | .beginning => ⟨0, .none, f⟩
  | .current => seek f 0 .current
  | .atEnd => seek (seek f 0 .atEnd).file 0 .current

/-- `Seek` to the target, or to the end of the file if it refuses. -/
def seekOrEnd (f : DosFile) (off : Int) (mode : Offset) : Answer :=
  let a := seek f off mode
  if a.res = -1 ∧ a.ioErr = .seekError then seek a.file 0 .atEnd else a

/-- `lseek` on a DTYPE_FILE whose handler is not NIL:. -/
def lseekFile (env : Env) (fuel : Nat) (f : DosFile) (writable : Bool) (off : BitVec 32) (dir : Int) :
    Option (Reply DosFile) :=
  match whence dir with
  | none => some ⟨-1, .einval, f⟩
  | some mode =>
    let prev := previousPos f mode
    let shouldbe := long (prev.res + off.toInt)
    if shouldbe < 0 then some ⟨-1, .einval, prev.file⟩
    else if prev.res ≥ 0 then
      let a := seekOrEnd prev.file off.toInt mode
      if a.res = -1 then some ⟨-1, ioerrToErrno a.ioErr, a.file⟩
      else if prev.res ≠ shouldbe then
        -- find out where we are
        let b := seek a.file 0 .current
        if b.res ≥ 0 ∧ b.res < shouldbe ∧ writable then
          extendFile env fuel b.file (shouldbe - b.res).toNat
        else some ⟨b.res, if b.res = -1 then ioerrToErrno b.ioErr else .none, b.file⟩
      else some ⟨shouldbe, .none, a.file⟩
    else some ⟨-1, ioerrToErrno prev.ioErr, prev.file⟩

/-- A DTYPE_MEM file: `st_size` and `mf_offset`. -/
structure MemFile where
  size : Int
  offset : Int
  offset_nonneg : 0 ≤ offset
  offset_le : offset ≤ size
  size_lt : size < 2 ^ 31

/-- The offset that is asked for, cut off at both ends; an unknown `dir` counts as SEEK_END. -/
def realOff (m : MemFile) (off : BitVec 32) (dir : Int) : Int :=
  let real := if dir = 0 then off.toInt else if dir = 1 then long (m.offset + off.toInt)
    else long (m.size + off.toInt)
  if real < 0 then 0 else if real > m.size then m.size else real

theorem realOff_nonneg (m : MemFile) (off : BitVec 32) (dir : Int) : 0 ≤ realOff m off dir := by
  have := m.offset_nonneg
  have := m.offset_le
  unfold realOff
  dsimp only
  split_ifs <;> omega

theorem realOff_le (m : MemFile) (off : BitVec 32) (dir : Int) : realOff m off dir ≤ m.size := by
  have := m.offset_nonneg
  have := m.offset_le
  unfold realOff
  dsimp only
  split_ifs <;> omega

/-- `lseek` on a DTYPE_MEM; `errno` is left as it is. -/
def lseekMem (m : MemFile) (off : BitVec 32) (dir : Int) : Reply MemFile :=
  ⟨m.offset, .none, { m with
    offset := realOff m off dir
    offset_nonneg := realOff_nonneg m off dir
    offset_le := realOff_le m off dir }⟩

/-- An open file.  A DTYPE_FILE on NIL: has no contents. -/
inductive OpenFile where
  | nil
  | dos (f : DosFile) (writable : Bool)
  | mem (m : MemFile)
  /-- pipes, sockets and terminals -/
  | other

/-- `lseek`, of an open descriptor. -/
def lseek (env : Env) (fuel : Nat) (d : OpenFile) (off : BitVec 32) (dir : Int) : Option (Reply OpenFile) :=
  match d with
  | .nil => some (if off = 0 then ⟨0, .none, .nil⟩ else ⟨-1, .espipe, .nil⟩)
  | .dos f writable =>
    (lseekFile env fuel f writable off dir).map fun r => ⟨r.ret, r.errno, .dos r.file writable⟩
  | .mem m =>
    let r := lseekMem m off dir
    some ⟨r.ret, r.errno, .mem r.file⟩
  | .other => some ⟨-1, .espipe, .other⟩

end Ixemul.Lseek
