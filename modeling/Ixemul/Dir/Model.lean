/-
# Ixemul.Dir.Model — directories as files in memory (convert_dir.c, __mread.c, lseek.c, readdir.c).

`open` of a directory makes a file of it that lies in memory: `add_item` appends a record for every entry to
a buffer that grows by BUFINCR, which becomes the contents of a DTYPE_MEM file.  `readdir` reads a record
with four calls of `read`, `telldir` and `seekdir` are calls of `lseek`.  A record is the key, the flag for
directories and the length of the name, a word each, and the name, padded with a zero to an even length.

An allocation of 2^31 bytes or more fails, so that offsets are positive; they are natural numbers here.
-/
import Ixemul.Kmalloc

namespace Ixemul.Dir

open Lib.Bytes

/-! ## Building the file -/

/-- What `add_item` is given: the key, whether it is a directory, and the name up to its NUL. -/
structure Entry where
  key : BitVec 32
  isDir : BitVec 32
  name : List Byte

/-- BUFINCR -/
def bufincr : Nat := 512

/-- sizeof (struct file_dir) -/
def fileDirSize : Nat := 12

/-- `struct buffer`: `bp` is how far `bp` is from `buf`, `bend` is `bufSize` from it. -/
structure Buffer where
  buf : Mem
  bp : Nat
  bufSize : Nat

/-- `krealloc` to a larger size.  `alloc` says for each size whether there is memory, and what it holds. -/
def krealloc (alloc : Nat → Option Mem) (b : Buffer) (size : Nat) : Option Buffer :=
  (alloc size).map fun held =>
    { b with buf := fun i => if i < b.bufSize then b.buf i else held i, bufSize := size }

/-- It is `krealloc` of `Ixemul.Kmalloc`, where that does what is asked of it: a buffer that shows the old
block, reallocated with what the new one holds, shows the new one. -/
theorem krealloc_shows {env : Kmalloc.Env} {h : Kmalloc.Heap} {mem mem' : Nat} {n : BitVec 32} {b : Buffer}
    (hmeets : Kmalloc.KreallocMeets env mem n h)
    (hres : (Kmalloc.krealloc env (some mem) n h).1 = some mem')
    (hold : b.bufSize ≤ (Kmalloc.sizeField h mem).toNat)
    (hbuf : ∀ i < b.bufSize, b.buf i = h.mem (mem + i)) :
    let m := (Kmalloc.krealloc env (some mem) n h).2.mem
    ∃ b', krealloc (fun _ => some fun i => m (mem' + i)) b n.toNat = some b' ∧
      ∀ i < n.toNat, b'.buf i = m (mem' + i) := by
  refine ⟨_, rfl, fun i hin => ?_⟩
  obtain ⟨-, hkept⟩ := hmeets mem' hres
  by_cases hi : i < b.bufSize
  · -- the bytes of the old block were copied
    have hall := List.map_inj_left.mp hkept i (List.mem_range.mpr (lt_min (by omega) hin))
    exact (if_pos hi).trans ((hbuf i hi).trans hall.symm)
  · exact if_neg hi

/-- `fd_namelen`, padded to even size. -/
def namelen (len : Nat) : Nat := if len % 2 = 1 then len + 1 else len

/-- `add_item` from the record on. -/
def putItem (b : Buffer) (e : Entry) : Buffer :=
  let len := e.name.length
  let m := write b.buf b.bp (be32 e.key)
  let m := write m (b.bp + 4) (be32 e.isDir)
  let m := write m (b.bp + 8) (be32 (BitVec.ofNat 32 len))
  let m := if len % 2 = 1
    then write (write m (b.bp + fileDirSize + len) [0]) (b.bp + 8) (be32 (BitVec.ofNat 32 (len + 1))) else m
  let m := write m (b.bp + fileDirSize) e.name
  { b with buf := m, bp := b.bp + (namelen len + fileDirSize) }

def addItem (alloc : Nat → Option Mem) (b : Buffer) (e : Entry) : Option Buffer :=
  if b.bp + (e.name.length + 2 + fileDirSize) ≥ b.bufSize
  then (krealloc alloc b (b.bufSize + bufincr)).map (putItem · e)
  else some (putItem b e)

/-- The entries of a directory, one after the other. -/
def addItems (alloc : Nat → Option Mem) : Buffer → List Entry → Option Buffer
  | b, [] => some b
  | b, e :: es => (addItem alloc b e).bind fun b' => addItems alloc b' es

/-- The three pointers are NULL before the first entry. -/
def Buffer.null (m : Mem) : Buffer := ⟨m, 0, 0⟩

/-! ## The file -/

/-- A DTYPE_MEM file. -/
structure MemFile where
  mfBuffer : Mem
  stSize : Nat
  mfOffset : Nat
  inside : mfOffset ≤ stSize

/-- The file that `convert_dir` makes of the buffer. -/
def Buffer.file (b : Buffer) : MemFile := ⟨b.buf, b.bp, 0, Nat.zero_le _⟩

/-- How much `__mread` reads. -/
def MemFile.realLen (f : MemFile) (len : Nat) : Nat :=
  if f.stSize - f.mfOffset < len then f.stSize - f.mfOffset else len

theorem MemFile.realLen_le (f : MemFile) (len : Nat) : f.mfOffset + f.realLen len ≤ f.stSize := by
  have := f.inside
  unfold realLen
  split <;> omega

/-- `__mread`; what it returns is the length of the list. -/
def mread (f : MemFile) (len : Nat) : List Byte × MemFile :=
  (read f.mfBuffer f.mfOffset (f.realLen len),
    ⟨f.mfBuffer, f.stSize, f.mfOffset + f.realLen len, f.realLen_le len⟩)

inductive Whence where
  | set
  | incr
  | xtnd

def MemFile.realOff (f : MemFile) (off : Int) : Whence → Int
  | .set => off
  | .incr => f.mfOffset + off
  | .xtnd => f.stSize + off

/-- The bounds that `lseek` forces on an offset. -/
def clip (size : Nat) (off : Int) : Nat := if off < 0 then 0 else if off > size then size else off.toNat

theorem clip_le (size : Nat) (off : Int) : clip size off ≤ size := by
  unfold clip
  split_ifs <;> omega

/-- `lseek` on a file in memory.  It returns where the file was, not where it is. -/
def lseek (f : MemFile) (off : Int) (dir : Whence) : Nat × MemFile :=
  (f.mfOffset, ⟨f.mfBuffer, f.stSize, clip f.stSize (f.realOff off dir), clip_le ..⟩)

/-! ## Reading the directory -/

def dtDir : BitVec 8 := 4
def dtReg : BitVec 8 := 8

/-- `struct dirent`.  Of `d_name`, 256 bytes are there. -/
structure Dirent where
  dFileno : BitVec 32
  dReclen : BitVec 16
  dType : BitVec 8
  dNamlen : BitVec 8
  dName : Mem

/-- DIR, with the file of its descriptor. -/
structure DIR where
  file : MemFile
  ddEnt : Dirent

/-- What `read` of four bytes into a word comes to. -/
structure WordRead where
  got : Nat
  word : BitVec 32
  file : MemFile

/-- The bytes that are read go over those the word had. -/
def readWord (f : MemFile) (old : BitVec 32) : WordRead where
  got := (mread f 4).1.length
  word := ofBe32 ((mread f 4).1 ++ (be32 old).drop (mread f 4).1.length)
  file := (mread f 4).2

/-- `readdir` from the name on; `l` is its length in the record. -/
def readName (d : DIR) (l : Nat) : Bool × DIR :=
  let dName := write d.ddEnt.dName l [0]
  let r := mread d.file l
  if r.1.length = 0 then (false, ⟨r.2, { d.ddEnt with dName }⟩)
  else
    let dName := write dName 0 r.1
    let dNamlen := BitVec.ofNat 8 l
    let dNamlen := if dName (l - 1) ≠ 0 then dNamlen + 1 else dNamlen
    (true, ⟨r.2, { d.ddEnt with dName, dReclen := BitVec.ofNat 16 (l + 8), dNamlen := dNamlen - 1 }⟩)

/-- `readdir`: whether it returns an entry, which is then in `ddEnt`.  `l` is what its variable `l` holds
before anything was read into it. -/
def readdir (l : BitVec 32) (d : DIR) : Bool × DIR :=
  let fileno := readWord d.file d.ddEnt.dFileno
  let d : DIR := ⟨fileno.file, { d.ddEnt with dFileno := fileno.word }⟩
  if fileno.got = 0 then (false, d)
  else
    let isDir := readWord d.file l
    let d : DIR := ⟨isDir.file, d.ddEnt⟩
    if isDir.got = 0 then (false, d)
    else
      let d : DIR := ⟨d.file, { d.ddEnt with dType := if isDir.word ≠ 0 then dtDir else dtReg }⟩
      let len := readWord d.file isDir.word
      let d : DIR := ⟨len.file, d.ddEnt⟩
      if len.got = 0 then (false, d) else readName d len.word.toNat

def telldir (d : DIR) : Nat × DIR := ((lseek d.file 0 .incr).1, { d with file := (lseek d.file 0 .incr).2 })

def seekdir (d : DIR) (offset : Nat) : DIR := { d with file := (lseek d.file offset .set).2 }

/-- The entries that `readdir` returns before it returns 0, if it does so within `fuel` calls.  `junk` is
what the variable `l` of each call holds. -/
def readAll (junk : DIR → BitVec 32) : Nat → DIR → Option (List Dirent)
  | 0, _ => none
  | fuel + 1, d =>
    if (readdir (junk d) d).1 then
      (readAll junk fuel (readdir (junk d) d).2).map ((readdir (junk d) d).2.ddEnt :: ·)
    else some []

/-- Some calls of `readdir`, whatever they return. -/
def readSome (junk : DIR → BitVec 32) : Nat → DIR → DIR
  | 0, d => d
  | n + 1, d => readSome junk n (readdir (junk d) d).2

end Ixemul.Dir
