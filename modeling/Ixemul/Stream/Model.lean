/-
# Ixemul.Stream.Model — byte streams (`stream_read`, `stream_write` and `FIONREAD` of `library/unp.c`).

A `sock_stream` carries the bytes of a pipe or of one direction of an AF_UNIX connection in a circular
buffer. What a call does under the stream's lock is one step (`readSection`, `writeSection`); where it has
to wait it releases the lock, sleeps, takes the lock again and goes on with what is left to do.  `reader`
and `writer` are the offsets of the two pointers.  The lock bits of `flags` and the wakeups are left out.

The length of a call is an `int` that nobody checks, `read` and `write` included: a negative one moves the
pointer back.  What `bcopy` does with a negative count, which it takes for a large one, is not modelled; the
buffer is then as it was.
-/
import Mathlib.Data.BitVec
import Ixemul.Lib.Ring

namespace Ixemul.Stream

open Lib.Ring

def unixSocketSize : Nat := 5120

structure SockStream (α : Type*) where
  buffer : Nat → α
  reader : Int
  writer : Int
  /-- `UNF_NO_READER` -/
  noReader : Bool
  /-- `UNF_NO_WRITER` -/
  noWriter : Bool

variable {α : Type*}

/-- `init_stream`; the buffer is not cleared. -/
def initStream (buffer : Nat → α) : SockStream α := ⟨buffer, 0, 0, false, false⟩

def canRead (ss : SockStream α) : Bool := ss.reader ≠ ss.writer

def canWrite (ss : SockStream α) : Bool :=
  ¬(ss.reader = ss.writer + 1 ∨ (ss.reader = 0 ∧ ss.writer = unixSocketSize - 1))

/-- The value of `errno` on return. -/
inductive Errno where
  /-- what it was -/
  | unchanged
  | zero
  | eagain
  | epipe
  deriving DecidableEq, Repr

/-- How a section ends. -/
inductive Outcome (κ : Type*) where
  /-- the call returns this value -/
  | ret (value : Int) (err : Errno)
  /-- the call sleeps, and goes on from here when it is woken -/
  | sleep (call : κ)
  /-- the loop has not come to an end -/
  | spin

/-! ## `stream_read` -/

/-- A `stream_read` in progress: what has been read into the buffer, and `really_read` and `len`. -/
structure ReadCall (α : Type*) where
  /-- `f->f_flags & FNDELAY` -/
  fndelay : Bool
  got : List α
  reallyRead : Int
  len : Int

/-- Copy up to `avail` bytes from the reader on, without wrapping. -/
def copyOut (avail : Int) (ss : SockStream α) (c : ReadCall α) : SockStream α × ReadCall α :=
  let doRead := if c.len < avail then c.len else avail
  ({ ss with reader := ss.reader + doRead },
    { c with
      got := c.got ++ slice ss.buffer ss.reader.toNat doRead.toNat
      reallyRead := c.reallyRead + doRead
      len := c.len - doRead })

/-- Read till the end of the buffer and wrap around. -/
def readUpper (ss : SockStream α) (c : ReadCall α) : SockStream α × ReadCall α :=
  if ss.reader > ss.writer then
    let r := copyOut (unixSocketSize - ss.reader) ss c
    ({ r.1 with reader := if r.1.reader = unixSocketSize then 0 else r.1.reader }, r.2)
  else
    (ss, c)

/-- Read up to the writer. -/
def readLower (ss : SockStream α) (c : ReadCall α) : SockStream α × ReadCall α :=
  if c.len ≠ 0 ∧ ss.reader < ss.writer then copyOut (ss.writer - ss.reader) ss c else (ss, c)

/-- The loop of `stream_read`, from the moment the stream is locked. -/
def readLoop : Nat → SockStream α → ReadCall α → SockStream α × ReadCall α × Outcome (ReadCall α)
  | 0, ss, c => (ss, c, if c.len = 0 then .ret c.reallyRead .unchanged else .spin)
  | fuel + 1, ss, c =>
    if c.len = 0 then
      (ss, c, .ret c.reallyRead .unchanged)
    else if !canRead ss then
      if c.reallyRead ≠ 0 ∨ ss.noWriter then
        (ss, c, .ret c.reallyRead .zero)
      else if c.fndelay then
        (ss, c, .ret (-1) .eagain)
      else
        (ss, c, .sleep c)
    else
      -- okay, there's something to read from the pipe
      let r := readUpper ss c
      let r := readLower r.1 r.2
      readLoop fuel r.1 r.2

/-- One locked section of `stream_read`; every pass of the loop moves a byte. -/
def readSection (ss : SockStream α) (c : ReadCall α) : SockStream α × ReadCall α × Outcome (ReadCall α) :=
  readLoop c.len.natAbs ss c

/-! ## `stream_write` -/

/-- A `stream_write` in progress: the bytes at `buf`, and `len` and `really_written`. -/
structure WriteCall (α : Type*) where
  fndelay : Bool
  rest : List α
  len : Int
  written : Int

/-- Copy up to `avail` bytes to the writer, without wrapping. -/
def copyIn (avail : Int) (ss : SockStream α) (c : WriteCall α) : SockStream α × WriteCall α :=
  let doWrite := if c.len < avail then c.len else avail
  ({ ss with
      buffer := blit ss.buffer ss.writer.toNat (c.rest.take doWrite.toNat)
      writer := ss.writer + doWrite },
    { c with
      rest := c.rest.drop doWrite.toNat
      len := c.len - doWrite
      written := c.written + doWrite })

/-- Write till the end of the buffer; the last cell stays empty while the reader is at the start. -/
def writeUpper (ss : SockStream α) (c : WriteCall α) : SockStream α × WriteCall α :=
  if ss.writer ≥ ss.reader then
    let avail := unixSocketSize - 1 - ss.writer
    let avail := if ss.reader > 0 then avail + 1 else avail
    let r := copyIn avail ss c
    ({ r.1 with writer := if r.1.writer = unixSocketSize then 0 else r.1.writer }, r.2)
  else
    (ss, c)

/-- Write up to the cell before the reader. -/
def writeLower (ss : SockStream α) (c : WriteCall α) : SockStream α × WriteCall α :=
  if ss.writer + 1 < ss.reader then copyIn (ss.reader - ss.writer - 1) ss c else (ss, c)

/-- The loop of `stream_write`, from the moment the stream is locked. -/
def writeLoop : Nat → SockStream α → WriteCall α → SockStream α × WriteCall α × Outcome (WriteCall α)
  | 0, ss, c => (ss, c, if c.len = 0 then .ret c.written .unchanged else .spin)
  | fuel + 1, ss, c =>
    if c.len = 0 then
      (ss, c, .ret c.written .unchanged)
    else if ss.noReader then
      -- whatever has been written before, the call fails
      (ss, c, .ret (-1) .epipe)
    else if !canWrite ss then
      if c.fndelay then
        if c.written = 0 then (ss, c, .ret (-1) .eagain) else (ss, c, .ret c.written .unchanged)
      else
        (ss, c, .sleep c)
    else
      -- okay, there's some space left to write to the pipe
      let r := writeUpper ss c
      let r := writeLower r.1 r.2
      writeLoop fuel r.1 r.2

/-- One locked section of `stream_write`. -/
def writeSection (ss : SockStream α) (c : WriteCall α) : SockStream α × WriteCall α × Outcome (WriteCall α) :=
  writeLoop c.len.natAbs ss c

/-! ## `FIONREAD` -/

/-- `unp_ioctl (f, FIONREAD, …)`; the result is an `unsigned int`. -/
def fionread (ss : SockStream α) : Nat :=
  let n := if ss.reader < ss.writer then ss.writer - ss.reader
    else if ss.reader > ss.writer then unixSocketSize - (ss.reader - ss.writer)
    else 0
  (n % 2 ^ 32).toNat

end Ixemul.Stream
