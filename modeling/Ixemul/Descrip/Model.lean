/-
# Ixemul.Descrip.Model — descriptors and the global file table.

A used slot of a process's `u_ofile` points to an entry of the file table that all processes share.  The
entry's `f_count` is kept up to date piecemeal: `falloc` sets it to 1, `dup`, `dup2`, `fcntl` and the child
side of `vfork` add to it, and the function behind `f_close` takes from it and releases the entry when it
was the last.  Processes have their own table (`u_parent_userdata` is 0), and files are not INET sockets.

An entry is its index in `ix_file_tab`, with its count and its `f_close`.  Counts are unbounded: the
descriptors of all processes that fit into the address space can be counted by an `int`.  History variables
record the entries handed out and released.
-/
import Mathlib.Data.List.FinRange
import Mathlib.Data.List.Perm.Basic

namespace Ixemul.Descrip

open Function

/-- `NOFILE`: the size of a process's table, and of the file table. -/
def nofile : Nat := 512

/-- A descriptor: a slot of `u_ofile`. -/
abbrev Fd := Fin nofile

/-- An entry of `ix_file_tab`. -/
abbrev FileIx := Fin nofile

/-- All slots of a table, in the order in which the loops go through them. -/
@[irreducible] def slots : List (Fin nofile) := List.finRange nofile

theorem mem_slots (i : Fin nofile) : i ∈ slots := by
  unfold slots
  exact List.mem_finRange i

theorem nodup_slots : slots.Nodup := by
  unfold slots
  exact List.nodup_finRange nofile

inductive Errno where
  | ebadf
  | einval
  | eio
  | emfile
  | enfile
  | espipe
  /-- whatever the file system answered -/
  | other (ioerr : Nat)
  deriving DecidableEq, Repr

/-- The functions that `f_close` may point to. -/
inductive CloseFn where
  /-- `__close`, for files -/
  | close
  /-- `__mclose`, for directories, which are read into memory -/
  | mclose
  /-- `__pclose`, for both ends of a pipe -/
  | pclose
  /-- `unp_close`, for AF_UNIX sockets -/
  | unpClose
  deriving DecidableEq, Repr

structure File where
  count : Int
  close : Option CloseFn

/-- The part of the library base that all processes share. -/
structure Ix where
  fileTab : FileIx → File
  /-- the index of `ix_lastf`, where `falloc` starts to look -/
  lastf : Nat
  /-- history: the entries handed out by `falloc` -/
  handed : List FileIx
  /-- history: the entries released -/
  released : List FileIx

/-- The part of `struct user` that is about descriptors. -/
structure User where
  ofile : Fd → Option FileIx
  /-- `u_pofile`: `UF_EXCLOSE` is the only flag -/
  exclose : Fd → Bool
  lastfile : Nat
  /-- `p_flag & EXECVECLOSE` -/
  execveclose : Bool

namespace Ix

def setFile (k : Ix) (f : FileIx) (v : File) : Ix :=
  { k with fileTab := update k.fileTab f v }

/-- `fp->f_count += d` -/
def addCount (k : Ix) (f : FileIx) (d : Int) : Ix :=
  k.setFile f { k.fileTab f with count := (k.fileTab f).count + d }

/-- `fp->f_close = c` -/
def setClose (k : Ix) (f : FileIx) (c : CloseFn) : Ix :=
  k.setFile f { k.fileTab f with close := some c }

end Ix

namespace User

/-- A process without open files. -/
def empty : User := ⟨fun _ => none, fun _ => false, 0, false⟩

def setOfile (u : User) (fd : Fd) (v : Option FileIx) : User :=
  { u with ofile := update u.ofile fd v }

/-- The descriptor `fd` gets to point to `fp`, with the given flag. -/
def install (u : User) (fd : Fd) (fp : FileIx) (exclose : Bool) : User :=
  { u with
    ofile := update u.ofile fd (some fp)
    exclose := update u.exclose fd exclose
    lastfile := max u.lastfile fd }

end User

/-! ## Closing -/

/-- What the functions behind `f_close` do to the file table: take one off the count, and release the
entry when the test on the new count says so. -/
def dropRef (last : Int → Bool) (k : Ix) (f : FileIx) : Ix :=
  let k := k.addCount f (-1)
  if last (k.fileTab f).count then { k with released := k.released ++ [f] } else k

/-- `__close` keeps the file only while `f_count > 0`. -/
def fileClose : Ix → FileIx → Ix := dropRef (fun n => !decide (n > 0))

def mclose : Ix → FileIx → Ix := dropRef (fun n => decide (n = 0))

def pclose : Ix → FileIx → Ix := dropRef (fun n => decide (n = 0))

def unpClose : Ix → FileIx → Ix := dropRef (fun n => decide (n = 0))

/-- A call through `f_close`. -/
def CloseFn.run : CloseFn → Ix → FileIx → Ix
  | .close => fileClose
  | .mclose => Descrip.mclose
  | .pclose => Descrip.pclose
  | .unpClose => Descrip.unpClose

/-- `close`. -/
def close (k : Ix) (u : User) (fd : Int) : Ix × User × Except Errno Unit :=
  if h : 0 ≤ fd ∧ fd < nofile then
    let fd : Fd := ⟨fd.toNat, by omega⟩
    match u.ofile fd with
    | none => (k, u, .error .ebadf)
    | some f =>
      if u.execveclose && !u.exclose fd then
        -- the call comes from the atexit handler of execve
        (k, u, .ok ())
      else
        -- free the slot in the user table
        let u := u.setOfile fd none
        match (k.fileTab f).close with
        | some c => (c.run k f, u, .ok ())
        | none => (k, u, .error .eio)
  else
    (k, u, .error .ebadf)

/-! ## Allocation -/

/-- `ufalloc`: the first free slot from `want` on. -/
def ufalloc (u : User) (want : Nat) : Except Errno Fd :=
  match (slots.drop want).find? (fun fd => (u.ofile fd).isNone) with
  | some fd => .ok fd
  | none => .error .emfile

/-- The order in which `falloc` looks at the entries: from `ix_lastf` to the end, then from the start. -/
def scanOrder (lastf : Nat) : List FileIx :=
  slots.drop lastf ++ slots.take lastf

/-- `falloc`: an entry with count 0 and the first free descriptor. -/
def falloc (k : Ix) (u : User) : Except Errno (Ix × User × FileIx × Fd) :=
  match ufalloc u 0 with
  | .error e => .error e
  | .ok fd =>
    match (scanOrder k.lastf).find? (fun fp => decide ((k.fileTab fp).count = 0)) with
    | none => .error .enfile
    | some fp =>
      -- `f_close` is left as the last user of the entry had it
      let k' := k.setFile fp { k.fileTab fp with count := 1 }
      .ok ({ k' with lastf := fp + 1, handed := k.handed ++ [fp] }, u.install fd fp false, fp, fd)

/-- What comes of opening the file or directory after `falloc`. -/
inductive Opened where
  | file
  /-- `convert_dir` -/
  | dir
  | failed (e : Errno)

/-- `open`. -/
def openFile (k : Ix) (u : User) (o : Opened) : Ix × User × Except Errno Fd :=
  match falloc k u with
  | .error e => (k, u, .error e)
  | .ok (k, u, f, fd) =>
    match o with
    | .file => (k.setClose f .close, u, .ok fd)
    | .dir => (k.setClose f .mclose, u, .ok fd)
    | .failed e => (k.addCount f (-1), u.setOfile fd none, .error e)

/-- `pipe`. -/
def pipe (k : Ix) (u : User) : Ix × User × Except Errno (Fd × Fd) :=
  match falloc k u with
  | .error _ => (k, u, .error .emfile)
  | .ok (k, u, f1, fd1) =>
    match falloc k u with
    | .error _ =>
      -- the count of the first entry is reset, the slot that points to it is not
      (k.setFile f1 { k.fileTab f1 with count := 0 }, u, .error .emfile)
    | .ok (k, u, f2, fd2) =>
      ((k.setClose f1 .pclose).setClose f2 .pclose, u, .ok (fd1, fd2))

/-- `unp_socket`, which `socket` calls for AF_UNIX and `unp_accept` for a waiting client. -/
def unpSocket (k : Ix) (u : User) : Ix × User × Except Errno Fd :=
  match falloc k u with
  | .error e => (k, u, .error e)
  | .ok (k, u, f, fd) => (k.setClose f .unpClose, u, .ok fd)

/-! ## Sharing -/

/-- The check that `dup`, `dup2` and `fcntl` begin with. -/
def getFile (u : User) (i : Nat) : Except Errno (Fd × FileIx) :=
  if h : i < nofile then
    match u.ofile ⟨i, h⟩ with
    | some fp => .ok (⟨i, h⟩, fp)
    | none => .error .ebadf
  else
    .error .ebadf

/-- `dup`, of a file that is not an INET socket. -/
def dup (k : Ix) (u : User) (i : Nat) : Ix × User × Except Errno Fd :=
  match getFile u i with
  | .error e => (k, u, .error e)
  | .ok (_, fp) =>
    match ufalloc u 0 with
    | .error e => (k, u, .error e)
    | .ok fd => (k.addCount fp 1, u.install fd fp false, .ok fd)

/-- `dup2`. -/
def dup2 (k : Ix) (u : User) (i j : Nat) : Ix × User × Except Errno Fd :=
  match getFile u i with
  | .error e => (k, u, .error e)
  | .ok (_, fp) =>
    if h : j < nofile then
      let fd : Fd := ⟨j, h⟩
      if i = j then
        (k, u, .ok fd)
      else
        let k := match u.ofile fd with
          | some f =>
            match (k.fileTab f).close with
            | some c => c.run k f
            | none => k
          | none => k
        (k.addCount fp 1, u.install fd fp false, .ok fd)
    else
      (k, u, .error .ebadf)

/-- `fcntl (fdes, F_DUPFD, arg)`. -/
def fcntlDupfd (k : Ix) (u : User) (fdes : Nat) (arg : Int) : Ix × User × Except Errno Fd :=
  match getFile u fdes with
  | .error e => (k, u, .error e)
  | .ok (_, fp) =>
    if arg < 0 ∨ arg ≥ nofile then
      (k, u, .error .einval)
    else
      match ufalloc u arg.toNat with
      | .error e => (k, u, .error e)
      | .ok fd => (k.addCount fp 1, u.install fd fp false, .ok fd)

/-- `fcntl (_, F_INTERNALIZE, fp)`: any process may take on the file at this address. -/
def fcntlInternalize (k : Ix) (u : User) (fp : FileIx) : Ix × User × Except Errno Fd :=
  match ufalloc u 0 with
  | .error e => (k, u, .error e)
  | .ok fd => (k.addCount fp 1, u.install fd fp false, .ok fd)

/-! ## Processes -/

/-- The end of `launcher`: count the descriptors of the copied table. -/
def adjustCounts (u : User) (k : Ix) : List Fd → Ix
  | [] => k
  | fd :: fds =>
    adjustCounts u (match u.ofile fd with
      | some f => k.addCount f 1
      | none => k) fds

/-- `vfork`: the child starts with a copy of the parent's table. -/
def vfork (k : Ix) (u : User) : Ix × User := (adjustCounts u k slots, u)

/-- The loop that closes all files. -/
def closeAll (k : Ix) (u : User) : List Fd → Ix × User
  | [] => (k, u)
  | fd :: fds =>
    if (u.ofile fd).isSome then
      let r := close k u (fd : Nat)
      closeAll r.1 r.2.1 fds
    else
      closeAll k u fds

/-- A process exits. -/
def exit (k : Ix) (u : User) : Ix := (closeAll k u slots).1

end Ixemul.Descrip
