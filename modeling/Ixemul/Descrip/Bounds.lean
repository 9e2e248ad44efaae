/-
# Ixemul.Descrip.Bounds — the calls that take a descriptor, and where they look before they check it.

`read`, `write`, `close`, `fcntl`, `fstat`, `lseek` and `ftruncate` take any `int`.  `read`, `write`,
`lseek` and `ftruncate` load `u_ofile[fd]` before they test `fd`; `fstat` does so too, and never tests for a
negative `fd`; `fcntl` tests for a large `fdes` before it loads, and never for a negative one; `close` tests
before it looks.

What an array has at an index outside is whatever lies there in memory: the tables are functions of the
whole `int`.  A thread child works on the tables of its parent (`u_parent_userdata`).
-/
import Ixemul.Descrip.Model
import Ixemul.Lib.Logged

namespace Ixemul.Descrip.Bounds

open Lib Lib.Logged

/-! ## Tables and files -/

/-- Whose tables: those of the process itself, or of the parent of a thread child. -/
inductive Who where
  | own
  | parent
  deriving DecidableEq, Repr

inductive Arr where
  | ofile
  | pofile
  deriving DecidableEq, Repr

/-- An access to an element of one of the arrays. -/
structure Access where
  who : Who
  arr : Arr
  index : Int
  deriving DecidableEq, Repr

/-- `f_type`, zero before a file is opened. -/
inductive FileType where
  | none
  | file
  | pipe
  | mem
  | taskFile
  | socket
  | usocket
  | tty
  deriving DecidableEq, Repr

/-- Of a `struct file`, what the calls look at: which of the functions are there, type, flags and count. -/
structure FileInfo where
  read : Bool
  write : Bool
  close : Bool
  ioctl : Bool
  type : FileType
  flags : BitVec 32
  count : Int

/-- Of a `struct user`, the tables and the high-water mark.  A file is its address. -/
structure Tables where
  ofile : Int → Option Nat
  pofile : Int → BitVec 8
  lastfile : Int

structure Process where
  own : Tables
  /-- `u_parent_userdata` -/
  parent : Option Tables
  file : Nat → FileInfo
  /-- `p_flag & EXECVECLOSE` -/
  execveclose : Bool

namespace Process

/-- Whose tables the calls work on. -/
def who (p : Process) : Who := if p.parent.isSome then .parent else .own

def tables (p : Process) : Who → Tables
  | .own => p.own
  | .parent => p.parent.getD p.own

def setTables (p : Process) (t : Tables) : Who → Process
  | .own => { p with own := t }
  | .parent => { p with parent := some t }

def setFile (p : Process) (f : Nat) (i : FileInfo) : Process :=
  { p with file := Function.update p.file f i }

end Process

/-- A call in progress. -/
abbrev Call (α : Type) := Logged Access Process α

def loadOfile (who : Who) (i : Int) : Call (Option Nat) :=
  load ⟨who, .ofile, i⟩ (fun p => (p.tables who).ofile i)

def storeOfile (who : Who) (i : Int) (f : Option Nat) : Call Unit :=
  store ⟨who, .ofile, i⟩ (fun p =>
    p.setTables { p.tables who with ofile := Function.update (p.tables who).ofile i f } who)

def loadPofile (who : Who) (i : Int) : Call (BitVec 8) :=
  load ⟨who, .pofile, i⟩ (fun p => (p.tables who).pofile i)

def storePofile (who : Who) (i : Int) (b : BitVec 8) : Call Unit :=
  store ⟨who, .pofile, i⟩ (fun p =>
    p.setTables { p.tables who with pofile := Function.update (p.tables who).pofile i b } who)

/-- `f->f_count++` -/
def addCount (f : Nat) : Call Unit :=
  change (fun p => p.setFile f { p.file f with count := (p.file f).count + 1 })

/-! ## The calls -/

inductive Reply where
  /-- -1, with errno -/
  | fail (e : Errno)
  | ret (v : Int)
  /-- the call goes on with the file: it calls its function, or works on it itself -/
  | work (f : Nat)
  deriving DecidableEq, Repr

/-- `fd >= 0 && fd < NOFILE` -/
def InTable (fd : Int) : Prop := 0 ≤ fd ∧ fd < nofile

instance (fd : Int) : Decidable (InTable fd) := inferInstanceAs (Decidable (_ ∧ _))

/-- The test `fd >= 0 && fd < NOFILE && f`, of an entry that was loaded. -/
def checked (fd : Int) (f : Option Nat) : Option Nat := if InTable fd then f else none

/-- What `read`, `write`, `lseek` and `ftruncate` have in common: load, test, go on with the file. -/
def withFile (fd : Int) (go : FileInfo → Nat → Reply) : Call Reply := do
  let who ← look Process.who
  let f ← loadOfile who fd
  match checked fd f with
  | none => pure (.fail .ebadf)
  | some f => look (fun p => go (p.file f) f)

def read (fd : Int) : Call Reply :=
  withFile fd (fun i f => if i.read then .work f else .fail .eio)

def write (fd : Int) : Call Reply :=
  withFile fd (fun i f => if i.write then .work f else .fail .eio)

def lseek (fd : Int) : Call Reply :=
  withFile fd (fun i f => if i.type = .file ∨ i.type = .mem then .work f else .fail .espipe)

def ftruncate (fd : Int) : Call Reply :=
  withFile fd (fun i f => if i.type = .file then .work f else .fail .espipe)

/-- `fstat`; the test on `fdes` has one side only. -/
def fstat (fdes : Int) : Call Reply := do
  let who ← look Process.who
  let fp ← loadOfile who fdes
  match (if fdes ≥ nofile then none else fp) with
  | none => pure (.fail .ebadf)
  | some fp => pure (.work fp)

/-- Is this the atexit handler of `execve`, for a descriptor that stays open? -/
def skipped (fd : Int) : Call Bool := do
  let execveclose ← look Process.execveclose
  if execveclose then
    let f ← loadOfile .own fd
    if f.isSome then
      let flags ← loadPofile .own fd
      pure (flags &&& 1 == 0)
    else pure false
  else pure false

/-- `close`. -/
def close (fd : Int) : Call Reply := do
  let who ← look Process.who
  if InTable fd then
    let f ← loadOfile who fd
    match f with
    | none => pure (.fail .ebadf)
    | some f =>
      let skip ← skipped fd
      if skip then pure (.ret 0)
      else
        -- free the slot in the user table
        storeOfile who fd none
        look (fun p => if (p.file f).close then .work f else .fail .eio)
  else pure (.fail .ebadf)

/-- The loop of `ufalloc`, over the slots it may look at. -/
def ufallocLoop (who : Who) : List Nat → Call (Option Nat)
  | [] => pure none
  | want :: rest => do
    let f ← loadOfile who want
    if f.isNone then
      storePofile who want 0
      change (fun p => p.setTables
        { p.tables who with lastfile := max (p.tables who).lastfile want } who)
      pure (some want)
    else ufallocLoop who rest

/-- `ufalloc`. -/
def ufalloc (want : Nat) : Call (Option Nat) := do
  let who ← look Process.who
  ufallocLoop who (List.range' want (nofile - want))

/-- `ioctl`, which looks into the tables of the process itself. -/
def ioctl (fd : Int) : Call Reply := do
  let f ← loadOfile .own fd
  match checked fd f with
  | none => pure (.fail .ebadf)
  | some f => look (fun p => if (p.file f).ioctl then .work f else .fail .eio)

def fDupfd : Int := 0
def fGetfd : Int := 1
def fSetfd : Int := 2
def fGetfl : Int := 3
def fSetfl : Int := 4
def fInternalize : Int := 4242
def fExternalize : Int := 4243

/-- `FAPPEND|FASYNC|FFSYNC|FNONBLOCK` -/
def fcntlflags : BitVec 32 := 0x2144

/-- `F_INTERNALIZE`: a new descriptor for the file `fp`. -/
def internalize (who : Who) (fp : Nat) : Call Reply := do
  let i ← ufalloc 0
  match i with
  | none => pure (.fail .emfile)
  | some i => do
    storeOfile who i (some fp)
    storePofile who i 0
    addCount fp
    pure (.ret i)

/-- `F_DUPFD`. -/
def dupfd (who : Who) (fdes : Int) (fp : Nat) (arg : Int) : Call Reply :=
  if arg < 0 ∨ arg ≥ nofile then pure (.fail .einval)
  else do
    let i ← ufalloc arg.toNat
    match i with
    | none => pure (.fail .emfile)
    | some i => do
      storeOfile who i (some fp)
      let pop ← loadPofile who fdes
      storePofile who i (pop &&& ~~~1)
      addCount fp
      pure (.ret i)

/-- `fcntl` on the file `fp` of descriptor `fdes`. -/
def fcntlFile (who : Who) (fdes : Int) (fp : Nat) (cmd arg : Int) : Call Reply :=
  if cmd = fDupfd then dupfd who fdes fp arg
  else if cmd = fGetfd then do
    let pop ← loadPofile who fdes
    pure (.ret (pop &&& 1).toNat)
  else if cmd = fSetfd then do
    let pop ← loadPofile who fdes
    storePofile who fdes ((pop &&& ~~~1) ||| (BitVec.ofInt 8 arg &&& 1))
    pure (.ret 0)
  else if cmd = fGetfl then look (fun p => .ret ((p.file fp).flags - 1).toInt)
  else if cmd = fSetfl then do
    change (fun p => p.setFile fp { p.file fp with
      flags := ((p.file fp).flags &&& ~~~fcntlflags) ||| ((BitVec.ofInt 32 arg + 1) &&& fcntlflags) })
    let type ← look (fun p => (p.file fp).type)
    if type = .socket then
      -- FIOASYNC and FIONBIO
      let _ ← ioctl fdes
      let _ ← ioctl fdes
      pure (.ret 0)
    else pure (.ret 0)
  else if cmd = fExternalize then pure (.ret fp)
  else pure (.fail .einval)

/-- `fcntl`; for `F_INTERNALIZE` the argument is the address of a file. -/
def fcntl (fdes cmd arg : Int) : Call Reply := do
  let who ← look Process.who
  if cmd = fInternalize then internalize who arg.toNat
  else if fdes ≥ nofile then pure (.fail .ebadf)
  else do
    let fp ← loadOfile who fdes
    match fp with
    | none => pure (.fail .ebadf)
    | some fp => fcntlFile who fdes fp cmd arg

/-- The calls of this module. -/
inductive DescCall where
  | read
  | write
  | close
  | fcntl (cmd arg : Int)
  | fstat
  | lseek
  | ftruncate
  deriving DecidableEq, Repr

def DescCall.run (fd : Int) : DescCall → Call Reply
  | .read => Bounds.read fd
  | .write => Bounds.write fd
  | .close => Bounds.close fd
  | .fcntl cmd arg => Bounds.fcntl fd cmd arg
  | .fstat => Bounds.fstat fd
  | .lseek => Bounds.lseek fd
  | .ftruncate => Bounds.ftruncate fd

/-! ## A descriptor of the table -/

/-- The access is inside the array. -/
def InBounds (a : Access) : Prop := InTable a.index

theorem inTable_of_lt {i : Nat} (h : i < nofile) : InTable i := by
  unfold InTable
  omega

/-- All accesses of the call are inside, whatever the process, and its result meets `post`. -/
def Stays {α : Type} (m : Call α) (post : α → Prop) : Prop :=
  Safe InBounds (fun _ => True) m (fun x _ => post x)

section

variable {α β : Type} {who : Who} {fd : Int} {post : α → Prop}

theorem stays_pure {x : α} (h : post x) : Stays (pure x : Call α) post :=
  Safe.pure (fun _ _ => h)

theorem stays_bind {m : Call α} {f : α → Call β} {mid : α → Prop} {post : β → Prop} (hm : Stays m mid)
    (hf : ∀ x, mid x → Stays (f x) post) : Stays (m >>= f) post :=
  Safe.bind hm (fun x p hx => hf x hx p trivial)

theorem stays_look (f : Process → α) : Stays (look f : Call α) (fun _ => True) :=
  Safe.look (fun _ _ => trivial)

theorem stays_change (f : Process → Process) : Stays (change f : Call Unit) (fun _ => True) :=
  Safe.change (fun _ _ => trivial)

theorem stays_load {a : Access} {f : Process → α} (h : InBounds a) : Stays (load a f) (fun _ => True) :=
  Safe.load h (fun _ _ => trivial)

theorem stays_store {a : Access} {f : Process → Process} (h : InBounds a) :
    Stays (store a f) (fun _ => True) :=
  Safe.store h (fun _ _ => trivial)

theorem stays_withFile (h : InTable fd) (go : FileInfo → Nat → Reply) :
    Stays (withFile fd go) (fun _ => True) := by
  refine stays_bind (stays_look _) fun who _ => stays_bind (stays_load h) fun f _ => ?_
  split
  · exact stays_pure trivial
  · exact stays_look _

theorem stays_fstat (h : InTable fd) : Stays (fstat fd) (fun _ => True) := by
  refine stays_bind (stays_look _) fun who _ => stays_bind (stays_load h) fun f _ => ?_
  split <;> exact stays_pure trivial

theorem stays_skipped (h : InTable fd) : Stays (skipped fd) (fun _ => True) := by
  refine stays_bind (stays_look _) fun execveclose _ => ?_
  split
  · refine stays_bind (stays_load h) fun f _ => ?_
    split
    · exact stays_bind (stays_load h) fun flags _ => stays_pure trivial
    · exact stays_pure trivial
  · exact stays_pure trivial

theorem stays_close (fd : Int) : Stays (close fd) (fun _ => True) := by
  refine stays_bind (stays_look _) fun who _ => ?_
  split
  · rename_i h
    refine stays_bind (stays_load h) fun f _ => ?_
    split
    · exact stays_pure trivial
    · refine stays_bind (stays_skipped h) fun skip _ => ?_
      split
      · exact stays_pure trivial
      · exact stays_bind (stays_store h) fun _ _ => stays_look _
  · exact stays_pure trivial

theorem stays_ufallocLoop {ws : List Nat} (h : ∀ w ∈ ws, w < nofile) :
    Stays (ufallocLoop who ws) (fun i => ∀ w, i = some w → w < nofile) := by
  induction ws with
  | nil => exact stays_pure fun w hw => by cases hw
  | cons want rest ih =>
    have hwant : want < nofile := h want List.mem_cons_self
    have hin : InTable want := inTable_of_lt hwant
    refine stays_bind (stays_load hin) fun f _ => ?_
    split
    · refine stays_bind (stays_store hin) fun _ _ => stays_bind (stays_change _) fun _ _ => ?_
      refine stays_pure fun w hw => ?_
      cases hw
      exact hwant
    · exact ih fun w hw => h w (List.mem_cons_of_mem _ hw)

theorem stays_ufalloc (want : Nat) : Stays (ufalloc want) (fun i => ∀ w, i = some w → w < nofile) := by
  refine stays_bind (stays_look _) fun who _ => stays_ufallocLoop fun w hw => ?_
  obtain ⟨hfrom, hto⟩ := List.mem_range'_1.mp hw
  omega

theorem stays_ioctl (h : InTable fd) : Stays (ioctl fd) (fun _ => True) := by
  refine stays_bind (stays_load h) fun f _ => ?_
  split
  · exact stays_pure trivial
  · exact stays_look _

theorem stays_internalize (who : Who) (fp : Nat) : Stays (internalize who fp) (fun _ => True) := by
  refine stays_bind (stays_ufalloc 0) fun i hi => ?_
  split
  · exact stays_pure trivial
  · rename_i i
    have hin : InTable i := inTable_of_lt (hi i rfl)
    refine stays_bind (stays_store hin) fun _ _ => stays_bind (stays_store hin) fun _ _ => ?_
    exact stays_bind (stays_change _) fun _ _ => stays_pure trivial

theorem stays_dupfd (h : InTable fd) (fp : Nat) (arg : Int) :
    Stays (dupfd who fd fp arg) (fun _ => True) := by
  unfold dupfd
  split
  · exact stays_pure trivial
  · refine stays_bind (stays_ufalloc _) fun i hi => ?_
    split
    · exact stays_pure trivial
    · rename_i i
      have hin : InTable i := inTable_of_lt (hi i rfl)
      refine stays_bind (stays_store hin) fun _ _ => stays_bind (stays_load h) fun pop _ => ?_
      refine stays_bind (stays_store hin) fun _ _ => ?_
      exact stays_bind (stays_change _) fun _ _ => stays_pure trivial

theorem stays_fcntlFile (h : InTable fd) (fp : Nat) (cmd arg : Int) :
    Stays (fcntlFile who fd fp cmd arg) (fun _ => True) := by
  unfold fcntlFile
  split_ifs
  · exact stays_dupfd h fp arg
  · exact stays_bind (stays_load h) fun pop _ => stays_pure trivial
  · refine stays_bind (stays_load h) fun pop _ => ?_
    exact stays_bind (stays_store h) fun _ _ => stays_pure trivial
  · exact stays_look _
  · refine stays_bind (stays_change _) fun _ _ => stays_bind (stays_look _) fun type _ => ?_
    split
    · refine stays_bind (stays_ioctl h) fun _ _ => ?_
      exact stays_bind (stays_ioctl h) fun _ _ => stays_pure trivial
    · exact stays_pure trivial
  · exact stays_pure trivial
  · exact stays_pure trivial

theorem stays_fcntl {cmd : Int} (h : cmd = fInternalize ∨ 0 ≤ fd) (arg : Int) :
    Stays (fcntl fd cmd arg) (fun _ => True) := by
  refine stays_bind (stays_look _) fun who _ => ?_
  split_ifs with hcmd hlarge
  · exact stays_internalize who _
  · exact stays_pure trivial
  · have hin : InTable fd := ⟨h.resolve_left hcmd, not_le.mp hlarge⟩
    refine stays_bind (stays_load hin) fun fp _ => ?_
    split
    · exact stays_pure trivial
    · exact stays_fcntlFile hin _ cmd arg

end

/-! ## All calls, all descriptors -/

/-- No access is outside of the arrays, and a descriptor outside of the table is refused with EBADF; where
`F_INTERNALIZE` is asked for there is none to refuse. -/
def Meets (c : DescCall) (fd : Int) (p : Process) : Prop :=
  (∀ a ∈ accesses (c.run fd) p, InBounds a) ∧
    (¬ InTable fd → (∀ arg, c ≠ .fcntl fInternalize arg) → result (c.run fd) p = .fail .ebadf)

/-- The calls that test a descriptor outside of the table before they use it. -/
def TestsFirst (fd : Int) : DescCall → Prop
  | .close => True
  | .fcntl cmd _ => cmd = fInternalize ∨ (nofile : Int) ≤ fd
  | _ => False

section

variable {c : DescCall} {fd : Int} {p : Process}

theorem Stays.inside {α : Type} {m : Call α} {post : α → Prop} (h : Stays m post) :
    ∀ a ∈ accesses m p, InBounds a :=
  (h p trivial).1

theorem stays_run (h : InTable fd) (c : DescCall) : Stays (c.run fd) (fun _ => True) := by
  cases c with
  | read | write | lseek | ftruncate => exact stays_withFile h _
  | close => exact stays_close fd
  | fcntl cmd arg => exact stays_fcntl (.inr h.1) arg
  | fstat => exact stays_fstat h

theorem run_looks (hc : ¬ TestsFirst fd c) : ⟨p.who, .ofile, fd⟩ ∈ accesses (c.run fd) p := by
  cases c with
  | read | write | lseek | ftruncate =>
    show _ ∈ accesses (withFile fd _) p
    simp [withFile, loadOfile]
  | close => exact absurd trivial hc
  | fcntl =>
    obtain ⟨hcmd, hfd⟩ := not_or.mp hc
    simp [DescCall.run, fcntl, loadOfile, hcmd, hfd]
  | fstat => simp [DescCall.run, fstat, loadOfile]

end

/-- **A call meets the contract for exactly the descriptors of the table and those that it tests before it
looks**: none outside for `read`, `write`, `fstat`, `lseek` and `ftruncate`, the large ones for `fcntl`, all
for `close`. -/
theorem meets_iff (c : DescCall) (fd : Int) (p : Process) : Meets c fd p ↔ InTable fd ∨ TestsFirst fd c := by
  constructor
  · rintro ⟨hin, -⟩
    by_contra hnot
    obtain ⟨hfd, htests⟩ := not_or.mp hnot
    exact hfd (hin _ (run_looks htests))
  · intro h
    by_cases hfd : InTable fd
    · exact ⟨(stays_run hfd c).inside, fun hout => absurd hfd hout⟩
    · have htests : TestsFirst fd c := h.resolve_left hfd
      cases c with
      | close => exact ⟨(stays_close fd).inside, fun _ _ => by simp [DescCall.run, close, hfd]⟩
      | fcntl cmd arg =>
        by_cases hcmd : cmd = fInternalize
        · subst hcmd
          exact ⟨(stays_fcntl (.inl rfl) arg).inside, fun _ hc => absurd rfl (hc arg)⟩
        · have hlarge : (nofile : Int) ≤ fd := htests.resolve_left hcmd
          have hpos : 0 ≤ fd := le_trans (Int.natCast_nonneg _) hlarge
          refine ⟨(stays_fcntl (.inr hpos) arg).inside, fun _ _ => ?_⟩
          simp [DescCall.run, fcntl, hcmd, hlarge]
      | _ => exact absurd htests id

/-- A process without open files. -/
def emptyProcess : Process where
  own := ⟨fun _ => none, fun _ => 0, 0⟩
  parent := none
  file := fun _ => ⟨false, false, false, false, .none, 0, 0⟩
  execveclose := false

theorem read_minus_one_outside :
    ¬ InTable (-1) ∧ ⟨.own, .ofile, -1⟩ ∈ accesses (DescCall.run (-1) .read) emptyProcess ∧
      ¬ Meets .read (-1) emptyProcess := by
  have hout : ¬ InTable (-1) := by decide
  have hlook : ⟨.own, .ofile, -1⟩ ∈ accesses (DescCall.run (-1) .read) emptyProcess := run_looks id
  exact ⟨hout, hlook, fun hmeets => hout (hmeets.1 _ hlook)⟩

end Ixemul.Descrip.Bounds
