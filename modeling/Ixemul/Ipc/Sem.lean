/-
# Ixemul.Ipc.Sem — the semaphore tables and their calls (sysv_sem.c).

`sema` is the table of semaphore sets, `sem` the pool their semaphores are carved out of, `undos` the list
of undo structures in use (semu_list); the free ones are the rest of a pool of SEMMNU.

Counters that are 16 bits wide in the source are so here: a semaphore's value and its two waiter counts are
unsigned, an operation and an undo adjustment are signed.  A call leaves by `return`, goes to sleep
(`Outcome.sleep`, taken up again by `semopResume`), indexes `sema` beyond its end, or calls `panic`.
`errno_return` is called with its two arguments the other way round (`semFail`).  The facility lock (SEMLCK)
only delays a call and is left out, as are the time stamps.
-/
import Ixemul.Lib.MoveDown
import Ixemul.Ipc.Perm

namespace Ixemul.Ipc

/-! ## Constants and tables -/

/-- SEMMNI, the number of semaphore identifiers. -/
def semmni : Nat := 10
/-- SEMMNS, the number of semaphores in the system. -/
def semmns : Nat := 60
/-- SEMMSL, the largest number of semaphores in one set. -/
def semmsl : Nat := semmns
/-- SEMMNU, the number of undo structures. -/
def semmnu : Nat := 30
/-- SEMUME, the number of undo entries in one structure. -/
def semume : Nat := 10
/-- MAX_SOPS, the largest number of operations in one call. -/
def maxSops : Nat := 5

instance : NeZero semmni := ⟨by decide⟩

/-- A process: its `struct Task *`. -/
abbrev Task := Nat

/-- `struct sem`. -/
structure Sem where
  semval : BitVec 16
  sempid : Task
  semncnt : BitVec 16
  semzcnt : BitVec 16
  deriving DecidableEq, Repr

def Sem.zero : Sem := ⟨0, 0, 0, 0⟩

/-- `struct semid_ds`; `base` is the index in the pool that `sem_base` points to. -/
structure SemidDs where
  perm : IpcPerm
  base : Nat
  nsems : Nat
  deriving DecidableEq, Repr

/-- An undo entry: what to add to semaphore `num` of set `id` when its process exits. -/
structure Undo where
  adjval : BitVec 16
  num : Nat
  id : Nat
  deriving DecidableEq, Repr

/-- `struct sem_undo`; the count of entries is the length of the list. -/
structure SemUndo where
  proc : Task
  ents : List Undo
  deriving DecidableEq, Repr

/-- The semaphore tables. -/
structure SemState where
  sema : Fin semmni → SemidDs
  sem : Nat → Sem
  semtot : Nat
  undos : List SemUndo

/-- SEM_ALLOC. -/
def SemidDs.alloc (ds : SemidDs) : Bool := ds.perm.flag

/-- The tables after `seminit`. -/
def seminit : SemState where
  sema := fun _ => ⟨IpcPerm.zero, 0, 0⟩
  sem := fun _ => Sem.zero
  semtot := 0
  undos := []

/-- `errno_return(-1, e)`: the source passes the error as the return value. -/
def semFail (e : Errno) : Ret := errnoReturn (-1) e.code

/-- How the identifier check at the head of a call ends: the entry it names, an error, or a table
access beyond the last of the `n` entries. -/
inductive Check (n : Nat) where
  | accept (ix : Fin n)
  | reject (e : Errno)
  | outOfRange
  deriving DecidableEq

/-- The identifier check of `ix_semctl` and `ix_semop`.  The index replaces the identifier BEFORE the
sequence number is taken out of it, and it is compared with SEMMSL although `sema` has SEMMNI
entries. -/
def semCheck (s : SemState) (id : Id) : Check semmni :=
  let semid := ipcidToIx id
  if semid.toNat ≥ semmsl then .reject .einval
  else if h : semid.toNat < semmni then
    let ds := s.sema ⟨semid.toNat, h⟩
    if ds.alloc = false ∨ ds.perm.seq ≠ ipcidToSeq semid then .reject .einval
    else .accept ⟨semid.toNat, h⟩
  else .outOfRange

/-- The slot an identifier names is beyond the end of `sema` but passes the check against SEMMSL. -/
def BeyondSema (id : Id) : Prop := semmni ≤ (ipcidToIx id).toNat ∧ (ipcidToIx id).toNat < semmsl

instance (id : Id) : Decidable (BeyondSema id) := inferInstanceAs (Decidable (_ ∧ _))

/-! ## Undo structures -/

/-- Removal of entry `i`: the last entry takes its place. -/
def removeEnt (ents : List Undo) (i : Nat) : List Undo :=
  match ents.getLast? with
  | none => ents
  | some last => (ents.set i last).dropLast

def SemUndo.empty (su : SemUndo) : Bool := su.ents.isEmpty

/-- `semu_alloc`: a new structure at the head of the list.  When none is free the empty ones are purged
first; when none is empty either there is no room. -/
def semuAlloc (undos : List SemUndo) (p : Task) : Option (List SemUndo) :=
  if undos.length < semmnu then some (⟨p, []⟩ :: undos)
  else if undos.any SemUndo.empty then some (⟨p, []⟩ :: undos.filter (fun su => !su.empty))
  else none

/-- Is this the entry for semaphore `num` of set `id`? -/
def Undo.isFor (id num : Nat) (e : Undo) : Bool := e.id == id && e.num == num

/-- The second half of `semundo_adjust`: adjust the entry, delete it when it becomes zero, create it
when there is none. -/
def adjustEnts (ents : List Undo) (id num : Nat) (adjval : BitVec 16) : Except Errno (List Undo) :=
  match ents.findIdx? (Undo.isFor id num) with
  | some i =>
    let old := (ents[i]?.map Undo.adjval).getD 0
    let new := if adjval = 0 then 0 else old + adjval
    if new = 0 then .ok (removeEnt ents i) else .ok (ents.set i ⟨new, num, id⟩)
  | none =>
    if adjval = 0 then .ok ents
    else if ents.length = semume then .error .einval
    else .ok (ents ++ [⟨adjval, num, id⟩])

/-- Rewrite the entries of the first structure of `p`; `none` when `p` has no structure. -/
def adjustFirst (p : Task) (f : List Undo → Except Errno (List Undo)) :
    List SemUndo → Option (Except Errno (List SemUndo))
  | [] => none
  | su :: undos =>
    if su.proc = p then some ((f su.ents).map (fun ents => ⟨su.proc, ents⟩ :: undos))
    else (adjustFirst p f undos).map (fun r => r.map (su :: ·))

/-- `semundo_adjust`.  Looking the structure of `p` up again finds the one a previous call has cached:
a structure is allocated at the head of the list. -/
def semundoAdjust (undos : List SemUndo) (p : Task) (semid semnum : Nat) (adjval : BitVec 16) :
    Except Errno (List SemUndo) :=
  match adjustFirst p (adjustEnts · semid semnum adjval) undos with
  | some r => r
  | none =>
    if adjval = 0 then .ok undos
    else
      match semuAlloc undos p with
      | none => .error .enospc
      | some undos' => .ok (undos'.modifyHead (fun su => ⟨su.proc, [⟨adjval, semnum, semid⟩]⟩))

/-- The inner loop of `semundo_clear` over the entries of one structure; `semnum` is `none` for the -1
that clears the whole set.  Every round removes an entry or moves on by one. -/
def clearEnts (semid : Nat) (semnum : Option Nat) : Nat → Nat → List Undo → List Undo
  | 0, _, ents => ents
  | fuel + 1, i, ents =>
    match ents[i]? with
    | none => ents
    | some e =>
      if e.id = semid then
        -- the entry moved into the gap is looked at next: `i--` and the loop's `i++`
        let hit := semnum = none ∨ semnum = some e.num
        let ents' := if hit then removeEnt ents i else ents
        if semnum ≠ none then ents' else clearEnts semid semnum fuel i ents'
      else clearEnts semid semnum fuel (i + 1) ents

/-- `semundo_clear`. -/
def semundoClear (undos : List SemUndo) (semid : Nat) (semnum : Option Nat) : List SemUndo :=
  undos.map (fun su => ⟨su.proc, clearEnts semid semnum su.ents.length 0 su.ents⟩)

/-! ## semget -/

/-- The first entry of `sema` that satisfies `q`. -/
def findSema (s : SemState) (q : SemidDs → Bool) : Option (Fin semmni) :=
  (List.finRange semmni).find? (fun ix => q (s.sema ix))

/-- The entry `semget` fills in, with its semaphores taken off the unused end of the pool. -/
def semCreate (s : SemState) (cred : Ucred) (key : Int) (nsems : Nat) (flg : GetFlg)
    (ix : Fin semmni) : SemState :=
  let perm := (s.sema ix).perm
  let perm' := perm.create cred key flg true ((perm.seq + 1) &&& 0x7fff)
  { s with
    sema := Function.update s.sema ix ⟨perm', s.semtot, nsems⟩
    sem := fun i => if s.semtot ≤ i ∧ i < s.semtot + nsems then Sem.zero else s.sem i
    semtot := s.semtot + nsems }

/-- `ix_semget`. -/
def semget (s : SemState) (cred : Ucred) (key nsems : Int) (flg : GetFlg) : SemState × Ret :=
  let found := if key ≠ ipcPrivate then findSema s (fun ds => ds.alloc && ds.perm.key == key) else none
  match found with
  | some ix =>
    let ds := s.sema ix
    if nsems > 0 ∧ (ds.nsems : Int) < nsems then (s, semFail .einval)
    else if flg.creat ∧ flg.excl then (s, semFail .eexist)
    else (s, plainReturn (ixseqToIpcid ix ds.perm).toInt)
  | none =>
    if key = ipcPrivate ∨ flg.creat then
      if nsems ≤ 0 ∨ nsems > semmsl then (s, semFail .einval)
      else if nsems > (semmns : Int) - s.semtot then (s, semFail .enospc)
      else
        match findSema s (fun ds => !ds.alloc) with
        | none => (s, semFail .enospc)
        | some ix =>
          let s' := semCreate s cred key nsems.toNat flg ix
          (s', plainReturn (ixseqToIpcid ix (s'.sema ix).perm).toInt)
    else (s, semFail .enoent)

theorem semget_cases (s : SemState) (cred : Ucred) (key nsems : Int) (flg : GetFlg) :
    (semget s cred key nsems flg).1 = s ∨ ∃ ix, (s.sema ix).alloc = false ∧
      ((s.semtot + nsems.toNat : Nat) : Int) ≤ semmns ∧
      (semget s cred key nsems flg).1 = semCreate s cred key nsems.toNat flg ix := by
  fun_cases semget s cred key nsems flg with
  | case7 _ _ _ hrange hspace ix hfind =>
    have hfree := List.find?_some hfind
    refine .inr ⟨ix, by simpa using hfree, ?_, rfl⟩
    omega
  | _ => exact .inl rfl

/-! ## semctl -/

/-- The commands of `ix_semctl`, with what they read through `arg`. -/
inductive SemCmd where
  | ipcRmid
  | ipcSet (uid gid mode : Nat)
  | ipcStat
  | getncnt
  | getpid
  | getval
  | getall
  | getzcnt
  | setval (val : Int)
  | setall (array : Nat → BitVec 16)
  | other

/-- What `ix_semctl` writes through `arg`. -/
inductive SemReply where
  | nothing
  | buf (ds : SemidDs)
  | array (vals : List (BitVec 16))
  deriving DecidableEq

/-- How `ix_semctl` ends. -/
inductive CtlOutcome where
  | ret (r : Ret) (reply : SemReply)
  | outOfRange
  deriving DecidableEq

/-- Removal of a set: the semaphores behind it move down, and with them the bases of their sets. -/
def semRmid (s : SemState) (cred : Ucred) (ix : Fin semmni) : SemState :=
  let ds := s.sema ix
  let semtot := s.semtot - ds.nsems
  let moved (d : SemidDs) : SemidDs :=
    if d.alloc ∧ d.base > ds.base then { d with base := d.base - ds.nsems } else d
  let perm := { ds.perm with cuid := cred.uid, uid := cred.uid, mode := 0, flag := false }
  { sema := Function.update (fun i => moved (s.sema i)) ix { ds with perm }
    sem := fun i => if ds.base ≤ i ∧ i < semtot then s.sem (i + ds.nsems) else s.sem i
    semtot
    undos := semundoClear s.undos ix none }

/-- The semaphores are what the loop of IPC_RMID leaves, which moves them down one by one. -/
theorem semRmid_sem (s : SemState) (cred : Ucred) (ix : Fin semmni) :
    (semRmid s cred ix).sem = Lib.moveDown (s.sema ix).nsems s.sem (s.sema ix).base
      (s.semtot - (s.sema ix).nsems - (s.sema ix).base) := by
  funext i
  rw [Lib.moveDown_apply]
  refine if_congr ?_ rfl rfl
  omega

/-- The commands that read one field of one semaphore. -/
def semField (s : SemState) (ds : SemidDs) (semnum : Int) (field : Sem → Int) : SemState × CtlOutcome :=
  if semnum < 0 ∨ semnum ≥ ds.nsems then (s, .ret (semFail .einval) .nothing)
  else (s, .ret (plainReturn (field (s.sem (ds.base + semnum.toNat)))) .nothing)

theorem semField_fst (s : SemState) (ds : SemidDs) (semnum : Int) (field : Sem → Int) :
    (semField s ds semnum field).1 = s := by
  unfold semField
  split <;> rfl

/-- `ix_semctl`. -/
def semctl (s : SemState) (cred : Ucred) (id : Id) (semnum : Int) (cmd : SemCmd) : SemState × CtlOutcome :=
  match semCheck s id with
  | .outOfRange => (s, .outOfRange)
  | .reject e => (s, .ret (semFail e) .nothing)
  | .accept ix =>
    let ds := s.sema ix
    match cmd with
    | .ipcRmid => (semRmid s cred ix, .ret (plainReturn 0) .nothing)
    | .ipcSet uid gid mode =>
      let perm := { ds.perm with uid, gid, mode := mode &&& 0o777 }
      ({ s with sema := Function.update s.sema ix { ds with perm } }, .ret (plainReturn 0) .nothing)
    | .ipcStat => (s, .ret (plainReturn 0) (.buf ds))
    | .getncnt => semField s ds semnum (fun sm => sm.semncnt.toNat)
    | .getpid => semField s ds semnum (fun sm => sm.sempid)
    | .getval => semField s ds semnum (fun sm => sm.semval.toNat)
    | .getzcnt => semField s ds semnum (fun sm => sm.semzcnt.toNat)
    | .getall =>
      let vals := (List.range ds.nsems).map (fun i => (s.sem (ds.base + i)).semval)
      (s, .ret (plainReturn 0) (.array vals))
    | .setval val =>
      if semnum < 0 ∨ semnum ≥ ds.nsems then (s, .ret (semFail .einval) .nothing)
      else
        let j := ds.base + semnum.toNat
        ({ s with
            sem := Function.update s.sem j { s.sem j with semval := BitVec.ofInt 16 val }
            undos := semundoClear s.undos ix (some semnum.toNat) },
          .ret (plainReturn 0) .nothing)
    | .setall array =>
      ({ s with
          sem := fun j => if ds.base ≤ j ∧ j < ds.base + ds.nsems
            then { s.sem j with semval := array (j - ds.base) } else s.sem j
          undos := semundoClear s.undos ix none },
        .ret (plainReturn 0) .nothing)
    | .other => (s, .ret (semFail .einval) .nothing)

/-! ## semop -/

/-- `struct sembuf`, with the two flags it may carry. -/
structure SemBuf where
  num : Nat
  op : BitVec 16
  undo : Bool
  nowait : Bool
  deriving DecidableEq, Repr

/-- `semval += v` on one semaphore of the pool. -/
def addVal (sem : Nat → Sem) (j : Nat) (v : BitVec 16) : Nat → Sem :=
  Function.update sem j { sem j with semval := (sem j).semval + v }

/-- How the walk through the vector stops: at its end, at an operation on a semaphore the set does not
have, or at one that cannot be satisfied now. -/
inductive Stop where
  | done
  | range
  | block (sop : SemBuf)
  deriving DecidableEq

/-- The walk so far: the pool, the operations performed, and the two flags of the loop. -/
structure Walk where
  sem : Nat → Sem
  performed : List SemBuf
  doWakeup : Bool
  doUndos : Bool

/-- The loop `for (i = 0; i < nsops; i++)`: operations are performed one by one, in place. -/
def walk (ds : SemidDs) : List SemBuf → Walk → Walk × Stop
  | [], w => (w, .done)
  | sop :: sops, w =>
    if sop.num ≥ ds.nsems then (w, .range)
    else
      let j := ds.base + sop.num
      let sm := w.sem j
      if sop.op.toInt < 0 then
        if (sm.semval.toNat : Int) + sop.op.toInt < 0 then (w, .block sop)
        else
          walk ds sops
            { sem := addVal w.sem j sop.op
              performed := w.performed ++ [sop]
              doWakeup := w.doWakeup || (sm.semval + sop.op == 0 && sm.semzcnt != 0)
              doUndos := w.doUndos || sop.undo }
      else if sop.op = 0 then
        if sm.semval ≠ 0 then (w, .block sop)
        else walk ds sops { w with performed := w.performed ++ [sop] }
      else
        walk ds sops
          { sem := addVal w.sem j sop.op
            performed := w.performed ++ [sop]
            doWakeup := w.doWakeup || sm.semncnt != 0
            doUndos := w.doUndos || sop.undo }

/-- The rollback loop: `semval -= sem_op` for every operation of the list. -/
def rollback (ds : SemidDs) (sem : Nat → Sem) : List SemBuf → Nat → Sem
  | [] => sem
  | sop :: sops => rollback ds (addVal sem (ds.base + sop.num) (-sop.op)) sops

/-- Does the operation ask for an undo entry? -/
def SemBuf.undone (sop : SemBuf) : Bool := sop.undo && sop.op != 0

/-- Taking the adjustments back, last one first; `none` where the source panics. -/
def undoBack (p : Task) (ix : Nat) : List SemBuf → List SemUndo → Option (List SemUndo)
  | [], undos => some undos
  | sop :: applied, undos =>
    match semundoAdjust undos p ix sop.num sop.op with
    | .ok undos' => undoBack p ix applied undos'
    | .error _ => none

/-- How the undo requests of a vector end. -/
inductive UndoEnd where
  | ok (undos : List SemUndo)
  | fail (e : Errno) (undos : List SemUndo)
  | panic
  deriving DecidableEq

/-- The loop over the undo requests; `applied` are those adjusted so far, last one first. -/
def undoWalk (p : Task) (ix : Nat) : List SemBuf → List SemBuf → List SemUndo → UndoEnd
  | [], _, undos => .ok undos
  | sop :: sops, applied, undos =>
    if sop.undone then
      match semundoAdjust undos p ix sop.num (-sop.op) with
      | .ok undos' => undoWalk p ix sops (sop :: applied) undos'
      | .error e =>
        match undoBack p ix applied undos with
        | some undos' => .fail e undos'
        | none => .panic
    else undoWalk p ix sops applied undos

/-- A call of `semop` that sleeps: its caller, set and vector, the operation it waits for, the semaphore
that has counted it as a waiter, and the loop flag that survives the sleep. -/
structure SemWaiting where
  proc : Task
  ix : Fin semmni
  sops : List SemBuf
  sop : SemBuf
  semptr : Nat
  doUndos : Bool
  deriving DecidableEq

/-- How `ix_semop` ends, or stops for now. -/
inductive SemOutcome where
  | ret (r : Ret)
  | sleep (w : SemWaiting)
  | outOfRange
  | panic
  deriving DecidableEq

/-- Counting a waiter on semaphore `j` up or down by `v`: for zero, or for an increase. -/
def countWaiter (sem : Nat → Sem) (j : Nat) (sop : SemBuf) (v : BitVec 16) : Nat → Sem :=
  if sop.op = 0 then Function.update sem j { sem j with semzcnt := (sem j).semzcnt + v }
  else Function.update sem j { sem j with semncnt := (sem j).semncnt + v }

/-- The final loop: the caller becomes the `sempid` of every semaphore the vector names. -/
def setSempid (ds : SemidDs) (p : Task) (sem : Nat → Sem) : List SemBuf → Nat → Sem
  | [] => sem
  | sop :: sops =>
    let j := ds.base + sop.num
    setSempid ds p (Function.update sem j { sem j with sempid := p }) sops

/-- What follows the label `done`. -/
def semopDone (s : SemState) (p : Task) (ix : Fin semmni) (sops : List SemBuf) (w : Walk) :
    SemState × SemOutcome :=
  let ds := s.sema ix
  match (if w.doUndos then undoWalk p ix sops [] s.undos else .ok s.undos) with
  | .ok undos => ({ s with sem := setSempid ds p w.sem sops, undos }, .ret (plainReturn 0))
  | .fail e undos => ({ s with sem := rollback ds w.sem sops, undos }, .ret (semFail e))
  | .panic => ({ s with sem := w.sem }, .panic)

/-- One round of the loop `for (;;)`. -/
def semopRound (s : SemState) (p : Task) (ix : Fin semmni) (sops : List SemBuf) (doUndos : Bool) :
    SemState × SemOutcome :=
  let ds := s.sema ix
  match walk ds sops ⟨s.sem, [], false, doUndos⟩ with
  | (w, .done) => semopDone s p ix sops w
  -- the operations already performed stay
  | (w, .range) => ({ s with sem := w.sem }, .ret (semFail .efbig))
  | (w, .block sop) =>
    let sem := rollback ds w.sem w.performed
    if sop.nowait then ({ s with sem }, .ret (semFail .eagain))
    else
      let j := ds.base + sop.num
      ({ s with sem := countWaiter sem j sop 1 }, .sleep ⟨p, ix, sops, sop, j, w.doUndos⟩)

/-- `ix_semop`, up to its return or its first sleep. -/
def semop (s : SemState) (p : Task) (id : Id) (sops : List SemBuf) : SemState × SemOutcome :=
  match semCheck s id with
  | .outOfRange => (s, .outOfRange)
  | .reject e => (s, .ret (semFail e))
  | .accept ix =>
    if sops.length > maxSops then (s, .ret (semFail .e2big))
    else semopRound s p ix sops false

/-- `ix_semop` after a sleep, which a signal may have interrupted. -/
def semopResume (s : SemState) (w : SemWaiting) (interrupted : Bool) : SemState × SemOutcome :=
  let ds := s.sema w.ix
  if interrupted then (s, .ret (semFail .eintr))
  -- `semid` is the index by now, so the sequence number compared is zero
  else if ds.alloc = false ∨ ds.perm.seq ≠ ipcidToSeq (ipcidToIx (BitVec.ofNat 32 w.ix)) then
    (s, .ret (semFail .einval))
  else semopRound { s with sem := countWaiter s.sem w.semptr w.sop (-1) } w.proc w.ix w.sops w.doUndos

end Ixemul.Ipc
