/-
# Ixemul.Select.Model — `ix_select` (select.c).

The call filters the caller's sets, then goes round a loop: ask every selected descriptor, and if none is
ready, wait and ask again.  Descriptors with FASYNC that are not in the read set are asked as well, for
SIGIO.  When it has an answer, the ready bits are copied word by word over the caller's sets.  The sets are
memory, and every access to a bit or word is logged, whether it is inside or not.

The functions behind `f_select` may answer anything each time they are asked (`Env.answer`), and so may
`Wait` and the timer.  What was asked is kept as history.
-/
import Ixemul.Descrip.Model
import Ixemul.Lib.BitSet
import Ixemul.Lib.Logged

namespace Ixemul.Select

open Lib Lib.Logged Lib.BitSet
open Descrip (nofile)

/-! ## Sets, files and what is asked -/

def fdSetSize : Nat := 256

/-- SELMODE_IN, SELMODE_OUT and SELMODE_EXC, and the sets that go with them. -/
inductive Mode where
  | inp
  | out
  | exc
  deriving DecidableEq, Repr

/-- A set of the caller (`ifd`, `ofd`, `efd`), or one of `readyin`, `readyout` and `readyexc`. -/
structure SetId where
  caller : Bool
  mode : Mode
  deriving DecidableEq, Repr

/-- An access to a bit of a set with FD_ISSET, FD_SET and FD_CLR, or to a whole word. -/
inductive Access where
  | bit (s : SetId) (n : Nat)
  | word (s : SetId) (k : Nat)
  deriving DecidableEq, Repr

/-- The access is to bits of the set. -/
def Access.InRange : Access → Prop
  | .bit _ n => n < fdSetSize
  | .word _ k => 32 * k + 31 < fdSetSize

instance : DecidablePred Access.InRange := fun a => by
  cases a <;> (unfold Access.InRange; infer_instance)

/-- Of a `struct file`: are `f_read`, `f_write` and `f_select` there, and is FASYNC set? -/
structure File where
  read : Bool
  write : Bool
  select : Bool
  async : Bool
  deriving DecidableEq, Repr

/-- `u_ofile`, nothing behind its end, and `u_lastfile`. -/
structure Table where
  ofile : Nat → Option File
  lastfile : Nat

/-- The tables that are looked at, `pu` being those of the parent for a thread child, and whether SIGIO is
ignored. -/
structure Process where
  pu : Table
  own : Table
  sigioIgnored : Bool

inductive Cmd where
  | poll
  | prepare
  | check
  deriving DecidableEq, Repr

/-- A call of `f_select`, in pass `pass` of the loop, in one of the scans for SIGIO or in the others. -/
structure Query where
  pass : Nat
  cmd : Cmd
  fd : Nat
  mode : Mode
  sigio : Bool
  deriving DecidableEq, Repr

/-- What comes from outside: `CURSIG` at the start, the answers, what `Wait` (or NET_waitselect) returns,
whether the timer request was done then, the numbers of the signals, `*mask` and `*timeout`. -/
structure Env where
  cursig : Bool
  answer : Query → BitVec 32
  wait : Nat → BitVec 32 → BitVec 32
  timerDone : Nat → Bool
  tportSig : Nat
  sleepSig : Nat
  mask : Option (BitVec 32)
  timeout : Option (Int × Int)

/-- `1 << n`, the mask of a signal. -/
def sigBit (n : Nat) : BitVec 32 := 1#32 <<< n

def sigbreakfCtrlC : BitVec 32 := sigBit 12

/-- `timeout && timerisset(timeout)` -/
def Env.dotout (env : Env) : Bool := env.timeout.any (fun t => t.1 != 0 || t.2 != 0)

/-- `timeout && !timerisset(timeout)` -/
def Env.polls (env : Env) : Bool := env.timeout.any (fun t => !(t.1 != 0 || t.2 != 0))

def Env.origmask (env : Env) : BitVec 32 := env.mask.getD 0

/-- The sets, the variables of the call and `*mask`.  `asked` and `passes` are history. -/
structure State where
  sets : Mode → Option Words
  ready : Mode → Words
  readydesc : Nat
  sigio : Bool
  waitSigs : BitVec 32
  recvWaitSigs : BitVec 32
  mask : Option (BitVec 32)
  asked : List Query
  passes : Nat

/-- At the call. -/
def State.init (env : Env) (sets : Mode → Option Words) : State :=
  ⟨sets, fun _ _ => 0, 0, false, 0, 0, env.mask, [], 0⟩

abbrev Act (α : Type) := Logged Access State α

/-- `FD_ISSET(n, s)` of a caller's set that is there. -/
def testCaller (d : Mode) (n : Nat) : Act Bool :=
  fun s => match s.sets d with
  | some w => (isSet n w, s, [.bit ⟨true, d⟩ n])
  | none => (false, s, [])

/-- `FD_CLR(n, s)` -/
def clrCaller (d : Mode) (n : Nat) : Act Unit :=
  store (.bit ⟨true, d⟩ n) (fun s => { s with sets := Function.update s.sets d ((s.sets d).map (clr n)) })

/-- `f->f_select(f, cmd, mode, ..)` -/
def ask (env : Env) (f : File) (q : Query) : Act (BitVec 32) :=
  fun s => (env.answer q, if f.select then { s with asked := s.asked ++ [q] } else s, [])

/-- `wait_sigs |= sigs` -/
def addSigs (sigs : BitVec 32) : Act Unit := change fun s => { s with waitSigs := s.waitSigs ||| sigs }

/-! ## The loops -/

/-- The places a loop over the descriptors below `n` looks at, three for each. -/
def places (n : Nat) : List (Nat × Mode) :=
  (List.range n).flatMap fun i => [(i, .inp), (i, .out), (i, .exc)]

/-- Is the bit left alone by the first loop?  Exceptional conditions are not supported by any file. -/
def supports (f : File) : Mode → Bool
  | .inp => f.read && f.select
  | .out => f.write && f.select
  | .exc => false

/-- What is done with a selected descriptor that is open: `s && FD_ISSET(i, s) && (f = pu->u_ofile[i])` -/
def selected (t : Table) (x : Nat × Mode) (body : File → Act Unit) : Act Unit := do
  let isset ← testCaller x.2 x.1
  match isset, t.ofile x.1 with
  | true, some f => body f
  | _, _ => pure ()

/-- The bits of what is not supported are cleared. -/
def filterPlace (t : Table) (x : Nat × Mode) : Act Unit :=
  selected t x fun f => if supports f x.2 then pure () else clrCaller x.2 x.1

/-- SELCMD_PREPARE -/
def preparePlace (env : Env) (t : Table) (k : Nat) (x : Nat × Mode) : Act Unit :=
  selected t x fun f => do
    let sigs ← ask env f ⟨k, .prepare, x.1, x.2, false⟩
    addSigs sigs

/-- `FD_SET(i, &ready)` and `++ readydesc` -/
def setReady (x : Nat × Mode) : Act Unit :=
  store (.bit ⟨false, x.2⟩ x.1) fun s =>
    { s with ready := Function.update s.ready x.2 (set x.1 (s.ready x.2)), readydesc := s.readydesc + 1 }

/-- SELCMD_POLL or SELCMD_CHECK -/
def collectPlace (env : Env) (t : Table) (k : Nat) (cmd : Cmd) (x : Nat × Mode) : Act Unit :=
  selected t x fun f => do
    let answer ← ask env f ⟨k, cmd, x.1, x.2, false⟩
    if answer ≠ 0 then setReady x else pure ()

/-- A step of a scan for SIGIO, `f[i] && (f[i]->f_flags & FASYNC) && !(ifd && FD_ISSET(i, ifd))`, and what is
done with the answer. -/
def sigioPlace (env : Env) (t : Table) (k : Nat) (cmd : Cmd) (use : BitVec 32 → Act Unit) (i : Nat) :
    Act Unit :=
  match t.ofile i with
  | none => pure ()
  | some f =>
    if f.async then do
      let isset ← testCaller .inp i
      if isset then pure () else do
        let answer ← ask env f ⟨k, cmd, i, .inp, true⟩
        use answer
    else pure ()

/-- `if (!(u.p_sigignore & sigmask (SIGIO)))` and `for (i = 0; i < u_lastfile; i++)` -/
def sigioScan (env : Env) (p : Process) (t : Table) (k : Nat) (cmd : Cmd) (use : BitVec 32 → Act Unit) :
    Act Unit :=
  if p.sigioIgnored then pure () else forEach (List.range t.lastfile) (sigioPlace env t k cmd use)

/-- `if (answer) sigio = 1;` -/
def raiseSigio (answer : BitVec 32) : Act Unit :=
  change fun s => { s with sigio := s.sigio || answer != 0 }

/-- A round of the loop of `setcopy`. -/
def copyWord (d : Mode) (k : Nat) : Act Unit := do
  let w ← load (.word ⟨false, d⟩ k) fun s => s.ready d k
  store (.word ⟨true, d⟩ k) fun s =>
    { s with sets := Function.update s.sets d ((s.sets d).map fun words => Function.update words k w) }

/-- `nfd = (nfd+31) >> 5` as the number of rounds of `while (nfd--)`: below zero it is only ended by the
wrap-around. -/
def setcopyWords (nfd : BitVec 32) : Nat := ((nfd + 31).sshiftRight 5).toNat

/-- `if (s) setcopy(nfd, &ready, s);` -/
def setcopy (nfd : BitVec 32) (d : Mode) : Act Unit := do
  let given ← look fun s => (s.sets d).isSome
  if given then forEach (List.range (setcopyWords nfd)) (copyWord d) else pure ()

/-! ## The call -/

/-- The first pass polls, the others check after a wait. -/
def cmdOf (k : Nat) : Cmd := if k = 0 then .poll else .check

/-- The start of a pass. -/
def startPass (env : Env) : Act Unit := change fun s =>
  { s with
    ready := fun _ _ => 0
    readydesc := 0
    sigio := false
    waitSigs := sigbreakfCtrlC ||| sigBit env.sleepSig ||| env.origmask
    passes := s.passes + 1 }

/-- What `Wait` returned, with the bit of the timer added if its request was done. -/
def received (env : Env) (k : Nat) (sigs : BitVec 32) : BitVec 32 :=
  if env.dotout && env.timerDone k then env.wait k sigs ||| sigBit env.tportSig else env.wait k sigs

/-- The timer request is sent. -/
def startTimer (env : Env) : Act Unit :=
  if env.dotout then addSigs (sigBit env.tportSig) else pure ()

/-- Start the timer, prepare the files and wait, `if (skipped_wait)`. -/
def waitPass (env : Env) (p : Process) (n k : Nat) : Act Unit :=
  if k = 0 then pure () else do
  startTimer env
  forEach (places n) (preparePlace env p.pu k)
  sigioScan env p p.pu k .prepare addSigs
  change fun s =>
    { s with
      mask := s.mask.map fun _ => env.wait k s.waitSigs &&& env.origmask
      recvWaitSigs := received env k s.waitSigs }

/-- `!readydesc && dotout` and the bit of the timer received -/
def timedOut (env : Env) (s : State) : Bool :=
  s.readydesc == 0 && env.dotout && s.recvWaitSigs &&& sigBit env.tportSig != 0

/-- Does the pass end the call with the sets filled in? -/
def answers (env : Env) (s : State) : Bool := s.readydesc != 0 || timedOut env s || env.polls

/-- Does it end the call with -1? -/
def interrupted (env : Env) (s : State) : Bool :=
  s.sigio || s.recvWaitSigs &&& (sigbreakfCtrlC ||| sigBit env.sleepSig ||| env.origmask) != 0

/-- Everything in a pass that asks. -/
def askPass (env : Env) (p : Process) (nfd : BitVec 32) (k : Nat) : Act Unit := do
  startPass env
  waitPass env p nfd.toInt.toNat k
  forEach (places nfd.toInt.toNat) (collectPlace env p.pu k (cmdOf k))
  sigioScan env p p.own k (cmdOf k) raiseSigio

/-- The end of a pass, with `result` if it is the last one. -/
def endPass (env : Env) (nfd : BitVec 32) : Act (Option Int) := do
  let done ← look (answers env)
  if done then do
    let readydesc ← look State.readydesc
    setcopy nfd .inp
    setcopy nfd .out
    setcopy nfd .exc
    pure (some (readydesc : Int))
  else do
    let stop ← look (interrupted env)
    pure (if stop then some (-1) else none)

def pass (env : Env) (p : Process) (nfd : BitVec 32) (k : Nat) : Act (Option Int) := do
  askPass env p nfd k
  endPass env nfd

/-- The loop from pass `k` on, nothing if it is still waiting after that many passes. -/
def loop (env : Env) (p : Process) (nfd : BitVec 32) : (fuel k : Nat) → Act (Option Int)
  | 0, _ => pure none
  | fuel + 1, k => do
    match ← pass env p nfd k with
    | some result => pure (some result)
    | none => loop env p nfd fuel (k + 1)

/-- What the call returns, whether `errno` is EINTR then and which signals it sends to the process itself. -/
structure Return where
  result : Int
  eintr : Bool
  sigint : Bool
  sigio : Bool
  deriving DecidableEq, Repr

/-- After the loop. -/
def finish (result : Int) (s : State) : Return :=
  if s.recvWaitSigs = BitVec.allOnes 32 then ⟨-1, false, false, false⟩
  else ⟨result, result == -1, s.recvWaitSigs &&& sigbreakfCtrlC != 0, s.sigio⟩

/-- `if (nfd > NOFILE) nfd = NOFILE` -/
def cutNfd (nfd : BitVec 32) : BitVec 32 := if (nofile : Int) < nfd.toInt then BitVec.ofNat 32 nofile else nfd

/-- `ix_select(nfd, ifd, ofd, efd, timeout, mask)`: its return, if `fuel` passes are enough. -/
def ixSelect (env : Env) (p : Process) (nfd : BitVec 32) (fuel : Nat) : Act (Option Return) := do
  if env.cursig then pure (some ⟨-1, true, false, false⟩)
  else do
    forEach (places (cutNfd nfd).toInt.toNat) (filterPlace p.pu)
    match ← loop env p (cutNfd nfd) fuel 0 with
    | none => pure none
    | some result => look fun s => some (finish result s)

end Ixemul.Select
