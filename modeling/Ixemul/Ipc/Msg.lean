/-
# Ixemul.Ipc.Msg — the message tables and their calls (sysv_msg.c).

A message is a header and a chain of segments: `msg_spot` is the index of the first segment,
`msgmaps[i].next` of the one behind segment `i`, -1 after the last.  Free segments are chained the same way,
free headers and the headers of a queue through `msg_next`.

A call that fails one of the source's sanity checks calls `panic` (`Abort.panic`).  A pointer walk that need
not end carries the number of headers as its bound (`Abort.endless`).  `u_long` and `size_t` are modulo
2^32, `u_short` modulo 2^16.  A call that sleeps is taken up again by `msgsndResume` and `msgrcvResume`.
Time stamps are left out.
-/
import Ixemul.Ipc.Perm

namespace Ixemul.Ipc

/-! ## Constants and tables -/

/-- MSGSSZ, the size of a segment. -/
def msgssz : Nat := 8
/-- MSGSEG, the number of segments. -/
def msgseg : Nat := 2048
/-- MSGMNB, the largest number of bytes on a queue. -/
def msgmnb : Nat := 2048
/-- MSGMNI, the number of queues. -/
def msgmni : Nat := 40
/-- MSGTQL, the number of message headers. -/
def msgtql : Nat := 40

instance : NeZero msgmni := ⟨by decide⟩

/-- `struct msg`; headers are named by their index in `msghdrs`. -/
structure Msg where
  next : Option Nat
  type : BitVec 32
  ts : Nat
  spot : Int
  deriving DecidableEq, Repr

/-- `struct msqid_ds`. -/
structure MsqidDs where
  perm : IpcPerm
  first : Option Nat
  last : Option Nat
  cbytes : Nat
  qnum : Nat
  qbytes : Nat
  lspid : Nat
  lrpid : Nat
  deriving DecidableEq, Repr

/-- The message tables. -/
structure MsgState where
  msgpool : Nat → UInt8
  msgmaps : Nat → Int
  freeMsgmaps : Int
  nfreeMsgmaps : Int
  msghdrs : Nat → Msg
  freeMsghdrs : Option Nat
  msqids : Fin msgmni → MsqidDs

/-- MSG_LOCKED. -/
def MsqidDs.locked (mq : MsqidDs) : Bool := mq.perm.flag

def MsqidDs.setLocked (mq : MsqidDs) (b : Bool) : MsqidDs :=
  { mq with perm := { mq.perm with flag := b } }

/-- The calls of `panic` in the file, in the order they stand there. -/
inductive Panic where
  | msgsszNotSmallPowerOfTwo
  | msgsegTooLarge
  | spotOutOfRange
  | spotNotNil
  | cbytesScrewedUp
  | qnumScrewedUp
  | modeLocked
  | segsNeededTooMany
  | msgszTooMuch
  | noMoreMsghdrs
  | alreadyLocked
  | notEnoughMsgmaps
  | nilFreeMsgmaps
  | nextTooLow1
  | nextOutOfRange1
  | nextTooLow2
  | nextOutOfRange2
  | segmentsLeftOver
  | firstLastScrewedUp1
  | firstLastScrewedUp2
  | firstLastScrewedUp3
  | nextTooLow3
  | nextOutOfRange3
  deriving DecidableEq, Repr

/-- How a call may fail to come to an end. -/
inductive Abort where
  | panic (p : Panic)
  | endless
  | nullPointer
  deriving DecidableEq, Repr

/-- `errno_return(e, -1)`. -/
def msgFail (e : Errno) : Ret := errnoReturn e.code (-1)

/-- Updates of one header and of one queue. -/
def MsgState.setHdr (s : MsgState) (h : Nat) (m : Msg) : MsgState :=
  { s with msghdrs := Function.update s.msghdrs h m }

def MsgState.setQueue (s : MsgState) (q : Fin msgmni) (mq : MsqidDs) : MsgState :=
  { s with msqids := Function.update s.msqids q mq }

/-- The tables before `msginit`: all zero. -/
def msgZero : MsgState where
  msgpool := fun _ => 0
  msgmaps := fun _ => 0
  freeMsgmaps := 0
  nfreeMsgmaps := 0
  msghdrs := fun _ => ⟨none, 0, 0, 0⟩
  freeMsghdrs := none
  msqids := fun _ => ⟨IpcPerm.zero, none, none, 0, 0, 0, 0, 0⟩

/-- The first check of `msginit`: is `ssz` reached by doubling 8, below 1024? -/
def smallPowerOfTwo (ssz : Nat) : Bool := [8, 16, 32, 64, 128, 256, 512, 1024].contains ssz

/-- `msginit`.  Every segment is linked to the one behind it, the last one to none; likewise the
headers. -/
def msginit (s : MsgState) : Except Abort MsgState :=
  if smallPowerOfTwo msgssz = false then .error (.panic .msgsszNotSmallPowerOfTwo)
  else if msgseg > 32767 then .error (.panic .msgsegTooLarge)
  else .ok
    { s with
      msgmaps := fun i => if i < msgseg then (if i + 1 < msgseg then (i + 1 : Int) else -1)
        else s.msgmaps i
      freeMsgmaps := 0
      nfreeMsgmaps := msgseg
      msghdrs := fun h =>
        let m := s.msghdrs h
        if h < msgtql then { m with type := 0, next := if h + 1 < msgtql then some (h + 1) else none }
        else m
      freeMsghdrs := some 0
      msqids := fun q => { s.msqids q with qbytes := 0, perm := { (s.msqids q).perm with seq := 0 } } }

/-- The tables `msginit` makes out of zeroes. -/
def msgInitial : MsgState :=
  match msginit msgZero with
  | .ok s => s
  | .error _ => msgZero

/-! ## Freeing a message -/

/-- The loop of `msg_freehdr`: the first segment of the message goes to the head of the free list.  The
size drops in every round, which bounds their number. -/
def freeSegs : Nat → MsgState → Nat → Except Abort MsgState
  | 0, s, _ => .ok s
  | fuel + 1, s, h =>
    let m := s.msghdrs h
    if m.ts > 0 then
      if m.spot < 0 ∨ m.spot ≥ msgseg then .error (.panic .spotOutOfRange)
      else
        let spot := m.spot.toNat
        freeSegs fuel
          { s with
            msgmaps := Function.update s.msgmaps spot s.freeMsgmaps
            freeMsgmaps := m.spot
            nfreeMsgmaps := s.nfreeMsgmaps + 1
            msghdrs := Function.update s.msghdrs h
              { m with
                spot := s.msgmaps spot
                ts := if m.ts ≥ msgssz then m.ts - msgssz else 0 } } h
    else .ok s

/-- `msg_freehdr`. -/
def msgFreehdr (s : MsgState) (h : Nat) : Except Abort MsgState := do
  let s ← freeSegs (s.msghdrs h).ts s h
  if (s.msghdrs h).spot ≠ -1 then .error (.panic .spotNotNil)
  else .ok { s.setHdr h { s.msghdrs h with next := s.freeMsghdrs } with freeMsghdrs := some h }

/-! ## Identifiers, and how calls end -/

/-- The identifier check of the three calls that take one.  The index replaces the identifier before
the sequence number is taken out of it. -/
def msgCheck (s : MsgState) (id : Id) : Except Errno (Fin msgmni) :=
  let msqid := ipcidToIx id
  if h : msqid.toNat < msgmni then
    let mq := s.msqids ⟨msqid.toNat, h⟩
    if mq.qbytes = 0 then .error .einval
    else if mq.perm.seq ≠ ipcidToSeq msqid then .error .einval
    else .ok ⟨msqid.toNat, h⟩
  else .error .einval

/-- What a call writes through the pointer it is given: nothing, a queue's record, or a message, which
is its type and the bytes copied out behind it. -/
inductive MsgReply where
  | nothing
  | buf (mq : MsqidDs)
  | message (type : BitVec 32) (text : List UInt8)
  deriving DecidableEq

/-- The arguments of `msgsnd`: the type and the bytes at the user's pointer, how many of them there
are, and IPC_NOWAIT. -/
structure SndArgs where
  pid : Nat
  type : BitVec 32
  text : Nat → UInt8
  msgsz : BitVec 32
  nowait : Bool

/-- The arguments of `msgrcv`, with IPC_NOWAIT and MSG_NOERROR. -/
structure RcvArgs where
  pid : Nat
  msgsz : BitVec 32
  msgtyp : BitVec 32
  nowait : Bool
  noerror : Bool
  deriving DecidableEq

/-- A sleeping `msgsnd`: its queue, its arguments, and whether it has locked the queue. -/
structure SndWaiting where
  q : Fin msgmni
  args : SndArgs
  weOwnIt : Bool

/-- A sleeping `msgrcv`. -/
structure RcvWaiting where
  q : Fin msgmni
  args : RcvArgs
  deriving DecidableEq

/-- How a call ends, or stops for now. -/
inductive MsgOutcome where
  | ret (r : Ret) (reply : MsgReply)
  | sleepSnd (w : SndWaiting)
  | sleepRcv (w : RcvWaiting)

/-- A return that writes nothing. -/
def MsgOutcome.plain (r : Ret) : MsgOutcome := .ret r .nothing

/-! ## msgget and msgctl -/

/-- The first queue that satisfies `p`. -/
def findQueue (s : MsgState) (p : MsqidDs → Bool) : Option (Fin msgmni) :=
  (List.finRange msgmni).find? (fun q => p (s.msqids q))

/-- The record `msgget` fills in. -/
def msgCreate (mq : MsqidDs) (cred : Ucred) (key : Int) (flg : GetFlg) : MsqidDs :=
  { perm := mq.perm.create cred key flg false ((mq.perm.seq + 1) % 2 ^ 16)
    first := none, last := none, cbytes := 0, qnum := 0, qbytes := msgmnb, lspid := 0, lrpid := 0 }

/-- `ix_msgget`. -/
def msgget (s : MsgState) (cred : Ucred) (key : Int) (flg : GetFlg) : MsgState × Ret :=
  let found :=
    if key ≠ ipcPrivate then findQueue s (fun mq => mq.qbytes != 0 && mq.perm.key == key) else none
  match found with
  | some q =>
    if flg.creat ∧ flg.excl then (s, msgFail .eexist)
    else (s, plainReturn (ixseqToIpcid q (s.msqids q).perm).toInt)
  | none =>
    if key = ipcPrivate ∨ flg.creat then
      match findQueue s (fun mq => mq.qbytes == 0 && !mq.locked) with
      | none => (s, msgFail .enospc)
      | some q =>
        let mq := msgCreate (s.msqids q) cred key flg
        (s.setQueue q mq, plainReturn (ixseqToIpcid q mq.perm).toInt)
    else (s, msgFail .enoent)

/-- `msgget` changes nothing, or makes a queue in a slot that is free and not locked. -/
theorem msgget_cases (s : MsgState) (cred : Ucred) (key : Int) (flg : GetFlg) :
    (msgget s cred key flg).1 = s ∨ ∃ q, (s.msqids q).qbytes = 0 ∧ (s.msqids q).locked = false ∧
      (msgget s cred key flg).1 = s.setQueue q (msgCreate (s.msqids q) cred key flg) := by
  fun_cases msgget s cred key flg with
  | case4 _ _ _ q hq =>
    have hfree := List.find?_some hq
    simp only [Bool.and_eq_true, beq_iff_eq, Bool.not_eq_true'] at hfree
    exact .inr ⟨q, hfree.1, hfree.2, rfl⟩
  | _ => exact .inl rfl

/-- The commands of `ix_msgctl`, with what they read through the user's pointer. -/
inductive MsgCmd where
  | ipcRmid
  | ipcSet (uid gid mode : Nat) (qbytes : BitVec 32)
  | ipcStat
  | other

/-- The loop of IPC_RMID over the headers of the queue, from `msghdr` on. -/
def rmidLoop (q : Fin msgmni) : Nat → MsgState → Option Nat → Except Abort MsgState
  | _, s, none => .ok s
  | 0, _, some _ => .error .endless
  | fuel + 1, s, some h => do
    let mq := s.msqids q
    let m := s.msghdrs h
    let s ← msgFreehdr
      (s.setQueue q { mq with cbytes := (mq.cbytes + 2 ^ 32 - m.ts) % 2 ^ 32
                              qnum := (mq.qnum + 2 ^ 32 - 1) % 2 ^ 32 }) h
    rmidLoop q fuel s m.next

/-- IPC_RMID. -/
def msgRmid (s : MsgState) (q : Fin msgmni) : Except Abort MsgState := do
  let s ← rmidLoop q msgtql s (s.msqids q).first
  if (s.msqids q).cbytes ≠ 0 then .error (.panic .cbytesScrewedUp)
  else if (s.msqids q).qnum ≠ 0 then .error (.panic .qnumScrewedUp)
  else .ok (s.setQueue q { s.msqids q with qbytes := 0 })

/-- `ix_msgctl`. -/
def msgctl (s : MsgState) (cred : Ucred) (id : Id) (cmd : MsgCmd) : Except Abort (MsgState × MsgOutcome) :=
  match msgCheck s id with
  | .error e => .ok (s, .plain (msgFail e))
  | .ok q =>
    let mq := s.msqids q
    match cmd with
    | .ipcRmid => do
      let s ← msgRmid s q
      .ok (s, .plain (plainReturn 0))
    | .ipcSet uid gid mode qbytes =>
      if qbytes.toNat > mq.qbytes ∧ cred.uid ≠ 0 then .ok (s, .plain (msgFail .eperm))
      else
        let qb := if qbytes.toNat > msgmnb then msgmnb else qbytes.toNat
        if qb = 0 then .ok (s, .plain (msgFail .einval))
        else
          let perm := { mq.perm with uid, gid, mode := mode &&& 0o777 }
          .ok (s.setQueue q { mq with perm, qbytes := qb }, .plain (plainReturn 0))
    | .ipcStat => .ok (s, .ret (plainReturn 0) (.buf mq))
    | .other => .ok (s, .plain (msgFail .einval))

/-! ## msgsnd -/

/-- The number of segments of a message: the sum is taken in `size_t`. -/
def segsNeeded (msgsz : BitVec 32) : Nat := ((msgsz.toNat + msgssz - 1) % 2 ^ 32) / msgssz

/-- Does the call have to wait?  The four tests of the loop's head. -/
def needMoreResources (s : MsgState) (q : Fin msgmni) (msgsz : BitVec 32) : Bool :=
  let mq := s.msqids q
  mq.locked || decide ((msgsz.toNat + mq.cbytes) % 2 ^ 32 > mq.qbytes) ||
    decide ((segsNeeded msgsz : Int) > s.nfreeMsgmaps) || s.freeMsghdrs.isNone

/-- The allocation loop: a segment from the head of the free list becomes the first one of the
message. -/
def allocSegs : Nat → MsgState → Nat → Except Abort MsgState
  | 0, s, _ => .ok s
  | n + 1, s, h =>
    let next := s.freeMsgmaps
    if s.nfreeMsgmaps ≤ 0 then .error (.panic .notEnoughMsgmaps)
    else if s.freeMsgmaps = -1 then .error (.panic .nilFreeMsgmaps)
    else if next ≤ -1 then .error (.panic .nextTooLow1)
    else if next ≥ msgseg then .error (.panic .nextOutOfRange1)
    else
      let m := s.msghdrs h
      allocSegs n
        { s with
          freeMsgmaps := s.msgmaps next.toNat
          nfreeMsgmaps := s.nfreeMsgmaps - 1
          msgmaps := Function.update s.msgmaps next.toNat m.spot
          msghdrs := Function.update s.msghdrs h { m with spot := next } } h

/-- `memcpy` of `len` bytes of `text`, from `off` on, to the address `dst` of the pool. -/
def fillPool (pool : Nat → UInt8) (dst len : Nat) (text : Nat → UInt8) (off : Nat) : Nat → UInt8 :=
  fun a => if dst ≤ a ∧ a < dst + len then text (off + (a - dst)) else pool a

/-- The loop that copies the body in, segment by segment; it ends with the pool and the link behind the
last segment used. -/
def copyIn (msgmaps : Nat → Int) (text : Nat → UInt8) :
    Nat → Nat → Nat → Int → (Nat → UInt8) → Except Abort ((Nat → UInt8) × Int)
  | 0, _, _, next, pool => .ok (pool, next)
  | fuel + 1, msgsz, off, next, pool =>
    if msgsz > 0 then
      let tlen := if msgsz > msgssz then msgssz else msgsz
      if next ≤ -1 then .error (.panic .nextTooLow2)
      else if next ≥ msgseg then .error (.panic .nextOutOfRange2)
      else
        copyIn msgmaps text fuel (msgsz - tlen) (off + tlen) (msgmaps next.toNat)
          (fillPool pool (next.toNat * msgssz) tlen text off)
    else .ok (pool, next)

/-- Put a message at the end of its queue. -/
def enqueue (s : MsgState) (q : Fin msgmni) (h pid : Nat) : Except Abort MsgState :=
  let mq := s.msqids q
  let count (mq : MsqidDs) : MsqidDs :=
    { mq with
      cbytes := (mq.cbytes + (s.msghdrs h).ts) % 2 ^ 32
      qnum := (mq.qnum + 1) % 2 ^ 32
      lspid := pid }
  match mq.first with
  | none =>
    .ok ((s.setHdr h { s.msghdrs h with next := none }).setQueue q
      (count { mq with first := some h, last := some h }))
  | some _ =>
    match mq.last with
    | none => .error .nullPointer
    | some l =>
      let s := s.setHdr l { s.msghdrs l with next := some h }
      .ok ((s.setHdr h { s.msghdrs h with next := none }).setQueue q
        (count { mq with last := some h }))

/-- The queue is locked, and the first free header allocated for a message of `msgsz` bytes. -/
def sndHeader (s : MsgState) (q : Fin msgmni) (msgsz : BitVec 32) (h : Nat) : MsgState :=
  let s := s.setQueue q ((s.msqids q).setLocked true)
  { s.setHdr h { s.msghdrs h with spot := -1, ts := msgsz.toNat % 2 ^ 16 } with
    freeMsghdrs := (s.msghdrs h).next }

/-- The message has been copied in: unlock the queue and put the message into it. -/
def sndQueue (s : MsgState) (q : Fin msgmni) (a : SndArgs) (h : Nat) : Except Abort (MsgState × MsgOutcome) :=
  let s := s.setQueue q ((s.msqids q).setLocked false)
  if (s.msqids q).qbytes = 0 then do
    let s ← msgFreehdr s h
    .ok (s, .plain (msgFail .einval))
  else do
    let s ← enqueue s q h a.pid
    .ok (s, .plain (plainReturn 0))

/-- The segments have been allocated: take the type, reject a bad one, and copy the body in. -/
def sndBody (s : MsgState) (q : Fin msgmni) (a : SndArgs) (h : Nat) : Except Abort (MsgState × MsgOutcome) :=
  let s := s.setHdr h { s.msghdrs h with type := a.type }
  if a.type.toInt < 1 then do
    let s ← msgFreehdr s h
    .ok (s.setQueue q ((s.msqids q).setLocked false), .plain (msgFail .einval))
  else do
    let (pool, next) ← copyIn s.msgmaps a.text a.msgsz.toNat a.msgsz.toNat 0 (s.msghdrs h).spot
      s.msgpool
    if next ≠ -1 then .error (.panic .segmentsLeftOver)
    else sndQueue { s with msgpool := pool } q a h

/-- The part of `ix_msgsnd` behind its waiting loop. -/
def msgsndCopy (s : MsgState) (q : Fin msgmni) (a : SndArgs) : Except Abort (MsgState × MsgOutcome) :=
  let mq := s.msqids q
  if mq.locked then .error (.panic .modeLocked)
  else if (segsNeeded a.msgsz : Int) > s.nfreeMsgmaps then .error (.panic .segsNeededTooMany)
  else if (a.msgsz.toNat + mq.cbytes) % 2 ^ 32 > mq.qbytes then .error (.panic .msgszTooMuch)
  else
    match s.freeMsghdrs with
    | none => .error (.panic .noMoreMsghdrs)
    | some h =>
      if mq.locked then .error (.panic .alreadyLocked)
      else do
        let s ← allocSegs (segsNeeded a.msgsz) (sndHeader s q a.msgsz h) h
        sndBody s q a h

/-- One round of the waiting loop of `ix_msgsnd`, and what follows it. -/
def msgsndRound (s : MsgState) (q : Fin msgmni) (a : SndArgs) : Except Abort (MsgState × MsgOutcome) :=
  let mq := s.msqids q
  if a.msgsz.toNat > mq.qbytes then .ok (s, .plain (msgFail .einval))
  else if needMoreResources s q a.msgsz then
    if a.nowait then .ok (s, .plain (msgFail .eagain))
    else .ok (s.setQueue q (mq.setLocked true), .sleepSnd ⟨q, a, !mq.locked⟩)
  else msgsndCopy s q a

/-- `ix_msgsnd`, up to its return or its first sleep. -/
def msgsnd (s : MsgState) (id : Id) (a : SndArgs) : Except Abort (MsgState × MsgOutcome) :=
  match msgCheck s id with
  | .error e => .ok (s, .plain (msgFail e))
  | .ok q => msgsndRound s q a

/-- `ix_msgsnd` after a sleep, which a signal may have interrupted. -/
def msgsndResume (s : MsgState) (w : SndWaiting) (interrupted : Bool) :
    Except Abort (MsgState × MsgOutcome) :=
  let s := if w.weOwnIt then s.setQueue w.q ((s.msqids w.q).setLocked false) else s
  if interrupted then .ok (s, .plain (msgFail .eintr))
  else if (s.msqids w.q).qbytes = 0 then .ok (s, .plain (msgFail .einval))
  else msgsndRound s w.q w.args

/-! ## msgrcv -/

/-- What the search for a message ends with. -/
inductive Selected where
  | nothing
  | tooBig
  | message (s : MsgState) (h : Nat)

/-- The message is longer than the caller allows. -/
def tooLong (a : RcvArgs) (m : Msg) : Bool := decide (a.msgsz.toNat < m.ts) && !a.noerror

/-- With `msgtyp` zero, the first message is taken. -/
def selectFirst (s : MsgState) (q : Fin msgmni) (a : RcvArgs) : Except Abort Selected :=
  let mq := s.msqids q
  match mq.first with
  | none => .ok .nothing
  | some h =>
    if tooLong a (s.msghdrs h) then .ok .tooBig
    else if mq.first = mq.last then
      .ok (.message (s.setQueue q { mq with first := none, last := none }) h)
    else
      match (s.msghdrs h).next with
      | none => .error (.panic .firstLastScrewedUp1)
      | some f => .ok (.message (s.setQueue q { mq with first := some f }) h)

/-- Does the type match?  `msg_type <= -msgtyp` is a comparison of 32-bit longs. -/
def typeMatches (msgtyp type : BitVec 32) : Bool := msgtyp == type || type.sle (-msgtyp)

/-- `*prev`, where `prev` points to the `msg_first` of the queue (`none`) or to a header's
`msg_next`. -/
def readPrev (s : MsgState) (q : Fin msgmni) : Option Nat → Option Nat
  | none => (s.msqids q).first
  | some x => (s.msghdrs x).next

/-- `*prev = v`. -/
def writePrev (s : MsgState) (q : Fin msgmni) (prev v : Option Nat) : MsgState :=
  match prev with
  | none => s.setQueue q { s.msqids q with first := v }
  | some x => s.setHdr x { s.msghdrs x with next := v }

/-- The matching header `h` is taken out of its queue. -/
def takeOut (s : MsgState) (q : Fin msgmni) (previous prev : Option Nat) (h : Nat) : Except Abort Selected :=
  let s := writePrev s q prev (s.msghdrs h).next
  let mq := s.msqids q
  if some h = mq.last then
    match previous with
    | none =>
      if prev ≠ none then .error (.panic .firstLastScrewedUp2)
      else .ok (.message (s.setQueue q { mq with first := none, last := none }) h)
    | some x =>
      if prev = none then .error (.panic .firstLastScrewedUp3)
      else .ok (.message (s.setQueue q { mq with last := some x }) h)
  else .ok (.message s h)

/-- With another `msgtyp`, the first message with a matching type is taken. -/
def selectType (s : MsgState) (q : Fin msgmni) (a : RcvArgs) :
    Nat → Option Nat → Option Nat → Except Abort Selected
  | fuel, previous, prev =>
    match readPrev s q prev with
    | none => .ok .nothing
    | some h =>
      if typeMatches a.msgtyp (s.msghdrs h).type then
        if tooLong a (s.msghdrs h) then .ok .tooBig else takeOut s q previous prev h
      else
        match fuel with
        | 0 => .error .endless
        | fuel + 1 => selectType s q a fuel (some h) (some h)

/-- The two ways a message is looked for. -/
def msgSelect (s : MsgState) (q : Fin msgmni) (a : RcvArgs) : Except Abort Selected :=
  if a.msgtyp = 0 then selectFirst s q a else selectType s q a msgtql none none

/-- The loop that copies the body out.  `tlen` is computed from the whole size and not from what is
left of it. -/
def copyOut (s : MsgState) (msgsz : Nat) :
    Nat → Nat → Int → List UInt8 → Except Abort (List UInt8)
  | 0, _, _, out => .ok out
  | fuel + 1, len, next, out =>
    if len < msgsz then
      let tlen := if msgsz > msgssz then msgssz else msgsz
      if next ≤ -1 then .error (.panic .nextTooLow3)
      else if next ≥ msgseg then .error (.panic .nextOutOfRange3)
      else
        copyOut s msgsz fuel (len + msgssz) (s.msgmaps next.toNat)
          (out ++ (List.range tlen).map (fun i => s.msgpool (next.toNat * msgssz + i)))
    else .ok out

/-- The part of `ix_msgrcv` behind its loop: the message `h` has been taken out of the queue. -/
def msgrcvCopy (s : MsgState) (q : Fin msgmni) (a : RcvArgs) (h : Nat) :
    Except Abort (MsgState × MsgOutcome) := do
  let mq := s.msqids q
  let m := s.msghdrs h
  let s := s.setQueue q
    { mq with
      cbytes := (mq.cbytes + 2 ^ 32 - m.ts) % 2 ^ 32
      qnum := (mq.qnum + 2 ^ 32 - 1) % 2 ^ 32
      lrpid := a.pid }
  let msgsz := if a.msgsz.toNat > m.ts then m.ts else a.msgsz.toNat
  let out ← copyOut s msgsz msgsz 0 m.spot []
  let s ← msgFreehdr s h
  .ok (s, .ret (plainReturn msgsz) (.message m.type out))

/-- One round of the loop of `ix_msgrcv`, and what follows it. -/
def msgrcvRound (s : MsgState) (q : Fin msgmni) (a : RcvArgs) :
    Except Abort (MsgState × MsgOutcome) := do
  let sel ← msgSelect s q a
  match sel with
  | .tooBig => .ok (s, .plain (msgFail .e2big))
  | .nothing =>
    if a.nowait then .ok (s, .plain (msgFail .eagain)) else .ok (s, .sleepRcv ⟨q, a⟩)
  | .message s h => msgrcvCopy s q a h

/-- `ix_msgrcv`, up to its return or its first sleep. -/
def msgrcv (s : MsgState) (id : Id) (a : RcvArgs) : Except Abort (MsgState × MsgOutcome) :=
  match msgCheck s id with
  | .error e => .ok (s, .plain (msgFail e))
  | .ok q => msgrcvRound s q a

/-- `ix_msgrcv` after a sleep, which a signal may have interrupted. -/
def msgrcvResume (s : MsgState) (w : RcvWaiting) (interrupted : Bool) :
    Except Abort (MsgState × MsgOutcome) :=
  let mq := s.msqids w.q
  if interrupted then .ok (s, .plain (msgFail .eintr))
  -- `msqid` is the index by now, so the sequence number compared is zero
  else if mq.qbytes = 0 ∨ mq.perm.seq ≠ ipcidToSeq (ipcidToIx (BitVec.ofNat 32 w.q)) then
    .ok (s, .plain (msgFail .einval))
  else msgrcvRound s w.q w.args

/-! ## Calls -/

/-- A step of the message tables: a call, or a sleeping call that goes on. -/
inductive MsgCall where
  | msgget (cred : Ucred) (key : Int) (flg : GetFlg)
  | msgctl (cred : Ucred) (id : Id) (cmd : MsgCmd)
  | msgsnd (id : Id) (a : SndArgs)
  | msgrcv (id : Id) (a : RcvArgs)
  | sndResume (w : SndWaiting) (interrupted : Bool)
  | rcvResume (w : RcvWaiting) (interrupted : Bool)

/-- What a step does. -/
def MsgCall.run (s : MsgState) : MsgCall → Except Abort (MsgState × MsgOutcome)
  | .msgget cred key flg =>
    let r := Ipc.msgget s cred key flg
    .ok (r.1, .plain r.2)
  | .msgctl cred id cmd => Ipc.msgctl s cred id cmd
  | .msgsnd id a => Ipc.msgsnd s id a
  | .msgrcv id a => Ipc.msgrcv s id a
  | .sndResume w interrupted => msgsndResume s w interrupted
  | .rcvResume w interrupted => msgrcvResume s w interrupted

end Ixemul.Ipc
