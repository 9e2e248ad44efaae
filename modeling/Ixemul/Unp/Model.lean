/-
# Ixemul.Unp.Model — AF_UNIX sockets: how a connection comes about (unp.c).

`unp_connect` puts its `unix_socket` into the queue of a listening socket, wakes who sleeps on the name, and
sleeps on the socket until its state says that it was accepted or not.  `unp_accept` takes a socket from the
queue, makes a descriptor for the other end, sets the state and wakes who sleeps on the socket.  Nothing
else ever sets the state.

The steps are the sections between Forbid and Permit, or under the lock of the library base, and the single
statements outside of both.  A task may leave its sleep for a signal (`intr`: one that it has to take).  An
address that was freed is not looked into.
-/
import Mathlib.Tactic.Common

namespace Ixemul.Unp

open Function

/-! ## Sockets, names and files -/

/-- UNS_WAITING, UNS_PROCESSING, UNS_ACCEPTED and UNS_ERROR. -/
inductive SockState where
  | waiting
  | processing
  | accepted
  | error
  deriving DecidableEq, Repr

/-- The test that ends the wait in `unp_connect`. -/
def SockState.Final (st : SockState) : Prop := st = .accepted ∨ st = .error

instance (st : SockState) : Decidable st.Final := inferInstanceAs (Decidable (_ ∨ _))

/-- Of a `sock_stream`, the flags UNF_NO_READER and UNF_NO_WRITER. -/
structure Stream where
  noReader : Bool
  noWriter : Bool
  deriving DecidableEq, Repr

/-- `init_stream`. -/
def Stream.init : Stream := ⟨false, false⟩

/-- A `unix_socket`; sockets, names and files are numbers.  An empty path is none. -/
structure UnixSocket where
  path : List Char
  toServer : Option Stream
  fromServer : Option Stream
  unixName : Option Nat
  server : Option Nat
  state : SockState
  deriving DecidableEq, Repr

/-- As `unp_socket` sets it up. -/
def UnixSocket.init : UnixSocket := ⟨[], none, none, none, none, .waiting⟩

/-- An `ix_unix_name`.  With each socket in the queue stands, as history, the number of the entry: how many
entries had been made in all queues before it. -/
structure UnixName where
  path : List Char
  queue : List (Nat × Nat)
  queueSize : Nat
  deriving DecidableEq, Repr

/-- Of a `struct file`, `f_sock` and `f_count`. -/
structure File where
  sock : Nat
  count : Nat
  deriving DecidableEq, Repr

/-! ## Tasks -/

/-- Where a task is.  In `connect`, `s` is its socket and `k` the entry it made. -/
inductive Pc where
  | idle
  /-- `unp_bind` found the path unused -/
  | binding (s : Nat) (path : List Char)
  /-- `unp_listen` has made its tests -/
  | listening (s backlog : Nat)
  /-- `unp_connect` has made its tests and copied the path -/
  | connecting (s : Nat) (path : List Char)
  /-- the socket is in the queue of `n` -/
  | queued (s n k : Nat)
  | asleep (s k : Nat) (woken : Bool)
  /-- out of the sleep, with what `ix_sleep` returned and the state read then -/
  | checked (s k : Nat) (intr : Bool) (state : SockState)
  /-- out of the loop -/
  | leaving (s k : Nat) (state : SockState)
  /-- `unp_accept`, before it looks at the queue of `n` -/
  | accepting (n : Nat)
  /-- it found it empty -/
  | foundEmpty (n : Nat)
  | acceptAsleep (n : Nat) (woken : Bool)
  /-- it took an entry out -/
  | taken (s k : Nat)
  /-- it has a file `f` for the other end -/
  | got (f s k : Nat)
  /-- and stored it in the socket -/
  | stored (f s k : Nat)
  /-- it set the state and has yet to wake -/
  | answered (s k : Nat)
  | returning
  deriving DecidableEq, Repr

/-- All of it.  `socks` sockets were allocated so far; they are never freed, so a new one has the next
number.  `names` is `ix_unix_names`, from its head; `name` has what is at the addresses in it.  `issued`
and `accepted` are history: the entries made, with their sockets, and those that `unp_accept` took out,
made a file for and set the state, with the file. -/
structure Sys where
  socks : Nat
  sock : Nat → UnixSocket
  names : List Nat
  name : Nat → Option UnixName
  file : Nat → Option File
  pc : Nat → Pc
  issued : List (Nat × Nat)
  accepted : List (Nat × Nat)

def Sys.init : Sys :=
  ⟨0, fun _ => UnixSocket.init, [], fun _ => none, fun _ => none, fun _ => .idle, [], []⟩

namespace Sys

def setSock (y : Sys) (s : Nat) (us : UnixSocket) : Sys := { y with sock := update y.sock s us }
def setName (y : Sys) (n : Nat) (un : UnixName) : Sys := { y with name := update y.name n (some un) }
def setFile (y : Sys) (f : Nat) (fp : Option File) : Sys := { y with file := update y.file f fp }
def setPc (y : Sys) (t : Nat) (pc : Pc) : Sys := { y with pc := update y.pc t pc }

/-- `us->state = st` -/
def setState (y : Sys) (s : Nat) (st : SockState) : Sys := y.setSock s { y.sock s with state := st }

/-- `unp_socket`, of a new socket and the file `f`. -/
def newSocket (y : Sys) (f : Nat) : Sys :=
  { (y.setSock y.socks UnixSocket.init).setFile f (some ⟨y.socks, 1⟩) with socks := y.socks + 1 }

/-- `add_unix_name` -/
def addName (y : Sys) (n : Nat) (path : List Char) (queueSize : Nat) : Sys :=
  { y.setName n ⟨path, [], if queueSize = 0 then 1 else queueSize⟩ with names := n :: y.names }

/-- `s` is put at the end of the queue of `n`, where `un` is. -/
def enter (y : Sys) (s n : Nat) (un : UnixName) : Sys :=
  { y.setName n { un with queue := un.queue ++ [(s, y.issued.length)] } with
    issued := y.issued ++ [(s, y.issued.length)] }

/-- The entry `k` of `s` has led to the file `f`. -/
def setAccepted (y : Sys) (s k f : Nat) : Sys :=
  { y.setState s .accepted with accepted := (k, f) :: y.accepted }

theorem file_setFile {y : Sys} {f g : Nat} {fp : File} {fp' : Option File}
    (h : (y.setFile g fp').file f = some fp) : fp' = some fp ∨ y.file f = some fp := by
  rcases eq_or_ne f g with rfl | hne
  · have hself : (y.setFile f fp').file f = fp' := update_self ..
    exact .inl (hself.symm.trans h)
  · exact .inr ((update_of_ne hne ..).symm.trans h)

theorem name_setName {y : Sys} {n m : Nat} {un un' : UnixName} (h : (y.setName m un').name n = some un) :
    (n = m ∧ un' = un) ∨ y.name n = some un := by
  rcases eq_or_ne n m with rfl | hne
  · have hself : (y.setName n un').name n = some un' := update_self ..
    exact .inl ⟨rfl, Option.some.inj (hself.symm.trans h)⟩
  · exact .inr ((update_of_ne hne ..).symm.trans h)

theorem forall_file_setFile {y : Sys} {f : Nat} {fp : Option File} {P : File → Prop}
    (h : ∀ f' fp', y.file f' = some fp' → P fp') (hfp : ∀ fp', fp = some fp' → P fp') (f' : Nat) (fp' : File)
    (hf : (y.setFile f fp).file f' = some fp') : P fp' :=
  (file_setFile hf).elim (hfp fp') (h f' fp')

theorem forall_name_setName {y : Sys} {n : Nat} {un : UnixName} {P : UnixName → Prop}
    (h : ∀ n' un', y.name n' = some un' → P un') (hun : P un) (n' : Nat) (un' : UnixName)
    (hn : (y.setName n un).name n' = some un') : P un' := by
  rcases name_setName hn with ⟨-, rfl⟩ | hold
  · exact hun
  · exact h n' un' hold

def findUnixName (y : Sys) (path : List Char) : Option Nat :=
  y.names.find? (fun n => match y.name n with
    | some un => un.path = path
    | none => false)

end Sys

/-- `ix_wakeup` on a socket. -/
def Pc.wakeSock (s : Nat) : Pc → Pc
  | .asleep s' k woken => .asleep s' k (woken || s' == s)
  | pc => pc

/-- `ix_wakeup` on a name. -/
def Pc.wakeName (n : Nat) : Pc → Pc
  | .acceptAsleep n' woken => .acceptAsleep n' (woken || n' == n)
  | pc => pc

def Sys.wakeSock (y : Sys) (s : Nat) : Sys := { y with pc := fun t => (y.pc t).wakeSock s }
def Sys.wakeName (y : Sys) (n : Nat) : Sys := { y with pc := fun t => (y.pc t).wakeName n }

/-! ## Sections of code -/

/-- The two calls of `init_stream` in `unp_connect`, with whether they get memory, and what follows if
the second stream is missing. -/
def initStreams (us : UnixSocket) (memTo memFrom : Bool) : UnixSocket :=
  let us := { us with toServer := if memTo then some Stream.init else none }
  let us := if memTo then { us with fromServer := if memFrom then some Stream.init else none } else us
  if us.fromServer = none then { us with toServer := none } else us

/-- Sets a flag of a stream; with both set the stream is freed. -/
def closeEnd (readStream : Bool) : Option Stream → Option Stream
  | none => none
  | some ss =>
    let ss := if readStream then { ss with noReader := true } else { ss with noWriter := true }
    if ss.noReader && ss.noWriter then none else some ss

/-- Which of the two streams file `f` reads from, or writes to: `to_server` in `close_stream`. -/
def isToServer (us : UnixSocket) (f : Nat) (readStream : Bool) : Bool :=
  if us.server ≠ some f then !readStream else readStream

/-- The first half of `close_stream`. -/
def closeStream (us : UnixSocket) (f : Nat) (readStream : Bool) : UnixSocket :=
  if isToServer us f readStream then { us with toServer := closeEnd readStream us.toServer }
  else { us with fromServer := closeEnd readStream us.fromServer }

/-- The second half, which frees the name of a listening socket that is closed. -/
def freeName (y : Sys) (s : Nat) : Sys :=
  match (y.sock s).unixName with
  | none => y
  | some n =>
    { y.setSock s { y.sock s with unixName := none } with
      names := y.names.erase n, name := update y.name n none }

/-- `unp_close`, of the last reference. -/
def closeLast (y : Sys) (f s : Nat) : Sys :=
  let y := freeName (y.setSock s (closeStream (y.sock s) f true)) s
  (y.setSock s (closeStream (y.sock s) f false)).setFile f none

/-- `unp_shutdown`. -/
def shutdown (us : UnixSocket) (f : Nat) (how : Nat) : UnixSocket :=
  match how with
  | 0 => closeStream us f true
  | 1 => closeStream us f false
  | 2 => closeStream (closeStream us f true) f false
  | _ => us

/-! What these leave alone. -/

theorem initStreams_state (us : UnixSocket) (memTo memFrom : Bool) :
    (initStreams us memTo memFrom).state = us.state := by
  cases hfrom : us.fromServer <;> cases memTo <;> cases memFrom <;> simp [initStreams, hfrom]

theorem initStreams_server (us : UnixSocket) (memTo memFrom : Bool) :
    (initStreams us memTo memFrom).server = us.server := by
  cases hfrom : us.fromServer <;> cases memTo <;> cases memFrom <;> simp [initStreams, hfrom]

@[simp] theorem closeStream_state (us : UnixSocket) (f : Nat) (readStream : Bool) :
    (closeStream us f readStream).state = us.state := by
  simp only [closeStream]
  split <;> rfl

@[simp] theorem closeStream_server (us : UnixSocket) (f : Nat) (readStream : Bool) :
    (closeStream us f readStream).server = us.server := by
  simp only [closeStream]
  split <;> rfl

@[simp] theorem closeStream_unixName (us : UnixSocket) (f : Nat) (readStream : Bool) :
    (closeStream us f readStream).unixName = us.unixName := by
  simp only [closeStream]
  split <;> rfl

@[simp] theorem shutdown_state (us : UnixSocket) (f how : Nat) : (shutdown us f how).state = us.state := by
  unfold shutdown
  split <;> simp

/-! ## Steps -/

/-- The steps by name, each with the task that makes it and what comes from outside. -/
inductive Op where
  | socket (t f : Nat)
  | dup (f : Nat)
  | bind (t f : Nat) (path : List Char)
  | bound (t : Nat)
  | bindFailed (t : Nat)
  | listen (t f backlog : Nat)
  | addName (t n : Nat)
  | noName (t : Nat)
  | connect (t f : Nat) (path : List Char)
  | refuse (t : Nat)
  | enqueue (t : Nat) (memTo memFrom : Bool)
  | wakeListener (t : Nat) (intr : Bool)
  | woken (t : Nat) (intr : Bool)
  | again (t : Nat) (intr : Bool)
  | leave (t : Nat)
  | ret (t : Nat)
  | accept (t f : Nat)
  | lookEmpty (t : Nat)
  | wouldBlock (t : Nat)
  | acceptSleep (t : Nat)
  | acceptWoken (t : Nat)
  | take (t : Nat)
  | newFile (t f : Nat)
  | noFile (t : Nat)
  | storeServer (t : Nat)
  | setAccepted (t : Nat)
  | wakeClient (t : Nat)
  | acceptRet (t : Nat)
  | shutdown (t f how : Nat)
  | close (t f : Nat)

inductive Step : Sys → Op → Sys → Prop where
  | socket {y : Sys} {t f : Nat} (ht : y.pc t = .idle) (hf : y.file f = none) :
      Step y (.socket t f) (y.newSocket f)
  /-- `dup`, `vfork` and the like -/
  | dup {y : Sys} {f : Nat} {fp : File} (hf : y.file f = some fp) :
      Step y (.dup f) (y.setFile f (some ⟨fp.sock, fp.count + 1⟩))
  | bind {y : Sys} {t f : Nat} {fp : File} {path : List Char} (ht : y.pc t = .idle) (hf : y.file f = some fp)
      (hp : (y.sock fp.sock).path = []) (hn : y.findUnixName path = none) :
      Step y (.bind t f path) (y.setPc t (.binding fp.sock path))
  | bound {y : Sys} {t s : Nat} {path : List Char} (ht : y.pc t = .binding s path) :
      Step y (.bound t) ((y.setSock s { y.sock s with path }).setPc t .idle)
  /-- the file could not be created -/
  | bindFailed {y : Sys} {t s : Nat} {path : List Char} (ht : y.pc t = .binding s path) :
      Step y (.bindFailed t) (y.setPc t .idle)
  | listen {y : Sys} {t f backlog : Nat} {fp : File} (ht : y.pc t = .idle) (hf : y.file f = some fp)
      (hp : (y.sock fp.sock).path ≠ []) (hn : (y.sock fp.sock).unixName = none)
      (hto : (y.sock fp.sock).toServer = none) (hfrom : (y.sock fp.sock).fromServer = none) :
      Step y (.listen t f backlog) (y.setPc t (.listening fp.sock backlog))
  | addName {y : Sys} {t s n backlog : Nat} (ht : y.pc t = .listening s backlog) (hn : y.name n = none) :
      Step y (.addName t n)
        (((y.addName n (y.sock s).path backlog).setSock s
          { y.sock s with unixName := some n }).setPc t .idle)
  /-- there was no memory -/
  | noName {y : Sys} {t s backlog : Nat} (ht : y.pc t = .listening s backlog) :
      Step y (.noName t) ((y.setSock s { y.sock s with unixName := none }).setPc t .idle)
  | connect {y : Sys} {t f : Nat} {fp : File} {path : List Char} (ht : y.pc t = .idle)
      (hf : y.file f = some fp) (hn : (y.sock fp.sock).unixName = none)
      (hto : (y.sock fp.sock).toServer = none) (hfrom : (y.sock fp.sock).fromServer = none) :
      Step y (.connect t f path)
        ((y.setSock fp.sock { y.sock fp.sock with path }).setPc t (.connecting fp.sock path))
  /-- the name is not there, or its queue is full -/
  | refuse {y : Sys} {t s : Nat} {path : List Char} (ht : y.pc t = .connecting s path)
      (h : ∀ n un, y.findUnixName path = some n → y.name n = some un → un.queueSize = un.queue.length) :
      Step y (.refuse t) (y.setPc t .idle)
  | noMemory {y : Sys} {t s n : Nat} {path : List Char} {un : UnixName} {memTo memFrom : Bool}
      (ht : y.pc t = .connecting s path) (hn : y.findUnixName path = some n) (hun : y.name n = some un)
      (hfull : un.queueSize ≠ un.queue.length)
      (hmem : (initStreams (y.sock s) memTo memFrom).fromServer = none) :
      Step y (.enqueue t memTo memFrom) ((y.setSock s (initStreams (y.sock s) memTo memFrom)).setPc t .idle)
  | enqueue {y : Sys} {t s n : Nat} {path : List Char} {un : UnixName} {memTo memFrom : Bool}
      (ht : y.pc t = .connecting s path) (hn : y.findUnixName path = some n) (hun : y.name n = some un)
      (hfull : un.queueSize ≠ un.queue.length)
      (hmem : (initStreams (y.sock s) memTo memFrom).fromServer ≠ none) :
      Step y (.enqueue t memTo memFrom)
        (((y.setSock s (initStreams (y.sock s) memTo memFrom)).enter s n un).setPc t
          (.queued s n y.issued.length))
  /-- woken, the state is already what it should be -/
  | noSleep {y : Sys} {t s n k : Nat} {intr : Bool} (ht : y.pc t = .queued s n k)
      (hst : (y.sock s).state.Final) :
      Step y (.wakeListener t intr) ((y.wakeName n).setPc t (.leaving s k (y.sock s).state))
  /-- otherwise `ix_sleep`, which does not sleep if a signal is there -/
  | sleep {y : Sys} {t s n k : Nat} {intr : Bool} (ht : y.pc t = .queued s n k)
      (hst : ¬ (y.sock s).state.Final) :
      Step y (.wakeListener t intr)
        ((y.wakeName n).setPc t (if intr then .checked s k true (y.sock s).state else .asleep s k false))
  | woken {y : Sys} {t s k : Nat} {woken intr : Bool} (ht : y.pc t = .asleep s k woken) :
      Step y (.woken t intr) (y.setPc t (.checked s k intr (y.sock s).state))
  /-- the loop goes by the state that was read, not by the state that is -/
  | again {y : Sys} {t s k : Nat} {intr intr' : Bool} {st : SockState} (ht : y.pc t = .checked s k intr st)
      (h : intr = true ∨ ¬ st.Final) :
      Step y (.again t intr')
        (y.setPc t (if intr' then .checked s k true (y.sock s).state else .asleep s k false))
  | leave {y : Sys} {t s k : Nat} {st : SockState} (ht : y.pc t = .checked s k false st) (h : st.Final) :
      Step y (.leave t) (y.setPc t (.leaving s k st))
  | ret {y : Sys} {t s k : Nat} {st : SockState} (ht : y.pc t = .leaving s k st) (h : st ≠ .error) :
      Step y (.ret t) (y.setPc t .idle)
  | retError {y : Sys} {t s k : Nat} (ht : y.pc t = .leaving s k .error) :
      Step y (.ret t)
        ((y.setSock s { y.sock s with toServer := none, fromServer := none }).setPc t .idle)
  | accept {y : Sys} {t f n : Nat} {fp : File} (ht : y.pc t = .idle) (hf : y.file f = some fp)
      (hn : (y.sock fp.sock).unixName = some n) : Step y (.accept t f) (y.setPc t (.accepting n))
  | lookEmpty {y : Sys} {t n : Nat} {un : UnixName} (ht : y.pc t = .accepting n) (hn : y.name n = some un)
      (hq : un.queue = []) : Step y (.lookEmpty t) (y.setPc t (.foundEmpty n))
  /-- FNDELAY is set -/
  | wouldBlock {y : Sys} {t n : Nat} (ht : y.pc t = .foundEmpty n) : Step y (.wouldBlock t) (y.setPc t .idle)
  | acceptSleep {y : Sys} {t n : Nat} (ht : y.pc t = .foundEmpty n) :
      Step y (.acceptSleep t) (y.setPc t (.acceptAsleep n false))
  | acceptWoken {y : Sys} {t n : Nat} {woken : Bool} (ht : y.pc t = .acceptAsleep n woken) :
      Step y (.acceptWoken t) (y.setPc t (.accepting n))
  | take {y : Sys} {t n s k : Nat} {un : UnixName} {queue : List (Nat × Nat)} (ht : y.pc t = .accepting n)
      (hn : y.name n = some un) (hq : un.queue = (s, k) :: queue) :
      Step y (.take t) (((y.setName n { un with queue }).setState s .processing).setPc t (.taken s k))
  | newFile {y : Sys} {t f s k : Nat} (ht : y.pc t = .taken s k) (hf : y.file f = none) :
      Step y (.newFile t f) ((y.setFile f (some ⟨s, 1⟩)).setPc t (.got f s k))
  | noFile {y : Sys} {t s k : Nat} (ht : y.pc t = .taken s k) :
      Step y (.noFile t) ((y.setState s .error).setPc t (.answered s k))
  | storeServer {y : Sys} {t f s k : Nat} (ht : y.pc t = .got f s k) :
      Step y (.storeServer t) ((y.setSock s { y.sock s with server := some f }).setPc t (.stored f s k))
  | setAccepted {y : Sys} {t f s k : Nat} (ht : y.pc t = .stored f s k) :
      Step y (.setAccepted t) ((y.setAccepted s k f).setPc t (.answered s k))
  | wakeClient {y : Sys} {t s k : Nat} (ht : y.pc t = .answered s k) :
      Step y (.wakeClient t) ((y.wakeSock s).setPc t .returning)
  | acceptRet {y : Sys} {t : Nat} (ht : y.pc t = .returning) : Step y (.acceptRet t) (y.setPc t .idle)
  | shutdown {y : Sys} {t f how : Nat} {fp : File} (ht : y.pc t = .idle) (hf : y.file f = some fp) :
      Step y (.shutdown t f how) (y.setSock fp.sock (shutdown (y.sock fp.sock) f how))
  | close {y : Sys} {t f s count : Nat} (ht : y.pc t = .idle) (hf : y.file f = some ⟨s, count + 2⟩) :
      Step y (.close t f) (y.setFile f (some ⟨s, count + 1⟩))
  | closeLast {y : Sys} {t f s : Nat} (ht : y.pc t = .idle) (hf : y.file f = some ⟨s, 1⟩) :
      Step y (.close t f) (closeLast y f s)

end Ixemul.Unp
