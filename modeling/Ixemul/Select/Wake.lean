/-
# Ixemul.Select.Wake — who signals a task that waits in `ix_select` (select.c, unp.c, pipe.c).

Where no descriptor is ready, `ix_select` prepares each of them and waits.  For a pipe or a socket,
`unp_select` leaves the task in the `task` field of the stream, or of the name of a listening socket, and
whoever changes the stream or the queue sends that task its pipe signal.  There is one field for all who
select: a second task takes the place of the first, and on a name already a poll empties it.  The stream is
tested once more after the field is set, the queue of a name is not.  Closing an end sends the number that
the closing task uses itself, and freeing a stream sends nothing.

One pass of the loops of `stream_read` and `stream_write` is one step.  Addresses are not used twice, and
what was freed is not looked into.
-/
import Ixemul.Stream.Wakeup

namespace Ixemul.Select.Wake

open Lib.Run
open Ixemul.Stream (SockStream canRead canWrite initStream)
open Ixemul.Stream.Wakeup (Call turn setFlag streamIsClosed)
open Function List

variable {α : Type*}

/-! ## Streams, names and descriptors -/

/-- The queue of a `struct ix_unix_name`. -/
structure Queue where
  queueSize : Nat
  queueIndex : Nat

/-- What is at an address. -/
inductive Object (α : Type*) where
  | stream (ss : SockStream α)
  | name (un : Queue)

/-- SELMODE_IN and SELMODE_OUT. -/
inductive Mode where
  | read
  | write

/-- A selected descriptor. -/
structure Item where
  target : Nat
  mode : Mode

/-- The condition that `unp_select` tests. -/
def Object.isReady (mode : Mode) : Object α → Bool
  | .stream ss =>
    match mode with
    | .read => canRead ss || ss.noWriter
    | .write => canWrite ss || ss.noReader
  | .name un =>
    match mode with
    | .read => un.queueIndex ≠ 0
    | .write => false

/-- The object is in use: a stream is freed with its second end, and the pointer to it cleared. -/
def Object.isLive : Object α → Bool
  | .stream ss => !streamIsClosed ss
  | .name _ => true

def Object.isName : Object α → Bool
  | .stream _ => false
  | .name _ => true

/-! ## Tasks -/

/-- Where a task is. -/
inductive Pc where
  | idle
  /-- in the first pass of `ix_select`, with what is left to poll and whether a descriptor was ready -/
  | polling (items todo : List Item) (ready : Bool)
  /-- SELCMD_PREPARE is done for some, and to be done for the others -/
  | preparing (done todo : List Item)
  /-- in SELCMD_PREPARE on a stream, the field is set and the test not made -/
  | testing (done : List Item) (i : Item) (todo : List Item)
  /-- in SELCMD_PREPARE on a name, the field is emptied and not set yet -/
  | entering (done : List Item) (i : Item) (todo : List Item)
  | waiting (items : List Item)
  /-- Wait has returned, SELCMD_CHECK is to be done for some -/
  | checking (items todo : List Item) (ready : Bool)
  /-- it has moved a pointer of this stream, or queued itself at this name, and is before Signal -/
  | changed (x : Nat)
  /-- it has set its flag in `close_stream`, and is before Signal -/
  | shut (x : Nat)

/-- The descriptors for which the task has set the field. -/
def Pc.held : Pc → List Item
  | .preparing done _ => done
  | .testing done i _ => done ++ [i]
  | .entering done _ _ => done
  | .waiting items => items
  | _ => []

/-- Those for which SELCMD_PREPARE is done. -/
def Pc.prepared : Pc → List Item
  | .preparing done _ => done
  | .testing done _ _ => done
  | .entering done _ _ => done
  | .waiting items => items
  | _ => []

theorem Pc.held_of_prepared {pc : Pc} {i : Item} (h : i ∈ pc.prepared) : i ∈ pc.held := by
  cases pc with
  | testing => exact mem_append_left _ h
  | _ => exact h

structure Sys (α : Type*) where
  obj : Nat → Option (Object α)
  /-- the `task` field of the stream or name -/
  task : Nat → Option Nat
  /-- `getuser (task)->u_pipe_sig` -/
  sig : Nat → Nat
  /-- the `u.u_pipe_sig` that the task uses in unp.c: a child of `ix_CreateChildData` takes its parent's -/
  uSig : Nat → Nat
  /-- the signals each task has received -/
  pending : Nat → Nat → Bool
  pc : Nat → Pc

namespace Sys

def isReady (y : Sys α) (i : Item) : Bool :=
  match y.obj i.target with
  | some o => o.isReady i.mode
  | none => false

def isLive (y : Sys α) (x : Nat) : Bool :=
  match y.obj x with
  | some o => o.isLive
  | none => false

def isName (y : Sys α) (x : Nat) : Bool :=
  match y.obj x with
  | some o => o.isName
  | none => false

def setPc (y : Sys α) (t : Nat) (pc : Pc) : Sys α := { y with pc := update y.pc t pc }

def setTask (y : Sys α) (x : Nat) (task : Option Nat) : Sys α :=
  { y with task := update y.task x task }

def setObj (y : Sys α) (x : Nat) (o : Option (Object α)) : Sys α :=
  { y with obj := update y.obj x o }

/-- `if (task) Signal (task, 1 << sig)` -/
def signal (y : Sys α) (task : Option Nat) (sig : Nat → Nat) : Sys α :=
  match task with
  | some u => { y with pending := update y.pending u (update (y.pending u) (sig u) true) }
  | none => y

/-- `unp_select` with SELCMD_POLL or SELCMD_CHECK, as far as it changes the field: a check of a stream
gives up the task's own place there, and both commands empty the field of a name. -/
def look (y : Sys α) (t : Nat) (check : Bool) (x : Nat) : Sys α :=
  if y.isName x then y.setTask x none
  else if y.isLive x ∧ check ∧ y.task x = some t then y.setTask x none
  else y

/-- What `unp_select` returns for these: nothing is ready where there is neither stream nor name. -/
def found (y : Sys α) (i : Item) : Bool := y.isLive i.target && y.isReady i

/-- Task `c` is about to signal whoever is in the field, with the number that task `t` has. -/
def WillSignal (y : Sys α) (c t x : Nat) : Prop :=
  y.pc c = .changed x ∨ (y.pc c = .shut x ∧ y.uSig c = y.sig t)

end Sys

/-! ## Steps -/

inductive Op (α : Type*) where
  | call (t : Nat) (items : List Item)
  | poll (t : Nat) (i : Item)
  | prepareAll (t : Nat)
  | prepare (t : Nat) (i : Item)
  | test (t : Nat) (i : Item)
  | enter (t : Nat) (i : Item)
  | wait (t : Nat)
  | wake (t : Nat)
  | check (t : Nat) (i : Item)
  | ret (t : Nat)
  | move (c x : Nat) (call : Call α)
  | connect (c x x' un : Nat)
  | signal (c : Nat)
  | accept (un : Nat)
  | refused (x x' : Nat)
  | listen (un queueSize : Nat)
  | pclose (c x : Nat) (readStream : Bool)
  | closeStream (c x : Nat) (readStream : Bool)
  | closeName (un : Nat)

inductive Step : Sys α → Op α → Sys α → Prop where
  | call {y : Sys α} {t : Nat} {items : List Item} (ht : y.pc t = .idle) :
      Step y (.call t items) (y.setPc t (.polling items items false))
  | poll {y : Sys α} {t : Nat} {items todo : List Item} {i : Item} {ready : Bool}
      (ht : y.pc t = .polling items (i :: todo) ready) :
      Step y (.poll t i) ((y.look t false i.target).setPc t (.polling items todo (ready || y.found i)))
  | polled {y : Sys α} {t : Nat} {items : List Item} (ht : y.pc t = .polling items [] false) :
      Step y (.prepareAll t) (y.setPc t (.preparing [] items))
  /-- a descriptor was ready, or the timeout is 0 -/
  | pollReturns {y : Sys α} {t : Nat} {items : List Item} {ready : Bool}
      (ht : y.pc t = .polling items [] ready) : Step y (.ret t) (y.setPc t .idle)
  | prepareStream {y : Sys α} {t : Nat} {i : Item} {done todo : List Item} {ss : SockStream α}
      (ht : y.pc t = .preparing done (i :: todo)) (hx : y.obj i.target = some (.stream ss))
      (hlive : streamIsClosed ss = false) :
      Step y (.prepare t i) ((y.setTask i.target (some t)).setPc t (.testing done i todo))
  | prepareName {y : Sys α} {t : Nat} {i : Item} {done todo : List Item} {un : Queue}
      (ht : y.pc t = .preparing done (i :: todo)) (hx : y.obj i.target = some (.name un)) :
      Step y (.prepare t i) ((y.setTask i.target none).setPc t (.entering done i todo))
  | prepareNone {y : Sys α} {t : Nat} {i : Item} {done todo : List Item}
      (ht : y.pc t = .preparing done (i :: todo)) (hlive : y.isLive i.target = false) :
      Step y (.prepare t i) (y.setPc t (.preparing (done ++ [i]) todo))
  | test {y : Sys α} {t : Nat} {i : Item} {done todo : List Item} (ht : y.pc t = .testing done i todo)
      (hlive : y.isLive i.target = true) :
      Step y (.test t i) ((if y.isReady i then y.signal (y.task i.target) (fun _ => y.uSig t) else y).setPc t
        (.preparing (done ++ [i]) todo))
  /-- the base is locked from `prepareName` on, but not for who signals -/
  | enter {y : Sys α} {t : Nat} {i : Item} {done todo : List Item} {un : Queue}
      (ht : y.pc t = .entering done i todo) (hx : y.obj i.target = some (.name un)) :
      Step y (.enter t i) ((y.setTask i.target (some t)).setPc t (.preparing (done ++ [i]) todo))
  | wait {y : Sys α} {t : Nat} {done : List Item} (ht : y.pc t = .preparing done []) :
      Step y (.wait t) (y.setPc t (.waiting done))
  /-- Wait returns, for a pipe signal or another, and takes some of the signals away -/
  | wake {y : Sys α} {t : Nat} {items : List Item} {rest : Nat → Bool} (ht : y.pc t = .waiting items)
      (hrest : ∀ s, rest s = true → y.pending t s = true) :
      Step y (.wake t)
        (({ y with pending := update y.pending t rest } : Sys α).setPc t
          (.checking items items false))
  | check {y : Sys α} {t : Nat} {items todo : List Item} {i : Item} {ready : Bool}
      (ht : y.pc t = .checking items (i :: todo) ready) :
      Step y (.check t i) ((y.look t true i.target).setPc t (.checking items todo (ready || y.found i)))
  | again {y : Sys α} {t : Nat} {items : List Item} (ht : y.pc t = .checking items [] false) :
      Step y (.prepareAll t) (y.setPc t (.preparing [] items))
  | checkReturns {y : Sys α} {t : Nat} {items : List Item} {ready : Bool}
      (ht : y.pc t = .checking items [] ready) : Step y (.ret t) (y.setPc t .idle)
  /-- a pass of `stream_read` or `stream_write` that moves a pointer -/
  | move {y : Sys α} {c x : Nat} {ss ss' : SockStream α} {call call' : Call α} (hc : y.pc c = .idle)
      (hx : y.obj x = some (.stream ss)) (hlive : streamIsClosed ss = false)
      (h : turn ss call = .copy ss' call') :
      Step y (.move c x call) ((y.setObj x (some (.stream ss'))).setPc c (.changed x))
  | connect {y : Sys α} {c x x' n : Nat} {un : Queue} {buffer buffer' : Nat → α} (hc : y.pc c = .idle)
      (hn : y.obj n = some (.name un)) (hroom : un.queueSize ≠ un.queueIndex) (hx : y.obj x = none)
      (hx' : y.obj x' = none) :
      Step y (.connect c x x' n)
        (((((y.setObj x (some (.stream (initStream buffer)))).setTask x none).setObj x'
          (some (.stream (initStream buffer')))).setTask x' none).setObj n
          (some (.name { un with queueIndex := un.queueIndex + 1 })) |>.setPc c (.changed n))
  /-- between Forbid and Permit -/
  | signal {y : Sys α} {c x : Nat} (hc : y.pc c = .changed x) :
      Step y (.signal c) ((if y.isLive x then y.signal (y.task x) y.sig else y).setPc c .idle)
  | accept {y : Sys α} {n : Nat} {un : Queue} (hn : y.obj n = some (.name un)) (hsome : un.queueIndex ≠ 0) :
      Step y (.accept n) (y.setObj n (some (.name { un with queueIndex := un.queueIndex - 1 })))
  /-- `unp_connect` finds UNS_ERROR, and frees its streams -/
  | refused {y : Sys α} {x x' : Nat} :
      Step y (.refused x x') ((y.setObj x none).setObj x' none)
  | listen {y : Sys α} {n queueSize : Nat} (hn : y.obj n = none) :
      Step y (.listen n queueSize) ((y.setObj n (some (.name ⟨queueSize, 0⟩))).setTask n none)
  /-- the last `__pclose` of a file, between Forbid and Permit -/
  | pclose {y : Sys α} {c x : Nat} {ss : SockStream α} {readStream : Bool} (hc : y.pc c = .idle)
      (hx : y.obj x = some (.stream ss)) (hlive : streamIsClosed ss = false) :
      Step y (.pclose c x readStream)
        ((if streamIsClosed (setFlag readStream ss) then y
          else y.signal (y.task x) (fun _ => y.sig c)).setObj x (some (.stream (setFlag readStream ss))))
  /-- `close_stream` up to its Signal -/
  | closeStream {y : Sys α} {c x : Nat} {ss : SockStream α} {readStream : Bool} (hc : y.pc c = .idle)
      (hx : y.obj x = some (.stream ss)) (hlive : streamIsClosed ss = false) :
      Step y (.closeStream c x readStream) ((y.setObj x (some (.stream (setFlag readStream ss)))).setPc c
        (if streamIsClosed (setFlag readStream ss) then .idle else .shut x))
  | shutSignal {y : Sys α} {c x : Nat} (hc : y.pc c = .shut x) :
      Step y (.signal c) ((if y.isLive x then y.signal (y.task x) (fun _ => y.uSig c) else y).setPc c .idle)
  | closeName {y : Sys α} {n : Nat} {un : Queue} (hn : y.obj n = some (.name un)) :
      Step y (.closeName n) (y.setObj n none)

/-! ## Steps that leave waiting tasks alone -/

/-- The field is empty or the task's own. -/
def Sys.Free (y : Sys α) (t x : Nat) : Prop := y.task x = none ∨ y.task x = some t

/-- The end is not the last of its stream, and the number `s` is the one that the task in the field has. -/
def Sys.ClosesFor (y : Sys α) (x : Nat) (readStream : Bool) (s : Nat) : Prop :=
  ∀ u, y.task x = some u → s = y.sig u ∧
    ∀ ss, y.obj x = some (.stream ss) → streamIsClosed (setFlag readStream ss) = false

/-- The step takes nobody's place, prepares nothing that is freed, no name twice, and no name with a
connection that was announced before, and uses the number of the task it signals. -/
def Orderly (y : Sys α) : Op α → Prop
  | .poll t i => y.isName i.target = true → y.Free t i.target
  | .check t i => y.isName i.target = true → y.Free t i.target
  | .prepare t i => (y.isLive i.target = true → y.Free t i.target) ∧
      (y.isReady i = true → y.isLive i.target = true) ∧
      (y.isName i.target = true → ∀ j ∈ (y.pc t).prepared, j.target ≠ i.target)
  | .test t i => y.isReady i = true → y.uSig t = y.sig t
  | .enter t i => y.Free t i.target ∧ (y.isReady i = true → ∃ c, y.pc c = .changed i.target)
  | .connect _ x x' _ => ∀ t, ∀ i ∈ (y.pc t).held, i.target ≠ x ∧ i.target ≠ x'
  | .listen n _ => ∀ t, ∀ i ∈ (y.pc t).held, i.target ≠ n
  | .pclose c x readStream => y.ClosesFor x readStream (y.sig c)
  | .closeStream c x readStream => y.ClosesFor x readStream (y.uSig c)
  | _ => True

/-! ## The invariant -/

/-- The signal of task `t` is pending, or another task is about to send it. -/
def Sys.Woken (y : Sys α) (t x : Nat) : Prop := y.pending t (y.sig t) = true ∨ ∃ c, y.WillSignal c t x

structure Inv (y : Sys α) : Prop where
  held : ∀ t, ∀ i ∈ (y.pc t).held, y.isLive i.target = true → y.task i.target = some t
  woken : ∀ t, ∀ i ∈ (y.pc t).prepared, y.isReady i = true → y.isLive i.target = true ∧ y.Woken t i.target

/-- Whom the task is about to signal. -/
def Pc.signals : Pc → Option Nat
  | .changed x => some x
  | .shut x => some x
  | _ => none

section Parts

variable {y : Sys α} {c t x : Nat} {o : Object α} {pc pc₀ : Pc}

theorem setPc_self (y : Sys α) (t : Nat) (pc : Pc) : (y.setPc t pc).pc t = pc := update_self ..

theorem setPc_of_ne (y : Sys α) (h : c ≠ t) (pc : Pc) : (y.setPc t pc).pc c = y.pc c :=
  update_of_ne h ..

theorem setObj_self (y : Sys α) (x : Nat) (o : Option (Object α)) : (y.setObj x o).obj x = o :=
  update_self ..

theorem isLive_of_obj (h : y.obj x = some o) : y.isLive x = o.isLive := by
  simp only [Sys.isLive, h]

theorem isName_of_obj (h : y.obj x = some o) : y.isName x = o.isName := by
  simp only [Sys.isName, h]

theorem isReady_of_obj {i : Item} (h : y.obj i.target = some o) : y.isReady i = o.isReady i.mode := by
  simp only [Sys.isReady, h]

theorem isLive_setObj_of_ne {x' : Nat} (h : x' ≠ x) (o : Option (Object α)) :
    (y.setObj x o).isLive x' = y.isLive x' := by
  simp only [Sys.isLive, Sys.setObj, update_of_ne h]

theorem isReady_setObj_of_ne {i : Item} (h : i.target ≠ x) (o : Option (Object α)) :
    (y.setObj x o).isReady i = y.isReady i := by
  simp only [Sys.isReady, Sys.setObj, update_of_ne h]

theorem signals_of_willSignal (h : y.WillSignal c t x) : (y.pc c).signals = some x := by
  rcases h with h | ⟨h, -⟩ <;> simp only [h, Pc.signals]

theorem Sys.Woken.setPc (h : y.Woken t x) (hc : y.WillSignal c t x → y.pending t (y.sig t)) (pc : Pc) :
    (y.setPc c pc).Woken t x := by
  rcases h with hpending | ⟨c', hc'⟩
  · exact .inl hpending
  · by_cases hcc : c' = c
    · rw [hcc] at hc'
      exact .inl (hc hc')
    · refine .inr ⟨c', ?_⟩
      rw [Sys.WillSignal, setPc_of_ne y hcc]
      exact hc'

/-- One task goes to another place in the code. -/
theorem Inv.setPc (h : Inv y)
    (hsent : ∀ t, ∀ i ∈ (y.pc t).prepared, y.isLive i.target → y.WillSignal c t i.target →
      y.pending t (y.sig t))
    (hheld : ∀ i ∈ pc.held, y.isLive i.target → y.task i.target = some c)
    (hprep : ∀ i ∈ pc.prepared, y.isReady i →
      y.isLive i.target ∧ (y.setPc c pc).Woken c i.target) :
    Inv (y.setPc c pc) where
  held := (forall_update_iff y.pc fun t pc => ∀ i ∈ pc.held, y.isLive i.target →
    y.task i.target = some t).mpr ⟨hheld, fun t _ => h.held t⟩
  woken := by
    refine (forall_update_iff y.pc fun t pc' => ∀ i ∈ pc'.prepared, y.isReady i →
      y.isLive i.target ∧ (y.setPc c pc).Woken t i.target).mpr ⟨hprep, fun t _ i hi hready => ?_⟩
    obtain ⟨hlive, hwoken⟩ := h.woken t i hi hready
    exact ⟨hlive, hwoken.setPc (hsent t i hi hlive) pc⟩

/-- The same for a task that has no signal to send. -/
theorem Inv.setPc_quiet (h : Inv y) (ht : y.pc c = pc₀) (hc : pc₀.signals = none)
    (hheld : ∀ i ∈ pc.held, y.isLive i.target → y.task i.target = some c)
    (hprep : ∀ i ∈ pc.prepared, y.isReady i → y.isLive i.target ∧ y.Woken c i.target) :
    Inv (y.setPc c pc) := by
  subst ht
  have hnot : ∀ t x, ¬ y.WillSignal c t x := by
    intro t x hwill
    cases hc.symm.trans (signals_of_willSignal hwill)
  refine h.setPc (fun t i _ _ hwill => absurd hwill (hnot t _)) hheld fun i hi hready => ?_
  obtain ⟨hlive, hwoken⟩ := hprep i hi hready
  exact ⟨hlive, hwoken.setPc (fun hwill => absurd hwill (hnot c _)) pc⟩

theorem Inv.setPc_nil (h : Inv y) (ht : y.pc c = pc₀) (hc : pc₀.signals = none) (hpc : pc.held = []) :
    Inv (y.setPc c pc) := by
  refine h.setPc_quiet ht hc (fun i hi => ?_) fun i hi => ?_
  · rw [hpc] at hi
    cases hi
  · have hheld := Pc.held_of_prepared hi
    rw [hpc] at hheld
    cases hheld

theorem signal_pending_mono (y : Sys α) (task : Option Nat) (sig : Nat → Nat) {s : Nat}
    (h : y.pending t s) :
    (y.signal task sig).pending t s := by
  cases task with
  | none => exact h
  | some u =>
    by_cases ht : t = u
    · subst ht
      by_cases hs : s = sig t <;> simp [Sys.signal, hs, h]
    · simpa [Sys.signal, update_of_ne ht] using h

theorem signal_pending_self (y : Sys α) (t : Nat) (sig : Nat → Nat) :
    (y.signal (some t) sig).pending t (sig t) := by
  simp [Sys.signal]

/-! A signal changes nothing else. -/

section

variable (y : Sys α) (task : Option Nat) (sig : Nat → Nat)

@[simp]
theorem signal_pc : (y.signal task sig).pc = y.pc := by cases task <;> rfl

@[simp]
theorem signal_obj : (y.signal task sig).obj = y.obj := by cases task <;> rfl

@[simp]
theorem signal_task : (y.signal task sig).task = y.task := by cases task <;> rfl

@[simp]
theorem signal_sig : (y.signal task sig).sig = y.sig := by cases task <;> rfl

@[simp]
theorem signal_isLive (x : Nat) : (y.signal task sig).isLive x = y.isLive x := by
  simp only [Sys.isLive, signal_obj]

@[simp]
theorem signal_isReady (i : Item) : (y.signal task sig).isReady i = y.isReady i := by
  simp only [Sys.isReady, signal_obj]

@[simp]
theorem signal_willSignal (c t x : Nat) : (y.signal task sig).WillSignal c t x ↔ y.WillSignal c t x := by
  cases task <;> rfl

end

theorem Sys.Woken.signal (h : y.Woken t x) (task : Option Nat) (sig : Nat → Nat) :
    (y.signal task sig).Woken t x := by
  rcases h with hpending | hwill
  · left
    rw [signal_sig]
    exact signal_pending_mono y task sig hpending
  · right
    simpa only [signal_willSignal] using hwill

/-- A signal more does no harm. -/
theorem Inv.signal (h : Inv y) (task : Option Nat) (sig : Nat → Nat) : Inv (y.signal task sig) where
  held := by
    simp only [signal_pc, signal_isLive, signal_task]
    exact h.held
  woken := by
    simp only [signal_pc, signal_isReady, signal_isLive]
    intro t i hi hready
    obtain ⟨hlive, hwoken⟩ := h.woken t i hi hready
    exact ⟨hlive, hwoken.signal task sig⟩

theorem Inv.setTask (h : Inv y) {task : Option Nat}
    (hx : ∀ t, ∀ i ∈ (y.pc t).held, i.target = x → y.isLive x → task = some t) :
    Inv (y.setTask x task) where
  held := by
    intro t i hi hlive
    by_cases htarget : i.target = x
    · rw [htarget] at hlive ⊢
      rw [hx t i hi htarget hlive]
      exact update_self ..
    · exact (update_of_ne htarget ..).trans (h.held t i hi hlive)
  woken := h.woken

/-- A stream or a name changes: what becomes ready is signalled, and nothing comes back to life. -/
theorem Inv.setObj (h : Inv y) {o : Option (Object α)}
    (hlive : ∀ t, ∀ i ∈ (y.pc t).held, i.target = x → (y.setObj x o).isLive x → y.isLive x)
    (hready : ∀ t, ∀ i ∈ (y.pc t).prepared, i.target = x → (y.setObj x o).isReady i →
      (y.setObj x o).isLive x ∧ y.Woken t x) :
    Inv (y.setObj x o) where
  held := by
    intro t i hi hl
    by_cases htarget : i.target = x
    · rw [htarget] at hl
      refine h.held t i hi ?_
      rw [htarget]
      exact hlive t i hi htarget hl
    · rw [isLive_setObj_of_ne htarget] at hl
      exact h.held t i hi hl
  woken := by
    intro t i hi hr
    by_cases htarget : i.target = x
    · rw [htarget]
      exact hready t i hi htarget hr
    · rw [isReady_setObj_of_ne htarget] at hr
      rw [isLive_setObj_of_ne htarget]
      exact h.woken t i hi hr

/-- Who finds the field free is the only one to hold it. -/
theorem Inv.eq_of_free (h : Inv y) (hfree : y.Free t x) {t' : Nat} {i : Item}
    (hi : i ∈ (y.pc t').held) (htarget : i.target = x) (hlive : y.isLive x) : t' = t := by
  subst htarget
  have htask := h.held t' i hi hlive
  rcases hfree with hnone | hown
  · cases hnone.symm.trans htask
  · exact Option.some.inj (htask.symm.trans hown)

/-- Polling and checking. -/
theorem Inv.look (h : Inv y) (ht : y.pc t = pc₀) (hnil : pc₀.held = [])
    (hfree : y.isName x → y.Free t x) (check : Bool) : Inv (y.look t check x) := by
  have hempty (hfree' : y.Free t x) : Inv (y.setTask x none) := by
    refine h.setTask fun t' i hi htarget hlive => ?_
    rw [h.eq_of_free hfree' hi htarget hlive, ht, hnil] at hi
    cases hi
  unfold Sys.look
  split_ifs with hname hown
  · exact hempty (hfree hname)
  · exact hempty (.inr hown.2.2)
  · exact h

/-- Preparing: the field is set by a task whose place it is. -/
theorem Inv.take (h : Inv y) (hfree : y.isLive x → y.Free t x) : Inv (y.setTask x (some t)) := by
  refine h.setTask fun t' i hi htarget hlive => ?_
  rw [h.eq_of_free (hfree hlive) hi htarget hlive]

/-- The signal that was owed is sent. -/
theorem Inv.signalled (h : Inv y) {sig : Nat → Nat} (ht : y.pc c = pc₀) (hc : pc₀.signals = some x)
    (hsig : ∀ t, y.WillSignal c t x → sig t = y.sig t) :
    Inv ((if y.isLive x then y.signal (y.task x) sig else y).setPc c .idle) := by
  subst ht
  have htarget : ∀ t x', y.WillSignal c t x' → x' = x := fun t x' hwill =>
    (Option.some.inj (hc.symm.trans (signals_of_willSignal hwill))).symm
  split
  next hlive =>
    refine (h.signal (y.task x) sig).setPc ?_ (forall_mem_nil _) (forall_mem_nil _)
    simp only [signal_pc, signal_isLive, signal_willSignal, signal_sig]
    intro t i hi hl hwill
    obtain rfl := htarget t _ hwill
    rw [h.held t i (Pc.held_of_prepared hi) hl, ← hsig t hwill]
    exact signal_pending_self y t sig
  next hdead =>
    refine h.setPc (fun t i hi hl hwill => ?_) (forall_mem_nil _) (forall_mem_nil _)
    rw [htarget t _ hwill] at hl
    exact absurd hl hdead

end Parts

/-! ## One step -/

section Steps

variable {y : Sys α} {c t x : Nat} {done todo : List Item} {o : Object α} {ss : SockStream α}
  {readStream : Bool} {un : Queue} {pc₀ : Pc}

/-- Adding a descriptor to those that are done. -/
theorem Inv.prepared (h : Inv y) {i : Item} (ht : y.pc t = pc₀) (hquiet : pc₀.signals = none)
    (hdone : pc₀.prepared = done)
    (hheld : y.isLive i.target → y.task i.target = some t)
    (hwoken : y.isReady i → y.isLive i.target ∧ y.Woken t i.target) :
    Inv (y.setPc t (.preparing (done ++ [i]) todo)) := by
  rw [← ht] at hdone
  refine h.setPc_quiet ht hquiet (forall_mem_append.mpr ⟨fun j hj => ?_, forall_mem_singleton.mpr hheld⟩)
    (forall_mem_append.mpr ⟨fun j hj => ?_, forall_mem_singleton.mpr hwoken⟩)
  · exact h.held t j (Pc.held_of_prepared (hdone ▸ hj))
  · exact h.woken t j (hdone ▸ hj)

/-- A change of an object that is announced before: its task is about to signal, whoever is in the field. -/
theorem Inv.announce (h : Inv y) (hc : y.pc c = .changed x) (hlive : y.isLive x)
    (ho : o.isLive) : Inv (y.setObj x (some o)) := by
  refine h.setObj (fun _ _ _ _ _ => hlive) fun t i hi htarget hready => ⟨?_, .inr ⟨c, .inl hc⟩⟩
  rw [isLive_of_obj (setObj_self y x (some o))]
  exact ho

theorem Inv.create (h : Inv y) (hnew : ∀ t, ∀ i ∈ (y.pc t).held, i.target ≠ x) (o : Object α) :
    Inv ((y.setObj x (some o)).setTask x none) := by
  have hobj : Inv (y.setObj x (some o)) :=
    h.setObj (fun t i hi htarget => absurd htarget (hnew t i hi))
      (fun t i hi htarget => absurd htarget (hnew t i (Pc.held_of_prepared hi)))
  exact hobj.setTask fun t i hi htarget => absurd htarget (hnew t i hi)

/-- Freeing signals nobody, but then there is nothing left to be ready. -/
theorem Inv.remove (h : Inv y) (x : Nat) : Inv (y.setObj x none) := by
  have hobj := setObj_self y x none
  refine h.setObj (fun t i hi htarget hlive => ?_) fun t i hi htarget hready => ?_
  · simp only [Sys.isLive, hobj] at hlive
    cases hlive
  · simp only [Sys.isReady, htarget, hobj] at hready
    cases hready

theorem Inv.setEnd (h : Inv y) (hx : y.obj x = some (.stream ss))
    (hlive : streamIsClosed ss = false)
    (hwoken : ∀ t, y.task x = some t → streamIsClosed (setFlag readStream ss) = false ∧ y.Woken t x) :
    Inv (y.setObj x (some (.stream (setFlag readStream ss)))) := by
  have hlive' : y.isLive x := by
    rw [isLive_of_obj hx, Object.isLive, hlive]
    rfl
  refine h.setObj (fun _ _ _ _ _ => hlive') fun t i hi htarget hready => ?_
  have htask := h.held t i (Pc.held_of_prepared hi) (htarget ▸ hlive')
  rw [htarget] at htask
  obtain ⟨hopen, hw⟩ := hwoken t htask
  refine ⟨?_, hw⟩
  rw [isLive_of_obj (setObj_self y x _), Object.isLive, hopen]
  rfl

/-- A queue that loses an entry does not become ready. -/
theorem Inv.dequeue (h : Inv y) (hx : y.obj x = some (.name un)) :
    Inv (y.setObj x (some (.name { un with queueIndex := un.queueIndex - 1 }))) := by
  have hlive : y.isLive x := isLive_of_obj hx
  have hobj := setObj_self y x (some (.name { un with queueIndex := un.queueIndex - 1 }))
  refine h.setObj (fun _ _ _ _ _ => hlive) fun t i hi htarget hready => ⟨isLive_of_obj hobj, ?_⟩
  subst htarget
  refine (h.woken t i hi ?_).2
  rw [isReady_of_obj hobj] at hready
  rw [isReady_of_obj hx]
  cases hmode : i.mode with
  | read =>
    simp only [hmode, Object.isReady, decide_eq_true_eq] at hready ⊢
    omega
  | write =>
    simp only [hmode, Object.isReady] at hready
    cases hready

theorem look_pc (y : Sys α) (t : Nat) (check : Bool) (x : Nat) : (y.look t check x).pc = y.pc := by
  unfold Sys.look
  split_ifs <;> rfl

/-- Wait takes signals away from a task that has no descriptors any more. -/
theorem Inv.clear (h : Inv y) (hnil : (y.pc t).prepared = []) (rest : Nat → Bool) :
    Inv { y with pending := update y.pending t rest } where
  held := h.held
  woken := by
    intro t' i hi hready
    have hne : t' ≠ t := by
      rintro rfl
      rw [hnil] at hi
      cases hi
    obtain ⟨hlive, hwoken⟩ := h.woken t' i hi hready
    refine ⟨hlive, hwoken.imp_left fun hpending => ?_⟩
    exact (congrFun (update_of_ne hne ..) _).trans hpending

/-- Preparing a name, the first half: the field is emptied by a task that has not prepared it before. -/
theorem Inv.empty (h : Inv y) {i : Item} (ht : y.pc t = .preparing done (i :: todo))
    (hfree : y.isLive i.target → y.Free t i.target)
    (hother : ∀ j ∈ (y.pc t).prepared, j.target ≠ i.target) :
    Inv ((y.setTask i.target none).setPc t (.entering done i todo)) := by
  have hdone : (y.pc t).prepared = done := by rw [ht]; rfl
  have hheld : (y.pc t).held = done := by rw [ht]; rfl
  have hempty : Inv (y.setTask i.target none) := by
    refine h.setTask fun t' j hj htarget hlive => ?_
    rw [h.eq_of_free (hfree hlive) hj htarget hlive, hheld, ← hdone] at hj
    exact absurd htarget (hother j hj)
  exact hempty.setPc_quiet ht rfl (fun j hj => hempty.held t j (hheld ▸ hj))
    (fun j hj => hempty.woken t j (hdone ▸ hj))

/-- Testing: a task that finds its stream ready signals itself. -/
theorem Inv.test (h : Inv y) {i : Item} (ht : y.pc t = .testing done i todo)
    (hlive : y.isLive i.target) (hsig : y.isReady i → y.uSig t = y.sig t) :
    Inv ((if y.isReady i then y.signal (y.task i.target) (fun _ => y.uSig t) else y).setPc t
      (.preparing (done ++ [i]) todo)) := by
  have htask : y.task i.target = some t := by
    refine h.held t i ?_ hlive
    rw [ht]
    exact mem_append_right _ (mem_singleton_self i)
  by_cases hready : y.isReady i
  · rw [if_pos hready, htask]
    refine (h.signal (some t) _).prepared ht rfl rfl (fun _ => htask) fun _ => ⟨hlive, .inl ?_⟩
    have hself := signal_pending_self y t fun _ => y.uSig t
    rw [hsig hready] at hself ⊢
    exact hself
  · rw [if_neg hready]
    exact h.prepared ht rfl rfl (fun _ => htask) fun hr => absurd hr hready

/-- `unp_connect`, up to its Signal. -/
theorem Inv.connect (h : Inv y) {x' n : Nat} {o' : Object α} (hc : y.pc c = .idle)
    (hn : y.obj n = some (.name un)) (hx : y.obj x = none) (hx' : y.obj x' = none)
    (hnew : ∀ t, ∀ i ∈ (y.pc t).held, i.target ≠ x ∧ i.target ≠ x') (un' : Queue) :
    Inv ((((((y.setObj x (some o)).setTask x none).setObj x' (some o')).setTask x' none).setObj n
      (some (.name un'))).setPc c (.changed n)) := by
  show Inv ((((((y.setPc c (.changed n)).setObj x (some o)).setTask x none).setObj x' (some o')).setTask x'
    none).setObj n (some (.name un')))
  have h₀ : Inv (y.setPc c (.changed n)) := h.setPc_nil hc rfl rfl
  have hnew₀ : ∀ t, ∀ i ∈ ((y.setPc c (.changed n)).pc t).held, i.target ≠ x ∧ i.target ≠ x' :=
    (forall_update_iff y.pc fun _ pc => ∀ i ∈ pc.held, i.target ≠ x ∧ i.target ≠ x').mpr
      ⟨forall_mem_nil _, fun t _ => hnew t⟩
  have h₁ := h₀.create (fun t i hi => (hnew₀ t i hi).1) o
  have h₂ := h₁.create (fun t i hi => (hnew₀ t i hi).2) o'
  refine h₂.announce (setPc_self y c _) ?_ rfl
  -- the name is where it was
  have hnx : n ≠ x := by
    rintro rfl
    cases hn.symm.trans hx
  have hnx' : n ≠ x' := by
    rintro rfl
    cases hn.symm.trans hx'
  refine (isLive_setObj_of_ne hnx' _).trans ((isLive_setObj_of_ne hnx _).trans ?_)
  exact isLive_of_obj hn

/-- `pipe.c` signals within the step that closes an end. -/
theorem Inv.pclose (h : Inv y) (hx : y.obj x = some (.stream ss))
    (hlive : streamIsClosed ss = false) (hmeets : y.ClosesFor x readStream (y.sig c)) :
    Inv ((if streamIsClosed (setFlag readStream ss) then y
      else y.signal (y.task x) (fun _ => y.sig c)).setObj x (some (.stream (setFlag readStream ss)))) := by
  split
  next hclosed =>
    refine h.setEnd hx hlive fun t htask => ?_
    cases hclosed.symm.trans ((hmeets t htask).2 ss hx)
  next hopen =>
    refine (h.signal (y.task x) _).setEnd ?_ hlive fun t htask => ⟨by simpa using hopen, .inl ?_⟩
    · rw [signal_obj]
      exact hx
    · rw [signal_task] at htask
      have hself := signal_pending_self y t fun _ => y.sig c
      rw [signal_sig, htask]
      rw [(hmeets t htask).1] at hself ⊢
      exact hself

/-- `unp.c` closes an end first and signals afterwards. -/
theorem Inv.closeStream (h : Inv y) (hc : y.pc c = .idle)
    (hx : y.obj x = some (.stream ss)) (hlive : streamIsClosed ss = false)
    (hmeets : y.ClosesFor x readStream (y.uSig c)) :
    Inv ((y.setObj x (some (.stream (setFlag readStream ss)))).setPc c
      (if streamIsClosed (setFlag readStream ss) then .idle else .shut x)) := by
  show Inv ((y.setPc c (if streamIsClosed (setFlag readStream ss) then .idle else .shut x)).setObj x
    (some (.stream (setFlag readStream ss))))
  have h₀ : Inv (y.setPc c (if streamIsClosed (setFlag readStream ss) then .idle else .shut x)) := by
    refine h.setPc_nil hc rfl ?_
    split <;> rfl
  refine h₀.setEnd hx hlive fun t htask => ?_
  obtain ⟨hsig, hopen⟩ := hmeets t htask
  rw [hopen ss hx]
  exact ⟨rfl, .inr ⟨c, .inr ⟨setPc_self y c _, hsig⟩⟩⟩

theorem streamIsClosed_of_turn {ss' : SockStream α} {call call' : Call α}
    (h : turn ss call = .copy ss' call') :
    streamIsClosed ss' = streamIsClosed ss := by
  obtain ⟨hreader, hwriter⟩ := Stream.Wakeup.turn_copy h
  rw [streamIsClosed, hreader, hwriter]
  rfl

/-- **Every orderly step keeps the invariant.** -/
theorem Inv.step {y' : Sys α} {op : Op α} (h : Inv y) (hmeets : Orderly y op) (hs : Step y op y') :
    Inv y' := by
  cases hs with
  | call ht | polled ht | pollReturns ht | again ht | checkReturns ht =>
    exact h.setPc_nil ht rfl rfl
  | @poll t items todo i ready ht | @check t items todo i ready ht =>
    exact (h.look ht rfl hmeets _).setPc_nil ((congrFun (look_pc ..) t).trans ht) rfl rfl
  | @prepareStream t i done todo ss ht =>
    have hdone : ∀ j ∈ done, j ∈ (y.pc t).prepared := by
      rw [ht]
      exact fun j hj => hj
    have htake := h.take hmeets.1
    refine htake.setPc_quiet ht rfl (forall_mem_append.mpr ⟨fun j hj => ?_, ?_⟩)
      fun j hj => htake.woken t j (hdone j hj)
    · exact htake.held t j (Pc.held_of_prepared (hdone j hj))
    · exact forall_mem_singleton.mpr fun _ => update_self ..
  | prepareName ht hx => exact h.empty ht hmeets.1 (hmeets.2.2 (isName_of_obj hx))
  | @prepareNone t i done todo ht hlive =>
    have hnot : y.isLive i.target ≠ true := by simp [hlive]
    exact h.prepared ht rfl rfl (fun hl => absurd hl hnot)
      (fun hready => absurd (hmeets.2.1 hready) hnot)
  | test ht hlive => exact h.test ht hlive hmeets
  | @enter t i done todo un ht hx =>
    refine (h.take fun _ => hmeets.1).prepared ht rfl rfl (fun _ => update_self ..) fun hready => ?_
    obtain ⟨c, hc⟩ := hmeets.2 hready
    exact ⟨isLive_of_obj hx, .inr ⟨c, .inl hc⟩⟩
  | @wait t done ht =>
    have hdone : (y.pc t).prepared = done := by
      rw [ht]
      rfl
    exact h.setPc_quiet ht rfl (fun i hi => h.held t i (Pc.held_of_prepared (hdone ▸ hi)))
      (fun i hi => h.woken t i (hdone ▸ hi))
  | @wake t items rest ht =>
    refine Inv.clear (h.setPc_nil ht rfl rfl) ?_ rest
    rw [setPc_self]
    rfl
  | @move c x ss ss' call call' hc hx hlive hturn =>
    show Inv ((y.setPc c (.changed x)).setObj x (some (.stream ss')))
    refine Inv.announce (h.setPc_nil hc rfl rfl) (setPc_self y c _) ?_ ?_
    · refine (isLive_of_obj hx).trans ?_
      rw [Object.isLive, hlive]
      rfl
    · rw [Object.isLive, streamIsClosed_of_turn hturn, hlive]
      rfl
  | connect hc hn hroom hx hx' => exact h.connect hc hn hx hx' hmeets _
  | signal hc => exact h.signalled hc rfl fun t _ => rfl
  | accept hn => exact h.dequeue hn
  | refused => exact (h.remove _).remove _
  | listen => exact h.create hmeets _
  | pclose hc hx hlive => exact h.pclose hx hlive hmeets
  | closeStream hc hx hlive => exact h.closeStream hc hx hlive hmeets
  | shutSignal hc =>
    refine h.signalled hc rfl fun t hwill => ?_
    rcases hwill with hchanged | ⟨-, hsig⟩
    · cases hc.symm.trans hchanged
    · exact hsig
  | closeName => exact h.remove _

end Steps

/-! ## Runs -/

variable {y : Sys α}

theorem Inv.start (h : ∀ t, y.pc t = .idle) : Inv y := by
  constructor
  all_goals
    intro t
    rw [h t]
    exact forall_mem_nil _

/-- **Select is woken**: in every run whose steps leave waiting tasks alone, a task that waits in
`ix_select` has its own pipe signal pending whenever one of its descriptors is ready, unless the call
that has made it ready is about to send the signal. -/
theorem pending_of_waiting {y₀ y : Sys α} {tr : List (Sys α × Op α)} (h₀ : ∀ t, y₀.pc t = .idle)
    (h : History Step y₀ tr y) (hmeets : ∀ x ∈ tr, Orderly x.1 x.2) {t : Nat} {items : List Item} {i : Item}
    (ht : y.pc t = .waiting items) (hi : i ∈ items) (hready : y.isReady i = true)
    (hquiet : ∀ c, ¬ y.WillSignal c t i.target) : y.pending t (y.sig t) = true := by
  have hy : Inv y := h.invariant (fun _ _ _ hy hm hs => hy.step hm hs) (.start h₀) hmeets
  have hprepared : i ∈ (y.pc t).prepared := by
    rw [ht]
    exact hi
  rcases (hy.woken t i hprepared hready).2 with hpending | ⟨c, hc⟩
  · exact hpending
  · exact absurd hc (hquiet c)

/-- Tasks with these pipe signals, and an empty pipe at address 0. -/
def onePipe (sig : Nat → Nat) : Sys Nat where
  obj x := if x = 0 then some (.stream (initStream fun _ => 0)) else none
  task _ := none
  sig := sig
  uSig := sig
  pending _ _ := false
  pc _ := .idle

/-- Task 0 has selected the pipe, which was not ready, and waits. -/
def oneWaits (sig : Nat → Nat) : Sys Nat :=
  let y := (onePipe sig).setPc 0 (.polling [⟨0, .read⟩] [⟨0, .read⟩] false)
  let y := y.setPc 0 (.polling [⟨0, .read⟩] [] false)
  let y := y.setPc 0 (.preparing [] [⟨0, .read⟩])
  let y := (y.setTask 0 (some 0)).setPc 0 (.testing [] ⟨0, .read⟩ [])
  let y := y.setPc 0 (.preparing [⟨0, .read⟩] [])
  y.setPc 0 (.waiting [⟨0, .read⟩])

theorem history_oneWaits (sig : Nat → Nat) :
    ∃ tr, History Step (onePipe sig) tr (oneWaits sig) ∧ ∀ x ∈ tr, Orderly x.1 x.2 := by
  have h₁ := (History.nil (onePipe sig)).snoc (@Step.call Nat _ 0 [⟨0, .read⟩] rfl)
  have h₂ := h₁.snoc (@Step.poll Nat _ 0 [⟨0, .read⟩] [] ⟨0, .read⟩ false rfl)
  have h₃ := h₂.snoc (@Step.polled Nat _ 0 [⟨0, .read⟩] rfl)
  have h₄ := h₃.snoc (@Step.prepareStream Nat _ 0 ⟨0, .read⟩ [] [] _ rfl rfl rfl)
  have h₅ := h₄.snoc (@Step.test Nat _ 0 ⟨0, .read⟩ [] [] rfl rfl)
  have h₆ := h₅.snoc (@Step.wait Nat _ 0 [⟨0, .read⟩] rfl)
  refine ⟨_, h₆, ?_⟩
  simp only [nil_append, cons_append, forall_mem_cons]
  exact ⟨trivial, nofun, trivial, ⟨fun _ => .inl rfl, nofun, nofun⟩, nofun, trivial, forall_mem_nil _⟩

/-- A call of `stream_write` for one byte. -/
def oneByte : Call Nat := .write ⟨false, [7], 1, 0⟩

/-- Task 0 waits for the pipe to be readable, and task 1 writes a byte. -/
theorem pending_of_waiting_written : ∃ tr y, History Step (onePipe fun _ => 24) tr y ∧
    y.pc 0 = .waiting [⟨0, .read⟩] ∧ y.isReady ⟨0, .read⟩ = true ∧ y.pending 0 (y.sig 0) = true := by
  obtain ⟨tr, h, hmeets⟩ := history_oneWaits fun _ => 24
  have hmove := h.snoc (@Step.move Nat _ 1 0 _ _ oneByte _ rfl rfl rfl rfl)
  have hsignal := hmove.snoc (@Step.signal Nat _ 1 0 rfl)
  refine ⟨_, _, hsignal, rfl, by decide, ?_⟩
  refine pending_of_waiting (fun _ => rfl) hsignal ?_ (rfl : _ = Pc.waiting [⟨0, .read⟩])
    (mem_singleton_self _) (by decide) ?_
  · simp only [forall_mem_append, forall_mem_singleton]
    exact ⟨⟨hmeets, trivial⟩, trivial⟩
  · intro c hc
    have hsignals := signals_of_willSignal hc
    rcases c with _ | _ | c <;> cases hsignals

/-- A second task that selects takes the place of task 0, and gets the signal when the byte is written.
And: the writing end is closed by a task whose pipe signal has another number.  And: a connection is
queued at a listening socket between the poll and SELCMD_PREPARE. -/
theorem waiting_not_pending :
    (∃ tr y, History Step (onePipe fun _ => 24) tr y ∧ y.pc 0 = .waiting [⟨0, .read⟩] ∧
      y.isReady ⟨0, .read⟩ = true ∧ y.pending 0 (y.sig 0) = false ∧ ∀ c, ¬ y.WillSignal c 0 0) ∧
    (∃ tr y, History Step (onePipe fun t => 24 + t) tr y ∧ y.pc 0 = .waiting [⟨0, .read⟩] ∧
      y.isReady ⟨0, .read⟩ = true ∧ y.pending 0 (y.sig 0) = false ∧ ∀ c, ¬ y.WillSignal c 0 0) ∧
    ∃ tr y, History Step (onePipe fun _ => 24) tr y ∧ y.pc 0 = .waiting [⟨1, .read⟩] ∧
      y.isReady ⟨1, .read⟩ = true ∧ y.pending 0 (y.sig 0) = false ∧ ∀ c, ¬ y.WillSignal c 0 1 := by
  refine ⟨?_, ?_, ?_⟩
  · obtain ⟨tr, h, -⟩ := history_oneWaits fun _ => 24
    have h₁ := h.snoc (@Step.call Nat _ 1 [⟨0, .read⟩] rfl)
    have h₂ := h₁.snoc (@Step.poll Nat _ 1 [⟨0, .read⟩] [] ⟨0, .read⟩ false rfl)
    have h₃ := h₂.snoc (@Step.polled Nat _ 1 [⟨0, .read⟩] rfl)
    have h₄ := h₃.snoc (@Step.prepareStream Nat _ 1 ⟨0, .read⟩ [] [] _ rfl rfl rfl)
    have h₅ := h₄.snoc (@Step.move Nat _ 2 0 _ _ oneByte _ rfl rfl rfl rfl)
    have h₆ := h₅.snoc (@Step.signal Nat _ 2 0 rfl)
    refine ⟨_, _, h₆, rfl, by decide, by decide, fun c hc => ?_⟩
    have hsignals := signals_of_willSignal hc
    rcases c with _ | _ | _ | c <;> cases hsignals
  · obtain ⟨tr, h, -⟩ := history_oneWaits fun t => 24 + t
    have hclose := h.snoc (@Step.pclose Nat _ 1 0 _ false rfl rfl rfl)
    refine ⟨_, _, hclose, rfl, by decide, by decide, fun c hc => ?_⟩
    have hsignals := signals_of_willSignal hc
    rcases c with _ | c <;> cases hsignals
  · have h₁ := (History.nil (onePipe fun _ => 24)).snoc (@Step.listen Nat _ 1 5 rfl)
    have h₂ := h₁.snoc (@Step.call Nat _ 0 [⟨1, .read⟩] rfl)
    have h₃ := h₂.snoc (@Step.poll Nat _ 0 [⟨1, .read⟩] [] ⟨1, .read⟩ false rfl)
    have h₄ := h₃.snoc (@Step.connect Nat _ 1 2 3 1 _ (fun _ => 0) (fun _ => 0) rfl rfl (by decide) rfl rfl)
    have h₅ := h₄.snoc (@Step.signal Nat _ 1 1 rfl)
    have h₆ := h₅.snoc (@Step.polled Nat _ 0 [⟨1, .read⟩] rfl)
    have h₇ := h₆.snoc (@Step.prepareName Nat _ 0 ⟨1, .read⟩ [] [] _ rfl rfl)
    have h₈ := h₇.snoc (@Step.enter Nat _ 0 ⟨1, .read⟩ [] [] _ rfl rfl)
    have h₉ := h₈.snoc (@Step.wait Nat _ 0 [⟨1, .read⟩] rfl)
    refine ⟨_, _, h₉, rfl, by decide, by decide, fun c hc => ?_⟩
    have hsignals := signals_of_willSignal hc
    rcases c with _ | _ | c <;> cases hsignals

end Ixemul.Select.Wake
