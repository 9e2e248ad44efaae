/-
# Ixemul.Unp.Queue — the queue of a listening socket (unp.c).

The queue is an array, `queue_index` of it in use.  `unp_connect` writes behind the last entry,
`unp_accept` takes the first and moves the others down by one with a `memcpy`, from low addresses to
high.  Both do so under the lock of the library base.  Outside of it `unp_accept` only reads
`queue_index`, to see whether it has to sleep, and it looks again under the lock before it takes an
entry.

Seen as a list, the array is a bounded queue (`Lib.Fifo`), whatever the tasks do in between.  In
`Ixemul.Unp.Model` the queue of a name is this list: to put a client in is `++` there, and to take one out is
`::` (`contents_put`, `contents_dropFirst`).  What that module says of sockets, names and streams is not
modelled here again, and one listening socket stands for all.
-/
import Mathlib.Data.List.Nodup
import Ixemul.Lib.Fifo
import Ixemul.Lib.MoveDown
import Ixemul.Unp.Model

namespace Ixemul.Unp.Queue

open Lib Lib.Run
open Function List

/-! ## The array -/

/-- The members of an `ix_unix_name` that make up the queue; clients are numbers. -/
structure NameQueue where
  queue : Nat → Nat
  queueSize : Nat
  queueIndex : Nat

/-- As `add_unix_name` sets it up. -/
def addUnixName (backlog : Nat) : NameQueue := ⟨fun _ => 0, if backlog = 0 then 1 else backlog, 0⟩

/-- `memcpy(queue, queue + 1, n * 4)`, one long after the other.  So it is done up to 16 bytes; above that
`memcpy` is `CopyMem` of Exec, whose text is not here, and of which the same is assumed: the manual page of
`memcpy` allows the two areas to overlap. -/
def copyDown (queue : Nat → Nat) (n : Nat) : Nat → Nat := moveDown 1 queue 0 n

namespace NameQueue

/-- `un->queue[un->queue_index++] = (int)us` -/
def put (q : NameQueue) (us : Nat) : NameQueue :=
  { q with queue := update q.queue q.queueIndex us, queueIndex := q.queueIndex + 1 }

/-- `if (--un->queue_index) memcpy(un->queue, un->queue + 1, un->queue_index * 4)` -/
def dropFirst (q : NameQueue) : NameQueue :=
  { q with
    queue := if q.queueIndex - 1 ≠ 0 then copyDown q.queue (q.queueIndex - 1) else q.queue
    queueIndex := q.queueIndex - 1 }

/-- The entries in use. -/
def contents (q : NameQueue) : List Nat := (range q.queueIndex).map q.queue

end NameQueue

theorem length_contents (q : NameQueue) : q.contents.length = q.queueIndex := by
  simp [NameQueue.contents]

theorem contents_put (q : NameQueue) (us : Nat) : (q.put us).contents = q.contents ++ [us] := by
  simp only [NameQueue.contents, NameQueue.put, range_succ, map_append, map_singleton,
    update_self]
  congr 1
  apply map_congr_left
  intro j hj
  have hlt := mem_range.mp hj
  rw [update_of_ne (by omega)]

theorem contents_dropFirst {q : NameQueue} (h : q.queueIndex ≠ 0) :
    q.contents = q.queue 0 :: q.dropFirst.contents := by
  obtain ⟨n, hn⟩ := Nat.exists_eq_succ_of_ne_zero h
  simp only [NameQueue.contents, NameQueue.dropFirst, hn, range_succ_eq_map, map_cons, map_map,
    Nat.succ_eq_add_one, Nat.add_sub_cancel]
  congr 1
  apply map_congr_left
  intro j hj
  have hj' := mem_range.mp hj
  have hne : n ≠ 0 := by omega
  rw [if_pos hne, copyDown, moveDown_apply, if_pos (by omega)]
  rfl

/-! ## The tasks -/

/-- Where a task is. -/
inductive Pc where
  | idle
  /-- `unp_connect` has made its tests -/
  | connecting (us : Nat)
  /-- it put the client into the queue -/
  | queued (us : Nat)
  | connectAsleep (us : Nat)
  /-- `unp_accept`, before it reads `queue_index` -/
  | looking
  /-- it read 0 -/
  | foundEmpty
  | acceptAsleep
  /-- it read something else, and is about to take the lock -/
  | foundSome
  /-- it took a client out -/
  | took (us : Nat)
  deriving DecidableEq, Repr

/-- One listening socket and the tasks that use it.  `used`, `entered` and `taken` are history: the clients
that `unp_connect` was called for, those that were put into the queue and those that were taken out. -/
structure Sys where
  name : NameQueue
  state : Nat → SockState
  pc : Nat → Pc
  used : List Nat
  entered : List Nat
  taken : List Nat

namespace Sys

def start (backlog : Nat) : Sys := ⟨addUnixName backlog, fun _ => .waiting, fun _ => .idle, [], [], []⟩

def setPc (y : Sys) (t : Nat) (pc : Pc) : Sys := { y with pc := update y.pc t pc }

def setState (y : Sys) (us : Nat) (st : SockState) : Sys := { y with state := update y.state us st }

theorem setPc_self (y : Sys) (t : Nat) (pc : Pc) : (y.setPc t pc).pc t = pc := update_self ..

theorem setPc_of_ne (y : Sys) {t t' : Nat} (h : t' ≠ t) (pc : Pc) : (y.setPc t pc).pc t' = y.pc t' :=
  update_of_ne h ..

/-- `us` is put into the queue. -/
def enter (y : Sys) (us : Nat) : Sys := { y with name := y.name.put us, entered := y.entered ++ [us] }

/-- The first client is taken out. -/
def takeFirst (y : Sys) : Sys :=
  { y with name := y.name.dropFirst, taken := y.taken ++ [y.name.queue 0] }

end Sys

/-- The steps of `unp_connect` and `unp_accept`.  A sleep may end at any time. -/
inductive Step : Sys → Sys → Prop where
  | connect {y : Sys} {t us : Nat} (ht : y.pc t = .idle) (hus : us ∉ y.used) :
      Step y ({ y with used := us :: y.used }.setPc t (.connecting us))
  | refuse {y : Sys} {t us : Nat} (ht : y.pc t = .connecting us)
      (hfull : y.name.queueSize = y.name.queueIndex) :
      Step y (y.setPc t .idle)
  /-- there is no memory for the streams -/
  | noMemory {y : Sys} {t us : Nat} (ht : y.pc t = .connecting us)
      (hfull : y.name.queueSize ≠ y.name.queueIndex) : Step y (y.setPc t .idle)
  | enqueue {y : Sys} {t us : Nat} (ht : y.pc t = .connecting us)
      (hfull : y.name.queueSize ≠ y.name.queueIndex) : Step y ((y.enter us).setPc t (.queued us))
  /-- who sleeps on the name is woken; the state may already be what it should be -/
  | noSleep {y : Sys} {t us : Nat} (ht : y.pc t = .queued us) (hst : (y.state us).Final) :
      Step y (y.setPc t .idle)
  | sleep {y : Sys} {t us : Nat} (ht : y.pc t = .queued us) (hst : ¬ (y.state us).Final) :
      Step y (y.setPc t (.connectAsleep us))
  | connectWoken {y : Sys} {t us : Nat} (ht : y.pc t = .connectAsleep us) (hst : (y.state us).Final) :
      Step y (y.setPc t .idle)
  | accept {y : Sys} {t : Nat} (ht : y.pc t = .idle) : Step y (y.setPc t .looking)
  /-- `queue_index` is read outside the lock, in the middle of what others do under it: whichever value it
  has there -/
  | look {y : Sys} {t : Nat} (empty : Bool) (ht : y.pc t = .looking) :
      Step y (y.setPc t (if empty then .foundEmpty else .foundSome))
  /-- FNDELAY is set -/
  | wouldBlock {y : Sys} {t : Nat} (ht : y.pc t = .foundEmpty) : Step y (y.setPc t .idle)
  | acceptSleep {y : Sys} {t : Nat} (ht : y.pc t = .foundEmpty) : Step y (y.setPc t .acceptAsleep)
  | acceptWoken {y : Sys} {t : Nat} (ht : y.pc t = .acceptAsleep) : Step y (y.setPc t .looking)
  /-- another task was faster -/
  | takeNone {y : Sys} {t : Nat} (ht : y.pc t = .foundSome) (hindex : y.name.queueIndex = 0) :
      Step y (y.setPc t .looking)
  | take {y : Sys} {t : Nat} (ht : y.pc t = .foundSome) (hindex : y.name.queueIndex ≠ 0) :
      Step y ((y.takeFirst.setState (y.name.queue 0) .processing).setPc t (.took (y.name.queue 0)))
  /-- a descriptor was made for the client, or not -/
  | answer {y : Sys} {t us : Nat} (ok : Bool) (ht : y.pc t = .took us) :
      Step y ((y.setState us (if ok then .accepted else .error)).setPc t .idle)

def system (backlog : Nat) : System Sys where
  init := fun y => y = Sys.start backlog
  step := Step

/-! ## The queue as a list -/

/-- The channel that the array stands for. -/
def channel (y : Sys) : Fifo.Channel Nat := ⟨y.name.contents, y.entered, y.taken⟩

theorem channel_enter (y : Sys) (us : Nat) : channel (y.enter us) =
    { channel y with queue := (channel y).queue ++ [us], given := (channel y).given ++ [us] } := by
  simp [channel, Sys.enter, contents_put]

variable {y z : Sys}

/-- What a step does to the queue: nothing, or it puts a client, for which there is room, or takes one. -/
theorem Step.channel (h : Step y z) (hle : y.name.queueIndex ≤ y.name.queueSize) :
    z.name.queueSize = y.name.queueSize ∧ z.name.queueIndex ≤ z.name.queueSize ∧
      (channel z = channel y ∨ Fifo.Step y.name.queueSize (channel y) (channel z)) := by
  cases h with
  | @enqueue t us =>
    have hlt : y.name.queueIndex + 1 ≤ y.name.queueSize := by omega
    refine ⟨rfl, hlt, .inr ?_⟩
    show Fifo.Step _ (Queue.channel y) (Queue.channel (y.enter us))
    rw [channel_enter]
    refine Fifo.Step.put [us] ?_
    simpa [Queue.channel, length_contents] using hlt
  | @take t ht hindex =>
    refine ⟨rfl, Nat.le_trans (Nat.sub_le _ _) hle, .inr ?_⟩
    exact Fifo.Step.take [y.name.queue 0] y.name.dropFirst.contents (contents_dropFirst hindex)
  | _ => exact ⟨rfl, hle, .inl rfl⟩

/-- The array, not used beyond its end, stands for the channel. -/
def Abstracts (cap : Nat) (y : Sys) (ch : Fifo.Channel Nat) : Prop :=
  y.name.queueSize = cap ∧ y.name.queueIndex ≤ y.name.queueSize ∧ ch = channel y

variable {backlog : Nat}

/-- **The array refines the queue.** -/
theorem refines (h : Reachable (system backlog) y) :
    y.name.queueSize = (addUnixName backlog).queueSize ∧
      Reachable (Fifo.system Nat (addUnixName backlog).queueSize) (channel y) := by
  have hsim : ∃ ch, Reachable (Fifo.system Nat (addUnixName backlog).queueSize) ch ∧
      Abstracts (addUnixName backlog).queueSize y ch := by
    refine h.simulate ?_ ?_
    · rintro y rfl
      exact ⟨channel (Sys.start backlog), rfl, rfl, Nat.zero_le _, rfl⟩
    · rintro y z ch ⟨hsize, hle, rfl⟩ hstep
      obtain ⟨hsame, hle', hch⟩ := Step.channel hstep hle
      refine ⟨channel z, ?_, hsame.trans hsize, hle', rfl⟩
      rcases hch with heq | hput
      · rw [heq]
      · rw [hsize] at hput
        exact Relation.ReflTransGen.single hput
  obtain ⟨ch, hch, hsize, -, rfl⟩ := hsim
  exact ⟨hsize, hch⟩

/-! ## Distinct clients -/

/-- No client is in the queue twice, nor about to be put there a second time. -/
structure Distinct (y : Sys) : Prop where
  nodup : y.entered.Nodup
  used : ∀ us ∈ y.entered, us ∈ y.used
  connecting : ∀ t us, y.pc t = .connecting us → us ∈ y.used ∧ us ∉ y.entered
  once : ∀ t t' us, y.pc t = .connecting us → y.pc t' = .connecting us → t = t'

variable {us : Nat}

theorem connecting_setPc {t t' : Nat} {pc : Pc} (hpc : ∀ us, pc ≠ .connecting us)
    (h : (y.setPc t pc).pc t' = .connecting us) : t' ≠ t ∧ y.pc t' = .connecting us := by
  have hne : t' ≠ t := by
    rintro rfl
    exact hpc us ((y.setPc_self t' pc).symm.trans h)
  exact ⟨hne, (y.setPc_of_ne hne pc).symm.trans h⟩

theorem Distinct.setPc (h : Distinct y) (t : Nat) {pc : Pc} (hpc : ∀ us, pc ≠ .connecting us) :
    Distinct (y.setPc t pc) where
  nodup := h.nodup
  used := h.used
  connecting t' us ht' := h.connecting t' us (connecting_setPc hpc ht').2
  once t₁ t₂ us h₁ h₂ := h.once t₁ t₂ us (connecting_setPc hpc h₁).2 (connecting_setPc hpc h₂).2

theorem Distinct.connect (h : Distinct y) (t : Nat) (hus : us ∉ y.used) :
    Distinct ({ y with used := us :: y.used }.setPc t (.connecting us)) where
  nodup := h.nodup
  used := fun us' hus' => mem_cons_of_mem _ (h.used us' hus')
  connecting := by
    intro t' us' ht'
    by_cases heq : t' = t
    · subst heq
      rw [Sys.setPc_self] at ht'
      obtain rfl := Pc.connecting.inj ht'
      exact ⟨mem_cons_self, fun hmem => hus (h.used us hmem)⟩
    · rw [Sys.setPc_of_ne _ heq] at ht'
      obtain ⟨hused, hnot⟩ := h.connecting t' us' ht'
      exact ⟨mem_cons_of_mem _ hused, hnot⟩
  once := by
    intro t₁ t₂ us' h₁ h₂
    simp only [Sys.setPc, update_apply] at h₁ h₂
    -- a task that was connecting before has a client that was used
    split at h₁ <;> split at h₂
    · omega
    · obtain rfl := Pc.connecting.inj h₁
      exact absurd (h.connecting t₂ us h₂).1 hus
    · obtain rfl := Pc.connecting.inj h₂
      exact absurd (h.connecting t₁ us h₁).1 hus
    · exact h.once t₁ t₂ us' h₁ h₂

theorem Distinct.enter (h : Distinct y) {t : Nat} (ht : y.pc t = .connecting us) :
    Distinct ((y.enter us).setPc t (.queued us)) where
  nodup := by
    show (y.entered ++ [us]).Nodup
    rw [nodup_append_comm, singleton_append, nodup_cons]
    exact ⟨(h.connecting t us ht).2, h.nodup⟩
  used := by
    show ∀ us' ∈ y.entered ++ [us], us' ∈ y.used
    rw [forall_mem_append, forall_mem_singleton]
    exact ⟨h.used, (h.connecting t us ht).1⟩
  connecting := by
    intro t' us' ht'
    obtain ⟨hne, ht'⟩ := connecting_setPc (by simp) ht'
    obtain ⟨hused, hnot⟩ := h.connecting t' us' ht'
    refine ⟨hused, fun hmem => ?_⟩
    rcases mem_append.mp hmem with hmem | hmem
    · exact hnot hmem
    · obtain rfl := mem_singleton.mp hmem
      exact hne (h.once t' t us' ht' ht)
  once t₁ t₂ us' h₁ h₂ :=
    h.once t₁ t₂ us' (connecting_setPc (by simp) h₁).2 (connecting_setPc (by simp) h₂).2

theorem Distinct.step (h : Distinct y) (hstep : Step y z) : Distinct z := by
  cases hstep with
  | connect ht hus => exact h.connect _ hus
  | enqueue ht => exact h.enter ht
  | look empty => cases empty <;> exact h.setPc _ (by simp)
  | @take t =>
    have htake : Distinct (y.takeFirst.setState (y.name.queue 0) .processing) :=
      ⟨h.nodup, h.used, h.connecting, h.once⟩
    exact htake.setPc t (by simp)
  | @answer t us ok =>
    have hstate : Distinct (y.setState us (if ok then .accepted else .error)) :=
      ⟨h.nodup, h.used, h.connecting, h.once⟩
    exact hstate.setPc t (by simp)
  | _ => exact h.setPc _ (by simp)

theorem Distinct.of_reachable (h : Reachable (system backlog) y) : Distinct y := by
  refine h.invariant ?_ fun _ _ hy hstep => hy.step hstep
  rintro y rfl
  have hidle : ∀ t us, (Sys.start backlog).pc t ≠ .connecting us := by
    intro t us h
    cases h
  exact ⟨nodup_nil, forall_mem_nil _, fun t us h => absurd h (hidle t us),
    fun t _ us h => absurd h (hidle t us)⟩

/-- **The queue is first in, first out**, under every interleaving: the clients taken out are the first
of those put in, in their order, none of them twice, and no more than the backlog are in it at a time.
-/
theorem taken_prefix_entered {backlog : Nat} (hpos : 1 ≤ backlog) {y : Sys}
    (h : Reachable (system backlog) y) :
    y.taken <+: y.entered ∧ y.taken.Nodup ∧ y.taken ++ y.name.contents = y.entered ∧
      y.name.contents.length ≤ backlog := by
  obtain ⟨-, hfifo⟩ := refines h
  obtain ⟨hconserved, hbound⟩ := Fifo.conserved hfifo
  simp only [channel] at hconserved
  have hnodup := (Distinct.of_reachable h).nodup
  have hsize : (addUnixName backlog).queueSize = backlog := if_neg (by omega)
  rw [hsize] at hbound
  refine ⟨⟨_, hconserved⟩, ?_, hconserved, hbound⟩
  rw [← hconserved] at hnodup
  exact hnodup.of_append_left

/-- Two tasks have put their clients into a queue for two, and a third takes the first of them. -/
theorem taken_prefix_entered_two :
    ∃ y, Reachable (system 2) y ∧ y.entered = [7, 5] ∧ y.taken = [7] ∧ y.taken <+: y.entered := by
  have h₁ := (Reachable.init (S := system 2) rfl).step (@Step.connect _ 0 7 rfl (by decide))
  have h₂ := h₁.step (@Step.connect _ 1 5 rfl (by decide))
  have h₃ := h₂.step (@Step.enqueue _ 0 7 rfl (by decide))
  have h₄ := h₃.step (@Step.enqueue _ 1 5 rfl (by decide))
  have h₅ := h₄.step (@Step.accept _ 2 rfl)
  have h₆ := h₅.step (@Step.look _ 2 false rfl)
  have h₇ := h₆.step (@Step.take _ 2 rfl (by decide))
  exact ⟨_, h₇, rfl, rfl, (taken_prefix_entered (by decide) h₇).1⟩

end Ixemul.Unp.Queue
