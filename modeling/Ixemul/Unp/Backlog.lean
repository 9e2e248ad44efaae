/-
# Ixemul.Unp.Backlog — the memory of a queue (unp.c, kmalloc.c, buddy-alloc.c).

`add_unix_name` takes `queue_size * 4` bytes from `kmalloc` for the queue of a listening socket, and
`unp_connect` writes behind the last entry unless `queue_size == queue_index`.  All of it is arithmetic
with 32 bits: the product wraps, `kmalloc` adds 4 to it, which may wrap again, and `b_alloc` takes the sum as
signed.  A product that is too large by itself is refused; one that wrapped to something small is not, and
then the test in `unp_connect` never sees the end of the memory.
-/
import Mathlib.Tactic.NormNum
import Ixemul.Kmalloc
import Ixemul.Unp.Queue

namespace Ixemul.Unp.Backlog

open Lib.Run BitVec
open Kmalloc (memfPublic longs requested)

/-! ## The allocation -/

/-- `kmalloc`, of which only the allocator's state counts here. -/
def kmalloc (allocMem : Nat → Option Nat) (size : BitVec 32) (s : Buddy.State) : Option Nat × Buddy.State :=
  let r := Buddy.bAlloc allocMem (requested size) memfPublic s
  (r.1.map (· + 4), r.2)

/-- It is the function of `Ixemul.Kmalloc`, without the bytes in memory. -/
theorem kmalloc_eq (e : Kmalloc.Env) (size : BitVec 32) (h : Kmalloc.Heap) :
    kmalloc e.allocMem size h.sys.st =
      ((Kmalloc.kmalloc e size h).1, (Kmalloc.kmalloc e size h).2.sys.st) := by
  unfold kmalloc Kmalloc.kmalloc Kmalloc.bAlloc Buddy.Sys.alloc
  dsimp only
  cases (Buddy.bAlloc e.allocMem (requested size) memfPublic h.sys.st).1 with
  | none => rfl
  | some p => rfl

/-- `kfree`, of memory that was asked for with `size`. -/
def kfree (mem : Nat) (size : BitVec 32) (s : Buddy.State) : Buddy.State :=
  Buddy.bFree (mem - 4) (requested size) s

/-- The bytes there are behind what `kmalloc` returns. -/
def provided (mem : Nat) (size : BitVec 32) : Nat :=
  (Buddy.Live.mk (mem - 4) (requested size) memfPublic).usable - 4

/-- sizeof(struct ix_unix_name) -/
def sizeofUnixName : BitVec 32 := 124

/-- Of an `ix_unix_name`, the queue; `queue` is its address. -/
structure UnixName where
  queue : Nat
  queueSize : BitVec 32
  queueIndex : BitVec 32
  deriving DecidableEq, Repr

/-- `if (queue_size == 0) queue_size = 1` -/
def queueSizeOf (backlog : BitVec 32) : BitVec 32 := if backlog = 0 then 1 else backlog

/-- `add_unix_name` -/
def addUnixName (allocMem : Nat → Option Nat) (backlog : BitVec 32) (s : Buddy.State) :
    Option UnixName × Buddy.State :=
  match kmalloc allocMem sizeofUnixName s with
  | (none, s) => (none, s)
  | (some un, s) =>
    match kmalloc allocMem (queueSizeOf backlog * 4#32) s with
    | (none, s) => (none, kfree un sizeofUnixName s)
    | (some queue, s) => (some ⟨queue, queueSizeOf backlog, 0⟩, s)

/-! ## The queue in use -/

/-- What `unp_connect` and `unp_accept` do to the counters, under the lock of the library base. -/
inductive Step : UnixName → UnixName → Prop where
  | refuse {un : UnixName} (h : un.queueSize = un.queueIndex) : Step un un
  /-- there is no memory for the streams -/
  | noMemory {un : UnixName} (h : un.queueSize ≠ un.queueIndex) : Step un un
  | enqueue {un : UnixName} (h : un.queueSize ≠ un.queueIndex) :
      Step un { un with queueIndex := un.queueIndex + 1 }
  | takeNone {un : UnixName} (h : un.queueIndex = 0) : Step un un
  | take {un : UnixName} (h : un.queueIndex ≠ 0) : Step un { un with queueIndex := un.queueIndex - 1 }

def system (un : UnixName) : System UnixName where
  init := fun un' => un' = un
  step := Step

/-- The entries in use lie inside `bytes` bytes. -/
def Fits (bytes : Nat) (un : UnixName) : Prop :=
  0 ≤ un.queueIndex.toInt ∧ 4 * un.queueIndex.toInt ≤ bytes

/-- The element that is written next does. -/
def NextFits (bytes : Nat) (un : UnixName) : Prop :=
  0 ≤ un.queueIndex.toInt ∧ 4 * (un.queueIndex.toInt + 1) ≤ bytes

variable {un : UnixName}

theorem reachable_bounds {un' : UnixName} (hzero : un.queueIndex = 0) (h : Reachable (system un) un') :
    un'.queue = un.queue ∧ un'.queueSize = un.queueSize ∧ un'.queueIndex.toNat ≤ un.queueSize.toNat := by
  refine h.invariant (I := fun n => n.queue = un.queue ∧ n.queueSize = un.queueSize ∧
    n.queueIndex.toNat ≤ un.queueSize.toNat) ?_ ?_
  · rintro n rfl
    refine ⟨rfl, rfl, ?_⟩
    rw [hzero]
    exact Nat.zero_le _
  · rintro n n' ⟨hqueue, hsize, hle⟩ hstep
    cases hstep with
    | enqueue hne =>
      refine ⟨hqueue, hsize, ?_⟩
      -- the counter is below the size, so it does not wrap
      have hneq : n.queueIndex.toNat ≠ un.queueSize.toNat :=
        fun heq => hne (hsize.trans (eq_of_toNat_eq heq.symm))
      show (n.queueIndex + 1#32).toNat ≤ _
      rw [toNat_add, toNat_one (by decide)]
      omega
    | take hne =>
      refine ⟨hqueue, hsize, ?_⟩
      have hpos : n.queueIndex.toNat ≠ 0 := fun heq => hne (eq_of_toNat_eq heq)
      have hone : 1#32 ≤ n.queueIndex := Nat.one_le_iff_ne_zero.mpr hpos
      show (n.queueIndex - 1#32).toNat ≤ _
      rw [toNat_sub_of_le hone]
      exact le_trans (Nat.sub_le _ _) hle
    | _ => exact ⟨hqueue, hsize, hle⟩

variable {k : Nat}

theorem reachable_index (hzero : un.queueIndex = 0) (hk : k ≤ un.queueSize.toNat) :
    Reachable (system un) { un with queueIndex := BitVec.ofNat 32 k } := by
  induction k with
  | zero =>
    refine Reachable.init ?_
    show UnixName.mk un.queue un.queueSize 0 = un
    rw [← hzero]
  | succ k ih =>
    have hne : un.queueSize ≠ BitVec.ofNat 32 k := by
      intro heq
      rw [heq, toNat_ofNat] at hk
      omega
    have hstep := (ih (by omega)).step (Step.enqueue hne)
    have hadd : BitVec.ofNat 32 k + 1 = BitVec.ofNat 32 (k + 1) := (BitVec.ofNat_add k 1).symm
    rwa [hadd] at hstep

/-! ## The tasks

The steps of the tasks in `Unp.Queue` count in natural numbers.  Their counters, as words, go through the
steps above. -/

/-- The counters as they are in memory. -/
def words (queue : Nat) (q : Queue.NameQueue) : UnixName :=
  ⟨queue, BitVec.ofNat 32 q.queueSize, BitVec.ofNat 32 q.queueIndex⟩

theorem queueSizeOf_toNat (backlog : BitVec 32) :
    (Queue.addUnixName backlog.toNat).queueSize = (queueSizeOf backlog).toNat := by
  unfold queueSizeOf Queue.addUnixName
  by_cases h : backlog = 0
  · rw [h]
    rfl
  · have hnat : backlog.toNat ≠ 0 := fun heq => h (eq_of_toNat_eq heq)
    rw [if_neg h]
    exact if_neg hnat

variable {y : Queue.Sys}

theorem words_step {z : Queue.Sys} (queue : Nat) (hstep : Queue.Step y z)
    (hle : y.name.queueIndex ≤ y.name.queueSize) (hsize : y.name.queueSize < 2 ^ 32) :
    words queue z.name = words queue y.name ∨ Step (words queue y.name) (words queue z.name) := by
  cases hstep with
  | enqueue ht hfull =>
    right
    have hne : BitVec.ofNat 32 y.name.queueSize ≠ BitVec.ofNat 32 y.name.queueIndex := by
      intro heq
      have hnat := congrArg BitVec.toNat heq
      rw [toNat_ofNat, toNat_ofNat, Nat.mod_eq_of_lt hsize, Nat.mod_eq_of_lt (by omega)] at hnat
      exact hfull hnat
    have henq : Step (words queue y.name)
        { words queue y.name with queueIndex := (words queue y.name).queueIndex + 1 } := .enqueue hne
    have hadd : (words queue y.name).queueIndex + 1 = BitVec.ofNat 32 (y.name.queueIndex + 1) :=
      (ofNat_add y.name.queueIndex 1).symm
    rwa [hadd] at henq
  | take ht hindex =>
    right
    have hne : BitVec.ofNat 32 y.name.queueIndex ≠ 0 := by
      intro heq
      have hnat := congrArg BitVec.toNat heq
      rw [toNat_ofNat, Nat.mod_eq_of_lt (by omega)] at hnat
      exact hindex hnat
    have htake : Step (words queue y.name)
        { words queue y.name with queueIndex := (words queue y.name).queueIndex - 1 } := .take hne
    have hsub : (words queue y.name).queueIndex - 1 = BitVec.ofNat 32 (y.name.queueIndex - 1) := by
      show BitVec.ofNat 32 y.name.queueIndex - 1 = _
      obtain ⟨n, hn⟩ := Nat.exists_eq_succ_of_ne_zero hindex
      rw [hn, Nat.succ_eq_add_one, ofNat_add]
      exact add_sub_cancel _ _
    rwa [hsub] at htake
  | _ => exact .inl rfl

variable {backlog : BitVec 32}

/-- The words hold the size of the queue and the number of clients in it. -/
def Holds (un : UnixName) (q : Queue.NameQueue) : Prop :=
  un.queueSize.toNat = q.queueSize ∧ un.queueIndex.toNat = q.contents.length

/-- **The counters refine to words**: in every run of the tasks on a listening socket the words, which hold
the counters without wrapping, go through steps of their own, and each step of the tasks is one of theirs or
leaves them alone. -/
theorem reachable_words (queue : Nat) (h : Reachable (Queue.system backlog.toNat) y) :
    Reachable (system ⟨queue, queueSizeOf backlog, 0⟩) (words queue y.name) ∧
      Holds (words queue y.name) y.name ∧
      ∀ z, Queue.Step y z →
        words queue z.name = words queue y.name ∨ Step (words queue y.name) (words queue z.name) := by
  have hinv : y.name.queueSize = (queueSizeOf backlog).toNat ∧ y.name.queueIndex ≤ y.name.queueSize ∧
      Reachable (system ⟨queue, queueSizeOf backlog, 0⟩) (words queue y.name) := by
    refine h.invariant (I := fun y => y.name.queueSize = (queueSizeOf backlog).toNat ∧
      y.name.queueIndex ≤ y.name.queueSize ∧
      Reachable (system ⟨queue, queueSizeOf backlog, 0⟩) (words queue y.name)) ?_ ?_
    · rintro y rfl
      refine ⟨queueSizeOf_toNat backlog, Nat.zero_le _, Reachable.init ?_⟩
      show UnixName.mk queue (BitVec.ofNat 32 (Queue.addUnixName backlog.toNat).queueSize) 0 = _
      rw [queueSizeOf_toNat, ofNat_toNat, setWidth_eq]
    · rintro y z ⟨hsize, hle, hreach⟩ hstep
      obtain ⟨hsame, hle', -⟩ := Queue.Step.channel hstep hle
      refine ⟨hsame.trans hsize, hle', ?_⟩
      rcases words_step queue hstep hle (hsize ▸ (queueSizeOf backlog).isLt) with heq | hword
      · rwa [heq]
      · exact hreach.step hword
  obtain ⟨hsize, hle, hreach⟩ := hinv
  have hlt : y.name.queueSize < 2 ^ 32 := hsize ▸ (queueSizeOf backlog).isLt
  refine ⟨hreach, ⟨?_, ?_⟩, fun z hz => words_step queue hz hle hlt⟩
  · exact (toNat_ofNat ..).trans (Nat.mod_eq_of_lt hlt)
  · rw [Queue.length_contents]
    exact (toNat_ofNat ..).trans (Nat.mod_eq_of_lt (by omega))

/-- With a backlog of five, after client 7 was put into the queue. -/
theorem reachable_words_queued : ∃ y, Reachable (Queue.system 5) y ∧ y.name.contents = [7] ∧
    Reachable (system ⟨8, queueSizeOf 5, 0⟩) (words 8 y.name) ∧ Holds (words 8 y.name) y.name ∧
    (words 8 y.name).queueIndex = 1 := by
  have h₀ : Reachable (Queue.system 5) (Queue.Sys.start 5) := .init rfl
  have h₁ := h₀.step (@Queue.Step.connect _ 0 7 rfl (by decide))
  have h₂ := h₁.step (@Queue.Step.enqueue _ 0 7 rfl (by decide))
  obtain ⟨hreach, hholds, -⟩ := @reachable_words _ 5 8 h₂
  exact ⟨_, h₂, rfl, hreach, hholds, rfl⟩

/-! ## What `kmalloc` provides -/

theorem three_getElem : ∀ i : Fin 32, (3#32)[i.1] = decide (i.1 < 2) := by
  decide

theorem longs_mul_four (x : BitVec 32) : longs (x * 4#32) = x * 4#32 := by
  have hshift : x * 4#32 = x <<< 2 := by
    rw [shiftLeft_eq_mul_twoPow]
    rfl
  have hdisjoint : x <<< 2 &&& 3#32 = 0#32 := by
    ext i hi
    by_cases hlow : i < 2
    · simp [hlow]
    · have hthree : (3#32)[i] = decide (i < 2) := three_getElem ⟨i, hi⟩
      simp [hthree, hlow]
  rw [longs, hshift, add_eq_or_of_and_eq_zero _ _ hdisjoint]
  ext i hi
  have hthree : (3#32)[i] = decide (i < 2) := three_getElem ⟨i, hi⟩
  simp only [getElem_and, getElem_or, getElem_not, hthree]
  by_cases hlow : i < 2
  · simp [hlow]
  · simp [hlow]

theorem size_of_requested {q : BitVec 32} (h : 0 ≤ requested (q * 4#32)) :
    (q.toNat ≤ 0x1ffffffe ∧ requested (q * 4#32) = 4 * q.toNat + 4) ∨ 0x3fffffff ≤ q.toNat := by
  have hnat : (q * 4#32 + 4#32).toNat = (q.toNat * 4 % 2 ^ 32 + 4) % 2 ^ 32 := by
    rfl
  unfold requested at h ⊢
  rw [longs_mul_four, toInt_eq_toNat_cond, hnat] at h ⊢
  by_cases hsmall : q.toNat ≤ 0x1ffffffe
  · left
    refine ⟨hsmall, ?_⟩
    omega
  · right
    by_contra hcon
    omega

theorem provided_lt (mem : Nat) (size : BitVec 32) : provided mem size < 2 ^ 31 := by
  have hlt : requested size < 2 ^ 31 := toInt_lt
  have hle := Buddy.usable_lt (b := ⟨mem - 4, requested size, memfPublic⟩) hlt
  exact lt_of_le_of_lt (Nat.sub_le _ _) hle

theorem addUnixName_some {allocMem : Nat → Option Nat} {s : Buddy.State}
    (h : (addUnixName allocMem backlog s).1 = some un) :
    un.queueSize = queueSizeOf backlog ∧ un.queueIndex = 0 ∧ 0 ≤ requested (queueSizeOf backlog * 4#32) := by
  unfold addUnixName at h
  split at h
  · cases h
  · split at h
    · cases h
    · rename_i s₁ hname queue s₂ hqueue
      obtain rfl := Option.some.inj h
      refine ⟨rfl, rfl, ?_⟩
      by_contra hneg
      have hfail := congrArg Prod.fst hqueue
      rw [kmalloc, Buddy.bAlloc, if_pos (by omega)] at hfail
      cases hfail

/-! ## Which backlogs are safe -/

theorem toInt_ofNat_small (h : k < 2 ^ 31) : (BitVec.ofNat 32 k).toInt = k := by
  rw [toInt_eq_toNat_cond, toNat_ofNat, Nat.mod_eq_of_lt (by omega), if_pos (by omega)]

variable {bytes : Nat}

theorem fits_of_le (hzero : un.queueIndex = 0)
    (hroom : 4 * un.queueSize.toNat ≤ bytes) (hsmall : un.queueSize.toNat < 2 ^ 31) {n : UnixName}
    (h : Reachable (system un) n) :
    Fits bytes n ∧ (n.queueSize ≠ n.queueIndex → NextFits bytes n) := by
  obtain ⟨-, hsize, hle⟩ := reachable_bounds hzero h
  have hint : n.queueIndex.toInt = n.queueIndex.toNat := by
    rw [toInt_eq_toNat_cond, if_pos (by omega)]
  refine ⟨⟨by omega, by omega⟩, fun hne => ⟨by omega, ?_⟩⟩
  have hneq : n.queueIndex.toNat ≠ un.queueSize.toNat :=
    fun heq => hne (hsize.trans (eq_of_toNat_eq heq.symm))
  omega

theorem exists_not_fits (hzero : un.queueIndex = 0) (hbytes : bytes < 2 ^ 31)
    (hlarge : 2 ^ 29 < un.queueSize.toNat) :
    (∃ n, Reachable (system un) n ∧ ¬ Fits bytes n) ∧
      ∃ n, Reachable (system un) n ∧ n.queueSize ≠ n.queueIndex ∧ ¬ NextFits bytes n := by
  have hk : (BitVec.ofNat 32 (bytes / 4)).toInt = (bytes / 4 : Nat) := toInt_ofNat_small (by omega)
  have hk' : (BitVec.ofNat 32 (bytes / 4 + 1)).toInt = (bytes / 4 + 1 : Nat) := toInt_ofNat_small (by omega)
  refine ⟨⟨_, reachable_index hzero (k := bytes / 4 + 1) (by omega), ?_⟩,
    ⟨_, reachable_index hzero (k := bytes / 4) (by omega), ?_, ?_⟩⟩
  · rintro ⟨-, hle⟩
    dsimp only at hle
    omega
  · intro heq
    have hnat := congrArg BitVec.toNat heq
    dsimp only at hnat
    rw [toNat_ofNat, Nat.mod_eq_of_lt (by omega)] at hnat
    omega
  · rintro ⟨-, hle⟩
    dsimp only at hle
    omega

/-- **A queue is overrun exactly when its size wrapped**: where `listen` succeeds, every element that
`unp_connect` writes, in every run, lies inside the memory of the queue if and only if the backlog, as an
unsigned number, is at most 0x1ffffffe; and so for the entries that are in use at any time. -/
theorem queue_fits_iff (allocMem : Nat → Option Nat) (backlog : BitVec 32) (s : Buddy.State) (un : UnixName)
    (h : (addUnixName allocMem backlog s).1 = some un) :
    ((∀ n, Reachable (system un) n → Fits (provided un.queue (un.queueSize * 4#32)) n) ↔
        backlog.toNat ≤ 0x1ffffffe) ∧
      ((∀ n, Reachable (system un) n → n.queueSize ≠ n.queueIndex →
          NextFits (provided un.queue (un.queueSize * 4#32)) n) ↔ backlog.toNat ≤ 0x1ffffffe) := by
  obtain ⟨hsize, hzero, hreq⟩ := addUnixName_some h
  have hbacklog : backlog.toNat ≤ 0x1ffffffe ↔ un.queueSize.toNat ≤ 0x1ffffffe := by
    rw [hsize, queueSizeOf]
    by_cases hb : backlog = 0
    · rw [hb]
      exact iff_of_true (by decide) (by decide)
    · rw [if_neg hb]
  rw [hbacklog]
  rw [← hsize] at hreq
  rcases size_of_requested hreq with ⟨hsmall, hbytes⟩ | hlarge
  · have hroom : 4 * un.queueSize.toNat ≤ provided un.queue (un.queueSize * 4#32) := by
      have hge := Buddy.usable_ge (b := ⟨un.queue - 4, requested (un.queueSize * 4#32), memfPublic⟩)
      unfold provided
      dsimp only at hge
      omega
    have hall := fun n hn => fits_of_le hzero hroom (by omega) (n := n) hn
    exact ⟨iff_of_true (fun n hn => (hall n hn).1) hsmall, iff_of_true (fun n hn => (hall n hn).2) hsmall⟩
  · obtain ⟨⟨n, hn, hnot⟩, ⟨n', hn', hne, hnot'⟩⟩ :=
      exists_not_fits hzero (provided_lt un.queue (un.queueSize * 4#32)) (by omega)
    exact ⟨iff_of_false (fun hall => hnot (hall n hn)) (by omega),
      iff_of_false (fun hall => hnot' (hall n' hn' hne)) (by omega)⟩

/-- Exec has memory, for a chunk and for others. -/
def someMem (size : Nat) : Option Nat := some (if size = Buddy.maxSize then 0x100000 else 0x200000)

/-- Memory before anything is allocated. -/
def freshHeap : Buddy.State :=
  Buddy.initBuddy ⟨fun _ => 0, fun _ => 0, fun _ => 0, ⟨fun _ => none, fun _ => none⟩⟩

/-- A backlog of five has room for five. -/
theorem queue_fits_iff_five :
    ∃ un, (addUnixName someMem 5 freshHeap).1 = some un ∧
      ∀ n, Reachable (system un) n → Fits (provided un.queue (un.queueSize * 4#32)) n := by
  have hsome : (addUnixName someMem 5 freshHeap).1.isSome := by decide
  obtain ⟨un, hun⟩ := Option.isSome_iff_exists.mp hsome
  exact ⟨un, hun, (queue_fits_iff someMem 5 freshHeap un hun).1.mpr (by decide)⟩

/-- **A backlog of -1 is overrun**: `listen` succeeds, the queue has 24 bytes, and the seventh client that
connects is written behind them. -/
theorem queue_overrun :
    ∃ un, (addUnixName someMem (-1) freshHeap).1 = some un ∧
      provided un.queue (un.queueSize * 4#32) = 24 ∧
      ∃ n, Reachable (system un) n ∧ n.queueSize ≠ n.queueIndex ∧ n.queueIndex.toInt = 6 ∧
        ¬ NextFits (provided un.queue (un.queueSize * 4#32)) n := by
  have hsome : (addUnixName someMem (-1) freshHeap).1.isSome := by decide
  obtain ⟨un, hun⟩ := Option.isSome_iff_exists.mp hsome
  obtain ⟨hsize, hzero, -⟩ := addUnixName_some hun
  have hbytes : provided un.queue (un.queueSize * 4#32) = 24 := by
    rw [hsize]
    rfl
  have hsix : Reachable (system un) { un with queueIndex := BitVec.ofNat 32 6 } :=
    reachable_index hzero (by rw [hsize]; decide)
  have hne : queueSizeOf (-1) ≠ 6#32 := by decide
  refine ⟨un, hun, hbytes, _, hsix, hsize ▸ hne, rfl, ?_⟩
  rintro ⟨-, hle⟩
  have hsigned : (6#32).toInt = 6 := rfl
  dsimp only at hle
  omega

end Ixemul.Unp.Backlog
