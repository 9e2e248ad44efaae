/-
# Ixemul.Ipc.SemCount — the counts of waiting tasks (sysv_sem.c).

`semop` counts a task that has to wait in `semncnt` or `semzcnt` of the semaphore, through a pointer into
the pool, before it sleeps, and takes the count back through the same pointer when it goes on.  It does not
take it back when a signal ended the sleep; and the pointer is to another semaphore by then if a set in
front was removed meanwhile, which moves the pool down.

A task is asleep from the call of `ix_sleep` to its return.  A call that leaves the table of sets or ends in
`panic` has no next state.
-/
import Ixemul.Lib.Run
import Ixemul.Ipc.SemPacked
import Ixemul.Ipc.SemAtomic
import Ixemul.Ipc.SemExit

namespace Ixemul.Ipc

open Lib.Run
open List

/-! ## Runs -/

/-- The tables, and the calls of `semop` that sleep. -/
structure Waits where
  tables : SemState
  asleep : List SemWaiting

inductive WaitOp where
  | semop (p : Task) (id : Id) (sops : List SemBuf)
  | resume (w : SemWaiting) (interrupted : Bool)
  | semctl (cred : Ucred) (id : Id) (semnum : Int) (cmd : SemCmd)
  | semexit (holder : Option Task) (p : Task)

inductive WaitStep : Waits → WaitOp → Waits → Prop where
  | semopReturns {s s' : SemState} {l : List SemWaiting} {p : Task} {id : Id} {sops : List SemBuf} {r : Ret}
      (h : semop s p id sops = (s', .ret r)) : WaitStep ⟨s, l⟩ (.semop p id sops) ⟨s', l⟩
  | semopSleeps {s s' : SemState} {l : List SemWaiting} {p : Task} {id : Id} {sops : List SemBuf}
      {w : SemWaiting} (h : semop s p id sops = (s', .sleep w)) :
      WaitStep ⟨s, l⟩ (.semop p id sops) ⟨s', w :: l⟩
  | resumeReturns {s s' : SemState} {l : List SemWaiting} {w : SemWaiting} {interrupted : Bool} {r : Ret}
      (hw : w ∈ l) (h : semopResume s w interrupted = (s', .ret r)) :
      WaitStep ⟨s, l⟩ (.resume w interrupted) ⟨s', l.erase w⟩
  | resumeSleeps {s s' : SemState} {l : List SemWaiting} {w w' : SemWaiting} {interrupted : Bool}
      (hw : w ∈ l) (h : semopResume s w interrupted = (s', .sleep w')) :
      WaitStep ⟨s, l⟩ (.resume w interrupted) ⟨s', w' :: l.erase w⟩
  | semctl {s s' : SemState} {l : List SemWaiting} {cred : Ucred} {id : Id} {semnum : Int} {cmd : SemCmd}
      {r : Ret} {reply : SemReply} (h : semctl s cred id semnum cmd = (s', .ret r reply)) :
      WaitStep ⟨s, l⟩ (.semctl cred id semnum cmd) ⟨s', l⟩
  | semexit {s s' : SemState} {l : List SemWaiting} {holder : Option Task} {p : Task} {out : ExitOutcome}
      (h : semexit s holder p = .ok (s', out)) : WaitStep ⟨s, l⟩ (.semexit holder p) ⟨s', l⟩

/-! ## Counts -/

/-- `semzcnt` or `semncnt`. -/
def Sem.count (sm : Sem) (zero : Bool) : BitVec 16 := if zero then sm.semzcnt else sm.semncnt

/-- The operation waits for the semaphore to become zero. -/
def SemBuf.forZero (sop : SemBuf) : Bool := sop.op == 0

/-- The call waits for semaphore `num` of the set. -/
def SemWaiting.waitsFor (ix : Fin semmni) (num : Nat) (zero : Bool) (w : SemWaiting) : Bool :=
  w.ix == ix && w.sop.num == num && w.sop.forZero == zero

/-- How many do. -/
def waiting (l : List SemWaiting) (ix : Fin semmni) (num : Nat) (zero : Bool) : Nat :=
  l.countP (SemWaiting.waitsFor ix num zero)

/-- The counts of every semaphore of every set are the numbers of tasks that wait for it. -/
def Counted (y : Waits) : Prop :=
  ∀ ix num zero, (y.tables.sema ix).alloc = true → num < (y.tables.sema ix).nsems →
    ((y.tables.sem ((y.tables.sema ix).base + num)).count zero).toNat = waiting y.asleep ix num zero

/-- One more task may wait for what `w` waits for. -/
def RoomFor (l : List SemWaiting) (w : SemWaiting) : Prop :=
  waiting l w.ix w.sop.num w.sop.forZero + 1 < 2 ^ 16

/-- When the counts stay right: a task whose set is still there is not interrupted, and finds the
semaphore where it was; and who goes to sleep is not the last that a count has no number for. -/
def CountsRight (y : Waits) : WaitOp → Prop
  | .semop p id sops => ∀ s' w, semop y.tables p id sops = (s', .sleep w) → RoomFor y.asleep w
  | .resume w interrupted =>
    (y.tables.sema w.ix).alloc = true →
      interrupted = false ∧ w.semptr = (y.tables.sema w.ix).base + w.sop.num ∧
        ∀ s' w', semopResume y.tables w interrupted = (s', .sleep w') → RoomFor (y.asleep.erase w) w'
  | _ => True

/-! ## What a call does to the counts -/

variable {s s' : SemState} {p : Task} {ix : Fin semmni} {sops : List SemBuf} {doUndos : Bool}
  {l : List SemWaiting} {w w' : SemWaiting} {r : Ret} {id : Id} {num : Nat} {zero : Bool} {y z : Waits}
  {a : WaitOp}

@[simp] theorem count_plus (sm : Sem) (v : Int) (zero : Bool) : (sm.plus v).count zero = sm.count zero := rfl

theorem count_countWaiter (sem : Nat → Sem) (i : Nat) (sop : SemBuf) (v : BitVec 16) (j : Nat) (zero : Bool) :
    (countWaiter sem i sop v j).count zero =
      if j = i ∧ sop.forZero = zero then (sem j).count zero + v else (sem j).count zero := by
  unfold countWaiter SemBuf.forZero
  by_cases hop : sop.op = 0
  · rw [if_pos hop]
    by_cases hj : j = i
    · subst hj
      cases zero <;> simp [hop, Sem.count]
    · simp [hj]
  · have hne : (sop.op == 0) = false := beq_false_of_ne hop
    rw [if_neg hop, hne]
    by_cases hj : j = i
    · subst hj
      cases zero <;> simp [Sem.count]
    · simp [hj]

/-- The sets are where they were, and the counts what they were. -/
structure SameWaiters (s s' : SemState) : Prop where
  alloc : ∀ ix, (s'.sema ix).alloc = (s.sema ix).alloc
  base : ∀ ix, (s'.sema ix).base = (s.sema ix).base
  nsems : ∀ ix, (s'.sema ix).nsems = (s.sema ix).nsems
  seq : ∀ ix, (s'.sema ix).perm.seq = (s.sema ix).perm.seq
  semtot : s'.semtot = s.semtot
  count : ∀ j zero, (s'.sem j).count zero = (s.sem j).count zero

theorem SameWaiters.of_sema (hsema : s'.sema = s.sema) (hsemtot : s'.semtot = s.semtot)
    (hcount : ∀ j zero, (s'.sem j).count zero = (s.sem j).count zero) : SameWaiters s s' where
  alloc ix := by rw [hsema]
  base ix := by rw [hsema]
  nsems ix := by rw [hsema]
  seq ix := by rw [hsema]
  semtot := hsemtot
  count := hcount

theorem SameWaiters.refl (s : SemState) : SameWaiters s s := .of_sema rfl rfl fun _ _ => rfl

theorem SameCounts.sameWaiters (h : SameCounts s s') : SameWaiters s s' := by
  refine .of_sema h.sema h.semtot fun j zero => ?_
  cases zero with
  | true => exact h.semzcnt j
  | false => exact h.semncnt j

theorem semopRound_returns (h : semopRound s p ix sops doUndos = (s', .ret r)) : SameWaiters s s' := by
  rcases vector_cases (s.sema ix) s.sem sops with hp | ⟨pre, sop, post, rfl, hp, hbad | ⟨hn, hb⟩⟩
  · rw [semopRound_done doUndos hp] at h
    split at h <;> cases h
    · refine .of_sema rfl rfl fun j zero => ?_
      obtain ⟨q, hq⟩ := setSempid_apply (s.sema ix) p (perform (s.sema ix) s.sem sops) sops j
      show (setSempid (s.sema ix) p _ sops j).count zero = _
      rw [hq, perform_apply]
      rfl
    · exact .of_sema rfl rfl fun _ _ => rfl
  · rw [semopRound_range doUndos hp hbad] at h
    cases h
    refine .of_sema rfl rfl fun j zero => ?_
    show (perform (s.sema ix) s.sem pre j).count zero = _
    rw [perform_apply, count_plus]
  · rw [semopRound_block doUndos hp hn hb] at h
    split at h <;> cases h
    exact .refl _

/-! How the calls end. -/

theorem semop_returns (h : semop s p id sops = (s', .ret r)) : SameWaiters s s' := by
  revert h
  fun_cases semop s p id sops with
  | case1 => exact nofun
  | case4 => exact semopRound_returns
  | _ =>
    rintro ⟨⟩
    exact .refl _

theorem semop_sleeps (h : semop s p id sops = (s', .sleep w)) :
    s' = { s with sem := countWaiter s.sem w.semptr w.sop 1 } ∧ (s.sema w.ix).alloc ∧
      (s.sema w.ix).perm.seq = 0 ∧ w.sop.num < (s.sema w.ix).nsems ∧
      w.semptr = (s.sema w.ix).base + w.sop.num := by
  revert h
  fun_cases semop s p id sops with
  | case4 ix hcheck =>
    intro h
    obtain ⟨rfl, rfl, hnum, hptr⟩ := semopRound_sleeps h
    obtain ⟨halloc, hseq⟩ := semCheck_accept hcheck
    exact ⟨rfl, halloc, hseq, hnum, hptr⟩
  | _ => exact nofun

theorem semopResume_cases (s : SemState) (w : SemWaiting) (interrupted : Bool) :
    (semopResume s w interrupted = (s, .ret (semFail .eintr)) ∧ interrupted) ∨
      (semopResume s w interrupted = (s, .ret (semFail .einval)) ∧ interrupted = false ∧
        ((s.sema w.ix).alloc = false ∨ (s.sema w.ix).perm.seq ≠ 0)) ∨
      semopResume s w interrupted = semopRound { s with sem := countWaiter s.sem w.semptr w.sop (-1) }
          w.proc w.ix w.sops w.doUndos ∧ interrupted = false ∧ (s.sema w.ix).alloc := by
  unfold semopResume
  rw [ipcidToSeq_ipcidToIx]
  dsimp only
  split_ifs with hint hbad
  · exact .inl ⟨rfl, hint⟩
  · exact .inr (.inl ⟨rfl, by simpa using hint, hbad⟩)
  · rw [not_or] at hbad
    exact .inr (.inr ⟨rfl, by simpa using hint, by simpa using hbad.1⟩)

theorem semctl_cases {cred : Ucred} {semnum : Int} {cmd : SemCmd} {out : CtlOutcome}
    (h : semctl s cred id semnum cmd = (s', out)) :
    SameWaiters s s' ∨ ∃ ix, (s.sema ix).alloc ∧ s' = semRmid s cred ix := by
  unfold semctl at h
  split at h
  · cases h
    exact .inl (.refl _)
  · cases h
    exact .inl (.refl _)
  · rename_i ix hcheck
    cases cmd with
    | ipcRmid =>
      cases h
      exact .inr ⟨ix, (semCheck_accept hcheck).1, rfl⟩
    | ipcSet uid gid mode =>
      cases h
      -- the mode of the set keeps SEM_ALLOC
      refine .inl ⟨fun i => ?_, fun i => ?_, fun i => ?_, fun i => ?_, rfl, fun _ _ => rfl⟩ <;>
        by_cases hi : i = ix <;> simp [hi, SemidDs.alloc]
    | getncnt | getpid | getval | getzcnt =>
      obtain rfl : s = s' := (semField_fst ..).symm.trans (congrArg Prod.fst h)
      exact .inl (.refl _)
    | setval =>
      dsimp only at h
      split at h
      · cases h
        exact .inl (.refl _)
      · cases h
        refine .inl (.of_sema rfl rfl fun j zero => ?_)
        by_cases hj : j = (s.sema ix).base + semnum.toNat
        · subst hj
          simp [Sem.count]
        · simp [hj]
    | setall =>
      cases h
      refine .inl (.of_sema rfl rfl fun j zero => ?_)
      dsimp only
      split <;> rfl
    | ipcStat | getall | other =>
      cases h
      exact .inl (.refl _)

theorem semexit_sameWaiters {holder : Option Task} {out : ExitOutcome}
    (h : semexit s holder p = .ok (s', out)) : SameWaiters s s' := by
  unfold semexit at h
  split at h
  · split at h <;> cases h <;> exact .refl _
  · cases hexit : exitUnlocked s p with
    | error =>
      rw [hexit] at h
      cases h
    | ok =>
      rw [hexit] at h
      cases h
      exact (exitUnlocked_sameCounts hexit).sameWaiters

/-! ## The numbers of tasks -/

theorem waiting_cons (w : SemWaiting) (l : List SemWaiting) (ix : Fin semmni) (num : Nat) (zero : Bool) :
    waiting (w :: l) ix num zero = waiting l ix num zero + if w.waitsFor ix num zero then 1 else 0 :=
  countP_cons

theorem waiting_erase (hw : w ∈ l) (ix : Fin semmni) (num : Nat) (zero : Bool) :
    waiting l ix num zero = waiting (l.erase w) ix num zero + if w.waitsFor ix num zero then 1 else 0 := by
  rw [← waiting_cons]
  exact (perm_cons_erase hw).countP_eq _

theorem waitsFor_iff : w.waitsFor ix num zero ↔ w.ix = ix ∧ w.sop.num = num ∧ w.sop.forZero = zero := by
  simp [SemWaiting.waitsFor, and_assoc]

theorem Packed.place_inj (h : Packed s) {ix' : Fin semmni} {num' : Nat} (hix : (s.sema ix).alloc)
    (hnum : num < (s.sema ix).nsems) (hix' : (s.sema ix').alloc) (hnum' : num' < (s.sema ix').nsems)
    (heq : (s.sema ix).base + num = (s.sema ix').base + num') : ix = ix' ∧ num = num' := by
  have hown : (s.sema ix).Owns ((s.sema ix).base + num) := ⟨hix, by omega, by omega⟩
  have hown' : (s.sema ix').Owns ((s.sema ix).base + num) := ⟨hix', by omega, by omega⟩
  obtain rfl := h.apart ix ix' _ hown hown'
  exact ⟨rfl, by omega⟩

theorem Packed.count_place (h : Packed s) (hw : (s.sema w.ix).alloc)
    (hwnum : w.sop.num < (s.sema w.ix).nsems) (hptr : w.semptr = (s.sema w.ix).base + w.sop.num)
    (hix : (s.sema ix).alloc) (hnum : num < (s.sema ix).nsems)
    (v : BitVec 16) :
    (countWaiter s.sem w.semptr w.sop v ((s.sema ix).base + num)).count zero =
      (s.sem ((s.sema ix).base + num)).count zero + if w.waitsFor ix num zero then v else 0#16 := by
  rw [count_countWaiter]
  by_cases hfor : w.waitsFor ix num zero
  · obtain ⟨rfl, rfl, hzero⟩ := waitsFor_iff.mp hfor
    rw [if_pos ⟨hptr.symm, hzero⟩, if_pos hfor]
  · rw [if_neg hfor, BitVec.add_zero, if_neg]
    rintro ⟨heq, hzero⟩
    obtain ⟨rfl, rfl⟩ := h.place_inj hix hnum hw hwnum (heq.trans hptr)
    exact hfor (waitsFor_iff.mpr ⟨rfl, rfl, hzero⟩)

/-! ## One step -/

/-- What a run keeps while the counts are right: who waits for a semaphore of a set that is there waits for
one it has, and the set has not been used before. -/
structure WaitInv (y : Waits) : Prop where
  packed : Packed y.tables
  counted : Counted y
  sleepers : ∀ w ∈ y.asleep, (y.tables.sema w.ix).alloc = true →
    w.sop.num < (y.tables.sema w.ix).nsems ∧ (y.tables.sema w.ix).perm.seq = 0

theorem SameWaiters.packed (h : SameWaiters s s') (hp : Packed s) : Packed s' := by
  have howns : ∀ ix k, (s'.sema ix).Owns k ↔ (s.sema ix).Owns k := by
    intro ix k
    rw [SemidDs.Owns, SemidDs.Owns, h.alloc, h.base, h.nsems]
  refine ⟨fun i j k hi hj => ?_, fun k => ?_, ?_⟩
  · exact hp.apart i j k ((howns i k).mp hi) ((howns j k).mp hj)
  · rw [h.semtot, ← hp.whole k]
    exact exists_congr fun i => howns i k
  · rw [h.semtot]
    exact hp.room

theorem SameWaiters.counted_iff (h : SameWaiters s s') : Counted ⟨s', l⟩ ↔ Counted ⟨s, l⟩ := by
  refine forall_congr' fun ix => forall_congr' fun num => forall_congr' fun zero => ?_
  rw [h.alloc, h.base, h.nsems, h.count]

theorem SameWaiters.inv (h : SameWaiters s s') (hy : WaitInv ⟨s, l⟩) : WaitInv ⟨s', l⟩ where
  packed := h.packed hy.packed
  counted := h.counted_iff.mpr hy.counted
  sleepers w hw halloc := by
    rw [h.alloc] at halloc
    rw [h.nsems, h.seq]
    exact hy.sleepers w hw halloc

theorem counted_sleep_iff (hp : Packed s) (hc : Counted ⟨s, l⟩) (hw : (s.sema w.ix).alloc)
    (hnum : w.sop.num < (s.sema w.ix).nsems) (hptr : w.semptr = (s.sema w.ix).base + w.sop.num) :
    Counted ⟨{ s with sem := countWaiter s.sem w.semptr w.sop 1 }, w :: l⟩ ↔ RoomFor l w := by
  constructor
  · intro h
    have hself : w.waitsFor w.ix w.sop.num w.sop.forZero := waitsFor_iff.mpr ⟨rfl, rfl, rfl⟩
    have hnew := h w.ix w.sop.num w.sop.forZero hw hnum
    have hold := hc w.ix w.sop.num w.sop.forZero hw hnum
    rw [hp.count_place hw hnum hptr hw hnum, waiting_cons, if_pos hself, if_pos hself] at hnew
    unfold RoomFor
    omega
  · intro hroom ix num zero hix hn
    have hold := hc ix num zero hix hn
    rw [hp.count_place hw hnum hptr hix hn, waiting_cons]
    by_cases hfor : w.waitsFor ix num zero
    · obtain ⟨rfl, rfl, rfl⟩ := waitsFor_iff.mp hfor
      rw [if_pos hfor, if_pos hfor, BitVec.toNat_add, hold]
      exact Nat.mod_eq_of_lt hroom
    · rw [if_neg hfor, if_neg hfor, BitVec.add_zero, add_zero]
      exact hold

theorem counted_leave (hp : Packed s) (hc : Counted ⟨s, l⟩) (hmem : w ∈ l)
    (hw : (s.sema w.ix).alloc) (hnum : w.sop.num < (s.sema w.ix).nsems)
    (hptr : w.semptr = (s.sema w.ix).base + w.sop.num) :
    Counted ⟨{ s with sem := countWaiter s.sem w.semptr w.sop (-1) }, l.erase w⟩ := by
  intro ix num zero hix hn
  have hold := hc ix num zero hix hn
  have herase := waiting_erase hmem ix num zero
  dsimp only at hix hn hold ⊢
  rw [hp.count_place hw hnum hptr hix hn]
  by_cases hfor : w.waitsFor ix num zero
  · rw [if_pos hfor] at herase ⊢
    have hone : (-1 : BitVec 16).toNat = 2 ^ 16 - 1 := rfl
    rw [BitVec.toNat_add, hone]
    omega
  · rw [if_neg hfor] at herase ⊢
    rw [BitVec.add_zero]
    omega

theorem counted_orphan (hc : Counted ⟨s, l⟩) (hmem : w ∈ l) (hw : (s.sema w.ix).alloc = false) :
    Counted ⟨s, l.erase w⟩ := by
  intro ix num zero hix hn
  have hold := hc ix num zero hix hn
  have herase := waiting_erase hmem ix num zero
  dsimp only at hix hold ⊢
  rw [if_neg] at herase
  · omega
  · intro hfor
    rw [← (waitsFor_iff.mp hfor).1, hw] at hix
    cases hix

theorem off_by_one {c : BitVec 16} {n : Nat} (hc : c.toNat = n + 1) (again : Bool) :
    (c + if again then 1 else 0#16).toNat ≠ n + if again then 1 else 0 := by
  cases again with
  | true =>
    have hone : (1 : BitVec 16).toNat = 1 := rfl
    simp only [if_true, BitVec.toNat_add, hone]
    omega
  | false =>
    simp only [Bool.false_eq_true, if_false, BitVec.add_zero]
    omega

/-- A task whose set is there goes on, and its count stays where it is: the counts are wrong, even if the
task sleeps and is counted again. -/
theorem not_counted_of_left (hc : Counted ⟨s, l⟩) (hmem : w ∈ l) (hw : (s.sema w.ix).alloc)
    (hnum : w.sop.num < (s.sema w.ix).nsems) (again : Bool) (l' : List SemWaiting) (hsema : s'.sema = s.sema)
    (hl : waiting l' w.ix w.sop.num w.sop.forZero =
      waiting (l.erase w) w.ix w.sop.num w.sop.forZero + if again then 1 else 0)
    (hcount : (s'.sem ((s.sema w.ix).base + w.sop.num)).count w.sop.forZero =
      (s.sem ((s.sema w.ix).base + w.sop.num)).count w.sop.forZero + if again then 1 else 0#16) :
    ¬ Counted ⟨s', l'⟩ := by
  intro h
  have hself : w.waitsFor w.ix w.sop.num w.sop.forZero := waitsFor_iff.mpr ⟨rfl, rfl, rfl⟩
  have hold := hc w.ix w.sop.num w.sop.forZero hw hnum
  have hnew := h w.ix w.sop.num w.sop.forZero (by rwa [hsema]) (by rwa [hsema])
  rw [waiting_erase hmem, if_pos hself] at hold
  rw [hsema, hcount, hl] at hnew
  exact off_by_one hold again hnew

theorem WaitInv.semRmid (hy : WaitInv ⟨s, l⟩) (cred : Ucred) (hix : (s.sema ix).alloc) :
    WaitInv ⟨semRmid s cred ix, l⟩ := by
  have hne : ∀ j, ((Ipc.semRmid s cred ix).sema j).alloc → j ≠ ix := by
    rintro j hj rfl
    simp [Ipc.semRmid, SemidDs.alloc] at hj
  refine ⟨hy.packed.semRmid hix, fun j num zero hj hnum => ?_, fun w hw hj => ?_⟩
  · have hji := hne j hj
    have halloc : (s.sema j).alloc := (alloc_semRmid hji).symm.trans hj
    have hsame : SameSems s (Ipc.semRmid s cred ix) j := sameSems_semRmid hy.packed hji halloc hix
    rw [hsame.nsems] at hnum
    rw [hsame.sems num hnum]
    exact hy.counted j num zero halloc hnum
  · have hji := hne w.ix hj
    have halloc : (s.sema w.ix).alloc := (alloc_semRmid hji).symm.trans hj
    obtain ⟨hnum, hseq⟩ := hy.sleepers w hw halloc
    refine ⟨?_, ?_⟩
    · dsimp only
      rwa [nsems_semRmid hji]
    · dsimp only
      rw [sema_semRmid_of_ne hji]
      split <;> exact hseq

theorem WaitInv.erase (hy : WaitInv ⟨s, l⟩) (hc : Counted ⟨s, l.erase w⟩) : WaitInv ⟨s, l.erase w⟩ :=
  ⟨hy.packed, hc, fun w' hw' => hy.sleepers w' (mem_of_mem_erase hw')⟩

theorem WaitInv.sleep (hy : WaitInv ⟨s, l⟩) (hw : (s.sema w.ix).alloc)
    (hseq : (s.sema w.ix).perm.seq = 0) (hnum : w.sop.num < (s.sema w.ix).nsems)
    (hptr : w.semptr = (s.sema w.ix).base + w.sop.num) (hroom : RoomFor l w) :
    WaitInv ⟨{ s with sem := countWaiter s.sem w.semptr w.sop 1 }, w :: l⟩ where
  packed := ⟨hy.packed.apart, hy.packed.whole, hy.packed.room⟩
  counted := (counted_sleep_iff hy.packed hy.counted hw hnum hptr).mpr hroom
  sleepers := forall_mem_cons.mpr ⟨fun _ => ⟨hnum, hseq⟩, hy.sleepers⟩

/-- A task goes on and is not counted any more. -/
theorem WaitInv.leave (hy : WaitInv ⟨s, l⟩) (hmem : w ∈ l) (hw : (s.sema w.ix).alloc)
    (hptr : w.semptr = (s.sema w.ix).base + w.sop.num) :
    WaitInv ⟨{ s with sem := countWaiter s.sem w.semptr w.sop (-1) }, l.erase w⟩ where
  packed := ⟨hy.packed.apart, hy.packed.whole, hy.packed.room⟩
  counted := counted_leave hy.packed hy.counted hmem hw (hy.sleepers w hmem hw).1 hptr
  sleepers := fun w' hw' => hy.sleepers w' (mem_of_mem_erase hw')

/-- A step under the condition keeps the counts right. -/
theorem WaitInv.step (hy : WaitInv y) (ha : CountsRight y a) (hstep : WaitStep y a z) : WaitInv z := by
  cases hstep with
  | semopReturns h => exact (semop_returns h).inv hy
  | semopSleeps h =>
    obtain ⟨rfl, halloc, hseq, hnum, hptr⟩ := semop_sleeps h
    exact hy.sleep halloc hseq hnum hptr (ha _ _ h)
  | @resumeReturns s s' l w interrupted r hmem h =>
    rcases semopResume_cases s w interrupted with ⟨hrun, hint⟩ | ⟨hrun, -, hgone⟩ | ⟨hrun, -, halloc⟩
    · rw [hrun] at h
      cases h
      -- only a task without a set may be interrupted
      cases halloc : (s.sema w.ix).alloc with
      | true =>
        have hnot := (ha halloc).1
        rw [hint] at hnot
        cases hnot
      | false => exact hy.erase (counted_orphan hy.counted hmem halloc)
    · rw [hrun] at h
      cases h
      cases halloc : (s.sema w.ix).alloc with
      | true =>
        have hseq := (hy.sleepers w hmem halloc).2
        exact absurd hseq (hgone.resolve_left (by rw [halloc]; decide))
      | false => exact hy.erase (counted_orphan hy.counted hmem halloc)
    · rw [hrun] at h
      exact (semopRound_returns h).inv (hy.leave hmem halloc (ha halloc).2.1)
  | @resumeSleeps s s' l w w' interrupted hmem h =>
    rcases semopResume_cases s w interrupted with ⟨hrun, -⟩ | ⟨hrun, -, -⟩ | ⟨hrun, -, halloc⟩
    · rw [hrun] at h
      cases h
    · rw [hrun] at h
      cases h
    · obtain ⟨-, hptr, hroom⟩ := ha halloc
      have hroom' := hroom _ _ h
      rw [hrun] at h
      obtain ⟨rfl, hix, hnum, hptr'⟩ := semopRound_sleeps h
      have hleft := hy.leave hmem halloc hptr
      have hseq := (hy.sleepers w hmem halloc).2
      rw [← hix] at halloc hseq hnum hptr'
      exact hleft.sleep halloc hseq hnum hptr' hroom'
  | semctl h =>
    rcases semctl_cases h with hsame | ⟨ix, hix, rfl⟩
    · exact hsame.inv hy
    · exact hy.semRmid _ hix
  | semexit h => exact (semexit_sameWaiters h).inv hy

theorem not_counted_of_moved (w' : SemWaiting) (hp : Packed s) (hc : Counted ⟨s, l⟩) (hmem : w ∈ l)
    (hw : (s.sema w.ix).alloc) (hnum : w.sop.num < (s.sema w.ix).nsems)
    (hptr : w.semptr ≠ (s.sema w.ix).base + w.sop.num) :
    ¬ Counted ⟨{ s with sem := countWaiter s.sem w.semptr w.sop (-1) }, l.erase w⟩ ∧
      ((s.sema w'.ix).alloc → w'.sop.num < (s.sema w'.ix).nsems →
        w'.semptr = (s.sema w'.ix).base + w'.sop.num →
        ¬ Counted ⟨{ s with sem := countWaiter (countWaiter s.sem w.semptr w.sop (-1)) w'.semptr w'.sop 1 },
          w' :: l.erase w⟩) := by
  have hplace : (countWaiter s.sem w.semptr w.sop (-1) ((s.sema w.ix).base + w.sop.num)).count w.sop.forZero =
      (s.sem ((s.sema w.ix).base + w.sop.num)).count w.sop.forZero := by
    rw [count_countWaiter, if_neg]
    exact fun h => hptr h.1.symm
  refine ⟨?_, fun hw' hnum' hptr' => ?_⟩
  · refine not_counted_of_left hc hmem hw hnum false (l.erase w) ?_ rfl ?_
    · rfl
    · exact hplace.trans (BitVec.add_zero _).symm
  · refine not_counted_of_left hc hmem hw hnum (w'.waitsFor w.ix w.sop.num w.sop.forZero) (w' :: l.erase w) ?_
      (waiting_cons ..) ?_
    · rfl
    have hleft : Packed { s with sem := countWaiter s.sem w.semptr w.sop (-1) } :=
      ⟨hp.apart, hp.whole, hp.room⟩
    refine (hleft.count_place hw' hnum' hptr' hw hnum 1).trans ?_
    exact congrArg (· + if w'.waitsFor w.ix w.sop.num w.sop.forZero then 1 else 0#16) hplace

theorem WaitInv.countsRight (hy : WaitInv y) (hstep : WaitStep y a z) (hz : Counted z) : CountsRight y a := by
  cases hstep with
  | semopReturns h =>
    intro s' w hsleep
    cases h.symm.trans hsleep
  | semopSleeps h =>
    intro s' w hsleep
    cases h.symm.trans hsleep
    obtain ⟨rfl, halloc, -, hnum, hptr⟩ := semop_sleeps h
    exact (counted_sleep_iff hy.packed hy.counted halloc hnum hptr).mp hz
  | @resumeReturns s s' l w interrupted r hmem h =>
    intro halloc
    obtain ⟨hnum, hseq⟩ := hy.sleepers w hmem halloc
    rcases semopResume_cases s w interrupted with ⟨hrun, -⟩ | ⟨-, -, hgone⟩ | ⟨hrun, hint, -⟩
    · -- the count of the interrupted task is still there
      rw [hrun] at h
      cases h
      have hleft := not_counted_of_left hy.counted hmem halloc hnum false (l.erase w) rfl rfl
        (BitVec.add_zero _).symm
      exact absurd hz hleft
    · exact absurd hseq (hgone.resolve_left (by rw [halloc]; decide))
    · refine ⟨hint, ?_, fun s'' w' hsleep => ?_⟩
      · by_contra hptr
        rw [hrun] at h
        rw [(semopRound_returns h).counted_iff] at hz
        exact (not_counted_of_moved w hy.packed hy.counted hmem halloc hnum hptr).1 hz
      · cases h.symm.trans hsleep
  | @resumeSleeps s s' l w w' interrupted hmem h =>
    intro halloc
    obtain ⟨hnum, hseq⟩ := hy.sleepers w hmem halloc
    rcases semopResume_cases s w interrupted with ⟨hrun, -⟩ | ⟨hrun, -, -⟩ | ⟨hrun, hint, -⟩
    · cases h.symm.trans hrun
    · cases h.symm.trans hrun
    · have hround := hrun.symm.trans h
      obtain ⟨rfl, hix, hnum', hptr'⟩ := semopRound_sleeps hround
      have halloc' : (s.sema w'.ix).alloc := by rwa [hix]
      rw [← hix] at hnum' hptr'
      have hplace : w.semptr = (s.sema w.ix).base + w.sop.num := by
        by_contra hptr
        exact (not_counted_of_moved w' hy.packed hy.counted hmem halloc hnum hptr).2 halloc' hnum' hptr' hz
      refine ⟨hint, hplace, fun s'' w'' hsleep => ?_⟩
      cases h.symm.trans hsleep
      have hleft := hy.leave hmem halloc hplace
      exact (counted_sleep_iff hleft.packed hleft.counted halloc' hnum' hptr').mp hz
  | semctl | semexit => exact trivial

/-! ## Runs -/

/-- Nobody waits for any semaphore, as far as the counts say. -/
def ZeroCounts (s : SemState) : Prop :=
  ∀ ix num zero, (s.sema ix).alloc = true → num < (s.sema ix).nsems →
    (s.sem ((s.sema ix).base + num)).count zero = 0

/-- **When the counts are the numbers of waiting tasks**: in every state of a run that starts from a packed
table with zero counts, exactly if no task whose set is still there is interrupted in its sleep, each of
them finds the semaphore where it was when it goes on, and no 2 ^ 16 tasks wait for the same. -/
theorem counts_right_iff (s : SemState) (hp : Packed s) (hzero : ZeroCounts s) (tr : List (Waits × WaitOp))
    (z : Waits) (h : History WaitStep ⟨s, []⟩ tr z) :
    ((∀ x ∈ tr, Counted x.1) ∧ Counted z) ↔ ∀ x ∈ tr, CountsRight x.1 x.2 := by
  have hstart : WaitInv ⟨s, []⟩ := by
    refine ⟨hp, fun ix num zero hix hnum => ?_, forall_mem_nil _⟩
    rw [hzero ix num zero hix hnum]
    rfl
  exact h.always_iff_of_invariant (fun _ hy => hy.counted) (fun _ _ _ hy ha hstep => hy.step ha hstep)
    (fun _ _ _ hy hstep hz => hy.countsRight hstep hz) hstart

theorem zeroCounts_twoSets : ZeroCounts twoSets := by
  intro ix num zero _ _
  have hall : ∀ k, (twoSets.sem k).count zero = 0 := by
    intro k
    by_cases hk : k = 2
    · subst hk
      cases zero <;> rfl
    · have hsem : twoSets.sem k = Sem.zero := if_neg hk
      rw [hsem]
      cases zero <;> rfl
  exact hall _

/-- Semaphore 0 of the first set down by one. -/
def downOne : SemBuf := ⟨0, -1, false, false⟩

/-- Task 1 as it sleeps in that. -/
def sleeper : SemWaiting := ⟨1, 0, [downOne], downOne, 0, false⟩

/-- The tables while it does. -/
def oneAsleep : SemState := (semop twoSets 1 0 [downOne]).1

theorem semop_twoSets_sleeps : semop twoSets 1 0 [downOne] = (oneAsleep, .sleep sleeper) :=
  Prod.ext rfl (by decide)

/-- Task 1 waits, task 2 puts the semaphore up, and task 1 goes on. -/
theorem counts_right_iff_twoSets :
    ∃ tr z, History WaitStep ⟨twoSets, []⟩ tr z ∧ tr.length = 3 ∧ (∀ x ∈ tr, Counted x.1) ∧ Counted z := by
  let s₂ := (semop oneAsleep 2 0 [⟨0, 1, false, false⟩]).1
  have hup : semop oneAsleep 2 0 [⟨0, 1, false, false⟩] = (s₂, .ret (plainReturn 0)) :=
    Prod.ext rfl (by decide)
  let s₃ := (semopResume s₂ sleeper false).1
  have hon : semopResume s₂ sleeper false = (s₃, .ret (plainReturn 0)) := Prod.ext rfl (by decide)
  have h₀ : History WaitStep ⟨twoSets, []⟩ [] ⟨twoSets, []⟩ := .nil _
  have h₁ := h₀.snoc (.semopSleeps semop_twoSets_sleeps)
  have h₂ := h₁.snoc (.semopReturns hup)
  have h₃ := h₂.snoc (.resumeReturns (mem_singleton_self _) hon)
  refine ⟨_, _, h₃, rfl, (counts_right_iff twoSets packed_twoSets zeroCounts_twoSets _ _ h₃).mpr ?_⟩
  have hroom : ∀ w, RoomFor [] w := fun w => (by decide : 0 + 1 < 2 ^ 16)
  simp only [forall_mem_append, forall_mem_singleton]
  refine ⟨⟨⟨forall_mem_nil _, fun s' w _ => hroom w⟩, fun s' w h => ?_⟩,
    fun _ => ⟨rfl, by decide, fun s' w h => ?_⟩⟩
  · cases hup.symm.trans h
  · cases hon.symm.trans h

/-- Task 1 waits for the semaphore of the second set, whose value is 7, to become zero. -/
def farSleeper : SemWaiting := ⟨1, 1, [⟨0, 0, false, false⟩], ⟨0, 0, false, false⟩, 2, false⟩

/-- **A signal leaves a count behind, and so does the removal of a set in front**: task 1 waits for a
semaphore to increase and is interrupted; nobody sleeps any more, and `semncnt` is 1.  Or it waits for one
of the second set to become zero, the first set is removed, and the count is taken back from where the
semaphore was. -/
theorem count_left_behind :
    (∃ tr z, History WaitStep ⟨twoSets, []⟩ tr z ∧ z.asleep = [] ∧ (z.tables.sema 0).alloc = true ∧
        (z.tables.sem (z.tables.sema 0).base).semncnt = 1 ∧ ¬ Counted z) ∧
      ∃ tr z, History WaitStep ⟨twoSets, []⟩ tr z ∧ z.asleep = [] ∧ (z.tables.sema 1).alloc = true ∧
        (z.tables.sem (z.tables.sema 1).base).semzcnt = 1 ∧ ¬ Counted z := by
  have h₀ : History WaitStep ⟨twoSets, []⟩ [] ⟨twoSets, []⟩ := .nil _
  constructor
  · have hint : semopResume oneAsleep sleeper true = (oneAsleep, .ret (semFail .eintr)) := rfl
    have h₁ := h₀.snoc (.semopSleeps semop_twoSets_sleeps)
    have h₂ := h₁.snoc (.resumeReturns (mem_singleton_self _) hint)
    refine ⟨_, _, h₂, by decide, by decide, by decide, fun hc => ?_⟩
    exact absurd (hc 0 0 false (by decide) (by decide)) (by decide)
  · let s₁ := (semop twoSets 1 1 farSleeper.sops).1
    have hsleep : semop twoSets 1 1 farSleeper.sops = (s₁, .sleep farSleeper) := Prod.ext rfl (by decide)
    let s₂ := (semctl s₁ ⟨0, 0⟩ 0 0 .ipcRmid).1
    have hrmid : semctl s₁ ⟨0, 0⟩ 0 0 .ipcRmid = (s₂, .ret (plainReturn 0) .nothing) :=
      Prod.ext rfl (by decide)
    let s₃ := (semctl s₂ ⟨0, 0⟩ 1 0 (.setval 0)).1
    have hset : semctl s₂ ⟨0, 0⟩ 1 0 (.setval 0) = (s₃, .ret (plainReturn 0) .nothing) :=
      Prod.ext rfl (by decide)
    let s₄ := (semopResume s₃ farSleeper false).1
    have hon : semopResume s₃ farSleeper false = (s₄, .ret (plainReturn 0)) := Prod.ext rfl (by decide)
    have h₁ := h₀.snoc (.semopSleeps hsleep)
    have h₂ := h₁.snoc (.semctl hrmid)
    have h₃ := h₂.snoc (.semctl hset)
    have h₄ := h₃.snoc (.resumeReturns (mem_singleton_self _) hon)
    refine ⟨_, _, h₄, by decide, by decide, by decide, fun hc => ?_⟩
    exact absurd (hc 1 0 true (by decide) (by decide)) (by decide)

end Ixemul.Ipc
