/-
# Ixemul.Ipc.SemValue — semaphore values against exact arithmetic (sysv_sem.c).

SEMVMX is the largest value a semaphore is meant to have.  `semval` is an unsigned 16-bit field; `semop`
adds to it whatever a vector says, `semexit` whatever an undo entry says, and neither looks at the upper
end. Beside the tables, a run here carries the values that exact arithmetic gives (`ValueEvent.exact`).

An event is a `semop` that succeeds or goes to sleep, a SETVAL or SETALL of values in range, or the
application of one undo entry; `semexit` applies those of its process one after the other (`applyUndos`).
-/
import Ixemul.Ipc.SemAtomic
import Ixemul.Ipc.SemExit
import Ixemul.Lib.Run

namespace Ixemul.Ipc

open Lib.Run
open Function List

/-- SEMVMX, the semaphore maximum value. -/
def semvmx : Nat := 32767

/-! ## Events -/

inductive ValueEvent where
  | semop (p : Task) (id : Id) (sops : List SemBuf)
  /-- a call that was asleep goes on -/
  | resume (w : SemWaiting)
  /-- a call goes to sleep, for the first time or again -/
  | sleep (w : SemWaiting)
  | setval (cred : Ucred) (id : Id) (semnum val : Int)
  | setall (cred : Ucred) (id : Id) (semnum : Int) (array : Nat → BitVec 16)
  /-- an entry is applied when its process exits -/
  | undo (e : Undo)

inductive ValueStep : SemState → ValueEvent → SemState → Prop where
  | semop {s s' : SemState} {p : Task} {id : Id} {sops : List SemBuf} {r : Ret}
      (h : semop s p id sops = (s', .ret r)) (hr : r.errno = none) : ValueStep s (.semop p id sops) s'
  | resume {s s' : SemState} {w : SemWaiting} {r : Ret} (h : semopResume s w false = (s', .ret r))
      (hr : r.errno = none) : ValueStep s (.resume w) s'
  | sleep {s s' : SemState} {p : Task} {id : Id} {sops : List SemBuf} {w : SemWaiting}
      (h : Ipc.semop s p id sops = (s', .sleep w)) : ValueStep s (.sleep w) s'
  | sleepAgain {s s' : SemState} {w w' : SemWaiting} (h : semopResume s w false = (s', .sleep w')) :
      ValueStep s (.sleep w') s'
  | setval {s s' : SemState} {cred : Ucred} {id : Id} {semnum val : Int} {r : Ret} {reply : SemReply}
      (hval : 0 ≤ val ∧ val ≤ semvmx) (h : semctl s cred id semnum (.setval val) = (s', .ret r reply))
      (hr : r.errno = none) : ValueStep s (.setval cred id semnum val) s'
  | setall {s s' : SemState} {cred : Ucred} {id : Id} {semnum : Int} {array : Nat → BitVec 16} {r : Ret}
      {reply : SemReply}
      (hval : ∀ ix, semCheck s id = .accept ix → ∀ i < (s.sema ix).nsems, (array i).toNat ≤ semvmx)
      (h : semctl s cred id semnum (.setall array) = (s', .ret r reply)) (hr : r.errno = none) :
      ValueStep s (.setall cred id semnum array) s'
  | undo {s s' : SemState} {e : Undo} (h : applyUndo s e = .ok s') : ValueStep s (.undo e) s'

/-- What an event does to values without a bound.  An undo adjustment stops at 0. -/
def ValueEvent.exact (s : SemState) (v : Nat → Int) : ValueEvent → Nat → Int
  | .semop _ id sops =>
    match semCheck s id with
    | .accept ix => fun j => v j + opSum (s.sema ix) j sops
    | _ => v
  | .resume w => fun j => v j + opSum (s.sema w.ix) j w.sops
  | .sleep _ => v
  | .setval _ id semnum val =>
    match semCheck s id with
    | .accept ix => update v ((s.sema ix).base + semnum.toNat) val
    | _ => v
  | .setall _ id _ array =>
    match semCheck s id with
    | .accept ix =>
      let ds := s.sema ix
      fun j => if ds.base ≤ j ∧ j < ds.base + ds.nsems then (array (j - ds.base)).toNat else v j
    | _ => v
  | .undo e =>
    if h : e.id < semmni then
      let j := (s.sema ⟨e.id, h⟩).base + e.num
      update v j (max 0 (v j + e.adjval.toInt))
    else v

/-- The tables and, beside them, the exact values. -/
structure Valued where
  tables : SemState
  exact : Nat → Int

def valueStep (y : Valued) (ev : ValueEvent) (z : Valued) : Prop :=
  ValueStep y.tables ev z.tables ∧ z.exact = ev.exact y.tables y.exact

/-- The values as they are stored. -/
def values (s : SemState) : Nat → Int := fun j => ((s.sem j).semval.toNat : Int)

/-- Every semaphore has its exact value, which is in 0..SEMVMX. -/
def Exact (y : Valued) : Prop := ∀ j, values y.tables j = y.exact j ∧ y.exact j ≤ semvmx

/-- The event takes no exact value above SEMVMX. -/
def StaysBelow (y : Valued) (ev : ValueEvent) : Prop := ∀ j, ev.exact y.tables y.exact j ≤ semvmx

/-! ## A vector -/

section Round

variable {s s' : SemState} {p : Task} {ix : Fin semmni} {sops : List SemBuf} {doUndos : Bool}

theorem semopRound_success {r : Ret} (h : semopRound s p ix sops doUndos = (s', .ret r))
    (hr : r.errno = none) :
    Performable (s.sema ix) s.sem sops ∧
      ∀ j, (s'.sem j).semval = (perform (s.sema ix) s.sem sops j).semval := by
  rcases vector_cases (s.sema ix) s.sem sops with hp | ⟨pre, sop, post, rfl, hp, hbad | ⟨hn, hb⟩⟩
  · rw [semopRound_done doUndos hp] at h
    refine ⟨hp, fun j => ?_⟩
    split at h <;> cases h
    · exact setSempid_semval p _ sops j
    · cases hr
  · rw [semopRound_range doUndos hp hbad] at h
    cases h
    cases hr
  · rw [semopRound_block doUndos hp hn hb] at h
    split at h <;> cases h
    cases hr

theorem semval_countWaiter (sem : Nat → Sem) (i : Nat) (sop : SemBuf) (v : BitVec 16) (j : Nat) :
    (countWaiter sem i sop v j).semval = (sem j).semval := by
  unfold countWaiter
  by_cases hj : j = i
  · subst hj
    split <;> simp
  · split <;> simp [hj]

theorem semopRound_sleep {w : SemWaiting} (h : semopRound s p ix sops doUndos = (s', .sleep w)) (j : Nat) :
    (s'.sem j).semval = (s.sem j).semval := by
  obtain ⟨rfl, -⟩ := semopRound_sleeps h
  exact semval_countWaiter _ _ _ _ j

theorem exact_perform {v : Nat → Int} {ds : SemidDs} {sem : Nat → Sem} (hp : Performable ds sem sops)
    (hv : ∀ j, ((sem j).semval.toNat : Int) = v j) (j : Nat) :
    (((perform ds sem sops j).semval.toNat : Int) = v j + opSum ds j sops ∧
      v j + opSum ds j sops ≤ semvmx) ↔ v j + opSum ds j sops ≤ semvmx := by
  rw [and_iff_right_iff_imp, ← hv j]
  intro hle
  refine (semval_perform_eq_iff hp).mpr ?_
  simp only [semvmx] at hle
  omega

end Round

/-! ## An undo entry -/

theorem toNat_undoVal {semval adjval : BitVec 16} (hval : semval.toNat ≤ semvmx)
    (hle : (semval.toNat : Int) + adjval.toInt ≤ semvmx) :
    ((undoVal semval adjval).toNat : Int) = max 0 ((semval.toNat : Int) + adjval.toInt) := by
  have hadj : adjval.toInt = if 2 * adjval.toNat < 65536 then (adjval.toNat : Int)
      else (adjval.toNat : Int) - 65536 := BitVec.toInt_eq_toNat_cond adjval
  simp only [semvmx] at hval hle
  unfold undoVal
  split
  · have hzero : (0 : BitVec 16).toNat = 0 := rfl
    omega
  · rw [BitVec.toNat_add]
    split at hadj <;> omega

/-! ## One event -/

variable {y z : Valued}

theorem exact_of_values (h : Exact y) (hval : ∀ j, values z.tables j = values y.tables j)
    (hex : z.exact = y.exact) : Exact z := by
  intro j
  rw [hval, hex]
  exact h j

variable {sops : List SemBuf}

theorem exact_vector_iff {ds : SemidDs} {sem : Nat → Sem} (h : Exact y)
    (hsem : ∀ j, (sem j).semval = (y.tables.sem j).semval) (hp : Performable ds sem sops)
    (hval : ∀ j, (z.tables.sem j).semval = (perform ds sem sops j).semval)
    (hex : ∀ j, z.exact j = y.exact j + opSum ds j sops) :
    Exact z ↔ ∀ j, z.exact j ≤ semvmx := by
  have hv : ∀ j, ((sem j).semval.toNat : Int) = y.exact j := by
    intro j
    rw [hsem]
    exact (h j).1
  refine forall_congr' fun j => ?_
  rw [values, hval, hex]
  exact exact_perform hp hv j

variable {s s' : SemState} {p : Task} {id : Id} {r : Ret}

theorem semop_accepted (h : semop s p id sops = (s', .ret r)) (hr : r.errno = none) :
    ∃ ix, semCheck s id = .accept ix ∧ semopRound s p ix sops false = (s', .ret r) := by
  revert h
  fun_cases semop s p id sops with
  | case1 => exact nofun
  | case4 ix hid => exact fun h => ⟨ix, hid, h⟩
  | _ =>
    rintro ⟨⟩
    cases hr

variable {w : SemWaiting}

theorem semopResume_accepted (h : semopResume s w false = (s', .ret r)) (hr : r.errno = none) :
    semopRound { s with sem := countWaiter s.sem w.semptr w.sop (-1) } w.proc w.ix w.sops w.doUndos =
      (s', .ret r) := by
  unfold semopResume at h
  rw [if_neg Bool.false_ne_true] at h
  split at h
  · cases h
    cases hr
  · exact h

theorem values_semop_sleep (h : semop s p id sops = (s', .sleep w)) : values s' = values s := by
  funext j
  revert h
  fun_cases semop s p id sops with
  | case4 =>
    intro h
    rw [values, values, semopRound_sleep h]
  | _ => exact nofun

theorem values_semopResume_sleep {w' : SemWaiting}
    (h : semopResume s w false = (s', .sleep w')) : values s' = values s := by
  funext j
  unfold semopResume at h
  rw [if_neg Bool.false_ne_true] at h
  split at h
  · cases h
  · rw [values, values, semopRound_sleep h]
    simp only [semval_countWaiter]

variable {cred : Ucred} {semnum : Int} {reply : SemReply}

theorem semctl_accepted {cmd : SemCmd} (h : semctl s cred id semnum cmd = (s', .ret r reply))
    (hr : r.errno = none) : ∃ ix, semCheck s id = .accept ix := by
  unfold semctl at h
  split at h
  · cases h
  · cases h
    cases hr
  · exact ⟨_, ‹_›⟩

theorem semctl_setval_ok {val : Int}
    (hval : 0 ≤ val ∧ val ≤ semvmx)
    (h : semctl s cred id semnum (.setval val) = (s', .ret r reply)) (hr : r.errno = none) :
    ∃ ix, semCheck s id = .accept ix ∧
      values s' = update (values s) ((s.sema ix).base + semnum.toNat) val := by
  obtain ⟨ix, hid⟩ := semctl_accepted h hr
  simp only [semctl, hid] at h
  split at h
  · cases h
    cases hr
  · obtain ⟨rfl, -⟩ := Prod.mk.inj h
    refine ⟨ix, hid, ?_⟩
    funext j
    by_cases hj : j = (s.sema ix).base + semnum.toNat
    · subst hj
      simp only [values, update_self, BitVec.toNat_ofInt]
      simp only [semvmx] at hval
      omega
    · simp only [values, update_of_ne hj]

theorem semctl_setall_ok {array : Nat → BitVec 16}
    (h : semctl s cred id semnum (.setall array) = (s', .ret r reply)) (hr : r.errno = none) :
    ∃ ix, semCheck s id = .accept ix ∧
      ∀ j, values s' j = if (s.sema ix).base ≤ j ∧ j < (s.sema ix).base + (s.sema ix).nsems
        then ((array (j - (s.sema ix).base)).toNat : Int) else values s j := by
  obtain ⟨ix, hid⟩ := semctl_accepted h hr
  simp only [semctl, hid] at h
  obtain ⟨rfl, -⟩ := Prod.mk.inj h
  refine ⟨ix, hid, fun j => ?_⟩
  simp only [values]
  split <;> rfl

/-- **One event keeps the values exact and in range exactly if it takes none above SEMVMX.** -/
theorem exact_step_iff {ev : ValueEvent} (h : Exact y) (hstep : valueStep y ev z) :
    Exact z ↔ StaysBelow y ev := by
  obtain ⟨s', v'⟩ := z
  obtain ⟨hst, rfl⟩ := hstep
  cases hst with
  | semop hrun hr =>
    obtain ⟨ix, hid, hround⟩ := semop_accepted hrun hr
    obtain ⟨hp, hval⟩ := semopRound_success hround hr
    refine exact_vector_iff h (fun _ => rfl) hp hval fun j => ?_
    simp only [ValueEvent.exact, hid]
  | resume hrun hr =>
    obtain ⟨hp, hval⟩ := semopRound_success (semopResume_accepted hrun hr) hr
    exact exact_vector_iff h (fun j => semval_countWaiter _ _ _ _ j) hp hval fun j => rfl
  | sleep hrun =>
    have hsame : Exact ⟨s', y.exact⟩ := exact_of_values h (congrFun (values_semop_sleep hrun)) rfl
    exact iff_of_true hsame fun j => (h j).2
  | sleepAgain hrun =>
    have hsame : Exact ⟨s', y.exact⟩ := exact_of_values h (congrFun (values_semopResume_sleep hrun)) rfl
    exact iff_of_true hsame fun j => (h j).2
  | @setval _ cred id semnum val r reply hval hrun hr =>
    obtain ⟨ix, hid, hvals⟩ := semctl_setval_ok hval hrun hr
    have hex : (ValueEvent.setval cred id semnum val).exact y.tables y.exact =
        update y.exact ((y.tables.sema ix).base + semnum.toNat) val := by
      simp only [ValueEvent.exact, hid]
    have hin : Exact ⟨s', update y.exact ((y.tables.sema ix).base + semnum.toNat) val⟩ := by
      intro j
      by_cases hj : j = (y.tables.sema ix).base + semnum.toNat
      · subst hj
        simp only [hvals, update_self, true_and]
        exact hval.2
      · simp only [hvals, update_of_ne hj]
        exact h j
    unfold StaysBelow
    rw [hex]
    exact iff_of_true hin fun j => (hin j).2
  | @setall _ cred id semnum array r reply hval hrun hr =>
    obtain ⟨ix, hid, hvals⟩ := semctl_setall_ok hrun hr
    have hin : Exact ⟨s', (ValueEvent.setall cred id semnum array).exact y.tables y.exact⟩ := by
      intro j
      simp only [hvals, ValueEvent.exact, hid]
      split
      · refine ⟨rfl, ?_⟩
        exact_mod_cast hval ix hid _ (by omega)
      · exact h j
    exact iff_of_true hin fun j => (hin j).2
  | @undo _ e hrun =>
    obtain ⟨hid, -, -, rfl⟩ := applyUndo_ok hrun
    refine forall_congr' fun j => ?_
    rw [and_iff_right_iff_imp]
    simp only [ValueEvent.exact, dif_pos hid, values, undoAt]
    by_cases hj : j = (y.tables.sema ⟨e.id, hid⟩).base + e.num
    · subst hj
      rw [update_self, update_self]
      intro hle
      obtain ⟨heq, hbound⟩ := h ((y.tables.sema ⟨e.id, hid⟩).base + e.num)
      rw [← heq] at hle hbound ⊢
      exact toNat_undoVal (Int.ofNat_le.mp hbound) (Int.le_trans (Int.le_max_right _ _) hle)
    · rw [update_of_ne hj, update_of_ne hj]
      exact fun _ => (h j).1

/-! ## Runs -/

/-- **When semaphore values are exact**: from any tables with all values in 0..SEMVMX, after every event of
a run each value is what exact arithmetic gives and in 0..SEMVMX, if and only if no event of the run
takes an exact value above SEMVMX. -/
theorem semval_exact_iff {s : SemState} {tr : List (Valued × ValueEvent)} {z : Valued}
    (hs : ∀ j, (s.sem j).semval.toNat ≤ semvmx) (h : History valueStep ⟨s, values s⟩ tr z) :
    ((∀ x ∈ tr, Exact x.1) ∧ Exact z) ↔ ∀ x ∈ tr, StaysBelow x.1 x.2 :=
  h.always_iff (fun _ _ _ hy hst => exact_step_iff hy hst) fun j => ⟨rfl, Int.ofNat_le.mpr (hs j)⟩

/-- An increment of a semaphore that is 0. -/
theorem semval_exact_iff_increment :
    ∃ tr z, History valueStep ⟨oneSet, values oneSet⟩ tr z ∧
      tr.map Prod.snd = [.semop 1 0 [⟨0, 1, false, false⟩]] ∧ (z.tables.sem 0).semval = 1 ∧ Exact z := by
  have hnil : History valueStep ⟨oneSet, values oneSet⟩ [] ⟨oneSet, values oneSet⟩ := .nil _
  have h := hnil.snoc
    (a := .semop 1 0 [⟨0, 1, false, false⟩])
    (u := ⟨(semop oneSet 1 0 [⟨0, 1, false, false⟩]).1, _⟩) ⟨.semop (r := plainReturn 0) rfl rfl, rfl⟩
  refine ⟨_, _, h, rfl, rfl, ((semval_exact_iff (fun j => ?_) h).mpr ?_).2⟩
  · show (0 : Nat) ≤ semvmx
    decide
  · simp only [nil_append, forall_mem_singleton]
    intro j
    show values oneSet j + opSum (oneSet.sema 0) j [⟨0, 1, false, false⟩] ≤ semvmx
    have hval : values oneSet j = 0 := rfl
    have hsum : opSum (oneSet.sema 0) j [⟨0, 1, false, false⟩] ≤ 1 := by
      unfold opSum opSum
      split <;> decide
    simp only [semvmx]
    omega

/-- The one set, with its semaphore at the maximum. -/
def fullSet : SemState := { oneSet with sem := fun _ => ⟨32767, 0, 0, 0⟩ }

/-- **Nothing stops an increment**: from SEMVMX one more makes 32768, and from there two increments that are
as large as can be end at 32766, where exact arithmetic has 98302. -/
theorem semop_above_semvmx :
    (∀ j, (fullSet.sem j).semval.toNat ≤ semvmx) ∧
      (∃ s', semop fullSet 1 0 [⟨0, 1, false, false⟩] = (s', .ret (plainReturn 0)) ∧
        (s'.sem 0).semval.toNat = 32768) ∧
      ∃ s', semop fullSet 1 0 [⟨0, 1, false, false⟩, ⟨0, 0x7fff, false, false⟩, ⟨0, 0x7fff, false, false⟩] =
          (s', .ret (plainReturn 0)) ∧
        (s'.sem 0).semval.toNat = 32766 ∧
        values fullSet 0 + opSum (fullSet.sema 0) 0
          [⟨0, 1, false, false⟩, ⟨0, 0x7fff, false, false⟩, ⟨0, 0x7fff, false, false⟩] = 98302 := by
  refine ⟨fun j => ?_, ⟨_, rfl, by decide⟩, _, rfl, by decide, by decide⟩
  show (32767 : Nat) ≤ semvmx
  decide

end Ixemul.Ipc
