/-
# Ixemul.Ipc.SemAtomic — what a vector of semaphore operations does to the tables.

`semop` performs the operations of its vector one by one, in place, and takes them back where the vector
cannot be completed.  Seen from one semaphore, a list of performed operations is ONE addition
(`perform_apply`) and a rollback is one subtraction (`rollback_apply`), so the exits that roll back restore
every value.  What remains are the exits that do not: the walk that meets a semaphore number outside the
set, and a completed vector that carries a value past 65535.
-/
import Ixemul.Ipc.SemUndo

namespace Ixemul.Ipc

open BitVec

variable {ds : SemidDs} {sem : Nat → Sem} {sop : SemBuf} {sops pre : List SemBuf} {w : Walk}
  {j : Nat}

/-! ## Performed operations, semaphore by semaphore -/

/-- The sum of the operations addressed to the pool's semaphore `j`. -/
def opSum (ds : SemidDs) (j : Nat) : List SemBuf → Int
  | [] => 0
  | sop :: sops => (if ds.base + sop.num = j then sop.op.toInt else 0) + opSum ds j sops

/-- The pool with every operation of the list added in. -/
def perform (ds : SemidDs) (sem : Nat → Sem) : List SemBuf → Nat → Sem
  | [] => sem
  | sop :: sops => perform ds (addVal sem (ds.base + sop.num) sop.op) sops

/-- One semaphore with `v` added to its value. -/
def Sem.plus (sm : Sem) (v : Int) : Sem := { sm with semval := sm.semval + BitVec.ofInt 16 v }

@[simp] theorem Sem.plus_zero (sm : Sem) : sm.plus 0 = sm := by
  simp [Sem.plus]

theorem Sem.plus_plus (sm : Sem) (v u : Int) : (sm.plus v).plus u = sm.plus (v + u) := by
  simp only [Sem.plus, ofInt_add, add_assoc]

theorem addVal_ofInt (sem : Nat → Sem) (i j : Nat) (v : Int) :
    addVal sem i (BitVec.ofInt 16 v) j = (sem j).plus (if i = j then v else 0) := by
  by_cases h : i = j
  · subst h
    simp [addVal, Sem.plus]
  · have h' : j ≠ i := fun e => h e.symm
    simp [addVal, h, h']

theorem addVal_apply (sem : Nat → Sem) (i j : Nat) (v : BitVec 16) :
    addVal sem i v j = (sem j).plus (if i = j then v.toInt else 0) := by
  rw [← addVal_ofInt, ofInt_toInt]

/-- **A list of performed operations is one addition to each semaphore.** -/
theorem perform_apply (sem : Nat → Sem) (sops : List SemBuf) (j : Nat) :
    perform ds sem sops j = (sem j).plus (opSum ds j sops) := by
  induction sops generalizing sem with
  | nil => simp [perform, opSum]
  | cons sop sops ih =>
    show perform ds (addVal sem (ds.base + sop.num) sop.op) sops j = _
    rw [ih, addVal_apply, Sem.plus_plus]
    rfl

/-- **A rollback is one subtraction from each semaphore.** -/
theorem rollback_apply (sem : Nat → Sem) (sops : List SemBuf) (j : Nat) :
    rollback ds sem sops j = (sem j).plus (-opSum ds j sops) := by
  induction sops generalizing sem with
  | nil => simp [rollback, opSum]
  | cons sop sops ih =>
    have hneg : -sop.op = BitVec.ofInt 16 (-sop.op.toInt) := by rw [ofInt_neg, ofInt_toInt]
    rw [rollback, ih, hneg, addVal_ofInt, Sem.plus_plus, opSum]
    congr 1
    split_ifs <;> omega

theorem rollback_perform (sem : Nat → Sem) (sops : List SemBuf) :
    rollback ds (perform ds sem sops) sops = sem := by
  funext j
  rw [rollback_apply, perform_apply, Sem.plus_plus, Int.add_right_neg, Sem.plus_zero]

theorem setSempid_apply (ds : SemidDs) (p : Task) (sem : Nat → Sem) (sops : List SemBuf) (j : Nat) :
    ∃ q, setSempid ds p sem sops j = { sem j with sempid := q } := by
  induction sops generalizing sem with
  | nil => exact ⟨_, rfl⟩
  | cons sop sops ih =>
    obtain ⟨q, hq⟩ := ih _
    refine ⟨q, hq.trans ?_⟩
    by_cases h : j = ds.base + sop.num
    · subst h
      simp
    · simp [h]

theorem setSempid_semval (p : Task) (sem : Nat → Sem) (sops : List SemBuf) (j : Nat) :
    (setSempid ds p sem sops j).semval = (sem j).semval := by
  obtain ⟨q, hq⟩ := setSempid_apply ds p sem sops j
  rw [hq]

/-! ## The walk through the vector -/

/-- The operation can go through now: the value does not become negative, and is zero when the
operation waits for zero. -/
def Satisfiable (ds : SemidDs) (sem : Nat → Sem) (sop : SemBuf) : Prop :=
  0 ≤ ((sem (ds.base + sop.num)).semval.toNat : Int) + sop.op.toInt ∧
    (sop.op = 0 → (sem (ds.base + sop.num)).semval = 0)

/-- The operations can go through one after the other, all on semaphores of the set. -/
def Performable (ds : SemidDs) : (Nat → Sem) → List SemBuf → Prop
  | _, [] => True
  | sem, sop :: sops =>
    sop.num < ds.nsems ∧ Satisfiable ds sem sop ∧
      Performable ds (addVal sem (ds.base + sop.num) sop.op) sops

theorem walk_range (h : ds.nsems ≤ sop.num) : walk ds (sop :: sops) w = (w, .range) := by
  simp [walk, h]

theorem op_ne_zero (hneg : sop.op.toInt < 0) : sop.op ≠ 0 := by
  rintro h0
  simp [h0] at hneg

theorem undone_of_ne (h : sop.op ≠ 0) : sop.undone = sop.undo := by
  have hb : (sop.op != 0) := bne_iff_ne.mpr h
  rw [SemBuf.undone, hb, Bool.and_true]

theorem walk_block (hn : sop.num < ds.nsems) (h : ¬ Satisfiable ds w.sem sop) :
    walk ds (sop :: sops) w = (w, .block sop) := by
  simp only [walk]
  rw [if_neg (not_le.mpr hn)]
  by_cases hneg : sop.op.toInt < 0
  · have hlt : ((w.sem (ds.base + sop.num)).semval.toNat : Int) + sop.op.toInt < 0 := by
      by_contra hge
      exact h ⟨by omega, fun h0 => absurd h0 (op_ne_zero hneg)⟩
    rw [if_pos hneg, if_pos hlt]
  · have hop : sop.op = 0 ∧ (w.sem (ds.base + sop.num)).semval ≠ 0 := by
      by_contra hc
      exact h ⟨by omega, fun h0 => by_contra fun hv => hc ⟨h0, hv⟩⟩
    rw [if_neg hneg, if_pos hop.1, if_pos hop.2]

theorem walk_next (sops : List SemBuf) (hn : sop.num < ds.nsems) (h : Satisfiable ds w.sem sop) :
    ∃ wake, walk ds (sop :: sops) w = walk ds sops
      ⟨addVal w.sem (ds.base + sop.num) sop.op, w.performed ++ [sop], wake,
        w.doUndos || sop.undone⟩ := by
  obtain ⟨hpos, hzero⟩ := h
  simp only [walk]
  rw [if_neg (not_le.mpr hn)]
  by_cases hneg : sop.op.toInt < 0
  · rw [if_pos hneg, if_neg (Int.not_lt.mpr hpos), undone_of_ne (op_ne_zero hneg)]
    exact ⟨_, rfl⟩
  · rw [if_neg hneg]
    by_cases h0 : sop.op = 0
    · -- an operation of zero changes nothing, so the walk leaves the pool alone
      have hsame : addVal w.sem (ds.base + sop.num) sop.op = w.sem := by
        funext i
        rw [h0, addVal_apply]
        simp
      have hund : sop.undone = false := by simp [SemBuf.undone, h0]
      rw [if_pos h0, if_neg (not_not_intro (hzero h0)), hsame, hund, Bool.or_false]
      exact ⟨_, rfl⟩
    · rw [if_neg h0, undone_of_ne h0]
      exact ⟨_, rfl⟩

theorem walk_append (sops : List SemBuf) (hp : Performable ds w.sem pre) :
    ∃ wake, walk ds (pre ++ sops) w = walk ds sops
      ⟨perform ds w.sem pre, w.performed ++ pre, wake, w.doUndos || pre.any SemBuf.undone⟩ := by
  induction pre generalizing w with
  | nil => exact ⟨w.doWakeup, by simp [perform]⟩
  | cons sop pre ih =>
    obtain ⟨hn, hs, hp⟩ := hp
    obtain ⟨wake, hw⟩ := walk_next (pre ++ sops) hn hs
    rw [List.cons_append, hw]
    obtain ⟨wake', hw'⟩ := ih (w := ⟨addVal w.sem (ds.base + sop.num) sop.op,
      w.performed ++ [sop], wake, w.doUndos || sop.undone⟩) hp
    refine ⟨wake', hw'.trans ?_⟩
    simp [perform, Bool.or_assoc]

/-- The three ways a vector can go: through to its end, up to an operation on a semaphore that is not
in the set, or up to one that cannot be satisfied. -/
theorem vector_cases (ds : SemidDs) (sem : Nat → Sem) (sops : List SemBuf) :
    Performable ds sem sops ∨
      ∃ pre sop post, sops = pre ++ sop :: post ∧ Performable ds sem pre ∧
        (ds.nsems ≤ sop.num ∨ sop.num < ds.nsems ∧ ¬ Satisfiable ds (perform ds sem pre) sop) := by
  induction sops generalizing sem with
  | nil => exact .inl trivial
  | cons sop sops ih =>
    by_cases hn : sop.num < ds.nsems
    · by_cases hs : Satisfiable ds sem sop
      · rcases ih (addVal sem (ds.base + sop.num) sop.op) with hp | ⟨pre, x, post, rfl, hp, hx⟩
        · exact .inl ⟨hn, hs, hp⟩
        · exact .inr ⟨sop :: pre, x, post, rfl, ⟨hn, hs, hp⟩, hx⟩
      · exact .inr ⟨[], sop, sops, rfl, trivial, .inr ⟨hn, hs⟩⟩
    · exact .inr ⟨[], sop, sops, rfl, trivial, .inl (not_lt.mp hn)⟩

/-! ## Values -/

theorem semval_addVal_le (h : Satisfiable ds sem sop) :
    ((addVal sem (ds.base + sop.num) sop.op j).semval.toNat : Int) ≤
      (sem j).semval.toNat + (if ds.base + sop.num = j then sop.op.toInt else 0) := by
  by_cases hj : ds.base + sop.num = j
  · subst hj
    have hpos := h.1
    simp only [addVal, Function.update_self, if_true, toNat_add]
    rw [toInt_eq_toNat_cond] at hpos ⊢
    split at hpos <;> omega
  · have hj' : j ≠ ds.base + sop.num := fun e => hj e.symm
    simp [addVal, hj, hj']

theorem semval_perform_le (h : Performable ds sem sops) :
    ((perform ds sem sops j).semval.toNat : Int) ≤ (sem j).semval.toNat + opSum ds j sops := by
  induction sops generalizing sem with
  | nil => simp [perform, opSum]
  | cons sop sops ih =>
    have h1 := semval_addVal_le (j := j) h.2.1
    have h2 := ih h.2.2
    show ((perform ds (addVal sem (ds.base + sop.num) sop.op) sops j).semval.toNat : Int) ≤ _
    unfold opSum
    omega

theorem Sem.toNat_plus (sm : Sem) (v : Int) :
    ((sm.plus v).semval.toNat : Int) = ((sm.semval.toNat : Int) + v) % 65536 := by
  simp only [Sem.plus, toNat_add, toNat_ofInt]
  omega

theorem semval_perform_eq_iff (h : Performable ds sem sops) :
    ((perform ds sem sops j).semval.toNat : Int) = (sem j).semval.toNat + opSum ds j sops ↔
      ((sem j).semval.toNat : Int) + opSum ds j sops ≤ 65535 := by
  have hle := semval_perform_le (j := j) h
  have hmod := Sem.toNat_plus (sem j) (opSum ds j sops)
  rw [← perform_apply] at hmod
  omega

/-! ## The exits of a call -/

variable {s : SemState} {p : Task} {ix : Fin semmni} {id : Id} {post : List SemBuf} {t : SemState}

theorem semopRound_done (doUndos : Bool) (hp : Performable (s.sema ix) s.sem sops) :
    semopRound s p ix sops doUndos =
      match undoWalk p ix sops [] s.undos with
      | .ok undos =>
        ({ s with sem := setSempid (s.sema ix) p (perform (s.sema ix) s.sem sops) sops, undos },
          .ret (plainReturn 0))
      | .fail e undos => ({ s with undos }, .ret (semFail e))
      | .panic => ({ s with sem := perform (s.sema ix) s.sem sops }, .panic) := by
  obtain ⟨wake, hw⟩ := walk_append (w := ⟨s.sem, [], false, doUndos⟩) [] hp
  rw [List.append_nil] at hw
  -- the flag `do_undos` only saves a loop that would do nothing
  have hflag : (if (doUndos || sops.any SemBuf.undone) then undoWalk p ix sops [] s.undos
      else .ok s.undos) = undoWalk p ix sops [] s.undos := by
    by_cases h : sops.any SemBuf.undone
    · simp [h]
    · simp [h, undoWalk_of_not_any]
  cases hu : undoWalk p ix sops [] s.undos <;> rw [hu] at hflag <;>
    simp only [semopRound, hw, walk, semopDone, hu, hflag, rollback_perform]

theorem semopRound_range {bad : SemBuf} (doUndos : Bool)
    (hp : Performable (s.sema ix) s.sem pre) (hbad : (s.sema ix).nsems ≤ bad.num) :
    semopRound s p ix (pre ++ bad :: post) doUndos =
      ({ s with sem := perform (s.sema ix) s.sem pre }, .ret (semFail .efbig)) := by
  obtain ⟨wake, hw⟩ := walk_append (w := ⟨s.sem, [], false, doUndos⟩) (bad :: post) hp
  rw [walk_range hbad] at hw
  simp only [semopRound, hw]

theorem semopRound_block (doUndos : Bool) (hp : Performable (s.sema ix) s.sem pre)
    (hn : sop.num < (s.sema ix).nsems)
    (hb : ¬ Satisfiable (s.sema ix) (perform (s.sema ix) s.sem pre) sop) :
    semopRound s p ix (pre ++ sop :: post) doUndos =
      if sop.nowait then (s, .ret (semFail .eagain))
      else
        ({ s with sem := countWaiter s.sem ((s.sema ix).base + sop.num) sop 1 },
          .sleep ⟨p, ix, pre ++ sop :: post, sop, (s.sema ix).base + sop.num,
            doUndos || pre.any SemBuf.undone⟩) := by
  obtain ⟨wake, hw⟩ := walk_append (w := ⟨s.sem, [], false, doUndos⟩) (sop :: post) hp
  rw [walk_block hn hb] at hw
  simp only [semopRound, hw, List.nil_append, rollback_perform]

theorem semopRound_sleeps {s' : SemState} {doUndos : Bool} {w : SemWaiting}
    (h : semopRound s p ix sops doUndos = (s', .sleep w)) :
    s' = { s with sem := countWaiter s.sem w.semptr w.sop 1 } ∧ w.ix = ix ∧
      w.sop.num < (s.sema ix).nsems ∧ w.semptr = (s.sema ix).base + w.sop.num := by
  rcases vector_cases (s.sema ix) s.sem sops with hp | ⟨pre, sop, post, rfl, hp, hbad | ⟨hn, hb⟩⟩
  · rw [semopRound_done doUndos hp] at h
    split at h <;> cases h
  · rw [semopRound_range doUndos hp hbad] at h
    cases h
  · rw [semopRound_block doUndos hp hn hb] at h
    split at h <;> cases h
    exact ⟨rfl, rfl, hn, rfl⟩

/-- Tables with one set, of one semaphore, that has never been given a sequence number. -/
def oneSet : SemState :=
  { seminit with
    sema := Function.update seminit.sema 0 ⟨{ IpcPerm.zero with flag := true }, 0, 1⟩
    semtot := 1 }

end Ixemul.Ipc
