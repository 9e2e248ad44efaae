/-
# Ixemul.Ipc.SemExit — undo when a process exits: `semexit` (sysv_sem.c).

Each entry of the exiting process's undo structure is added to its semaphore, which does not go below zero,
and the structure is unlinked.  The source trusts the entries: it calls `panic` where the set is not
allocated or has no such semaphore, and a set number beyond the table is not looked at
(`ExitAbort.outOfRange`).  While another process holds the facility lock, one with a structure sleeps;
`semexitResume` is what follows then.
-/
import Ixemul.Ipc.Sem

namespace Ixemul.Ipc

/-- The calls of `panic` in `semexit`, and an access to `sema` beyond its end. -/
inductive ExitAbort where
  | vectorDisappeared
  | semidNotAllocated
  | semnumOutOfRange
  | outOfRange
  deriving DecidableEq, Repr

/-- `semval` with an undo adjustment, clamped at 0. -/
def undoVal (semval adjval : BitVec 16) : BitVec 16 :=
  if adjval.toInt < 0 ∧ (semval.toNat : Int) < -adjval.toInt then 0 else semval + adjval

/-- One semaphore of the pool with an undo adjustment. -/
def undoAt (sem : Nat → Sem) (j : Nat) (adjval : BitVec 16) : Nat → Sem :=
  Function.update sem j { sem j with semval := undoVal (sem j).semval adjval }

/-- The body of the loop: one entry is applied. -/
def applyUndo (s : SemState) (e : Undo) : Except ExitAbort SemState :=
  if h : e.id < semmni then
    let ds := s.sema ⟨e.id, h⟩
    if ds.alloc = false then .error .semidNotAllocated
    else if e.num ≥ ds.nsems then .error .semnumOutOfRange
    else .ok { s with sem := undoAt s.sem (ds.base + e.num) e.adjval }
  else .error .outOfRange

/-- The loop over the entries of a structure. -/
def applyUndos (s : SemState) : List Undo → Except ExitAbort SemState
  | [] => .ok s
  | e :: ents => do
    let s ← applyUndo s e
    applyUndos s ents

/-- The part of `semexit` behind the lock: the first structure of `p` is applied and unlinked. -/
def exitUnlocked (s : SemState) (p : Task) : Except ExitAbort SemState :=
  match s.undos.find? (fun su => su.proc == p) with
  | none => .ok s
  | some su => do
    let s ← applyUndos s su.ents
    .ok { s with undos := s.undos.eraseP (fun su => su.proc == p) }

/-- How `semexit` ends, or stops for now. -/
inductive ExitOutcome where
  | done
  | sleep
  deriving DecidableEq, Repr

/-- `semexit`, up to its return or its sleep; `holder` is `semlock_holder`. -/
def semexit (s : SemState) (holder : Option Task) (p : Task) : Except ExitAbort (SemState × ExitOutcome) :=
  if holder ≠ none ∧ holder ≠ some p then
    match s.undos.find? (fun su => su.proc == p) with
    | none => .ok (s, .done)
    | some _ => .ok (s, .sleep)
  else do
    let s ← exitUnlocked s p
    .ok (s, .done)

/-- `semexit` after a sleep, when nobody holds the lock any more. -/
def semexitResume (s : SemState) (p : Task) : Except ExitAbort (SemState × ExitOutcome) :=
  match s.undos.find? (fun su => su.proc == p) with
  | none => .error .vectorDisappeared
  | some _ => do
    let s ← exitUnlocked s p
    .ok (s, .done)

/-! ## What an entry does -/

theorem counts_undoAt (sem : Nat → Sem) (i : Nat) (v : BitVec 16) (j : Nat) :
    (undoAt sem i v j).semncnt = (sem j).semncnt ∧ (undoAt sem i v j).semzcnt = (sem j).semzcnt := by
  by_cases hj : j = i
  · subst hj
    simp [undoAt]
  · simp [undoAt, hj]

variable {s s' : SemState} {e : Undo}

theorem applyUndo_ok (h : applyUndo s e = .ok s') :
    ∃ hid : e.id < semmni, (s.sema ⟨e.id, hid⟩).alloc ∧ e.num < (s.sema ⟨e.id, hid⟩).nsems ∧
      s' = { s with sem := undoAt s.sem ((s.sema ⟨e.id, hid⟩).base + e.num) e.adjval } := by
  revert h
  fun_cases applyUndo s e with
  | case3 hid ds halloc hnum =>
    rintro ⟨⟩
    exact ⟨hid, by simpa using halloc, not_le.mp hnum, rfl⟩
  | _ => exact nofun

/-- Two states with the same sets, and the same counts of waiters in all semaphores. -/
structure SameCounts (s s' : SemState) : Prop where
  sema : s'.sema = s.sema
  semtot : s'.semtot = s.semtot
  semncnt : ∀ j, (s'.sem j).semncnt = (s.sem j).semncnt
  semzcnt : ∀ j, (s'.sem j).semzcnt = (s.sem j).semzcnt

theorem SameCounts.refl (s : SemState) : SameCounts s s := ⟨rfl, rfl, fun _ => rfl, fun _ => rfl⟩

theorem SameCounts.trans {s'' : SemState} (h : SameCounts s s') (h' : SameCounts s' s'') :
    SameCounts s s'' where
  sema := h'.sema.trans h.sema
  semtot := h'.semtot.trans h.semtot
  semncnt j := (h'.semncnt j).trans (h.semncnt j)
  semzcnt j := (h'.semzcnt j).trans (h.semzcnt j)

theorem applyUndo_sameCounts (h : applyUndo s e = .ok s') : SameCounts s s' := by
  obtain ⟨hid, -, -, rfl⟩ := applyUndo_ok h
  exact ⟨rfl, rfl, fun j => (counts_undoAt s.sem _ _ j).1, fun j => (counts_undoAt s.sem _ _ j).2⟩

theorem applyUndo_undos (h : applyUndo s e = .ok s') : s'.undos = s.undos := by
  obtain ⟨hid, -, -, rfl⟩ := applyUndo_ok h
  rfl

/-! ## What a whole vector does -/

variable {ents : List Undo}

theorem applyUndos_cons (h : applyUndos s (e :: ents) = .ok s') :
    ∃ s₁, applyUndo s e = .ok s₁ ∧ applyUndos s₁ ents = .ok s' := by
  rw [applyUndos] at h
  cases happ : applyUndo s e with
  | error =>
    rw [happ] at h
    cases h
  | ok s₁ =>
    rw [happ] at h
    exact ⟨s₁, rfl, h⟩

theorem applyUndos_sameCounts (h : applyUndos s ents = .ok s') : SameCounts s s' := by
  induction ents generalizing s with
  | nil =>
    cases h
    exact .refl _
  | cons e ents ih =>
    obtain ⟨s₁, happ, hrest⟩ := applyUndos_cons h
    exact (applyUndo_sameCounts happ).trans (ih hrest)

theorem applyUndos_undos (h : applyUndos s ents = .ok s') : s'.undos = s.undos := by
  induction ents generalizing s with
  | nil =>
    cases h
    rfl
  | cons e ents ih =>
    obtain ⟨s₁, happ, hrest⟩ := applyUndos_cons h
    exact (ih hrest).trans (applyUndo_undos happ)

variable {p : Task}

theorem exitUnlocked_ok (h : exitUnlocked s p = .ok s') :
    (s.undos.find? (fun su => su.proc == p) = none ∧ s' = s) ∨
      ∃ su s₁, s.undos.find? (fun su => su.proc == p) = some su ∧ applyUndos s su.ents = .ok s₁ ∧
        s' = { s₁ with undos := s.undos.eraseP (fun su => su.proc == p) } := by
  unfold exitUnlocked at h
  cases hfind : s.undos.find? (fun su => su.proc == p) with
  | none =>
    rw [hfind] at h
    cases h
    exact .inl ⟨rfl, rfl⟩
  | some su =>
    rw [hfind] at h
    dsimp only at h
    cases happ : applyUndos s su.ents with
    | error =>
      rw [happ] at h
      cases h
    | ok s₁ =>
      rw [happ] at h
      cases h
      exact .inr ⟨su, s₁, rfl, happ, by rw [applyUndos_undos happ]⟩

theorem exitUnlocked_sameCounts (h : exitUnlocked s p = .ok s') : SameCounts s s' := by
  rcases exitUnlocked_ok h with ⟨-, rfl⟩ | ⟨su, s₁, -, happ, rfl⟩
  · exact .refl s'
  · have hsame := applyUndos_sameCounts happ
    exact ⟨hsame.sema, hsame.semtot, hsame.semncnt, hsame.semzcnt⟩

end Ixemul.Ipc
