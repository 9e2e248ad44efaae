/-
# Ixemul.Ipc.SemKept — no call leaves undo entries behind that cannot be taken back.

`UndoKept` is what the rollback of `semop` rests on.  No call gives a process anything else: an
adjustment of one entry keeps it (`semundoAdjust_kept`), hence the loops over the undo requests of a
vector do, granted or taken back; `semundo_clear` only removes entries (`clearEnts_subperm`).  So it holds
for every process after any sequence of semaphore calls.
-/
import Ixemul.Ipc.SemUndo

namespace Ixemul.Ipc

open List

variable {undos undos' : List SemUndo} {p : Task} {v : BitVec 16} {applied : List SemBuf} {f : Adjust}
  {s : SemState}

/-- Every process's entries are as `semundo_adjust` keeps them. -/
def UndosKept (undos : List SemUndo) : Prop := ∀ q, UndoKept undos q

/-! ## Adjusting -/

theorem Keeps.kept (h : Keeps undos p f) : UndoKept undos p := by
  obtain ⟨hs, hlen⟩ := h.sparse
  refine ⟨?_, hlen, hs.nodup, hs.nonzero⟩
  rcases h with ⟨hnil, -⟩ | ⟨ents, hone, -⟩
  · rw [hnil]
    exact Nat.zero_le _
  · rw [hone]
    exact le_rfl

theorem SameOthers.kept {q : Task} (h : SameOthers undos undos' p) (hq : q ≠ p) (hk : UndoKept undos q) :
    UndoKept undos' q := by
  obtain ⟨hents, hlen⟩ := h q hq
  refine ⟨le_trans hlen hk.single, ?_, ?_, ?_⟩
  · rw [hents]
    exact hk.room
  · rw [hents]
    exact hk.keys
  · rw [hents]
    exact hk.nonzero

theorem semundoAdjust_kept {semid semnum : Nat} (h : UndosKept undos) (hv : v ≠ 0)
    (hrun : semundoAdjust undos p semid semnum v = .ok undos') : UndosKept undos' := by
  rcases semundoAdjust_spec (k := (semid, semnum)) (keeps_undoOf (h p)) hv with
    ⟨undos1, hrun1, hk, -, ho⟩ | ⟨-, e, hrun1⟩
  · cases hrun1.symm.trans hrun
    intro q
    by_cases hq : q = p
    · subst hq
      exact hk.kept
    · exact ho.kept hq (h q)
  · cases hrun1.symm.trans hrun

/-! The loops over the undo requests adjust entry after entry: what every adjustment for one of the
operations `ops` keeps, they keep. -/

section Invariant

variable {I : List SemUndo → Prop} {ix : Nat} {ops : List SemBuf}

theorem undoBack_invariant
    (hadj : ∀ sop ∈ ops, ∀ v undos undos', v ≠ 0 → I undos →
      semundoAdjust undos p ix sop.num v = .ok undos' → I undos')
    (hops : ∀ sop ∈ applied, sop ∈ ops ∧ sop.op ≠ 0) (h : I undos)
    (hrun : undoBack p ix applied undos = some undos') : I undos' := by
  induction applied generalizing undos with
  | nil =>
    cases hrun
    exact h
  | cons sop applied ih =>
    rw [undoBack] at hrun
    cases hstep : semundoAdjust undos p ix sop.num sop.op with
    | error =>
      rw [hstep] at hrun
      cases hrun
    | ok =>
      rw [hstep] at hrun
      obtain ⟨hmem, hop⟩ := hops sop (mem_cons_self ..)
      exact ih (fun x hx => hops x (mem_cons_of_mem _ hx)) (hadj sop hmem _ _ _ hop h hstep) hrun

/-- What the structures a vector leaves behind are like, whether its requests were granted or not. -/
def UndoEnd.Leaves (I : List SemUndo → Prop) : UndoEnd → Prop
  | .ok undos => I undos
  | .fail _ undos => I undos
  | .panic => True

theorem undoWalk_invariant (ops : List SemBuf)
    (hadj : ∀ sop ∈ ops, ∀ v undos undos', v ≠ 0 → I undos →
      semundoAdjust undos p ix sop.num v = .ok undos' → I undos')
    {sops : List SemBuf} (hsops : ∀ sop ∈ sops, sop ∈ ops)
    (happlied : ∀ sop ∈ applied, sop ∈ ops ∧ sop.op ≠ 0) (h : I undos) :
    (undoWalk p ix sops applied undos).Leaves I := by
  induction sops generalizing applied undos with
  | nil => exact h
  | cons sop sops ih =>
    have hrest : ∀ x ∈ sops, x ∈ ops := fun x hx => hsops x (mem_cons_of_mem _ hx)
    have hmem : sop ∈ ops := hsops sop (mem_cons_self ..)
    rw [undoWalk]
    cases hund : sop.undone with
    | false => exact ih hrest happlied h
    | true =>
      have hsop := op_ne_zero_of_undone hund
      have hneg : -sop.op ≠ 0 := fun h0 => hsop (BitVec.neg_eq_zero_iff.mp h0)
      cases hstep : semundoAdjust undos p ix sop.num (-sop.op) with
      | ok =>
        refine ih hrest (fun x hx => ?_) (hadj sop hmem _ _ _ hneg h hstep)
        rcases mem_cons.mp hx with rfl | hx
        · exact ⟨hmem, hsop⟩
        · exact happlied x hx
      | error =>
        cases hback : undoBack p ix applied undos with
        | none => exact trivial
        | some => exact undoBack_invariant hadj happlied h hback

end Invariant

/-! ## Clearing -/

theorem clearEnts_subperm (semid : Nat) (semnum : Option Nat) (fuel i : Nat) (ents : List Undo) :
    (clearEnts semid semnum fuel i ents).Subperm ents := by
  have hremove : ∀ {i : Nat} {ents : List Undo} {e : Undo}, ents[i]? = some e →
      (removeEnt ents i).Subperm ents := by
    intro i ents e he
    have hi := (List.getElem?_eq_some_iff.mp he).1
    have hperm := removeEnt_perm hi
    rw [← eraseIdx_eq_take_drop_succ] at hperm
    exact hperm.subperm.trans (eraseIdx_sublist ents i).subperm
  induction fuel generalizing i ents with
  | zero => exact List.Subperm.refl _
  | succ fuel ih =>
    rw [clearEnts]
    cases he : ents[i]? with
    | none => exact List.Subperm.refl _
    | some e =>
      dsimp only
      have hmid : (if semnum = none ∨ semnum = some e.num then removeEnt ents i else ents).Subperm ents := by
        split
        · exact hremove he
        · exact List.Subperm.refl _
      split
      · split
        · exact hmid
        · exact (ih i _).trans hmid
      · exact ih (i + 1) ents

/-- **`semundo_clear` keeps every process's entries in order.** -/
theorem semundoClear_kept (semid : Nat) (semnum : Option Nat) (h : UndosKept undos) :
    UndosKept (semundoClear undos semid semnum) := by
  intro q
  have hk := h q
  have hstructs : structsOf (semundoClear undos semid semnum) q = (structsOf undos q).map
      (fun su => ⟨su.proc, clearEnts semid semnum su.ents.length 0 su.ents⟩) := filter_map
  have hsub : (entriesOf (semundoClear undos semid semnum) q).Subperm (entriesOf undos q) := by
    rw [entriesOf, entriesOf, hstructs]
    rcases hk.structs with hs | ⟨ents, hs⟩
    · rw [hs]
      exact List.Subperm.refl _
    · rw [hs]
      simpa using clearEnts_subperm semid semnum ents.length 0 ents
  obtain ⟨ents, hperm, hsubl⟩ := hsub
  refine ⟨?_, ?_, ?_, fun e he => ?_⟩
  · rw [hstructs, length_map]
    exact hk.single
  · rw [← hperm.length_eq]
    exact le_trans hsubl.length_le hk.room
  · exact (hperm.map Undo.key).nodup_iff.mp (hk.keys.sublist (hsubl.map Undo.key))
  · exact hk.nonzero e (hsubl.subset (hperm.mem_iff.mpr he))

/-! ## The calls -/

theorem semopRound_kept (p : Task) (ix : Fin semmni) (sops : List SemBuf) (doUndos : Bool)
    (h : UndosKept s.undos) : UndosKept (semopRound s p ix sops doUndos).1.undos := by
  unfold semopRound
  dsimp only
  split
  · rename_i w _
    unfold semopDone
    have hwalk : (if w.doUndos then undoWalk p ix sops [] s.undos else .ok s.undos).Leaves UndosKept := by
      split
      · exact undoWalk_invariant sops (fun _ _ _ _ _ hv hk hrun => semundoAdjust_kept hk hv hrun)
          (fun _ hx => hx) (fun _ hx => absurd hx not_mem_nil) h
      · exact h
    generalize (if w.doUndos then undoWalk p ix sops [] s.undos else .ok s.undos) = e at hwalk
    cases e with
    | ok | fail => exact hwalk
    | panic => exact h
  · exact h
  · split <;> exact h

/-- **Every semaphore call keeps the undo entries of every process in order.** -/
theorem semop_kept (p : Task) (id : Id) (sops : List SemBuf) (h : UndosKept s.undos) :
    UndosKept (semop s p id sops).1.undos := by
  fun_cases semop s p id sops with
  | case4 => exact semopRound_kept p _ sops false h
  | _ => exact h

theorem semopResume_kept (w : SemWaiting) (i : Bool) (h : UndosKept s.undos) :
    UndosKept (semopResume s w i).1.undos := by
  fun_cases semopResume s w i with
  | case3 => exact semopRound_kept w.proc w.ix w.sops w.doUndos h
  | _ => exact h

theorem semctl_kept (cred : Ucred) (id : Id) (semnum : Int) (cmd : SemCmd) (h : UndosKept s.undos) :
    UndosKept (semctl s cred id semnum cmd).1.undos := by
  unfold semctl
  split
  · exact h
  · exact h
  · rename_i ix _
    cases cmd with
    | ipcRmid | setall => exact semundoClear_kept ix none h
    | setval =>
      dsimp only
      split
      · exact h
      · exact semundoClear_kept ix _ h
    | getncnt | getpid | getval | getzcnt => rwa [semField_fst]
    | _ => exact h

end Ixemul.Ipc
