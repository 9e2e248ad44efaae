/-
# Ixemul.Ipc.SemNamed — every undo entry names a semaphore (sysv_sem.c).

`semexit` calls `panic` for an entry of a set that is not allocated, or of a semaphore that the set does
not have.  Neither comes about: `semop` makes entries for the operations of a vector that it has gone
through, whose semaphores the set has; removing a set clears its entries, so that none is left when the
slot is used again for a smaller one; and no other call changes the size of a set.
-/
import Ixemul.Ipc.SemKept
import Ixemul.Ipc.SemClear
import Ixemul.Ipc.SemPacked
import Ixemul.Ipc.SemAtomic
import Ixemul.Ipc.SemExit

namespace Ixemul.Ipc

open List

variable {P : UndoKey → Prop} {undos undos' : List SemUndo} {ents ents' : List Undo} {p : Task}
  {s s' : SemState} {v : BitVec 16} {sops : List SemBuf} {ds : SemidDs}

/-! ## Keys of entries -/

/-- Every entry is for a semaphore that satisfies `P`. -/
def Keyed (P : UndoKey → Prop) (undos : List SemUndo) : Prop := ∀ su ∈ undos, ∀ e ∈ su.ents, P e.key

theorem keyed_cons {su : SemUndo} : Keyed P (su :: undos) ↔ (∀ e ∈ su.ents, P e.key) ∧ Keyed P undos :=
  forall_mem_cons

theorem Keyed.sublist (h : Keyed P undos) (hsub : undos'.Sublist undos) : Keyed P undos' :=
  fun su hsu => h su (hsub.subset hsu)

theorem Keyed.mono {Q : UndoKey → Prop} (h : Keyed P undos) (hPQ : ∀ k, P k → Q k) : Keyed Q undos :=
  fun su hsu e he => hPQ _ (h su hsu e he)

theorem mem_of_mem_removeEnt {i : Nat} {e : Undo} (h : e ∈ removeEnt ents i) : e ∈ ents := by
  unfold removeEnt at h
  cases hlast : ents.getLast? with
  | none =>
    rw [hlast] at h
    exact h
  | some =>
    rw [hlast] at h
    rcases mem_or_eq_of_mem_set (dropLast_subset _ h) with hold | rfl
    · exact hold
    · exact mem_of_getLast? hlast

theorem adjustEnts_keyed {id num : Nat} (h : ∀ e ∈ ents, P e.key) (hk : P (id, num))
    (hrun : adjustEnts ents id num v = .ok ents') : ∀ e ∈ ents', P e.key := by
  revert hrun
  fun_cases adjustEnts ents id num v with
  | case1 =>
    rintro ⟨⟩
    exact fun e he => h e (mem_of_mem_removeEnt he)
  | case2 =>
    rintro ⟨⟩ e he
    rcases mem_or_eq_of_mem_set he with hold | rfl
    · exact h e hold
    · exact hk
  | case3 =>
    rintro ⟨⟩
    exact h
  | case4 => exact nofun
  | case5 =>
    rintro ⟨⟩
    rw [forall_mem_append, forall_mem_singleton]
    exact ⟨h, hk⟩

theorem adjustFirst_keyed {g : List Undo → Except Errno (List Undo)}
    (hg : ∀ ents ents', (∀ e ∈ ents, P e.key) → g ents = .ok ents' → ∀ e ∈ ents', P e.key)
    (h : Keyed P undos) (hrun : adjustFirst p g undos = some (.ok undos')) : Keyed P undos' := by
  induction undos generalizing undos' with
  | nil => cases hrun
  | cons su undos ih =>
    obtain ⟨hsu, hrest⟩ := keyed_cons.mp h
    rw [adjustFirst] at hrun
    split at hrun
    · cases hents : g su.ents with
      | error =>
        rw [hents] at hrun
        cases hrun
      | ok =>
        rw [hents] at hrun
        cases hrun
        exact keyed_cons.mpr ⟨hg _ _ hsu hents, hrest⟩
    · cases hfirst : adjustFirst p g undos with
      | none =>
        rw [hfirst] at hrun
        cases hrun
      | some r =>
        rw [hfirst] at hrun
        cases r with
        | error => cases hrun
        | ok =>
          cases hrun
          exact keyed_cons.mpr ⟨hsu, ih hrest hfirst⟩

theorem semundoAdjust_keyed {semid semnum : Nat} (h : Keyed P undos) (hk : P (semid, semnum))
    (hrun : semundoAdjust undos p semid semnum v = .ok undos') : Keyed P undos' := by
  unfold semundoAdjust at hrun
  split at hrun
  · rename_i r hfirst
    rw [hrun] at hfirst
    exact adjustFirst_keyed (fun _ _ hents hadj => adjustEnts_keyed hents hk hadj) h hfirst
  · split at hrun
    · cases hrun
      exact h
    · -- a new structure, with one entry
      unfold semuAlloc at hrun
      have hnew : ∀ e ∈ [(⟨v, semnum, semid⟩ : Undo)], P e.key := forall_mem_singleton.mpr hk
      split_ifs at hrun
      · cases hrun
        exact keyed_cons.mpr ⟨hnew, h⟩
      · cases hrun
        exact keyed_cons.mpr ⟨hnew, h.sublist filter_sublist⟩

theorem undoWalk_keyed {ix : Nat} (hops : ∀ sop ∈ sops, P (ix, sop.num))
    (h : Keyed P undos) : (undoWalk p ix sops [] undos).Leaves (Keyed P) :=
  undoWalk_invariant sops (fun sop hsop _ _ _ _ hk hrun => semundoAdjust_keyed hk (hops sop hsop) hrun)
    (fun _ hx => hx) (fun _ hx => absurd hx not_mem_nil) h

theorem semundoClear_keyed (semid : Nat) (semnum : Option Nat) (h : Keyed P undos) :
    Keyed P (semundoClear undos semid semnum) := by
  intro su' hsu'
  obtain ⟨su, hsu, rfl⟩ := mem_map.mp hsu'
  exact fun e he => h su hsu e ((clearEnts_subperm semid semnum _ 0 su.ents).subset he)

theorem semundoClear_set (semid : Nat) (undos : List SemUndo) :
    Keyed (fun k => k.1 ≠ semid) (semundoClear undos semid none) := by
  intro su' hsu' e he
  obtain ⟨su, -, rfl⟩ := mem_map.mp hsu'
  have hperm : (clearEnts semid none su.ents.length 0 su.ents).Perm _ :=
    clearEnts_all su.ents.length 0 su.ents le_rfl (by simp)
  have hmem := (mem_filter.mp (hperm.subset he)).2
  show e.id ≠ semid
  simpa [isHit_none] using hmem

/-! ## Named semaphores -/

/-- The set is there, and has the semaphore. -/
def SemState.Names (s : SemState) (k : UndoKey) : Prop :=
  ∃ h : k.1 < semmni, (s.sema ⟨k.1, h⟩).alloc = true ∧ k.2 < (s.sema ⟨k.1, h⟩).nsems

/-- Every undo entry is for a semaphore that there is. -/
def Named (s : SemState) : Prop := Keyed s.Names s.undos

/-- A set that is there before is there after, with as many semaphores. -/
def SameSizes (s s' : SemState) : Prop :=
  ∀ ix, (s.sema ix).alloc = true → (s'.sema ix).alloc = true ∧ (s'.sema ix).nsems = (s.sema ix).nsems

theorem SameSizes.of_sema (h : s'.sema = s.sema) : SameSizes s s' := by
  intro ix hix
  rw [h]
  exact ⟨hix, rfl⟩

theorem SameSizes.names (h : SameSizes s s') (k : UndoKey) (hk : s.Names k) : s'.Names k := by
  obtain ⟨hlt, halloc, hnum⟩ := hk
  obtain ⟨halloc', hnsems⟩ := h _ halloc
  exact ⟨hlt, halloc', hnsems ▸ hnum⟩

theorem named_of_keyed (h : SameSizes s s') (hk : Keyed s.Names s'.undos) : Named s' := hk.mono h.names

/-! ## The calls -/

theorem num_lt_of_performable {sem : Nat → Sem}
    (h : Performable ds sem sops) : ∀ sop ∈ sops, sop.num < ds.nsems := by
  induction sops generalizing sem with
  | nil => exact forall_mem_nil _
  | cons sop sops ih =>
    obtain ⟨hn, -, hrest⟩ := h
    exact forall_mem_cons.mpr ⟨hn, ih hrest⟩

theorem num_lt_of_walk {w w' : Walk}
    (h : walk ds sops w = (w', .done)) : ∀ sop ∈ sops, sop.num < ds.nsems := by
  rcases vector_cases ds w.sem sops with hall | ⟨pre, sop, post, rfl, hpre, hstop⟩
  · exact num_lt_of_performable hall
  · obtain ⟨wake, hw⟩ := walk_append (sop :: post) hpre
    rw [hw] at h
    rcases hstop with hrange | ⟨hn, hblock⟩
    · rw [walk_range hrange] at h
      cases h
    · rw [walk_block hn hblock] at h
      cases h

theorem semopRound_named (p : Task) (ix : Fin semmni) (sops : List SemBuf) (doUndos : Bool)
    (hix : (s.sema ix).alloc) (h : Named s) : Named (semopRound s p ix sops doUndos).1 := by
  unfold semopRound
  dsimp only
  split
  · rename_i w hwalk
    have hnum := num_lt_of_walk hwalk
    have hleaves : (if w.doUndos then undoWalk p ix sops [] s.undos else .ok s.undos).Leaves
        (Keyed s.Names) := by
      split
      · exact undoWalk_keyed (fun sop hsop => ⟨ix.isLt, hix, hnum sop hsop⟩) h
      · exact h
    unfold semopDone
    generalize (if w.doUndos then undoWalk p ix sops [] s.undos else .ok s.undos) = e at hleaves
    cases e with
    | ok | fail => exact named_of_keyed (.of_sema rfl) hleaves
    | panic => exact named_of_keyed (.of_sema rfl) h
  · exact named_of_keyed (.of_sema rfl) h
  · split <;> exact named_of_keyed (.of_sema rfl) h

theorem semop_named (p : Task) (id : Id) (sops : List SemBuf) (h : Named s) :
    Named (semop s p id sops).1 := by
  fun_cases semop s p id sops with
  | case4 ix hcheck => exact semopRound_named p ix sops false (semCheck_accept hcheck).1 h
  | _ => exact h

theorem semopResume_named (w : SemWaiting) (interrupted : Bool) (h : Named s) :
    Named (semopResume s w interrupted).1 := by
  fun_cases semopResume s w interrupted with
  | case3 _ _ hbad =>
    rw [not_or] at hbad
    exact semopRound_named w.proc w.ix w.sops w.doUndos (by simpa using hbad.1) h
  | _ => exact h

theorem semRmid_named (cred : Ucred) (ix : Fin semmni) (h : Named s) : Named (semRmid s cred ix) := by
  intro su hsu e he
  obtain ⟨hlt, halloc, hnum⟩ := semundoClear_keyed (ix : Nat) none h su hsu e he
  have hne : (⟨e.key.1, hlt⟩ : Fin semmni) ≠ ix := by
    rintro rfl
    exact semundoClear_set _ s.undos su hsu e he rfl
  exact ⟨hlt, (alloc_semRmid hne).trans halloc, (nsems_semRmid hne).symm ▸ hnum⟩

theorem semctl_named (cred : Ucred) (id : Id) (semnum : Int) (cmd : SemCmd) (h : Named s) :
    Named (semctl s cred id semnum cmd).1 := by
  unfold semctl
  split
  · exact h
  · exact h
  · rename_i ix hcheck
    cases cmd with
    | ipcRmid => exact semRmid_named cred ix h
    | ipcSet =>
      refine named_of_keyed (fun i hi => ?_) h
      by_cases hix : i = ix
      · subst hix
        simpa [SemidDs.alloc] using hi
      · simpa [hix] using hi
    | setval =>
      dsimp only
      split
      · exact h
      · exact named_of_keyed (.of_sema rfl) (semundoClear_keyed (ix : Nat) _ h)
    | setall => exact named_of_keyed (.of_sema rfl) (semundoClear_keyed (ix : Nat) _ h)
    | getncnt | getpid | getval | getzcnt => rwa [semField_fst]
    | _ => exact h

theorem semget_named (cred : Ucred) (key nsems : Int) (flg : GetFlg) (h : Named s) :
    Named (semget s cred key nsems flg).1 := by
  rcases semget_cases s cred key nsems flg with heq | ⟨ix, hfree, -, heq⟩
  · rwa [heq]
  · rw [heq]
    -- the slot was free, so a set that was there is in another one
    refine named_of_keyed (fun i hi => ?_) h
    have hne : i ≠ ix := by
      rintro rfl
      rw [hfree] at hi
      cases hi
    rw [sema_semCreate_of_ne hne]
    exact ⟨hi, rfl⟩

/-! ## The exit of a process -/

theorem applyUndos_named (h : ∀ e ∈ ents, s.Names e.key) : ∃ s', applyUndos s ents = .ok s' := by
  induction ents generalizing s with
  | nil => exact ⟨s, rfl⟩
  | cons e ents ih =>
    obtain ⟨hnames, hrest⟩ := forall_mem_cons.mp h
    obtain ⟨hlt, halloc, hnum⟩ : ∃ hlt : e.id < semmni, (s.sema ⟨e.id, hlt⟩).alloc ∧
      e.num < (s.sema ⟨e.id, hlt⟩).nsems := hnames
    have happ : ∃ s₁, applyUndo s e = .ok s₁ := by
      unfold applyUndo
      rw [dif_pos hlt]
      rw [if_neg (by simpa using halloc), if_neg (not_le.mpr hnum)]
      exact ⟨_, rfl⟩
    obtain ⟨s₁, happ⟩ := happ
    have hsame : SameSizes s s₁ := .of_sema (applyUndo_sameCounts happ).sema
    obtain ⟨s', hrun⟩ := ih fun d hd => hsame.names _ (hrest d hd)
    refine ⟨s', ?_⟩
    rw [applyUndos, happ]
    exact hrun

theorem UndosKept.sublist (h : UndosKept undos) (hsub : undos'.Sublist undos) : UndosKept undos' := by
  intro q
  have hstructs : (structsOf undos' q).Sublist (structsOf undos q) := hsub.filter _
  have hents : (entriesOf undos' q).Sublist (entriesOf undos q) := hstructs.flatMap _
  exact ⟨hstructs.length_le.trans (h q).single, hents.length_le.trans (h q).room,
    (h q).keys.sublist (hents.map _), fun e he => (h q).nonzero e (hents.subset he)⟩

/-- **The exit of a process does not panic**, and what it leaves behind is in order. -/
theorem exitUnlocked_named (p : Task) (hk : UndosKept s.undos) (h : Named s) :
    ∃ s', exitUnlocked s p = .ok s' ∧ UndosKept s'.undos ∧ Named s' := by
  have hok : ∃ s', exitUnlocked s p = .ok s' := by
    unfold exitUnlocked
    cases hfind : s.undos.find? (fun su => su.proc == p) with
    | none => exact ⟨s, rfl⟩
    | some su =>
      obtain ⟨s₁, happ⟩ := applyUndos_named (h su (mem_of_find?_eq_some hfind))
      dsimp only
      rw [happ]
      exact ⟨_, rfl⟩
  obtain ⟨s', hrun⟩ := hok
  refine ⟨s', hrun, ?_⟩
  rcases exitUnlocked_ok hrun with ⟨-, rfl⟩ | ⟨su, s₁, -, happ, rfl⟩
  · exact ⟨hk, h⟩
  · have hsame : SameSizes s s₁ := .of_sema (applyUndos_sameCounts happ).sema
    exact ⟨hk.sublist eraseP_sublist, (h.sublist eraseP_sublist).mono hsame.names⟩

end Ixemul.Ipc
