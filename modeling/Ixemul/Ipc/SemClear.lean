/-
# Ixemul.Ipc.SemClear — what `semundo_clear` takes out of the undo vectors (sysv_sem.c).

SETVAL clears the entries of one semaphore, SETALL and IPC_RMID those of a whole set.  The loop over a
vector fills a hole with the last entry and looks at the same place again, so a whole set is cleared
whatever the order of the entries (`clearEnts_all`).  For one semaphore the loop stops at the first entry
of the SET, whether it is for that semaphore or not (`clearEnts_first`): an entry behind another one of
the same set stays.
-/
import Ixemul.Ipc.SemUndo

namespace Ixemul.Ipc

open List

variable {semid num : Nat} {ents : List Undo}

/-- The entry is for the set, and for the semaphore if one is given. -/
def Undo.isHit (semid : Nat) (semnum : Option Nat) (e : Undo) : Bool :=
  e.id == semid && (semnum == none || semnum == some e.num)

/-- Every vector has lost its entries for the semaphore, or for the whole set, and no other entry. -/
def Cleared (semid : Nat) (semnum : Option Nat) (undos undos' : List SemUndo) : Prop :=
  List.Forall₂ (fun su su' => su'.proc = su.proc ∧
    su'.ents.Perm (su.ents.filter fun e => !e.isHit semid semnum)) undos undos'

theorem isHit_none (e : Undo) : e.isHit semid none = (e.id == semid) := by
  simp [Undo.isHit]

theorem isHit_some (e : Undo) : e.isHit semid (some num) = (e.id == semid && num == e.num) := by
  simp [Undo.isHit]

/-! ## Taking an entry out -/

theorem perm_filter_iff {α : Type*} {l : List α} {q : α → Bool} : l.Perm (l.filter q) ↔ ∀ x ∈ l, q x := by
  constructor
  · intro h
    rw [← filter_eq_self]
    exact filter_sublist.eq_of_length h.length_eq.symm
  · intro h
    rw [filter_eq_self.mpr h]

theorem length_removeEnt {i : Nat} (hi : i < ents.length) : (removeEnt ents i).length + 1 = ents.length := by
  have hl := (removeEnt_perm hi).length_eq
  rw [length_append, length_take, length_drop] at hl
  omega

theorem take_removeEnt {i : Nat} (hi : i < ents.length) : (removeEnt ents i).take i = ents.take i := by
  obtain ⟨init, last, rfl⟩ := (eq_nil_or_concat' ents).resolve_left
    (ne_nil_of_length_pos (by omega))
  rw [length_append, length_singleton] at hi
  rw [removeEnt, getLast?_concat]
  simp only
  rw [dropLast_eq_take, length_set, length_append, length_singleton, take_take,
    min_eq_left (by omega), take_set_of_le (le_refl i)]

theorem filter_removeEnt {i : Nat} {q : Undo → Bool} (hi : i < ents.length) (hq : q ents[i] = false) :
    ((removeEnt ents i).filter q).Perm (ents.filter q) := by
  have hsplit : ents = ents.take i ++ ents[i] :: ents.drop (i + 1) := by simp
  have hfilter : ents.filter q = (ents.take i ++ ents.drop (i + 1)).filter q := by
    conv_lhs => rw [hsplit]
    rw [filter_append, filter_append, filter_cons_of_neg (by simp [hq])]
  rw [hfilter]
  exact (removeEnt_perm hi).filter q

/-! ## A whole set -/

/-- **The loop clears a whole set**, from where nothing in front is for it. -/
theorem clearEnts_all (fuel i : Nat) (ents : List Undo) (hfuel : ents.length ≤ fuel + i)
    (hpre : ∀ e ∈ ents.take i, e.id ≠ semid) :
    (clearEnts semid none fuel i ents).Perm (ents.filter fun e => !e.isHit semid none) := by
  have hall {i : Nat} {ents : List Undo} (hlen : ents.length ≤ i) (hpre : ∀ e ∈ ents.take i, e.id ≠ semid) :
      ents.Perm (ents.filter fun e => !e.isHit semid none) := by
    rw [take_of_length_le hlen] at hpre
    refine perm_filter_iff.mpr fun e he => ?_
    simpa [isHit_none] using hpre e he
  induction fuel generalizing i ents with
  | zero => exact hall (Nat.zero_add i ▸ hfuel) hpre
  | succ fuel ih =>
    rw [clearEnts]
    cases hget : ents[i]? with
    | none => exact hall (getElem?_eq_none_iff.mp hget) hpre
    | some e =>
      obtain ⟨hi, rfl⟩ := List.getElem?_eq_some_iff.mp hget
      dsimp only
      by_cases hid : ents[i].id = semid
      · rw [if_pos hid, if_neg (by simp)]
        have hlen := length_removeEnt hi
        have hrest := ih i (removeEnt ents i) (by omega) (by rwa [take_removeEnt hi])
        exact hrest.trans (filter_removeEnt hi (by simp [isHit_none, hid]))
      · rw [if_neg hid]
        refine ih (i + 1) ents (by omega) ?_
        rw [take_add_one, getElem?_eq_getElem hi, Option.toList_some]
        intro e he
        rcases mem_append.mp he with he | he
        · exact hpre e he
        · rwa [mem_singleton.mp he]

/-! ## One semaphore -/

theorem clearEnts_skip (num fuel : Nat) {pre : List Undo} (hpre : ∀ e ∈ pre, e.id ≠ semid)
    (front post : List Undo) :
    clearEnts semid (some num) (fuel + pre.length) front.length (front ++ (pre ++ post)) =
      clearEnts semid (some num) fuel (front.length + pre.length) (front ++ (pre ++ post)) := by
  induction pre generalizing front with
  | nil => rfl
  | cons d pre ih =>
    obtain ⟨hd, hpre⟩ := forall_mem_cons.mp hpre
    have hget : (front ++ (d :: pre ++ post))[front.length]? = some d := by simp
    have hrest := ih hpre (front ++ [d])
    rw [append_assoc, length_append, length_singleton, Nat.add_right_comm] at hrest
    rw [length_cons, ← Nat.add_assoc, clearEnts, hget]
    dsimp only
    rw [if_neg hd]
    exact hrest

/-- **The loop for one semaphore stops at the first entry of the set**: that one goes if it is for the
semaphore, and nothing else ever does. -/
theorem clearEnts_first (num : Nat) (pre post : List Undo) (e : Undo) (hpre : ∀ d ∈ pre, d.id ≠ semid)
    (he : e.id = semid) :
    clearEnts semid (some num) (pre ++ e :: post).length 0 (pre ++ e :: post) =
      if num = e.num then removeEnt (pre ++ e :: post) pre.length else pre ++ e :: post := by
  have hskip := clearEnts_skip num (post.length + 1) hpre [] (e :: post)
  have hget : (pre ++ e :: post)[pre.length]? = some e := by simp
  rw [length_nil, nil_append, Nat.zero_add] at hskip
  rw [length_append, length_cons, Nat.add_comm, hskip, clearEnts, hget]
  dsimp only
  rw [if_pos he, if_pos (by simp)]
  by_cases hnum : num = e.num
  · rw [if_pos (.inr (by rw [hnum])), if_pos hnum]
  · rw [if_neg (by simpa using hnum), if_neg hnum]

theorem clearEnts_absent (num : Nat) (ents : List Undo) (h : ∀ e ∈ ents, e.id ≠ semid) :
    clearEnts semid (some num) ents.length 0 ents = ents := by
  have hskip := clearEnts_skip num 0 h [] []
  rw [append_nil, Nat.zero_add] at hskip
  exact hskip

/-- The entries of the set behind its first one. -/
def laterOf (semid : Nat) (ents : List Undo) : List Undo := (ents.filter fun e => e.id == semid).tail

theorem laterOf_append (pre post : List Undo) (e : Undo) (hpre : ∀ d ∈ pre, d.id ≠ semid)
    (he : e.id = semid) : laterOf semid (pre ++ e :: post) = post.filter fun e => e.id == semid := by
  have hnil : pre.filter (fun e => e.id == semid) = [] := by
    rw [filter_eq_nil_iff]
    intro d hd
    simpa using hpre d hd
  rw [laterOf, filter_append, hnil, nil_append, filter_cons_of_pos (by simpa using he),
    tail_cons]

theorem forall_not_isHit_iff (post : List Undo) :
    (∀ x ∈ post, (!x.isHit semid (some num))) ↔
      ∀ x ∈ post.filter (fun e => e.id == semid), x.num ≠ num := by
  simp only [mem_filter, beq_iff_eq, isHit_some, Bool.not_eq_true', Bool.and_eq_false_imp]
  constructor
  · rintro h x ⟨hx, hid⟩ hnum
    have := h x hx hid
    simp [hnum] at this
  · intro h x hx hid
    have := h x ⟨hx, hid⟩
    simpa using fun heq => this heq.symm

/-- **When one semaphore is cleared in a vector**: no entry for it stands behind another one of its
set. -/
theorem clearEnts_some_iff (semid num : Nat) (ents : List Undo) :
    (clearEnts semid (some num) ents.length 0 ents).Perm (ents.filter fun e => !e.isHit semid (some num)) ↔
      ∀ e ∈ laterOf semid ents, e.num ≠ num := by
  by_cases hmem : ∃ e ∈ ents, e.id = semid
  · -- the first entry of the set decides
    obtain ⟨e, pre, post, rfl, he, hpre⟩ : ∃ e pre post, ents = pre ++ e :: post ∧ e.id = semid ∧
        ∀ d ∈ pre, d.id ≠ semid := by
      obtain ⟨e, hfind⟩ : ∃ e, ents.find? (fun e => e.id == semid) = some e := by
        rw [← Option.isSome_iff_exists, find?_isSome]
        simpa using hmem
      obtain ⟨hid, pre, post, hsplit, hpre⟩ := find?_eq_some_iff_append.mp hfind
      exact ⟨e, pre, post, hsplit, by simpa using hid, by simpa using hpre⟩
    have hkeep : pre.filter (fun e => !e.isHit semid (some num)) = pre := by
      rw [filter_eq_self]
      intro d hd
      simp [isHit_some, hpre d hd]
    rw [clearEnts_first num pre post e hpre he, laterOf_append pre post e hpre he,
      ← forall_not_isHit_iff, filter_append, hkeep, filter_cons]
    by_cases hnum : num = e.num
    · rw [if_pos hnum, if_neg (by simp [isHit_some, he, hnum])]
      have hlt : pre.length < (pre ++ e :: post).length := by simp
      have hremove := removeEnt_perm hlt
      rw [take_left, drop_append, drop_of_length_le (by omega), nil_append,
        Nat.add_sub_cancel_left, drop_one, tail_cons] at hremove
      rw [hremove.congr_left, perm_append_left_iff, perm_filter_iff]
    · rw [if_neg hnum, if_pos (by simp [isHit_some, hnum]), perm_append_left_iff, perm_cons,
        perm_filter_iff]
  · have hno : ∀ e ∈ ents, e.id ≠ semid := fun e he hid => hmem ⟨e, he, hid⟩
    have hlater : laterOf semid ents = [] := by
      rw [laterOf, filter_eq_nil_iff.mpr (by simpa using hno), tail_nil]
    rw [clearEnts_absent num ents hno, perm_filter_iff, hlater]
    refine iff_of_true (fun e he => ?_) (forall_mem_nil _)
    simp [isHit_some, hno e he]

/-! ## All vectors -/

/-- **`semundo_clear`**: called for a whole set, it takes out every entry of the set and no other, for all
contents of the undo vectors; called for one semaphore, it does so exactly where no vector has an entry
for the semaphore behind another entry of its set. -/
theorem semundoClear_cleared_iff (undos : List SemUndo) (semid : Nat) :
    Cleared semid none undos (semundoClear undos semid none) ∧
    ∀ num, Cleared semid (some num) undos (semundoClear undos semid (some num)) ↔
      ∀ su ∈ undos, ∀ e ∈ laterOf semid su.ents, e.num ≠ num := by
  unfold Cleared semundoClear
  simp only [forall₂_map_right_iff, forall₂_same]
  constructor
  · intro su _
    exact ⟨trivial, clearEnts_all su.ents.length 0 su.ents le_rfl (by simp)⟩
  · intro num
    refine forall₂_congr fun su _ => ?_
    simp only [true_and]
    exact clearEnts_some_iff semid num su.ents

/-- A process with undo entries for both semaphores of a set. -/
def twoUndos : SemState :=
  { seminit with
    sema := Function.update seminit.sema 0 ⟨{ IpcPerm.zero with flag := true }, 0, 2⟩
    semtot := 2
    undos := [⟨1, [⟨0xffff, 0, 0⟩, ⟨0xffff, 1, 0⟩]⟩] }

/-- **SETVAL leaves an entry behind**: a process raises both semaphores of a set with SEM_UNDO, then the
second one is set; the entry for it is still there. -/
theorem setval_leaves_entry :
    (semop { twoUndos with undos := [] } 1 0 [⟨0, 1, true, false⟩, ⟨1, 1, true, false⟩]).1.undos =
        twoUndos.undos ∧
      (semctl twoUndos ⟨0, 0⟩ 0 1 (.setval 5)).2 = .ret (plainReturn 0) .nothing ∧
      (semctl twoUndos ⟨0, 0⟩ 0 1 (.setval 5)).1.undos = twoUndos.undos ∧
      ¬ Cleared 0 (some 1) twoUndos.undos (semctl twoUndos ⟨0, 0⟩ 0 1 (.setval 5)).1.undos := by
  refine ⟨by decide, by decide, by decide, fun h => ?_⟩
  obtain ⟨⟨-, hperm⟩, -⟩ := forall₂_cons.mp h
  exact absurd hperm.length_eq (by decide)

end Ixemul.Ipc
