/-
# Ixemul.Ipc.SemUndo — the undo entries of a process, and taking adjustments back.

What `semundo_adjust` keeps for a process is a function from semaphores to adjustments, zero almost
everywhere: the entries of its undo structure are the other values (`Sparse`).  Seen so, an adjustment is
ONE addition (`bump`), which fails only where there is no room for a new value, and taking it back is the
opposite addition. Hence the rollback of `semop` never runs out of space itself, and `semop` never panics.
-/
import Ixemul.Ipc.Sem
import Ixemul.Lib.Sparse
import Mathlib.Data.BitVec

namespace Ixemul.Ipc

open Lib
open Function List

variable {undos : List SemUndo} {p : Task} {ents : List Undo} {v : BitVec 16} {sops : List SemBuf}

/-! ## Entries as a function -/

/-- A semaphore, by its set and its number in the set. -/
abbrev UndoKey := Nat × Nat

/-- The adjustments of a process. -/
abbrev Adjust := UndoKey → BitVec 16

def Undo.key (e : Undo) : UndoKey := (e.id, e.num)

variable {f : Adjust} {k : UndoKey}

/-- The structures of process `p`. -/
def structsOf (undos : List SemUndo) (p : Task) : List SemUndo := undos.filter (fun su => su.proc == p)

/-- The undo entries of process `p`. -/
def entriesOf (undos : List SemUndo) (p : Task) : List Undo := (structsOf undos p).flatMap SemUndo.ents

/-- What process `p` has for each semaphore. -/
def undoOf (undos : List SemUndo) (p : Task) : Adjust :=
  fun k => (((entriesOf undos p).find? (fun e => e.key == k)).map Undo.adjval).getD 0

/-- The entries of process `p` are as `semundo_adjust` keeps them: in one structure, no more than fit, no
semaphore twice and none with nothing to adjust. -/
structure UndoKept (undos : List SemUndo) (p : Task) : Prop where
  single : (structsOf undos p).length ≤ 1
  room : (entriesOf undos p).length ≤ semume
  keys : ((entriesOf undos p).map Undo.key).Nodup
  nonzero : ∀ e ∈ entriesOf undos p, e.adjval ≠ 0

/-- `v` more for one semaphore. -/
def bump (f : Adjust) (k : UndoKey) (v : BitVec 16) : Adjust := update f k (f k + v)

theorem bump_neg (f : Adjust) (k : UndoKey) (v : BitVec 16) : bump (bump f k (-v)) k v = f := by
  unfold bump
  rw [update_idem, update_self, BitVec.add_assoc, BitVec.add_left_neg, BitVec.add_zero,
    update_eq_self]

theorem sparse_concat (h : Sparse Undo.key Undo.adjval ents f) (hk : f k = 0) (hv : v ≠ 0) :
    Sparse Undo.key Undo.adjval (ents ++ [⟨v, k.2, k.1⟩]) (bump f k v) := by
  have hbump : bump f k v = update f k v := by
    rw [bump, hk]
    exact congrArg _ (BitVec.zero_add v)
  rw [hbump]
  refine h.concat ?_ hv
  exact hk

/-- A structure's entries keep the function `f`. -/
def KeepsEnts (ents : List Undo) (f : Adjust) : Prop :=
  Sparse Undo.key Undo.adjval ents f ∧ ents.length ≤ semume

theorem undoOf_keeps (h : UndoKept undos p) : KeepsEnts (entriesOf undos p) (undoOf undos p) := by
  have hval : ∀ e ∈ entriesOf undos p, undoOf undos p e.key = e.adjval := by
    intro e he
    unfold undoOf
    obtain ⟨d, hd⟩ : ∃ d, (entriesOf undos p).find? (fun d => d.key == e.key) = some d := by
      refine Option.isSome_iff_exists.mp ?_
      rw [find?_isSome]
      exact ⟨e, he, by simp⟩
    have hkey : d.key = e.key := by simpa using find?_some hd
    have hde : d = e := inj_on_of_nodup_map h.keys (mem_of_find?_eq_some hd) he hkey
    rw [hd, hde]
    rfl
  refine ⟨⟨h.keys, h.nonzero, hval, fun k hk => ?_⟩, h.room⟩
  unfold undoOf at hk
  cases hf : (entriesOf undos p).find? (fun e => e.key == k) with
  | none =>
    rw [hf] at hk
    exact absurd rfl hk
  | some e => exact ⟨e, mem_of_find?_eq_some hf, by simpa using find?_some hf⟩

/-! ## Adjusting one entry -/

theorem isFor_iff (e : Undo) : e.isFor k.1 k.2 ↔ e.key = k := by
  simp [Undo.isFor, Undo.key, Prod.ext_iff]

theorem removeEnt_perm {i : Nat} (hi : i < ents.length) :
    (removeEnt ents i).Perm (ents.take i ++ ents.drop (i + 1)) := by
  rw [← eraseIdx_eq_take_drop_succ]
  obtain ⟨init, last, rfl⟩ := (eq_nil_or_concat' ents).resolve_left
    (ne_nil_of_length_pos (by omega))
  rw [removeEnt, getLast?_concat]
  exact perm_eraseIdx_of_swap hi

/-- There is room for one more adjustment of `k`: it has an entry, or a new one fits. -/
def HasRoom (f : Adjust) (k : UndoKey) : Prop := f k ≠ 0 ∨ {j | f j ≠ 0}.ncard < semume

/-- **`semundo_adjust` on a structure adds to one value**, or fails for want of room. -/
theorem adjustEnts_spec (h : KeepsEnts ents f) (hv : v ≠ 0) :
    (∃ ents', adjustEnts ents k.1 k.2 v = .ok ents' ∧ KeepsEnts ents' (bump f k v)) ∨
      (¬ HasRoom f k ∧ adjustEnts ents k.1 k.2 v = .error .einval) := by
  obtain ⟨hs, hlen⟩ := h
  cases hfind : ents.findIdx? (Undo.isFor k.1 k.2) with
  | none =>
    -- no entry for `k`
    have hk : f k = 0 := by
      by_contra hne
      obtain ⟨e, he, hke⟩ := hs.support k hne
      have hno := findIdx?_eq_none_iff.mp hfind e he
      rw [(isFor_iff e).mpr hke] at hno
      cases hno
    by_cases hfull : ents.length = semume
    · refine .inr ⟨?_, ?_⟩
      · rintro (hne | hroom)
        · exact hne hk
        · rw [← hs.length_eq] at hroom
          omega
      · simp only [adjustEnts, hfind]
        rw [if_neg hv, if_pos hfull]
    · refine .inl ⟨ents ++ [⟨v, k.2, k.1⟩], ?_, ?_, ?_⟩
      · simp only [adjustEnts, hfind]
        rw [if_neg hv, if_neg hfull]
      · exact sparse_concat hs hk hv
      · rw [length_append, length_singleton]
        omega
  | some i =>
    obtain ⟨hi, hfor, -⟩ := findIdx?_eq_some_iff_getElem.mp hfind
    have hsplit : ents = ents.take i ++ ents[i] :: ents.drop (i + 1) := by simp
    have hkey : ents[i].key = k := (isFor_iff _).mp hfor
    have hold : f k = ents[i].adjval := by
      rw [← hkey]
      exact hs.value _ (getElem_mem hi)
    rw [hsplit] at hs
    left
    have hrun : adjustEnts ents k.1 k.2 v =
        if f k + v = 0 then .ok (removeEnt ents i) else .ok (ents.set i ⟨f k + v, k.2, k.1⟩) := by
      simp only [adjustEnts, hfind, if_neg hv]
      rw [getElem?_eq_getElem hi, Option.map_some, Option.getD_some, ← hold]
    rw [hrun]
    by_cases hzero : f k + v = 0
    · refine ⟨removeEnt ents i, if_pos hzero, ?_, ?_⟩
      · have hdrop := hs.drop
        rw [hkey] at hdrop
        rw [bump, hzero]
        exact hdrop.perm (removeEnt_perm hi).symm
      · have hl := (removeEnt_perm hi).length_eq
        rw [length_append, length_take, length_drop] at hl
        omega
    · refine ⟨ents.set i ⟨f k + v, k.2, k.1⟩, if_neg hzero, ?_, by rwa [length_set]⟩
      have hrep := hs.replace (x := ⟨f k + v, k.2, k.1⟩) (by rw [hkey]; rfl) hzero
      rw [hkey] at hrep
      rw [set_eq_take_append_cons_drop, if_pos hi]
      exact hrep

/-! ## The table of undo structures -/

/-- The table keeps `f` for process `p`: in its one structure, or in none if there is nothing to keep. -/
def Keeps (undos : List SemUndo) (p : Task) (f : Adjust) : Prop :=
  (structsOf undos p = [] ∧ f = 0) ∨ ∃ ents, structsOf undos p = [⟨p, ents⟩] ∧ KeepsEnts ents f

/-- No process but `p` has other entries, or more structures. -/
def SameOthers (undos undos' : List SemUndo) (p : Task) : Prop :=
  ∀ q, q ≠ p → entriesOf undos' q = entriesOf undos q ∧
    (structsOf undos' q).length ≤ (structsOf undos q).length

theorem SameOthers.refl (undos : List SemUndo) (p : Task) : SameOthers undos undos p :=
  fun _ _ => ⟨rfl, le_rfl⟩

theorem structsOf_cons_self {su : SemUndo} (h : su.proc = p) :
    structsOf (su :: undos) p = su :: structsOf undos p := by
  simp [structsOf, h]

theorem structsOf_cons_other {su : SemUndo} (h : su.proc ≠ p) :
    structsOf (su :: undos) p = structsOf undos p := by
  simp [structsOf, h]

theorem UndoKept.structs (h : UndoKept undos p) :
    structsOf undos p = [] ∨ ∃ ents, structsOf undos p = [⟨p, ents⟩] := by
  rcases hs : structsOf undos p with _ | ⟨su, rest⟩
  · exact .inl rfl
  · right
    have hrest : rest = [] := by
      have hl := h.single
      rw [hs, length_cons] at hl
      exact length_eq_zero_iff.mp (by omega)
    have hmem : su ∈ structsOf undos p := hs ▸ mem_cons_self
    have hproc : su.proc = p := by simpa using (mem_filter.mp hmem).2
    subst hrest hproc
    exact ⟨su.ents, rfl⟩

theorem keeps_undoOf (h : UndoKept undos p) : Keeps undos p (undoOf undos p) := by
  have hk := undoOf_keeps h
  rcases h.structs with hs | ⟨ents, hs⟩
  · left
    refine ⟨hs, ?_⟩
    funext k
    simp [undoOf, entriesOf, hs]
  · right
    refine ⟨ents, hs, ?_⟩
    have hents : entriesOf undos p = ents := by simp [entriesOf, hs]
    rwa [hents] at hk

section First

variable {g : List Undo → Except Errno (List Undo)} {pre post : List SemUndo} {su : SemUndo}

theorem adjustFirst_append (hpre : ∀ x ∈ pre, x.proc ≠ p) (hsu : su.proc = p) :
    adjustFirst p g (pre ++ su :: post) =
      some ((g su.ents).map fun ents => pre ++ ⟨su.proc, ents⟩ :: post) := by
  induction pre with
  | nil =>
    rw [nil_append, adjustFirst, if_pos hsu]
    rfl
  | cons x pre ih =>
    obtain ⟨hx, hrest⟩ := forall_mem_cons.mp hpre
    rw [cons_append, adjustFirst, if_neg hx, ih hrest]
    cases g su.ents <;> rfl

theorem adjustFirst_none (h : ∀ su ∈ undos, su.proc ≠ p) : adjustFirst p g undos = none := by
  induction undos with
  | nil => rfl
  | cons su undos ih =>
    obtain ⟨hsu, hrest⟩ := forall_mem_cons.mp h
    rw [adjustFirst, if_neg hsu, ih hrest]
    rfl

end First

theorem semuAlloc_spec (hs : structsOf undos p = []) :
    semuAlloc undos p = none ∨
      ∃ rest, semuAlloc undos p = some (⟨p, []⟩ :: rest) ∧ structsOf rest p = [] ∧
        SameOthers undos rest p := by
  unfold semuAlloc
  by_cases hroom : undos.length < semmnu
  · rw [if_pos hroom]
    exact .inr ⟨undos, rfl, hs, .refl undos p⟩
  · rw [if_neg hroom]
    by_cases hany : undos.any SemUndo.empty
    · rw [if_pos hany]
      have hstructs : ∀ q, structsOf (undos.filter (fun su => !su.empty)) q =
          (structsOf undos q).filter (fun su => !su.empty) := fun q => filter_comm ..
      refine .inr ⟨_, rfl, ?_, fun q _ => ⟨?_, ?_⟩⟩
      · rw [hstructs, hs]
        rfl
      · -- what is dropped has no entries
        rw [entriesOf, entriesOf, hstructs]
        induction structsOf undos q with
        | nil => rfl
        | cons su rest ih =>
          rw [filter_cons, flatMap_cons, ← ih]
          cases hemp : su.empty with
          | true =>
            have hnil : su.ents = [] := by simpa [SemUndo.empty] using hemp
            simp [hnil]
          | false => simp
      · rw [hstructs]
        exact length_filter_le _ _
    · exact .inl (if_neg hany)

/-- **`semundo_adjust` adds to one value of one process**, or fails for want of a structure or of room
in it. -/
theorem semundoAdjust_spec (h : Keeps undos p f) (hv : v ≠ 0) :
    (∃ undos', semundoAdjust undos p k.1 k.2 v = .ok undos' ∧
        Keeps undos' p (bump f k v) ∧ structsOf undos' p ≠ [] ∧ SameOthers undos undos' p) ∨
      ((structsOf undos p = [] ∨ ¬ HasRoom f k) ∧ ∃ e, semundoAdjust undos p k.1 k.2 v = .error e) := by
  unfold semundoAdjust
  rcases h with ⟨hnil, rfl⟩ | ⟨ents, hs, hk⟩
  · -- the first entry of a new structure
    rw [adjustFirst_none (by simpa [structsOf] using hnil)]
    simp only [if_neg hv]
    rcases semuAlloc_spec hnil with halloc | ⟨rest, halloc, hrest, hents⟩
    · rw [halloc]
      exact .inr ⟨.inl hnil, _, rfl⟩
    · rw [halloc]
      have hmine : structsOf (⟨p, [⟨v, k.2, k.1⟩]⟩ :: rest) p = [⟨p, [⟨v, k.2, k.1⟩]⟩] := by
        rw [structsOf_cons_self rfl, hrest]
      have hlen : ([⟨v, k.2, k.1⟩] : List Undo).length ≤ semume := by simp [semume]
      refine .inl ⟨⟨p, [⟨v, k.2, k.1⟩]⟩ :: rest, rfl, .inr ⟨_, hmine, ?_, hlen⟩, ?_, ?_⟩
      · exact sparse_concat Sparse.nil rfl hv
      · rw [hmine]
        exact cons_ne_nil _ _
      · intro q hq
        rw [entriesOf, structsOf_cons_other (fun e => hq e.symm)]
        exact hents q hq
  · obtain ⟨pre, post, rfl, hpre, -, hpost⟩ := filter_eq_cons_iff.mp hs
    have hproc : (⟨p, ents⟩ : SemUndo).proc = p := rfl
    rw [adjustFirst_append (by simpa using hpre) hproc]
    rcases adjustEnts_spec (k := k) hk hv with ⟨ents', hok, hk'⟩ | ⟨hroom, herr⟩
    · have hmine : structsOf (pre ++ ⟨p, ents'⟩ :: post) p = [⟨p, ents'⟩] :=
        filter_eq_cons_iff.mpr ⟨pre, post, rfl, hpre, beq_self_eq_true p, hpost⟩
      rw [hok]
      refine .inl ⟨_, rfl, .inr ⟨ents', hmine, hk'⟩, ?_, fun q hq => ?_⟩
      · rw [hmine]
        exact cons_ne_nil _ _
      · have hother : structsOf (pre ++ ⟨p, ents'⟩ :: post) q = structsOf (pre ++ ⟨p, ents⟩ :: post) q := by
          simp [structsOf, hq.symm]
        rw [entriesOf, hother]
        exact ⟨rfl, le_rfl⟩
    · rw [herr]
      exact .inr ⟨.inr hroom, _, rfl⟩

/-! ## The undo requests of a vector -/

/-- The adjustments made for the requests `applied`, last one first, have led from `f₀` to `f`, and each
of them left a function that fits into a structure. -/
inductive Trail (ix : Nat) (f₀ : Adjust) : List SemBuf → Adjust → Prop where
  | nil : Trail ix f₀ [] f₀
  | cons {applied : List SemBuf} {f : Adjust} {ents : List Undo} (sop : SemBuf) (ht : Trail ix f₀ applied f)
      (hfit : KeepsEnts ents f) (hop : sop.op ≠ 0) :
      Trail ix f₀ (sop :: applied) (bump f (ix, sop.num) (-sop.op))

variable {ix : Nat} {f₀ : Adjust} {applied : List SemBuf}

theorem Keeps.sparse (h : Keeps undos p f) : KeepsEnts (entriesOf undos p) f := by
  rcases h with ⟨hnil, rfl⟩ | ⟨ents, hs, hk⟩
  · rw [entriesOf, hnil]
    exact ⟨Sparse.nil, Nat.zero_le _⟩
  · have hents : entriesOf undos p = ents := by simp [entriesOf, hs]
    rwa [hents]

theorem hasRoom_back (h : KeepsEnts ents f) (hv : v ≠ 0)
    (hk : KeepsEnts (entriesOf undos p) (bump f k (-v))) : HasRoom (bump f k (-v)) k := by
  by_contra hno
  rw [HasRoom, not_or, not_not] at hno
  obtain ⟨hzero, hfull⟩ := hno
  -- the entry to be taken back would be one too many for `f`
  have hback := sparse_concat hk.1 hzero hv
  rw [bump_neg] at hback
  have hlen := hback.length_eq
  rw [← h.1.length_eq, length_append, length_singleton] at hlen
  rw [← hk.1.length_eq] at hfull
  have hroom := h.2
  omega

/-- **Taking adjustments back, last one first, never fails.** -/
theorem undoBack_ne_none (ht : Trail ix f₀ applied f) (hk : Keeps undos p f)
    (hs : applied = [] ∨ structsOf undos p ≠ []) : undoBack p ix applied undos ≠ none := by
  induction ht generalizing undos with
  | nil => exact nofun
  | cons sop ht hfit hop ih =>
    have hstruct := hs.resolve_left (cons_ne_nil _ _)
    have hroom := hasRoom_back hfit hop hk.sparse
    rcases semundoAdjust_spec hk hop with ⟨undos1, hrun, hk1, hs1, -⟩ | ⟨hno | hno, -⟩
    · rw [bump_neg] at hk1
      rw [undoBack, hrun]
      exact ih hk1 (.inr hs1)
    · exact absurd hno hstruct
    · exact absurd hroom hno

theorem op_ne_zero_of_undone {sop : SemBuf} (h : sop.undone) : sop.op ≠ 0 := by
  rw [SemBuf.undone, Bool.and_eq_true, bne_iff_ne] at h
  exact h.2

theorem undoWalk_spec (sops : List SemBuf) (ht : Trail ix f₀ applied f) (hk : Keeps undos p f)
    (hs : applied = [] ∨ structsOf undos p ≠ []) : undoWalk p ix sops applied undos ≠ .panic := by
  induction sops generalizing applied undos f with
  | nil => exact nofun
  | cons sop sops ih =>
    rw [undoWalk]
    cases hund : sop.undone with
    | false => exact ih ht hk hs
    | true =>
      simp only [if_true]
      have hop := op_ne_zero_of_undone hund
      have hneg : -sop.op ≠ 0 := fun h0 => hop (BitVec.neg_eq_zero_iff.mp h0)
      rcases semundoAdjust_spec (k := (ix, sop.num)) hk hneg with ⟨undos1, hrun, hk1, hs1, -⟩ | ⟨-, e, hrun⟩
      · rw [hrun]
        exact ih (.cons sop ht hk.sparse hop) hk1 (.inr hs1)
      · rw [hrun]
        obtain ⟨undos', hback⟩ := Option.ne_none_iff_exists'.mp (undoBack_ne_none ht hk hs)
        rw [hback]
        exact nofun

theorem undoWalk_of_not_any (h : sops.any SemBuf.undone = false) :
    undoWalk p ix sops applied undos = .ok undos := by
  induction sops with
  | nil => rfl
  | cons sop sops ih =>
    rw [any_cons, Bool.or_eq_false_iff] at h
    simp only [undoWalk, h.1]
    exact ih h.2

/-- **What becomes of the undo requests**: they are granted, or space runs out and those granted before are
taken back.  The rollback never fails. -/
theorem undoWalk_ne_panic (ix : Nat) (sops : List SemBuf) (h : UndoKept undos p) :
    undoWalk p ix sops [] undos ≠ .panic :=
  undoWalk_spec sops .nil (keeps_undoOf h) (.inl rfl)

end Ixemul.Ipc
