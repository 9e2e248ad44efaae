/-
# Ixemul.Ipc.SemPool — the undo structures in their pool (sysv_sem.c).

`semu` is an array of SEMMNU structures.  One that is in use has `un_proc` set and is linked into
`semu_list`; `semu_alloc` takes another one, and unlinks the empty ones if all are in use.  The other
modules see a list of structures; here the array and its links are as the source has them.

The loops are given as many rounds as a list without a circle can have, and end in `PoolAbort.endless` if
that is not enough.  It is, and no `panic` is reached, from every well-formed state: the functions on the
pool do to the list of structures what the functions on lists do (`Lists`).
-/
import Ixemul.Lib.Links
import Ixemul.Ipc.SemKept
import Ixemul.Ipc.SemExit

namespace Ixemul.Ipc

open Lib.Links
open Function List

/-! ## The pool -/

/-- `struct sem_undo` as it lies in the pool; `ents` are the first `un_cnt` of its entries. -/
structure SemU where
  next : Option (Fin semmnu)
  proc : Option Task
  ents : List Undo
  deriving DecidableEq

/-- `semu` and `semu_list`. -/
structure UndoPool where
  semu : Fin semmnu → SemU
  semuList : Option (Fin semmnu)

/-- Why a call does not come to its end: one of the calls of `panic`, an access beyond the end of `sema`,
or a loop over links that does not end. -/
inductive PoolAbort where
  | semuAllocFailed
  | cannotUndoUndos
  | semexit (a : ExitAbort)
  | outOfRange
  | endless
  deriving DecidableEq, Repr

namespace UndoPool

/-- `*supptr`, where `supptr` is `&semu_list` or the `&un_next` of a structure. -/
def deref (u : UndoPool) : Option (Fin semmnu) → Option (Fin semmnu)
  | none => u.semuList
  | some i => (u.semu i).next

def setNext (u : UndoPool) (i : Fin semmnu) (v : Option (Fin semmnu)) : UndoPool :=
  { u with semu := update u.semu i { u.semu i with next := v } }

def setEnts (u : UndoPool) (i : Fin semmnu) (ents : List Undo) : UndoPool :=
  { u with semu := update u.semu i { u.semu i with ents } }

/-- `*supptr = v` -/
def store (u : UndoPool) (v : Option (Fin semmnu)) : Option (Fin semmnu) → UndoPool
  | none => { u with semuList := v }
  | some i => u.setNext i v

/-- `suptr->un_proc = NULL; *supptr = suptr->un_next` -/
def unlink (u : UndoPool) (supptr : Option (Fin semmnu)) (i : Fin semmnu) : UndoPool :=
  { u with semu := update u.semu i { u.semu i with proc := none } }.store (u.semu i).next supptr

/-- More rounds than a list of structures can have. -/
def rounds : Nat := semmnu + 1

/-- The loop that looks for a free structure. -/
def findFree (u : UndoPool) : Option (Fin semmnu) :=
  (finRange semmnu).find? (fun i => (u.semu i).proc == none)

/-- A free structure is filled in and put at the head of the list. -/
def take (u : UndoPool) (i : Fin semmnu) (p : Task) : UndoPool :=
  ⟨update u.semu i ⟨u.semuList, some p, []⟩, some i⟩

/-- The loop that unlinks the empty structures, with `did_something`. -/
def purge : Nat → UndoPool → Option (Fin semmnu) → Bool → Except PoolAbort (UndoPool × Bool)
  | 0, _, _, _ => .error .endless
  | fuel + 1, u, supptr, did =>
    match u.deref supptr with
    | none => .ok (u, did)
    | some i =>
      if (u.semu i).ents.isEmpty then purge fuel (u.unlink supptr i) supptr true
      else purge fuel u (some i) did

/-- `semu_alloc`, with its two attempts. -/
def semuAlloc (u : UndoPool) (p : Task) : Except PoolAbort (UndoPool × Option (Fin semmnu)) :=
  match u.findFree with
  | some i => .ok (u.take i p, some i)
  | none =>
    match purge rounds u none false with
    | .error a => .error a
    | .ok (u, false) => .ok (u, none)
    | .ok (u, true) =>
      match u.findFree with
      | some i => .ok (u.take i p, some i)
      | none => .error .semuAllocFailed

/-- The loop that looks for the structure of `p`. -/
def findProc (u : UndoPool) (p : Task) : Nat → Option (Fin semmnu) → Except PoolAbort (Option (Fin semmnu))
  | 0, _ => .error .endless
  | _ + 1, none => .ok none
  | fuel + 1, some i => if (u.semu i).proc = some p then .ok (some i) else findProc u p fuel (u.semu i).next

/-- The second half of `semundo_adjust`, on the structure it has; with `*supptr` and what is returned. -/
def adjust (u : UndoPool) (i : Fin semmnu) (semid semnum : Nat) (adjval : BitVec 16) :
    UndoPool × Option (Fin semmnu) × Option Errno :=
  match adjustEnts (u.semu i).ents semid semnum adjval with
  | .ok ents => (u.setEnts i ents, some i, none)
  | .error e => (u, some i, some e)

/-- `semundo_adjust`; `suptr` is `*supptr`. -/
def semundoAdjust (u : UndoPool) (p : Task) (suptr : Option (Fin semmnu)) (semid semnum : Nat)
    (adjval : BitVec 16) : Except PoolAbort (UndoPool × Option (Fin semmnu) × Option Errno) :=
  match suptr with
  | some i => .ok (u.adjust i semid semnum adjval)
  | none =>
    match u.findProc p rounds u.semuList with
    | .error a => .error a
    | .ok (some i) => .ok (u.adjust i semid semnum adjval)
    | .ok none =>
      if adjval = 0 then .ok (u, none, none)
      else
        match u.semuAlloc p with
        | .error a => .error a
        | .ok (u, none) => .ok (u, none, some .enospc)
        | .ok (u, some i) => .ok (u.adjust i semid semnum adjval)

/-- `semundo_clear` -/
def semundoClear (semid : Nat) (semnum : Option Nat) :
    Nat → UndoPool → Option (Fin semmnu) → Except PoolAbort UndoPool
  | 0, _, _ => .error .endless
  | _ + 1, u, none => .ok u
  | fuel + 1, u, some i =>
    let ents := (u.semu i).ents
    semundoClear semid semnum fuel (u.setEnts i (clearEnts semid semnum ents.length 0 ents)) (u.semu i).next

/-- The rollback of the undo requests in `semop`, last one first. -/
def undoBack (p : Task) (ix : Nat) : List SemBuf → UndoPool → Option (Fin semmnu) → Except PoolAbort UndoPool
  | [], u, _ => .ok u
  | sop :: applied, u, suptr =>
    match u.semundoAdjust p suptr ix sop.num sop.op with
    | .error a => .error a
    | .ok (u, suptr, none) => undoBack p ix applied u suptr
    | .ok (_, _, some _) => .error .cannotUndoUndos

/-- The loop over the undo requests in `semop`, with the error it ends in. -/
def undoWalk (p : Task) (ix : Nat) : List SemBuf → List SemBuf → UndoPool → Option (Fin semmnu) →
    Except PoolAbort (UndoPool × Option Errno)
  | [], _, u, _ => .ok (u, none)
  | sop :: sops, applied, u, suptr =>
    if sop.undone then
      match u.semundoAdjust p suptr ix sop.num (-sop.op) with
      | .error a => .error a
      | .ok (u, suptr, none) => undoWalk p ix sops (sop :: applied) u suptr
      | .ok (u, suptr, some e) => (undoBack p ix applied u suptr).map (fun u => (u, some e))
    else undoWalk p ix sops applied u suptr

/-- The loop of `semexit`: where the pointer to the structure of `p` is, or the NULL at the end. -/
def findLink (u : UndoPool) (p : Task) : Nat → Option (Fin semmnu) → Except PoolAbort (Option (Fin semmnu))
  | 0, _ => .error .endless
  | fuel + 1, supptr =>
    match u.deref supptr with
    | none => .ok supptr
    | some i => if (u.semu i).proc = some p then .ok supptr else findLink u p fuel (some i)

end UndoPool

/-! ## The list that the links make -/

variable {u u' : UndoPool} {l : List (Fin semmnu)} {p : Task}

namespace UndoPool

/-- A structure without its link. -/
def view (u : UndoPool) (i : Fin semmnu) : SemUndo := ⟨(u.semu i).proc.getD 0, (u.semu i).ents⟩

/-- `semu_list` links exactly the structures in use, in the order `l`. -/
structure Links (u : UndoPool) (l : List (Fin semmnu)) : Prop where
  chain : (pointer _).Chain (fun i => (u.semu i).next) u.semuList l
  used : ∀ i, i ∈ l ↔ (u.semu i).proc ≠ none

/-- The pool is the list `undos` of structures. -/
def Lists (u : UndoPool) (undos : List SemUndo) : Prop := ∃ l, Links u l ∧ l.map u.view = undos

theorem Links.length_le (h : Links u l) : l.length ≤ semmnu := by
  simpa using h.chain.nodup.length_le_card

theorem Links.lt_rounds (h : Links u l) : l.length < rounds := Nat.lt_succ_of_le h.length_le

variable {i : Fin semmnu}

theorem view_proc (h : Links u l) (hi : i ∈ l) : (u.view i).proc = p ↔ (u.semu i).proc = some p := by
  have hne := (h.used i).mp hi
  cases hproc : (u.semu i).proc with
  | none => exact absurd hproc hne
  | some => simp [view, hproc]

/-! Looking for a structure. -/

variable {h : Option (Fin semmnu)} {fuel : Nat}

theorem findProc_eq (hc : (pointer _).Chain (fun i => (u.semu i).next) h l) (hfuel : l.length < fuel) :
    u.findProc p fuel h = .ok (l.find? (fun i => (u.semu i).proc = some p)) := by
  induction l generalizing h fuel with
  | nil =>
    obtain ⟨fuel, rfl⟩ := Nat.exists_eq_add_one.mpr hfuel
    obtain rfl : h = none := hc
    rfl
  | cons i l ih =>
    obtain ⟨fuel, rfl⟩ := Nat.exists_eq_add_one.mpr (pos_of_gt hfuel)
    obtain ⟨rfl, hrest⟩ : h = some i ∧ _ := hc
    rw [length_cons] at hfuel
    rw [findProc, find?_cons]
    by_cases hp : (u.semu i).proc = some p
    · rw [if_pos hp, decide_eq_true hp]
    · rw [if_neg hp, decide_eq_false hp]
      exact ih hrest (by omega)

/-! Changing the entries of a structure. -/

theorem view_setEnts_self (u : UndoPool) (i : Fin semmnu) (ents : List Undo) :
    (u.setEnts i ents).view i = ⟨(u.view i).proc, ents⟩ := by
  simp [view, setEnts]

variable {j : Fin semmnu}

theorem view_setEnts_of_ne (u : UndoPool) (h : j ≠ i) (ents : List Undo) :
    (u.setEnts i ents).view j = u.view j := by
  simp [view, setEnts, h]

theorem semu_setEnts (u : UndoPool) (i : Fin semmnu) (ents : List Undo) (j : Fin semmnu) :
    ((u.setEnts i ents).semu j).next = (u.semu j).next ∧
      ((u.setEnts i ents).semu j).proc = (u.semu j).proc := by
  by_cases hj : j = i
  · subst hj
    simp [setEnts]
  · simp [setEnts, hj]

theorem Links.setEnts (h : Links u l) (i : Fin semmnu) (ents : List Undo) : Links (u.setEnts i ents) l where
  chain := h.chain.congr fun j _ => (semu_setEnts u i ents j).1
  used := fun j => by rw [(semu_setEnts u i ents j).2, h.used j]

theorem map_view_setEnts {m r : List (Fin semmnu)} (h : (m ++ i :: r).Nodup)
    (ents : List Undo) : (m ++ i :: r).map (u.setEnts i ents).view =
      m.map u.view ++ ⟨(u.view i).proc, ents⟩ :: r.map u.view := by
  obtain ⟨-, hir, hdisj⟩ := nodup_append.mp h
  have hm : ∀ j ∈ m, (u.setEnts i ents).view j = u.view j :=
    fun j hj => view_setEnts_of_ne u (hdisj j hj i (mem_cons_self ..)) ents
  have hr : ∀ j ∈ r, (u.setEnts i ents).view j = u.view j := by
    intro j hj
    refine view_setEnts_of_ne u ?_ ents
    rintro rfl
    exact (nodup_cons.mp hir).1 hj
  rw [map_append, map_cons, map_congr_left hm, map_congr_left hr, view_setEnts_self]

/-! A new structure. -/

theorem findFree_some (h : u.findFree = some i) : (u.semu i).proc = none := by
  simpa using find?_some h

theorem Links.findFree_none_iff (h : Links u l) : u.findFree = none ↔ semmnu ≤ l.length := by
  have hall : u.findFree = none ↔ ∀ i, i ∈ l := by
    simp [findFree, h.used]
  have hcard : l.toFinset.card = l.length := toFinset_card_of_nodup h.chain.nodup
  rw [hall]
  constructor
  · intro hl
    have huniv : l.toFinset = Finset.univ := by
      ext i
      simp [hl i]
    rw [← hcard, huniv]
    exact le_of_eq (by simp)
  · intro hle i
    have huniv : l.toFinset = Finset.univ :=
      Finset.eq_univ_of_card _ (by rw [hcard, Fintype.card_fin]; exact le_antisymm h.length_le hle)
    rw [← mem_toFinset, huniv]
    exact Finset.mem_univ i

theorem Links.take (h : Links u l) (hi : (u.semu i).proc = none) (p : Task) :
    Links (u.take i p) (i :: l) ∧ (i :: l).map (u.take i p).view = ⟨p, []⟩ :: l.map u.view := by
  have hil : i ∉ l := fun hmem => (h.used i).mp hmem hi
  have hother : ∀ j ∈ l, (u.take i p).semu j = u.semu j := by
    intro j hj
    have hji : j ≠ i := by
      rintro rfl
      exact hil hj
    exact update_of_ne hji ..
  refine ⟨⟨⟨rfl, ?_⟩, fun j => ?_⟩, ?_⟩
  · have hnext : ((u.take i p).semu i).next = u.semuList := by simp [UndoPool.take]
    show (pointer _).Chain _ ((u.take i p).semu i).next l
    rw [hnext]
    exact h.chain.congr fun j hj => by rw [hother j hj]
  · by_cases hj : j = i
    · subst hj
      simp [UndoPool.take]
    · have hsame : (u.take i p).semu j = u.semu j := update_of_ne hj ..
      simp [hj, hsame, h.used j]
  · rw [map_cons]
    congr 1
    · simp [view, UndoPool.take]
    · exact map_congr_left fun j hj => by rw [view, hother j hj, view]

/-! Unlinking. -/

theorem semu_unlink (u : UndoPool) (supptr : Option (Fin semmnu)) (i j : Fin semmnu) :
    (u.unlink supptr i).semu j = ⟨if supptr = some j then (u.semu i).next else (u.semu j).next,
      if j = i then none else (u.semu j).proc, (u.semu j).ents⟩ := by
  cases supptr with
  | none | some =>
    simp only [unlink, store, setNext, update_apply]
    split_ifs <;> simp_all

theorem view_unlink (supptr : Option (Fin semmnu)) (h : j ≠ i) : (u.unlink supptr i).view j = u.view j := by
  simp [view, semu_unlink, h]

variable {m r : List (Fin semmnu)} {g : List Undo → Except Errno (List Undo)}

theorem Links.deref_getLast (h : Links u (m ++ r)) : u.deref m.getLast? = r.head? := by
  have hfirst : ∀ l : List (Fin semmnu), (pointer _).first l = l.head? := by
    intro l
    cases l <;> rfl
  rcases eq_nil_or_concat' m with rfl | ⟨m, y, rfl⟩
  · exact h.chain.eq_first.trans (hfirst r)
  · rw [getLast?_concat]
    have hc := h.chain
    rw [append_assoc] at hc
    exact hc.next_eq

theorem Links.unlink (h : Links u (m ++ i :: r)) : Links (u.unlink m.getLast? i) (m ++ r) := by
  have hnodup := h.chain.nodup
  have hout : i ∉ m ++ r := (nodup_middle.mp hnodup).notMem
  refine ⟨?_, fun j => ?_⟩
  · rcases eq_nil_or_concat' m with rfl | ⟨m, y, rfl⟩
    · exact h.chain.2.congr fun j _ => by simp [semu_unlink]
    · have hc := h.chain
      rw [append_assoc] at hc
      rw [getLast?_concat, append_assoc]
      exact hc.unlink.congr fun j _ => by simp [semu_unlink, update_apply, eq_comm]
  · rw [semu_unlink]
    by_cases hj : j = i
    · subst hj
      simp [hout]
    · rw [if_neg hj, ← h.used j]
      simp [hj]

theorem purge_succ {supptr : Option (Fin semmnu)} (h : u.deref supptr = some i)
    (fuel : Nat) (did : Bool) : purge (fuel + 1) u supptr did =
      if (u.view i).empty then purge fuel (u.unlink supptr i) supptr true else purge fuel u (some i) did := by
  rw [purge, h]
  rfl

theorem purge_eq (h : Links u (m ++ r)) (hfuel : r.length < fuel) (did : Bool) :
    ∃ u', purge fuel u m.getLast? did = .ok (u', did || r.any fun i => (u.view i).empty) ∧
      Links u' (m ++ r.filter fun i => !(u.view i).empty) ∧
      ∀ i ∈ m ++ r.filter fun i => !(u.view i).empty, u'.view i = u.view i := by
  induction r generalizing u m fuel did with
  | nil =>
    obtain ⟨fuel, rfl⟩ := Nat.exists_eq_add_one.mpr hfuel
    refine ⟨u, ?_, h, fun i _ => rfl⟩
    rw [purge, h.deref_getLast]
    simp
  | cons i r ih =>
    obtain ⟨fuel, rfl⟩ := Nat.exists_eq_add_one.mpr (pos_of_gt hfuel)
    have hfuel' : r.length < fuel := Nat.lt_of_succ_lt_succ hfuel
    rw [purge_succ h.deref_getLast, any_cons, filter_cons]
    cases hempty : (u.view i).empty with
    | true =>
      have hout : i ∉ m ++ r := (nodup_middle.mp h.chain.nodup).notMem
      have hview : ∀ j ∈ m ++ r, (u.unlink m.getLast? i).view j = u.view j := by
        intro j hj
        refine view_unlink _ ?_
        rintro rfl
        exact hout hj
      have hfilter : (r.filter fun j => !((u.unlink m.getLast? i).view j).empty) =
          r.filter fun j => !(u.view j).empty :=
        filter_congr fun j hj => by rw [hview j (mem_append_right _ hj)]
      obtain ⟨u', hrun, hl, hv⟩ := ih h.unlink hfuel' true
      rw [hfilter] at hl hv
      refine ⟨u', by simpa using hrun, by simpa using hl, fun j hj => ?_⟩
      have hj' : j ∈ m ++ r.filter fun j => !(u.view j).empty := by simpa using hj
      have hmem : j ∈ m ++ r := by
        rcases mem_append.mp hj' with hm | hr
        · exact mem_append_left _ hm
        · exact mem_append_right _ (mem_of_mem_filter hr)
      exact (hv j hj').trans (hview j hmem)
    | false =>
      rw [append_cons] at h
      obtain ⟨u', hrun, hl, hv⟩ := ih h hfuel' did
      exact ⟨u', by simpa using hrun, by simpa using hl, by simpa using hv⟩

/-- **`semu_alloc` on the pool**: the second attempt does not fail. -/
theorem Links.semuAlloc (h : Links u l) (p : Task) :
    (Ipc.semuAlloc (l.map u.view) p = none ∧
        ∃ u', u.semuAlloc p = .ok (u', none) ∧ Links u' l ∧ l.map u'.view = l.map u.view) ∨
      ∃ u' l' i, Ipc.semuAlloc (l.map u.view) p = some ((i :: l').map u'.view) ∧
        u.semuAlloc p = .ok (u', some i) ∧ Links u' (i :: l') ∧
        u'.semu i = ⟨u'.deref (some i), some p, []⟩ := by
  have htake : ∀ (u : UndoPool) (i : Fin semmnu),
      (u.take i p).semu i = ⟨(u.take i p).deref (some i), some p, []⟩ := by
    intro u i
    simp [UndoPool.take, deref]
  cases hfree : u.findFree with
  | some i =>
    have hroom : ¬ semmnu ≤ l.length := by
      rw [← h.findFree_none_iff, hfree]
      exact Option.some_ne_none i
    obtain ⟨hl, hv⟩ := h.take (findFree_some hfree) p
    refine .inr ⟨u.take i p, l, i, ?_, by rw [UndoPool.semuAlloc, hfree], hl, htake u i⟩
    rw [hv, Ipc.semuAlloc, if_pos (by simpa using hroom)]
  | none =>
    have hfull : semmnu ≤ l.length := h.findFree_none_iff.mp hfree
    obtain ⟨u', hrun, hl, hv⟩ := purge_eq (m := []) h h.lt_rounds false
    rw [nil_append] at hl hv
    have hany : (l.map u.view).any SemUndo.empty = l.any fun i => (u.view i).empty := any_map
    have hsame := map_congr_left hv
    cases hdid : l.any fun i => (u.view i).empty with
    | false =>
      have hfilter : (l.filter fun i => !(u.view i).empty) = l := by
        rw [filter_eq_self]
        intro i hi
        have hi' := any_eq_false.mp hdid i hi
        simpa using hi'
      rw [hfilter] at hl hsame
      refine .inl ⟨?_, u', ?_, hl, hsame⟩
      · rw [Ipc.semuAlloc, if_neg (by simpa using hfull), hany, hdid]
        rfl
      · rw [UndoPool.semuAlloc, hfree]
        simp only [getLast?_nil] at hrun
        rw [hdid, Bool.false_or] at hrun
        simp only [hrun]
    | true =>
      -- something was unlinked, so there is a free one now
      have hlt : (l.filter fun i => !(u.view i).empty).length < l.length := by
        obtain ⟨i, hi, hempty⟩ := any_eq_true.mp hdid
        exact length_filter_lt_length_iff_exists.mpr ⟨i, hi, by simp [hempty]⟩
      have hne : u'.findFree ≠ none := by
        rw [Ne, hl.findFree_none_iff]
        have hle := h.length_le
        omega
      obtain ⟨i, hfree'⟩ := Option.ne_none_iff_exists'.mp hne
      obtain ⟨hl', hv'⟩ := hl.take (findFree_some hfree') p
      refine .inr ⟨u'.take i p, _, i, ?_, ?_, hl', htake u' i⟩
      · rw [hv', hsame, Ipc.semuAlloc, if_neg (by simpa using hfull), hany, hdid, filter_map]
        rfl
      · rw [UndoPool.semuAlloc, hfree]
        simp only [getLast?_nil] at hrun
        rw [hdid, Bool.false_or] at hrun
        simp only [hrun, hfree']

/-! ## Adjusting -/

theorem Links.proc_ne (h : Links u l) (hm : m ⊆ l) (hp : ∀ j ∈ m, (u.semu j).proc ≠ some p) :
    ∀ su ∈ m.map u.view, su.proc ≠ p := by
  intro su hsu
  obtain ⟨j, hj, rfl⟩ := mem_map.mp hsu
  exact fun hproc => hp j hj ((view_proc h (hm hj)).mp hproc)

theorem adjustFirst_view (h : Links u (m ++ i :: r)) (hm : ∀ j ∈ m, (u.semu j).proc ≠ some p)
    (hi : (u.semu i).proc = some p) :
    adjustFirst p g ((m ++ i :: r).map u.view) =
      some ((g (u.semu i).ents).map fun ents => (m ++ i :: r).map (u.setEnts i ents).view) := by
  have hproc : (u.view i).proc = p := (view_proc h (by simp)).mpr hi
  simp only [map_view_setEnts h.chain.nodup]
  rw [map_append, map_cons, adjustFirst_append (h.proc_ne (subset_append_left ..) hm) hproc]
  rfl

/-- No process has two structures. -/
def Single (u : UndoPool) : Prop :=
  ∀ i j p, (u.semu i).proc = some p → (u.semu j).proc = some p → i = j

/-- The pointer that `semop` keeps is NULL, or to the structure of the process. -/
def Cached (u : UndoPool) (p : Task) (suptr : Option (Fin semmnu)) : Prop :=
  ∀ i, suptr = some i → (u.semu i).proc = some p

theorem cached_none (u : UndoPool) (p : Task) : Cached u p none := fun _ hi => nomatch hi

/-- The function on the pool does what the function on the list does. -/
def Adjusts (p : Task) (undos : List SemUndo) (r : Except Errno (List SemUndo))
    (r' : Except PoolAbort (UndoPool × Option (Fin semmnu) × Option Errno)) : Prop :=
  ∃ u' suptr', Cached u' p suptr' ∧
    match r with
    | .ok undos' => r' = .ok (u', suptr', none) ∧ Lists u' undos'
    | .error e => r' = .ok (u', suptr', some e) ∧ Lists u' undos

variable {semid semnum : Nat} {v : BitVec 16} {suptr : Option (Fin semmnu)} {undos undos' : List SemUndo}
  {ix : Nat} {applied : List SemBuf}

theorem Links.adjust_own (h : Links u l) (hs : Single u) (hi : (u.semu i).proc = some p) :
    Adjusts p (l.map u.view) (Ipc.semundoAdjust (l.map u.view) p semid semnum v)
      (.ok (u.adjust i semid semnum v)) := by
  have hmem : i ∈ l := (h.used i).mpr (by rw [hi]; exact Option.some_ne_none p)
  obtain ⟨m, r, rfl⟩ := append_of_mem hmem
  have hm : ∀ j ∈ m, (u.semu j).proc ≠ some p := by
    intro j hj hp
    obtain rfl := hs i j p hi hp
    exact (nodup_middle.mp h.chain.nodup).notMem (mem_append_left _ hj)
  unfold Ipc.semundoAdjust UndoPool.adjust
  rw [adjustFirst_view h hm hi]
  cases adjustEnts (u.semu i).ents semid semnum v with
  | ok ents =>
    refine ⟨u.setEnts i ents, some i, ?_, rfl, _, h.setEnts i ents, rfl⟩
    rintro j ⟨⟩
    rw [(semu_setEnts u i ents i).2, hi]
  | error =>
    refine ⟨u, some i, ?_, rfl, _, h, rfl⟩
    rintro j ⟨⟩
    exact hi

theorem Links.adjust_new (h : Links u (i :: l)) (hi : (u.semu i).proc = some p)
    (hents : (u.semu i).ents = []) (hv : v ≠ 0) (undos : List SemUndo) :
    Adjusts p undos (.ok (((i :: l).map u.view).modifyHead fun su => ⟨su.proc, [⟨v, semnum, semid⟩]⟩))
      (.ok (u.adjust i semid semnum v)) := by
  have hadj : adjustEnts [] semid semnum v = .ok [⟨v, semnum, semid⟩] := by
    simp only [adjustEnts, findIdx?_nil]
    rw [if_neg hv]
    rfl
  rw [UndoPool.adjust, hents, hadj]
  refine ⟨_, some i, ?_, rfl, _, h.setEnts i _, ?_⟩
  · rintro j ⟨⟩
    rw [(semu_setEnts u i _ i).2, hi]
  · exact map_view_setEnts (m := []) h.chain.nodup _

/-- **`semundo_adjust` on the pool** does what it does on the list. -/
theorem Links.semundoAdjust (h : Links u l) (semid semnum : Nat) (v : BitVec 16) (hs : Single u)
    (hc : Cached u p suptr) :
    Adjusts p (l.map u.view) (Ipc.semundoAdjust (l.map u.view) p semid semnum v)
      (u.semundoAdjust p suptr semid semnum v) := by
  cases suptr with
  | some i => exact h.adjust_own hs (hc i rfl)
  | none =>
    unfold UndoPool.semundoAdjust
    rw [findProc_eq h.chain h.lt_rounds]
    cases hfind : l.find? (fun i => (u.semu i).proc = some p) with
    | some => exact h.adjust_own hs (by simpa using find?_some hfind)
    | none =>
      have hnone : ∀ j ∈ l, (u.semu j).proc ≠ some p := by
        intro j hj
        simpa using find?_eq_none.mp hfind j hj
      unfold Ipc.semundoAdjust
      rw [adjustFirst_none (h.proc_ne (Subset.refl l) hnone)]
      by_cases hv : v = 0
      · rw [if_pos hv, if_pos hv]
        exact ⟨u, none, cached_none u p, rfl, _, h, rfl⟩
      · rw [if_neg hv, if_neg hv]
        rcases h.semuAlloc p with ⟨hlist, u', hpool, hl, hview⟩ | ⟨u', l', i, hlist, hpool, hl, hi⟩
        · rw [hlist, hpool]
          exact ⟨u', none, cached_none u' p, rfl, _, hl, hview⟩
        · rw [hlist, hpool]
          exact hl.adjust_new (by rw [hi]) (by rw [hi]) hv _

theorem structsOf_map (u : UndoPool) (l : List (Fin semmnu)) (q : Task) :
    structsOf (l.map u.view) q = (l.filter fun i => (u.view i).proc == q).map u.view :=
  filter_map

theorem Links.mem_own (h : Links u l) (q : Task) (i : Fin semmnu) :
    i ∈ (l.filter fun i => (u.view i).proc == q) ↔ (u.semu i).proc = some q := by
  rw [mem_filter, beq_iff_eq]
  constructor
  · rintro ⟨hi, hp⟩
    exact (view_proc h hi).mp hp
  · intro hp
    have hi : i ∈ l := (h.used i).mpr (by rw [hp]; exact Option.some_ne_none q)
    exact ⟨hi, (view_proc h hi).mpr hp⟩

theorem Links.structsOf_view (h : Links u l) (hs : Single u) (q : Task) :
    (structsOf (l.map u.view) q = [] ∧ ∀ i, (u.semu i).proc ≠ some q) ∨
      ∃ i, (u.semu i).proc = some q ∧ structsOf (l.map u.view) q = [u.view i] := by
  have hmem := h.mem_own q
  have hnodup := h.chain.nodup.filter fun i => (u.view i).proc == q
  rw [structsOf_map]
  cases hl : l.filter fun i => (u.view i).proc == q with
  | nil =>
    rw [hl] at hmem
    exact .inl ⟨rfl, fun i hi => absurd ((hmem i).mpr hi) not_mem_nil⟩
  | cons i rest =>
    rw [hl] at hmem hnodup
    have hi := (hmem i).mp (mem_cons_self ..)
    have hrest : rest = [] := by
      rw [eq_nil_iff_forall_not_mem]
      intro j hj
      obtain rfl := hs i j q hi ((hmem j).mp (mem_cons_of_mem _ hj))
      exact (nodup_cons.mp hnodup).1 hj
    subst hrest
    exact .inr ⟨i, hi, rfl⟩

theorem Links.single (h : Links u l) (hk : UndosKept (l.map u.view)) : Single u := by
  intro i j q hi hj
  have hlen := (hk q).single
  rw [structsOf_map] at hlen
  have hi' := (h.mem_own q i).mpr hi
  have hj' := (h.mem_own q j).mpr hj
  rcases hl : l.filter fun i => (u.view i).proc == q with _ | ⟨a, _ | ⟨b, rest⟩⟩
  · rw [hl] at hi'
    exact absurd hi' not_mem_nil
  · rw [hl] at hi' hj'
    exact (mem_singleton.mp hi').trans (mem_singleton.mp hj').symm
  · rw [hl] at hlen
    simp at hlen

/-! The loops over the undo requests. -/

theorem undoBack_eq (hl : Lists u undos) (hk : UndosKept undos)
    (hc : Cached u p suptr) (hops : ∀ sop ∈ applied, sop.op ≠ 0)
    (hrun : Ipc.undoBack p ix applied undos = some undos') :
    ∃ u', undoBack p ix applied u suptr = .ok u' ∧ Lists u' undos' := by
  induction applied generalizing u undos suptr with
  | nil =>
    cases hrun
    exact ⟨u, rfl, hl⟩
  | cons sop applied ih =>
    obtain ⟨l, hlinks, rfl⟩ := hl
    obtain ⟨hop, hrest⟩ := forall_mem_cons.mp hops
    obtain ⟨u1, suptr1, hc1, hadj⟩ :=
      hlinks.semundoAdjust ix sop.num sop.op (hlinks.single hk) hc
    rw [Ipc.undoBack] at hrun
    cases hlist : Ipc.semundoAdjust (l.map u.view) p ix sop.num sop.op with
    | error =>
      rw [hlist] at hrun
      cases hrun
    | ok =>
      rw [hlist] at hrun hadj
      obtain ⟨hpool, hl1⟩ := hadj
      rw [undoBack, hpool]
      exact ih hl1 (semundoAdjust_kept hk hop hlist) hc1 hrest hrun

/-- What becomes of the pool is what becomes of the list. -/
def Matched (e : UndoEnd) (r : Except PoolAbort (UndoPool × Option Errno)) : Prop :=
  match e with
  | .ok undos => ∃ u, r = .ok (u, none) ∧ Lists u undos
  | .fail e undos => ∃ u, r = .ok (u, some e) ∧ Lists u undos
  | .panic => True

theorem undoWalk_matched {sops : List SemBuf} (hl : Lists u undos) (hk : UndosKept undos)
    (hc : Cached u p suptr) (hops : ∀ sop ∈ applied, sop.op ≠ 0) :
    Matched (Ipc.undoWalk p ix sops applied undos) (undoWalk p ix sops applied u suptr) := by
  induction sops generalizing u undos suptr applied with
  | nil => exact ⟨u, rfl, hl⟩
  | cons sop sops ih =>
    rw [Ipc.undoWalk, undoWalk]
    cases hund : sop.undone with
    | false => exact ih hl hk hc hops
    | true =>
      obtain ⟨l, hlinks, rfl⟩ := hl
      have hop := op_ne_zero_of_undone hund
      have hneg : -sop.op ≠ 0 := fun h0 => hop (BitVec.neg_eq_zero_iff.mp h0)
      obtain ⟨u1, suptr1, hc1, hadj⟩ :=
        hlinks.semundoAdjust ix sop.num (-sop.op) (hlinks.single hk) hc
      cases hlist : Ipc.semundoAdjust (l.map u.view) p ix sop.num (-sop.op) with
      | ok =>
        rw [hlist] at hadj
        obtain ⟨hpool, hl1⟩ := hadj
        rw [hpool]
        exact ih hl1 (semundoAdjust_kept hk hneg hlist) hc1 (forall_mem_cons.mpr ⟨hop, hops⟩)
      | error =>
        rw [hlist] at hadj
        obtain ⟨hpool, hl1⟩ := hadj
        rw [hpool]
        cases hback : Ipc.undoBack p ix applied (l.map u.view) with
        | none => exact trivial
        | some =>
          obtain ⟨u', hpool', hl'⟩ := undoBack_eq hl1 hk hc1 hops hback
          simp only [if_true]
          rw [hpool']
          exact ⟨u', rfl, hl'⟩

/-! ## Clearing -/

theorem semundoClear_eq (semid : Nat) (semnum : Option Nat)
    (hc : (pointer _).Chain (fun i => (u.semu i).next) h l) (hfuel : l.length < fuel) :
    ∃ u', semundoClear semid semnum fuel u h = .ok u' ∧ u'.semuList = u.semuList ∧
      (∀ i, (u'.semu i).next = (u.semu i).next ∧ (u'.semu i).proc = (u.semu i).proc) ∧
      (∀ i ∈ l, u'.view i =
        ⟨(u.view i).proc, clearEnts semid semnum (u.view i).ents.length 0 (u.view i).ents⟩) ∧
      ∀ i, i ∉ l → u'.view i = u.view i := by
  induction l generalizing u h fuel with
  | nil =>
    obtain ⟨fuel, rfl⟩ := Nat.exists_eq_add_one.mpr hfuel
    obtain rfl : h = none := hc
    exact ⟨u, rfl, rfl, fun i => ⟨rfl, rfl⟩, forall_mem_nil _, fun i _ => rfl⟩
  | cons i l ih =>
    obtain ⟨fuel, rfl⟩ := Nat.exists_eq_add_one.mpr (pos_of_gt hfuel)
    have hil : i ∉ l := (nodup_cons.mp hc.nodup).1
    obtain ⟨rfl, hrest⟩ : h = some i ∧ _ := hc
    let ents := clearEnts semid semnum (u.semu i).ents.length 0 (u.semu i).ents
    obtain ⟨u', hrun, hlist, hsemu, hin, hout⟩ := ih
      (hrest.congr fun j _ => (semu_setEnts u i ents j).1) (Nat.lt_of_succ_lt_succ hfuel)
    refine ⟨u', hrun, hlist, fun j => ?_, ?_, fun j hj => ?_⟩
    · rw [(hsemu j).1, (hsemu j).2]
      exact semu_setEnts u i ents j
    · rw [forall_mem_cons]
      refine ⟨?_, fun j hj => ?_⟩
      · rw [hout i hil, view_setEnts_self]
        rfl
      · have hji : j ≠ i := by
          rintro rfl
          exact hil hj
        rw [hin j hj, view_setEnts_of_ne u hji]
    · rw [mem_cons, not_or] at hj
      rw [hout j hj.2, view_setEnts_of_ne u hj.1]

/-- **`semundo_clear` on the pool** does what it does on the list. -/
theorem Lists.semundoClear (hl : Lists u undos) (semid : Nat) (semnum : Option Nat) :
    ∃ u', UndoPool.semundoClear semid semnum rounds u u.semuList = .ok u' ∧
      Lists u' (Ipc.semundoClear undos semid semnum) := by
  obtain ⟨l, h, rfl⟩ := hl
  obtain ⟨u', hrun, hlist, hsemu, hin, -⟩ := semundoClear_eq semid semnum h.chain h.lt_rounds
  refine ⟨u', hrun, l, ⟨?_, fun i => ?_⟩, ?_⟩
  · rw [hlist]
    exact h.chain.congr fun i _ => (hsemu i).1
  · rw [(hsemu i).2, h.used i]
  · rw [map_congr_left hin, Ipc.semundoClear, map_map]
    rfl

/-! ## Taking the structure of a process out -/

theorem findLink_eq (h : Links u (m ++ r)) (hm : ∀ j ∈ m, (u.semu j).proc ≠ some p)
    (hfuel : r.length < fuel) :
    ((∀ j ∈ m ++ r, (u.semu j).proc ≠ some p) ∧ u.findLink p fuel m.getLast? = .ok (m ++ r).getLast?) ∨
      ∃ m' i r', m ++ r = m' ++ i :: r' ∧ (∀ j ∈ m', (u.semu j).proc ≠ some p) ∧
        (u.semu i).proc = some p ∧ u.findLink p fuel m.getLast? = .ok m'.getLast? := by
  induction r generalizing m fuel with
  | nil =>
    obtain ⟨fuel, rfl⟩ := Nat.exists_eq_add_one.mpr hfuel
    refine .inl ⟨by simpa using hm, ?_⟩
    rw [findLink, h.deref_getLast, append_nil]
    rfl
  | cons i r ih =>
    obtain ⟨fuel, rfl⟩ := Nat.exists_eq_add_one.mpr (pos_of_gt hfuel)
    have hsucc : u.findLink p (fuel + 1) m.getLast? =
        if (u.semu i).proc = some p then .ok m.getLast? else u.findLink p fuel (some i) := by
      rw [findLink, h.deref_getLast]
      rfl
    by_cases hp : (u.semu i).proc = some p
    · exact .inr ⟨m, i, r, rfl, hm, hp, by rw [hsucc, if_pos hp]⟩
    · have hm' : ∀ j ∈ m ++ [i], (u.semu j).proc ≠ some p := by
        rw [forall_mem_append, forall_mem_singleton]
        exact ⟨hm, hp⟩
      rw [hsucc, if_neg hp, append_cons]
      rw [append_cons] at h
      have hrec := ih h hm' (Nat.lt_of_succ_lt_succ hfuel)
      rwa [getLast?_concat] at hrec

theorem Links.findLink_cases (h : Links u l) (p : Task) :
    (∃ supptr, u.findLink p rounds none = .ok supptr ∧ u.deref supptr = none ∧
      (l.map u.view).find? (fun su => su.proc == p) = none) ∨
    ∃ supptr i, u.findLink p rounds none = .ok supptr ∧ u.deref supptr = some i ∧
      (l.map u.view).find? (fun su => su.proc == p) = some (u.view i) ∧
      (u.unlink supptr i).Lists ((l.map u.view).eraseP (fun su => su.proc == p)) := by
  have hfind := findLink_eq (m := []) (p := p) h (forall_mem_nil _) h.lt_rounds
  rcases hfind with ⟨hnone, hlink⟩ | ⟨m, i, r, rfl, hm, hi, hlink⟩
  · have hend : u.deref l.getLast? = none := Links.deref_getLast (r := []) (by rwa [append_nil])
    refine .inl ⟨l.getLast?, hlink, hend, ?_⟩
    simpa using h.proc_ne (Subset.refl l) hnone
  · have hproc : (u.view i).proc = p := (view_proc h (by simp)).mpr hi
    have hother : ∀ su ∈ m.map u.view, ¬ (su.proc == p) := by
      simpa using h.proc_ne (subset_append_left ..) hm
    have hmap : (m ++ i :: r).map u.view = m.map u.view ++ u.view i :: r.map u.view := by
      rw [map_append, map_cons]
    refine .inr ⟨m.getLast?, i, hlink, h.deref_getLast, ?_, m ++ r, h.unlink, ?_⟩
    · rw [hmap, find?_append, find?_eq_none.mpr hother]
      simp [hproc]
    · rw [hmap, eraseP_append_right _ hother, eraseP_cons_of_pos (by simp [hproc]),
        ← map_append]
      refine map_congr_left fun j hj => view_unlink _ ?_
      rintro rfl
      exact (nodup_middle.mp h.chain.nodup).notMem hj

end UndoPool

end Ixemul.Ipc
