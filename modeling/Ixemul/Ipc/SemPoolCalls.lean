/-
# Ixemul.Ipc.SemPoolCalls — the semaphore calls on the pool of undo structures (sysv_sem.c).

The calls with the pool in place of the list of structures.  Each does to the tables and to the list that
the pool stands for what the call on lists does (`Refines`), and comes to its end where that one does.  What
remains is the check of `semop` and `semctl`: it compares the index in the identifier with SEMMSL, although
`sema` has SEMMNI entries.
-/
import Ixemul.Ipc.SemPool
import Ixemul.Ipc.SemNamed
import Ixemul.Ipc.SemReport

namespace Ixemul.Ipc

/-! ## The calls -/

/-- The semaphore tables, with the pool. -/
structure PoolState where
  sema : Fin semmni → SemidDs
  sem : Nat → Sem
  semtot : Nat
  pool : UndoPool

namespace PoolState

/-- The tables with a list of undo structures in place of the pool. -/
def withUndos (x : PoolState) (undos : List SemUndo) : SemState := ⟨x.sema, x.sem, x.semtot, undos⟩

/-- The tables without the undo structures. -/
def tables (x : PoolState) : SemState := x.withUndos []

/-- `ix_semget`, which does not look at the pool. -/
def semget (x : PoolState) (cred : Ucred) (key nsems : Int) (flg : GetFlg) : PoolState × Ret :=
  let (s, r) := Ipc.semget x.tables cred key nsems flg
  (⟨s.sema, s.sem, s.semtot, x.pool⟩, r)

/-- With what `ix_semctl` calls `semundo_clear`, if it does. -/
def clears (s : SemState) (id : Id) (semnum : Int) (cmd : SemCmd) : Option (Nat × Option Nat) :=
  match semCheck s id, cmd with
  | .accept ix, .ipcRmid => some (ix, none)
  | .accept ix, .setall _ => some (ix, none)
  | .accept ix, .setval _ =>
    if semnum < 0 ∨ semnum ≥ (s.sema ix).nsems then none else some (ix, some semnum.toNat)
  | _, _ => none

/-- `ix_semctl`: to the tables as before, to the pool by `semundo_clear`. -/
def semctl (x : PoolState) (cred : Ucred) (id : Id) (semnum : Int) (cmd : SemCmd) :
    Except PoolAbort (PoolState × Ret × SemReply) :=
  match Ipc.semctl x.tables cred id semnum cmd with
  | (_, .outOfRange) => .error .outOfRange
  | (s, .ret r reply) =>
    match clears x.tables id semnum cmd with
    | none => .ok (⟨s.sema, s.sem, s.semtot, x.pool⟩, r, reply)
    | some (semid, semnum) =>
      (UndoPool.semundoClear semid semnum UndoPool.rounds x.pool x.pool.semuList).map
        (fun pool => (⟨s.sema, s.sem, s.semtot, pool⟩, r, reply))

/-- What follows the label `done` in `ix_semop`; the pointer to the structure is NULL there. -/
def semopDone (x : PoolState) (p : Task) (ix : Fin semmni) (sops : List SemBuf) (w : Walk) :
    Except PoolAbort (PoolState × SemOutcome) :=
  let ds := x.sema ix
  match (if w.doUndos then UndoPool.undoWalk p ix sops [] x.pool none else .ok (x.pool, none)) with
  | .error a => .error a
  | .ok (pool, none) => .ok ({ x with sem := setSempid ds p w.sem sops, pool }, .ret (plainReturn 0))
  | .ok (pool, some e) => .ok ({ x with sem := rollback ds w.sem sops, pool }, .ret (semFail e))

/-- One round of the loop in `ix_semop`. -/
def semopRound (x : PoolState) (p : Task) (ix : Fin semmni) (sops : List SemBuf) (doUndos : Bool) :
    Except PoolAbort (PoolState × SemOutcome) :=
  let ds := x.sema ix
  match walk ds sops ⟨x.sem, [], false, doUndos⟩ with
  | (w, .done) => x.semopDone p ix sops w
  | (w, .range) => .ok ({ x with sem := w.sem }, .ret (semFail .efbig))
  | (w, .block sop) =>
    let sem := rollback ds w.sem w.performed
    if sop.nowait then .ok ({ x with sem }, .ret (semFail .eagain))
    else
      let j := ds.base + sop.num
      .ok ({ x with sem := countWaiter sem j sop 1 }, .sleep ⟨p, ix, sops, sop, j, w.doUndos⟩)

/-- `ix_semop`, up to its return or its first sleep. -/
def semop (x : PoolState) (p : Task) (id : Id) (sops : List SemBuf) :
    Except PoolAbort (PoolState × SemOutcome) :=
  match semCheck x.tables id with
  | .outOfRange => .error .outOfRange
  | .reject e => .ok (x, .ret (semFail e))
  | .accept ix =>
    if sops.length > maxSops then .ok (x, .ret (semFail .e2big))
    else x.semopRound p ix sops false

/-- `ix_semop` after a sleep. -/
def semopResume (x : PoolState) (w : SemWaiting) (interrupted : Bool) :
    Except PoolAbort (PoolState × SemOutcome) :=
  let ds := x.sema w.ix
  if interrupted then .ok (x, .ret (semFail .eintr))
  else if ds.alloc = false ∨ ds.perm.seq ≠ ipcidToSeq (ipcidToIx (BitVec.ofNat 32 w.ix)) then
    .ok (x, .ret (semFail .einval))
  else
    { x with sem := countWaiter x.sem w.semptr w.sop (-1) }.semopRound w.proc w.ix w.sops w.doUndos

/-- `semexit`, up to its return or its sleep; `holder` is `semlock_holder`. -/
def semexit (x : PoolState) (holder : Option Task) (p : Task) : Except PoolAbort (PoolState × ExitOutcome) :=
  match x.pool.findLink p UndoPool.rounds none with
  | .error a => .error a
  | .ok supptr =>
    match x.pool.deref supptr with
    | none => .ok (x, .done)
    | some i =>
      if holder ≠ none ∧ holder ≠ some p then .ok (x, .sleep)
      else
        match applyUndos x.tables (x.pool.semu i).ents with
        | .error a => .error (.semexit a)
        | .ok s => .ok ({ x with sem := s.sem, pool := x.pool.unlink supptr i }, .done)

/-! ## The calls on the pool and on the list -/

variable {x : PoolState} {undos : List SemUndo}

/-- A call on the pool ends as the call on the list, and leaves the same tables and structures. -/
def Refines {α : Type} (r : Except PoolAbort (PoolState × α)) (r' : SemState × α) : Prop :=
  ∃ x' undos', r = .ok (x', r'.2) ∧ r'.1 = x'.withUndos undos' ∧ x'.pool.Lists undos'

theorem semopRound_refines (p : Task) (ix : Fin semmni) (sops : List SemBuf) (doUndos : Bool)
    (hl : x.pool.Lists undos) (hk : UndosKept undos) :
    Refines (x.semopRound p ix sops doUndos) (Ipc.semopRound (x.withUndos undos) p ix sops doUndos) := by
  unfold PoolState.semopRound Ipc.semopRound
  dsimp only [withUndos]
  generalize walk (x.sema ix) sops ⟨x.sem, [], false, doUndos⟩ = stopped
  obtain ⟨w, stop⟩ := stopped
  cases stop with
  | range => exact ⟨_, undos, rfl, rfl, hl⟩
  | block =>
    dsimp only
    split_ifs
    · exact ⟨_, undos, rfl, rfl, hl⟩
    · exact ⟨_, undos, rfl, rfl, hl⟩
  | done =>
    unfold PoolState.semopDone Ipc.semopDone
    dsimp only
    cases w.doUndos with
    | false => exact ⟨_, undos, rfl, rfl, hl⟩
    | true =>
      have hmatch : UndoPool.Matched (Ipc.undoWalk p ix sops [] undos)
          (UndoPool.undoWalk p ix sops [] x.pool none) :=
        UndoPool.undoWalk_matched hl hk (UndoPool.cached_none x.pool p) (List.forall_mem_nil _)
      -- the list does not panic, so the pool does not
      cases hrun : Ipc.undoWalk p ix sops [] undos with
      | panic => exact absurd hrun (undoWalk_ne_panic ix sops (hk p))
      | ok undos' | fail e undos' =>
        rw [hrun] at hmatch
        obtain ⟨u, hpool, hl'⟩ := hmatch
        rw [hpool]
        exact ⟨_, undos', rfl, rfl, hl'⟩

theorem semCheck_withUndos (x : PoolState) (undos : List SemUndo) (id : Id) :
    semCheck (x.withUndos undos) id = semCheck x.tables id := rfl

theorem semop_refines (p : Task) (id : Id) (sops : List SemBuf) (hl : x.pool.Lists undos)
    (hk : UndosKept undos) (hin : semCheck x.tables id ≠ .outOfRange) :
    Refines (x.semop p id sops) (Ipc.semop (x.withUndos undos) p id sops) := by
  unfold PoolState.semop Ipc.semop
  rw [semCheck_withUndos]
  cases hcheck : semCheck x.tables id with
  | outOfRange => exact absurd hcheck hin
  | reject => exact ⟨x, undos, rfl, rfl, hl⟩
  | accept ix =>
    split_ifs
    · exact ⟨x, undos, rfl, rfl, hl⟩
    · exact semopRound_refines p ix sops false hl hk

theorem semopResume_refines (w : SemWaiting) (interrupted : Bool) (hl : x.pool.Lists undos)
    (hk : UndosKept undos) :
    Refines (x.semopResume w interrupted) (Ipc.semopResume (x.withUndos undos) w interrupted) := by
  unfold PoolState.semopResume Ipc.semopResume
  dsimp only [withUndos]
  split_ifs
  · exact ⟨x, undos, rfl, rfl, hl⟩
  · exact ⟨x, undos, rfl, rfl, hl⟩
  · exact semopRound_refines w.proc w.ix w.sops w.doUndos hl hk

theorem semctl_withUndos (s : SemState) (undos : List SemUndo) (cred : Ucred) (id : Id) (semnum : Int)
    (cmd : SemCmd) : Ipc.semctl { s with undos } cred id semnum cmd =
      ({ (Ipc.semctl s cred id semnum cmd).1 with
          undos := match clears s id semnum cmd with
            | none => undos
            | some (semid, semnum) => Ipc.semundoClear undos semid semnum },
        (Ipc.semctl s cred id semnum cmd).2) := by
  have hcheck : semCheck { s with undos } id = semCheck s id := rfl
  unfold Ipc.semctl clears
  rw [hcheck]
  cases semCheck s id with
  | outOfRange | reject => rfl
  | accept ix =>
    have hfield : ∀ field, semField { s with undos } (s.sema ix) semnum field =
        ({ (semField s (s.sema ix) semnum field).1 with undos },
          (semField s (s.sema ix) semnum field).2) := by
      intro field
      unfold semField
      split_ifs <;> rfl
    cases cmd with
    | getncnt | getpid | getval | getzcnt => exact hfield _
    | setval =>
      dsimp only
      split_ifs <;> rfl
    | _ => rfl

theorem semctl_ne_outOfRange {s : SemState} {id : Id} (h : semCheck s id ≠ .outOfRange) (cred : Ucred)
    (semnum : Int) (cmd : SemCmd) : (Ipc.semctl s cred id semnum cmd).2 ≠ .outOfRange := by
  have hfield : ∀ ds field, (semField s ds semnum field).2 ≠ .outOfRange := by
    intro ds field
    unfold semField
    split_ifs <;> exact nofun
  fun_cases Ipc.semctl s cred id semnum cmd with
  | case1 =>
    rename_i hcheck
    exact absurd hcheck h
  | case6 | case7 | case8 | case9 => exact hfield _ _
  | _ => exact nofun

theorem semctl_refines (cred : Ucred) (id : Id) (semnum : Int) (cmd : SemCmd) (hl : x.pool.Lists undos)
    (hin : semCheck x.tables id ≠ .outOfRange) :
    ∃ r, Refines (x.semctl cred id semnum cmd)
      ((Ipc.semctl (x.withUndos undos) cred id semnum cmd).1, r) := by
  have hlist := congrArg Prod.fst (semctl_withUndos x.tables undos cred id semnum cmd)
  have hout := semctl_ne_outOfRange hin cred semnum cmd
  unfold PoolState.semctl
  generalize Ipc.semctl x.tables cred id semnum cmd = stopped at hlist hout ⊢
  obtain ⟨s, out⟩ := stopped
  cases out with
  | outOfRange => exact absurd rfl hout
  | ret r reply =>
    cases hclear : clears x.tables id semnum cmd with
    | none =>
      rw [hclear] at hlist
      exact ⟨(r, reply), _, undos, rfl, hlist, hl⟩
    | some what =>
      obtain ⟨semid, num⟩ := what
      rw [hclear] at hlist
      obtain ⟨u', hrun, hl'⟩ := hl.semundoClear semid num
      dsimp only
      rw [hrun]
      exact ⟨(r, reply), _, _, rfl, hlist, hl'⟩

theorem semget_withUndos (s : SemState) (undos : List SemUndo) (cred : Ucred) (key nsems : Int)
    (flg : GetFlg) :
    Ipc.semget { s with undos } cred key nsems flg =
      ({ (Ipc.semget s cred key nsems flg).1 with undos }, (Ipc.semget s cred key nsems flg).2) := by
  unfold Ipc.semget
  have hfind : ∀ q, findSema { s with undos } q = findSema s q := fun q => rfl
  simp only [hfind]
  split
  · split_ifs <;> rfl
  · split_ifs
    · rfl
    · rfl
    · split <;> rfl
    · rfl

theorem semget_refines (x : PoolState) (undos : List SemUndo) (cred : Ucred) (key nsems : Int)
    (flg : GetFlg) :
    (Ipc.semget (x.withUndos undos) cred key nsems flg).1 = (x.semget cred key nsems flg).1.withUndos undos :=
  congrArg Prod.fst (semget_withUndos x.tables undos cred key nsems flg)

theorem applyUndos_withUndos (s : SemState) (undos : List SemUndo) (ents : List Undo) :
    applyUndos { s with undos } ents = (applyUndos s ents).map fun s' => { s' with undos } := by
  induction ents generalizing s with
  | nil => rfl
  | cons e ents ih =>
    have hone : applyUndo { s with undos } e = (applyUndo s e).map fun s' => { s' with undos } := by
      unfold applyUndo
      dsimp only
      split_ifs <;> rfl
    rw [applyUndos, applyUndos, hone]
    cases applyUndo s e with
    | error => rfl
    | ok s₁ => exact ih s₁

theorem semexit_refines {p : Task} {holder : Option Task} {s' : SemState} (hl : x.pool.Lists undos)
    (hholder : holder = none ∨ holder = some p) (hrun : exitUnlocked (x.withUndos undos) p = .ok s') :
    Refines (x.semexit holder p) (s', .done) := by
  obtain ⟨l, h, rfl⟩ := hl
  have hfree : ¬ (holder ≠ none ∧ holder ≠ some p) := by
    rintro ⟨hnone, hp⟩
    exact hholder.elim hnone hp
  unfold PoolState.semexit
  rcases h.findLink_cases p with ⟨supptr, hlink, hend, hnone⟩ | ⟨supptr, i, hlink, hderef, hsome, herase⟩
  · rcases exitUnlocked_ok hrun with ⟨-, rfl⟩ | ⟨su, s₁, hsome, -, -⟩
    · rw [hlink]
      dsimp only
      rw [hend]
      exact ⟨x, _, rfl, rfl, l, h, rfl⟩
    · cases hnone.symm.trans hsome
  · rcases exitUnlocked_ok hrun with ⟨hnone, -⟩ | ⟨su, s₁, hsu, happ, rfl⟩
    · cases hnone.symm.trans hsome
    · obtain rfl : x.pool.view i = su := Option.some.inj (hsome.symm.trans hsu)
      have hpool := (applyUndos_withUndos x.tables _ (x.pool.view i).ents).symm.trans happ
      cases htab : applyUndos x.tables (x.pool.view i).ents with
      | error =>
        rw [htab] at hpool
        cases hpool
      | ok s₂ =>
        rw [htab] at hpool
        obtain rfl := Except.ok.inj hpool
        have hsame := applyUndos_sameCounts htab
        rw [hlink]
        dsimp only
        rw [hderef]
        dsimp only
        rw [if_neg hfree, show applyUndos x.tables (x.pool.semu i).ents = .ok s₂ from htab]
        refine ⟨_, _, rfl, ?_, herase⟩
        show SemState.mk s₂.sema s₂.sem s₂.semtot _ = ⟨x.sema, s₂.sem, x.semtot, _⟩
        rw [hsame.sema, hsame.semtot]
        rfl

/-! ## Well-formed states -/

/-- The undo pool is well formed: `semu_list` links exactly the structures in use, no process has two of
them, and each vector has at most SEMUME entries, none of them zero, no semaphore twice, and each for a
semaphore of a set that is there. -/
structure WellFormed (x : PoolState) : Prop where
  linked : ∃ l, x.pool.Links l
  single : x.pool.Single
  room : ∀ i p, (x.pool.semu i).proc = some p → (x.pool.semu i).ents.length ≤ semume
  nonzero : ∀ i p, (x.pool.semu i).proc = some p → ∀ e ∈ (x.pool.semu i).ents, e.adjval ≠ 0
  keys : ∀ i p, (x.pool.semu i).proc = some p → ((x.pool.semu i).ents.map Undo.key).Nodup
  named : ∀ i p, (x.pool.semu i).proc = some p → ∀ e ∈ (x.pool.semu i).ents, x.tables.Names e.key

theorem WellFormed.lists (h : x.WellFormed) :
    ∃ undos, x.pool.Lists undos ∧ UndosKept undos ∧ Named (x.withUndos undos) := by
  obtain ⟨l, hl⟩ := h.linked
  refine ⟨_, ⟨l, hl, rfl⟩, fun q => ?_, fun su hsu => ?_⟩
  · rcases hl.structsOf_view h.single q with ⟨hnil, -⟩ | ⟨i, hi, hone⟩
    · have hents : entriesOf (l.map x.pool.view) q = [] := by rw [entriesOf, hnil]; rfl
      refine ⟨by rw [hnil]; exact Nat.zero_le _, ?_, ?_, ?_⟩
      · rw [hents]
        exact Nat.zero_le _
      · rw [hents]
        exact List.nodup_nil
      · rw [hents]
        exact List.forall_mem_nil _
    · have hents : entriesOf (l.map x.pool.view) q = (x.pool.semu i).ents := by
        rw [entriesOf, hone]
        simp [UndoPool.view]
      refine ⟨by rw [hone]; exact le_rfl, ?_, ?_, ?_⟩
      · rw [hents]
        exact h.room i q hi
      · rw [hents]
        exact h.keys i q hi
      · rw [hents]
        exact h.nonzero i q hi
  · obtain ⟨i, hi, rfl⟩ := List.mem_map.mp hsu
    obtain ⟨q, hq⟩ := Option.ne_none_iff_exists'.mp ((hl.used i).mp hi)
    exact h.named i q hq

theorem wellFormed_of_lists (hl : x.pool.Lists undos) (hk : UndosKept undos)
    (hn : Named (x.withUndos undos)) : x.WellFormed := by
  obtain ⟨l, h, rfl⟩ := hl
  have hs := h.single hk
  have hents : ∀ i q, (x.pool.semu i).proc = some q →
      entriesOf (l.map x.pool.view) q = (x.pool.semu i).ents := by
    intro i q hi
    rcases h.structsOf_view hs q with ⟨-, hnone⟩ | ⟨j, hj, hone⟩
    · exact absurd hi (hnone i)
    · obtain rfl := hs i j q hi hj
      rw [entriesOf, hone]
      simp [UndoPool.view]
  refine ⟨⟨l, h⟩, hs, fun i q hi => ?_, fun i q hi => ?_, fun i q hi => ?_, fun i q hi => ?_⟩
  · rw [← hents i q hi]
    exact (hk q).room
  · rw [← hents i q hi]
    exact (hk q).nonzero
  · rw [← hents i q hi]
    exact (hk q).keys
  · have hmem : i ∈ l := (h.used i).mpr (by rw [hi]; exact Option.some_ne_none q)
    exact hn _ (List.mem_map_of_mem hmem)

theorem Refines.wellFormed {α : Type} {r : Except PoolAbort (PoolState × α)} {r' : SemState × α}
    (h : Refines r r') (hk : UndosKept r'.1.undos) (hn : Named r'.1) :
    ∃ x', r.map Prod.fst = .ok x' ∧ x'.WellFormed := by
  obtain ⟨x', undos', rfl, hlist, hl'⟩ := h
  rw [hlist] at hk hn
  exact ⟨x', rfl, wellFormed_of_lists hl' hk hn⟩

end PoolState

/-! ## Every call -/

/-- A semaphore call, or the exit of a process while `holder` has the lock. -/
inductive PoolCall where
  | sys (c : SemCall)
  | exit (holder : Option Task) (p : Task)

/-- The state after a call, or after the part of it up to a sleep. -/
def PoolState.run (x : PoolState) : PoolCall → Except PoolAbort PoolState
  | .sys (.semget cred key nsems flg) => .ok (x.semget cred key nsems flg).1
  | .sys (.semctl cred id semnum cmd) => (x.semctl cred id semnum cmd).map Prod.fst
  | .sys (.semop p id sops) => (x.semop p id sops).map Prod.fst
  | .sys (.resume w interrupted) => (x.semopResume w interrupted).map Prod.fst
  | .exit holder p => (x.semexit holder p).map Prod.fst

/-- No other process holds the lock during `semexit`. -/
def PoolCall.Unlocked : PoolCall → Prop
  | .exit holder p => holder = none ∨ holder = some p
  | .sys _ => True

def PoolCall.Beyond : PoolCall → Prop
  | .sys (.semctl _ id _ _) => BeyondSema id
  | .sys (.semop _ id _) => BeyondSema id
  | _ => False

theorem semCheck_outOfRange_iff (s : SemState) (id : Id) : semCheck s id = .outOfRange ↔ BeyondSema id := by
  unfold semCheck BeyondSema
  dsimp only
  split_ifs with hrange hlt hbad
  · exact iff_of_false (nofun) (by omega)
  · exact iff_of_false (nofun) (by omega)
  · exact iff_of_false (nofun) (by omega)
  · exact iff_of_true rfl (by omega)

namespace PoolState

variable {x : PoolState}

/-- A call that does not leave the table comes to its end, in a well-formed state. -/
theorem WellFormed.run (h : x.WellFormed) {c : PoolCall} (hc : c.Unlocked) (hin : ¬ c.Beyond) :
    ∃ x', x.run c = .ok x' ∧ x'.WellFormed := by
  obtain ⟨undos, hl, hk, hn⟩ := h.lists
  cases c with
  | exit holder p =>
    obtain ⟨s', hrun, hk', hn'⟩ := exitUnlocked_named p hk hn
    exact (semexit_refines hl hc hrun).wellFormed hk' hn'
  | sys c =>
    cases c with
    | semget cred key nsems flg =>
      have hn' := semget_named cred key nsems flg hn
      rw [semget_refines] at hn'
      have hwell : (x.semget cred key nsems flg).1.WellFormed := wellFormed_of_lists hl hk hn'
      exact ⟨_, rfl, hwell⟩
    | semctl cred id semnum cmd =>
      have hcheck : semCheck x.tables id ≠ .outOfRange := fun h => hin ((semCheck_outOfRange_iff _ id).mp h)
      obtain ⟨r, hrefines⟩ := semctl_refines cred id semnum cmd hl hcheck
      exact hrefines.wellFormed (semctl_kept cred id semnum cmd hk) (semctl_named cred id semnum cmd hn)
    | semop p id sops =>
      have hcheck : semCheck x.tables id ≠ .outOfRange := fun h => hin ((semCheck_outOfRange_iff _ id).mp h)
      exact (semop_refines p id sops hl hk hcheck).wellFormed (semop_kept p id sops hk)
        (semop_named p id sops hn)
    | resume w interrupted =>
      exact (semopResume_refines w interrupted hl hk).wellFormed (semopResume_kept w interrupted hk)
        (semopResume_named w interrupted hn)

theorem run_beyond {c : PoolCall} (h : c.Beyond) : x.run c = .error .outOfRange := by
  cases c with
  | exit => exact h.elim
  | sys c =>
    cases c with
    | semctl cred id semnum cmd =>
      have hcheck := (semCheck_outOfRange_iff x.tables id).mpr h
      have hout : Ipc.semctl x.tables cred id semnum cmd = (x.tables, .outOfRange) := by
        unfold Ipc.semctl
        rw [hcheck]
      rw [PoolState.run, PoolState.semctl, hout]
      rfl
    | semop p id =>
      have hcheck := (semCheck_outOfRange_iff x.tables id).mpr h
      rw [PoolState.run, PoolState.semop, hcheck]
      rfl
    | semget | resume => exact h.elim

/-- **The undo pool stays well formed, and no `panic` is reached**, from every well-formed state, in every
call that does not leave the table of sets; `semop` and `semctl` leave it for an identifier whose index is
from SEMMNI to SEMMSL - 1, and then the state after the call depends on what lies behind the table. -/
theorem wellFormed_run_iff (x : PoolState) (h : x.WellFormed) (c : PoolCall) (hc : c.Unlocked) :
    ((∃ x', x.run c = .ok x' ∧ x'.WellFormed) ↔ ¬ c.Beyond) ∧
      ∀ a, x.run c = .error a → a = .outOfRange ∧ c.Beyond := by
  by_cases hin : c.Beyond
  · have hrun := run_beyond (x := x) hin
    refine ⟨iff_of_false ?_ (not_not.mpr hin), fun a ha => ⟨?_, hin⟩⟩
    · rintro ⟨x', hok, -⟩
      cases hrun.symm.trans hok
    · exact (Except.error.inj (hrun.symm.trans ha)).symm
  · obtain ⟨x', hok, hx'⟩ := h.run hc hin
    refine ⟨iff_of_true ⟨x', hok, hx'⟩ hin, fun a ha => ?_⟩
    cases hok.symm.trans ha

/-- One set of one semaphore, and one structure with an entry for it, of process 7. -/
def oneUndo : PoolState where
  sema := oneSet.sema
  sem := oneSet.sem
  semtot := oneSet.semtot
  pool := ⟨fun i => if i.1 = 0 then ⟨none, some 7, [⟨3, 0, 0⟩]⟩ else ⟨none, none, []⟩, some ⟨0, by decide⟩⟩

theorem wellFormed_oneUndo : oneUndo.WellFormed where
  linked := ⟨[⟨0, by decide⟩], ⟨rfl, rfl⟩, by decide⟩
  single := by
    intro i j p hi hj
    have hzero : ∀ i, (oneUndo.pool.semu i).proc ≠ none → i = ⟨0, by decide⟩ := by decide
    rw [hzero i (by rw [hi]; exact Option.some_ne_none p), hzero j (by rw [hj]; exact Option.some_ne_none p)]
  room := fun i _ _ => (by decide : ∀ i, (oneUndo.pool.semu i).ents.length ≤ semume) i
  nonzero := fun i _ _ => (by decide : ∀ i, ∀ e ∈ (oneUndo.pool.semu i).ents, e.adjval ≠ 0) i
  keys := fun i _ _ => (by decide : ∀ i, ((oneUndo.pool.semu i).ents.map Undo.key).Nodup) i
  named := by
    intro i p hi e he
    have hall : ∀ i, ∀ e ∈ (oneUndo.pool.semu i).ents, e = ⟨3, 0, 0⟩ := by decide
    rw [hall i e he]
    exact ⟨by decide, by decide, by decide⟩

/-- Process 7 exits, and its structure is free again. -/
theorem wellFormed_run_iff_exit :
    oneUndo.WellFormed ∧ ∃ x', oneUndo.run (.exit none 7) = .ok x' ∧ x'.WellFormed :=
  ⟨wellFormed_oneUndo,
    (wellFormed_run_iff oneUndo wellFormed_oneUndo (.exit none 7) (.inl rfl)).1.mpr (fun h => h)⟩

/-- **An identifier from 10 to 59 leads out of the table**: `semop(10, ...)` reads `sema[10]`. -/
theorem semop_beyond_sema :
    oneUndo.WellFormed ∧ oneUndo.run (.sys (.semop 7 10 [⟨0, 1, true, false⟩])) = .error .outOfRange ∧
      ¬ ∃ x', oneUndo.run (.sys (.semop 7 10 [⟨0, 1, true, false⟩])) = .ok x' ∧ x'.WellFormed := by
  have hrun : oneUndo.run (.sys (.semop 7 10 [⟨0, 1, true, false⟩])) = .error .outOfRange :=
    run_beyond ⟨by decide, by decide⟩
  refine ⟨wellFormed_oneUndo, hrun, ?_⟩
  rintro ⟨x', hok, -⟩
  cases hrun.symm.trans hok

end PoolState

end Ixemul.Ipc
