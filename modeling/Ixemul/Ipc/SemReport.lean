/-
# Ixemul.Ipc.SemReport — how the semaphore calls report an error (sysv_sem.c, ixemul.h).

`errno_return(e, r)` stores its first argument in `errno` and returns the second.  The exits of the
semaphore calls write `errno_return(-1, e)`.  `SemCall.reason` says why a call fails, if it does, and
`SemCall.result` what the program then sees: the code of `e`, with -1 in `errno`.
-/
import Ixemul.Ipc.SemAtomic

namespace Ixemul.Ipc

/-- A call of a program, or a `semop` that goes on after a sleep. -/
inductive SemCall where
  | semget (cred : Ucred) (key nsems : Int) (flg : GetFlg)
  | semctl (cred : Ucred) (id : Id) (semnum : Int) (cmd : SemCmd)
  | semop (p : Task) (id : Id) (sops : List SemBuf)
  | resume (w : SemWaiting) (interrupted : Bool)

/-! ## What the program sees -/

def SemOutcome.ret? : SemOutcome → Option Ret
  | .ret r => some r
  | _ => none

def CtlOutcome.ret? : CtlOutcome → Option Ret
  | .ret r _ => some r
  | .outOfRange => none

/-- The value a call returns, with what it assigns to `errno`; none where it does not return (now). -/
def SemCall.result (s : SemState) : SemCall → Option Ret
  | .semget cred key nsems flg => some (Ipc.semget s cred key nsems flg).2
  | .semctl cred id semnum cmd => (Ipc.semctl s cred id semnum cmd).2.ret?
  | .semop p id sops => (Ipc.semop s p id sops).2.ret?
  | .resume w interrupted => (semopResume s w interrupted).2.ret?

/-! ## Why a call fails -/

/-- `semget`: the set is there but is too small, or was not to be there; it is not there and not to be
made; or it cannot be made, because of its size or for want of room. -/
def semgetReason (s : SemState) (key nsems : Int) (flg : GetFlg) : Option Errno :=
  match (if key ≠ ipcPrivate then findSema s (fun ds => ds.alloc && ds.perm.key == key) else none) with
  | some ix =>
    if nsems > 0 ∧ ((s.sema ix).nsems : Int) < nsems then some .einval
    else if flg.creat ∧ flg.excl then some .eexist
    else none
  | none =>
    if key ≠ ipcPrivate ∧ flg.creat = false then some .enoent
    else if nsems ≤ 0 ∨ nsems > semmsl then some .einval
    else if nsems > (semmns : Int) - s.semtot ∨ (findSema s (fun ds => !ds.alloc)).isNone then some .enospc
    else none

/-- The commands that take the number of a semaphore. -/
def SemCmd.takesNumber : SemCmd → Bool
  | .getncnt | .getpid | .getval | .getzcnt | .setval _ => true
  | _ => false

/-- `semctl`: the identifier or the number of the semaphore is bad, or there is no such command. -/
def semctlReason (s : SemState) (id : Id) (semnum : Int) (cmd : SemCmd) : Option Errno :=
  match semCheck s id with
  | .outOfRange => none
  | .reject e => some e
  | .accept ix =>
    if cmd.takesNumber ∧ (semnum < 0 ∨ semnum ≥ (s.sema ix).nsems) then some .einval
    else
      match cmd with
      | .other => some .einval
      | _ => none

/-- A round of `semop`: a semaphore is not in the set, the call would block, or undo space runs out. -/
def roundReason (s : SemState) (p : Task) (ix : Fin semmni) (sops : List SemBuf) (doUndos : Bool) :
    Option Errno :=
  match walk (s.sema ix) sops ⟨s.sem, [], false, doUndos⟩ with
  | (_, .range) => some .efbig
  | (_, .block sop) => if sop.nowait then some .eagain else none
  | (w, .done) =>
    if w.doUndos then
      match undoWalk p ix sops [] s.undos with
      | .fail e _ => some e
      | _ => none
    else none

/-- `semop`: the identifier is bad, the vector too long, or a round fails. -/
def semopReason (s : SemState) (p : Task) (id : Id) (sops : List SemBuf) : Option Errno :=
  match semCheck s id with
  | .outOfRange => none
  | .reject e => some e
  | .accept ix => if sops.length > maxSops then some .e2big else roundReason s p ix sops false

/-- After a sleep: a signal came, the set was removed, or a round fails. -/
def resumeReason (s : SemState) (w : SemWaiting) (interrupted : Bool) : Option Errno :=
  let ds := s.sema w.ix
  if interrupted then some .eintr
  else if ds.alloc = false ∨ ds.perm.seq ≠ 0 then some .einval
  else roundReason { s with sem := countWaiter s.sem w.semptr w.sop (-1) } w.proc w.ix w.sops w.doUndos

def SemCall.reason (s : SemState) : SemCall → Option Errno
  | .semget _ key nsems flg => semgetReason s key nsems flg
  | .semctl _ id semnum cmd => semctlReason s id semnum cmd
  | .semop p id sops => semopReason s p id sops
  | .resume w interrupted => resumeReason s w interrupted

/-! ## Every exit -/

/-- The result goes with the reason: a failure leaves through `semFail`, anything else leaves `errno`
alone. -/
def Matches (reason : Option Errno) (r : Option Ret) : Prop :=
  match reason with
  | some e => r = some (semFail e)
  | none => ∀ r', r = some r' → r'.errno = none

theorem matches_plain (v : Int) : Matches none (some (plainReturn v)) := by
  rintro r' ⟨⟩
  rfl

theorem semget_matches (s : SemState) (cred : Ucred) (key nsems : Int) (flg : GetFlg) :
    Matches (semgetReason s key nsems flg) (some (semget s cred key nsems flg).2) := by
  unfold semgetReason semget
  generalize
    (if key ≠ ipcPrivate then findSema s (fun ds => ds.alloc && ds.perm.key == key) else none) = found
  cases found with
  | some =>
    dsimp only
    split_ifs
    · rfl
    · rfl
    · exact matches_plain _
  | none =>
    dsimp only
    by_cases hmake : key = ipcPrivate ∨ flg.creat
    · have hno : ¬ (key ≠ ipcPrivate ∧ flg.creat = false) := by
        rintro ⟨hkey, hcreat⟩
        rcases hmake with h | h
        · exact hkey h
        · rw [hcreat] at h
          cases h
      rw [if_neg hno, if_pos hmake]
      by_cases hrange : nsems ≤ 0 ∨ nsems > semmsl
      · rw [if_pos hrange, if_pos hrange]
        rfl
      · rw [if_neg hrange, if_neg hrange]
        by_cases hroom : nsems > (semmns : Int) - s.semtot
        · rw [if_pos (.inl hroom), if_pos hroom]
          rfl
        · rw [if_neg hroom]
          cases hfree : findSema s (fun ds => !ds.alloc) with
          | none =>
            rw [if_pos (.inr Option.isNone_none)]
            rfl
          | some =>
            rw [if_neg (by simpa using hroom)]
            exact matches_plain _
    · have hyes : key ≠ ipcPrivate ∧ flg.creat = false := by
        rw [not_or] at hmake
        exact ⟨hmake.1, by simpa using hmake.2⟩
      rw [if_pos hyes, if_neg hmake]
      rfl

theorem semField_matches (s : SemState) (ds : SemidDs) (semnum : Int) (field : Sem → Int) :
    Matches (if semnum < 0 ∨ semnum ≥ ds.nsems then some .einval else none)
      (semField s ds semnum field).2.ret? := by
  unfold semField
  split_ifs
  · rfl
  · exact matches_plain _

theorem semctl_matches (s : SemState) (cred : Ucred) (id : Id) (semnum : Int) (cmd : SemCmd) :
    Matches (semctlReason s id semnum cmd) (semctl s cred id semnum cmd).2.ret? := by
  unfold semctlReason semctl
  cases semCheck s id with
  | outOfRange => exact fun r' h => nomatch h
  | reject => rfl
  | accept ix =>
    cases cmd with
    | getncnt | getpid | getval | getzcnt =>
      simpa [SemCmd.takesNumber] using semField_matches s (s.sema ix) semnum _
    | setval =>
      simp only [SemCmd.takesNumber, true_and]
      split_ifs
      · rfl
      · exact matches_plain _
    | other =>
      rfl
    | _ =>
      exact matches_plain _

theorem round_matches (s : SemState) (p : Task) (ix : Fin semmni) (sops : List SemBuf) (doUndos : Bool) :
    Matches (roundReason s p ix sops doUndos) (semopRound s p ix sops doUndos).2.ret? := by
  unfold roundReason semopRound
  dsimp only
  generalize walk (s.sema ix) sops ⟨s.sem, [], false, doUndos⟩ = stopped
  obtain ⟨w, stop⟩ := stopped
  cases stop with
  | range => rfl
  | block =>
    dsimp only
    split_ifs
    · rfl
    · exact fun r' h => nomatch h
  | done =>
    unfold semopDone
    dsimp only
    split_ifs
    · cases undoWalk p ix sops [] s.undos with
      | ok => exact matches_plain _
      | fail => rfl
      | panic => exact fun r' h => nomatch h
    · exact matches_plain _

theorem semop_matches (s : SemState) (p : Task) (id : Id) (sops : List SemBuf) :
    Matches (semopReason s p id sops) (semop s p id sops).2.ret? := by
  unfold semopReason semop
  cases semCheck s id with
  | outOfRange => exact fun r' h => nomatch h
  | reject => rfl
  | accept ix =>
    split_ifs
    · rfl
    · exact round_matches s p ix sops false

theorem resume_matches (s : SemState) (w : SemWaiting) (interrupted : Bool) :
    Matches (resumeReason s w interrupted) (semopResume s w interrupted).2.ret? := by
  unfold resumeReason semopResume
  rw [ipcidToSeq_ipcidToIx]
  dsimp only
  split_ifs
  · rfl
  · rfl
  · exact round_matches _ _ _ _ _

/-- **Every exit of the three functions**: a failure for the reason `e` is `errno_return(-1, e)`, and no
other exit touches `errno`. -/
theorem result_matches (s : SemState) (c : SemCall) : Matches (c.reason s) (c.result s) := by
  cases c with
  | semget cred key nsems flg => exact semget_matches s cred key nsems flg
  | semctl cred id semnum cmd => exact semctl_matches s cred id semnum cmd
  | semop p id sops => exact semop_matches s p id sops
  | resume w interrupted => exact resume_matches s w interrupted

/-! ## What a program may rely on -/

/-- If the call fails, it returns -1 and `errno` has the code of the reason. -/
def Reported (s : SemState) (c : SemCall) : Prop :=
  ∀ e, c.reason s = some e → c.result s = some ⟨some e.code, -1⟩

/-- **No failure is reported as it should be**: for every state of the tables and every call, an error is
reported properly if and only if there is none; a call that fails for the reason `e` returns the positive
code of `e`, with -1 in `errno`. -/
theorem reported_iff (s : SemState) (c : SemCall) :
    (Reported s c ↔ c.reason s = none) ∧
      (∀ e, c.reason s = some e → c.result s = some ⟨some (-1), e.code⟩ ∧ 0 < e.code) ∧
      ∀ r, c.result s = some r → (r.errno = none ↔ c.reason s = none) := by
  have hmatch := result_matches s c
  have hfail : ∀ e, c.reason s = some e → c.result s = some ⟨some (-1), e.code⟩ := by
    intro e he
    rw [he] at hmatch
    exact hmatch
  refine ⟨⟨fun h => ?_, fun h e he => ?_⟩, fun e he => ⟨hfail e he, e.code_pos⟩, fun r hr => ?_⟩
  · rw [Option.eq_none_iff_forall_ne_some]
    intro e he
    -- what is returned would have to be -1 and a positive code at once
    have hboth := Option.some.inj ((h e he).symm.trans (hfail e he))
    have hval := congrArg Ret.val hboth
    have hpos := e.code_pos
    dsimp only at hval
    omega
  · rw [h] at he
    cases he
  · cases hreason : c.reason s with
    | none =>
      rw [hreason] at hmatch
      exact iff_of_true (hmatch r hr) rfl
    | some e =>
      have hres := Option.some.inj ((hfail e hreason).symm.trans hr)
      rw [← hres]
      simp

/-- One set of one semaphore, whose value is 22. -/
def twentyTwo : SemState := { oneSet with sem := fun _ => ⟨22, 0, 0, 0⟩ }

/-- **A failure looks like a result**: a `semget` of a key that is not there returns 2 (ENOENT), an `int`
that is the identifier of slot 2 with sequence number 0; and GETVAL of a semaphore that the set does not have
returns 22 (EINVAL), as GETVAL of one whose value is 22 does. -/
theorem failure_not_reported :
    (SemCall.semget ⟨0, 0⟩ 5 1 ⟨0, false, false⟩).reason seminit = some .enoent ∧
      (SemCall.semget ⟨0, 0⟩ 5 1 ⟨0, false, false⟩).result seminit = some ⟨some (-1), 2⟩ ∧
      ¬ Reported seminit (.semget ⟨0, 0⟩ 5 1 ⟨0, false, false⟩) ∧
      (ixseqToIpcid 2 IpcPerm.zero).toInt = 2 ∧
      (SemCall.semctl ⟨0, 0⟩ 0 7 .getval).reason twentyTwo = some .einval ∧
      (SemCall.semctl ⟨0, 0⟩ 0 7 .getval).result twentyTwo = some ⟨some (-1), 22⟩ ∧
      (SemCall.semctl ⟨0, 0⟩ 0 0 .getval).result twentyTwo = some ⟨none, 22⟩ := by
  have hreason : (SemCall.semget ⟨0, 0⟩ 5 1 ⟨0, false, false⟩).reason seminit = some .enoent := by decide
  refine ⟨hreason, by decide, fun h => ?_, by decide, by decide, by decide, by decide⟩
  exact absurd (h .enoent hreason) (by decide)

end Ixemul.Ipc
