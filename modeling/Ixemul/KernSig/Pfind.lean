/-
# Ixemul.KernSig.Pfind — looking a process up by its number (`kern_sig.c`).

The number of a process is the address of its task.  Before `pfind` looks into the memory there, it searches
Exec's lists of tasks for the address.  Such a list ends with a node that has no successor, the `lh_Tail`
field of its header, and the cursor of a search without success stays there.  `pfind` takes NULL for that
outcome, which the cursor never is: the second list is not searched, and every even number is looked into.
-/
import Mathlib.Data.List.Basic
import Ixemul.Headers

namespace Ixemul.KernSig.Pfind

/-- An address, and the number of a process. -/
abbrev Addr := BitVec 32

/-- A list of Exec: its nodes, and the address of `lh_Tail`. -/
structure ExecList where
  nodes : List Addr
  tail : Addr
  tail_ne : tail ≠ 0
  node_ne : ∀ n ∈ nodes, n ≠ 0

/-- `execnode` after the loop that looks for `p`. -/
def cursor (p tail : Addr) : List Addr → Addr
  | [] => tail
  | execnode :: rest => if execnode = p then execnode else cursor p tail rest

/-- The lists, and what the memory at an address looks like: whether it is marked as a task or process, and
whether that one uses this library. -/
structure Exec where
  taskWait : ExecList
  taskReady : ExecList
  thisTask : Addr
  isTask : Addr → Bool
  isOurs : Addr → Bool

/-- The result of `pfind`, and the addresses at which it looked for a task. -/
structure Found where
  task : Option Addr
  read : List Addr

def pfind (x : Exec) (p : Addr) : Found :=
  if p ≠ 0 ∧ p &&& 1 = 0 then
    let execnode := cursor p x.taskWait.tail x.taskWait.nodes
    let execnode := if execnode = 0 then cursor p x.taskReady.tail x.taskReady.nodes else execnode
    if execnode = 0 then ⟨none, []⟩
    else ⟨if x.isTask p && x.isOurs p then some p else none, [p]⟩
  else if p = 0 then ⟨some x.thisTask, []⟩
  else ⟨none, []⟩

def sigint : Nat := 2

/-- `kill`; an error is the -1 with `errno` set. -/
def kill (x : Exec) (pid : Addr) (signo : BitVec 32) : Except Errno Unit :=
  if signo.toNat ≥ nsig then .error .einval
  else if pid.toInt ≥ 0 then
    match (pfind x pid).task with
    | some _ => .ok ()
    | none =>
      if signo.toNat = sigint ∧ pid ≠ 0 ∧ pid &&& 1 = 0 ∧ x.isTask pid then .ok ()
      else .error .esrch
  else .error .esrch

/-- The number is the address of a node on one of the two lists. -/
def OnList (x : Exec) (pid : Addr) : Prop := pid ∈ x.taskWait.nodes ∨ pid ∈ x.taskReady.nodes

instance (x : Exec) (pid : Addr) : Decidable (OnList x pid) := inferInstanceAs (Decidable (_ ∨ _))

/-- What `pfind` is for: only the number of an existing task gives a task or is looked into, and `kill` tells
that there is none. -/
structure Validates (x : Exec) (pid : Addr) (signo : BitVec 32) : Prop where
  task : ∀ t, (pfind x pid).task = some t → OnList x pid
  read : pid ∈ (pfind x pid).read → OnList x pid
  kill : ¬ OnList x pid → kill x pid signo = .error .esrch

theorem cursor_ne_zero (l : ExecList) (p : Addr) : cursor p l.tail l.nodes ≠ 0 := by
  have hwalk : ∀ ns : List Addr, (∀ n ∈ ns, n ≠ 0) → cursor p l.tail ns ≠ 0 := by
    intro ns
    induction ns with
    | nil => exact fun _ => l.tail_ne
    | cons n ns ih =>
      intro hne
      rw [cursor]
      split
      · exact hne n List.mem_cons_self
      · exact ih fun m hm => hne m (List.mem_cons_of_mem n hm)
  exact hwalk l.nodes l.node_ne

/-- **`pfind` tells existing tasks from other numbers for no number but those of existing tasks.** -/
theorem validates_iff_onList (x : Exec) (pid : Addr) (signo : BitVec 32) (hpid : pid ≠ 0)
    (heven : pid &&& 1 = 0) : Validates x pid signo ↔ OnList x pid := by
  constructor
  · intro h
    apply h.read
    have hcursor := cursor_ne_zero x.taskWait pid
    simp only [pfind, if_pos (And.intro hpid heven), if_neg hcursor]
    exact List.mem_singleton_self pid
  · intro h
    exact ⟨fun _ _ => h, fun _ => h, fun hno => absurd h hno⟩

/-- Lists without a task, in a memory that looks like a task everywhere. -/
def noTask : Exec where
  taskWait := ⟨[], 4, by decide, by simp⟩
  taskReady := ⟨[], 8, by decide, by simp⟩
  thisTask := 16
  isTask := fun _ => true
  isOurs := fun _ => true

/-- A number that names no task is taken for one, and `kill` succeeds. -/
theorem pfind_noTask : ¬ OnList noTask 1000 ∧ (pfind noTask 1000).task = some 1000 ∧
    kill noTask 1000 15 = .ok () := by
  decide

/-- The number of a task that waits. -/
theorem validates_waiting : Validates { noTask with taskWait := ⟨[1000], 4, by decide, by simp⟩ } 1000 15 :=
  (validates_iff_onList _ 1000 15 (by decide) (by decide)).mpr (by decide)

end Ixemul.KernSig.Pfind
