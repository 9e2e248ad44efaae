/-
# Ixemul.Proc.Wait — exiting, waiting and tracing (`library/vfork.c`, `library/ptrace.c`).

A process that exits while it has a parent leaves a death message on the parent's `p_zombies` list and
sleeps on it.  `wait4` looks for a message that fits, takes it off the list and wakes the child, which then
closes the library.  A tracer that attaches to a process becomes its parent in the tree and `p_opptr` keeps
the old one; `ptrace` gives the process back when the tracer detaches, `wait4` when the tracer meets the
death message. Every operation is one section between `Forbid` and `Permit`: for `wait4`, one pass of its
loop.
-/
import Ixemul.Proc.Tree

namespace Ixemul.Proc

open Lib.Links Lib.Run Function

variable {P : Type*}

/-! ## The state -/

/-- `struct death_msg`.  The address of a message is modelled by the number of messages allocated before
it, so no two messages share one. -/
structure DeathMsg (P : Type*) where
  id : Nat
  child : P
  status : Int
  pgrp : Int

/-- The `pid` argument of `wait4`: -1, 0, the negated number of a process group, or a process, with the int
that its address is. -/
inductive WaitPid (P : Type*) where
  | any
  | myGroup
  | group (g : Int)
  | proc (p : P) (number : Int)
  deriving DecidableEq

/-- `p_stat`. -/
inductive Stat where
  | run
  | sleep
  | stop
  | zomb
  deriving DecidableEq

/-- Where a process stands: in its own code, asleep in `wait4`, asleep on the death message it sent, or past
its exit with nothing to wait for.  `woken` says that the signal a sleeper waits for has arrived. -/
inductive Pc (P : Type*) where
  | out
  | wait4 (pid : WaitPid P) (woken : Bool)
  | death (dm : Nat) (woken : Bool)
  | gone
  deriving DecidableEq

/-- The fields of `struct user` that take part; `setpgid` stores any int in `p_pgrp`. -/
structure User (P : Type*) where
  pgrp : Int
  opptr : PPtr P
  stat : Stat
  strc : Bool
  swted : Bool
  zombies : List (DeathMsg P)
  pc : Pc P

/-- A process that has just opened the library. -/
def User.fresh (pgrp : Int) : User P where
  pgrp := pgrp
  opptr := .null
  stat := .run
  strc := false
  swted := false
  zombies := []
  pc := .out

/-- The processes.  Two components are not in the source: `orig p` is the process that forked `p`, as long
as that one has not exited, and `told` lists the returns of `wait4` that reported an exit, with the process
that called it and the message that was found. -/
structure Procs (P : Type*) where
  tree : Tree P
  user : P → User P
  nextDm : Nat
  orig : P → PPtr P
  told : List (P × Nat)

/-- Which death messages `wait4 (pid, ..)` of a process in group `mine` is after. -/
def WaitPid.fits [DecidableEq P] (pid : WaitPid P) (mine : Int) (child : P) (pgrp : Int) : Bool :=
  match pid with
  | .any => true
  | .myGroup => pgrp == mine
  | .group g => pgrp == g
  | .proc p _ => p == child

/-- Which stopped children it is after; here the test `p_pgrp == -pid` is made for 0 and for a process as
well. -/
def WaitPid.fitsStopped [DecidableEq P] (pid : WaitPid P) (mine : Int) (child : P) (pgrp : Int) : Bool :=
  match pid with
  | .any => true
  | .myGroup => pgrp == 0 || pgrp == mine
  | .group g => pgrp == g
  | .proc p number => p == child || pgrp == -number

/-- What a pass of `wait4` ends with: an exited or a stopped child, ECHILD, the 0 of WNOHANG, or sleep. -/
inductive WaitResult (P : Type*) where
  | exited (child : P)
  | stopped (child : P)
  | echild
  | zero
  | asleep
  deriving DecidableEq

namespace Procs

/-- Before the first process. -/
def empty : Procs P where
  tree := .empty
  user := fun _ => .fresh 0
  nextDm := 0
  orig := fun _ => .null
  told := []

section Functions

variable [DecidableEq P]

/-! ## Sleeping and waking -/

def setUser (s : Procs P) (p : P) (u : User P) : Procs P :=
  { s with user := update s.user p u }

/-- A wait channel: a user area or a death message. -/
inductive Chan (P : Type*) where
  | user (p : P)
  | dm (id : Nat)
  deriving DecidableEq

/-- The wait channel of `p` while it sleeps. -/
def wchan (p : P) : Pc P → Option (Chan P)
  | .wait4 _ _ => some (.user p)
  | .death id _ => some (.dm id)
  | _ => none

/-- What a wake-up of the channel `c` does to the process `p`. -/
def wake (c : Chan P) (p : P) : Pc P → Pc P
  | .wait4 pid woken => .wait4 pid (woken || c == .user p)
  | .death id woken => .death id (woken || c == .dm id)
  | pc => pc

/-- `ix_wakeup`. -/
def ixWakeup (s : Procs P) (c : Chan P) : Procs P :=
  { s with user := fun p => { s.user p with pc := wake c p (s.user p).pc } }

/-- `ix_sleep`, up to the point where the task is switched out. -/
def ixSleep (s : Procs P) (p : P) (pc : Pc P) : Procs P :=
  s.setUser p { s.user p with stat := .sleep, pc := pc }

/-- The end of `ix_sleep`. -/
def resume (s : Procs P) (p : P) : Procs P :=
  match (s.user p).pc with
  | .wait4 _ _ => s.setUser p { s.user p with stat := .run, pc := .out }
  | _ => s

/-! ## Starting and exiting -/

/-- A process that is started from outside opens the library. -/
def start (s : Procs P) (p : P) (pgrp : Int) : Procs P :=
  { s.setUser p (.fresh pgrp) with
    tree := s.tree.ixOpen p
    orig := update s.orig p .init }

/-- A process that `p` forked opens the library, in the process group of `p`. -/
def vfork (s : Procs P) (child p : P) : Procs P :=
  { s.setUser child (.fresh (s.user p).pgrp) with
    tree := s.tree.launcher child p
    orig := update s.orig child (.proc p) }

/-- `send_death_msg`, called by `me` whose parent is `parent`.  `alloc` is whether `kmalloc` succeeds. -/
def sendDeathMsg (s : Procs P) (me parent : P) (status : Int) (alloc : Bool) : Procs P :=
  let dm : DeathMsg P := ⟨s.nextDm, me, status, (s.user me).pgrp⟩
  let pu := s.user parent
  let s := if alloc
    then { s.setUser parent { pu with zombies := pu.zombies ++ [dm] } with nextDm := s.nextDm + 1 }
    else s
  let s := if pu.stat = .sleep ∧ wchan parent pu.pc = some (.user parent)
    then s.ixWakeup (.user parent) else s
  if alloc then s.ixSleep me (.death dm.id false)
  else s.setUser me { s.user me with pc := .gone }

/-- The last section of an exiting process before it closes the library. -/
def exit (s : Procs P) (me : P) (status : Int) (alloc : Bool) : Procs P :=
  match s.tree.pptr me with
  | .proc parent => s.sendDeathMsg me parent status alloc
  | _ => s.setUser me { s.user me with pc := .gone }

/-- The loop of `ix_close` that wakes the children asleep on messages. -/
def wakeAll (s : Procs P) (zombies : List (DeathMsg P)) : Procs P :=
  zombies.foldl (fun s dm => s.ixWakeup (.dm dm.id)) s

/-- What `ix_close` does: the tree section, then the messages nobody is going to look at any more. -/
def close (s : Procs P) (me : P) (tree : Tree P) : Procs P :=
  let zombies := (s.user me).zombies
  let s := { s with
    tree := tree
    orig := fun p => if s.orig p = PPtr.proc me then .init else s.orig p }
  let s := s.wakeAll zombies
  s.setUser me { s.user me with zombies := [] }

/-! ## Waiting -/

/-- `pfind`, for a pointer that is not NULL. -/
def pfind (s : Procs P) : PPtr P → Option P
  | .proc p => if s.tree.live p = true then some p else none
  | _ => none

/-- `possible_childs`, where the walk from `p_cptr` visits `kids`.  Its own `u_ptr` hides the one that `u`
is meant to stand for, and the process group of a child is compared with itself. -/
def possibleChilds (s : Procs P) (kids : List P) (pid : WaitPid P) : Bool :=
  kids.any fun c =>
    let u := s.user c
    decide (u.stat ≠ .zomb) && pid.fits u.pgrp c u.pgrp

/-- `wait4` meets the message `dm` of a child that it got through `ptrace`: the child goes back to its old
parent `t`, and the message stays where it is.  (The wake-up for `t` names its task, on which nobody
sleeps.) -/
def giveBack (s : Procs P) (me t : P) (dm : DeathMsg P) : Procs P :=
  let s := { s with tree := s.tree.procReparent dm.child (.proc t) }
  let s := s.setUser dm.child { s.user dm.child with opptr := .null }
  { s with told := s.told ++ [(me, dm.id)] }

/-- `wait4` takes the first message that passes `fits` off the list and wakes the child. -/
def reap (s : Procs P) (me : P) (fits : DeathMsg P → Bool) (dm : DeathMsg P) : Procs P :=
  let s := s.setUser me { s.user me with zombies := (s.user me).zombies.eraseP fits }
  let s := s.setUser dm.child { s.user dm.child with stat := .zomb }
  let s := s.ixWakeup (.dm dm.id)
  { s with told := s.told ++ [(me, dm.id)] }

/-- A child that `wait4` reports as stopped. -/
def stoppedChild (s : Procs P) (kids : List P) (mine : Int) (pid : WaitPid P) (untraced : Bool) : Option P :=
  kids.find? fun c =>
    let pu := s.user c
    pid.fitsStopped mine c pu.pgrp && pu.stat == .stop && !pu.swted && (pu.strc || untraced)

/-- One pass of `wait4`, where the walk from `p_cptr` visits `kids`. -/
def wait4 (s : Procs P) (kids : List P) (me : P) (pid : WaitPid P) (nohang untraced : Bool) :
    Procs P × WaitResult P :=
  let s := s.resume me
  let u := s.user me
  let fits := fun dm : DeathMsg P => pid.fits u.pgrp dm.child dm.pgrp
  match u.zombies.find? fits with
  | some dm =>
    match s.pfind (s.user dm.child).opptr with
    | some t => (s.giveBack me t dm, .exited dm.child)
    | none => (s.reap me fits dm, .exited dm.child)
  | none =>
    match s.stoppedChild kids u.pgrp pid untraced with
    | some c => (s.setUser c { s.user c with swted := true }, .stopped c)
    | none =>
      if !s.possibleChilds kids pid then (s, .echild)
      else if nohang then (s, .zero)
      else (s.ixSleep me (.wait4 pid false), .asleep)

/-! ## Tracing and stopping -/

/-- PT_ATTACH, past its checks. -/
def attach (s : Procs P) (me task : P) : Procs P :=
  let s := s.setUser task { s.user task with strc := true }
  if s.tree.pptr task = .proc me then s
  else
    let s := s.setUser task { s.user task with opptr := s.tree.pptr task }
    { s with tree := s.tree.procReparent task (.proc me) }

/-- PT_DETACH, past its checks. -/
def detach (s : Procs P) (task : P) : Procs P :=
  let s := s.setUser task { s.user task with strc := false }
  let opptr := (s.user task).opptr
  let s := if opptr ≠ s.tree.pptr task ∧ opptr ≠ .null ∧ (s.pfind opptr).isSome = true
    then { s with tree := s.tree.procReparent task opptr } else s
  s.setUser task { s.user task with opptr := .null, swted := false, stat := .run }

/-- `stop`: the parent is woken to have a look. -/
def stop (s : Procs P) (p : P) : Procs P :=
  let s := s.resume p
  let s := s.setUser p { s.user p with stat := .stop, swted := false }
  match s.tree.pptr p with
  | .proc parent => s.ixWakeup (.user parent)
  | _ => s

/-! ## What the functions write -/

variable {s : Procs P} {p q me task : P} {u : User P} {c : Chan P} {pid : WaitPid P} {id : Nat} {pc : Pc P}

@[simp] theorem setUser_tree : (s.setUser p u).tree = s.tree := rfl

@[simp] theorem setUser_nextDm : (s.setUser p u).nextDm = s.nextDm := rfl

@[simp] theorem setUser_orig : (s.setUser p u).orig = s.orig := rfl

@[simp] theorem setUser_told : (s.setUser p u).told = s.told := rfl

theorem setUser_user : (s.setUser p u).user q = if q = p then u else s.user q :=
  update_apply ..

@[simp] theorem setUser_self : (s.setUser p u).user p = u := update_self ..

@[simp] theorem setUser_ne (h : q ≠ p) : (s.setUser p u).user q = s.user q :=
  update_of_ne h ..

@[simp] theorem setUser_setUser {v : User P} : (s.setUser p u).setUser p v = s.setUser p v := by
  simp [setUser]

theorem attach_own (h : s.tree.pptr task = .proc me) :
    s.attach me task = s.setUser task { s.user task with strc := true } := by
  simp [attach, h]

theorem attach_other (h : s.tree.pptr task ≠ .proc me) :
    s.attach me task =
      { s.setUser task { s.user task with strc := true, opptr := s.tree.pptr task } with
        tree := s.tree.procReparent task (.proc me) } := by
  simp [attach, h]

theorem detach_eq : s.detach task =
    { s.setUser task { s.user task with strc := false, opptr := .null, swted := false, stat := .run } with
      tree := if (s.user task).opptr ≠ s.tree.pptr task ∧ (s.pfind (s.user task).opptr).isSome
        then s.tree.procReparent task (s.user task).opptr else s.tree } := by
  have hnull : (s.pfind (s.user task).opptr).isSome → (s.user task).opptr ≠ .null := by
    intro hs he
    rw [he] at hs
    simp [pfind] at hs
  by_cases hc : (s.user task).opptr ≠ s.tree.pptr task ∧ (s.pfind (s.user task).opptr).isSome
  · rw [if_pos hc]
    have hp : ((s.setUser task { s.user task with strc := false }).pfind (s.user task).opptr).isSome =
        true := hc.2
    simp only [detach, setUser_self, setUser_tree]
    rw [if_pos ⟨hc.1, hnull hc.2, hp⟩]
    simp [setUser]
  · rw [if_neg hc]
    simp only [detach, setUser_self, setUser_tree]
    rw [if_neg (fun h => hc ⟨h.1, h.2.2⟩)]
    simp [setUser]

theorem wake_wait4 : wake c p pc = .wait4 pid false ↔ pc = .wait4 pid false ∧ c ≠ .user p := by
  cases pc <;> simp [wake, and_assoc]

theorem wake_death : wake c p pc = .death id false ↔ pc = .death id false ∧ c ≠ .dm id := by
  cases pc with
  | death =>
    simp only [wake, Pc.death.injEq, Bool.or_eq_false_iff, beq_eq_false_iff_ne, and_assoc]
    constructor
    · rintro ⟨rfl, h⟩
      exact ⟨rfl, h⟩
    · rintro ⟨rfl, h⟩
      exact ⟨rfl, h⟩
  | _ => simp [wake]

end Functions

/-! ## Steps -/

/-- What the processes do.  `interrupt` is a signal that ends a sleep in `wait4`, `untrace` the clearing of
STRC by a process that a signal kills. -/
inductive Op (P : Type*) where
  | start (p : P)
  | vfork (child p : P)
  | attach (me task : P)
  | detach (me task : P)
  | stop (p : P)
  | cont (p : P)
  | interrupt (p : P)
  | untrace (p : P)
  | exit (p : P) (status : Int) (alloc : Bool)
  | wait4 (me : P) (pid : WaitPid P) (nohang untraced : Bool)
  | close (p : P)
  deriving DecidableEq

/-- The process runs code of its own. -/
structure Running (s : Procs P) (p : P) : Prop where
  live : s.tree.live p = true
  out : (s.user p).pc = .out
  going : (s.user p).stat ≠ .stop

/-- The process runs code of its own, or has been woken in `wait4 (pid, ..)` and is about to go on there. -/
structure Waiting (s : Procs P) (p : P) (pid : WaitPid P) : Prop where
  live : s.tree.live p = true
  pc : (s.user p).pc = .out ∨ (s.user p).pc = .wait4 pid true
  going : (s.user p).stat ≠ .stop

variable [DecidableEq P] {s : Procs P} {p : P}

theorem Waiting.resume_pc {pid : WaitPid P} (h : s.Waiting p pid) : ((s.resume p).user p).pc = .out := by
  rcases h.pc with hpc | hpc <;> simp [resume, hpc]

@[simp] theorem resume_tree : (s.resume p).tree = s.tree := by
  unfold resume
  split <;> rfl

@[simp] theorem resume_told : (s.resume p).told = s.told := by
  unfold resume
  split <;> rfl

@[simp] theorem resume_nextDm : (s.resume p).nextDm = s.nextDm := by
  unfold resume
  split <;> rfl

theorem resume_user {q : P} :
    ((s.resume p).user q).pgrp = (s.user q).pgrp ∧ ((s.resume p).user q).zombies = (s.user q).zombies ∧
      ((s.resume p).user q).opptr = (s.user q).opptr := by
  unfold resume
  split
  · rw [setUser_user]
    split
    · next hq => simp [hq]
    · simp
  · simp

/-- The steps of the processes.  A stopped process, and one that sleeps with no signal for it, takes none. -/
inductive Step : Procs P → Op P → Procs P → Prop where
  | start {s : Procs P} {p : P} (pgrp : Int) (hp : s.tree.live p = false) :
      Step s (.start p) (s.start p pgrp)
  | vfork {s : Procs P} {child p : P} (hc : s.tree.live child = false) (hp : s.Running p) :
      Step s (.vfork child p) (s.vfork child p)
  | attach {s : Procs P} {me task : P} (hme : s.Running me) (ht : s.tree.live task = true)
      (hne : task ≠ me) (hstrc : (s.user task).strc = false) : Step s (.attach me task) (s.attach me task)
  | detach {s : Procs P} {me task : P} (hme : s.Running me) (ht : s.tree.live task = true)
      (hstrc : (s.user task).strc = true) (hp : s.tree.pptr task = .proc me)
      (hstop : (s.user task).stat = .stop) (hswted : (s.user task).swted = true) :
      Step s (.detach me task) (s.detach task)
  | stop {s : Procs P} {p : P} {pid : WaitPid P} (hp : s.Waiting p pid) : Step s (.stop p) (s.stop p)
  | cont {s : Procs P} {p : P} (hstop : (s.user p).stat = .stop) :
      Step s (.cont p) (s.setUser p { s.user p with stat := .run })
  | interrupt {s : Procs P} {p : P} : Step s (.interrupt p) (s.ixWakeup (.user p))
  | untrace {s : Procs P} {p : P} (hp : s.Running p) :
      Step s (.untrace p) (s.setUser p { s.user p with strc := false })
  | exit {s : Procs P} {p : P} {status : Int} {alloc : Bool} (hp : s.Running p) :
      Step s (.exit p status alloc) (s.exit p status alloc)
  | wait4 {s : Procs P} {me : P} {pid : WaitPid P} {nohang untraced : Bool} {kids : List P}
      (hme : s.Waiting me pid) (hk : (pointer P).Chain s.tree.osptr (s.tree.cptr me) kids) :
      Step s (.wait4 me pid nohang untraced) (s.wait4 kids me pid nohang untraced).1
  | close {s : Procs P} {p : P} {fuel : Nat} {tree : Tree P} (hlive : s.tree.live p = true)
      (hpc : (s.user p).pc = .gone ∨ ∃ id, (s.user p).pc = .death id true)
      (htree : s.tree.ixClose fuel p = some tree) : Step s (.close p) (s.close p tree)

end Procs

end Ixemul.Proc
