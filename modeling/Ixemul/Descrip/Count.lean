/-
# Ixemul.Descrip.Count — `f_count` is the number of descriptors, in every run of any processes.

The state is the file table and the tables of all live processes; a step is a call of one of them, a
`vfork`, an exit, or a program started from outside.  Each has the effect on the sum of all descriptors
that `Ixemul.Descrip.Effect` describes for the caller's own.
-/
import Ixemul.Lib.Run
import Ixemul.Descrip.Effect

namespace Ixemul.Descrip

open Lib.Run
open List

variable {k : Ix} {u : User} {o : FileIx → Nat}

/-! ## The system -/

/-- The file table and all live processes. -/
structure Sys where
  ix : Ix
  procs : List User

/-- The number of descriptors of the processes `l` that point to `f`. -/
def sumRefs (f : FileIx) : List User → Nat
  | [] => 0
  | u :: l => refs u f + sumRefs f l

/-- The number of descriptors, of all live processes, that point to `f`. -/
def Sys.total (y : Sys) (f : FileIx) : Nat := sumRefs f y.procs

theorem sumRefs_append (f : FileIx) (l₁ l₂ : List User) :
    sumRefs f (l₁ ++ l₂) = sumRefs f l₁ + sumRefs f l₂ := by
  induction l₁ with
  | nil => simp [sumRefs]
  | cons u l ih =>
    simp only [cons_append, sumRefs, ih]
    omega

/-- The calls a process makes on its own descriptors. -/
inductive Call where
  | openFile (res : Opened)
  | pipe
  | socket
  | accept
  | dup (i : Nat)
  | dup2 (i j : Nat)
  | dupfd (fdes : Nat) (arg : Int)
  | internalize (fp : FileIx)
  | close (fd : Int)

def Call.run (k : Ix) (u : User) : Call → Ix × User
  | .openFile res => let r := Descrip.openFile k u res; (r.1, r.2.1)
  | .pipe => let r := Descrip.pipe k u; (r.1, r.2.1)
  | .socket => let r := unpSocket k u; (r.1, r.2.1)
  | .accept => let r := unpSocket k u; (r.1, r.2.1)
  | .dup i => let r := Descrip.dup k u i; (r.1, r.2.1)
  | .dup2 i j => let r := Descrip.dup2 k u i j; (r.1, r.2.1)
  | .dupfd fdes arg => let r := fcntlDupfd k u fdes arg; (r.1, r.2.1)
  | .internalize fp => let r := fcntlInternalize k u fp; (r.1, r.2.1)
  | .close fd => let r := Descrip.close k u fd; (r.1, r.2.1)

/-- `open` and `pipe` have to succeed, and only a live file may be internalised. -/
def Call.Allowed (k : Ix) (u : User) : Call → Prop
  | .openFile res => (Descrip.openFile k u res).2.2.isOk = true
  | .pipe => (Descrip.pipe k u).2.2.isOk = true
  | .internalize fp => 0 < (k.fileTab fp).count
  | _ => True

inductive Step : Sys → Sys → Prop where
  | call {k : Ix} {l₁ l₂ : List User} {u : User} (c : Call) (h : c.Allowed k u) :
      Step ⟨k, l₁ ++ u :: l₂⟩ ⟨(c.run k u).1, l₁ ++ (c.run k u).2 :: l₂⟩
  | vfork {k : Ix} {l₁ l₂ : List User} {u : User} :
      Step ⟨k, l₁ ++ u :: l₂⟩ ⟨(vfork k u).1, (vfork k u).2 :: l₁ ++ u :: l₂⟩
  | exit {k : Ix} {l₁ l₂ : List User} {u : User} :
      Step ⟨k, l₁ ++ u :: l₂⟩ ⟨exit k u, l₁ ++ l₂⟩
  /-- a program is started from outside -/
  | start {k : Ix} {l : List User} : Step ⟨k, l⟩ ⟨k, User.empty :: l⟩

/-- The file table as allocated, cleared, by `ix_init`. -/
def Ix.init : Ix := ⟨fun _ => ⟨0, none⟩, 0, [], []⟩

def system : System Sys where
  init := fun y => y = ⟨Ix.init, []⟩
  step := Step

/-- The invariant: the counts are right, and nobody is in the atexit handler of execve. -/
structure Inv (y : Sys) : Prop where
  counts : Counts y.ix y.total
  flag : ∀ u ∈ y.procs, u.execveclose = false

theorem refs_empty (f : FileIx) : refs User.empty f = 0 := by
  simp [refs, User.empty, pointsTo]

theorem total_split (k : Ix) (l₁ l₂ : List User) (u : User) :
    (⟨k, l₁ ++ u :: l₂⟩ : Sys).total = fun f => (⟨k, l₁ ++ l₂⟩ : Sys).total f + refs u f := by
  funext f
  simp only [Sys.total, sumRefs_append, sumRefs]
  omega

theorem call_effect (c : Call) (hk : Counts k (fun f => o f + refs u f)) (h : c.Allowed k u) :
    CallEffect k u (c.run k u).1 (c.run k u).2 o := by
  cases c with
  | openFile => exact openFile_effect hk h
  | pipe => exact pipe_effect hk h
  | socket | accept => exact unpSocket_effect hk
  | dup i => exact dup_effect hk i
  | dup2 i j => exact dup2_effect hk i j
  | dupfd fdes arg => exact fcntlDupfd_effect hk fdes arg
  | internalize => exact fcntlInternalize_effect hk h
  | close fd => exact close_effect hk fd

theorem step_effect {y y' : Sys} (hI : Inv y) (hstep : Step y y') :
    Effect y.ix y'.ix y.total y'.total ∧ Inv y' := by
  cases hstep with
  | @call k l₁ l₂ u c h =>
    have hcounts := hI.counts
    rw [total_split] at hcounts
    obtain ⟨heff, hk', hflag⟩ := call_effect c hcounts h
    refine ⟨?_, ?_, ?_⟩
    · rw [total_split, total_split]
      exact heff
    · rw [total_split]
      exact hk'
    · obtain ⟨hl₁, hl⟩ := forall_mem_append.mp hI.flag
      obtain ⟨hu, hl₂⟩ := forall_mem_cons.mp hl
      exact forall_mem_append.mpr ⟨hl₁, forall_mem_cons.mpr ⟨hflag.trans hu, hl₂⟩⟩
  | @vfork k l₁ l₂ u =>
    have hlive : ∀ f fd, u.ofile fd = some f → 0 < (⟨k, l₁ ++ u :: l₂⟩ : Sys).total f := by
      intro f fd hfd
      have := refs_pos hfd
      rw [total_split]
      exact lt_of_lt_of_le this (Nat.le_add_left ..)
    obtain ⟨heff, hk'⟩ := adjustCounts_effect slots hI.counts hlive
    have htotal : (⟨(vfork k u).1, (vfork k u).2 :: l₁ ++ u :: l₂⟩ : Sys).total =
        fun f => (⟨k, l₁ ++ u :: l₂⟩ : Sys).total f +
          slots.countP (fun fd => pointsTo f (u.ofile fd)) := by
      funext f
      exact Nat.add_comm _ _
    rw [← htotal] at heff hk'
    exact ⟨heff, hk', forall_mem_cons.mpr ⟨hI.flag u (by simp), hI.flag⟩⟩
  | @exit k l₁ l₂ u =>
    have hcounts := hI.counts
    rw [total_split] at hcounts
    obtain ⟨⟨heff, hk', -⟩, -, -, hnone⟩ :=
      closeAll_effect slots hcounts (hI.flag u (by simp))
    -- no descriptor is left, so the process may go
    have hgone : ∀ f, refs (closeAll k u slots).2 f = 0 := by
      intro f
      refine countP_eq_zero.mpr fun fd hfd => ?_
      simp [pointsTo, hnone fd hfd]
    simp only [hgone, Nat.add_zero] at heff hk'
    refine ⟨?_, hk', ?_⟩
    · rw [total_split]
      exact heff
    · obtain ⟨hl₁, hl⟩ := forall_mem_append.mp hI.flag
      exact forall_mem_append.mpr ⟨hl₁, (forall_mem_cons.mp hl).2⟩
  | @start k l =>
    have htotal : (⟨k, User.empty :: l⟩ : Sys).total = (⟨k, l⟩ : Sys).total := by
      funext f
      simp [Sys.total, sumRefs, refs_empty]
    have hcounts : Counts k (⟨k, User.empty :: l⟩ : Sys).total := htotal ▸ hI.counts
    exact ⟨htotal ▸ Effect.refl hcounts, hcounts, forall_mem_cons.mpr ⟨rfl, hI.flag⟩⟩

theorem inv_reachable {y : Sys} (hy : Reachable system y) : Inv y := by
  refine hy.invariant (I := Inv) ?_ fun s t hI h => (step_effect hI h).2
  rintro y rfl
  exact ⟨⟨fun f => rfl, fun f h => absurd h (by simp [Sys.total, sumRefs])⟩, by simp⟩

theorem total_eq_zero_iff (y : Sys) (f : FileIx) :
    y.total f = 0 ↔ ∀ u ∈ y.procs, ∀ fd, u.ofile fd ≠ some f := by
  have hrefs : ∀ u : User, refs u f = 0 ↔ ∀ fd, u.ofile fd ≠ some f := by
    intro u
    simp [refs, countP_eq_zero, mem_slots, pointsTo]
  rcases y with ⟨k, procs⟩
  unfold Sys.total
  induction procs with
  | nil => simp [sumRefs]
  | cons u l ih =>
    rw [sumRefs, Nat.add_eq_zero_iff, forall_mem_cons]
    exact and_congr (hrefs u) ih

/-- **The open count of every file is the number of its descriptors.**  In every run the count of every
entry is the number of slots, over all live processes, that point to it; a further step hands out only
entries that no slot points to, each once, and releases an entry exactly when its last descriptor goes. -/
theorem count_eq_descriptors {y : Sys} (hy : Reachable system y) :
    (∀ f, (y.ix.fileTab f).count = y.total f) ∧
    ∀ y', Step y y' →
      (∃ hs, y'.ix.handed = y.ix.handed ++ hs ∧ hs.Nodup ∧
        ∀ f ∈ hs, ∀ u ∈ y.procs, ∀ fd, u.ofile fd ≠ some f) ∧
      ∀ f, y'.ix.released.count f =
        y.ix.released.count f + if 0 < y.total f ∧ y'.total f = 0 then 1 else 0 := by
  have hI := inv_reachable hy
  refine ⟨hI.counts.counts, fun y' hstep => ?_⟩
  obtain ⟨heff, -⟩ := step_effect hI hstep
  obtain ⟨hs, h1, h2, h3⟩ := heff.handed
  exact ⟨⟨hs, h1, h2, fun f hf => (total_eq_zero_iff y f).mp (h3 f hf).1⟩, heff.released⟩

/-- A run: a process opens a file and duplicates the descriptor. -/
def openAndDup : Sys :=
  let r := Call.run Ix.init User.empty (.openFile .file)
  let r := Call.run r.1 r.2 (.dup 0)
  ⟨r.1, [r.2]⟩

theorem openAndDup_reachable : Reachable system openAndDup := by
  have h0 : Reachable system ⟨Ix.init, []⟩ := .init rfl
  have h1 : Reachable system ⟨Ix.init, [User.empty]⟩ := .step h0 Step.start
  have h2 : Reachable system _ :=
    .step h1 (@Step.call _ [] [] _ (.openFile .file) (by unfold Call.Allowed; decide +kernel))
  exact .step h2 (@Step.call _ [] [] _ (.dup 0) trivial)

theorem count_eq_descriptors_openAndDup :
    openAndDup.ix.handed.map (fun f => (openAndDup.ix.fileTab f).count) = [2] ∧
      ∀ f, (openAndDup.ix.fileTab f).count = openAndDup.total f := by
  exact ⟨by decide +kernel, (count_eq_descriptors openAndDup_reachable).1⟩

end Ixemul.Descrip
