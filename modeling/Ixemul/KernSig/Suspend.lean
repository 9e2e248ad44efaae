/-
# Ixemul.KernSig.Suspend — the mask that `sigsuspend` puts back (`library/kern_sig.c`).

`sigsuspend` saves the mask in `u_oldmask`, of which a process has one, and takes it from there when signals
have been handled.  A handler that calls `sigsuspend` itself saves its own mask there.

What handlers do in between is any run of calls and further signals (`Runs`).  `sig_launch` pushes a context
below the frame that `psig` makes, so that the mask at the time of the signal is back at the end.
-/
import Ixemul.KernSig.Issig

namespace Ixemul.KernSig.Suspend

/-- The masks of a process; `entered` is history: the masks that `sigsuspend` was entered with. -/
structure Masks where
  sigmask : SigSet
  oldmask : SigSet
  /-- SOMASK of `p_flag` -/
  somask : Bool
  errno : Int
  ret : Int
  entered : List SigSet
  deriving DecidableEq, Repr

def eintr : Int := 4

/-- `sigsuspend` up to its sleep. -/
def suspend (p : Masks) (mask : SigSet) : Masks :=
  { p with oldmask := p.sigmask, somask := true, sigmask := mask &&& ~~~ sigcantmask,
           entered := p.entered ++ [p.sigmask] }

/-- `p->p_sigmask = p->u_oldmask` -/
def restore (p : Masks) : Masks := { p with sigmask := p.oldmask }

/-- The end of `sigsuspend`. -/
def finish (p : Masks) : Masks := { p with errno := eintr, ret := -1 }

/-- The mask in the frame of a handler. -/
def returnmask (p : Masks) : SigSet := if p.somask then p.oldmask else p.sigmask

/-- `psig`, for a signal that is caught: the state in which the handler starts. -/
def psig (uSigmask : Nat → SigSet) (p : Masks) (sig : Nat) : Masks :=
  { p with somask := false, sigmask := p.sigmask ||| (uSigmask sig ||| KernSig.sigmask sig) }

/-- The masks of a process of `Ixemul.KernSig.Issig`. -/
def masksOf (p : Proc) (errno ret : Int) (entered : List SigSet) : Masks :=
  ⟨p.pSigmask, p.uOldmask, p.somask, errno, ret, entered⟩

/-- It is the `psig` of that module, seen from the masks: they change so, and the frame of the handler has
the mask to go back to. -/
theorem masksOf_catchSig (p : Proc) (sig : Nat) (errno ret : Int) (entered : List SigSet) :
    masksOf (catchSig p sig) errno ret entered = psig p.uSigmask (masksOf p errno ret entered) sig ∧
      ∃ frame, (catchSig p sig).frames = p.frames ++ [frame] ∧
        frame.mask = returnmask (masksOf p errno ret entered) :=
  ⟨rfl, _, rfl, rfl⟩

/-- `sigreturn` to a context with this mask. -/
def sigreturn (p : Masks) (mask : SigSet) : Masks := { p with sigmask := mask }

/-- What runs: the delivery of one signal, or of any number; a handler; a call of `sigsuspend`. -/
inductive Part where
  | signal
  | signals
  | handler
  | sigsuspend (mask : SigSet)

inductive Runs (uSigmask : Nat → SigSet) : Part → Masks → Masks → Prop where
  /-- the handler returns to its frame, and then to the context of `sig_launch` -/
  | signal {p q : Masks} {sig : Nat} (hsig : Valid sig) (hopen : ¬ Has p.sigmask sig)
      (h : Runs uSigmask .handler (psig uSigmask p sig) q) :
      Runs uSigmask .signal p (sigreturn (sigreturn q (returnmask p)) p.sigmask)
  | none (p : Masks) : Runs uSigmask .signals p p
  | more {p q r : Masks} (h : Runs uSigmask .signal p q) (h' : Runs uSigmask .signals q r) :
      Runs uSigmask .signals p r
  | done (p : Masks) : Runs uSigmask .handler p p
  | call {p q r : Masks} {mask : SigSet} (h : Runs uSigmask (.sigsuspend mask) p q)
      (h' : Runs uSigmask .handler q r) : Runs uSigmask .handler p r
  | interrupt {p q r : Masks} (h : Runs uSigmask .signal p q) (h' : Runs uSigmask .handler q r) :
      Runs uSigmask .handler p r
  | sigsuspend {p q r : Masks} {mask : SigSet} (h : Runs uSigmask .signals (suspend p mask) q)
      (h' : Runs uSigmask .signals (restore q) r) : Runs uSigmask (.sigsuspend mask) p (finish r)

variable {uSigmask : Nat → SigSet} {part : Part} {p q r : Masks} {mask : SigSet}

theorem sigmask_of_signals (h : Runs uSigmask .signals p q) : q.sigmask = p.sigmask := by
  generalize hpart : Part.signals = part at h
  induction h with
  | none => rfl
  | more h _ _ ih =>
    cases h
    exact ih hpart
  | signal | done | call | interrupt | sigsuspend => exact nomatch hpart

/-- The saved mask is that of the last call. -/
theorem oldmask_of_runs (h : Runs uSigmask part p q) (hp : p.entered.getLast? = some p.oldmask) :
    q.entered.getLast? = some q.oldmask := by
  induction h with
  | signal _ _ _ ih => exact ih hp
  | none | done => exact hp
  | more _ _ ih ih' | call _ _ ih ih' | interrupt _ _ ih ih' => exact ih' (ih hp)
  | sigsuspend _ _ ih ih' => exact ih' (ih (by simp [suspend]))

/-- **What `sigsuspend` returns.**  It is -1 with EINTR; the mask is the one at entry exactly if the last call
of `sigsuspend` that was entered before the mask is put back, this one or one in a handler, was entered with
that mask. -/
theorem sigsuspend_restores_iff (h : Runs uSigmask .signals (suspend p mask) q)
    (h' : Runs uSigmask .signals (restore q) r) :
    Runs uSigmask (.sigsuspend mask) p (finish r) ∧ (finish r).ret = -1 ∧ (finish r).errno = eintr ∧
      ((finish r).sigmask = p.sigmask ↔ q.entered.getLast? = some p.sigmask) := by
  refine ⟨.sigsuspend h h', rfl, rfl, ?_⟩
  have hmask : (finish r).sigmask = q.oldmask := sigmask_of_signals h'
  rw [hmask, oldmask_of_runs h (by simp [suspend]), Option.some.injEq]

/-- No signal is masked, and none is by a handler's mask. -/
def open_ : Masks := ⟨0, 0, false, 0, 0, []⟩

/-- Signal 1 is caught, and its handler does nothing. -/
theorem sigsuspend_restores_iff_plain :
    ∃ r, Runs (fun _ => 0) (.sigsuspend 0) open_ r ∧ r.sigmask = open_.sigmask := by
  have hsig : Runs (fun _ => 0) .signals (suspend open_ 0) _ :=
    .more (.signal (show Valid 1 by decide) (by decide) (.done _)) (.none _)
  have h := sigsuspend_restores_iff hsig (.none _)
  exact ⟨_, h.1, h.2.2.2.mpr rfl⟩

/-- The handler of signal 1 calls `sigsuspend`, and signal 2 ends that call. -/
theorem sigsuspend_nested :
    ∃ r, Runs (fun _ => 0) (.sigsuspend 0) open_ r ∧ r.sigmask = KernSig.sigmask 1 := by
  have hinner : Runs (fun _ => 0) (.sigsuspend 0) (psig (fun _ => 0) (suspend open_ 0) 1) _ :=
    .sigsuspend (.more (.signal (show Valid 2 by decide) (by decide) (.done _)) (.none _)) (.none _)
  have houter : Runs (fun _ => 0) .signals (suspend open_ 0) _ :=
    .more (.signal (show Valid 1 by decide) (by decide) (.call hinner (.done _))) (.none _)
  exact ⟨_, .sigsuspend houter (.none _), rfl⟩

end Ixemul.KernSig.Suspend
