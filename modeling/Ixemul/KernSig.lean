/-
# Ixemul.KernSig — the sets of caught and ignored signals (kern_sig.c, execve.c).

The disposition of a signal is kept twice: as the handler in `u_signal`, and as a bit in `p_sigcatch` or
`p_sigignore`, which is what the delivery of a signal looks at.  `setsigvec` writes both.  `execve` gives a
caught signal its default back without entering it in `p_sigignore` where that default is to ignore it, and
a trap signal that is ignored or masked clears the bits of SIGILL under a handler that stays.
-/
import Mathlib.Data.BitVec
import Ixemul.Headers
import Ixemul.Lib.Run

namespace Ixemul.KernSig

open Lib.Run

/-! ## Signals and sets of them -/

def sigill : Nat := 4
def sigtrap : Nat := 5
def sigemt : Nat := 7
def sigfpe : Nat := 8
def sigkill : Nat := 9
def sigbus : Nat := 10
def sigurg : Nat := 16
def sigstop : Nat := 17
def sigtstp : Nat := 18
def sigcont : Nat := 19
def sigchld : Nat := 20
def sigttin : Nat := 21
def sigttou : Nat := 22
def sigio : Nat := 23
def sigwinch : Nat := 28
def siginfo : Nat := 29
def sigmsg : Nat := 32

/-- A `sigset_t`: signal `m` is bit `m - 1`. -/
abbrev SigSet := BitVec 32

def sigmask (m : Nat) : SigSet := 1#32 <<< (m - 1)

/-- The test `set & sigmask(m)`. -/
def Has (set : SigSet) (m : Nat) : Prop := set &&& sigmask m ≠ 0

instance (set : SigSet) (m : Nat) : Decidable (Has set m) := inferInstanceAs (Decidable (_ ≠ _))

def sigcantmask : SigSet := sigmask sigkill ||| sigmask sigstop
def ttystopsigmask : SigSet := sigmask sigtstp ||| sigmask sigttin ||| sigmask sigttou
def stopsigmask : SigSet := sigmask sigstop ||| ttystopsigmask
def defaultignmask : SigSet :=
  sigmask sigcont ||| sigmask sigio ||| sigmask sigurg ||| sigmask sigchld ||| sigmask sigwinch |||
    sigmask siginfo ||| sigmask sigmsg

/-- The signals a process can be sent. -/
def Valid (m : Nat) : Prop := 1 ≤ m ∧ m < nsig

instance (m : Nat) : Decidable (Valid m) := inferInstanceAs (Decidable (_ ∧ _))

section Sets

variable {a b : SigSet} {m k : Nat}

theorem Valid.pred_lt (hm : Valid m) : m - 1 < 32 := by
  have := hm.2
  simp only [nsig] at this
  omega

theorem has_iff (hm : Valid m) : Has a m ↔ a.getLsbD (m - 1) = true := by
  rw [Has, sigmask, ← BitVec.twoPow_eq, BitVec.and_twoPow]
  cases a.getLsbD (m - 1) with
  | false => simp
  | true =>
    simp only [if_true, ne_eq, iff_true]
    intro h
    have hbit := congrArg (fun x : BitVec 32 => x.getLsbD (m - 1)) h
    simp [hm.pred_lt] at hbit

theorem has_zero : ¬ Has 0 m := by
  simp [Has]

theorem has_or (hm : Valid m) : Has (a ||| b) m ↔ Has a m ∨ Has b m := by
  rw [has_iff hm, has_iff hm, has_iff hm, BitVec.getLsbD_or, Bool.or_eq_true]

theorem has_and (hm : Valid m) : Has (a &&& b) m ↔ Has a m ∧ Has b m := by
  rw [has_iff hm, has_iff hm, has_iff hm, BitVec.getLsbD_and, Bool.and_eq_true]

theorem has_not (hm : Valid m) : Has (~~~ a) m ↔ ¬ Has a m := by
  rw [has_iff hm, has_iff hm]
  simp [hm.pred_lt]

theorem has_sigmask (hm : Valid m) (hk : Valid k) : Has (sigmask k) m ↔ m = k := by
  rw [has_iff hm, sigmask, ← BitVec.twoPow_eq, BitVec.getLsbD_twoPow]
  have h₁ := hm
  have h₂ := hk
  simp only [Valid, nsig] at h₁ h₂
  simp only [Bool.and_eq_true, decide_eq_true_eq]
  omega

theorem has_clear (hm : Valid m) (hk : Valid k) : Has (a &&& ~~~ sigmask k) m ↔ Has a m ∧ m ≠ k := by
  rw [has_and hm, has_not hm, has_sigmask hm hk]

end Sets

/-! ## A process's signals -/

/-- A handler, as the pointer that it is. -/
abbrev Handler := BitVec 32

def sigDfl : Handler := 0
def sigIgn : Handler := 1

/-- What `struct user` has for signals.  Of `p_flag` the bits SNOCLDSTOP and STRC, of `p_stat` whether it
is SSTOP. -/
structure User where
  uSignal : Nat → Handler
  uSigmask : Nat → SigSet
  uSigintr : SigSet
  uSigonstack : SigSet
  snocldstop : Bool
  strc : Bool
  sstop : Bool
  pSig : SigSet
  pSigmask : SigSet
  pSigignore : SigSet
  pSigcatch : SigSet
  errno : Int

def siginit (p : User) : User := { p with pSigignore := defaultignmask &&& ~~~ sigmask sigcont }

/-- A `struct sigaction`, its flags SA_RESTART, SA_ONSTACK and SA_NOCLDSTOP apart. -/
structure Sigaction where
  handler : Handler
  mask : SigSet
  restart : Bool
  onstack : Bool
  nocldstop : Bool
  deriving DecidableEq, Repr

/-- A `struct sigvec`; `interrupt` is SV_INTERRUPT, the same bit as SA_RESTART in the opposite sense. -/
structure Sigvec where
  handler : Handler
  mask : SigSet
  interrupt : Bool
  onstack : Bool
  nocldstop : Bool
  deriving DecidableEq, Repr

/-- `set |= bit` or `set &= ~bit`. -/
def putBit (set : SigSet) (sig : Nat) (on : Bool) : SigSet :=
  if on then set ||| sigmask sig else set &&& ~~~ sigmask sig

/-- `setsigvec` up to its comment on `p_sigignore`. -/
def setVec (u : User) (sig : Nat) (sa : Sigaction) : User :=
  { u with
    uSignal := Function.update u.uSignal sig sa.handler
    uSigmask := Function.update u.uSigmask sig (sa.mask &&& ~~~ sigcantmask)
    uSigintr := putBit u.uSigintr sig (!sa.restart)
    uSigonstack := putBit u.uSigonstack sig sa.onstack
    snocldstop := if sig = sigchld then sa.nocldstop else u.snocldstop }

/-- The rest of it: the two sets, for the new handler. -/
def setSets (u : User) (sig : Nat) (handler : Handler) : User :=
  if handler = sigIgn ∨ (Has defaultignmask sig ∧ handler = sigDfl) then
    { u with
      pSig := u.pSig &&& ~~~ sigmask sig
      -- SIGCONT is not entered, the process has to be restarted by it
      pSigignore := if sig ≠ sigcont then u.pSigignore ||| sigmask sig else u.pSigignore
      pSigcatch := u.pSigcatch &&& ~~~ sigmask sig }
  else
    { u with
      pSigignore := u.pSigignore &&& ~~~ sigmask sig
      pSigcatch := putBit u.pSigcatch sig (handler ≠ sigDfl) }

def setsigvec (u : User) (sig : Nat) (sa : Sigaction) : User :=
  setSets (setVec u sig sa) sig sa.handler

/-- The test that `sigaction` and `sigvec` start with. -/
def badSig (sig : Int) : Prop := sig ≤ 0 ∨ sig ≥ nsig ∨ sig = sigkill ∨ sig = sigstop

instance (sig : Int) : Decidable (badSig sig) := inferInstanceAs (Decidable (_ ∨ _))

/-- What is written to `*osa`. -/
def oldAction (u : User) (sig : Nat) : Sigaction :=
  { handler := u.uSignal sig, mask := u.uSigmask sig, onstack := Has u.uSigonstack sig,
    restart := ¬ Has u.uSigintr sig, nocldstop := u.snocldstop }

def sigaction (u : User) (sig : Int) (nsa : Option Sigaction) : User × Option Sigaction × Int :=
  if badSig sig then ({ u with errno := 22 }, none, -1) else
  let osa := oldAction u sig.toNat
  match nsa with
  | none => (u, some osa, 0)
  | some sa => (setsigvec u sig.toNat sa, some osa, 0)

/-- What is written to `*osv`. -/
def oldVec (u : User) (sig : Nat) : Sigvec :=
  { handler := u.uSignal sig, mask := u.uSigmask sig, onstack := Has u.uSigonstack sig,
    interrupt := Has u.uSigintr sig, nocldstop := u.snocldstop }

def sigvec (u : User) (sig : Int) (nsv : Option Sigvec) : User × Option Sigvec × Int :=
  if badSig sig then ({ u with errno := 22 }, none, -1) else
  let osv := oldVec u sig.toNat
  match nsv with
  | none => (u, some osv, 0)
  | some sv =>
    (setsigvec u sig.toNat ⟨sv.handler, sv.mask, !sv.interrupt, sv.onstack, sv.nocldstop⟩, some osv, 0)

/-- The first argument of `sigprocmask`. -/
inductive How where
  | block
  | unblock
  | setmask
  | other
  deriving DecidableEq, Repr

def sigprocmask (u : User) (how : How) (mask : SigSet) : User × Int :=
  match how with
  | .block => ({ u with pSigmask := u.pSigmask ||| (mask &&& ~~~ sigcantmask) }, 0)
  | .unblock => ({ u with pSigmask := u.pSigmask &&& ~~~ mask }, 0)
  | .setmask => ({ u with pSigmask := mask &&& ~~~ sigcantmask }, 0)
  | .other => ({ u with errno := 22 }, -1)

/-- What `execve` does about signals. -/
def execve (u : User) : User :=
  { u with
    uSigonstack := 0
    uSigintr := 0
    pSigcatch := 0
    uSignal := fun f => if f < nsig ∧ u.uSignal f ≠ sigIgn then sigDfl else u.uSignal f }

/-! ## Sending a signal -/

/-- SIG_HOLD, SIG_CATCH and SIG_DFL, as `_psignal` uses them. -/
inductive Action where
  | hold
  | catch
  | dfl
  deriving DecidableEq, Repr

/-- The pending set with `sig` in it. -/
def pend (p : User) (sig : Nat) : User :=
  let pSig :=
    if sig = sigcont then p.pSig &&& ~~~ stopsigmask
    else if sig = sigtstp ∨ sig = sigttin ∨ sig = sigttou ∨ sig = sigstop then
      p.pSig &&& ~~~ sigmask sigcont
    else p.pSig
  { p with pSig := pSig ||| sigmask sig }

/-- `_psignal` from its `switch` on, with whether it calls `setrun`. -/
def post (p : User) (sig : Nat) (action : Action) : User × Bool :=
  let p := pend p sig
  if action = .hold ∧ (sig ≠ sigcont ∨ ¬ p.sstop) then (p, false)
  else if p.sstop ∧ p.strc then (p, false)
  else (p, true)

/-- A signal raised by a trap, which would be raised again at once if it were ignored or masked: it is made
a SIGILL that is neither. -/
def Converts (p : User) (sig : Nat) : Prop :=
  (Has p.pSigignore sig ∨ Has p.pSigmask sig) ∧
    (sig = sigill ∨ sig = sigbus ∨ sig = sigfpe ∨ sig = sigtrap ∨ sig = sigemt)

instance (p : User) (sig : Nat) : Decidable (Converts p sig) := inferInstanceAs (Decidable (_ ∧ _))

def resetSigill (p : User) : User :=
  { p with
    pSigignore := p.pSigignore &&& ~~~ sigmask sigill
    pSigmask := p.pSigmask &&& ~~~ sigmask sigill
    pSigcatch := p.pSigcatch &&& ~~~ sigmask sigill }

/-- A signal that is not discarded as ignored. -/
def dispatch (p : User) (sig : Nat) : User × Bool :=
  if Has p.pSigignore sig then (p, false)
  else post p sig (if Has p.pSigmask sig then .hold else if Has p.pSigcatch sig then .catch else .dfl)

def psignal (p : User) (sig : Nat) : User × Bool :=
  if p.strc then post p sig .dfl
  else if Converts p sig then dispatch (resetSigill p) sigill
  else dispatch p sig

/-! ## The two records -/

/-- **The sets agree with the handlers.** -/
structure Agree (u : User) : Prop where
  catch_iff : ∀ s, Valid s → (Has u.pSigcatch s ↔ u.uSignal s ≠ sigDfl ∧ u.uSignal s ≠ sigIgn)
  ignore_iff : ∀ s, Valid s → (Has u.pSigignore s ↔
    s ≠ sigcont ∧ (u.uSignal s = sigIgn ∨ (u.uSignal s = sigDfl ∧ Has defaultignmask s)))
  kill : ¬ Has u.pSigcatch sigkill ∧ ¬ Has u.pSigignore sigkill
  stop : ¬ Has u.pSigcatch sigstop ∧ ¬ Has u.pSigignore sigstop

variable {u v : User} {sig : Nat}

theorem agree_siginit (hdfl : ∀ s, u.uSignal s = sigDfl) (hcatch : u.pSigcatch = 0) : Agree (siginit u) where
  catch_iff := by
    intro s _
    show Has u.pSigcatch s ↔ u.uSignal s ≠ sigDfl ∧ _
    rw [hdfl, hcatch]
    exact iff_of_false has_zero fun h => h.1 rfl
  ignore_iff := by
    intro s hs
    have hne : sigDfl ≠ sigIgn := by decide
    show Has (defaultignmask &&& ~~~ sigmask sigcont) s ↔ _
    rw [has_clear hs (by decide)]
    simp only [siginit, hdfl, hne, false_or, true_and]
    exact and_comm
  kill := by
    simp only [siginit, hcatch]
    decide
  stop := by
    simp only [siginit, hcatch]
    decide

theorem agree_congr (hc : v.pSigcatch = u.pSigcatch) (hi : v.pSigignore = u.pSigignore)
    (hs : v.uSignal = u.uSignal) : Agree v ↔ Agree u := by
  have hof : ∀ {u v : User}, v.pSigcatch = u.pSigcatch → v.pSigignore = u.pSigignore →
      v.uSignal = u.uSignal → Agree u → Agree v := by
    intro u v hc hi hs h
    refine ⟨?_, ?_, ?_, ?_⟩
    · rw [hc, hs]
      exact h.catch_iff
    · rw [hi, hs]
      exact h.ignore_iff
    · rw [hc, hi]
      exact h.kill
    · rw [hc, hi]
      exact h.stop
  exact ⟨hof hc.symm hi.symm hs.symm, hof hc hi hs⟩

theorem has_putBit {set : SigSet} {s : Nat} (hs : Valid s) (hsig : Valid sig) (on : Bool) :
    Has (putBit set sig on) s ↔ if s = sig then on = true else Has set s := by
  unfold putBit
  cases on with
  | true =>
    rw [if_pos rfl, has_or hs, has_sigmask hs hsig]
    split <;> simp_all
  | false =>
    rw [if_neg Bool.false_ne_true, has_clear hs hsig]
    split <;> simp_all

theorem setsigvec_uSignal (u : User) (sig : Nat) (sa : Sigaction) :
    (setsigvec u sig sa).uSignal = Function.update u.uSignal sig sa.handler := by
  unfold setsigvec setSets
  split <;> rfl

theorem setsigvec_strc (u : User) (sig : Nat) (sa : Sigaction) : (setsigvec u sig sa).strc = u.strc := by
  unfold setsigvec setSets
  split <;> rfl

theorem has_setsigvec_pSigcatch {s : Nat} (hs : Valid s) (hsig : Valid sig) (sa : Sigaction) :
    Has (setsigvec u sig sa).pSigcatch s ↔
      if s = sig then sa.handler ≠ sigDfl ∧ sa.handler ≠ sigIgn else Has u.pSigcatch s := by
  unfold setsigvec setSets
  split
  case isTrue hign =>
    show Has (putBit u.pSigcatch sig false) s ↔ _
    rw [has_putBit hs hsig]
    split
    · exact iff_of_false Bool.false_ne_true fun h => hign.elim h.2 fun hdfl => h.1 hdfl.2
    · rfl
  case isFalse hign =>
    show Has (putBit u.pSigcatch sig (sa.handler ≠ sigDfl)) s ↔ _
    rw [has_putBit hs hsig, decide_eq_true_eq]
    rw [not_or] at hign
    split
    · exact ⟨fun h => ⟨h, hign.1⟩, fun h => h.1⟩
    · rfl

theorem has_setsigvec_pSigignore {s : Nat} (hs : Valid s) (hsig : Valid sig) (sa : Sigaction)
    (hcont : ¬ Has u.pSigignore sigcont) :
    Has (setsigvec u sig sa).pSigignore s ↔
      if s = sig then s ≠ sigcont ∧ (sa.handler = sigIgn ∨ (sa.handler = sigDfl ∧ Has defaultignmask s))
      else Has u.pSigignore s := by
  unfold setsigvec setSets
  split
  case isTrue hign =>
    show Has (if sig ≠ sigcont then putBit u.pSigignore sig true else u.pSigignore) s ↔ _
    by_cases hsc : sig = sigcont
    · rw [if_neg (not_not_intro hsc)]
      split
      case isTrue heq => simp [heq, hsc, hcont]
      case isFalse => rfl
    · rw [if_pos hsc, has_putBit hs hsig]
      split
      case isTrue heq =>
        subst heq
        exact iff_of_true rfl ⟨hsc, hign.imp id And.symm⟩
      case isFalse => rfl
  case isFalse hign =>
    show Has (putBit u.pSigignore sig false) s ↔ _
    rw [has_putBit hs hsig]
    split
    case isTrue heq =>
      subst heq
      exact iff_of_false Bool.false_ne_true fun h => hign (h.2.imp id And.symm)
    case isFalse => rfl

theorem Agree.setsigvec (h : Agree u) (hsig : Valid sig) (hkill : sig ≠ sigkill) (hstop : sig ≠ sigstop)
    (sa : Sigaction) : Agree (setsigvec u sig sa) := by
  have hcont : ¬ Has u.pSigignore sigcont := by
    rw [h.ignore_iff sigcont (by decide)]
    exact fun hc => hc.1 rfl
  refine ⟨?_, ?_, ?_, ?_⟩
  · intro s hs
    rw [has_setsigvec_pSigcatch hs hsig, setsigvec_uSignal]
    split
    case isTrue heq => simp [heq]
    case isFalse hne => rw [Function.update_of_ne hne, h.catch_iff s hs]
  · intro s hs
    rw [has_setsigvec_pSigignore hs hsig sa hcont, setsigvec_uSignal]
    split
    case isTrue heq => simp [heq]
    case isFalse hne => rw [Function.update_of_ne hne, h.ignore_iff s hs]
  · rw [has_setsigvec_pSigcatch (by decide) hsig, has_setsigvec_pSigignore (by decide) hsig sa hcont,
      if_neg hkill.symm, if_neg hkill.symm]
    exact h.kill
  · rw [has_setsigvec_pSigcatch (by decide) hsig, has_setsigvec_pSigignore (by decide) hsig sa hcont,
      if_neg hstop.symm, if_neg hstop.symm]
    exact h.stop

theorem of_not_badSig {sig : Int} (h : ¬ badSig sig) :
    Valid sig.toNat ∧ sig.toNat ≠ sigkill ∧ sig.toNat ≠ sigstop := by
  simp only [badSig, not_or, nsig, sigkill, sigstop] at h
  simp only [Valid, nsig, sigkill, sigstop]
  omega

theorem Agree.sigaction (h : Agree u) (sig : Int) (nsa : Option Sigaction) :
    Agree (sigaction u sig nsa).1 := by
  unfold KernSig.sigaction
  split
  · refine (agree_congr ?_ ?_ ?_).mpr h <;> rfl
  case isFalse hbad =>
    obtain ⟨hsig, hkill, hstop⟩ := of_not_badSig hbad
    cases nsa with
    | none => exact h
    | some sa => exact h.setsigvec hsig hkill hstop sa

theorem Agree.sigvec (h : Agree u) (sig : Int) (nsv : Option Sigvec) : Agree (sigvec u sig nsv).1 := by
  unfold KernSig.sigvec
  split
  · refine (agree_congr ?_ ?_ ?_).mpr h <;> rfl
  case isFalse hbad =>
    obtain ⟨hsig, hkill, hstop⟩ := of_not_badSig hbad
    cases nsv with
    | none => exact h
    | some => exact h.setsigvec hsig hkill hstop _

/-! What `_psignal` does to the sets and the handlers. -/

theorem post_sets (p : User) (sig : Nat) (action : Action) :
    (post p sig action).1.pSigcatch = p.pSigcatch ∧ (post p sig action).1.pSigignore = p.pSigignore ∧
      (post p sig action).1.uSignal = p.uSignal ∧ (post p sig action).1.strc = p.strc := by
  unfold post
  simp only
  split
  · exact ⟨rfl, rfl, rfl, rfl⟩
  · split <;> exact ⟨rfl, rfl, rfl, rfl⟩

theorem dispatch_sets (p : User) (sig : Nat) :
    (dispatch p sig).1.pSigcatch = p.pSigcatch ∧ (dispatch p sig).1.pSigignore = p.pSigignore ∧
      (dispatch p sig).1.uSignal = p.uSignal ∧ (dispatch p sig).1.strc = p.strc := by
  unfold dispatch
  split
  · exact ⟨rfl, rfl, rfl, rfl⟩
  · exact post_sets _ _ _

theorem agree_resetSigill_iff (h : Agree u) : Agree (resetSigill u) ↔ u.uSignal sigill = sigDfl := by
  have hill : Valid sigill := by decide
  have hcatch : ∀ s, Valid s → (Has (resetSigill u).pSigcatch s ↔ Has u.pSigcatch s ∧ s ≠ sigill) :=
    fun s hs => has_clear hs hill
  have hignore : ∀ s, Valid s → (Has (resetSigill u).pSigignore s ↔ Has u.pSigignore s ∧ s ≠ sigill) :=
    fun s hs => has_clear hs hill
  constructor
  · intro h'
    have h₁ := h'.catch_iff sigill hill
    have h₂ := h'.ignore_iff sigill hill
    rw [hcatch sigill hill] at h₁
    rw [hignore sigill hill] at h₂
    have hcont : sigill ≠ sigcont := by decide
    apply Decidable.byContradiction
    intro hne
    by_cases hign : u.uSignal sigill = sigIgn
    · exact (h₂.mpr ⟨hcont, .inl hign⟩).2 rfl
    · exact (h₁.mpr ⟨hne, hign⟩).2 rfl
  · intro hdfl
    have hni : ¬ Has u.pSigignore sigill := by
      rw [h.ignore_iff sigill hill, hdfl]
      decide
    have hnc : ¬ Has u.pSigcatch sigill := by
      rw [h.catch_iff sigill hill, hdfl]
      exact fun hc => hc.1 rfl
    refine ⟨?_, ?_, ?_, ?_⟩
    · intro s hs
      rw [hcatch s hs]
      refine Iff.trans ⟨And.left, fun hc => ⟨hc, ?_⟩⟩ (h.catch_iff s hs)
      rintro rfl
      exact hnc hc
    · intro s hs
      rw [hignore s hs]
      refine Iff.trans ⟨And.left, fun hc => ⟨hc, ?_⟩⟩ (h.ignore_iff s hs)
      rintro rfl
      exact hni hc
    · rw [hcatch sigkill (by decide), hignore sigkill (by decide)]
      exact ⟨fun hc => h.kill.1 hc.1, fun hc => h.kill.2 hc.1⟩
    · rw [hcatch sigstop (by decide), hignore sigstop (by decide)]
      exact ⟨fun hc => h.stop.1 hc.1, fun hc => h.stop.2 hc.1⟩

theorem agree_psignal_iff (h : Agree u) (hstrc : u.strc = false) :
    Agree (psignal u sig).1 ↔ (Converts u sig → u.uSignal sigill = sigDfl) := by
  rw [psignal, if_neg (by simp [hstrc])]
  split
  case isTrue hconv =>
    obtain ⟨h₁, h₂, h₃, _⟩ := dispatch_sets (resetSigill u) sigill
    rw [agree_congr h₁ h₂ h₃, agree_resetSigill_iff h]
    exact ⟨fun hd _ => hd, fun hd => hd hconv⟩
  case isFalse hconv =>
    obtain ⟨h₁, h₂, h₃, _⟩ := dispatch_sets u sig
    rw [agree_congr h₁ h₂ h₃]
    exact iff_of_true h fun hc => absurd hc hconv

/-- No caught signal may be one that is ignored by default: it would get its default back and not be
ignored. -/
theorem agree_execve_iff (h : Agree u) :
    Agree (execve u) ↔ ∀ s < nsig, 1 ≤ s → s ≠ sigcont → Has defaultignmask s →
      u.uSignal s = sigDfl ∨ u.uSignal s = sigIgn := by
  have hnew : ∀ s, Valid s → (execve u).uSignal s = if u.uSignal s ≠ sigIgn then sigDfl else sigIgn := by
    intro s hs
    simp only [execve, hs.2, true_and]
    split
    · rfl
    case isFalse hign => exact not_not.mp hign
  have hne : sigDfl ≠ sigIgn := by decide
  constructor
  · intro h' s hlt hpos hcont hdef
    have hs : Valid s := ⟨hpos, hlt⟩
    apply Decidable.byContradiction
    intro hcaught
    rw [not_or] at hcaught
    -- the signal is now at its default, and should be ignored
    have hign : Has u.pSigignore s := by
      apply (h'.ignore_iff s hs).mpr
      refine ⟨hcont, .inr ⟨?_, hdef⟩⟩
      rw [hnew s hs, if_pos hcaught.2]
    obtain ⟨_, hor | ⟨hdfl, _⟩⟩ := (h.ignore_iff s hs).mp hign
    · exact hcaught.2 hor
    · exact hcaught.1 hdfl
  · intro hall
    refine ⟨?_, ?_, ?_, ?_⟩
    · intro s hs
      rw [hnew s hs]
      refine iff_of_false has_zero ?_
      rintro ⟨h₁, h₂⟩
      split at h₁
      · exact h₁ rfl
      case isFalse hign => exact h₂ (by rw [if_neg hign])
    · intro s hs
      show Has u.pSigignore s ↔ _
      rw [h.ignore_iff s hs, hnew s hs]
      refine and_congr_right fun hcont => ?_
      by_cases hign : u.uSignal s = sigIgn
      · simp [hign]
      · simp only [hign, ne_eq, not_false_iff, if_true, hne, false_or, true_and]
        refine ⟨And.right, fun hdef => ⟨?_, hdef⟩⟩
        exact (hall s hs.2 hs.1 hcont hdef).resolve_right hign
    · exact ⟨has_zero, h.kill.2⟩
    · exact ⟨has_zero, h.stop.2⟩

/-! ## Runs -/

inductive Op where
  | sigaction (sig : Int) (nsa : Option Sigaction)
  | sigvec (sig : Int) (nsv : Option Sigvec)
  | sigprocmask (how : How) (mask : SigSet)
  | psignal (sig : Nat)
  | execve

def Op.run (u : User) : Op → User
  | .sigaction sig nsa => (KernSig.sigaction u sig nsa).1
  | .sigvec sig nsv => (KernSig.sigvec u sig nsv).1
  | .sigprocmask how mask => (KernSig.sigprocmask u how mask).1
  | .psignal sig => (KernSig.psignal u sig).1
  | .execve => KernSig.execve u

/-- `kill` and the other senders pass a signal. -/
def Op.Enabled (_ : User) : Op → Prop
  | .psignal sig => Valid sig
  | _ => True

instance (u : User) (op : Op) : Decidable (op.Enabled u) := by
  cases op <;> unfold Op.Enabled <;> infer_instance

def Step (u : User) (op : Op) (v : User) : Prop := op.Enabled u ∧ v = op.run u

/-- The condition on a step: a trap signal is not turned into SIGILL while that has a handler or is ignored,
and `execve` is not called while a signal is caught that is ignored by default, SIGCONT apart. -/
def Meets (u : User) : Op → Prop
  | .psignal sig => Converts u sig → u.uSignal sigill = sigDfl
  | .execve => ∀ s < nsig, 1 ≤ s → s ≠ sigcont → Has defaultignmask s →
    u.uSignal s = sigDfl ∨ u.uSignal s = sigIgn
  | _ => True

instance (u : User) (op : Op) : Decidable (Meets u op) := by
  cases op <;> unfold Meets <;> infer_instance

theorem run_strc (u : User) (op : Op) : (op.run u).strc = u.strc := by
  cases op with
  | sigaction sig nsa =>
    show (KernSig.sigaction u sig nsa).1.strc = u.strc
    fun_cases KernSig.sigaction u sig nsa with
    | case3 => exact setsigvec_strc _ _ _
    | _ => rfl
  | sigvec sig nsv =>
    show (KernSig.sigvec u sig nsv).1.strc = u.strc
    fun_cases KernSig.sigvec u sig nsv with
    | case3 => exact setsigvec_strc _ _ _
    | _ => rfl
  | sigprocmask how => cases how <;> rfl
  | psignal sig =>
    show (KernSig.psignal u sig).1.strc = u.strc
    fun_cases KernSig.psignal u sig with
    | case1 => exact (post_sets _ _ _).2.2.2
    | _ => exact (dispatch_sets _ _).2.2.2
  | execve => rfl

/-- **One step** of an untraced process. -/
theorem step_agree_iff {op : Op} (h : Agree u) (hstrc : u.strc = false) : Agree (op.run u) ↔ Meets u op := by
  cases op with
  | sigaction sig nsa => exact iff_of_true (h.sigaction sig nsa) trivial
  | sigvec sig nsv => exact iff_of_true (h.sigvec sig nsv) trivial
  | sigprocmask how =>
    refine iff_of_true ?_ trivial
    cases how <;> refine (agree_congr ?_ ?_ ?_).mpr h <;> rfl
  | psignal => exact agree_psignal_iff h hstrc
  | execve => exact agree_execve_iff h

/-- **The sets and the handlers of an untraced process agree throughout a run exactly if each of its steps
met the condition.** -/
theorem agree_iff {tr : List (User × Op)} (hdfl : ∀ s, u.uSignal s = sigDfl) (hcatch : u.pSigcatch = 0)
    (hstrc : u.strc = false) (h : History Step (siginit u) tr v) :
    ((∀ x ∈ tr, Agree x.1) ∧ Agree v) ↔ ∀ x ∈ tr, Meets x.1 x.2 := by
  refine h.always_iff_of_invariant (I := fun u => u.strc = false ∧ Agree u) (fun _ hu => hu.2)
    (fun u op v hu hmeets hstep => ?_) (fun u op v hu hstep hv => ?_) ⟨hstrc, agree_siginit hdfl hcatch⟩
  · obtain ⟨-, rfl⟩ := hstep
    exact ⟨(run_strc u op).trans hu.1, (step_agree_iff hu.2 hu.1).mpr hmeets⟩
  · obtain ⟨-, rfl⟩ := hstep
    exact (step_agree_iff hu.2 hu.1).mp hv

/-- A process as `ix_open` finds it. -/
def fresh : User := ⟨fun _ => sigDfl, fun _ => 0, 0, 0, false, false, false, 0, 0, 0, 0, 0⟩

/-- SIGINT caught, SIGHUP ignored, and a new program started. -/
theorem agree_iff_execve : ∃ tr v, History Step (siginit fresh) tr v ∧ v.uSignal 1 = sigIgn ∧
    v.uSignal 2 = sigDfl ∧ ((∀ x ∈ tr, Agree x.1) ∧ Agree v) := by
  have h : History Step (siginit fresh) _ _ := (History.nil (siginit fresh)).trace
    [Op.sigaction 2 (some ⟨0x1000, 0, true, false, false⟩),
      Op.sigaction 1 (some ⟨sigIgn, 0, true, false, false⟩), Op.execve] (by decide)
  refine ⟨_, _, h, by decide, by decide, ?_⟩
  exact (agree_iff (fun _ => rfl) rfl rfl h).mpr (by decide)

/-- SIGCHLD is caught, the process starts another program, and SIGCHLD, back at its default, is not
ignored.  SIGILL is ignored and then raised by a trap: it is no longer in the set, and its handler still is
SIG_IGN. -/
theorem sets_disagree :
    (∃ tr v, History Step (siginit fresh) tr v ∧ v.uSignal sigchld = sigDfl ∧ ¬ Has v.pSigignore sigchld) ∧
    ∃ tr v, History Step (siginit fresh) tr v ∧ v.uSignal sigill = sigIgn ∧ ¬ Has v.pSigignore sigill := by
  have h₁ : History Step (siginit fresh) _ _ := (History.nil (siginit fresh)).trace
    [Op.sigaction 20 (some ⟨0x1000, 0, true, false, false⟩), Op.execve] (by decide)
  have h₂ : History Step (siginit fresh) _ _ := (History.nil (siginit fresh)).trace
    [Op.sigaction 4 (some ⟨sigIgn, 0, true, false, false⟩), Op.psignal 4] (by decide)
  exact ⟨⟨_, _, h₁, by decide, by decide⟩, _, _, h₂, by decide, by decide⟩

end Ixemul.KernSig
