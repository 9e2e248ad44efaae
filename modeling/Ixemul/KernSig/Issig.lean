/-
# Ixemul.KernSig.Issig — choosing and delivering a signal (kern_sig.c).

`issig` looks for the signal that the current process is to take next, and drops those on its way that have
no effect; `psig` delivers it, by a frame on the user stack, and asks for the next one.  `trapsignal` is how
a processor trap becomes a signal.  `_psignal` looks at the sets `p_sigignore`, `p_sigmask` and
`p_sigcatch`, the other two at the handler in `u_signal`.  A trap signal that is ignored or masked is made a
SIGILL, which is taken out of the sets so that it is fatal; but a handler for SIGILL stays in the table.
-/
import Ixemul.KernSig

namespace Ixemul.KernSig

open List

def sigquit : Nat := 3
def sigiot : Nat := 6
def sigsegv : Nat := 11
def sigsys : Nat := 12

/-- What a signal frame calls. -/
inductive Catcher where
  | handler (h : Handler)
  | sigExit
  | stoppedProcessHandler
  deriving DecidableEq, Repr

/-- A frame pushed by `sendsig`: `mask` is the signal mask to go back to, `scMask` the one that the handler
runs with. -/
structure Sigframe where
  handler : Catcher
  signum : Nat
  mask : SigSet
  code : Nat
  scMask : SigSet
  deriving DecidableEq, Repr

/-- The rest of what the delivery of signals uses.  Of `p_flag` the bits SVFORK and SOMASK, of `p_stat`
whether it is SWAIT; `frames` are the signal frames on the user stack. -/
structure Proc extends User where
  svfork : Bool
  somask : Bool
  swait : Bool
  uOldmask : SigSet
  uMaskState : SigSet
  pXstat : Nat
  uSig : Nat
  uCode : Nat
  ruNsignals : Nat
  frames : List Sigframe

def sendsig (p : Proc) (catcher : Catcher) (sig : Nat) (mask : SigSet) (code : Nat) : Proc :=
  { p with frames := p.frames ++ [⟨catcher, sig, mask, code, p.pSigmask⟩] }

/-- `p->p_sig &= ~sigmask(sig)`. -/
def clrsig (p : Proc) (sig : Nat) : Proc := { p with pSig := p.pSig &&& ~~~ sigmask sig }

/-- The number of the lowest bit, counted from 1; 0 if there is none. -/
def ffs (value : SigSet) : Nat :=
  match (range 32).find? (fun d0 => value.getLsbD d0) with
  | some d0 => d0 + 1
  | none => 0

/-! ## issig -/

/-- The signals that `issig` may look at. -/
def candidates (p : Proc) : SigSet :=
  if p.svfork then p.pSig &&& ~~~ p.pSigmask &&& ~~~ stopsigmask else p.pSig &&& ~~~ p.pSigmask

/-- The `switch` at the end of the loop: whether the signal is returned. -/
def Acts (p : Proc) (sig : Nat) : Prop :=
  if p.uSignal sig = sigDfl then ¬ Has stopsigmask sig ∧ ¬ Has defaultignmask sig
  else p.uSignal sig ≠ sigIgn

instance (p : Proc) (sig : Nat) : Decidable (Acts p sig) :=
  inferInstanceAs (Decidable (ite (_ = _) _ _))

/-- The end of a pass: the signal is returned, or dropped and the loop goes on. -/
def act (p : Proc) (sig : Nat) : Proc × Option Int :=
  if Acts p sig then (p, some sig) else (clrsig p sig, none)

/-- From the label `restart` on, when the parent has let the process go on. -/
def restart (p : Proc) (mask : SigSet) : Proc × Option Int :=
  let p := { p with pSig := p.pSig &&& ~~~ mask }
  let sig := p.pXstat
  if sig = 0 then (p, none)
  else
    let p := { p with pSig := p.pSig ||| sigmask sig }
    if Has p.pSigmask sig then (p, none) else act p sig

section Issig

/-! The process is in supervisor mode or not, and `stopped` is what becomes of it while it is stopped in
`stopped_process_handler`, until its parent has it go on. -/

variable (supervisor : Bool) (stopped : Proc → Proc)

/-- One pass through the loop of `issig`, with the value it returns if it does. -/
def pass (p : Proc) : Proc × Option Int :=
  if candidates p = 0 then (p, some 0)
  else
    let sig := ffs (candidates p)
    if Has p.pSigignore sig ∧ p.strc = false then (clrsig p sig, none)
    else if p.swait = false ∧ p.strc = true ∧ p.svfork = false then
      let p := { p with pXstat := sig }
      if supervisor then
        (sendsig { p with uMaskState := sigmask sig } .stoppedProcessHandler 0 0 0, some (-1))
      else restart (stopped p) (sigmask sig)
    else act p sig

/-- At most `fuel` passes. -/
def issigLoop : Nat → Proc → Option (Proc × Int)
  | 0, _ => none
  | fuel + 1, p =>
    match pass supervisor stopped p with
    | (p, some sig) => some (p, sig)
    | (p, none) => issigLoop fuel p

def issig (fuel : Nat) (p : Proc) : Option (Proc × Int) :=
  if p.uMaskState ≠ 0 then
    match restart { p with uMaskState := 0 } p.uMaskState with
    | (p, some sig) => some (p, sig)
    | (p, none) => issigLoop supervisor stopped fuel p
  else issigLoop supervisor stopped fuel p

/-- CURSIG. -/
def cursig (fuel : Nat) (p : Proc) : Option (Proc × Int) :=
  if p.pSig = 0 ∨ (p.strc = false ∧ p.pSig &&& ~~~ p.pSigmask = 0) then some (p, 0)
  else issig supervisor stopped fuel p

/-! ## psig -/

/-- A signal with an action.  After a sigpause the mask from before it is the one to go back to. -/
def catchSig (p : Proc) (sig : Nat) : Proc :=
  let returnmask := if p.somask then p.uOldmask else p.pSigmask
  let code := if p.uSig ≠ sig then 0 else p.uCode
  sendsig
    { p with
      somask := false
      pSigmask := p.pSigmask ||| (p.uSigmask sig ||| sigmask sig)
      ruNsignals := p.ruNsignals + 1
      uCode := if p.uSig ≠ sig then p.uCode else 0 }
    (.handler (p.uSignal sig)) sig returnmask code

/-- The signals that leave a core dump; `core` always fails. -/
def coreSignals : List Nat :=
  [sigill, sigiot, sigbus, sigquit, sigtrap, sigemt, sigfpe, sigsegv, sigsys]

/-- One pass of `psig`. -/
def deliver (p : Proc) (sig : Nat) : Proc :=
  let p := clrsig p sig
  if p.uSignal sig ≠ sigDfl then catchSig p sig
  else sendsig { p with uSig := if sig ∈ coreSignals then sig else p.uSig } .sigExit sig 0 0

/-- At most `fuel` signals, with as many passes for each in `issig`. -/
def psig (budget : Nat) : Nat → Proc → Int → Option Proc
  | 0, _, _ => none
  | fuel + 1, p, sig =>
    if sig = -1 then some p
    else
      match cursig supervisor stopped budget (deliver p sig.toNat) with
      | none => none
      | some (p, sig) => if sig = 0 then some p else psig budget fuel p sig

end Issig

def trapsignal (p : Proc) (sig code : Nat) : Proc :=
  if p.strc = false ∧ Has p.pSigcatch sig ∧ ¬ Has p.pSigmask sig then
    let q := sendsig { p with ruNsignals := p.ruNsignals + 1 } (.handler (p.uSignal sig)) sig p.pSigmask code
    { q with pSigmask := q.pSigmask ||| (q.uSigmask sig ||| sigmask sig) }
  else { p with toUser := (psignal p.toUser sig).1, uCode := code }

/-! ## The signals that are looked at -/

section Scan

variable {a b : SigSet} {m s : Nat}

theorem sigSet_ext (h : ∀ s, Valid s → (Has a s ↔ Has b s)) : a = b := by
  apply BitVec.eq_of_getLsbD_eq
  intro i hi
  have hv : Valid (i + 1) := ⟨by omega, by simp only [nsig]; omega⟩
  have hbit := h (i + 1) hv
  rw [has_iff hv, has_iff hv] at hbit
  exact Bool.eq_iff_iff.mpr hbit

theorem exists_has (h : a ≠ 0) : ∃ s, Valid s ∧ Has a s := by
  by_contra hnone
  push Not at hnone
  exact h (sigSet_ext fun s hs => iff_of_false (hnone s hs) has_zero)

theorem ffs_spec (h : a ≠ 0) : Valid (ffs a) ∧ Has a (ffs a) ∧ ∀ s, Valid s → Has a s → ffs a ≤ s := by
  unfold ffs
  cases hfind : (range 32).find? (fun d0 => a.getLsbD d0) with
  | none =>
    rw [find?_range_eq_none] at hfind
    obtain ⟨s, hs, hhas⟩ := exists_has h
    rw [has_iff hs] at hhas
    have hs' := hs
    simp only [Valid, nsig] at hs'
    have := hfind (s - 1) (by omega)
    simp [hhas] at this
  | some d0 =>
    obtain ⟨hbit, hlt, hmin⟩ := find?_range_eq_some.mp hfind
    rw [mem_range] at hlt
    have hv : Valid (d0 + 1) := ⟨by omega, by simp only [nsig]; omega⟩
    refine ⟨hv, (has_iff hv).mpr hbit, fun s hs hhas => ?_⟩
    show d0 + 1 ≤ s
    by_contra hless
    rw [has_iff hs] at hhas
    have := hmin (s - 1) (by have := hs.1; omega)
    simp [hhas] at this

end Scan

/-- Pending, not masked and, in a process that was vforked, not a stop signal. -/
def Scanned (p : Proc) (s : Nat) : Prop :=
  Has p.pSig s ∧ ¬ Has p.pSigmask s ∧ ¬ (p.svfork = true ∧ Has stopsigmask s)

/-- A signal that is to be returned. -/
def Deliverable (p : Proc) (s : Nat) : Prop :=
  Valid s ∧ Scanned p s ∧ ¬ Has p.pSigignore s ∧
    ((p.uSignal s ≠ sigDfl ∧ p.uSignal s ≠ sigIgn) ∨
      (p.uSignal s = sigDfl ∧ ¬ Has stopsigmask s ∧ ¬ Has defaultignmask s))

theorem has_candidates {p : Proc} {s : Nat} (hs : Valid s) : Has (candidates p) s ↔ Scanned p s := by
  unfold candidates Scanned
  split
  · rename_i hfork
    rw [has_and hs, has_and hs, has_not hs, has_not hs]
    simp [hfork, and_assoc]
  · rename_i hfork
    rw [has_and hs, has_not hs]
    simp [hfork]

theorem acts_iff (p : Proc) (s : Nat) :
    Acts p s ↔ (p.uSignal s ≠ sigDfl ∧ p.uSignal s ≠ sigIgn) ∨
      (p.uSignal s = sigDfl ∧ ¬ Has stopsigmask s ∧ ¬ Has defaultignmask s) := by
  unfold Acts
  split
  · rename_i hdfl
    simp [hdfl]
  · rename_i hdfl
    simp [hdfl]

/-! ## One pass and the loop -/

section Loop

variable {supervisor : Bool} {stopped : Proc → Proc} {p : Proc}

/-- **One pass** of an untraced process: either nothing is left, or the smallest signal that is looked at is
returned or dropped. -/
theorem pass_untraced (hstrc : p.strc = false) :
    ((∀ s, Valid s → ¬ Scanned p s) ∧ pass supervisor stopped p = (p, some 0)) ∨
      ∃ sig, Valid sig ∧ Scanned p sig ∧ (∀ s, Valid s → Scanned p s → sig ≤ s) ∧
        ((Deliverable p sig ∧ pass supervisor stopped p = (p, some (sig : Int))) ∨
          (¬ Deliverable p sig ∧ pass supervisor stopped p = (clrsig p sig, none))) := by
  unfold pass
  by_cases hnone : candidates p = 0
  · refine .inl ⟨fun s hs => ?_, by rw [if_pos hnone]⟩
    rw [← has_candidates hs, hnone]
    exact has_zero
  · right
    obtain ⟨hv, hhas, hmin⟩ := ffs_spec hnone
    refine ⟨ffs (candidates p), hv, (has_candidates hv).mp hhas,
      fun s hs hscan => hmin s hs ((has_candidates hs).mpr hscan), ?_⟩
    have hscan := (has_candidates hv).mp hhas
    rw [if_neg hnone]
    by_cases hign : Has p.pSigignore (ffs (candidates p))
    · right
      exact ⟨fun hd => hd.2.2.1 hign, by simp only [hign, hstrc, and_self, if_true]⟩
    · simp only [hign, hstrc, false_and, and_false, if_false, Bool.false_eq_true]
      unfold act
      by_cases hacts : Acts p (ffs (candidates p))
      · left
        exact ⟨⟨hv, hscan, hign, (acts_iff p _).mp hacts⟩, by rw [if_pos hacts]⟩
      · right
        exact ⟨fun hd => hacts ((acts_iff p _).mpr hd.2.2.2), by rw [if_neg hacts]⟩

/-- `x` is the pending set without the signals up to `m` that were looked at. -/
def DroppedTo (p : Proc) (m : Nat) (x : SigSet) : Prop :=
  ∀ s, Valid s → (Has x s ↔ Has p.pSig s ∧ ¬ (Scanned p s ∧ s ≤ m))

theorem scanned_dropped {m s : Nat} {x : SigSet} (hx : DroppedTo p m x) (hs : Valid s) :
    Scanned { p with pSig := x } s ↔ Scanned p s ∧ m < s := by
  simp only [hx s hs, Scanned]
  constructor
  · rintro ⟨⟨hpend, hnot⟩, hmask, hstop⟩
    refine ⟨⟨hpend, hmask, hstop⟩, ?_⟩
    by_contra hle
    exact hnot ⟨⟨hpend, hmask, hstop⟩, not_lt.mp hle⟩
  · rintro ⟨⟨hpend, hmask, hstop⟩, hlt⟩
    exact ⟨⟨hpend, fun h => absurd h.2 (not_le.mpr hlt)⟩, hmask, hstop⟩

theorem deliverable_dropped {m s : Nat} {x : SigSet} (hx : DroppedTo p m x) :
    Deliverable { p with pSig := x } s ↔ Deliverable p s ∧ m < s := by
  constructor
  · rintro ⟨hs, hscan, hrest⟩
    obtain ⟨hscan, hlt⟩ := (scanned_dropped hx hs).mp hscan
    exact ⟨⟨hs, hscan, hrest⟩, hlt⟩
  · rintro ⟨⟨hs, hscan, hrest⟩, hlt⟩
    exact ⟨hs, (scanned_dropped hx hs).mpr ⟨hscan, hlt⟩, hrest⟩

/-- What `issig` returns, and what it leaves pending. -/
structure Chosen (p : Proc) (sig : Nat) (x : SigSet) : Prop where
  least : ∀ s, Deliverable p s → sig ≠ 0 ∧ sig ≤ s
  found : sig ≠ 0 → Deliverable p sig
  left : ∀ s, Valid s → (Has x s ↔ Has p.pSig s ∧ ¬ (Scanned p s ∧ (sig = 0 ∨ s < sig)))

theorem issigLoop_spec (hstrc : p.strc = false) (fuel : Nat) {m : Nat} {x : SigSet} (hm : m < nsig)
    (hfuel : nsig - m ≤ fuel) (hx : DroppedTo p m x) (hno : ∀ s, s ≤ m → ¬ Deliverable p s) :
    ∃ (sig : Nat) (y : SigSet),
      issigLoop supervisor stopped fuel { p with pSig := x } = some ({ p with pSig := y }, (sig : Int)) ∧
        Chosen p sig y := by
  induction fuel generalizing m x with
  | zero => omega
  | succ fuel ih =>
    obtain ⟨hnone, hpass⟩ | ⟨sig, hv, hscan, hmin, hcase⟩ :=
      @pass_untraced supervisor stopped { p with pSig := x } hstrc
    · -- no signal is left to look at
      refine ⟨0, x, by rw [issigLoop, hpass]; rfl, ?_, fun h => absurd rfl h, ?_⟩
      · intro s hd
        have hlt : m < s := by
          by_contra hle
          exact hno s (not_lt.mp hle) hd
        exact absurd ((scanned_dropped hx hd.1).mpr ⟨hd.2.1, hlt⟩) (hnone s hd.1)
      · intro s hs
        have hle : Scanned p s → s ≤ m := by
          intro hscan
          by_contra hlt
          exact hnone s hs ((scanned_dropped hx hs).mpr ⟨hscan, not_le.mp hlt⟩)
        rw [hx s hs]
        simp only [true_or, and_true]
        constructor
        · rintro ⟨hpend, hnot⟩
          exact ⟨hpend, fun h => hnot ⟨h, hle h⟩⟩
        · rintro ⟨hpend, hnot⟩
          exact ⟨hpend, fun h => hnot h.1⟩
    · obtain ⟨hscan', hlt⟩ := (scanned_dropped hx hv).mp hscan
      -- between m and sig there is nothing to look at
      have hgap : ∀ s, Valid s → Scanned p s → m < s → sig ≤ s := fun s hs h hlt' =>
        hmin s hs ((scanned_dropped hx hs).mpr ⟨h, hlt'⟩)
      obtain ⟨hd, hpass⟩ | ⟨hd, hpass⟩ := hcase
      · refine ⟨sig, x, by rw [issigLoop, hpass], ?_, fun _ => ((deliverable_dropped hx).mp hd).1, ?_⟩
        · intro s hds
          refine ⟨by have := hv.1; omega, ?_⟩
          by_contra hless
          by_cases hsm : s ≤ m
          · exact hno s hsm hds
          · exact hless (hgap s hds.1 hds.2.1 (not_le.mp hsm))
        · intro s hs
          rw [hx s hs]
          have hne : sig ≠ 0 := by have := hv.1; omega
          refine and_congr_right fun _ => not_congr (and_congr_right fun hsc => ?_)
          constructor
          · intro hle
            omega
          · intro hless
            by_contra hgt
            have := hgap s hs hsc (not_le.mp hgt)
            omega
      · -- the signal is dropped, and all up to it are done
        have hdrop : DroppedTo p sig (x &&& ~~~ sigmask sig) := by
          intro s hs
          rw [has_clear hs hv, hx s hs]
          constructor
          · rintro ⟨⟨hpend, hnot⟩, hne⟩
            refine ⟨hpend, fun h => ?_⟩
            by_cases hsm : s ≤ m
            · exact hnot ⟨h.1, hsm⟩
            · have := hgap s hs h.1 (not_le.mp hsm)
              omega
          · rintro ⟨hpend, hnot⟩
            refine ⟨⟨hpend, fun h => hnot ⟨h.1, by omega⟩⟩, ?_⟩
            rintro rfl
            exact hnot ⟨hscan', le_rfl⟩
        have hno' : ∀ s, s ≤ sig → ¬ Deliverable p s := by
          intro s hle hds
          by_cases hsm : s ≤ m
          · exact hno s hsm hds
          · have heq : s = sig := le_antisymm hle (hgap s hds.1 hds.2.1 (not_le.mp hsm))
            subst heq
            exact hd ((deliverable_dropped hx).mpr ⟨hds, hlt⟩)
        obtain ⟨r, y, hloop, hchosen⟩ := ih hv.2 (by omega) hdrop hno'
        refine ⟨r, y, ?_, hchosen⟩
        rw [issigLoop, hpass]
        exact hloop

theorem issig_chosen (hstrc : p.strc = false) (hstate : p.uMaskState = 0) {fuel : Nat} (hfuel : nsig ≤ fuel) :
    ∃ (sig : Nat) (x : SigSet),
      issig supervisor stopped fuel p = some ({ p with pSig := x }, (sig : Int)) ∧ Chosen p sig x := by
  have hstart : DroppedTo p 0 p.pSig := by
    intro s hs
    have := hs.1
    exact ⟨fun h => ⟨h, fun hc => by omega⟩, fun h => h.1⟩
  have hnone : ∀ s, s ≤ 0 → ¬ Deliverable p s := by
    intro s hs hd
    have := hd.1.1
    omega
  rw [issig, if_neg (not_not.mpr hstate)]
  exact issigLoop_spec hstrc fuel (by decide) hfuel hstart hnone

/-- **What `issig` does for an untraced process**: it comes to an end, returns the smallest signal that
is to be taken (0 if there is none), and removes from `p_sig` the signals that it looked at before. -/
theorem issig_smallest (supervisor : Bool) (stopped : Proc → Proc) (p : Proc) (hstrc : p.strc = false)
    (hstate : p.uMaskState = 0) (fuel : Nat) (hfuel : nsig ≤ fuel) :
    ∃ (sig : Nat) (x : SigSet),
      issig supervisor stopped fuel p = some ({ p with pSig := x }, (sig : Int)) ∧
        (sig = 0 ↔ ∀ s, ¬ Deliverable p s) ∧
        (sig ≠ 0 → Deliverable p sig ∧ ∀ s, Deliverable p s → sig ≤ s) ∧
        ∀ s, Valid s → (Has x s ↔ Has p.pSig s ∧ ¬ (Scanned p s ∧ (sig = 0 ∨ s < sig))) := by
  obtain ⟨sig, x, hret, hleast, hfound, hleft⟩ := issig_chosen hstrc hstate hfuel
  refine ⟨sig, x, hret, ⟨?_, ?_⟩, fun h => ⟨hfound h, fun s hd => (hleast s hd).2⟩, hleft⟩
  · intro h s hd
    exact (hleast s hd).1 h
  · intro hnone
    by_contra h
    exact hnone sig (hfound h)

/-- A process with every action at its default. -/
def quiet : Proc :=
  { siginit fresh with
    svfork := false, somask := false, swait := false, uOldmask := 0, uMaskState := 0, pXstat := 0, uSig := 0,
    uCode := 0, ruNsignals := 0, frames := [] }

/-- SIGCONT, which is ignored by default, is dropped on the way to the signal 30. -/
theorem issig_smallest_sigcont :
    Deliverable { quiet with pSig := sigmask sigcont ||| sigmask 30 } 30 ∧
      ∀ s, Deliverable { quiet with pSig := sigmask sigcont ||| sigmask 30 } s → 30 ≤ s := by
  obtain ⟨sig, x, hret, -, hfound, -⟩ :=
    issig_smallest true id { quiet with pSig := sigmask sigcont ||| sigmask 30 } rfl rfl 33 (by decide)
  have hval : (issig true id 33 { quiet with pSig := sigmask sigcont ||| sigmask 30 }).map Prod.snd =
      some 30 := by
    decide
  rw [hret] at hval
  obtain rfl : sig = 30 := Int.ofNat.inj (Option.some.inj hval)
  exact hfound (by decide)

end Loop

/-! ## A trap -/

/-- The signals that a processor trap raises. -/
def trapSignals : List Nat := [sigill, sigbus, sigfpe, sigtrap, sigemt]

theorem post_fst (p : User) (sig : Nat) (action : Action) : (post p sig action).1 = pend p sig := by
  simp only [post]
  split
  · rfl
  · split <;> rfl

/-- A trap signal that is ignored or masked, and not delivered to its handler at once, is pending as a SIGILL
that is neither. -/
theorem trapsignal_converted {p : Proc} {sig : Nat} (hstrc : p.strc = false) (htrap : sig ∈ trapSignals)
    (hign : Has p.pSigignore sig ∨ Has p.pSigmask sig)
    (hcatch : ¬ (Has p.pSigcatch sig ∧ ¬ Has p.pSigmask sig)) (code : Nat) :
    trapsignal p sig code =
      { p with
        pSig := p.pSig ||| sigmask sigill
        pSigignore := p.pSigignore &&& ~~~ sigmask sigill
        pSigmask := p.pSigmask &&& ~~~ sigmask sigill
        pSigcatch := p.pSigcatch &&& ~~~ sigmask sigill
        uCode := code } := by
  have hconv : Converts p.toUser sig := by
    refine ⟨hign, ?_⟩
    simpa [trapSignals] using htrap
  have hnot : ¬ Has (resetSigill p.toUser).pSigignore sigill := by
    rw [resetSigill, has_clear (by decide) (by decide)]
    exact fun h => h.2 rfl
  have hpsignal : (psignal p.toUser sig).1 = pend (resetSigill p.toUser) sigill := by
    rw [psignal, if_neg (by simp [hstrc]), if_pos hconv, dispatch, if_neg hnot, post_fst]
  rw [trapsignal, if_neg (fun h => hcatch h.2), hpsignal]
  rfl

section Trap

variable {supervisor : Bool} {stopped : Proc → Proc} {p q : Proc} {sig : Nat}

/-- After such a trap SIGILL is looked at, and besides it only the signal of the trap itself, if it is
ignored. -/
structure Trapped (q : Proc) : Prop where
  strc : q.strc = false
  state : q.uMaskState = 0
  looked : Scanned q sigill
  notIgnored : ¬ Has q.pSigignore sigill
  others : ∀ s, Valid s → Scanned q s → s ≠ sigill → Has q.pSigignore s

theorem trapped_trapsignal (hstrc : p.strc = false) (hstate : p.uMaskState = 0) (htrap : sig ∈ trapSignals)
    (hign : Has p.pSigignore sig ∨ Has p.pSigmask sig)
    (hquiet : ∀ s, Valid s → s ≠ sig → Has p.pSig s → Has p.pSigmask s)
    (hcatch : ¬ (Has p.pSigcatch sig ∧ ¬ Has p.pSigmask sig)) (code : Nat) :
    Trapped (trapsignal p sig code) := by
  have hill : Valid sigill := by decide
  rw [trapsignal_converted hstrc htrap hign hcatch]
  refine ⟨hstrc, hstate, ⟨?_, ?_, ?_⟩, ?_, ?_⟩
  · exact (has_or hill).mpr (.inr ((has_sigmask hill hill).mpr rfl))
  · exact fun h => ((has_clear hill hill).mp h).2 rfl
  · exact fun h => absurd h.2 (by decide)
  · exact fun h => ((has_clear hill hill).mp h).2 rfl
  · rintro s hs ⟨hpend, hmask, -⟩ hne
    have hpend' : Has p.pSig s :=
      ((has_or hs).mp hpend).resolve_right fun h => hne ((has_sigmask hs hill).mp h)
    have hmask' : ¬ Has p.pSigmask s := fun h => hmask ((has_clear hs hill).mpr ⟨h, hne⟩)
    -- it is not one of the others, so it is the trap signal, and not masked
    have hsig : s = sig := by
      by_contra hother
      exact hmask' (hquiet s hs hother hpend')
    subst hsig
    exact (has_clear hs hill).mpr ⟨hign.resolve_right hmask', hne⟩

theorem Trapped.deliverable_iff (h : Trapped q) (s : Nat) :
    Deliverable q s ↔ s = sigill ∧ q.uSignal sigill ≠ sigIgn := by
  constructor
  · rintro ⟨hs, hscan, hign, hact⟩
    have hill : s = sigill := by
      by_contra hne
      exact hign (h.others s hs hscan hne)
    subst hill
    refine ⟨rfl, fun hc => ?_⟩
    rw [hc] at hact
    exact absurd hact (by decide)
  · rintro ⟨rfl, hne⟩
    refine ⟨by decide, h.looked, h.notIgnored, ?_⟩
    by_cases hdfl : q.uSignal sigill = sigDfl
    · exact .inr ⟨hdfl, by decide, by decide⟩
    · exact .inl ⟨hdfl, hne⟩

theorem cursig_untraced (hstrc : p.strc = false) (hstate : p.uMaskState = 0) {fuel : Nat}
    (hfuel : nsig ≤ fuel) :
    ∃ (sig : Nat) (x : SigSet),
      cursig supervisor stopped fuel p = some ({ p with pSig := x }, (sig : Int)) ∧
        (sig ≠ 0 → Deliverable p sig) := by
  unfold cursig
  split
  · exact ⟨0, p.pSig, rfl, fun h => absurd rfl h⟩
  · obtain ⟨sig, x, hret, -, hfound, -⟩ := issig_chosen hstrc hstate hfuel
    exact ⟨sig, x, hret, hfound⟩

theorem deliver_strc (p : Proc) (sig : Nat) : (deliver p sig).strc = p.strc := by
  rw [deliver]
  split <;> rfl

theorem deliver_uMaskState (p : Proc) (sig : Nat) : (deliver p sig).uMaskState = p.uMaskState := by
  rw [deliver]
  split <;> rfl

theorem deliver_frames (p : Proc) (sig : Nat) :
    ∃ f, (deliver p sig).frames = p.frames ++ [f] ∧ f.signum = sig ∧
      f.handler = if p.uSignal sig = sigDfl then .sigExit else .handler (p.uSignal sig) := by
  rw [deliver, clrsig]
  by_cases hdfl : p.uSignal sig = sigDfl
  · rw [if_neg (not_not.mpr hdfl), if_pos hdfl]
    exact ⟨_, rfl, rfl, rfl⟩
  · rw [if_pos hdfl, if_neg hdfl]
    exact ⟨_, rfl, rfl, rfl⟩

theorem psig_frames (hstrc : p.strc = false) (hstate : p.uMaskState = 0) {budget : Nat}
    (hbudget : nsig ≤ budget) (fuel : Nat) {sig : Nat} {p' : Proc}
    (h : psig supervisor stopped budget fuel p sig = some p') :
    (deliver p sig).frames <+: p'.frames := by
  induction fuel generalizing p sig with
  | zero => cases h
  | succ fuel ih =>
    have hstrc' : (deliver p sig).strc = false := (deliver_strc p sig).trans hstrc
    have hstate' : (deliver p sig).uMaskState = 0 := (deliver_uMaskState p sig).trans hstate
    obtain ⟨next, x, hcur, -⟩ := @cursig_untraced supervisor stopped _ hstrc' hstate' _ hbudget
    rw [psig, if_neg (by omega), Int.toNat_natCast, hcur] at h
    simp only at h
    split at h
    · cases h
      exact prefix_rfl
    · have hnext := @ih { deliver p sig with pSig := x } hstrc' hstate' next h
      obtain ⟨f, hf, -⟩ := deliver_frames { deliver p sig with pSig := x } next
      rw [hf] at hnext
      exact (prefix_append _ _).trans hnext

/-- The process is terminated by the trap: `issig` returns SIGILL, and `psig` delivers `sig_exit` for it and
nothing else. -/
def Terminates (supervisor : Bool) (stopped : Proc → Proc) (fuel : Nat) (p : Proc) (sig code : Nat) : Prop :=
  ∃ p₁ p₂ f,
    issig supervisor stopped fuel (trapsignal p sig code) = some (p₁, (sigill : Int)) ∧
      psig supervisor stopped fuel fuel p₁ sigill = some p₂ ∧
      p₂.frames = p.frames ++ [f] ∧ f.handler = .sigExit ∧ f.signum = sigill

theorem Trapped.terminates (h : Trapped q) (hdfl : q.uSignal sigill = sigDfl) {fuel : Nat}
    (hfuel : nsig ≤ fuel) :
    ∃ p₁ p₂ f,
      issig supervisor stopped fuel q = some (p₁, (sigill : Int)) ∧
        psig supervisor stopped fuel fuel p₁ sigill = some p₂ ∧
        p₂.frames = q.frames ++ [f] ∧ f.handler = .sigExit ∧ f.signum = sigill := by
  have hdel : Deliverable q sigill := (h.deliverable_iff sigill).mpr ⟨rfl, by rw [hdfl]; decide⟩
  obtain ⟨sig, x, hret, hleast, hfound, hleft⟩ :=
    @issig_chosen supervisor stopped q h.strc h.state fuel hfuel
  obtain rfl : sig = sigill := ((h.deliverable_iff sig).mp (hfound (hleast _ hdel).1)).1
  obtain ⟨f, hf, hsig, hhandler⟩ := deliver_frames { q with pSig := x } sigill
  rw [if_pos hdfl] at hhandler
  -- after it no signal is left that could be taken
  have hstrc' : (deliver { q with pSig := x } sigill).strc = false := (deliver_strc _ _).trans h.strc
  have hstate' : (deliver { q with pSig := x } sigill).uMaskState = 0 :=
    (deliver_uMaskState _ _).trans h.state
  obtain ⟨next, y, hcur, hnext⟩ := @cursig_untraced supervisor stopped _ hstrc' hstate' fuel hfuel
  have hnone : next = 0 := by
    by_contra hne
    have hd := hnext hne
    have hq : deliver { q with pSig := x } sigill =
        sendsig { q with pSig := x &&& ~~~ sigmask sigill, uSig := sigill } .sigExit sigill 0 0 := by
      simp [deliver, clrsig, hdfl, coreSignals]
    rw [hq] at hd
    obtain ⟨hv, ⟨hpend, hmask, hstop⟩, hign, -⟩ := hd
    obtain ⟨hx, hill⟩ := (has_clear hv (by decide)).mp hpend
    have hscan : Scanned q next := ⟨((hleft next hv).mp hx).1, hmask, hstop⟩
    exact hign (h.others next hv hscan hill)
  obtain ⟨n, rfl⟩ : ∃ n, fuel = n + 1 := ⟨fuel - 1, by simp only [nsig] at hfuel; omega⟩
  refine ⟨_, { deliver { q with pSig := x } sigill with pSig := y }, f, hret, ?_, hf, hhandler, hsig⟩
  rw [psig, if_neg (by decide), Int.toNat_natCast, hcur]
  simp only [hnone, Nat.cast_zero, if_true]

theorem issig_trapsignal_caught (hstrc : p.strc = false) (hstate : p.uMaskState = 0)
    (htrap : sig ∈ trapSignals) (hquiet : ∀ s, Valid s → s ≠ sig → Has p.pSig s → Has p.pSigmask s)
    (hcatch : Has p.pSigcatch sig ∧ ¬ Has p.pSigmask sig) (code : Nat) {fuel : Nat} (hfuel : nsig ≤ fuel)
    {p₁ : Proc} : issig supervisor stopped fuel (trapsignal p sig code) ≠ some (p₁, (sigill : Int)) := by
  have hv : Valid sig := (by decide : ∀ sig ∈ trapSignals, Valid sig) sig htrap
  have heq : trapsignal p sig code =
      { sendsig { p with ruNsignals := p.ruNsignals + 1 } (.handler (p.uSignal sig)) sig p.pSigmask code with
        pSigmask := p.pSigmask ||| (p.uSigmask sig ||| sigmask sig) } := if_pos ⟨hstrc, hcatch⟩
  have hstrc' : (trapsignal p sig code).strc = false := heq ▸ hstrc
  have hstate' : (trapsignal p sig code).uMaskState = 0 := heq ▸ hstate
  obtain ⟨r, x, hret, -, hfound, -⟩ := @issig_chosen supervisor stopped _ hstrc' hstate' fuel hfuel
  intro hissig
  rw [hissig] at hret
  obtain rfl : sigill = r := Int.ofNat.inj (Prod.mk.inj (Option.some.inj hret)).2
  obtain ⟨hill, ⟨hpend, hmask, -⟩, -⟩ := hfound (by decide)
  rw [heq] at hpend hmask
  refine hmask ((has_or hill).mpr ?_)
  by_cases hsig : sigill = sig
  · exact .inr ((has_or hill).mpr (.inr ((has_sigmask hill hv).mpr hsig)))
  · exact .inl (hquiet sigill hill hsig hpend)

/-- **A trap signal that is ignored or masked** is fatal exactly if SIGILL has its default action in
`u_signal`, and the trap signal is not one that is caught and unmasked according to the sets. -/
theorem trapsignal_terminates_iff (supervisor : Bool) (stopped : Proc → Proc) (p : Proc) (sig code : Nat)
    (hstrc : p.strc = false) (hstate : p.uMaskState = 0) (htrap : sig ∈ trapSignals)
    (hign : Has p.pSigignore sig ∨ Has p.pSigmask sig)
    (hquiet : ∀ s, Valid s → s ≠ sig → Has p.pSig s → Has p.pSigmask s) (fuel : Nat)
    (hfuel : nsig ≤ fuel) :
    Terminates supervisor stopped fuel p sig code ↔
      p.uSignal sigill = sigDfl ∧ ¬ (Has p.pSigcatch sig ∧ ¬ Has p.pSigmask sig) := by
  by_cases hcatch : Has p.pSigcatch sig ∧ ¬ Has p.pSigmask sig
  · -- its handler is called at once, and no signal is left
    refine iff_of_false ?_ fun h => h.2 hcatch
    rintro ⟨p₁, p₂, f, hissig, -⟩
    exact issig_trapsignal_caught hstrc hstate htrap hquiet hcatch code hfuel hissig
  · have htrapped := trapped_trapsignal hstrc hstate htrap hign hquiet hcatch code
    have hconv := trapsignal_converted hstrc htrap hign hcatch code
    have hframes : (trapsignal p sig code).frames = p.frames := by rw [hconv]
    have hsignal : (trapsignal p sig code).uSignal = p.uSignal := by rw [hconv]
    constructor
    · rintro ⟨p₁, p₂, f, hissig, hpsig, hf, hexit, -⟩
      refine ⟨?_, hcatch⟩
      by_contra hne
      obtain ⟨r, x, hret, -⟩ :=
        @issig_chosen supervisor stopped _ htrapped.strc htrapped.state fuel hfuel
      rw [hissig] at hret
      obtain ⟨rfl, -⟩ := Prod.mk.inj (Option.some.inj hret)
      -- the frame for the handler of SIGILL comes first
      have hpre := @psig_frames supervisor stopped { trapsignal p sig code with pSig := x } htrapped.strc
        htrapped.state fuel hfuel fuel sigill p₂ hpsig
      obtain ⟨f', hf', -, hhandler⟩ := deliver_frames { trapsignal p sig code with pSig := x } sigill
      rw [hf', hf, hframes, prefix_append_right_inj, cons_prefix_cons] at hpre
      rw [hpre.1, hexit, hsignal, if_neg hne] at hhandler
      cases hhandler
    · rintro ⟨hdfl, -⟩
      have h := @Trapped.terminates supervisor stopped _ htrapped (hsignal ▸ hdfl) fuel hfuel
      rw [hframes] at h
      exact h

/-- SIGFPE is ignored, and SIGILL has its default action. -/
theorem trapsignal_terminates_iff_default :
    Terminates false id 33 { quiet with pSigignore := sigmask sigfpe } sigfpe 5 :=
  (trapsignal_terminates_iff false id { quiet with pSigignore := sigmask sigfpe } sigfpe 5 rfl rfl (by decide)
    (by decide) (fun _ _ _ h => absurd h has_zero) 33 (by decide)).mpr ⟨rfl, by decide⟩

/-- A program with a handler for SIGILL that ignores SIGFPE. -/
def catchesSigill : Proc :=
  { quiet with
    toUser := setsigvec (setsigvec (siginit fresh) sigill ⟨0x1000, 0, false, false, false⟩) sigfpe
      ⟨sigIgn, 0, false, false, false⟩ }

/-- It divides by zero: the handler for SIGILL is called, and then the faulting instruction again. -/
theorem trapsignal_runs_handler :
    Agree catchesSigill.toUser ∧ catchesSigill.strc = false ∧ catchesSigill.uMaskState = 0 ∧
      sigfpe ∈ trapSignals ∧ Has catchesSigill.pSigignore sigfpe ∧ catchesSigill.pSig = 0 ∧
      ((issig false id 33 (trapsignal catchesSigill sigfpe 5)).bind
        (fun r => psig false id 33 33 r.1 r.2)).map (fun p => p.frames.map Sigframe.handler) =
          some [.handler 0x1000] ∧
      ¬ Terminates false id 33 catchesSigill sigfpe 5 := by
  have hill : Agree (setsigvec (siginit fresh) sigill ⟨0x1000, 0, false, false, false⟩) :=
    (agree_siginit (fun _ => rfl) rfl).setsigvec (by decide) (by decide) (by decide) _
  have hagree : Agree (setsigvec (setsigvec (siginit fresh) sigill ⟨0x1000, 0, false, false, false⟩) sigfpe
      ⟨sigIgn, 0, false, false, false⟩) :=
    hill.setsigvec (by decide) (by decide) (by decide) _
  have hframes : ((issig false id 33 (trapsignal catchesSigill sigfpe 5)).bind
      (fun r => psig false id 33 33 r.1 r.2)).map (fun p => p.frames.map Sigframe.handler) =
        some [.handler 0x1000] := by decide
  refine ⟨hagree, rfl, rfl, by decide, by decide, rfl, hframes, ?_⟩
  rintro ⟨p₁, p₂, f, hissig, hpsig, hf, hexit, -⟩
  rw [hissig, Option.bind_some, hpsig, Option.map_some, hf, map_append] at hframes
  simp [catchesSigill, quiet, hexit] at hframes

end Trap

end Ixemul.KernSig
