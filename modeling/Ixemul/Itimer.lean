/-
# Ixemul.Itimer — the interval timers of a process (kern_time.c, ix_timer.c).

`setitimer` loads one of three timers, which `ix_timer` counts down in the vertical blanking interrupt: the
real one in every interrupt, the virtual one while the process runs its own code and the profiling one while
it runs at all.  Where a tick reaches the end, `itimerdecr` loads the timer with its interval less what the
tick went past the end; `itimerfix` makes every value that is set at least as long as a tick.
-/
import Mathlib.Data.List.Count
import Mathlib.Tactic.IntervalCases
import Mathlib.Tactic.Linarith

namespace Ixemul.Itimer

open Function

/-! ## Times -/

/-- `struct timeval`. -/
structure Timeval where
  tvSec : Int
  tvUsec : Int
  deriving DecidableEq, Repr

namespace Timeval

def timerisset (tv : Timeval) : Prop := tv.tvSec ≠ 0 ∨ tv.tvUsec ≠ 0

instance (tv : Timeval) : Decidable tv.timerisset := inferInstanceAs (Decidable (_ ∨ _))

/-- The time in microseconds. -/
def usecs (tv : Timeval) : Int := tv.tvSec * 1000000 + tv.tvUsec

/-- The microseconds are less than a second, and neither part is negative. -/
structure Normal (tv : Timeval) : Prop where
  sec_nonneg : 0 ≤ tv.tvSec
  usec_nonneg : 0 ≤ tv.tvUsec
  usec_lt : tv.tvUsec < 1000000

variable {tv : Timeval}

theorem Normal.usecs_nonneg (h : tv.Normal) : 0 ≤ tv.usecs := by
  have := h.sec_nonneg
  have := h.usec_nonneg
  unfold usecs
  omega

theorem Normal.timerisset_iff (h : tv.Normal) : tv.timerisset ↔ 0 < tv.usecs := by
  obtain ⟨hs, hu, -⟩ := h
  unfold timerisset usecs
  omega

/-- The addition that `ix_timer` does on the times of the rusage record. -/
def addUsec (tv : Timeval) (usec : Int) : Timeval :=
  if tv.tvUsec + usec ≥ 1000000 then ⟨tv.tvSec + 1, tv.tvUsec + usec - 1000000⟩
  else ⟨tv.tvSec, tv.tvUsec + usec⟩

end Timeval

/-- `struct itimerval`. -/
structure Itimerval where
  itInterval : Timeval
  itValue : Timeval
  deriving DecidableEq, Repr

/-! ## kern_time.c -/

def itimerReal : Nat := 0
def itimerVirtual : Nat := 1
def itimerProf : Nat := 2

def einval : Nat := 22

/-- The part of the user structure that the timers are in: `u_timer`, the times of `u_ru` and errno. -/
structure User where
  uTimer : Nat → Itimerval
  ruUtime : Timeval
  ruStime : Timeval
  errno : Nat

/-- The value that is left behind in `*tv`, and whether the function returned 0. -/
def itimerfix (timerResolution : Int) (tv : Timeval) : Timeval × Bool :=
  if tv.tvSec < 0 ∨ tv.tvSec > 100000000 ∨ tv.tvUsec < 0 ∨ tv.tvUsec ≥ 1000000 then (tv, false)
  else if tv.tvSec = 0 ∧ tv.tvUsec ≠ 0 ∧ tv.tvUsec < timerResolution then
    ({ tv with tvUsec := timerResolution }, true)
  else (tv, true)

/-- What a call of `setitimer` or `getitimer` leaves behind: the process, `*itv` and `*oitv` of the caller
(where they are given) and the value it returns. -/
structure Ret where
  user : User
  itv : Option Itimerval
  oitv : Option Itimerval
  ret : Int

def getitimer (u : User) (which : Nat) (itv : Option Itimerval) : Ret :=
  match itv with
  | none => ⟨{ u with errno := einval }, none, none, -1⟩
  | some tv =>
    if which > itimerProf then ⟨{ u with errno := einval }, some tv, none, -1⟩
    else ⟨u, some (u.uTimer which), none, 0⟩

/-- `setitimer` from `if (itv == 0)` on. -/
def setitimerLoad (timerResolution : Int) (u : User) (which : Nat) (itv oitv : Option Itimerval) : Ret :=
  match itv with
  | none => ⟨u, none, oitv, 0⟩
  | some tv =>
    match itimerfix timerResolution tv.itValue with
    | (value, false) => ⟨{ u with errno := einval }, some { tv with itValue := value }, oitv, -1⟩
    | (value, true) =>
      match itimerfix timerResolution tv.itInterval with
      | (interval, false) => ⟨{ u with errno := einval }, some ⟨interval, value⟩, oitv, -1⟩
      | (interval, true) =>
        ⟨{ u with uTimer := update u.uTimer which ⟨interval, value⟩ }, some ⟨interval, value⟩,
          oitv, 0⟩

def setitimer (timerResolution : Int) (u : User) (which : Nat) (itv oitv : Option Itimerval) : Ret :=
  if which > itimerProf then ⟨{ u with errno := einval }, itv, oitv, -1⟩
  else
    match oitv with
    | none => setitimerLoad timerResolution u which itv none
    | some old =>
      let got := getitimer u which (some old)
      if got.ret ≠ 0 then ⟨got.user, itv, got.itv, -1⟩
      else setitimerLoad timerResolution got.user which itv got.itv

/-- `itimerdecr` from the label `expire` on; `usec` is the part of the tick that is past the end. -/
def expire (itp : Itimerval) (usec : Int) : Itimerval :=
  if itp.itInterval.timerisset then
    if itp.itInterval.tvUsec - usec < 0 then
      { itp with itValue := ⟨itp.itInterval.tvSec - 1, itp.itInterval.tvUsec - usec + 1000000⟩ }
    else { itp with itValue := ⟨itp.itInterval.tvSec, itp.itInterval.tvUsec - usec⟩ }
  else { itp with itValue := { itp.itValue with tvUsec := 0 } }

/-- The value of the timer after the borrow from the seconds, where one is needed, less `usec`. -/
def takeOff (tv : Timeval) (usec : Int) : Timeval :=
  if tv.tvUsec < usec then ⟨tv.tvSec - 1, tv.tvUsec + 1000000 - usec⟩
  else ⟨tv.tvSec, tv.tvUsec - usec⟩

/-- The timer after a tick of `usec` microseconds, and whether it is still running (1 is returned). -/
def itimerdecr (itp : Itimerval) (usec : Int) : Itimerval × Bool :=
  if itp.itValue.tvUsec < usec ∧ itp.itValue.tvSec = 0 then
    (expire itp (usec - itp.itValue.tvUsec), false)
  else
    let itp' := { itp with itValue := takeOff itp.itValue usec }
    if itp'.itValue.timerisset then (itp', true)
    else (expire itp' 0, false)

/-! ## ix_timer.c -/

def sigalrm : Nat := 14
def sigvtalrm : Nat := 26
def sigprof : Nat := 27

/-- What one interrupt finds: whether the process is the one that was interrupted, and whether it was in
its own code (between `u_start_pc` and `u_end_pc`). -/
structure Interrupt where
  current : Bool
  isUser : Bool
  deriving DecidableEq, Repr

/-- `if (timerisset (&tim->it_value) && !itimerdecr (tim, timer_resolution)) _psignal (me, sig)`: the
process afterwards, and the signals sent to it. -/
def tickTimer (timerResolution : Int) (which sig : Nat) (u : User) : User × List Nat :=
  if (u.uTimer which).itValue.timerisset then
    match itimerdecr (u.uTimer which) timerResolution with
    | (tim, running) =>
      ({ u with uTimer := update u.uTimer which tim }, if running then [] else [sig])
  else (u, [])

/-- One interrupt: the process afterwards, and the signals sent to it in it. -/
def ixTimer (timerResolution : Int) (i : Interrupt) (u : User) : User × List Nat :=
  let real := tickTimer timerResolution itimerReal sigalrm u
  if i.current then
    let virtual :=
      if i.isUser then tickTimer timerResolution itimerVirtual sigvtalrm real.1 else (real.1, [])
    let prof := tickTimer timerResolution itimerProf sigprof virtual.1
    let u' :=
      if i.isUser then { prof.1 with ruUtime := prof.1.ruUtime.addUsec timerResolution }
      else { prof.1 with ruStime := prof.1.ruStime.addUsec timerResolution }
    (u', real.2 ++ virtual.2 ++ prof.2)
  else real

/-- A series of interrupts, with all the signals sent in them. -/
def ixTimers (timerResolution : Int) (u : User) : List Interrupt → User × List Nat
  | [] => (u, [])
  | i :: is =>
    let now := ixTimer timerResolution i u
    let later := ixTimers timerResolution now.1 is
    (later.1, now.2 ++ later.2)

/-- Whether the interrupt counts the timer `which` down. -/
def Interrupt.ticks (i : Interrupt) (which : Nat) : Bool :=
  if which = itimerReal then true
  else if which = itimerVirtual then i.current && i.isUser
  else i.current

/-- The signal of the timer `which`. -/
def signalOf (which : Nat) : Nat :=
  if which = itimerReal then sigalrm else if which = itimerVirtual then sigvtalrm else sigprof

/-! ## One timer alone -/

/-- What a tick does to a timer, and whether it expires. -/
def tick (timerResolution : Int) (t : Itimerval) : Itimerval × Bool :=
  if t.itValue.timerisset then
    ((itimerdecr t timerResolution).1, !(itimerdecr t timerResolution).2)
  else (t, false)

theorem tickTimer_eq (r : Int) (which sig : Nat) (u : User) :
    tickTimer r which sig u =
      ({ u with uTimer := update u.uTimer which (tick r (u.uTimer which)).1 },
        if (tick r (u.uTimer which)).2 then [sig] else []) := by
  unfold tickTimer tick
  split
  · cases h : (itimerdecr (u.uTimer which) r).2 <;> simp [h]
  · simp

theorem count_signal (b : Bool) (sig s : Nat) :
    (if b then [sig] else []).count s = if b ∧ sig = s then 1 else 0 := by
  cases b
  · simp
  · simp only [if_true, true_and, List.count_singleton, beq_iff_eq]

variable {which : Nat}

/-- Each interrupt ticks each timer at most once, and sends a timer's signal exactly if the timer expires. -/
theorem ixTimer_spec (r : Int) (i : Interrupt) (u : User) (hw : which ≤ itimerProf) :
    (ixTimer r i u).1.uTimer which =
        (if i.ticks which then (tick r (u.uTimer which)).1 else u.uTimer which) ∧
      (ixTimer r i u).2.count (signalOf which) =
        if i.ticks which ∧ (tick r (u.uTimer which)).2 then 1 else 0 := by
  obtain ⟨current, isUser⟩ := i
  unfold itimerProf at hw
  -- the three timers are different entries of the array, and the three signals differ
  interval_cases which <;> cases current <;> cases isUser <;>
    simp [ixTimer, tickTimer_eq, Interrupt.ticks, signalOf, itimerReal, itimerVirtual, itimerProf, sigalrm,
      sigvtalrm, sigprof, count_signal]

/-! ## The law of one tick -/

variable {r : Int} {tv : Timeval}

theorem itimerfix_spec (hr : 0 < r) (hr' : r < 1000000)
    (h : (itimerfix r tv).2) :
    (itimerfix r tv).1.Normal ∧ ((itimerfix r tv).1.usecs = 0 ∨ r ≤ (itimerfix r tv).1.usecs) := by
  unfold itimerfix at h ⊢
  split at h
  · cases h
  · rename_i hrange
    rw [if_neg hrange]
    push Not at hrange
    obtain ⟨hsec, -, husec, hlt⟩ := hrange
    split
    · rename_i hsmall
      refine ⟨⟨hsec, hr.le, hr'⟩, .inr ?_⟩
      simp only [Timeval.usecs, hsmall.1]
      omega
    · refine ⟨⟨hsec, husec, hlt⟩, ?_⟩
      simp only [Timeval.usecs]
      omega

theorem takeOff_usecs (tv : Timeval) (usec : Int) : (takeOff tv usec).usecs = tv.usecs - usec := by
  unfold takeOff
  split
  all_goals
    simp only [Timeval.usecs]
    omega

variable {usec : Int}

theorem takeOff_normal (htv : tv.Normal) (h0 : 0 ≤ usec) (hlt : usec < 1000000)
    (hle : usec ≤ tv.usecs) : (takeOff tv usec).Normal := by
  obtain ⟨hs, hu, hu'⟩ := htv
  unfold Timeval.usecs at hle
  unfold takeOff
  split
  all_goals
    constructor <;> simp only <;> omega

variable {t : Itimerval}

theorem expire_of_set (h : t.itInterval.timerisset) (usec : Int) :
    expire t usec = { t with itValue := takeOff t.itInterval usec } := by
  unfold expire takeOff
  rw [if_pos h]
  by_cases hlt : t.itInterval.tvUsec < usec
  · rw [if_pos (by omega), if_pos hlt]
    congr 2
    omega
  · rw [if_neg (by omega), if_neg hlt]

/-- A timer as `setitimer` loads it and `ix_timer` keeps it: the interval is zero or at least a tick. -/
structure Fixed (r : Int) (t : Itimerval) : Prop where
  value : t.itValue.Normal
  interval : t.itInterval.Normal
  tick_le : t.itInterval.usecs = 0 ∨ r ≤ t.itInterval.usecs

theorem expire_spec (ht : Fixed r t) (hr' : r < 1000000)
    (hsec : t.itValue.tvSec = 0) (h0 : 0 ≤ usec) (hlt : usec < r) :
    Fixed r (expire t usec) ∧ (expire t usec).itInterval = t.itInterval ∧
      (expire t usec).itValue.usecs =
        if 0 < t.itInterval.usecs then t.itInterval.usecs - usec else 0 := by
  by_cases hset : t.itInterval.timerisset
  · have hpos := ht.interval.timerisset_iff.mp hset
    have hle : r ≤ t.itInterval.usecs := ht.tick_le.resolve_left hpos.ne'
    have hnormal := takeOff_normal ht.interval h0 (by omega) (hlt.le.trans hle)
    rw [expire_of_set hset, if_pos hpos]
    exact ⟨⟨hnormal, ht.interval, ht.tick_le⟩, rfl, takeOff_usecs _ _⟩
  · have hzero : ¬ 0 < t.itInterval.usecs := fun h => hset (ht.interval.timerisset_iff.mpr h)
    rw [expire, if_neg hset, if_neg hzero]
    refine ⟨⟨⟨hsec.ge, le_refl 0, by norm_num⟩, ht.interval, ht.tick_le⟩, rfl, ?_⟩
    simp only [Timeval.usecs, hsec]
    rfl

/-- **One tick** of a timer that runs: as long as the value is more than a tick, it is taken off; otherwise
the timer expires and goes on, if at all, from the end of its interval. -/
theorem tick_spec (ht : Fixed r t) (hr : 0 < r) (hr' : r < 1000000)
    (hv : 0 < t.itValue.usecs) :
    Fixed r (tick r t).1 ∧ (tick r t).1.itInterval = t.itInterval ∧
      (tick r t).2 = decide (t.itValue.usecs ≤ r) ∧
      (tick r t).1.itValue.usecs =
        if r < t.itValue.usecs then t.itValue.usecs - r
        else if 0 < t.itInterval.usecs then t.itInterval.usecs - (r - t.itValue.usecs) else 0 := by
  have hset := ht.value.timerisset_iff.mpr hv
  have hsecs : t.itValue.usecs = t.itValue.tvSec * 1000000 + t.itValue.tvUsec := rfl
  obtain ⟨hs, hu, hu'⟩ := ht.value
  rw [tick, if_pos hset, itimerdecr]
  by_cases hnow : t.itValue.tvUsec < r ∧ t.itValue.tvSec = 0
  · -- the tick goes past the end
    have hpast : r - t.itValue.tvUsec = r - t.itValue.usecs := by omega
    rw [if_pos hnow, if_neg (by omega), hpast]
    have h0 : 0 ≤ r - t.itValue.usecs := by omega
    obtain ⟨hfixed, hint, hval⟩ := expire_spec ht hr' hnow.2 h0 (by omega)
    refine ⟨hfixed, hint, ?_, hval⟩
    have hle : t.itValue.usecs ≤ r := by omega
    simp [hle]
  · have hle : r ≤ t.itValue.usecs := by omega
    have hnormal := takeOff_normal ht.value hr.le hr' hle
    have hoff := takeOff_usecs t.itValue r
    have hfixed : Fixed r { t with itValue := takeOff t.itValue r } := ⟨hnormal, ht.interval, ht.tick_le⟩
    rw [if_neg hnow]
    by_cases hlt : r < t.itValue.usecs
    · have hrest : (takeOff t.itValue r).timerisset := hnormal.timerisset_iff.mpr (by omega)
      rw [if_pos hlt]
      simp only [if_pos hrest]
      refine ⟨hfixed, trivial, ?_, hoff⟩
      simp [hlt]
    · -- the tick ends exactly at the end
      have heq : t.itValue.usecs = r := le_antisymm (not_lt.mp hlt) hle
      have hrest : ¬ (takeOff t.itValue r).timerisset := by
        rw [hnormal.timerisset_iff]
        omega
      have hsec : (takeOff t.itValue r).tvSec = 0 := not_not.mp (not_or.mp hrest).1
      obtain ⟨hfixed', hint, hval⟩ := expire_spec hfixed hr' hsec le_rfl hr
      rw [if_neg hlt, heq, sub_self]
      simp only [if_neg hrest]
      exact ⟨hfixed', hint, by simp, hval⟩

/-! ## A run of interrupts -/

/-- Where a timer stands that was loaded with `v` and the interval `T`, after `k` ticks and `n`
expirations. -/
structure Stands (r v T k n : Int) (t : Itimerval) : Prop where
  fixed : Fixed r t
  interval : t.itInterval.usecs = T
  expired : 0 ≤ n
  /-- a timer without an interval runs once -/
  single : T = 0 → (n = 0 ∧ t.itValue.usecs = v - k * r ∧ 0 < t.itValue.usecs) ∨
    (n = 1 ∧ t.itValue.usecs = 0 ∧ v ≤ k * r)
  /-- the others go on for ever, with nothing lost from one interval to the next -/
  periodic : 0 < T → t.itValue.usecs = v + n * T - k * r ∧ 0 < t.itValue.usecs ∧
    (n = 0 ∧ t.itValue.usecs ≤ v ∨ 0 < n ∧ t.itValue.usecs ≤ T)

namespace Stands

variable {r v T k n : Int} {t : Itimerval}

/-- A tick moves a timer from one such place to the next. -/
theorem tick (h : Stands r v T k n t) (hr : 0 < r) (hr' : r < 1000000) :
    Stands r v T (k + 1) (n + if (Itimer.tick r t).2 then 1 else 0) (Itimer.tick r t).1 := by
  have hk : (k + 1) * r = k * r + r := add_one_mul k r
  have hn : (n + 1) * T = n * T + T := add_one_mul n T
  by_cases hv : 0 < t.itValue.usecs
  · obtain ⟨hfixed, hint, hexp, hval⟩ := tick_spec h.fixed hr hr' hv
    rw [h.interval] at hval
    have hT : T = 0 ∨ r ≤ T := h.interval ▸ h.fixed.tick_le
    rw [hexp]
    by_cases hlt : r < t.itValue.usecs
    · rw [decide_eq_false (not_le.mpr hlt), if_neg Bool.false_ne_true, add_zero]
      refine ⟨hfixed, hint ▸ h.interval, h.expired, fun h0 => ?_, fun hpos => ?_⟩
      · obtain ⟨hn, hx, -⟩ | ⟨-, hx, -⟩ := h.single h0
        · exact .inl ⟨hn, by omega, by omega⟩
        · omega
      · obtain ⟨hx, -, hmax⟩ := h.periodic hpos
        exact ⟨by omega, by omega, by omega⟩
    · rw [if_neg hlt] at hval
      rw [decide_eq_true (not_lt.mp hlt), if_pos rfl]
      refine ⟨hfixed, hint ▸ h.interval, by have := h.expired; omega, fun h0 => ?_, fun hpos => ?_⟩
      · rw [if_neg (by omega)] at hval
        obtain ⟨hn, hx, -⟩ | ⟨-, hx, -⟩ := h.single h0
        · exact .inr ⟨by omega, hval, by omega⟩
        · omega
      · obtain ⟨hx, -, hmax⟩ := h.periodic hpos
        exact ⟨by omega, by omega, .inr ⟨by omega, by omega⟩⟩
  · -- only a timer without an interval stands still
    have hT : T = 0 := by
      by_contra hne
      have hT0 : 0 ≤ T := h.interval ▸ h.fixed.interval.usecs_nonneg
      exact hv (h.periodic (by omega)).2.1
    have hnot : ¬ t.itValue.timerisset := fun hset => hv (h.fixed.value.timerisset_iff.mp hset)
    rw [Itimer.tick, if_neg hnot]
    refine ⟨h.fixed, h.interval, by simpa using h.expired, fun h0 => .inr ?_, fun hpos => by omega⟩
    obtain ⟨-, -, hx⟩ | ⟨hn, hx, hle⟩ := h.single h0
    · exact absurd hx hv
    · exact ⟨by simpa using hn, hx, by omega⟩

theorem expirations_eq (h : Stands r v T k n t) :
    n = if k * r < v then 0 else if T = 0 then 1 else 1 + (k * r - v) / T := by
  have hT0 : 0 ≤ T := h.interval ▸ h.fixed.interval.usecs_nonneg
  by_cases hT : T = 0
  · obtain ⟨hn, hx, hpos⟩ | ⟨hn, -, hle⟩ := h.single hT
    · rw [if_pos (by omega), hn]
    · rw [if_neg (by omega), if_pos hT, hn]
  · have hpos : 0 < T := by omega
    obtain ⟨hx, hx0, hmax⟩ := h.periodic hpos
    obtain ⟨hn, -⟩ | ⟨hn, hxT⟩ := hmax
    · rw [hn] at hx
      rw [if_pos (by omega), hn]
    · -- k * r - v lies in the n-th interval after the first expiration
      have hdiv : (k * r - v) / T = n - 1 := by
        rw [Int.ediv_eq_iff_of_pos hpos]
        constructor
        · nlinarith
        · nlinarith
      have hlt : ¬ k * r < v := by nlinarith
      omega

end Stands

/-- How many of the interrupts tick the timer `which`. -/
def ticksOf (which : Nat) (is : List Interrupt) : Nat := is.countP (·.ticks which)

/-- How often the timer `which` expires in the interrupts. -/
def expirations (r : Int) (u : User) (which : Nat) (is : List Interrupt) : Nat :=
  (ixTimers r u is).2.count (signalOf which)

variable {u : User}

theorem Stands.ixTimers {v T : Int} (hr : 0 < r) (hr' : r < 1000000)
    (hw : which ≤ itimerProf) (is : List Interrupt) {k n : Int}
    (h : Stands r v T k n (u.uTimer which)) :
    Stands r v T (k + ticksOf which is) (n + expirations r u which is)
      ((Itimer.ixTimers r u is).1.uTimer which) := by
  induction is generalizing u k n with
  | nil => simpa [ticksOf, expirations, Itimer.ixTimers] using h
  | cons i is ih =>
    obtain ⟨htimer, hcount⟩ := ixTimer_spec r i u hw
    have hticks : ticksOf which (i :: is) = (if i.ticks which then 1 else 0) + ticksOf which is := by
      rw [ticksOf, List.countP_cons, add_comm]
      rfl
    have hexp : expirations r u which (i :: is) =
        (if i.ticks which ∧ (Itimer.tick r (u.uTimer which)).2 then 1 else 0) +
          expirations r (ixTimer r i u).1 which is := by
      rw [expirations, Itimer.ixTimers, List.count_append, hcount]
      rfl
    rw [hticks, hexp]
    by_cases hi : i.ticks which
    · have hnext : Stands r v T (k + 1) (n + if (Itimer.tick r (u.uTimer which)).2 then 1 else 0)
          ((ixTimer r i u).1.uTimer which) := by
        rw [htimer, if_pos hi]
        exact h.tick hr hr'
      have hlater := ih hnext
      simp only [hi, true_and, if_true]
      push_cast
      rw [← add_assoc, ← add_assoc]
      exact hlater
    · have hnext : Stands r v T k n ((ixTimer r i u).1.uTimer which) := by
        rw [htimer, if_neg hi]
        exact h
      have hlater := ih hnext
      rw [if_neg hi, if_neg (fun hc => hi hc.1), zero_add, zero_add]
      exact hlater

variable {itv : Itimerval} {oitv : Option Itimerval}

theorem setitimerLoad_spec (hr : 0 < r) (hr' : r < 1000000)
    (h : (setitimerLoad r u which (some itv) oitv).ret = 0) :
    Fixed r ((setitimerLoad r u which (some itv) oitv).user.uTimer which) := by
  unfold setitimerLoad at h ⊢
  cases hval : itimerfix r itv.itValue with
  | mk value okValue =>
    cases hint : itimerfix r itv.itInterval with
    | mk interval okInterval =>
      cases okValue with
      | false => simp [hval] at h
      | true =>
        cases okInterval with
        | false => simp [hval, hint] at h
        | true =>
          have hokv : (itimerfix r itv.itValue).2 := by rw [hval]
          have hoki : (itimerfix r itv.itInterval).2 := by rw [hint]
          have hv := itimerfix_spec hr hr' hokv
          have hi := itimerfix_spec hr hr' hoki
          rw [hval] at hv
          rw [hint] at hi
          simp only [hval, hint, update_self]
          exact ⟨hv.1, hi.1, hi.2⟩

theorem setitimer_spec (hr : 0 < r) (hr' : r < 1000000) (h : (setitimer r u which (some itv) oitv).ret = 0) :
    which ≤ itimerProf ∧ Fixed r ((setitimer r u which (some itv) oitv).user.uTimer which) := by
  unfold setitimer at h ⊢
  by_cases hw : which > itimerProf
  · simp [hw] at h
  · rw [if_neg hw] at h ⊢
    refine ⟨not_lt.mp hw, ?_⟩
    cases oitv with
    | none => exact setitimerLoad_spec hr hr' h
    | some =>
      simp only [getitimer, if_neg hw, ne_eq, not_true_eq_false, if_false] at h ⊢
      exact setitimerLoad_spec hr hr' h

/-- **The timers do not drift**: the expirations after any run of interrupts that ticks a timer `k` times, and
what is left to the next one. -/
theorem setitimer_expirations {r : Int} (hr : 0 < r) (hr' : r < 1000000) (u : User) (which : Nat)
    (itv : Itimerval) (oitv : Option Itimerval) (u' : User)
    (hset : (setitimer r u which (some itv) oitv).ret = 0)
    (hu' : u' = (setitimer r u which (some itv) oitv).user) (v T : Int)
    (hv : v = (u'.uTimer which).itValue.usecs) (hT : T = (u'.uTimer which).itInterval.usecs) (hpos : 0 < v)
    (is : List Interrupt) (k : Int) (hk : k = ticksOf which is) (left : Timeval)
    (hleft : left = ((ixTimers r u' is).1.uTimer which).itValue) :
    (expirations r u' which is : Int) =
        (if k * r < v then 0 else if T = 0 then 1 else 1 + (k * r - v) / T) ∧
      (0 < T → left.usecs = v + expirations r u' which is * T - k * r ∧ 0 < left.usecs ∧
        left.usecs ≤ max v T) ∧
      0 ≤ left.tvUsec ∧ left.tvUsec < 1000000 ∧ 0 ≤ left.tvSec := by
  obtain ⟨hw, hfixed⟩ := setitimer_spec hr hr' hset
  rw [← hu'] at hfixed
  have hstart : Stands r v T 0 0 (u'.uTimer which) := by
    refine ⟨hfixed, hT.symm, le_rfl, fun _ => .inl ⟨rfl, ?_, hv ▸ hpos⟩, fun _ => ?_⟩
    · omega
    · exact ⟨by omega, hv ▸ hpos, .inl ⟨rfl, hv.ge⟩⟩
  have hend := hstart.ixTimers hr hr' hw is
  rw [zero_add, zero_add, ← hk] at hend
  subst hleft
  refine ⟨hend.expirations_eq, fun hTpos => ?_, hend.fixed.value.usec_nonneg,
    hend.fixed.value.usec_lt, hend.fixed.value.sec_nonneg⟩
  obtain ⟨hleft, hleft0, hmax⟩ := hend.periodic hTpos
  exact ⟨hleft, hleft0, by omega⟩

/-- A process with all timers off. -/
def idle : User := ⟨fun _ => ⟨⟨0, 0⟩, ⟨0, 0⟩⟩, ⟨0, 0⟩, ⟨0, 0⟩, 0⟩

/-- With the 20000 microseconds of a PAL machine, a virtual timer of 50 ms that repeats every 30 ms has
expired twice after five ticks, and ends again with the sixth. -/
theorem setitimer_expirations_virtual :
    expirations 20000 (setitimer 20000 idle itimerVirtual (some ⟨⟨0, 30000⟩, ⟨0, 50000⟩⟩) none).user
      itimerVirtual (List.replicate 5 ⟨true, true⟩ ++ [⟨true, false⟩]) = (2 : Int) := by
  have h := (@setitimer_expirations 20000 (by decide) (by decide) idle itimerVirtual
    ⟨⟨0, 30000⟩, ⟨0, 50000⟩⟩ none _ rfl rfl 50000 30000 (by decide) (by decide) (by decide)
    (List.replicate 5 ⟨true, true⟩ ++ [⟨true, false⟩]) 5 (by decide) _ rfl).1
  rw [h]
  decide

end Ixemul.Itimer
