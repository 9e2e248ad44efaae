/-
# Ixemul.Proc.Rusage — the resource usage a parent gets from `wait4` (vfork.c, kern_time.c).

A process that ends sends its parent its own usage with that of its reaped children, `u_cru`, added to it.
`ruadd` takes the counters for an array and stops short of `ru_last`, and nothing ever adds to `u_cru`.
-/
import Ixemul.Itimer
import Ixemul.Lib.Run

namespace Ixemul.Usage

open Itimer Lib.Run
open Function List

/-- `struct rusage`: `counter 0` is `ru_ixrss`, the `ru_first`, and `counter 12` is `ru_nivcsw`. -/
structure Rusage where
  utime : Timeval
  stime : Timeval
  maxrss : Int
  counter : Nat → Int

def ruFirst : Nat := 0
def ruLast : Nat := 12

def timevalfix (t : Timeval) : Timeval :=
  let t := if t.tvUsec < 0 then ⟨t.tvSec - 1, t.tvUsec + 1000000⟩ else t
  if t.tvUsec ≥ 1000000 then ⟨t.tvSec + 1, t.tvUsec - 1000000⟩ else t

def timevaladd (t₁ t₂ : Timeval) : Timeval := timevalfix ⟨t₁.tvSec + t₂.tvSec, t₁.tvUsec + t₂.tvUsec⟩

/-- The loop of `ruadd`, with `i` counters to go, from the one at `ip` on. -/
def addCounters (ru₂ : Nat → Int) : Nat → Nat → (Nat → Int) → Nat → Int
  | 0, _, ru => ru
  | i + 1, ip, ru => addCounters ru₂ i (ip + 1) (update ru ip (ru ip + ru₂ ip))

def ruadd (ru ru₂ : Rusage) : Rusage where
  utime := timevaladd ru.utime ru₂.utime
  stime := timevaladd ru.stime ru₂.stime
  maxrss := if ru.maxrss < ru₂.maxrss then ru₂.maxrss else ru.maxrss
  counter := addCounters ru₂.counter (ruLast - ruFirst) ruFirst ru.counter

/-- `u_ru` and `u_cru` of a process and, as history, the records that `wait4` has given it. -/
structure User where
  ru : Rusage
  cru : Rusage
  reaped : List Rusage

/-- The `dm_rusage` of `send_death_msg`, which `wait4` hands to the parent as it is. -/
def deathRusage (u : User) : Rusage := ruadd u.ru u.cru

def bzero : Rusage := ⟨⟨0, 0⟩, ⟨0, 0⟩, 0, fun _ => 0⟩

def Rusage.Normal (ru : Rusage) : Prop := ru.utime.Normal ∧ ru.stime.Normal

/-- The steps of a process: its usage is counted, and `wait4` reaps a child. -/
inductive Step : User → User → Prop where
  | count {u : User} {ru : Rusage} (h : ru.Normal) (hrss : 0 ≤ ru.maxrss) : Step u { u with ru := ru }
  | wait4 {u : User} {rusage : Rusage} : Step u { u with reaped := u.reaped ++ [rusage] }

def process : System User := ⟨(· = ⟨bzero, bzero, []⟩), Step⟩

/-- One record is the total of some, in every field. -/
structure IsTotal (l : List Rusage) (ru : Rusage) : Prop where
  counter : ∀ i, ruFirst ≤ i → i ≤ ruLast → ru.counter i = (l.map (·.counter i)).sum
  maxrss : ru.maxrss ∈ l.map (·.maxrss) ∧ ∀ r ∈ l, r.maxrss ≤ ru.maxrss
  utime : ru.utime.Normal ∧ ru.utime.usecs = (l.map (·.utime.usecs)).sum
  stime : ru.stime.Normal ∧ ru.stime.usecs = (l.map (·.stime.usecs)).sum

/-- Some records that leave the total with one more as that is. -/
structure AddNothing (l : List Rusage) (ru : Rusage) : Prop where
  counter : ∀ i, ruFirst ≤ i → i ≤ ruLast → (l.map (·.counter i)).sum = 0
  maxrss : ∀ r ∈ l, r.maxrss ≤ ru.maxrss
  utime : (l.map (·.utime.usecs)).sum = 0
  stime : (l.map (·.stime.usecs)).sum = 0

/-! ## `ruadd` -/

theorem timevaladd_normal {t₁ t₂ : Timeval} (h₁ : t₁.Normal) (h₂ : t₂.Normal) :
    (timevaladd t₁ t₂).Normal ∧ (timevaladd t₁ t₂).usecs = t₁.usecs + t₂.usecs := by
  obtain ⟨hs₁, hu₁, hl₁⟩ := h₁
  obtain ⟨hs₂, hu₂, hl₂⟩ := h₂
  have hfix : ¬ t₁.tvUsec + t₂.tvUsec < 0 := by omega
  simp only [timevaladd, timevalfix, if_neg hfix]
  split <;> refine ⟨⟨?_, ?_, ?_⟩, ?_⟩ <;> simp only [Timeval.usecs] <;> omega

theorem normal_bzero : bzero.Normal := by
  constructor <;> constructor <;> decide

theorem addCounters_apply (ru₂ : Nat → Int) (i ip : Nat) (ru : Nat → Int) (k : Nat) :
    addCounters ru₂ i ip ru k = if ip ≤ k ∧ k < ip + i then ru k + ru₂ k else ru k := by
  fun_induction addCounters ru₂ i ip ru with
  | case1 => simp
  | case2 ip ru i ih =>
    rw [ih, update_apply]
    grind

theorem isTotal_ruadd {a b : Rusage} (ha : a.Normal) (hb : b.Normal) :
    IsTotal [a, b] (ruadd a b) ↔ b.counter ruLast = 0 := by
  refine ⟨fun h => ?_, fun hlast => ⟨fun i _ hi => ?_, ?_, ?_, ?_⟩⟩
  · simpa [ruadd, addCounters_apply, ruLast, ruFirst] using h.counter ruLast (Nat.zero_le _) (Nat.le_refl _)
  · have hcases : i < ruLast ∨ i = ruLast := by omega
    rcases hcases with hlt | rfl
    · simp [ruadd, addCounters_apply, hlt, ruFirst]
    · simp [ruadd, addCounters_apply, hlast, ruFirst]
  · simp only [ruadd, map_cons, map_nil, mem_cons, not_mem_nil, or_false, forall_eq_or_imp, forall_eq]
    omega
  · simpa [ruadd] using timevaladd_normal ha.1 hb.1
  · simpa [ruadd] using timevaladd_normal ha.2 hb.2

/-- Nothing adds to `u_cru`. -/
theorem cru_process {u : User} (h : Reachable process u) : u.ru.Normal ∧ 0 ≤ u.ru.maxrss ∧ u.cru = bzero := by
  induction h with
  | init h =>
    subst h
    exact ⟨normal_bzero, Int.le_refl 0, rfl⟩
  | step _ h ih =>
    cases h with
    | count hnormal hrss => exact ⟨hnormal, hrss, ih.2.2⟩
    | wait4 => exact ih

@[simp] theorem addCounters_zero (i ip : Nat) (ru : Nat → Int) : addCounters (fun _ => 0) i ip ru = ru := by
  funext k
  simp [addCounters_apply]

theorem timevaladd_zero {t : Timeval} (h : t.Normal) : timevaladd t ⟨0, 0⟩ = t := by
  have hfix : ¬ t.tvUsec < 0 := by
    have := h.usec_nonneg
    omega
  simp [timevaladd, timevalfix, hfix, h.usec_lt]

theorem deathRusage_eq {u : User} (h : Reachable process u) : deathRusage u = u.ru := by
  obtain ⟨⟨hut, hst⟩, hrss, hcru⟩ := cru_process h
  have hmax : ¬ u.ru.maxrss < 0 := by omega
  simp [deathRusage, hcru, ruadd, bzero, timevaladd_zero hut, timevaladd_zero hst, hmax]

/-- **What `wait4` reports**: two records are added exactly if the last counter of the second is 0, and a
process reports its usage and that of its reaped children exactly if theirs adds nothing to its own. -/
theorem total_iff {a b : Rusage} {u : User} (ha : a.Normal) (hb : b.Normal) (hu : Reachable process u) :
    (IsTotal [a, b] (ruadd a b) ↔ b.counter ruLast = 0) ∧
      (IsTotal (u.ru :: u.reaped) (deathRusage u) ↔ AddNothing u.reaped u.ru) := by
  refine ⟨isTotal_ruadd ha hb, ?_⟩
  obtain ⟨hut, hst⟩ := (cru_process hu).1
  rw [deathRusage_eq hu]
  refine ⟨fun h => ⟨fun i h0 hi => ?_, fun r hr => h.maxrss.2 r (mem_cons_of_mem _ hr), ?_, ?_⟩,
    fun h => ⟨fun i h0 hi => ?_, ?_, ⟨hut, ?_⟩, ⟨hst, ?_⟩⟩⟩
  · simpa using h.counter i h0 hi
  · simpa using h.utime.2
  · simpa using h.stime.2
  · simp [h.counter i h0 hi]
  · simpa using h.maxrss
  · simp [h.utime]
  · simp [h.stime]

/-- A child with 1.6 s and two of everything, and one with 0.7 s and one of everything but the last; the
process that reaped them has used 2.5 s, and they used nothing. -/
theorem total_iff_children :
    let a : Rusage := ⟨⟨1, 600000⟩, ⟨0, 0⟩, 3, fun _ => 2⟩
    let b : Rusage := ⟨⟨0, 700000⟩, ⟨0, 0⟩, 5, fun i => if i = ruLast then 0 else 1⟩
    IsTotal [a, b] (ruadd a b) ∧ ∃ u, Reachable process u ∧ u.ru.utime = ⟨2, 500000⟩ ∧ u.reaped = [bzero] ∧
      IsTotal (u.ru :: u.reaped) (deathRusage u) := by
  intro a b
  have ha : a.Normal := by constructor <;> constructor <;> decide
  have hb : b.Normal := by constructor <;> constructor <;> decide
  have hc : (⟨⟨2, 500000⟩, ⟨0, 0⟩, 0, fun _ => 0⟩ : Rusage).Normal := by
    constructor <;> constructor <;> decide
  have hu : Reachable process _ :=
    ((Reachable.init rfl).step (Step.count hc (by decide))).step (@Step.wait4 _ bzero)
  have h := total_iff ha hb hu
  exact ⟨h.1.mpr rfl, _, hu, rfl, rfl,
    h.2.mpr ⟨fun _ _ _ => rfl, forall_mem_singleton.mpr (by decide), rfl, rfl⟩⟩

/-- An involuntary context switch of a reaped child is not added, and would not be if `u_cru` had it. -/
theorem switch_not_added : ∃ b : Rusage, b.Normal ∧ ¬ IsTotal [bzero, b] (ruadd bzero b) ∧
    ∃ u, Reachable process u ∧ u.reaped = [b] ∧ ¬ IsTotal [u.ru, b] (deathRusage u) := by
  refine ⟨⟨⟨0, 0⟩, ⟨0, 0⟩, 0, fun _ => 1⟩, normal_bzero, fun h => ?_, _,
    (Reachable.init rfl).step .wait4, rfl, fun h => ?_⟩
  · exact absurd (h.counter ruLast (by decide) (by decide)) (by decide)
  · exact absurd (h.counter ruLast (by decide) (by decide)) (by decide)

end Ixemul.Usage
