/-
# Ixemul.Proc.Session — sessions and the number of their members (misc.c, vfork.c, ix_close_68k.c).

A session structure counts the processes that point to it.  A vforked child joins the session of its parent,
a process that exits leaves it and frees the structure if it was the last, and `setsid` leaves it for a new
one.  `setsid` never frees: it refuses to begin when the process is alone in its session.  But between its
test and its decrement the other members may leave, and nobody frees what is counted down to 0.

A structure is named by the number of those allocated before it.
-/
import Mathlib.Data.Finset.Card
import Ixemul.Lib.Run

namespace Ixemul.Proc.Session

open Lib.Run
open Function

/-- The processes that have the library open, `u_session` and `s_count`.  `testing` is where a process is in
`setsid` past its test; `frees` counts the calls of `kfree` for each structure. -/
structure Sys where
  procs : Finset Nat
  session : Nat → Option Nat
  testing : Nat → Bool
  count : Nat → Int
  frees : Nat → Nat
  next : Nat

/-- `s_count` of the session, if there is one, goes up or down. -/
def adjust (count : Nat → Int) : Option Nat → Int → Nat → Int
  | some σ, d => update count σ (count σ + d)
  | none, _ => count

namespace Sys

/-- One process, without a session. -/
def start (p : Nat) : Sys := ⟨{p}, fun _ => none, fun _ => false, fun _ => 0, fun _ => 0, 0⟩

/-- `setsid`, its test: EPERM, or it goes on. -/
def setsid (y : Sys) (p : Nat) : Sys :=
  if (y.session p).any (fun σ => y.count σ ≤ 1) then y
  else { y with testing := update y.testing p true }

/-- `setsid` from `kmalloc` on: ENOMEM, or the process changes over. -/
def setsidNew (y : Sys) (p : Nat) (mem : Bool) : Sys :=
  if !mem then { y with testing := update y.testing p false }
  else
    { y with
      session := update y.session p (some y.next)
      testing := update y.testing p false
      count := update (adjust y.count (y.session p) (-1)) y.next 1
      next := y.next + 1 }

/-- The part of `launcher` that is about the session. -/
def launcher (y : Sys) (child p : Nat) : Sys :=
  { y with
    procs := insert child y.procs
    session := update y.session child (y.session p)
    testing := update y.testing child false
    count := adjust y.count (y.session p) 1 }

/-- The part of `ix_close` that is about the session. -/
def ixClose (y : Sys) (p : Nat) : Sys :=
  { y with
    procs := y.procs.erase p
    count := adjust y.count (y.session p) (-1)
    frees := fun σ => if y.session p = some σ ∧ y.count σ ≤ 1 then y.frees σ + 1 else y.frees σ }

end Sys

inductive Op where
  | setsid (p : Nat)
  | setsidNew (p : Nat) (mem : Bool)
  | launcher (child p : Nat)
  | ixClose (p : Nat)
  deriving DecidableEq

inductive Step : Sys → Op → Sys → Prop where
  | setsid {y : Sys} {p : Nat} (hp : p ∈ y.procs) (ht : y.testing p = false) :
      Step y (.setsid p) (y.setsid p)
  | setsidNew {y : Sys} {p : Nat} {mem : Bool} (hp : p ∈ y.procs) (ht : y.testing p = true) :
      Step y (.setsidNew p mem) (y.setsidNew p mem)
  | launcher {y : Sys} {child p : Nat} (hp : p ∈ y.procs) (ht : y.testing p = false)
      (hchild : child ∉ y.procs) : Step y (.launcher child p) (y.launcher child p)
  | ixClose {y : Sys} {p : Nat} (hp : p ∈ y.procs) : Step y (.ixClose p) (y.ixClose p)

/-- When a process changes over to a new session, it is not alone in the old one. -/
def StillShared (y : Sys) : Op → Prop
  | .setsidNew p mem => mem = true → ∀ σ, y.session p = some σ → 1 < y.count σ
  | _ => True

/-! ## The property -/

/-- The members of a session. -/
def Sys.members (y : Sys) (σ : Nat) : Finset Nat := y.procs.filter (fun p => y.session p = some σ)

/-- The structure has been allocated and not freed. -/
def Sys.Live (y : Sys) (σ : Nat) : Prop := σ < y.next ∧ y.frees σ = 0

structure Sound (y : Sys) : Prop where
  count : ∀ σ, y.Live σ → y.count σ = (y.members σ).card
  /-- no structure is left without a member -/
  used : ∀ σ, y.Live σ → (y.members σ).Nonempty
  once : ∀ σ, y.frees σ ≤ 1
  /-- no process points to a structure that was freed -/
  there : ∀ p ∈ y.procs, ∀ σ, y.session p = some σ → y.Live σ
  fresh : ∀ σ, y.next ≤ σ → y.frees σ = 0

theorem sound_start (p : Nat) : Sound (Sys.start p) where
  count σ h := absurd h.1 (Nat.not_lt_zero σ)
  used σ h := absurd h.1 (Nat.not_lt_zero σ)
  once _ := Nat.zero_le 1
  there _ _ _ h := nomatch h
  fresh _ _ := rfl

section Steps

variable {y : Sys} {p child σ : Nat}

theorem mem_members : p ∈ y.members σ ↔ p ∈ y.procs ∧ y.session p = some σ := Finset.mem_filter

theorem adjust_apply (count : Nat → Int) (o : Option Nat) (d : Int) (σ : Nat) :
    adjust count o d σ = if o = some σ then count σ + d else count σ := by
  cases o with
  | none => rfl
  | some τ =>
    show update count τ (count τ + d) σ = _
    rcases eq_or_ne σ τ with rfl | h
    · simp
    · simp [h, h.symm]

theorem card_erase_members (hp : p ∈ y.procs) (σ : Nat) :
    (((y.members σ).erase p).card : Int) =
      if y.session p = some σ then ((y.members σ).card : Int) + -1 else (y.members σ).card := by
  by_cases h : y.session p = some σ
  · rw [if_pos h, ← Finset.card_erase_add_one (mem_members.mpr ⟨hp, h⟩)]
    omega
  · rw [if_neg h, Finset.erase_eq_of_notMem (fun hm => h (mem_members.mp hm).2)]

theorem members_ixClose : (y.ixClose p).members σ = (y.members σ).erase p := Finset.filter_erase ..

theorem erase_nonempty (h : Sound y) (hp : p ∈ y.procs) (hs : y.session p = some σ) :
    ((y.members σ).erase p).Nonempty ↔ 1 < y.count σ := by
  have hcard := card_erase_members hp σ
  rw [if_pos hs] at hcard
  rw [← Finset.card_pos, h.count σ (h.there p hp σ hs)]
  omega

theorem Sound.erase_used (h : Sound y) (hp : p ∈ y.procs) (hlive : y.Live σ)
    (hmore : y.session p = some σ → 1 < y.count σ) : ((y.members σ).erase p).Nonempty := by
  by_cases hs : y.session p = some σ
  · exact (erase_nonempty h hp hs).mpr (hmore hs)
  · rw [Finset.erase_eq_of_notMem (fun hm => hs (mem_members.mp hm).2)]
    exact h.used σ hlive

/-! ## An exit -/

theorem live_ixClose : (y.ixClose p).Live σ ↔ y.Live σ ∧ ¬ (y.session p = some σ ∧ y.count σ ≤ 1) := by
  unfold Sys.Live Sys.ixClose
  simp only
  split
  · next hlast => exact ⟨fun h => absurd h.2 (Nat.succ_ne_zero _), fun h => absurd hlast h.2⟩
  · next hstays => exact ⟨fun h => ⟨h, hstays⟩, fun h => h.1⟩

theorem Sound.ixClose (h : Sound y) (hp : p ∈ y.procs) : Sound (y.ixClose p) := by
  constructor
  · intro σ hσ
    obtain ⟨hlive, -⟩ := live_ixClose.mp hσ
    show adjust y.count (y.session p) (-1) σ = _
    rw [adjust_apply, members_ixClose, card_erase_members hp, h.count σ hlive]
  · intro σ hσ
    obtain ⟨hlive, hnotlast⟩ := live_ixClose.mp hσ
    rw [members_ixClose]
    exact h.erase_used hp hlive fun hs => Int.not_le.mp fun hle => hnotlast ⟨hs, hle⟩
  · intro σ
    show (if y.session p = some σ ∧ y.count σ ≤ 1 then y.frees σ + 1 else y.frees σ) ≤ 1
    split
    · next hlast =>
      have hzero := (h.there p hp σ hlast.1).2
      omega
    · exact h.once σ
  · intro q hq σ hs
    obtain ⟨hne, hq'⟩ := Finset.mem_erase.mp hq
    have hs' : y.session q = some σ := hs
    refine live_ixClose.mpr ⟨h.there q hq' σ hs', ?_⟩
    rintro ⟨hps, hlast⟩
    have hmore : ((y.members σ).erase p).Nonempty :=
      ⟨q, Finset.mem_erase.mpr ⟨hne, mem_members.mpr ⟨hq', hs'⟩⟩⟩
    have := (erase_nonempty h hp hps).mp hmore
    omega
  · intro σ hσ
    show (if y.session p = some σ ∧ y.count σ ≤ 1 then y.frees σ + 1 else y.frees σ) = 0
    rw [if_neg, h.fresh σ hσ]
    rintro ⟨hs, -⟩
    have hlt := (h.there p hp σ hs).1
    exact absurd hlt (not_lt.mpr hσ)

/-! ## A child -/

theorem members_launcher (hchild : child ∉ y.procs) :
    (y.launcher child p).members σ =
      if y.session p = some σ then insert child (y.members σ) else y.members σ := by
  have hrest : ∀ q ∈ y.procs, update y.session child (y.session p) q = y.session q := by
    intro q hq
    exact update_of_ne (ne_of_mem_of_not_mem hq hchild) ..
  show (insert child y.procs).filter (fun q => update y.session child (y.session p) q = some σ) = _
  rw [Finset.filter_insert, update_self, Finset.filter_congr (fun q hq => by rw [hrest q hq])]
  rfl

theorem card_members_launcher (hchild : child ∉ y.procs) :
    (((y.launcher child p).members σ).card : Int) =
      if y.session p = some σ then ((y.members σ).card : Int) + 1 else (y.members σ).card := by
  rw [members_launcher hchild]
  split
  · rw [Finset.card_insert_of_notMem (fun hm => hchild (mem_members.mp hm).1)]
    exact Int.natCast_succ _
  · rfl

theorem Sound.launcher (h : Sound y) (hp : p ∈ y.procs) (hchild : child ∉ y.procs) :
    Sound (y.launcher child p) := by
  constructor
  · intro σ hσ
    show adjust y.count (y.session p) 1 σ = _
    rw [adjust_apply, card_members_launcher hchild, h.count σ hσ]
  · intro σ hσ
    rw [members_launcher hchild]
    split
    · exact Finset.insert_nonempty ..
    · exact h.used σ hσ
  · exact h.once
  · intro q hq σ hs
    change update y.session child (y.session p) q = some σ at hs
    rcases Finset.mem_insert.mp hq with rfl | hq'
    · rw [update_self] at hs
      exact h.there p hp σ hs
    · rw [update_of_ne (ne_of_mem_of_not_mem hq' hchild)] at hs
      exact h.there q hq' σ hs
  · exact h.fresh

/-! ## A new session -/

theorem members_setsidNew (hσ : σ ≠ y.next) : (y.setsidNew p true).members σ = (y.members σ).erase p := by
  ext q
  rw [Finset.mem_erase, mem_members, mem_members]
  show q ∈ y.procs ∧ update y.session p (some y.next) q = some σ ↔ _
  rcases eq_or_ne q p with rfl | hne
  · simp [hσ.symm]
  · simp [hne]

theorem members_setsidNew_next (h : Sound y) (hp : p ∈ y.procs) :
    (y.setsidNew p true).members y.next = {p} := by
  ext q
  rw [Finset.mem_singleton, mem_members]
  show q ∈ y.procs ∧ update y.session p (some y.next) q = some y.next ↔ _
  rcases eq_or_ne q p with rfl | hne
  · simp [hp]
  · rw [update_of_ne hne]
    refine iff_of_false ?_ hne
    -- nobody can have been in a session that was not there
    rintro ⟨hq, hs⟩
    exact absurd (h.there q hq _ hs).1 (lt_irrefl _)

theorem live_setsidNew (h : Sound y) : (y.setsidNew p true).Live σ ↔ y.Live σ ∨ σ = y.next := by
  show σ < y.next + 1 ∧ y.frees σ = 0 ↔ (σ < y.next ∧ y.frees σ = 0) ∨ σ = y.next
  have hfresh := h.fresh σ
  omega

theorem Sound.setsidNew (h : Sound y) (hp : p ∈ y.procs)
    (hshared : ∀ σ, y.session p = some σ → 1 < y.count σ) : Sound (y.setsidNew p true) := by
  constructor
  · intro σ hσ
    show update (adjust y.count (y.session p) (-1)) y.next 1 σ = _
    rcases (live_setsidNew h).mp hσ with hold | rfl
    · have hne : σ ≠ y.next := ne_of_lt hold.1
      rw [update_of_ne hne, adjust_apply, members_setsidNew hne, card_erase_members hp,
        h.count σ hold]
    · rw [update_self, members_setsidNew_next h hp]
      rfl
  · intro σ hσ
    rcases (live_setsidNew h).mp hσ with hold | rfl
    · rw [members_setsidNew (ne_of_lt hold.1)]
      exact h.erase_used hp hold (hshared σ)
    · rw [members_setsidNew_next h hp]
      exact Finset.singleton_nonempty p
  · exact h.once
  · intro q hq σ hs
    change update y.session p (some y.next) q = some σ at hs
    refine (live_setsidNew h).mpr ?_
    rcases eq_or_ne q p with rfl | hne
    · rw [update_self] at hs
      exact .inr (Option.some.inj hs).symm
    · rw [update_of_ne hne] at hs
      exact .inl (h.there q hq σ hs)
  · exact fun σ hσ => h.fresh σ (Nat.le_of_succ_le hσ)

theorem shared_of_sound (h : Sound y) (hp : p ∈ y.procs) (h' : Sound (y.setsidNew p true))
    (hs : y.session p = some σ) : 1 < y.count σ := by
  have hlive := h.there p hp σ hs
  have hused := h'.used σ ((live_setsidNew h).mpr (.inl hlive))
  rw [members_setsidNew (ne_of_lt hlive.1)] at hused
  exact (erase_nonempty h hp hs).mp hused

end Steps

/-! ## Runs -/

theorem Sound.of_testing {y : Sys} (h : Sound y) (testing : Nat → Bool) : Sound { y with testing } :=
  ⟨h.count, h.used, h.once, h.there, h.fresh⟩

theorem sound_step {y y' : Sys} {op : Op} (h : Sound y) (hs : Step y op y') :
    Sound y' ↔ StillShared y op := by
  cases hs with
  | @setsid =>
    refine iff_of_true ?_ trivial
    unfold Sys.setsid
    split
    · exact h
    · exact h.of_testing _
  | @setsidNew p mem hp =>
    cases mem with
    | false => exact iff_of_true (h.of_testing _) nofun
    | true =>
      constructor
      · exact fun h' _ σ hσ => shared_of_sound h hp h' hσ
      · exact fun hshared => h.setsidNew hp (hshared rfl)
  | launcher hp ht hchild => exact iff_of_true (h.launcher hp hchild) trivial
  | ixClose hp => exact iff_of_true (h.ixClose hp) trivial

/-- A `setsid` that goes on at once after its test finds the session as its test did. -/
theorem stillShared_setsid {y : Sys} {p : Nat} (ht : y.testing p = false)
    (hgo : (y.setsid p).testing p) (mem : Bool) : StillShared (y.setsid p) (.setsidNew p mem) := by
  unfold Sys.setsid at hgo ⊢
  split at hgo
  · rw [ht] at hgo
    exact nomatch hgo
  · next hshared =>
    rw [if_neg hshared]
    intro _ σ hs
    have hs' : y.session p = some σ := hs
    rw [hs'] at hshared
    simpa using hshared

/-- **Sessions**: the runs in which every session has its members counted and is freed once, when the last
of them exits, are those in which no process changes over to a new session after it was left alone in the
old one. -/
theorem sound_iff_still_shared {p : Nat} {tr : List (Sys × Op)} {y : Sys}
    (h : History Step (Sys.start p) tr y) :
    ((∀ x ∈ tr, Sound x.1) ∧ Sound y) ↔ ∀ x ∈ tr, StillShared x.1 x.2 :=
  h.always_iff (fun _ _ _ hy hs => sound_step hy hs) (sound_start p)

/-- Process 0 has made a session and forked process 1 into it. -/
def shared : Sys := (((Sys.start 0).setsid 0).setsidNew 0 true).launcher 1 0

theorem history_shared : ∃ tr, History Step (Sys.start 0) tr shared ∧ ∀ x ∈ tr, StillShared x.1 x.2 := by
  have h₁ := (History.nil (Sys.start 0)).snoc (@Step.setsid _ 0 (by decide) rfl)
  have h₂ := h₁.snoc (@Step.setsidNew _ 0 true (by decide) rfl)
  have h₃ := h₂.snoc (@Step.launcher _ 1 0 (by decide) rfl (by decide))
  refine ⟨_, h₃, ?_⟩
  simp only [List.nil_append, List.forall_mem_append, List.forall_mem_singleton]
  exact ⟨⟨trivial, stillShared_setsid rfl rfl true⟩, trivial⟩

/-- Both leave, process 1 last: the structure is freed. -/
theorem sound_shared_left : Sound (((shared.ixClose 0).ixClose 1)) ∧
    ((shared.ixClose 0).ixClose 1).frees 0 = 1 := by
  obtain ⟨tr, h, hshared⟩ := history_shared
  have h₁ := h.snoc (@Step.ixClose _ 0 (by decide))
  have h₂ := h₁.snoc (@Step.ixClose _ 1 (by decide))
  refine ⟨((sound_iff_still_shared h₂).mpr ?_).2, rfl⟩
  simp only [List.forall_mem_append, List.forall_mem_singleton]
  exact ⟨⟨hshared, trivial⟩, trivial⟩

/-- Process 0 has made its test in `setsid` when process 1 exits.  It counts the session down to 0, and
nobody frees it. -/
theorem session_left_behind : ∃ tr y, History Step (Sys.start 0) tr y ∧ y.Live 0 ∧ y.count 0 = 0 ∧
    y.members 0 = ∅ := by
  obtain ⟨tr, h, -⟩ := history_shared
  have h₁ := h.snoc (@Step.setsid _ 0 (by decide) rfl)
  have h₂ := h₁.snoc (@Step.ixClose _ 1 (by decide))
  have h₃ := h₂.snoc (@Step.setsidNew _ 0 true (by decide) rfl)
  exact ⟨_, _, h₃, ⟨by decide, rfl⟩, rfl, by decide⟩

end Ixemul.Proc.Session
