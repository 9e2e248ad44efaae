/-
# Ixemul.Proc.Death — the user area behind a death message (vfork.c, ix_sleep.c).

`wait4` looks through a death message into the user area of the child.  It may do so because the child
sleeps on the message, in `send_death_msg`, until the message has been taken off its list; only then it
gives the user area back.  That sleep is not repeated.  A signal that the child does not hold back, or a
Ctrl-C, ends it, and CURSIG ends it before it has begun; so does a wake-up that is left over.  For `setrun`
sets the bit `u_sleep_sig` of a task it finds in SSLEEP or in `select`, which may be past its `Wait` or not
wait for that bit, and `tsleep` does not clear it before its own `Wait`.  The child then leaves with its
message still on the list.
-/
import Ixemul.Proc.Reap

namespace Ixemul.Proc

open Lib.Links Lib.Run
open Function List

variable {P : Type*} [DecidableEq P]

namespace Procs

/-! ## Signals -/

/-- The processes, and whether there is something for a process that ends its sleep: a pending signal it
does not hold back or a Ctrl-C, or the bit `u_sleep_sig` of an earlier signal. -/
structure Signalled (P : Type*) where
  procs : Procs P
  pending : P → Bool
  wakeup : P → Bool

/-- A sleep of the process would end at once. -/
def Signalled.Ends (y : Signalled P) (p : P) : Prop := y.pending p = true ∨ y.wakeup p = true

/-- The end of `ix_sleep` in `send_death_msg`, whatever ended it. -/
def leave (s : Procs P) (p : P) : Procs P := s.setUser p { s.user p with stat := .run, pc := .gone }

inductive SignalOp (P : Type*) where
  | call (op : Op P)
  | signal (p : P) (wakeup : Bool)
  | taken (p : P)
  | slept (p : P)
  | leave (p : P)

inductive SignalStep : Signalled P → SignalOp P → Signalled P → Prop where
  | call {y : Signalled P} {op : Op P} {s : Procs P} (h : Step y.procs op s) :
      SignalStep y (.call op) { y with procs := s }
  /-- `setrun` may set the bit, too -/
  | signal {y : Signalled P} {p : P} {wakeup : Bool} : SignalStep y (.signal p wakeup)
      ⟨y.procs, update y.pending p true, update y.wakeup p (wakeup || y.wakeup p)⟩
  /-- the signal has been dealt with; the bit stays -/
  | taken {y : Signalled P} {p : P} :
      SignalStep y (.taken p) { y with pending := update y.pending p false }
  /-- another `Wait` has taken the bit -/
  | slept {y : Signalled P} {p : P} (hpc : ∀ id woken, (y.procs.user p).pc ≠ .death id woken) :
      SignalStep y (.slept p) { y with wakeup := update y.wakeup p false }
  /-- no wake-up of `wait4` was needed -/
  | leave {y : Signalled P} {p : P} {id : Nat} {woken : Bool}
      (hpc : (y.procs.user p).pc = .death id woken) (hp : y.Ends p) :
      SignalStep y (.leave p) { y with procs := y.procs.leave p }

/-- Nothing is there for a process that exits, and nothing is sent to one that sleeps on its message. -/
def Undisturbed (y : Signalled P) : SignalOp P → Prop
  | .call (.exit p _ _) => ¬ y.Ends p
  | .signal p _ => ∀ id, (y.procs.user p).pc ≠ .death id false
  | _ => True

/-! ## Who goes to sleep -/

section Steps

variable {s s' : Procs P} {c p q : P} {tree : Tree P} {id : Nat} {op : Op P}

theorem wakeAll_back {zs : List (DeathMsg P)} (h : ((s.wakeAll zs).user q).pc = .death id false) :
    (s.user q).pc = .death id false := by
  induction zs generalizing s with
  | nil => exact h
  | cons dm zs ih => exact (wake_death.mp (ih h)).1

theorem close_back (h : ((s.close p tree).user q).pc = .death id false) :
    (s.user q).pc = .death id false := by
  have hback : ((({ s with
      tree := tree
      orig := fun r => if s.orig r = PPtr.proc p then .init else s.orig r } : Procs P).wakeAll
        (s.user p).zombies).user q).pc = .death id false → (s.user q).pc = .death id false := wakeAll_back
  simp only [Procs.close, setUser_user] at h
  split at h
  · next hq =>
    subst hq
    exact hback h
  · exact hback h

theorem asleep_back (hs : Step s op s') (h : (s'.user c).pc = .death id false) :
    (s.user c).pc = .death id false ∨ ∃ status alloc, op = .exit c status alloc := by
  cases hs.effect with
  | kept hk => exact .inl (hk.back h)
  | @sent p q status =>
    by_cases hcp : c = p
    · subst hcp
      exact .inr ⟨status, true, rfl⟩
    · rw [(s.sendDeathMsg_user p q status c).2.2.1, if_neg hcp] at h
      left
      split at h
      · exact (wake_death.mp h).1
      · exact h
  | @reaped _ s₁ me fits dm hk =>
    rw [(reap_user s₁ me fits dm c).2.2.1] at h
    exact .inl (hk.back (wake_death.mp h).1)
  | closed => exact .inl (close_back h)

end Steps

/-! ## Runs -/

/-- Nothing is there for a process that sleeps on its message. -/
structure Quiet (y : Signalled P) : Prop where
  mourned : y.procs.Mourned
  pending : ∀ {c id}, (y.procs.user c).pc = .death id false → ¬ y.Ends c

theorem of_update_false {f : P → Bool} {c p : P} (h : update f p false c = true) : f c = true := by
  rw [update_apply] at h
  split at h
  · cases h
  · exact h

theorem Quiet.step {y y' : Signalled P} {op : SignalOp P} (h : Quiet y) (hm : Undisturbed y op)
    (hs : SignalStep y op y') : Quiet y' := by
  cases hs with
  | @call op s hstep =>
    refine ⟨h.mourned.step hstep, ?_⟩
    intro c id hc
    rcases asleep_back hstep hc with hold | ⟨status, alloc, rfl⟩
    · exact h.pending hold
    · exact hm
  | @signal p wakeup =>
    refine ⟨h.mourned, ?_⟩
    intro c id hc
    have hcp : c ≠ p := by
      rintro rfl
      exact hm id hc
    simpa only [Signalled.Ends, update_of_ne hcp] using h.pending hc
  | @taken p =>
    exact ⟨h.mourned, fun hc hends => h.pending hc (hends.imp_left of_update_false)⟩
  | @slept p =>
    exact ⟨h.mourned, fun hc hends => h.pending hc (hends.imp_right of_update_false)⟩
  | @leave p id woken hpc hp =>
    have hwoken : ∀ i, (y.procs.user p).pc ≠ .death i false := fun i hi => h.pending hi hp
    have hkept : y.procs.Kept (y.procs.leave p) :=
      kept_setUser rfl fun i => ⟨nofun, fun hi => absurd hi (hwoken i)⟩
    exact ⟨h.mourned.kept hkept, fun hc => h.pending (hkept.back hc)⟩

/-- No process, and no signal. -/
def Signalled.start : Signalled P := ⟨empty, fun _ => false, fun _ => false⟩

/-- **The child of a death message is there**: in every run in which no process is disturbed while it is
exiting, the child of a message on any list is asleep on it, and has not closed the library. -/
theorem child_asleep_of_message {tr : List (Signalled P × SignalOp P)} {y : Signalled P}
    (h : History SignalStep Signalled.start tr y) (hm : ∀ x ∈ tr, Undisturbed x.1 x.2) :
    ∀ p, ∀ dm ∈ (y.procs.user p).zombies,
      y.procs.tree.live dm.child = true ∧ (y.procs.user dm.child).pc = .death dm.id false := by
  have hstart : Quiet (Signalled.start : Signalled P) := ⟨mourned_empty, nofun⟩
  have hy : Quiet y := h.invariant (fun _ _ _ hq hu hs => hq.step hu hs) hstart hm
  exact fun p dm hdm => hy.mourned.child hdm

/-- Process 0 has forked process 1, which has exited. -/
def exited : Signalled Nat := ⟨forked.exit 1 0 true, fun _ => false, fun _ => false⟩

theorem history_exited : ∃ tr, History SignalStep Signalled.start tr exited ∧
    ∀ x ∈ tr, Undisturbed x.1 x.2 := by
  have h₁ := (History.nil Signalled.start).snoc (SignalStep.call (@Step.start Nat _ _ 0 0 rfl))
  have h₂ := h₁.snoc (SignalStep.call (@Step.vfork _ _ _ 1 0 rfl ⟨rfl, rfl, by decide⟩))
  have h₃ := h₂.snoc (SignalStep.call (@Step.exit _ _ _ 1 0 true running_forked))
  exact ⟨_, h₃, by simp [Undisturbed, Signalled.Ends, Signalled.start]⟩

theorem child_asleep_exited :
    ((exited.procs.user 0).zombies.map DeathMsg.child) = [1] ∧ exited.procs.tree.live 1 = true ∧
      (exited.procs.user 1).pc = .death 0 false := by
  obtain ⟨tr, h, hm⟩ := history_exited
  have hmem : (⟨0, 1, 0, 0⟩ : DeathMsg Nat) ∈ (exited.procs.user 0).zombies := mem_singleton_self _
  exact ⟨rfl, child_asleep_of_message h hm 0 _ hmem⟩

/-- The exiting child is sent a signal while it sleeps.  It leaves and closes the library, and its message
is still on the list of its parent. -/
theorem message_of_closed_child : ∃ tr y, History SignalStep Signalled.start tr y ∧
    ((y.procs.user 0).zombies.map DeathMsg.child) = [1] ∧ y.procs.tree.live 1 = false := by
  obtain ⟨tr, h, -⟩ := history_exited
  have h₁ := h.snoc (@SignalStep.signal _ _ _ 1 false)
  have h₂ := h₁.snoc (@SignalStep.leave _ _ _ 1 0 false rfl (.inl rfl))
  have h₃ := h₂.snoc (SignalStep.call (@Step.close _ _ _ 1 0 _ rfl (.inl rfl) rfl))
  exact ⟨_, _, h₃, rfl, rfl⟩

end Procs

end Ixemul.Proc
