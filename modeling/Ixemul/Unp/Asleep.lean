/-
# Ixemul.Unp.Asleep — who answers a task that sleeps in `unp_connect` (unp.c).

A task sleeps on its socket until the call of `unp_accept` that took the socket from a queue wakes it.  Two
things leave it asleep for good.  `close_stream` frees the name of a listening socket, queue and all, and
wakes nobody.  And the loop in `unp_connect` goes by a state that it read before the last Permit: after a
signal it sleeps again although the answer, and the wake-up for it, came in between.
-/
import Ixemul.Unp.Connect

namespace Ixemul.Unp

open Lib.Run
open Function List

/-- No listening socket is closed for good that has sockets in its queue, and no task goes back to sleep on a
socket whose state is final. -/
def LeavesNobody (y : Sys) : Op → Prop
  | .close _ f => ∀ s n un, y.file f = some ⟨s, 1⟩ → (y.sock s).unixName = some n → y.name n = some un →
      un.queue = []
  | .again t false => ∀ s k intr st, y.pc t = .checked s k intr st → ¬ (y.sock s).state.Final
  | _ => True

/-! ## Who has a socket -/

/-- The socket is in the queue of a registered name. -/
def InQueue (y : Sys) (s : Nat) : Prop := ∃ n un k, y.name n = some un ∧ (s, k) ∈ un.queue

/-- A call of `unp_accept` took the socket, and will set its state. -/
def Pc.Serves (s : Nat) : Pc → Prop
  | .taken s' _ => s' = s
  | .got _ s' _ => s' = s
  | .stored _ s' _ => s' = s
  | _ => False

/-- A call of `unp_accept` took the socket, and will wake who sleeps on it. -/
def Pc.Owes (s : Nat) : Pc → Prop
  | .taken s' _ => s' = s
  | .got _ s' _ => s' = s
  | .stored _ s' _ => s' = s
  | .answered s' _ => s' = s
  | _ => False

variable {s : Nat} {pc : Pc}

theorem Pc.Serves.owes (h : pc.Serves s) : pc.Owes s := by
  cases pc <;> first | exact h | exact h.elim

def Served (y : Sys) (s : Nat) : Prop := ∃ t, (y.pc t).Serves s
def Owed (y : Sys) (s : Nat) : Prop := ∃ t, (y.pc t).Owes s

variable {y : Sys}

theorem Served.owed (h : Served y s) : Owed y s := by
  obtain ⟨t, ht⟩ := h
  exact ⟨t, ht.owes⟩

/-- Who sleeps on the socket will be woken, or may be. -/
def Pending (y : Sys) (s : Nat) : Prop := InQueue y s ∨ Owed y s

/-- The state is final, or will be set. -/
def Settled (y : Sys) (s : Nat) : Prop := (y.sock s).state.Final ∨ Served y s

/-! ## The invariant -/

/-- What a task may count on. -/
def Pc.CountsOn (y : Sys) : Pc → Prop
  | .connecting s _ => s < y.socks
  | .queued s _ _ => s < y.socks ∧ (Pending y s ∨ (y.sock s).state.Final)
  | .asleep s _ woken => s < y.socks ∧ (Pending y s ∨ woken = true ∧ (y.sock s).state.Final)
  | .checked s _ _ _ => s < y.socks ∧ (Pending y s ∨ (y.sock s).state.Final)
  | .taken s _ => s < y.socks
  | .got _ s _ => s < y.socks
  | .stored _ s _ => s < y.socks
  | .answered s _ => s < y.socks ∧ Settled y s
  | _ => True

structure Answerable (y : Sys) : Prop where
  files : ∀ f fp, y.file f = some fp → fp.sock < y.socks
  queues : ∀ n un, y.name n = some un → ∀ e ∈ un.queue, e.1 < y.socks
  countsOn : ∀ t, (y.pc t).CountsOn y

theorem Answerable.init : Answerable Sys.init where
  files _ _ h := nomatch h
  queues _ _ h := nomatch h
  countsOn _ := trivial

variable {t : Nat}

theorem Answerable.countsOn_at (h : Answerable y) (ht : y.pc t = pc) : pc.CountsOn y := by
  rw [← ht]
  exact h.countsOn t

/-- Nothing is lost of what tasks count on. -/
structure Keeps (y y' : Sys) : Prop where
  socks : y.socks ≤ y'.socks
  pending : ∀ s < y.socks, Pending y s → Pending y' s
  settled : ∀ s < y.socks, Settled y s → Settled y' s

section

variable {y y' : Sys} {s : Nat}

theorem Settled.pending (h : Settled y s) : Pending y s ∨ (y.sock s).state.Final := by
  rcases h with h | h
  · exact .inr h
  · exact .inl (.inr h.owed)

theorem Keeps.hope (h : Keeps y y') (hs : s < y.socks) (hp : Pending y s ∨ (y.sock s).state.Final) :
    Pending y' s ∨ (y'.sock s).state.Final := by
  rcases hp with hp | hp
  · exact .inl (h.pending s hs hp)
  · exact (h.settled s hs (.inl hp)).pending

/-- What a place in the code counts on lasts through a step that keeps it. -/
theorem Pc.CountsOn.mono {pc : Pc} (hpc : pc.CountsOn y) (h : Keeps y y') : pc.CountsOn y' := by
  cases pc with
  | connecting | taken | got | stored => exact Nat.lt_of_lt_of_le hpc h.socks
  | queued | checked => exact ⟨Nat.lt_of_lt_of_le hpc.1 h.socks, h.hope hpc.1 hpc.2⟩
  | asleep s =>
    refine ⟨Nat.lt_of_lt_of_le hpc.1 h.socks, ?_⟩
    rcases hpc.2 with hp | ⟨hw, hst⟩
    · exact .inl (h.pending s hpc.1 hp)
    · exact (h.settled s hpc.1 (.inl hst)).pending.imp_right fun hst' => ⟨hw, hst'⟩
  | answered s => exact ⟨Nat.lt_of_lt_of_le hpc.1 h.socks, h.settled s hpc.1 hpc.2⟩
  | _ => trivial

end

/-! ### Parts of a step -/

namespace Answerable

variable {y : Sys} {t s n f : Nat} {pc pc' : Pc} {us : UnixSocket} {un : UnixName} {k s' : Nat}

theorem keeps_setPc (howes : ∀ s, (y.pc t).Owes s → pc.Owes s)
    (hserves : ∀ s, (y.pc t).Serves s → pc.Serves s ∨ (y.sock s).state.Final) :
    Keeps y (y.setPc t pc) := by
  have hother : ∀ t', t' ≠ t → (y.setPc t pc).pc t' = y.pc t' := fun t' ht' => update_of_ne ht' _ _
  have hself : (y.setPc t pc).pc t = pc := update_self ..
  refine ⟨Nat.le_refl _, fun s _ hp => ?_, fun s _ hp => ?_⟩
  · rcases hp with hp | ⟨t', ht'⟩
    · exact .inl hp
    · refine .inr ⟨t', ?_⟩
      rcases eq_or_ne t' t with rfl | hne
      · rw [hself]
        exact howes s ht'
      · rwa [hother t' hne]
  · rcases hp with hp | ⟨t', ht'⟩
    · exact .inl hp
    · rcases eq_or_ne t' t with rfl | hne
      · rcases hserves s ht' with hpc | hst
        · exact .inr ⟨t', by rwa [hself]⟩
        · exact .inl hst
      · exact .inr ⟨t', by rwa [hother t' hne]⟩

section

variable (h : Answerable y)
include h

theorem setPc (hpc : pc.CountsOn y)
    (howes : ∀ s, (y.pc t).Owes s → pc.Owes s)
    (hserves : ∀ s, (y.pc t).Serves s → pc.Serves s ∨ (y.sock s).state.Final) :
    Answerable (y.setPc t pc) :=
  have hkeeps := keeps_setPc howes hserves
  { h with
    countsOn := (forall_update_iff y.pc fun _ pc' => pc'.CountsOn (y.setPc t pc)).mpr
      ⟨hpc.mono hkeeps, fun t' _ => (h.countsOn t').mono hkeeps⟩ }

theorem setPc_serving (ht : y.pc t = pc)
    (howes : ∀ s, pc.Owes s → pc'.Owes s) (hserves : ∀ s, pc.Serves s → pc'.Serves s)
    (hpc : pc'.CountsOn y) : Answerable (y.setPc t pc') := by
  subst ht
  exact h.setPc hpc howes fun s hs => .inl (hserves s hs)

theorem setPc_free (ht : y.pc t = pc) (hpc : ∀ s, ¬ pc.Owes s)
    (hpc' : pc'.CountsOn y) : Answerable (y.setPc t pc') := by
  apply h.setPc hpc'
  · rw [ht]
    exact fun s hs => absurd hs (hpc s)
  · rw [ht]
    exact fun s hs => absurd hs.owes (hpc s)

theorem setFile {fp : Option File} (hfp : ∀ fp', fp = some fp' → fp'.sock < y.socks) :
    Answerable (y.setFile f fp) :=
  { h with files := Sys.forall_file_setFile h.files hfp }

theorem setSock (hus : (y.sock s).state.Final → us.state.Final ∨ Served y s) : Answerable (y.setSock s us) :=
  have hall : ∀ s', (y.sock s').state.Final → ((y.setSock s us).sock s').state.Final ∨ Served y s' :=
    (forall_update_iff y.sock fun s' us => (y.sock s').state.Final → us.state.Final ∨ Served y s').mpr
      ⟨hus, fun _ _ => .inl⟩
  have hkeeps : Keeps y (y.setSock s us) :=
    ⟨Nat.le_refl _, fun _ _ => id, fun s' _ hs' => hs'.elim (hall s') .inr⟩
  { h with countsOn := fun t' => (h.countsOn t').mono hkeeps }

theorem setSock_of_eq (hus : us.state = (y.sock s).state) : Answerable (y.setSock s us) :=
  h.setSock (fun hst => .inl (by rwa [hus]))

theorem setSock_free (ht : y.pc t = pc) (hpc : ∀ s, ¬ pc.Owes s) (hus : us.state = (y.sock s).state)
    (hpc' : pc'.CountsOn (y.setSock s us)) : Answerable ((y.setSock s us).setPc t pc') :=
  (h.setSock_of_eq hus).setPc_free ht hpc hpc'

theorem setNames {names : List Nat} {name : Nat → Option UnixName}
    (hbelow : ∀ n un, name n = some un → ∀ e ∈ un.queue, e.1 < y.socks)
    (hkept : ∀ n un, y.name n = some un → ∀ e ∈ un.queue,
      (∃ un', name n = some un' ∧ e ∈ un'.queue) ∨ Owed y e.1) :
    Answerable { y with names, name } where
  files := h.files
  queues := hbelow
  countsOn t' := by
    have hkeeps : Keeps y { y with names, name } := by
      refine ⟨Nat.le_refl _, fun s _ hs => ?_, fun _ _ => id⟩
      rcases hs with ⟨n, un, k, hun, hk⟩ | hs
      · rcases hkept n un hun (s, k) hk with ⟨un', hun', hk'⟩ | howed
        · exact .inl ⟨n, un', k, hun', hk'⟩
        · exact .inr howed
      · exact .inr hs
    exact (h.countsOn t').mono hkeeps

theorem setName (hbelow : ∀ e ∈ un.queue, e.1 < y.socks)
    (hkept : ∀ un', y.name n = some un' → ∀ e ∈ un'.queue, e ∈ un.queue ∨ Owed y e.1) :
    Answerable (y.setName n un) := by
  apply h.setNames
  · exact Sys.forall_name_setName h.queues hbelow
  · intro n' un' hun' e he
    rcases eq_or_ne n' n with rfl | hn
    · rw [update_self]
      exact (hkept un' hun' e he).imp_left fun he' => ⟨un, rfl, he'⟩
    · rw [update_of_ne hn]
      exact .inl ⟨un', hun', he⟩

end

theorem wakeName_owes (pc : Pc) : (pc.wakeName n).Owes s ↔ pc.Owes s := by
  cases pc <;> exact Iff.rfl

theorem wakeName_serves (pc : Pc) : (pc.wakeName n).Serves s ↔ pc.Serves s := by
  cases pc <;> exact Iff.rfl

theorem wakeName (h : Answerable y) : Answerable (y.wakeName n) where
  files := h.files
  queues := h.queues
  countsOn t' := by
    have hkeeps : Keeps y (y.wakeName n) := by
      refine ⟨Nat.le_refl _, fun s _ hs => ?_, fun s _ hs => ?_⟩
      · exact hs.imp_right fun ⟨t, ht⟩ => ⟨t, (wakeName_owes _).mpr ht⟩
      · exact hs.imp_right fun ⟨t, ht⟩ => ⟨t, (wakeName_serves _).mpr ht⟩
    have hcounts := (h.countsOn t').mono hkeeps
    show ((y.pc t').wakeName n).CountsOn (y.wakeName n)
    cases hpc : y.pc t' <;> rw [hpc] at hcounts <;> exact hcounts

theorem newSocket (h : Answerable y) : Answerable (y.newSocket f) where
  files := by
    apply Sys.forall_file_setFile
    · exact fun f' fp' hf' => Nat.lt_succ_of_lt (h.files f' fp' hf')
    · rintro fp' ⟨⟩
      exact Nat.lt_succ_self _
  queues n un hun e he := Nat.lt_succ_of_lt (h.queues n un hun e he)
  countsOn t' := by
    have hkeeps : Keeps y (y.newSocket f) := by
      refine ⟨Nat.le_succ _, fun _ _ => id, fun s hs hst => hst.imp_left fun hst => ?_⟩
      show (update y.sock y.socks UnixSocket.init s).state.Final
      rwa [update_of_ne (by omega)]
    exact (h.countsOn t').mono hkeeps

/-- A socket enters the queue of a name. -/
theorem enter (h : Answerable y) (hs : s < y.socks) (hun : y.name n = some un) :
    Answerable (y.enter s n un) := by
  have hname : Answerable (y.setName n { un with queue := un.queue ++ [(s, y.issued.length)] }) := by
    apply h.setName
    · exact forall_mem_append.mpr ⟨h.queues n un hun, forall_mem_singleton.mpr hs⟩
    · intro un' hun' e he
      cases hun.symm.trans hun'
      exact .inl (mem_append_left _ he)
  exact ⟨hname.files, hname.queues, hname.countsOn⟩

theorem inQueue_enter : InQueue (y.enter s n un) s :=
  ⟨n, _, y.issued.length, update_self .., mem_append_right _ (mem_singleton_self _)⟩

section

variable (h : Answerable y) (hq : ∀ n un, (y.sock s).unixName = some n → y.name n = some un → un.queue = [])
include h hq

/-- The name may be freed when its queue is empty. -/
theorem freeName : Answerable (freeName y s) := by
  unfold Unp.freeName
  split
  · exact h
  · rename_i n hn
    have hsock : Answerable (y.setSock s { y.sock s with unixName := none }) := h.setSock_of_eq rfl
    apply hsock.setNames
    · intro n' un hun
      rcases eq_or_ne n' n with rfl | hne
      · rw [update_self] at hun
        exact nomatch hun
      · rw [update_of_ne hne] at hun
        exact h.queues n' un hun
    · intro n' un hun e he
      rcases eq_or_ne n' n with rfl | hne
      · rw [hq n' un hn hun] at he
        exact absurd he not_mem_nil
      · rw [update_of_ne hne]
        exact .inl ⟨un, hun, he⟩

theorem closeLast : Answerable (closeLast y f s) := by
  have hread : Answerable (y.setSock s (closeStream (y.sock s) f true)) :=
    h.setSock_of_eq (closeStream_state _ _ _)
  have hname : (update y.sock s (closeStream (y.sock s) f true) s).unixName =
      (y.sock s).unixName := by
    rw [update_self, closeStream_unixName]
  have hfree := hread.freeName fun n un hn hun => hq n un (hname.symm.trans hn) hun
  exact (hfree.setSock_of_eq (closeStream_state _ _ _)).setFile nofun

end

/-- The state is set by the task that owes the answer. -/
theorem setFinal (h : Answerable y) {st : SockState} (hst : st.Final)
    (hs : s < y.socks) (ht : y.pc t = pc) (hpc : ∀ s', pc.Owes s' → s' = s) :
    Answerable ((y.setState s st).setPc t (.answered s k)) := by
  have hself : ((y.setState s st).sock s).state.Final := by
    show (update y.sock s _ s).state.Final
    rwa [update_self]
  have hstate : Answerable (y.setState s st) := h.setSock fun _ => .inl hst
  apply hstate.setPc
  · exact ⟨hs, .inl hself⟩
  · intro s' hs'
    exact (hpc s' (ht ▸ hs')).symm
  · intro s' hs'
    rw [hpc s' (ht ▸ hs'.owes)]
    exact .inr hself

theorem wakeSock_owes (pc : Pc) : (pc.wakeSock n).Owes s ↔ pc.Owes s := by
  cases pc <;> exact Iff.rfl

theorem wakeSock_serves (pc : Pc) : (pc.wakeSock n).Serves s ↔ pc.Serves s := by
  cases pc <;> exact Iff.rfl

/-- An answer that is known stays known. -/
theorem settled_wakeClient (ht : y.pc t = .answered s k) (h : Settled y s') :
    Settled ((y.wakeSock s).setPc t .returning) s' := by
  rcases h with hst | ⟨t', ht'⟩
  · exact .inl hst
  · have hne : t' ≠ t := by
      rintro rfl
      rw [ht] at ht'
      exact ht'
    refine .inr ⟨t', ?_⟩
    show (update (y.wakeSock s).pc t .returning t').Serves s'
    rw [update_of_ne hne]
    exact (wakeSock_serves _).mpr ht'

theorem pending_wakeClient (ht : y.pc t = .answered s k) (hs' : s' ≠ s) (h : Pending y s') :
    Pending ((y.wakeSock s).setPc t .returning) s' := by
  rcases h with hq | ⟨t', ht'⟩
  · exact .inl hq
  · have hne : t' ≠ t := by
      rintro rfl
      rw [ht] at ht'
      exact hs' ht'.symm
    refine .inr ⟨t', ?_⟩
    show (update (y.wakeSock s).pc t .returning t').Owes s'
    rw [update_of_ne hne]
    exact (wakeSock_owes _).mpr ht'

/-- The task that was answered is woken, and its answer is no longer owed. -/
theorem wakeClient (h : Answerable y) (ht : y.pc t = .answered s k) :
    Answerable ((y.wakeSock s).setPc t .returning) where
  files := h.files
  queues := h.queues
  countsOn := by
    set y' := (y.wakeSock s).setPc t .returning with hy'
    have hs : Settled y' s := settled_wakeClient ht (h.countsOn_at ht).2
    have hhope : ∀ s', Pending y s' ∨ (y.sock s').state.Final →
        Pending y' s' ∨ (y'.sock s').state.Final := by
      intro s' hs'
      rcases eq_or_ne s' s with rfl | hne
      · exact hs.pending
      · exact hs'.imp_left (pending_wakeClient ht hne)
    show ∀ t', (update (y.wakeSock s).pc t .returning t').CountsOn y'
    refine (forall_update_iff (y.wakeSock s).pc fun _ pc => pc.CountsOn y').mpr ⟨trivial, ?_⟩
    intro t' _
    show ((y.pc t').wakeSock s).CountsOn y'
    have hcounts := h.countsOn t'
    cases hpc : y.pc t' <;> rw [hpc] at hcounts
    case queued | checked => exact ⟨hcounts.1, hhope _ hcounts.2⟩
    case answered s' k' => exact ⟨hcounts.1, settled_wakeClient ht hcounts.2⟩
    case asleep s' k' woken =>
      refine ⟨hcounts.1, ?_⟩
      rcases eq_or_ne s' s with rfl | hne
      · refine hs.pending.imp_right fun hst => ⟨?_, hst⟩
        rw [beq_self_eq_true, Bool.or_true]
      · rcases hcounts.2 with hp | ⟨hw, hst⟩
        · exact .inl (pending_wakeClient ht hne hp)
        · exact .inr ⟨by rw [hw, Bool.true_or], hst⟩
    all_goals exact hcounts

end Answerable

/-! ## Runs -/

theorem wakeName_queued {n k : Nat} (ht : y.pc t = .queued s n k) : (y.wakeName n).pc t = .queued s n k := by
  show (y.pc t).wakeName n = _
  rw [ht]
  rfl

/-- One step of any task. -/
theorem Answerable.step {y' : Sys} {op : Op} (h : Answerable y) (hmeets : LeavesNobody y op)
    (hstep : Step y op y') : Answerable y' := by
  cases hstep with
  | socket => exact h.newSocket
  | @dup f fp hf => exact h.setFile (by rintro _ ⟨⟩; exact h.files f fp hf)
  | bind ht | bindFailed ht | listen ht | refuse ht | leave ht | ret ht | accept ht | lookEmpty ht
  | wouldBlock ht | acceptSleep ht | acceptWoken ht | acceptRet ht =>
    exact h.setPc_free ht (fun _ => id) trivial
  | bound ht | noName ht | retError ht =>
    exact h.setSock_free ht (fun _ => id) rfl trivial
  | @addName t s n backlog ht hn =>
    have hname : Answerable (y.setName n ⟨(y.sock s).path, [], if backlog = 0 then 1 else backlog⟩) := by
      apply h.setName
      · exact fun _ he => absurd he not_mem_nil
      · intro un hun
        rw [hn] at hun
        exact nomatch hun
    have hlist : Answerable (y.addName n (y.sock s).path backlog) :=
      ⟨hname.files, hname.queues, hname.countsOn⟩
    exact hlist.setSock_free ht (fun _ => id) rfl trivial
  | @connect t f fp path ht hf =>
    exact h.setSock_free ht (fun _ => id) rfl (h.files f fp hf)
  | noMemory ht =>
    exact h.setSock_free ht (fun _ => id) (initStreams_state _ _ _) trivial
  | @enqueue t s n path un memTo memFrom ht hn hun =>
    have hlt : s < y.socks := h.countsOn_at ht
    have hsock : Answerable (y.setSock s (initStreams (y.sock s) memTo memFrom)) :=
      h.setSock_of_eq (initStreams_state _ _ _)
    have henter := hsock.enter hlt hun
    exact henter.setPc_free ht (fun _ => id) ⟨hlt, .inl (.inl inQueue_enter)⟩
  | @noSleep t s n k intr ht =>
    have ht' := wakeName_queued ht
    exact h.wakeName.setPc_free ht' (fun _ => id) trivial
  | @sleep t s n k intr ht hst =>
    have ht' := wakeName_queued ht
    have hcounts := h.wakeName.countsOn_at ht'
    apply h.wakeName.setPc_free ht' fun _ => id
    cases intr with
    | true => exact hcounts
    | false => exact ⟨hcounts.1, .inl (hcounts.2.resolve_right hst)⟩
  | @woken t s k woken intr ht =>
    have hcounts := h.countsOn_at ht
    apply h.setPc_free ht fun _ => id
    exact ⟨hcounts.1, hcounts.2.imp_right fun hst => hst.2⟩
  | @again t s k intr intr' st ht =>
    have hcounts := h.countsOn_at ht
    apply h.setPc_free ht fun _ => id
    cases intr' with
    | true => exact hcounts
    | false => exact ⟨hcounts.1, .inl (hcounts.2.resolve_right (hmeets s k intr st ht))⟩
  | @take t n s k un queue ht hn hq =>
    have hlt : s < y.socks := h.queues n un hn (s, k) (by rw [hq]; exact mem_cons_self)
    have hpc : Answerable (y.setPc t (.taken s k)) := h.setPc_free ht (fun _ => id) hlt
    -- the task has the socket before the state and the queue are looked at
    have hself : (y.setPc t (.taken s k)).pc t = .taken s k := update_self ..
    have hserves : Served (y.setPc t (.taken s k)) s := ⟨t, by rw [hself, Pc.Serves]⟩
    have hstate : Answerable ((y.setPc t (.taken s k)).setState s .processing) :=
      hpc.setSock fun _ => .inr hserves
    show Answerable (((y.setPc t (.taken s k)).setState s .processing).setName n { un with queue })
    apply hstate.setName
    · exact fun e he => h.queues n un hn e (by rw [hq]; exact mem_cons_of_mem _ he)
    · intro un' hun' e he
      cases hn.symm.trans hun'
      rw [hq] at he
      rcases mem_cons.mp he with rfl | he
      · exact .inr hserves.owed
      · exact .inl he
  | @newFile t f s k ht =>
    have hcounts := h.countsOn_at ht
    have hfile : Answerable (y.setFile f (some ⟨s, 1⟩)) := h.setFile (by rintro _ ⟨⟩; exact hcounts)
    exact hfile.setPc_serving ht (fun _ => id) (fun _ => id) hcounts
  | @noFile t s k ht =>
    have hcounts := h.countsOn_at ht
    exact h.setFinal (.inr rfl) hcounts ht fun _ => Eq.symm
  | @storeServer t f s k ht =>
    have hcounts := h.countsOn_at ht
    have hsock : Answerable (y.setSock s { y.sock s with server := some f }) := h.setSock_of_eq rfl
    exact hsock.setPc_serving ht (fun _ => id) (fun _ => id) hcounts
  | @setAccepted t f s k ht =>
    have hcounts := h.countsOn_at ht
    have hset := h.setFinal (k := k) (.inl rfl) hcounts ht fun _ => Eq.symm
    exact ⟨hset.files, hset.queues, hset.countsOn⟩
  | wakeClient ht => exact h.wakeClient ht
  | shutdown => exact h.setSock_of_eq (shutdown_state _ _ _)
  | @close t f s count ht hf =>
    have hlt : s < y.socks := h.files f ⟨s, count + 2⟩ hf
    exact h.setFile (by rintro _ ⟨⟩; exact hlt)
  | @closeLast t f s ht hf => exact h.closeLast fun n un hn hun => hmeets s n un hf hn hun

theorem Answerable.of_history {tr : List (Sys × Op)} (h : History Step Sys.init tr y)
    (hmeets : ∀ x ∈ tr, LeavesNobody x.1 x.2) : Answerable y :=
  h.invariant (fun _ _ _ hy hm hs => hy.step hm hs) .init hmeets

/-- **Nobody is left asleep**: in every run whose steps all met the condition, a task that sleeps in
`unp_connect` and was not woken has its socket in the queue of a registered name, or a call of
`unp_accept` took it out and has yet to wake the task. -/
theorem pending_of_asleep {tr : List (Sys × Op)} {y : Sys} (h : History Step Sys.init tr y)
    (hmeets : ∀ x ∈ tr, LeavesNobody x.1 x.2) {t s k : Nat} (hpc : y.pc t = .asleep s k false) :
    InQueue y s ∨ Owed y s := by
  have hcounts := (Answerable.of_history h hmeets).countsOn_at hpc
  rcases hcounts.2 with hp | ⟨hw, _⟩
  · exact hp
  · exact nomatch hw

theorem pending_of_asleep_queued : InQueue askedFor 1 ∨ Owed askedFor 1 := by
  obtain ⟨tr, h, -, hops⟩ := history_askedFor
  refine pending_of_asleep h ?_ (t := 1) (k := 0) rfl
  intro x hx
  -- no step of this run is one that the condition is about
  have hop : x.2 ∈ tr.map Prod.snd := mem_map_of_mem hx
  rw [hops] at hop
  simp only [mem_cons, not_mem_nil, or_false] at hop
  rcases hop with hop | hop | hop | hop | hop | hop | hop | hop | hop <;> rw [hop] <;> trivial

/-- Task 0 closes the listening socket while task 1 sleeps in its queue: nobody has its socket then.
And: task 1 leaves its sleep for a signal while task 0 is about to accept; it finds the state not final
yet, and goes back to sleep after the state was set and the wake-up for it was sent. -/
theorem asleep_for_good :
    (∃ tr y, History Step Sys.init tr y ∧ y.pc 1 = .asleep 1 0 false ∧ ¬ InQueue y 1 ∧ ¬ Owed y 1) ∧
    ∃ tr y, History Step Sys.init tr y ∧ y.pc 1 = .asleep 1 0 false ∧ (y.sock 1).state = .accepted ∧
      ¬ InQueue y 1 ∧ ¬ Owed y 1 := by
  obtain ⟨tr, h, -, -⟩ := history_askedFor
  constructor
  · have hclose := h.snoc (@Step.closeLast _ 0 0 0 rfl rfl)
    refine ⟨_, _, hclose, rfl, ?_, ?_⟩
    · rintro ⟨n, un, k, hun, -⟩
      rcases n with _ | n <;> exact nomatch hun
    · rintro ⟨t, ht⟩
      rcases t with _ | _ | t <;> exact ht
  · have h₁ := h.snoc (@Step.accept _ 0 0 0 _ rfl rfl rfl)
    have h₂ := h₁.snoc (@Step.take _ 0 0 1 0 _ [] rfl rfl rfl)
    have h₃ := h₂.snoc (@Step.newFile _ 0 2 1 0 rfl rfl)
    have h₄ := h₃.snoc (@Step.woken _ 1 1 0 false true rfl)
    have h₅ := h₄.snoc (@Step.storeServer _ 0 2 1 0 rfl)
    have h₆ := h₅.snoc (@Step.setAccepted _ 0 2 1 0 rfl)
    have h₇ := h₆.snoc (@Step.wakeClient _ 0 1 0 rfl)
    have h₈ := h₇.snoc (@Step.acceptRet _ 0 rfl)
    have h₉ := h₈.snoc (@Step.again _ 1 1 0 true false .processing rfl (.inl rfl))
    refine ⟨_, _, h₉, rfl, rfl, ?_, ?_⟩
    · rintro ⟨n, un, k, hun, hk⟩
      rcases n with _ | n
      · cases hun
        exact absurd hk not_mem_nil
      · exact nomatch hun
    · rintro ⟨t, ht⟩
      rcases t with _ | _ | t <;> exact ht

end Ixemul.Unp
