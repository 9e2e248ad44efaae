/-
# Ixemul.Unp.Connect — what it means that `unp_connect` returns 0 (unp.c).

The state of a socket outlives the connection.  A socket that was connected once, and whose two streams are
gone because both ends closed them, may be connected again: its entry goes to the queue, but the state still
says that it was accepted, and `unp_connect` returns at once.  Two calls for one socket at the same time go
wrong in the same way.
-/
import Ixemul.Lib.Run
import Ixemul.Unp.Model

namespace Ixemul.Unp

open Lib.Run
open Function List

/-- When a socket enters a queue, it is one that waits and has no streams. -/
def EntersFresh (y : Sys) : Op → Prop
  | .enqueue t _ _ => ∀ s path, y.pc t = .connecting s path →
      (y.sock s).state = .waiting ∧ (y.sock s).toServer = none ∧ (y.sock s).fromServer = none
  | _ => True

theorem SockState.Final.ne_waiting {st : SockState} (h : st.Final) : st ≠ .waiting := by
  rcases h with rfl | rfl <;> exact nofun

/-! ## The invariant -/

/-- What a socket says about the entries made for it.  While it waits, an entry keeps the stream to the server
there: only the server may stop to read from it, and there is none yet. -/
structure Tells (issued accepted : List (Nat × Nat)) (s : Nat) (us : UnixSocket) : Prop where
  entered : ∀ k, (s, k) ∈ issued → us.state ≠ .waiting ∨ us.toServer ≠ none
  server : us.server ≠ none → us.state ≠ .waiting
  unread : us.state = .waiting → ∀ ss, us.toServer = some ss → ss.noReader = false
  answered : us.state = .accepted → ∀ k, (s, k) ∈ issued → ∃ f, (k, f) ∈ accepted

/-- What a task knows about its entry. -/
def Pc.Knows (y : Sys) : Pc → Prop
  | .connecting s _ => s < y.socks
  | .queued s _ k => (s, k) ∈ y.issued
  | .asleep s k _ => (s, k) ∈ y.issued
  | .checked s k _ st => (s, k) ∈ y.issued ∧ (st ≠ .waiting → (y.sock s).state ≠ .waiting) ∧
      (st = .accepted → ∃ f, (k, f) ∈ y.accepted)
  | .leaving s k st => (s, k) ∈ y.issued ∧ st.Final ∧ (y.sock s).state ≠ .waiting ∧
      (st = .accepted → ∃ f, (k, f) ∈ y.accepted)
  | .taken s k => (s, k) ∈ y.issued ∧ (y.sock s).state ≠ .waiting
  | .got _ s k => (s, k) ∈ y.issued ∧ (y.sock s).state ≠ .waiting
  | .stored _ s k => (s, k) ∈ y.issued ∧ (y.sock s).state ≠ .waiting
  | _ => True

structure OneEntry (y : Sys) : Prop where
  one : ∀ s k k', (s, k) ∈ y.issued → (s, k') ∈ y.issued → k = k'
  below : ∀ e ∈ y.issued, e.1 < y.socks
  files : ∀ f fp, y.file f = some fp → fp.sock < y.socks
  queues : ∀ n un, y.name n = some un → ∀ e ∈ un.queue, e ∈ y.issued
  tells : ∀ s, Tells y.issued y.accepted s (y.sock s)
  knows : ∀ t, (y.pc t).Knows y

theorem OneEntry.init : OneEntry Sys.init where
  one _ _ _ h := nomatch h
  below _ h := nomatch h
  files _ _ h := nomatch h
  queues _ _ h := nomatch h
  tells _ :=
    { entered := fun _ h => nomatch h
      server := fun h => absurd rfl h
      unread := fun _ _ h => nomatch h
      answered := nofun }
  knows _ := trivial

variable {y : Sys}

theorem OneEntry.knows_at (h : OneEntry y) {t : Nat} {pc : Pc} (ht : y.pc t = pc) : pc.Knows y := by
  rw [← ht]
  exact h.knows t

/-! ### Sockets -/

section Sockets

variable {issued accepted : List (Nat × Nat)} {s f : Nat} {us us' : UnixSocket}

theorem Tells.of_eq (h : Tells issued accepted s us) (hto : us'.toServer = us.toServer)
    (hserver : us'.server = us.server) (hstate : us'.state = us.state) : Tells issued accepted s us' := by
  constructor
  · rw [hstate, hto]
    exact h.entered
  · rw [hserver, hstate]
    exact h.server
  · rw [hstate, hto]
    exact h.unread
  · rw [hstate]
    exact h.answered

theorem Tells.of_ne_waiting (hst : us.state ≠ .waiting)
    (hacc : us.state = .accepted → ∀ k, (s, k) ∈ issued → ∃ f, (k, f) ∈ accepted) :
    Tells issued accepted s us where
  entered _ _ := .inl hst
  server _ := hst
  unread h := absurd h hst
  answered := hacc

theorem Tells.of_streams (h : Tells issued accepted s us) (hst : us.state ≠ .waiting)
    (hstate : us'.state = us.state) : Tells issued accepted s us' :=
  .of_ne_waiting (by rwa [hstate]) (by rw [hstate]; exact h.answered)

/-- Before there is a server every file is one of the client's, and closes the reader of the other
stream only. -/
theorem closeStream_toServer_read (h : us.server = none) :
    (closeStream us f true).toServer = us.toServer := by
  simp [closeStream, isToServer, h]

theorem closeStream_toServer_write (h : us.server = none) :
    (closeStream us f false).toServer = closeEnd false us.toServer := by
  simp [closeStream, isToServer, h]

/-- Closing an end leaves what a socket tells of its connection. -/
theorem Tells.closeStream (h : Tells issued accepted s us) (readStream : Bool) :
    Tells issued accepted s (closeStream us f readStream) := by
  rcases Decidable.em (us.state = .waiting) with hst | hst
  · have hserver : us.server = none := by
      rcases hs : us.server with _ | f'
      · rfl
      · exact absurd hst (h.server (by rw [hs]; exact nofun))
    cases readStream with
    | true =>
      exact h.of_eq (closeStream_toServer_read hserver) (closeStream_server us f true)
        (closeStream_state us f true)
    | false =>
      rcases hto : us.toServer with _ | ss
      · have hto' : (Unp.closeStream us f false).toServer = us.toServer := by
          rw [closeStream_toServer_write hserver, hto]
          rfl
        exact h.of_eq hto' (closeStream_server us f false) (closeStream_state us f false)
      · have hread : ss.noReader = false := h.unread hst ss hto
        have hto' : (Unp.closeStream us f false).toServer = some { ss with noWriter := true } := by
          rw [closeStream_toServer_write hserver, hto]
          simp [closeEnd, hread]
        constructor
        · intro k _
          exact .inr (by rw [hto']; exact nofun)
        · rw [closeStream_server, closeStream_state]
          exact h.server
        · intro _ ss' hss'
          rw [hto', Option.some.injEq] at hss'
          rw [← hss']
          exact hread
        · rw [closeStream_state]
          exact h.answered
  · exact h.of_streams hst (closeStream_state us f readStream)

theorem Tells.shutdown (h : Tells issued accepted s us) (how : Nat) :
    Tells issued accepted s (shutdown us f how) := by
  unfold Unp.shutdown
  split
  · exact h.closeStream true
  · exact h.closeStream false
  · exact (h.closeStream true).closeStream false
  · exact h

end Sockets

/-! ### Parts of a step -/

namespace OneEntry

variable {y : Sys} {t s n f : Nat}

theorem setPc (h : OneEntry y) {pc : Pc} (hpc : pc.Knows y) : OneEntry (y.setPc t pc) :=
  { h with knows := (forall_update_iff y.pc fun _ pc => pc.Knows y).mpr ⟨hpc, fun t' _ => h.knows t'⟩ }

theorem setFile (h : OneEntry y) {fp : Option File} (hfp : ∀ fp', fp = some fp' → fp'.sock < y.socks) :
    OneEntry (y.setFile f fp) :=
  { h with files := Sys.forall_file_setFile h.files hfp }

/-- What a task knows it knows also when more was issued and accepted. -/
theorem knows_of_le (h : OneEntry y) (y' : Sys) (hsocks : y.socks ≤ y'.socks)
    (hissued : y.issued ⊆ y'.issued) (haccepted : y.accepted ⊆ y'.accepted)
    (hsock : ∀ s k, (s, k) ∈ y.issued → (y.sock s).state ≠ .waiting → (y'.sock s).state ≠ .waiting) :
    (y.pc t).Knows y' := by
  have hmem : ∀ k, (∃ f, (k, f) ∈ y.accepted) → ∃ f, (k, f) ∈ y'.accepted := by
    rintro k ⟨f, hf⟩
    exact ⟨f, haccepted hf⟩
  have hknows := h.knows t
  cases hpc : y.pc t <;> rw [hpc] at hknows <;> simp only [Pc.Knows] at hknows ⊢
  case connecting => omega
  case queued | asleep => exact hissued hknows
  case checked =>
    obtain ⟨hk, hne, hacc⟩ := hknows
    exact ⟨hissued hk, fun hst => hsock _ _ hk (hne hst), fun hst => hmem _ (hacc hst)⟩
  case leaving =>
    obtain ⟨hk, hfinal, hne, hacc⟩ := hknows
    exact ⟨hissued hk, hfinal, hsock _ _ hk hne, fun hst => hmem _ (hacc hst)⟩
  case taken | got | stored => exact ⟨hissued hknows.1, hsock _ _ hknows.1 hknows.2⟩

theorem state_update {us : UnixSocket} (hst : (y.sock s).state ≠ .waiting → us.state ≠ .waiting) :
    ∀ s', (y.sock s').state ≠ .waiting → (update y.sock s us s').state ≠ .waiting :=
  (forall_update_iff y.sock fun s' us => (y.sock s').state ≠ .waiting → us.state ≠ .waiting).mpr
    ⟨hst, fun _ _ => id⟩

section

variable (h : OneEntry y) {us : UnixSocket} {un : UnixName}
include h

theorem setSock (hus : Tells y.issued y.accepted s us)
    (hst : (y.sock s).state ≠ .waiting → us.state ≠ .waiting) : OneEntry (y.setSock s us) :=
  { h with
    tells := (forall_update_iff y.sock (Tells y.issued y.accepted)).mpr ⟨hus, fun s' _ => h.tells s'⟩
    knows := fun t' => by
      apply h.knows_of_le (y.setSock s us) (Nat.le_refl _) (List.Subset.refl _) (List.Subset.refl _)
      exact fun s' _ _ => state_update hst s' }

theorem setSock_of_eq (hto : us.toServer = (y.sock s).toServer)
    (hserver : us.server = (y.sock s).server) (hstate : us.state = (y.sock s).state) :
    OneEntry (y.setSock s us) :=
  h.setSock ((h.tells s).of_eq hto hserver hstate) (by rw [hstate]; exact id)

theorem setName (hun : ∀ e ∈ un.queue, e ∈ y.issued) : OneEntry (y.setName n un) :=
  { h with queues := Sys.forall_name_setName h.queues hun }

theorem wakeName : OneEntry (y.wakeName n) :=
  have hwake (pc : Pc) (hpc : pc.Knows y) : (pc.wakeName n).Knows y := by cases pc <;> exact hpc
  { h with knows := fun t' => hwake _ (h.knows t') }

theorem wakeSock : OneEntry (y.wakeSock s) :=
  have hwake (pc : Pc) (hpc : pc.Knows y) : (pc.wakeSock s).Knows y := by cases pc <;> exact hpc
  { h with knows := fun t' => hwake _ (h.knows t') }

theorem setNames {names : List Nat} {name : Nat → Option UnixName}
    (hname : ∀ n un, name n = some un → y.name n = some un) : OneEntry { y with names, name } :=
  { h with queues := fun n un hun => h.queues n un (hname n un hun) }

theorem freeName : OneEntry (freeName y s) := by
  unfold Unp.freeName
  split
  · exact h
  · rename_i n _
    have hsock : OneEntry (y.setSock s { y.sock s with unixName := none }) :=
      h.setSock_of_eq rfl rfl rfl
    apply hsock.setNames
    intro n' un hun
    rcases eq_or_ne n' n with rfl | hn
    · rw [update_self] at hun
      exact nomatch hun
    · rwa [update_of_ne hn] at hun

theorem closeStream (readStream : Bool) : OneEntry (y.setSock s (closeStream (y.sock s) f readStream)) :=
  h.setSock ((h.tells s).closeStream readStream) (by rw [closeStream_state]; exact id)

theorem closeLast : OneEntry (closeLast y f s) :=
  ((h.closeStream true).freeName.closeStream false).setFile nofun

theorem newSocket : OneEntry (y.newSocket f) where
  one := h.one
  below e he := Nat.lt_succ_of_lt (h.below e he)
  files := by
    apply Sys.forall_file_setFile
    · exact fun f' fp' hf' => Nat.lt_succ_of_lt (h.files f' fp' hf')
    · rintro fp' ⟨⟩
      exact Nat.lt_succ_self _
  queues := h.queues
  tells := by
    show ∀ s', Tells y.issued y.accepted s' (update y.sock y.socks UnixSocket.init s')
    refine (forall_update_iff y.sock (Tells y.issued y.accepted)).mpr ⟨?_, fun s' _ => h.tells s'⟩
    have hnone : ∀ k, (y.socks, k) ∉ y.issued := fun k hk => Nat.lt_irrefl _ (h.below _ hk)
    exact ⟨fun k hk => absurd hk (hnone k), fun hne => absurd rfl hne, fun _ _ hss => (nomatch hss),
      fun hst => (nomatch hst)⟩
  knows t' := by
    apply h.knows_of_le (y.newSocket f) (Nat.le_succ _) (List.Subset.refl _) (List.Subset.refl _)
    intro s' k hk hs'
    show (update y.sock y.socks UnixSocket.init s').state ≠ .waiting
    have hlt : s' < y.socks := h.below _ hk
    rwa [update_of_ne (by omega)]

/-- A new socket has no entry anywhere. -/
theorem not_issued (hst : (y.sock s).state = .waiting)
    (hto : (y.sock s).toServer = none) (k : Nat) : (s, k) ∉ y.issued := by
  intro hk
  rcases (h.tells s).entered k hk with hne | hne
  · exact hne hst
  · exact hne hto

theorem setStreams (hst : (y.sock s).state = .waiting)
    (hto : (y.sock s).toServer = none) (hto' : us.toServer = some Stream.init)
    (hserver : us.server = (y.sock s).server) (hstate : us.state = (y.sock s).state) :
    OneEntry (y.setSock s us) := by
  apply h.setSock
  · refine ⟨fun k hk => absurd hk (h.not_issued hst hto k), ?_, ?_, ?_⟩
    · rw [hserver, hstate]
      exact (h.tells s).server
    · intro _ ss hss
      rw [hto', Option.some.injEq] at hss
      rw [← hss]
      rfl
    · rw [hstate]
      exact (h.tells s).answered
  · rw [hstate]
    exact id

/-- A fresh socket gets its one entry. -/
theorem enter (hs : s < y.socks) (hst : (y.sock s).state = .waiting)
    (hto : (y.sock s).toServer ≠ none) (hnone : ∀ k, (s, k) ∉ y.issued) (hun : y.name n = some un) :
    OneEntry (y.enter s n un) where
  one s' k₁ k₂ h₁ h₂ := by
    rcases mem_append.mp h₁ with h₁ | h₁ <;> rcases mem_append.mp h₂ with h₂ | h₂
    · exact h.one _ _ _ h₁ h₂
    · cases mem_singleton.mp h₂
      exact absurd h₁ (hnone _)
    · cases mem_singleton.mp h₁
      exact absurd h₂ (hnone _)
    · cases mem_singleton.mp h₁
      cases mem_singleton.mp h₂
      rfl
  below := forall_mem_append.mpr ⟨h.below, forall_mem_singleton.mpr hs⟩
  files := h.files
  queues := by
    apply Sys.forall_name_setName
    · exact fun n' un' hun' e he => mem_append_left _ (h.queues n' un' hun' e he)
    · exact forall_mem_append.mpr
        ⟨fun e he => mem_append_left _ (h.queues n un hun e he), fun e he => mem_append_right _ he⟩
  tells s' := by
    show Tells (y.issued ++ [_]) y.accepted s' (y.sock s')
    have htells := h.tells s'
    refine ⟨fun k hk => ?_, htells.server, htells.unread, fun hacc k hk => ?_⟩
    · rcases mem_append.mp hk with hk | hk
      · exact htells.entered k hk
      · cases mem_singleton.mp hk
        exact .inr hto
    · rcases mem_append.mp hk with hk | hk
      · exact htells.answered hacc k hk
      · cases mem_singleton.mp hk
        exact nomatch hst.symm.trans hacc
  knows _ := h.knows_of_le (y.enter s n un) (Nat.le_refl _) (subset_append_left _ _)
    (List.Subset.refl _) fun _ _ _ => id

/-- An entry is accepted. -/
theorem setAccepted {k : Nat} (hk : (s, k) ∈ y.issued) : OneEntry (y.setAccepted s k f) :=
  { h with
    tells := by
      refine (forall_update_iff y.sock (Tells y.issued ((k, f) :: y.accepted))).mpr ⟨?_, fun s' _ => ?_⟩
      · apply Tells.of_ne_waiting (show SockState.accepted ≠ .waiting from nofun)
        intro _ k' hk'
        -- the socket has only this entry
        rw [h.one s k' k hk' hk]
        exact ⟨f, mem_cons_self⟩
      · refine { h.tells s' with answered := fun hacc k' hk' => ?_ }
        obtain ⟨f', hf'⟩ := (h.tells s').answered hacc k' hk'
        exact ⟨f', mem_cons_of_mem _ hf'⟩
    knows := fun t' => by
      apply h.knows_of_le (y.setAccepted s k f) (Nat.le_refl _) (List.Subset.refl _) (subset_cons_self _ _)
      exact fun s' _ _ => state_update (fun _ => show SockState.accepted ≠ .waiting from nofun) s' }

end

end OneEntry

/-! ## Runs -/

theorem initStreams_toServer {us : UnixSocket} (hfrom : us.fromServer = none) (memTo memFrom : Bool) :
    (initStreams us memTo memFrom).toServer =
      if (initStreams us memTo memFrom).fromServer = none then none else some Stream.init := by
  cases memTo <;> cases memFrom <;> simp [initStreams, hfrom]

/-- One step of any task. -/
theorem OneEntry.step {y' : Sys} {op : Op} (h : OneEntry y) (hmeets : EntersFresh y op)
    (hstep : Step y op y') : OneEntry y' := by
  cases hstep with
  | socket => exact h.newSocket
  | @dup f fp hf => exact h.setFile (by rintro _ ⟨⟩; exact h.files f fp hf)
  | bind | bindFailed | listen | refuse | ret | accept | lookEmpty | wouldBlock | acceptSleep | acceptWoken
  | acceptRet =>
    exact h.setPc trivial
  | bound | noName =>
    refine OneEntry.setPc ?_ trivial
    apply h.setSock_of_eq <;> rfl
  | @addName t s n backlog =>
    have hname : OneEntry (y.addName n (y.sock s).path backlog) :=
      OneEntry.setNames (h.setName (fun _ he => absurd he not_mem_nil)) fun _ _ => id
    refine OneEntry.setPc ?_ trivial
    apply hname.setSock_of_eq <;> rfl
  | @connect t f fp path ht hf =>
    refine OneEntry.setPc ?_ (h.files f fp hf)
    apply h.setSock_of_eq <;> rfl
  | @noMemory t s n path un memTo memFrom ht hn hun hfull hmem =>
    obtain ⟨_, hto, hfrom⟩ := hmeets s path ht
    have hto' : (initStreams (y.sock s) memTo memFrom).toServer = (y.sock s).toServer := by
      rw [initStreams_toServer hfrom, if_pos hmem, hto]
    exact OneEntry.setPc (h.setSock_of_eq hto' (initStreams_server _ _ _) (initStreams_state _ _ _)) trivial
  | @enqueue t s n path un memTo memFrom ht hn hun hfull hmem =>
    obtain ⟨hst, hto, hfrom⟩ := hmeets s path ht
    have hlt : s < y.socks := h.knows_at ht
    have hto' : (initStreams (y.sock s) memTo memFrom).toServer = some Stream.init := by
      rw [initStreams_toServer hfrom, if_neg hmem]
    have hself : (y.setSock s (initStreams (y.sock s) memTo memFrom)).sock s =
        initStreams (y.sock s) memTo memFrom := update_self ..
    have hstreams : OneEntry (y.setSock s (initStreams (y.sock s) memTo memFrom)) :=
      h.setStreams hst hto hto' (initStreams_server _ _ _) (initStreams_state _ _ _)
    have hentered := hstreams.enter hlt (by rw [hself, initStreams_state, hst])
      (by rw [hself, hto']; exact nofun) (h.not_issued hst hto) hun
    exact hentered.setPc (mem_append_right _ (mem_singleton_self _))
  | @noSleep t s n k intr ht hst =>
    have hknows := h.knows_at ht
    exact h.wakeName.setPc ⟨hknows, hst, hst.ne_waiting, fun hacc => (h.tells s).answered hacc k hknows⟩
  | @sleep t s n k intr ht =>
    have hknows := h.knows_at ht
    apply h.wakeName.setPc
    cases intr with
    | true => exact ⟨hknows, id, fun hacc => (h.tells s).answered hacc k hknows⟩
    | false => exact hknows
  | @woken t s k woken intr ht =>
    have hknows := h.knows_at ht
    exact h.setPc ⟨hknows, id, fun hacc => (h.tells s).answered hacc k hknows⟩
  | @again t s k intr intr' st ht =>
    have hknows := h.knows_at ht
    apply h.setPc
    cases intr' with
    | true => exact ⟨hknows.1, id, fun hacc => (h.tells s).answered hacc k hknows.1⟩
    | false => exact hknows.1
  | @leave t s k st ht hst =>
    have hknows := h.knows_at ht
    obtain ⟨hk, hne, hacc⟩ := hknows
    exact h.setPc ⟨hk, hst, hne hst.ne_waiting, hacc⟩
  | @retError t s k ht =>
    have hknows := h.knows_at ht
    have hsock : OneEntry (y.setSock s { y.sock s with toServer := none, fromServer := none }) :=
      h.setSock ((h.tells s).of_streams hknows.2.2.1 rfl) id
    exact hsock.setPc trivial
  | @take t n s k un queue ht hn hq =>
    have hk : (s, k) ∈ y.issued := h.queues n un hn _ (by rw [hq]; exact mem_cons_self)
    have hname : OneEntry (y.setName n { un with queue }) :=
      h.setName fun e he => h.queues n un hn e (by rw [hq]; exact mem_cons_of_mem _ he)
    have hsock : OneEntry ((y.setName n { un with queue }).setState s .processing) :=
      hname.setSock (Tells.of_ne_waiting nofun nofun) fun _ => nofun
    apply hsock.setPc
    refine ⟨hk, ?_⟩
    show (update y.sock s _ s).state ≠ .waiting
    rw [update_self]
    exact nofun
  | @newFile t f s k ht =>
    have hknows := h.knows_at ht
    have hfile : OneEntry (y.setFile f (some ⟨s, 1⟩)) :=
      h.setFile (by rintro _ ⟨⟩; exact h.below _ hknows.1)
    exact hfile.setPc hknows
  | @noFile t s =>
    have hsock : OneEntry (y.setState s .error) :=
      h.setSock (Tells.of_ne_waiting nofun nofun) fun _ => nofun
    exact hsock.setPc trivial
  | @storeServer t f s k ht =>
    have hknows := h.knows_at ht
    have hsock : OneEntry (y.setSock s { y.sock s with server := some f }) :=
      h.setSock ((h.tells s).of_streams hknows.2 rfl) id
    apply hsock.setPc
    refine ⟨hknows.1, ?_⟩
    show (update y.sock s _ s).state ≠ .waiting
    rw [update_self]
    exact hknows.2
  | @setAccepted t f s k ht =>
    have hknows := h.knows_at ht
    exact (h.setAccepted hknows.1).setPc trivial
  | wakeClient => exact h.wakeSock.setPc trivial
  | shutdown => exact h.setSock ((h.tells _).shutdown _) (by rw [shutdown_state]; exact id)
  | @close t f s count ht hf =>
    have hlt : s < y.socks := h.files f ⟨s, count + 2⟩ hf
    exact h.setFile (by rintro _ ⟨⟩; exact hlt)
  | closeLast => exact h.closeLast

theorem OneEntry.of_history {tr : List (Sys × Op)} (h : History Step Sys.init tr y)
    (hmeets : ∀ x ∈ tr, EntersFresh x.1 x.2) : OneEntry y :=
  h.invariant (fun _ _ _ hy hm hs => hy.step hm hs) .init hmeets

/-- **`unp_connect` returns 0 only when it was accepted**: in every run in which sockets enter queues
only while they wait and have no streams, a call that is out of its loop with a state that is not
UNS_ERROR, and so is about to return 0, has made an entry that `unp_accept` took out and made a file
for. -/
theorem accepted_of_connected {tr : List (Sys × Op)} {y : Sys} (h : History Step Sys.init tr y)
    (hmeets : ∀ x ∈ tr, EntersFresh x.1 x.2) {t s k : Nat} {st : SockState}
    (hpc : y.pc t = .leaving s k st) (hst : st ≠ .error) :
    (s, k) ∈ y.issued ∧ ∃ f, (k, f) ∈ y.accepted := by
  have hknows := (OneEntry.of_history h hmeets).knows_at hpc
  obtain ⟨hk, hfinal, _, hacc⟩ := hknows
  refine ⟨hk, hacc ?_⟩
  rcases hfinal with hst' | hst'
  · exact hst'
  · exact absurd hst' hst

/-- Task 0 listens at `p`, and task 1 has a new socket. -/
def atListener : Sys :=
  let y := (Sys.init.newSocket 0).setPc 0 (.binding 0 ['p'])
  let y := (y.setSock 0 { y.sock 0 with path := ['p'] }).setPc 0 .idle
  let y := y.setPc 0 (.listening 0 1)
  let y := ((y.addName 0 (y.sock 0).path 1).setSock 0 { y.sock 0 with unixName := some 0 }).setPc 0 .idle
  y.newSocket 1

theorem history_atListener : ∃ tr, History Step Sys.init tr atListener ∧ (∀ x ∈ tr, EntersFresh x.1 x.2) ∧
    tr.map Prod.snd = [.socket 0 0, .bind 0 0 ['p'], .bound 0, .listen 0 0 1, .addName 0 0, .socket 1 1] := by
  have h₁ := (History.nil Sys.init).snoc (@Step.socket _ 0 0 rfl rfl)
  have h₂ := h₁.snoc (@Step.bind _ 0 0 _ ['p'] rfl rfl rfl rfl)
  have h₃ := h₂.snoc (@Step.bound _ 0 0 ['p'] rfl)
  have h₄ := h₃.snoc (@Step.listen _ 0 0 1 _ rfl rfl (by decide) rfl rfl rfl)
  have h₅ := h₄.snoc (@Step.addName _ 0 0 0 1 rfl rfl)
  have h₆ := h₅.snoc (@Step.socket _ 1 1 rfl rfl)
  exact ⟨_, h₆, by simp [EntersFresh], rfl⟩

/-- Task 0 listens with socket 0; task 1 has entered socket 1 in its queue, with room for one, and sleeps. -/
def askedFor : Sys :=
  let y := atListener
  let y := (y.setSock 1 { y.sock 1 with path := ['p'] }).setPc 1 (.connecting 1 ['p'])
  let y := ((y.setSock 1 (initStreams (y.sock 1) true true)).enter 1 0 ⟨['p'], [], 1⟩).setPc 1 (.queued 1 0 0)
  (y.wakeName 0).setPc 1 (.asleep 1 0 false)

theorem history_askedFor : ∃ tr, History Step Sys.init tr askedFor ∧
    (∀ x ∈ tr, EntersFresh x.1 x.2) ∧
    tr.map Prod.snd = [.socket 0 0, .bind 0 0 ['p'], .bound 0, .listen 0 0 1, .addName 0 0, .socket 1 1,
      .connect 1 1 ['p'], .enqueue 1 true true, .wakeListener 1 false] := by
  obtain ⟨tr, h, hmeets, hops⟩ := history_atListener
  have h₁ := h.snoc (@Step.connect _ 1 1 _ ['p'] rfl rfl rfl rfl rfl)
  have h₂ := h₁.snoc (@Step.enqueue _ 1 1 0 ['p'] _ true true rfl rfl rfl (by decide) (by decide))
  have h₃ := h₂.snoc (@Step.sleep _ 1 1 0 0 false rfl (by decide))
  refine ⟨_, h₃, ?_, by simp [hops]⟩
  simp only [forall_mem_append, forall_mem_singleton, EntersFresh, and_true]
  refine ⟨hmeets, ?_⟩
  rintro s path ⟨⟩
  exact ⟨rfl, rfl, rfl⟩

/-- Task 0 has accepted it with file 2, and task 1 is out of its loop. -/
def connected : Sys :=
  let y := askedFor.setPc 0 (.accepting 0)
  let y := ((y.setName 0 ⟨['p'], [], 1⟩).setState 1 .processing).setPc 0 (.taken 1 0)
  let y := (y.setFile 2 (some ⟨1, 1⟩)).setPc 0 (.got 2 1 0)
  let y := (y.setSock 1 { y.sock 1 with server := some 2 }).setPc 0 (.stored 2 1 0)
  let y := (y.setAccepted 1 0 2).setPc 0 (.answered 1 0)
  let y := (y.wakeSock 1).setPc 0 .returning
  let y := y.setPc 0 .idle
  let y := y.setPc 1 (.checked 1 0 false .accepted)
  y.setPc 1 (.leaving 1 0 .accepted)

theorem history_connected : ∃ tr, History Step Sys.init tr connected ∧ ∀ x ∈ tr, EntersFresh x.1 x.2 := by
  obtain ⟨tr, h, hmeets, -⟩ := history_askedFor
  have h₁ := h.snoc (@Step.accept _ 0 0 0 _ rfl rfl rfl)
  have h₂ := h₁.snoc (@Step.take _ 0 0 1 0 _ [] rfl rfl rfl)
  have h₃ := h₂.snoc (@Step.newFile _ 0 2 1 0 rfl rfl)
  have h₄ := h₃.snoc (@Step.storeServer _ 0 2 1 0 rfl)
  have h₅ := h₄.snoc (@Step.setAccepted _ 0 2 1 0 rfl)
  have h₆ := h₅.snoc (@Step.wakeClient _ 0 1 0 rfl)
  have h₇ := h₆.snoc (@Step.acceptRet _ 0 rfl)
  have h₈ := h₇.snoc (@Step.woken _ 1 1 0 true false rfl)
  have h₉ := h₈.snoc (@Step.leave _ 1 1 0 .accepted rfl (by decide))
  refine ⟨_, h₉, ?_⟩
  simp only [forall_mem_append, forall_mem_singleton, EntersFresh, and_true]
  exact hmeets

theorem accepted_of_connected_once : (1, 0) ∈ connected.issued ∧ ∃ f, (0, f) ∈ connected.accepted := by
  obtain ⟨tr, h, hmeets⟩ := history_connected
  exact accepted_of_connected h hmeets (t := 1) (s := 1) (k := 0) rfl (by decide)

/-- Both ends close their streams, and the client connects again: it is about to return 0 although
nobody has looked at its second entry, which is still in the queue. -/
theorem connected_without_accept : ∃ tr y un, History Step Sys.init tr y ∧
    y.pc 1 = .leaving 1 1 .accepted ∧ y.accepted = [(0, 2)] ∧
    y.name 0 = some un ∧ un.queue = [(1, 1)] := by
  obtain ⟨tr, h, -⟩ := history_connected
  have h₁ := h.snoc (@Step.ret _ 1 1 0 .accepted rfl (by decide))
  have h₂ := h₁.snoc (@Step.shutdown _ 1 1 2 _ rfl rfl)
  have h₃ := h₂.snoc (@Step.closeLast _ 0 2 1 rfl rfl)
  have h₄ := h₃.snoc (@Step.connect _ 1 1 _ ['p'] rfl rfl rfl rfl rfl)
  have h₅ := h₄.snoc (@Step.enqueue _ 1 1 0 ['p'] _ true true rfl rfl rfl (by decide) (by decide))
  have h₆ := h₅.snoc (@Step.noSleep _ 1 1 0 1 false rfl (by decide))
  exact ⟨_, _, _, h₆, rfl, rfl, rfl, rfl⟩

end Ixemul.Unp
