/-
# Ixemul.Descrip.Fail — what a failed call leaves behind.

`open`, `socket`, `dup`, `dup2` and `fcntl` either change nothing before they fail or take back what they
did.  `pipe` needs two entries and two descriptors; if there is only one of either, it gives the entry of the
first end back but not the descriptor, which goes on pointing to an entry that is free.
-/
import Ixemul.Descrip.Effect

namespace Ixemul.Descrip

open Function List

variable {k k' : Ix} {u u' : User} {fp : FileIx} {fd : Fd}

/-! ## The calls, from their entry on -/

/-- `pipe`, with whether `init_stream` got its memory. -/
def pipeCall (k : Ix) (u : User) (stream : Bool) : Ix × User × Except Errno (Fd × Fd) :=
  if stream then pipe k u else (k, u, .error .emfile)

/-- `socket` for AF_UNIX, with whether type and protocol are supported (the error is EPROTONOSUPPORT) and
whether there was memory for the `unix_socket` (ENOMEM). -/
def socketCall (k : Ix) (u : User) (supported memory : Bool) : Ix × User × Except Errno Fd :=
  if !supported then (k, u, .error (.other 43))
  else if !memory then (k, u, .error (.other 12))
  else unpSocket k u

/-- `dup` of an INET socket: a new entry for the socket that the network library makes, if it does.
`_set_socket_params` then gives the entry the functions of INET sockets, which are not among those
modelled. -/
def dupSocket (k : Ix) (u : User) (i : Nat) (so : Option Errno) : Ix × User × Except Errno Fd :=
  match getFile u i with
  | .error e => (k, u, .error e)
  | .ok _ =>
    match falloc k u with
    | .error e => (k, u, .error e)
    | .ok (k, u, fp2, fd2) =>
      match so with
      | none => (k, u, .ok fd2)
      | some e => (k.setFile fp2 { k.fileTab fp2 with count := 0 }, u.setOfile fd2 none, .error e)

/-- The calls that make a descriptor, each with what it is told from outside. -/
inductive Opening where
  | openFile (res : Opened)
  | pipe (stream : Bool)
  | socket (supported memory : Bool)
  | dup (i : Nat)
  | dupSocket (i : Nat) (so : Option Errno)
  | dup2 (i j : Nat)
  | dupfd (fdes : Nat) (arg : Int)

/-- The tables afterwards, and whether the call returned −1. -/
def Opening.run (k : Ix) (u : User) : Opening → Ix × User × Bool
  | .openFile res => let r := Descrip.openFile k u res; (r.1, r.2.1, !r.2.2.isOk)
  | .pipe stream => let r := pipeCall k u stream; (r.1, r.2.1, !r.2.2.isOk)
  | .socket supported memory => let r := socketCall k u supported memory; (r.1, r.2.1, !r.2.2.isOk)
  | .dup i => let r := Descrip.dup k u i; (r.1, r.2.1, !r.2.2.isOk)
  | .dupSocket i so => let r := Descrip.dupSocket k u i so; (r.1, r.2.1, !r.2.2.isOk)
  | .dup2 i j => let r := Descrip.dup2 k u i j; (r.1, r.2.1, !r.2.2.isOk)
  | .dupfd fdes arg => let r := fcntlDupfd k u fdes arg; (r.1, r.2.1, !r.2.2.isOk)

/-- The descriptors of the caller and the counts of all files are the same. -/
structure Unchanged (k : Ix) (u : User) (k' : Ix) (u' : User) : Prop where
  ofile : u'.ofile = u.ofile
  count : ∀ f, (k'.fileTab f).count = (k.fileTab f).count

theorem Unchanged.refl (k : Ix) (u : User) : Unchanged k u k u := ⟨rfl, fun _ => rfl⟩

/-! ## What `falloc` does, and when it fails -/

/-- The descriptor and the entry were free, and are now taken. -/
structure Taken (k : Ix) (u : User) (k' : Ix) (u' : User) (fp : FileIx) (fd : Fd) : Prop where
  free_fd : u.ofile fd = none
  free_fp : (k.fileTab fp).count = 0
  ofile : u'.ofile = update u.ofile fd (some fp)
  count : ∀ f, (k'.fileTab f).count = if f = fp then 1 else (k.fileTab f).count

theorem falloc_taken (h : falloc k u = .ok (k', u', fp, fd)) : Taken k u k' u' fp fd := by
  obtain ⟨hfd, hfp, rfl, rfl⟩ := falloc_ok h
  refine ⟨ufalloc_free hfd, hfp, rfl, ?_⟩
  intro f
  by_cases hf : f = fp
  · simp [Ix.setFile, hf]
  · simp [Ix.setFile, hf]

theorem ufalloc_error_iff : (∃ e, ufalloc u 0 = .error e) ↔ ∀ fd, u.ofile fd ≠ none := by
  unfold ufalloc
  split
  · next fd hfd =>
    have hfree : u.ofile fd = none := by simpa using find?_some hfd
    exact iff_of_false (by simp) fun h => h fd hfree
  · next hnone =>
    refine iff_of_true ⟨_, rfl⟩ ?_
    intro fd hfree
    have := find?_eq_none.mp hnone fd (mem_slots fd)
    simp [hfree] at this

theorem mem_scanOrder (lastf : Nat) (f : FileIx) : f ∈ scanOrder lastf := by
  have h := mem_slots f
  rw [← take_append_drop lastf slots] at h
  exact mem_append.mpr (mem_append.mp h).symm

theorem falloc_error_iff :
    (∃ e, falloc k u = .error e) ↔ (∀ fd, u.ofile fd ≠ none) ∨ ∀ f, (k.fileTab f).count ≠ 0 := by
  rw [← ufalloc_error_iff]
  unfold falloc
  split
  · next e he => exact iff_of_true ⟨e, rfl⟩ (.inl ⟨e, he⟩)
  · next fd hfd =>
    split
    · next hnone =>
      refine iff_of_true ⟨_, rfl⟩ (.inr ?_)
      intro f hzero
      have := find?_eq_none.mp hnone f (mem_scanOrder k.lastf f)
      simp [hzero] at this
    · next fp hfp =>
      refine iff_of_false (by simp) ?_
      rintro (⟨e, he⟩ | hall)
      · rw [hfd] at he
        cases he
      · exact hall fp (by simpa using find?_some hfp)

/-- The entry given back and the slot cleared: as before. -/
theorem Taken.undo (h : Taken k u k' u' fp fd) {k'' : Ix}
    (hcount : ∀ f, (k''.fileTab f).count = if f = fp then 0 else (k'.fileTab f).count) :
    Unchanged k u k'' (u'.setOfile fd none) where
  ofile := by
    show update u'.ofile fd none = u.ofile
    rw [h.ofile, update_idem, ← h.free_fd, update_eq_self]
  count := by
    intro f
    rw [hcount, h.count]
    by_cases hf : f = fp
    · rw [if_pos hf, hf, h.free_fp]
    · rw [if_neg hf, if_neg hf]

/-! ## `pipe` -/

/-- Two descriptors and two entries are free, if one of each is. -/
def RoomForPipe (k : Ix) (u : User) : Prop :=
  (∃ fd, u.ofile fd = none) → (∃ f, (k.fileTab f).count = 0) →
    (∃ fd fd', fd ≠ fd' ∧ u.ofile fd = none ∧ u.ofile fd' = none) ∧
      ∃ f f', f ≠ f' ∧ (k.fileTab f).count = 0 ∧ (k.fileTab f').count = 0

theorem Taken.second_iff (h : Taken k u k' u' fp fd) :
    (∃ e, falloc k' u' = .error e) ↔ ¬ RoomForPipe k u := by
  have hfd : ∃ fd, u.ofile fd = none := ⟨fd, h.free_fd⟩
  have hfp : ∃ f, (k.fileTab f).count = 0 := ⟨fp, h.free_fp⟩
  have hofile : ∀ x, u'.ofile x = none ↔ x ≠ fd ∧ u.ofile x = none := by
    intro x
    rw [h.ofile]
    by_cases hx : x = fd
    · simp [hx]
    · simp [hx]
  have hcount : ∀ f, (k'.fileTab f).count = 0 ↔ f ≠ fp ∧ (k.fileTab f).count = 0 := by
    intro f
    rw [h.count]
    by_cases hf : f = fp
    · simp [hf]
    · simp [hf]
  rw [falloc_error_iff]
  constructor
  · rintro hfull hroom
    obtain ⟨⟨x, y, hxy, hx, hy⟩, a, b, hab, ha, hb⟩ := hroom hfd hfp
    -- of two different ones, one is not the one that was taken
    rcases hfull with hfull | hfull
    · by_cases hxfd : x = fd
      · exact hfull y ((hofile y).mpr ⟨fun hyfd => hxy (hxfd.trans hyfd.symm), hy⟩)
      · exact hfull x ((hofile x).mpr ⟨hxfd, hx⟩)
    · by_cases hafp : a = fp
      · exact hfull b ((hcount b).mpr ⟨fun hbfp => hab (hafp.trans hbfp.symm), hb⟩)
      · exact hfull a ((hcount a).mpr ⟨hafp, ha⟩)
  · intro hroom
    apply Classical.byContradiction
    intro hsome
    rw [not_or] at hsome
    obtain ⟨h₁, h₂⟩ := hsome
    obtain ⟨x, hx⟩ := Classical.not_forall.mp h₁
    obtain ⟨a, ha⟩ := Classical.not_forall.mp h₂
    obtain ⟨hxfd, hx⟩ := (hofile x).mp (not_not.mp hx)
    obtain ⟨hafp, ha⟩ := (hcount a).mp (not_not.mp ha)
    exact hroom fun _ _ => ⟨⟨x, fd, hxfd, hx, h.free_fd⟩, a, fp, hafp, ha, h.free_fp⟩

theorem pipe_unchanged_iff :
    ((pipe k u).2.2.isOk = false → Unchanged k u (pipe k u).1 (pipe k u).2.1) ↔ RoomForPipe k u := by
  cases h₁ : falloc k u with
  | error e =>
    refine iff_of_true (fun _ => ?_) ?_
    · simp only [pipe, h₁]
      exact Unchanged.refl k u
    · rintro ⟨fd, hfd⟩ ⟨f, hf⟩
      rcases falloc_error_iff.mp ⟨e, h₁⟩ with hall | hall
      · exact absurd hfd (hall fd)
      · exact absurd hf (hall f)
  | ok r =>
    obtain ⟨k₁, u₁, f1, fd1⟩ := r
    have htaken := falloc_taken h₁
    cases h₂ : falloc k₁ u₁ with
    | error e =>
      -- the slot of the first end stays
      have hroom : ¬ RoomForPipe k u := htaken.second_iff.mp ⟨e, h₂⟩
      refine iff_of_false ?_ hroom
      simp only [pipe, h₁, h₂]
      intro hunchanged
      have hslot := congrFun (hunchanged rfl).ofile fd1
      rw [htaken.ofile, htaken.free_fd, update_self] at hslot
      cases hslot
    | ok =>
      refine iff_of_true ?_ ?_
      · simp [pipe, h₁, h₂, Except.isOk, Except.toBool]
      · apply Classical.byContradiction
        intro hroom
        obtain ⟨e, he⟩ := htaken.second_iff.mpr hroom
        rw [h₂] at he
        cases he

/-! ## All of them -/

/-- The condition: `pipe` is not called where there is room for one end and not for the other. -/
def Opening.Meets (k : Ix) (u : User) : Opening → Prop
  | .pipe stream => stream = true → RoomForPipe k u
  | _ => True

theorem openFile_failed (res : Opened) (h : (openFile k u res).2.2.isOk = false) :
    Unchanged k u (openFile k u res).1 (openFile k u res).2.1 := by
  revert h
  fun_cases openFile k u res with
  | case1 => exact fun _ => Unchanged.refl k u
  | case2 | case3 => exact nofun
  | case4 k₁ u₁ f fd hf =>
    have htaken := falloc_taken hf
    refine fun _ => htaken.undo fun g => ?_
    by_cases hg : g = f
    · simp [Ix.addCount, Ix.setFile, hg, htaken.count f]
    · simp [Ix.addCount, Ix.setFile, hg]

theorem unpSocket_failed (h : (unpSocket k u).2.2.isOk = false) :
    Unchanged k u (unpSocket k u).1 (unpSocket k u).2.1 := by
  cases hf : falloc k u with
  | error =>
    simp only [unpSocket, hf]
    exact Unchanged.refl k u
  | ok => simp [unpSocket, hf, Except.isOk, Except.toBool] at h

theorem socketCall_failed (supported memory : Bool) : (socketCall k u supported memory).2.2.isOk = false →
    Unchanged k u (socketCall k u supported memory).1 (socketCall k u supported memory).2.1 := by
  fun_cases socketCall k u supported memory with
  | case3 => exact unpSocket_failed
  | _ => exact fun _ => .refl k u

theorem dup_failed (i : Nat) :
    (dup k u i).2.2.isOk = false → Unchanged k u (dup k u i).1 (dup k u i).2.1 := by
  fun_cases dup k u i with
  | case3 => rintro ⟨⟩
  | _ => exact fun _ => .refl k u

theorem dupSocket_failed (i : Nat) (so : Option Errno) (h : (dupSocket k u i so).2.2.isOk = false) :
    Unchanged k u (dupSocket k u i so).1 (dupSocket k u i so).2.1 := by
  revert h
  fun_cases dupSocket k u i so with
  | case1 | case2 => exact fun _ => Unchanged.refl k u
  | case3 => exact nofun
  | case4 _ _ k₁ u₁ fp2 fd2 hf =>
    refine fun _ => (falloc_taken hf).undo fun g => ?_
    by_cases hg : g = fp2
    · simp [Ix.setFile, hg]
    · simp [Ix.setFile, hg]

theorem dup2_failed (i j : Nat) :
    (dup2 k u i j).2.2.isOk = false → Unchanged k u (dup2 k u i j).1 (dup2 k u i j).2.1 := by
  fun_cases dup2 k u i j with
  | case3 => exact nofun
  | _ => exact fun _ => .refl k u

theorem fcntlDupfd_failed (fdes : Nat) (arg : Int) : (fcntlDupfd k u fdes arg).2.2.isOk = false →
    Unchanged k u (fcntlDupfd k u fdes arg).1 (fcntlDupfd k u fdes arg).2.1 := by
  fun_cases fcntlDupfd k u fdes arg with
  | case4 => rintro ⟨⟩
  | _ => exact fun _ => .refl k u

/-- **A call that returns −1 has left the caller's descriptors and the counts of all files as they were**, in
every state of the tables, exactly if it is not a `pipe` with room for only one of its ends. -/
theorem failed_unchanged_iff (k : Ix) (u : User) (c : Opening) :
    ((c.run k u).2.2 = true → Unchanged k u (c.run k u).1 (c.run k u).2.1) ↔ c.Meets k u := by
  have hnot : ∀ b : Bool, (!b) → b = false := by decide
  cases c with
  | openFile res => exact iff_of_true (fun h => openFile_failed res (hnot _ h)) trivial
  | pipe stream =>
    cases stream with
    | false => exact iff_of_true (fun _ => Unchanged.refl k u) fun h => by cases h
    | true =>
      show ((!(pipe k u).2.2.isOk) → Unchanged k u (pipe k u).1 (pipe k u).2.1) ↔ _
      rw [Bool.not_eq_true', pipe_unchanged_iff]
      exact ⟨fun h _ => h, fun h => h rfl⟩
  | socket => exact iff_of_true (fun h => socketCall_failed _ _ (hnot _ h)) trivial
  | dup i => exact iff_of_true (fun h => dup_failed i (hnot _ h)) trivial
  | dupSocket i so => exact iff_of_true (fun h => dupSocket_failed i so (hnot _ h)) trivial
  | dup2 i j => exact iff_of_true (fun h => dup2_failed i j (hnot _ h)) trivial
  | dupfd fdes arg => exact iff_of_true (fun h => fcntlDupfd_failed fdes arg (hnot _ h)) trivial

/-- A process with one descriptor left; all others point to entry 1. -/
def oneLeft : User :=
  { User.empty with ofile := fun fd => if fd.val = 0 then none else some ⟨1, by decide⟩ }

/-- The file table with nothing in it but that entry. -/
def oneFile : Ix := ⟨fun f => if f.val = 1 then ⟨511, some .close⟩ else ⟨0, none⟩, 0, [], []⟩

/-- Its `pipe` fails and leaves that descriptor pointing to entry 0, whose count is 0. -/
theorem pipe_leaves_descriptor :
    let r := (Opening.pipe true).run oneFile oneLeft
    let zero : Fin nofile := ⟨0, by decide⟩
    r.2.2 ∧ oneLeft.ofile zero = none ∧ r.2.1.ofile zero = some zero ∧
      (r.1.fileTab zero).count = 0 := by
  decide +kernel

end Ixemul.Descrip
