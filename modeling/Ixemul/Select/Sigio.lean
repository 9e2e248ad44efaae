/-
# Ixemul.Select.Sigio — SIGIO for descriptors that are not selected.

A descriptor with FASYNC that is not in the read set is asked as well in every pass of `ix_select`, so that
SIGIO can be sent when it has input.  The scans go over `i < u_lastfile`.  But `u_lastfile` is the highest
descriptor that was ever in use, not the number of them: the descriptor that is the mark itself is never
asked.  The tables are those of every sequence of calls; how far `u_lastfile` is behind the truth is an
invariant of these (`Below`).
-/
import Ixemul.Descrip.Count
import Ixemul.Descrip.Fail
import Ixemul.Select.Passes

namespace Ixemul.Select

open Lib Lib.Logged Lib.BitSet
open Lib.Run (System Reachable)
open Descrip (User Ix Fd FileIx nofile ufalloc falloc getFile)
open Function List

/-! ## Tables -/

/-- A process's table, and `u_lastfile`. -/
structure Marked where
  user : User
  mark : Nat

/-- `if (want > u.u_lastfile) u.u_lastfile = want;` in `ufalloc`, also if nothing comes of it later. -/
def ufallocMark (u : User) (want mark : Nat) : Nat :=
  match ufalloc u want with
  | .ok fd => max mark fd
  | .error _ => mark

/-- Both calls of `falloc` count. -/
def pipeMark (k : Ix) (u : User) (mark : Nat) : Nat :=
  match falloc k u with
  | .error _ => ufallocMark u 0 mark
  | .ok (_, u', _, _) => ufallocMark u' 0 (ufallocMark u 0 mark)

def dupMark (u : User) (i mark : Nat) : Nat :=
  match getFile u i with
  | .error _ => mark
  | .ok _ => ufallocMark u 0 mark

def dup2Mark (u : User) (i j mark : Nat) : Nat :=
  match getFile u i with
  | .error _ => mark
  | .ok _ => if j < nofile ∧ i ≠ j then max mark j else mark

def dupfdMark (u : User) (fdes : Nat) (arg : Int) (mark : Nat) : Nat :=
  match getFile u fdes with
  | .error _ => mark
  | .ok _ => if arg < 0 ∨ arg ≥ nofile then mark else ufallocMark u arg.toNat mark

/-- `u_lastfile` after a call. -/
def markAfter (k : Ix) (u : User) (mark : Nat) : Descrip.Call → Nat
  | .openFile _ => ufallocMark u 0 mark
  | .socket => ufallocMark u 0 mark
  | .accept => ufallocMark u 0 mark
  | .internalize _ => ufallocMark u 0 mark
  | .pipe => pipeMark k u mark
  | .dup i => dupMark u i mark
  | .dup2 i j => dup2Mark u i j mark
  | .dupfd fdes arg => dupfdMark u fdes arg mark
  | .close _ => mark

/-- The calls of one process, the file table being what the others made of it. -/
def tables : System Marked where
  init := fun m => m = ⟨User.empty, 0⟩
  step := fun m m' => ∃ k c, m' = ⟨(Descrip.Call.run k m.user c).2, markAfter k m.user m.mark c⟩

/-- No descriptor in use is above the mark. -/
def Below (m : Marked) : Prop := ∀ fd : Fd, m.user.ofile fd ≠ none → fd.val ≤ m.mark

variable {u u' : User} {mark mark' : Nat} {fd : Fd} {fp : FileIx} {k k' : Ix} {want i : Nat} {m : Marked}
  {attrs : FileIx → File} {f : File}

theorem Below.mono (h : Below ⟨u, mark⟩) (hle : mark ≤ mark') : Below ⟨u, mark'⟩ :=
  fun fd hfd => le_trans (h fd hfd) hle

theorem Below.update (h : Below ⟨u, mark⟩) (hle : fd.val ≤ mark)
    (hu : u'.ofile = update u.ofile fd (some fp)) : Below ⟨u', mark⟩ := by
  intro fd' hfd'
  by_cases heq : fd' = fd
  · subst heq
    exact hle
  · refine h fd' ?_
    rwa [show (Marked.mk u' mark).user.ofile fd' = u.ofile fd' by rw [hu, update_of_ne heq]] at hfd'

theorem Below.setOfile_none (h : Below ⟨u, mark⟩) : Below ⟨u.setOfile fd none, mark⟩ := by
  intro fd' hfd'
  by_cases heq : fd' = fd
  · subst heq
    exact absurd (update_self ..) hfd'
  · refine h fd' ?_
    rwa [show (Marked.mk (u.setOfile fd none) mark).user.ofile fd' = u.ofile fd' from
      update_of_ne heq _ _] at hfd'

theorem le_ufallocMark (u : User) (want mark : Nat) : mark ≤ ufallocMark u want mark := by
  unfold ufallocMark
  split
  · exact le_max_left _ _
  · exact le_rfl

theorem ufallocMark_of_ok (h : ufalloc u want = .ok fd) : fd.val ≤ ufallocMark u want mark := by
  rw [ufallocMark, h]
  exact le_max_right _ _

section

variable (hb : Below ⟨u, mark⟩)
include hb

theorem below_falloc (h : falloc k u = .ok (k', u', fp, fd)) : Below ⟨u', ufallocMark u 0 mark⟩ :=
  (hb.mono (le_ufallocMark u 0 mark)).update (ufallocMark_of_ok (Descrip.falloc_ok h).1)
    (Descrip.falloc_taken h).ofile

theorem below_install {x : Bool} (h : ufalloc u want = .ok fd) :
    Below ⟨u.install fd fp x, ufallocMark u want mark⟩ :=
  (hb.mono (le_ufallocMark u want mark)).update (ufallocMark_of_ok h) rfl

theorem below_openFile (o : Descrip.Opened) : Below ⟨(Descrip.openFile k u o).2.1, ufallocMark u 0 mark⟩ := by
  unfold Descrip.openFile
  split
  · exact hb.mono (le_ufallocMark u 0 mark)
  · next k' u' f fd h =>
    have htaken := below_falloc hb h
    cases o with
    | file | dir => exact htaken
    | failed => exact htaken.setOfile_none

theorem below_unpSocket : Below ⟨(Descrip.unpSocket k u).2.1, ufallocMark u 0 mark⟩ := by
  unfold Descrip.unpSocket
  split
  · exact hb.mono (le_ufallocMark u 0 mark)
  · next k' u' f fd h => exact below_falloc hb h

theorem below_pipe : Below ⟨(Descrip.pipe k u).2.1, pipeMark k u mark⟩ := by
  unfold Descrip.pipe pipeMark
  cases h : falloc k u with
  | error => exact hb.mono (le_ufallocMark u 0 mark)
  | ok r =>
    obtain ⟨k', u', f, fd⟩ := r
    have hfirst := below_falloc hb h
    cases h' : falloc k' u' with
    | error =>
      simp only [h']
      exact hfirst.mono (le_ufallocMark u' 0 _)
    | ok =>
      simp only [h']
      exact below_falloc hfirst h'

theorem below_dup (i : Nat) : Below ⟨(Descrip.dup k u i).2.1, dupMark u i mark⟩ := by
  unfold Descrip.dup dupMark
  cases hfile : getFile u i with
  | error => exact hb
  | ok =>
    cases h : ufalloc u 0 with
    | error => exact hb.mono (le_ufallocMark u 0 mark)
    | ok => exact below_install hb h

theorem below_dupfd (fdes : Nat) (arg : Int) :
    Below ⟨(Descrip.fcntlDupfd k u fdes arg).2.1, dupfdMark u fdes arg mark⟩ := by
  unfold Descrip.fcntlDupfd dupfdMark
  cases hfile : getFile u fdes with
  | error => exact hb
  | ok =>
    by_cases harg : arg < 0 ∨ arg ≥ nofile
    · simp only [if_pos harg]
      exact hb
    · simp only [if_neg harg]
      cases h : ufalloc u arg.toNat with
      | error => exact hb.mono (le_ufallocMark u arg.toNat mark)
      | ok => exact below_install hb h

theorem below_dup2 (i j : Nat) : Below ⟨(Descrip.dup2 k u i j).2.1, dup2Mark u i j mark⟩ := by
  unfold Descrip.dup2 dup2Mark
  cases hfile : getFile u i with
  | error => exact hb
  | ok =>
    by_cases hj : j < nofile
    · by_cases hij : i = j
      · simp only [hj, hij, dif_pos, if_true, ne_eq, not_true_eq_false, and_false, if_false]
        exact hb
      · simp only [hj, hij, dif_pos, if_false, ne_eq, not_false_eq_true, and_true, if_true]
        have hle : (⟨j, hj⟩ : Fd).val ≤ max mark j := le_max_right mark j
        exact (hb.mono (le_max_left mark j)).update hle rfl
    · simp only [hj, dif_neg, not_false_eq_true, false_and, if_false]
      exact hb

theorem below_internalize (fp : FileIx) :
    Below ⟨(Descrip.fcntlInternalize k u fp).2.1, ufallocMark u 0 mark⟩ := by
  unfold Descrip.fcntlInternalize
  cases h : ufalloc u 0 with
  | error => exact hb.mono (le_ufallocMark u 0 mark)
  | ok => exact below_install hb h

theorem below_close (fd : Int) : Below ⟨(Descrip.close k u fd).2.1, mark⟩ := by
  fun_cases Descrip.close k u fd with
  | case3 | case4 => exact hb.setOfile_none
  | _ => exact hb

end

theorem below_reachable (h : Reachable tables m) : Below m := by
  apply h.invariant
  · rintro m rfl fd hfd
    exact absurd rfl hfd
  · rintro ⟨u, mark⟩ m' hb ⟨k, c, rfl⟩
    cases c with
    | openFile o => exact below_openFile hb o
    | pipe => exact below_pipe hb
    | socket | accept => exact below_unpSocket hb
    | dup i => exact below_dup hb i
    | dup2 i j => exact below_dup2 hb i j
    | dupfd fdes arg => exact below_dupfd hb fdes arg
    | internalize fp => exact below_internalize hb fp
    | close fd => exact below_close hb fd

/-- The table as `ix_select` sees it.  `attrs` are the functions and flags of the files. -/
def tableOf (attrs : FileIx → File) (m : Marked) : Table :=
  ⟨fun i => if h : i < nofile then (m.user.ofile ⟨i, h⟩).map attrs else none, m.mark⟩

theorem tableOf_ofile (h : (tableOf attrs m).ofile i = some f) :
    ∃ fd : Fd, fd.val = i ∧ ∃ fp, m.user.ofile fd = some fp ∧ attrs fp = f := by
  simp only [tableOf] at h
  split at h
  · next hi => exact ⟨⟨i, hi⟩, rfl, Option.map_eq_some_iff.mp h⟩
  · cases h

theorem le_mark (hm : Below m) (h : (tableOf attrs m).ofile i = some f) : i ≤ m.mark := by
  obtain ⟨fd, rfl, fp, hfp, -⟩ := tableOf_ofile h
  exact hm fd (by rw [hfp]; exact Option.some_ne_none fp)

/-! ## The scans -/

/-- The read set has a bit for the descriptor, and it is set. -/
def InReadSet (sets : Mode → Option Words) (i : Nat) : Prop :=
  i < fdSetSize ∧ member sets (i, .inp) = true

/-- `Wait` does not return all 32 signals at once, which would be taken for an error. -/
def WaitDelivers (env : Env) : Prop := ∀ k w, received env k w ≠ BitVec.allOnes 32

/-- In every pass of every call, both scans ask every descriptor with FASYNC that is not in the read set,
and the call ends with SIGIO when one is ready. -/
def ServesSigio (t : Table) (nfd : BitVec 32) (sets : Mode → Option Words) : Prop :=
  ∀ env, WaitDelivers env → ∀ fuel i f, t.ofile i = some f → f.async = true → ¬ InReadSet sets i →
    let run := ixSelect env ⟨t, t, false⟩ nfd fuel
    let s := final run (State.init env sets)
    ∀ k < s.passes,
      ⟨k, cmdOf k, i, .inp, true⟩ ∈ s.asked ∧ (k ≠ 0 → ⟨k, .prepare, i, .inp, true⟩ ∈ s.asked) ∧
        (env.answer ⟨k, cmdOf k, i, .inp, true⟩ ≠ 0 →
          ∃ r, result run (State.init env sets) = some r ∧ r.sigio = true)

/-- The descriptor is below the mark, can be asked, and no bit in the memory at its place in the read set
hides it. -/
def CanBeServed (t : Table) (nfd : BitVec 32) (sets : Mode → Option Words) (i : Nat) (f : File) : Prop :=
  i < t.lastfile ∧ f.select = true ∧
    (member sets (i, .inp) = true → i < (cutNfd nfd).toInt.toNat ∧ f.read = false)

section

variable {env : Env} {t : Table} {nfd : BitVec 32} {sets sets₀ : Mode → Option Words} {i n j : Nat} {f : File}
  {s : State}

theorem mem_scanQueries {k : Nat} {cmd : Cmd} (hopen : t.ofile i = some f) :
    ⟨k, cmd, i, .inp, true⟩ ∈ scanQueries t sets k cmd (scanned ⟨t, t, false⟩ t) ↔
      i < t.lastfile ∧ watched t sets i ∧ f.select := by
  rw [scanQueries, mem_map]
  constructor
  · rintro ⟨i', hmem, heq⟩
    obtain rfl : i' = i := by injection heq
    obtain ⟨hscan, hw⟩ := mem_filter.mp hmem
    rw [hopen, Option.any_some, Bool.and_eq_true] at hw
    exact ⟨(mem_scanned.mp hscan).2, hw.1, hw.2⟩
  · rintro ⟨hlt, hw, hsel⟩
    refine ⟨i, mem_filter.mpr ⟨mem_scanned.mpr ⟨rfl, hlt⟩, ?_⟩, rfl⟩
    rw [hopen, Option.any_some, hw, hsel]
    rfl

theorem watched_filtered_iff (hf : Filtered t (places n) sets₀ sets) (hopen : t.ofile i = some f)
    (hasync : f.async) (hsel : f.select) :
    watched t sets i ↔ (member sets₀ (i, .inp) → i < n ∧ f.read = false) := by
  have hplace : (i, Mode.inp) ∈ places n ↔ i < n := mem_places
  rw [watched, hopen, hf.bits, refused, hopen]
  simp only [Option.any_some, hasync, Bool.true_and, supports, hsel, Bool.and_true, Bool.not_eq_true',
    Bool.and_eq_false_iff, Bool.not_eq_false', Bool.and_eq_true, decide_eq_true_eq, hplace,
    Bool.not_eq_true']
  cases member sets₀ (i, .inp) <;> simp

theorem mem_history {p : Process} {k : Nat} {q : Query} (hk : k < j)
    (hq : q ∈ passQueries p sets n k) : q ∈ history p sets n j :=
  mem_flatMap.mpr ⟨k, mem_range.mpr hk, hq⟩

theorem asked_of_served {k : Nat} (hopen : t.ofile i = some f) (hlt : i < t.lastfile)
    (hw : watched t sets i) (hsel : f.select) (hk : k < j) :
    ⟨k, cmdOf k, i, .inp, true⟩ ∈ history ⟨t, t, false⟩ sets n j ∧
      (k ≠ 0 → ⟨k, .prepare, i, .inp, true⟩ ∈ history ⟨t, t, false⟩ sets n j) := by
  have hmem : ∀ cmd, ⟨k, cmd, i, .inp, true⟩ ∈ scanQueries t sets k cmd (scanned ⟨t, t, false⟩ t) :=
    fun cmd => (mem_scanQueries hopen).mpr ⟨hlt, hw, hsel⟩
  constructor
  · exact mem_history hk (mem_append_right _ (mem_append_right _ (hmem (cmdOf k))))
  · intro hk0
    refine mem_history hk (mem_append_left _ ?_)
    rw [waitQueries, if_neg hk0]
    exact mem_append_right _ (hmem .prepare)

theorem scanFound_of_answer {k : Nat} (hlt : i < t.lastfile) (hw : watched t sets i)
    (hans : env.answer ⟨k, cmdOf k, i, .inp, true⟩ ≠ 0) :
    scanFound env t sets k (scanned ⟨t, t, false⟩ t) := by
  apply any_eq_true.mpr
  refine ⟨i, mem_scanned.mpr ⟨rfl, hlt⟩, ?_⟩
  rw [hw]
  exact bne_iff_ne.mpr hans

theorem sigio_finish {v : Int} (hwait : WaitDelivers env) (hgot : Got env s.recvWaitSigs)
    (hsigio : s.sigio) : (finish v s).sigio := by
  have hne : s.recvWaitSigs ≠ BitVec.allOnes 32 := by
    rcases hgot with h | ⟨k, w, h⟩
    · rw [h]
      decide
    · rw [h]
      exact hwait k w
  rw [finish, if_neg hne]
  exact hsigio

/-- The last pass. -/
theorem Ends.keeps {top : State} {r : Option Int} (h : Ends env nfd top r s) :
    s.passes = top.passes ∧ s.asked = top.asked ∧ s.sigio = top.sigio ∧
      s.recvWaitSigs = top.recvWaitSigs := by
  cases h with
  | answered | stopped | goesOn => exact ⟨rfl, rfl, rfl, rfl⟩

theorem servesSigio_of_canBeServed
    (h : ∀ i f, t.ofile i = some f → f.async → ¬ InReadSet sets i → CanBeServed t nfd sets i f) :
    ServesSigio t nfd sets := by
  intro env hwait fuel i f hopen hasync hnot run s k hk
  obtain ⟨hlt, hsel, hbit⟩ := h i f hopen hasync hnot
  have hcalled := called env ⟨t, t, false⟩ nfd sets fuel
  change Called env ⟨t, t, false⟩ (cutNfd nfd) sets (result run (State.init env sets)) s at hcalled
  generalize s = s' at hcalled hk ⊢
  generalize result run (State.init env sets) = r at hcalled ⊢
  cases hcalled with
  | signal => exact absurd hk (Nat.not_lt_zero k)
  | waiting _ hf hloop =>
    have hw := (watched_filtered_iff hf hopen hasync hsel).mpr hbit
    cases hloop with
    | waiting hquiet hb =>
      rw [hb.passes_eq] at hk
      rw [hb.asked_eq]
      obtain ⟨hcheck, hprepare⟩ := asked_of_served hopen hlt hw hsel hk
      refine ⟨hcheck, hprepare, fun hans => ?_⟩
      -- the pass would have ended the call
      have hfound := scanFound_of_answer hlt hw hans
      exact absurd ((hquiet k hk).symm.trans hfound) Bool.false_ne_true
  | ended _ hf hloop =>
    have hw := (watched_filtered_iff hf hopen hasync hsel).mpr hbit
    cases hloop with
    | @ended j top _ _ hquiet htop hend =>
      obtain ⟨hpasses, hasked, hsigio, hrecv⟩ := hend.keeps
      rw [hpasses, htop.passes_eq] at hk
      rw [hasked, htop.asked_eq, ← history_succ]
      obtain ⟨hcheck, hprepare⟩ := asked_of_served hopen hlt hw hsel hk
      refine ⟨hcheck, hprepare, fun hans => ⟨_, rfl, ?_⟩⟩
      have hfound := scanFound_of_answer hlt hw hans
      rcases Nat.lt_succ_iff_lt_or_eq.mp hk with hearlier | rfl
      · exact absurd ((hquiet k hearlier).symm.trans hfound) Bool.false_ne_true
      · refine sigio_finish hwait (by rw [hrecv]; exact htop.recv) ?_
        rw [hsigio, htop.sigio_eq]
        exact hfound

theorem final_silent (t : Table) (nfd : BitVec 32) (sets : Mode → Option Words) :
    ∃ sets', Filtered t (places (cutNfd nfd).toInt.toNat) sets sets' ∧
      Between silent sets' 1 (passQueries ⟨t, t, false⟩ sets' (cutNfd nfd).toInt.toNat 0)
        (final (ixSelect silent ⟨t, t, false⟩ nfd 1) (State.init silent sets)) := by
  obtain ⟨sets', hf, hb⟩ := between_filter silent ⟨t, t, false⟩ (cutNfd nfd) sets
  obtain ⟨hnone, hnext⟩ : result (pass silent ⟨t, t, false⟩ (cutNfd nfd) 0) _ = none ∧ _ := pass_silent hb
  refine ⟨sets', hf, ?_⟩
  rw [ixSelect, show silent.cursig = false from rfl, if_neg Bool.false_ne_true, final_bind, final_bind, loop,
    result_bind, final_bind, hnone]
  exact hnext

theorem canBeServed_of_servesSigio (h : ServesSigio t nfd sets) (hopen : t.ofile i = some f)
    (hasync : f.async) (hnot : ¬ InReadSet sets i) : CanBeServed t nfd sets i f := by
  obtain ⟨sets', hf, hb⟩ := final_silent t nfd sets
  have hwait : WaitDelivers silent := fun k w => by
    rw [show received silent k w = 0 from rfl]
    decide
  obtain ⟨hmem, -⟩ := h silent hwait 1 i f hopen hasync hnot 0 (by rw [hb.passes_eq]; exact Nat.one_pos)
  rw [hb.asked_eq] at hmem
  -- only the scan for SIGIO asks with that mark
  have hscan : ⟨0, cmdOf 0, i, .inp, true⟩ ∈ scanQueries t sets' 0 (cmdOf 0) (scanned ⟨t, t, false⟩ t) := by
    rcases mem_append.mp hmem with hwaits | hrest
    · exact absurd hwaits not_mem_nil
    · rcases mem_append.mp hrest with hplace | hscan
      · obtain ⟨x, -, heq⟩ := mem_map.mp hplace
        injection heq with _ _ _ _ hflag
        exact absurd hflag Bool.false_ne_true
      · exact hscan
  obtain ⟨hlt, hw, hsel⟩ := (mem_scanQueries hopen).mp hscan
  exact ⟨hlt, hsel, (watched_filtered_iff hf hopen hasync hsel).mp hw⟩

end

/-- For every sequence of calls, files, number of descriptors and sets: SIGIO works exactly if no descriptor
with FASYNC outside the read set is the high-water mark itself, all of them have an `f_select`, and those
from FD_SETSIZE on find no bit set in the memory behind the read set, or one that the filter clears. -/
theorem servesSigio_iff {m : Marked} (hm : Reachable tables m) (attrs : FileIx → File) (nfd : BitVec 32)
    (sets : Mode → Option Words) :
    ServesSigio (tableOf attrs m) nfd sets ↔
      ∀ i f, (tableOf attrs m).ofile i = some f → f.async = true → ¬ InReadSet sets i →
        i ≠ m.mark ∧ f.select = true ∧
          (member sets (i, .inp) = true → i < (cutNfd nfd).toInt.toNat ∧ f.read = false) := by
  constructor
  · intro h i f hopen hasync hnot
    obtain ⟨hlt, hrest⟩ := canBeServed_of_servesSigio h hopen hasync hnot
    exact ⟨ne_of_lt hlt, hrest⟩
  · intro h
    apply servesSigio_of_canBeServed
    intro i f hopen hasync hnot
    obtain ⟨hne, hrest⟩ := h i f hopen hasync hnot
    exact ⟨Nat.lt_of_le_of_ne (le_mark (below_reachable hm) hopen) hne, hrest⟩

/-- A process that opens a file. -/
def opened : Marked :=
  ⟨(Descrip.Call.run Descrip.Ix.init User.empty (.openFile .file)).2,
    markAfter Descrip.Ix.init User.empty 0 (.openFile .file)⟩

theorem opened_reachable : Reachable tables opened :=
  .step (.init rfl) ⟨Descrip.Ix.init, .openFile .file, rfl⟩

/-- It moves the descriptor to 1 and back. -/
def movedTo1 : Marked :=
  ⟨(Descrip.Call.run Descrip.Ix.init opened.user (.dup2 0 1)).2,
    markAfter Descrip.Ix.init opened.user opened.mark (.dup2 0 1)⟩

def movedBack : Marked :=
  ⟨(Descrip.Call.run Descrip.Ix.init movedTo1.user (.close 1)).2,
    markAfter Descrip.Ix.init movedTo1.user movedTo1.mark (.close 1)⟩

theorem servesSigio_movedBack :
    movedBack.mark = 1 ∧
      ServesSigio (tableOf (fun _ => ⟨true, true, true, true⟩) movedBack) 0 (fun _ => none) := by
  have hreach : Reachable tables movedBack := by
    have hdup : Reachable tables movedTo1 := .step opened_reachable ⟨Descrip.Ix.init, .dup2 0 1, rfl⟩
    exact .step hdup ⟨Descrip.Ix.init, .close 1, rfl⟩
  have hmark : movedBack.mark = 1 := by decide +kernel
  have hone : movedBack.user.ofile ⟨1, by decide⟩ = none := by decide +kernel
  refine ⟨hmark, (servesSigio_iff hreach _ 0 _).mpr ?_⟩
  intro i f hopen _ _
  obtain ⟨fd, rfl, fp, hfp, rfl⟩ := tableOf_ofile hopen
  refine ⟨fun hfd => ?_, rfl, fun h => absurd h Bool.false_ne_true⟩
  have hfd : fd = ⟨1, by decide⟩ := Fin.ext (hfd.trans hmark)
  rw [hfd, hone] at hfp
  cases hfp

/-- The file of the only descriptor is ready, but it is not asked, and `select` with a timeout of zero sends
no SIGIO. -/
theorem only_descriptor_not_asked :
    let env : Env := { silent with answer := fun _ => 1, timeout := some (0, 0) }
    let table := tableOf (fun _ => ⟨true, true, true, true⟩) opened
    let run := ixSelect env ⟨table, table, false⟩ 0 1
    let s := final run (State.init env fun _ => none)
    table.ofile 0 = some ⟨true, true, true, true⟩ ∧ s.passes = 1 ∧ s.asked = [] ∧
      result run (State.init env fun _ => none) = some ⟨0, false, false, false⟩ ∧
      ¬ ServesSigio table 0 fun _ => none := by
  intro env table run s
  have hopen : table.ofile 0 = some ⟨true, true, true, true⟩ := by decide +kernel
  refine ⟨hopen, by decide +kernel, by decide +kernel, by decide +kernel, fun h => ?_⟩
  have hnot : ¬ InReadSet (fun _ => none) 0 := fun hin => absurd hin.2 Bool.false_ne_true
  have hlt := (canBeServed_of_servesSigio h hopen rfl hnot).1
  exact absurd hlt (by decide +kernel)

end Ixemul.Select
