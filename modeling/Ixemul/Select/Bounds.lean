/-
# Ixemul.Select.Bounds — which bits of the sets `ix_select` touches.

An `fd_set` has FD_SETSIZE = 256 bits, but `nfd` is only cut off at NOFILE = 512: with 257 descriptors the
first loop already looks behind the set.  A count below -31 is no better, since the number of words to copy
is then negative and `while (nfd--)` runs through the whole address space.  And the scans for SIGIO look up
every open descriptor with FASYNC in the read set, also those from 256 on.
-/
import Ixemul.Select.Passes

namespace Ixemul.Select

open Lib Lib.Logged Lib.BitSet
open Descrip (nofile)
open List

variable {env : Env} {p : Process} {t : Table} {sets : Mode → Option Words} {nfd : BitVec 32} {n k : Nat}
variable {a : Access} {s : State} {fuel i j : Nat} {d : Mode} {cmd : Cmd} {use : BitVec 32 → Act Unit}
  {f : File}

/-! ## The number of words -/

theorem toInt_cutNfd (nfd : BitVec 32) : (cutNfd nfd).toInt = min nfd.toInt nofile := by
  unfold cutNfd
  split
  · rename_i h
    rw [min_eq_right (Int.le_of_lt h)]
    decide
  · rename_i h
    rw [min_eq_left (Int.not_lt.mp h)]

theorem setcopyWords_eq_emod (h : nfd.toInt ≤ nofile) :
    (setcopyWords nfd : Int) = (nfd.toInt + 31) / 32 % 2 ^ 32 := by
  have hlow : -(2 : Int) ^ 31 ≤ nfd.toInt := BitVec.le_toInt nfd
  have hsize : (nofile : Int) = 512 := rfl
  have hsum : (nfd + 31).toInt = nfd.toInt + 31 := by
    rw [BitVec.toInt_add]
    exact Int.bmod_eq_of_le (by change _ ≤ nfd.toInt + 31; omega) (by change nfd.toInt + 31 < _; omega)
  have hshift : ((nfd + 31).sshiftRight 5).toInt = (nfd.toInt + 31) / 32 := by
    rw [BitVec.toInt_sshiftRight, hsum, Int.shiftRight_eq_div_pow]
    rfl
  rw [← hshift, BitVec.toInt_eq_toNat_cond, setcopyWords]
  split <;> omega

/-! ## The places of a run -/

/-- What the calls from outside do is arbitrary: `nfd`, the tables and the sets have to be such that no run
leaves the sets. -/
def StaysInSets (p : Process) (nfd : BitVec 32) (sets : Mode → Option Words) : Prop :=
  ∀ env fuel, ∀ a ∈ accesses (ixSelect env p nfd fuel) (State.init env sets), a.InRange

/-- `nfd` is the number of descriptors of a set, at most a word below zero. -/
def NfdFits (nfd : BitVec 32) : Prop := -32 < nfd.toInt ∧ nfd.toInt ≤ fdSetSize

/-- The descriptors with FASYNC that a scan looks at have a bit in a set. -/
def ScanFits (t : Table) : Prop := ∀ i < t.lastfile, ∀ f, t.ofile i = some f → f.async = true → i < fdSetSize

theorem allowed_of_fits (hnfd : ∀ d, (sets d).isSome → NfdFits nfd)
    (hscan : p.sigioIgnored = false → (sets .inp).isSome → ScanFits p.pu ∧ ScanFits p.own) :
    Allowed Access.InRange p (cutNfd nfd) sets where
  bits := by
    intro c d i hi hgiven
    obtain ⟨-, hle⟩ := hnfd d hgiven
    rw [toInt_cutNfd] at hi
    show i < fdSetSize
    omega
  scans := by
    intro t ht hio hgiven i hi f hopen hasync
    obtain ⟨hpu, hown⟩ := hscan hio hgiven
    rcases ht with rfl | rfl
    · exact hpu i hi f hopen hasync
    · exact hown i hi f hopen hasync
  words := by
    intro c d j hj hgiven
    obtain ⟨hlow, hle⟩ := hnfd d hgiven
    have hcut : (cutNfd nfd).toInt ≤ nofile := by
      rw [toInt_cutNfd]
      exact min_le_right _ _
    have hwords := setcopyWords_eq_emod hcut
    rw [toInt_cutNfd] at hwords
    have hsize : fdSetSize = 256 := rfl
    show 32 * j + 31 < fdSetSize
    omega

/-! ## Ways out of the sets -/

theorem mem_accesses_loop (h : a ∈ accesses (pass env p nfd k) s) :
    a ∈ accesses (loop env p nfd (fuel + 1) k) s := by
  exact mem_append_left _ h

theorem mem_accesses_ixSelect (hsig : env.cursig = false)
    (h : a ∈ accesses (forEach (places (cutNfd nfd).toInt.toNat) (filterPlace p.pu)) s ∨
      a ∈ accesses (loop env p (cutNfd nfd) fuel 0)
        (final (forEach (places (cutNfd nfd).toInt.toNat) (filterPlace p.pu)) s)) :
    a ∈ accesses (ixSelect env p nfd fuel) s := by
  rw [ixSelect, hsig, if_neg Bool.false_ne_true, accesses_bind, accesses_bind, mem_append,
    mem_append]
  rcases h with h | h
  · exact .inl h
  · exact .inr (.inl h)

theorem isSome_final_filterPlace (d : Mode) (x : Nat × Mode) (s : State) :
    ((final (filterPlace t x) s).sets d).isSome = (s.sets d).isSome := by
  obtain ⟨-, sets', hf, hs⟩ := safe_filterPlace (P := fun _ => True) (t := t) (x := x) (fun _ => trivial) s
    ⟨s.sets, Filtered.refl, rfl⟩
  rw [hs]
  exact hf.given d

theorem mem_accesses_filter (hgiven : (s.sets d).isSome) (hi : i < n) :
    .bit ⟨true, d⟩ i ∈ accesses (forEach (places n) (filterPlace t)) s := by
  have hplace : (i, d) ∈ places n := mem_places.mpr hi
  refine mem_accesses_forEach (fun s => (s.sets d).isSome) hplace ?_ ?_ hgiven
  · intro x s hs
    rw [isSome_final_filterPlace]
    exact hs
  · intro s hs
    exact mem_append_left _ (mem_accesses_testCaller.mpr ⟨hs, rfl⟩)

theorem final_setcopy (nfd : BitVec 32) (d : Mode) (s : State) : final (setcopy nfd d) s = s.copySet nfd d :=
  (safe_setcopy (P := fun _ => True) (fun _ _ _ _ => trivial) s rfl).2

theorem mem_accesses_setcopy (hgiven : (s.sets d).isSome) (hj : j < setcopyWords nfd) :
    .word ⟨true, d⟩ j ∈ accesses (setcopy nfd d) s := by
  rw [setcopy, accesses_bind]
  apply mem_append_right
  rw [result_look, hgiven, if_pos rfl]
  refine mem_accesses_forEach (fun _ => True) (mem_range.mpr hj) (fun _ _ _ => trivial) ?_ trivial
  intro s _
  exact mem_append_right _ mem_cons_self

theorem mem_accesses_endPass (hans : answers env s)
    (hgiven : (s.sets d).isSome) (hj : j < setcopyWords nfd) :
    .word ⟨true, d⟩ j ∈ accesses (endPass env nfd) s := by
  rw [endPass, accesses_bind, result_look, hans, if_pos rfl, accesses_bind, final_look]
  apply mem_append_right
  apply mem_append_right
  rw [accesses_bind, accesses_bind, final_setcopy, final_setcopy]
  cases d with
  | inp => exact mem_append_left _ (mem_accesses_setcopy hgiven hj)
  | out =>
    have hout : ((s.copySet nfd .inp).sets .out).isSome := by
      exact hgiven
    exact mem_append_right _ (mem_append_left _ (mem_accesses_setcopy hout hj))
  | exc =>
    have hexc : (((s.copySet nfd .inp).copySet nfd .out).sets .exc).isSome := by
      exact hgiven
    exact mem_append_right _
      (mem_append_right _ (mem_append_left _ (mem_accesses_setcopy hexc hj)))

theorem sets_final_sigioPlace (huse : ∀ answer s, (final (use answer) s).sets = s.sets) (i : Nat)
    (s : State) :
    (final (sigioPlace env t k cmd use i) s).sets = s.sets := by
  unfold sigioPlace
  cases t.ofile i with
  | none => rfl
  | some f =>
    cases hasync : f.async with
    | false => simp [hasync]
    | true =>
      cases hset : member s.sets (i, .inp) with
      | true => simp [hasync, hset]
      | false =>
        simp only [hasync, if_true, final_bind, result_testCaller, final_testCaller, hset,
          Bool.false_eq_true, if_false, huse]
        unfold ask final
        split <;> rfl

theorem mem_accesses_sigioScan (huse : ∀ answer s, (final (use answer) s).sets = s.sets)
    (hio : p.sigioIgnored = false)
    (hgiven : (s.sets .inp).isSome) (hi : i < t.lastfile) (hopen : t.ofile i = some f)
    (hasync : f.async) : .bit ⟨true, .inp⟩ i ∈ accesses (sigioScan env p t k cmd use) s := by
  rw [sigioScan_eq]
  refine mem_accesses_forEach (fun s => (s.sets .inp).isSome) (mem_scanned.mpr ⟨hio, hi⟩) ?_ ?_ hgiven
  · intro j s hs
    rw [sets_final_sigioPlace huse]
    exact hs
  · intro s hs
    simp only [sigioPlace, hopen, hasync, if_true, accesses_bind]
    exact mem_append_left _ (mem_accesses_testCaller.mpr ⟨hs, rfl⟩)

theorem mem_accesses_askPass {asked : List Query} (hk : k ≠ 0)
    (h : Between env sets k asked s) (ht : t = p.pu ∨ t = p.own) (hio : p.sigioIgnored = false)
    (hgiven : (sets .inp).isSome) (hi : i < t.lastfile) (hopen : t.ofile i = some f)
    (hasync : f.async) : .bit ⟨true, .inp⟩ i ∈ accesses (askPass env p nfd k) s := by
  have hallowed : Allowed (fun _ => True) p nfd sets := allowed_true
  obtain ⟨-, hstart⟩ := safe_startPass (P := fun _ => True) s h
  rw [askPass, accesses_bind, accesses_bind, accesses_bind]
  rcases ht with rfl | rfl
  · apply mem_append_right
    apply mem_append_left
    obtain ⟨-, htimer⟩ := safe_startTimer (P := fun _ => True) _ hstart
    obtain ⟨-, hprepare⟩ := safe_prepare (t := p.pu) hallowed _ htimer
    rw [waitPass, if_neg hk, accesses_bind, accesses_bind]
    apply mem_append_right
    apply mem_append_right
    apply mem_append_left
    refine mem_accesses_sigioScan (fun _ _ => rfl) hio ?_ hi hopen hasync
    rw [hprepare.sets_eq]
    exact hgiven
  · apply mem_append_right
    apply mem_append_right
    apply mem_append_right
    obtain ⟨-, hwait⟩ := safe_waitPass hallowed _ hstart
    obtain ⟨-, hcollect⟩ := safe_collect (t := p.pu) hallowed _ hwait
    refine mem_accesses_sigioScan (fun _ _ => rfl) hio ?_ hi hopen hasync
    rw [hcollect.sets_eq]
    exact hgiven

/-! ## The three ways -/

theorem nfd_le_of_stays (h : StaysInSets p nfd sets) (hgiven : (sets d).isSome) : nfd.toInt ≤ fdSetSize := by
  by_contra hlarge
  have hmem : .bit ⟨true, d⟩ fdSetSize ∈ accesses (ixSelect silent p nfd 0) (State.init silent sets) := by
    apply mem_accesses_ixSelect rfl
    apply Or.inl
    apply mem_accesses_filter hgiven
    rw [toInt_cutNfd]
    have hsize : fdSetSize = 256 := rfl
    have hfiles : nofile = 512 := rfl
    omega
  exact absurd (h silent 0 _ hmem) (lt_irrefl _)

theorem lt_nfd_of_stays (h : StaysInSets p nfd sets) (hgiven : (sets d).isSome) : -32 < nfd.toInt := by
  by_contra hneg
  let env : Env := { silent with timeout := some (0, 0) }
  obtain ⟨sets', hf, hbetween⟩ := between_filter env p (cutNfd nfd) sets
  have hallowed : Allowed (fun _ => True) p (cutNfd nfd) sets' := allowed_true
  obtain ⟨-, htop⟩ := safe_askPass hallowed _ hbetween
  have hmem : .word ⟨true, d⟩ 8 ∈ accesses (ixSelect env p nfd 1) (State.init env sets) := by
    apply mem_accesses_ixSelect rfl
    apply Or.inr
    apply mem_accesses_loop
    rw [pass, accesses_bind]
    apply mem_append_right
    apply mem_accesses_endPass
    · simp [answers, env, Env.polls]
    · rw [htop.sets_eq, hf.given]
      exact hgiven
    · have hcut : (cutNfd nfd).toInt = nfd.toInt := by
        rw [toInt_cutNfd]
        exact min_eq_left (by omega)
      have hlow : -(2 : Int) ^ 31 ≤ nfd.toInt := BitVec.le_toInt nfd
      have hle : (cutNfd nfd).toInt ≤ nofile := by omega
      have hwords := setcopyWords_eq_emod hle
      omega
  exact absurd (h env 1 _ hmem) (show ¬ 32 * 8 + 31 < fdSetSize by decide)

theorem scanFits_of_stays (h : StaysInSets p nfd sets) (hio : p.sigioIgnored = false)
    (hgiven : (sets .inp).isSome) (ht : t = p.pu ∨ t = p.own) : ScanFits t := by
  intro i hi f hopen hasync
  obtain ⟨sets', hf, hbetween⟩ := between_filter silent p (cutNfd nfd) sets
  obtain ⟨hnone, hnext⟩ : result (pass silent p (cutNfd nfd) 0) _ = none ∧ _ := pass_silent hbetween
  have hmem : .bit ⟨true, .inp⟩ i ∈ accesses (ixSelect silent p nfd 2) (State.init silent sets) := by
    apply mem_accesses_ixSelect rfl
    apply Or.inr
    rw [loop, accesses_bind, hnone]
    apply mem_append_right
    apply mem_accesses_loop
    apply mem_append_left
    exact mem_accesses_askPass Nat.one_ne_zero hnext ht hio (by rw [hf.given]; exact hgiven) hi hopen hasync
  exact h silent 2 _ hmem

/-- For every number of descriptors, tables and sets: no run leaves the sets exactly if `nfd` fits where a
set is there, and the descriptors with FASYNC do where SIGIO is not ignored and the read set is there. -/
theorem staysInSets_iff (p : Process) (nfd : BitVec 32) (sets : Mode → Option Words) :
    StaysInSets p nfd sets ↔ (∀ d, (sets d).isSome → NfdFits nfd) ∧
      (p.sigioIgnored = false → (sets .inp).isSome → ScanFits p.pu ∧ ScanFits p.own) := by
  constructor
  · intro h
    refine ⟨fun d hgiven => ⟨lt_nfd_of_stays h hgiven, nfd_le_of_stays h hgiven⟩, fun hio hgiven => ?_⟩
    exact ⟨scanFits_of_stays h hio hgiven (.inl rfl), scanFits_of_stays h hio hgiven (.inr rfl)⟩
  · rintro ⟨hnfd, hscan⟩ env fuel
    exact (safe_ixSelect (allowed_of_fits hnfd hscan) fuel _ rfl).1

/-- `select(257, &set, 0, 0, 0)` looks at the bit behind the set. -/
theorem select_257_leaves_set :
    let table : Table := ⟨fun _ => none, 0⟩
    let sets : Mode → Option Words := fun d => if d = .inp then some (fun _ => 0) else none
    .bit ⟨true, .inp⟩ 256 ∈ accesses (ixSelect silent ⟨table, table, false⟩ 257 1) (State.init silent sets) ∧
      ¬ Access.InRange (.bit ⟨true, .inp⟩ 256) := by
  intro table sets
  refine ⟨mem_accesses_ixSelect rfl (.inl ?_), by decide⟩
  exact mem_accesses_filter rfl (by decide)

end Ixemul.Select
