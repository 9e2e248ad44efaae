/-
# Ixemul.Select.Outputs — the sets `ix_select` returns.

If the call returns a number of descriptors, the bits left in the caller's sets are those of the descriptors
that were selected, are open, support the direction and answered in the last pass.  The number is that of
the bits, it is zero only after a timeout, and the words behind the ones with the first `nfd` bits are as
they were.
-/
import Ixemul.Select.Passes

namespace Ixemul.Select

open Lib Lib.Logged Lib.BitSet
open Descrip (nofile)
open List

variable {env : Env} {p : Process} {t : Table} {sets sets₀ : Mode → Option Words} {nfd : BitVec 32} {n : Nat}
  {k : Nat} {x : Nat × Mode} {asked : List Query} {sigio : Bool} {top : State} {f : File}

/-! ## Numbers of descriptors within a set -/

theorem cutNfd_of_le (h : nfd.toInt ≤ fdSetSize) : cutNfd nfd = nfd := by
  unfold cutNfd
  rw [if_neg]
  have hsize : fdSetSize ≤ nofile := by decide
  omega

theorem toNat_toInt (h : 0 ≤ nfd.toInt) : nfd.toInt.toNat = nfd.toNat := by
  rw [BitVec.toInt_eq_toNat_cond] at h ⊢
  split <;> omega

theorem setcopyWords_eq (h : 0 ≤ nfd.toInt) (hle : nfd.toInt ≤ fdSetSize) :
    setcopyWords nfd = (nfd.toNat + 31) / 32 := by
  have hsmall : nfd.toNat ≤ fdSetSize := by
    rw [← toNat_toInt h]
    omega
  have hsum : (nfd + 31).toNat = nfd.toNat + 31 := by
    exact Nat.mod_eq_of_lt (lt_of_le_of_lt (Nat.add_le_add_right hsmall 31) (by decide))
  have hmsb : (nfd + 31).msb = false := by
    rw [BitVec.msb_eq_decide, hsum, decide_eq_false_iff_not, not_le]
    exact lt_of_le_of_lt (Nat.add_le_add_right hsmall 31) (by decide)
  rw [setcopyWords, BitVec.sshiftRight_eq_of_msb_false hmsb, BitVec.toNat_ushiftRight, hsum,
    Nat.shiftRight_eq_div_pow]

/-! ## The bits of the answer -/

/-- The descriptor was left in the set by the first loop, is open and answered in pass `k`. -/
def answered (env : Env) (t : Table) (sets : Mode → Option Words) (k : Nat) (x : Nat × Mode) : Bool :=
  member sets x && (t.ofile x.1).isSome && env.answer ⟨k, cmdOf k, x.1, x.2, false⟩ != 0

theorem mem_found : x ∈ found env t sets k (places n) ↔ x.1 < n ∧ answered env t sets k x := by
  rw [found, mem_filter, mem_places]
  rfl

theorem answered_of_none (h : sets x.2 = none) : answered env t sets k x = false := by
  simp [answered, member, h]

theorem member_copied (htop : Pass env sets k asked (found env t sets k (places n)) sigio top)
    (hwords : setcopyWords nfd = (n + 31) / 32) (hx : x.1 < n) :
    member (top.copied nfd).sets x = answered env t sets k x := by
  have hcopied : (top.copied nfd).sets x.2 = (sets x.2).map (copy (setcopyWords nfd) (top.ready x.2)) := by
    rw [← htop.sets_eq]
    rfl
  rw [member, hcopied]
  cases hset : sets x.2 with
  | none => exact (answered_of_none hset).symm
  | some =>
    have hword : x.1 / 32 < setcopyWords nfd := by omega
    rw [Option.map_some, Option.any_some, isSet_copy hword, htop.isSet_ready, Bool.eq_iff_iff,
      decide_eq_true_iff, mem_found]
    exact and_iff_right hx

theorem countP_places (g : Nat × Mode → Bool) (n : Nat) :
    (places n).countP g = (range n).countP (fun i => g (i, .inp)) +
      (range n).countP (fun i => g (i, .out)) + (range n).countP (fun i => g (i, .exc)) := by
  induction n with
  | zero => rfl
  | succ n ih =>
    have hplaces : places (n + 1) = places n ++ [(n, .inp), (n, .out), (n, .exc)] := by
      simp [places, range_succ]
    rw [hplaces, range_succ, countP_append, ih]
    simp only [countP_append, countP_cons, countP_nil]
    omega

/-- The number of bits below `n` in a set. -/
def bitsSet (n : Nat) (sets : Mode → Option Words) (d : Mode) : Nat :=
  (range n).countP fun i => member sets (i, d)

theorem readydesc_copied (htop : Pass env sets k asked (found env t sets k (places n)) sigio top)
    (hwords : setcopyWords nfd = (n + 31) / 32) :
    top.readydesc = bitsSet n (top.copied nfd).sets .inp + bitsSet n (top.copied nfd).sets .out +
      bitsSet n (top.copied nfd).sets .exc := by
  have hbits : ∀ d, bitsSet n (top.copied nfd).sets d =
      (range n).countP fun i => answered env t sets k (i, d) := by
    intro d
    apply countP_congr
    intro i hi
    rw [member_copied htop hwords (mem_range.mp hi)]
  rw [htop.readydesc_eq, found, ← countP_eq_length_filter, hbits, hbits, hbits]
  exact countP_places (answered env t sets k) n

/-! ## The call -/

/-- `f_select` of the descriptor was called for the direction in the last pass and answered that it is
ready. -/
def AnsweredLast (env : Env) (s : State) (x : Nat × Mode) : Prop :=
  ∃ q ∈ s.asked, q = ⟨s.passes - 1, cmdOf (s.passes - 1), x.1, x.2, false⟩ ∧ env.answer q ≠ 0

/-- What a call that was given `sets` and returns `result` in the state `s` has to say. -/
structure Exact (env : Env) (p : Process) (nfd : Nat) (sets : Mode → Option Words) (result : Int) (s : State) :
    Prop where
  members : ∀ x, x.1 < nfd → (member s.sets x = true ↔ member sets x = true ∧
    ∃ f, p.pu.ofile x.1 = some f ∧ supports f x.2 = true ∧ AnsweredLast env s x)
  count : result = (bitsSet nfd s.sets .inp + bitsSet nfd s.sets .out + bitsSet nfd s.sets .exc : Nat)
  timeout : result = 0 → env.timeout.isSome
  beyond : ∀ d j, (nfd + 31) / 32 ≤ j → (s.sets d).map (· j) = (sets d).map (· j)

theorem Filtered.member_iff (h : Filtered t (places n) sets₀ sets) (hx : x.1 < n)
    (hopen : t.ofile x.1 = some f) :
    member sets x ↔ member sets₀ x ∧ supports f x.2 := by
  have hmem : decide (x ∈ places n) := decide_eq_true (mem_places.mpr hx)
  rw [h.bits x, hmem, refused, hopen]
  simp

theorem select_of_supports {d : Mode} (h : supports f d) : f.select := by
  cases d with
  | inp | out => exact (Bool.and_eq_true_iff.mp h).2
  | exc => exact absurd h Bool.false_ne_true

theorem mem_placeQueries {cmd : Cmd} (hx : x.1 < n)
    (hset : member sets x) (hopen : t.ofile x.1 = some f) (hsel : f.select) :
    ⟨k, cmd, x.1, x.2, false⟩ ∈ placeQueries t sets k cmd (places n) := by
  apply mem_map.mpr
  refine ⟨x, mem_filter.mpr ⟨mem_places.mpr hx, ?_⟩, rfl⟩
  simp [hset, hopen, hsel]

theorem exact_of_decides (hf : Filtered p.pu (places nfd.toInt.toNat) sets₀ sets)
    (htop : Decides env p nfd sets k (history p sets nfd.toInt.toNat k) top)
    (hwords : setcopyWords nfd = (nfd.toInt.toNat + 31) / 32) (hans : answers env top) :
    Exact env p nfd.toInt.toNat sets₀ top.readydesc (top.copied nfd) where
  members := by
    intro x hx
    have hlast : (top.copied nfd).passes - 1 = k := by
      rw [show (top.copied nfd).passes = top.passes from rfl, htop.passes_eq, Nat.add_sub_cancel]
    rw [member_copied htop hwords hx]
    constructor
    · intro h
      obtain ⟨⟨hset, hopen⟩, hanswer⟩ := by simpa [answered] using h
      obtain ⟨f, hfile⟩ := Option.isSome_iff_exists.mp hopen
      obtain ⟨hset₀, hsup⟩ := (hf.member_iff hx hfile).mp hset
      refine ⟨hset₀, f, hfile, hsup, _, ?_, rfl, by rwa [hlast]⟩
      rw [hlast, show (top.copied nfd).asked = top.asked from rfl, htop.asked_eq]
      have hasked : ⟨k, cmdOf k, x.1, x.2, false⟩ ∈
          placeQueries p.pu sets k (cmdOf k) (places nfd.toInt.toNat) :=
        mem_placeQueries hx hset hfile (select_of_supports hsup)
      exact mem_append_right _ (mem_append_right _ (mem_append_left _ hasked))
    · rintro ⟨hset₀, f, hfile, hsup, q, -, rfl, hanswer⟩
      rw [hlast] at hanswer
      have hset : member sets x := (hf.member_iff hx hfile).mpr ⟨hset₀, hsup⟩
      rw [answered, hset, hfile]
      exact bne_iff_ne.mpr hanswer
  count := congrArg Int.ofNat (readydesc_copied htop hwords)
  timeout := by
    intro hzero
    have hnone : top.readydesc = 0 := Int.ofNat_eq_zero.mp hzero
    have hsome : ∀ g : Int × Int → Bool, env.timeout.any g → env.timeout.isSome := by
      intro g hg
      cases ht : env.timeout with
      | none => simp [ht] at hg
      | some => rfl
    have hwhy : timedOut env top ∨ env.polls := by simpa [answers, hnone] using hans
    rcases hwhy with htimed | hpolls
    · have hdotout : env.dotout := by
        simp only [timedOut, Bool.and_eq_true] at htimed
        exact htimed.1.2
      exact hsome _ hdotout
    · exact hsome _ hpolls
  beyond := by
    intro d j hj
    have hcopy : ((top.copied nfd).sets d).map (· j) = (sets d).map (· j) := by
      rw [State.copied, State.withSets, htop.sets_eq, Option.map_map]
      have hword : ¬ j < setcopyWords nfd := by omega
      cases sets d with
      | none => rfl
      | some => exact congrArg some (if_neg hword)
    rw [hcopy]
    apply hf.words d j
    intro x hx _
    have hlt := mem_places.mp hx
    omega

theorem result_finish {v : Int} {s : State} (h : 0 ≤ (finish v s).result) : (finish v s).result = v := by
  unfold finish at h ⊢
  split at h
  · exact absurd h (by decide)
  · rename_i hne
    rw [if_neg hne]

/-- For every number of descriptors a set has room for, all sets, tables and timeouts and every behaviour of
the callbacks: if the call returns a number, the sets it returns are exact. -/
theorem ixSelect_exact (env : Env) (p : Process) (nfd : BitVec 32) (sets : Mode → Option Words) (fuel : Nat)
    (r : Return) (hnfd : 0 ≤ nfd.toInt) (hle : nfd.toInt ≤ fdSetSize)
    (hr : result (ixSelect env p nfd fuel) (State.init env sets) = some r) (hpos : 0 ≤ r.result) :
    Exact env p nfd.toNat sets r.result (final (ixSelect env p nfd fuel) (State.init env sets)) := by
  have hcalled := called env p nfd sets fuel
  rw [cutNfd_of_le hle, hr] at hcalled
  generalize final (ixSelect env p nfd fuel) (State.init env sets) = s at hcalled ⊢
  cases hcalled with
  | signal => exact absurd hpos (by decide)
  | ended _ hf hloop =>
    rw [← toNat_toInt hnfd]
    cases hloop with
    | ended _ htop hend =>
      have hresult := result_finish hpos
      rw [hresult] at hpos ⊢
      cases hend with
      | answered hans =>
        exact exact_of_decides hf htop (by rw [setcopyWords_eq hnfd hle, toNat_toInt hnfd]) hans
      | stopped => exact absurd hpos (by decide)

/-- Two descriptors are selected for input, and the second is ready. -/
theorem ixSelect_exact_second : let env : Env :=
      ⟨false, fun q => if q.fd = 1 then 1 else 0, fun _ _ => 0, fun _ => false, 0, 0, none, none⟩
    let table : Table := ⟨fun i => if i < 2 then some ⟨true, false, true, false⟩ else none, 1⟩
    let sets : Mode → Option Words := fun d => if d = .inp then some (fun _ => 3) else none
    let run := ixSelect env ⟨table, table, false⟩ 2 1
    result run (State.init env sets) = some ⟨1, false, false, false⟩ ∧
      Exact env ⟨table, table, false⟩ 2 sets 1 (final run (State.init env sets)) := by
  intro env table sets run
  have hrun : result run (State.init env sets) = some ⟨1, false, false, false⟩ := by decide
  exact ⟨hrun, ixSelect_exact env ⟨table, table, false⟩ 2 sets 1 ⟨1, false, false, false⟩ (by decide)
    (by decide) hrun (by decide)⟩

end Ixemul.Select
