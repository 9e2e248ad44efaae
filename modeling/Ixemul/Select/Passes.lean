/-
# Ixemul.Select.Passes — what the loops of `ix_select` do.

One lemma for each loop, stated with a condition `P` on the accesses: where `P` allows the places that the
loops go to (`Allowed`), every access meets it, and the state after is the one described here.  The filter
only clears bits (`Filtered`).  A pass asks the descriptors that are left and finds some of them ready
(`Pass`), and either ends the call or leaves everything to the next one.  `safe_loop` is the whole loop, for
any number of passes.

## What is assumed, and what is not shown

Nothing is assumed of the answers, of `Wait` or of the timer: each lemma is for every `Env`. The descriptors
stay open, and the tables and the caller's sets are not changed by others during the call. `loop` has a bound
on its passes, as `ix_select` may wait for ever: with the bound used up it has no result (`Looped`), and
`pass_silent` shows that no bound is large enough for a call that no one answers. That an access is inside the
caller's memory is not shown here; `Bounds` says for which arguments it is.
-/
import Ixemul.Select.Model

namespace Ixemul.Select

open Lib Lib.Logged Lib.BitSet
open Function List

variable {P : Access → Prop} {env : Env} {p : Process} {t : Table} {sets sets₀ : Mode → Option Words}
variable {nfd : BitVec 32} {n k : Nat} {asked : List Query} {pre : State → Prop} {d : Mode} {i : Nat}
  {f : File} {q : Query} {x : Nat × Mode} {post : State → Prop} {made : List (Nat × Mode)} {s₀ : State}

/-! ## Single steps -/

/-- `s && FD_ISSET(i, s)` -/
def member (sets : Mode → Option Words) (x : Nat × Mode) : Bool := (sets x.2).any (isSet x.1)

theorem isSome_of_member (h : member sets x) : (sets x.2).isSome := by
  cases hx : sets x.2 with
  | none => simp [member, hx] at h
  | some => rfl

@[simp] theorem result_testCaller (d : Mode) (i : Nat) (s : State) :
    result (testCaller d i) s = member s.sets (i, d) := by
  cases h : s.sets d <;> simp [testCaller, result, member, h]

@[simp] theorem final_testCaller (d : Mode) (i : Nat) (s : State) : final (testCaller d i) s = s := by
  cases h : s.sets d <;> simp [testCaller, final, h]

theorem mem_accesses_testCaller {a : Access} {s : State} :
    a ∈ accesses (testCaller d i) s ↔ (s.sets d).isSome ∧ a = .bit ⟨true, d⟩ i := by
  cases h : s.sets d <;> simp [testCaller, accesses, h]

/-- A test looks at one bit of the caller, and only where there is a set. -/
theorem safe_testCaller (hP : ∀ s, pre s → (s.sets d).isSome → P (.bit ⟨true, d⟩ i)) :
    Safe P pre (testCaller d i) (fun b s => pre s ∧ b = member s.sets (i, d)) := by
  intro s hs
  refine ⟨?_, ?_⟩
  · intro a ha
    obtain ⟨hgiven, rfl⟩ := mem_accesses_testCaller.mp ha
    exact hP s hs hgiven
  · rw [final_testCaller, result_testCaller]
    exact ⟨hs, rfl⟩

/-- Asking adds one query to the history, if the file has an `f_select`. -/
theorem safe_ask {post : BitVec 32 → State → Prop}
    (h : ∀ s, pre s → post (env.answer q) (if f.select then { s with asked := s.asked ++ [q] } else s)) :
    Safe P pre (ask env f q) post :=
  fun s hs => ⟨by simp [ask, accesses], h s hs⟩

/-- A body that runs for the open descriptors that are left in their set. -/
theorem safe_selected {body : File → Act Unit}
    (hP : ∀ s, pre s → (s.sets x.2).isSome → P (.bit ⟨true, x.2⟩ x.1))
    (hbody : ∀ f, t.ofile x.1 = some f →
      Safe P (fun s => pre s ∧ member s.sets x) (body f) (fun _ => post))
    (hskip : ∀ s, pre s → (member s.sets x && (t.ofile x.1).isSome) = false → post s) :
    Safe P pre (selected t x body) (fun _ => post) := by
  apply Safe.bind (safe_testCaller hP)
  intro isset
  cases isset with
  | false =>
    apply Safe.pure
    rintro s ⟨hs, hset⟩
    exact hskip s hs (by rw [← hset, Bool.false_and])
  | true =>
    cases hopen : t.ofile x.1 with
    | none =>
      apply Safe.pure
      rintro s ⟨hs, -⟩
      exact hskip s hs (by rw [hopen, Option.isSome_none, Bool.and_false])
    | some f =>
      rintro s ⟨hs, hset⟩
      exact hbody f hopen s ⟨hs, hset.symm⟩

theorem mem_places : x ∈ places n ↔ x.1 < n := by
  obtain ⟨i, d⟩ := x
  cases d <;> simp [places]

/-! ## The places that may be looked at -/

/-- `P` allows the bits below `nfd`, those of the descriptors the scans for SIGIO look at and the words that
are copied, of the sets that are there. -/
structure Allowed (P : Access → Prop) (p : Process) (nfd : BitVec 32) (sets : Mode → Option Words) :
    Prop where
  bits : ∀ c d i, i < nfd.toInt.toNat → (sets d).isSome → P (.bit ⟨c, d⟩ i)
  scans : ∀ t, t = p.pu ∨ t = p.own → p.sigioIgnored = false → (sets .inp).isSome →
    ∀ i < t.lastfile, ∀ f, t.ofile i = some f → f.async → P (.bit ⟨true, .inp⟩ i)
  words : ∀ c d j, j < setcopyWords nfd → (sets d).isSome → P (.word ⟨c, d⟩ j)

/-- With no condition on the accesses every place is allowed. -/
theorem allowed_true : Allowed (fun _ => True) p nfd sets where
  bits := fun _ _ _ _ _ => trivial
  scans := fun _ _ _ _ _ _ _ _ _ => trivial
  words := fun _ _ _ _ _ => trivial

/-! ## The filter -/

/-- The descriptor is open, but not for this. -/
def refused (t : Table) (x : Nat × Mode) : Bool := (t.ofile x.1).any fun f => !supports f x.2

/-- The bits of the refused places among those of `made` are cleared. -/
structure Filtered (t : Table) (made : List (Nat × Mode)) (sets₀ sets : Mode → Option Words) : Prop where
  given : ∀ d, (sets d).isSome = (sets₀ d).isSome
  bits : ∀ x, member sets x = (member sets₀ x && !(decide (x ∈ made) && refused t x))
  words : ∀ d j, (∀ x ∈ made, x.2 = d → x.1 / 32 ≠ j) → (sets d).map (· j) = (sets₀ d).map (· j)

theorem Filtered.refl : Filtered t [] sets sets where
  given := fun _ => rfl
  bits := fun x => by simp
  words := fun _ _ _ => rfl

/-- The filter leaves the sets that there are, so the places stay allowed. -/
theorem Filtered.allowed (h : Filtered t made sets₀ sets)
    (hP : Allowed P p nfd sets₀) : Allowed P p nfd sets where
  bits := fun c d i hi hgiven => hP.bits c d i hi (by rw [← h.given]; exact hgiven)
  scans := fun t ht hio hgiven => hP.scans t ht hio (by rw [← h.given]; exact hgiven)
  words := fun c d j hj hgiven => hP.words c d j hj (by rw [← h.given]; exact hgiven)

theorem Filtered.skip (h : Filtered t made sets₀ sets)
    (hx : (member sets x && refused t x) = false) : Filtered t (made ++ [x]) sets₀ sets where
  given := h.given
  bits := by
    intro y
    rw [h.bits y]
    by_cases hy : y = x
    · subst hy
      rw [h.bits y] at hx
      cases hr : refused t y <;> simp_all
    · simp [hy]
  words := fun d j hj => h.words d j fun y hy => hj y (mem_append_left _ hy)

/-- FD_CLR takes one member away and no other. -/
theorem member_update_clr (x y : Nat × Mode) :
    member (update sets x.2 ((sets x.2).map (clr x.1))) y = (!decide (y = x) && member sets y) := by
  unfold member
  by_cases hd : y.2 = x.2
  · have hsame : y = x ↔ y.1 = x.1 := by
      rw [Prod.ext_iff]
      exact and_iff_left hd
    rw [hd]
    cases sets x.2 with
    | none => simp
    | some => simp [isSet_clr, hsame]
  · have hne : y ≠ x := fun h => hd (congrArg Prod.snd h)
    rw [update_of_ne hd]
    simp [hne]

/-- A place whose bit is cleared. -/
theorem Filtered.clear (h : Filtered t made sets₀ sets)
    (hx : refused t x) :
    Filtered t (made ++ [x]) sets₀ (update sets x.2 ((sets x.2).map (clr x.1))) where
  given := by
    intro d
    rw [← h.given d]
    by_cases hd : d = x.2
    · subst hd
      simp
    · rw [update_of_ne hd]
  bits := by
    intro y
    rw [member_update_clr, h.bits y]
    by_cases hy : y = x
    · subst hy
      simp [hx]
    · simp [hy]
  words := by
    intro d j hj
    have hold := h.words d j fun y hy => hj y (mem_append_left _ hy)
    rw [← hold]
    by_cases hd : d = x.2
    · have hne : x.1 / 32 ≠ j := hj x (mem_append_right _ mem_cons_self) hd.symm
      rw [hd, update_self, Option.map_map]
      exact congrArg (fun g => Option.map g (sets x.2)) (funext fun w => clr_apply_of_ne hne.symm)
    · rw [update_of_ne hd]

/-- A state that differs in the sets only. -/
def State.withSets (s : State) (sets : Mode → Option Words) : State := { s with sets := sets }

theorem safe_filterPlace (hP : (sets₀ x.2).isSome → P (.bit ⟨true, x.2⟩ x.1)) :
    Safe P (fun s => ∃ sets, Filtered t made sets₀ sets ∧ s = s₀.withSets sets) (filterPlace t x)
      (fun _ s => ∃ sets, Filtered t (made ++ [x]) sets₀ sets ∧ s = s₀.withSets sets) := by
  apply safe_selected
  · rintro s ⟨sets, hf, rfl⟩ hgiven
    exact hP (by rw [← hf.given]; exact hgiven)
  · intro f hopen
    by_cases hsup : supports f x.2
    · rw [if_pos hsup]
      apply Safe.pure
      rintro s ⟨⟨sets, hf, rfl⟩, -⟩
      exact ⟨sets, hf.skip (by simp [refused, hopen, hsup]), rfl⟩
    · rw [if_neg hsup]
      rintro s ⟨⟨sets, hf, rfl⟩, hset⟩
      have hacc : P (.bit ⟨true, x.2⟩ x.1) := hP (by rw [← hf.given]; exact isSome_of_member hset)
      refine ⟨fun a ha => mem_singleton.mp ha ▸ hacc, ?_⟩
      exact ⟨_, hf.clear (by simp [refused, hopen, hsup]), rfl⟩
  · rintro s ⟨sets, hf, rfl⟩ hskip
    refine ⟨sets, hf.skip ?_, rfl⟩
    cases hopen : t.ofile x.1 with
    | none => simp [refused, hopen]
    | some =>
      rw [hopen] at hskip
      simp only [Option.isSome_some, Bool.and_true] at hskip
      have hset : member sets x = false := hskip
      rw [hset, Bool.false_and]

/-- **The filter** takes out what is refused, and looks at allowed places only. -/
theorem safe_filter (hP : Allowed P p nfd s₀.sets) :
    Safe P (· = s₀) (forEach (places nfd.toInt.toNat) (filterPlace t))
      (fun _ s => ∃ sets, Filtered t (places nfd.toInt.toNat) s₀.sets sets ∧ s = s₀.withSets sets) := by
  apply Safe.forEach fun made s => ∃ sets, Filtered t made s₀.sets sets ∧ s = s₀.withSets sets
  · exact fun s hs => ⟨s₀.sets, Filtered.refl, hs⟩
  · exact fun _ x hx => safe_filterPlace (hP.bits true x.2 x.1 (mem_places.mp hx))

/-! ## A pass -/

/-- The places of `xs` that are asked. -/
def placeQueries (t : Table) (sets : Mode → Option Words) (k : Nat) (cmd : Cmd) (xs : List (Nat × Mode)) :
    List Query :=
  (xs.filter fun x => member sets x && (t.ofile x.1).any File.select).map fun x => ⟨k, cmd, x.1, x.2, false⟩

/-- The places of `xs` that answer. -/
def found (env : Env) (t : Table) (sets : Mode → Option Words) (k : Nat) (xs : List (Nat × Mode)) :
    List (Nat × Mode) :=
  xs.filter fun x =>
    member sets x && (t.ofile x.1).isSome && env.answer ⟨k, cmdOf k, x.1, x.2, false⟩ != 0

/-- An open descriptor with FASYNC that is not in the read set as it is now. -/
def watched (t : Table) (sets : Mode → Option Words) (i : Nat) : Bool :=
  (t.ofile i).any File.async && !member sets (i, .inp)

/-- The descriptors of `is` that a scan for SIGIO asks. -/
def scanQueries (t : Table) (sets : Mode → Option Words) (k : Nat) (cmd : Cmd) (is : List Nat) : List Query :=
  (is.filter fun i => watched t sets i && (t.ofile i).any File.select).map fun i => ⟨k, cmd, i, .inp, true⟩

/-- Does one of them answer? -/
def scanFound (env : Env) (t : Table) (sets : Mode → Option Words) (k : Nat) (is : List Nat) : Bool :=
  is.any fun i => watched t sets i && env.answer ⟨k, cmdOf k, i, .inp, true⟩ != 0

/-- The value comes from `Wait`, or there was no wait yet. -/
def Got (env : Env) (v : BitVec 32) : Prop := v = 0 ∨ ∃ j w, v = received env j w

/-- Before pass `k`. -/
structure Between (env : Env) (sets : Mode → Option Words) (k : Nat) (asked : List Query) (s : State) :
    Prop where
  sets_eq : s.sets = sets
  passes_eq : s.passes = k
  asked_eq : s.asked = asked
  recv : Got env s.recvWaitSigs

/-- In pass `k`: what was asked, and what was found. -/
structure Pass (env : Env) (sets : Mode → Option Words) (k : Nat) (asked : List Query)
    (ready : List (Nat × Mode)) (sigio : Bool) (s : State) : Prop where
  sets_eq : s.sets = sets
  passes_eq : s.passes = k + 1
  asked_eq : s.asked = asked
  isSet_ready : ∀ d i, isSet i (s.ready d) = decide ((i, d) ∈ ready)
  readydesc_eq : s.readydesc = ready.length
  sigio_eq : s.sigio = sigio
  recv : Got env s.recvWaitSigs

variable {ready : List (Nat × Mode)} {sigio : Bool} {s : State} {cmd : Cmd} {xs : List (Nat × Mode)}

section

variable (h : Pass env sets k asked ready sigio s)
include h

theorem Pass.nil : Pass env sets k (asked ++ []) ready sigio s := by
  rwa [append_nil]

/-- What one query adds to a pass. -/
theorem Pass.ask :
    Pass env sets k (asked ++ if f.select then [q] else []) ready sigio
      (if f.select then { s with asked := s.asked ++ [q] } else s) := by
  cases f.select with
  | true => exact { h with asked_eq := congrArg (· ++ [q]) h.asked_eq }
  | false => exact h.nil

theorem Pass.addSigs {sigs : BitVec 32} :
    Pass env sets k asked ready sigio { s with waitSigs := s.waitSigs ||| sigs } :=
  { h with }

/-- What one descriptor that is ready adds to a pass. -/
theorem Pass.setReady :
    Pass env sets k asked (ready ++ [x]) sigio
      { s with ready := update s.ready x.2 (set x.1 (s.ready x.2)), readydesc := s.readydesc + 1 } :=
  { h with
    isSet_ready := by
      intro d i
      have hset : isSet i (update s.ready x.2 (set x.1 (s.ready x.2)) d) =
          (decide ((i, d) = x) || isSet i (s.ready d)) := by
        by_cases hd : d = x.2
        · subst hd
          rw [update_self, isSet_set]
          simp [Prod.ext_iff]
        · simp [Prod.ext_iff, hd]
      rw [hset, h.isSet_ready, ← Bool.decide_or]
      apply decide_eq_decide.mpr
      rw [mem_append, mem_singleton]
      exact or_comm
    readydesc_eq := by
      rw [length_append, length_singleton, ← h.readydesc_eq] }

end

theorem placeQueries_concat (cmd : Cmd) (xs : List (Nat × Mode)) (x : Nat × Mode) :
    placeQueries t sets k cmd (xs ++ [x]) = placeQueries t sets k cmd xs ++
      if (member sets x && (t.ofile x.1).any File.select) then [⟨k, cmd, x.1, x.2, false⟩]
      else [] := by
  unfold placeQueries
  rw [filter_append, map_append, filter_cons, filter_nil]
  split <;> rfl

theorem found_concat (xs : List (Nat × Mode)) (x : Nat × Mode) :
    found env t sets k (xs ++ [x]) = found env t sets k xs ++
      if (member sets x && (t.ofile x.1).isSome && env.answer ⟨k, cmdOf k, x.1, x.2, false⟩ != 0)
      then [x] else [] := by
  unfold found
  rw [filter_append, filter_cons, filter_nil]

theorem placeQueries_skip (h : (member sets x && (t.ofile x.1).isSome) = false) :
    placeQueries t sets k cmd (xs ++ [x]) = placeQueries t sets k cmd xs := by
  rw [placeQueries_concat, if_neg, append_nil]
  intro hx
  cases hopen : t.ofile x.1 <;> simp_all

theorem found_skip (h : (member sets x && (t.ofile x.1).isSome) = false) :
    found env t sets k (xs ++ [x]) = found env t sets k xs := by
  rw [found_concat, h, Bool.false_and, if_neg Bool.false_ne_true, append_nil]

/-- The query for one place, as both loops over the places make it. -/
theorem safe_askPlace (hopen : t.ofile x.1 = some f) :
    Safe P (fun s => Pass env sets k (asked ++ placeQueries t sets k cmd made) ready sigio s ∧
        member s.sets x)
      (Select.ask env f ⟨k, cmd, x.1, x.2, false⟩)
      (fun answer s => answer = env.answer ⟨k, cmd, x.1, x.2, false⟩ ∧
        Pass env sets k (asked ++ placeQueries t sets k cmd (made ++ [x])) ready sigio s ∧
        member sets x) := by
  apply safe_ask
  rintro s ⟨hs, hset⟩
  rw [hs.sets_eq] at hset
  refine ⟨rfl, ?_, hset⟩
  have hpass := hs.ask (f := f) (q := ⟨k, cmd, x.1, x.2, false⟩)
  rw [append_assoc] at hpass
  rw [placeQueries_concat, hset, hopen]
  exact hpass

/-- One place is prepared. -/
theorem safe_preparePlace (hP : (sets x.2).isSome → P (.bit ⟨true, x.2⟩ x.1)) :
    Safe P (Pass env sets k (asked ++ placeQueries t sets k .prepare made) ready sigio)
      (preparePlace env t k x)
      (fun _ => Pass env sets k (asked ++ placeQueries t sets k .prepare (made ++ [x])) ready sigio) := by
  apply safe_selected
  · intro s hs hgiven
    rw [hs.sets_eq] at hgiven
    exact hP hgiven
  · intro f hopen
    apply Safe.bind (safe_askPlace hopen)
    intro sigs
    apply Safe.change
    rintro s ⟨-, hs, -⟩
    exact hs.addSigs
  · intro s hs hskip
    rw [hs.sets_eq] at hskip
    rw [placeQueries_skip hskip]
    exact hs

/-- One place is asked, and noted if it is ready. -/
theorem safe_collectPlace (hP : ∀ c, (sets x.2).isSome → P (.bit ⟨c, x.2⟩ x.1)) :
    Safe P
      (Pass env sets k (asked ++ placeQueries t sets k (cmdOf k) made) (found env t sets k made) sigio)
      (collectPlace env t k (cmdOf k) x)
      (fun _ => Pass env sets k (asked ++ placeQueries t sets k (cmdOf k) (made ++ [x]))
        (found env t sets k (made ++ [x])) sigio) := by
  apply safe_selected
  · intro s hs hgiven
    rw [hs.sets_eq] at hgiven
    exact hP true hgiven
  · intro f hopen
    apply Safe.bind (safe_askPlace hopen)
    intro answer
    by_cases hans : answer ≠ 0
    · rw [if_pos hans]
      rintro s ⟨rfl, hs, hset⟩
      refine ⟨fun a ha => mem_singleton.mp ha ▸ hP false (isSome_of_member hset), ?_⟩
      rw [found_concat, hset, hopen, if_pos (by simpa using hans)]
      exact hs.setReady
    · rw [if_neg hans]
      apply Safe.pure
      rintro s ⟨rfl, hs, hset⟩
      rw [found_concat, if_neg (by simpa [hset, hopen] using hans), append_nil]
      exact hs
  · intro s hs hskip
    rw [hs.sets_eq] at hskip
    rw [placeQueries_skip hskip, found_skip hskip]
    exact hs

/-- The loop that prepares the descriptors. -/
theorem safe_prepare (hP : Allowed P p nfd sets) :
    Safe P (Pass env sets k asked ready sigio) (forEach (places nfd.toInt.toNat) (preparePlace env t k))
      (fun _ => Pass env sets k (asked ++ placeQueries t sets k .prepare (places nfd.toInt.toNat)) ready
        sigio) := by
  apply Safe.forEach fun made => Pass env sets k (asked ++ placeQueries t sets k .prepare made) ready sigio
  · exact fun s hs => hs.nil
  · exact fun _ x hx => safe_preparePlace (hP.bits true x.2 x.1 (mem_places.mp hx))

/-- The loop that collects what is ready. -/
theorem safe_collect (hP : Allowed P p nfd sets) :
    Safe P (Pass env sets k asked [] sigio)
      (forEach (places nfd.toInt.toNat) (collectPlace env t k (cmdOf k)))
      (fun _ => Pass env sets k (asked ++ placeQueries t sets k (cmdOf k) (places nfd.toInt.toNat))
        (found env t sets k (places nfd.toInt.toNat)) sigio) := by
  apply Safe.forEach fun made =>
    Pass env sets k (asked ++ placeQueries t sets k (cmdOf k) made) (found env t sets k made) sigio
  · exact fun s hs => hs.nil
  · exact fun _ x hx => safe_collectPlace fun c => hP.bits c x.2 x.1 (mem_places.mp hx)

/-! ## The scans for SIGIO -/

/-- The descriptors of a scan. -/
def scanned (p : Process) (t : Table) : List Nat := if p.sigioIgnored then [] else range t.lastfile

theorem sigioScan_eq (cmd : Cmd) (use : BitVec 32 → Act Unit) :
    sigioScan env p t k cmd use = forEach (scanned p t) (sigioPlace env t k cmd use) := by
  unfold sigioScan scanned
  cases p.sigioIgnored <;> rfl

theorem scanQueries_concat (cmd : Cmd) (is : List Nat) (i : Nat) :
    scanQueries t sets k cmd (is ++ [i]) = scanQueries t sets k cmd is ++
      if (watched t sets i && (t.ofile i).any File.select) then [⟨k, cmd, i, .inp, true⟩] else [] := by
  unfold scanQueries
  rw [filter_append, map_append, filter_cons, filter_nil]
  split <;> rfl

theorem scanFound_concat (is : List Nat) (i : Nat) :
    scanFound env t sets k (is ++ [i]) =
      (scanFound env t sets k is || (watched t sets i && env.answer ⟨k, cmdOf k, i, .inp, true⟩ != 0)) := by
  simp [scanFound]

/-- One descriptor of a scan, for either use of its answer. -/
theorem safe_sigioPlace {use : BitVec 32 → Act Unit} {is : List Nat}
    (hP : ∀ f, t.ofile i = some f → f.async → (sets .inp).isSome → P (.bit ⟨true, .inp⟩ i))
    (huse : watched t sets i → ∀ answer, Safe P
      (fun s => answer = env.answer ⟨k, cmd, i, .inp, true⟩ ∧
        Pass env sets k (asked ++ scanQueries t sets k cmd (is ++ [i])) ready sigio s)
      (use answer) (fun _ => post))
    (hskip : watched t sets i = false → ∀ s,
      Pass env sets k (asked ++ scanQueries t sets k cmd (is ++ [i])) ready sigio s → post s) :
    Safe P (Pass env sets k (asked ++ scanQueries t sets k cmd is) ready sigio)
      (sigioPlace env t k cmd use i) (fun _ => post) := by
  have hsame : watched t sets i = false →
      scanQueries t sets k cmd (is ++ [i]) = scanQueries t sets k cmd is := by
    intro hw
    rw [scanQueries_concat, hw, Bool.false_and, if_neg Bool.false_ne_true, append_nil]
  have hrest : watched t sets i = false → ∀ s,
      Pass env sets k (asked ++ scanQueries t sets k cmd is) ready sigio s → post s :=
    fun hw s hs => hskip hw s (by rw [hsame hw]; exact hs)
  unfold sigioPlace
  cases hopen : t.ofile i with
  | none => exact Safe.pure (hrest (by simp [watched, hopen]))
  | some f =>
    cases hasync : f.async with
    | false =>
      simp only [hasync, Bool.false_eq_true, if_false]
      exact Safe.pure (hrest (by simp [watched, hopen, hasync]))
    | true =>
      simp only [hasync, if_true]
      apply Safe.bind (safe_testCaller (fun s hs hgiven => hP f hopen hasync (by rwa [hs.sets_eq] at hgiven)))
      intro isset
      cases isset with
      | true =>
        apply Safe.pure
        rintro s ⟨hs, hset⟩
        rw [hs.sets_eq] at hset
        exact hrest (by simp [watched, ← hset]) s hs
      | false =>
        -- the descriptor is asked, and the answer is used
        rintro s ⟨hs, hset⟩
        rw [hs.sets_eq] at hset
        have hw : watched t sets i := by simp [watched, hopen, hasync, ← hset]
        refine Safe.bind (safe_ask ?_) (huse hw) s hs
        intro s hs
        have hpass := hs.ask (f := f) (q := ⟨k, cmd, i, .inp, true⟩)
        rw [append_assoc] at hpass
        rw [scanQueries_concat, hw, hopen]
        exact ⟨rfl, hpass⟩

theorem mem_scanned : i ∈ scanned p t ↔ p.sigioIgnored = false ∧ i < t.lastfile := by
  unfold scanned
  cases p.sigioIgnored <;> simp

/-- A scan, with what it finds. -/
theorem safe_scan {use : BitVec 32 → Act Unit} {g : List Nat → Bool} (ht : t = p.pu ∨ t = p.own)
    (hP : Allowed P p nfd sets)
    (huse : ∀ is i, watched t sets i → ∀ answer asked, Safe P
      (fun s => answer = env.answer ⟨k, cmd, i, .inp, true⟩ ∧ Pass env sets k asked ready (g is) s)
      (use answer) (fun _ => Pass env sets k asked ready (g (is ++ [i]))))
    (hskip : ∀ is i, watched t sets i = false → g (is ++ [i]) = g is) :
    Safe P (Pass env sets k asked ready (g [])) (sigioScan env p t k cmd use)
      (fun _ => Pass env sets k (asked ++ scanQueries t sets k cmd (scanned p t)) ready
        (g (scanned p t))) := by
  rw [sigioScan_eq]
  apply Safe.forEach fun is => Pass env sets k (asked ++ scanQueries t sets k cmd is) ready (g is)
  · exact fun s hs => hs.nil
  · intro is i hi
    obtain ⟨hio, hlt⟩ := mem_scanned.mp hi
    apply safe_sigioPlace
    · intro f hopen hasync hgiven
      exact hP.scans t ht hio hgiven i hlt f hopen hasync
    · exact fun hw answer => huse is i hw answer _
    · intro hw s hs
      rw [hskip is i hw]
      exact hs

/-- The scan before a wait: it goes through the table `p.pu`. -/
theorem safe_scanPrepare (hP : Allowed P p nfd sets) :
    Safe P (Pass env sets k asked ready sigio) (sigioScan env p p.pu k .prepare Select.addSigs)
      (fun _ => Pass env sets k (asked ++ scanQueries p.pu sets k .prepare (scanned p p.pu)) ready sigio) :=
  safe_scan (g := fun _ => sigio) (.inl rfl) hP
    (fun _ _ _ _ _ => Safe.change fun _ hs => hs.2.addSigs) (fun _ _ _ => rfl)

theorem Pass.raiseSigio {answer : BitVec 32} (h : Pass env sets k asked ready sigio s) :
    Pass env sets k asked ready (sigio || answer != 0) { s with sigio := s.sigio || answer != 0 } :=
  { h with sigio_eq := by rw [h.sigio_eq] }

/-- The scan after the descriptors were asked: it goes through the own table. -/
theorem safe_scanCheck (hP : Allowed P p nfd sets) :
    Safe P (Pass env sets k asked ready false) (sigioScan env p p.own k (cmdOf k) Select.raiseSigio)
      (fun _ => Pass env sets k (asked ++ scanQueries p.own sets k (cmdOf k) (scanned p p.own)) ready
        (scanFound env p.own sets k (scanned p p.own))) := by
  refine safe_scan (g := scanFound env p.own sets k) (.inr rfl) hP (fun is i hw answer asked => ?_)
    (fun is i hw => ?_)
  · apply Safe.change
    rintro s ⟨rfl, hs⟩
    rw [scanFound_concat, hw, Bool.true_and]
    exact hs.raiseSigio
  · rw [scanFound_concat, hw, Bool.false_and, Bool.or_false]

/-! ## Copying the answer -/

/-- The words of one set replaced by those of the ready set. -/
def State.copySet (s : State) (nfd : BitVec 32) (d : Mode) : State :=
  s.withSets (update s.sets d ((s.sets d).map (copy (setcopyWords nfd) (s.ready d))))

/-- All sets that are there replaced. -/
def State.copied (s : State) (nfd : BitVec 32) : State :=
  s.withSets fun d => (s.sets d).map (copy (setcopyWords nfd) (s.ready d))

/-- The three calls of `setcopy` copy one set each. -/
theorem State.copied_eq (s : State) (nfd : BitVec 32) :
    ((s.copySet nfd .inp).copySet nfd .out).copySet nfd .exc = s.copied nfd := by
  apply congrArg s.withSets
  funext d
  cases d <;> rfl

theorem isSome_copySet (nfd : BitVec 32) (d d' : Mode) (s : State) :
    ((s.copySet nfd d).sets d').isSome = (s.sets d').isSome := by
  by_cases hd : d' = d
  · subst hd
    simp [State.copySet, State.withSets]
  · simp [State.copySet, State.withSets, hd]

/-- One word of the answer goes over the word of the caller. -/
theorem safe_copyWord {w : Words} {made : List Nat} {j : Nat}
    (hP : ∀ c, P (.word ⟨c, d⟩ j)) :
    Safe P
      (· = s₀.withSets (update s₀.sets d (some fun i => if i ∈ made then s₀.ready d i else w i)))
      (copyWord d j)
      (fun _ => (· = s₀.withSets
        (update s₀.sets d (some fun i => if i ∈ made ++ [j] then s₀.ready d i else w i)))) := by
  rintro s rfl
  refine ⟨?_, ?_⟩
  · intro a ha
    rcases mem_cons.mp ha with rfl | ha
    · exact hP false
    · exact mem_singleton.mp ha ▸ hP true
  · have hword : update (fun i => if i ∈ made then s₀.ready d i else w i) j (s₀.ready d j) =
        fun i => if i ∈ made ++ [j] then s₀.ready d i else w i := by
      funext i
      by_cases hi : i = j
      · subst hi
        simp
      · simp [hi]
    rw [← hword]
    apply congrArg s₀.withSets
    refine (update_idem _ _ _).trans (congrArg (update s₀.sets d) ?_)
    exact congrArg (Option.map fun words : Words => update words j (s₀.ready d j))
      (update_self d _ s₀.sets)

/-- `setcopy` copies whole words, also past the last descriptor. -/
theorem safe_setcopy (hP : ∀ c j, j < setcopyWords nfd → (s₀.sets d).isSome → P (.word ⟨c, d⟩ j)) :
    Safe P (· = s₀) (setcopy nfd d) (fun _ => (· = s₀.copySet nfd d)) := by
  apply Safe.bind_look
  rintro s rfl
  cases hset : s.sets d with
  | none =>
    refine ⟨by simp, ?_⟩
    have hsame : update s.sets d ((s.sets d).map (copy (setcopyWords nfd) (s.ready d))) = s.sets := by
      rw [hset, Option.map_none, ← hset, update_eq_self]
    exact (congrArg s.withSets hsame).symm
  | some w =>
    have hsame : update s.sets d (some fun i => if i ∈ ([] : List Nat) then s.ready d i else w i) =
        s.sets := by simp [← hset]
    have hloop := Safe.forEach
      (fun made => (· = s.withSets (update s.sets d (some fun i => if i ∈ made then s.ready d i else w i))))
      (fun _ (hs : _ = s) => hs.trans (congrArg s.withSets hsame).symm)
      (fun _ j (hj : j ∈ range (setcopyWords nfd)) => safe_copyWord
        (fun c => hP c j (mem_range.mp hj) (by rw [hset]; rfl)))
    obtain ⟨hacc, hend⟩ := hloop s rfl
    refine ⟨hacc, hend.trans ?_⟩
    rw [State.copySet, hset]
    simp only [mem_range]
    rfl

/-! ## The whole pass -/

/-- What pass `k` asks before it waits. -/
def waitQueries (p : Process) (sets : Mode → Option Words) (n k : Nat) : List Query :=
  if k = 0 then []
  else placeQueries p.pu sets k .prepare (places n) ++ scanQueries p.pu sets k .prepare (scanned p p.pu)

/-- What pass `k` asks. -/
def passQueries (p : Process) (sets : Mode → Option Words) (n k : Nat) : List Query :=
  waitQueries p sets n k ++
    (placeQueries p.pu sets k (cmdOf k) (places n) ++ scanQueries p.own sets k (cmdOf k) (scanned p p.own))

theorem safe_startPass :
    Safe P (Between env sets k asked) (startPass env) (fun _ => Pass env sets k asked [] false) := by
  apply Safe.change
  intro s hs
  exact { hs with
    passes_eq := congrArg (· + 1) hs.passes_eq
    isSet_ready := fun _ _ => isSet_zero
    readydesc_eq := rfl
    sigio_eq := rfl }

theorem safe_startTimer : Safe P (Pass env sets k asked ready sigio) (startTimer env)
    (fun _ => Pass env sets k asked ready sigio) := by
  unfold startTimer
  cases env.dotout with
  | true => exact Safe.change fun s hs => hs.addSigs
  | false => exact Safe.pure fun s hs => hs

/-- Every pass but the first prepares the descriptors, and then waits. -/
theorem safe_waitPass (hP : Allowed P p nfd sets) :
    Safe P (Pass env sets k asked ready sigio) (waitPass env p nfd.toInt.toNat k)
      (fun _ => Pass env sets k (asked ++ waitQueries p sets nfd.toInt.toNat k) ready sigio) := by
  unfold waitPass waitQueries
  by_cases hk : k = 0
  · rw [if_pos hk, if_pos hk, append_nil]
    exact Safe.pure fun s hs => hs
  · rw [if_neg hk, if_neg hk]
    apply Safe.bind safe_startTimer
    intro _
    apply Safe.bind (safe_prepare hP)
    intro _
    apply Safe.bind (safe_scanPrepare hP)
    intro _
    apply Safe.change
    intro s hs
    rw [← append_assoc]
    exact { hs with recv := .inr ⟨k, s.waitSigs, rfl⟩ }

/-- The state in which pass `k` decides what to do. -/
def Decides (env : Env) (p : Process) (nfd : BitVec 32) (sets : Mode → Option Words) (k : Nat)
    (asked : List Query) : State → Prop :=
  Pass env sets k (asked ++ passQueries p sets nfd.toInt.toNat k)
    (found env p.pu sets k (places nfd.toInt.toNat)) (scanFound env p.own sets k (scanned p p.own))

/-- What is asked in a pass, and what it has found at its end. -/
theorem safe_askPass (hP : Allowed P p nfd sets) :
    Safe P (Between env sets k asked) (askPass env p nfd k) (fun _ => Decides env p nfd sets k asked) := by
  apply Safe.bind safe_startPass
  intro _
  apply Safe.bind (safe_waitPass hP)
  intro _
  apply Safe.bind (safe_collect hP)
  intro _ s hs
  obtain ⟨hacc, hend⟩ := safe_scanCheck hP s hs
  refine ⟨hacc, ?_⟩
  rw [append_assoc, append_assoc] at hend
  exact hend

/-- How a pass ends from the state `top` in which it decides. -/
inductive Ends (env : Env) (nfd : BitVec 32) (top : State) : Option Int → State → Prop where
  | answered : answers env top = true → Ends env nfd top (some top.readydesc) (top.copied nfd)
  | stopped : answers env top = false → interrupted env top = true → Ends env nfd top (some (-1)) top
  | goesOn : answers env top = false → interrupted env top = false → Ends env nfd top none top

/-- A pass ends the call, or leaves everything to the next one. -/
theorem safe_endPass {top : State} (hP : Allowed P p nfd top.sets) :
    Safe P (· = top) (endPass env nfd) (Ends env nfd top) := by
  apply Safe.bind_look
  cases hans : answers env top with
  | true =>
    apply Safe.bind_look
    apply Safe.bind (safe_setcopy (fun c j hj hset => hP.words c .inp j hj hset))
    intro _
    apply Safe.bind
      (safe_setcopy (fun c j hj hset => hP.words c .out j hj (by rwa [isSome_copySet] at hset)))
    intro _
    apply Safe.bind
      (safe_setcopy (fun c j hj hset =>
        hP.words c .exc j hj (by rwa [isSome_copySet, isSome_copySet] at hset)))
    intro _
    apply Safe.pure
    rintro s rfl
    rw [top.copied_eq nfd]
    exact Ends.answered hans
  | false =>
    apply Safe.bind_look
    apply Safe.pure
    rintro s rfl
    cases hstop : interrupted env s with
    | true => exact Ends.stopped hans hstop
    | false => exact Ends.goesOn hans hstop

/-- **One pass**: what it asks decides how it ends. -/
theorem safe_pass (hP : Allowed P p nfd sets) :
    Safe P (Between env sets k asked) (pass env p nfd k)
      (fun r s => ∃ top, Decides env p nfd sets k asked top ∧ Ends env nfd top r s) := by
  apply Safe.bind (safe_askPass hP)
  intro _ top htop
  have hallowed : Allowed P p nfd top.sets := by
    rw [htop.sets_eq]
    exact hP
  obtain ⟨hacc, hend⟩ : _ ∧ Ends env nfd top _ _ := safe_endPass hallowed top rfl
  exact ⟨hacc, top, htop, hend⟩

/-! ## All passes -/

/-- What the passes before pass `k` asked. -/
def history (p : Process) (sets : Mode → Option Words) (n k : Nat) : List Query :=
  (range k).flatMap (passQueries p sets n)

theorem history_succ (p : Process) (sets : Mode → Option Words) (n k : Nat) :
    history p sets n (k + 1) = history p sets n k ++ passQueries p sets n k := by
  simp [history, range_succ]

/-- What the loop leaves behind: it is still waiting, or pass `j` was the last one.  The passes before found
nothing for SIGIO. -/
inductive Looped (env : Env) (p : Process) (nfd : BitVec 32) (sets : Mode → Option Words) :
    Option Int → State → Prop where
  | waiting {j : Nat} {s : State} :
      (∀ i < j, scanFound env p.own sets i (scanned p p.own) = false) →
      Between env sets j (history p sets nfd.toInt.toNat j) s → Looped env p nfd sets none s
  | ended {j : Nat} {top s : State} {r : Int} :
      (∀ i < j, scanFound env p.own sets i (scanned p p.own) = false) →
      Decides env p nfd sets j (history p sets nfd.toInt.toNat j) top → Ends env nfd top (some r) s →
      Looped env p nfd sets (some r) s

/-- **The loop**: its passes ask one after the other, until one of them ends the call. -/
theorem safe_loop (hP : Allowed P p nfd sets) (fuel : Nat)
    (hquiet : ∀ i < k, scanFound env p.own sets i (scanned p p.own) = false) :
    Safe P (Between env sets k (history p sets nfd.toInt.toNat k)) (loop env p nfd fuel k)
      (Looped env p nfd sets) := by
  induction fuel generalizing k with
  | zero => exact Safe.pure fun s hs => Looped.waiting hquiet hs
  | succ fuel ih =>
    apply Safe.bind (safe_pass hP)
    intro r
    cases r with
    | some =>
      apply Safe.pure
      rintro s ⟨top, htop, hend⟩
      exact Looped.ended hquiet htop hend
    | none =>
      -- the pass found nothing for SIGIO, or it would have ended the call
      rintro s ⟨top, htop, hend⟩
      cases hend with
      | goesOn hans hstop =>
        have hnone : scanFound env p.own sets k (scanned p p.own) = false := by
          rw [← htop.sigio_eq]
          exact (Bool.or_eq_false_iff.mp hstop).1
        have hnext : Between env sets (k + 1) (history p sets nfd.toInt.toNat (k + 1)) s := by
          rw [history_succ]
          exact ⟨htop.sets_eq, htop.passes_eq, htop.asked_eq, htop.recv⟩
        refine ih (fun i hi => ?_) s hnext
        rcases Nat.lt_succ_iff_lt_or_eq.mp hi with hlt | rfl
        · exact hquiet i hlt
        · exact hnone

/-! ## The call -/

/-- What the call leaves behind.  `filtered` are the sets after the first loop. -/
inductive Called (env : Env) (p : Process) (nfd : BitVec 32) (sets₀ : Mode → Option Words) :
    Option Return → State → Prop where
  | signal : env.cursig = true →
      Called env p nfd sets₀ (some ⟨-1, true, false, false⟩) (State.init env sets₀)
  | waiting {sets : Mode → Option Words} {s : State} : env.cursig = false →
      Filtered p.pu (places nfd.toInt.toNat) sets₀ sets → Looped env p nfd sets none s →
      Called env p nfd sets₀ none s
  | ended {sets : Mode → Option Words} {s : State} {r : Int} : env.cursig = false →
      Filtered p.pu (places nfd.toInt.toNat) sets₀ sets → Looped env p nfd sets (some r) s →
      Called env p nfd sets₀ (some (finish r s)) s

/-- **The call**, with all its exits. -/
theorem safe_ixSelect (hP : Allowed P p (cutNfd nfd) sets₀) (fuel : Nat) :
    Safe P (· = State.init env sets₀) (ixSelect env p nfd fuel) (Called env p (cutNfd nfd) sets₀) := by
  unfold ixSelect
  cases hsig : env.cursig with
  | true =>
    apply Safe.pure
    rintro s rfl
    exact Called.signal hsig
  | false =>
    have hallowed : Allowed P p (cutNfd nfd) (State.init env sets₀).sets := hP
    apply Safe.bind (safe_filter hallowed)
    rintro _ s ⟨sets, hf, rfl⟩
    have hstart : Between env sets 0 (history p sets (cutNfd nfd).toInt.toNat 0)
        ((State.init env sets₀).withSets sets) := ⟨rfl, rfl, rfl, .inl rfl⟩
    refine Safe.bind (safe_loop (hf.allowed hP) fuel (fun i hi => absurd hi (Nat.not_lt_zero i))) ?_ _ hstart
    intro r
    cases r with
    | none => exact Safe.pure fun s hs => Called.waiting hsig hf hs
    | some => exact Safe.look fun s hs => Called.ended hsig hf hs

/-- The end of a call. -/
theorem called (env : Env) (p : Process) (nfd : BitVec 32) (sets : Mode → Option Words) (fuel : Nat) :
    Called env p (cutNfd nfd) sets (result (ixSelect env p nfd fuel) (State.init env sets))
      (final (ixSelect env p nfd fuel) (State.init env sets)) :=
  (safe_ixSelect allowed_true fuel _ rfl).2

/-! ## A call that no one answers -/

theorem between_filter (env : Env) (p : Process) (nfd : BitVec 32) (sets : Mode → Option Words) :
    ∃ sets', Filtered p.pu (places nfd.toInt.toNat) sets sets' ∧ Between env sets' 0 []
      (final (forEach (places nfd.toInt.toNat) (filterPlace p.pu)) (State.init env sets)) := by
  have hallowed : Allowed (fun _ => True) p nfd sets := allowed_true
  obtain ⟨-, sets', hf, hs⟩ := safe_filter hallowed (State.init env sets) rfl
  refine ⟨sets', hf, ?_⟩
  rw [hs]
  exact ⟨rfl, rfl, rfl, .inl rfl⟩

/-- No one answers, and there is no timeout. -/
def silent : Env := ⟨false, fun _ => 0, fun _ _ => 0, fun _ => false, 0, 0, none, none⟩

/-- Where no one answers, a pass leads to the next one. -/
theorem pass_silent (h : Between silent sets k asked s) :
    result (pass silent p nfd k) s = none ∧
      Between silent sets (k + 1) (asked ++ passQueries p sets nfd.toInt.toNat k)
        (final (pass silent p nfd k) s) := by
  have hallowed : Allowed (fun _ => True) p nfd sets := allowed_true
  obtain ⟨-, top, htop, hend⟩ := safe_pass hallowed s h
  have hdesc : top.readydesc = 0 := by
    rw [htop.readydesc_eq]
    simp [found, silent]
  have hsigio : top.sigio = false := by
    rw [htop.sigio_eq]
    simp [scanFound, silent]
  have hrecv : top.recvWaitSigs = 0 := by
    rcases htop.recv with h | ⟨j, w, h⟩
    · exact h
    · rw [h]
      rfl
  have hans : answers silent top = false := by
    rw [answers, timedOut, hdesc]
    rfl
  have hstop : interrupted silent top = false := by
    rw [interrupted, hsigio, hrecv]
    rfl
  generalize result (pass silent p nfd k) s = r at hend ⊢
  generalize final (pass silent p nfd k) s = s' at hend ⊢
  cases hend with
  | answered h => exact absurd (hans.symm.trans h) Bool.false_ne_true
  | stopped _ h => exact absurd (hstop.symm.trans h) Bool.false_ne_true
  | goesOn => exact ⟨rfl, htop.sets_eq, htop.passes_eq, htop.asked_eq, htop.recv⟩

end Ixemul.Select
