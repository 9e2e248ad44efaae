/-
# Ixemul.Path.Components — what the translators compute, component by component.

The translators are character machines with flags and counters.  What they compute is a function of the list
of components between the slashes: `dosText` is the AmigaDOS text of such a list, with or without a volume
still to be found.  `adosBody_eq`, `u2aLoop_eq` and `a2uLoop_eq` are about the three machines; everything
else is a statement about lists of components.
-/
import Ixemul.Path.Model
import Mathlib.Data.List.TakeWhile

namespace Ixemul.Path

open List

variable {t w : List Char} {c : Char} {r : Bool} {ws : List (List Char)}

/-! ## Components -/

/-- The text between the slashes; there is always one component more than there are slashes. -/
def comps (t : List Char) : List (List Char) := t.splitOn '/'

/-- The component that names the parent directory. -/
def dotdot : List Char := ['.', '.']

/-- A component that is neither empty nor "." nor "..". -/
def isName (w : List Char) : Bool := w != [] && w != ['.'] && w != dotdot

theorem comps_ne_nil (t : List Char) : comps t ≠ [] := splitOn_ne_nil _ _

@[simp] theorem comps_nil : comps [] = [[]] := rfl

theorem comps_of_not_mem (h : '/' ∉ t) : comps t = [t] :=
  splitOnP_eq_singleton fun _ hx => beq_eq_false_iff_ne.mpr (ne_of_mem_of_not_mem hx h)

theorem comps_append (hw : '/' ∉ w) (t : List Char) : comps (w ++ '/' :: t) = w :: comps t :=
  splitOnP_append_cons_of_forall_mem
    (fun _ hx => beq_eq_false_iff_ne.mpr (ne_of_mem_of_not_mem hx hw)) '/' (by decide) t

@[simp] theorem comps_slash (t : List Char) : comps ('/' :: t) = [] :: comps t :=
  comps_append not_mem_nil t

/-- Induction over a text a component at a time. -/
@[elab_as_elim]
theorem comps_induction {P : List Char → Prop} (last : ∀ w, '/' ∉ w → P w)
    (more : ∀ w q, '/' ∉ w → P q → P (w ++ '/' :: q)) (t : List Char) : P t := by
  by_cases h : '/' ∈ t
  · obtain ⟨w, q, ht, hw⟩ := eq_append_cons_of_mem h
    rw [ht]
    exact more w q hw (comps_induction last more q)
  · exact last t h
termination_by t.length
decreasing_by
  rw [ht, length_append, length_cons]
  omega

theorem slash_not_mem_of_mem_comps (hw : w ∈ comps t) : '/' ∉ w := by
  induction t using comps_induction with
  | last v hv =>
    rw [comps_of_not_mem hv, mem_singleton] at hw
    rwa [hw]
  | more v q hv ih =>
    rw [comps_append hv, mem_cons] at hw
    rcases hw with rfl | hw
    · exact hv
    · exact ih hw

theorem eq_of_comps (h : comps t = w :: ws) : (ws = [] ∧ t = w) ∨ ∃ q, t = w ++ '/' :: q ∧ comps q = ws := by
  induction t using comps_induction with
  | last v hv =>
    rw [comps_of_not_mem hv] at h
    cases h
    exact .inl ⟨rfl, rfl⟩
  | more v q hv =>
    rw [comps_append hv] at h
    cases h
    exact .inr ⟨q, rfl, rfl⟩

theorem bne_of_not_mem (h : c ∉ w) : ∀ x ∈ w, (x != c) :=
  fun _ hx => bne_iff_ne.mpr (ne_of_mem_of_not_mem hx h)

/-- Reading up to a slash reads the first component, -/
theorem takeWhile_of_comps (h : comps t = w :: ws) : t.takeWhile (· != '/') = w := by
  have hall := bne_of_not_mem (slash_not_mem_of_mem_comps (by rw [h]; exact mem_cons_self ..))
  rcases eq_of_comps h with ⟨-, rfl⟩ | ⟨q, rfl, -⟩
  · exact takeWhile_eq_self_iff.mpr hall
  · rw [takeWhile_append_of_pos hall]
    simp

/-- and leaves the slash and the others. -/
theorem dropWhile_of_comps (h : comps t = w :: ws) :
    (ws = [] ∧ t.dropWhile (· != '/') = []) ∨ ∃ q, t.dropWhile (· != '/') = '/' :: q ∧ comps q = ws := by
  have hall := bne_of_not_mem (slash_not_mem_of_mem_comps (by rw [h]; exact mem_cons_self ..))
  rcases eq_of_comps h with ⟨hnil, rfl⟩ | ⟨q, rfl, hq⟩
  · exact .inl ⟨hnil, dropWhile_eq_nil_iff.mpr hall⟩
  · refine .inr ⟨q, ?_, hq⟩
    rw [dropWhile_append_of_pos hall]
    simp

theorem mem_of_mem_comps (hw : w ∈ comps t) (hc : c ∈ w) : c ∈ t := by
  induction t using comps_induction with
  | last v hv =>
    rw [comps_of_not_mem hv, mem_singleton] at hw
    rwa [← hw]
  | more v q hv ih =>
    rw [comps_append hv, mem_cons] at hw
    rcases hw with rfl | hw
    · exact mem_append_left _ hc
    · exact mem_append_right _ (mem_cons_of_mem _ (ih hw))

@[simp] theorem isName_nil : isName [] = false := rfl

theorem not_isName_iff : isName w = false ↔ w = [] ∨ w = ['.'] ∨ w = dotdot := by
  simp only [isName, Bool.and_eq_false_iff, bne_eq_false_iff_eq, or_assoc]

/-! ## The AmigaDOS text of a list of components -/

/-- What a component contributes when another one follows; `r` is set while the volume is still to be
found. -/
def sepText (r : Bool) (w : List Char) : List Char :=
  if isName w then w ++ [if r then ':' else '/']
  else if w = dotdot ∧ r = false then ['/']
  else []

/-- What the last component contributes. -/
def lastText (r : Bool) (w : List Char) : List Char :=
  if isName w then (if r then w ++ [':'] else w)
  else if r then [':']
  else if w = dotdot then ['/']
  else []

/-- **The AmigaDOS text of a list of components**; the first name is the volume if `r` is set. -/
def dosText : Bool → List (List Char) → List Char
  | _, [] => []
  | r, [w] => lastText r w
  | r, w :: v :: ws => sepText r w ++ dosText (r && !isName w) (v :: ws)

theorem dosText_cons (r : Bool) (w : List Char) (h : ws ≠ []) :
    dosText r (w :: ws) = sepText r w ++ dosText (r && !isName w) ws := by
  obtain ⟨v, vs, rfl⟩ := exists_cons_of_ne_nil h
  rfl

@[simp] theorem dosText_nil_cons (r : Bool) (h : ws ≠ []) : dosText r ([] :: ws) = dosText r ws := by
  rw [dosText_cons r [] h]
  simp [sepText, isName, dotdot]

theorem dosText_volume (h : isName w) (ws : List (List Char)) :
    dosText true (w :: ws) = w ++ ':' :: dosText false ws := by
  cases ws with
  | nil => simp [dosText, lastText, h]
  | cons => simp [dosText, sepText, h]

/-! ## ix_to_ados -/

/-- The state of the machine in the middle of a component of which it has read `w`. -/
def mid (r : Bool) (out w : List Char) : Dos :=
  if w.all (· == '.') then ⟨out, true, w.length, if r then 1 else 0, false⟩
  else ⟨out ++ w, false, 0, if r then 2 else 0, false⟩

theorem eq_replicate_of_all (h : w.all (· == '.')) : w = replicate w.length '.' := by
  rw [eq_replicate_iff]
  refine ⟨rfl, fun x hx => ?_⟩
  have hx' := all_eq_true.mp h x hx
  simpa using hx'

theorem readDot_mid (r : Bool) (out w : List Char) : readDot (mid r out w) = mid r out (w ++ ['.']) := by
  by_cases h : w.all (· == '.')
  · have h' : (w ++ ['.']).all (· == '.') := by simp [h]
    simp [mid, h, h', readDot]
  · have h' : ¬ (w ++ ['.']).all (· == '.') := by simp [h]
    simp only [mid, h, h', readDot]
    simp

theorem readChar_mid (r : Bool) (out w : List Char) (hc : c ≠ '.') :
    readChar (mid r out w) c = mid r out (w ++ [c]) := by
  have h' : ¬ (w ++ [c]).all (· == '.') := by simp [hc]
  by_cases h : w.all (· == '.')
  · have hw := eq_replicate_of_all h
    simp only [mid, h, h', readChar]
    cases r <;> simp [← hw]
  · simp only [mid, h, h', readChar]
    cases r <;> simp

theorem isName_replicate (n : Nat) : isName (replicate n '.') = decide (n > 2) := by
  match n with
  | 0 => rfl
  | 1 => rfl
  | 2 => rfl
  | n + 3 => simp [isName, dotdot, replicate_succ]

theorem isName_of_not_all (h : ¬ w.all (· == '.')) : isName w := by
  have hne : ∀ n, w ≠ replicate n '.' := by
    rintro n rfl
    exact h (by simp)
  have h0 := hne 0
  have h1 := hne 1
  have h2 := hne 2
  simp only [replicate] at h0 h1 h2
  simp [isName, dotdot, h0, h1, h2]

theorem dotdot_iff_length (h : w.all (· == '.')) : w = dotdot ↔ w.length = 2 := by
  constructor
  · rintro rfl
    rfl
  · intro hl
    rw [eq_replicate_of_all h, hl]
    rfl

/-- What is written at the end of a component, by a NUL and by a slash. -/
theorem separate_mid (r : Bool) (out w : List Char) :
    (separate (mid r out w) true).out = out ++ lastText r w ∧
      (w ≠ [] ∨ r → { separate (mid r out w) false with allowdot := true, dotcnt := 0 } =
        mid (r && !isName w) (out ++ sepText r w) []) := by
  by_cases h : w.all (· == '.')
  · have hname := isName_replicate w.length
    rw [← eq_replicate_of_all h] at hname
    have hdd := dotdot_iff_length h
    by_cases h3 : w.length > 2
    · have hrep := eq_replicate_of_all h
      have h2 : w.length ≠ 2 := by omega
      cases r <;> simp [separate, flushDots, mid, h, h3, h2, lastText, sepText, hname, ← hrep]
    · have hname' : isName w = false := by rw [hname]; simpa using h3
      cases r with
      | true => simp [separate, flushDots, mid, h, h3, lastText, sepText, hname']
      | false =>
        by_cases h2 : w.length = 2
        · simp [separate, flushDots, mid, h, lastText, sepText, hname', hdd, h2]
        · refine ⟨?_, fun hw => ?_⟩
          · simp [separate, flushDots, mid, h, h3, lastText, hname', hdd, h2]
          · have hne : w ≠ [] := by simpa using hw
            simp [separate, flushDots, mid, h, h3, sepText, hname', hdd, h2, hne]
  · have hname := isName_of_not_all h
    cases r <;> simp [separate, flushDots, mid, h, lastText, sepText, hname]

/-- **The loop of ix_to_ados computes `dosText`**, from the middle of a component (`skip` not set) as well
as from behind a slash (`skip` set). -/
theorem adosLoop_eq (t : List Char) :
    (∀ r out w, '/' ∉ w → (w ≠ [] ∨ r = true ∨ t.head? ≠ some '/') →
      (adosLoop false t (mid r out w)).out = out ++ dosText r (comps (w ++ t))) ∧
    (∀ r out, (adosLoop true t (mid r out [])).out = out ++ dosText r (comps t)) := by
  induction t with
  | nil =>
    have hend : ∀ b r out w, '/' ∉ w →
        (adosLoop b [] (mid r out w)).out = out ++ dosText r (comps w) := by
      intro b r out w hw
      rw [comps_of_not_mem hw]
      exact (separate_mid r out w).1
    exact ⟨fun r out w hw _ => by rw [append_nil]; exact hend false r out w hw,
      fun r out => hend true r out [] not_mem_nil⟩
  | cons c t ih =>
    obtain ⟨ihw, ihs⟩ := ih
    -- a character that is no slash is read into the component, from either mode
    have hread : ∀ b r out w, '/' ∉ w → c ≠ '/' →
        (adosLoop b (c :: t) (mid r out w)).out = out ++ dosText r (comps (w ++ c :: t)) := by
      intro b r out w hw hc
      have hw' : '/' ∉ w ++ [c] := by
        rw [mem_append, mem_singleton, not_or]
        exact ⟨hw, fun e => hc e.symm⟩
      have hstep := ihw r out (w ++ [c]) hw' (.inl (by simp))
      rw [append_assoc, cons_append, nil_append] at hstep
      rw [adosLoop, if_neg hc]
      by_cases hdot : c = '.'
      · subst hdot
        rw [if_pos rfl, readDot_mid]
        exact hstep
      · rw [if_neg hdot, readChar_mid r out w hdot]
        exact hstep
    constructor
    · intro r out w hw hstart
      by_cases hc : c = '/'
      · subst hc
        have hstart' : w ≠ [] ∨ r = true := by
          rcases hstart with h | h | h
          · exact .inl h
          · exact .inr h
          · exact absurd rfl h
        rw [adosLoop, if_pos rfl, if_neg Bool.false_ne_true, (separate_mid r out w).2 hstart', ihs,
          comps_append hw, dosText_cons r w (comps_ne_nil t), append_assoc]
      · exact hread false r out w hw hc
    · intro r out
      by_cases hc : c = '/'
      · subst hc
        rw [adosLoop, if_pos rfl, if_pos rfl, ihs, comps_slash, dosText_nil_cons r (comps_ne_nil t)]
      · exact hread true r out [] not_mem_nil hc

theorem splitLastColon_eq_none (h : ':' ∉ t) : splitLastColon t = none := by
  induction t with
  | nil => rfl
  | cons c t ih =>
    rw [mem_cons, not_or] at h
    rw [splitLastColon, ih h.2]
    exact if_neg fun e => h.1 e.symm

/-- A process that neither is at the root nor uses AmigaDOS paths. -/
def ordinary : User := ⟨false, false⟩

/-- Does the translation look for a volume? -/
def rooted (u : User) (t : List Char) : Bool := u.isRoot || t.head? == some '/'

/-- **ix_to_ados, up to the end of its loop, is the text of the name's components.** -/
theorem adosBody_eq (u : User) (h : ':' ∉ t) : adosBody u t = dosText (rooted u t) (comps t) := by
  have hloop : ∀ q r, (r = true ∨ q.head? ≠ some '/') →
      (adosLoop false q ⟨[], true, 0, if r then 1 else 0, false⟩).out = dosText r (comps q) :=
    fun q r hr => (adosLoop_eq q).1 r [] [] not_mem_nil (.inr hr)
  cases hroot : u.isRoot with
  | true =>
    have hr : rooted u t := by simp [rooted, hroot]
    simp only [adosBody, hroot, Bool.true_eq_false, false_and, if_false, splitLastColon_eq_none h, hr]
    exact hloop t true (.inl rfl)
  | false =>
    cases t with
    | nil => simp [adosBody, hroot, splitLastColon, rooted, adosLoop, separate, flushDots, dosText,
        lastText, isName, dotdot]
    | cons c q =>
      by_cases hc : c = '/'
      · subst hc
        have hq : ':' ∉ q := fun hm => h (mem_cons_of_mem _ hm)
        have hr : rooted u ('/' :: q) := by simp [rooted]
        rw [hr, comps_slash, dosText_nil_cons true (comps_ne_nil q)]
        simp only [adosBody, hroot, head?_cons, tail_cons, and_self, if_true,
          splitLastColon_eq_none hq]
        exact hloop q true (.inl rfl)
      · have hr : rooted u (c :: q) = false := by simp [rooted, hroot, hc]
        have hh : (c :: q).head? ≠ some '/' := by simp [hc]
        simp only [adosBody, hroot, hh, and_false, if_false, splitLastColon_eq_none h, hr]
        exact hloop (c :: q) false (.inr hh)

/-! ## The end of ix_to_ados -/

theorem removeLonely_eq (h : ∀ pre c, t = pre ++ [c, '/'] → c = '/' ∨ c = ':') : removeLonely t = t := by
  unfold removeLonely
  split
  · rename_i c l hrev
    have hs : t = l.reverse ++ [c, '/'] := by
      rw [← reverse_reverse t, hrev]
      simp
    rw [if_neg]
    rintro ⟨-, h1, h2⟩
    rcases h l.reverse c hs with e | e
    · exact h1 e
    · exact h2 e
  · rfl

theorem deviceName_eq (hcon : t.map Char.toLower ≠ ['c', 'o', 'n', 's', 'o', 'l', 'e', ':'])
    (hdev : ∀ rest, t ≠ ['d', 'e', 'v'] ++ ':' :: rest) : deviceName t = t := by
  rw [deviceName, if_neg hcon, if_neg]
  intro htake
  refine hdev (t.drop 4) ?_
  have hsplit := take_append_drop 4 t
  rw [htake] at hsplit
  exact hsplit.symm

theorem eq_of_toLower {d : Char} (hd : d.toNat < 97) (h : c.toLower = d) : c = d := by
  unfold Char.toLower at h
  split at h
  · rename_i hup
    have hval := congrArg Char.toNat h
    have h1 : c.toNat ≥ 65 := hup.1
    have h2 : c.toNat ≤ 90 := hup.2
    simp at hval
    omega
  · exact h

theorem volume_unique {v v' x x' : List Char} (hv : ':' ∉ v) (hv' : ':' ∉ v')
    (h : v ++ ':' :: x = v' ++ ':' :: x') : v = v' := by
  have htake : ∀ y z : List Char, ':' ∉ y → (y ++ ':' :: z).takeWhile (· != ':') = y := by
    intro y z hy
    rw [takeWhile_append_of_pos (bne_of_not_mem hy)]
    simp
  have heq := congrArg (takeWhile (· != ':')) h
  rwa [htake v x hv, htake v' x' hv'] at heq

/-! ## u2a -/

/-- Inside a name, the loop copies. -/
theorem u2aLoop_copies (hw : '/' ∉ w) (t : List Char) : u2aLoop true (w ++ t) = w ++ u2aLoop true t := by
  induction w with
  | nil => rfl
  | cons c w ih =>
    rw [mem_cons, not_or] at hw
    have hb : (c != '/') := bne_iff_ne.mpr fun e => hw.1 e.symm
    rw [cons_append, u2aLoop, hb, ih hw.2, cons_append]

theorem u2aLoop_name (h : comps t = w :: ws) (hw : isName w) : u2aLoop false t = u2aLoop true t := by
  have hspecial : ∀ v vs, comps t = v :: vs → isName v = false → False := by
    intro v vs hv hname
    rw [h] at hv
    cases hv
    rw [hw] at hname
    cases hname
  cases t with
  | nil => rfl
  | cons c q =>
    have hc : c ≠ '/' := by
      rintro rfl
      exact hspecial [] (comps q) (comps_slash q) rfl
    have hb : (c != '/') := bne_iff_ne.mpr hc
    have hcopy : u2aLoop false (c :: q) = c :: u2aLoop true q := by
      refine u2aLoop.eq_8 c q ?_ ?_ ?_ ?_ ?_
      · rintro orig rfl rfl
        exact hspecial dotdot (comps orig) (comps_append (w := dotdot) (by decide) orig) rfl
      · rintro orig rfl rfl
        exact hspecial ['.'] (comps orig) (comps_append (w := ['.']) (by decide) orig) rfl
      · rintro rfl
        exact hc rfl
      · rintro rfl rfl
        exact hspecial dotdot [] (comps_of_not_mem (by decide)) rfl
      · rintro rfl rfl
        exact hspecial ['.'] [] (comps_of_not_mem (by decide)) rfl
    rw [hcopy, u2aLoop, hb]

/-- **The loop of u2a computes `dosText`** as well, with no volume to be found. -/
theorem u2aLoop_eq (t : List Char) : u2aLoop false t = dosText false (comps t) := by
  induction t using comps_induction with
  | last w hw =>
    have hws := comps_of_not_mem hw
    rw [hws]
    cases hname : isName w with
    | true =>
      have hcopy := u2aLoop_copies hw []
      rw [append_nil] at hcopy
      rw [u2aLoop_name hws hname, hcopy]
      simp [dosText, lastText, hname, u2aLoop]
    | false =>
      rcases not_isName_iff.mp hname with rfl | rfl | rfl
      · rfl
      · rfl
      · rfl
  | more w q hw ih =>
    have hws := comps_append hw q
    rw [hws, dosText_cons false w (comps_ne_nil q), Bool.false_and, ← ih]
    cases hname : isName w with
    | true =>
      rw [u2aLoop_name hws hname, u2aLoop_copies hw]
      simp [sepText, hname, u2aLoop]
    | false =>
      rcases not_isName_iff.mp hname with rfl | rfl | rfl
      · rfl
      · rfl
      · rfl

/-- A relative link text is translated as a whole, -/
theorem u2a_relative (hc : ':' ∉ t) (h : t.head? ≠ some '/') : u2a t = dosText false (comps t) := by
  rw [u2a, if_neg hc, if_neg h, u2aLoop_eq]

/-- while the first component of an absolute one is the volume, whatever it is. -/
theorem u2a_absolute (hc : ':' ∉ t) (h : t.head? = some '/') (hw : comps (t.dropWhile (· == '/')) = w :: ws) :
    u2a t = w ++ ':' :: dosText false ws := by
  rw [u2a, if_neg hc, if_pos h]
  dsimp only
  rw [takeWhile_of_comps hw]
  rcases dropWhile_of_comps hw with ⟨rfl, hq⟩ | ⟨q, hq, rfl⟩
  · rw [hq]
    rfl
  · rw [hq, tail_cons, u2aLoop_eq]

/-! ## a2u -/

/-- The Unix components of an AmigaDOS text that has been split at its slashes: one that is empty, and
not the last, is a parent. -/
def unixComps : List (List Char) → List (List Char)
  | [] => []
  | [w] => if w = [] then [] else [w]
  | w :: v :: ws => (if w = [] then dotdot else w) :: unixComps (v :: ws)

theorem unixComps_cons (w : List Char) (h : ws ≠ []) :
    unixComps (w :: ws) = (if w = [] then dotdot else w) :: unixComps ws := by
  obtain ⟨v, vs, rfl⟩ := exists_cons_of_ne_nil h
  rfl

/-- Every component with a slash before it. -/
def slashed (ws : List (List Char)) : List Char := ws.flatMap ('/' :: ·)

@[simp] theorem slashed_nil : slashed [] = [] := rfl

@[simp] theorem slashed_cons (w : List Char) (ws : List (List Char)) :
    slashed (w :: ws) = '/' :: (w ++ slashed ws) := rfl

theorem not_mem_a2uLoop (hslash : c ≠ '/') (hdot : c ≠ '.') (h : c ∉ t) : c ∉ a2uLoop r t := by
  fun_induction a2uLoop r t <;> simp_all

/-- A name is copied, behind a slash. -/
theorem a2uLoop_name (hw : '/' ∉ w) (hne : w ≠ []) (q : List Char) :
    a2uLoop false (w ++ q) = '/' :: (w ++ a2uLoop true q) := by
  have hcopy : ∀ v, '/' ∉ v → a2uLoop true (v ++ q) = v ++ a2uLoop true q := by
    intro v hv
    induction v with
    | nil => rfl
    | cons c v ih =>
      rw [mem_cons, not_or] at hv
      rw [cons_append, a2uLoop, if_neg (Ne.symm hv.1), if_pos rfl, ih hv.2, cons_append]
  obtain ⟨c, v, rfl⟩ := exists_cons_of_ne_nil hne
  rw [← hcopy _ hw]
  rw [mem_cons, not_or] at hw
  simp [a2uLoop, Ne.symm hw.1]

/-- **The loop of a2u writes the Unix components of the text**, each behind a slash. -/
theorem a2uLoop_eq (t : List Char) : a2uLoop false t = slashed (unixComps (comps t)) := by
  induction t using comps_induction with
  | last w hw =>
    rw [comps_of_not_mem hw]
    by_cases hne : w = []
    · subst hne
      rfl
    · have hstart := a2uLoop_name hw hne []
      rw [append_nil] at hstart
      rw [hstart]
      simp [unixComps, hne, a2uLoop]
  | more w q hw ih =>
    rw [comps_append hw, unixComps_cons w (comps_ne_nil q), slashed_cons, ← ih]
    by_cases hne : w = []
    · subst hne
      rfl
    · rw [if_neg hne, a2uLoop_name hw hne]
      rfl

theorem comps_slashed (hw : '/' ∉ w) (h : ∀ v ∈ ws, '/' ∉ v) : comps (w ++ slashed ws) = w :: ws := by
  induction ws generalizing w with
  | nil =>
    rw [slashed_nil, append_nil]
    exact comps_of_not_mem hw
  | cons v ws ih =>
    rw [slashed_cons, comps_append hw,
      ih (h v (mem_cons_self ..)) (fun x hx => h x (mem_cons_of_mem _ hx))]

end Ixemul.Path
