/-
# Ixemul.Path.Spelling — one object, many spellings, two translators.

A Unix name may repeat slashes, have "." components and end in "/" or "/.".  The text that the translators
write depends on the components that say something and on ONE more bit, whether the last component is one of
those (`dosText_canonical`).  That bit leaves at most a slash at the end of the text, and `ix_to_ados`
removes a lonely slash from the end, but only behind at least two characters.
-/
import Ixemul.Path.Components
import Mathlib.Data.List.Basic

namespace Ixemul.Path

open List

variable {t w : List Char} {ws : List (List Char)} {r : Bool}

/-! ## The components that say something -/

/-- A component that is neither empty nor ".". -/
def isSignificant (w : List Char) : Bool := w != [] && w != ['.']

/-- The components of a name, those that say nothing dropped. -/
def significant (t : List Char) : List (List Char) := (comps t).filter isSignificant

/-- Is the last component of a name one that says something? -/
def endsFull (t : List Char) : Bool := (comps t).getLast?.any isSignificant

theorem isSignificant_iff : isSignificant w ↔ isName w ∨ w = dotdot := by
  by_cases h : w = dotdot
  · subst h
    decide
  · simp [isSignificant, isName, h]

theorem not_isSignificant_iff : isSignificant w = false ↔ w = [] ∨ w = ['.'] := by
  simp only [isSignificant, Bool.and_eq_false_iff, bne_eq_false_iff_eq]

/-- A component that says nothing contributes nothing before another one, -/
theorem dosText_skip (hw : isSignificant w = false) (h : ws ≠ []) : dosText r (w :: ws) = dosText r ws := by
  rw [dosText_cons r w h]
  rcases not_isSignificant_iff.mp hw with rfl | rfl <;> simp [sepText, isName, dotdot]

/-- and no more than an empty one at the end. -/
theorem lastText_skip (hw : isSignificant w = false) : lastText r w = lastText r [] := by
  rcases not_isSignificant_iff.mp hw with rfl | rfl <;> simp [lastText, isName, dotdot]

/-- The list of components that stands for all spellings of a name with the same end. -/
def canonical (ws : List (List Char)) : List (List Char) :=
  if ws.getLast?.any isSignificant then ws.filter isSignificant else ws.filter isSignificant ++ [[]]

theorem canonical_single (w : List Char) : canonical [w] = if isSignificant w then [w] else [[]] := by
  cases hw : isSignificant w <;> simp [canonical, hw]

theorem canonical_cons (w : List Char) (h : ws ≠ []) :
    canonical (w :: ws) = if isSignificant w then w :: canonical ws else canonical ws := by
  obtain ⟨v, vs, rfl⟩ := exists_cons_of_ne_nil h
  have hfilter : (w :: v :: vs).filter isSignificant =
      if isSignificant w then w :: (v :: vs).filter isSignificant else (v :: vs).filter isSignificant :=
    filter_cons
  unfold canonical
  rw [getLast?_cons_cons, hfilter]
  cases isSignificant w <;> cases (v :: vs).getLast?.any isSignificant <;> rfl

theorem canonical_ne_nil (ws : List (List Char)) : canonical ws ≠ [] := by
  unfold canonical
  split
  next h =>
    obtain ⟨w, hlast, hw⟩ := Option.any_eq_true _ _ |>.mp h
    exact ne_nil_of_mem (mem_filter.mpr ⟨mem_of_getLast? hlast, hw⟩)
  next => exact concat_ne_nil _ _

/-- **The text depends on the components that say something and on the last one being one of them.** -/
theorem dosText_canonical (r : Bool) (h : ws ≠ []) : dosText r ws = dosText r (canonical ws) := by
  induction ws generalizing r with
  | nil => exact absurd rfl h
  | cons w ws ih =>
    cases ws with
    | nil =>
      rw [canonical_single]
      cases hw : isSignificant w with
      | true => rfl
      | false => exact lastText_skip hw
    | cons v ws =>
      have hvs : v :: ws ≠ [] := cons_ne_nil _ _
      rw [canonical_cons w hvs]
      cases hw : isSignificant w with
      | true =>
        rw [if_pos rfl, dosText_cons r w hvs, dosText_cons r w (canonical_ne_nil _),
          ih (r && !isName w) hvs]
      | false => rw [if_neg Bool.false_ne_true, dosText_skip hw hvs, ih r hvs]

theorem canonical_comps (t : List Char) :
    canonical (comps t) = if endsFull t then significant t else significant t ++ [[]] := rfl

theorem mem_significant (h : w ∈ significant t) : isSignificant w ∧ w ∈ comps t :=
  (mem_filter.mp h).symm

/-! ## The end of the text -/

/-- What the components before the last one contribute. -/
def leadText : Bool → List (List Char) → List Char
  | _, [] => []
  | r, w :: ws => sepText r w ++ leadText (r && !isName w) ws

theorem dosText_append (r : Bool) (ns : List (List Char)) (h : ws ≠ []) :
    dosText r (ns ++ ws) = leadText r ns ++ dosText (r && !ns.any isName) ws := by
  induction ns generalizing r with
  | nil => simp [leadText]
  | cons w ns ih =>
    have hne : ns ++ ws ≠ [] := append_ne_nil_of_right_ne_nil ns h
    rw [cons_append, dosText_cons r w hne, ih, leadText, append_assoc, any_cons,
      Bool.not_or, Bool.and_assoc]

theorem leadText_length (h : (ws.any isName)) : (leadText r ws).length ≥ 2 := by
  induction ws generalizing r with
  | nil => cases h
  | cons w ws ih =>
    rw [leadText, length_append]
    cases hw : isName w with
    | true =>
      have hpos : w.length > 0 := by
        refine length_pos_iff.mpr ?_
        rintro rfl
        cases hw
      simp only [sepText, hw, if_true, length_append, length_singleton]
      omega
    | false =>
      rw [any_cons, hw] at h
      have hl := ih (r := r && !isName w) h
      rw [hw] at hl
      omega

theorem leadText_eq_nil (hws : ∀ w ∈ ws, isSignificant w) (h : leadText false ws = []) : ws = [] := by
  cases ws with
  | nil => rfl
  | cons w =>
    rw [leadText] at h
    rcases isSignificant_iff.mp (hws w (mem_cons_self ..)) with hname | rfl
    · simp [sepText, hname] at h
    · simp [sepText, dotdot, isName] at h

/-- An empty component behind the last one leaves a slash if the last one is a name, and not the volume, -/
theorem dosText_end_name (hname : isName w) (ns : List (List Char))
    (hr : (r && !ns.any isName) = false) :
    dosText r (ns ++ [w]) = leadText r ns ++ w ∧
      dosText r (ns ++ [w] ++ [[]]) = leadText r ns ++ w ++ ['/'] := by
  rw [append_assoc, dosText_append r ns (by simp), dosText_append r ns (by simp), hr]
  simp [dosText, lastText, sepText, hname, dotdot]

/-- and otherwise nothing. -/
theorem dosText_end_same (hw : isSignificant w) (ns : List (List Char))
    (h : isName w → (r && !ns.any isName)) :
    dosText r (ns ++ [w] ++ [[]]) = dosText r (ns ++ [w]) := by
  rw [append_assoc, dosText_append r ns (by simp), dosText_append r ns (by simp)]
  rcases isSignificant_iff.mp hw with hname | rfl
  · rw [h hname]
    simp [dosText, lastText, sepText, hname, dotdot]
  · cases r && !ns.any isName <;> rfl

theorem removeLonely_concat {c : Char} (h1 : c ≠ '/') (h2 : c ≠ ':') (b : List Char) :
    removeLonely (b ++ [c] ++ ['/']) = if b = [] then [c, '/'] else b ++ [c] := by
  have hrev : (b ++ [c] ++ ['/']).reverse = '/' :: c :: b.reverse := by simp
  unfold removeLonely
  rw [hrev]
  cases b with
  | nil => simp
  | cons x b =>
    have hlen : (x :: b ++ [c] ++ ['/']).length > 2 := by simp
    exact (if_pos ⟨hlen, h1, h2⟩).trans dropLast_concat

theorem removeLonely_name {c : Char} (h1 : c ≠ '/') (b : List Char) : removeLonely (b ++ [c]) = b ++ [c] := by
  refine removeLonely_eq fun pre x e => ?_
  have hlast := congrArg getLast? e
  simp at hlast
  exact absurd hlast h1

/-- **Once a lonely slash is removed the end no longer shows**, but behind a single character. -/
theorem removeLonely_ends_iff (r : Bool) (ns : List (List Char)) (hne : ns ≠ [])
    (hns : ∀ w ∈ ns, isSignificant w ∧ '/' ∉ w ∧ ':' ∉ w) :
    removeLonely (dosText r (ns ++ [[]])) = removeLonely (dosText r ns) ↔
      ¬ (r = false ∧ ∃ c, ns = [[c]]) := by
  obtain ⟨ms, w, rfl⟩ := (eq_nil_or_concat' ns).resolve_left hne
  obtain ⟨hw, hslash, hcolon⟩ := hns w (by simp)
  by_cases hcase : isName w ∧ (r && !ms.any isName) = false
  · obtain ⟨hname, hr⟩ := hcase
    obtain ⟨htext, hfull⟩ := dosText_end_name hname ms hr
    -- the last character of the name decides what is removed
    obtain ⟨v, c, rfl⟩ : ∃ v c, w = v ++ [c] := by
      refine (eq_nil_or_concat' w).resolve_left ?_
      rintro rfl
      cases hname
    have h1 : c ≠ '/' := fun e => hslash (by rw [e]; simp)
    have h2 : c ≠ ':' := fun e => hcolon (by rw [e]; simp)
    rw [htext, hfull, ← append_assoc, removeLonely_concat h1 h2, removeLonely_name h1]
    by_cases hshort : leadText r ms ++ v = []
    · rw [hshort]
      refine iff_of_false (by simp) fun hn => hn ?_
      obtain ⟨hlead, rfl⟩ := append_eq_nil_iff.mp hshort
      have hnone : ms.any isName = false := by
        cases hany : ms.any isName with
        | false => rfl
        | true =>
          have hl := leadText_length (r := r) hany
          rw [hlead] at hl
          cases hl
      have hrf : r = false := by
        rw [hnone] at hr
        simpa using hr
      subst hrf
      refine ⟨rfl, c, ?_⟩
      rw [leadText_eq_nil (fun x hx => (hns x (mem_append_left _ hx)).1) hlead]
      rfl
    · rw [if_neg hshort]
      refine iff_of_true rfl ?_
      rintro ⟨-, x, hx⟩
      refine hshort ?_
      cases ms with
      | nil => cases v <;> simp_all [leadText]
      | cons => simp at hx
  · rw [dosText_end_same hw ms (fun hname => ?_)]
    · refine iff_of_true rfl ?_
      rintro ⟨rfl, c, hc⟩
      have hnot : isName w = false := by
        cases hname : isName w with
        | false => rfl
        | true => exact absurd ⟨hname, Bool.false_and _⟩ hcase
      rcases isSignificant_iff.mp hw with hname | rfl
      · rw [hnot] at hname
        cases hname
      · have hlast := congrArg getLast? hc
        simp [dotdot] at hlast
    · cases hr : r && !ms.any isName with
      | true => rfl
      | false => exact absurd ⟨hname, hr⟩ hcase

/-! ## Spellings -/

theorem deviceName_short (h : t.length < 4) : deviceName t = t := by
  refine deviceName_eq (fun e => ?_) fun rest e => ?_
  · have hl := congrArg length e
    simp at hl
    omega
  · rw [e] at h
    simp at h
    omega

/-- **Two spellings of a name are translated alike, but for relative names of one character**, where a
slash at the end is kept. -/
theorem ixToAdos_spelling_iff (u : User) (t t' : List Char) (hu : u.useAmigaPaths = false)
    (hc : ':' ∉ t) (hc' : ':' ∉ t') (habs : t.head? = some '/' ↔ t'.head? = some '/')
    (heq : significant t = significant t') (hne : significant t ≠ []) :
    ixToAdos u t = ixToAdos u t' ↔
      ¬ (u.isRoot = false ∧ t.head? ≠ some '/' ∧ (∃ c, significant t = [[c]]) ∧
        endsFull t ≠ endsFull t') := by
  have hbody : ∀ s, ':' ∉ s → ixToAdos u s =
      deviceName (removeLonely (dosText (rooted u s) (canonical (comps s)))) := by
    intro s hs
    rw [ixToAdos, hu, if_neg Bool.false_ne_true, adosBody_eq u hs, dosText_canonical _ (comps_ne_nil s)]
  have hroot : rooted u t = rooted u t' := by
    have hb : (t.head? == some '/') = (t'.head? == some '/') := by
      rw [Bool.eq_iff_iff, beq_iff_eq, beq_iff_eq]
      exact habs
    rw [rooted, rooted, hb]
  have hrel : rooted u t = false ↔ u.isRoot = false ∧ t.head? ≠ some '/' := by
    rw [rooted, Bool.or_eq_false_iff, beq_eq_false_iff_ne]
  have hsig : ∀ w ∈ significant t, isSignificant w ∧ '/' ∉ w ∧ ':' ∉ w := by
    intro w hw
    obtain ⟨h1, h2⟩ := mem_significant hw
    exact ⟨h1, slash_not_mem_of_mem_comps h2, fun hm => hc (mem_of_mem_comps h2 hm)⟩
  rw [hbody t hc, hbody t' hc', canonical_comps, canonical_comps, ← hroot, ← heq]
  by_cases hends : endsFull t = endsFull t'
  · -- the same components and the same end
    rw [hends]
    exact iff_of_true rfl fun h => h.2.2.2 rfl
  · have hswap : (deviceName (removeLonely (dosText (rooted u t)
          (if endsFull t then significant t else significant t ++ [[]]))) =
        deviceName (removeLonely (dosText (rooted u t)
          (if endsFull t' then significant t else significant t ++ [[]])))) ↔
        deviceName (removeLonely (dosText (rooted u t) (significant t ++ [[]]))) =
          deviceName (removeLonely (dosText (rooted u t) (significant t))) := by
      cases h1 : endsFull t <;> cases h2 : endsFull t'
      · exact absurd (h1.trans h2.symm) hends
      · rfl
      · exact eq_comm
      · exact absurd (h1.trans h2.symm) hends
    rw [hswap]
    have hiff := removeLonely_ends_iff (rooted u t) (significant t) hne hsig
    by_cases hbad : rooted u t = false ∧ ∃ c, significant t = [[c]]
    · obtain ⟨hr, c, hcs⟩ := hbad
      refine iff_of_false (fun h => ?_) fun h => h ⟨(hrel.mp hr).1, (hrel.mp hr).2, ⟨c, hcs⟩, hends⟩
      -- "c" and "c/" are both left as they are
      obtain ⟨hw, -⟩ := hsig [c] (by rw [hcs]; simp)
      have hname : isName [c] := by
        rcases isSignificant_iff.mp hw with hn | hn
        · exact hn
        · cases hn
      have hlong : removeLonely (dosText false ([[c]] ++ [[]])) = [c, '/'] := by
        simp [dosText, lastText, sepText, hname, dotdot, removeLonely]
      have hshort : removeLonely (dosText false [[c]]) = [c] := by
        simp [dosText, lastText, hname, removeLonely]
      rw [hcs, hr, hlong, hshort, deviceName_short (by simp), deviceName_short (by simp)] at h
      cases h
    · rw [hiff.mpr hbad]
      exact iff_of_true rfl fun h => hbad ⟨hrel.mpr ⟨h.1, h.2.1⟩, h.2.2.1⟩

/-- "a" and "a/", relative: one is translated to "a", the other to "a/". -/
theorem ixToAdos_spelling_short :
    significant ['a'] = significant ['a', '/'] ∧ significant ['a'] ≠ [] ∧
      ixToAdos ordinary ['a'] = ['a'] ∧ ixToAdos ordinary ['a', '/'] = ['a', '/'] := by
  decide

/-- "a//b" and "./a/b/." are the same name. -/
theorem ixToAdos_spelling_slashes :
    ixToAdos ordinary ['a', '/', '/', 'b'] = ixToAdos ordinary ['.', '/', 'a', '/', 'b', '/', '.'] := by
  refine (ixToAdos_spelling_iff ordinary ['a', '/', '/', 'b'] ['.', '/', 'a', '/', 'b', '/', '.'] rfl
    (by decide) (by decide) (by decide) (by decide) (by decide)).mpr ?_
  rintro ⟨-, -, ⟨c, hc⟩, -⟩
  have hlen : (significant ['a', '/', '/', 'b']).length = 2 := by decide
  rw [hc] at hlen
  cases hlen

/-! ## The two translators -/

/-- Equal up to one slash at the end. -/
def SameUpToSlash (a b : List Char) : Prop := a = b ∨ a = b ++ ['/'] ∨ b = a ++ ['/']

/-- The device names that `ix_to_ados` puts in place of a translated name. -/
def specialNames : List (List Char) :=
  [['*'], ['N', 'I', 'L', ':'], ['R', 'A', 'N', 'D', 'O', 'M', ':'], ['Z', 'E', 'R', 'O', ':']]

/-- The first component behind the slashes a name starts with. -/
def firstComp (t : List Char) : List Char := (t.dropWhile (· == '/')).takeWhile (· != '/')

theorem deviceName_cases (b : List Char) : deviceName b = b ∨ deviceName b ∈ specialNames := by
  fun_cases deviceName b with
  | case6 | case7 => exact .inl rfl
  | _ => exact .inr (by decide)

theorem removeLonely_cases (b : List Char) : removeLonely b = b ∨ b = removeLonely b ++ ['/'] := by
  unfold removeLonely
  split
  · rename_i c l hrev
    split
    · right
      have hb : b = l.reverse ++ [c] ++ ['/'] := by
        rw [← reverse_reverse b, hrev]
        simp
      rw [hb, dropLast_concat]
    · exact .inl rfl
  · exact .inl rfl

theorem dosText_dropSlashes (t : List Char) :
    dosText true (comps t) = dosText true (comps (t.dropWhile (· == '/'))) := by
  induction t with
  | nil => rfl
  | cons c t ih =>
    by_cases hc : c = '/'
    · subst hc
      rw [comps_slash, dosText_nil_cons true (comps_ne_nil t), ih]
      rfl
    · have hb : (c == '/') = false := beq_eq_false_iff_ne.mpr hc
      rw [dropWhile_cons_of_neg (by simp [hb])]

theorem dosText_true_form (hne : ws ≠ []) (hc : ∀ w ∈ ws, ':' ∉ w) :
    ∃ v y, dosText true ws = v ++ ':' :: y ∧ ':' ∉ v ∧ (v = [] ∨ isName v) := by
  induction ws with
  | nil => exact absurd rfl hne
  | cons w ws ih =>
    cases hname : isName w with
    | true => exact ⟨w, _, dosText_volume hname ws, hc w (mem_cons_self ..), .inr hname⟩
    | false =>
      cases ws with
      | nil =>
        refine ⟨[], [], ?_, not_mem_nil, .inl rfl⟩
        simp [dosText, lastText, hname]
      | cons v ws =>
        have hskip : dosText true (w :: v :: ws) = dosText true (v :: ws) := by
          rw [dosText_cons true w (cons_ne_nil _ _), hname]
          simp [sepText, hname]
        rw [hskip]
        exact ih (cons_ne_nil _ _) fun x hx => hc x (mem_cons_of_mem _ hx)

theorem removeLonely_volume (v y : List Char) : ∃ y', removeLonely (v ++ ':' :: y) = v ++ ':' :: y' := by
  rcases removeLonely_cases (v ++ ':' :: y) with h | h
  · exact ⟨y, h⟩
  · rcases eq_nil_or_concat' y with rfl | ⟨z, c, rfl⟩
    · have hlast := congrArg getLast? h
      simp at hlast
    · refine ⟨z, ?_⟩
      have hassoc : v ++ ':' :: (z ++ [c]) = v ++ ':' :: z ++ [c] := by simp
      exact (append_inj_left' (hassoc.symm.trans h) rfl).symm

theorem SameUpToSlash.volume_eq {v v' x x' : List Char} (hv : ':' ∉ v) (hv' : ':' ∉ v')
    (h : SameUpToSlash (v ++ ':' :: x) (v' ++ ':' :: x')) : v = v' := by
  rcases h with h | h | h
  · exact volume_unique hv hv' h
  · rw [append_assoc] at h
    exact volume_unique hv hv' h
  · rw [append_assoc] at h
    exact (volume_unique hv' hv h).symm

theorem sameUpToSlash_removeLonely (b : List Char) : SameUpToSlash b (removeLonely b) := by
  rcases removeLonely_cases b with h | h
  · exact .inl h.symm
  · exact .inr (.inl h)

/-- **The two translators agree up to a slash at the end, unless an absolute name starts with "." or
"..".** -/
theorem u2a_agrees_iff (t : List Char) (hc : ':' ∉ t) (hspecial : ixToAdos ordinary t ∉ specialNames) :
    SameUpToSlash (u2a t) (ixToAdos ordinary t) ↔
      ¬ (t.head? = some '/' ∧ (firstComp t = ['.'] ∨ firstComp t = dotdot)) := by
  have hix : ixToAdos ordinary t = removeLonely (dosText (rooted ordinary t) (comps t)) := by
    have hdef : ixToAdos ordinary t = deviceName (removeLonely (adosBody ordinary t)) := rfl
    rw [adosBody_eq ordinary hc] at hdef
    rcases deviceName_cases (removeLonely (dosText (rooted ordinary t) (comps t))) with h | h
    · rw [hdef, h]
    · rw [hdef] at hspecial
      exact absurd h hspecial
  rw [hix]
  by_cases habs : t.head? = some '/'
  · have hroot : rooted ordinary t := by simp [rooted, habs]
    obtain ⟨w, ws, hws⟩ := exists_cons_of_ne_nil (comps_ne_nil (t.dropWhile (· == '/')))
    have hfirst : firstComp t = w := takeWhile_of_comps hws
    have hcolon : ∀ v ∈ w :: ws, ':' ∉ v := by
      intro v hv hm
      rw [← hws] at hv
      exact hc ((dropWhile_sublist _).subset (mem_of_mem_comps hv hm))
    rw [hroot, dosText_dropSlashes, hws, u2a_absolute hc habs hws, hfirst]
    by_cases hdots : w = ['.'] ∨ w = dotdot
    · -- one takes the dots for the volume, the other looks for a name behind them
      refine iff_of_false (fun hsame => ?_) fun h => h ⟨habs, hdots⟩
      obtain ⟨v, y, htext, hv, hform⟩ := dosText_true_form (cons_ne_nil w ws) hcolon
      obtain ⟨y', hy⟩ := removeLonely_volume v y
      rw [htext, hy] at hsame
      have hwv := hsame.volume_eq (hcolon w (mem_cons_self ..)) hv
      subst hwv
      rcases hdots with rfl | rfl <;> rcases hform with h | h <;> cases h
    · refine iff_of_true ?_ (fun h => hdots h.2)
      cases hname : isName w with
      | true =>
        rw [dosText_volume hname]
        exact sameUpToSlash_removeLonely _
      | false =>
        -- nothing but slashes
        have hnil : w = [] := by
          rcases not_isName_iff.mp hname with h | h | h
          · exact h
          · exact absurd (.inl h) hdots
          · exact absurd (.inr h) hdots
        subst hnil
        have hlast : ws = [] := by
          rcases eq_of_comps hws with ⟨h, -⟩ | ⟨q, hq, -⟩
          · exact h
          · have hhead := head?_dropWhile_not (· == '/') t
            rw [hq] at hhead
            simp at hhead
        subst hlast
        exact .inl rfl
  · have hroot : rooted ordinary t = false := by simp [rooted, habs, ordinary]
    rw [hroot, u2a_relative hc habs]
    exact iff_of_true (sameUpToSlash_removeLonely _) fun h => habs h.1

/-- "/./a": a link to it is stored as ".:a", while the name itself is "a:". -/
theorem u2a_differs_dot :
    ixToAdos ordinary ['/', '.', '/', 'a'] ∉ specialNames ∧
      u2a ['/', '.', '/', 'a'] = ['.', ':', 'a'] ∧ ixToAdos ordinary ['/', '.', '/', 'a'] = ['a', ':'] := by
  decide

/-- "/a//../b/": the two texts differ in the slash at the end. -/
theorem u2a_agrees_parent :
    SameUpToSlash (u2a ['/', 'a', '/', '/', '.', '.', '/', 'b', '/'])
      (ixToAdos ordinary ['/', 'a', '/', '/', '.', '.', '/', 'b', '/']) := by
  refine (u2a_agrees_iff ['/', 'a', '/', '/', '.', '.', '/', 'b', '/'] (by decide) (by decide)).mpr ?_
  decide

end Ixemul.Path
