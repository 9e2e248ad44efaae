/-
# Ixemul.Path.RoundTrip — a name that goes through two translators comes back.

Two round trips over the component form of the translators:

* AmigaDOS to Unix and back: `a2u` writes a parent as "/..", `ix_to_ados` counts the dots of it;
* Unix to AmigaDOS and back: `symlink` stores `u2a` of the text it is given, `readlink` returns `a2u` of
  what is stored, less a leading "./".
-/
import Ixemul.Path.Components
import Mathlib.Data.List.Basic

namespace Ixemul.Path

open List

variable {s t w : List Char} {ws : List (List Char)} {c : Char}

/-! ## From AmigaDOS to Unix and back -/

/-- The components of an AmigaDOS path, its volume among them. -/
def dosComps (s : List Char) : List (List Char) := s.splitOnP (fun c => c == '/' || c == ':')

/-- The paths that the translation to Unix and back keeps: relative, or below a volume. -/
structure PlainDos (s : List Char) : Prop where
  volume : ':' ∉ s ∨ ∃ vol rest, s = vol ++ ':' :: rest ∧ vol ≠ [] ∧ '/' ∉ vol ∧ ':' ∉ vol ∧ ':' ∉ rest ∧
    vol ≠ ['d', 'e', 'v'] ∧ vol.map Char.toLower ≠ ['c', 'o', 'n', 's', 'o', 'l', 'e']
  plain : ∀ w ∈ dosComps s, w ≠ ['.'] ∧ w ≠ dotdot
  lonely : ∀ pre c, s = pre ++ [c, '/'] → c = '/' ∨ c = ':'

theorem not_separator (hs : '/' ∉ w) (hc : ':' ∉ w) : ∀ x ∈ w, (x == '/' || x == ':') = false := by
  intro x hx
  simp [ne_of_mem_of_not_mem hx hs, ne_of_mem_of_not_mem hx hc]

theorem dosComps_of_no_colon (h : ':' ∉ t) : dosComps t = comps t := by
  induction t using comps_induction with
  | last w hw =>
    rw [comps_of_not_mem hw]
    exact splitOnP_eq_singleton (not_separator hw h)
  | more w q hw ih =>
    rw [mem_append, mem_cons, not_or, not_or] at h
    rw [comps_append hw, ← ih h.2.2]
    exact splitOnP_append_cons_of_forall_mem (not_separator hw h.1) '/' (by decide) q

theorem dosComps_volume (hs : '/' ∉ w) (hc : ':' ∉ w) (h : ':' ∉ t) :
    dosComps (w ++ ':' :: t) = w :: comps t := by
  rw [← dosComps_of_no_colon h]
  exact splitOnP_append_cons_of_forall_mem (not_separator hs hc) ':' (by decide) t

theorem unixComps_ne_nil (h : t ≠ []) : unixComps (comps t) ≠ [] := by
  obtain ⟨w, ws, hws⟩ := exists_cons_of_ne_nil (comps_ne_nil t)
  rw [hws]
  rcases eq_of_comps hws with ⟨rfl, rfl⟩ | ⟨q, rfl, rfl⟩
  · simp [unixComps, h]
  · rw [unixComps_cons w (comps_ne_nil q)]
    exact cons_ne_nil _ _

theorem slash_not_mem_of_mem_unixComps (h : w ∈ unixComps (comps t)) : '/' ∉ w := by
  induction t using comps_induction with
  | last v hv =>
    rw [comps_of_not_mem hv, unixComps] at h
    split at h
    · simp at h
    · rw [mem_singleton] at h
      rwa [h]
  | more v q hv ih =>
    rw [comps_append hv, unixComps_cons v (comps_ne_nil q), mem_cons] at h
    rcases h with rfl | h
    · split
      · decide
      · exact hv
    · exact ih h

/-- **The text of the Unix components of a text is the text**: the component form of the round trip. -/
theorem dosText_unixComps (hplain : ∀ w ∈ comps t, w ≠ ['.'] ∧ w ≠ dotdot)
    (hend : ∀ pre c, t = pre ++ [c, '/'] → c = '/') : dosText false (unixComps (comps t)) = t := by
  have hname : ∀ w ∈ comps t, w ≠ [] → isName w := by
    intro w hw hne
    simp [isName, hne, hplain w hw]
  clear hplain
  induction t using comps_induction with
  | last w hw =>
    rw [comps_of_not_mem hw] at hname ⊢
    by_cases hne : w = []
    · subst hne
      rfl
    · have hn := hname w (mem_cons_self ..) hne
      simp [unixComps, hne, dosText, lastText, hn]
  | more w q hw ih =>
    rw [comps_append hw] at hname ⊢
    rw [unixComps_cons w (comps_ne_nil q)]
    by_cases hq : q = []
    · subst hq
      by_cases hne : w = []
      · subst hne
        rfl
      · -- a name with nothing but a slash behind it
        obtain ⟨v, c, rfl⟩ := (eq_nil_or_concat' w).resolve_left hne
        have hc := hend v c (by simp)
        subst hc
        exact absurd (by simp) hw
    · have hrest : dosText false (unixComps (comps q)) = q := by
        refine ih (fun pre c e => hend (w ++ '/' :: pre) c ?_)
          (fun v hv => hname v (mem_cons_of_mem _ hv))
        rw [e]
        simp
      rw [dosText_cons false _ (unixComps_ne_nil hq), Bool.false_and, hrest]
      by_cases hne : w = []
      · subst hne
        rfl
      · have hn := hname w (mem_cons_self ..) hne
        simp [hne, sepText, hn]

theorem dosText_dot_cons (ws : List (List Char)) : dosText false (['.'] :: ws) = dosText false ws := by
  cases ws with
  | nil | cons => rfl

theorem a2u_volume (hc : ':' ∉ w) (rest : List Char) :
    a2u (w ++ ':' :: rest) = '/' :: (w ++ a2uLoop false rest) := by
  have hall := bne_of_not_mem hc
  rw [a2u, takeWhile_append_of_pos hall, dropWhile_append_of_pos hall]
  simp

theorem PlainDos.end_slash {v r : List Char} (hs : PlainDos (v ++ r)) (hc : ':' ∉ r) :
    ∀ pre c, r = pre ++ [c, '/'] → c = '/' := by
  intro pre c e
  refine (hs.lonely (v ++ pre) c (by rw [e]; simp)).resolve_right fun hcol => hc ?_
  rw [e, hcol]
  simp

theorem colon_not_mem_toLower (hc : ':' ∉ s) : ':' ∉ s.map Char.toLower := by
  intro hm
  obtain ⟨c, hcs, hlow⟩ := mem_map.mp hm
  exact hc (eq_of_toLower (by decide) hlow ▸ hcs)

theorem PlainDos.restored_relative (hs : PlainDos s) (hc : ':' ∉ s) :
    adosBody ordinary (a2u s) = s ∧ deviceName s = s := by
  have hplain : ∀ w ∈ comps s, w ≠ ['.'] ∧ w ≠ dotdot := by
    rw [← dosComps_of_no_colon hc]
    exact hs.plain
  have hend := PlainDos.end_slash (v := []) hs hc
  have hcolon : ':' ∉ a2u s := by
    rw [a2u, if_neg hc, mem_cons, not_or]
    exact ⟨by decide, not_mem_a2uLoop (by decide) (by decide) hc⟩
  constructor
  · rw [adosBody_eq ordinary hcolon, a2u, if_neg hc, a2uLoop_eq]
    show dosText false (comps (['.'] ++ slashed (unixComps (comps s)))) = s
    rw [comps_slashed (by decide) (fun v hv => slash_not_mem_of_mem_unixComps hv), dosText_dot_cons,
      dosText_unixComps hplain hend]
  · refine deviceName_eq (fun hmap => ?_) (fun rest e => hc (by rw [e]; simp))
    exact colon_not_mem_toLower hc (by rw [hmap]; decide)

theorem PlainDos.restored_volume {vol rest : List Char} (hs : PlainDos (vol ++ ':' :: rest))
    (hne : vol ≠ []) (hslash : '/' ∉ vol) (hcv : ':' ∉ vol) (hcr : ':' ∉ rest)
    (hdev : vol ≠ ['d', 'e', 'v'])
    (hcon : vol.map Char.toLower ≠ ['c', 'o', 'n', 's', 'o', 'l', 'e']) :
    adosBody ordinary (a2u (vol ++ ':' :: rest)) = vol ++ ':' :: rest ∧
      deviceName (vol ++ ':' :: rest) = vol ++ ':' :: rest := by
  have hparts := hs.plain
  rw [dosComps_volume hslash hcv hcr] at hparts
  have hvol : isName vol := by
    simp [isName, hne, hparts vol (mem_cons_self ..)]
  have hend := PlainDos.end_slash (v := vol ++ [':']) (by simpa using hs) hcr
  have hcolon : ':' ∉ '/' :: (vol ++ a2uLoop false rest) := by
    rw [mem_cons, mem_append, not_or, not_or]
    exact ⟨by decide, hcv, not_mem_a2uLoop (by decide) (by decide) hcr⟩
  constructor
  · rw [a2u_volume hcv, adosBody_eq ordinary hcolon, a2uLoop_eq]
    show dosText true (comps ('/' :: (vol ++ slashed (unixComps (comps rest))))) = _
    rw [comps_slash, dosText_nil_cons true (comps_ne_nil _),
      comps_slashed hslash (fun v hv => slash_not_mem_of_mem_unixComps hv), dosText_volume hvol,
      dosText_unixComps (fun w hw => hparts w (mem_cons_of_mem _ hw)) hend]
  · refine deviceName_eq (fun hmap => ?_) (fun r e => hdev (volume_unique hcv (by decide) e))
    rw [map_append] at hmap
    exact hcon (volume_unique (colon_not_mem_toLower hcv) (by decide) hmap)

/-- **ix_to_ados inverts a2u**, leading and repeated slashes included. -/
theorem ixToAdos_a2u (s : List Char) (hs : PlainDos s) : ixToAdos ordinary (a2u s) = s := by
  have hbody : adosBody ordinary (a2u s) = s ∧ deviceName s = s := by
    rcases hs.volume with hc | ⟨vol, rest, rfl, hne, hslash, hcv, hcr, hdev, hcon⟩
    · exact hs.restored_relative hc
    · exact hs.restored_volume hne hslash hcv hcr hdev hcon
  show deviceName (removeLonely (adosBody ordinary (a2u s))) = s
  rw [hbody.1, removeLonely_eq hs.lonely, hbody.2]

/-- "w:/a//b": a volume, its parent, a name, a parent and a name. -/
theorem ixToAdos_a2u_parents :
    PlainDos ['w', ':', '/', 'a', '/', '/', 'b'] ∧
      ixToAdos ordinary (a2u ['w', ':', '/', 'a', '/', '/', 'b']) = ['w', ':', '/', 'a', '/', '/', 'b'] := by
  have hs : PlainDos ['w', ':', '/', 'a', '/', '/', 'b'] := by
    refine ⟨.inr ⟨['w'], ['/', 'a', '/', '/', 'b'], rfl, ?_⟩, by decide, fun pre c e => ?_⟩
    · decide
    · have hlast := congrArg getLast? e
      simp at hlast
  exact ⟨hs, ixToAdos_a2u _ hs⟩

/-! ## From Unix to AmigaDOS and back -/

/-- The link texts that are read back as they were written. -/
structure PlainLink (t : List Char) : Prop where
  nonempty : t ≠ []
  colon : ':' ∉ t
  full : t = ['/'] ∨ ∀ w ∈ comps (if t.head? = some '/' then t.tail else t), w ≠ []
  nodot : ∀ w ∈ comps t, w ≠ ['.']

theorem a2uLoop_dosText (h : ∀ w ∈ ws, w ≠ [] ∧ w ≠ ['.'] ∧ '/' ∉ w) :
    a2uLoop false (dosText false ws) = slashed ws := by
  induction ws with
  | nil => rfl
  | cons w ws ih =>
    obtain ⟨hne, hdot, hslash⟩ := h w (mem_cons_self ..)
    have hrest := ih fun v hv => h v (mem_cons_of_mem _ hv)
    by_cases hdd : w = dotdot
    · subst hdd
      cases ws with
      | nil => rfl
      | cons => rw [slashed_cons, ← hrest]; rfl
    · have hname : isName w := by simp [isName, hne, hdot, hdd]
      cases ws with
      | nil =>
        have hstart := a2uLoop_name hslash hne []
        rw [append_nil] at hstart
        simp [dosText, lastText, hname, hstart, a2uLoop]
      | cons v ws =>
        rw [dosText_cons false w (cons_ne_nil _ _), slashed_cons, ← hrest, Bool.false_and]
        have hsep : sepText false w ++ dosText false (v :: ws) = w ++ '/' :: dosText false (v :: ws) := by
          simp [sepText, hname]
        rw [hsep, a2uLoop_name hslash hne]
        rfl

theorem not_mem_dosText (hc : c ≠ '/') (h : ∀ w ∈ ws, c ∉ w) : c ∉ dosText false ws := by
  have hlast (w : List Char) (hw : c ∉ w) : c ∉ lastText false w := by
    unfold lastText
    split_ifs <;> simp_all
  have hsep (w : List Char) (hw : c ∉ w) : c ∉ sepText false w := by
    unfold sepText
    split_ifs <;> simp_all
  induction ws with
  | nil => exact not_mem_nil
  | cons w ws ih =>
    rw [forall_mem_cons] at h
    cases ws with
    | nil => exact hlast w h.1
    | cons =>
      rw [dosText_cons false w (cons_ne_nil _ _), mem_append, not_or]
      exact ⟨hsep w h.1, ih h.2⟩

theorem length_dosText_le (ws : List (List Char)) (hne : ws ≠ []) :
    (dosText false ws).length + 1 ≤ (slashed ws).length := by
  have hlast (w : List Char) : (lastText false w).length ≤ w.length := by
    unfold lastText
    split_ifs <;> simp_all [dotdot]
  have hsep (w : List Char) : (sepText false w).length ≤ w.length + 1 := by
    unfold sepText
    split_ifs <;> simp
  induction ws with
  | nil => exact absurd rfl hne
  | cons w ws ih =>
    cases ws with
    | nil => simpa [dosText] using hlast w
    | cons =>
      have hrest := ih (cons_ne_nil _ _)
      rw [dosText_cons false w (cons_ne_nil _ _), Bool.false_and, slashed_cons]
      have hw := hsep w
      simp only [length_append, length_cons]
      omega

theorem eq_slashed (h : comps t = w :: ws) : t = w ++ slashed ws := by
  induction ws generalizing t w with
  | nil =>
    rcases eq_of_comps h with ⟨-, rfl⟩ | ⟨q, -, hq⟩
    · simp
    · exact absurd hq (comps_ne_nil q)
  | cons v ws ih =>
    rcases eq_of_comps h with ⟨hnil, -⟩ | ⟨q, rfl, hq⟩
    · cases hnil
    · rw [ih hq, slashed_cons]

theorem readlink_target (u : User) (fs : LinkFs) (path dest text : List Char) (bufsiz : Nat)
    (hfs : fs.target (ixToAdos u path) = some dest) (hne : text ≠ []) (hbuf : text.length < bufsiz)
    (hlen : dest.length ≤ text.length)
    (htext : (if (a2u dest).take 2 = ['.', '/'] then (a2u dest).drop 2 else a2u dest) = text) :
    readlink u fs path bufsiz = .ok (text, text.length) := by
  have hpos : text.length > 0 := length_pos_iff.mpr hne
  rw [readlink, hfs]
  dsimp only
  rw [if_pos (by omega), htext, if_pos hbuf, if_pos hpos, take_length]

/-- What is stored for the target of a link is no longer than it, and is read back as it was. -/
def ReadsBack (t : List Char) : Prop :=
  (u2a t).length ≤ t.length ∧
    (if (a2u (u2a t)).take 2 = ['.', '/'] then (a2u (u2a t)).drop 2 else a2u (u2a t)) = t

theorem PlainLink.readsBack_absolute (ht : PlainLink t) (habs : t.head? = some '/') : ReadsBack t := by
  obtain ⟨t1, rfl⟩ : ∃ t1, t = '/' :: t1 := head?_eq_some_iff.mp habs
  obtain ⟨w, ws, hws⟩ := exists_cons_of_ne_nil (comps_ne_nil t1)
  have hfull := ht.full
  rw [if_pos habs, tail_cons, hws] at hfull
  have hnodot := ht.nodot
  rw [comps_slash, hws] at hnodot
  have hin : ∀ v ∈ w :: ws, '/' ∉ v := by
    intro v hv
    exact slash_not_mem_of_mem_comps (by rw [hws]; exact hv)
  have hwhole := eq_slashed hws
  -- only "/" itself has an empty component behind the first slash
  have htail : ∀ v ∈ ws, v ≠ [] := by
    rcases hfull with h1 | h1
    · cases h1
      cases hws
      exact fun v hv => absurd hv not_mem_nil
    · exact fun v hv => h1 v (mem_cons_of_mem _ hv)
  have hdrop : ('/' :: t1).dropWhile (· == '/') = t1 := by
    cases t1 with
    | nil => rfl
    | cons c =>
      have hc : c ≠ '/' := by
        rintro rfl
        cases hws
        simp at hfull
      simp [hc]
  have hu2a : u2a ('/' :: t1) = w ++ ':' :: dosText false ws := by
    refine u2a_absolute ht.colon habs ?_
    rw [hdrop, hws]
  have hcw : ':' ∉ w := by
    intro hm
    refine ht.colon (mem_cons_of_mem _ ?_)
    rw [hwhole]
    exact mem_append_left _ hm
  have ha2u : a2u (u2a ('/' :: t1)) = '/' :: t1 := by
    rw [hu2a, a2u_volume hcw, a2uLoop_dosText, ← hwhole]
    intro v hv
    have hv' : v ∈ w :: ws := mem_cons_of_mem _ hv
    exact ⟨htail v hv, hnodot v (mem_cons_of_mem _ hv'), hin v hv'⟩
  rw [ReadsBack, ha2u]
  constructor
  · rw [hu2a, hwhole]
    simp only [length_append, length_cons]
    rcases ws with _ | ⟨v, vs⟩
    · simp [dosText]
    · have hl := length_dosText_le (v :: vs) (cons_ne_nil _ _)
      omega
  · rw [if_neg]
    intro h
    cases t1 <;> simp at h

theorem PlainLink.readsBack_relative (ht : PlainLink t) (habs : t.head? ≠ some '/') : ReadsBack t := by
  obtain ⟨w, ws, hws⟩ := exists_cons_of_ne_nil (comps_ne_nil t)
  have hfull : ∀ v ∈ comps t, v ≠ [] := by
    rcases ht.full with h1 | h1
    · exact absurd (by rw [h1]; rfl) habs
    · rwa [if_neg habs] at h1
  have hu2a := u2a_relative ht.colon habs
  have hcolon : ':' ∉ dosText false (comps t) :=
    not_mem_dosText (by decide) fun v hv hcv => ht.colon (mem_of_mem_comps hv hcv)
  have ha2u : a2u (u2a t) = '.' :: '/' :: t := by
    rw [hu2a, a2u, if_neg hcolon, a2uLoop_dosText, hws, slashed_cons, ← eq_slashed hws]
    exact fun v hv => ⟨hfull v hv, ht.nodot v hv, slash_not_mem_of_mem_comps hv⟩
  rw [ReadsBack, ha2u]
  constructor
  · have hl := length_dosText_le (comps t) (comps_ne_nil t)
    have hwhole := congrArg length (eq_slashed hws)
    rw [hu2a]
    rw [hws, slashed_cons] at hl
    simp only [length_append, length_cons] at hl hwhole
    rw [hws]
    omega
  · exact if_pos rfl

/-- **What symlink stores, readlink returns**, for every text with full components. -/
theorem readlink_symlink (u : User) (fs : LinkFs) (t new : List Char) (bufsiz : Nat) (ht : PlainLink t)
    (hnew : new ≠ []) (hbuf : t.length < bufsiz) :
    ∃ fs', symlink u fs t new = .ok fs' ∧ readlink u fs' new bufsiz = .ok (t, t.length) := by
  have hsym : symlink u fs t new =
      .ok ⟨fun name => if name = ixToAdos u new then some (u2a t) else fs.target name⟩ := by
    rw [symlink, if_neg]
    rintro (h | h)
    · exact ht.nonempty h
    · exact hnew h
  refine ⟨_, hsym, ?_⟩
  have hback : ReadsBack t := by
    by_cases habs : t.head? = some '/'
    · exact ht.readsBack_absolute habs
    · exact ht.readsBack_relative habs
  exact readlink_target u _ new (u2a t) t bufsiz (if_pos rfl) ht.nonempty hbuf hback.1 hback.2

/-- A link "l" to "../a/b", read back into a buffer of eight characters. -/
theorem readlink_symlink_parent :
    ∃ fs', symlink ordinary ⟨fun _ => none⟩ ['.', '.', '/', 'a', '/', 'b'] ['l'] = .ok fs' ∧
      readlink ordinary fs' ['l'] 8 = .ok (['.', '.', '/', 'a', '/', 'b'], 6) :=
  readlink_symlink ordinary ⟨fun _ => none⟩ ['.', '.', '/', 'a', '/', 'b'] ['l'] 8
    ⟨by decide, by decide, .inr (by decide), by decide⟩ (by decide) (by decide)

end Ixemul.Path
