/-
# Ixemul.Lib.Siblings — families of doubly linked lists, seen from each node.

A record that hangs in a list of its owner stores a link to each of its two neighbours; the owner stores the
link to the newest entry, and entries whose owner is gone stay linked with nobody holding a head.  What
every node can say of its own neighbours (`Siblings`) is enough to get the lists back: from the head of an
owner, `next` visits exactly the entries of that owner, each once (`Siblings.dlist`).  Entries are taken
out, hung in at a head or brought in without an owner; owners come with an empty list and go leaving their
entries.
-/
import Ixemul.Lib.Links

namespace Ixemul.Lib

open Lib.Links
open Function

variable {ι ω : Type*}

/-- What each entry knows of its neighbours.  `own x` is the owner of the list that `x` hangs in, `none`
for the lists whose owner is gone; `age` counts up, so the entries of one list grow older along `next`. -/
structure Siblings (n : DLinks ι) (head : ω → Option ι) (own : ι → Option ω) (mem : ι → Prop)
    (headed : ω → Prop) (age : ι → Nat) (now : Nat) : Prop where
  next_spec : ∀ {x y}, mem x → n.next x = some y →
    mem y ∧ n.prev y = some x ∧ own y = own x ∧ age y < age x
  prev_spec : ∀ {x y}, mem x → n.prev x = some y → mem y ∧ n.next y = some x
  head_spec : ∀ {w x}, headed w → head w = some x → mem x ∧ own x = some w ∧ n.prev x = none
  top : ∀ {w x}, mem x → own x = some w → n.prev x = none → head w = some x
  owned : ∀ {w x}, mem x → own x = some w → headed w
  young : ∀ {x}, mem x → age x < now

namespace Siblings

variable {n n' : DLinks ι} {head head' : ω → Option ι} {own own' : ι → Option ω}
  {mem mem' : ι → Prop} {headed headed' : ω → Prop} {age : ι → Nat} {now : Nat} {x : ι} {w : ω}

theorem empty (n : DLinks ι) (head : ω → Option ι) (own : ι → Option ω) (age : ι → Nat) :
    Siblings n head own (fun _ => False) (fun _ => False) age 0 where
  next_spec h := h.elim
  prev_spec h := h.elim
  head_spec h := h.elim
  top h := h.elim
  owned h := h.elim
  young h := h.elim

/-! ## The lists -/

variable (hs : Siblings n head own mem headed age now)
include hs

theorem exists_chain (hx : mem x) :
    ∃ l, (pointer ι).Chain n.next (some x) l ∧ ∀ z ∈ l, mem z ∧ own z = own x := by
  -- the age of the entry falls at every link
  induction ha : age x using Nat.strongRecOn generalizing x with
  | ind a ih =>
    cases hn : n.next x with
    | none => exact ⟨[x], ⟨rfl, hn⟩, by simp [hx]⟩
    | some y =>
      obtain ⟨hy, -, hown, hage⟩ := hs.next_spec hx hn
      obtain ⟨l, hl, hmem⟩ := ih (age y) (by omega) hy rfl
      refine ⟨x :: l, ⟨rfl, by rwa [hn]⟩, ?_⟩
      intro z hz
      rcases List.mem_cons.mp hz with rfl | hz
      · exact ⟨hx, rfl⟩
      · exact ⟨(hmem z hz).1, (hmem z hz).2.trans hown⟩

theorem mem_chain {l : List ι}
    (hl : (pointer ι).Chain n.next (head w) l) (hx : mem x) (hw : own x = some w) : x ∈ l := by
  -- towards the head the entries get younger, up to the present
  induction ha : now - age x using Nat.strongRecOn generalizing x with
  | ind a ih =>
    cases hp : n.prev x with
    | none =>
      rw [hs.top hx hw hp] at hl
      cases l with
      | nil => cases hl
      | cons =>
        cases hl.1
        simp
    | some y =>
      obtain ⟨hy, hyx⟩ := hs.prev_spec hx hp
      obtain ⟨-, -, hown, hage⟩ := hs.next_spec hy hyx
      have hnow := hs.young hy
      have hyl : y ∈ l := ih (now - age y) (by omega) hy (hown.symm.trans hw) rfl
      exact hl.mem_of_next hyl hyx

/-- **The list of an owner.**  From its head, `next` visits exactly the entries of the owner, and `prev`
visits them backwards. -/
theorem dlist (hw : headed w) :
    ∃ l, DList n ⟨head w, (pointer ι).first l.reverse⟩ l ∧ ∀ x, x ∈ l ↔ mem x ∧ own x = some w := by
  cases hh : head w with
  | none =>
    refine ⟨[], ⟨rfl, rfl⟩, ?_⟩
    intro x
    refine ⟨fun h => by simp at h, ?_⟩
    rintro ⟨hx, hown⟩
    have hc : (pointer ι).Chain n.next (head w) [] := hh
    exact hs.mem_chain hc hx hown
  | some y =>
    obtain ⟨hy, hown, hprev⟩ := hs.head_spec hw hh
    obtain ⟨l, hl, hmem⟩ := hs.exists_chain hy
    cases l with
    | nil => cases hl
    | cons z l =>
      cases hl.1
      have hback := LinkType.Chain.backwards hl (m := [])
        (fun i hi j hij => (hs.next_spec (hmem i hi).1 hij).2.1) hprev
      rw [List.append_nil] at hback
      refine ⟨y :: l, ⟨hl, hback⟩, ?_⟩
      intro x
      constructor
      · intro hx
        exact ⟨(hmem x hx).1, (hmem x hx).2.trans hown⟩
      · rintro ⟨hx, hxw⟩
        exact hs.mem_chain (hh ▸ hl) hx hxw

/-! ## What is done to a family -/

/-- Taking the entry `x` out: its neighbours are linked to each other, and a head that named it moves on
to its elder. -/
theorem remove (hx : mem x)
    (hmem : ∀ z, mem' z ↔ mem z ∧ z ≠ x)
    (hnext : ∀ z, n.prev x = some z → n'.next z = n.next x)
    (hnext' : ∀ z, n.prev x ≠ some z → n'.next z = n.next z)
    (hprev : ∀ z, n.next x = some z → n'.prev z = n.prev x)
    (hprev' : ∀ z, n.next x ≠ some z → n'.prev z = n.prev z)
    (hhead : ∀ w, own x = some w → head w = some x → head' w = n.next x)
    (hhead' : ∀ w, headed w → ¬ (own x = some w ∧ head w = some x) → head' w = head w) :
    Siblings n' head' own mem' headed age now where
  next_spec := by
    intro a b ha hab
    obtain ⟨ha, hax⟩ := (hmem a).mp ha
    by_cases hpa : n.prev x = some a
    · -- `a` was next to `x` and is now next to the elder of `x`
      rw [hnext a hpa] at hab
      obtain ⟨-, hxa⟩ := hs.prev_spec hx hpa
      obtain ⟨-, -, ho, hlt⟩ := hs.next_spec ha hxa
      obtain ⟨hb, hbx, hob, hltb⟩ := hs.next_spec hx hab
      refine ⟨(hmem b).mpr ⟨hb, ?_⟩, by rw [hprev b hab, hpa], hob.trans ho, by omega⟩
      rintro rfl
      omega
    · rw [hnext' a hpa] at hab
      obtain ⟨hb, hba, hob, hlt⟩ := hs.next_spec ha hab
      have hbx : b ≠ x := by
        rintro rfl
        exact hpa hba
      have hxb : n.next x ≠ some b := by
        intro h
        exact hax (Option.some.inj ((hs.next_spec hx h).2.1.symm.trans hba)).symm
      exact ⟨(hmem b).mpr ⟨hb, hbx⟩, by rw [hprev' b hxb, hba], hob, hlt⟩
  prev_spec := by
    intro a b ha hab
    obtain ⟨ha, hax⟩ := (hmem a).mp ha
    by_cases hna : n.next x = some a
    · rw [hprev a hna] at hab
      obtain ⟨hb, hbx⟩ := hs.prev_spec hx hab
      refine ⟨(hmem b).mpr ⟨hb, ?_⟩, by rw [hnext b hab, hna]⟩
      rintro rfl
      exact absurd (hs.next_spec hx hbx).2.2.2 (by omega)
    · rw [hprev' a hna] at hab
      obtain ⟨hb, hba⟩ := hs.prev_spec ha hab
      have hbx : b ≠ x := by
        rintro rfl
        exact hna hba
      have hxb : n.prev x ≠ some b := by
        intro h
        exact hax (Option.some.inj (hba.symm.trans (hs.prev_spec hx h).2))
      exact ⟨(hmem b).mpr ⟨hb, hbx⟩, by rw [hnext' b hxb, hba]⟩
  head_spec := by
    intro w a hw ha
    by_cases hc : own x = some w ∧ head w = some x
    · rw [hhead w hc.1 hc.2] at ha
      obtain ⟨hmema, hprevx, howna, hlt⟩ := hs.next_spec hx ha
      refine ⟨(hmem a).mpr ⟨hmema, ?_⟩, howna.trans hc.1, ?_⟩
      · rintro rfl
        omega
      · rw [hprev a ha]
        exact (hs.head_spec hw hc.2).2.2
    · rw [hhead' w hw hc] at ha
      obtain ⟨hmema, howna, hprevx⟩ := hs.head_spec hw ha
      have hax : a ≠ x := by
        rintro rfl
        exact hc ⟨howna, ha⟩
      have hxa : n.next x ≠ some a := by
        intro h
        have := (hs.next_spec hx h).2.1
        rw [hprevx] at this
        cases this
      exact ⟨(hmem a).mpr ⟨hmema, hax⟩, howna, by rw [hprev' a hxa, hprevx]⟩
  top := by
    intro w a ha howna hpa
    obtain ⟨ha, hax⟩ := (hmem a).mp ha
    have hw := hs.owned ha howna
    by_cases hna : n.next x = some a
    · -- `x` was the head, and `a` takes its place
      rw [hprev a hna] at hpa
      have hownx : own x = some w := (hs.next_spec hx hna).2.2.1.symm.trans howna
      rw [hhead w hownx (hs.top hx hownx hpa), hna]
    · rw [hprev' a hna] at hpa
      have hha := hs.top ha howna hpa
      rw [hhead' w hw (fun hc => hax (Option.some.inj (hha.symm.trans hc.2)))]
      exact hha
  owned := by
    intro w a ha
    exact hs.owned ((hmem a).mp ha).1
  young := by
    intro a ha
    exact hs.young ((hmem a).mp ha).1

theorem young_update [DecidableEq ι]
    (hmem : ∀ z, mem' z ↔ mem z ∨ z = x) {a : ι} (ha : mem' a) :
    update age x now a < now + 1 := by
  rcases eq_or_ne a x with rfl | hax
  · rw [update_self]
    omega
  · rw [update_of_ne hax]
    have := hs.young (((hmem a).mp ha).resolve_right hax)
    omega

theorem add [DecidableEq ι] (hx : ¬ mem x)
    (hw : headed w) (hmem : ∀ z, mem' z ↔ mem z ∨ z = x)
    (hnextx : n'.next x = head w) (hprevx : n'.prev x = none)
    (hnext : ∀ z, z ≠ x → n'.next z = n.next z)
    (hprev : ∀ z, z ≠ x → head w = some z → n'.prev z = some x)
    (hprev' : ∀ z, z ≠ x → head w ≠ some z → n'.prev z = n.prev z)
    (hhead : head' w = some x) (hhead' : ∀ v, v ≠ w → head' v = head v)
    (hown : own' x = some w) (hown' : ∀ z, z ≠ x → own' z = own z) :
    Siblings n' head' own' mem' headed (update age x now) (now + 1) where
  next_spec := by
    intro a b ha hab
    by_cases hax : a = x
    · subst hax
      rw [hnextx] at hab
      obtain ⟨hb, howb, hpb⟩ := hs.head_spec hw hab
      have hbx : b ≠ a := fun e => hx (e ▸ hb)
      refine ⟨(hmem b).mpr (.inl hb), hprev b hbx hab, ?_, ?_⟩
      · rw [hown' b hbx, howb, hown]
      · rw [update_of_ne hbx, update_self]
        exact hs.young hb
    · have hma : mem a := ((hmem a).mp ha).resolve_right hax
      rw [hnext a hax] at hab
      obtain ⟨hb, hba, hob, hlt⟩ := hs.next_spec hma hab
      have hbx : b ≠ x := fun e => hx (e ▸ hb)
      have hnb : head w ≠ some b := by
        intro h
        rw [(hs.head_spec hw h).2.2] at hba
        cases hba
      refine ⟨(hmem b).mpr (.inl hb), by rw [hprev' b hbx hnb, hba], ?_, ?_⟩
      · rw [hown' b hbx, hown' a hax, hob]
      · rwa [update_of_ne hbx, update_of_ne hax]
  prev_spec := by
    intro a b ha hab
    by_cases hax : a = x
    · subst hax
      rw [hprevx] at hab
      cases hab
    · have hma : mem a := ((hmem a).mp ha).resolve_right hax
      by_cases hha : head w = some a
      · rw [hprev a hax hha] at hab
        cases hab
        exact ⟨(hmem x).mpr (.inr rfl), by rw [hnextx, hha]⟩
      · rw [hprev' a hax hha] at hab
        obtain ⟨hb, hba⟩ := hs.prev_spec hma hab
        have hbx : b ≠ x := fun e => hx (e ▸ hb)
        exact ⟨(hmem b).mpr (.inl hb), by rw [hnext b hbx, hba]⟩
  head_spec := by
    intro v a hv ha
    by_cases hvw : v = w
    · subst hvw
      rw [hhead] at ha
      cases ha
      exact ⟨(hmem x).mpr (.inr rfl), hown, hprevx⟩
    · rw [hhead' v hvw] at ha
      obtain ⟨hma, howa, hpa⟩ := hs.head_spec hv ha
      have hax : a ≠ x := fun e => hx (e ▸ hma)
      have hna : head w ≠ some a := by
        intro h
        exact hvw (Option.some.inj (howa.symm.trans (hs.head_spec hw h).2.1))
      exact ⟨(hmem a).mpr (.inl hma), by rw [hown' a hax, howa], by rw [hprev' a hax hna, hpa]⟩
  top := by
    intro v a ha howa hpa
    by_cases hax : a = x
    · subst hax
      rw [hown] at howa
      cases howa
      exact hhead
    · have hma : mem a := ((hmem a).mp ha).resolve_right hax
      rw [hown' a hax] at howa
      have hna : head w ≠ some a := by
        intro h
        rw [hprev a hax h] at hpa
        cases hpa
      rw [hprev' a hax hna] at hpa
      have hha := hs.top hma howa hpa
      have hvw : v ≠ w := by
        rintro rfl
        exact hna hha
      rw [hhead' v hvw, hha]
  owned := by
    intro v a ha howa
    by_cases hax : a = x
    · subst hax
      rw [hown] at howa
      cases howa
      exact hw
    · rw [hown' a hax] at howa
      exact hs.owned (((hmem a).mp ha).resolve_right hax) howa
  young := hs.young_update hmem

theorem addLone [DecidableEq ι] (hx : ¬ mem x)
    (hmem : ∀ z, mem' z ↔ mem z ∨ z = x) (hnext : n.next x = none) (hprev : n.prev x = none)
    (hown : own x = none) :
    Siblings n head own mem' headed (update age x now) (now + 1) where
  next_spec := by
    intro a b ha hab
    obtain ha | rfl := (hmem a).mp ha
    · obtain ⟨hb, hba, hob, hlt⟩ := hs.next_spec ha hab
      have hax : a ≠ x := fun e => hx (e ▸ ha)
      have hbx : b ≠ x := fun e => hx (e ▸ hb)
      refine ⟨(hmem b).mpr (.inl hb), hba, hob, ?_⟩
      rwa [update_of_ne hbx, update_of_ne hax]
    · rw [hnext] at hab
      cases hab
  prev_spec := by
    intro a b ha hab
    obtain ha | rfl := (hmem a).mp ha
    · exact ⟨(hmem b).mpr (.inl (hs.prev_spec ha hab).1), (hs.prev_spec ha hab).2⟩
    · rw [hprev] at hab
      cases hab
  head_spec := by
    intro w a hw ha
    exact ⟨(hmem a).mpr (.inl (hs.head_spec hw ha).1), (hs.head_spec hw ha).2⟩
  top := by
    intro w a ha howa hpa
    obtain ha | rfl := (hmem a).mp ha
    · exact hs.top ha howa hpa
    · rw [hown] at howa
      cases howa
  owned := by
    intro w a ha howa
    obtain ha | rfl := (hmem a).mp ha
    · exact hs.owned ha howa
    · rw [hown] at howa
      cases howa
  young := hs.young_update hmem

theorem addOwner
    (hnext : ∀ z, mem z → n'.next z = n.next z) (hprev : ∀ z, mem z → n'.prev z = n.prev z)
    (hown : ∀ z, mem z → own' z = own z) (hheaded : ∀ v, headed' v ↔ headed v ∨ v = w)
    (hhead : head' w = none) (hhead' : ∀ v, headed v → head' v = head v) :
    Siblings n' head' own' mem headed' age now where
  next_spec := by
    intro a b ha hab
    rw [hnext a ha] at hab
    obtain ⟨hb, hba, hob, hlt⟩ := hs.next_spec ha hab
    exact ⟨hb, by rw [hprev b hb, hba], by rw [hown a ha, hown b hb, hob], hlt⟩
  prev_spec := by
    intro a b ha hab
    rw [hprev a ha] at hab
    obtain ⟨hb, hba⟩ := hs.prev_spec ha hab
    exact ⟨hb, by rw [hnext b hb, hba]⟩
  head_spec := by
    intro v a hv ha
    obtain hv | rfl := (hheaded v).mp hv
    · rw [hhead' v hv] at ha
      obtain ⟨hma, howa, hpa⟩ := hs.head_spec hv ha
      exact ⟨hma, by rw [hown a hma, howa], by rw [hprev a hma, hpa]⟩
    · rw [hhead] at ha
      cases ha
  top := by
    intro v a ha howa hpa
    rw [hown a ha] at howa
    rw [hprev a ha] at hpa
    rw [hhead' v (hs.owned ha howa)]
    exact hs.top ha howa hpa
  owned := by
    intro v a ha howa
    rw [hown a ha] at howa
    exact (hheaded v).mpr (.inl (hs.owned ha howa))
  young := hs.young

theorem disown
    (hown : ∀ z, mem z → own z = some w → own' z = none)
    (hown' : ∀ z, mem z → own z ≠ some w → own' z = own z)
    (hheaded : ∀ v, headed' v ↔ headed v ∧ v ≠ w) (hhead : ∀ v, headed' v → head' v = head v) :
    Siblings n head' own' mem headed' age now := by
  have hkeep : ∀ {z v}, mem z → own' z = some v → own z = some v ∧ v ≠ w := by
    intro z v hz hzv
    by_cases hzw : own z = some w
    · rw [hown z hz hzw] at hzv
      cases hzv
    · rw [hown' z hz hzw] at hzv
      refine ⟨hzv, ?_⟩
      rintro rfl
      exact hzw hzv
  refine ⟨?_, hs.prev_spec, ?_, ?_, ?_, hs.young⟩
  · intro x y hx hxy
    obtain ⟨hy, hyx, hoyx, hlt⟩ := hs.next_spec hx hxy
    refine ⟨hy, hyx, ?_, hlt⟩
    by_cases hxw : own x = some w
    · rw [hown x hx hxw, hown y hy (hoyx.trans hxw)]
    · rw [hown' x hx hxw, hown' y hy (fun h => hxw (hoyx.symm.trans h)), hoyx]
  · intro v x hv hxv
    rw [hhead v hv] at hxv
    obtain ⟨hvh, hvw⟩ := (hheaded v).mp hv
    obtain ⟨hx, hox, hpx⟩ := hs.head_spec hvh hxv
    have hxw : own x ≠ some w := fun h => hvw (Option.some.inj (hox.symm.trans h))
    exact ⟨hx, by rw [hown' x hx hxw, hox], hpx⟩
  · intro v x hx hxv hpx
    obtain ⟨hov, hvw⟩ := hkeep hx hxv
    rw [hhead v ((hheaded v).mpr ⟨hs.owned hx hov, hvw⟩)]
    exact hs.top hx hov hpx
  · intro v x hx hxv
    obtain ⟨hov, hvw⟩ := hkeep hx hxv
    exact (hheaded v).mpr ⟨hs.owned hx hov, hvw⟩

end Siblings

end Ixemul.Lib
