/-
# Ixemul.IxList — the library's doubly linked lists (`library/list.c`).

`struct ixlist` is a head and a tail, `struct ixnode` a next and a prev link; the nodes live inside
other records and are named by their address.  The functions below are the ones of `list.c`, as they
rewrite links; each refines the corresponding operation on the SEQUENCE of nodes, and leaves every
node that is not on the list alone (`AgreeOff`), so that other lists over the same memory survive.
-/
import Ixemul.Lib.Links
import Ixemul.Lib.Run

namespace Ixemul.IxList

open Lib.Links Lib.Run
open List Function

variable {ι : Type*} [DecidableEq ι]

/-! ## The functions of `list.c` -/

/-- `node->next = v`. -/
def setNext (n : DLinks ι) (node : ι) (v : Option ι) : DLinks ι :=
  { n with next := Function.update n.next node v }

/-- `node->prev = v`. -/
def setPrev (n : DLinks ι) (node : ι) (v : Option ι) : DLinks ι :=
  { n with prev := Function.update n.prev node v }

def ixnewlist : DEnds ι := ⟨none, none⟩

def ixremove (n : DLinks ι) (list : DEnds ι) : Option ι → DLinks ι × DEnds ι
  | none => (n, list)
  | some node =>
    let r := match n.prev node with
      | some p => (setNext n p (n.next node), list)
      | none => (n, { list with head := n.next node })
    match r.1.next node with
    | some q => (setPrev r.1 q (r.1.prev node), r.2)
    | none => (r.1, { r.2 with tail := r.1.prev node })

def ixremhead (n : DLinks ι) (list : DEnds ι) : Option ι × DLinks ι × DEnds ι :=
  (list.head, ixremove n list list.head)

def ixinsert (n : DLinks ι) (list : DEnds ι) : Option ι → Option ι → DLinks ι × DEnds ι
  | none, _ => (n, list)
  | some node, after =>
    let r := match after with
      | some a =>
        let n := setPrev n node (some a)
        let n := setNext n node (n.next a)
        (setNext n a (some node), list)
      | none => (setPrev (setNext n node list.head) node none, { list with head := some node })
    match r.1.next node with
    | some q => (setPrev r.1 q (some node), r.2)
    | none => (r.1, { r.2 with tail := some node })

def ixaddhead (n : DLinks ι) (list : DEnds ι) (node : Option ι) : DLinks ι × DEnds ι :=
  ixinsert n list node none

def ixaddtail (n : DLinks ι) (list : DEnds ι) (node : Option ι) : DLinks ι × DEnds ι :=
  ixinsert n list node list.tail

/-! ## Refinement of sequences -/

/-- The links of the nodes outside `l` are the same in `n` and `n'`. -/
def AgreeOff (n n' : DLinks ι) (l : List ι) : Prop :=
  ∀ i, i ∉ l → n'.next i = n.next i ∧ n'.prev i = n.prev i

variable {n n' : DLinks ι} {e : DEnds ι} {l m : List ι} {x : ι}

omit [DecidableEq ι] in
theorem AgreeOff.dlist (ha : AgreeOff n n' l) (hd : DList n e m) (hlm : l.Disjoint m) : DList n' e m :=
  hd.congr (fun i hi => (ha i (fun hl => hlm hl hi)).1) (fun i hi => (ha i (fun hl => hlm hl hi)).2)

/-! ### Removal

The proofs look at a list from one of its nodes: `m.reverse ++ x :: l` is the list whose node `x` has
the nodes `m` before it, nearest first, and the nodes `l` behind it. -/

theorem ixremove_eq (hd : DList n e (m.reverse ++ x :: l)) :
    ixremove n e (some x) = match m, l with
      | [], [] => (n, ⟨none, none⟩)
      | [], q :: _ => (setPrev n q none, ⟨some q, e.tail⟩)
      | p :: _, [] => (setNext n p none, ⟨e.head, some p⟩)
      | p :: _, q :: _ => (setPrev (setNext n p (some q)) q (some p), e) := by
  have hp := hd.prev_eq
  have hn := hd.next_eq
  cases m with
  | nil =>
    cases l with
    | nil | cons => simp_all [ixremove, LinkType.first, pointer]
  | cons p =>
    have hpx : x ≠ p := by
      rintro rfl
      exact (nodup_append.mp hd.nodup).2.2 x (by simp) x (by simp) rfl
    cases l with
    | nil | cons => simp_all [ixremove, LinkType.first, pointer, setNext]

theorem ixremove_dlist (hd : DList n e (m ++ x :: l)) :
    DList (ixremove n e (some x)).1 (ixremove n e (some x)).2 (m ++ l) := by
  obtain ⟨m, rfl⟩ : ∃ m', m = m'.reverse := ⟨m.reverse, (reverse_reverse m).symm⟩
  have hf := hd.fwd
  have hb := hd.bwd
  have hn := hd.next_eq
  have hp := hd.prev_eq
  simp only [reverse_append, reverse_cons, reverse_reverse, append_assoc,
    cons_append, nil_append] at hb
  rw [ixremove_eq hd]
  cases m with
  | nil =>
    cases l with
    | nil => exact DList.empty n
    | cons =>
      -- the node was the first one: its successor becomes the head
      refine ⟨?_, ?_⟩
      · have hf2 := hf.2
        rw [hn] at hf2
        exact hf2
      · simp only [reverse_cons, append_assoc, cons_append, nil_append] at hb
        have hu := hb.unlink
        rw [hp] at hu
        simpa [setPrev, pointer, LinkType.first] using hu
  | cons =>
    simp only [reverse_cons, append_assoc, cons_append, nil_append] at hf hb
    have hu := hf.unlink
    rw [hn] at hu
    cases l with
    | nil =>
      -- the node was the last one: its predecessor becomes the tail
      refine ⟨?_, ?_⟩
      · simpa [setNext, pointer, LinkType.first] using hu
      · have hb2 := hb.2
        rw [hp] at hb2
        simpa [setNext, pointer, LinkType.first] using hb2
    | cons =>
      refine ⟨?_, ?_⟩
      · simpa [setNext, setPrev, pointer, LinkType.first] using hu
      · simp only [reverse_cons, append_assoc, cons_append, nil_append] at hb
        have hv := hb.unlink
        rw [hp] at hv
        simpa [setNext, setPrev, pointer, LinkType.first] using hv

theorem ixremove_agreeOff (hd : DList n e (m ++ x :: l)) :
    AgreeOff n (ixremove n e (some x)).1 (m ++ x :: l) := by
  obtain ⟨m, rfl⟩ : ∃ m', m = m'.reverse := ⟨m.reverse, (reverse_reverse m).symm⟩
  intro i hi
  have hne : ∀ q ∈ m.reverse ++ x :: l, i ≠ q := fun q hq h => hi (h ▸ hq)
  rw [ixremove_eq hd]
  cases m with
  | nil | cons =>
    cases l with
    | nil | cons => simp_all [setNext, setPrev]

theorem ixremhead_nil (hd : DList n e ([] : List ι)) : ixremhead n e = (none, n, e) := by
  have hh : e.head = none := hd.head_eq
  simp [ixremhead, ixremove, hh]

theorem ixremhead_cons (hd : DList n e (x :: l)) : ixremhead n e = (some x, ixremove n e (some x)) := by
  have hh : e.head = some x := hd.head_eq
  simp [ixremhead, hh]

/-! ### Insertion -/

section

variable (hd : DList n e (m.reverse ++ l)) (hx : x ∉ m.reverse ++ l)
include hd hx

theorem ixinsert_eq :
    ixinsert n e (some x) m.head? = match m, l with
      | [], [] => (setPrev (setNext n x none) x none, ⟨some x, some x⟩)
      | [], q :: _ => (setPrev (setPrev (setNext n x (some q)) x none) q (some x), ⟨some x, e.tail⟩)
      | p :: _, [] => (setNext (setNext (setPrev n x (some p)) x none) p (some x), ⟨e.head, some x⟩)
      | p :: _, q :: _ =>
        (setPrev (setNext (setNext (setPrev n x (some p)) x (some q)) p (some x)) q (some x), e) := by
  cases m with
  | nil =>
    have hh := hd.head_eq
    cases l with
    | nil | cons => simp_all [ixinsert, setNext, setPrev, LinkType.first, pointer]
  | cons p m =>
    have hpx : x ≠ p := fun h => hx (by simp [h])
    have hd' : DList n e (m.reverse ++ p :: l) := by simpa using hd
    have hn := hd'.next_eq
    cases l with
    | nil | cons => simp_all [ixinsert, setNext, setPrev, LinkType.first, pointer]

theorem ixinsert_dlist :
    DList (ixinsert n e (some x) m.head?).1 (ixinsert n e (some x) m.head?).2
      (m.reverse ++ x :: l) := by
  have hf := hd.fwd
  have hb := hd.bwd
  have hxl : x ∉ l.reverse ++ m := by simpa [or_comm] using hx
  simp only [reverse_append, reverse_reverse] at hb
  rw [ixinsert_eq hd hx]
  refine ⟨?_, ?_⟩
  · -- forwards: the new node is hooked in behind the nearest node of `m`
    cases m with
    | nil =>
      have hf' := hf.update_off hx e.head
      have hh := hd.head_eq
      cases l with
      | nil => simp [setNext, setPrev, pointer]
      | cons => simp_all [setNext, setPrev, pointer, LinkType.first]
    | cons =>
      simp only [reverse_cons, append_assoc, cons_append, nil_append] at hf hx
      have hn := hf.next_eq
      have hi := hf.insertAfter hx
      rw [hn] at hi
      cases l with
      | nil | cons => simpa [setNext, setPrev, pointer, LinkType.first] using hi
  · -- backwards: behind the nearest node of `l`
    cases l with
    | nil =>
      have hb' := hb.update_off hxl e.tail
      have ht := hd.tail_eq
      cases m with
      | nil => simp [setNext, setPrev, pointer]
      | cons => simp_all [setNext, setPrev, pointer, LinkType.first]
    | cons =>
      simp only [reverse_cons, append_assoc, cons_append, nil_append] at hb hxl
      have hn := hb.next_eq
      have hi := hb.insertAfter hxl
      rw [hn] at hi
      cases m with
      | nil | cons => simpa [setNext, setPrev, pointer, LinkType.first] using hi

theorem ixinsert_agreeOff :
    AgreeOff n (ixinsert n e (some x) m.head?).1 (m.reverse ++ x :: l) := by
  intro i hi
  have hne : ∀ q ∈ m.reverse ++ x :: l, i ≠ q := fun q hq h => hi (h ▸ hq)
  rw [ixinsert_eq hd hx]
  cases m with
  | nil | cons =>
    cases l with
    | nil | cons => simp_all [setNext, setPrev]

end

theorem ixaddhead_dlist (hd : DList n e l) (hx : x ∉ l) :
    DList (ixaddhead n e (some x)).1 (ixaddhead n e (some x)).2 (x :: l) :=
  ixinsert_dlist (m := []) hd hx

theorem ixaddhead_agreeOff (hd : DList n e l) (hx : x ∉ l) : AgreeOff n (ixaddhead n e (some x)).1 (x :: l) :=
  ixinsert_agreeOff (m := []) hd hx

/-! ## Families of lists -/

section Family

variable {κ : Type*} [DecidableEq κ]

/-- The links of all nodes, and the ends of every list. -/
structure Lists (κ ι : Type*) where
  links : DLinks ι
  ends : κ → DEnds ι

variable {h : Lists κ ι} {seq : κ → List ι} {k : κ}

/-- The lists are well linked and share no nodes; `seq` gives the nodes of each in order. -/
structure Represents (h : Lists κ ι) (seq : κ → List ι) : Prop where
  dlist : ∀ k, DList h.links (h.ends k) (seq k)
  disjoint : ∀ k k', k ≠ k' → (seq k).Disjoint (seq k')

inductive Op (κ ι : Type*) where
  | newlist (k : κ)
  | addhead (k : κ) (x : ι)
  | addtail (k : κ) (x : ι)
  | insert (k : κ) (x : ι) (after : Option ι)
  | remove (k : κ) (x : ι)
  | remhead (k : κ)

def Lists.put (h : Lists κ ι) (k : κ) (r : DLinks ι × DEnds ι) : Lists κ ι :=
  ⟨r.1, update h.ends k r.2⟩

/-- What a call returns, and what it leaves. -/
def Op.run (h : Lists κ ι) : Op κ ι → Option ι × Lists κ ι
  | .newlist k => (none, h.put k (h.links, ixnewlist))
  | .addhead k x => (none, h.put k (ixaddhead h.links (h.ends k) (some x)))
  | .addtail k x => (none, h.put k (ixaddtail h.links (h.ends k) (some x)))
  | .insert k x after => (none, h.put k (ixinsert h.links (h.ends k) (some x) after))
  | .remove k x => (none, h.put k (ixremove h.links (h.ends k) (some x)))
  | .remhead k => ((ixremhead h.links (h.ends k)).1, h.put k (ixremhead h.links (h.ends k)).2)

def insertAfter (x a : ι) : List ι → List ι
  | [] => []
  | b :: l => if b = a then b :: x :: l else b :: insertAfter x a l

/-- The same on sequences: one of them changes. -/
def Op.spec (seq : κ → List ι) : Op κ ι → Option ι × (κ → List ι)
  | .newlist k => (none, update seq k [])
  | .addhead k x | .insert k x none => (none, update seq k (x :: seq k))
  | .addtail k x => (none, update seq k (seq k ++ [x]))
  | .insert k x (some a) => (none, update seq k (insertAfter x a (seq k)))
  | .remove k x => (none, update seq k ((seq k).erase x))
  | .remhead k => ((seq k).head?, update seq k (seq k).tail)

/-- What is added is on no list; what is removed, or followed, is a member. -/
def Op.Allowed (seq : κ → List ι) : Op κ ι → Prop
  | .addhead _ x | .addtail _ x | .insert _ x none => ∀ k, x ∉ seq k
  | .insert k x (some a) => (∀ k, x ∉ seq k) ∧ a ∈ seq k
  | .remove k x => x ∈ seq k
  | .newlist _ | .remhead _ => True

/-- The lists and their sequences, side by side. -/
def Step (s : Lists κ ι × (κ → List ι)) (op : Op κ ι) (t : Lists κ ι × (κ → List ι)) : Prop :=
  op.Allowed s.2 ∧ t = ((op.run s.1).2, (op.spec s.2).2)

theorem insertAfter_append {a : ι} (ha : a ∉ m) : insertAfter x a (m ++ a :: l) = m ++ a :: x :: l := by
  induction m with
  | nil => simp [insertAfter]
  | cons b m ih =>
    rw [mem_cons, not_or] at ha
    rw [cons_append, insertAfter, if_neg (Ne.symm ha.1), ih ha.2, cons_append]

omit [DecidableEq ι] in
/-- Only the nodes of `m`, which are on no other list, have been written to. -/
theorem Represents.put (hr : Represents h seq) {r : DLinks ι × DEnds ι} (hd : DList r.1 r.2 l)
    (ha : AgreeOff h.links r.1 m) (hsub : l ⊆ m) (hm : ∀ k', k' ≠ k → m.Disjoint (seq k')) :
    Represents (h.put k r) (update seq k l) := by
  have hl : ∀ k', k' ≠ k → l.Disjoint (seq k') := fun k' hk _ hy hy' => hm k' hk (hsub hy) hy'
  constructor
  · intro k'
    by_cases hk : k' = k
    · subst hk
      simpa [Lists.put] using hd
    · simpa [Lists.put, hk] using ha.dlist (hr.dlist k') (hm k' hk)
  · intro k₁ k₂ hne
    by_cases h₁ : k₁ = k
    · subst h₁
      simpa [Ne.symm hne] using hl k₂ (Ne.symm hne)
    · by_cases h₂ : k₂ = k
      · subst h₂
        simpa [h₁] using disjoint_comm.mp (hl k₁ h₁)
      · simpa [h₁, h₂] using hr.disjoint k₁ k₂ hne

theorem Represents.ixinsert (hr : Represents h seq) (hl : seq k = m.reverse ++ l) (hx : ∀ k, x ∉ seq k) :
    Represents (h.put k (ixinsert h.links (h.ends k) (some x) m.head?))
      (update seq k (m.reverse ++ x :: l)) := by
  have hd := hr.dlist k
  have hxk := hx k
  rw [hl] at hd hxk
  refine hr.put (ixinsert_dlist hd hxk) (ixinsert_agreeOff hd hxk) (Subset.refl _) fun k' hk y hy hy' => ?_
  have hmem : y = x ∨ y ∈ seq k := by
    rw [hl]
    simpa [or_left_comm] using hy
  rcases hmem with rfl | hmem
  · exact hx k' hy'
  · exact hr.disjoint k k' (Ne.symm hk) hmem hy'

theorem Represents.ixremove (hr : Represents h seq) (hl : seq k = m ++ x :: l) :
    Represents (h.put k (ixremove h.links (h.ends k) (some x))) (update seq k (m ++ l)) := by
  have hd := hr.dlist k
  rw [hl] at hd
  refine hr.put (ixremove_dlist hd) (ixremove_agreeOff hd) (by simp) fun k' hk => ?_
  rw [← hl]
  exact hr.disjoint k k' (Ne.symm hk)

theorem Represents.step (hr : Represents h seq) {op : Op κ ι} (hop : op.Allowed seq) :
    (op.run h).1 = (op.spec seq).1 ∧ Represents (op.run h).2 (op.spec seq).2 := by
  cases op with
  | newlist k =>
    have hsame : AgreeOff h.links h.links [] := fun _ _ => ⟨rfl, rfl⟩
    exact ⟨rfl, hr.put (DList.empty _) hsame (Subset.refl _) fun _ _ => disjoint_nil_left _⟩
  | addhead k x => exact ⟨rfl, hr.ixinsert (m := []) rfl hop⟩
  | addtail k x =>
    have hins := hr.ixinsert (k := k) (m := (seq k).reverse) (l := []) (by simp) hop
    have htail : (h.ends k).tail = (seq k).reverse.head? := by
      rw [(hr.dlist k).tail_eq]
      cases (seq k).reverse <;> rfl
    rw [← htail, reverse_reverse] at hins
    exact ⟨rfl, hins⟩
  | insert k x after =>
    cases after with
    | none => exact ⟨rfl, hr.ixinsert (m := []) rfl hop⟩
    | some a =>
      obtain ⟨hx, ha⟩ := hop
      obtain ⟨m, l, hl, hnot⟩ := eq_append_cons_of_mem ha
      have hins := hr.ixinsert (k := k) (m := a :: m.reverse) (l := l) (by simp [hl]) hx
      simpa [Op.run, Op.spec, hl, insertAfter_append hnot] using hins
  | remove k x =>
    obtain ⟨m, l, hl, hnot⟩ := eq_append_cons_of_mem hop
    simpa [Op.run, Op.spec, hl, erase_append_right _ hnot] using hr.ixremove hl
  | remhead k =>
    have hd := hr.dlist k
    cases hl : seq k with
    | nil =>
      rw [hl] at hd
      have hsame : update seq k [] = seq := by rw [← hl, update_eq_self]
      simpa [Op.run, Op.spec, ixremhead_nil hd, hl, Lists.put, hsame] using hr
    | cons x l =>
      rw [hl] at hd
      have hrem := hr.ixremove (m := []) hl
      simpa [Op.run, Op.spec, ixremhead_cons hd, hl] using hrem

/-- **The operations refine sequences**: whatever calls are made on a family of lists, its lists stay well
linked with the nodes that the operations on the sequences give, and each call returns what these do. -/
theorem refines_sequences {s t : Lists κ ι × (κ → List ι)} {tr : List ((Lists κ ι × (κ → List ι)) × Op κ ι)}
    (h : History Step s tr t) (hs : Represents s.1 s.2) :
    Represents t.1 t.2 ∧ ∀ x ∈ tr, (x.2.run x.1.1).1 = (x.2.spec x.1.2).1 := by
  induction h with
  | nil => exact ⟨hs, forall_mem_nil _⟩
  | snoc _ hst ih =>
    obtain ⟨hr, hall⟩ := ih
    obtain ⟨hop, rfl⟩ := hst
    obtain ⟨hret, hr'⟩ := hr.step hop
    exact ⟨hr', forall_mem_append.mpr ⟨hall, forall_mem_singleton.mpr hret⟩⟩

/-- Two nodes are put on a list, a third between them, and the first is taken off. -/
theorem refines_sequences_addtail : ∃ (tr : List ((Lists Unit Nat × (Unit → List Nat)) × Op Unit Nat))
    (s t : Lists Unit Nat × (Unit → List Nat)), History Step s tr t ∧ tr.length = 4 ∧ t.2 () = [8, 9] ∧
      Represents t.1 t.2 ∧ ∀ x ∈ tr, (x.2.run x.1.1).1 = (x.2.spec x.1.2).1 := by
  let s : Lists Unit Nat × (Unit → List Nat) :=
    (⟨⟨fun _ => none, fun _ => none⟩, fun _ => ixnewlist⟩, fun _ => [])
  have h₁ := (History.nil s).snoc (show Step s (.addtail () 9) _ from ⟨fun _ => not_mem_nil, rfl⟩)
  have h₂ := h₁.snoc (show Step _ (.addhead () 7) _ from ⟨fun ⟨⟩ => by decide, rfl⟩)
  have h₃ := h₂.snoc (show Step _ (.insert () 8 (some 7)) _ from ⟨⟨fun ⟨⟩ => by decide, by decide⟩, rfl⟩)
  have h₄ := h₃.snoc (show Step _ (.remhead ()) _ from ⟨trivial, rfl⟩)
  exact ⟨_, s, _, h₄, rfl, by decide,
    refines_sequences h₄ ⟨fun _ => .empty _, fun _ _ hne => absurd rfl hne⟩⟩

end Family

end Ixemul.IxList
