/-
# Ixemul.Lib.Links — nodes threaded by links: chains and doubly linked lists.

A C program threads records together by storing, in each record, a link to the next one: a pointer that may
be NULL, or an index that may be -1 (`LinkType`).  `Chain next h l` says that walking `next` from the link
`h` visits exactly the nodes `l` and then ends.  A chain is determined by its first link, is not disturbed
by writes to other nodes, and a node is taken out, or put in, by rewriting ONE link.  A doubly linked list
is two chains over the same nodes, one read backwards (`DList`).
-/
import Mathlib.Data.List.Nodup

namespace Ixemul.Lib.Links

open Function List

variable {ι κ : Type*}

/-! ## Link values -/

/-- How values of `κ` link to nodes of `ι`: `ptr i` names the node `i`, `nil` ends a list. -/
structure LinkType (ι κ : Type*) where
  nil : κ
  ptr : ι → κ
  ptr_inj : Function.Injective ptr
  ptr_ne_nil : ∀ i, ptr i ≠ nil

/-- A nullable pointer. -/
def pointer (ι : Type*) : LinkType ι (Option ι) where
  nil := none
  ptr := some
  ptr_inj := fun _ _ => Option.some.inj
  ptr_ne_nil := fun _ => Option.some_ne_none _

namespace LinkType

variable (K : LinkType ι κ)

/-! ## Chains -/

/-- Walking `next` from the link `h` visits exactly the nodes `l`, in order, and then ends. -/
def Chain (next : ι → κ) : κ → List ι → Prop
  | h, [] => h = K.nil
  | h, i :: l => h = K.ptr i ∧ Chain next (next i) l

/-- The link that starts a list of nodes. -/
def first : List ι → κ
  | [] => K.nil
  | i :: _ => K.ptr i

variable {K} {next next' : ι → κ} {h : κ} {i j x y : ι} {l m : List ι}

@[simp] theorem chain_nil : K.Chain next h [] ↔ h = K.nil := Iff.rfl

@[simp] theorem chain_cons : K.Chain next h (i :: l) ↔ h = K.ptr i ∧ K.Chain next (next i) l :=
  Iff.rfl

theorem Chain.eq_first (hc : K.Chain next h l) : h = K.first l := by
  cases l with
  | nil => exact hc
  | cons => exact hc.1

theorem Chain.unique (hl : K.Chain next h l) (hm : K.Chain next h m) : l = m := by
  induction l generalizing h m with
  | nil =>
    cases m with
    | nil => rfl
    | cons j => exact absurd (hm.1.symm.trans hl) (K.ptr_ne_nil j)
  | cons i l ih =>
    cases m with
    | nil => exact absurd (hl.1.symm.trans hm) (K.ptr_ne_nil i)
    | cons j =>
      have hij : i = j := K.ptr_inj (hl.1.symm.trans hm.1)
      subst hij
      rw [ih hl.2 hm.2]

/-- The nodes that a walk of at most `fuel` steps visits, where `node` reads a link. -/
def follow (node : κ → Option ι) (next : ι → κ) : Nat → κ → List ι
  | 0, _ => []
  | fuel + 1, h =>
    match node h with
    | none => []
    | some i => i :: follow node next fuel (next i)

theorem Chain.follow_eq {node : κ → Option ι} {fuel : Nat} (hnil : node K.nil = none)
    (hptr : ∀ i, node (K.ptr i) = some i) (hc : K.Chain next h l) (hlen : l.length ≤ fuel) :
    follow node next fuel h = l := by
  induction l generalizing h fuel with
  | nil =>
    cases fuel with
    | zero => rfl
    | succ => rw [follow, hc, hnil]
  | cons i l ih =>
    cases fuel with
    | zero => exact absurd hlen (Nat.not_succ_le_zero _)
    | succ =>
      rw [follow, hc.1, hptr]
      exact congrArg (i :: ·) (ih hc.2 (Nat.le_of_succ_le_succ hlen))

/-- The part of a chain that follows a member is the chain from that member's own link. -/
theorem Chain.after (hc : K.Chain next h (m ++ i :: l)) : K.Chain next (next i) l := by
  induction m generalizing h with
  | nil => exact hc.2
  | cons j m ih => exact ih hc.2

theorem Chain.next_eq (hc : K.Chain next h (m ++ i :: l)) : next i = K.first l :=
  hc.after.eq_first

theorem Chain.mem_of_next (hc : K.Chain next h l) (hx : x ∈ l) (hn : next x = K.ptr y) : y ∈ l := by
  obtain ⟨s, t, rfl⟩ := append_of_mem hx
  have hf := hc.next_eq
  rw [hn] at hf
  cases t with
  | nil => exact absurd hf (K.ptr_ne_nil y)
  | cons => simp [K.ptr_inj hf]

/-- Where `prev` answers every link of a chain, it walks the chain backwards, from the last node on and
past the first one to wherever that leads. -/
theorem Chain.backwards {prev : ι → κ} (hc : K.Chain next (K.ptr x) (x :: l))
    (hback : ∀ i ∈ x :: l, ∀ j, next i = K.ptr j → prev j = K.ptr i) (hm : K.Chain prev (prev x) m) :
    K.Chain prev (K.first (x :: l).reverse) ((x :: l).reverse ++ m) := by
  induction l generalizing x m with
  | nil => exact ⟨rfl, hm⟩
  | cons y l ih =>
    have hxy : next x = K.ptr y := hc.2.1
    have hyx : prev y = K.ptr x := hback x (by simp) y hxy
    have hc' : K.Chain next (K.ptr y) (y :: l) := ⟨rfl, hc.2.2⟩
    have hrest : K.Chain prev (prev y) (x :: m) := ⟨hyx, hm⟩
    have hrec := ih hc' (fun i hi => hback i (mem_cons_of_mem _ hi)) hrest
    have hfirst : K.first (x :: y :: l).reverse = K.first (y :: l).reverse := by
      rw [reverse_cons, reverse_cons]
      cases l.reverse <;> rfl
    have hlist : (x :: y :: l).reverse ++ m = (y :: l).reverse ++ x :: m := by simp
    rw [hfirst, hlist]
    exact hrec

theorem Chain.nodup (hc : K.Chain next h l) : l.Nodup := by
  induction l generalizing h with
  | nil => exact nodup_nil
  | cons i l ih =>
    refine nodup_cons.mpr ⟨fun hi => ?_, ih hc.2⟩
    -- were `i` met again, the walk from it would have two different lengths
    obtain ⟨s, t, rfl⟩ := append_of_mem hi
    have hlen := congrArg length (Chain.unique hc.2 (hc.2.after))
    simp at hlen
    omega

theorem Chain.congr (hc : K.Chain next h l) (heq : ∀ i ∈ l, next' i = next i) : K.Chain next' h l := by
  induction l generalizing h with
  | nil => exact hc
  | cons i l ih =>
    refine ⟨hc.1, ?_⟩
    rw [heq i (mem_cons_self ..)]
    exact ih hc.2 fun j hj => heq j (mem_cons_of_mem _ hj)

theorem chain_range' {K : LinkType Nat κ} {next : Nat → κ} {n : Nat}
    (hn : ∀ i, i < n → next i = if i + 1 < n then K.ptr (i + 1) else K.nil) (k a : Nat)
    (ha : a + k + 1 = n) : K.Chain next (K.ptr a) (range' a (k + 1)) := by
  induction k generalizing a with
  | zero =>
    refine ⟨rfl, ?_⟩
    rw [hn a (by omega), if_neg (by omega)]
    rfl
  | succ k ih =>
    refine ⟨rfl, ?_⟩
    rw [hn a (by omega), if_pos (by omega)]
    exact ih (a + 1) (by omega)

section Update

variable [DecidableEq ι]

theorem Chain.update_off (hc : K.Chain next h l) (hx : x ∉ l) (v : κ) : K.Chain (update next x v) h l := by
  refine hc.congr fun i hi => ?_
  have hix : i ≠ x := by
    rintro rfl
    exact hx hi
  exact update_of_ne hix _ _

theorem Chain.splice (hc : K.Chain next h (m ++ y :: l)) {v : κ} {l' : List ι}
    (hv : K.Chain (update next y v) v l') :
    K.Chain (update next y v) h (m ++ y :: l') := by
  induction m generalizing h with
  | nil =>
    refine ⟨hc.1, ?_⟩
    rwa [update_self]
  | cons j m ih =>
    have hjy : j ≠ y := by
      rintro rfl
      exact (nodup_cons.mp hc.nodup).1 (by simp)
    refine ⟨hc.1, ?_⟩
    rw [update_of_ne hjy]
    exact ih hc.2

/-- Taking `x` out of the middle: its predecessor takes over its link. -/
theorem Chain.unlink (hc : K.Chain next h (m ++ y :: x :: l)) :
    K.Chain (update next y (next x)) h (m ++ y :: l) := by
  refine hc.splice ?_
  have htail : K.Chain next (next x) l := hc.after.2
  have hnd := (nodup_append.mp hc.nodup).2.1
  refine htail.update_off (fun hy => ?_) _
  exact (nodup_cons.mp hnd).1 (mem_cons_of_mem _ hy)

theorem Chain.insertAfter (hc : K.Chain next h (m ++ y :: l)) (hx : x ∉ m ++ y :: l) :
    K.Chain (update (update next x (next y)) y (K.ptr x)) h
      (m ++ y :: x :: l) := by
  have hxy : x ≠ y := fun e => hx (by simp [e])
  have hc' := hc.update_off hx (next y)
  refine hc'.splice ⟨rfl, ?_⟩
  rw [update_of_ne hxy, update_self]
  have hyl : y ∉ l := (nodup_cons.mp (nodup_append.mp hc.nodup).2.1).1
  have hxl : x ∉ l := fun hm => hx (by simp [hm])
  exact (hc.after.update_off hxl _).update_off hyl _

end Update

end LinkType

/-! ## Doubly linked lists -/

/-- The two link fields of every node. -/
structure DLinks (ι : Type*) where
  next : ι → Option ι
  prev : ι → Option ι

/-- The two ends of a list. -/
@[ext]
structure DEnds (ι : Type*) where
  head : Option ι
  tail : Option ι
  deriving DecidableEq

/-- `e` is a well-linked list of the nodes `l`: forwards from the head, backwards from the tail. -/
structure DList (n : DLinks ι) (e : DEnds ι) (l : List ι) : Prop where
  fwd : (pointer ι).Chain n.next e.head l
  bwd : (pointer ι).Chain n.prev e.tail l.reverse

namespace DList

variable {n n' : DLinks ι} {e : DEnds ι} {l m : List ι} {x : ι}

theorem nodup (hd : DList n e l) : l.Nodup := hd.fwd.nodup

theorem empty (n : DLinks ι) : DList n ⟨none, none⟩ [] := ⟨rfl, rfl⟩

theorem congr (hd : DList n e l) (hn : ∀ i ∈ l, n'.next i = n.next i)
    (hp : ∀ i ∈ l, n'.prev i = n.prev i) : DList n' e l where
  fwd := hd.fwd.congr hn
  bwd := hd.bwd.congr (fun i hi => hp i (mem_reverse.mp hi))

theorem head_eq (hd : DList n e l) : e.head = (pointer ι).first l := hd.fwd.eq_first

theorem tail_eq (hd : DList n e l) : e.tail = (pointer ι).first l.reverse := hd.bwd.eq_first

theorem next_eq (hd : DList n e (m ++ x :: l)) : n.next x = (pointer ι).first l := hd.fwd.next_eq

theorem prev_eq (hd : DList n e (m ++ x :: l)) : n.prev x = (pointer ι).first m.reverse := by
  have hb := hd.bwd
  rw [reverse_append, reverse_cons, append_assoc] at hb
  exact hb.next_eq

end DList

end Ixemul.Lib.Links
