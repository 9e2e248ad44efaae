/-
# Ixemul.Ipc.MsgInv — well-formed message tables, and what the loops of the calls do to them.

`WellFormed` says that the free segment list and the chains of the queued messages share out the segments,
that the free header list and the queues share out the headers, and that the counters agree with the lists.
A call that is under way holds one header that is on no list while its segments are accounted to it:
`Tables` is the invariant with such a loose header, and the loops that move segments are proved once against
it.
-/
import Ixemul.Ipc.Msg
import Ixemul.Lib.Pool

namespace Ixemul.Ipc

open Lib Lib.Links
open Function List

/-! ## Well-formed tables -/

/-- Segment links: an index, or -1. -/
def segLink : LinkType Nat Int where
  nil := -1
  ptr := fun i => (i : Int)
  ptr_inj := fun _ _ h => Int.ofNat.inj h
  ptr_ne_nil := fun i h => by omega

@[simp] theorem segLink_nil : segLink.nil = -1 := rfl

@[simp] theorem segLink_ptr (i : Nat) : segLink.ptr i = (i : Int) := rfl

/-- Where the lists of segments start: the free one, and the one of each header. -/
def segStart (s : MsgState) : Option Nat → Int
  | none => s.freeMsgmaps
  | some h => (s.msghdrs h).spot

/-- Where the lists of headers start: the free one, and the one of each queue. -/
def hdrStart (s : MsgState) : Option (Fin msgmni) → Option Nat
  | none => s.freeMsghdrs
  | some q => (s.msqids q).first

def hdrNext (s : MsgState) (h : Nat) : Option Nat := (s.msghdrs h).next

/-- Who owns what: `segs none` are the free segments and `segs (some h)` those of message `h`;
`hdrs none` are the free headers and `hdrs (some q)` those of queue `q`. -/
structure Layout where
  segs : Option Nat → List Nat
  hdrs : Option (Fin msgmni) → List Nat

/-- The free list has segments, and so has a message on a queue. -/
def Layout.liveMsg (L : Layout) : Option Nat → Prop
  | none => True
  | some h => ∃ q, h ∈ L.hdrs (some q)

/-- The free list has headers, and so has a queue in use. -/
def liveQueue (s : MsgState) : Option (Fin msgmni) → Prop
  | none => True
  | some q => (s.msqids q).qbytes ≠ 0

/-- The number of segments a message of `ts` bytes takes. -/
def segCount (ts : Nat) : Nat := (ts + msgssz - 1) / msgssz

variable {n : Nat}

theorem segCount_pos (hn : 0 < n) : 0 < segCount n := by
  simp only [segCount, msgssz]
  omega

theorem segCount_freed (hn : 0 < n) : segCount (if n ≥ msgssz then n - msgssz else 0) + 1 = segCount n := by
  unfold segCount
  split <;> simp only [msgssz] at * <;> omega

theorem segCount_copied (hn : 0 < n) : segCount (n - if n > msgssz then msgssz else n) + 1 = segCount n := by
  unfold segCount
  split <;> simp only [msgssz] at * <;> omega

/-- The number of bytes in the messages of a list. -/
def bytesOf (s : MsgState) : List Nat → Nat
  | [] => 0
  | h :: l => (s.msghdrs h).ts + bytesOf s l

/-- The counters and the last link of a queue agree with its list. -/
structure QueueOk (s : MsgState) (q : Fin msgmni) (l : List Nat) : Prop where
  last : (s.msqids q).last = l.getLast?
  qnum : (s.msqids q).qnum = l.length
  cbytes : (s.msqids q).cbytes = bytesOf s l

/-- **The tables are laid out as `L` says.** -/
structure WellFormedBy (s : MsgState) (L : Layout) : Prop where
  segs : Pool segLink (· < msgseg) L.liveMsg s.msgmaps (segStart s) L.segs
  hdrs : Pool (pointer Nat) (· < msgtql) (liveQueue s) (hdrNext s) (hdrStart s) L.hdrs
  nfree : s.nfreeMsgmaps = (L.segs none).length
  size : ∀ q, ∀ h ∈ L.hdrs (some q), (L.segs (some h)).length = segCount (s.msghdrs h).ts
  queue : ∀ q, (s.msqids q).qbytes ≠ 0 → QueueOk s q (L.hdrs (some q))

/-- **Well-formed message tables.** -/
def WellFormed (s : MsgState) : Prop := ∃ L, WellFormedBy s L

/-! ## Tables with a header in a call's hands -/

/-- The two pools while a call holds the header `loose`; `st` says where the header lists start. -/
structure Tables (s : MsgState) (L : Layout) (loose : Option Nat)
    (st : Option (Fin msgmni) → Option Nat) : Prop where
  segs : Pool segLink (· < msgseg) (fun o => L.liveMsg o ∨ o = loose) s.msgmaps (segStart s) L.segs
  hdrs : Pool (pointer Nat) (fun i => i < msgtql ∧ loose ≠ some i) (liveQueue s) (hdrNext s) st L.hdrs
  free : st none = s.freeMsghdrs
  bound : ∀ h, loose = some h → h < msgtql
  nfree : s.nfreeMsgmaps = (L.segs none).length
  size : ∀ q, ∀ h ∈ L.hdrs (some q), (L.segs (some h)).length = segCount (s.msghdrs h).ts

variable {s : MsgState} {L : Layout} {st : Option (Fin msgmni) → Option Nat} {h : Nat}
  {q : Fin msgmni} {l : List Nat} {s' : MsgState} {live : Option Nat → Prop} {k : Nat}

theorem wellFormedBy_iff :
    WellFormedBy s L ↔ Tables s L none (hdrStart s) ∧
      ∀ q, (s.msqids q).qbytes ≠ 0 → QueueOk s q (L.hdrs (some q)) := by
  have hlive : ∀ o, L.liveMsg o ∨ o = none ↔ L.liveMsg o := by
    intro o
    refine ⟨?_, .inl⟩
    rintro (ho | rfl)
    · exact ho
    · exact trivial
  have huniv : ∀ i : Nat, i < msgtql ∧ none ≠ some i ↔ i < msgtql := by simp
  constructor
  · intro w
    refine ⟨⟨?_, ?_, rfl, by simp, w.nfree, w.size⟩, w.queue⟩
    · exact w.segs.congr (fun _ => Iff.rfl) hlive (fun _ _ => rfl) fun _ _ => rfl
    · exact w.hdrs.congr huniv (fun _ => Iff.rfl) (fun _ _ => rfl) fun _ _ => rfl
  · rintro ⟨t, hq⟩
    refine ⟨?_, ?_, t.nfree, t.size, hq⟩
    · exact t.segs.congr (fun _ => Iff.rfl) (fun o => (hlive o).symm) (fun _ _ => rfl) fun _ _ => rfl
    · exact t.hdrs.congr (fun i => (huniv i).symm) (fun _ => Iff.rfl) (fun _ _ => rfl) fun _ _ => rfl

theorem Tables.loose_off (t : Tables s L (some h) st) (o : Option (Fin msgmni)) : h ∉ L.hdrs o :=
  fun hm => (t.hdrs.within o h hm).2 rfl

theorem bytesOf_congr (heq : ∀ g ∈ l, (s'.msghdrs g).ts = (s.msghdrs g).ts) : bytesOf s' l = bytesOf s l := by
  induction l with
  | nil => rfl
  | cons g l ih =>
    show (s'.msghdrs g).ts + bytesOf s' l = (s.msghdrs g).ts + bytesOf s l
    rw [heq g (mem_cons_self ..), ih (fun x hx => heq x (mem_cons_of_mem _ hx))]

theorem QueueOk.congr (hq : QueueOk s q l) (hm : s'.msqids q = s.msqids q)
    (heq : ∀ g ∈ l, (s'.msghdrs g).ts = (s.msghdrs g).ts) : QueueOk s' q l where
  last := by rw [hm, hq.last]
  qnum := by rw [hm, hq.qnum]
  cbytes := by rw [hm, hq.cbytes, bytesOf_congr heq]

theorem bytesOf_le (hsize : ∀ g ∈ l, (L.segs (some g)).length = segCount (s.msghdrs g).ts) :
    bytesOf s l ≤ msgssz * ((l.map some).flatMap L.segs).length := by
  induction l with
  | nil => simp [bytesOf]
  | cons g l ih =>
    have h1 := hsize g (mem_cons_self ..)
    have h2 := ih fun x hx => hsize x (mem_cons_of_mem _ hx)
    unfold segCount at h1
    simp only [bytesOf, map_cons, flatMap_cons, length_append, msgssz] at h1 h2 ⊢
    omega

theorem bytesOf_bounded
    (hp : Pool segLink (· < msgseg) live s.msgmaps (segStart s) L.segs) (hnd : l.Nodup)
    (hsize : ∀ g ∈ l, (L.segs (some g)).length = segCount (s.msghdrs g).ts) :
    bytesOf s l ≤ 2 ^ 14 := by
  have h1 := bytesOf_le hsize
  have h2 := hp.length_flatMap_le (fun _ hi => hi) (l.map some) (hnd.map (Option.some_injective _))
  simp only [msgssz, msgseg] at h1 h2
  omega

/-! ## Freeing -/

/-- The tables after a round of the freeing loop, in which the segment `k` of the message `h` goes to the
free list. -/
def freeSeg (s : MsgState) (h k : Nat) : MsgState :=
  { s with
    msgmaps := update s.msgmaps k s.freeMsgmaps
    freeMsgmaps := (k : Int)
    nfreeMsgmaps := s.nfreeMsgmaps + 1
    msghdrs := update s.msghdrs h { s.msghdrs h with
      spot := s.msgmaps k
      ts := if (s.msghdrs h).ts ≥ msgssz then (s.msghdrs h).ts - msgssz else 0 } }

theorem freeSeg_ts (s : MsgState) (h k : Nat) : ((freeSeg s h k).msghdrs h).ts =
    if (s.msghdrs h).ts ≥ msgssz then (s.msghdrs h).ts - msgssz else 0 := by
  simp [freeSeg]

section

variable {live : Option Nat → Prop} {segs : Option Nat → List Nat} {k : Nat} {l : List Nat}

theorem freeSegs_succ (hp : Pool segLink (· < msgseg) live s.msgmaps (segStart s) segs)
    (hlive : live (some h)) (hkl : segs (some h) = k :: l) (hts : (s.msghdrs h).ts > 0) (fuel : Nat) :
    freeSegs (fuel + 1) s h = freeSegs fuel (freeSeg s h k) h := by
  have hk : k < msgseg := hp.within (some h) k (by simp [hkl])
  have hspot : (s.msghdrs h).spot = (k : Int) := by
    have hc := hp.chain (some h) hlive
    rw [hkl] at hc
    exact hc.1
  have hrange : ¬ ((s.msghdrs h).spot < 0 ∨ (s.msghdrs h).spot ≥ msgseg) := by omega
  simp only [freeSegs]
  rw [if_pos hts, if_neg hrange, hspot]
  rfl

theorem pool_freeSeg (hp : Pool segLink (· < msgseg) live s.msgmaps (segStart s) segs)
    (hnone : live none) (hkl : segs (some h) = k :: l) :
    Pool segLink (· < msgseg) live (freeSeg s h k).msgmaps (segStart (freeSeg s h k))
      (update (update segs (some h) l) none (k :: segs none)) := by
  refine hp.move hkl hnone (by simp) ?_ rfl ?_
  · simp [segStart, freeSeg]
  · rintro (_ | g) - hg hg'
    · exact absurd rfl hg'
    · have hgh : g ≠ h := fun e => hg (by rw [e])
      simp [segStart, freeSeg, hgh]

end

/-- **The freeing loop**: it meets no panic, and every segment of the message ends up free. -/
theorem freeSegs_spec {segs : Option Nat → List Nat} (fuel : Nat)
    (s : MsgState) (hp : Pool segLink (· < msgseg) live s.msgmaps (segStart s) segs)
    (hnone : live none) (hlive : live (some h))
    (hlen : (segs (some h)).length = segCount (s.msghdrs h).ts) (hfuel : (s.msghdrs h).ts ≤ fuel) :
    ∃ s' segs', freeSegs fuel s h = .ok s' ∧
      Pool segLink (· < msgseg) live s'.msgmaps (segStart s') segs' ∧
      s'.msghdrs = update s.msghdrs h { s.msghdrs h with spot := -1, ts := 0 } ∧
      s'.nfreeMsgmaps = s.nfreeMsgmaps + (segs (some h)).length ∧
      s'.msqids = s.msqids ∧ s'.freeMsghdrs = s.freeMsghdrs ∧ s'.msgpool = s.msgpool ∧
      segs' (some h) = [] ∧ (∀ g, g ≠ h → segs' (some g) = segs (some g)) ∧
      (segs' none).length = (segs none).length + (segs (some h)).length := by
  induction fuel generalizing s segs with
  | zero =>
    have hnil : segs (some h) = [] := by
      rw [← length_eq_zero_iff, hlen, Nat.le_zero.mp hfuel]
      rfl
    have hspot : (s.msghdrs h).spot = -1 := by
      have hc := hp.chain (some h) hlive
      rw [hnil] at hc
      exact hc
    have hts : (s.msghdrs h).ts = 0 := Nat.le_zero.mp hfuel
    refine ⟨s, segs, rfl, hp, ?_, by simp [hnil], rfl, rfl, rfl, hnil, fun _ _ => rfl, by simp [hnil]⟩
    rw [← hspot, ← hts, update_eq_self]
  | succ fuel ih =>
    by_cases hts : (s.msghdrs h).ts > 0
    · -- one round: the first segment moves from the message to the free list
      obtain ⟨k, t, hkt⟩ : ∃ k t, segs (some h) = k :: t := by
        apply exists_cons_of_length_pos
        rw [hlen]
        exact segCount_pos (by omega)
      have hround := freeSegs_succ hp hlive hkt hts fuel
      have hts1 := freeSeg_ts s h k
      have hlen1 : (update (update segs (some h) t) none (k :: segs none)
          (some h)).length = segCount ((freeSeg s h k).msghdrs h).ts := by
        have hdrop := segCount_freed hts
        rw [hkt, length_cons] at hlen
        rw [hts1, update_of_ne (by simp), update_self]
        omega
      have hfuel1 : ((freeSeg s h k).msghdrs h).ts ≤ fuel := by
        rw [hts1]
        split <;> simp only [msgssz] at * <;> omega
      obtain ⟨s', segs', hrun, hp', hhdrs, hnf, hmq, hfh, hpool, hnil, hother, hcount⟩ :=
        ih (freeSeg s h k) (pool_freeSeg hp hnone hkt) hlen1 hfuel1
      refine ⟨s', segs', hround.trans hrun, hp', ?_, ?_, hmq, hfh, hpool, hnil, ?_, ?_⟩
      · rw [hhdrs]
        simp [freeSeg]
      · rw [hnf, hkt]
        simp [freeSeg]
        omega
      · intro g hg
        rw [hother g hg]
        simp [hg]
      · rw [hcount, hkt]
        simp
        omega
    · have hts0 : (s.msghdrs h).ts = 0 := by omega
      obtain ⟨s', segs', hrun, hrest⟩ := ih s hp hlen (by omega)
      have hstop : ∀ n, freeSegs n s h = .ok s := by
        intro n
        cases n with
        | zero => rfl
        | succ => simp [freeSegs, hts0]
      rw [hstop] at hrun
      cases hrun
      exact ⟨s, segs', hstop _, hrest⟩

/-- **Freeing the message in hand** gives its segments and its header back: no panic, no loose header
left, and the queues and the other messages are as they were. -/
theorem Tables.release (t : Tables s L (some h) st)
    (hsize : (L.segs (some h)).length = segCount (s.msghdrs h).ts) :
    ∃ s' L', msgFreehdr s h = .ok s' ∧ Tables s' L' none (update st none (some h)) ∧
      s'.msqids = s.msqids ∧ (∀ g, g ≠ h → s'.msghdrs g = s.msghdrs g) ∧
      (∀ q, L'.hdrs (some q) = L.hdrs (some q)) ∧ s'.msgpool = s.msgpool ∧
      ∀ g, g ≠ h → L'.segs (some g) = L.segs (some g) := by
  obtain ⟨s1, segs', hrun, hp, hhdrs, hnf, hmq, hfh, hpool, hnil, hother, hcount⟩ :=
    freeSegs_spec (s.msghdrs h).ts s t.segs (.inl trivial) (.inr rfl) hsize le_rfl
  have hoff := t.loose_off
  have hspot : (s1.msghdrs h).spot = -1 := by simp [hhdrs]
  obtain ⟨s2, hs2⟩ : ∃ s2 : MsgState, s2 =
      { s1.setHdr h { s1.msghdrs h with next := s1.freeMsghdrs } with freeMsghdrs := some h } :=
    ⟨_, rfl⟩
  have hret : msgFreehdr s h = .ok s2 := by
    unfold msgFreehdr
    rw [hrun, hs2]
    show (if (s1.msghdrs h).spot ≠ -1 then _ else _) = _
    rw [if_neg (not_not_intro hspot)]
  have hg2 : ∀ g, g ≠ h → s2.msghdrs g = s.msghdrs g := by
    intro g hg
    simp [hs2, MsgState.setHdr, hhdrs, hg]
  have hmq2 : s2.msqids = s.msqids := by simp [hs2, MsgState.setHdr, hmq]
  have hpool2 : s2.msgpool = s.msgpool := by rw [hs2, ← hpool]; rfl
  refine ⟨s2, ⟨segs', update L.hdrs none (h :: L.hdrs none)⟩, hret, ?_, hmq2, hg2, ?_, hpool2,
    hother⟩
  · refine ⟨?_, ?_, ?_, by simp, ?_, ?_⟩
    · -- the header owns no segments any more
      have hret := hp.retire (segStart s2) hnil (by
        rintro (_ | g) - hg
        · simp [segStart, hs2, MsgState.setHdr]
        · have hgh : g ≠ h := fun e => hg (by rw [e])
          simp [segStart, hs2, MsgState.setHdr, hgh])
      refine (hret.congr (fun _ => Iff.rfl) (fun o => ?_) (fun _ _ => ?_) (fun _ _ => rfl))
      · cases o with
        | none => simp [Layout.liveMsg]
        | some g =>
          by_cases hgh : g = h
          · subst hgh
            simp [Layout.liveMsg, hoff]
          · simp [Layout.liveMsg, hgh]
      · simp [hs2, MsgState.setHdr]
    · have hpush := t.hdrs.push (o := none) (x := h) (update st none (some h))
        trivial (by simp) (by simp [pointer]) fun p _ hp => update_of_ne hp _ _
      refine hpush.congr (fun i => ?_) (fun o => ?_) (fun i _ => ?_) fun _ _ => rfl
      · have hb := t.bound h rfl
        by_cases hih : i = h
        · simp [hih, hb]
        · have hhi : h ≠ i := fun e => hih e.symm
          simp [hih, hhi]
      · cases o with
        | none => exact Iff.rfl
        | some => simp [liveQueue, hmq2]
      · by_cases hih : i = h
        · subst hih
          simp [hdrNext, hs2, MsgState.setHdr, hfh, t.free]
        · rw [update_of_ne hih]
          simp [hdrNext, hg2 i hih]
    · simp [hs2]
    · rw [hs2]
      show s1.nfreeMsgmaps = _
      rw [hnf, t.nfree, hcount]
      simp
    · intro q g hg
      have hg' : g ∈ L.hdrs (some q) := by simpa using hg
      have hgh : g ≠ h := by
        rintro rfl
        exact hoff _ hg'
      show (segs' (some g)).length = _
      rw [hother g hgh, hg2 g hgh]
      exact t.size q g hg'
  · intro q
    simp

/-! ## Allocating -/

/-- The tables after a round of the allocation loop, in which the free segment `k` becomes the first one of
the message `h`. -/
def takeSeg (s : MsgState) (h k : Nat) : MsgState :=
  { s with
    freeMsgmaps := s.msgmaps k
    nfreeMsgmaps := s.nfreeMsgmaps - 1
    msgmaps := update s.msgmaps k (s.msghdrs h).spot
    msghdrs := update s.msghdrs h { s.msghdrs h with spot := (k : Int) } }

def Layout.takeSeg (L : Layout) (h k : Nat) (l : List Nat) : Layout :=
  ⟨update (update L.segs none l) (some h) (k :: L.segs (some h)), L.hdrs⟩

theorem allocSegs_succ (t : Tables s L (some h) st) (hkl : L.segs none = k :: l)
    (n : Nat) : allocSegs (n + 1) s h = allocSegs n (takeSeg s h k) h := by
  have hlive : L.liveMsg none ∨ none = some h := .inl trivial
  have hk : k < msgseg := t.segs.within none k (by simp [hkl])
  have hfree : s.freeMsgmaps = (k : Int) := by
    have hc := t.segs.chain none hlive
    rw [hkl] at hc
    exact hc.1
  have hnfree : 0 < s.nfreeMsgmaps := by
    rw [t.nfree, hkl, length_cons]
    omega
  simp only [allocSegs]
  rw [if_neg (by omega), if_neg (by omega), if_neg (by omega), if_neg (by omega), hfree]
  rfl

theorem Tables.takeSeg (t : Tables s L (some h) st) (hkl : L.segs none = k :: l) :
    Tables (takeSeg s h k) (L.takeSeg h k l) (some h) st := by
  have hhdr : ∀ g, g ≠ h → (Ipc.takeSeg s h k).msghdrs g = s.msghdrs g := by
    intro g hg
    simp [Ipc.takeSeg, hg]
  refine ⟨?_, ?_, t.free, t.bound, ?_, ?_⟩
  · refine t.segs.move hkl (.inr rfl) (by simp) rfl ?_ ?_
    · simp [segStart, Ipc.takeSeg]
    · rintro (_ | g) - hg hg'
      · exact absurd rfl hg
      · have hgh : g ≠ h := fun e => hg' (by rw [e])
        simp [segStart, Ipc.takeSeg, hgh]
  · refine t.hdrs.congr (fun _ => Iff.rfl) (fun o => ?_) (fun i hi => ?_) (fun _ _ => rfl)
    · cases o with
      | none | some => exact Iff.rfl
    · have hih : i ≠ h := fun e => hi.2 (by rw [e])
      simp [hdrNext, hhdr i hih]
  · show s.nfreeMsgmaps - 1 = _
    rw [t.nfree, hkl]
    simp [Layout.takeSeg]
  · intro q g hg
    have hgh : g ≠ h := by
      rintro rfl
      exact t.loose_off _ hg
    rw [hhdr g hgh]
    simpa [Layout.takeSeg, hgh] using t.size q g hg

/-- **The allocation loop**: with enough free segments it meets no panic and gives the message in hand
as many as asked for. -/
theorem allocSegs_spec (n : Nat) (s : MsgState) (L : Layout) (t : Tables s L (some h) st)
    (hn : (n : Int) ≤ s.nfreeMsgmaps) :
    ∃ s' L', allocSegs n s h = .ok s' ∧ Tables s' L' (some h) st ∧
      (L'.segs (some h)).length = (L.segs (some h)).length + n ∧ L'.hdrs = L.hdrs ∧
      s'.msqids = s.msqids ∧ s'.freeMsghdrs = s.freeMsghdrs ∧ s'.msgpool = s.msgpool ∧
      (∀ g, g ≠ h → L'.segs (some g) = L.segs (some g)) ∧
      ∃ spot, s'.msghdrs = update s.msghdrs h { s.msghdrs h with spot } := by
  induction n generalizing s L with
  | zero =>
    refine ⟨s, L, rfl, t, rfl, rfl, rfl, rfl, rfl, fun _ _ => rfl, (s.msghdrs h).spot, ?_⟩
    rw [update_eq_self]
  | succ n ih =>
    obtain ⟨k, l, hkl⟩ : ∃ k l, L.segs none = k :: l := by
      apply exists_cons_of_length_pos
      have := t.nfree
      omega
    have hn1 : (n : Int) ≤ (takeSeg s h k).nfreeMsgmaps := by
      show (n : Int) ≤ s.nfreeMsgmaps - 1
      omega
    obtain ⟨s', L', hrun, t', hlen, hhd, hmq, hfh, hpool, hsegs, spot, hhdrs⟩ :=
      ih (takeSeg s h k) (L.takeSeg h k l) (t.takeSeg hkl) hn1
    refine ⟨s', L', (allocSegs_succ t hkl n).trans hrun, t', ?_, hhd, hmq, hfh, hpool, ?_, spot, ?_⟩
    · rw [hlen]
      simp [Layout.takeSeg]
      omega
    · intro g hg
      rw [hsegs g hg]
      simp [Layout.takeSeg, hg]
    · rw [hhdrs]
      simp [takeSeg]

end Ixemul.Ipc
