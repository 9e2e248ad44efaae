/-
# Ixemul.Ipc.MsgContents — what the queues hold, read off the tables, and the loops that copy it.

A message is a `Letter`: the header it is in, its type, and the bytes of its segments up to its size.
`MsgState.letters` follows the links, and in well-formed tables it is what the layout says.  After the
copy-in loop the segments hold the body, and every other segment what it held.  The copy-out loop takes its
chunks off one segment after the other; what it writes starts with the body, and ends at the end of a
segment where the message takes more than one.
-/
import Ixemul.Ipc.MsgInv

namespace Ixemul.Ipc

open Lib Lib.Links
open List

variable {s s' : MsgState} {L L' : Layout} {h g : Nat} {q : Fin msgmni} {l : List Nat}

/-! ## Messages -/

/-- The bytes of segment `k`. -/
def segBytes (pool : Nat → UInt8) (k : Nat) : List UInt8 :=
  (range msgssz).map (fun i => pool (k * msgssz + i))

@[simp] theorem length_segBytes (pool : Nat → UInt8) (k : Nat) : (segBytes pool k).length = msgssz := by
  simp [segBytes]

/-- A message on a queue: its header, its type and its body. -/
structure Letter where
  hdr : Nat
  type : BitVec 32
  text : List UInt8
  deriving DecidableEq, Repr

/-- The message of header `h`, in the segments `segs`. -/
def letterIn (s : MsgState) (h : Nat) (segs : List Nat) : Letter :=
  ⟨h, (s.msghdrs h).type, (segs.flatMap (segBytes s.msgpool)).take (s.msghdrs h).ts⟩

/-- The segment that an index names. -/
def segNode (next : Int) : Option Nat := if next < 0 then none else some next.toNat

/-- The headers on queue `q`, from `msg_first` on. -/
def MsgState.headers (s : MsgState) (q : Fin msgmni) : List Nat :=
  if (s.msqids q).qbytes = 0 then [] else LinkType.follow id (hdrNext s) msgtql (s.msqids q).first

/-- The message in header `h`, its segments from `msg_spot` on. -/
def MsgState.letter (s : MsgState) (h : Nat) : Letter :=
  letterIn s h (LinkType.follow segNode s.msgmaps (segCount (s.msghdrs h).ts) (s.msghdrs h).spot)

/-- The messages on queue `q`. -/
def MsgState.letters (s : MsgState) (q : Fin msgmni) : List Letter := (s.headers q).map s.letter

/-- The message in header `h`, and the messages on queue `q`, as the layout has them. -/
def Layout.letter (L : Layout) (s : MsgState) (h : Nat) : Letter := letterIn s h (L.segs (some h))

def Layout.letters (L : Layout) (s : MsgState) (q : Fin msgmni) : List Letter :=
  (L.hdrs (some q)).map (L.letter s)

theorem WellFormedBy.headers_eq (w : WellFormedBy s L) (q : Fin msgmni) : s.headers q = L.hdrs (some q) := by
  unfold MsgState.headers
  split
  · rename_i h0
    exact (w.hdrs.idle (some q) (fun hlive => hlive h0)).symm
  · rename_i hlive
    exact (w.hdrs.chain (some q) hlive).follow_eq rfl (fun _ => rfl)
      (w.hdrs.length_le (fun _ hi => hi) (some q))

theorem WellFormedBy.letter_eq (w : WellFormedBy s L) (hm : h ∈ L.hdrs (some q)) :
    s.letter h = L.letter s h := by
  have hc := w.segs.chain (some h) ⟨q, hm⟩
  have hsegs : LinkType.follow segNode s.msgmaps (segCount (s.msghdrs h).ts) (s.msghdrs h).spot =
      L.segs (some h) := by
    refine hc.follow_eq rfl (fun i => ?_) (le_of_eq (w.size q h hm))
    rw [segLink_ptr, segNode, if_neg (by omega), Int.toNat_natCast]
  rw [MsgState.letter, hsegs, Layout.letter]

theorem WellFormedBy.letters_eq (w : WellFormedBy s L) (q : Fin msgmni) : s.letters q = L.letters s q := by
  rw [MsgState.letters, w.headers_eq]
  exact map_congr_left fun h hm => w.letter_eq hm

theorem Layout.letter_congr (htype : (s'.msghdrs g).type = (s.msghdrs g).type)
    (hts : (s'.msghdrs g).ts = (s.msghdrs g).ts) (hsegs : L'.segs (some g) = L.segs (some g))
    (hpool : ∀ k ∈ L.segs (some g), segBytes s'.msgpool k = segBytes s.msgpool k) :
    L'.letter s' g = L.letter s g := by
  have hbytes : (L.segs (some g)).flatMap (segBytes s'.msgpool) =
      (L.segs (some g)).flatMap (segBytes s.msgpool) := flatMap_congr hpool
  simp only [Layout.letter, letterIn, htype, hts, hsegs, hbytes]

theorem Layout.letters_congr (hhdrs : L'.hdrs (some q) = L.hdrs (some q))
    (hsame : ∀ g ∈ L.hdrs (some q), L'.letter s' g = L.letter s g) : L'.letters s' q = L.letters s q := by
  rw [Layout.letters, hhdrs]
  exact map_congr_left hsame

/-! ## Copying in -/

theorem segBytes_fillPool (pool : Nat → UInt8) (k : Nat) {len : Nat} (hlen : len ≤ msgssz)
    (text : Nat → UInt8) (off : Nat) :
    (segBytes (fillPool pool (k * msgssz) len text off) k).take len =
      (range len).map (fun i => text (off + i)) := by
  rw [segBytes, ← map_take, take_range, min_eq_left hlen]
  refine map_congr_left fun i hi => ?_
  have hi' := mem_range.mp hi
  rw [fillPool, if_pos ⟨by omega, by omega⟩]
  congr 2
  omega

theorem segBytes_fillPool_other (pool : Nat → UInt8) {k k' : Nat} (hk : k' ≠ k) {len : Nat}
    (hlen : len ≤ msgssz) (text : Nat → UInt8) (off : Nat) :
    segBytes (fillPool pool (k * msgssz) len text off) k' = segBytes pool k' := by
  refine map_congr_left fun i hi => ?_
  have hi' := mem_range.mp hi
  have hout : ¬ (k * msgssz ≤ k' * msgssz + i ∧ k' * msgssz + i < k * msgssz + len) := by
    simp only [msgssz] at hi' hlen ⊢
    omega
  rw [fillPool, if_neg hout]

/-- **The copy-in loop** over a chain of exactly the segments the message needs uses them all: they hold
the body, and the other segments what they held. -/
theorem copyIn_spec {maps : Nat → Int} (text : Nat → UInt8) (fuel msgsz off : Nat) (next : Int)
    (pool : Nat → UInt8) (hc : segLink.Chain maps next l) (hl : ∀ i ∈ l, i < msgseg)
    (hlen : l.length = segCount msgsz) (hfuel : msgsz ≤ fuel) :
    ∃ pool', copyIn maps text fuel msgsz off next pool = .ok (pool', -1) ∧
      (l.flatMap (segBytes pool')).take msgsz = (range msgsz).map (fun i => text (off + i)) ∧
      ∀ k, k ∉ l → segBytes pool' k = segBytes pool k := by
  induction fuel generalizing msgsz off next pool l with
  | zero =>
    cases Nat.le_zero.mp hfuel
    cases length_eq_zero_iff.mp hlen
    cases hc
    exact ⟨pool, rfl, rfl, fun _ _ => rfl⟩
  | succ fuel ih =>
    by_cases hm : msgsz > 0
    · -- one round: the first segment is filled, as far as the message goes
      obtain ⟨k, t, rfl⟩ : ∃ k t, l = k :: t := by
        apply exists_cons_of_length_pos
        rw [hlen]
        exact segCount_pos (by omega)
      have hk : k < msgseg := hl k (mem_cons_self ..)
      have hkt : k ∉ t := (nodup_cons.mp hc.nodup).1
      obtain ⟨hnext, htail⟩ := hc
      simp only [segLink_ptr] at hnext
      obtain ⟨tlen, htlen⟩ : ∃ n, n = if msgsz > msgssz then msgssz else msgsz := ⟨_, rfl⟩
      have hle : tlen ≤ msgssz ∧ tlen ≤ msgsz ∧ 0 < tlen ∧ (tlen = msgssz ∨ tlen = msgsz) := by
        have hpos : 0 < msgssz := by decide
        rw [htlen]
        split <;> omega
      have hcount := segCount_copied hm
      rw [← htlen] at hcount
      obtain ⟨pool', hrun, hbytes, hother⟩ := ih (msgsz - tlen) (off + tlen) _
        (fillPool pool (k * msgssz) tlen text off) htail (fun i hi => hl i (mem_cons_of_mem _ hi))
        (by rw [length_cons] at hlen; omega) (by omega)
      have hfirst : (segBytes pool' k).take tlen = (range tlen).map (fun i => text (off + i)) := by
        rw [hother k hkt]
        exact segBytes_fillPool pool k hle.1 text off
      refine ⟨pool', ?_, ?_, ?_⟩
      · simp only [copyIn]
        rw [← htlen, if_pos hm, if_neg (show ¬ next ≤ -1 by omega), if_neg (show ¬ next ≥ msgseg by omega),
          hnext]
        exact hrun
      · have hsplit : msgsz = tlen + (msgsz - tlen) := by omega
        rw [flatMap_cons]
        rcases hle.2.2.2 with hfull | hends
        · have h8 : tlen = (segBytes pool' k).length := by rw [length_segBytes, hfull]
          rw [hsplit, range_add, map_append, ← hfirst]
          rw [h8, take_length_add_append, take_length, ← h8, hbytes, map_map]
          congr 2
          funext i
          simp [add_assoc]
        · -- the message ends in this segment
          rw [← hends, take_append_of_le_length (by simp; omega), hfirst]
      · intro k' hk'
        rw [hother k' (fun hm => hk' (mem_cons_of_mem _ hm))]
        exact segBytes_fillPool_other pool (fun e => hk' (by simp [e])) hle.1 text off
    · have hm0 : msgsz = 0 := by omega
      subst hm0
      cases length_eq_zero_iff.mp hlen
      cases hc
      exact ⟨pool, by simp [copyIn], rfl, fun _ _ => rfl⟩

/-! ## Copying out -/

/-- **The copy-out loop** needs no more segments than the message has, and takes as much of each. -/
theorem copyOut_spec (s : MsgState) (msgsz fuel len : Nat) (next : Int) (out : List UInt8)
    (hc : segLink.Chain s.msgmaps next l) (hl : ∀ i ∈ l, i < msgseg)
    (hlen : segCount (msgsz - len) ≤ l.length) (hfuel : msgsz - len ≤ fuel) :
    copyOut s msgsz fuel len next out = .ok (out ++ (l.take (segCount (msgsz - len))).flatMap
      (fun k => (segBytes s.msgpool k).take (if msgsz > msgssz then msgssz else msgsz))) := by
  have hstop {len : Nat} (l : List Nat) (hn : msgsz - len = 0) : l.take (segCount (msgsz - len)) = [] := by
    rw [hn]
    rfl
  induction fuel generalizing len next out l with
  | zero =>
    rw [copyOut, hstop l (by omega), flatMap_nil, append_nil]
  | succ fuel ih =>
    by_cases hm : len < msgsz
    · obtain ⟨k, t, rfl⟩ : ∃ k t, l = k :: t := by
        apply exists_cons_of_length_pos
        have hpos := segCount_pos (show 0 < msgsz - len by omega)
        omega
      have hk : k < msgseg := hl k (mem_cons_self ..)
      obtain ⟨hnext, htail⟩ := hc
      simp only [segLink_ptr] at hnext
      have hcount : segCount (msgsz - len) = segCount (msgsz - (len + msgssz)) + 1 := by
        simp only [segCount, msgssz]
        omega
      rw [hcount, length_cons] at hlen
      have hchunk : (range (if msgsz > msgssz then msgssz else msgsz)).map
          (fun i => s.msgpool (k * msgssz + i)) =
          (segBytes s.msgpool k).take (if msgsz > msgssz then msgssz else msgsz) := by
        rw [segBytes, ← map_take, take_range, min_eq_left]
        split <;> omega
      simp only [copyOut]
      rw [if_pos hm, if_neg (by omega), if_neg (by omega), hnext, Int.toNat_natCast, hchunk]
      rw [ih _ _ _ htail (fun i hi => hl i (mem_cons_of_mem _ hi)) (by omega) (by simp only [msgssz]; omega),
        hcount, take_succ_cons, flatMap_cons, append_assoc]
    · rw [copyOut, if_neg hm, hstop l (by omega), flatMap_nil, append_nil]

/-- The number of bytes the loop writes for `m` bytes of a message. -/
def copied (m : Nat) : Nat := if m > msgssz then msgssz * segCount m else m

theorem copied_eq_iff (m : Nat) : copied m = m ↔ m ≤ msgssz ∨ msgssz ∣ m := by
  unfold copied
  split
  · simp only [segCount, msgssz] at *
    omega
  · simp only [true_iff]
    left
    omega

theorem flatMap_take_segBytes (pool : Nat → UInt8) (n : Nat) (l : List Nat) :
    (l.take n).flatMap (segBytes pool) = (l.flatMap (segBytes pool)).take (msgssz * n) := by
  induction n generalizing l with
  | zero => simp
  | succ n ih =>
    cases l with
    | nil => simp
    | cons k =>
      have hsize : msgssz * (n + 1) = (segBytes pool k).length + msgssz * n := by
        rw [length_segBytes, Nat.mul_succ, add_comm]
      rw [take_succ_cons, flatMap_cons, flatMap_cons, ih, hsize,
        take_length_add_append]

theorem length_flatMap_segBytes (pool : Nat → UInt8) (l : List Nat) :
    (l.flatMap (segBytes pool)).length = msgssz * l.length := by
  induction l with
  | nil => rfl
  | cons k l ih =>
    rw [flatMap_cons, length_append, ih, length_segBytes, length_cons, Nat.mul_succ,
      add_comm]

/-- **What the loop writes** starts with the first `m` bytes of the segments. -/
theorem copyOut_bytes (s : MsgState) (m : Nat) {next : Int} (hc : segLink.Chain s.msgmaps next l)
    (hl : ∀ i ∈ l, i < msgseg) (hlen : segCount m ≤ l.length) :
    ∃ out, copyOut s m m 0 next [] = .ok out ∧ out.length = copied m ∧
      out.take m = (l.flatMap (segBytes s.msgpool)).take m := by
  refine ⟨_, copyOut_spec s m m 0 next [] hc hl hlen (Nat.sub_le m 0), ?_⟩
  rw [nil_append, Nat.sub_zero, copied]
  by_cases hbig : m > msgssz
  · -- whole segments
    have hfull : (fun k => (segBytes s.msgpool k).take msgssz) = segBytes s.msgpool := by
      funext k
      exact take_of_length_le (le_of_eq (length_segBytes _ k))
    have hcover : m ≤ msgssz * segCount m := by
      simp only [segCount, msgssz]
      omega
    rw [if_pos hbig, if_pos hbig, hfull, flatMap_take_segBytes]
    constructor
    · rw [length_take, length_flatMap_segBytes]
      exact Nat.min_eq_left (Nat.mul_le_mul_left _ hlen)
    · rw [take_take, min_eq_left hcover]
  · rw [if_neg hbig, if_neg hbig]
    rcases Nat.eq_zero_or_pos m with rfl | hm
    · simp [segCount, msgssz]
    · -- the start of the first segment
      have hone : segCount m = 1 := by
        simp only [segCount, msgssz] at hbig ⊢
        omega
      rw [hone] at hlen ⊢
      obtain ⟨k, t, rfl⟩ := exists_cons_of_length_pos hlen
      have hfits : m ≤ (segBytes s.msgpool k).length := by
        rw [length_segBytes]
        omega
      rw [take_succ_cons, take_zero, flatMap_singleton, flatMap_cons,
        take_append_of_le_length hfits, take_take, Nat.min_self, length_take]
      exact ⟨min_eq_left hfits, rfl⟩

end Ixemul.Ipc
