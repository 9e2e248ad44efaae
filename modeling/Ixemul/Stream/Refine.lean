/-
# Ixemul.Stream.Refine — every interleaving of `stream_read` and `stream_write` is a byte queue.

The system is one stream with any number of calls in progress.  Its steps are the sections the calls run
under the lock, in any order; ends may be closed at any time.  What the readers got (`delivered`) and what
was taken from the writers (`accepted`) is recorded in the order of the steps.  `Reads` and `Writes` say
what a piece, a pass and a whole section have in common; with them the stream refines the bounded queue of
`Ixemul.Lib.Fifo`.

All of it rests on calls whose lengths are not negative: the system is given the lengths that may occur.  One
write of -1 byte puts the writer in front of the buffer.
-/
import Ixemul.Lib.Fifo
import Ixemul.Stream.Model

namespace Ixemul.Stream

open Lib.Ring Lib.Run
open List

variable {α : Type*} {ss : SockStream α}

/-! ## The queue in the buffer -/

/-- The bytes buffered between the reader and the writer index. -/
def queue (ss : SockStream α) : List α :=
  content unixSocketSize ss.buffer ss.reader.toNat ss.writer.toNat

/-- Both pointers point into the buffer. -/
structure Valid (ss : SockStream α) : Prop where
  reader : 0 ≤ ss.reader ∧ ss.reader < unixSocketSize
  writer : 0 ≤ ss.writer ∧ ss.writer < unixSocketSize

theorem length_queue_le (ss : SockStream α) : (queue ss).length ≤ unixSocketSize - 1 := by
  have h : fill unixSocketSize ss.reader.toNat ss.writer.toNat < unixSocketSize := fill_lt (by decide)
  rw [queue, length_content]
  omega

section

variable (hv : Valid ss)
include hv

theorem Valid.reader_lt : ss.reader.toNat < unixSocketSize := by
  have hr := hv.reader
  omega

theorem Valid.writer_lt : ss.writer.toNat < unixSocketSize := by
  have hw := hv.writer
  omega

theorem fill_eq : (fill unixSocketSize ss.reader.toNat ss.writer.toNat : Int) =
    if ss.reader ≤ ss.writer then ss.writer - ss.reader
    else ss.writer + unixSocketSize - ss.reader := by
  have hr := hv.reader
  have hw := hv.writer
  split_ifs with hle
  · rw [fill_of_le (by omega) hv.writer_lt]
    omega
  · rw [fill_of_gt (by omega) hv.reader_lt]
    omega

theorem fionread_eq : fionread ss = (queue ss).length := by
  have hfill := fill_eq hv
  have hr := hv.reader
  have hw := hv.writer
  rw [queue, length_content]
  simp only [fionread, unixSocketSize] at *
  split_ifs at * <;> omega

end

/-! ## Reading -/

/-- From `ss` and `c` the reader has moved on to `r`: it got what the queue lost at its front. -/
structure Reads (ss : SockStream α) (c : ReadCall α) (r : SockStream α × ReadCall α) : Prop where
  valid : Valid r.1
  len : 0 ≤ r.2.len ∧ r.2.len ≤ c.len
  moved : ∃ xs, r.2.got = c.got ++ xs ∧ queue ss = xs ++ queue r.1

variable {c : ReadCall α} {n : Nat}

theorem Reads.refl (hv : Valid ss) (hc : 0 ≤ c.len) : Reads ss c (ss, c) :=
  ⟨hv, ⟨hc, Int.le_refl _⟩, [], by simp⟩

theorem Reads.trans {r q : SockStream α × ReadCall α} (h : Reads ss c r) (h' : Reads r.1 r.2 q) :
    Reads ss c q := by
  obtain ⟨xs, hx1, hx2⟩ := h.moved
  obtain ⟨ys, hy1, hy2⟩ := h'.moved
  refine ⟨h'.valid, ⟨h'.len.1, Int.le_trans h'.len.2 h.len.2⟩, xs ++ ys, ?_, ?_⟩
  · rw [hy1, hx1, append_assoc]
  · rw [hx2, hy2, append_assoc]

/-- A pointer moved on in the buffer, or around. -/
theorem toNat_advance {a : Int} (ha : 0 ≤ a) (hend : a + n ≤ unixSocketSize) :
    (if a + n = unixSocketSize then 0 else a + n).toNat = (a.toNat + n) % unixSocketSize := by
  rw [← advance_eq (by omega)]
  split_ifs <;> omega

theorem reads_piece (hv : Valid ss) (hlen : n ≤ c.len)
    (hfill : n ≤ fill unixSocketSize ss.reader.toNat ss.writer.toNat)
    (hend : ss.reader + n ≤ unixSocketSize) :
    Reads ss c
      ({ ss with reader := if ss.reader + n = unixSocketSize then 0 else ss.reader + n },
        { c with
          got := c.got ++ slice ss.buffer ss.reader.toNat n
          reallyRead := c.reallyRead + n
          len := c.len - n }) := by
  have hr := hv.reader
  refine ⟨⟨?_, hv.writer⟩, ?_, slice ss.buffer ss.reader.toNat n, rfl, ?_⟩
  · dsimp only
    split_ifs <;> omega
  · dsimp only
    omega
  · show content _ ss.buffer _ _ = _ ++ content _ ss.buffer _ _
    rw [toNat_advance hr.1 hend]
    exact content_take hv.reader_lt hv.writer_lt hfill (by omega)

/-- The number of bytes of one copy. -/
theorem exists_count {len avail : Int} (hlen : 0 ≤ len) (havail : 0 ≤ avail) :
    ∃ n : Nat, (if len < avail then len else avail) = n ∧ n ≤ len ∧ n ≤ avail := by
  refine ⟨(if len < avail then len else avail).toNat, ?_⟩
  split_ifs <;> omega

theorem readUpper_reads (hv : Valid ss) (hc : 0 ≤ c.len) : Reads ss c (readUpper ss c) := by
  unfold readUpper
  split_ifs with hgt
  · have hr := hv.reader
    have hfill := fill_eq hv
    obtain ⟨n, hn, hlen, havail⟩ := exists_count hc (show 0 ≤ unixSocketSize - ss.reader by omega)
    rw [if_neg (by omega)] at hfill
    simp only [copyOut, hn, Int.toNat_natCast]
    exact reads_piece hv hlen (by have hw := hv.writer; omega) (by omega)
  · exact Reads.refl hv hc

theorem readLower_reads (hv : Valid ss) (hc : 0 ≤ c.len) : Reads ss c (readLower ss c) := by
  unfold readLower
  split_ifs with hlt
  · have hw := hv.writer
    have hfill := fill_eq hv
    obtain ⟨n, hn, hlen, havail⟩ := exists_count hc (show 0 ≤ ss.writer - ss.reader by omega)
    rw [if_pos (by omega)] at hfill
    simp only [copyOut, hn, Int.toNat_natCast]
    have h := reads_piece (c := c) hv hlen (by omega) (by omega)
    rwa [if_neg (by omega)] at h
  · exact Reads.refl hv hc

theorem readPass_progress (hv : Valid ss) (hc : 0 ≤ c.len) (hlen : c.len ≠ 0) (hcan : canRead ss) :
    (readLower (readUpper ss c).1 (readUpper ss c).2).2.len < c.len := by
  have hr := hv.reader
  have hne : ss.reader ≠ ss.writer := by simpa [canRead] using hcan
  rcases Int.lt_or_gt_of_ne hne with hlt | hgt
  · -- the upper part is passed over
    have hup : readUpper ss c = (ss, c) := by
      unfold readUpper
      rw [if_neg (by omega)]
    rw [hup]
    unfold readLower
    rw [if_pos ⟨hlen, hlt⟩]
    simp only [copyOut]
    split_ifs <;> omega
  · have hup : (readUpper ss c).2.len < c.len := by
      unfold readUpper
      rw [if_pos hgt]
      simp only [copyOut]
      split_ifs <;> omega
    have hreads := readUpper_reads hv hc
    exact Int.lt_of_le_of_lt (readLower_reads hreads.valid hreads.len.1).len.2 hup

/-- **A section of `stream_read`** delivers what it takes from the front of the queue, ends, and sleeps
only with everything it got recorded. -/
theorem readLoop_spec (fuel : Nat) (hv : Valid ss) (hc : 0 ≤ c.len) (hfuel : c.len ≤ fuel) :
    Reads ss c ((readLoop fuel ss c).1, (readLoop fuel ss c).2.1) ∧
      (readLoop fuel ss c).2.2 ≠ .spin ∧
      ∀ c', (readLoop fuel ss c).2.2 = .sleep c' → c' = (readLoop fuel ss c).2.1 := by
  fun_induction readLoop fuel ss c with
  | case1 ss c =>
    rw [if_pos (by omega)]
    exact ⟨Reads.refl hv hc, by simp, by simp⟩
  | case5 ss c =>
    refine ⟨Reads.refl hv hc, by simp, ?_⟩
    intro c' hc'
    simpa using hc'.symm
  | case6 fuel ss c h0 hcan r r' ih =>
    have hup := readUpper_reads hv hc
    have hpass := hup.trans (readLower_reads hup.valid hup.len.1)
    have hprog : r'.2.len < c.len := readPass_progress hv hc h0 (by simpa using hcan)
    obtain ⟨h1, h2, h3⟩ := ih hpass.valid hpass.len.1 (by omega)
    exact ⟨hpass.trans h1, h2, h3⟩
  | _ => exact ⟨Reads.refl hv hc, by simp, by simp⟩

/-! ## Writing -/

/-- From `ss` and `c` the writer has moved on to `r`: the queue got what the caller had first. -/
structure Writes (ss : SockStream α) (c : WriteCall α) (r : SockStream α × WriteCall α) : Prop where
  valid : Valid r.1
  len : r.2.len = r.2.rest.length
  moved : ∃ xs, c.rest = xs ++ r.2.rest ∧ queue r.1 = queue ss ++ xs ∧
    r.2.written = c.written + xs.length

variable {d : WriteCall α} {r : SockStream α × WriteCall α} {q : Lib.Fifo.Channel α}

theorem Writes.refl (hv : Valid ss) (hd : d.len = d.rest.length) : Writes ss d (ss, d) :=
  ⟨hv, hd, [], by simp⟩

theorem Writes.trans {q : SockStream α × WriteCall α} (h : Writes ss d r) (h' : Writes r.1 r.2 q) :
    Writes ss d q := by
  obtain ⟨xs, hx1, hx2, hx3⟩ := h.moved
  obtain ⟨ys, hy1, hy2, hy3⟩ := h'.moved
  refine ⟨h'.valid, h'.len, xs ++ ys, ?_, ?_, ?_⟩
  · rw [hx1, hy1, append_assoc]
  · rw [hy2, hx2, append_assoc]
  · rw [length_append]
    omega

theorem writes_piece (hv : Valid ss) (hd : d.len = d.rest.length) (hlen : n ≤ d.len)
    (hfill : fill unixSocketSize ss.reader.toNat ss.writer.toNat + n < unixSocketSize)
    (hend : ss.writer + n ≤ unixSocketSize) :
    Writes ss d
      ({ ss with
          buffer := blit ss.buffer ss.writer.toNat (d.rest.take n)
          writer := if ss.writer + n = unixSocketSize then 0 else ss.writer + n },
        { d with rest := d.rest.drop n, len := d.len - n, written := d.written + n }) := by
  have hw := hv.writer
  have hn : (d.rest.take n).length = n := length_take_of_le (by omega)
  refine ⟨⟨hv.reader, ?_⟩, ?_, d.rest.take n, ?_, ?_, ?_⟩
  · dsimp only
    split_ifs <;> omega
  · dsimp only
    rw [length_drop]
    omega
  · simp
  · have h := content_put ss.buffer (d.rest.take n) hv.reader_lt hv.writer_lt
      (by rw [hn]; exact hfill) (by rw [hn]; omega)
    rw [hn, ← toNat_advance hw.1 hend] at h
    exact h
  · rw [hn]

theorem writeUpper_writes (hv : Valid ss) (hd : d.len = d.rest.length) : Writes ss d (writeUpper ss d) := by
  unfold writeUpper
  by_cases hge : ss.writer ≥ ss.reader
  · rw [if_pos hge]
    have hw := hv.writer
    have hr := hv.reader
    have hfill := fill_eq hv
    rw [if_pos hge] at hfill
    obtain ⟨avail, havail⟩ : ∃ avail, avail = if ss.reader > 0 then unixSocketSize - 1 - ss.writer + 1
      else unixSocketSize - 1 - ss.writer := ⟨_, rfl⟩
    have hbound : 0 ≤ avail ∧ ss.writer + avail ≤ unixSocketSize ∧
        ss.writer - ss.reader + avail < unixSocketSize := by
      split_ifs at havail <;> omega
    obtain ⟨n, hn, hlen, hle⟩ := exists_count (show 0 ≤ d.len by omega) hbound.1
    simp only [← havail, copyIn, hn, Int.toNat_natCast]
    exact writes_piece hv hd hlen (by omega) (by omega)
  · rw [if_neg hge]
    exact Writes.refl hv hd

theorem writeLower_writes (hv : Valid ss) (hd : d.len = d.rest.length) : Writes ss d (writeLower ss d) := by
  unfold writeLower
  split_ifs with hlt
  · have hr := hv.reader
    have hfill := fill_eq hv
    rw [if_neg (by omega)] at hfill
    obtain ⟨n, hn, hlen, hle⟩ := exists_count (show 0 ≤ d.len by omega)
      (show 0 ≤ ss.reader - ss.writer - 1 by omega)
    simp only [copyIn, hn, Int.toNat_natCast]
    have h := writes_piece (d := d) hv hd hlen (by omega) (by omega)
    rwa [if_neg (by omega)] at h
  · exact Writes.refl hv hd

theorem Writes.len_le (h : Writes ss d r) (hd : d.len = d.rest.length) : r.2.len ≤ d.len := by
  obtain ⟨xs, hx, -, -⟩ := h.moved
  rw [hd, hx, length_append, h.len]
  omega

theorem writePass_progress (hv : Valid ss) (hd : d.len = d.rest.length) (hlen : d.len ≠ 0)
    (hcan : canWrite ss) :
    (writeLower (writeUpper ss d).1 (writeUpper ss d).2).2.len < d.len := by
  have hw := hv.writer
  have hspace := of_decide_eq_true hcan
  rcases Int.lt_or_le ss.writer ss.reader with hlt | hge
  · have hup : writeUpper ss d = (ss, d) := by
      unfold writeUpper
      rw [if_neg (by omega)]
    rw [hup]
    unfold writeLower
    rw [if_pos (show ss.writer + 1 < ss.reader by omega)]
    simp only [copyIn]
    split_ifs <;> omega
  · have hr := hv.reader
    have hup : (writeUpper ss d).2.len < d.len := by
      unfold writeUpper
      rw [if_pos hge]
      simp only [copyIn]
      split_ifs <;> omega
    have hwrites := writeUpper_writes hv hd
    exact Int.lt_of_le_of_lt ((writeLower_writes hwrites.valid hwrites.len).len_le hwrites.len) hup

/-- **A section of `stream_write`** accepts what it puts behind the queue, ends, and sleeps only with
the rest still to be written recorded. -/
theorem writeLoop_spec (fuel : Nat) (hv : Valid ss) (hd : d.len = d.rest.length) (hfuel : d.len ≤ fuel) :
    Writes ss d ((writeLoop fuel ss d).1, (writeLoop fuel ss d).2.1) ∧
      (writeLoop fuel ss d).2.2 ≠ .spin ∧
      ∀ d', (writeLoop fuel ss d).2.2 = .sleep d' → d' = (writeLoop fuel ss d).2.1 := by
  fun_induction writeLoop fuel ss d with
  | case1 ss d =>
    rw [if_pos (by omega)]
    exact ⟨Writes.refl hv hd, by simp, by simp⟩
  | case6 ss d =>
    refine ⟨Writes.refl hv hd, by simp, ?_⟩
    intro d' hd'
    simpa using hd'.symm
  | case7 fuel ss d h0 hno hcan r r' ih =>
    have hup := writeUpper_writes hv hd
    have hpass := hup.trans (writeLower_writes hup.valid hup.len)
    have hprog : r'.2.len < d.len := writePass_progress hv hd h0 (by simpa using hcan)
    obtain ⟨h1, h2, h3⟩ := ih hpass.valid hpass.len (by omega)
    exact ⟨hpass.trans h1, h2, h3⟩
  | _ => exact ⟨Writes.refl hv hd, by simp, by simp⟩

/-! ## The system -/

/-- One stream, the calls in progress on it (by caller), and the record of what passed. -/
structure Sys (α : Type*) where
  ss : SockStream α
  readers : Nat → Option (ReadCall α)
  writers : Nat → Option (WriteCall α)
  delivered : List α
  accepted : List α

/-- A call that does not sleep is over. -/
def Outcome.pending {κ : Type*} : Outcome κ → Option κ
  | .sleep call => some call
  | _ => none

/-- The caller `i` runs a section of its `stream_read`. -/
def Sys.read (y : Sys α) (i : Nat) (c : ReadCall α) : Sys α :=
  let r := readSection y.ss c
  { y with
    ss := r.1
    readers := Function.update y.readers i r.2.2.pending
    delivered := y.delivered ++ r.2.1.got.drop c.got.length }

/-- The caller `i` runs a section of its `stream_write`. -/
def Sys.write (y : Sys α) (i : Nat) (d : WriteCall α) : Sys α :=
  let r := writeSection y.ss d
  { y with
    ss := r.1
    writers := Function.update y.writers i r.2.2.pending
    accepted := y.accepted ++ d.rest.take (r.2.1.written - d.written).toNat }

/-- Calls are made with lengths out of `lens`; a write has that many bytes to write, or none. -/
inductive Step (lens : Set Int) : Sys α → Sys α → Prop where
  | beginRead {y : Sys α} {i : Nat} (fndelay : Bool) {len : Int} (hlen : len ∈ lens)
      (h : y.readers i = none) :
      Step lens y { y with readers := Function.update y.readers i (some ⟨fndelay, [], 0, len⟩) }
  | read {y : Sys α} {i : Nat} {c : ReadCall α} (h : y.readers i = some c) : Step lens y (y.read i c)
  | beginWrite {y : Sys α} {i : Nat} (fndelay : Bool) (data : List α) {len : Int} (hlen : len ∈ lens)
      (hdata : data.length = len.toNat) (h : y.writers i = none) :
      Step lens y { y with writers := Function.update y.writers i (some ⟨fndelay, data, len, 0⟩) }
  | write {y : Sys α} {i : Nat} {d : WriteCall α} (h : y.writers i = some d) : Step lens y (y.write i d)
  /-- an end is closed -/
  | close {y : Sys α} (noReader noWriter : Bool) :
      Step lens y { y with ss := { y.ss with noReader := noReader, noWriter := noWriter } }

/-- The empty stream, with no call in progress. -/
def Sys.start (buffer : Nat → α) : Sys α :=
  ⟨initStream buffer, fun _ => none, fun _ => none, [], []⟩

def system (α : Type*) (lens : Set Int) : System (Sys α) where
  init := fun y => ∃ buffer, y = Sys.start buffer
  step := Step lens

theorem queue_start (buffer : Nat → α) : queue (Sys.start buffer).ss = [] := by
  have h0 : fill unixSocketSize 0 0 = 0 := fill_of_le (Nat.le_refl 0) (by decide)
  simp [queue, Sys.start, initStream, content, h0, window]

/-! ## Refinement -/

/-- The stream stands for the queue of its buffered bytes, with the same record; what the calls in progress
have to do is not negative. -/
structure Refines (y : Sys α) (q : Lib.Fifo.Channel α) : Prop where
  valid : Valid y.ss
  readers : ∀ i c, y.readers i = some c → 0 ≤ c.len
  writers : ∀ i d, y.writers i = some d → d.len = d.rest.length
  queue : q.queue = queue y.ss
  given : q.given = y.accepted
  taken : q.taken = y.delivered

variable {y : Sys α} {lens : Set Int}

theorem Outcome.pending_eq {κ : Type*} {o : Outcome κ} {call : κ} (h : o.pending = some call) :
    o = .sleep call := by
  cases o <;> simp_all [pending]

/-- The call of `i` is replaced by one that meets `P`, or is over. -/
theorem forall_update {κ : Type*} {calls : Nat → Option κ} {P : κ → Prop} {i : Nat} {call : Option κ}
    (h : ∀ j c, calls j = some c → P c) (hcall : ∀ c, call = some c → P c) :
    ∀ j c, Function.update calls i call j = some c → P c :=
  (Function.forall_update_iff calls fun _ o => ∀ c, o = some c → P c).mpr ⟨hcall, fun j _ => h j⟩

theorem refines_read (hR : Refines y q) (i : Nat) {c : ReadCall α} (hc : 0 ≤ c.len) :
    ∃ q', Lib.Fifo.Step (unixSocketSize - 1) q q' ∧ Refines (y.read i c) q' := by
  obtain ⟨hreads, -, hsleep⟩ := readLoop_spec c.len.natAbs hR.valid hc (by omega)
  obtain ⟨xs, hgot, hqueue⟩ := hreads.moved
  refine ⟨_, .take xs (Stream.queue (y.read i c).ss) ?_, ?_⟩
  · rw [hR.queue, hqueue]
    rfl
  · refine ⟨hreads.valid, forall_update hR.readers fun c' hc' => ?_, hR.writers, rfl, hR.given, ?_⟩
    · rw [hsleep c' (Outcome.pending_eq hc')]
      exact hreads.len.1
    · have hdrop : (readSection y.ss c).2.1.got.drop c.got.length = xs := by
        rw [readSection, hgot, drop_left]
      simp only [Sys.read, hdrop, hR.taken]

theorem refines_write (hR : Refines y q) (i : Nat) {d : WriteCall α} (hd : d.len = d.rest.length) :
    ∃ q', Lib.Fifo.Step (unixSocketSize - 1) q q' ∧ Refines (y.write i d) q' := by
  obtain ⟨hwrites, -, hsleep⟩ := writeLoop_spec d.len.natAbs hR.valid hd (by omega)
  obtain ⟨xs, hrest, hqueue, hwritten⟩ := hwrites.moved
  refine ⟨_, .put xs ?_, ?_⟩
  · -- the queue with the new bytes is the queue of a stream, and so fits
    have hle := length_queue_le (writeLoop d.len.natAbs y.ss d).1
    rw [hqueue, length_append] at hle
    rwa [hR.queue]
  · refine ⟨hwrites.valid, hR.readers, forall_update hR.writers fun d' hd' => ?_, ?_, ?_, hR.taken⟩
    · rw [hsleep d' (Outcome.pending_eq hd')]
      exact hwrites.len
    · rw [hR.queue]
      exact hqueue.symm
    · have hcount : ((writeSection y.ss d).2.1.written - d.written).toNat = xs.length := by
        rw [writeSection, hwritten]
        omega
      simp only [Sys.write, hcount, hrest, take_left, hR.given]

/-- **The stream refines the bounded byte queue**, while no call has a negative length. -/
theorem refines_fifo (hlens : ∀ len ∈ lens, 0 ≤ len) (hy : Reachable (system α lens) y) :
    ∃ q, Reachable (Lib.Fifo.system α (unixSocketSize - 1)) q ∧ Refines y q := by
  refine hy.simulate ?_ ?_
  · rintro y ⟨buffer, rfl⟩
    have h0 : (0 : Int) ≤ 0 ∧ (0 : Int) < unixSocketSize := by decide
    exact ⟨⟨[], [], []⟩, rfl, ⟨h0, h0⟩, nofun, nofun, (queue_start buffer).symm, rfl, rfl⟩
  · intro y y' q hR hstep
    cases hstep with
    | @beginRead i fndelay len hlen =>
      refine ⟨q, .refl, { hR with readers := forall_update hR.readers ?_ }⟩
      rintro c ⟨⟩
      exact hlens len hlen
    | @beginWrite i fndelay data len hlen hdata =>
      refine ⟨q, .refl, { hR with writers := forall_update hR.writers ?_ }⟩
      rintro d ⟨⟩
      have hnonneg := hlens len hlen
      show len = data.length
      omega
    | @read i c h =>
      obtain ⟨q', hq, hR'⟩ := refines_read hR i (hR.readers i c h)
      exact ⟨q', .single hq, hR'⟩
    | @write i d h =>
      obtain ⟨q', hq, hR'⟩ := refines_write hR i (hR.writers i d h)
      exact ⟨q', .single hq, hR'⟩
    | close => exact ⟨q, .refl, { hR with valid := ⟨hR.valid.reader, hR.valid.writer⟩ }⟩

/-- **Bytes come out as they went in.**  In every run of calls none of which has a negative length, what the
readers got followed by what is buffered is what was accepted from the writers; the indices stay in the
buffer, one cell of which stays empty; `FIONREAD` reports the number of buffered bytes; and every section
that can follow comes to an end. -/
theorem stream_conserved {lens : Set Int} {y : Sys α} (hlens : ∀ len ∈ lens, 0 ≤ len)
    (hy : Reachable (system α lens) y) :
    y.delivered ++ queue y.ss = y.accepted ∧
    (0 ≤ y.ss.reader ∧ y.ss.reader < unixSocketSize) ∧ (0 ≤ y.ss.writer ∧ y.ss.writer < unixSocketSize) ∧
    (queue y.ss).length ≤ unixSocketSize - 1 ∧ fionread y.ss = (queue y.ss).length ∧
    (∀ i c, y.readers i = some c → (readSection y.ss c).2.2 ≠ .spin) ∧
    ∀ i d, y.writers i = some d → (writeSection y.ss d).2.2 ≠ .spin := by
  obtain ⟨q, hq, hR⟩ := refines_fifo hlens hy
  obtain ⟨hcons, hlen⟩ := Lib.Fifo.conserved hq
  rw [hR.taken, hR.queue, hR.given] at hcons
  rw [hR.queue] at hlen
  refine ⟨hcons, hR.valid.reader, hR.valid.writer, hlen, fionread_eq hR.valid, fun i c h => ?_,
    fun i d h => ?_⟩
  · exact (readLoop_spec c.len.natAbs hR.valid (hR.readers i c h) (by omega)).2.1
  · exact (writeLoop_spec d.len.natAbs hR.valid (hR.writers i d h) (by omega)).2.1

/-- A run: three bytes are written, two of them read. -/
def threeBytes : Sys Nat :=
  let y : Sys Nat := Sys.start (fun _ => 0)
  let y := { y with writers := Function.update y.writers 0 (some ⟨false, [7, 8, 9], 3, 0⟩) }
  let y := y.write 0 ⟨false, [7, 8, 9], 3, 0⟩
  let y := { y with readers := Function.update y.readers 1 (some ⟨false, [], 0, 2⟩) }
  y.read 1 ⟨false, [], 0, 2⟩

theorem threeBytes_reachable : Reachable (system Nat {2, 3}) threeBytes := by
  have h0 : Reachable (system Nat {2, 3}) (Sys.start (fun _ => 0)) := .init ⟨_, rfl⟩
  have h1 : Reachable (system Nat {2, 3}) _ :=
    .step h0 (Step.beginWrite (i := 0) false [7, 8, 9] (.inr rfl) rfl rfl)
  have h2 : Reachable (system Nat {2, 3}) _ :=
    .step h1 (Step.write (i := 0) (d := ⟨false, [7, 8, 9], 3, 0⟩) rfl)
  have h3 : Reachable (system Nat {2, 3}) _ := .step h2 (Step.beginRead (i := 1) false (.inl rfl) rfl)
  exact .step h3 (Step.read (i := 1) (c := ⟨false, [], 0, 2⟩) rfl)

theorem stream_conserved_threeBytes :
    threeBytes.delivered = [7, 8] ∧ threeBytes.accepted = [7, 8, 9] ∧ fionread threeBytes.ss = 1 ∧
      threeBytes.delivered ++ queue threeBytes.ss = threeBytes.accepted := by
  refine ⟨by decide, by decide, by decide, (stream_conserved ?_ threeBytes_reachable).1⟩
  rintro len (rfl | rfl) <;> decide

/-- **A write of -1 byte** to an empty stream puts the writer in front of the buffer, and `FIONREAD` then
reports 5119 bytes where none was written. -/
theorem writer_before_buffer : ∃ y : Sys Nat, Reachable (system Nat {-1}) y ∧ y.accepted = [] ∧
    y.ss.writer = -1 ∧ fionread y.ss = 5119 := by
  have h0 : Reachable (system Nat {-1}) (Sys.start (fun _ => 0)) := .init ⟨_, rfl⟩
  have h1 : Reachable (system Nat {-1}) _ := .step h0 (Step.beginWrite (i := 0) false [] rfl rfl rfl)
  have h2 : Reachable (system Nat {-1}) _ := .step h1 (Step.write (i := 0) (d := ⟨false, [], -1, 0⟩) rfl)
  exact ⟨_, h2, by decide, by decide, by decide⟩

end Ixemul.Stream
