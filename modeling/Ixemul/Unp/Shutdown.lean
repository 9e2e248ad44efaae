/-
# Ixemul.Unp.Shutdown — when the streams of a connection are freed (unp.c, pipe.c).

A connected pair of sockets has two streams, each with a reading and a writing end.  `unp_shutdown` and the
last `unp_close` mark an end as gone, and whoever marks the second end of a stream frees it and clears the
pointer, so that the same code can run again over what is already freed.  A pipe has one stream and a file
for each end; `__pclose` does the same there, and leaves the pointer in the file, which is gone with it.
-/
import Ixemul.Unp.Connect

namespace Ixemul.Unp

open Lib.Run
open Function

/-! ## Streams -/

/-- The stream to the server, or the one from it. -/
def UnixSocket.stream (us : UnixSocket) (toServer : Bool) : Option Stream :=
  if toServer then us.toServer else us.fromServer

/-- `find_stream`, for a socket. -/
def findStream (us : UnixSocket) (f : Nat) (readStream : Bool) : Option Stream :=
  let readStream := if us.server ≠ some f then !readStream else readStream
  if readStream then us.toServer else us.fromServer

/-- What is left of a stream when its ends are gone or not. -/
def leftOf (noReader noWriter : Bool) : Option Stream :=
  if noReader && noWriter then none else some ⟨noReader, noWriter⟩

theorem closeEnd_leftOf (readStream noReader noWriter : Bool) :
    closeEnd readStream (leftOf noReader noWriter) =
      leftOf (noReader || readStream) (noWriter || !readStream) := by
  cases readStream <;> cases noReader <;> cases noWriter <;> rfl

theorem leftOf_eq_none (noReader noWriter : Bool) :
    leftOf noReader noWriter = none ↔ noReader ∧ noWriter := by
  cases noReader <;> cases noWriter <;> simp [leftOf]

theorem stream_closeStream (us : UnixSocket) (f : Nat) (readStream toServer : Bool) :
    (closeStream us f readStream).stream toServer =
      if isToServer us f readStream = toServer then closeEnd readStream (us.stream toServer)
      else us.stream toServer := by
  unfold closeStream
  cases isToServer us f readStream <;> cases toServer <;> rfl

/-- The two calls that a shutdown of both halves and the last close make. -/
def closeBoth (us : UnixSocket) (f : Nat) : UnixSocket := closeStream (closeStream us f true) f false

/-! ## The two ends of a pair -/

/-- The socket `s` after a step, if it is one of these. -/
def sockAfter (y : Sys) (s : Nat) : Op → UnixSocket
  | .shutdown _ g how => shutdown (y.sock s) g how
  | .close _ g => if y.file g = some ⟨s, 1⟩ then closeBoth (y.sock s) g else y.sock s
  | _ => y.sock s

/-- The step frees the stream. -/
def frees (s : Nat) (toServer : Bool) (x : Sys × Op) : Bool :=
  ((x.1.sock s).stream toServer).isSome && ((sockAfter x.1 s x.2).stream toServer).isNone

/-- The step shuts the reading or the writing half of file `f` down, or closes the file for good. -/
def shuts (f : Nat) (readStream : Bool) (x : Sys × Op) : Bool :=
  match x.2 with
  | .shutdown _ g how => g == f && (how == 2 || how == if readStream then 0 else 1)
  | .close _ g => g == f && (match x.1.file g with
    | some fp => fp.count == 1
    | none => false)
  | _ => false

/-- `f` and `c` are the files of the server and of the client, just connected by socket `s`. -/
structure Paired (y : Sys) (s c f : Nat) : Prop where
  differ : c ≠ f
  client : ∃ n, y.file c = some ⟨s, n + 1⟩
  server : ∃ n, y.file f = some ⟨s, n + 1⟩
  serverIs : (y.sock s).server = some f
  noName : (y.sock s).unixName = none
  open_ : ∀ toServer, (y.sock s).stream toServer = some Stream.init

/-- A call of shutdown, dup or close for one of the files. -/
def OnEnds (c f : Nat) : Op → Prop
  | .shutdown _ g _ => g = c ∨ g = f
  | .dup g => g = c ∨ g = f
  | .close _ g => g = c ∨ g = f
  | _ => False

/-- The file that reads from a stream, and the one that writes to it. -/
def readerOf (c f : Nat) (toServer : Bool) : Nat := if toServer then f else c
def writerOf (c f : Nat) (toServer : Bool) : Nat := if toServer then c else f

/-- Where a pair stands after some calls: each stream is what its ends, by the calls made, leave of it,
and was freed once if that is nothing. -/
structure Stands (s c f : Nat) (tr : List (Sys × Op)) (y : Sys) : Prop where
  files : ∀ g, g = c ∨ g = f → ∀ fp, y.file g = some fp → fp.sock = s
  serverIs : (y.sock s).server = some f
  noName : (y.sock s).unixName = none
  stream : ∀ toServer, (y.sock s).stream toServer =
    leftOf (tr.any (shuts (readerOf c f toServer) true)) (tr.any (shuts (writerOf c f toServer) false))
  freed : ∀ toServer, tr.countP (frees s toServer) =
    if tr.any (shuts (readerOf c f toServer) true) ∧ tr.any (shuts (writerOf c f toServer) false) then 1
    else 0

section

variable {s c f g : Nat} {us : UnixSocket} {y z : Sys} {op : Op} {tr : List (Sys × Op)}
  {toServer noReader noWriter : Bool}

section

variable (hserver : us.server = some f) (hcf : c ≠ f) (hg : g = c ∨ g = f)
include hserver hcf hg

theorem isToServer_iff (readStream toServer : Bool) : isToServer us g readStream = toServer ↔
      g = if readStream then readerOf c f toServer else writerOf c f toServer := by
  rcases hg with rfl | rfl <;> cases readStream <;> cases toServer <;>
    simp [isToServer, readerOf, writerOf, hserver, Ne.symm hcf, hcf]

theorem stream_closeStream_leftOf (readStream : Bool)
    (h : us.stream toServer = leftOf noReader noWriter) :
    (closeStream us g readStream).stream toServer =
      leftOf (noReader || (readStream && g == readerOf c f toServer))
        (noWriter || (!readStream && g == writerOf c f toServer)) := by
  rw [stream_closeStream, h, closeEnd_leftOf, ite_cond_congr (propext (isToServer_iff hserver hcf hg _ _))]
  cases readStream with
  | true => by_cases hread : g = readerOf c f toServer <;> simp [hread, beq_eq_false_iff_ne.mpr]
  | false => by_cases hwrite : g = writerOf c f toServer <;> simp [hwrite, beq_eq_false_iff_ne.mpr]

theorem stream_closeBoth_leftOf (h : us.stream toServer = leftOf noReader noWriter) :
    (closeBoth us g).stream toServer =
      leftOf (noReader || g == readerOf c f toServer) (noWriter || g == writerOf c f toServer) := by
  have hread := stream_closeStream_leftOf hserver hcf hg true h
  have hserver' : (closeStream us g true).server = some f := (closeStream_server us g true).trans hserver
  have hboth := stream_closeStream_leftOf hserver' hcf hg false hread
  rw [closeBoth, hboth]
  simp

end

theorem Stands.sock (h : Stands s c f tr y) (hop : OnEnds c f op) (hstep : Step y op z) :
    z.sock s = sockAfter y s op := by
  cases hstep with
  | @shutdown t g how fp ht hf =>
    obtain rfl := h.files g hop fp hf
    exact update_self ..
  | dup => rfl
  | @close t g s' count ht hf =>
    have hne : y.file g ≠ some ⟨s, 1⟩ := by simp [hf]
    exact (if_neg hne).symm
  | @closeLast t g s' ht hf =>
    obtain rfl : s' = s := h.files g hop _ hf
    have hname : ((y.setSock s' (closeStream (y.sock s') g true)).sock s').unixName = none := by
      simpa [Sys.setSock] using h.noName
    rw [sockAfter, if_pos hf, closeLast, freeName, hname]
    simp [Sys.setSock, Sys.setFile, closeBoth]
  | _ => exact hop.elim

theorem Stands.stream_after (h : Stands s c f tr y) (hcf : c ≠ f) (hop : OnEnds c f op) (toServer : Bool) :
    (sockAfter y s op).stream toServer =
      leftOf
        (tr.any (shuts (readerOf c f toServer) true) || shuts (readerOf c f toServer) true (y, op))
        (tr.any (shuts (writerOf c f toServer) false) || shuts (writerOf c f toServer) false (y, op)) := by
  have hst := h.stream toServer
  cases op with
  | dup => simpa [sockAfter, shuts] using hst
  | shutdown t g how =>
    match how with
    | 0 => simpa [sockAfter, shutdown, shuts] using stream_closeStream_leftOf h.serverIs hcf hop true hst
    | 1 => simpa [sockAfter, shutdown, shuts] using stream_closeStream_leftOf h.serverIs hcf hop false hst
    | 2 => simpa [sockAfter, shutdown, shuts, closeBoth] using stream_closeBoth_leftOf h.serverIs hcf hop hst
    | n + 3 => simpa [sockAfter, shutdown, shuts] using hst
  | close t g =>
    by_cases hlast : y.file g = some ⟨s, 1⟩
    · simpa [sockAfter, shuts, hlast] using stream_closeBoth_leftOf h.serverIs hcf hop hst
    · have hnot : ∀ r k, shuts k r (y, .close t g) = false := by
        intro r k
        cases hfile : y.file g with
        | none => simp [shuts, hfile]
        | some fp =>
          obtain rfl := h.files g hop fp hfile
          have hcount : fp.count ≠ 1 := by
            intro hone
            exact hlast (by rw [hfile, ← hone])
          simp [shuts, hfile, hcount]
      simpa [sockAfter, hlast, hnot] using hst
  | _ => exact hop.elim

theorem sockAfter_kept (y : Sys) (s : Nat) (op : Op) : (sockAfter y s op).server = (y.sock s).server ∧
    (sockAfter y s op).unixName = (y.sock s).unixName := by
  cases op with
  | shutdown =>
    simp only [sockAfter, shutdown]
    split <;> simp
  | close =>
    simp only [sockAfter, closeBoth]
    split <;> simp
  | _ => exact ⟨rfl, rfl⟩

theorem Stands.files_after (h : Stands s c f tr y) (hop : OnEnds c f op) (hstep : Step y op z) :
    ∀ g, g = c ∨ g = f → ∀ fp, z.file g = some fp → fp.sock = s := by
  intro g hg fp hfp
  cases hstep with
  | shutdown => exact h.files g hg fp hfp
  | @dup g' fp' hf =>
    rcases Sys.file_setFile hfp with ⟨⟨⟩⟩ | hfp
    · exact h.files g' hop fp' hf
    · exact h.files g hg fp hfp
  | @close t g' s' count ht hf =>
    rcases Sys.file_setFile hfp with ⟨⟨⟩⟩ | hfp
    · exact h.files g' hop ⟨s', count + 2⟩ hf
    · exact h.files g hg fp hfp
  | @closeLast t g' s' =>
    have hfile : ∀ y' : Sys, (freeName y' s').file = y'.file := by
      intro y'
      unfold freeName
      split <;> rfl
    rcases Sys.file_setFile hfp with ⟨⟨⟩⟩ | hfp
    exact h.files g hg fp ((congrFun (hfile (y.setSock s' _)) g).symm.trans hfp)
  | _ => exact hop.elim

theorem Stands.step (h : Stands s c f tr y) (hcf : c ≠ f) (hop : OnEnds c f op) (hstep : Step y op z) :
    Stands s c f (tr ++ [(y, op)]) z := by
  have hsock := h.sock hop hstep
  have hany : ∀ k r, (tr ++ [(y, op)]).any (shuts k r) = (tr.any (shuts k r) || shuts k r (y, op)) := by
    simp
  refine ⟨h.files_after hop hstep, ?_, ?_, fun toServer => ?_, fun toServer => ?_⟩
  · rw [hsock, (sockAfter_kept y s op).1, h.serverIs]
  · rw [hsock, (sockAfter_kept y s op).2, h.noName]
  · rw [hsock, h.stream_after hcf hop, hany, hany]
  · -- the stream is freed by the step that shuts the second end
    have hfree : frees s toServer (y, op) =
        (((y.sock s).stream toServer).isSome && ((sockAfter y s op).stream toServer).isNone) := rfl
    rw [List.countP_append, List.countP_singleton, h.freed, hfree, h.stream_after hcf hop, h.stream, hany,
      hany]
    cases tr.any (shuts (readerOf c f toServer) true) <;>
      cases tr.any (shuts (writerOf c f toServer) false) <;>
      cases shuts (readerOf c f toServer) true (y, op) <;>
      cases shuts (writerOf c f toServer) false (y, op) <;>
      rfl

theorem Paired.stands (h : Paired y s c f) : Stands s c f [] y where
  files := by
    rintro g (rfl | rfl) fp hfp
    · obtain ⟨n, hn⟩ := h.client
      cases hn.symm.trans hfp
      rfl
    · obtain ⟨n, hn⟩ := h.server
      cases hn.symm.trans hfp
      rfl
  serverIs := h.serverIs
  noName := h.noName
  stream := h.open_
  freed := fun _ => rfl

theorem Stands.of_history {y₀ : Sys} (hp : Paired y₀ s c f) (h : History Step y₀ tr y)
    (hops : ∀ x ∈ tr, OnEnds c f x.2) : Stands s c f tr y := by
  induction h with
  | nil => exact hp.stands
  | snoc _ hstep ih =>
    rw [List.forall_mem_append, List.forall_mem_singleton] at hops
    exact (ih hops.1).step hp.differ hops.2 hstep

end

/-! ## Pipes -/

/-- A pipe: its stream, `f_count` of the file that reads (`true`) and of the one that writes, and how often
the stream was freed. -/
structure Pipe where
  ss : Stream
  count : Bool → Nat
  frees : Nat

inductive PipeOp where
  | dup (reader : Bool)
  | close (reader : Bool)
  | shutdown (reader : Bool) (how : Nat)
  deriving DecidableEq, Repr

/-- The end that a call is made for. -/
def PipeOp.reader : PipeOp → Bool
  | .dup reader => reader
  | .close reader => reader
  | .shutdown reader _ => reader

namespace Pipe

/-- As `pipe` sets it up. -/
def start : Pipe := ⟨Stream.init, fun _ => 1, 0⟩

/-- `__pclose` -/
def pclose (p : Pipe) (reader : Bool) : Pipe :=
  let p := { p with count := update p.count reader (p.count reader - 1) }
  if p.count reader = 0 then
    let ss := if reader then { p.ss with noReader := true } else { p.ss with noWriter := true }
    if ss.noReader && ss.noWriter then { p with ss, frees := p.frees + 1 } else { p with ss }
  else p

/-- A pipe is not a socket: for `shutdown` it is ENOTSOCK. -/
def run (p : Pipe) : PipeOp → Pipe
  | .dup reader => { p with count := update p.count reader (p.count reader + 1) }
  | .close reader => p.pclose reader
  | .shutdown _ _ => p

/-- A call is made for a file that is open. -/
def Step (p : Pipe) (op : PipeOp) (q : Pipe) : Prop := p.count op.reader ≠ 0 ∧ q = p.run op

/-- The flags say which file is gone, and the stream was freed once if both are. -/
structure Kept (p : Pipe) : Prop where
  noReader : p.ss.noReader = (p.count true == 0)
  noWriter : p.ss.noWriter = (p.count false == 0)
  frees : p.frees = if p.count true = 0 ∧ p.count false = 0 then 1 else 0

variable {p : Pipe} {reader : Bool}

/-- A file that stays open. -/
theorem Kept.setCount (h : Kept p) (hen : p.count reader ≠ 0) (n : Nat) :
    Kept { p with count := update p.count reader (n + 1) } := by
  obtain ⟨hr, hw, hf⟩ := h
  cases reader with
  | true => exact ⟨by simp [hr, hen], by simp [hw], by simp [hf, hen]⟩
  | false => exact ⟨by simp [hr], by simp [hw, hen], by simp [hf, hen]⟩

theorem Kept.pclose_last (h : Kept p) (hone : p.count reader = 1) : Kept (p.pclose reader) := by
  obtain ⟨hr, hw, hf⟩ := h
  have hmark : p.pclose reader = ⟨if reader then { p.ss with noReader := true }
      else { p.ss with noWriter := true }, update p.count reader 0,
      p.frees + if p.count (!reader) = 0 then 1 else 0⟩ := by
    by_cases hother : p.count (!reader) = 0 <;> cases reader <;> simp_all [pclose]
  rw [hmark]
  cases reader with
  | true => exact ⟨by simp, by simp [hw], by simp [hf, hone]⟩
  | false => exact ⟨by simp [hr], by simp, by simp [hf, hone]⟩

theorem Kept.step {q : Pipe} {op : PipeOp} (h : Kept p) (hstep : Step p op q) : Kept q := by
  obtain ⟨hen, rfl⟩ := hstep
  cases op with
  | dup => exact h.setCount hen _
  | close reader =>
    match hcount : p.count reader with
    | 0 => exact absurd hcount hen
    | 1 => exact h.pclose_last hcount
    | n + 2 =>
      have hmore : p.pclose reader = { p with count := update p.count reader (n + 1) } := by
        simp [pclose, hcount]
      rw [run, hmore]
      exact h.setCount hen n
  | shutdown => exact h

theorem Kept.of_history {tr : List (Pipe × PipeOp)} (h : History Step start tr p) : Kept p :=
  h.invariant (C := fun _ _ => True) (fun _ _ _ hp _ hstep => hp.step hstep) ⟨rfl, rfl, rfl⟩
    (fun _ _ => trivial)

end Pipe

/-! ## Freed once -/

/-- **Every stream is freed once, when its second end goes.**  For a connected pair of sockets and for a
pipe, after any calls of shutdown, dup and close for both ends: a stream was freed once if its reading
and its writing end were both shut down or closed for good, and otherwise not; and once it was freed,
`find_stream` does not return it for any descriptor: for a pipe there is none left. -/
theorem streams_freed_once :
    (∀ (s c f : Nat) (y₀ y : Sys) (tr : List (Sys × Op)), Paired y₀ s c f → History Step y₀ tr y →
      (∀ x ∈ tr, OnEnds c f x.2) → ∀ toServer,
        tr.countP (frees s toServer) =
            (if tr.any (shuts (readerOf c f toServer) true) ∧ tr.any (shuts (writerOf c f toServer) false)
              then 1 else 0) ∧
          (tr.countP (frees s toServer) = 1 → ∀ g readStream,
            isToServer (y.sock s) g readStream = toServer → findStream (y.sock s) g readStream = none)) ∧
    ∀ (p : Pipe) (tr : List (Pipe × PipeOp)), History Pipe.Step Pipe.start tr p →
      p.frees = (if p.count true = 0 ∧ p.count false = 0 then 1 else 0) ∧
        (p.frees = 1 → ∀ reader, p.count reader = 0) := by
  refine ⟨fun s c f y₀ y tr hp h hops toServer => ?_, fun p tr h => ?_⟩
  · have hst := Stands.of_history hp h hops
    refine ⟨hst.freed toServer, fun hone g readStream hg => ?_⟩
    rw [hst.freed toServer, ite_eq_left_iff] at hone
    have hboth := by_contra fun hnot => absurd (hone hnot) (by decide)
    change (y.sock s).stream (isToServer (y.sock s) g readStream) = none
    rw [hg, hst.stream, leftOf_eq_none]
    exact hboth
  · have hkept := Pipe.Kept.of_history h
    refine ⟨hkept.frees, fun hone reader => ?_⟩
    rw [hkept.frees, ite_eq_left_iff] at hone
    have hboth := by_contra fun hnot => absurd (hone hnot) (by decide)
    cases reader with
    | true => exact hboth.1
    | false => exact hboth.2

theorem paired_connected : Paired connected 1 1 2 where
  differ := by decide
  client := ⟨0, rfl⟩
  server := ⟨0, rfl⟩
  serverIs := rfl
  noName := rfl
  open_ := by
    intro toServer
    cases toServer <;> rfl

/-- The server of a connection has shut its reading half down when the client closes its file, and
closes its own; and a pipe is closed at both ends. -/
theorem streams_freed_once_connected :
    (∃ tr y, History Step connected tr y ∧
      tr.map Prod.snd = [.shutdown 0 2 0, .dup 2, .close 0 1, .close 0 2, .close 0 2] ∧
      ∀ toServer, tr.countP (frees 1 toServer) = 1) ∧
    ∃ tr p, History Pipe.Step Pipe.start tr p ∧ tr.map Prod.snd = [.close true, .close false] ∧
      p.frees = 1 := by
  have h₁ := (History.nil connected).snoc (@Step.shutdown _ 0 2 0 _ rfl rfl)
  have h₂ := h₁.snoc (@Step.dup _ 2 _ rfl)
  have h₃ := h₂.snoc (@Step.closeLast _ 0 1 1 rfl rfl)
  have h₄ := h₃.snoc (@Step.close _ 0 2 1 0 rfl rfl)
  have h₅ := h₄.snoc (@Step.closeLast _ 0 2 1 rfl rfl)
  have hread : Pipe.Step Pipe.start (.close true) (Pipe.start.run (.close true)) := ⟨by decide, rfl⟩
  have hwrite : Pipe.Step (Pipe.start.run (.close true)) (.close false)
      ((Pipe.start.run (.close true)).run (.close false)) := ⟨by decide, rfl⟩
  have hp₂ := ((History.nil Pipe.start).snoc hread).snoc hwrite
  refine ⟨⟨_, _, h₅, rfl, fun toServer => ?_⟩, ⟨_, _, hp₂, rfl, ?_⟩⟩
  · refine (streams_freed_once.1 1 1 2 connected _ _ paired_connected h₅ ?_ toServer).1.trans ?_
    · simp [OnEnds]
    · cases toServer <;> rfl
  · exact (streams_freed_once.2 _ _ hp₂).1

end Ixemul.Unp
