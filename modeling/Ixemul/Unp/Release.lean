/-
# Ixemul.Unp.Release — what becomes of a `unix_socket` (unp.c).

The `unix_socket` that `unp_socket` allocates is shared by the files of both ends.  `close_stream` gives it
back when both streams are closed, the name is gone, the file it was called for has no descriptor left, and
its caller says with `from_close` that this is a close.  No caller says so: `unp_close` passes FALSE, as
`unp_shutdown` does.

Here `close_stream` is modelled with that last section, over the steps of `Unp.Model`; a history variable
records the structures that were given to `kfree`.
-/
import Ixemul.Lib.Run
import Ixemul.Unp.Model

namespace Ixemul.Unp.Release

open Lib.Run
open Function List

/-! ## close_stream with its last section -/

def streamIsClosed : Option Stream → Bool
  | none => true
  | some ss => ss.noReader && ss.noWriter

/-- The sockets and names, and as history the `unix_socket`s that were released. -/
structure Heap where
  sys : Sys
  released : List Nat

def Heap.init : Heap := ⟨Sys.init, []⟩

/-- Inside a call: `fsock` is `f->f_sock`, which is cleared when the structure is released. -/
structure Closing where
  heap : Heap
  fsock : Option Nat

/-- The test in front of `kfree(us)`. -/
def mayRelease (us : UnixSocket) (count : Nat) (fromClose : Bool) : Bool :=
  streamIsClosed us.toServer && streamIsClosed us.fromServer && us.unixName.isNone && count == 0 && fromClose

/-- `close_stream`, for file `f` with `f_count = count`. -/
def closeStream (f count : Nat) (readStream fromClose : Bool) (z : Closing) : Closing :=
  match z.fsock with
  | none => z
  | some s =>
    let y := z.heap.sys
    let y := y.setSock s (Unp.closeStream (y.sock s) f readStream)
    -- a listening socket is closed
    let y := if readStream && count == 0 then freeName y s else y
    if mayRelease (y.sock s) count fromClose then ⟨⟨y, z.heap.released ++ [s]⟩, none⟩
    else ⟨⟨y, z.heap.released⟩, some s⟩

/-- `unp_shutdown`. -/
def unpShutdown (z : Heap) (f : Nat) (fp : File) (how : Nat) : Heap :=
  let closing : Closing := ⟨z, some fp.sock⟩
  match how with
  | 0 => (closeStream f fp.count true false closing).heap
  | 1 => (closeStream f fp.count false false closing).heap
  | 2 => (closeStream f fp.count false false (closeStream f fp.count true false closing)).heap
  | _ => z

/-- `unp_close`. -/
def unpClose (z : Heap) (f : Nat) (fp : File) : Heap :=
  let count := fp.count - 1
  if count = 0 then
    let z := (closeStream f count false false (closeStream f count true false ⟨z, some fp.sock⟩)).heap
    -- `ffree`
    { z with sys := z.sys.setFile f none }
  else { z with sys := z.sys.setFile f (some ⟨fp.sock, count⟩) }

/-! ## Steps -/

/-- The steps of `Unp.Model`, and a call of `unp_socket` that gets no descriptor. -/
inductive ReleaseOp where
  | op (a : Op)
  | socketFailed (t : Nat)

/-- The operations in which `close_stream` is called. -/
def closes : Op → Bool
  | .shutdown .. | .close .. => true
  | _ => false

inductive Step : Heap → ReleaseOp → Heap → Prop where
  | other {z : Heap} {a : Op} {y : Sys} (ha : closes a = false) (h : Unp.Step z.sys a y) :
      Step z (.op a) { z with sys := y }
  | shutdown {z : Heap} {t f how : Nat} {fp : File} (ht : z.sys.pc t = .idle)
      (hf : z.sys.file f = some fp) (hcount : 0 < fp.count) :
      Step z (.op (.shutdown t f how)) (unpShutdown z f fp how)
  | close {z : Heap} {t f : Nat} {fp : File} (ht : z.sys.pc t = .idle) (hf : z.sys.file f = some fp)
      (hcount : 0 < fp.count) : Step z (.op (.close t f)) (unpClose z f fp)
  /-- the structure is allocated, `falloc` fails, and it is released again -/
  | socketFailed {z : Heap} {t : Nat} (ht : z.sys.pc t = .idle) :
      Step z (.socketFailed t)
        { sys := { z.sys with socks := z.sys.socks + 1 }, released := z.released ++ [z.sys.socks] }

/-! ## With from_close FALSE nothing is released -/

section

variable {z z' : Heap} {f s count : Nat} {fp : File} {readStream : Bool} {a : ReleaseOp} {y y' : Sys}
  {tr : List (Heap × ReleaseOp)}

theorem mayRelease_false (us : UnixSocket) (count : Nat) : mayRelease us count false = false :=
  Bool.and_false _

theorem closeStream_open (hcount : 0 < count) :
    closeStream f count readStream false ⟨z, some s⟩ =
      ⟨⟨z.sys.setSock s (Unp.closeStream (z.sys.sock s) f readStream), z.released⟩, some s⟩ := by
  have hne : (count == 0) = false := beq_eq_false_iff_ne.mpr (by omega)
  simp [closeStream, hne, mayRelease_false]

theorem closeStream_last_read :
    closeStream f 0 true false ⟨z, some s⟩ =
      ⟨⟨freeName (z.sys.setSock s (Unp.closeStream (z.sys.sock s) f true)) s, z.released⟩, some s⟩ := by
  simp [closeStream, mayRelease_false]

theorem closeStream_last_write :
    closeStream f 0 false false ⟨z, some s⟩ =
      ⟨⟨z.sys.setSock s (Unp.closeStream (z.sys.sock s) f false), z.released⟩, some s⟩ := by
  simp [closeStream, mayRelease_false]

theorem unpShutdown_eq (how : Nat) (hcount : 0 < fp.count) :
    unpShutdown z f fp how =
      { z with sys := z.sys.setSock fp.sock (Unp.shutdown (z.sys.sock fp.sock) f how) } := by
  unfold unpShutdown Unp.shutdown
  split
  · simp only [closeStream_open hcount]
  · simp only [closeStream_open hcount]
  · simp only [closeStream_open hcount]
    simp [Sys.setSock]
  · simp [Sys.setSock]

theorem unpClose_last (hcount : fp.count = 1) :
    unpClose z f fp = { z with sys := closeLast z.sys f fp.sock } := by
  simp only [unpClose, hcount, Nat.sub_self, if_true, closeStream_last_read, closeStream_last_write]
  rfl

theorem unpClose_more (hcount : 1 < fp.count) :
    unpClose z f fp = { z with sys := z.sys.setFile f (some ⟨fp.sock, fp.count - 1⟩) } := by
  have hne : fp.count - 1 ≠ 0 := by omega
  simp only [unpClose, hne, if_false]

/-- **A close or shutdown of a descriptor releases nothing**, whatever was or was not closed before. -/
theorem Step.released_eq {a : Op} (h : Step z (.op a) z') : z'.released = z.released := by
  cases h with
  | other => rfl
  | shutdown _ _ hcount => rw [unpShutdown_eq _ hcount]
  | @close _ _ fp =>
    rcases Nat.lt_or_ge 1 fp.count with hmore | hlast
    · rw [unpClose_more hmore]
    · rw [unpClose_last (by omega)]

/-- What the calls do to sockets, names and files is a step of `Unp.Model`. -/
theorem Step.model {a : Op} (h : Step z (.op a) z') : Unp.Step z.sys a z'.sys := by
  cases h with
  | other _ h => exact h
  | shutdown ht hf hcount =>
    rw [unpShutdown_eq _ hcount]
    exact .shutdown ht hf
  | @close t f fp ht hf hcount =>
    obtain ⟨s, count⟩ := fp
    obtain _ | _ | count := count
    · exact absurd hcount (Nat.lt_irrefl 0)
    · rw [unpClose_last rfl]
      exact .closeLast ht hf
    · exact .close ht hf

/-! ## Whole runs -/

/-- A step of the run was the `unp_socket` that allocated `s`. -/
def Created (s : Nat) (tr : List (Heap × ReleaseOp)) : Prop :=
  ∃ z t f, (z, .op (.socket t f)) ∈ tr ∧ z.sys.socks = s

/-- No file refers to `s`. -/
def AllClosed (s : Nat) (z : Heap) : Prop := ∀ f fp, z.sys.file f = some fp → fp.sock ≠ s

/-- `kfree` was called for `s`, once. -/
def ReleasedOnce (s : Nat) (z : Heap) : Prop := z.released.count s = 1

/-- What is released was allocated. -/
def Allocated (z : Heap) : Prop := ∀ s ∈ z.released, s < z.sys.socks

theorem socks_mono {a : Op} (h : Unp.Step y a y') : y.socks ≤ y'.socks := by
  cases h with
  | socket => exact Nat.le_succ _
  | closeLast =>
    unfold closeLast freeName
    split <;> exact Nat.le_refl _
  | _ => exact Nat.le_refl _

theorem socks_socket {t : Nat} (h : Unp.Step y (.socket t f) y') : y'.socks = y.socks + 1 := by
  cases h with
  | socket => rfl

theorem Allocated.step (hz : Allocated z) (h : Step z a z') : Allocated z' := by
  intro s hs
  cases a with
  | op =>
    rw [h.released_eq] at hs
    exact Nat.lt_of_lt_of_le (hz s hs) (socks_mono h.model)
  | socketFailed =>
    cases h with
    | socketFailed =>
      rcases mem_append.mp hs with hs | hs
      · exact Nat.lt_succ_of_lt (hz s hs)
      · rw [mem_singleton.mp hs]
        exact Nat.lt_succ_self _

theorem Created.snoc (h : Created s (tr ++ [(z, a)])) :
    Created s tr ∨ (∃ t f, a = .op (.socket t f)) ∧ z.sys.socks = s := by
  obtain ⟨w, t, f, hmem, hw⟩ := h
  rcases mem_append.mp hmem with hmem | hmem
  · exact .inl ⟨w, t, f, hmem, hw⟩
  · obtain ⟨rfl, rfl⟩ := Prod.ext_iff.mp (mem_singleton.mp hmem)
    exact .inr ⟨⟨t, f, rfl⟩, hw⟩

/-- A structure that has had a descriptor is allocated and was not released, as long as the run goes on. -/
theorem kept_of_created (h : History Step Heap.init tr z) :
    Allocated z ∧ ∀ s, Created s tr → s < z.sys.socks ∧ s ∉ z.released := by
  induction h with
  | nil =>
    refine ⟨fun s hs => absurd hs not_mem_nil, ?_⟩
    rintro s ⟨w, t, f, hmem, -⟩
    exact absurd hmem not_mem_nil
  | @snoc y z tr a _ hst ih =>
    obtain ⟨halloc, hkept⟩ := ih
    refine ⟨halloc.step hst, fun s hs => ?_⟩
    cases a with
    | op =>
      rw [hst.released_eq]
      rcases hs.snoc with hold | ⟨⟨t, f, ha⟩, rfl⟩
      · exact ⟨Nat.lt_of_lt_of_le (hkept s hold).1 (socks_mono hst.model), (hkept s hold).2⟩
      · cases ha
        rw [socks_socket hst.model]
        exact ⟨Nat.lt_succ_self _, fun hmem => Nat.lt_irrefl _ (halloc _ hmem)⟩
    | socketFailed =>
      have hold : Created s tr := by
        rcases hs.snoc with hold | ⟨⟨t', f, ha⟩, -⟩
        · exact hold
        · cases ha
      obtain ⟨hlt, hnot⟩ := hkept s hold
      cases hst with
      | socketFailed =>
        refine ⟨Nat.lt_succ_of_lt hlt, fun hmem => ?_⟩
        -- the number that is released is a new one
        rcases mem_append.mp hmem with hmem | hmem
        · exact hnot hmem
        · exact Nat.ne_of_lt hlt (mem_singleton.mp hmem)

end

/-! A socket that is made and closed again. -/

def oneSocket : Heap := ⟨Sys.init.newSocket 0, []⟩

def oneClosed : Heap := unpClose oneSocket 0 ⟨0, 1⟩

def oneRun : List (Heap × ReleaseOp) :=
  [(Heap.init, .op (.socket 0 0)), (oneSocket, .op (.close 0 0))]

theorem history_oneRun : History Step Heap.init oneRun oneClosed := by
  have hmake : Step Heap.init (.op (.socket 0 0)) oneSocket := .other rfl (.socket rfl rfl)
  have hclose : Step oneSocket (.op (.close 0 0)) oneClosed := .close rfl rfl Nat.one_pos
  exact ((History.nil Heap.init).snoc hmake).snoc hclose

theorem created_oneRun : Created 0 oneRun := ⟨Heap.init, 0, 0, mem_cons_self, rfl⟩

theorem allClosed_oneClosed : AllClosed 0 oneClosed := by
  intro f fp hf
  have hnone : oneClosed.sys.file f = none := by
    by_cases h : f = 0
    · subst h
      rfl
    · show update (update (fun _ => none) 0 (some (File.mk 0 1))) 0 none f = none
      rw [update_of_ne h, update_of_ne h]
  rw [hnone] at hf
  cases hf

/-- **The `unix_socket` of a socket is released in no run**: when every descriptor of both ends is closed, it
was never given to `kfree`. -/
theorem unix_socket_not_released {tr : List (Heap × ReleaseOp)} {z : Heap} {s : Nat}
    (h : History Step Heap.init tr z) (hs : Created s tr) :
    AllClosed s z → s ∉ z.released ∧ ¬ ReleasedOnce s z := by
  intro _
  have hnot : s ∉ z.released := ((kept_of_created h).2 s hs).2
  refine ⟨hnot, fun hone => ?_⟩
  rw [ReleasedOnce, count_eq_zero_of_not_mem hnot] at hone
  exact Nat.zero_ne_one hone

theorem unix_socket_not_released_oneClosed :
    AllClosed 0 oneClosed ∧ 0 ∉ oneClosed.released ∧ ¬ ReleasedOnce 0 oneClosed :=
  ⟨allClosed_oneClosed, unix_socket_not_released history_oneRun created_oneRun allClosed_oneClosed⟩

theorem socket_then_close_leaks : ∃ tr z, History Step Heap.init tr z ∧ Created 0 tr ∧ AllClosed 0 z ∧
    ¬ ReleasedOnce 0 z := by
  refine ⟨oneRun, oneClosed, history_oneRun, created_oneRun, allClosed_oneClosed, ?_⟩
  show ¬ oneClosed.released.count 0 = 1
  decide

end Ixemul.Unp.Release
