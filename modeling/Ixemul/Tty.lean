/-
# Ixemul.Tty — output to an interactive file (`__write.c`).

`__write` sends the buffer in pieces, so that the user can stop the output: each newline by itself, as
carriage return and newline if the flags say so, and what lies between newlines in packets of up to 256
bytes.  What `Write` returns is up to the handler, and may depend on all packets before.
-/
import Mathlib.Tactic.Common

namespace Ixemul.Tty

open List

abbrev Byte := UInt8

def newline : Byte := 10
def carriageReturn : Byte := 13

def ixttyOpost : BitVec 32 := 0x4
def ixttyOnlcr : BitVec 32 := 0x8
def ixttyRaw : BitVec 32 := 0x10
def ttyNlcrEnable : BitVec 32 := ixttyRaw ||| ixttyOpost ||| ixttyOnlcr

abbrev Packets := List (List Byte)

/-- The handler's result for a packet, after the packets that it got before. -/
abbrev Handler := Packets → List Byte → Int

/-- `__do_sync_write`, with the packets sent so far. -/
def doSyncWrite (h : Handler) (sent : Packets) (buf : List Byte) : Packets × Int :=
  if buf.length > 0 then (sent ++ [buf], h sent buf) else (sent, 0)

/-- The inner loop: how many bytes there are up to a newline, or to 256. -/
def scan : List Byte → Nat → Nat
  | [], bytes => bytes
  | c :: p, bytes => if c ≠ newline ∧ bytes < 256 then scan p (bytes + 1) else bytes

theorem scan_pos {c : Byte} (hc : c ≠ newline) (p : List Byte) : 0 < scan (c :: p) 0 := by
  have hle : ∀ p bytes, bytes ≤ scan p bytes := by
    intro p bytes
    fun_induction scan p bytes with
    | case1 | case3 => exact Nat.le_refl _
    | case2 bytes c p h ih => omega
  rw [scan, if_pos ⟨hc, by decide⟩]
  exact hle p 1

/-- The loop of `__write`, from `p` to the end of the buffer. -/
def writeLoop (h : Handler) (ttyflags : BitVec 32) (p : List Byte) (sent : Packets) (res : Int) :
    Packets × Int :=
  match p with
  | [] => (sent, res)
  | c :: rest =>
    if hnl : c = newline then
      if ttyflags &&& ttyNlcrEnable = ttyNlcrEnable then
        let r := doSyncWrite h sent [carriageReturn, newline]
        if r.2 = -1 then r
        else if r.2 ≠ 2 then (r.1, res)
        else writeLoop h ttyflags rest r.1 (res + 1)
      else
        let r := doSyncWrite h sent [c]
        if r.2 = -1 then r
        else if r.2 ≠ 1 then (r.1, res + r.2)
        else writeLoop h ttyflags rest r.1 (res + r.2)
    else
      let bytes := scan (c :: rest) 0
      let r := doSyncWrite h sent ((c :: rest).take bytes)
      if r.2 = -1 then r
      else if r.2 ≠ bytes then (r.1, res + r.2)
      else
        have := scan_pos hnl rest
        writeLoop h ttyflags ((c :: rest).drop bytes) r.1 (res + r.2)
termination_by p.length

structure File where
  /-- HANDLER_NIL -/
  nil : Bool
  interactive : Bool
  ttyflags : BitVec 32

/-- `__write`: the packets, and what is returned. -/
def write (f : File) (h : Handler) (buf : List Byte) : Packets × Int :=
  if f.nil then ([], buf.length)
  else if !f.interactive then doSyncWrite h [] buf
  else writeLoop h f.ttyflags buf [] 0

/-! ## What is sent -/

/-- What a newline is sent as. -/
def newlineAs (ttyflags : BitVec 32) : List Byte :=
  if ttyflags &&& ttyNlcrEnable = ttyNlcrEnable then [carriageReturn, newline] else [newline]

def translate (ttyflags : BitVec 32) (buf : List Byte) : List Byte :=
  buf.flatMap fun c => if c = newline then newlineAs ttyflags else [c]

/-- A newline by itself, or up to 256 other bytes. -/
def IsPacket (ttyflags : BitVec 32) (packet : List Byte) : Prop :=
  packet = newlineAs ttyflags ∨ newline ∉ packet ∧ 1 ≤ packet.length ∧ packet.length ≤ 256

variable {h : Handler} {ttyflags : BitVec 32}

/-- A piece between newlines. -/
theorem take_scan (p : List Byte) :
    newline ∉ p.take (scan p 0) ∧ (p.take (scan p 0)).length = scan p 0 ∧ scan p 0 ≤ 256 := by
  have hscan : ∀ p bytes, bytes ≤ 256 → ∃ k, scan p bytes = bytes + k ∧ bytes + k ≤ 256 ∧ k ≤ p.length ∧
      newline ∉ p.take k := by
    intro p bytes hle
    fun_induction scan p bytes with
    | case1 | case3 => exact ⟨0, rfl, hle, Nat.zero_le _, not_mem_nil⟩
    | case2 bytes c p hc ih =>
      obtain ⟨k, hk, hmax, hlen, hnot⟩ := ih hc.2
      refine ⟨k + 1, by omega, by omega, Nat.succ_le_succ hlen, ?_⟩
      rw [take_succ_cons, mem_cons, not_or]
      exact ⟨hc.1.symm, hnot⟩
  obtain ⟨k, hk, hmax, hlen, hnot⟩ := hscan p 0 (Nat.zero_le _)
  rw [hk, Nat.zero_add] at *
  exact ⟨hnot, by rw [length_take, Nat.min_eq_left hlen], hmax⟩

theorem translate_of_not_mem {p : List Byte} (hp : newline ∉ p) : translate ttyflags p = p := by
  induction p with
  | nil => rfl
  | cons c p ih =>
    rw [mem_cons, not_or] at hp
    rw [translate, flatMap_cons, if_neg (Ne.symm hp.1)]
    exact congrArg (c :: ·) (ih hp.2)

/-- The packets for `p` are sent behind those that were, and its bytes counted. -/
def Sends (ttyflags : BitVec 32) (p : List Byte) (sent : Packets) (res : Int) (r : Packets × Int) : Prop :=
  ∃ packets, r = (sent ++ packets, res + p.length) ∧ packets.flatten = translate ttyflags p ∧
    ∀ packet ∈ packets, IsPacket ttyflags packet

theorem Sends.cons {p rest packet : List Byte} {sent : Packets} {res res' : Int}
    {r : Packets × Int} (hpacket : IsPacket ttyflags packet)
    (hp : translate ttyflags p = packet ++ translate ttyflags rest)
    (hres : res' + rest.length = res + p.length) (hrest : Sends ttyflags rest (sent ++ [packet]) res' r) :
    Sends ttyflags p sent res r := by
  obtain ⟨packets, hr, hflat, hall⟩ := hrest
  refine ⟨packet :: packets, ?_, ?_, forall_mem_cons.mpr ⟨hpacket, hall⟩⟩
  · rw [hr, hres, append_assoc, singleton_append]
  · rw [flatten_cons, hflat, hp]

theorem translate_newline (rest : List Byte) :
    translate ttyflags (newline :: rest) = newlineAs ttyflags ++ translate ttyflags rest := by
  rw [translate, flatMap_cons, if_pos rfl]
  rfl

theorem sends_writeLoop (hall : ∀ sent buf, h sent buf = buf.length) (p : List Byte)
    (sent : Packets) (res : Int) :
    Sends ttyflags p sent res (writeLoop h ttyflags p sent res) := by
  have hsent : ∀ sent buf, 0 < buf.length → doSyncWrite h sent buf = (sent ++ [buf], (buf.length : Int)) := by
    intro sent buf hbuf
    rw [doSyncWrite, if_pos hbuf, hall]
  fun_induction writeLoop h ttyflags p sent res with
  | case1 => exact ⟨[], by simp, rfl, forall_mem_nil _⟩
  | case2 sent res rest hflags r hr | case5 sent res rest hflags r hr => simp [r, hsent] at hr
  | case3 sent res rest hflags r _ hr | case6 sent res rest hflags r _ hr => simp [r, hsent] at hr
  | case4 sent res rest hflags r hr hr' ih =>
    have has : newlineAs ttyflags = [carriageReturn, newline] := if_pos hflags
    refine .cons (.inl has.symm) (has ▸ translate_newline rest) ?_ ih
    rw [length_cons]
    omega
  | case7 sent res rest hflags r hr hr' ih =>
    have has : newlineAs ttyflags = [newline] := if_neg hflags
    refine .cons (.inl has.symm) (has ▸ translate_newline rest) ?_ ih
    rw [length_cons]
    omega
  | case8 sent res c rest hc bytes r hr | case9 sent res c rest hc bytes r _ hr =>
    have hlen := (take_scan (c :: rest)).2.1
    have hpos := scan_pos hc rest
    simp only [r, bytes, hsent _ _ (hlen ▸ hpos), hlen] at hr
    omega
  | case10 sent res c rest hc bytes r hr hr' hpos ih =>
    obtain ⟨hnot, hlen, hmax⟩ := take_scan (c :: rest)
    have hr : r = (sent ++ [(c :: rest).take bytes], (bytes : Int)) :=
      (hsent _ _ (hlen ▸ hpos)).trans (by rw [hlen])
    rw [hr] at ih ⊢
    refine .cons (.inr ⟨hnot, by omega, by omega⟩) ?_ ?_ ih
    · nth_rewrite 1 [← take_append_drop bytes (c :: rest)]
      rw [translate, flatMap_append]
      exact congrArg (· ++ _) (translate_of_not_mem hnot)
    · rw [length_take] at hlen
      rw [length_drop]
      omega

/-- **What an interactive file gets**: the bytes of the buffer with each newline as the flags say, newlines in
packets of their own and other bytes in packets of 1 to 256; and all of them are counted. -/
theorem write_interactive {f : File} (hnil : f.nil = false) (hint : f.interactive = true)
    (hall : ∀ sent buf, h sent buf = buf.length) (buf : List Byte) :
    (write f h buf).1.flatten = translate f.ttyflags buf ∧
      (∀ packet ∈ (write f h buf).1, IsPacket f.ttyflags packet) ∧ (write f h buf).2 = buf.length := by
  obtain ⟨packets, hr, hflat, hpackets⟩ := sends_writeLoop hall buf [] 0
  rw [write, hnil, hint, if_neg Bool.false_ne_true, if_neg (by decide), hr]
  exact ⟨hflat, hpackets, Int.zero_add _⟩

theorem write_interactive_line : (write ⟨false, true, 0x1c⟩ (fun _ buf => buf.length) [65, 10]).1.flatten =
    [65, 13, 10] :=
  (write_interactive rfl rfl (fun _ _ => rfl) _).1

end Ixemul.Tty
