/-
# Ixemul.Ptys — opening and closing pseudo-terminals (open.c, __close.c, __plock.c).

An `open` of `/dev/ptyXX` or `/dev/ttyXX` makes up a name for the fifo handler, reserves its side of the pty
in `ix_ptys`, and asks AmigaDOS.  The made-up name is *one* string literal that all calls overwrite, inside
a mutex; but each copies it to `f_name` only after it has left the mutex, and `__close` goes by `f_name`.
And where AmigaDOS refuses, only the mark of the caller's own side is taken back.  A name without its digit
is taken for that of a pty too; the literal then ends at its tenth character, and so does the copy.

The state is kept per entry of the file table: which call of `open` has it and how far that has come, or the
open file that it is.
-/
import Mathlib.Data.BitVec
import Mathlib.Data.List.TakeWhile
import Ixemul.Lib.Run

namespace Ixemul.Ptys

open Lib.Run
open Function List

/-! ## Names -/

/-- The character at an offset of the text a pointer points to. -/
def char (name : List Char) (k : Nat) : Char := name.getD k '\x00'

/-- The string at the start of a stretch of memory. -/
def cstring (mem : List Char) : List Char := mem.takeWhile (· != '\x00')

/-- The characters that `strchr` finds in the hexadecimal digits, the end of that string among them. -/
def hexDigits : List Char :=
  ['0', '1', '2', '3', '4', '5', '6', '7', '8', '9', 'a', 'b', 'c', 'd', 'e', 'f', '\x00']

/-- The test on the text behind `dev:`. -/
def looksLikePty (name : List Char) : Prop :=
  (char name 4 = 'p' ∨ char name 4 = 't') ∧ char name 5 = 't' ∧ char name 6 = 'y' ∧
    'p' ≤ char name 7 ∧ char name 7 ≤ 'u' ∧ char name 8 ∈ hexDigits ∧ char name 9 = '\x00'

instance (name : List Char) : Decidable (looksLikePty name) := inferInstanceAs (Decidable (_ ∧ _))

/-- Where the name of the pty starts, or 0. -/
def isPseudoterminal (name : List Char) : Nat :=
  if ['/', 'd', 'e', 'v', '/'].isPrefixOf name then if looksLikePty (name.drop 1) then 5 else 0
  else if ['d', 'e', 'v', ':'].isPrefixOf name then if looksLikePty name then 4 else 0
  else 0

def letterOf (mem : List Char) : Char := char mem (isPseudoterminal mem + 3)

def digitOf (mem : List Char) : Char := char mem (isPseudoterminal mem + 4)

/-- A name that `open` takes for that of a pty. -/
abbrev PtyName := { name : List Char // isPseudoterminal name ≠ 0 }

/-- The string literal that `open` writes to. -/
def literalText : List Char :=
  ['/', 'f', 'i', 'f', 'o', '/', 'p', 't', 'y', 'X', 'X', '/', 'r', 'w', 'e', 'k', 's', 'm']

/-- The literal with the name of the pty and its side written to it. -/
def writeName (literal origName : List Char) (i : Nat) : List Char :=
  ((((literal.set 7 (char origName (i + 1))).set 8 (char origName (i + 2))).set 9
    (char origName (i + 3))).set 10 (char origName (i + 4))).set 17
      (if char origName i = 'p' then 'm' else 'c')

inductive Side where
  | master
  | slave
  deriving DecidableEq, Repr

/-- One side of the pty with an index. -/
structure Pty where
  index : Int
  side : Side
  deriving DecidableEq, Repr

/-- The index into `ix_ptys` and the side, as `open` and `__close` compute them from a name. -/
def ptyOf (name : List Char) : Pty where
  index := ((char name 9).toNat - 'p'.toNat : Int) * 16 + (char name 10).toNat -
    (if char name 10 ≥ 'a' then 'a'.toNat - 10 else '0'.toNat : Int)
  side := if char name 17 = 'm' then .master else .slave

/-- The test `!memcmp(f->f_name, "/fifo/pty", 9)`. -/
def isFifoPty (name : List Char) : Bool := ['/', 'f', 'i', 'f', 'o', '/', 'p', 't', 'y'].isPrefixOf name

/-! ## The entries of `ix_ptys` -/

abbrev Bits := BitVec 8

def ptyOpen : Bits := 0x05
def ptyClose : Bits := 0x0a

/-- IX_PTY_MASTER and IX_PTY_SLAVE. -/
def Side.mask : Side → Bits
  | .master => 0x0c
  | .slave => 0x03

/-- The mask that `open` tests the entry with. -/
def openMask (side : Side) : Bits := side.mask ||| ptyClose

def reserveBits (side : Side) (b : Bits) : Bits := b ||| (openMask side &&& ptyOpen)

/-- At the label `error` of `open`. -/
def giveBackBits (side : Side) (b : Bits) : Bits := b &&& ~~~ (openMask side &&& ptyOpen)

/-- In `__close`. -/
def closeBits (side : Side) (b : Bits) : Bits :=
  let b := (b &&& ~~~ (side.mask &&& ptyOpen)) ||| (side.mask &&& ptyClose)
  if b &&& ptyOpen = 0 then 0 else b

/-- The side is marked open. -/
def Marked (b : Bits) (side : Side) : Prop := b &&& (side.mask &&& ptyOpen) ≠ 0

instance (b : Bits) (side : Side) : Decidable (Marked b side) := inferInstanceAs (Decidable (_ ≠ _))

/-! ## Calls in progress and open files -/

/-- An entry of the file table. -/
inductive Phase where
  | free
  /-- `open` has the entry and waits for `open_sem` -/
  | waiting (name : PtyName)
  /-- it has the mutex -/
  | locked (name : PtyName)
  /-- it has written the literal -/
  | written (pty : Pty)
  /-- it has reserved its side and waits for AmigaDOS -/
  | reserved (pty : Pty)
  /-- AmigaDOS refused; the mutex is released -/
  | failed (pty : Pty)
  /-- AmigaDOS agreed; the mutex is released -/
  | opened (pty : Pty)
  /-- an open file: its `f_name` and `f_count`, and, as history, what it reserved -/
  | file (pty : Pty) (name : Option (List Char)) (count : Nat)

structure Sys (F : Type*) where
  phase : F → Phase
  openSem : Option F
  literal : List Char
  ixPtys : Int → Bits

variable {F : Type*}

def Sys.init (F : Type*) : Sys F := ⟨fun _ => .free, none, literalText, fun _ => 0⟩

section Steps

variable [DecidableEq F]

def Sys.set (s : Sys F) (f : F) (ph : Phase) : Sys F := { s with phase := update s.phase f ph }

def Sys.setBits (s : Sys F) (i : Int) (b : Bits) : Sys F :=
  { s with ixPtys := update s.ixPtys i b }

/-- The entry of `ix_ptys` after the last close of a file.  Without a name the test reads from address 0
and is taken to fail. -/
def Sys.release (s : Sys F) (name : Option (List Char)) : Sys F :=
  match name with
  | none => s
  | some n =>
    if isFifoPty n then s.setBits (ptyOf n).index (closeBits (ptyOf n).side (s.ixPtys (ptyOf n).index)) else s

inductive Op (F : Type*) where
  | enter (f : F) (name : PtyName)
  | lock (f : F)
  | giveUp (f : F)
  | write (f : F)
  | reserve (f : F)
  | busy (f : F)
  | dosOpened (f : F)
  | dosFailed (f : F)
  | giveBack (f : F)
  | copyName (f : F) (memory : Bool)
  | dup (f : F)
  | close (f : F)

/-- The steps of `open` and `__close`.  Between two of them any other call may make steps of its own. -/
inductive Step : Sys F → Op F → Sys F → Prop where
  /-- `falloc` has found the entry -/
  | enter {s : Sys F} {f : F} {name : PtyName} (h : s.phase f = .free) :
      Step s (.enter f name) (s.set f (.waiting name))
  | lock {s : Sys F} {f : F} {name : PtyName} (h : s.phase f = .waiting name) (hm : s.openSem = none) :
      Step s (.lock f) { s.set f (.locked name) with openSem := some f }
  /-- an error before the name is looked at -/
  | giveUp {s : Sys F} {f : F} {name : PtyName} (h : s.phase f = .locked name) :
      Step s (.giveUp f) { s.set f .free with openSem := none }
  | write {s : Sys F} {f : F} {name : PtyName} {literal : List Char} (h : s.phase f = .locked name)
      (hl : literal = writeName s.literal name.val (isPseudoterminal name.val)) :
      Step s (.write f) { s.set f (.written (ptyOf literal)) with literal }
  | reserve {s : Sys F} {f : F} {pty : Pty} (h : s.phase f = .written pty)
      (hb : s.ixPtys pty.index &&& openMask pty.side = 0) :
      Step s (.reserve f)
        ((s.set f (.reserved pty)).setBits pty.index (reserveBits pty.side (s.ixPtys pty.index)))
  /-- the error is EIO, and there is nothing to give back -/
  | busy {s : Sys F} {f : F} {pty : Pty} (h : s.phase f = .written pty)
      (hb : s.ixPtys pty.index &&& openMask pty.side ≠ 0) :
      Step s (.busy f) { s.set f .free with openSem := none }
  | dosOpened {s : Sys F} {f : F} {pty : Pty} (h : s.phase f = .reserved pty) :
      Step s (.dosOpened f) { s.set f (.opened pty) with openSem := none }
  | dosFailed {s : Sys F} {f : F} {pty : Pty} (h : s.phase f = .reserved pty) :
      Step s (.dosFailed f) { s.set f (.failed pty) with openSem := none }
  | giveBack {s : Sys F} {f : F} {pty : Pty} (h : s.phase f = .failed pty) :
      Step s (.giveBack f)
        ((s.set f .free).setBits pty.index (giveBackBits pty.side (s.ixPtys pty.index)))
  /-- `strlen`, `kmalloc` and `strcpy` -/
  | copyName {s : Sys F} {f : F} {pty : Pty} {memory : Bool} (h : s.phase f = .opened pty) :
      Step s (.copyName f memory) (s.set f (.file pty (if memory then some (cstring s.literal) else none) 1))
  /-- `dup`, `vfork` and the like count the file up -/
  | dup {s : Sys F} {f : F} {pty : Pty} {name : Option (List Char)} {count : Nat}
      (h : s.phase f = .file pty name count) : Step s (.dup f) (s.set f (.file pty name (count + 1)))
  | close {s : Sys F} {f : F} {pty : Pty} {name : Option (List Char)} {count : Nat}
      (h : s.phase f = .file pty name (count + 2)) : Step s (.close f) (s.set f (.file pty name (count + 1)))
  | closeLast {s : Sys F} {f : F} {pty : Pty} {name : Option (List Char)}
      (h : s.phase f = .file pty name 1) : Step s (.close f) ((s.set f .free).release name)

end Steps

/-- The file, or the call of `open`, has reserved this side of this pty. -/
def Phase.Has : Phase → Pty → Prop
  | .reserved q, p => q = p
  | .failed q, p => q = p
  | .opened q, p => q = p
  | .file q _ _, p => q = p
  | _, _ => False

/-- **Who has a pty, by the files and by `ix_ptys`.** -/
structure Sound (s : Sys F) : Prop where
  one : ∀ f g p n m c d, s.phase f = .file p n c → s.phase g = .file p m d → f = g
  name : ∀ f p n c, s.phase f = .file p n c → ∃ x, n = some x ∧ isFifoPty x = true ∧ ptyOf x = p
  zero : ∀ i, (∀ f p, (s.phase f).Has p → p.index ≠ i) → s.ixPtys i = 0

/-- The condition on a step: the literal is not written while another call has yet to copy it, nor with a name
that has no digit, there is memory for the copy, and a reservation is given back only while the other side has
not been closed. -/
def Meets (s : Sys F) : Op F → Prop
  | .write f => (∀ g p, s.phase g ≠ .opened p) ∧
      ∀ name : PtyName, s.phase f = .locked name → digitOf name.val ≠ '\x00'
  | .copyName _ memory => memory = true
  | .giveBack f => ∀ p, s.phase f = .failed p → s.ixPtys p.index &&& ptyClose = 0
  | _ => True

/-! ## Bits -/

/-- The other side. -/
def Side.other : Side → Side
  | .master => .slave
  | .slave => .master

theorem Side.eq_or_other (a b : Side) : b = a ∨ b = a.other := by
  cases a <;> cases b <;> decide

theorem marked_reserveBits (side : Side) (b : Bits) (h : b &&& openMask side = 0) :
    ¬ Marked b side ∧ Marked (reserveBits side b) side ∧
      (Marked (reserveBits side b) side.other ↔ Marked b side.other) ∧
      reserveBits side b &&& ptyClose = 0 := by
  revert b
  cases side <;> decide +kernel

theorem marked_giveBackBits (side : Side) (b : Bits) :
    ¬ Marked (giveBackBits side b) side ∧ (Marked (giveBackBits side b) side.other ↔ Marked b side.other) ∧
      (b &&& ptyClose = 0 → giveBackBits side b &&& ptyClose = 0) := by
  revert b
  cases side <;> decide +kernel

theorem marked_closeBits (side : Side) (b : Bits) :
    ¬ Marked (closeBits side b) side ∧ (Marked (closeBits side b) side.other ↔ Marked b side.other) ∧
      (closeBits side b &&& ptyClose ≠ 0 → Marked (closeBits side b) side.other) := by
  revert b
  cases side <;> decide +kernel

theorem high_bits (side : Side) (b : Bits) (h : b &&& 0xf0 = 0) :
    reserveBits side b &&& 0xf0 = 0 ∧ giveBackBits side b &&& 0xf0 = 0 ∧ closeBits side b &&& 0xf0 = 0 := by
  revert b
  cases side <;> decide +kernel

theorem eq_zero_of_unmarked (b : Bits) (hhigh : b &&& 0xf0 = 0) (hclose : b &&& ptyClose = 0)
    (h : ∀ side, ¬ Marked b side) : b = 0 := by
  have h₁ := h .master
  have h₂ := h .slave
  clear h
  revert b
  decide +kernel

/-! ## Names -/

theorem accepted_eq {mem : List Char} (h : isPseudoterminal mem ≠ 0) :
    ∃ dev ∈ [['/', 'd', 'e', 'v', '/'], ['d', 'e', 'v', ':']], ∃ x ∈ ['p', 't'], ∃ l r, 'p' ≤ l ∧ l ≤ 'u' ∧
      char r 0 ∈ hexDigits ∧ char r 1 = '\x00' ∧ isPseudoterminal mem = dev.length ∧
        mem = dev ++ [x, 't', 'y', l] ++ r := by
  have hbody : ∀ c r, looksLikePty (['d', 'e', 'v', c] ++ r) → ∃ x ∈ ['p', 't'], ∃ l r', 'p' ≤ l ∧ l ≤ 'u' ∧
      char r' 0 ∈ hexDigits ∧ char r' 1 = '\x00' ∧ r = x :: 't' :: 'y' :: l :: r' := by
    rintro c (_ | ⟨x, _ | ⟨a, _ | ⟨b, _ | ⟨l, r⟩⟩⟩⟩) hr <;> simp_all [looksLikePty, char]
  revert h
  fun_cases isPseudoterminal mem with
  | case1 hdev hpty =>
    obtain ⟨r, rfl⟩ := isPrefixOf_iff_prefix.mp hdev
    obtain ⟨x, hx, l, r', hr⟩ := hbody '/' r hpty
    refine fun _ => ⟨_, mem_cons_self, x, hx, l, r', ?_⟩
    simpa using hr
  | case3 _ hdev hpty =>
    obtain ⟨r, rfl⟩ := isPrefixOf_iff_prefix.mp hdev
    obtain ⟨x, hx, l, r', hr⟩ := hbody ':' r hpty
    refine fun _ => ⟨_, mem_cons_of_mem _ mem_cons_self, x, hx, l, r', ?_⟩
    simpa using hr
  | _ => exact fun h => absurd rfl h

theorem isPseudoterminal_chars {name : List Char} (h : isPseudoterminal name ≠ 0) :
    char name (isPseudoterminal name + 1) = 't' ∧ char name (isPseudoterminal name + 2) = 'y' := by
  obtain ⟨dev, -, x, -, l, r, -, -, -, -, hlen, hname⟩ := accepted_eq h
  rw [hlen, hname]
  simp [char]

/-- The part of the literal that is never written to. -/
def Fixed (literal : List Char) : Prop :=
  literal.length = 18 ∧ literal.take 7 = ['/', 'f', 'i', 'f', 'o', '/', 'p']

theorem fixed_writeName {literal : List Char} (h : Fixed literal) (origName : List Char) (i : Nat) :
    Fixed (writeName literal origName i) := by
  refine ⟨by simp [writeName, h.1], ?_⟩
  simp [writeName, take_set, h.2]

theorem isFifoPty_writeName {literal : List Char} (h : Fixed literal) (name : PtyName) :
    isFifoPty (writeName literal name.val (isPseudoterminal name.val)) := by
  obtain ⟨ht, hy⟩ := isPseudoterminal_chars name.property
  obtain ⟨hlen, htake⟩ := h
  -- the two characters behind the fixed part are overwritten
  obtain ⟨a, b, hab⟩ : ∃ a b, (literal.drop 7).take 2 = [a, b] := by
    apply length_eq_two.mp
    simp [hlen]
  have hnine : literal.take 9 = ['/', 'f', 'i', 'f', 'o', '/', 'p', a, b] := by
    rw [show (9 : Nat) = 7 + 2 from rfl, take_add, htake, hab]
    rfl
  rw [isFifoPty, isPrefixOf_iff_prefix, prefix_iff_eq_take]
  simp [writeName, take_set, hnine, ht, hy]

/-! ## The index of a pty -/

section Index

/-- `/dev/Xtyyz` or `dev:Xtyyz`. -/
def PtyForm (name : List Char) : Prop :=
  ∃ dev ∈ [['/', 'd', 'e', 'v', '/'], ['d', 'e', 'v', ':']], ∃ x ∈ ['p', 't'], ∃ l d, 'p' ≤ l ∧ l ≤ 'u' ∧
    d ∈ hexDigits.dropLast ∧ name = dev ++ [x, 't', 'y', l, d]

/-- The literal, once `open` has written the name at `mem` to it. -/
def fifoName (literal mem : List Char) : List Char := writeName literal mem (isPseudoterminal mem)

/-- **What the pty code relies on** when it has taken the string at `mem` for a name. -/
structure Indexed (literal mem : List Char) : Prop where
  form : PtyForm (cstring mem)
  range : 0 ≤ (ptyOf (fifoName literal mem)).index ∧ (ptyOf (fifoName literal mem)).index < 6 * 16
  injective : ∀ mem', isPseudoterminal mem' ≠ 0 → PtyForm (cstring mem') →
    (ptyOf (fifoName literal mem')).index = (ptyOf (fifoName literal mem)).index →
      letterOf mem' = letterOf mem ∧ digitOf mem' = digitOf mem
  close : (ptyOf (cstring (fifoName literal mem))).index = (ptyOf (fifoName literal mem)).index

variable {literal mem : List Char}

/-- What the digit adds to the index. -/
def digitValue (d : Char) : Int := d.toNat - (if d ≥ 'a' then 'a'.toNat - 10 else '0'.toNat : Int)

theorem accepted (h : isPseudoterminal mem ≠ 0) : 'p' ≤ letterOf mem ∧ letterOf mem ≤ 'u' ∧
    digitOf mem ∈ hexDigits ∧ (PtyForm (cstring mem) ↔ digitOf mem ≠ '\x00') := by
  obtain ⟨dev, hdev, x, hx, l, r, hl, hu, hd, hend, hlen, hmem⟩ := accepted_eq h
  have hletter : letterOf mem = l := by
    rw [letterOf, hlen, hmem]
    simp [char]
  have hdigit : digitOf mem = char r 0 := by
    rw [digitOf, hlen, hmem]
    simp [char, getElem?_append_right]
  have hnul : ∀ c ∈ dev ++ [x, 't', 'y', l], c != '\x00' := by
    have hlow : l ≠ '\x00' := fun he => absurd (he ▸ hl) (by decide)
    simp only [mem_cons, not_mem_nil, or_false] at hdev hx
    rcases hdev with rfl | rfl <;> rcases hx with rfl | rfl <;> simp [hlow]
  have hstring : cstring mem = dev ++ [x, 't', 'y', l] ++ cstring r := by
    rw [hmem]
    exact takeWhile_append_of_pos hnul
  have hrest : cstring r = if char r 0 = '\x00' then [] else [char r 0] := by
    rcases r with _ | ⟨d, _ | ⟨e, r⟩⟩
    · rfl
    · by_cases d = '\x00' <;> simp_all [cstring, char]
    · by_cases d = '\x00' <;> simp_all [cstring, char]
  rw [hletter, hdigit, hstring, hrest]
  refine ⟨hl, hu, hd, ?_, fun hne => ?_⟩
  · rintro ⟨dev', hdev', x', -, l', d, -, -, -, heq⟩ hzero
    simp only [mem_cons, not_mem_nil, or_false] at hdev hdev'
    rcases hdev with rfl | rfl <;> rcases hdev' with rfl | rfl <;> simp [hzero] at heq
  · have hdigits : ∀ d ∈ hexDigits, d ≠ '\x00' → d ∈ hexDigits.dropLast := by
      simp [hexDigits]
    exact ⟨dev, hdev, x, hx, l, char r 0, hl, hu, hdigits _ hd hne, by simp [hne]⟩

theorem index_fifoName (hl : Fixed literal) (mem : List Char) :
    (ptyOf (fifoName literal mem)).index =
      ((letterOf mem).toNat - 'p'.toNat : Int) * 16 + digitValue (digitOf mem) := by
  simp [ptyOf, fifoName, writeName, char, hl.1, letterOf, digitOf, digitValue, add_sub_assoc]

theorem index_cstring {name : List Char} (hfifo : isFifoPty name) (h9 : char name 9 ≠ '\x00') :
    (ptyOf (cstring name)).index = (ptyOf name).index := by
  obtain ⟨r, rfl⟩ := isPrefixOf_iff_prefix.mp hfifo
  rcases r with _ | ⟨l, _ | ⟨d, r⟩⟩
  · rfl
  · simp_all [ptyOf, cstring, char]
  · by_cases hzero : d = '\x00' <;> simp_all [ptyOf, cstring, char]

/-- **The names of ptys**: what `open` takes for one is well formed, with an index of its own inside
`ix_ptys` that `__close` finds again, exactly if the digit is not the end of the string: `strchr` finds that
too. -/
theorem indexed_iff (hl : Fixed literal) (h : isPseudoterminal mem ≠ 0) :
    Indexed literal mem ↔ digitOf mem ≠ '\x00' := by
  have hvalue : ∀ d ∈ hexDigits, d ≠ '\x00' → 0 ≤ digitValue d ∧ digitValue d < 16 := by
    simp [hexDigits, digitValue]
  have hinj : ∀ d ∈ hexDigits, ∀ d' ∈ hexDigits, d ≠ '\x00' → d' ≠ '\x00' → digitValue d' = digitValue d →
    d' = d := by
    simp [hexDigits, digitValue]
  obtain ⟨hp, hu, hd, hform⟩ := accepted h
  refine ⟨fun hindexed => hform.mp hindexed.form, fun hne => ?_⟩
  obtain ⟨h0, h16⟩ := hvalue _ hd hne
  have hletter : 'p'.toNat ≤ (letterOf mem).toNat ∧ (letterOf mem).toNat ≤ 'p'.toNat + 5 := ⟨hp, hu⟩
  refine ⟨hform.mpr hne, ?_, fun mem₂ h₂ hform₂ heq => ?_, ?_⟩
  · rw [index_fifoName hl]
    omega
  · obtain ⟨hp₂, hu₂, hd₂, hiff₂⟩ := accepted h₂
    have hne₂ := hiff₂.mp hform₂
    obtain ⟨h0₂, h16₂⟩ := hvalue _ hd₂ hne₂
    rw [index_fifoName hl, index_fifoName hl] at heq
    have hsame : (letterOf mem₂).toNat = (letterOf mem).toNat := by omega
    exact ⟨Char.toNat_inj.mp hsame, hinj _ hd _ hd₂ hne hne₂ (by omega)⟩
  · have hnine : char (fifoName literal mem) 9 = letterOf mem := by
      simp [fifoName, writeName, char, hl.1, letterOf]
    refine index_cstring (isFifoPty_writeName hl ⟨mem, h⟩) fun he => ?_
    rw [← hnine, he] at hp
    exact absurd hp (by decide)

theorem indexed_ptyp0 : Indexed literalText ['/', 'd', 'e', 'v', '/', 'p', 't', 'y', 'p', '0'] :=
  (indexed_iff ⟨rfl, rfl⟩ (by decide)).mpr (by decide)

theorem accepted_without_digit : ∃ mem, cstring mem = ['/', 'd', 'e', 'v', '/', 'p', 't', 'y', 'p'] ∧
    isPseudoterminal mem ≠ 0 ∧ (ptyOf (fifoName literalText mem)).index = -48 := by
  refine ⟨['/', 'd', 'e', 'v', '/', 'p', 't', 'y', 'p', '\x00', '\x00'], ?_⟩
  decide

end Index

/-! ## What the steps keep -/

theorem cstring_eq {mem : List Char} (h : '\x00' ∉ mem) : cstring mem = mem := by
  refine takeWhile_eq_self_iff.mpr fun c hc => bne_iff_ne.mpr ?_
  rintro rfl
  exact h hc

theorem not_mem_set {l : List Char} {c d : Char} {n : Nat} (h : c ∉ l) (hne : c ≠ d) : c ∉ l.set n d :=
  fun hmem => (mem_or_eq_of_mem_set hmem).elim h hne

/-- A name with its digit leaves the literal without an end of its own. -/
theorem text_writeName {literal : List Char} (h : '\x00' ∉ literal) (name : PtyName)
    (hd : digitOf name.val ≠ '\x00') :
    '\x00' ∉ writeName literal name.val (isPseudoterminal name.val) := by
  obtain ⟨ht, hy⟩ := isPseudoterminal_chars name.property
  have hletter : letterOf name.val ≠ '\x00' := fun he =>
    absurd (he ▸ (accepted name.property).1) (by decide)
  refine not_mem_set (not_mem_set (not_mem_set (not_mem_set (not_mem_set h ?_) ?_) hletter.symm) hd.symm) ?_
  · rw [ht]
    decide
  · rw [hy]
    decide
  · split <;> decide

/-- The call has `open_sem`. -/
def Phase.InMutex : Phase → Prop
  | .locked _ => True
  | .written _ => True
  | .reserved _ => True
  | _ => False

/-- The call has written the literal and has not copied it. -/
def Phase.Wrote : Phase → Pty → Prop
  | .written q, p => q = p
  | .reserved q, p => q = p
  | .opened q, p => q = p
  | _, _ => False

/-- Who has reserved what, against the entries of `ix_ptys`. -/
structure Reservations (s : Sys F) : Prop where
  unique : ∀ f g p, (s.phase f).Has p → (s.phase g).Has p → f = g
  marked_iff : ∀ p, Marked (s.ixPtys p.index) p.side ↔ ∃ f, (s.phase f).Has p
  close_marked : ∀ i, s.ixPtys i &&& ptyClose ≠ 0 → ∃ side, Marked (s.ixPtys i) side
  high : ∀ i, s.ixPtys i &&& 0xf0 = 0

/-- The names of the files, and the literal for the calls that have yet to copy it. -/
structure Names (s : Sys F) : Prop where
  name : ∀ f p n c, s.phase f = .file p n c → ∃ x, n = some x ∧ isFifoPty x = true ∧ ptyOf x = p
  wrote : ∀ f p, (s.phase f).Wrote p → isFifoPty s.literal = true ∧ ptyOf s.literal = p
  mutex : ∀ f, (s.phase f).InMutex → s.openSem = some f
  fixed : Fixed s.literal
  text : '\x00' ∉ s.literal

theorem reservations_init : Reservations (Sys.init F) where
  unique _ _ _ h := h.elim
  marked_iff := by
    intro p
    refine iff_of_false (by simp [Sys.init, Marked]) ?_
    rintro ⟨f, h⟩
    cases h
  close_marked _ h := by simp [Sys.init] at h
  high _ := by simp [Sys.init]

theorem names_init : Names (Sys.init F) where
  name _ _ _ _ h := nomatch h
  wrote _ _ h := h.elim
  mutex _ h := h.elim
  fixed := ⟨rfl, rfl⟩
  text := by simp [Sys.init, literalText]

theorem sound_of_reservations {s : Sys F} (h : Reservations s) (hn : Names s) : Sound s where
  one := by
    intro f g p n m c d hf hg
    apply h.unique f g p
    · rw [hf]
      rfl
    · rw [hg]
      rfl
  name := hn.name
  zero := by
    intro i hnone
    have hunmarked : ∀ side, ¬ Marked (s.ixPtys i) side := by
      intro side hm
      obtain ⟨f, hf⟩ := (h.marked_iff ⟨i, side⟩).mp hm
      exact hnone f _ hf rfl
    apply eq_zero_of_unmarked _ (h.high i) ?_ hunmarked
    apply Decidable.byContradiction
    intro hclose
    obtain ⟨side, hm⟩ := h.close_marked i hclose
    exact hunmarked side hm

section StepLemmas

variable [DecidableEq F] {s t : Sys F} {f : F} {ph : Phase} {p : Pty} {b : Bits}

/-- A step that reserves nothing and gives nothing back. -/
theorem Reservations.move (h : Reservations s) (hphase : t.phase = update s.phase f ph)
    (hptys : t.ixPtys = s.ixPtys) (hHas : ∀ p, ph.Has p ↔ (s.phase f).Has p) : Reservations t := by
  have hsame : ∀ g p, (t.phase g).Has p ↔ (s.phase g).Has p := by
    rw [hphase]
    exact (forall_update_iff s.phase fun g ph => ∀ p, ph.Has p ↔ (s.phase g).Has p).mpr
      ⟨hHas, fun _ _ _ => Iff.rfl⟩
  refine ⟨?_, ?_, ?_, ?_⟩
  · intro f g p hf hg
    exact h.unique f g p ((hsame f p).mp hf) ((hsame g p).mp hg)
  · intro p
    rw [hptys, h.marked_iff p]
    exact exists_congr fun g => (hsame g p).symm
  · rw [hptys]
    exact h.close_marked
  · rw [hptys]
    exact h.high

/-- A step that changes the entry of a pty, and with it whether the call has reserved that side. -/
theorem Reservations.change (h : Reservations s) (hphase : t.phase = update s.phase f ph)
    (hptys : t.ixPtys = update s.ixPtys p.index b) (hothers : ∀ g, g ≠ f → ¬ (s.phase g).Has p)
    (hHas : ∀ q, q ≠ p → (ph.Has q ↔ (s.phase f).Has q)) (hmark : Marked b p.side ↔ ph.Has p)
    (hother : Marked b p.side.other ↔ Marked (s.ixPtys p.index) p.side.other)
    (hclose : b &&& ptyClose ≠ 0 → ∃ side, Marked b side) (hhigh : b &&& 0xf0 = 0) : Reservations t := by
  have hthis : ∀ g, (t.phase g).Has p ↔ g = f ∧ ph.Has p := by
    intro g
    rw [hphase]
    by_cases hg : g = f
    · simp [hg]
    · simp [hg, hothers g hg]
  have hsame : ∀ g q, q ≠ p → ((t.phase g).Has q ↔ (s.phase g).Has q) := by
    rw [hphase]
    exact (forall_update_iff s.phase fun g ph => ∀ q, q ≠ p → (ph.Has q ↔ (s.phase g).Has q)).mpr
      ⟨hHas, fun _ _ _ _ => Iff.rfl⟩
  refine ⟨?_, ?_, ?_, ?_⟩
  · intro g g' q hg hg'
    by_cases hq : q = p
    · subst hq
      exact ((hthis g).mp hg).1.trans ((hthis g').mp hg').1.symm
    · exact h.unique g g' q ((hsame g q hq).mp hg) ((hsame g' q hq).mp hg')
  · intro q
    by_cases hq : q = p
    · subst hq
      rw [hptys, update_self, hmark]
      constructor
      · intro hp
        exact ⟨f, (hthis f).mpr ⟨rfl, hp⟩⟩
      · rintro ⟨g, hg⟩
        exact ((hthis g).mp hg).2
    · rw [exists_congr fun g => hsame g q hq, ← h.marked_iff q, hptys]
      by_cases hi : q.index = p.index
      · -- the same pty, so the other side
        have hside : q.side = p.side.other := by
          rcases Side.eq_or_other p.side q.side with heq | heq
          · refine absurd ?_ hq
            cases q
            cases p
            simp_all
          · exact heq
        rw [hi, update_self, hside]
        exact hother
      · rw [update_of_ne hi]
  · rw [hptys]
    exact (forall_update_iff s.ixPtys fun _ b => b &&& ptyClose ≠ 0 → ∃ side, Marked b side).mpr
      ⟨hclose, fun i _ => h.close_marked i⟩
  · rw [hptys]
    exact (forall_update_iff s.ixPtys fun _ b => b &&& 0xf0 = 0).mpr ⟨hhigh, fun i _ => h.high i⟩

/-- A step that leaves the literal alone; `open_sem` may be taken or released by the caller. -/
theorem Names.move (h : Names s) (hphase : t.phase = update s.phase f ph)
    (hlit : t.literal = s.literal)
    (hname : ∀ p n c, ph = .file p n c → ∃ x, n = some x ∧ isFifoPty x ∧ ptyOf x = p)
    (hwrote : ∀ p, ph.Wrote p → (s.phase f).Wrote p) (hin : ph.InMutex → t.openSem = some f)
    (hsem : t.openSem = s.openSem ∨ s.openSem = none ∨ s.openSem = some f) : Names t := by
  refine ⟨?_, ?_, ?_, by rw [hlit]; exact h.fixed, by rw [hlit]; exact h.text⟩ <;> rw [hphase]
  · exact (forall_update_iff s.phase fun _ ph => ∀ p n c, ph = .file p n c →
      ∃ x, n = some x ∧ isFifoPty x ∧ ptyOf x = p).mpr ⟨hname, fun g _ => h.name g⟩
  · rw [hlit]
    exact (forall_update_iff s.phase fun _ ph => ∀ p, ph.Wrote p → isFifoPty s.literal ∧
      ptyOf s.literal = p).mpr ⟨fun p hp => h.wrote f p (hwrote p hp), fun g _ => h.wrote g⟩
  · refine (forall_update_iff s.phase fun g ph => ph.InMutex → t.openSem = some g).mpr
      ⟨hin, fun g hne hg => ?_⟩
    have hold := h.mutex g hg
    rcases hsem with hs | hs | hs
    · rw [hs, hold]
    · rw [hs] at hold
      cases hold
    · rw [hs] at hold
      exact absurd (Option.some.inj hold).symm hne

/-- The literal written by the call that has the mutex, while nobody has yet to copy it. -/
theorem Names.write (h : Names s) {name : PtyName} {literal : List Char} (hf : s.phase f = .locked name)
    (hl : literal = writeName s.literal name.val (isPseudoterminal name.val))
    (hnone : ∀ g p, s.phase g ≠ .opened p) (hd : digitOf name.val ≠ '\x00') :
    Names { s.set f (.written (ptyOf literal)) with literal } := by
  have hsem : s.openSem = some f := by
    apply h.mutex f
    rw [hf]
    trivial
  refine ⟨?_, ?_, ?_, ?_, ?_⟩
  · exact (forall_update_iff s.phase fun _ ph => ∀ p n c, ph = .file p n c →
      ∃ x, n = some x ∧ isFifoPty x ∧ ptyOf x = p).mpr ⟨nofun, fun g _ => h.name g⟩
  · refine (forall_update_iff s.phase fun _ ph => ∀ p, ph.Wrote p → isFifoPty literal ∧
      ptyOf literal = p).mpr ⟨fun p hp => ⟨?_, hp⟩, fun g hgf p hg => ?_⟩
    · rw [hl]
      exact isFifoPty_writeName h.fixed name
    · -- whoever else has written holds the mutex, or has yet to copy
      exfalso
      cases hph : s.phase g with
      | written | reserved =>
        have hsem' := h.mutex g (by rw [hph]; trivial)
        exact hgf (Option.some.inj (hsem'.symm.trans hsem))
      | opened q => exact hnone g q hph
      | _ =>
        rw [hph] at hg
        cases hg
  · exact (forall_update_iff s.phase fun g ph => ph.InMutex → s.openSem = some g).mpr
      ⟨fun _ => hsem, fun g _ => h.mutex g⟩
  · show Fixed literal
    rw [hl]
    exact fixed_writeName h.fixed _ _
  · show '\x00' ∉ literal
    rw [hl]
    exact text_writeName h.text name hd

end StepLemmas

/-! ## Runs -/

section Runs

variable [DecidableEq F]

theorem keeps_free {s : Sys F} {f : F} {p : Pty} {b : Bits} (hR : Reservations s) (hN : Names s)
    (hhas : ∀ q, (s.phase f).Has q ↔ p = q) (hmark : ¬ Marked b p.side)
    (hother : Marked b p.side.other ↔ Marked (s.ixPtys p.index) p.side.other)
    (hclose : b &&& ptyClose ≠ 0 → ∃ side, Marked b side) (hhigh : b &&& 0xf0 = 0) :
    Reservations ((s.set f .free).setBits p.index b) ∧ Names ((s.set f .free).setBits p.index b) := by
  constructor
  · apply hR.change rfl rfl _ _ (iff_of_false hmark id) hother hclose hhigh
    · intro g hg hgp
      exact hg (hR.unique g f p hgp ((hhas p).mpr rfl))
    · intro q hq
      exact iff_of_false id fun hq' => hq ((hhas q).mp hq').symm
  · refine hN.move rfl rfl ?_ ?_ ?_ (.inl rfl)
    · exact nofun
    · exact fun _ hw => hw.elim
    · exact fun hin => hin.elim

/-- **One step** that meets its condition. -/
theorem step_keeps {s t : Sys F} {op : Op F} (hR : Reservations s) (hN : Names s) (hm : Meets s op)
    (hstep : Step s op t) : Reservations t ∧ Names t := by
  cases hstep with
  | @enter f name h =>
    refine ⟨hR.move rfl rfl ?_, hN.move rfl rfl ?_ ?_ ?_ (.inl rfl)⟩ <;>
      simp [h, Phase.Has, Phase.Wrote, Phase.InMutex]
  | @lock f name h hsem =>
    refine ⟨hR.move rfl rfl ?_, hN.move rfl rfl ?_ ?_ ?_ (.inr (.inl hsem))⟩ <;>
      simp [h, Phase.Has, Phase.Wrote]
  | @giveUp f name h | @busy f pty h | @dosOpened f pty h | @dosFailed f pty h =>
    have hsem := hN.mutex f (by rw [h]; trivial)
    refine ⟨hR.move rfl rfl ?_, hN.move rfl rfl ?_ ?_ ?_ (.inr (.inr hsem))⟩ <;>
      simp [h, Phase.Has, Phase.Wrote, Phase.InMutex]
  | @write f name literal h hl =>
    refine ⟨hR.move rfl rfl ?_, hN.write h hl hm.1 (hm.2 name h)⟩
    simp [h, Phase.Has]
  | @reserve f pty h hb =>
    obtain ⟨hfree, hmark, hother, hclose⟩ := marked_reserveBits pty.side _ hb
    have hnone : ∀ g, ¬ (s.phase g).Has pty := by
      intro g hg
      exact hfree ((hR.marked_iff pty).mpr ⟨g, hg⟩)
    refine ⟨hR.change rfl rfl (fun g _ => hnone g) ?_ ?_ hother ?_ ?_,
      hN.move rfl rfl ?_ ?_ ?_ (.inl rfl)⟩
    · intro q hq
      simp [h, Phase.Has, Ne.symm hq]
    · exact iff_of_true hmark rfl
    · intro hc
      exact absurd hclose hc
    · exact (high_bits pty.side _ (hR.high _)).1
    · simp
    · simp [h, Phase.Wrote]
    · intro _
      exact hN.mutex f (by rw [h]; trivial)
  | @giveBack f pty h =>
    obtain ⟨hmark, hother, hclose⟩ := marked_giveBackBits pty.side (s.ixPtys pty.index)
    apply keeps_free hR hN (fun q => by rw [h]; rfl) hmark hother
    · intro hc
      exact absurd (hclose (hm pty h)) hc
    · exact (high_bits pty.side _ (hR.high _)).2.1
  | @copyName f pty memory h =>
    obtain rfl : memory := hm
    have hw := hN.wrote f pty (by rw [h]; rfl)
    refine ⟨hR.move rfl rfl ?_, hN.move rfl rfl ?_ ?_ ?_ (.inl rfl)⟩
    · simp [h, Phase.Has]
    · intro p n c heq
      cases heq
      exact ⟨s.literal, congrArg some (cstring_eq hN.text), hw⟩
    · simp [Phase.Wrote]
    · simp [Phase.InMutex]
  | @dup f pty name count h | @close f pty name count h =>
    refine ⟨hR.move rfl rfl ?_, hN.move rfl rfl ?_ ?_ ?_ (.inl rfl)⟩
    · simp [h, Phase.Has]
    · intro p n c heq
      cases heq
      exact hN.name f pty name _ h
    · simp [Phase.Wrote]
    · simp [Phase.InMutex]
  | @closeLast f pty name h =>
    obtain ⟨x, rfl, hfifo, rfl⟩ := hN.name f pty name 1 h
    obtain ⟨hmark, hother, hclose⟩ := marked_closeBits (ptyOf x).side (s.ixPtys (ptyOf x).index)
    have hrelease : (s.set f .free).release (some x) = (s.set f .free).setBits (ptyOf x).index
        (closeBits (ptyOf x).side (s.ixPtys (ptyOf x).index)) := if_pos hfifo
    rw [hrelease]
    apply keeps_free hR hN (fun q => by rw [h]; rfl) hmark hother
    · intro hc
      exact ⟨_, hclose hc⟩
    · exact (high_bits _ _ (hR.high _)).2.2

/-- **In every run whose steps meet the condition** each side of a pty is one file's at most, the files
go by the name of the pty that they reserved, and an entry nobody has reserved is 0. -/
theorem entries_tell_of_history {tr : List (Sys F × Op F)} {t : Sys F} (h : History Step (Sys.init F) tr t)
    (hm : ∀ x ∈ tr, Meets x.1 x.2) : Sound t := by
  have hinv : Reservations t ∧ Names t := by
    apply h.invariant ?_ ⟨reservations_init, names_init⟩ hm
    intro s op t hI hC hstep
    exact step_keeps hI.1 hI.2 hC hstep
  exact sound_of_reservations hinv.1 hinv.2

end Runs

/-! ## Runs of two calls -/

theorem release_phase (s : Sys F) (name : Option (List Char)) : (s.release name).phase = s.phase := by
  cases name with
  | none => rfl
  | some =>
    unfold Sys.release
    dsimp only
    split <;> rfl

def ptyp0 : PtyName := ⟨['/', 'd', 'e', 'v', '/', 'p', 't', 'y', 'p', '0'], by decide⟩
def ptyp1 : PtyName := ⟨['/', 'd', 'e', 'v', '/', 'p', 't', 'y', 'p', '1'], by decide⟩
def ttyp0 : PtyName := ⟨['/', 'd', 'e', 'v', '/', 't', 't', 'y', 'p', '0'], by decide⟩

/-- A master is opened and closed. -/
theorem entries_tell_of_history_closed :
    ∃ tr t, History Step (Sys.init Nat) tr t ∧ tr.length = 7 ∧ t.ixPtys 0 = 0 ∧ Sound t := by
  have h : History Step (Sys.init Nat) _ _ :=
    ((((((((History.nil (Sys.init Nat)).snoc (@Step.enter _ _ _ 0 ptyp0 rfl)).snoc
      (@Step.lock _ _ _ 0 _ rfl rfl)).snoc (@Step.write _ _ _ 0 _ _ rfl rfl)).snoc
      (@Step.reserve _ _ _ 0 _ rfl (by decide))).snoc (@Step.dosOpened _ _ _ 0 _ rfl)).snoc
      (@Step.copyName _ _ _ 0 _ true rfl)).snoc (@Step.closeLast _ _ _ 0 _ _ rfl))
  refine ⟨_, _, h, rfl, by decide, entries_tell_of_history h ?_⟩
  simp only [nil_append, cons_append, forall_mem_cons]
  refine ⟨trivial, trivial, ⟨?_, ?_⟩, trivial, trivial, rfl, trivial, by simp⟩
  · intro f p
    by_cases hf : f = 0
    · simp [hf, Sys.set]
    · simp [hf, Sys.set, Sys.init]
  · rintro name ⟨⟩
    decide

/-- The master of pty 0 is opened; before it has copied its name, the master of pty 1 is opened and
overwrites it.  And: while the slave of pty 0 is being opened its master is closed; the slave is refused
by AmigaDOS, nobody has the pty, and its entry is 8 for good. -/
theorem wrong_name_and_stuck_entry :
    (∃ tr t, History Step (Sys.init Nat) tr t ∧ ∃ x, t.phase 0 = .file ⟨0, .master⟩ (some x) 1 ∧
      ptyOf x = ⟨1, .master⟩) ∧
    ∃ tr t, History Step (Sys.init Nat) tr t ∧ (∀ f, t.phase f = .free) ∧ t.ixPtys 0 = 8 := by
  have h₀ : History Step (Sys.init Nat) _ _ :=
    (((((History.nil (Sys.init Nat)).snoc (@Step.enter _ _ _ 0 ptyp0 rfl)).snoc
      (@Step.lock _ _ _ 0 _ rfl rfl)).snoc (@Step.write _ _ _ 0 _ _ rfl rfl)).snoc
      (@Step.reserve _ _ _ 0 _ rfl (by decide))).snoc (@Step.dosOpened _ _ _ 0 _ rfl)
  have h₁ : History Step (Sys.init Nat) _ _ :=
    (((h₀.snoc (@Step.enter _ _ _ 1 ptyp1 rfl)).snoc (@Step.lock _ _ _ 1 _ rfl rfl)).snoc
      (@Step.write _ _ _ 1 _ _ rfl rfl)).snoc (@Step.copyName _ _ _ 0 _ true rfl)
  have h₂ : History Step (Sys.init Nat) _ _ :=
    (((((((h₀.snoc (@Step.copyName _ _ _ 0 _ true rfl)).snoc (@Step.enter _ _ _ 1 ttyp0 rfl)).snoc
      (@Step.lock _ _ _ 1 _ rfl rfl)).snoc (@Step.write _ _ _ 1 _ _ rfl rfl)).snoc
      (@Step.reserve _ _ _ 1 _ rfl (by decide))).snoc (@Step.closeLast _ _ _ 0 _ _ rfl)).snoc
      (@Step.dosFailed _ _ _ 1 _ rfl)).snoc (@Step.giveBack _ _ _ 1 _ rfl)
  refine ⟨⟨_, _, h₁, _, rfl, by decide⟩, _, _, h₂, ?_, by decide⟩
  intro f
  by_cases hf : f = 0
  · subst hf
    rfl
  · by_cases hf' : f = 1
    · subst hf'
      rfl
    · simp [Sys.set, Sys.setBits, release_phase, Sys.init, hf, hf']

end Ixemul.Ptys
