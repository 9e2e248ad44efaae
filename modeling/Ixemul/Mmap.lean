/-
# Ixemul.Mmap — files mapped into memory (mmap.c).

`mmap` allocates a page more than it was asked for, reads the file to the start of the block, and returns
the first page boundary behind that start; `find_mmap`, `msync` and `munmap` go by the start of the block.
The program therefore looks at other bytes than those that were read, and `munmap` writes back other bytes
than those the program stored; where the mapping is no longer than the distance between the two addresses
(`lead`), `munmap` does not find it at all.

Whether `malloc` has memory, and where, are parameters; a descriptor is the contents of its file with a
position.
-/
import Ixemul.Headers
import Ixemul.Lib.Align
import Ixemul.Lib.Bytes
import Ixemul.Descrip.Model

namespace Ixemul.Mmap

open Lib Lib.Bytes
open Descrip (nofile)
open List

/-! ## Descriptors -/

/-- An open file: what it holds, and where `read` and `write` go on. -/
structure OpenFile where
  bytes : List Byte
  pos : Nat

namespace OpenFile

def lseek (f : OpenFile) (off : Nat) : OpenFile := { f with pos := off }

/-- The bytes of the file from `offset` on. -/
def slice (f : OpenFile) (offset len : Nat) : List Byte := (f.bytes.drop offset).take len

def read (f : OpenFile) (len : Nat) : List Byte × OpenFile :=
  (f.slice f.pos len, { f with pos := f.pos + (f.slice f.pos len).length })

/-- The contents of the file with `bs` at `offset`. -/
def overwritten (f : OpenFile) (offset : Nat) (bs : List Byte) : List Byte :=
  f.bytes.take offset ++ replicate (offset - f.bytes.length) 0 ++ bs ++ f.bytes.drop (offset + bs.length)

def write (f : OpenFile) (bs : List Byte) : OpenFile := ⟨f.overwritten f.pos bs, f.pos + bs.length⟩

end OpenFile

/-! ## The code -/

def protWrite : BitVec 32 := 0x02
def mapShared : BitVec 32 := 0x0001
def mapFixed : BitVec 32 := 0x0010
def mapAnon : BitVec 32 := 0x1000

/-- `struct mmap_mem` -/
structure MmapMem where
  addr : Nat
  length : Nat
  fd : Int
  offset : Nat
  prot : BitVec 32
  flags : BitVec 32

/-- What find_mmap and munmap look for. -/
def MmapMem.Covers (m : MmapMem) (addr : Nat) : Prop := m.addr ≤ addr ∧ m.addr + m.length > addr

instance (m : MmapMem) (addr : Nat) : Decidable (m.Covers addr) := inferInstanceAs (Decidable (_ ∧ _))

/-- The memory of the process, its descriptors and its list of mappings. -/
structure User where
  mem : Mem
  ofile : Nat → Option OpenFile
  mmap : List MmapMem

/-- u.u_ofile[fd], if `fd` is in range. -/
def User.file (u : User) (fd : Int) : Option OpenFile :=
  if fd < 0 ∨ fd ≥ nofile then none else u.ofile fd.toNat

def User.setFile (u : User) (fd : Int) (f : OpenFile) : User :=
  { u with ofile := fun i => if i = fd.toNat then some f else u.ofile i }

/-- A part of the file is read into memory; the position stays. -/
def User.fill (u : User) (fd : Int) (addr len offset : Nat) : User :=
  match u.file fd with
  | none => u
  | some f =>
    let r := (f.lseek offset).read len
    { u.setFile fd (r.2.lseek f.pos) with mem := write u.mem addr r.1 }

/-- `addr2 & ~(pagesize-1)` -/
def pageAddr (addr pagesize : Nat) : Nat :=
  (Align.down (BitVec.ofNat 32 (addr + pagesize)) (BitVec.ofNat 32 pagesize)).toNat

/-- `node` and `block` are what `malloc` has for the `struct mmap_mem` and for the memory. -/
def mmap (u : User) (pagesize : Nat) (node : Bool) (block : Option Nat) (len : Nat) (prot flags : BitVec 32)
    (fd : Int) (offset : Nat) : User × Except Errno Nat :=
  if flags &&& mapFixed ≠ 0 then (u, .error .enomem)
  else if flags &&& mapAnon = 0 ∧ (u.file fd).isNone then (u, .error .ebadf)
  else if node = false then (u, .error .enomem)
  else
    match block with
    | none => (u, .error .enomem)
    | some addr =>
      let u := if flags &&& mapAnon = 0 then u.fill fd addr len offset else u
      ({ u with mmap := ⟨addr, len, fd, offset, prot, flags⟩ :: u.mmap }, .ok (pageAddr addr pagesize))

def findMmap (u : User) (addr : Nat) : Option MmapMem := u.mmap.find? fun m => m.Covers addr

/-- What is in memory goes back to the file; the position stays. -/
def User.flush (u : User) (m : MmapMem) : User :=
  match u.file m.fd with
  | none => u
  | some f => u.setFile m.fd (((f.lseek m.offset).write (read u.mem m.addr m.length)).lseek f.pos)

def msync (u : User) (addr : Nat) : User :=
  match findMmap u addr with
  | none => u
  | some m =>
    if m.flags &&& mapAnon ≠ 0 ∨ m.flags &&& mapShared = 0 ∨ m.prot &&& protWrite = 0 then u
    else u.flush m

/-- The first mapping that covers the address leaves the list. -/
def munmap (u : User) (addr : Nat) : User × Except Errno Unit :=
  if (findMmap u addr).isNone then (u, .error .einval)
  else ({ msync u addr with mmap := u.mmap.eraseP fun m => m.Covers addr }, .ok ())

/-- The program stores bytes of its own. -/
def User.store (u : User) (addr : Nat) (bs : List Byte) : User := { u with mem := write u.mem addr bs }

/-! ## What a mapping is for -/

/-- The bytes at the address are those of the file. -/
def Mapped (u : User) (addr : Nat) (f : OpenFile) (offset len : Nat) : Prop :=
  read u.mem addr len = f.slice offset len

/-- The bytes stored at the address are in the file after `munmap`, and the mapping is gone; `before` are
the mappings that there were without it. -/
def WrittenBack (u : User) (before : List MmapMem) (addr : Nat) (fd : Int) (f : OpenFile) (offset : Nat)
    (bs : List Byte) : Prop :=
  ∃ u', munmap (u.store addr bs) addr = (u', .ok ()) ∧ u'.mmap = before ∧
    ∃ f', u'.file fd = some f' ∧ f'.bytes = f.overwritten offset bs

/-! ## The address that is returned -/

/-- How far the returned address is from the block. -/
def lead (addr pagesize : Nat) : Nat := pagesize - addr % pagesize

variable {addr pagesize : Nat}

theorem lead_pos (h : 0 < pagesize) : 0 < lead addr pagesize := by
  have := Nat.mod_lt addr h
  unfold lead
  omega

theorem lead_le (addr pagesize : Nat) : lead addr pagesize ≤ pagesize := Nat.sub_le ..

theorem pageAddr_eq {k : Nat} (hpage : pagesize = 2 ^ k) (h : addr + pagesize < 2 ^ 32) :
    pageAddr addr pagesize = addr + lead addr pagesize := by
  have hpos : 0 < pagesize := by rw [hpage]; exact Nat.two_pow_pos k
  have hsize : (BitVec.ofNat 32 pagesize).toNat = 2 ^ k := by
    rw [BitVec.toNat_ofNat, Nat.mod_eq_of_lt (by omega), hpage]
  have hlt := Nat.mod_lt addr hpos
  rw [pageAddr, Align.toNat_down _ hsize, BitVec.toNat_ofNat, Nat.mod_eq_of_lt h, ← hpage,
    Nat.add_mod_right, lead]
  omega

/-! ## A shared mapping -/

/-- What is mapped, and what `malloc` guarantees of the block: it lies in memory, away from those of the
other mappings. -/
structure Shares (u : User) (pagesize addr len : Nat) (prot flags : BitVec 32) (fd : Int) (offset : Nat)
    (f : OpenFile) : Prop where
  page : ∃ k, pagesize = 2 ^ k
  pos : 1 ≤ len
  file : u.file fd = some f
  inside : offset + len ≤ f.bytes.length
  shared : flags &&& mapShared ≠ 0
  writable : prot &&& protWrite ≠ 0
  notAnon : flags &&& mapAnon = 0
  block : addr + len + pagesize ≤ 2 ^ 32
  apart : ∀ m ∈ u.mmap, m.addr + m.length ≤ addr ∨ addr + len + pagesize ≤ m.addr

variable {u : User} {fd : Int} {f : OpenFile}

theorem file_setFile {g : OpenFile} (h : u.file fd = some f) : (u.setFile fd g).file fd = some g := by
  unfold User.file at h ⊢
  split at h
  · cases h
  · next hin =>
    rw [if_neg hin]
    exact if_pos rfl

variable {offset len : Nat}

theorem OpenFile.length_slice (h : offset + len ≤ f.bytes.length) : (f.slice offset len).length = len := by
  rw [slice, length_take, length_drop]
  omega

section Shared

variable {u u₁ : User} {pagesize addr len : Nat} {prot flags : BitVec 32} {fd : Int} {offset : Nat}
  {f : OpenFile} {node : Bool} {r : Nat} {bs : List Byte}

theorem overwritten_inj {bs' : List Byte} (hlen : bs.length = bs'.length)
    (h : f.overwritten offset bs = f.overwritten offset bs') : bs = bs' := by
  simp only [OpenFile.overwritten, append_assoc, hlen] at h
  exact (append_inj (append_cancel_left (append_cancel_left h)) hlen).1

variable (h : Shares u pagesize addr len prot flags fd offset f)
  (hok : mmap u pagesize node (some addr) len prot flags fd offset = (u₁, .ok r))
include h hok

/-- The state after `mmap`: the file lies at the start of the block, the program is told a later address. -/
theorem mmap_spec :
    u₁.mem = write u.mem addr (f.slice offset len) ∧ u₁.file fd = some f ∧
      u₁.mmap = ⟨addr, len, fd, offset, prot, flags⟩ :: u.mmap ∧ r = addr + lead addr pagesize := by
  obtain ⟨k, hk⟩ := h.page
  have hpos := h.pos
  have hblock := h.block
  have hfill : u.fill fd addr len offset =
      { u.setFile fd f with mem := write u.mem addr (f.slice offset len) } := by
    rw [User.fill, h.file]
    rfl
  unfold mmap at hok
  split at hok
  · cases hok
  split at hok
  · cases hok
  split at hok
  · cases hok
  simp only [h.notAnon, if_true, hfill] at hok
  cases hok
  refine ⟨rfl, file_setFile h.file, rfl, pageAddr_eq hk (by omega)⟩

theorem mapped_iff (hlead : lead addr pagesize < len) :
    Mapped u₁ r f offset len ↔
      (f.slice offset len).drop (lead addr pagesize) ++ read u.mem (addr + len) (lead addr pagesize) =
        f.slice offset len := by
  obtain ⟨hmem, -, -, hr⟩ := mmap_spec h hok
  have hlen := OpenFile.length_slice h.inside
  have hwhole : read u₁.mem addr len = f.slice offset len := by
    rw [hmem]
    exact read_write_of_length hlen
  have hbehind : read u₁.mem (addr + len) (lead addr pagesize) =
      read u.mem (addr + len) (lead addr pagesize) := by
    rw [hmem]
    exact read_write_apart (.inr (by omega))
  have hfront : read u₁.mem (addr + lead addr pagesize) (len - lead addr pagesize) =
      (f.slice offset len).drop (lead addr pagesize) := by
    rw [← hwhole, drop_read hlead.le]
  have hsplit : len = (len - lead addr pagesize) + lead addr pagesize := by omega
  have hseen : read u₁.mem r len =
      (f.slice offset len).drop (lead addr pagesize) ++ read u.mem (addr + len) (lead addr pagesize) := by
    conv_lhs => rw [hr, hsplit, read_add, hfront]
    rw [← hbehind]
    congr 2
    omega
  rw [Mapped, hseen]

/-- The mapping covers the address it was returned for only where it is longer than `lead`; no other
mapping covers it in any case. -/
theorem findMmap_store (bs : List Byte) :
    findMmap (u₁.store r bs) r =
      if lead addr pagesize < len then some ⟨addr, len, fd, offset, prot, flags⟩ else none := by
  obtain ⟨-, -, hmmap, hr⟩ := mmap_spec h hok
  have hle := lead_le addr pagesize
  have hpos := h.pos
  show u₁.mmap.find? _ = _
  rw [hmmap, find?_cons]
  split_ifs with hlead
  · have hcovers : MmapMem.Covers ⟨addr, len, fd, offset, prot, flags⟩ r := by
      constructor <;> (simp only; omega)
    simp only [hcovers, decide_true]
  · have hnot : ¬ MmapMem.Covers ⟨addr, len, fd, offset, prot, flags⟩ r := by
      rintro ⟨-, hlt⟩
      simp only at hlt
      omega
    simp only [hnot, decide_false]
    apply find?_eq_none.mpr
    intro m hm
    have hapart := h.apart m hm
    rw [decide_eq_true_eq]
    rintro ⟨hlo, hhi⟩
    omega

theorem read_stored (hbs : bs.length = len) (hlead : lead addr pagesize < len) :
    read (u₁.store r bs).mem addr len =
      (f.slice offset len).take (lead addr pagesize) ++ bs.take (len - lead addr pagesize) := by
  obtain ⟨hmem, -, -, hr⟩ := mmap_spec h hok
  have hlen := OpenFile.length_slice h.inside
  have hfront : read (write u₁.mem r bs) addr (lead addr pagesize) =
      (f.slice offset len).take (lead addr pagesize) := by
    rw [read_write_apart (.inl (by omega)), hmem, ← take_read hlead.le, read_write_of_length hlen]
  have hback : read (write u₁.mem r bs) (addr + lead addr pagesize) (len - lead addr pagesize) =
      bs.take (len - lead addr pagesize) := by
    rw [← hr, ← take_read (Nat.sub_le len _), read_write_of_length hbs]
  show read (write u₁.mem r bs) addr len = _
  have hsplit : len = lead addr pagesize + (len - lead addr pagesize) := by omega
  conv_lhs => rw [hsplit, read_add, hfront, hback]

theorem munmap_store (hbs : bs.length = len) (hlead : lead addr pagesize < len) :
    munmap (u₁.store r bs) r =
      ({ (u₁.store r bs).setFile fd (((f.lseek offset).write
        ((f.slice offset len).take (lead addr pagesize) ++ bs.take (len - lead addr pagesize))).lseek f.pos)
        with mmap := u.mmap }, .ok ()) := by
  obtain ⟨-, hfile, hmmap, hr⟩ := mmap_spec h hok
  have hfind := findMmap_store h hok bs
  rw [if_pos hlead] at hfind
  have hfile' : (u₁.store r bs).file fd = some f := hfile
  have hsync : msync (u₁.store r bs) r = (u₁.store r bs).setFile fd
      (((f.lseek offset).write (read (u₁.store r bs).mem addr len)).lseek f.pos) := by
    simp only [msync, hfind, h.notAnon, h.shared, h.writable, ne_eq, not_true_eq_false, or_self, if_false,
      User.flush, hfile']
  have hcovers : MmapMem.Covers ⟨addr, len, fd, offset, prot, flags⟩ r := by
    constructor <;> (simp only; omega)
  have herase : (u₁.store r bs).mmap.eraseP (fun m => m.Covers r) = u.mmap := by
    show u₁.mmap.eraseP _ = _
    rw [hmmap, eraseP_cons_of_pos (by simpa using hcovers)]
  rw [munmap, hfind, herase, hsync, read_stored h hok hbs hlead]
  rfl

theorem writtenBack_iff (hbs : bs.length = len) :
    WrittenBack u₁ u.mmap r fd f offset bs ↔ lead addr pagesize < len ∧
      (f.slice offset len).take (lead addr pagesize) ++ bs.take (len - lead addr pagesize) = bs := by
  obtain ⟨-, hfile, -, -⟩ := mmap_spec h hok
  have hlen := OpenFile.length_slice h.inside
  have hfile' : (u₁.store r bs).file fd = some f := hfile
  by_cases hlead : lead addr pagesize < len
  · rw [WrittenBack, munmap_store h hok hbs hlead]
    constructor
    · rintro ⟨u₂, hu₂, -, f', hf', hbytes⟩
      cases hu₂
      cases (file_setFile hfile').symm.trans hf'
      refine ⟨hlead, overwritten_inj ?_ hbytes⟩
      rw [length_append, length_take, length_take, hlen, hbs]
      omega
    · rintro ⟨-, heq⟩
      rw [heq]
      exact ⟨_, rfl, rfl, _, file_setFile hfile', rfl⟩
  · have hfind := findMmap_store h hok bs
    rw [if_neg hlead] at hfind
    constructor
    · rintro ⟨u₂, hu₂, -⟩
      rw [munmap, hfind] at hu₂
      cases hu₂
    · exact fun hb => absurd hb.1 hlead

end Shared

theorem eq_of_repeats {d : Nat} (hd : 0 < d) {bs cs tail : List Byte} (hlen : bs.length = cs.length)
    (hcs : cs.drop d ++ tail = cs) (hbs : cs.take d ++ bs.take (bs.length - d) = bs) : bs = cs := by
  have hget : ∀ i, i < bs.length → bs[i]? = cs[i]? := by
    intro i
    induction i using Nat.strong_induction_on with
    | _ i ih =>
      intro hi
      conv_lhs => rw [← hbs]
      by_cases hid : i < d
      · rw [getElem?_append_left (by rw [length_take]; omega), getElem?_take_of_lt hid]
      · have hback : cs[i - d]? = cs[i]? := by
          conv_lhs => rw [← hcs]
          rw [getElem?_append_left (by rw [length_drop]; omega), getElem?_drop]
          congr 1
          omega
        have hskip : (cs.take d).length = d := by
          rw [length_take]
          omega
        rw [getElem?_append_right (by omega), hskip, getElem?_take_of_lt (by omega),
          ih (i - d) (by omega) (by omega), hback]
  apply ext_getElem? fun i => ?_
  by_cases hi : i < bs.length
  · exact hget i hi
  · rw [getElem?_eq_none (by omega), getElem?_eq_none (by omega)]

/-- **A shared mapping**: the program finds the file at the address, and the file gets what the program
stores there, exactly if the mapping is longer than the distance from the block to the address, the file
and the memory behind the block repeat themselves at that distance, and what is stored is what was there. -/
theorem mapped_and_writtenBack_iff {u u₁ : User} {pagesize addr len : Nat} {prot flags : BitVec 32} {fd : Int}
    {offset : Nat} {f : OpenFile} {node : Bool} {r : Nat} {bs : List Byte}
    (h : Shares u pagesize addr len prot flags fd offset f)
    (hok : mmap u pagesize node (some addr) len prot flags fd offset = (u₁, .ok r)) (hbs : bs.length = len) :
    (Mapped u₁ r f offset len ∧ WrittenBack u₁ u.mmap r fd f offset bs) ↔
      lead addr pagesize < len ∧ bs = f.slice offset len ∧
      (f.slice offset len).drop (lead addr pagesize) ++ read u.mem (addr + len) (lead addr pagesize) =
        f.slice offset len := by
  have hlen := OpenFile.length_slice h.inside
  have hpos : 0 < lead addr pagesize := by
    obtain ⟨k, hk⟩ := h.page
    exact lead_pos (by rw [hk]; exact Nat.two_pow_pos k)
  rw [writtenBack_iff h hok hbs]
  constructor
  · rintro ⟨hmapped, hlead, hstored⟩
    have hseen := (mapped_iff h hok hlead).mp hmapped
    refine ⟨hlead, ?_, hseen⟩
    apply eq_of_repeats hpos (hbs.trans hlen.symm) hseen
    rw [hbs]
    exact hstored
  · rintro ⟨hlead, rfl, hseen⟩
    refine ⟨(mapped_iff h hok hlead).mpr hseen, hlead, ?_⟩
    -- the file is its first part twice over, whichever way one looks at it
    have htake : (f.slice offset len).take (len - lead addr pagesize) =
        (f.slice offset len).drop (lead addr pagesize) := by
      conv_lhs => rw [← hseen]
      apply take_left'
      rw [length_drop, hlen]
    rw [htake, take_append_drop]

/-- Descriptor 3 is a file of three bytes 7, and so is all of the memory. -/
def sevens : User := ⟨fun _ => 7, fun i => if i = 3 then some ⟨[7, 7, 7], 0⟩ else none, []⟩

/-- There nothing shows, with pages of two bytes. -/
theorem mapped_and_writtenBack_sevens :
    Mapped (mmap sevens 2 true (some 8) 3 protWrite mapShared 3 0).1 10 ⟨[7, 7, 7], 0⟩ 0 3 ∧
    WrittenBack (mmap sevens 2 true (some 8) 3 protWrite mapShared 3 0).1 [] 10 3 ⟨[7, 7, 7], 0⟩ 0
      [7, 7, 7] := by
  have hshares : Shares sevens 2 8 3 protWrite mapShared 3 0 ⟨[7, 7, 7], 0⟩ :=
    ⟨⟨1, rfl⟩, by decide, rfl, by decide, by decide, by decide, by decide, by decide, nofun⟩
  have hok : mmap sevens 2 true (some 8) 3 protWrite mapShared 3 0 =
      ((mmap sevens 2 true (some 8) 3 protWrite mapShared 3 0).1, .ok 10) := rfl
  have hlen : ([7, 7, 7] : List Byte).length = 3 := rfl
  exact (mapped_and_writtenBack_iff hshares hok hlen).mpr ⟨by decide, rfl, by decide⟩

/-- Descriptor 3 is a file of two bytes; the memory is cleared. -/
def twoBytes : User := ⟨fun _ => 0, fun i => if i = 3 then some ⟨[1, 2], 0⟩ else none, []⟩

/-- With pages of 4096 bytes the two bytes are not at the address, and `munmap` does not know it.  With
pages of one byte `munmap` does, and the file gets its own first byte again, and the first of those that
were stored. -/
theorem mapped_elsewhere :
    (∃ u₁, mmap twoBytes 4096 true (some 4096) 2 protWrite mapShared 3 0 = (u₁, .ok 8192) ∧
      read u₁.mem 8192 2 = [0, 0] ∧ (munmap (u₁.store 8192 [5, 6]) 8192).2 = .error .einval) ∧
    ∃ u₁, mmap twoBytes 1 true (some 8) 2 protWrite mapShared 3 0 = (u₁, .ok 9) ∧
      (munmap (u₁.store 9 [5, 6]) 9).2 = .ok () ∧
      ((munmap (u₁.store 9 [5, 6]) 9).1.file 3).map OpenFile.bytes = some [1, 5] :=
  ⟨⟨_, rfl, by decide, rfl⟩, _, rfl, rfl, by decide⟩

end Ixemul.Mmap
