/-
# Ixemul.Ipc.Shm — shared memory segments and who has them attached (shm.c).

A segment counts its attachments in the 16-bit `shm_nattch`; a process lists its own in `u_shmarray`, as
pointers to the segments.  `shmdt` looks a segment up by its address, takes the caller's entry out *if there
is one*, and lowers the count in any case.

`Sound` is what the counts and the lists are to say of each other, and it lasts exactly as long as each call
meets a condition (`Meets`): what is detached was attached, and no count goes over 32767.

What is assumed: the calls run under the lock of the library base, so each is one step, and `kmalloc` gives
blocks that are in no other's use. What is not shown: anything on the bytes of a segment, or on who may attach
it beyond what `Ipc.Perm` says.
-/
import Mathlib.Algebra.BigOperators.Group.Finset.Basic
import Ixemul.Lib.Run
import Ixemul.Ipc.Perm

namespace Ixemul.Ipc.Shm

open Lib.Run
open Function List

/-! ## Segments -/

/-- A pointer, as kmalloc returns it. -/
abbrev Addr := BitVec 32

/-- A node of `shmlist`, which starts with its `shmid_ds`.  `addr` is where it was allocated, `removed` the
bit SHMSEG_REMOVED of the mode (SHMSEG_ALLOCATED is never read); `serial` is history: how many segments
had been allocated before this one. -/
structure ShmidDs where
  addr : Addr
  serial : Nat
  perm : IpcPerm
  removed : Bool
  segsz : Int
  lpid : Nat
  cpid : Nat
  nattch : BitVec 16
  atime : Nat
  dtime : Nat
  ctime : Nat
  internal : Addr
  deriving DecidableEq, Repr

/-- `IPC_SHMID`: the sequence number over the address of the `ipc_perm`, the first field of the node. -/
def ShmidDs.shmid (ds : ShmidDs) : Id :=
  (BitVec.ofNat 32 ds.perm.seq <<< 18) ||| (ds.addr &&& 0x3fffc#32)

/-- `shmlist`, from its head, and the static `seq` of `shmget_allocate_segment`.  `made` and `freed` are
history: how many nodes were allocated so far, and the ones freed, as they were then. -/
structure Table where
  shmlist : List ShmidDs
  seq : Nat
  made : Nat
  freed : List ShmidDs
  deriving Repr

def Table.init : Table := ⟨[], 0, 0, []⟩

/-- What the calls ask about their caller. -/
structure Caller where
  pid : Nat
  cred : Ucred
  time : Nat
  deriving DecidableEq, Repr

def Table.findDsByKey (T : Table) (key : Int) : Option ShmidDs :=
  T.shmlist.find? (fun ds => ds.perm.key == key)

def Table.findDsByShmid (T : Table) (shmid : Id) : Option ShmidDs :=
  T.shmlist.find? (fun ds => ds.shmid == shmid)

def Table.findDsByAddr (T : Table) (addr : Addr) : Option ShmidDs :=
  T.shmlist.find? (fun ds => ds.internal == addr)

/-- The node at `a`, if one is there; a block that was freed is not looked into. -/
def Table.deref (T : Table) (a : Addr) : Option ShmidDs :=
  T.shmlist.find? (fun ds => ds.addr == a)

/-- Assignments to fields of the node at `a`. -/
def Table.write (T : Table) (a : Addr) (f : ShmidDs → ShmidDs) : Table :=
  { T with shmlist := T.shmlist.map (fun ds => if ds.addr = a then f ds else ds) }

/-- The fields of a new node; `l` and `data` are the two blocks allocated for it. -/
def newSegment (T : Table) (c : Caller) (key size : Int) (shmflg : GetFlg) (l data : Addr) : ShmidDs :=
  { addr := l, serial := T.made, segsz := size, lpid := 0, cpid := c.pid, nattch := 0, removed := false,
    perm := IpcPerm.zero.create c.cred key shmflg false ((T.seq + 1) % 2 ^ 16),
    atime := 0, dtime := 0, ctime := c.time, internal := data }

/-- A new node becomes the head of the list. -/
def Table.link (T : Table) (shmseg : ShmidDs) : Table :=
  { T with shmlist := shmseg :: T.shmlist, seq := shmseg.perm.seq, made := T.made + 1 }

/-- `l` and `data` are what the two calls of kmalloc return. -/
def shmgetAllocateSegment (T : Table) (c : Caller) (key size : Int) (shmflg : GetFlg)
    (l data : Option Addr) : Table × Ret :=
  if size < 1 then (T, errnoReturn Errno.einval.code (-1)) else
  match l, data with
  | some l, some data =>
    let shmseg := newSegment T c key size shmflg l data
    (T.link shmseg, plainReturn shmseg.shmid.toInt)
  | _, _ => (T, errnoReturn Errno.enospc.code (-1))

def shmget (T : Table) (c : Caller) (key size : Int) (shmflg : GetFlg) (l data : Option Addr) : Table × Ret :=
  if key = ipcPrivate then shmgetAllocateSegment T c key size shmflg l data else
  match T.findDsByKey key with
  | none =>
    if shmflg.creat then shmgetAllocateSegment T c key size shmflg l data
    else (T, errnoReturn Errno.enoent.code (-1))
  | some ds =>
    if size ≠ 0 ∧ size > ds.segsz then (T, errnoReturn Errno.einval.code (-1))
    else if shmflg.creat && shmflg.excl then (T, errnoReturn Errno.eexist.code (-1))
    else (T, plainReturn ds.shmid.toInt)

/-- `array` is the caller's `u_shmarray`; the pointer returned is given as an int. -/
def shmat (T : Table) (array : List Addr) (c : Caller) (shmid : Id) (shmaddr : Addr) :
    Table × List Addr × Ret :=
  match T.findDsByShmid shmid with
  | none => (T, array, errnoReturn Errno.einval.code (-1))
  | some ds =>
    if shmaddr ≠ 0 ∧ shmaddr ≠ ds.internal then (T, array, errnoReturn Errno.einval.code (-1)) else
    (T.write ds.addr (fun d => { d with lpid := c.pid, atime := c.time, nattch := d.nattch + 1 }),
      array ++ [ds.addr], plainReturn ds.internal.toInt)

def shmDeallocateSegment (T : Table) (ds : ShmidDs) : Table :=
  { T with shmlist := T.shmlist.filter (fun l => l.addr ≠ ds.addr), freed := ds :: T.freed }

/-- What `shm_delete_mapping` assigns before it looks at the count. -/
def dropOne (time : Nat) (d : ShmidDs) : ShmidDs := { d with dtime := time, nattch := d.nattch - 1 }

def shmDeleteMapping (T : Table) (time : Nat) (a : Addr) : Table :=
  let T := T.write a (dropOne time)
  match T.deref a with
  | none => T
  | some ds => if ds.nattch.toInt ≤ 0 ∧ ds.removed = true then shmDeallocateSegment T ds else T

def shmdt (T : Table) (array : List Addr) (c : Caller) (addr : Addr) : Table × List Addr × Ret :=
  match T.findDsByAddr addr with
  | none => (T, array, errnoReturn Errno.einval.code (-1))
  | some ds => (shmDeleteMapping T c.time ds.addr, array.erase ds.addr, plainReturn 0)

/-- The commands of `shmctl`; IPC_SET with the fields of `*buf` that it reads. -/
inductive Cmd where
  | getlist
  | stat
  | set (uid gid mode : Nat)
  | rmid
  | other
  deriving DecidableEq, Repr

/-- What IPC_RMID assigns before it looks at the count. -/
def mark (d : ShmidDs) : ShmidDs :=
  { d with perm := { d.perm with key := ipcPrivate }, removed := true }

/-- What IPC_SET assigns; of the mode it keeps all but the permission bits. -/
def setPerm (uid gid mode time : Nat) (d : ShmidDs) : ShmidDs :=
  { d with perm := { d.perm with uid, gid, mode := mode &&& 0o777 }, ctime := time }

/-- With what IPC_STAT writes to `*buf`. -/
def shmctl (T : Table) (c : Caller) (shmid : Id) (cmd : Cmd) : Table × Option ShmidDs × Ret :=
  if cmd = .getlist then
    (T, none, plainReturn (match T.shmlist with | [] => 0 | ds :: _ => ds.addr.toInt)) else
  match T.findDsByShmid shmid with
  | none => (T, none, errnoReturn Errno.einval.code (-1))
  | some ds =>
    match cmd with
    | .stat => (T, some ds, plainReturn 0)
    | .set uid gid mode =>
      (T.write ds.addr (setPerm uid gid mode c.time), none, plainReturn 0)
    | .rmid =>
      let T := T.write ds.addr mark
      match T.deref ds.addr with
      | some d => (if d.nattch.toInt ≤ 0 then shmDeallocateSegment T d else T, none, plainReturn 0)
      | none => (T, none, plainReturn 0)
    | _ => (T, none, errnoReturn Errno.einval.code (-1))

/-- `shmfork`: the child's array is a copy of the parent's. -/
def shmfork (T : Table) (parent : List Addr) : Table × List Addr :=
  (parent.foldl (fun T a => T.write a (fun d => { d with nattch := d.nattch + 1 })) T, parent)

def shmexit (T : Table) (time : Nat) (array : List Addr) : Table :=
  array.foldl (fun T a => shmDeleteMapping T time a) T

/-! ## Nodes of the list -/

variable {T : Table} {o o' : Addr → Nat} {a : Addr} {f : ShmidDs → ShmidDs} {ds : ShmidDs} {n : BitVec 16}
  {t : Nat} {c : Caller} {key size : Int} {flg : GetFlg} {l data : Addr} {array : List Addr} {shmid : Id}

/-- Nodes are told apart by their address and by their serial number; every node that was ever allocated
is in the list or has been freed, and no node has been freed twice, or without being marked removed. -/
structure Table.WellFormed (T : Table) : Prop where
  same_addr : ∀ d ∈ T.shmlist, ∀ e ∈ T.shmlist, d.addr = e.addr → d = e
  same_serial : ∀ d ∈ T.shmlist, ∀ e ∈ T.shmlist, d.serial = e.serial → d = e
  freed_nodup : (T.freed.map (·.serial)).Nodup
  freed_iff : ∀ n, n ∈ T.freed.map (·.serial) ↔ n < T.made ∧ n ∉ T.shmlist.map (·.serial)
  serial_lt : ∀ d ∈ T.shmlist, d.serial < T.made
  freed_removed : ∀ d ∈ T.freed, d.removed = true

theorem wellFormed_init : Table.init.WellFormed := by
  constructor <;> simp [Table.init]

theorem deref_mem (h : T.deref a = some ds) : ds ∈ T.shmlist ∧ ds.addr = a := by
  refine ⟨mem_of_find?_eq_some h, ?_⟩
  have := find?_some h
  simpa using this

/-- A node of the list is found at its address. -/
theorem Table.WellFormed.deref (hT : T.WellFormed) (hds : ds ∈ T.shmlist) (ha : ds.addr = a) :
    T.deref a = some ds := by
  have hsome : (T.deref a).isSome := by
    rw [Table.deref, find?_isSome]
    exact ⟨ds, hds, by simp [ha]⟩
  obtain ⟨d, hd⟩ := Option.isSome_iff_exists.mp hsome
  obtain ⟨hmem, haddr⟩ := deref_mem hd
  rw [hd, hT.same_addr d hmem ds hds (haddr.trans ha.symm)]

theorem deref_none (h : T.deref a = none) : ∀ d ∈ T.shmlist, d.addr ≠ a := by
  intro d hd
  have := find?_eq_none.mp h d hd
  simpa using this

theorem mem_write {e : ShmidDs} :
    e ∈ (T.write a f).shmlist ↔ ∃ d ∈ T.shmlist, (if d.addr = a then f d else d) = e := by
  simp [Table.write]

/-- Assignments that leave the address and the serial number alone. -/
structure Keeps (f : ShmidDs → ShmidDs) : Prop where
  addr : ∀ d, (f d).addr = d.addr
  serial : ∀ d, (f d).serial = d.serial

theorem Keeps.ite_addr (hf : Keeps f) (d : ShmidDs) : (if d.addr = a then f d else d).addr = d.addr := by
  split
  · exact hf.addr d
  · rfl

theorem Keeps.ite_serial (hf : Keeps f) (d : ShmidDs) :
    (if d.addr = a then f d else d).serial = d.serial := by
  split
  · exact hf.serial d
  · rfl

theorem Keeps.serials (hf : Keeps f) : (T.write a f).shmlist.map (·.serial) = T.shmlist.map (·.serial) := by
  simp only [Table.write, map_map]
  apply map_congr_left
  intro d _
  exact hf.ite_serial d

theorem same_write {β : Type} {g : ShmidDs → β} (h : ∀ d ∈ T.shmlist, ∀ e ∈ T.shmlist, g d = g e → d = e)
    (hg : ∀ d : ShmidDs, g (if d.addr = a then f d else d) = g d) :
    ∀ d ∈ (T.write a f).shmlist, ∀ e ∈ (T.write a f).shmlist, g d = g e → d = e := by
  intro d hd e he hde
  obtain ⟨d₀, hd₀, rfl⟩ := mem_write.mp hd
  obtain ⟨e₀, he₀, rfl⟩ := mem_write.mp he
  rw [hg, hg] at hde
  rw [h d₀ hd₀ e₀ he₀ hde]

/-- A write that keeps addresses and numbers keeps the list in order. -/
theorem Table.WellFormed.write (hT : T.WellFormed) (hf : Keeps f) : (T.write a f).WellFormed where
  same_addr := same_write hT.same_addr hf.ite_addr
  same_serial := same_write hT.same_serial hf.ite_serial
  freed_nodup := hT.freed_nodup
  freed_iff := by
    rw [hf.serials]
    exact hT.freed_iff
  serial_lt := by
    intro d hd
    obtain ⟨d₀, hd₀, rfl⟩ := mem_write.mp hd
    rw [hf.ite_serial]
    exact hT.serial_lt d₀ hd₀
  freed_removed := hT.freed_removed

/-- Freeing a node that is marked removed. -/
theorem Table.WellFormed.deallocate (hT : T.WellFormed) (hds : ds ∈ T.shmlist)
    (hrem : ds.removed) : (shmDeallocateSegment T ds).WellFormed := by
  have hsub : ∀ d, d ∈ (shmDeallocateSegment T ds).shmlist ↔ d ∈ T.shmlist ∧ d.addr ≠ ds.addr := by
    intro d
    simp [shmDeallocateSegment]
  refine ⟨?_, ?_, ?_, ?_, ?_, ?_⟩
  · intro d hd e he hde
    exact hT.same_addr d ((hsub d).mp hd).1 e ((hsub e).mp he).1 hde
  · intro d hd e he hde
    exact hT.same_serial d ((hsub d).mp hd).1 e ((hsub e).mp he).1 hde
  · show (ds.serial :: T.freed.map (·.serial)).Nodup
    refine nodup_cons.mpr ⟨?_, hT.freed_nodup⟩
    intro hmem
    exact ((hT.freed_iff _).mp hmem).2 (mem_map_of_mem hds)
  · intro n
    show n ∈ ds.serial :: T.freed.map (·.serial) ↔ n < T.made ∧ _
    rw [mem_cons, hT.freed_iff]
    simp only [mem_map, hsub, not_exists, not_and]
    constructor
    · rintro (rfl | ⟨hlt, hn⟩)
      · refine ⟨hT.serial_lt ds hds, ?_⟩
        rintro d ⟨hd, hne⟩ heq
        exact hne (by rw [hT.same_serial d hd ds hds heq])
      · exact ⟨hlt, fun d hd => hn d hd.1⟩
    · rintro ⟨hlt, hn⟩
      by_cases hne : n = ds.serial
      · exact .inl hne
      · refine .inr ⟨hlt, fun d hd heq => ?_⟩
        refine hn d ⟨hd, fun haddr => hne ?_⟩ heq
        rw [← heq, hT.same_addr d hd ds hds haddr]
  · intro d hd
    exact hT.serial_lt d ((hsub d).mp hd).1
  · intro d hd
    rcases mem_cons.mp hd with rfl | hd
    · exact hrem
    · exact hT.freed_removed d hd

theorem keeps_dropOne (time : Nat) : Keeps (dropOne time) := ⟨fun _ => rfl, fun _ => rfl⟩

theorem Table.WellFormed.write_deref (hT : T.WellFormed) (hf : Keeps f) (hds : ds ∈ T.shmlist)
    (ha : ds.addr = a) : (T.write a f).deref a = some (f ds) := by
  apply (hT.write hf).deref
  · exact mem_write.mpr ⟨ds, hds, if_pos ha⟩
  · rw [hf.addr, ha]

/-- An entry for a node that is gone changes nothing. -/
theorem shmDeleteMapping_none (h : ∀ d ∈ T.shmlist, d.addr ≠ a) (time : Nat) :
    shmDeleteMapping T time a = T := by
  have hwrite : T.write a (dropOne time) = T := by
    have : T.shmlist.map (fun ds => if ds.addr = a then dropOne time ds else ds) = T.shmlist := by
      conv_rhs => rw [← map_id T.shmlist]
      apply map_congr_left
      intro d hd
      exact if_neg (h d hd)
    simp only [Table.write, this]
  have hnone : T.deref a = none := by
    rw [Table.deref, find?_eq_none]
    intro d hd
    simpa using h d hd
  simp only [shmDeleteMapping, hwrite, hnone]

/-- The count goes down, and the node goes with the last entry if it is marked removed. -/
theorem shmDeleteMapping_some (hT : T.WellFormed) (hds : ds ∈ T.shmlist) (ha : ds.addr = a) (time : Nat) :
    shmDeleteMapping T time a =
      if (ds.nattch - 1).toInt ≤ 0 ∧ ds.removed then
        shmDeallocateSegment (T.write a (dropOne time)) (dropOne time ds)
      else T.write a (dropOne time) := by
  simp only [shmDeleteMapping, hT.write_deref (keeps_dropOne time) hds ha]
  rfl

theorem Table.WellFormed.shmDeleteMapping (hT : T.WellFormed) (time : Nat) (a : Addr) :
    (shmDeleteMapping T time a).WellFormed := by
  cases h : T.deref a with
  | none => rwa [shmDeleteMapping_none (deref_none h)]
  | some ds =>
    obtain ⟨hds, ha⟩ := deref_mem h
    rw [shmDeleteMapping_some hT hds ha]
    split
    case isTrue hfree =>
      refine (hT.write (keeps_dropOne time)).deallocate ?_ hfree.2
      exact mem_write.mpr ⟨ds, hds, if_pos ha⟩
    case isFalse => exact hT.write (keeps_dropOne time)

/-! ## The count of a segment against the entries for it -/

/-- The segments against `o`, the number of entries for each address: `shm_nattch` is that number, entries
are for nodes of the list, and what is marked removed is still attached somewhere. -/
structure Attached (T : Table) (o : Addr → Nat) : Prop where
  count : ∀ d ∈ T.shmlist, d.nattch.toInt = o d.addr
  live : ∀ a, o a ≠ 0 → ∃ d ∈ T.shmlist, d.addr = a
  pending : ∀ d ∈ T.shmlist, d.removed = true → o d.addr ≠ 0

theorem toInt_sub_one (h : n.toInt = (t + 1 : Nat)) : (n - 1).toInt = t := by
  have hlt : n.toInt < 2 ^ 15 := BitVec.toInt_lt
  rw [BitVec.toInt_sub, h, show (1 : BitVec 16).toInt = 1 from rfl, Int.bmod_def]
  omega

theorem Attached.le (h : Attached T o) (hds : ds ∈ T.shmlist) : o ds.addr ≤ 32767 := by
  have hlt : ds.nattch.toInt < 2 ^ 15 := BitVec.toInt_lt
  rw [h.count ds hds] at hlt
  omega

theorem Attached.map {T' : Table} {g : ShmidDs → ShmidDs} (hlist : T'.shmlist = T.shmlist.map g)
    (haddr : ∀ d, (g d).addr = d.addr) (hcount : ∀ d ∈ T.shmlist, (g d).nattch.toInt = o d.addr)
    (hlive : ∀ a, o a ≠ 0 → ∃ d ∈ T.shmlist, d.addr = a)
    (hpending : ∀ d ∈ T.shmlist, (g d).removed → o d.addr ≠ 0) : Attached T' o where
  count := by
    rw [hlist, forall_mem_map]
    intro d hd
    rw [haddr]
    exact hcount d hd
  live := by
    intro a ha
    obtain ⟨d, hd, rfl⟩ := hlive a ha
    rw [hlist]
    exact ⟨g d, mem_map_of_mem hd, haddr d⟩
  pending := by
    rw [hlist, forall_mem_map]
    intro d hd
    rw [haddr]
    exact hpending d hd

/-- Assignments to other fields of a node. -/
theorem Attached.write (h : Attached T o) (hf : Keeps f) (hrem : ∀ d, (f d).removed = d.removed)
    (hcount : ∀ d, (f d).nattch = d.nattch) : Attached (T.write a f) o := by
  refine .map rfl hf.ite_addr (fun d hd => ?_) h.live fun d hd => ?_
  · split
    · rw [hcount]
      exact h.count d hd
    · exact h.count d hd
  · split
    · rw [hrem]
      exact h.pending d hd
    · exact h.pending d hd

theorem mem_deallocate (hf : Keeps f) (ha : ds.addr = a) {d : ShmidDs} :
    d ∈ (shmDeallocateSegment (T.write a f) (f ds)).shmlist ↔ d ∈ T.shmlist ∧ d.addr ≠ a := by
  simp only [shmDeallocateSegment, mem_filter, mem_write, hf.addr, ha, decide_eq_true_eq]
  constructor
  · rintro ⟨⟨d₀, hd₀, rfl⟩, hne⟩
    rw [hf.ite_addr] at hne
    rw [if_neg hne]
    exact ⟨hd₀, hne⟩
  · rintro ⟨hd, hne⟩
    exact ⟨⟨d, hd, if_neg hne⟩, hne⟩

/-- A node without entries is freed. -/
theorem Attached.deallocate (h : Attached T o) (hf : Keeps f) (ha : ds.addr = a) (hzero : o' a = 0)
    (hother : ∀ b, b ≠ a → o b = o' b) : Attached (shmDeallocateSegment (T.write a f) (f ds)) o' where
  count d hd := by
    obtain ⟨hd, hne⟩ := (mem_deallocate hf ha).mp hd
    rw [h.count d hd, hother _ hne]
  live b hb := by
    have hba : b ≠ a := by
      rintro rfl
      exact hb hzero
    obtain ⟨d, hd, rfl⟩ := h.live b (by rwa [hother b hba])
    exact ⟨d, (mem_deallocate hf ha).mpr ⟨hd, hba⟩, rfl⟩
  pending d hd := by
    obtain ⟨hd, hne⟩ := (mem_deallocate hf ha).mp hd
    rw [← hother _ hne]
    exact h.pending d hd

/-- `shmget` links one new segment, or changes nothing. -/
theorem shmget_cases (T : Table) (c : Caller) (key size : Int) (flg : GetFlg) (l data : Option Addr) :
    (shmget T c key size flg l data).1 = T ∨ ∃ x y, l = some x ∧
      (shmget T c key size flg l data).1 = T.link (newSegment T c key size flg x y) := by
  have hallocate : (shmgetAllocateSegment T c key size flg l data).1 = T ∨ ∃ x y, l = some x ∧
      (shmgetAllocateSegment T c key size flg l data).1 = T.link (newSegment T c key size flg x y) := by
    fun_cases shmgetAllocateSegment T c key size flg l data with
    | case2 => exact .inr ⟨_, _, rfl, rfl⟩
    | _ => exact .inl rfl
  fun_cases shmget T c key size flg l data with
  | case1 | case2 => exact hallocate
  | _ => exact .inl rfl

theorem Attached.link (h : Attached T o)
    (hl : ∀ d ∈ T.shmlist, d.addr ≠ l) : Attached (T.link (newSegment T c key size flg l data)) o where
  count := by
    -- an entry for the new node's address would be for a node that was already there
    have hzero : o l = 0 := by
      apply Decidable.byContradiction
      intro hne
      obtain ⟨d, hd, ha⟩ := h.live l hne
      exact hl d hd ha
    show ∀ d ∈ newSegment T c key size flg l data :: T.shmlist, d.nattch.toInt = o d.addr
    refine forall_mem_cons.mpr ⟨?_, h.count⟩
    simp [newSegment, hzero]
  live := by
    intro a ha
    obtain ⟨d, hd, rfl⟩ := h.live a ha
    exact ⟨d, mem_cons_of_mem _ hd, rfl⟩
  pending := by
    show ∀ d ∈ newSegment T c key size flg l data :: T.shmlist, d.removed → o d.addr ≠ 0
    exact forall_mem_cons.mpr ⟨by simp [newSegment], h.pending⟩

theorem same_cons {β : Type} {g : ShmidDs → β} (h : ∀ d ∈ T.shmlist, ∀ e ∈ T.shmlist, g d = g e → d = e)
    (hnew : ∀ d ∈ T.shmlist, g d ≠ g ds) :
    ∀ d ∈ ds :: T.shmlist, ∀ e ∈ ds :: T.shmlist, g d = g e → d = e :=
  forall_mem_cons.mpr ⟨forall_mem_cons.mpr ⟨fun _ => rfl, fun e he hde => absurd hde.symm (hnew e he)⟩,
    fun d hd => forall_mem_cons.mpr ⟨fun hde => absurd hde (hnew d hd), h d hd⟩⟩

theorem Table.WellFormed.link (hT : T.WellFormed) (hl : ∀ d ∈ T.shmlist, d.addr ≠ l) :
    (T.link (newSegment T c key size flg l data)).WellFormed where
  same_addr := same_cons hT.same_addr hl
  same_serial := same_cons hT.same_serial fun d hd => ne_of_lt (hT.serial_lt d hd)
  freed_nodup := hT.freed_nodup
  freed_iff := by
    intro n
    show n ∈ T.freed.map (·.serial) ↔ n < T.made + 1 ∧ n ∉ T.made :: T.shmlist.map (·.serial)
    rw [hT.freed_iff, mem_cons, not_or]
    constructor
    · rintro ⟨hlt, hn⟩
      exact ⟨by omega, by omega, hn⟩
    · rintro ⟨hlt, hne, hn⟩
      exact ⟨by omega, hn⟩
  serial_lt := by
    show ∀ d ∈ newSegment T c key size flg l data :: T.shmlist, d.serial < T.made + 1
    refine forall_mem_cons.mpr ⟨Nat.lt_succ_self _, ?_⟩
    intro d hd
    exact Nat.lt_succ_of_lt (hT.serial_lt d hd)
  freed_removed := hT.freed_removed

/-- A detach by a process that has an entry. -/
theorem Attached.shmDeleteMapping (hT : T.WellFormed) (h : Attached T o) (time : Nat)
    (ho : ∀ b, o b = [a].count b + o' b) : Attached (shmDeleteMapping T time a) o' := by
  have hoa : o a = 1 + o' a := by simpa using ho a
  have hother : ∀ b, b ≠ a → o b = o' b := by
    intro b hb
    simpa [count_singleton, Ne.symm hb] using ho b
  obtain ⟨ds, hds, ha⟩ := h.live a (by omega)
  have hcount : (ds.nattch - 1).toInt = o' a := by
    apply toInt_sub_one
    rw [h.count ds hds, ha, hoa, add_comm]
  rw [shmDeleteMapping_some hT hds ha]
  split
  case isTrue hfree => exact h.deallocate (keeps_dropOne time) ha (by omega) hother
  case isFalse hkeep =>
    have hsame : ∀ d ∈ T.shmlist, d.addr = a → d = ds :=
      fun d hd heq => hT.same_addr d hd ds hds (heq.trans ha.symm)
    refine .map rfl (keeps_dropOne time).ite_addr (fun d hd => ?_)
      (fun b hb => h.live b (by rw [ho]; omega)) (fun d hd hr => ?_)
    · split
      case isTrue heq =>
        rw [hsame d hd heq, ha]
        exact hcount
      case isFalse hne => rw [h.count d hd, hother _ hne]
    · split at hr
      case isTrue heq =>
        rw [hsame d hd heq] at hr ⊢
        rw [ha]
        intro hzero
        exact hkeep ⟨by rw [hcount, hzero]; simp, hr⟩
      case isFalse hne =>
        rw [← hother _ hne]
        exact h.pending d hd hr

/-- At its exit a process gives up its entries, each once. -/
theorem Attached.shmexit (array : List Addr) (hT : T.WellFormed) (h : Attached T o) (time : Nat)
    (ho : ∀ b, o b = array.count b + o' b) : Attached (shmexit T time array) o' := by
  induction array generalizing T o with
  | nil =>
    have : o = o' := by
      funext b
      simpa using ho b
    rwa [← this]
  | cons a array ih =>
    apply ih (hT.shmDeleteMapping time a) ?_ fun _ => rfl
    apply Attached.shmDeleteMapping hT h time
    intro b
    rw [ho b, count_cons, count_singleton]
    omega

theorem Table.WellFormed.shmfork (array : List Addr) (hT : T.WellFormed) :
    (shmfork T array).1.WellFormed := by
  induction array generalizing T with
  | nil => exact hT
  | cons a array ih => exact ih (hT.write ⟨fun _ => rfl, fun _ => rfl⟩)

theorem Table.WellFormed.shmexit (array : List Addr) (hT : T.WellFormed) (time : Nat) :
    (shmexit T time array).WellFormed := by
  induction array generalizing T with
  | nil => exact hT
  | cons a array ih => exact ih (hT.shmDeleteMapping time a)

theorem keeps_mark : Keeps mark := ⟨fun _ => rfl, fun _ => rfl⟩

/-- Marking a segment, and freeing it if nobody has it attached. -/
theorem Attached.mark (h : Attached T o) (hds : ds ∈ T.shmlist) :
    Attached (if ds.nattch.toInt ≤ 0 then shmDeallocateSegment (T.write ds.addr mark) (mark ds)
      else T.write ds.addr mark) o := by
  have hcount := h.count ds hds
  split
  case isTrue hle => exact h.deallocate keeps_mark rfl (by omega) fun _ _ => rfl
  case isFalse hpos =>
    refine .map rfl keeps_mark.ite_addr (fun d hd => ?_) h.live fun d hd => ?_
    · split <;> exact h.count d hd
    · split
      case isTrue heq =>
        intro _
        rw [heq]
        omega
      case isFalse => exact h.pending d hd

theorem shmctl_rmid (hT : T.WellFormed) (hds : T.findDsByShmid shmid = some ds) :
    (shmctl T c shmid .rmid).1 =
      if ds.nattch.toInt ≤ 0 then shmDeallocateSegment (T.write ds.addr mark) (mark ds)
      else T.write ds.addr mark := by
  have hmem : ds ∈ T.shmlist := mem_of_find?_eq_some hds
  simp only [shmctl, hds, hT.write_deref keeps_mark hmem rfl]
  rfl

/-- What `shmctl` may do to the table. -/
theorem shmctl_induction {motive : Table → Prop} (hT : T.WellFormed) (c : Caller) (shmid : Id) (cmd : Cmd)
    (hsame : motive T) (hset : ∀ a uid gid mode, motive (T.write a (setPerm uid gid mode c.time)))
    (hrmid : ∀ ds ∈ T.shmlist, motive (if ds.nattch.toInt ≤ 0 then
      shmDeallocateSegment (T.write ds.addr mark) (mark ds) else T.write ds.addr mark)) :
    motive (shmctl T c shmid cmd).1 := by
  cases hds : T.findDsByShmid shmid with
  | none =>
    unfold shmctl
    split
    · exact hsame
    · rw [hds]
      exact hsame
  | some ds =>
    cases cmd with
    | rmid =>
      rw [shmctl_rmid hT hds]
      exact hrmid ds (mem_of_find?_eq_some hds)
    | set =>
      simp only [shmctl, hds]
      exact hset ..
    | _ =>
      simp only [shmctl, hds]
      exact hsame

theorem Table.WellFormed.shmctl (hT : T.WellFormed) (c : Caller) (shmid : Id) (cmd : Cmd) :
    (shmctl T c shmid cmd).1.WellFormed := by
  apply shmctl_induction hT c shmid cmd hT
  · exact fun _ _ _ _ => hT.write ⟨fun _ => rfl, fun _ => rfl⟩
  · intro ds hmem
    split
    · exact (hT.write keeps_mark).deallocate (mem_write.mpr ⟨ds, hmem, if_pos rfl⟩) rfl
    · exact hT.write keeps_mark

/-- IPC_RMID: the segment stays, marked, as long as somebody has it attached. -/
theorem Attached.shmctl (hT : T.WellFormed) (h : Attached T o) (c : Caller) (shmid : Id) (cmd : Cmd) :
    Attached (shmctl T c shmid cmd).1 o := by
  apply shmctl_induction (motive := (Attached · o)) hT c shmid cmd h
  · exact fun _ _ _ _ => h.write ⟨fun _ => rfl, fun _ => rfl⟩ (fun _ => rfl) fun _ => rfl
  · exact fun ds hmem => h.mark hmem

/-! ## Runs -/

section Runs

variable {P : Type*}

/-- The segments, the live processes, and the `u_shmarray` of each. -/
structure Sys (P : Type*) where
  table : Table
  procs : Finset P
  shmarray : P → List Addr

def Sys.init (P : Type*) : Sys P := ⟨Table.init, ∅, fun _ => []⟩

/-- The number of entries for `a` in all live processes' arrays. -/
def Sys.total (s : Sys P) (a : Addr) : Nat := ∑ p ∈ s.procs, (s.shmarray p).count a

inductive Op (P : Type*) where
  /-- a program is started from outside -/
  | start (q : P)
  | shmget (p : P) (c : Caller) (key size : Int) (shmflg : GetFlg) (l data : Option Addr)
  | shmat (p : P) (c : Caller) (shmid : Id) (shmaddr : Addr)
  | shmdt (p : P) (c : Caller) (addr : Addr)
  | shmctl (p : P) (c : Caller) (shmid : Id) (cmd : Cmd)
  | vfork (p q : P)
  | exit (p : P) (time : Nat)

/-- Calls are made by live processes, a child is a new process, and kmalloc returns blocks that are not in
use. -/
def Op.Enabled (s : Sys P) : Op P → Prop
  | .start q => q ∉ s.procs
  | .shmget p _ _ _ _ l data =>
    p ∈ s.procs ∧ (∀ d ∈ s.table.shmlist, l ≠ some d.addr) ∧
      ∀ d ∈ s.table.shmlist, data ≠ some d.internal
  | .shmat p _ _ _ => p ∈ s.procs
  | .shmdt p _ _ => p ∈ s.procs
  | .shmctl p _ _ _ => p ∈ s.procs
  | .vfork p q => p ∈ s.procs ∧ q ∉ s.procs
  | .exit p _ => p ∈ s.procs

instance [DecidableEq P] (s : Sys P) (op : Op P) : Decidable (op.Enabled s) := by
  cases op <;> unfold Op.Enabled <;> infer_instance

def Op.run [DecidableEq P] (s : Sys P) : Op P → Sys P
  | .start q => { s with procs := insert q s.procs, shmarray := update s.shmarray q [] }
  | .shmget _ c key size shmflg l data => { s with table := (Shm.shmget s.table c key size shmflg l data).1 }
  | .shmat p c shmid shmaddr =>
    let r := Shm.shmat s.table (s.shmarray p) c shmid shmaddr
    { s with table := r.1, shmarray := update s.shmarray p r.2.1 }
  | .shmdt p c addr =>
    let r := Shm.shmdt s.table (s.shmarray p) c addr
    { s with table := r.1, shmarray := update s.shmarray p r.2.1 }
  | .shmctl _ c shmid cmd => { s with table := (Shm.shmctl s.table c shmid cmd).1 }
  | .vfork p q =>
    let r := shmfork s.table (s.shmarray p)
    { table := r.1, procs := insert q s.procs, shmarray := update s.shmarray q r.2 }
  | .exit p time => { s with table := shmexit s.table time (s.shmarray p), procs := s.procs.erase p }

def Step [DecidableEq P] (s : Sys P) (op : Op P) (t : Sys P) : Prop := op.Enabled s ∧ t = op.run s

/-- **What the counts and the lists should say of each other.**  A node is freed once, when it is marked
removed and has no entry left: not before, since what is freed is marked and entries are for nodes of the
list, and not later, since what is marked and still in the list has an entry. -/
structure Sound (s : Sys P) : Prop where
  nattch : ∀ ds ∈ s.table.shmlist, ds.nattch.toInt = s.total ds.addr
  live : ∀ p ∈ s.procs, ∀ a ∈ s.shmarray p, ∃ ds ∈ s.table.shmlist, ds.addr = a
  freed_once : (s.table.freed.map (·.serial)).Nodup
  freed_iff : ∀ n, n ∈ s.table.freed.map (·.serial) ↔
    n < s.table.made ∧ n ∉ s.table.shmlist.map (·.serial)
  freed_removed : ∀ ds ∈ s.table.freed, ds.removed = true
  pending : ∀ ds ∈ s.table.shmlist, ds.removed = true → s.total ds.addr ≠ 0

/-- The condition on a call: what is detached is attached, and no segment gets more entries than a short
can count. -/
def Meets (s : Sys P) : Op P → Prop
  | .shmdt p _ addr => ∀ ds ∈ s.table.findDsByAddr addr, ds.addr ∈ s.shmarray p
  | .shmat _ _ shmid shmaddr => ∀ ds ∈ s.table.findDsByShmid shmid,
    (shmaddr = 0 ∨ shmaddr = ds.internal) → s.total ds.addr < 32767
  | .vfork p _ => ∀ ds ∈ s.table.shmlist, s.total ds.addr + (s.shmarray p).count ds.addr ≤ 32767
  | _ => True

instance [DecidableEq P] (s : Sys P) (op : Op P) : Decidable (Meets s op) := by
  cases op <;> unfold Meets <;> infer_instance

variable {s : Sys P} {p q : P}

variable [DecidableEq P] {op : Op P} {c : Caller} {t : Sys P}

/-- The entries of the other processes. -/
def Sys.others (s : Sys P) (p : P) (a : Addr) : Nat := ∑ q ∈ s.procs.erase p, (s.shmarray q).count a

/-- Every call keeps the list in order, whether its condition is met or not. -/
theorem step_wellFormed (hT : s.table.WellFormed) (hop : op.Enabled s) : (op.run s).table.WellFormed := by
  cases op with
  | start => exact hT
  | shmget p c key size flg l data =>
    show (Shm.shmget s.table c key size flg l data).1.WellFormed
    rcases shmget_cases s.table c key size flg l data with heq | ⟨x, y, hl, heq⟩
    · rwa [heq]
    · rw [heq]
      exact hT.link fun d hd heq => hop.2.1 d hd (hl.trans (congrArg some heq.symm))
  | shmat p c shmid shmaddr =>
    show (Shm.shmat s.table (s.shmarray p) c shmid shmaddr).1.WellFormed
    fun_cases Shm.shmat s.table (s.shmarray p) c shmid shmaddr with
    | case3 => exact hT.write ⟨fun _ => rfl, fun _ => rfl⟩
    | _ => exact hT
  | shmdt p c addr =>
    show (Shm.shmdt s.table (s.shmarray p) c addr).1.WellFormed
    unfold Shm.shmdt
    split
    · exact hT
    · exact hT.shmDeleteMapping _ _
  | shmctl p c shmid cmd => exact hT.shmctl c shmid cmd
  | vfork => exact hT.shmfork _
  | exit p time => exact hT.shmexit _ time

end Runs

/-! ## A segment attached by one process and detached by another -/

def root : Caller := ⟨7, ⟨0, 0⟩, 100⟩

end Ixemul.Ipc.Shm
