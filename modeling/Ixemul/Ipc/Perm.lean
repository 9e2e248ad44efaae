/-
# Ixemul.Ipc.Perm — what the semaphore and message tables share (sys/ipc.h, ipc.c).

An entry of either table carries an `ipc_perm`; an identifier handed to a program packs the index of
the entry in its lower half and the entry's sequence number in its upper half.  Decoding it takes the
two halves apart again, which is only possible on the packed word: of the index alone
(`ipcidToSeq_ipcidToIx`) the upper half is zero.

`ipcperm` is compiled with IPC_PERM_ALWAYS_SUCCEED, so every caller is permitted and the calls of it
do not appear in the models.  EIDRM and ENOMSG are not defined in errno.h.
-/
import Mathlib.Data.Nat.Bitwise
import Ixemul.Headers

namespace Ixemul.Ipc

/-! ## Error returns -/

/-- What a call leaves behind: the value it assigned to `errno`, if any, and its return value. -/
structure Ret where
  errno : Option Int
  val : Int
  deriving DecidableEq, Repr

/-- The `errno_return(e, r)` of ixemul.h. -/
def errnoReturn (e r : Int) : Ret := ⟨some e, r⟩

/-- A plain `return r`. -/
def plainReturn (r : Int) : Ret := ⟨none, r⟩

/-! ## Permissions and callers -/

/-- The effective ids of the calling process. -/
structure Ucred where
  uid : Nat
  gid : Nat
  deriving DecidableEq, Repr

/-- `struct ipc_perm`.  `mode` holds the nine permission bits, `flag` the bit 01000 beside them, which
the semaphore table calls SEM_ALLOC and the message table MSG_LOCKED. -/
structure IpcPerm where
  cuid : Nat
  cgid : Nat
  uid : Nat
  gid : Nat
  mode : Nat
  flag : Bool
  seq : Nat
  key : Int
  deriving DecidableEq, Repr

/-- An entry nothing has been written to. -/
def IpcPerm.zero : IpcPerm := ⟨0, 0, 0, 0, 0, false, 0, 0⟩

/-- The `flg` argument of a get call: its permission bits, IPC_CREAT and IPC_EXCL. -/
structure GetFlg where
  mode : Nat
  creat : Bool
  excl : Bool
  deriving DecidableEq, Repr

/-- IPC_PRIVATE. -/
def ipcPrivate : Int := 0

/-- The fields a get call fills in for a new entry, its sequence number apart. -/
def IpcPerm.create (perm : IpcPerm) (cred : Ucred) (key : Int) (flg : GetFlg) (flag : Bool)
    (seq : Nat) : IpcPerm :=
  { perm with key, cuid := cred.uid, uid := cred.uid, cgid := cred.gid, gid := cred.gid,
              mode := flg.mode &&& 0o777, flag, seq }

/-! ## Identifiers -/

/-- An identifier as programs hold it: a C int. -/
abbrev Id := BitVec 32

/-- `IPCID_TO_IX`: the lower half, as the int it is stored back into. -/
def ipcidToIx (id : Id) : Id := id &&& 0xffff#32

/-- `IPCID_TO_SEQ`.  The mask drops whatever the shift brings in from the sign. -/
def ipcidToSeq (id : Id) : Nat := ((id >>> 16) &&& 0xffff#32).toNat

/-- `IXSEQ_TO_IPCID`. -/
def ixseqToIpcid (ix : Nat) (perm : IpcPerm) : Id :=
  (BitVec.ofNat 32 perm.seq <<< 16) ||| (BitVec.ofNat 32 ix &&& 0xffff#32)

theorem toNat_ipcidToIx (id : Id) : (ipcidToIx id).toNat = id.toNat % 2 ^ 16 := by
  exact Nat.and_two_pow_sub_one_eq_mod _ 16

theorem toNat_ipcidToIx_lt (id : Id) : (ipcidToIx id).toNat < 2 ^ 16 := by
  rw [toNat_ipcidToIx]
  exact Nat.mod_lt _ (by decide)

/-- **The upper half of a decoded index is zero**: once an identifier has been overwritten by its
index, the sequence number it carried is gone. -/
@[simp] theorem ipcidToSeq_ipcidToIx (id : Id) : ipcidToSeq (ipcidToIx id) = 0 := by
  have hlt := toNat_ipcidToIx_lt id
  unfold ipcidToSeq
  rw [BitVec.toNat_and, BitVec.toNat_ushiftRight, Nat.shiftRight_eq_div_pow,
    Nat.div_eq_of_lt hlt, Nat.zero_and]

end Ixemul.Ipc
