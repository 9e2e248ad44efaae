/-
# Ixemul.Blacklist — the list of blacklisted tasks (`library/ix_blacklist.c`).

The manager is made by the first call and keeps the records of the database file in a list.  A call that
finds another modification time on the file reads it, and adds its records to the list.  `blm_init` lets
nobody in without a magic number in the manager, and nothing in the library ever writes that number.
-/
import Mathlib.Data.List.Infix
import Ixemul.Lib.Run

namespace Ixemul.Blacklist

open Lib.Run

abbrev Ulong := BitVec 32

/-- A `BlackListTask`. -/
structure Record where
  flags : Ulong
  tname : List UInt8
  deriving DecidableEq, Repr

/-- The fields of a `BlackListManager` that are not about its memory. -/
structure Manager where
  magicID : Ulong
  mtime : Int
  bltasks : List Record
  deriving Repr

def blmMid : Ulong := 0x9ff47356
def blmIdentifier : Ulong := 0x424c4d01
/-- `MAKE_ID('.','E','O','F')` -/
def eofMark : Ulong := 0x2e454f46

/-- The database file: a version 1 file of records, none of which looks like the end mark. -/
structure File where
  mtime : Int
  records : List Record
  flags_ne : ∀ r ∈ records, r.flags ≠ eofMark
  no_nul : ∀ r ∈ records, 0 ∉ r.tname
  length_lt : ∀ r ∈ records, r.tname.length < 256

/-- An ULONG in a file. -/
def ulongBytes (ul : Ulong) : List UInt8 :=
  [24, 16, 8, 0].map fun k => UInt8.ofBitVec (ul.extractLsb' k 8)

def File.contents (f : File) : List UInt8 :=
  ulongBytes blmIdentifier ++
    f.records.flatMap (fun r => ulongBytes r.flags ++ UInt8.ofNat r.tname.length :: r.tname) ++
    ulongBytes eofMark

/-- `gblblm`, and the file if there is one. -/
structure Sys where
  gblblm : Option Manager
  file : Option File

def Sys.records (y : Sys) : List Record := (y.file.map File.records).getD []

/-! ## Reading the database -/

/-- `Read` of an ULONG, with what is left of the file. -/
def readUlong : List UInt8 → Option (Ulong × List UInt8)
  | a :: b :: c :: d :: rest => some (a.toBitVec ++ b.toBitVec ++ c.toBitVec ++ d.toBitVec, rest)
  | _ => none

theorem readUlong_length {l rest : List UInt8} {ul : Ulong} (h : readUlong l = some (ul, rest)) :
    rest.length < l.length := by
  match l, h with
  | _ :: _ :: _ :: _ :: _, rfl =>
    simp only [List.length_cons]
    omega

/-- `LoadDatabase_V1`; the records read before an error are in the list too. -/
def loadDatabaseV1 (fd : List UInt8) (bltasks : List Record) : Int × List Record :=
  match h : readUlong fd with
  | none => (-3, bltasks)
  | some (ul, fd') =>
    if ul = eofMark then (1, bltasks) else
    match fd' with
    | [] => (-4, bltasks)
    | len :: fd' =>
      if fd'.length < len.toNat then (-5, bltasks)
      else loadDatabaseV1 (fd'.drop len.toNat) (bltasks ++ [⟨ul, fd'.take len.toNat⟩])
termination_by fd.length
decreasing_by
  have hlt := readUlong_length h
  simp only [List.length_drop, List.length_cons] at hlt ⊢
  omega

def loadDatabase (file : Option File) (bltasks : List Record) : Int × List Record :=
  match file with
  | none => (0, bltasks)
  | some f =>
    match readUlong f.contents with
    | none => (-1, bltasks)
    | some (id, fd) => if id = blmIdentifier then loadDatabaseV1 fd bltasks else (-2, bltasks)

/-! ## The calls -/

/-- `CreateBlackListManager`: the memory is cleared. -/
def createBlackListManager : Manager := ⟨0, 0, []⟩

def blmInit (gblblm : Option Manager) : Int × Manager :=
  let blm := gblblm.getD createBlackListManager
  (if blm.magicID = blmMid then 0 else -3, blm)

/-- Is a string in another, for `strstr`. -/
def strstr (s t : List UInt8) : Bool := decide (t <:+: s)

/-- The flags of the first record whose name is in the task's name. -/
def lookup (bltasks : List Record) (tname : List UInt8) : Ulong :=
  match bltasks.find? (fun blt => strstr tname blt.tname) with
  | some blt => blt.flags
  | none => ~~~0

/-- `BlacklistedTaskFlags`, for a task of the name `tname`. -/
def blacklistedTaskFlags (y : Sys) (tname : List UInt8) : Sys × Ulong :=
  let r := blmInit y.gblblm
  if r.1 = 0 then
    let blm := match y.file with
      | some st =>
        if r.2.mtime ≠ st.mtime then
          { r.2 with bltasks := (loadDatabase y.file r.2.bltasks).2, mtime := st.mtime }
        else r.2
      | none => r.2
    ({ y with gblblm := some blm }, lookup blm.bltasks tname)
  else ({ y with gblblm := some r.2 }, ~~~0)

/-! ## Runs -/

/-- The database is rewritten, or the flags of a task are asked for. -/
inductive Op where
  | rewrite (file : File)
  | ask (tname : List UInt8)

def Op.run (y : Sys) : Op → Sys
  | .rewrite file => { y with file := some file }
  | .ask tname => (blacklistedTaskFlags y tname).1

def system : System Sys where
  init y := y.gblblm = none
  step y z := ∃ op : Op, z = op.run y

variable {y : Sys}

theorem blmInit_of_cleared {gblblm : Option Manager} (h : ∀ blm ∈ gblblm, blm.magicID = 0) :
    (blmInit gblblm).1 = -3 ∧ (blmInit gblblm).2.magicID = 0 := by
  have hmagic : (blmInit gblblm).2.magicID = 0 := by
    cases gblblm with
    | none => rfl
    | some blm => exact h blm rfl
  refine ⟨if_neg ?_, hmagic⟩
  show (blmInit gblblm).2.magicID ≠ blmMid
  rw [hmagic]
  decide

/-- Nothing writes the magic number. -/
theorem magicID_of_reachable (hy : Reachable system y) : ∀ blm ∈ y.gblblm, blm.magicID = 0 := by
  refine hy.invariant (I := fun y => ∀ blm ∈ y.gblblm, blm.magicID = 0) ?_ ?_
  · intro y hinit blm hblm
    rw [show y.gblblm = none from hinit] at hblm
    exact nomatch hblm
  · rintro y _ h ⟨op, rfl⟩
    cases op with
    | rewrite => exact h
    | ask =>
      obtain ⟨hret, hmagic⟩ := blmInit_of_cleared h
      rintro blm hblm
      rw [Op.run, blacklistedTaskFlags, if_neg (by rw [hret]; decide)] at hblm
      cases hblm
      exact hmagic

/-- **No task is ever found.**  In every run a call returns ~0, so its answer is that of the file's current
contents exactly if these have no record for the task, or if the first of them has the flags ~0. -/
theorem blacklistedTaskFlags_iff (hy : Reachable system y) (tname : List UInt8) :
    (blacklistedTaskFlags y tname).2 = lookup y.records tname ↔ lookup y.records tname = ~~~0 := by
  obtain ⟨hret, -⟩ := blmInit_of_cleared (magicID_of_reachable hy)
  rw [blacklistedTaskFlags, if_neg (by rw [hret]; decide)]
  exact eq_comm

/-- One record, for the tasks with an `a` in their name. -/
def oneRecord : Sys := ⟨none, some ⟨1, [⟨1, [97]⟩], by decide, by decide, by decide⟩⟩

theorem blacklistedTaskFlags_iff_other : Reachable system oneRecord ∧
    (blacklistedTaskFlags oneRecord [98]).2 = lookup oneRecord.records [98] :=
  ⟨.init rfl, (blacklistedTaskFlags_iff (y := oneRecord) (.init rfl) [98]).mpr (by decide)⟩

theorem record_not_found : Reachable system oneRecord ∧ lookup oneRecord.records [97] = 1 ∧
    (blacklistedTaskFlags oneRecord [97]).2 = ~~~0 :=
  ⟨.init rfl, by decide, by decide⟩

end Ixemul.Blacklist
