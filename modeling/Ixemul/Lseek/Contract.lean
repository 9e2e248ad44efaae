/-
# Ixemul.Lseek.Contract — what `lseek` returns and where the position is then (lseek.c).

A result other than -1 is to be the position after the call, and after -1 the position is to be where it
was.  A DTYPE_MEM file moves and returns the position before; SEEK_END moves to the end of the file before
the offset is looked at, and stays there when the target is refused; a seek behind the end moves there
before it asks for the memory to write zeros with.
-/
import Ixemul.Lseek.Target

namespace Ixemul.Lseek

/-- The position of an open file; NIL: and what has no position count as 0. -/
def OpenFile.position : OpenFile → Int
  | .nil => 0
  | .dos f _ => f.pos
  | .mem m => m.offset
  | .other => 0

/-- Whenever the call returns, it returns the position, or -1 and has not moved. -/
def KeepsContract (env : Env) (d : OpenFile) (off : BitVec 32) (dir : Int) : Prop :=
  ∀ fuel r, lseek env fuel d off dir = some r →
    (r.ret ≠ -1 → r.ret = r.file.position) ∧ (r.ret = -1 → r.file.position = d.position)

/-- The target of a seek, as an `int`. -/
def target (f : DosFile) (mode : Offset) (off : BitVec 32) : Int := long (f.base mode + off.toInt)

/-- The branches that break the contract are not taken, or find the position where they put it. -/
def Unbroken (env : Env) (off : BitVec 32) (dir : Int) : OpenFile → Prop
  | .nil => True
  | .other => True
  | .mem m => realOff m off dir = m.offset
  | .dos f writable => ∀ mode, whence dir = some mode →
      (mode = .atEnd ∧ target f mode off < 0 → f.pos = f.size) ∧
      (writable = true ∧ f.size < target f mode off ∧
        getBuffer env.kmalloc (firstBuffer (target f mode off - f.size).toNat) = none → f.pos = f.size)

section

variable {env : Env} {f : DosFile} {writable : Bool} {off : BitVec 32} {dir : Int} {mode : Offset}
  {fuel : Nat}

theorem long_lt (n : Int) : long n < 2 ^ 31 := by
  have := Int.bmod_lt (x := n) (m := 2 ^ 32) (by decide)
  unfold long
  omega

theorem target_eq (h : 0 ≤ target f mode off) : f.base mode + off.toInt = target f mode off := by
  have hbase : f.base mode ≤ f.size := by
    cases mode with
    | beginning => exact Nat.zero_le _
    | current => exact f.pos_le
    | atEnd => exact le_rfl
  have hsize : f.size < 2 ^ 31 := f.size_lt
  have hlow := BitVec.le_toInt off
  have hhigh := BitVec.toInt_lt (x := off)
  unfold target long at h ⊢
  rw [Int.bmod_def] at h ⊢
  omega

/-- The contract, of one reply. -/
def Kept (f : DosFile) (r : Reply DosFile) : Prop :=
  (r.ret ≠ -1 → r.ret = r.file.pos) ∧ (r.ret = -1 → (r.file.pos : Int) = f.pos)

theorem kept_of_pos {r : Reply DosFile} (h : r.ret = r.file.pos) : Kept f r :=
  ⟨fun _ => h, fun hm => by omega⟩

theorem kept_refused_iff {errno : Errno} {g : DosFile} : Kept f ⟨-1, errno, g⟩ ↔ g.pos = f.pos := by
  simp [Kept]

theorem start_pos_iff : (start f mode).pos = f.pos ↔ (mode = .atEnd → f.pos = f.size) := by
  cases mode with
  | beginning | current => simp [start]
  | atEnd =>
    show f.size = f.pos ↔ _
    simp [eq_comm]

theorem kept_extendFile_iff {add : Nat} (hfit : f.size + add < 2 ^ 31) :
    (∀ fuel r, extendFile env fuel (f.moved f.size le_rfl) add = some r → Kept f r) ↔
      (getBuffer env.kmalloc (firstBuffer add) = none → f.pos = f.size) := by
  cases hb : getBuffer env.kmalloc (firstBuffer add) with
  | none =>
    have hnone (fuel : Nat) : extendFile env fuel (f.moved f.size le_rfl) add =
        some ⟨-1, .enomem, f.moved f.size le_rfl⟩ := by
      simp only [extendFile, hb]
    simp only [hnone, Option.some.injEq, forall_eq', kept_refused_iff, moved_pos, forall_const]
    exact eq_comm
  | some =>
    refine iff_of_true (fun fuel r hr => ?_) fun h => by cases h
    have hfit' : (f.moved f.size le_rfl).size + add < 2 ^ 31 := hfit
    obtain ⟨hret, hext⟩ := extendFile_some (moved_pos _) hfit' hb hr
    exact kept_of_pos (hret.trans (congrArg Nat.cast hext.pos.symm))

theorem kept_lseekFile_iff : (∀ fuel r, lseekFile env fuel f writable off dir = some r → Kept f r) ↔
    Unbroken env off dir (.dos f writable) := by
  cases hdir : whence dir with
  | none =>
    refine iff_of_true (fun fuel r hr => ?_) fun mode hmode => by rw [hdir] at hmode; cases hmode
    simp only [lseekFile, hdir, Option.some.injEq] at hr
    subst hr
    exact kept_refused_iff.mpr rfl
  | some mode =>
    have hsome : Unbroken env off dir (.dos f writable) ↔
        (mode = .atEnd ∧ target f mode off < 0 → f.pos = f.size) ∧
        (writable ∧ f.size < target f mode off ∧
          getBuffer env.kmalloc (firstBuffer (target f mode off - f.size).toNat) = none →
            f.pos = f.size) := by
      simp only [Unbroken, hdir, Option.some.injEq, forall_eq']
    rw [hsome]
    rcases lt_or_ge (target f mode off) 0 with hneg | hpos
    · -- the target is refused
      have hnot : ¬ (f.size : Int) < target f mode off := by omega
      have hlseek (fuel : Nat) : lseekFile env fuel f writable off dir =
          some ⟨-1, .einval, start f mode⟩ := lseekFile_refused hdir hneg
      simp only [hlseek, Option.some.injEq, forall_eq', forall_const, kept_refused_iff, start_pos_iff, hneg,
        and_true, hnot, false_and, and_false, false_implies]
    · obtain ⟨t, ht⟩ := Int.eq_ofNat_of_zero_le hpos
      have hbase : f.base mode + off.toInt = t := (target_eq hpos).trans ht
      have hint : t < 2 ^ 31 := by
        have := long_lt (f.base mode + off.toInt)
        unfold target at ht
        omega
      have hnonneg : ¬ (t : Int) < 0 := by omega
      rw [ht]
      rcases lt_or_ge f.size t with hbehind | hinside
      · simp only [lseekFile_behind hdir hbase hbehind hint]
        cases writable with
        | false =>
          refine iff_of_true (fun fuel r hr => ?_) ⟨fun h => absurd h.2 hnonneg, fun h => by cases h.1⟩
          cases hr
          exact kept_of_pos rfl
        | true =>
          have hadd : ((t : Int) - f.size).toNat = t - f.size := by omega
          have hlt : (f.size : Int) < t := by omega
          simp only [if_true, hnonneg, and_false, false_implies, true_and, hlt, hadd]
          exact kept_extendFile_iff (by omega)
      · have hnot : ¬ (f.size : Int) < t := by omega
        refine iff_of_true (fun fuel r hr => ?_) ⟨fun h => absurd h.2 hnonneg, fun h => absurd h.2.1 hnot⟩
        rw [lseekFile_inside hdir hbase hinside] at hr
        cases hr
        exact kept_of_pos rfl

end

/-- **`lseek` keeps its contract in exactly the cases where none of the three branches breaks it.** -/
theorem keepsContract_iff (env : Env) (d : OpenFile) (off : BitVec 32) (dir : Int) :
    KeepsContract env d off dir ↔ Unbroken env off dir d := by
  cases d with
  | nil =>
    refine iff_of_true (fun fuel r hr => ?_) trivial
    cases hr
    split <;> simp [OpenFile.position]
  | dos f writable =>
    rw [← kept_lseekFile_iff]
    constructor
    · intro h fuel r hr
      exact h fuel ⟨r.ret, r.errno, .dos r.file writable⟩ (by rw [lseek, hr, Option.map_some])
    · intro h fuel r hr
      obtain ⟨s, hs, rfl⟩ := Option.map_eq_some_iff.mp hr
      exact h fuel s hs
  | mem m =>
    have hnonneg := m.offset_nonneg
    constructor
    · intro h
      have hkept := (h 0 _ rfl).1 (by show m.offset ≠ -1; omega)
      exact hkept.symm
    · intro h fuel r hr
      cases hr
      exact ⟨fun _ => h.symm, fun hm => absurd hm (by show ¬ m.offset = -1; omega)⟩
  | other =>
    refine iff_of_true (fun fuel r hr => ?_) trivial
    cases hr
    simp [OpenFile.position]

/-- SEEK_END with an offset before the start of the file: the position was 1 and is 2. -/
theorem lseek_end_refused_moves :
    (∃ r, lseek bytewise 0 (.dos twoBytes true) (-3) 2 = some r ∧ r.ret = -1 ∧ r.file.position = 2) ∧
      OpenFile.position (.dos twoBytes true) = 1 ∧ ¬ KeepsContract bytewise (.dos twoBytes true) (-3) 2 := by
  have hlseek : lseek bytewise 0 (.dos twoBytes true) (-3) 2 =
      some ⟨-1, .einval, .dos (start twoBytes .atEnd) true⟩ := by
    have hneg : long (twoBytes.base .atEnd + (-3 : BitVec 32).toInt) < 0 := by decide
    have hfile : lseekFile bytewise 0 twoBytes true (-3) 2 = _ := lseekFile_refused rfl hneg
    rw [lseek, hfile, Option.map_some]
  refine ⟨⟨_, hlseek, rfl, rfl⟩, rfl, fun h => ?_⟩
  have hsame := (h 0 _ hlseek).2 rfl
  exact absurd hsame (by decide)

end Ixemul.Lseek
