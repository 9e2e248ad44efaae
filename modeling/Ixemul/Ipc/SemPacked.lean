/-
# Ixemul.Ipc.SemPacked — the pool of semaphores has no holes (sysv_sem.c).

The semaphores of all sets lie in one array, from its start on without a gap and without an overlap, so that
the free ones are those behind `semtot` (`Packed`).  `ix_semget` takes a new set off that end; removing a
set moves everything behind it down, and a set of another entry has its semaphores as before (`SameSems`).
A set of no semaphores takes no room and may have its base anywhere.
-/
import Ixemul.Ipc.Sem

namespace Ixemul.Ipc

/-- Semaphore `k` of the pool belongs to the set. -/
def SemidDs.Owns (ds : SemidDs) (k : Nat) : Prop := ds.alloc = true ∧ ds.base ≤ k ∧ k < ds.base + ds.nsems

structure Packed (s : SemState) : Prop where
  apart : ∀ i j k, (s.sema i).Owns k → (s.sema j).Owns k → i = j
  whole : ∀ k, (∃ i, (s.sema i).Owns k) ↔ k < s.semtot
  room : s.semtot ≤ semmns

/-- The set of entry `j` is as before: its number of semaphores, and each of them. -/
structure SameSems (s s' : SemState) (j : Fin semmni) : Prop where
  alloc : (s'.sema j).alloc = (s.sema j).alloc
  nsems : (s'.sema j).nsems = (s.sema j).nsems
  sems : ∀ n < (s.sema j).nsems, s'.sem ((s'.sema j).base + n) = s.sem ((s.sema j).base + n)

theorem SameSems.refl (s : SemState) (j : Fin semmni) : SameSems s s j := ⟨rfl, rfl, fun _ _ => rfl⟩

variable {s : SemState} {id : Id} {ix : Fin semmni}

/-! ## A new set -/

section Create

variable {cred : Ucred} {key : Int} {nsems : Nat} {flg : GetFlg} {ix : Fin semmni} {j : Fin semmni}

theorem owns_semCreate_self (k : Nat) :
    ((semCreate s cred key nsems flg ix).sema ix).Owns k ↔ s.semtot ≤ k ∧ k < s.semtot + nsems := by
  simp [semCreate, SemidDs.Owns, SemidDs.alloc, IpcPerm.create]

theorem sema_semCreate_of_ne (h : j ≠ ix) :
    (semCreate s cred key nsems flg ix).sema j = s.sema j := Function.update_of_ne h ..

theorem Packed.semCreate (h : Packed s) (hfree : (s.sema ix).alloc = false)
    (hroom : s.semtot + nsems ≤ semmns) : Packed (semCreate s cred key nsems flg ix) := by
  have hix : ∀ k, ¬ (s.sema ix).Owns k := fun k hk => nomatch hfree.symm.trans hk.1
  -- an old semaphore is below `semtot`, a new one is not
  have hclash : ∀ j k, j ≠ ix → ((Ipc.semCreate s cred key nsems flg ix).sema j).Owns k →
      ¬ ((Ipc.semCreate s cred key nsems flg ix).sema ix).Owns k := by
    intro j k hj hold hnew
    rw [sema_semCreate_of_ne hj] at hold
    rw [owns_semCreate_self] at hnew
    have := (h.whole k).mp ⟨j, hold⟩
    omega
  constructor
  · intro i j k hi hj
    by_cases hi' : i = ix
    · by_contra hne
      subst hi'
      exact hclash j k (fun e => hne e.symm) hj hi
    · by_cases hj' : j = ix
      · subst hj'
        exact absurd hj (hclash i k hi' hi)
      · rw [sema_semCreate_of_ne hi'] at hi
        rw [sema_semCreate_of_ne hj'] at hj
        exact h.apart i j k hi hj
  · intro k
    show _ ↔ k < s.semtot + nsems
    constructor
    · rintro ⟨i, hi⟩
      by_cases hi' : i = ix
      · subst hi'
        exact ((owns_semCreate_self k).mp hi).2
      · rw [sema_semCreate_of_ne hi'] at hi
        have := (h.whole k).mp ⟨i, hi⟩
        omega
    · intro hk
      by_cases hlow : k < s.semtot
      · obtain ⟨i, hi⟩ := (h.whole k).mpr hlow
        have hne : i ≠ ix := by
          rintro rfl
          exact hix k hi
        exact ⟨i, by rwa [sema_semCreate_of_ne hne]⟩
      · exact ⟨ix, (owns_semCreate_self k).mpr ⟨by omega, hk⟩⟩
  · exact hroom

theorem sameSems_semCreate (h : Packed s) (hfree : (s.sema ix).alloc = false)
    (hj : (s.sema j).alloc) : SameSems s (semCreate s cred key nsems flg ix) j := by
  have hne : j ≠ ix := by
    rintro rfl
    exact nomatch hfree.symm.trans hj
  have hsame : (semCreate s cred key nsems flg ix).sema j = s.sema j := sema_semCreate_of_ne hne
  constructor
  · rw [hsame]
  · rw [hsame]
  · intro n hn
    have hlow := (h.whole ((s.sema j).base + n)).mp ⟨j, hj, by omega, by omega⟩
    rw [hsame]
    exact if_neg (by omega)

end Create

theorem Packed.semget (h : Packed s) (cred : Ucred) (key nsems : Int) (flg : GetFlg) :
    Packed (semget s cred key nsems flg).1 ∧
    ∀ j, (s.sema j).alloc → SameSems s (semget s cred key nsems flg).1 j := by
  rcases semget_cases s cred key nsems flg with heq | ⟨ix, hfree, hroom, heq⟩
  · rw [heq]
    exact ⟨h, fun j _ => .refl s j⟩
  · rw [heq]
    exact ⟨h.semCreate hfree (by omega), fun j hj => sameSems_semCreate h hfree hj⟩

/-! ## A set is removed -/

section Remove

variable {cred : Ucred} {ix j : Fin semmni}

theorem sema_semRmid_of_ne (h : j ≠ ix) : (semRmid s cred ix).sema j =
    if (s.sema j).alloc ∧ (s.sema j).base > (s.sema ix).base
    then { s.sema j with base := (s.sema j).base - (s.sema ix).nsems } else s.sema j := by
  simp only [semRmid, Function.update_of_ne h]

theorem not_owns_semRmid_self (k : Nat) : ¬ ((semRmid s cred ix).sema ix).Owns k := by
  simp [semRmid, SemidDs.Owns, SemidDs.alloc]

theorem alloc_semRmid (h : j ≠ ix) : ((semRmid s cred ix).sema j).alloc = (s.sema j).alloc := by
  rw [sema_semRmid_of_ne h]
  split <;> rfl

theorem nsems_semRmid (h : j ≠ ix) : ((semRmid s cred ix).sema j).nsems = (s.sema j).nsems := by
  rw [sema_semRmid_of_ne h]
  split <;> rfl

/-- Two sets that have semaphores are one behind the other. -/
theorem Packed.beside (h : Packed s) (hne : j ≠ ix) (hj : (s.sema j).alloc)
    (hix : (s.sema ix).alloc) (hposj : 0 < (s.sema j).nsems) (hpos : 0 < (s.sema ix).nsems) :
    (s.sema j).base + (s.sema j).nsems ≤ (s.sema ix).base ∨
    (s.sema ix).base + (s.sema ix).nsems ≤ (s.sema j).base := by
  by_contra hover
  -- the higher of the two bases would belong to both
  have hboth : ∀ k, k = max (s.sema j).base (s.sema ix).base → (s.sema j).Owns k ∧ (s.sema ix).Owns k := by
    intro k hk
    exact ⟨⟨hj, by omega, by omega⟩, ⟨hix, by omega, by omega⟩⟩
  obtain ⟨h₁, h₂⟩ := hboth _ rfl
  exact hne (h.apart j ix _ h₁ h₂)

/-- Where a semaphore of another set is after the removal: in front of the gap where it was, behind it
further down by the length of the gap. -/
theorem Packed.base_semRmid (h : Packed s) (cred : Ucred) (hne : j ≠ ix) (hj : (s.sema j).alloc)
    (hix : (s.sema ix).alloc) (hposj : 0 < (s.sema j).nsems) :
    (((semRmid s cred ix).sema j).base = (s.sema j).base ∧
      (s.sema j).base + (s.sema j).nsems ≤ (s.sema ix).base) ∨
    (((semRmid s cred ix).sema j).base + (s.sema ix).nsems = (s.sema j).base ∧
      (s.sema ix).base ≤ ((semRmid s cred ix).sema j).base) ∨
    (((semRmid s cred ix).sema j).base = (s.sema j).base ∧ (s.sema ix).nsems = 0) := by
  rw [sema_semRmid_of_ne hne]
  rcases Nat.eq_zero_or_pos (s.sema ix).nsems with hzero | hpos
  · refine .inr (.inr ⟨?_, hzero⟩)
    split
    · show (s.sema j).base - (s.sema ix).nsems = (s.sema j).base
      omega
    · rfl
  · rcases h.beside hne hj hix hposj hpos with hfront | hbehind
    · rw [if_neg (by omega)]
      exact .inl ⟨rfl, hfront⟩
    · rw [if_pos ⟨hj, by omega⟩]
      refine .inr (.inl ⟨?_, ?_⟩)
      · show (s.sema j).base - (s.sema ix).nsems + (s.sema ix).nsems = (s.sema j).base
        omega
      · show (s.sema ix).base ≤ (s.sema j).base - (s.sema ix).nsems
        omega

/-- The semaphore that `k` was before the removal. -/
def before (ds : SemidDs) (k : Nat) : Nat := if k < ds.base then k else k + ds.nsems

theorem Packed.owns_semRmid (h : Packed s) (hne : j ≠ ix) (hix : (s.sema ix).alloc) (k : Nat) :
    ((semRmid s cred ix).sema j).Owns k ↔ (s.sema j).Owns (before (s.sema ix) k) := by
  unfold SemidDs.Owns before
  rw [alloc_semRmid hne, nsems_semRmid hne]
  apply and_congr_right
  intro hj
  rcases Nat.eq_zero_or_pos (s.sema j).nsems with hzero | hposj
  · omega
  · have hbase := h.base_semRmid cred hne hj hix hposj
    split <;> omega

theorem not_owns_before (ds : SemidDs) (k : Nat) : ¬ ds.Owns (before ds k) := by
  unfold SemidDs.Owns before
  split <;> omega

theorem Packed.end_le (h : Packed s) (hix : (s.sema ix).alloc) :
    (s.sema ix).nsems = 0 ∨ (s.sema ix).base + (s.sema ix).nsems ≤ s.semtot := by
  rcases Nat.eq_zero_or_pos (s.sema ix).nsems with hzero | hpos
  · exact .inl hzero
  · have := (h.whole ((s.sema ix).base + (s.sema ix).nsems - 1)).mp ⟨ix, hix, by omega, by omega⟩
    omega

theorem Packed.before_lt (h : Packed s) (hix : (s.sema ix).alloc) (k : Nat) :
    before (s.sema ix) k < s.semtot ↔ k < s.semtot - (s.sema ix).nsems := by
  have := h.end_le hix
  unfold before
  split <;> omega

theorem Packed.semRmid (h : Packed s) (hix : (s.sema ix).alloc) : Packed (semRmid s cred ix) := by
  have howns : ∀ j k, ((Ipc.semRmid s cred ix).sema j).Owns k →
      (s.sema j).Owns (before (s.sema ix) k) := by
    intro j k hk
    have hne : j ≠ ix := by
      rintro rfl
      exact not_owns_semRmid_self k hk
    exact (h.owns_semRmid hne hix k).mp hk
  constructor
  · exact fun i j k hi hj => h.apart i j _ (howns i k hi) (howns j k hj)
  · intro k
    show _ ↔ k < s.semtot - (s.sema ix).nsems
    rw [← h.before_lt hix, ← h.whole]
    constructor
    · exact fun ⟨i, hi⟩ => ⟨i, howns i k hi⟩
    · rintro ⟨i, hi⟩
      have hne : i ≠ ix := by
        rintro rfl
        exact not_owns_before _ k hi
      exact ⟨i, (h.owns_semRmid hne hix k).mpr hi⟩
  · have := h.room
    show s.semtot - (s.sema ix).nsems ≤ semmns
    omega

theorem sem_semRmid {k : Nat} (hk : k < s.semtot - (s.sema ix).nsems) :
    (semRmid s cred ix).sem k = s.sem (before (s.sema ix) k) := by
  show (if (s.sema ix).base ≤ k ∧ k < s.semtot - (s.sema ix).nsems then s.sem (k + (s.sema ix).nsems)
    else s.sem k) = _
  unfold before
  split_ifs with hmoved hlow <;> first | rfl | omega

theorem sameSems_semRmid (h : Packed s) (hne : j ≠ ix) (hj : (s.sema j).alloc)
    (hix : (s.sema ix).alloc) : SameSems s (semRmid s cred ix) j := by
  refine ⟨alloc_semRmid hne, nsems_semRmid hne, ?_⟩
  intro n hn
  have hbase := h.base_semRmid cred hne hj hix (by omega)
  have hbefore : before (s.sema ix) (((semRmid s cred ix).sema j).base + n) = (s.sema j).base + n := by
    unfold before
    split <;> omega
  have hlow : (s.sema j).base + n < s.semtot := (h.whole _).mp ⟨j, hj, by omega, by omega⟩
  rw [← hbefore, h.before_lt hix] at hlow
  rw [sem_semRmid hlow, hbefore]

end Remove

theorem semCheck_cases (s : SemState) (hid : (ipcidToIx id).toNat = ix) :
    semCheck s id = .reject .einval ∨ (semCheck s id = .accept ix ∧ (s.sema ix).alloc) := by
  have hlt := ix.isLt
  have hge : ¬ (ipcidToIx id).toNat ≥ semmsl := by
    simp only [semmsl, semmns, semmni] at hlt ⊢
    omega
  have heq : (⟨(ipcidToIx id).toNat, by omega⟩ : Fin semmni) = ix := Fin.ext hid
  simp only [semCheck]
  rw [dif_pos (by omega), heq]
  split_ifs with hds
  · exact .inl rfl
  · rw [not_or] at hds
    exact .inr ⟨rfl, by simpa using hds.1⟩

theorem semCheck_accept (h : semCheck s id = .accept ix) : (s.sema ix).alloc ∧ (s.sema ix).perm.seq = 0 := by
  unfold semCheck at h
  dsimp only at h
  split_ifs at h with hrange hlt hbad
  obtain rfl := Check.accept.inj h
  rw [not_or, not_not, ipcidToSeq_ipcidToIx] at hbad
  exact ⟨by simpa using hbad.1, hbad.2⟩

theorem Packed.semctl_rmid (h : Packed s) (cred : Ucred) (semnum : Int)
    (hid : (ipcidToIx id).toNat = ix) :
    Packed (semctl s cred id semnum .ipcRmid).1 ∧
    ∀ j ≠ ix, (s.sema j).alloc → SameSems s (semctl s cred id semnum .ipcRmid).1 j := by
  unfold semctl
  rcases semCheck_cases s hid with hreject | ⟨haccept, hix⟩
  · rw [hreject]
    exact ⟨h, fun j _ _ => .refl s j⟩
  · rw [haccept]
    exact ⟨h.semRmid hix, fun j hne hj => sameSems_semRmid h hne hj hix⟩

/-- **No holes**: from any packed state `ix_semget`, and `ix_semctl(IPC_RMID)` of any entry of `sema`,
lead to a packed state, and every set other than the one made or removed has the semaphores it had. -/
theorem packed_step {s : SemState} (h : Packed s) :
    (∀ cred key nsems flg, Packed (semget s cred key nsems flg).1 ∧
      ∀ j, (s.sema j).alloc = true → SameSems s (semget s cred key nsems flg).1 j) ∧
    ∀ cred id semnum (ix : Fin semmni), (ipcidToIx id).toNat = ix →
      Packed (semctl s cred id semnum .ipcRmid).1 ∧
      ∀ j ≠ ix, (s.sema j).alloc = true → SameSems s (semctl s cred id semnum .ipcRmid).1 j :=
  ⟨h.semget, fun cred _ semnum _ hid => h.semctl_rmid cred semnum hid⟩

/-- A set of two semaphores, and one of a single semaphore behind it whose value is 7. -/
def twoSets : SemState where
  sema := fun i => match i.val with
    | 0 => ⟨{ IpcPerm.zero with flag := true }, 0, 2⟩
    | 1 => ⟨{ IpcPerm.zero with flag := true }, 2, 1⟩
    | _ => ⟨IpcPerm.zero, 0, 0⟩
  sem := fun k => if k = 2 then ⟨7, 0, 0, 0⟩ else Sem.zero
  semtot := 3
  undos := []

theorem owns_twoSets (i : Fin semmni) (k : Nat) :
    (twoSets.sema i).Owns k ↔ (i.val = 0 ∧ k < 2) ∨ (i.val = 1 ∧ k = 2) := by
  obtain ⟨_ | _ | i, hi⟩ := i
  · simp [twoSets, SemidDs.Owns, SemidDs.alloc]
  · simp [twoSets, SemidDs.Owns, SemidDs.alloc]
    omega
  · simp [twoSets, SemidDs.Owns, SemidDs.alloc, IpcPerm.zero]

theorem packed_twoSets : Packed twoSets where
  apart i j k hi hj := by
    rw [owns_twoSets] at hi hj
    omega
  whole k := by
    simp only [owns_twoSets]
    show _ ↔ k < 3
    constructor
    · rintro ⟨i, hi⟩
      omega
    · intro hk
      by_cases hlow : k < 2
      · exact ⟨0, .inl ⟨rfl, hlow⟩⟩
      · exact ⟨1, .inr ⟨rfl, by omega⟩⟩
  room := by decide

/-- The first set is removed; the second has its semaphore as before, at the start of the pool now. -/
theorem packed_step_twoSets :
    Packed (semctl twoSets ⟨0, 0⟩ 0 0 .ipcRmid).1 ∧
      SameSems twoSets (semctl twoSets ⟨0, 0⟩ 0 0 .ipcRmid).1 1 ∧
      ((semctl twoSets ⟨0, 0⟩ 0 0 .ipcRmid).1.sema 1).base = 0 := by
  obtain ⟨hpacked, hsame⟩ := (packed_step packed_twoSets).2 ⟨0, 0⟩ 0 0 0 rfl
  exact ⟨hpacked, hsame 1 (by decide) rfl, rfl⟩

end Ixemul.Ipc
