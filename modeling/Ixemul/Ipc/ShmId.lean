/-
# Ixemul.Ipc.ShmId — the identifiers of segments (`IPC_SHMID` of sys/shm.h).

An identifier is made of the lower 14 bits of the segment's sequence number and of bits 2 to 17 of its
address.  Segments are numbered in the order they are made, so two that live at the same time can have one
identifier when the second is made 2¹⁴ segments after the first.
-/
import Ixemul.Ipc.Shm

namespace Ixemul.Ipc.Shm

open Ixemul.Lib.Run
open List

variable {P : Type*} {T : Table} {ds d e : ShmidDs} {a : Addr} {f : ShmidDs → ShmidDs} {s t : Sys P}

theorem toNat_shmid (d : ShmidDs) :
    d.shmid.toNat = d.perm.seq % 2 ^ 14 * 2 ^ 18 + (d.addr &&& 0x3fffc#32).toNat := by
  have hlow : (d.addr &&& 0x3fffc#32).toNat < 2 ^ 18 := Nat.and_lt_two_pow _ (by decide)
  have hhigh : (BitVec.ofNat 32 d.perm.seq <<< 18).toNat = (d.perm.seq % 2 ^ 14) <<< 18 := by
    rw [BitVec.toNat_shiftLeft, BitVec.toNat_ofNat, Nat.shiftLeft_eq, Nat.shiftLeft_eq]
    omega
  rw [ShmidDs.shmid, BitVec.toNat_or, hhigh, ← Nat.shiftLeft_add_eq_or_of_lt hlow, Nat.shiftLeft_eq]

theorem shmid_eq_iff : d.shmid = e.shmid ↔ d.perm.seq % 2 ^ 14 = e.perm.seq % 2 ^ 14 ∧
    d.addr &&& 0x3fffc#32 = e.addr &&& 0x3fffc#32 := by
  have hd : (d.addr &&& 0x3fffc#32).toNat < 2 ^ 18 := Nat.and_lt_two_pow _ (by decide)
  have he : (e.addr &&& 0x3fffc#32).toNat < 2 ^ 18 := Nat.and_lt_two_pow _ (by decide)
  rw [← BitVec.toNat_inj, ← BitVec.toNat_inj, toNat_shmid, toNat_shmid]
  omega

/-! ## Segments are numbered as they are made -/

/-- The sequence number of the table and of each segment, by how many segments were made before. -/
structure Table.Numbered (T : Table) : Prop where
  next : T.seq = T.made % 2 ^ 16
  seq : ∀ d ∈ T.shmlist, d.perm.seq = (d.serial + 1) % 2 ^ 16

namespace Table.Numbered

theorem write (h : T.Numbered) (hf : ∀ d, (f d).serial = d.serial ∧ (f d).perm.seq = d.perm.seq) :
    (T.write a f).Numbered := by
  refine ⟨h.next, fun d hd => ?_⟩
  obtain ⟨d₀, hd₀, rfl⟩ := mem_write.mp hd
  split
  · rw [(hf d₀).1, (hf d₀).2, h.seq d₀ hd₀]
  · exact h.seq d₀ hd₀

theorem deallocate (h : T.Numbered) : (shmDeallocateSegment T ds).Numbered :=
  ⟨h.next, fun d hd => h.seq d (mem_filter.mp hd).1⟩

theorem deleteMapping (h : T.Numbered) (time : Nat) (a : Addr) : (shmDeleteMapping T time a).Numbered := by
  have hdrop : (T.write a (dropOne time)).Numbered := h.write fun _ => ⟨rfl, rfl⟩
  unfold shmDeleteMapping
  dsimp only
  split
  · exact hdrop
  · split
    · exact hdrop.deallocate
    · exact hdrop

theorem foldl {g : Table → Addr → Table} (hg : ∀ T a, T.Numbered → (g T a).Numbered) (l : List Addr)
    (h : T.Numbered) : (l.foldl g T).Numbered := by
  induction l generalizing T with
  | nil => exact h
  | cons a l ih => exact ih (hg T a h)

end Table.Numbered

theorem numbered_run [DecidableEq P] {op : Op P} (hT : s.table.WellFormed) (h : s.table.Numbered) :
    (op.run s).table.Numbered := by
  cases op with
  | start q => exact h
  | shmget p c key size flg l data =>
    show (Shm.shmget s.table c key size flg l data).1.Numbered
    rcases shmget_cases s.table c key size flg l data with heq | ⟨x, y, -, heq⟩
    · rwa [heq]
    · rw [heq]
      have hseq : (s.table.seq + 1) % 2 ^ 16 = (s.table.made + 1) % 2 ^ 16 := by
        rw [h.next]
        omega
      exact ⟨hseq, forall_mem_cons.mpr ⟨hseq, h.seq⟩⟩
  | shmat p c shmid shmaddr =>
    show (Shm.shmat s.table (s.shmarray p) c shmid shmaddr).1.Numbered
    unfold Shm.shmat
    split
    · exact h
    · split
      · exact h
      · exact h.write fun _ => ⟨rfl, rfl⟩
  | shmdt p c addr =>
    show (Shm.shmdt s.table (s.shmarray p) c addr).1.Numbered
    unfold Shm.shmdt
    split
    · exact h
    · exact h.deleteMapping _ _
  | shmctl p c shmid cmd =>
    refine shmctl_induction hT c shmid cmd h (fun _ _ _ _ => h.write fun _ => ⟨rfl, rfl⟩) fun ds _ => ?_
    have hmark : (s.table.write ds.addr mark).Numbered := h.write fun _ => ⟨rfl, rfl⟩
    split
    · exact hmark.deallocate
    · exact hmark
  | vfork p q =>
    refine Table.Numbered.foldl ?_ (s.shmarray p) h
    exact fun T a hT => hT.write fun _ => ⟨rfl, rfl⟩
  | exit p time => exact h.foldl (fun T a hT => hT.deleteMapping time a) _

theorem numbered_of_history [DecidableEq P] {tr : List (Sys P × Op P)}
    (h : History Step (Sys.init P) tr t) : t.table.WellFormed ∧ t.table.Numbered := by
  refine h.invariant (I := fun s => s.table.WellFormed ∧ s.table.Numbered) (C := fun _ _ => True) ?_
    ⟨wellFormed_init, rfl, nofun⟩ fun _ _ => trivial
  rintro s op t ⟨hT, hN⟩ - ⟨hop, rfl⟩
  exact ⟨step_wellFormed hT hop, numbered_run hT hN⟩

/-- **The identifiers of live segments differ**, and lead back to their segments, exactly if no two of them
were made a multiple of 2¹⁴ segments apart at addresses that agree in bits 2 to 17. -/
theorem shmids_differ_iff [DecidableEq P] {tr : List (Sys P × Op P)} (h : History Step (Sys.init P) tr t) :
    ((∀ d ∈ t.table.shmlist, ∀ e ∈ t.table.shmlist, d.shmid = e.shmid → d = e) ∧
      ∀ d ∈ t.table.shmlist, t.table.findDsByShmid d.shmid = some d) ↔
    ∀ d ∈ t.table.shmlist, ∀ e ∈ t.table.shmlist, d.serial % 2 ^ 14 = e.serial % 2 ^ 14 →
      d.addr &&& 0x3fffc#32 = e.addr &&& 0x3fffc#32 → d = e := by
  have hN := (numbered_of_history h).2
  have hiff : ∀ d ∈ t.table.shmlist, ∀ e ∈ t.table.shmlist, (d.shmid = e.shmid ↔
      d.serial % 2 ^ 14 = e.serial % 2 ^ 14 ∧ d.addr &&& 0x3fffc#32 = e.addr &&& 0x3fffc#32) := by
    intro d hd e he
    rw [shmid_eq_iff, hN.seq d hd, hN.seq e he]
    refine and_congr_left' ?_
    omega
  constructor
  · intro hdiff d hd e he hserial haddr
    exact hdiff.1 d hd e he ((hiff d hd e he).mpr ⟨hserial, haddr⟩)
  · intro hno
    have hdiff : ∀ d ∈ t.table.shmlist, ∀ e ∈ t.table.shmlist, d.shmid = e.shmid → d = e := by
      intro d hd e he heq
      obtain ⟨hserial, haddr⟩ := (hiff d hd e he).mp heq
      exact hno d hd e he hserial haddr
    refine ⟨hdiff, fun d hd => ?_⟩
    cases hfind : t.table.findDsByShmid d.shmid with
    | none => exact absurd (find?_eq_none.mp hfind d hd) (by simp)
    | some e =>
      have heq : e.shmid = d.shmid := by simpa using find?_some hfind
      rw [hdiff e (mem_of_find?_eq_some hfind) d hd heq]

/-! ## One identifier for two segments -/

def make (l data : Addr) : Op Nat := .shmget 0 root 0 64 ⟨0o600, false, false⟩ (some l) (some data)

/-- The first segment of a run. -/
def firstSegment : ShmidDs := newSegment Table.init root 0 64 ⟨0o600, false, false⟩ 0x1000 0x2000

/-- The first segment stays, and any number of others are made and removed, one after the other. -/
theorem exists_history_made (n : Nat) : ∃ tr s, History Step (Sys.init Nat) tr s ∧ s.procs = {0} ∧
    s.table.shmlist = [firstSegment] ∧ s.table.seq = (n + 1) % 2 ^ 16 := by
  induction n with
  | zero => exact ⟨_, _, (History.nil (Sys.init Nat)).trace [.start 0, make 0x1000 0x2000] (by decide),
      by decide, by decide, by decide⟩
  | succ n ih =>
    obtain ⟨tr, s, h, hprocs, hlist, hseq⟩ := ih
    have hmake : Step s (make 0x3000 0x4000) ((make 0x3000 0x4000).run s) := by
      refine ⟨⟨?_, ?_, ?_⟩, rfl⟩ <;> simp [hprocs, hlist, firstSegment, newSegment]
    let new := newSegment s.table root 0 64 ⟨0o600, false, false⟩ 0x3000 0x4000
    have hfind : ((make 0x3000 0x4000).run s).table.findDsByShmid new.shmid = some new :=
      find?_cons_of_pos (beq_self_eq_true _)
    have hrm := shmctl_rmid (c := root) (numbered_of_history (h.snoc hmake)).1 hfind
    have hzero : new.nattch.toInt ≤ 0 := show (0#16).toInt ≤ 0 by decide
    rw [if_pos hzero] at hrm
    have hremove : Step ((make 0x3000 0x4000).run s) (.shmctl 0 root new.shmid .rmid) _ :=
      ⟨show 0 ∈ s.procs by simp [hprocs], rfl⟩
    refine ⟨_, _, (h.snoc hmake).snoc hremove, hprocs, ?_, ?_⟩
    · refine (congrArg Table.shmlist hrm).trans ?_
      show (shmDeallocateSegment ((s.table.link new).write new.addr mark) (mark new)).shmlist = _
      simp [shmDeallocateSegment, Table.write, Table.link, hlist, new, firstSegment, newSegment, mark]
    · refine (congrArg Table.seq hrm).trans ?_
      show (s.table.seq + 1) % 2 ^ 16 = _
      omega

/-- Two segments live at the same time, and each has an identifier of its own. -/
theorem shmids_differ_iff_two : ∃ tr t, History Step (Sys.init Nat) tr t ∧
    t.table.shmlist.map ShmidDs.addr = [0x3000, 0x1000] ∧
    (∀ d ∈ t.table.shmlist, ∀ e ∈ t.table.shmlist, d.shmid = e.shmid → d = e) ∧
    ∀ d ∈ t.table.shmlist, t.table.findDsByShmid d.shmid = some d := by
  have h : History Step (Sys.init Nat) _ _ :=
    (History.nil (Sys.init Nat)).trace [.start 0, make 0x1000 0x2000, make 0x3000 0x4000] (by decide)
  exact ⟨_, _, h, by decide, (shmids_differ_iff h).mpr (by decide)⟩

/-- 2¹⁴ segments after the first, one is made 2¹⁸ bytes behind it. -/
theorem shmid_twice : ∃ tr t, History Step (Sys.init Nat) tr t ∧ ∃ d ∈ t.table.shmlist,
    d.shmid = firstSegment.shmid ∧ firstSegment ∈ t.table.shmlist ∧ d.addr ≠ firstSegment.addr := by
  obtain ⟨tr, s, h, hprocs, hlist, hseq⟩ := exists_history_made (2 ^ 14 - 1)
  have hmake : Step s (make 0x41000 0x5000) ((make 0x41000 0x5000).run s) := by
    refine ⟨⟨?_, ?_, ?_⟩, rfl⟩ <;> simp [hprocs, hlist, firstSegment, newSegment]
  refine ⟨_, _, h.snoc hmake, _, mem_cons_self, ?_, mem_cons_of_mem _ (by simp [hlist]), ?_⟩
  · rw [shmid_eq_iff]
    show ((s.table.seq + 1) % 2 ^ 16) % 2 ^ 14 = 1 % 2 ^ 14 ∧
      0x41000#32 &&& 0x3fffc#32 = 0x1000#32 &&& 0x3fffc#32
    rw [hseq]
    decide
  · show 0x41000#32 ≠ 0x1000#32
    decide

end Ixemul.Ipc.Shm
