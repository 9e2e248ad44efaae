/-
# Ixemul.StackExtend.Frames — which frame a request gets, and which one a restoration goes back to.

`pushframe` adds up what is needed in 32 bits, and asks Exec for more than that: for what the process once
had, then for half of it, and so on down to the need, which need not be one of these sizes.  `stkrst` looks
for the frame above the one it is to go back to.
-/
import Ixemul.StackExtend

namespace Ixemul.StackExtend

open List

variable {s : Stack} {d0 : Word} {f g : Frame} {l newer rest : List Frame}

/-! ## Restoration -/

def Frame.Contains (sf : Frame) (d : Word) : Prop := d ≥ sf.lower ∧ d < sf.upper

/-- The original stack contains the address. -/
def Stack.OrgContains (s : Stack) (d : Word) : Prop := ¬ (d < s.orgLower ∨ d ≥ s.orgUpper)

/-- The stack in use contains the address, when these frames are left. -/
def Stack.TopContains (s : Stack) (d : Word) : List Frame → Prop
  | [] => s.OrgContains d
  | f :: _ => f.Contains d

/-- The frames in use are blocks that do not overlap, nor do they overlap the original stack. -/
structure Stack.Apart (s : Stack) : Prop where
  frames : s.used.Pairwise fun f g => f.addr ≠ g.addr ∧ ∀ d, f.Contains d → ¬ g.Contains d
  original : ∀ f ∈ s.used, ∀ d, f.Contains d → ¬ s.OrgContains d

theorem frameAbove_eq_none (hno : ∀ f ∈ l, ¬ f.Contains d0) (horg : ¬ s.OrgContains d0) :
    frameAbove s d0 l = none := by
  fun_induction frameAbove s d0 l with
  | case1 => rfl
  | case2 => rfl
  | case3 sf1 hin => exact absurd hin horg
  | case4 sf1 sf2 l hin => exact absurd hin (hno sf2 (by simp))
  | case5 sf1 sf2 l hin ih => exact ih fun f hf => hno f (mem_cons_of_mem _ hf)

/-- The frame above the stack that contains `d0`. -/
theorem frameAbove_of_topContains (hno : ∀ f ∈ newer ++ [g], ¬ f.Contains d0)
    (htop : s.TopContains d0 rest) : frameAbove s d0 (newer ++ g :: rest) = some g := by
  induction newer with
  | nil =>
    cases rest with
    | nil => exact if_neg htop
    | cons => exact if_pos htop
  | cons x newer ih =>
    have hlater := ih fun f hf => hno f (mem_cons_of_mem _ hf)
    cases newer with
    | nil => exact (if_neg (hno g (by simp))).trans hlater
    | cons y => exact (if_neg (hno y (by simp))).trans hlater

theorem cutBehind_of_ne (hne : ∀ f ∈ newer, f.addr ≠ g.addr) :
    cutBehind g.addr (newer ++ g :: rest) = (newer ++ [g], rest) := by
  induction newer with
  | nil => exact if_pos rfl
  | cons x newer ih =>
    rw [forall_mem_cons] at hne
    rw [cons_append, cutBehind, if_neg hne.1, ih hne.2]
    rfl

/-- **`stkrst` goes back to the stack that contains `d0`.**  If that is the one in use, or if there is none,
`d0` is returned and nothing changes.  Otherwise exactly the newer frames become spare, the others stay as
they were, and bounds and limit are those of the stack that `d0` is in. -/
theorem stkrst_spec (h : s.Apart) (d0 : Word) :
    (s.TopContains d0 s.used ∨ (∀ f ∈ s.used, ¬ f.Contains d0) ∧ ¬ s.OrgContains d0 →
      stkrst s d0 = (s, none)) ∧
    ∀ newer rest, newer ≠ [] → s.used = newer ++ rest → s.TopContains d0 rest →
      ∃ t, stkrst s d0 = (t, some (match rest with
          | [] => ⟨s.tcSplower, s.tcSpupper, d0 - savedSize⟩
          | f :: _ => ⟨f.lower, f.upper, d0 - savedSize⟩)) ∧
        t.used = rest ∧ t.spare = newer ++ s.spare ∧ t.limit = t.lower + stkSafezone + s.argbt := by
  have hcur : (d0 ≥ s.lower ∧ d0 < s.upper) ↔ s.TopContains d0 s.used := by
    unfold Stack.lower Stack.upper
    cases s.used with
    | nil => simp [Stack.TopContains, Stack.OrgContains]
    | cons => exact Iff.rfl
  constructor
  · intro hor
    by_cases htop : s.TopContains d0 s.used
    · exact if_pos (hcur.mpr htop)
    · obtain ⟨hno, horg⟩ := hor.resolve_left htop
      rw [stkrst, if_neg (mt hcur.mp htop), frameAbove_eq_none hno horg]
  · intro newer rest hne hused htop
    obtain ⟨newer, g, rfl⟩ := (eq_nil_or_concat' newer).resolve_left hne
    have hframes := h.frames
    rw [hused] at hframes
    obtain ⟨hnewer, -, hacross⟩ := pairwise_append.mp hframes
    have hno : ∀ f ∈ newer ++ [g], ¬ f.Contains d0 := by
      intro f hf hcon
      cases rest with
      | nil => exact h.original f (by rw [hused]; exact mem_append_left _ hf) d0 hcon htop
      | cons f' => exact (hacross f hf f' mem_cons_self).2 d0 hcon htop
    have hnot : ¬ s.TopContains d0 s.used := by
      rw [hused]
      cases newer with
      | nil => exact hno g mem_cons_self
      | cons x => exact hno x mem_cons_self
    rw [append_assoc] at hused
    have hcut : cutBehind g.addr s.used = (newer ++ [g], rest) := by
      rw [hused]
      exact cutBehind_of_ne fun f hf => ((pairwise_append.mp hnewer).2.2 f hf g mem_cons_self).1
    have habove : frameAbove s d0 s.used = some g := by
      rw [hused]
      exact frameAbove_of_topContains hno htop
    rw [stkrst, if_neg (mt hcur.mp hnot), habove]
    simp only [popframes, hcut]
    cases rest with
    | nil => exact ⟨_, rfl, rfl, rfl, rfl⟩
    | cons => exact ⟨_, rfl, rfl, rfl, rfl⟩

/-- A process with two frames, and its stack pointer back in the older one. -/
theorem stkrst_spec_older :
    let sf : Frame := ⟨0x8000, 0, 0x9000⟩
    let top : Frame := ⟨0xa000, 0, 0xb000⟩
    let s : Stack := { initStkLimit 0x1000 0x2000 0x1000 0x2000 256 with used := [top, sf] }
    s.Apart ∧ ∃ t, stkrst s 0x8800 = (t, some ⟨sf.lower, sf.upper, 0x8800 - savedSize⟩) ∧ t.used = [sf] ∧
      t.spare = [top] := by
  intro sf top s
  have hapart : s.Apart := by
    refine ⟨pairwise_pair.mpr ⟨by decide, fun d hin hin' => ?_⟩, ?_⟩
    · exact BitVec.not_le.mpr hin'.2 (BitVec.le_trans (show sf.upper ≤ top.lower by decide) hin.1)
    · intro f (hf : f ∈ [top, sf]) d hin horg
      refine horg (.inr (BitVec.le_trans ?_ hin.1))
      rcases mem_pair.mp hf with rfl | rfl <;> decide
  obtain ⟨t, ht, hused, hspare, -⟩ :=
    (stkrst_spec hapart 0x8800).2 [top] [sf] (cons_ne_nil _ _) rfl ⟨by decide, by decide⟩
  exact ⟨hapart, t, ht, hused, hspare⟩

/-! ## Extension -/

/-- What a request needs, as a number. -/
def need (s : Stack) (d0 : Word) : Nat := d0.toNat + 6144 + s.argbt.toNat

/-- What a request should come to: a frame of that many bytes, in a block that holds it and its header; or an
overflow, if memory is short and no frame is spare. -/
def Suits (s : Stack) (d0 : Word) (m : Nat) (r : Stack × Option StackSwap) : Prop :=
  match r.2, r.1.used with
  | some _, sf :: _ => need s d0 ≤ sf.size.toNat ∧ sf.size.toNat + 12 < 2 ^ 32
  | some _, [] => False
  | none, _ => m < max (need s d0) 32768 + 12 ∧ r.1.spare = []

/-- A size that the loop comes to is at most what Exec has. -/
def Offered (required recommended m : Nat) : Prop :=
  ∃ k, required ≤ recommended / 2 ^ k ∧ (recommended / 2 ^ k + 12) % 2 ^ 32 ≤ m

/-- The loop gets the first of its sizes that Exec has. -/
theorem allocLoop_spec {mem : Word → Option (Word × Word)} {m : Nat} {required : Word}
    (hmem : ∀ n, (mem n).isSome ↔ n.toNat ≤ m) (hreq : 0 < required.toNat) :
    ∀ (fuel : Nat) (recommended : Word), recommended.toNat < 2 ^ fuel →
      match allocLoop mem required (fuel + 1) recommended with
      | some sf => ∃ k, sf.size.toNat = recommended.toNat / 2 ^ k ∧ required.toNat ≤ sf.size.toNat ∧
          (sf.size.toNat + 12) % 2 ^ 32 ≤ m ∧ ∀ j < k, m < (recommended.toNat / 2 ^ j + 12) % 2 ^ 32
      | none => ¬ Offered required.toNat recommended.toNat m := by
  intro fuel
  induction fuel with
  | zero =>
    intro recommended hlt
    have hzero : recommended.toNat = 0 := by omega
    have hnot : ¬ recommended ≥ required := by
      show ¬ required.toNat ≤ recommended.toNat
      omega
    rw [allocLoop, if_neg hnot]
    rintro ⟨k, hk, -⟩
    rw [hzero, Nat.zero_div] at hk
    omega
  | succ fuel ih =>
    intro recommended hlt
    rw [allocLoop]
    split_ifs with hge
    · have hask : (recommended + headerSize).toNat = (recommended.toNat + 12) % 2 ^ 32 := rfl
      have hgot := hmem (recommended + headerSize)
      cases hb : mem (recommended + headerSize) with
      | some b =>
        have hsize : Frame.size ⟨b.1, b.2, b.1 + headerSize + recommended⟩ = recommended := by
          unfold Frame.size Frame.lower
          bv_omega
        rw [hb] at hgot
        refine ⟨0, ?_, ?_, ?_, nofun⟩
        · rw [hsize, pow_zero, Nat.div_one]
        · rwa [hsize]
        · rw [hsize]
          exact hgot.mp rfl
      | none =>
        rw [hb] at hgot
        have hfirst : m < (recommended.toNat + 12) % 2 ^ 32 := not_le.mp fun hle => nomatch hgot.mpr hle
        have hhalf (k : Nat) : (recommended / 2).toNat / 2 ^ k = recommended.toNat / 2 ^ (k + 1) := by
          rw [Nat.pow_succ', ← Nat.div_div_eq_div_mul]
          rfl
        have hrest := ih (recommended / 2) (show recommended.toNat / 2 < 2 ^ fuel by omega)
        dsimp only
        split at hrest
        · obtain ⟨k, hk, hle, hoff, hbefore⟩ := hrest
          refine ⟨k + 1, by rw [hk, hhalf], hle, hoff, fun j hj => ?_⟩
          cases j with
          | zero => rwa [pow_zero, Nat.div_one]
          | succ j =>
            rw [← hhalf]
            exact hbefore j (by omega)
        · rintro ⟨k, hk, hoff⟩
          cases k with
          | zero =>
            omega
          | succ k =>
            rw [← hhalf] at hk hoff
            exact hrest ⟨k, hk, hoff⟩
    · rintro ⟨k, hk, -⟩
      exact hge (le_trans hk (Nat.div_le_self _ _))

theorem takeSpare_eq (recommended : Word) (spare : List Frame) (al : List (Word × Word)) :
    (takeSpare recommended spare al).1 = spare.find? (fun sf => sf.size ≥ recommended) ∧
      ((takeSpare recommended spare al).1 = none → (takeSpare recommended spare al).2.1 = []) := by
  induction spare generalizing al with
  | nil => exact ⟨rfl, fun _ => rfl⟩
  | cons sf spare ih =>
    unfold takeSpare
    split
    case isTrue hge => simp [hge]
    case isFalse hlt => simpa [hlt] using ih _

theorem toNat_requiredStack (s : Stack) (d0 : Word) :
    (requiredStack s d0 false).toNat = max (need s d0 % 2 ^ 32) 32768 := by
  have hsum : (d0 + (stkSafezone + s.argbt)).toNat = need s d0 % 2 ^ 32 := by
    unfold need stkSafezone
    bv_omega
  rw [requiredStack, if_neg Bool.false_ne_true, ← hsum]
  split
  case isTrue hlt => exact (max_eq_right (le_of_lt hlt)).symm
  case isFalse hge => exact (max_eq_left (not_lt.mp hge)).symm

theorem le_recommendedStack (s : Stack) (required : Word) :
    required.toNat ≤ (recommendedStack s required).toNat := by
  unfold recommendedStack
  split
  · exact le_rfl
  case isFalse hge => exact not_lt.mp hge

/-- **What `pushframe` gets for a request.**  With a spare frame it suits if the sum of what is needed does
not wrap; with memory from Exec, if moreover the size asked for does not wrap; and an overflow is right if
Exec has not enough for the need itself, whatever sizes were tried. -/
theorem suits_pushframe_iff {mem : AllocMem} {m : Nat} {required recommended : Word}
    (hmem : ∀ al n, (mem al n).isSome ↔ n.toNat ≤ m) (hreq : requiredStack s d0 false = required)
    (hrec : recommendedStack s required = recommended) :
    Suits s d0 m (pushframe s d0 false mem) ↔
      match s.spare.find? (fun sf => sf.size ≥ recommended) with
      | some sf => need s d0 < 2 ^ 32 ∧ sf.size.toNat + 12 < 2 ^ 32
      | none => (Offered required.toNat recommended.toNat m →
          need s d0 < 2 ^ 32 ∧ recommended.toNat + 12 < 2 ^ 32) ∧
        (¬ Offered required.toNat recommended.toNat m → m < max (need s d0) 32768 + 12) := by
  have hmax : required.toNat = max (need s d0 % 2 ^ 32) 32768 := hreq ▸ toNat_requiredStack s d0
  have hle : required.toNat ≤ recommended.toNat := hrec ▸ le_recommendedStack s required
  -- a frame as large as required has what is needed, if that does not wrap
  have hneed : ∀ n : Word, required.toNat ≤ n.toNat → (need s d0 ≤ n.toNat ↔ need s d0 < 2 ^ 32) := by
    intro n hn
    omega
  obtain ⟨hfind, hempty⟩ := takeSpare_eq recommended s.spare s.allocated
  rw [← hfind]
  simp only [pushframe, hreq, hrec]
  match htake : takeSpare recommended s.spare s.allocated with
  | (some sf, spare, al) =>
    have hge : sf.size ≥ recommended := by
      rw [htake] at hfind
      simpa using find?_some hfind.symm
    exact and_congr_left' (hneed sf.size (le_trans hle hge))
  | (none, spare, al) =>
    obtain rfl : spare = [] := by simpa [htake] using hempty
    have hloop := allocLoop_spec (hmem al) (show 0 < required.toNat by omega) 32 recommended recommended.isLt
    match halloc : allocLoop (mem al) required 33 recommended with
    | some sf =>
      rw [halloc] at hloop
      obtain ⟨k, hk, hge, hoff, hbefore⟩ := hloop
      have hoffered : Offered required.toNat recommended.toNat m := ⟨k, hk ▸ hge, hk ▸ hoff⟩
      -- a size that wraps is offered before any other
      have hwrap : sf.size.toNat + 12 < 2 ^ 32 ↔ recommended.toNat + 12 < 2 ^ 32 := by
        cases k with
        | zero => rw [hk, pow_zero, Nat.div_one]
        | succ k =>
          have hhalf : recommended.toNat / 2 ^ (k + 1) ≤ recommended.toNat / 2 :=
            Nat.div_le_div_left (Nat.le_self_pow (by omega) 2) (by decide)
          have hfirst := hbefore 0 (Nat.succ_pos k)
          omega
      simp only [halloc, hoffered, not_true, forall_const, IsEmpty.forall_iff, and_true, ← hwrap]
      exact and_congr_left' (hneed sf.size hge)
    | none =>
      rw [halloc] at hloop
      simp only [halloc, hloop, not_false_eq_true, forall_const, IsEmpty.forall_iff, true_and]
      exact and_iff_left rfl

/-- A process that once had `max` bytes in frames, and has none now. -/
def shrunk (max : Word) : Stack := { initStkLimit 0x1000 0x2000 0x1000 0x2000 256 with max }

def upTo (m : Nat) : AllocMem := fun _ n => if n.toNat ≤ m then some (0x10000, 0) else none

theorem suits_pushframe_iff_min : Suits (shrunk 0) 0 50000 (pushframe (shrunk 0) 0 false (upTo 50000)) := by
  refine (suits_pushframe_iff (fun _ n => ?_) rfl rfl).mpr ⟨fun _ => by decide, fun hno => ?_⟩
  · unfold upTo
    split <;> simp_all
  · exact absurd ⟨0, by decide⟩ hno

/-- 32768 bytes are needed and Exec has 50000, but is asked for 60000 and then for 30000, which is too little;
and a request for almost 2³² bytes gets the smallest frame. -/
theorem overflow_before_need :
    need (shrunk 60000) 26368 = 32768 ∧ (pushframe (shrunk 60000) 26368 false (upTo 50000)).1.ovf = true ∧
    (pushframe (shrunk 0) 0xffffffff false (upTo 50000)).1.used.map Frame.size = [32768] := by
  decide

end Ixemul.StackExtend
