/-
# Ixemul.StackExtend — stack frames added and taken back (stackextend.c).

A frame is a block of memory that starts with its `struct stackframe`.  A process has a list of the frames
in use, the newest first, and a list of spare ones, and counts how much stack it has in use and how much it
ever had.  An extension takes the first spare frame that is large enough, freeing the smaller ones before
it, or allocates one; a restoration moves frames back to the spare list.  All of it is arithmetic on 32-bit
words.
-/
import Mathlib.Data.BitVec
import Mathlib.Order.Interval.Finset.Nat
import Ixemul.Lib.Run

namespace Ixemul.StackExtend

open Lib.Run
open List

/-! ## Frames -/

abbrev Word := BitVec 32

/-- `struct stackframe` at `addr`; `next` is the rest of the list it is in. -/
structure Frame where
  addr : Word
  savesp : Word
  upper : Word
  deriving DecidableEq, Repr

/-- `sizeof(struct stackframe)`. -/
def headerSize : Word := 12

/-- `sf + 1`, the lower end of the stack in a frame. -/
def Frame.lower (sf : Frame) : Word := sf.addr + headerSize

def Frame.size (sf : Frame) : Word := sf.upper - sf.lower

/-- The block as FreeMem is told it: where, and how long. -/
def Frame.block (sf : Frame) : Word × Word := (sf.addr, sf.upper - sf.addr)

def stkSafezone : Word := 6144
def stkMinframe : Word := 32768
def stacksize : Int := 16384

/-- The stack part of `struct user`.  `limit` is what `u_stk_limit` points to; `ovf` says that the process
is in `__stkovf`, which never returns; `allocated` lists the blocks that came from AllocMem and have not gone
back. -/
structure Stack where
  orgLower : Word
  orgUpper : Word
  tcSplower : Word
  tcSpupper : Word
  used : List Frame
  spare : List Frame
  current : Word
  max : Word
  limit : Word
  argbt : Word
  ovf : Bool
  allocated : List (Word × Word)
  deriving Repr

/-- After `initstack` and `__init_stk_limit`. -/
def initStkLimit (orgLower orgUpper tcSplower tcSpupper argbytes : Word) : Stack :=
  ⟨orgLower, orgUpper, tcSplower, tcSpupper, [], [], 0, 0, orgLower + stkSafezone + argbytes, argbytes,
    false, []⟩

/-- STK_LOWER. -/
def Stack.lower (s : Stack) : Word :=
  match s.used with
  | [] => s.orgLower
  | sf :: _ => sf.lower

/-- STK_UPPER. -/
def Stack.upper (s : Stack) : Word :=
  match s.used with
  | [] => s.orgUpper
  | sf :: _ => sf.upper

/-- A `struct StackSwapStruct`. -/
structure StackSwap where
  lower : Word
  upper : Word
  pointer : Word
  deriving DecidableEq, Repr

/-- AllocMem: given the blocks that are out and a size, a block or nothing, and what the block holds where
`savesp` will be. -/
abbrev AllocMem := List (Word × Word) → Word → Option (Word × Word)

/-! ## Extension -/

/-- The spare frames looked at by `pushframe`: the first that is large enough, the list behind it, and the
blocks that are still out when the smaller ones are freed. -/
def takeSpare (recommendedstack : Word) :
    List Frame → List (Word × Word) → Option Frame × List Frame × List (Word × Word)
  | [], allocated => (none, [], allocated)
  | sf :: spare, allocated =>
    if sf.size ≥ recommendedstack then (some sf, spare, allocated)
    else takeSpare recommendedstack spare (allocated.erase sf.block)

/-- The loop around AllocMem, which asks for half as much each time.  A word is used up after 32 halvings. -/
def allocLoop (mem : Word → Option (Word × Word)) (requiredstack : Word) : Nat → Word → Option Frame
  | 0, _ => none
  | fuel + 1, recommendedstack =>
    if recommendedstack ≥ requiredstack then
      match mem (recommendedstack + headerSize) with
      | some (sf, savesp) => some ⟨sf, savesp, sf + headerSize + recommendedstack⟩
      | none => allocLoop mem requiredstack fuel (recommendedstack / 2)
    else none

/-- The end of `pushframe`: the frame goes on the used list. -/
def addUsed (s : Stack) (sf : Frame) : Stack :=
  { s with
    used := sf :: s.used
    limit := sf.lower + stkSafezone + s.argbt
    current := s.current + sf.size
    max := if s.current + sf.size > s.max then s.current + sf.size else s.max }

/-- The size asked of `pushframe`, made at least what a frame must have unless this is at startup. -/
def requiredStack (s : Stack) (requiredstack : Word) (startup : Bool) : Word :=
  if startup then requiredstack
  else if requiredstack + (stkSafezone + s.argbt) < stkMinframe then stkMinframe
  else requiredstack + (stkSafezone + s.argbt)

def recommendedStack (s : Stack) (requiredstack : Word) : Word :=
  if s.max - s.current < requiredstack then requiredstack else s.max - s.current

def pushframe (s : Stack) (size : Word) (startup : Bool) (mem : AllocMem) : Stack × Option StackSwap :=
  let requiredstack := requiredStack s size startup
  let recommendedstack := recommendedStack s requiredstack
  match takeSpare recommendedstack s.spare s.allocated with
  | (some sf, spare, allocated) =>
    (addUsed { s with spare, allocated } sf, some ⟨sf.lower, sf.upper, sf.upper⟩)
  | (none, spare, allocated) =>
    match allocLoop (mem allocated) requiredstack 33 recommendedstack with
    | some sf =>
      (addUsed { s with spare, allocated := sf.block :: allocated } sf, some ⟨sf.lower, sf.upper, sf.upper⟩)
    | none => ({ s with spare, allocated, ovf := true }, none)

/-- The saved registers, signal mask and return address that every entry copies to the new frame. -/
def savedSize : Word := 28

/-- `callsp` outside of the stack in use: the program left the area of stackextension on purpose. -/
def Stack.Outside (s : Stack) (callsp : Word) : Prop := callsp ≥ s.upper ∨ callsp < s.lower

instance (s : Stack) (callsp : Word) : Decidable (s.Outside callsp) := inferInstanceAs (Decidable (_ ∨ _))

/-- `none` where the entry returns 0, and where it does not return. -/
def stkext (s : Stack) (callsp d0 : Word) (mem : AllocMem) : Stack × Option StackSwap :=
  if s.Outside callsp then (s, none) else
  let r := pushframe s d0 false mem
  (r.1, r.2.map (fun sss => { sss with pointer := sss.pointer - savedSize }))

/-- `u.u_stk_used->savesp = sp`. -/
def setSavesp (s : Stack) (sp : Word) : Stack :=
  { s with used := match s.used with
                   | [] => []
                   | sf :: used => { sf with savesp := sp } :: used }

/-- How far above `callsp` the arguments reach. -/
def argSize (s : Stack) (callsp : Word) : Word :=
  (if callsp + s.argbt > s.upper then s.upper else callsp + s.argbt) - callsp

/-- What `stkext_f` and `stkext_startup` do after `pushframe`, if that returns. -/
def enterFrame (r : Stack × Option StackSwap) (sp argsize : Word) : Stack × Option StackSwap :=
  match r.2 with
  | none => r
  | some sss => (setSavesp r.1 sp, some { sss with pointer := sss.pointer - (argsize + savedSize) })

def stkextF (s : Stack) (callsp d0 d1 : Word) (mem : AllocMem) : Stack × Option StackSwap :=
  if s.Outside callsp then (s, none) else
  enterFrame (pushframe s (d0 + s.argbt) false mem) (callsp + d1) (argSize s callsp)

/-- `present` is the stack the process was given by the system. -/
def getStackSize (ixstack present stack : Int) : Int :=
  let stack := if stack ≤ stacksize then (if ixstack ≠ 0 then ixstack else 512000) else stack
  let stack := if stack < stacksize then stacksize else stack
  if stack ≤ present then 0 else stack

def stkextStartup (s : Stack) (callsp : Word) (d0 ixstack present : Int) (mem : AllocMem) :
    Stack × Option StackSwap :=
  if getStackSize ixstack present d0 = 0 then (s, none) else
  enterFrame (pushframe s (BitVec.ofInt 32 (getStackSize ixstack present d0)) true mem) callsp
    (argSize s callsp)

/-! ## Restoration -/

/-- A list cut behind the frame at `a`. -/
def cutBehind (a : Word) : List Frame → List Frame × List Frame
  | [] => ([], [])
  | sf :: l => if sf.addr = a then ([sf], l) else (sf :: (cutBehind a l).1, (cutBehind a l).2)

/-- The loop that counts the popped frames down; it runs along the new spare list until it comes to the
head of the old one. -/
def popLoop (stop : Option Word) : List Frame → Word → Word
  | [], current => current
  | sf :: l, current => if some sf.addr = stop then current else popLoop stop l (current - sf.size)

def popframes (s : Stack) (sf : Frame) : Stack × StackSwap :=
  let popped := (cutBehind sf.addr s.used).1
  let rest := (cutBehind sf.addr s.used).2
  ({ s with
      used := rest
      spare := popped ++ s.spare
      limit := (match rest with
                | [] => s.orgLower
                | next :: _ => next.lower) + stkSafezone + s.argbt
      current := popLoop (s.spare.head?.map (·.addr)) (popped ++ s.spare) s.current },
    match rest with
    | [] => ⟨s.tcSplower, s.tcSpupper, s.tcSpupper⟩
    | next :: _ => ⟨next.lower, next.upper, next.upper⟩)

/-- The loop of `stkrst`: the frame above the one that `d0` lies in. -/
def frameAbove (s : Stack) (d0 : Word) : List Frame → Option Frame
  | [] => none
  | [sf1] => if d0 < s.orgLower ∨ d0 ≥ s.orgUpper then none else some sf1
  | sf1 :: sf2 :: l => if d0 ≥ sf2.lower ∧ d0 < sf2.upper then some sf1 else frameAbove s d0 (sf2 :: l)

/-- `none` where `d0` is returned: the stack pointer can be set without a change of frames. -/
def stkrst (s : Stack) (d0 : Word) : Stack × Option StackSwap :=
  if d0 ≥ s.lower ∧ d0 < s.upper then (s, none) else
  match frameAbove s d0 s.used with
  | none => (s, none)
  | some sf1 =>
    let r := popframes s sf1
    (r.1, some { r.2 with pointer := d0 - savedSize })

/-- With no frame in use it would follow a null pointer; there is then no return to come here. -/
def stkrstF (s : Stack) : Stack × Option StackSwap :=
  match s.used with
  | [] => (s, none)
  | sf :: _ =>
    let r := popframes s sf
    -- the registers and the mask, but no return address
    (r.1, some { r.2 with pointer := sf.savesp - 24 })

/-! ## What holds of a process's stack -/

variable {s : Stack} {sf : Frame} {a d0 : Word} {spare l : List Frame} {al : List (Word × Word)}
  {required size : Word} {startup : Bool} {mem : AllocMem} {t : Stack}

/-- The sum of the sizes of frames, as a word. -/
def total (l : List Frame) : Word := (l.map Frame.size).sum

/-- **The lists, the count and the limit.** -/
structure Sound (s : Stack) : Prop where
  distinct : ((s.used ++ s.spare).map (·.addr)).Nodup
  allocated : ∀ sf ∈ s.used ++ s.spare, sf.block ∈ s.allocated
  current_eq : s.current = total s.used
  current_le : s.current ≤ s.max
  limit_eq : s.limit = s.lower + stkSafezone + s.argbt

/-- What every step keeps.  The blocks that are out are those of the two lists.  What was in use below a
frame was once all that was in use, so it is in the maximum. -/
structure Inv (s : Stack) : Prop where
  blocks : s.allocated.Perm ((s.used ++ s.spare).map Frame.block)
  distinct : (s.allocated.map Prod.fst).Nodup
  current_eq : s.current = total s.used
  suffix_le : ∀ l, l <:+ s.used.map Frame.size → l.sum ≤ s.max
  limit_eq : s.limit = s.lower + stkSafezone + s.argbt

theorem Inv.distinct_addr (h : Inv s) : ((s.used ++ s.spare).map (·.addr)).Nodup := by
  have hnodup := (h.blocks.map Prod.fst).nodup_iff.mp h.distinct
  rwa [map_map] at hnodup

theorem Inv.sound (h : Inv s) : Sound s where
  distinct := h.distinct_addr
  allocated := by
    intro sf hsf
    exact h.blocks.mem_iff.mpr (mem_map_of_mem hsf)
  current_eq := h.current_eq
  current_le := by
    rw [h.current_eq]
    exact h.suffix_le _ (suffix_refl _)
  limit_eq := h.limit_eq

theorem inv_init (orgLower orgUpper tcSplower tcSpupper argbytes : Word) :
    Inv (initStkLimit orgLower orgUpper tcSplower tcSpupper argbytes) where
  blocks := List.Perm.refl _
  distinct := nodup_nil
  current_eq := rfl
  suffix_le := by
    intro l hl
    rw [suffix_nil.mp hl]
    exact BitVec.le_refl _
  limit_eq := rfl

/-! ## Extension keeps it -/

/-- The spare frames: those passed over are freed, the rest are left, and none is left if none was taken. -/
theorem takeSpare_spec (recommendedstack : Word) (U : List (Word × Word)) (spare : List Frame)
    (al : List (Word × Word)) (h : al.Perm (U ++ spare.map Frame.block)) :
    let r := takeSpare recommendedstack spare al
    r.2.2.Perm (U ++ (r.1.toList ++ r.2.1).map Frame.block) ∧ r.2.2.Sublist al ∧
      (r.1.toList ++ r.2.1) <:+ spare ∧ (r.1 = none → r.2.1 = []) := by
  induction spare generalizing al with
  | nil => exact ⟨h, List.Sublist.refl _, suffix_refl _, fun _ => rfl⟩
  | cons sf spare ih =>
    simp only [takeSpare]
    split
    · exact ⟨h, List.Sublist.refl _, suffix_refl _, fun hnone => by cases hnone⟩
    · have herase : (al.erase sf.block).Perm (U ++ spare.map Frame.block) := by
        have hmid : al.Perm (sf.block :: (U ++ spare.map Frame.block)) := h.trans perm_middle
        have := hmid.erase sf.block
        rwa [erase_cons_head] at this
      obtain ⟨hperm, hsub, hsuffix, hnone⟩ := ih (al.erase sf.block) herase
      exact ⟨hperm, hsub.trans erase_sublist, hsuffix.trans (suffix_cons _ _), hnone⟩

theorem Inv.addUsed (h : Inv s)
    (hblocks : al.Perm ((sf :: s.used ++ spare).map Frame.block)) (hdistinct : (al.map Prod.fst).Nodup) :
    Inv (addUsed { s with spare, allocated := al } sf) where
  blocks := hblocks
  distinct := hdistinct
  current_eq := by
    show s.current + sf.size = (sf.size :: s.used.map Frame.size).sum
    rw [sum_cons, h.current_eq, BitVec.add_comm]
    rfl
  suffix_le := by
    intro l hl
    show l.sum ≤ if s.current + sf.size > s.max then s.current + sf.size else s.max
    rcases suffix_cons_iff.mp hl with rfl | hl
    · -- the whole list: the new count
      have hsum : (sf.size :: s.used.map Frame.size).sum = s.current + sf.size := by
        rw [sum_cons, h.current_eq, BitVec.add_comm]
        rfl
      rw [show ({ s with spare, allocated := al } : Stack).used = s.used from rfl, hsum]
      split
      · exact BitVec.le_refl _
      case isFalse hle => exact BitVec.not_lt.mp hle
    · have hold := h.suffix_le l hl
      split
      case isTrue hgt => exact BitVec.le_trans hold (BitVec.le_of_lt hgt)
      case isFalse => exact hold
  limit_eq := rfl

/-- AllocMem gives out memory that is not in use. -/
def FreeBlock (al : List (Word × Word)) (a n : Word) : Prop :=
  1 ≤ a.toNat ∧ a.toNat + n.toNat ≤ 2 ^ 32 ∧
    ∀ b ∈ al, b.1 ≠ a ∧ (a.toNat + n.toNat ≤ b.1.toNat ∨ b.1.toNat + b.2.toNat ≤ a.toNat)

def Fresh (mem : AllocMem) : Prop := ∀ al n a savesp, mem al n = some (a, savesp) → FreeBlock al a n

/-- A frame that comes out of the loop lies in a block that AllocMem returned, and is as large as asked for
at that point. -/
theorem allocLoop_some {mem : Word → Option (Word × Word)} :
    ∀ {fuel : Nat} {recommended : Word}, allocLoop mem required fuel recommended = some sf →
      ∃ r : Word, r.toNat ≤ recommended.toNat ∧ mem (r + headerSize) = some (sf.addr, sf.savesp) ∧
        sf.upper = sf.addr + headerSize + r
  | 0, _, h => by cases h
  | fuel + 1, recommended, h => by
    unfold allocLoop at h
    split at h
    · cases hmem : mem (recommended + headerSize) with
      | some =>
        rw [hmem] at h
        cases h
        exact ⟨recommended, le_rfl, hmem, rfl⟩
      | none =>
        rw [hmem] at h
        obtain ⟨r, hr, hrest⟩ := allocLoop_some h
        refine ⟨r, le_trans hr ?_, hrest⟩
        rw [BitVec.toNat_udiv]
        exact Nat.div_le_self _ _
    · cases h

/-- The three ways `pushframe` goes: with a spare frame, with a new one, and not back. -/
inductive Pushed (s : Stack) (size : Word) (startup : Bool) (mem : AllocMem) : Stack → Prop where
  | spare {sf : Frame} {spare : List Frame} {al : List (Word × Word)} (hsub : al.Sublist s.allocated)
      (hsuffix : (sf :: spare) <:+ s.spare) (hal : al.Perm ((sf :: s.used ++ spare).map Frame.block)) :
      Pushed s size startup mem (addUsed { s with spare, allocated := al } sf)
  | new {sf : Frame} {al : List (Word × Word)} {r : Word} (hsub : al.Sublist s.allocated)
      (hal : al.Perm (s.used.map Frame.block))
      (hr : r.toNat ≤ (recommendedStack s (requiredStack s size startup)).toNat)
      (hmem : mem al (r + headerSize) = some (sf.addr, sf.savesp))
      (hupper : sf.upper = sf.addr + headerSize + r) :
      Pushed s size startup mem (addUsed { s with spare := [], allocated := sf.block :: al } sf)
  | ovf {al : List (Word × Word)} (hsub : al.Sublist s.allocated) (hal : al.Perm (s.used.map Frame.block)) :
      Pushed s size startup mem { s with spare := [], allocated := al, ovf := true }

theorem pushframe_pushed (h : Inv s) (size : Word) (startup : Bool) (mem : AllocMem) :
    Pushed s size startup mem (pushframe s size startup mem).1 := by
  have hblocks := h.blocks
  rw [map_append] at hblocks
  have hspec := takeSpare_spec (recommendedStack s (requiredStack s size startup)) (s.used.map Frame.block)
    s.spare s.allocated hblocks
  simp only [pushframe]
  match htake : takeSpare (recommendedStack s (requiredStack s size startup)) s.spare s.allocated with
  | (some sf, spare, al) =>
    rw [htake] at hspec
    obtain ⟨hperm, hsub, hsuffix, _⟩ := hspec
    refine .spare hsub hsuffix (hperm.trans ?_)
    simp only [Option.toList_some, cons_append, nil_append, map_cons, map_append]
    exact perm_middle
  | (none, spare, al) =>
    rw [htake] at hspec
    obtain ⟨hperm, hsub, _, hnone⟩ := hspec
    obtain rfl : spare = [] := hnone rfl
    rw [Option.toList_none, append_nil, map_nil, append_nil] at hperm
    match halloc : allocLoop (mem al) (requiredStack s size startup) 33
        (recommendedStack s (requiredStack s size startup)) with
    | some sf =>
      obtain ⟨r, hr, hmem, hupper⟩ := allocLoop_some halloc
      simp only [halloc]
      exact .new hsub hperm hr hmem hupper
    | none =>
      simp only [halloc]
      exact .ovf hsub hperm

theorem Inv.pushed (h : Inv s) (hmem : Fresh mem) (hp : Pushed s size startup mem t) : Inv t := by
  cases hp with
  | spare hsub hsuffix hal =>
    exact h.addUsed hal (List.Nodup.sublist (hsub.map Prod.fst) h.distinct)
  | @new sf al r hsub hal hr hblock =>
    apply h.addUsed
    · rw [append_nil]
      exact hal.cons _
    · refine nodup_cons.mpr ⟨?_, List.Nodup.sublist (hsub.map Prod.fst) h.distinct⟩
      intro hin
      obtain ⟨b, hb, heq⟩ := mem_map.mp hin
      exact ((hmem _ _ _ _ hblock).2.2 b hb).1 heq
  | ovf hsub =>
    refine ⟨?_, List.Nodup.sublist (hsub.map Prod.fst) h.distinct, h.current_eq, h.suffix_le, h.limit_eq⟩
    show List.Perm _ ((s.used ++ []).map Frame.block)
    rwa [append_nil]

theorem Inv.setSavesp (h : Inv s) (sp : Word) : Inv (setSavesp s sp) := by
  obtain ⟨orgLower, orgUpper, tcSplower, tcSpupper, used, spare, current, max, limit, argbt, ovf, al⟩ := s
  cases used with
  | nil => exact h
  | cons => exact ⟨h.blocks, h.distinct, h.current_eq, h.suffix_le, h.limit_eq⟩

/-! ## Restoration keeps it -/

theorem cutBehind_append (a : Word) (l : List Frame) : (cutBehind a l).1 ++ (cutBehind a l).2 = l := by
  induction l with
  | nil => rfl
  | cons sf l ih =>
    unfold cutBehind
    split
    · rfl
    · rw [cons_append, ih]

theorem popLoop_eq (spare popped : List Frame) (current : Word)
    (h : ((popped ++ spare).map (·.addr)).Nodup) :
    popLoop (spare.head?.map (·.addr)) (popped ++ spare) current = current - total popped := by
  induction popped generalizing current with
  | nil =>
    rw [show total [] = 0#32 from rfl, BitVec.sub_zero]
    cases spare with
    | nil => rfl
    | cons => simp [popLoop]
  | cons sf popped ih =>
    rw [cons_append, map_cons, nodup_cons] at h
    have hne : some sf.addr ≠ spare.head?.map (·.addr) := by
      intro heq
      obtain ⟨x, hx, hxa⟩ := Option.map_eq_some_iff.mp heq.symm
      apply h.1
      rw [← hxa]
      exact mem_map_of_mem (mem_append_right _ (mem_of_head? hx))
    rw [cons_append, popLoop, if_neg hne, ih _ h.2]
    show _ = current - (sf.size + total popped)
    rw [BitVec.sub_sub]

theorem total_append (l₁ l₂ : List Frame) : total (l₁ ++ l₂) = total l₁ + total l₂ := by
  simp [total]

theorem Inv.popframes (h : Inv s) (sf : Frame) : Inv (popframes s sf).1 := by
  have hcut := cutBehind_append sf.addr s.used
  have hdistinct := h.distinct_addr
  rw [← hcut] at hdistinct
  refine ⟨?_, h.distinct, ?_, ?_, ?_⟩
  · refine h.blocks.trans (List.Perm.map _ ?_)
    show (s.used ++ s.spare).Perm ((cutBehind sf.addr s.used).2 ++ ((cutBehind sf.addr s.used).1 ++ s.spare))
    conv_lhs => rw [← hcut]
    rw [← append_assoc]
    exact perm_append_comm.append_right _
  · show popLoop _ ((cutBehind sf.addr s.used).1 ++ s.spare) s.current = total (cutBehind sf.addr s.used).2
    have htotal : s.current = total (cutBehind sf.addr s.used).1 + total (cutBehind sf.addr s.used).2 := by
      rw [← total_append, hcut]
      exact h.current_eq
    rw [popLoop_eq]
    · rw [htotal, BitVec.add_comm, BitVec.add_sub_cancel]
    · refine List.Nodup.sublist (List.Sublist.map _ ?_) hdistinct
      rw [append_assoc]
      exact (List.Sublist.refl _).append (sublist_append_right _ _)
  · intro l hl
    apply h.suffix_le l
    refine hl.trans ?_
    conv_rhs => rw [← hcut, map_append]
    exact suffix_append _ _
  · rfl

/-! ## The count as a number -/

/-- The bytes of a block. -/
def bytes (b : Word × Word) : Finset Nat := Finset.Ico b.1.toNat (b.1.toNat + b.2.toNat)

/-- Two blocks do not overlap. -/
def Apart (b c : Word × Word) : Prop :=
  b.1.toNat + b.2.toNat ≤ c.1.toNat ∨ c.1.toNat + c.2.toNat ≤ b.1.toNat

theorem exists_cover (l : List (Word × Word)) (h : l.Pairwise Apart) :
    ∃ F : Finset Nat, F.card = (l.map (·.2.toNat)).sum ∧ ∀ x, x ∈ F ↔ ∃ b ∈ l, x ∈ bytes b := by
  induction l with
  | nil => exact ⟨∅, rfl, by simp⟩
  | cons b l ih =>
    obtain ⟨hb, hl⟩ := pairwise_cons.mp h
    obtain ⟨F, hcard, hmem⟩ := ih hl
    have hdisj : Disjoint (bytes b) F := by
      rw [Finset.disjoint_left]
      intro x hx hxF
      obtain ⟨c, hc, hxc⟩ := (hmem x).mp hxF
      have hapart := hb c hc
      simp only [bytes, Finset.mem_Ico] at hx hxc
      simp only [Apart] at hapart
      omega
    refine ⟨bytes b ∪ F, ?_, ?_⟩
    · rw [Finset.card_union_of_disjoint hdisj, hcard]
      simp [bytes]
    · intro x
      rw [Finset.mem_union, hmem]
      simp

theorem sum_sizes_lt (l : List (Word × Word)) (h : l.Pairwise Apart)
    (hin : ∀ b ∈ l, 1 ≤ b.1.toNat ∧ b.1.toNat + b.2.toNat ≤ 2 ^ 32) :
    (l.map (·.2.toNat)).sum < 2 ^ 32 := by
  obtain ⟨F, hcard, hmem⟩ := exists_cover l h
  have hsub : F ⊆ Finset.Ico 1 (2 ^ 32) := by
    intro x hx
    obtain ⟨b, hb, hxb⟩ := (hmem x).mp hx
    have := hin b hb
    simp only [bytes, Finset.mem_Ico] at hxb ⊢
    omega
  have hle := Finset.card_le_card hsub
  rw [hcard, Nat.card_Ico] at hle
  omega

/-- What holds as long as no request wraps: a frame's block is its stack and its header. -/
structure Exact (s : Stack) : Prop where
  apart : s.allocated.Pairwise Apart
  inside : ∀ b ∈ s.allocated, 1 ≤ b.1.toNat ∧ b.1.toNat + b.2.toNat ≤ 2 ^ 32
  header : ∀ sf ∈ s.used ++ s.spare, sf.size.toNat + 12 = sf.block.2.toNat
  max_lt : s.max.toNat + 12 < 2 ^ 32

theorem sum_headers (h : ∀ sf ∈ l, sf.size.toNat + 12 = sf.block.2.toNat) :
    (l.map (·.size.toNat)).sum + 12 * l.length = ((l.map Frame.block).map (·.2.toNat)).sum := by
  induction l with
  | nil => rfl
  | cons sf l ih =>
    obtain ⟨hsf, hl⟩ := forall_mem_cons.mp h
    have := ih hl
    simp only [map_cons, sum_cons, length_cons] at this ⊢
    omega

theorem toNat_total (h : (l.map (·.size.toNat)).sum < 2 ^ 32) :
    (total l).toNat = (l.map (·.size.toNat)).sum := by
  induction l with
  | nil => rfl
  | cons sf l ih =>
    simp only [map_cons, sum_cons] at h ⊢
    have hl := ih (by omega)
    show (sf.size + total l).toNat = _
    rw [BitVec.toNat_add, hl, Nat.mod_eq_of_lt h]

theorem used_lt {used : List Frame}
    (hblocks : al.Perm ((used ++ spare).map Frame.block)) (hapart : al.Pairwise Apart)
    (hinside : ∀ b ∈ al, 1 ≤ b.1.toNat ∧ b.1.toNat + b.2.toNat ≤ 2 ^ 32)
    (hheader : ∀ sf ∈ used ++ spare, sf.size.toNat + 12 = sf.block.2.toNat) :
    (used.map (·.size.toNat)).sum + 12 * used.length < 2 ^ 32 := by
  have hsum := sum_sizes_lt al hapart hinside
  have hperm := (hblocks.map (fun b : Word × Word => b.2.toNat)).sum_eq
  rw [hperm, ← sum_headers hheader, map_append, sum_append, length_append] at hsum
  omega

theorem Exact.current (h : Exact s) (hI : Inv s) : s.current.toNat = (s.used.map (·.size.toNat)).sum := by
  have hlt := used_lt hI.blocks h.apart h.inside h.header
  rw [hI.current_eq]
  exact toNat_total (by omega)

/-- A frame on the used list: its block and the others' are as before, the maximum may be the new count. -/
theorem Exact.addUsed (h : Exact s)
    (hI : Inv (addUsed { s with spare, allocated := al } sf)) (hapart : al.Pairwise Apart)
    (hinside : ∀ b ∈ al, 1 ≤ b.1.toNat ∧ b.1.toNat + b.2.toNat ≤ 2 ^ 32)
    (hheader : ∀ x ∈ sf :: s.used ++ spare, x.size.toNat + 12 = x.block.2.toNat) :
    Exact (addUsed { s with spare, allocated := al } sf) := by
  refine ⟨hapart, hinside, hheader, ?_⟩
  have hlt : ((sf :: s.used).map (·.size.toNat)).sum + 12 * (sf :: s.used).length < 2 ^ 32 :=
    used_lt hI.blocks hapart hinside hheader
  have hcur : (s.current + sf.size).toNat = ((sf :: s.used).map (·.size.toNat)).sum := by
    rw [← toNat_total (by omega)]
    exact congrArg BitVec.toNat hI.current_eq
  show (if s.current + sf.size > s.max then s.current + sf.size else s.max).toNat + 12 < 2 ^ 32
  rw [length_cons] at hlt
  split
  · rw [hcur]
    omega
  · exact h.max_lt

theorem Exact.recommended (h : Exact s) (hI : Inv s)
    (hreq : required.toNat + 12 < 2 ^ 32) : (recommendedStack s required).toNat + 12 < 2 ^ 32 := by
  unfold recommendedStack
  split
  · exact hreq
  · have hmax := h.max_lt
    rw [BitVec.toNat_sub_of_le hI.sound.current_le]
    omega

theorem Exact.pushed (h : Exact s) (hI : Inv s)
    (hmem : Fresh mem) (hfits : (requiredStack s size startup).toNat + 12 < 2 ^ 32)
    (hp : Pushed s size startup mem t) : Exact t := by
  have hIt := hI.pushed hmem hp
  cases hp with
  | @spare sf spare al hsub hsuffix =>
    apply h.addUsed hIt (h.apart.sublist hsub) fun b hb => h.inside b (hsub.subset hb)
    intro x hx
    apply h.header
    rcases mem_append.mp hx with hx | hx
    · rcases mem_cons.mp hx with rfl | hx
      · exact mem_append_right _ (hsuffix.subset mem_cons_self)
      · exact mem_append_left _ hx
    · exact mem_append_right _ (hsuffix.subset (mem_cons_of_mem _ hx))
  | @new sf al r hsub hal hr hblock hupper =>
    obtain ⟨hpos, hend, hfree⟩ := hmem _ _ _ _ hblock
    have hrlt : r.toNat + 12 < 2 ^ 32 :=
      lt_of_le_of_lt (Nat.add_le_add_right hr 12) (h.recommended hI hfits)
    have hsize : sf.size = r := by
      rw [Frame.size, Frame.lower, hupper, BitVec.add_comm, BitVec.add_sub_cancel]
    have hlen : sf.block.2 = r + headerSize := by
      rw [Frame.block, hupper]
      bv_omega
    apply h.addUsed hIt
    · refine pairwise_cons.mpr ⟨?_, h.apart.sublist hsub⟩
      intro b hb
      have := (hfree b hb).2
      rw [Apart, hlen]
      exact this
    · refine forall_mem_cons.mpr ⟨?_, fun b hb => h.inside b (hsub.subset hb)⟩
      rw [hlen]
      exact ⟨hpos, hend⟩
    · intro x hx
      rw [append_nil] at hx
      rcases mem_cons.mp hx with rfl | hx
      · rw [hsize, hlen]
        show r.toNat + 12 = (r.toNat + 12) % 2 ^ 32
        rw [Nat.mod_eq_of_lt hrlt]
      · exact h.header x (mem_append_left _ hx)
  | ovf hsub =>
    refine ⟨h.apart.sublist hsub, fun b hb => h.inside b (hsub.subset hb), ?_, h.max_lt⟩
    intro x hx
    rw [append_nil] at hx
    exact h.header x (mem_append_left _ hx)

theorem Exact.setSavesp (h : Exact s) (sp : Word) : Exact (setSavesp s sp) := by
  obtain ⟨orgLower, orgUpper, tcSplower, tcSpupper, used, spare, current, max, limit, argbt, ovf, al⟩ := s
  cases used with
  | nil => exact h
  | cons =>
    refine ⟨h.apart, h.inside, ?_, h.max_lt⟩
    obtain ⟨hsf, hrest⟩ := forall_mem_cons.mp h.header
    exact forall_mem_cons.mpr ⟨hsf, hrest⟩

theorem Exact.popframes (h : Exact s) (sf : Frame) : Exact (popframes s sf).1 := by
  refine ⟨h.apart, h.inside, ?_, h.max_lt⟩
  intro x hx
  apply h.header
  rw [← cutBehind_append sf.addr s.used]
  simp only [StackExtend.popframes, mem_append] at hx ⊢
  tauto

/-! ## Runs -/

inductive Op where
  | stkext (callsp d0 : Word) (mem : AllocMem)
  | stkextF (callsp d0 d1 : Word) (mem : AllocMem)
  | stkextStartup (callsp : Word) (d0 ixstack present : Int) (mem : AllocMem)
  | stkrst (d0 : Word)
  | stkrstF

def Op.run (s : Stack) : Op → Stack
  | .stkext callsp d0 mem => (StackExtend.stkext s callsp d0 mem).1
  | .stkextF callsp d0 d1 mem => (StackExtend.stkextF s callsp d0 d1 mem).1
  | .stkextStartup callsp d0 ixstack present mem =>
    (StackExtend.stkextStartup s callsp d0 ixstack present mem).1
  | .stkrst d0 => (StackExtend.stkrst s d0).1
  | .stkrstF => (StackExtend.stkrstF s).1

/-- The process has not overflown its stack for good, AllocMem returns fresh memory, and `stkrst_f` is
returned to from a frame. -/
def Op.Enabled (s : Stack) : Op → Prop
  | .stkext _ _ mem => s.ovf = false ∧ Fresh mem
  | .stkextF _ _ _ mem => s.ovf = false ∧ Fresh mem
  | .stkextStartup _ _ _ _ mem => s.ovf = false ∧ Fresh mem
  | .stkrst _ => s.ovf = false
  | .stkrstF => s.ovf = false ∧ s.used ≠ []

def Step (s : Stack) (op : Op) (t : Stack) : Prop := op.Enabled s ∧ t = op.run s

/-- The size that is asked for leaves room for the header in 32 bits. -/
def Fits (s : Stack) : Op → Prop
  | .stkext _ d0 _ => (requiredStack s d0 false).toNat + 12 < 2 ^ 32
  | .stkextF _ d0 _ _ => (requiredStack s (d0 + s.argbt) false).toNat + 12 < 2 ^ 32
  | .stkextStartup _ d0 ixstack present _ =>
    (BitVec.ofInt 32 (getStackSize ixstack present d0)).toNat + 12 < 2 ^ 32
  | _ => True

instance (s : Stack) (op : Op) : Decidable (Fits s op) := by
  cases op <;> unfold Fits <;> infer_instance

/-- A step leaves the state as it is, pushes a frame and may store a stack pointer in it, or pops frames. -/
inductive Effect (s : Stack) (op : Op) : Stack → Prop where
  | same : Effect s op s
  | pushed {size : Word} {startup : Bool} {mem : AllocMem} {t : Stack} (hmem : Fresh mem)
      (hfits : Fits s op → (requiredStack s size startup).toNat + 12 < 2 ^ 32)
      (hp : Pushed s size startup mem t) : Effect s op t
  | entered {size : Word} {startup : Bool} {mem : AllocMem} {t : Stack} (sp : Word) (hmem : Fresh mem)
      (hfits : Fits s op → (requiredStack s size startup).toNat + 12 < 2 ^ 32)
      (hp : Pushed s size startup mem t) : Effect s op (setSavesp t sp)
  | popped (sf : Frame) : Effect s op (popframes s sf).1

variable {op : Op}

theorem effect_enterFrame (hI : Inv s)
    (hmem : Fresh mem) (hfits : Fits s op → (requiredStack s size startup).toNat + 12 < 2 ^ 32)
    (sp argsize : Word) : Effect s op (enterFrame (pushframe s size startup mem) sp argsize).1 := by
  have hp := pushframe_pushed hI size startup mem
  unfold enterFrame
  split
  · exact .pushed hmem hfits hp
  · exact .entered sp hmem hfits hp

theorem run_effect (hI : Inv s) (hop : op.Enabled s) : Effect s op (op.run s) := by
  cases op with
  | stkext callsp d0 mem =>
    show Effect s _ (StackExtend.stkext s callsp d0 mem).1
    unfold StackExtend.stkext
    split
    · exact .same
    · exact .pushed hop.2 id (pushframe_pushed hI d0 false mem)
  | stkextF callsp d0 d1 mem =>
    show Effect s _ (StackExtend.stkextF s callsp d0 d1 mem).1
    unfold StackExtend.stkextF
    split
    · exact .same
    · exact effect_enterFrame hI hop.2 id _ _
  | stkextStartup callsp d0 ixstack present mem =>
    show Effect s _ (StackExtend.stkextStartup s callsp d0 ixstack present mem).1
    unfold StackExtend.stkextStartup
    split
    · exact .same
    · exact effect_enterFrame hI hop.2 id _ _
  | stkrst d0 =>
    show Effect s _ (StackExtend.stkrst s d0).1
    unfold StackExtend.stkrst
    split
    · exact .same
    · split
      · exact .same
      · exact .popped _
  | stkrstF =>
    show Effect s _ (StackExtend.stkrstF s).1
    unfold StackExtend.stkrstF
    split
    · exact .same
    · exact .popped _

theorem Inv.effect (hI : Inv s) (h : Effect s op t) : Inv t := by
  cases h with
  | same => exact hI
  | pushed hmem hfits hp => exact hI.pushed hmem hp
  | entered sp hmem hfits hp => exact (hI.pushed hmem hp).setSavesp sp
  | popped sf => exact hI.popframes sf

theorem Exact.effect (hE : Exact s) (hI : Inv s) (hfits : Fits s op) (h : Effect s op t) : Exact t := by
  cases h with
  | same => exact hE
  | pushed hmem hf hp => exact hE.pushed hI hmem (hf hfits) hp
  | entered sp hmem hf hp => exact (hE.pushed hI hmem (hf hfits) hp).setSavesp sp
  | popped sf => exact hE.popframes sf

/-- AllocMem with one block of 65536 bytes to give. -/
def oneBlock : AllocMem := fun al n => if al = [] ∧ n.toNat ≤ 65536 then some (0x10000, 0) else none

/-- Calls through `stkext_f`, each with its return, one after the other and one inside the other. -/
inductive Calls : Stack → Stack → Prop where
  | none (s : Stack) : Calls s s
  | call {s t u v : Stack} {callsp d0 d1 : Word} {mem : AllocMem} {sss : StackSwap}
      (hcall : stkextF s callsp d0 d1 mem = (t, some sss)) (hin : Calls t u)
      (hnext : Calls (stkrstF u).1 v) : Calls s v

/-- All but the spare memory and what follows from the used frames. -/
def Stack.frames (s : Stack) : Stack :=
  { s with spare := [], current := 0, max := 0, limit := 0, allocated := [] }

/-- The return from `u` is to the stack of `s`, at `sp`. -/
def Returns (u s : Stack) (sp : Word) : Prop :=
  (stkrstF u).1.frames = s.frames ∧ (stkrstF u).1.limit = s.lower + stkSafezone + s.argbt ∧
    ∃ sss, (stkrstF u).2 = some sss ∧ sss.pointer = sp - 24 ∧
      (s.used ≠ [] → sss.lower = s.lower ∧ sss.upper = s.upper)

variable {u : Stack} {callsp d1 : Word} {sss : StackSwap}

theorem frames_stkextF (h : stkextF s callsp d0 d1 mem = (t, some sss)) :
    ∃ sf, sf.savesp = callsp + d1 ∧ t.frames = { s.frames with used := sf :: s.used } := by
  unfold stkextF enterFrame pushframe at h
  dsimp only at h
  split at h
  · cases h
  split at h
  case h_1 hnone =>
    rw [h] at hnone
    cases hnone
  obtain ⟨rfl, -⟩ := Prod.mk.inj h
  split
  · exact ⟨_, rfl, rfl⟩
  · split
    · exact ⟨_, rfl, rfl⟩
    · -- `pushframe` did not come back
      simp_all

theorem returns_of_frames (h : u.frames = { s.frames with used := sf :: s.used }) :
    Returns u s sf.savesp := by
  cases u
  cases h
  have hcut : cutBehind sf.addr (sf :: s.used) = ([sf], s.used) := if_pos rfl
  simp only [Returns, stkrstF, popframes, hcut]
  refine ⟨rfl, rfl, _, rfl, rfl, ?_⟩
  unfold Stack.lower Stack.upper
  intro h
  split
  · contradiction
  · exact ⟨rfl, rfl⟩

theorem frames_calls (h : Calls s t) : t.frames = s.frames := by
  induction h with
  | none => rfl
  | call hcall _ _ ihin ihnext =>
    -- the call's frame is on top again when its own calls are over
    obtain ⟨sf, -, hentered⟩ := frames_stkextF hcall
    exact ihnext.trans (returns_of_frames (ihin.trans hentered)).1

/-- **A call returns to its caller's stack**, whatever calls it makes itself. -/
theorem return_of_call (hcall : stkextF s callsp d0 d1 mem = (t, some sss)) (hin : Calls t u) :
    Returns u s (callsp + d1) := by
  obtain ⟨sf, hsp, hentered⟩ := frames_stkextF hcall
  rw [← hsp]
  exact returns_of_frames ((frames_calls hin).trans hentered)

/-- AllocMem with another block of that size. -/
def nextBlock : AllocMem := fun _ _ => some (0x40000, 0)

/-- A call that makes a call itself, each on a frame of its own. -/
theorem return_of_call_nested :
    let s := initStkLimit 0x4000 0x8000 0x4000 0x8000 256
    let t := (stkextF s 0x5000 4096 4 oneBlock).1
    let inner := (stkextF t 0x12000 4096 8 nextBlock).1
    inner.used.length = 2 ∧ Returns (stkrstF inner).1 s 0x5004 := by
  intro s t inner
  have hex : ∀ r : Stack × Option StackSwap, r.2.isSome → ∃ sss, r = (r.1, some sss) := by
    rintro ⟨u, _ | sss⟩ h
    · cases h
    · exact ⟨sss, rfl⟩
  obtain ⟨_, hcall⟩ := hex (stkextF s 0x5000 4096 4 oneBlock) (by decide)
  obtain ⟨_, hinner⟩ := hex (stkextF t 0x12000 4096 8 nextBlock) (by decide)
  exact ⟨by decide, return_of_call hcall (.call hinner (.none inner) (.none _))⟩

end Ixemul.StackExtend
