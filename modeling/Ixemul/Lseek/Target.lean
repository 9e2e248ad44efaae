/-
# Ixemul.Lseek.Target — where `lseek` on a file ends (lseek.c).

For a target inside of the file the position moves there.  Behind the end, a file that may be written is
filled up with zeros, in writes of any size the handler takes, and one that may not is left at its end.  In
each case the position is what is returned.  NIL: knows no positions: there only offset 0 is accepted.
-/
import Ixemul.Lseek.Model

namespace Ixemul.Lseek

open List

/-! ## Seek -/

/-- The file with its position at `p`. -/
def DosFile.moved (f : DosFile) (p : Nat) (h : p ≤ f.size) : DosFile := { f with pos := p, pos_le := h }

section

variable {f : DosFile} {p : Nat} {off : Int} {mode : Offset}

@[simp] theorem moved_pos (h : p ≤ f.size) : (f.moved p h).pos = p := rfl

@[simp] theorem moved_size (h : p ≤ f.size) : (f.moved p h).size = f.size := rfl

theorem seek_inside (hp : f.base mode + off = p) (h : p ≤ f.size) :
    seek f off mode = ⟨f.pos, .none, f.moved p h⟩ := by
  have hin : 0 ≤ f.base mode + off ∧ f.base mode + off ≤ f.size := by omega
  have htoNat : ((f.base mode : Int) + off).toNat = p := by omega
  rw [seek, dif_pos hin]
  simp only [DosFile.moved, htoNat]

theorem seek_outside (h : ¬ (0 ≤ f.base mode + off ∧ f.base mode + off ≤ f.size)) :
    seek f off mode = ⟨-1, .seekError, f⟩ := by
  rw [seek, dif_neg h]

theorem seek_current : seek f 0 .current = ⟨f.pos, .none, f⟩ := by
  have hp : (f.base .current : Int) + 0 = f.pos := Int.add_zero _
  exact seek_inside hp f.pos_le

theorem seek_end : seek f 0 .atEnd = ⟨f.pos, .none, f.moved f.size le_rfl⟩ := by
  have hp : (f.base .atEnd : Int) + 0 = f.size := Int.add_zero _
  exact seek_inside hp le_rfl

/-! ## The first steps of lseek -/

/-- Where the file stands when the target is computed. -/
def start (f : DosFile) : Offset → DosFile
  | .atEnd => f.moved f.size le_rfl
  | _ => f

@[simp] theorem start_size : (start f mode).size = f.size := by
  cases mode <;> rfl

theorem start_base : (start f mode).base mode = f.base mode := by
  cases mode <;> rfl

theorem previousPos_eq : previousPos f mode = ⟨f.base mode, .none, start f mode⟩ := by
  cases mode with
  | beginning => rfl
  | current => exact seek_current
  | atEnd =>
    rw [previousPos, seek_end, seek_current]
    rfl

theorem seekOrEnd_inside (hp : f.base mode + off = p) (h : p ≤ f.size) :
    seekOrEnd f off mode = ⟨f.pos, .none, f.moved p h⟩ := by
  have hne : ¬ ((f.pos : Int) = -1 ∧ IoErr.none = IoErr.seekError) := by omega
  simp only [seekOrEnd, seek_inside hp h, if_neg hne]

theorem seekOrEnd_behind (h : (f.size : Int) < f.base mode + off) :
    seekOrEnd f off mode = ⟨f.pos, .none, f.moved f.size le_rfl⟩ := by
  have hout : ¬ (0 ≤ f.base mode + off ∧ f.base mode + off ≤ f.size) := by omega
  simp only [seekOrEnd, seek_outside hout, seek_end, and_self, if_true]

theorem long_eq {n : Int} (h0 : 0 ≤ n) (h1 : n < 2 ^ 31) : long n = n := by
  unfold long
  rw [Int.bmod_eq_of_le_mul_two] <;> omega

/-! ## lseek up to the extension -/

variable {env : Env} {fuel : Nat} {writable : Bool} {o : BitVec 32} {dir : Int} {g : DosFile}
  {n k addToEof written bufSize b add : Nat} {h : Handler} {res : Int} {r : Reply DosFile}

theorem lseekFile_refused (hdir : whence dir = some mode) (h : long (f.base mode + o.toInt) < 0) :
    lseekFile env fuel f writable o dir = some ⟨-1, .einval, start f mode⟩ := by
  simp only [lseekFile, hdir, previousPos_eq, if_pos h]

theorem lseekFile_inside (hdir : whence dir = some mode) (hp : f.base mode + o.toInt = p) (h : p ≤ f.size) :
    lseekFile env fuel f writable o dir = some ⟨p, .none, f.moved p h⟩ := by
  have hsize : f.size < 2 ^ 31 := f.size_lt
  have hlong : long (f.base mode + o.toInt) = p := by
    rw [long_eq (by omega) (by omega), hp]
  have hp' : (start f mode).base mode + o.toInt = p := by rw [start_base, hp]
  have hpos : ¬ ((start f mode).pos : Int) = -1 := by omega
  have hnonneg : ¬ ((p : Int) < 0) := by omega
  have hbase : (f.base mode : Int) ≥ 0 := by omega
  have hmoved : (start f mode).moved p (start_size.symm ▸ h) = f.moved p h := by
    cases mode <;> rfl
  simp only [lseekFile, hdir, previousPos_eq, hlong, if_neg hnonneg, if_pos hbase,
    seekOrEnd_inside hp' (start_size.symm ▸ h), if_neg hpos, seek_current, moved_pos, lt_self_iff_false,
    false_and, and_false, if_false, hmoved]
  split <;> rfl

theorem lseekFile_behind (hdir : whence dir = some mode) (hp : f.base mode + o.toInt = p) (h : f.size < p)
    (hint : p < 2 ^ 31) :
    lseekFile env fuel f writable o dir =
      if writable then extendFile env fuel (f.moved f.size le_rfl) (p - f.size)
      else some ⟨f.size, .none, f.moved f.size le_rfl⟩ := by
  have hlong : long (f.base mode + o.toInt) = p := by
    rw [long_eq (by omega) (by omega), hp]
  have hp' : ((start f mode).size : Int) < (start f mode).base mode + o.toInt := by
    rw [start_size, start_base, hp]
    omega
  have hpos : ¬ ((start f mode).pos : Int) = -1 := by omega
  have hnonneg : ¬ ((p : Int) < 0) := by omega
  have hbase : (f.base mode : Int) ≥ 0 := by omega
  have hne : (f.base mode : Int) ≠ p := by
    have hle : f.base mode ≤ f.size := by
      cases mode with
      | beginning => exact Nat.zero_le _
      | current => exact f.pos_le
      | atEnd => exact le_rfl
    omega
  have hmoved : (start f mode).moved (start f mode).size le_rfl = f.moved f.size le_rfl := by
    cases mode <;> rfl
  have hsize : (f.size : Int) ≥ 0 := by omega
  have hlt : (f.size : Int) < p := by omega
  have hadd : ((p : Int) - f.size).toNat = p - f.size := by omega
  have hone : ¬ ((f.size : Int) = -1) := by omega
  simp only [lseekFile, hdir, previousPos_eq, hlong, if_neg hnonneg, if_pos hbase, seekOrEnd_behind hp',
    if_neg hpos, hmoved, seek_current, moved_pos, hne, ne_eq, not_false_eq_true, if_true, hsize, hlt,
    true_and, hadd, if_neg hone]

/-! ## __extend_file -/

/-- The file as it is at its end, with `n` zeros more. -/
structure Extended (f g : DosFile) (n : Nat) : Prop where
  contents : g.contents = f.contents ++ replicate n 0
  pos : g.pos = f.size + n

theorem Extended.trans {k : DosFile} {m : Nat} (h : Extended f g m) (h' : Extended g k n) :
    Extended f k (m + n) := by
  have hsize : g.size = f.size + m := by
    simp only [DosFile.size, h.contents, length_append, length_replicate]
  refine ⟨?_, ?_⟩
  · rw [h'.contents, h.contents, append_assoc, replicate_append_replicate]
  · rw [h'.pos, hsize, add_assoc]

theorem Extended.size (h : Extended f g n) : g.size = f.size + n := by
  simp only [DosFile.size, h.contents, length_append, length_replicate]

theorem write_zeros (hpos : f.pos = f.size) (hn : f.size + n < 2 ^ 31) :
    (write h k f (replicate n 0)).res = h.accept k n ∧
      Extended f (write h k f (replicate n 0)).file (h.accept k n) := by
  have hle := h.accept_le k n
  have hlen : ((replicate n (0 : UInt8)).take (h.accept k (replicate n (0 : UInt8)).length)).length
      = h.accept k n := by
    simp [hle]
  have hfit : f.pos + h.accept k n < 2 ^ 31 := by omega
  have htake : f.contents.take f.pos = f.contents := take_of_length_le (by rw [hpos]; exact le_rfl)
  have hdrop : f.contents.drop (f.pos + h.accept k n) = [] :=
    drop_eq_nil_of_le (by rw [hpos]; exact Nat.le_add_right _ _)
  rw [write, dif_pos (by rw [hlen]; exact hfit)]
  refine ⟨congrArg Nat.cast hlen, ?_, ?_⟩
  · simp only [htake, hdrop, append_nil, length_replicate, take_replicate,
      min_eq_left hle]
  · simp only [hlen, hpos]

/-- What the loop leaves if it comes to an end: the induction is on the fuel, and the writes still to be
made and what they will store are what is left of `addToEof`. -/
theorem writeLoop_some (hpos : f.pos = f.size) (hres : 0 ≤ res) (hwritten : written ≤ addToEof)
    (hbuf : bufSize ≤ addToEof - written) (hfit : f.size + (addToEof - written) < 2 ^ 31)
    (hr : writeLoop h addToEof fuel k written bufSize res f = some r) :
    0 ≤ r.ret ∧ Extended f r.file (addToEof - written) := by
  induction fuel generalizing k written bufSize res f with
  | zero =>
    rw [writeLoop] at hr
    split at hr
    · cases hr
    · cases hr
      have hdone : addToEof - written = 0 := by omega
      rw [hdone]
      exact ⟨hres, by simp, hpos⟩
  | succ fuel ih =>
    rw [writeLoop] at hr
    split at hr
    · obtain ⟨hret, hext⟩ := write_zeros (n := bufSize) hpos (by omega)
      have hle := h.accept_le k bufSize
      have hnonneg : ¬ ((h.accept k bufSize : Int) < 0) := by omega
      dsimp only at hr
      rw [hret, Int.toNat_natCast] at hr
      have hsize := hext.size
      have hrest := ih (hext.pos.trans hsize.symm) (by omega) (by omega) (by split_ifs <;> omega)
        (by omega) hr
      have hsum : addToEof - written =
          h.accept k bufSize + (addToEof - (written + h.accept k bufSize)) := by omega
      rw [hsum]
      exact ⟨hrest.1, hext.trans hrest.2⟩
    · cases hr
      have hdone : addToEof - written = 0 := by omega
      rw [hdone]
      exact ⟨hres, by simp, hpos⟩

theorem writeLoop_ends (hpos : f.pos = f.size) (hwritten : written ≤ addToEof)
    (hbuf : bufSize ≤ addToEof - written)
    (hbuf0 : written < addToEof → 0 < bufSize) (hfit : f.size + (addToEof - written) < 2 ^ 31)
    (hfuel : addToEof - written ≤ fuel) :
    ∃ r, writeLoop h addToEof fuel k written bufSize res f = some r := by
  induction fuel generalizing k written bufSize res f with
  | zero =>
    rw [writeLoop, if_neg (by omega)]
    exact ⟨_, rfl⟩
  | succ fuel ih =>
    rw [writeLoop]
    split
    · rename_i hlt
      obtain ⟨hret, hext⟩ := write_zeros (n := bufSize) hpos (by omega)
      have hle := h.accept_le k bufSize
      have hacc := h.accept_pos k bufSize (hbuf0 hlt)
      have hnonneg : ¬ ((h.accept k bufSize : Int) < 0) := by omega
      dsimp only
      rw [hret, Int.toNat_natCast]
      have hsize := hext.size
      exact ih (hext.pos.trans hsize.symm) (by omega) (by split_ifs <;> omega)
        (fun _ => by split_ifs <;> omega) (by omega) (by omega)
    · exact ⟨_, rfl⟩

theorem getBuffer_le {kmalloc : Nat → Bool} (h : getBuffer kmalloc n = some b) : b ≤ n := by
  induction n using Nat.strong_induction_on with
  | _ n ih =>
    rw [getBuffer] at h
    split_ifs at h with hgrant hzero
    · cases h
      exact le_rfl
    · have := ih (n / 2) (by omega) h
      omega

theorem firstBuffer_le (n : Nat) : firstBuffer n ≤ n := by
  unfold firstBuffer
  split_ifs <;> omega

/-- **What the extension leaves, if it gets a buffer and comes to an end.** -/
theorem extendFile_some (hpos : f.pos = f.size)
    (hfit : f.size + add < 2 ^ 31) (hb : getBuffer env.kmalloc (firstBuffer add) = some b)
    (hr : extendFile env fuel f add = some r) : r.ret = (f.size + add : Nat) ∧ Extended f r.file add := by
  simp only [extendFile, hb] at hr
  cases hloop : writeLoop env.handler add fuel 0 0 b 0 f with
  | none =>
    rw [hloop] at hr
    cases hr
  | some =>
    have hle : b ≤ add - 0 := (getBuffer_le hb).trans (firstBuffer_le add)
    obtain ⟨hret, hext⟩ := writeLoop_some hpos le_rfl (Nat.zero_le _) hle hfit hloop
    simp only [hloop, if_neg (not_lt.mpr hret), seek_end, moved_pos] at hr
    cases hr
    refine ⟨congrArg Int.ofNat hext.size, hext.contents, ?_⟩
    simpa using hext.size

/-- There is memory for a buffer of at least a byte. -/
def EnoughMemory (env : Env) (add : Nat) : Prop :=
  ∃ b, 0 < b ∧ getBuffer env.kmalloc (firstBuffer add) = some b

theorem extendFile_ends (hpos : f.pos = f.size) (hfit : f.size + add < 2 ^ 31)
    (hmem : EnoughMemory env add) (hfuel : add ≤ fuel) : ∃ r, extendFile env fuel f add = some r := by
  obtain ⟨b, hb0, hb⟩ := hmem
  have hle : b ≤ add - 0 := (getBuffer_le hb).trans (firstBuffer_le add)
  obtain ⟨s, hs⟩ : ∃ r, writeLoop env.handler add fuel 0 0 b 0 f = some r :=
    writeLoop_ends hpos (Nat.zero_le _) hle (fun _ => hb0) hfit hfuel
  simp only [extendFile, hb, hs]
  split <;> exact ⟨_, rfl⟩

end

/-! ## lseek -/

/-- What a seek to `t` is to return, and to make of the file: move inside of it, fill it up to the target,
or stop at its end if it may not be written. -/
structure Reaches (f : DosFile) (writable : Bool) (t : Nat) (ret : Int) (g : DosFile) : Prop where
  moved : t ≤ f.size → ret = t ∧ g.pos = t ∧ g.contents = f.contents
  filled : f.size < t → writable = true →
    ret = t ∧ g.contents = f.contents ++ replicate (t - f.size) 0 ∧ g.pos = t
  stopped : f.size < t → writable = false → ret = f.size ∧ g.pos = f.size ∧ g.contents = f.contents

theorem lseekFile_reaches {env : Env} {f : DosFile} {writable : Bool} {off : BitVec 32} {dir : Int}
    {mode : Offset} {t fuel : Nat} (hdir : whence dir = some mode) (ht : f.base mode + off.toInt = t)
    (hint : t < 2 ^ 31) (hmem : f.size < t → writable → EnoughMemory env (t - f.size))
    (hfuel : t ≤ fuel) :
    ∃ r, lseekFile env fuel f writable off dir = some r ∧ Reaches f writable t r.ret r.file := by
  rcases lt_or_ge f.size t with hbehind | hinside
  · rw [lseekFile_behind hdir ht hbehind hint]
    cases writable with
    | false =>
      refine ⟨_, rfl, ?_, ?_, ?_⟩
      · exact fun hle => absurd hle (not_le.mpr hbehind)
      · exact fun _ hw => absurd hw Bool.false_ne_true
      · exact fun _ _ => ⟨rfl, rfl, rfl⟩
    | true =>
      have hfit : (f.moved f.size le_rfl).size + (t - f.size) < 2 ^ 31 := by
        rw [moved_size]
        omega
      obtain ⟨r, hr⟩ : ∃ r, extendFile env fuel (f.moved f.size le_rfl) (t - f.size) = some r :=
        extendFile_ends (moved_pos _) hfit (hmem hbehind rfl) (by omega)
      obtain ⟨b, -, hb⟩ := hmem hbehind rfl
      obtain ⟨hret, hext⟩ := extendFile_some (moved_pos _) hfit hb hr
      have hsum : f.size + (t - f.size) = t := by omega
      rw [moved_size, hsum] at hret
      refine ⟨r, hr, ?_, ?_, ?_⟩
      · exact fun hle => absurd hle (not_le.mpr hbehind)
      · exact fun _ _ => ⟨hret, hext.contents, hext.pos.trans hsum⟩
      · exact fun _ hw => absurd hw.symm Bool.false_ne_true
  · rw [lseekFile_inside hdir ht hinside]
    refine ⟨_, rfl, ?_, ?_, ?_⟩
    · exact fun _ => ⟨rfl, rfl, rfl⟩
    · exact fun hlt => absurd hlt (not_lt.mpr hinside)
    · exact fun hlt => absurd hlt (not_lt.mpr hinside)

/-- **`lseek` on a file reaches its target**, for every origin and offset and however the handler cuts up the
writes; only NIL: accepts no offset but 0. -/
theorem lseek_reaches (env : Env) (f : DosFile) (writable : Bool) (off : BitVec 32) (dir : Int) :
    (∀ (mode : Offset) (t : Nat), whence dir = some mode → f.base mode + off.toInt = t → t < 2 ^ 31 →
        (f.size < t → writable = true → EnoughMemory env (t - f.size)) → ∀ fuel, t ≤ fuel →
        ∃ ret errno g, lseek env fuel (.dos f writable) off dir = some ⟨ret, errno, .dos g writable⟩ ∧
          Reaches f writable t ret g) ∧
      ∀ fuel, lseek env fuel .nil off dir =
        some (if off = 0 then ⟨0, .none, .nil⟩ else ⟨-1, .espipe, .nil⟩) := by
  refine ⟨fun mode t hdir ht hint hmem fuel hfuel => ?_, fun fuel => rfl⟩
  obtain ⟨r, hr, hreaches⟩ := lseekFile_reaches hdir ht hint hmem hfuel
  exact ⟨r.ret, r.errno, r.file, by rw [lseek, hr, Option.map_some], hreaches⟩

/-- A handler that takes a byte at a time, and memory without end. -/
def bytewise : Env where
  handler := ⟨fun _ len => min len 1, fun _ _ h => lt_min h Nat.one_pos, fun _ _ => Nat.min_le_left _ _⟩
  kmalloc := fun _ => true

/-- Two bytes, the second of which is to be read next. -/
def twoBytes : DosFile := ⟨[1, 2], 1, by decide, by decide⟩

theorem lseek_reaches_twoBytes :
    ∃ ret errno g, lseek bytewise 5 (.dos twoBytes true) 3 2 = some ⟨ret, errno, .dos g true⟩ ∧
      Reaches twoBytes true 5 ret g := by
  have hmem : EnoughMemory bytewise (5 - twoBytes.size) := ⟨3, by decide, by rw [getBuffer]; rfl⟩
  have h := (lseek_reaches bytewise twoBytes true 3 2).1
  exact h .atEnd 5 rfl (by decide) (by decide) (fun _ _ => hmem) 5 le_rfl

theorem lseek_nil_refuses : ∃ r, lseek bytewise 0 .nil 1 0 = some r ∧ r.ret = -1 ∧ r.ret ≠ 1 ∧ r.ret ≠ 0 :=
  ⟨⟨-1, .espipe, .nil⟩, rfl, rfl, by decide, by decide⟩

end Ixemul.Lseek
