/-
# Ixemul.FileDate — modification times and DateStamps (utimes.c, stat.c, __fstat.c, ixpipe-handler.c).

A file system counts days from 1978, minutes and ticks of 1/50 second, in local time; a program sees seconds
from 1970, in GMT.  The library shifts by the GMT offset in both directions.  The IXPIPE handler goes back
from `st_mtime` to a DateStamp on its own, and does not.

A LONG has 32 bits; sums and products wrap, and so are reduced once, at the end.
-/
import Mathlib.Data.BitVec
import Ixemul.Headers

namespace Ixemul.FileDate

def IsLong (x : Int) : Prop := -2 ^ 31 ≤ x ∧ x < 2 ^ 31

structure DateStamp where
  days : Int
  minute : Int
  tick : Int
  deriving DecidableEq, Repr

def offsetFrom1970 : Int := 8 * 365 + 2
def ticksPerSecond : Int := 50

/-- `utimes`, for a `tvp[1]` of these two members: what SetFileDate gets. -/
def utimes (gmtOffset tvSec tvUsec : Int) : DateStamp :=
  let tvSec := long (tvSec - gmtOffset)
  let rest := tvSec.tmod (24 * 60 * 60)
  { days := long (tvSec.tdiv (24 * 60 * 60) - offsetFrom1970)
    minute := rest.tdiv 60
    tick := long (rest.tmod 60 * ticksPerSecond + (long (tvUsec * ticksPerSecond)).tdiv 1000000) }

/-- The time of a DateStamp as `__stat` and `__fstat` compute it. -/
def mtime (gmtOffset : Int) (d : DateStamp) : Int :=
  long (offsetFrom1970 * 24 * 3600 + gmtOffset + d.days * 24 * 60 * 60 + d.minute * 60 +
    d.tick.tdiv ticksPerSecond)

/-- `st_mtime` after `stat`. -/
def statMtime : Int → DateStamp → Int := mtime

/-- `st_mtime` after `fstat`. -/
def fstatMtime : Int → DateStamp → Int := mtime

/-- ACTION_EXAMINE_FH of the IXPIPE handler, for a file with this `st_mtime`. -/
def examineFh (stMtime : Int) : DateStamp :=
  let time := long (stMtime - (8 * 365 + 2) * 24 * 3600)
  let minutes := time.tdiv 60
  { days := minutes.tdiv (60 * 24)
    minute := minutes.tmod (60 * 24)
    tick := time.tmod 60 * ticksPerSecond }

/-- Within a day, and not before 1978. -/
structure DateStamp.Valid (d : DateStamp) : Prop where
  days : 0 ≤ d.days
  minute : 0 ≤ d.minute ∧ d.minute < 1440
  tick : 0 ≤ d.tick ∧ d.tick < 3000

theorem long_of_isLong {x : Int} (h : IsLong x) : long x = x :=
  Int.bmod_eq_of_le h.1 h.2

/-- **The library's two directions cancel**: `utimes` makes a valid DateStamp, and `stat` and `fstat` get the
seconds back from it. -/
theorem stat_utimes {gmtOffset tvSec tvUsec : Int} (hsec : IsLong tvSec) (hlocal : IsLong (tvSec - gmtOffset))
    (hepoch : offsetFrom1970 * 86400 ≤ tvSec - gmtOffset) (husec : 0 ≤ tvUsec ∧ tvUsec < 1000000) :
    (utimes gmtOffset tvSec tvUsec).Valid ∧
      statMtime gmtOffset (utimes gmtOffset tvSec tvUsec) = tvSec ∧
      fstatMtime gmtOffset (utimes gmtOffset tvSec tvUsec) = tvSec := by
  obtain ⟨x, hx⟩ : ∃ x, x = tvSec - gmtOffset := ⟨_, rfl⟩
  rw [← hx] at hlocal hepoch
  have hpos : 0 ≤ x := Int.le_trans (by decide) hepoch
  have hrest : 0 ≤ x % (24 * 60 * 60) := Int.emod_nonneg _ (by decide)
  have hticks : long (tvUsec * 50) = tvUsec * 50 := long_of_isLong ⟨by omega, by omega⟩
  have hdate : utimes gmtOffset tvSec tvUsec = ⟨x / 86400 - offsetFrom1970, x % 86400 / 60,
      x % 86400 % 60 * 50 + tvUsec * 50 / 1000000⟩ := by
    unfold IsLong at hlocal
    unfold utimes ticksPerSecond
    simp only [← hx, long_of_isLong hlocal, hticks, Int.tmod_eq_emod_of_nonneg hpos,
      Int.tdiv_eq_ediv_of_nonneg hpos, Int.tmod_eq_emod_of_nonneg hrest, Int.tdiv_eq_ediv_of_nonneg hrest,
      Int.tdiv_eq_ediv_of_nonneg (show 0 ≤ tvUsec * 50 by omega)]
    rw [long_of_isLong ⟨by unfold offsetFrom1970; omega, by unfold offsetFrom1970; omega⟩,
      long_of_isLong ⟨by omega, by omega⟩]
    rfl
  have hmtime : mtime gmtOffset (utimes gmtOffset tvSec tvUsec) = tvSec := by
    rw [hdate, mtime, Int.tdiv_eq_ediv_of_nonneg (by dsimp only; omega), ← long_of_isLong hsec]
    unfold ticksPerSecond
    dsimp only
    congr 1
    omega
  refine ⟨?_, hmtime, hmtime⟩
  rw [hdate]
  unfold offsetFrom1970 at hepoch ⊢
  refine ⟨?_, ⟨?_, ?_⟩, ?_, ?_⟩ <;> dsimp only <;> omega

theorem stat_utimes_hour : statMtime 3600 (utimes 3600 300000000 999999) = 300000000 :=
  (stat_utimes ⟨by decide, by decide⟩ ⟨by decide, by decide⟩ (by decide) (by decide)).2.1

/-- The seconds since 1978 that a DateStamp stands for. -/
def DateStamp.seconds (d : DateStamp) : Int := d.days * 86400 + d.minute * 60 + d.tick / 50

/-- **The handler's DateStamp** is that of the file exactly if the GMT offset is 0 and the seconds since 1978
are a LONG. -/
theorem examineFh_fstat_iff {gmtOffset : Int} {d : DateStamp} (hoffset : IsLong gmtOffset) (hd : d.Valid)
    (htick : d.tick % ticksPerSecond = 0) :
    examineFh (fstatMtime gmtOffset d) = d ↔ gmtOffset = 0 ∧ d.seconds < 2 ^ 31 := by
  obtain ⟨hdays, hminute, hticks⟩ := hd
  have htime : long (fstatMtime gmtOffset d - (8 * 365 + 2) * 24 * 3600) = long (gmtOffset + d.seconds) := by
    unfold fstatMtime mtime long ticksPerSecond DateStamp.seconds offsetFrom1970
    rw [Int.tdiv_eq_ediv_of_nonneg hticks.1, Int.bmod_sub_bmod]
    congr 1
    omega
  unfold examineFh
  rw [htime]
  constructor
  · intro h
    obtain ⟨hdays', hminute', htick'⟩ := DateStamp.mk.inj h
    have hlong : long (gmtOffset + d.seconds) = d.seconds := by
      generalize long (gmtOffset + d.seconds) = time at hdays' hminute' htick'
      have hminutes := Int.mul_tdiv_add_tmod (time.tdiv 60) (60 * 24)
      have hseconds := Int.mul_tdiv_add_tmod time 60
      rw [hdays', hminute'] at hminutes
      unfold ticksPerSecond at htick'
      unfold DateStamp.seconds
      omega
    unfold long at hlong
    unfold IsLong at hoffset
    rw [Int.bmod_def] at hlong
    omega
  · rintro ⟨rfl, hlt⟩
    have hpos : 0 ≤ d.seconds := by
      unfold DateStamp.seconds
      omega
    rw [Int.zero_add, long_of_isLong ⟨by omega, hlt⟩]
    have hminutes : 0 ≤ d.seconds / 60 := by omega
    simp only [Int.tdiv_eq_ediv_of_nonneg hpos, Int.tmod_eq_emod_of_nonneg hpos,
      Int.tdiv_eq_ediv_of_nonneg hminutes, Int.tmod_eq_emod_of_nonneg hminutes]
    unfold DateStamp.seconds ticksPerSecond at *
    obtain ⟨days, minute, tick⟩ := d
    rw [DateStamp.mk.injEq]
    dsimp only at *
    omega

theorem examineFh_fstat_iff_gmt : examineFh (fstatMtime 0 ⟨1, 2, 50⟩) = ⟨1, 2, 50⟩ :=
  (examineFh_fstat_iff ⟨by decide, by decide⟩ ⟨by decide, by decide, by decide⟩ (by decide)).mpr (by decide)

theorem examineFh_hour_late : examineFh (fstatMtime 3600 ⟨0, 0, 0⟩) = ⟨0, 60, 0⟩ := by
  decide

end Ixemul.FileDate
