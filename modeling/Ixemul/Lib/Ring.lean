/-
# Ixemul.Lib.Ring — a circular buffer read as a queue.

A buffer of `N` cells with a reader and a writer index, both below `N`.  The queue it holds starts at the
reader and runs, around the end, up to the writer; equal indices mean that it is empty, so it never
holds more than `N - 1` elements.  Copies in and out are contiguous (`slice`, `blit`), as `memcpy` does
them; `content_take` and `content_put` say what a contiguous copy that does not pass the end of the
buffer does to the queue.
-/
import Mathlib.Data.List.Basic

namespace Ixemul.Lib.Ring

open List

variable {α : Type*} {N r w n : Nat} {buf : Nat → α}

/-- `n` cells from `r` on, contiguous. -/
def slice (buf : Nat → α) (r n : Nat) : List α := (range n).map (fun i => buf (r + i))

/-- The buffer after copying `xs` to the cells from `w` on. -/
def blit (buf : Nat → α) (w : Nat) (xs : List α) : Nat → α :=
  fun i => if w ≤ i then (xs[i - w]?).getD (buf i) else buf i

/-- `n` cells from `r` on, going around at `N`. -/
def window (N : Nat) (buf : Nat → α) (r n : Nat) : List α :=
  (range n).map (fun i => buf ((r + i) % N))

/-- The number of elements between the indices. -/
def fill (N r w : Nat) : Nat := (w + N - r) % N

/-- The queue between the indices. -/
def content (N : Nat) (buf : Nat → α) (r w : Nat) : List α := window N buf r (fill N r w)

@[simp] theorem length_slice : (slice buf r n).length = n := by simp [slice]

@[simp] theorem length_window : (window N buf r n).length = n := by simp [window]

theorem length_content : (content N buf r w).length = fill N r w := length_window

theorem window_add (N : Nat) (buf : Nat → α) (r m n : Nat) :
    window N buf r (m + n) = window N buf r m ++ window N buf (r + m) n := by
  simp only [window, range_add, map_append, map_map]
  congr 2
  funext i
  simp [Nat.add_assoc]

theorem window_mod (N : Nat) (buf : Nat → α) (r n : Nat) : window N buf (r % N) n = window N buf r n := by
  simp [window]

theorem window_eq_slice (h : r + n ≤ N) : window N buf r n = slice buf r n := by
  refine map_congr_left fun i hi => ?_
  have hi : i < n := mem_range.mp hi
  rw [Nat.mod_eq_of_lt (by omega)]

theorem blit_of_lt {xs : List α} {i : Nat} (h : i < w) : blit buf w xs i = buf i := by
  simp [blit, Nat.not_le.mpr h]

theorem blit_of_ge {xs : List α} {i : Nat} (h : w + xs.length ≤ i) : blit buf w xs i = buf i := by
  unfold blit
  rw [getElem?_eq_none (by omega)]
  simp

theorem slice_blit (xs : List α) : slice (blit buf w xs) w xs.length = xs := by
  refine ext_getElem (by simp) fun i h1 h2 => ?_
  simp [slice, blit, h2]

theorem fill_lt (hN : 0 < N) : fill N r w < N := Nat.mod_lt _ hN

theorem fill_of_le (hr : r ≤ w) (hw : w < N) : fill N r w = w - r := by
  unfold fill
  rw [show w + N - r = (w - r) + N by omega, Nat.add_mod_right, Nat.mod_eq_of_lt (by omega)]

theorem fill_of_gt (hr : w < r) (hrN : r < N) : fill N r w = w + N - r :=
  Nat.mod_eq_of_lt (by omega)

theorem advance_eq (h : r + n ≤ N) : (if r + n = N then 0 else r + n) = (r + n) % N := by
  split_ifs with heq
  · rw [heq, Nat.mod_self]
  · exact (Nat.mod_eq_of_lt (by omega)).symm

theorem fill_take (hr : r < N) (hw : w < N) (hn : n ≤ fill N r w) (hend : r + n ≤ N) :
    fill N r w = n + fill N ((r + n) % N) w := by
  rw [← advance_eq hend]
  rcases Nat.lt_or_ge w r with hlt | hge
  · rw [fill_of_gt hlt hr] at hn ⊢
    split_ifs with heq
    · rw [fill_of_le (Nat.zero_le w) hw]
      omega
    · rw [fill_of_gt (by omega) (by omega)]
      omega
  · rw [fill_of_le hge hw] at hn ⊢
    rw [if_neg (by omega), fill_of_le (by omega) hw]
    omega

/-- **Taking** `n` elements by a contiguous copy. -/
theorem content_take (hr : r < N) (hw : w < N) (hn : n ≤ fill N r w) (hend : r + n ≤ N) :
    content N buf r w = slice buf r n ++ content N buf ((r + n) % N) w := by
  unfold content
  rw [fill_take hr hw hn hend, window_add, window_eq_slice hend, window_mod]

theorem fill_put (hr : r < N) (hw : w < N) (hn : fill N r w + n < N) (hend : w + n ≤ N) :
    fill N r ((w + n) % N) = fill N r w + n := by
  rw [← advance_eq hend]
  rcases Nat.lt_or_ge w r with hlt | hge
  · rw [fill_of_gt hlt hr] at hn ⊢
    rw [if_neg (by omega), fill_of_gt (by omega) hr]
    omega
  · rw [fill_of_le hge hw] at hn ⊢
    split_ifs with heq
    · rcases Nat.eq_zero_or_pos r with h0 | hpos
      · omega
      · rw [fill_of_gt hpos hr]
        omega
    · rw [fill_of_le (by omega) (by omega)]
      omega

theorem window_blit (hr : r < N) (hw : w < N) {xs : List α} (hn : fill N r w + xs.length < N)
    (hend : w + xs.length ≤ N) :
    window N (blit buf w xs) r (fill N r w) = window N buf r (fill N r w) := by
  refine map_congr_left fun i hi => ?_
  have hi : i < fill N r w := mem_range.mp hi
  rcases Nat.lt_or_ge w r with hlt | hge
  · rw [fill_of_gt hlt hr] at hi hn
    -- the queue goes around: its upper part is above the copy, its lower part below
    rcases Nat.lt_or_ge (r + i) N with hin | hout
    · rw [Nat.mod_eq_of_lt hin]
      exact blit_of_ge (by omega)
    · rw [show r + i = (r + i - N) + N by omega, Nat.add_mod_right, Nat.mod_eq_of_lt (by omega)]
      exact blit_of_lt (by omega)
  · rw [fill_of_le hge hw] at hi
    rw [Nat.mod_eq_of_lt (by omega)]
    exact blit_of_lt (by omega)

/-- **Putting** the elements `xs` behind the queue by a contiguous copy. -/
theorem content_put (buf : Nat → α) (xs : List α) (hr : r < N) (hw : w < N)
    (hn : fill N r w + xs.length < N) (hend : w + xs.length ≤ N) :
    content N (blit buf w xs) r ((w + xs.length) % N) = content N buf r w ++ xs := by
  have hpos : (r + fill N r w) % N = w := by
    rcases Nat.lt_or_ge w r with hlt | hge
    · rw [fill_of_gt hlt hr, show r + (w + N - r) = w + N by omega, Nat.add_mod_right,
        Nat.mod_eq_of_lt hw]
    · rw [fill_of_le hge hw, show r + (w - r) = w by omega, Nat.mod_eq_of_lt hw]
  unfold content
  rw [fill_put hr hw hn hend, window_add, window_blit hr hw hn hend,
    ← window_mod N _ (r + fill N r w), hpos, window_eq_slice hend, slice_blit]

end Ixemul.Lib.Ring
