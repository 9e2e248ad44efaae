/-
# Ixemul.Path.Readlink — the buffer that `readlink` has on its stack (readlink.c).

`readlink` calls `a2u` twice: without a buffer, to learn how much the text takes, and with one of that size.
The second call writes "/.." with `strcpy`, whose NUL is overwritten later.
-/
import Ixemul.Lib.Buffer
import Ixemul.Path.Components

namespace Ixemul.Path

open Lib Lib.Logged Lib.Buffer
open List

/-- The stores of `a2u`, which it makes if it has got a buffer. -/
def storeIf (buf : Bool) (len : Nat) (t : List Char) : Writer Unit := if buf then puts len t else pure ()

/-- The loop of `a2u`; `copying` is set inside a name. -/
def storeA2uLoop (buf : Bool) : (copying : Bool) → (src : List Char) → (len : Nat) → Writer Nat
  | _, [], len => pure len
  | copying, c :: src, len =>
    if c = '/' then
      if copying then storeA2uLoop buf false src len
      else do
        -- `strcpy`
        storeIf buf len ['/', '.', '.', nul]
        storeA2uLoop buf false src (len + 3)
    else if copying then do
      storeIf buf len [c]
      storeA2uLoop buf true src (len + 1)
    else do
      storeIf buf len ['/', c]
      storeA2uLoop buf true src (len + 2)

/-- The text, without its NUL. -/
def storeText (buf : Bool) (src : List Char) : Writer Nat :=
  if ':' ∈ src then do
    let volume := src.takeWhile (· != ':')
    storeIf buf 0 ('/' :: volume)
    storeA2uLoop buf false (src.dropWhile (· != ':')).tail (volume.length + 1)
  else do
    storeIf buf 0 ['.']
    storeA2uLoop buf false src 1

/-- `a2u(buf, src)`, or with `buf` not set `a2u(NULL, src)`. -/
def storeA2u (buf : Bool) (src : List Char) : Writer Nat := do
  let len ← storeText buf src
  storeIf buf len [nul]
  pure (len + 1)

/-- What `readlink` skips of the text at `p`. -/
def skipped (p : Buf) : Nat := if p 0 = '.' ∧ p 1 = '/' then 2 else 0

/-- How much it copies, of `len` bytes with the NUL. -/
def copied (p : Buf) (len bufsiz : Nat) : Nat :=
  if len - skipped p - 1 < bufsiz then len - skipped p - 1 else bufsiz

/-! ## The two passes -/

section

variable {buf copying : Bool} {src out s t w : List Char} {n len : Nat}

/-- The text has come out, to the buffer if there is one. -/
def Wrote (buf : Bool) (t : List Char) (len : Nat) (b : Buf) : Prop :=
  len = t.length ∧ (buf = true → Holds t b)

/-- A store of `w` that leaves `t`: what is behind it will be overwritten. -/
theorem safe_storeIf {m : Writer Nat} {post : Nat → Buf → Prop} {u : List Char} (hw : w = t ++ u)
    (hn : out.length + w.length ≤ n) (hm : Safe (· < n) (Wrote buf (out ++ t) (len + t.length)) m post) :
    Safe (· < n) (Wrote buf out len) (storeIf buf len w >>= fun _ => m) post := by
  have hstore : Safe (· < n) (Wrote buf out len) (storeIf buf len w)
      fun _ => Wrote buf (out ++ t) (len + t.length) := by
    rintro b ⟨rfl, hb⟩
    cases buf with
    | false => exact ⟨by simp [storeIf], length_append.symm, nofun⟩
    | true =>
      obtain ⟨hacc, hholds⟩ := safe_puts hn b (hb rfl)
      refine ⟨hacc, length_append.symm, fun _ => Holds.left (t := u) ?_⟩
      rw [append_assoc, ← hw]
      exact hholds
  exact hstore.bind fun _ => hm

theorem safe_a2uLoop (hs : s = out ++ a2uLoop copying src) (hn : s.length < n) :
    Safe (· < n) (Wrote buf out len) (storeA2uLoop buf copying src len) (Wrote buf s) := by
  fun_induction a2uLoop copying src generalizing out len with
  | case1 =>
    rw [hs, append_nil]
    exact Safe.pure fun b hb => hb
  | case2 src ih =>
    rw [storeA2uLoop, if_pos rfl, if_pos rfl]
    exact ih hs
  | case3 copying src hcopying ih =>
    rw [storeA2uLoop, if_pos rfl, if_neg hcopying]
    exact safe_storeIf (t := ['/', '.', '.']) (u := [nul]) rfl (by simp [hs] at hn ⊢; omega)
      (ih (by simp [hs]))
  | case4 c src hc ih =>
    rw [storeA2uLoop, if_neg hc, if_pos rfl]
    exact safe_storeIf (append_nil [c]).symm (by simp [hs] at hn ⊢; omega) (ih (by simp [hs]))
  | case5 copying c src hc hcopying ih =>
    rw [storeA2uLoop, if_neg hc, if_neg hcopying]
    exact safe_storeIf (append_nil ['/', c]).symm (by simp [hs] at hn ⊢; omega) (ih (by simp [hs]))

theorem safe_a2u (buf : Bool) (s : List Char) : Safe (· < (a2u s).length + 1) (fun _ => True) (storeA2u buf s)
    (Wrote buf (a2u s ++ [nul])) := by
  have hstart (t src : List Char) (ht : a2u s = t ++ a2uLoop false src) : Safe (· < (a2u s).length + 1)
      (fun _ => True) (storeIf buf 0 t >>= fun _ => storeA2uLoop buf false src (0 + t.length))
      (Wrote buf (a2u s)) := by
    have hle : t.length ≤ (a2u s).length := by simp [ht]
    intro b _
    exact safe_storeIf (append_nil t).symm (by simp; omega) (safe_a2uLoop ht (Nat.lt_succ_self _)) b
      ⟨rfl, fun _ => holds_nil⟩
  refine Safe.bind ?_ fun len => safe_storeIf (t := [nul]) rfl le_rfl (Safe.pure fun b hb => hb)
  unfold storeText
  split
  next hcolon =>
    have h := hstart ('/' :: s.takeWhile (· != ':')) _ (if_pos hcolon)
    rwa [Nat.zero_add] at h
  next hcolon => exact hstart ['.'] _ (if_neg hcolon)

theorem nul_a2u (h : nul ∉ s) : nul ∉ a2u s := by
  have hslash : nul ≠ '/' := by decide
  have hdot : nul ≠ '.' := by decide
  unfold a2u
  split
  · have hvolume : nul ∉ s.takeWhile (· != ':') := fun hmem => h (takeWhile_sublist _ |>.subset hmem)
    have hrest : nul ∉ (s.dropWhile (· != ':')).tail :=
      fun hmem => h (dropWhile_sublist _ |>.subset (mem_of_mem_tail hmem))
    simp [hslash, hvolume, not_mem_a2uLoop hslash hdot hrest]
  · simp [hdot, not_mem_a2uLoop hslash hdot h]

/-- **The buffer of `readlink`**: both calls of `a2u` return the same number, the stores of the second are
below it and leave a string that is shorter by one, and what is copied of it is what `readlink` returns. -/
theorem a2u_fits (s : List Char) (b : Buf) (bufsiz : Nat) :
    ∃ len p, result (storeA2u false s) b = len ∧ result (storeA2u true s) b = len ∧
      final (storeA2u true s) b = p ∧ (∀ i ∈ accesses (storeA2u true s) b, i < len) ∧
      (a2u s).length + 1 = len ∧ Holds (a2u s ++ [nul]) p ∧ (nul ∉ s → nul ∉ a2u s) ∧
      skipped p + copied p len bufsiz < len ∧ ∀ u fs path, fs.target (ixToAdos u path) = some s →
        s.length < bufsiz → readlink u fs path bufsiz = .ok (chars p (skipped p) (copied p len bufsiz),
          if copied p len bufsiz > 0 then copied p len bufsiz else -1) := by
  obtain ⟨-, hnull, -⟩ := safe_a2u false s b trivial
  obtain ⟨hacc, hlen, hholds⟩ := safe_a2u true s b trivial
  rw [length_append, length_singleton] at hnull hlen
  refine ⟨_, _, hnull, hlen, rfl, hacc, rfl, hholds rfl, nul_a2u, ?_⟩
  have hp := hholds rfl
  generalize final (storeA2u true s) b = p at hp
  have htwo : (p 0 = '.' ∧ p 1 = '/') ↔ (a2u s).take 2 = ['.', '/'] := by
    refine Iff.trans ?_ (chars_zero_iff (t := ['.', '/']) hp (by decide))
    simp [chars, range_succ]
  have hskip : skipped p = if (a2u s).take 2 = ['.', '/'] then 2 else 0 := if_congr htwo rfl rfl
  have hle : skipped p ≤ (a2u s).length := by
    rw [hskip]
    split_ifs with h
    · have := congrArg length h
      simp only [length_take, length_cons, length_nil] at this
      omega
    · exact Nat.zero_le _
  have htext : (if (a2u s).take 2 = ['.', '/'] then (a2u s).drop 2 else a2u s) =
      (a2u s).drop (skipped p) := by
    rw [hskip]
    split_ifs <;> rfl
  have hcopied : copied p ((a2u s).length + 1) bufsiz = if ((a2u s).drop (skipped p)).length < bufsiz then
      ((a2u s).drop (skipped p)).length else bufsiz := by
    have hsub : (a2u s).length + 1 - skipped p - 1 = (a2u s).length - skipped p := by omega
    rw [copied, hsub, length_drop]
  have hfits : skipped p + copied p ((a2u s).length + 1) bufsiz ≤ (a2u s).length := by
    rw [hcopied, length_drop]
    split_ifs <;> omega
  refine ⟨Nat.lt_succ_of_le hfits, fun u fs path htarget hfit => ?_⟩
  rw [chars_eq hp.left hfits]
  simp only [readlink, htarget, if_pos hfit, htext, ← hcopied]

end

end Ixemul.Path
