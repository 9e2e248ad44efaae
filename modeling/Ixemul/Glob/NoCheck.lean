/-
# Ixemul.Glob.NoCheck — a pattern without a match (`GLOB_NOCHECK`).

`glob` writes `volume:rest` as `/volume/rest` before it looks for anything, and `glob0` returns the pattern
as it then stands.  The caller, and the program whose command line is expanded, get their pattern back if
there is no colon in it.
-/
import Ixemul.Cli.Model
import Ixemul.Glob.Model

namespace Ixemul.Glob

open List

/-- The search for the pattern finds no path name. -/
def NoMatch (fl : Flags) (fs : Files) (pat : List Char) : Prop :=
  let patbuf := compile fl.amiga [] ((volumeToRoot pat).take maxPathLen)
  patbuf = [] ∨ glob2 fl fs [] patbuf = []

variable {fl : Flags} {fs : Files} {pat : List Char}

theorem NoMatch.glob_eq (h : NoMatch fl fs pat) (hnocheck : fl.nocheck) :
    glob fl fs pat = [(volumeToRoot pat).take maxPathLen] := by
  have hfound : (if compile fl.amiga [] ((volumeToRoot pat).take maxPathLen) = [] then []
      else glob2 fl fs [] (compile fl.amiga [] ((volumeToRoot pat).take maxPathLen))) = [] := by
    split
    · rfl
    · exact h.resolve_left ‹_›
  simp only [glob, glob0, hfound, hnocheck, true_and, true_or, if_true]

theorem count_volumeToRoot (h : ':' ∈ pat) : (volumeToRoot pat).count ':' + 1 = pat.count ':' := by
  have hreplace : ∀ p : List Char, ':' ∈ p → (p.replace ':' '/').count ':' + 1 = p.count ':' := by
    intro p hp
    induction p with
    | nil => cases hp
    | cons c p ih =>
      by_cases hc : ':' = c
      · subst hc
        rw [replace_cons_self, count_cons_of_ne (by decide), count_cons_self]
      · rw [replace_cons, beq_false_of_ne hc, count_cons_of_ne (Ne.symm hc),
          count_cons_of_ne (Ne.symm hc)]
        exact ih ((mem_cons.mp hp).resolve_left hc)
  rw [volumeToRoot, if_pos h]
  exact hreplace pat h

/-- The pattern survives if it has no colon; else a colon is missing. -/
theorem take_volumeToRoot_eq_iff (hlen : pat.length ≤ maxPathLen) :
    (volumeToRoot pat).take maxPathLen = pat ↔ ':' ∉ pat := by
  constructor
  · intro h hcolon
    have hcount := count_volumeToRoot hcolon
    have hle := (take_sublist maxPathLen (volumeToRoot pat)).count_le ':'
    rw [h] at hle
    omega
  · intro h
    rw [volumeToRoot, if_neg h, take_of_length_le hlen]

/-- **A pattern without a match is returned as it is, by `glob` and to the program, exactly if it has no
colon.** -/
theorem nocheck_returns_iff (fl : Flags) (fs : Files) (pat : List Char) (hlen : pat.length ≤ maxPathLen)
    (hnocheck : fl.nocheck = true) (hmatch : NoMatch fl fs pat) :
    (glob fl fs pat = [pat] ∧
      (pat.any Cli.iswild = true → Cli.expandWord (some (glob fl fs)) (false, pat) = [pat])) ↔ ':' ∉ pat := by
  have hglob := hmatch.glob_eq hnocheck
  rw [← take_volumeToRoot_eq_iff hlen]
  constructor
  · rintro ⟨h, -⟩
    rw [hglob] at h
    exact singleton_inj.mp h
  · intro h
    rw [h] at hglob
    refine ⟨hglob, fun hwild => ?_⟩
    rw [Cli.expandWord, hwild]
    exact hglob

/-- A system without files. -/
def noFiles : Files := ⟨fun _ => false, fun _ => false, fun _ => none⟩

/-- The flags of `__ix_cli_parse`, as the library is set up first. -/
def cliFlags : Flags := ⟨false, true, true, false, false, false⟩

theorem noMatch_noFiles (fl : Flags) (pat : List Char) : NoMatch fl noFiles pat := by
  have hnone : ∀ path codes, glob2 fl noFiles path codes = [] := by
    intro path codes
    fun_induction glob2 fl noFiles path codes with
    | case1 path hstat => exact absurd hstat Bool.false_ne_true
    | case2 => rfl
    | case3 => rfl
    | case4 path codes hne segment rest hmeta ih => exact ih
  exact .inr (hnone [] _)

/-- The program gets `//*` for `:*`. -/
theorem colon_rewritten : glob cliFlags noFiles [':', '*'] ≠ [[':', '*']] ∧
    Cli.expandWord (some (glob cliFlags noFiles)) (false, [':', '*']) = [['/', '/', '*']] := by
  have hglob := (noMatch_noFiles cliFlags [':', '*']).glob_eq rfl
  refine ⟨?_, ?_⟩
  · rw [hglob]
    decide
  · exact hglob

/-- `*` comes back. -/
theorem nocheck_returns_star : glob cliFlags noFiles ['*'] = [['*']] :=
  ((nocheck_returns_iff _ _ _ (by decide) rfl (noMatch_noFiles _ _)).mpr (by decide)).1

end Ixemul.Glob
