/-
# Ixemul.Cli.Model — the command line of a program that is started (execve.c, _cli_parse_68k.c).

A program that is not one of ixemul's own is started through AmigaDOS, which hands it one line of text:
`compatible_startup` puts every argument through `quote`, and a blank behind it.  A program of ixemul that
is started so takes the line apart again in `__ix_cli_parse`.

A string is the list of its characters up to the NUL.  The tokenizer works in place; here the line is what
lies between `line` and `lmax`, and an escape character is dropped from it.  Characters are signed, so none
above 127 is white space.  `kmalloc` succeeds, and the line fits the buffer.
-/
import Mathlib.Tactic.Common
import Ixemul.Headers

namespace Ixemul.Cli

/-- A string of C. -/
structure CString where
  chars : List Char
  noNul : '\x00' ∉ chars

/-! ## Writing the line -/

/-- The characters that `quote` looks for with `strpbrk`. -/
def quoteChars : List Char := ['"', '\'', '\\', ' ', '\t', '\n']

def needsQuote (orig : List Char) : Prop := ∃ c ∈ orig, c ∈ quoteChars

instance (orig : List Char) : Decidable (needsQuote orig) := List.decidableBEx (· ∈ quoteChars) orig

/-- The loop of `quote`. -/
def escape : List Char → List Char
  | [] => []
  | c :: orig => if c = '"' ∨ c = '\\' then '\\' :: c :: escape orig else c :: escape orig

/-- `none` means: just use the original string. -/
def quote (orig : List Char) : Option (List Char) :=
  if needsQuote orig then some ('"' :: (escape orig ++ ['"'])) else none

/-- The loop of `compatible_startup`, and the newline after it. -/
def commandLine : List (List Char) → List Char
  | [] => ['\n']
  | arg :: args => (quote arg).getD arg ++ ' ' :: commandLine args

/-- The line that `compatible_startup` makes; the command name is ignored. -/
def compatibleStartup (argv : List (List Char)) : List Char := commandLine argv.tail

/-! ## Taking it apart -/

/-- An apostrophe or a backslash escapes a quote that follows it. -/
def isEscape (c : Char) : Bool := c = '\'' || c = '\\'

/-- The loops over the characters of an argument, which differ in where they stop: what they pass, without
the escape characters, and what is left of the line behind the place where they stop. -/
def scan (stop : Char → Bool) : List Char → List Char × List Char
  | [] => ([], [])
  | [c] => if stop c then ([], []) else ([c], [])
  | c :: d :: rest =>
    if stop c then ([], d :: rest)
    else if isEscape c ∧ d = '"' then ('"' :: (scan stop rest).1, (scan stop rest).2)
    else (c :: (scan stop (d :: rest)).1, (scan stop (d :: rest)).2)

/-- An argument after its opening quote. -/
def quotedArg (line : List Char) : List Char × List Char := scan (· = '"') line

/-- A plain argument.  Its first character belongs to it in any case, behind an escape character or not. -/
def plainArg (c : Char) (line : List Char) : List Char × List Char :=
  if isEscape c ∧ line.head? = some '"' then ('"' :: (scan isspace line.tail).1, (scan isspace line.tail).2)
  else (c :: (scan isspace line).1, (scan isspace line).2)

theorem length_scan_le (stop : Char → Bool) (line : List Char) : (scan stop line).2.length ≤ line.length := by
  fun_induction scan stop line with
  | case1 => exact Nat.le_refl 0
  | case2 => exact Nat.zero_le _
  | case3 => exact Nat.zero_le _
  | case4 => exact Nat.le_succ _
  | case5 c d rest hstop hesc ih => exact Nat.le_add_right_of_le (Nat.le_add_right_of_le ih)
  | case6 c d rest hstop hesc ih => exact Nat.le_add_right_of_le ih

theorem length_plainArg_le (c : Char) (line : List Char) : (plainArg c line).2.length ≤ line.length := by
  unfold plainArg
  split
  · have h := length_scan_le isspace line.tail
    rw [List.length_tail] at h
    exact Nat.le_trans h (Nat.sub_le _ _)
  · exact length_scan_le isspace line

/-- The loop over all arguments of a line, with the one that skips white space before each. -/
def tokens : List Char → List (List Char)
  | [] => []
  | c :: line =>
    if isspace c then tokens line
    else if c = '"' then (quotedArg line).1 :: tokens (quotedArg line).2
    else (plainArg c line).1 :: tokens (plainArg c line).2
termination_by line => line.length
decreasing_by
  · exact Nat.lt_succ_self _
  · exact Nat.lt_succ_of_le (length_scan_le _ line)
  · exact Nat.lt_succ_of_le (length_plainArg_le c line)

/-- The line ends at a NUL, a newline or a carriage return. -/
def lineEnd (buf : List Char) : List Char := buf.takeWhile fun c => c ≠ '\x00' ∧ c ≠ '\n' ∧ c ≠ '\r'

/-- The arguments that `__ix_cli_parse` finds behind the command name, with `u_expand_cmd_line` off. -/
def cliParse (buf : List Char) : List (List Char) := tokens (lineEnd buf)

/-! ## Expanding wildcards -/

def iswild (c : Char) : Bool := c ∈ ['*', '[', '!', '?', '#']

/-- What goes into the list for an argument; `glob` is there if `u_expand_cmd_line` is set. -/
def expansion (glob : Option (List Char → List (List Char))) (doExpand : Bool) (arg : List Char) :
    List (List Char) :=
  match glob with
  | some glob => if doExpand then glob arg else [arg]
  | none => [arg]

/-- What an argument becomes, with whether it began with a quote. -/
def expandWord (glob : Option (List Char → List (List Char))) (w : Bool × List Char) : List (List Char) :=
  expansion glob (!w.1 && w.2.any iswild) w.2

end Ixemul.Cli
