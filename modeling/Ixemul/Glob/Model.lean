/-
# Ixemul.Glob.Model — file name patterns (`general/glob.c`).

`glob0` compiles a pattern to a string of 16 bit characters, in which the special ones carry a bit that
no character of a name has.  `glob2` and `glob3` walk the pattern and the directories, and `match` compares
one name with one segment of the pattern.

Strings are lists of characters; the file system is what `lstat` and `readdir` tell of it.  `GLOB_QUOTE`,
`GLOB_BRACE`, `GLOB_TILDE` and `GLOB_APPEND` are off, there is no `errfunc`, and memory suffices.
-/
import Mathlib.Data.List.Sort

namespace Ixemul.Glob

/-- A character of a compiled pattern: one of a name, or one of `M_ALL`, `M_ONE`, `M_SET`, `M_NOT`, `M_RNG`
and `M_END`. -/
inductive Code where
  | char (c : Char)
  | all
  | one
  | set
  | not
  | rng
  | setEnd
  deriving DecidableEq

def Code.isMeta : Code → Bool
  | .char _ => false
  | _ => true

structure Flags where
  amiga : Bool
  nocase : Bool
  nocheck : Bool
  nomagic : Bool
  mark : Bool
  nosort : Bool

/-! ## Compiling -/

/-- The `do` loop over the members of a set, with the pattern from the member at hand: the codes up to
`M_END`, and what follows the bracket.  The first member may be a bracket. -/
def setCodes (first : Bool) : List Char → List Code × List Char
  | [] => ([], [])
  | c :: rest =>
    if c = ']' ∧ first = false then ([.setEnd], rest)
    else match rest with
      | '-' :: d :: rest' =>
        if d = ']' then
          (.char c :: (setCodes false ('-' :: d :: rest')).1, (setCodes false ('-' :: d :: rest')).2)
        else (.char c :: .rng :: .char d :: (setCodes false rest').1, (setCodes false rest').2)
      | rest => (.char c :: (setCodes false rest).1, (setCodes false rest).2)

theorem length_setCodes (first : Bool) (pat : List Char) : (setCodes first pat).2.length ≤ pat.length := by
  fun_induction setCodes first pat <;> grind

/-- `g_strchr` finds a bracket behind the first member. -/
def closes (body : List Char) : Bool := decide (']' ∈ body.tail)

/-- The pattern behind the bracket that opens a set, and behind the exclamation mark. -/
def body (rest : List Char) : List Char := if rest.head? = some '!' then rest.tail else rest

theorem length_body_le (rest : List Char) : (body rest).length ≤ rest.length := by
  unfold body
  split <;> simp

/-- Adjacent stars become one. -/
def addAll (buf : List Code) : List Code := if buf.getLast? = some .all then buf else buf ++ [.all]

/-- The loop of `glob0`; `buf` is what lies between `patbuf` and `bufnext`. -/
def compile (amiga : Bool) (buf : List Code) : List Char → List Code
  | [] => buf
  | c :: rest =>
    if c = '[' then
      if closes (body rest) then
        compile amiga
          (buf ++ .set :: (if rest.head? = some '!' then [.not] else []) ++ (setCodes true (body rest)).1)
          (setCodes true (body rest)).2
      else compile amiga (buf ++ [.char '[']) rest
    else if c = '?' then compile amiga (buf ++ [.one]) rest
    else if c = '*' then compile amiga (addAll buf) rest
    else if c = '#' ∧ amiga ∧ rest.head? = some '?' then compile amiga (addAll buf) rest.tail
    else compile amiga (buf ++ [.char c]) rest
termination_by pat => pat.length
decreasing_by
  · exact Nat.lt_succ_of_le ((length_setCodes true _).trans (length_body_le rest))
  all_goals simp only [List.length_cons, List.length_tail]; omega

/-! ## Matching a name -/

def fold (nocase : Bool) (c : Char) : Char := if nocase then c.toLower else c

/-- The loop over the members of a set: whether one of them fits `k`, and the pattern behind `M_END`. -/
def inSet (nocase : Bool) (k : Char) : List Code → Bool × List Code
  | [] => (false, [])
  | .setEnd :: pat => (false, pat)
  | .char c :: .rng :: .char d :: pat =>
    (decide (fold nocase c ≤ k ∧ k ≤ fold nocase d) || (inSet nocase k pat).1, (inSet nocase k pat).2)
  | .char c :: pat => (decide (fold nocase c = k) || (inSet nocase k pat).1, (inSet nocase k pat).2)
  | _ :: pat => inSet nocase k pat

theorem length_inSet (nocase : Bool) (k : Char) (pat : List Code) :
    (inSet nocase k pat).2.length ≤ pat.length := by
  fun_induction inSet nocase k pat <;> grind

/-- `match`; the pattern is what lies between `pat` and `patend`. -/
def matchName (nocase : Bool) : List Code → List Char → Bool
  | [], name => name.isEmpty
  | .all :: pat, name => pat.isEmpty || name.tails.any fun n => matchName nocase pat n
  | .one :: pat, name =>
    match name with
    | [] => false
    | _ :: name => matchName nocase pat name
  | .set :: pat, name =>
    match name with
    | [] => false
    | k :: name =>
      let negate := decide (pat.head? = some .not)
      let found := inSet nocase (fold nocase k) (if negate then pat.tail else pat)
      if found.1 = negate then false else matchName nocase found.2 name
  | .char c :: pat, name =>
    match name with
    | [] => false
    | k :: name => if fold nocase k ≠ fold nocase c then false else matchName nocase pat name
  | _ :: _, _ => false
termination_by pat => pat.length
decreasing_by
  all_goals simp only [List.length_cons]
  all_goals try omega
  have hle := length_inSet nocase (fold nocase k) (if negate then pat.tail else pat)
  split at hle <;> grind

/-! ## Walking the directories -/

structure Files where
  lstat : List Char → Bool
  isDir : List Char → Bool
  /-- The names that `readdir` returns, if the directory can be opened. -/
  readdir : List Char → Option (List (List Char))

def Code.toChar : Code → Char
  | .char c => c
  | _ => '\x00'

def isSep (c : Code) : Bool := c = .char '/'

theorem length_dropSegment {pat : List Code} (h : pat ≠ []) :
    ((pat.dropWhile (!isSep ·)).dropWhile isSep).length < pat.length := by
  obtain ⟨c, pat, rfl⟩ := List.exists_cons_of_ne_nil h
  by_cases hc : isSep c
  · have hle := (pat.dropWhile_suffix isSep).length_le
    simp only [List.dropWhile_cons, hc, Bool.not_true, Bool.false_eq_true, if_false, if_true,
      List.length_cons]
    omega
  · have hle := ((pat.dropWhile (!isSep ·)).dropWhile_suffix isSep).length_le
    have hle' := (pat.dropWhile_suffix (!isSep ·)).length_le
    simp only [List.dropWhile_cons, hc, Bool.not_false, if_true, List.length_cons]
    omega

/-- A dot at the start of a name must be matched literally. -/
def visible (segment : List Code) (name : List Char) : Bool :=
  !(name.head? = some '.' && segment.head? ≠ some (.char '.'))

/-- `glob2`, with `glob3` for a segment that needs expansion: the paths that `globextend` is called with. -/
def glob2 (fl : Flags) (fs : Files) (path : List Char) (pat : List Code) : List (List Char) :=
  if pat = [] then
    if fs.lstat path then
      [if fl.mark ∧ path.getLast? ≠ some '/' ∧ fs.isDir path then path ++ ['/'] else path]
    else []
  else
    let segment := pat.takeWhile (!isSep ·)
    let rest := pat.dropWhile (!isSep ·)
    if segment.any Code.isMeta then
      (((fs.readdir path).getD []).filter fun name =>
        visible segment name && matchName fl.nocase segment name).flatMap fun name =>
          glob2 fl fs (path ++ name) rest
    else
      glob2 fl fs (path ++ (segment ++ rest.takeWhile isSep).map Code.toChar) (rest.dropWhile isSep)
termination_by pat.length
decreasing_by
  · have hlen : (segment ++ rest).length = pat.length := congrArg _ List.takeWhile_append_dropWhile
    obtain ⟨c, hc, -⟩ := List.any_eq_true.mp ‹_›
    have hpos := List.length_pos_of_mem hc
    rw [List.length_append] at hlen
    show rest.length < pat.length
    omega
  · exact length_dropSegment ‹_›

/-- `strcmp` of `compare`, or `strcasecmp` of `icompare`, is not positive. -/
def sorted (nocase : Bool) (p q : List Char) : Bool :=
  !(q.map (fold nocase)).lex (p.map (fold nocase)) fun a b => a.toNat < b.toNat

/-- `glob0`: the contents of `gl_pathv`. -/
def glob0 (fl : Flags) (fs : Files) (pat : List Char) : List (List Char) :=
  let patbuf := compile fl.amiga [] pat
  -- `glob1` does not look for an empty path name
  let found := if patbuf = [] then [] else glob2 fl fs [] patbuf
  if found = [] ∧ (fl.nocheck ∨ fl.nomagic ∧ ¬ patbuf.any Code.isMeta) then [pat]
  else if fl.nosort then found
  else found.mergeSort (sorted fl.nocase)

def maxPathLen : Nat := 1024

/-- `volume:rest` as `/volume/rest`. -/
def volumeToRoot (path : List Char) : List Char := if ':' ∈ path then '/' :: path.replace ':' '/' else path

/-- `glob`: the pattern is copied to a buffer of `MAXPATHLEN` characters. -/
def glob (fl : Flags) (fs : Files) (pat : List Char) : List (List Char) :=
  glob0 fl fs ((volumeToRoot pat).take maxPathLen)

end Ixemul.Glob
