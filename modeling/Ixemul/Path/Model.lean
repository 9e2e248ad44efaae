/-
# Ixemul.Path.Model — the translators between Unix and AmigaDOS path names.

`ixToAdos` (ix_to_ados of __open.c) is what every call that opens or locks an object goes through; `u2a`
(symlink.c) turns the text of a symbolic link into the target that is stored, `a2u` (readlink.c) turns it
back into text.  On the Unix side ".." names the parent directory and the first component of an absolute
name is a volume; on the AmigaDOS side a "/" that does not follow a name is the parent, and a volume ends in
":".

A string is the list of its characters, its end standing for the NUL that ends it in C.
-/
import Mathlib.Tactic.Common

namespace Ixemul.Path

/-- The fields of the user area that `ix_to_ados` reads; a thread child reads those of its parent
(`u_parent_userdata`). -/
structure User where
  isRoot : Bool
  useAmigaPaths : Bool
  deriving DecidableEq, Repr

/-! ## ix_to_ados -/

/-- The local variables of `ix_to_ados`; `out` is what has been written to `buf`. -/
structure Dos where
  out : List Char
  allowdot : Bool
  dotcnt : Nat
  root : Nat
  absados : Bool
  deriving DecidableEq, Repr

/-- The first half of the case for '/' and NUL: three dots or more were a name after all. -/
def flushDots (st : Dos) : Dos :=
  if st.dotcnt > 2 then
    { st with
      out := st.out ++ List.replicate st.dotcnt '.'
      root := if st.root = 1 then 2 else st.root }
  else st

/-- The case for '/' and NUL (`nul`): what separates the component just read from the next. -/
def separate (st : Dos) (nul : Bool) : Dos :=
  let st := flushDots st
  if st.root = 2 ∨ (st.root = 1 ∧ nul) then { st with out := st.out ++ [':'], root := 0 }
  else if (st.root = 0 ∧ st.absados = false) ∧
      (st.dotcnt = 2 ∨ ((st.dotcnt = 0 ∨ st.dotcnt > 2) ∧ nul = false)) then
    { st with out := st.out ++ ['/'] }
  else st

/-- The case for '.'. -/
def readDot (st : Dos) : Dos :=
  if st.allowdot then { st with dotcnt := st.dotcnt + 1 } else { st with out := st.out ++ ['.'] }

/-- The case for every other character. -/
def readChar (st : Dos) (c : Char) : Dos where
  out := st.out ++ List.replicate st.dotcnt '.' ++ [c]
  allowdot := false
  dotcnt := 0
  root := if st.root = 1 then 2 else st.root
  absados := false

/-- The loop `for (;;)`.  `skip` is set behind a '/', where further ones are passed over
(`while (*q == '/') q++`). -/
def adosLoop : Bool → List Char → Dos → Dos
  | _, [], st => separate st true
  | skip, c :: q, st =>
    if c = '/' then
      if skip then adosLoop true q st
      else adosLoop true q { separate st false with allowdot := true, dotcnt := 0 }
    else if c = '.' then adosLoop false q (readDot st)
    else adosLoop false q (readChar st c)

/-- `strrchr(q, ':')`: the text before and after the last colon. -/
def splitLastColon : List Char → Option (List Char × List Char)
  | [] => none
  | c :: q =>
    match splitLastColon q with
    | some (before, after) => some (c :: before, after)
    | none => if c = ':' then some ([], q) else none

/-- The volume that ends at a colon: it reaches back to the last ':' or '/' before it. -/
def volumeOf (before : List Char) : List Char :=
  (before.reverse.takeWhile (fun c => c != ':' && c != '/')).reverse

/-- What precedes the loop, and the loop: the whole name but for its end. -/
def adosBody (u : User) (name : List Char) : List Char :=
  let root := if u.isRoot then 1 else if name.head? = some '/' then 1 else 0
  let q := if u.isRoot = false ∧ name.head? = some '/' then name.tail else name
  match splitLastColon q with
  | some (before, after) => (adosLoop false after ⟨volumeOf before ++ [':'], true, 0, 0, true⟩).out
  | none => (adosLoop false q ⟨[], true, 0, root, false⟩).out

/-- Remove a lonely '/' from the end. -/
def removeLonely (buf : List Char) : List Char :=
  match buf.reverse with
  | '/' :: c :: _ => if buf.length > 2 ∧ c ≠ '/' ∧ c ≠ ':' then buf.dropLast else buf
  | _ => buf

/-- The names of devices that are replaced at the end. -/
def deviceName (buf : List Char) : List Char :=
  if buf.map Char.toLower = ['c', 'o', 'n', 's', 'o', 'l', 'e', ':'] then ['*']
  else if buf.take 4 = ['d', 'e', 'v', ':'] then
    let rest := buf.drop 4
    if rest = ['t', 't', 'y'] then ['*']
    else if rest = ['n', 'u', 'l', 'l'] then ['N', 'I', 'L', ':']
    else if rest = ['r', 'a', 'n', 'd', 'o', 'm'] ∨ rest = ['u', 'r', 'a', 'n', 'd', 'o', 'm'] ∨
        rest = ['s', 'r', 'a', 'n', 'd', 'o', 'm'] ∨ rest = ['p', 'r', 'a', 'n', 'd', 'o', 'm'] then
      ['R', 'A', 'N', 'D', 'O', 'M', ':']
    else if rest = ['z', 'e', 'r', 'o'] then ['Z', 'E', 'R', 'O', ':']
    else buf
  else buf

/-- `ix_to_ados`. -/
def ixToAdos (u : User) (name : List Char) : List Char :=
  if u.useAmigaPaths then name else deviceName (removeLonely (adosBody u name))

/-! ## u2a -/

/-- The loop of `u2a`.  `copying` is set inside a name, which is copied up to and with the '/' behind
it; elsewhere the next characters are compared with "../", "./", "/", and ".." or "." at the end. -/
def u2aLoop : Bool → List Char → List Char
  | _, [] => []
  | true, c :: orig => c :: u2aLoop (c != '/') orig
  | false, '.' :: '.' :: '/' :: orig => '/' :: u2aLoop false orig
  | false, '.' :: '/' :: orig => u2aLoop false orig
  | false, '/' :: orig => u2aLoop false orig
  | false, ['.', '.'] => ['/']
  | false, ['.'] => []
  | false, c :: orig => c :: u2aLoop true orig

/-- `u2a`. -/
def u2a (orig : List Char) : List Char :=
  if ':' ∈ orig then orig
  else if orig.head? = some '/' then
    let orig := orig.dropWhile (· == '/')
    let volume := orig.takeWhile (· != '/')
    volume ++ ':' :: u2aLoop false (orig.dropWhile (· != '/')).tail
  else u2aLoop false orig

/-! ## a2u -/

/-- The loop of `a2u`; `copying` is set inside a name. -/
def a2uLoop : Bool → List Char → List Char
  | _, [] => []
  | copying, c :: src =>
    if c = '/' then if copying then a2uLoop false src else '/' :: '.' :: '.' :: a2uLoop false src
    else if copying then c :: a2uLoop true src
    else '/' :: c :: a2uLoop true src

/-- The text `a2u` writes to its buffer; its return value is one more than the text's length. -/
def a2u (src : List Char) : List Char :=
  if ':' ∈ src then
    '/' :: (src.takeWhile (· != ':') ++ a2uLoop false (src.dropWhile (· != ':')).tail)
  else '.' :: a2uLoop false src

/-! ## symlink and readlink -/

/-- The symbolic links of a file system: the stored target under the AmigaDOS name of the link. -/
structure LinkFs where
  target : List Char → Option (List Char)

/-- How `symlink` and `readlink` fail; `ioErr` is what the file system reports. -/
inductive LinkErr where
  | enoent
  | einval
  | ioErr
  deriving DecidableEq, Repr

/-- `symlink`: the file system keeps the target it is given. -/
def symlink (u : User) (fs : LinkFs) (old new : List Char) : Except LinkErr LinkFs :=
  if old = [] ∨ new = [] then .error .enoent
  else .ok ⟨fun name => if name = ixToAdos u new then some (u2a old) else fs.target name⟩

/-- `readlink`: the characters copied to the caller's buffer, and the value returned.  A path that
names no link fails with EINVAL; the file system hands the target back if it fits, with its NUL, into a
buffer of `bufsiz`. -/
def readlink (u : User) (fs : LinkFs) (path : List Char) (bufsiz : Nat) : Except LinkErr (List Char × Int) :=
  match fs.target (ixToAdos u path) with
  | none => .error .einval
  | some dest =>
    if dest.length < bufsiz then
      let p := a2u dest
      let p := if p.take 2 = ['.', '/'] then p.drop 2 else p
      let rc := if p.length < bufsiz then p.length else bufsiz
      .ok (p.take rc, if rc > 0 then rc else -1)
    else .error .ioErr

end Ixemul.Path
