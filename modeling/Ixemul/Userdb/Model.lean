/-
# Ixemul.Userdb.Model — reading the passwd and group files (user.c, group.c).

`getpwent` goes through the lines of the passwd file and then through three entries of its own: root, the
user who is logged in, and nobody.  For the second it calls `getpwnam`, which looks the name up over the
same file pointer, and ends with `endpwent` unless the file is to stay open.  `getgrent` does the same with
the group file.  What the two have in common is written once (`Db`).  Left out are multiuser.library and
ixnet.library, and that there may be no memory for the line buffer.
-/
import Mathlib.Data.BitVec
import Ixemul.Headers

namespace Ixemul.Userdb

/-! ## Strings and lines -/

abbrev Str := List Char

/-- The C string at the start of a buffer. -/
def cstr (s : Str) : Str := s.takeWhile (fun c => c != '\x00')

/-- The token at `*stringp`, and `*stringp` after. -/
def strsep (delim : List Char) : Option Str → Option Str × Option Str
  | none => (none, none)
  | some s =>
    (some (s.takeWhile (fun c => !delim.contains c)),
      match s.dropWhile (fun c => !delim.contains c) with
      | [] => none
      | _ :: rest => some rest)

/-- The sign of a number, and what follows it. -/
def sign : Str → Bool × Str
  | '-' :: s => (true, s)
  | '+' :: s => (false, s)
  | s => (false, s)

/-- `strtol` to base 10, with its limits. -/
def atoi (s : Str) : Int :=
  let (neg, s) := sign (s.dropWhile isspace)
  let acc : Int := (s.takeWhile Char.isDigit).foldl (fun acc c => acc * 10 + (c.toNat - '0'.toNat : Nat)) 0
  if neg then max (-acc) (-2147483648) else min acc 2147483647

/-- A `uid_t` or `gid_t`. -/
abbrev Id := BitVec 16

def toId (n : Int) : Id := BitVec.ofInt 16 n

/-- The `n` characters that `fgets` reads at most, up to a newline, and what is left of the file. -/
def fgets : Nat → Str → Str × Str
  | 0, s => ([], s)
  | _ + 1, [] => ([], [])
  | n + 1, c :: s => if c = '\n' then ([c], s) else (c :: (fgets n s).1, (fgets n s).2)

/-- `while ((ch = getc(fp)) != '\n' && ch != EOF)` -/
def skipLine : Str → Str
  | [] => []
  | c :: s => if c = '\n' then s else skipLine s

def maxlinelength : Nat := 1024

/-- The start of the loop in `pwscan` and `grscan`: at the end of the file nothing; otherwise the line in the
buffer, if there is a newline in it, and what is left.  A line that is too long is skipped to its end,
and so is the line after one with a NUL in it. -/
def readLine (s : Str) : Option (Option Str × Str) :=
  if s = [] then none
  else
    let line := cstr (fgets (maxlinelength - 1) s).1
    let rest := (fgets (maxlinelength - 1) s).2
    if '\n' ∈ line then some (some line, rest) else some (none, skipLine rest)

/-- AMIGAOS_STRSEP or UNIX_STRSEP. -/
def sepOf (line : Str) : List Char := if '|' ∈ line then ['|', '\n'] else [':', '\n']

/-! ## A kind of file -/

/-- What is asked of the system: the file, if it can be opened; the name of the user who is logged in, or the
value of GROUP; and what an entry for that name is made of. -/
structure Env where
  file : Option Str
  name : Option Str
  home : Option Str
  realname : Option Str
  uid : Id
  gid : Id

/-- A passwd or group file.  `line` reads one line, of the entry of a given name if there is one to look
for. -/
structure Db (ε : Type) where
  line : Option Str → Str → Option ε
  nameOf : ε → Str
  /-- root or wheel -/
  root : ε
  /-- nobody or nogroup -/
  nobody : ε
  /-- the entry for the name in the environment -/
  own : Env → Str → ε
  /-- lines with another name are passed over -/
  line_name : ∀ name l, line (some name) l = (line none l).filter (fun e => nameOf e = name)

/-- The file pointer, as what is still to be read, and the variables of `struct user` beside it. -/
structure Cursor where
  fp : Option Str
  stayopen : Bool
  next : Id
  deriving DecidableEq, Repr

section

variable {ε : Type} (db : Db ε) (env : Env)

/-- What is in the file. -/
def Env.contents : Str := env.file.getD []

/-- `start_pw`, `start_gr` -/
def start (cur : Cursor) : Cursor × Bool :=
  match cur.fp with
  | some _ => ({ cur with fp := some env.contents }, true)
  | none =>
    match env.file with
    | some s => ({ cur with fp := some s }, true)
    | none => (cur, false)

/-- The loop of `pwscan` and `grscan`, with what is left of the file; `fuel` of them at most. -/
def scanLoop (name : Option Str) : Nat → Str → Option ε × Str
  | 0, s => (none, s)
  | fuel + 1, s =>
    match readLine s with
    | none => (none, s)
    | some (none, rest) => scanLoop name fuel rest
    | some (some line, rest) =>
      match db.line name line with
      | some e => (some e, rest)
      | none => scanLoop name fuel rest

/-- Every pass reads at least one character. -/
def scan (name : Option Str) (s : Str) : Option ε × Str := scanLoop db name (s.length + 1) s

/-- `endpwent`, `endgrent` -/
def endent (cur : Cursor) : Cursor := { cur with fp := none, next := 0 }

/-- `getpwnam`, `getgrnam` -/
def getnam (name : Str) (cur : Cursor) : Cursor × Option ε :=
  if name = db.nameOf db.nobody then (cur, some db.nobody)
  else
    match start env cur with
    | (cur, true) =>
      let found := scan db (some name) (cur.fp.getD [])
      let cur := { cur with fp := some found.2 }
      (if cur.stayopen then cur else endent cur, found.1)
    | (cur, false) =>
      if name = db.nameOf db.root then (cur, some db.root)
      else
        match env.name with
        | some own => (cur, if name = own then some (db.own env own) else none)
        | none => (cur, none)

/-- The `switch` in `getpwent` and `getgrent`. -/
def builtinEnt (cur : Cursor) : Cursor × Option ε :=
  if cur.next = 0 then ({ cur with next := 1 }, some db.root)
  else if cur.next = toId (-2) then ({ cur with next := toId (-1) }, some db.nobody)
  else if cur.next = toId (-1) then (cur, none)
  else
    match env.name with
    | some name => getnam db env name { cur with next := toId (-2) }
    | none => ({ cur with next := toId (-1) }, some db.nobody)

/-- `getpwent`, `getgrent` -/
def getent (cur : Cursor) : Cursor × Option ε :=
  let cur := if cur.fp.isSome then cur else (start env cur).1
  match cur.fp with
  | none => builtinEnt db env cur
  | some s =>
    match scan db none s with
    | (some e, rest) => ({ cur with fp := some rest }, some e)
    | (none, rest) => builtinEnt db env { cur with fp := some rest }

/-- `setpassent`, `setgroupent` -/
def setpassent (stayopen : Bool) (cur : Cursor) : Cursor :=
  let started := start env cur
  { started.1 with stayopen := if started.2 then stayopen else started.1.stayopen, next := 0 }

/-- `setpwent`, `setgrent` -/
def setent (cur : Cursor) : Cursor := setpassent env false cur

end

/-! ## The passwd file -/

structure Passwd where
  name : Str
  passwd : Str
  uid : Id
  gid : Id
  gecos : Str
  dir : Str
  shell : Str
  deriving DecidableEq, Repr

def builtinRoot : Passwd :=
  ⟨"root".toList, [], 0, 0, "The Master of All Things".toList, "SYS:".toList, "sh".toList⟩

def builtinNobody : Passwd :=
  ⟨"nobody".toList, [], toId (-2), toId (-2), "The Anonymous One".toList, "T:".toList, "sh".toList⟩

/-- The fields of a line of `pwscan` after the name. -/
def pwfields (name : Str) (sep : List Char) (bp : Option Str) : Option Passwd := do
  let (passwd, bp) := strsep sep bp
  let (cp, bp) := strsep sep bp
  let uid ← cp
  let (cp, bp) := strsep sep bp
  let gid ← cp
  let (cp, bp) := strsep sep bp
  let gecos ← cp
  let (cp, bp) := strsep sep bp
  let dir ← cp
  let (cp, _) := strsep ['\n'] bp
  let shell ← cp
  return ⟨name, passwd.getD [], toId (atoi uid), toId (atoi gid), gecos, dir, shell⟩

/-- What both kinds of line begin with: the name, and whether it is the one looked for. -/
def named {ε : Type} (fields : Str → List Char → Option Str → Option ε) (name : Option Str) (line : Str) :
    Option ε :=
  let (tok, bp) := strsep (sepOf line) (some line)
  match tok with
  | none => none
  | some tok => if name ≠ none ∧ name ≠ some tok then none else fields tok (sepOf line) bp

theorem named_some {ε : Type} {fields : Str → List Char → Option Str → Option ε} {nameOf : ε → Str}
    (h : ∀ tok sep bp e, fields tok sep bp = some e → nameOf e = tok) (name : Str) (l : Str) :
    named fields (some name) l = (named fields none l).filter (fun e => nameOf e = name) := by
  simp only [named, strsep, ne_eq, reduceCtorEq, not_false_eq_true, true_and, Option.some.injEq,
    not_true_eq_false, false_and, if_false]
  generalize l.takeWhile (fun c => !(sepOf l).contains c) = tok
  generalize (match l.dropWhile (fun c => !(sepOf l).contains c) with
    | [] => none
    | _ :: rest => some rest) = bp
  cases hfields : fields tok (sepOf l) bp with
  | none => simp
  | some e =>
    have he := h tok _ _ e hfields
    by_cases hname : name = tok
    · simp [Option.filter, hname, he]
    · simp [Option.filter, hname, he, Ne.symm hname]

theorem pwfields_name (tok : Str) (sep : List Char) (bp : Option Str) (e : Passwd)
    (h : pwfields tok sep bp = some e) : e.name = tok := by
  simp only [pwfields, Option.bind_eq_bind, Option.bind_eq_some_iff, Option.pure_def, Option.some.injEq] at h
  obtain ⟨_, _, _, _, _, _, _, _, _, _, rfl⟩ := h
  rfl

def passwdDb : Db Passwd where
  line := named pwfields
  nameOf := Passwd.name
  root := builtinRoot
  nobody := builtinNobody
  own env name :=
    ⟨name, ['*'], env.uid, env.gid, env.realname.getD "Amiga User".toList, env.home.getD "SYS:".toList,
      "sh".toList⟩
  line_name := named_some pwfields_name

def setpwent (env : Env) (cur : Cursor) : Cursor := setent env cur
def endpwent (cur : Cursor) : Cursor := endent cur
def getpwnam (env : Env) (name : Str) (cur : Cursor) : Cursor × Option Passwd := getnam passwdDb env name cur
def getpwent (env : Env) (cur : Cursor) : Cursor × Option Passwd := getent passwdDb env cur

/-! ## The group file -/

structure Group where
  name : Str
  passwd : Str
  gid : Id
  mem : List Str
  deriving DecidableEq, Repr

def builtinWheel : Group := ⟨"wheel".toList, ['*'], 0, []⟩
def builtinNogroup : Group := ⟨"nogroup".toList, ['*'], toId (-2), []⟩

def maxgrp : Nat := 200

/-- The members, `n` of them at most. -/
def members : Nat → Option Str → List Str
  | 0, _ => []
  | n + 1, bp =>
    match strsep [',', ' ', '\n'] bp with
    | (none, _) => []
    | (some m, bp) => m :: members n bp

/-- The fields of a line of `grscan` after the name. -/
def grfields (name : Str) (sep : List Char) (bp : Option Str) : Option Group := do
  let (passwd, bp) := strsep sep bp
  let (cp, bp) := strsep sep bp
  let gid ← cp
  return ⟨name, passwd.getD [], toId (atoi gid), members (maxgrp - 1) bp⟩

theorem grfields_name (tok : Str) (sep : List Char) (bp : Option Str) (e : Group)
    (h : grfields tok sep bp = some e) : e.name = tok := by
  simp only [grfields, Option.bind_eq_bind, Option.bind_eq_some_iff, Option.pure_def, Option.some.injEq] at h
  obtain ⟨_, _, rfl⟩ := h
  rfl

def groupDb : Db Group where
  line := named grfields
  nameOf := Group.name
  root := builtinWheel
  nobody := builtinNogroup
  own env name := ⟨name, ['*'], env.gid, []⟩
  line_name := named_some grfields_name

def setgrent (env : Env) (cur : Cursor) : Cursor := setent env cur
def endgrent (cur : Cursor) : Cursor := endent cur
def getgrnam (env : Env) (name : Str) (cur : Cursor) : Cursor × Option Group := getnam groupDb env name cur
def getgrent (env : Env) (cur : Cursor) : Cursor × Option Group := getent groupDb env cur

def ngroupsMax : Nat := 16

/-- The loop of `initgroups`, with the group ids found so far; `fuel` calls of `getgrent` at most. -/
def initgroupsLoop (env : Env) (name : Str) (basegid : Int) :
    Nat → Cursor → List Id → Option (Cursor × List Id)
  | 0, _, _ => none
  | fuel + 1, cur, gidset =>
    match getgrent env cur with
    | (cur, none) => some (cur, gidset)
    | (cur, some gr) =>
      let gidset := if gr.gid ≠ toId basegid ∧ name ∈ gr.mem then gidset ++ [gr.gid] else gidset
      if gidset.length = ngroupsMax then some (cur, gidset)
      else initgroupsLoop env name basegid fuel cur gidset

/-- `initgroups` up to its call of `setgroups`: the ids for that, or EFAULT. -/
def initgroups (env : Env) (fuel : Nat) (name : Str) (basegid : Int) (cur : Cursor) :
    Option (Cursor × Option (List Id)) :=
  if basegid = -1 then some (cur, none)
  else
    match initgroupsLoop env name basegid fuel (setgrent env cur) [toId basegid, toId basegid] with
    | none => none
    | some (cur, gidset) => some (endgrent cur, some gidset)

end Ixemul.Userdb
