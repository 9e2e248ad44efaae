/-
# Ixemul.Chroot — the current directory under a root of one's own (chdir.c, __lock.c, __open.c).

After `chroot`, `chdir` refuses to go above the directory in `u_root_directory`, and takes "/" for it.  It
recognises "/" as this one string, and holds only directories that AmigaDOS can lock against the root.  The
virtual root, which contains all volumes, is not one: `__lock` reports it by an error code, and `chdir` goes
there without a test; every other spelling of "/" leads there.  `chroot` looks its argument up a second
time, from inside the new directory, so for a relative path the root it keeps may be another one.

AmigaDOS is a forest of directories with the functions `Lock` and `NameFromLock`.
-/
import Mathlib.Tactic.FinCases
import Ixemul.Lib.Forest
import Ixemul.Path.Components
import Ixemul.Ptys

namespace Ixemul.Chroot

open Lib Lib.Run
open Ixemul.Path (ixToAdos)
open Ptys (isPseudoterminal)

variable {D : Type*} [DecidableEq D]

/-! ## AmigaDOS -/

/-- What `Lock` comes to; of its errors only ERROR_OBJECT_NOT_FOUND is told apart. -/
inductive Locked (D : Type*) where
  | dir (d : D)
  | notFound
  | failed

/-- The directories, with the `Lock` of a name from the current directory, and `NameFromLock`. -/
structure Dos (D : Type*) extends Forest D where
  dosLock : D → List Char → Locked D
  nameFromLock : D → Option (List Char)

/-- The name of a directory is not empty, and finds the directory from everywhere. -/
def Dos.Exact (dos : Dos D) : Prop :=
  ∀ d name, dos.nameFromLock d = some name → name ≠ [] ∧ ∀ cwd, dos.dosLock cwd name = .dir d

inductive SameLock where
  | same
  | sameVolume
  | different
  deriving DecidableEq

def Dos.sameLock (dos : Dos D) (lock1 lock2 : D) : SameLock :=
  if lock1 = lock2 then .same else if dos.root lock1 = dos.root lock2 then .sameVolume else .different

/-! ## __lock -/

/-- The fields of the user area.  `u_root_directory` is empty where there is no root. -/
structure User (D : Type*) where
  cwd : D
  isRoot : Bool
  useAmigaPaths : Bool
  rootDirectory : List Char

/-- What `__lock` comes to: a lock, or the error 6262, or another error. -/
inductive Found (D : Type*) where
  | dir (d : D)
  | virtualRoot
  | error
  deriving DecidableEq

/-- The loop of `check_root`: a parent for every '/', until there is none. -/
def rootLoop (dos : Dos D) : D → List Char → Bool × List Char
  | _, [] => (false, [])
  | dir, c :: name =>
    if c = '/' then
      match dos.parent dir with
      | none => (true, name)
      | some parent => rootLoop dos parent name
    else (false, c :: name)

/-- `check_root`: a name that goes above its volume is one of the virtual root, where its first component
is a volume. -/
def checkRoot (dos : Dos D) (cwd : D) (name : List Char) : Option (List Char) :=
  if name.head? = some '/' then
    let r := rootLoop dos cwd name
    let rest := r.2.dropWhile (· = '/')
    if r.1 = false then none
    else if rest = [] then some []
    else some (rest.takeWhile (· ≠ '/') ++ ':' :: (rest.dropWhile (· ≠ '/')).tail)
  else none

/-- `__lock`, from the AmigaDOS name on. -/
def lockAdos (dos : Dos D) (cwd : D) (buf : List Char) : Found D :=
  if buf.map Char.toLower = ['n', 'i', 'l', ':'] then .error
  else if isPseudoterminal buf ≠ 0 then .error
  else if buf = [':'] then .virtualRoot
  else
    match dos.dosLock cwd buf with
    | .dir d => .dir d
    | .failed => .error
    | .notFound =>
      match checkRoot dos cwd buf with
      | none => .error
      | some [] => .virtualRoot
      | some name =>
        match dos.dosLock cwd name with
        | .dir d => .dir d
        | _ => .error

def lock (dos : Dos D) (u : User D) (name : List Char) : Found D :=
  lockAdos dos u.cwd (ixToAdos ⟨u.isRoot, u.useAmigaPaths⟩ name)

/-! ## chdir and chroot -/

/-- `dirisparent`: 2 for the same directory, 1 if the first is above the second.  The last turn of the loop
compares with the NULL lock, which is none of these. -/
def dirisparent (dos : Dos D) (cwd : D) (name1 name2 : List Char) : Nat :=
  match dos.dosLock cwd name1, dos.dosLock cwd name2 with
  | .dir lock1, .dir lock2 =>
    match dos.sameLock lock1 lock2 with
    | .different => 0
    | .same => 2
    | .sameVolume => if dos.climb lock1 (dos.depth lock2) lock2 then 1 else 0
  | _, _ => 0

/-- What `errno` is after a `chdir` that failed: the value EACCES is overwritten with 0. -/
inductive Errno where
  | enotdir
  | zero
  | ioErr
  deriving DecidableEq

/-- The path that is looked up: "/" is the root directory, if there is one. -/
def User.chdirPath (u : User D) (path : List Char) : List Char :=
  if path = ['/'] ∧ u.rootDirectory ≠ [] then u.rootDirectory else path

/-- The lock becomes the current directory. -/
def User.enter (u : User D) (newlock : D) : User D := { u with cwd := newlock, isRoot := false }

/-- `notDir` says that `stat` finds something at the path which is no directory. -/
def chdir (dos : Dos D) (u : User D) (notDir : Bool) (path : List Char) : User D × Except Errno Unit :=
  if notDir then (u, .error .enotdir)
  else
    match lock dos u (u.chdirPath path) with
    | .virtualRoot => ({ u with isRoot := true }, .ok ())
    | .error => (u, .error .ioErr)
    | .dir newlock =>
      if u.rootDirectory = [] then (u.enter newlock, .ok ())
      else
        match dos.nameFromLock newlock with
        | none => (u, .error .zero)
        | some dir =>
          if dirisparent dos u.cwd dir u.rootDirectory = 1 then (u, .error .zero)
          else (u.enter newlock, .ok ())

/-- The value of `NameFromLock` is not looked at. -/
def chroot (dos : Dos D) (u : User D) (notDir : Bool) (dir : List Char) : User D × Bool :=
  match chdir dos u notDir dir with
  | (u, .error _) => (u, false)
  | (u, .ok _) =>
    match lock dos u dir with
    | .dir rootlock =>
      ({ u with rootDirectory := (dos.nameFromLock rootlock).getD u.rootDirectory }, true)
    | _ => (u, false)

/-! ## What chroot is for -/

section Confined

variable (dos : Dos D) (d : D)

/-- The current directory is not above `d`; the virtual root is above everything. -/
def Confined (u : User D) : Prop := u.isRoot = false ∧ ¬ dos.Above u.cwd d

/-- A call of `chdir`. -/
structure Call where
  notDir : Bool
  path : List Char

def Step (u : User D) (c : Call) (u' : User D) : Prop := u' = (chdir dos u c.notDir c.path).1

/-- The path does not lead to the virtual root. -/
def Regular (u : User D) (c : Call) : Prop :=
  c.notDir = false → lock dos u (u.chdirPath c.path) ≠ .virtualRoot

/-- What `chroot` finds: the directory `d`, and from there, for the same path, `d` again or a directory
below it that has a name. -/
structure KeepsRoot (u : User D) (path : List Char) : Prop where
  first : lock dos u (u.chdirPath path) = .dir d
  second : ∃ x, lock dos (u.enter d) path = .dir x ∧ (x = d ∨ dos.Above d x) ∧ (dos.nameFromLock x).isSome

end Confined

variable {dos : Dos D} {d x : D} {u : User D} {path : List Char}

theorem dirisparent_eq_one_iff {cwd a b : D} {name1 name2 : List Char} (h1 : dos.dosLock cwd name1 = .dir a)
    (h2 : dos.dosLock cwd name2 = .dir b) : dirisparent dos cwd name1 name2 = 1 ↔ dos.Above a b := by
  simp only [dirisparent, h1, h2, Dos.sameLock]
  by_cases hab : a = b
  · subst hab
    simp [Forest.not_above_self]
  · rw [if_neg hab]
    by_cases hroot : dos.root a = dos.root b
    · rw [if_pos hroot, ← Forest.climb_iff le_rfl]
      simp
    · rw [if_neg hroot]
      simp only [zero_ne_one, false_iff]
      exact fun h => hroot h.root_eq

theorem chdir_rootDirectory (u : User D) (notDir : Bool) (path : List Char) :
    (chdir dos u notDir path).1.rootDirectory = u.rootDirectory := by
  fun_cases chdir dos u notDir path <;> rfl

theorem confined_chdir_iff (hexact : dos.Exact)
    (hname : dos.nameFromLock x = some u.rootDirectory)
    (hx : x = d ∨ dos.Above d x) (hu : Confined dos d u) (c : Call) :
    Confined dos d (chdir dos u c.notDir c.path).1 ↔ Regular dos u c := by
  obtain ⟨hne, hroot⟩ := hexact x u.rootDirectory hname
  unfold Regular chdir
  cases hdir : c.notDir with
  | true => simpa using hu
  | false =>
    rw [if_neg Bool.false_ne_true]
    cases hlock : lock dos u (u.chdirPath c.path) with
    | virtualRoot => simp [Confined]
    | error => simpa using hu
    | dir newlock =>
      simp only [if_neg hne, ne_eq, reduceCtorEq, not_false_eq_true, implies_true, iff_true]
      cases hdirname : dos.nameFromLock newlock with
      | none => exact hu
      | some name =>
        have hnew := (hexact newlock name hdirname).2 u.cwd
        simp only
        split
        · exact hu
        · next hnot =>
          rw [dirisparent_eq_one_iff hnew (hroot u.cwd)] at hnot
          refine ⟨rfl, fun habove => hnot ?_⟩
          -- above `d` is above the root that was kept
          rcases hx with rfl | hx
          · exact habove
          · exact habove.trans hx

theorem chroot_spec {u₀ : User D} {notDir : Bool} (hkeeps : KeepsRoot dos d u₀ path)
    (hok : chroot dos u₀ notDir path = (u, true)) :
    Confined dos d u ∧ ∃ x, dos.nameFromLock x = some u.rootDirectory ∧ (x = d ∨ dos.Above d x) := by
  obtain ⟨x, hx, hbelow, hname⟩ := hkeeps.second
  obtain ⟨name, hname⟩ := Option.isSome_iff_exists.mp hname
  unfold chroot at hok
  split at hok
  · cases hok
  · next u₁ _ hchdir =>
    have hu₁ : u₁ = u₀.enter d := by
      unfold chdir at hchdir
      split at hchdir
      · cases hchdir
      rw [hkeeps.first] at hchdir
      simp only at hchdir
      split at hchdir
      · cases hchdir
        rfl
      split at hchdir
      · cases hchdir
      split at hchdir
      · cases hchdir
      · cases hchdir
        rfl
    rw [hu₁, hx] at hok
    simp only [hname] at hok
    cases hok
    exact ⟨⟨rfl, Forest.not_above_self⟩, x, hname, hbelow⟩

/-- **The root directory**: after a `chroot` that kept its directory, or one below it, a run of `chdir`
calls stays out of everything above that directory exactly if no call of it leads to the virtual root. -/
theorem confined_iff_regular (hexact : dos.Exact) {u₀ u y : User D} {notDir : Bool} {path : List Char}
    (hkeeps : KeepsRoot dos d u₀ path) (hok : chroot dos u₀ notDir path = (u, true))
    {tr : List (User D × Call)} (h : History (Step dos) u tr y) :
    ((∀ s ∈ tr, Confined dos d s.1) ∧ Confined dos d y) ↔ ∀ s ∈ tr, Regular dos s.1 s.2 := by
  obtain ⟨hconf, x, hname, hbelow⟩ := chroot_spec hkeeps hok
  -- `chdir` never changes the root
  have hkeep : ∀ s c t, dos.nameFromLock x = some s.rootDirectory → Step dos s c t →
      dos.nameFromLock x = some t.rootDirectory := by
    rintro s c t hs rfl
    rwa [chdir_rootDirectory]
  refine h.always_iff_of_invariant
    (I := fun s => dos.nameFromLock x = some s.rootDirectory ∧ Confined dos d s) (fun s hs => hs.2) ?_ ?_
    ⟨hname, hconf⟩
  · intro s c t hs hc hstep
    refine ⟨hkeep s c t hs.1 hstep, ?_⟩
    rw [hstep]
    exact (confined_chdir_iff hexact hs.1 hbelow hs.2 c).mpr hc
  · rintro s c t hs rfl ht
    exact (confined_chdir_iff hexact hs.1 hbelow hs.2 c).mp ht

/-! ## Other spellings of the root -/

theorem dosText_no_name {ws : List (List Char)} (hne : ws ≠ []) (h : ∀ w ∈ ws, Path.isName w = false) :
    Path.dosText true ws = [':'] := by
  induction ws with
  | nil => exact absurd rfl hne
  | cons w ws ih =>
    have hw := h w List.mem_cons_self
    by_cases hws : ws = []
    · subst hws
      simp [Path.dosText, Path.lastText, hw]
    · rw [Path.dosText_cons true w hws, Path.sepText, if_neg (by simp [hw]), if_neg (by simp), hw]
      exact ih hws fun v hv => h v (List.mem_cons_of_mem w hv)

theorem ixToAdos_slashes {u : Path.User} (hu : u.useAmigaPaths = false)
    (habs : path.head? = some '/') (hcolon : ':' ∉ path) (h : ∀ w ∈ Path.comps path, Path.isName w = false) :
    ixToAdos u path = [':'] := by
  have hrooted : Path.rooted u path := by simp [Path.rooted, habs]
  rw [ixToAdos, hu, if_neg Bool.false_ne_true, Path.adosBody_eq u hcolon, hrooted,
    dosText_no_name (Path.comps_ne_nil path) h]
  rfl

/-- `chdir` of such a path goes to the virtual root, whatever the root directory is; only the one spelling
that is recognised does not. -/
theorem chdir_slashes (dos : Dos D) (hu : u.useAmigaPaths = false)
    (hne : path ≠ ['/']) (habs : path.head? = some '/') (hcolon : ':' ∉ path)
    (h : ∀ w ∈ Path.comps path, Path.isName w = false) :
    chdir dos u false path = ({ u with isRoot := true }, .ok ()) := by
  have hpath : u.chdirPath path = path := if_neg fun hp => hne hp.1
  have hlock : lock dos u path = .virtualRoot := by
    rw [lock, ixToAdos_slashes hu habs hcolon h]
    rfl
  rw [chdir, if_neg Bool.false_ne_true, hpath, hlock]

/-! ## Runs -/

/-- A volume W with a directory j, and s in it. -/
def work : Dos (Fin 3) where
  parent := fun i => if i = 0 then none else if i = 1 then some 0 else some 1
  depth := fun i => i
  depth_parent := fun {i p} => by revert i p; decide
  dosLock := fun cwd name =>
    if name = ['W', ':'] then .dir 0
    else if name = ['W', ':', 'j'] then .dir 1
    else if name = ['W', ':', 'j', '/', 's'] then .dir 2
    else if name = ['/'] then (if cwd = 0 then .notFound else if cwd = 1 then .dir 0 else .dir 1)
    else .notFound
  nameFromLock := fun i =>
    if i = 0 then some ['W', ':'] else if i = 1 then some ['W', ':', 'j'] else some ['W', ':', 'j', '/', 's']

theorem exact_work : work.Exact := by
  intro i name h
  fin_cases i <;> cases h <;> exact ⟨by decide, fun _ => rfl⟩

def inVolume : User (Fin 3) := ⟨0, false, false, []⟩

/-- After `chroot("/W/j")`. -/
theorem chdir_slashes_dots :
    let u := (chroot work inVolume false ['/', 'W', '/', 'j']).1
    u.rootDirectory ≠ [] ∧
      chdir work u false ['/', '.', '.', '/', '.'] = ({ u with isRoot := true }, .ok ()) :=
  ⟨by decide, chdir_slashes work rfl (by decide) rfl (by decide) (by decide)⟩

/-- `chdir("..")` in the root directory is refused. -/
theorem confined_parent : Confined work 1
    (chdir work (chroot work inVolume false ['/', 'W', '/', 'j']).1 false ['.', '.']).1 := by
  have hkeeps : KeepsRoot work 1 inVolume ['/', 'W', '/', 'j'] :=
    ⟨by decide, 1, by decide, .inl rfl, rfl⟩
  have hrun := (History.nil (chroot work inVolume false ['/', 'W', '/', 'j']).1).snoc
    (show Step work _ ⟨false, ['.', '.']⟩ _ from rfl)
  have hiff := confined_iff_regular exact_work hkeeps
    (show chroot work inVolume false _ = (_, true) from rfl) hrun
  refine (hiff.mpr ?_).2
  simp only [List.nil_append, List.forall_mem_singleton]
  exact fun _ => by decide

/-- `chroot("/W/j")`, and `chdir("//")` goes to the virtual root.  `chroot("..")` in W:j/s goes to W:j and
keeps W: as the root; `chdir("..")` then goes to W:, which is above W:j. -/
theorem out_of_root :
    (∃ u, chroot work inVolume false ['/', 'W', '/', 'j'] = (u, true) ∧
      ∃ u', chdir work u false ['/', '/'] = (u', .ok ()) ∧ u'.isRoot = true) ∧
    ∃ u, chroot work ⟨2, false, false, []⟩ false ['.', '.'] = (u, true) ∧ u.cwd = 1 ∧
      ∃ u', chdir work u false ['.', '.'] = (u', .ok ()) ∧ work.Above u'.cwd 1 := by
  refine ⟨⟨_, rfl, _, rfl, rfl⟩, _, rfl, rfl, _, rfl, ?_⟩
  exact Relation.TransGen.single rfl

end Ixemul.Chroot
