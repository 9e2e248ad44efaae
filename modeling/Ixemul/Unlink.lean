/-
# Ixemul.Unlink — what `unlink`, `chmod` and the last close of a file act on (unlink.c, chmod.c, __close.c).

An open file can neither be deleted nor have its protection set.  So `unlink` looks through the file table
for a file that was opened under the same name, and leaves it to the last close of that file to call
`unlink` again; `chmod` and the `open` that creates a file leave the mode there.  What is compared is the
text of the names, and the close goes by name again, in the directory of the process that closes.

AmigaDOS is a map from places to objects; its other answers are arguments of the calls.  Modes are not
translated to protection bits.  A call is one step.
-/
import Ixemul.Chroot

namespace Ixemul.Unlink

open Lib.Run
open Chroot (User checkRoot chdir)
open Ixemul.Path (ixToAdos)
open Function List

variable {D P : Type*} {n : Nat}

/-! ## AmigaDOS and the file table -/

/-- The directories, and the place an AmigaDOS name leads to from each. -/
structure Disk (D P : Type*) extends Chroot.Dos D where
  place : D → List Char → P

/-- An entry of the file table. -/
structure File where
  /-- `f_name` -/
  name : List Char
  count : Nat
  /-- the object that is open -/
  obj : Nat
  /-- history: `open` has created it -/
  created : Bool
  /-- a directory, read into memory -/
  isDir : Bool
  /-- `f_stb.st_mode` -/
  mode : Nat
  /-- FSDF_MODE -/
  dirty : Bool
  /-- FUNLINK -/
  funlink : Bool

structure Sys (D P : Type*) (n : Nat) where
  object : P → Option Nat
  prot : Nat → Nat
  /-- the number of the object that is created next -/
  next : Nat
  /-- the entries with `f_count` other than 0 -/
  tab : Fin n → Option File
  proc : Nat → User D
  /-- history: the objects that calls of `unlink` and `chmod` were about -/
  asked : List Nat

/-- Why AmigaDOS does not do something to an object that is there. -/
inductive Refusal where
  | deleteProtected
  | other

inductive IoErr where
  | notFound
  | refused (r : Refusal)

def adosName (u : User D) (name : List Char) : List Char := ixToAdos ⟨u.isRoot, u.useAmigaPaths⟩ name

namespace Sys

def setFile (y : Sys D P n) (i : Fin n) (f : Option File) : Sys D P n :=
  { y with tab := update y.tab i f }

def isNamed (y : Sys D P n) (name : List Char) (i : Fin n) : Bool :=
  match y.tab i with
  | some f => f.name == name
  | none => false

/-- The first entry that was opened under the name. -/
def openAs (y : Sys D P n) (name : List Char) : Option (Fin n) := (finRange n).find? (y.isNamed name)

/-- `fp->f_flags |= FUNLINK` -/
def flag (y : Sys D P n) (i : Fin n) : Sys D P n :=
  y.setFile i ((y.tab i).map fun f => { f with funlink := true })

def setProt (y : Sys D P n) (o mode : Nat) : Sys D P n := { y with prot := update y.prot o mode }

/-- The walk of `chmod`. -/
def mark (y : Sys D P n) (name : List Char) (mode : Nat) : Sys D P n :=
  { y with
    tab := fun i => (y.tab i).map fun f => if f.name = name then { f with mode, dirty := true } else f }

end Sys

section Calls

variable (disk : Disk D P)

def setProtection (mode : Nat) (reply : Option Refusal) (u : User D) (y : Sys D P n) (buf : List Char) :
    Sys D P n × Option IoErr :=
  match y.object (disk.place u.cwd buf) with
  | none => (y, some .notFound)
  | some o =>
    match reply with
    | some r => (y, some (.refused r))
    | none => (y.setProt o mode, none)

/-- A call to AmigaDOS that is made again with the name from `check_root` if nothing was found, with the
name it was last made with. -/
def viaRoot (call : List Char → Sys D P n × Option IoErr) (u : User D) (buf : List Char) :
    (Sys D P n × Option IoErr) × List Char :=
  match call buf with
  | (y, some .notFound) =>
    match checkRoot disk.toDos u.cwd buf with
    | some (c :: rest) => (call (c :: rest), c :: rest)
    | _ => ((y, some .notFound), buf)
  | r => (r, buf)

/-- The object that the name leads to from the current directory of the process. -/
def designated (y : Sys D P n) (u : User D) (name : List Char) : Option Nat :=
  match y.object (disk.place u.cwd (adosName u name)) with
  | some o => some o
  | none =>
    match checkRoot disk.toDos u.cwd (adosName u name) with
    | some (c :: rest) => y.object (disk.place u.cwd (c :: rest))
    | _ => none

/-! ## chmod, unlink, open and close -/

/-- Whether the call succeeds is the second component. -/
def chmod (y : Sys D P n) (u : User D) (name : List Char) (mode : Nat) (reply : Option Refusal) :
    Sys D P n × Bool :=
  match (viaRoot disk (setProtection disk mode reply u y) u (adosName u name)).1 with
  | (y, none) => (y.mark name mode, true)
  | (y, some _) => (y, false)

variable [DecidableEq P]

def deleteFile (reply : Option Refusal) (u : User D) (y : Sys D P n) (buf : List Char) :
    Sys D P n × Option IoErr :=
  match y.object (disk.place u.cwd buf) with
  | none => (y, some .notFound)
  | some _ =>
    match reply with
    | some r => (y, some (.refused r))
    | none => ({ y with object := update y.object (disk.place u.cwd buf) none }, none)

/-- The answers that `unlink` gets; `stMode` is the `st.st_mode` that it never sets. -/
structure Replies where
  delete : Option Refusal
  protect : Option Refusal
  again : Option Refusal
  stMode : Nat

/-- S_IWUSR -/
def sIwusr : Nat := 0o200

def unlink (y : Sys D P n) (u : User D) (name : List Char) (r : Replies) : Sys D P n × Bool :=
  match y.openAs name with
  | some i => (y.flag i, true)
  | none =>
    match viaRoot disk (deleteFile disk r.delete u y) u (adosName u name) with
    | ((y, none), _) => (y, true)
    | ((y, some (.refused .deleteProtected)), buf) =>
      match chmod disk y u name (r.stMode ||| sIwusr) r.protect with
      | (y, true) => ((deleteFile disk r.again u y buf).1, (deleteFile disk r.again u y buf).2.isNone)
      | (y, false) => (y, false)
    | ((y, some _), _) => (y, false)

/-- What comes of `stat` and Open: an error, a file, or a directory with its full name. -/
inductive OpenReply where
  | refused
  | file
  | dir (path : List Char)

/-- Where Open creates a file: the second name is tried if it does not find the directory of the first. -/
def newPlace (u : User D) (name : List Char) (above : Bool) : P :=
  match above, checkRoot disk.toDos u.cwd (adosName u name) with
  | true, some (c :: rest) => disk.place u.cwd (c :: rest)
  | _, _ => disk.place u.cwd (adosName u name)

/-- `open`, with the free entry that `falloc` has found; `mode` is `perms & ~u.u_cmask`. -/
def openFile (y : Sys D P n) (u : User D) (i : Fin n) (name : List Char) (creat excl : Bool) (mode : Nat)
    (reply : OpenReply) (above : Bool) : Sys D P n :=
  match y.tab i, designated disk y u name, reply with
  | none, some o, .dir path => y.setFile i (some ⟨path, 1, o, false, true, y.prot o, false, false⟩)
  | none, some o, .file =>
    if excl then y else y.setFile i (some ⟨name, 1, o, false, false, y.prot o, false, false⟩)
  | none, none, .file =>
    -- can't set permissions on an open file, so this has to be done by 'close'
    if creat then
      { y with
        object := update y.object (newPlace disk u name above) (some y.next)
        next := y.next + 1
        tab := update y.tab i (some ⟨name, 1, y.next, true, false, mode, true, false⟩) }
    else y
  | _, _, _ => y

/-- `__close`, and `__mclose` for directories.  What FSDF_OWNER and FSDF_UTIME leave to it is not modelled: it
calls `chown` and `utimes`, by the name again.  Of these `chown` begins with a `chmod` of the name, to the
mode that `lstat` has just found under it. -/
def close (y : Sys D P n) (u : User D) (i : Fin n) (r : Replies) : Sys D P n :=
  match y.tab i with
  | none => y
  | some f =>
    if f.count ≠ 1 then y.setFile i (some { f with count := f.count - 1 })
    else if f.isDir then y.setFile i none
    else if f.funlink then (unlink disk (y.setFile i none) u f.name r).1
    else if f.dirty then (chmod disk (y.setFile i none) u f.name f.mode r.protect).1
    else y.setFile i none

/-! ## Runs -/

inductive Op (n : Nat) where
  | openFile (p : Nat) (i : Fin n) (name : List Char) (creat excl : Bool) (mode : Nat) (reply : OpenReply)
      (above : Bool)
  | chdir (p : Nat) (notDir : Bool) (path : List Char)
  | chmod (p : Nat) (name : List Char) (mode : Nat) (reply : Option Refusal)
  | unlink (p : Nat) (name : List Char) (r : Replies)
  /-- `dup`, or a child that inherits the descriptor -/
  | dup (i : Fin n)
  | close (p : Nat) (i : Fin n) (r : Replies)

variable [DecidableEq D]

/-- A call is about this object. -/
def Sys.ask (y : Sys D P n) (o : Option Nat) : Sys D P n := { y with asked := o.toList ++ y.asked }

/-- What a call of process `p` comes to. -/
def run (y : Sys D P n) : Op n → Sys D P n
  | .openFile p i name creat excl mode reply above =>
    openFile disk y (y.proc p) i name creat excl mode reply above
  | .chdir p notDir path =>
    { y with proc := update y.proc p (chdir disk.toDos (y.proc p) notDir path).1 }
  | .chmod p name mode reply =>
    (chmod disk (y.ask (designated disk y (y.proc p) name)) (y.proc p) name mode reply).1
  | .unlink p name r => (unlink disk (y.ask (designated disk y (y.proc p) name)) (y.proc p) name r).1
  | .dup i => y.setFile i ((y.tab i).map fun f => { f with count := f.count + 1 })
  | .close p i r => close disk y (y.proc p) i r

/-- The object is deleted between the two states, or its protection is changed. -/
def Touched (y y' : Sys D P n) (o : Nat) : Prop :=
  (∃ p, y.object p = some o ∧ y'.object p ≠ some o) ∨ y'.prot o ≠ y.prot o

/-- The object that was created by the `open` of the descriptor that is closed. -/
def createdBy (y : Sys D P n) : Op n → Option Nat
  | .close _ i _ => (y.tab i).bind fun f => if f.created then some f.obj else none
  | _ => none

/-- Names agree: a file that `unlink` or `chmod` finds by its name has the object open which the name
leads to, and at a close that has something left to do the name leads to the object of that file, or to
nothing, as do the files it is found for.  A file that was created and has not been asked for is open
under its name only once. -/
def NamesAgree (y : Sys D P n) : Op n → Prop
  | .unlink p name _ => ∀ i ∈ y.openAs name, ∀ f ∈ y.tab i, f.isDir = false →
      designated disk y (y.proc p) name = some f.obj
  | .chmod p name _ _ => ∀ i, ∀ f ∈ y.tab i, f.isDir = false → f.name = name →
      designated disk y (y.proc p) name = some f.obj
  | .close p i _ => ∀ f ∈ y.tab i, f.count = 1 → f.isDir = false → f.funlink = true ∨ f.dirty = true →
      (∀ o ∈ designated disk y (y.proc p) f.name, o = f.obj) ∧
      ∀ j, j ≠ i → ∀ g ∈ y.tab j, g.isDir = false → g.name = f.name →
        g.obj = f.obj ∧ (f.funlink = true ∨ f.created = false)
  | _ => True

end Calls

/-! ## What the calls come to -/

section Cases

variable {disk : Disk D P} {y y' : Sys D P n} {u : User D} {name : List Char}

theorem viaRoot_cases {call : List Char → Sys D P n × Option IoErr}
    (hnone : ∀ buf, y.object (disk.place u.cwd buf) = none → call buf = (y, some .notFound))
    (hsome : ∀ buf, (y.object (disk.place u.cwd buf)).isSome → (call buf).2 ≠ some .notFound) :
    (designated disk y u name = none ∧ (viaRoot disk call u (adosName u name)).1 = (y, some .notFound)) ∨
    ∃ o buf, designated disk y u name = some o ∧ y.object (disk.place u.cwd buf) = some o ∧
      viaRoot disk call u (adosName u name) = (call buf, buf) := by
  unfold designated viaRoot
  cases hobj : y.object (disk.place u.cwd (adosName u name)) with
  | some o =>
    have hcall := hsome (adosName u name) (by rw [hobj]; rfl)
    refine .inr ⟨o, adosName u name, rfl, hobj, ?_⟩
    split
    · next hnot => exact absurd (congrArg Prod.snd hnot) hcall
    · rfl
  | none =>
    rw [hnone _ hobj]
    cases hroot : checkRoot disk.toDos u.cwd (adosName u name) with
    | none => exact .inl ⟨rfl, rfl⟩
    | some buf =>
      cases buf with
      | nil => exact .inl ⟨rfl, rfl⟩
      | cons c rest =>
        cases hobj' : y.object (disk.place u.cwd (c :: rest)) with
        | none => exact .inl ⟨hobj', hnone _ hobj'⟩
        | some o => exact .inr ⟨o, c :: rest, hobj', hobj', rfl⟩

theorem chmod_cases (disk : Disk D P) (y : Sys D P n) (u : User D) (name : List Char) (mode : Nat)
    (reply : Option Refusal) :
    chmod disk y u name mode reply = (y, false) ∨ ∃ o, designated disk y u name = some o ∧
      chmod disk y u name mode reply = ((y.setProt o mode).mark name mode, true) := by
  have hvia := @viaRoot_cases D P n disk y u name (setProtection disk mode reply u y)
    (fun buf h => by simp only [setProtection, h])
    (fun buf h => by
      obtain ⟨o, ho⟩ := Option.isSome_iff_exists.mp h
      cases reply <;> simp [setProtection, ho])
  rcases hvia with ⟨-, hv⟩ | ⟨o, buf, hd, ho, hv⟩
  · left
    simp only [chmod, hv]
  · cases reply with
    | some =>
      left
      simp only [chmod, hv, setProtection, ho]
    | none =>
      refine .inr ⟨o, hd, ?_⟩
      simp only [chmod, hv, setProtection, ho]

theorem newPlace_empty (h : designated disk y u name = none) (above : Bool) :
    y.object (newPlace disk u name above) = none := by
  unfold designated at h
  split at h
  · cases h
  · next hfirst =>
    unfold newPlace
    split
    · next hroot =>
      rw [hroot] at h
      exact h
    · exact hfirst

/-- Between the two states nothing else is touched than one object, and no file. -/
structure OnlyTouches (y y' : Sys D P n) (d : Option Nat) : Prop where
  tab : y'.tab = y.tab
  asked : y'.asked = y.asked
  touched : ∀ o, Touched y y' o → d = some o

theorem not_touched {o : Nat} (hobject : y'.object = y.object) (hprot : y'.prot = y.prot) :
    ¬ Touched y y' o := by
  rintro (⟨p, hp, hp'⟩ | h)
  · rw [hobject] at hp'
    exact hp' hp
  · rw [hprot] at h
    exact h rfl

theorem OnlyTouches.refl (y : Sys D P n) (d : Option Nat) : OnlyTouches y y d :=
  ⟨rfl, rfl, fun _ h => absurd h (not_touched rfl rfl)⟩

theorem OnlyTouches.trans {y'' : Sys D P n} {d : Option Nat} (h : OnlyTouches y y' d)
    (h' : OnlyTouches y' y'' d) :
    OnlyTouches y y'' d where
  tab := h'.tab.trans h.tab
  asked := h'.asked.trans h.asked
  touched := by
    rintro o (⟨p, hp, hp''⟩ | hprot)
    · by_cases hp' : y'.object p = some o
      · exact h'.touched o (.inl ⟨p, hp', hp''⟩)
      · exact h.touched o (.inl ⟨p, hp, hp'⟩)
    · by_cases hprot' : y'.prot o = y.prot o
      · exact h'.touched o (.inr (hprot' ▸ hprot))
      · exact h.touched o (.inr hprot')

theorem onlyTouches_prot (y : Sys D P n) (o mode : Nat) : OnlyTouches y (y.setProt o mode) (some o) where
  tab := rfl
  asked := rfl
  touched := by
    rintro o' (⟨p, hp, hp'⟩ | hprot)
    · exact absurd hp hp'
    · by_cases ho : o' = o
      · rw [ho]
      · exact absurd (update_of_ne ho ..) hprot

theorem openAs_eq_none (h : y.openAs name = none) (i : Fin n) : ∀ f ∈ y.tab i, f.name ≠ name := by
  intro f hf hname
  have := find?_eq_none.mp h i (mem_finRange i)
  simp [Sys.isNamed, Option.mem_def.mp hf, hname] at this

theorem openAs_eq_some {i : Fin n} (h : y.openAs name = some i) : ∃ f, y.tab i = some f ∧ f.name = name := by
  have hnamed := find?_some h
  unfold Sys.isNamed at hnamed
  split at hnamed
  · next f hf => exact ⟨f, hf, by simpa using hnamed⟩
  · cases hnamed

theorem mark_eq_self (h : y.openAs name = none) (mode : Nat) : y.mark name mode = y := by
  have htab : (y.mark name mode).tab = y.tab := by
    funext i
    show (y.tab i).map _ = y.tab i
    cases hf : y.tab i with
    | none => rfl
    | some f => simp [openAs_eq_none h i f hf]
  show { y with tab := (y.mark name mode).tab } = y
  rw [htab]

theorem onlyTouches_chmod (h : y.openAs name = none) (mode : Nat) (reply : Option Refusal) :
    OnlyTouches y (chmod disk y u name mode reply).1 (designated disk y u name) := by
  rcases chmod_cases disk y u name mode reply with heq | ⟨o, hd, heq⟩
  · rw [heq]
    exact .refl y _
  · rw [heq, hd, @mark_eq_self D P n (y.setProt o mode) name h]
    exact onlyTouches_prot y o mode

theorem chmod_object (disk : Disk D P) (y : Sys D P n) (u : User D) (name : List Char) (mode : Nat)
    (reply : Option Refusal) : (chmod disk y u name mode reply).1.object = y.object := by
  rcases chmod_cases disk y u name mode reply with heq | ⟨o, -, heq⟩
  · rw [heq]
  · rw [heq]
    rfl

variable [DecidableEq P]

theorem onlyTouches_deleteFile {buf : List Char} {o : Nat} (reply : Option Refusal)
    (ho : y.object (disk.place u.cwd buf) = some o) :
    OnlyTouches y (deleteFile disk reply u y buf).1 (some o) := by
  cases reply with
  | some =>
    simp only [deleteFile, ho]
    exact .refl y _
  | none =>
    simp only [deleteFile, ho]
    refine ⟨rfl, rfl, ?_⟩
    rintro o' (⟨p, hp, hp'⟩ | hprot)
    · by_cases hplace : p = disk.place u.cwd buf
      · rw [hplace, ho] at hp
        exact hp
      · exact absurd ((update_of_ne hplace ..).trans hp) hp'
    · exact absurd rfl hprot

theorem unlink_cases (disk : Disk D P) (y : Sys D P n) (u : User D) (name : List Char) (r : Replies) :
    (∃ i, y.openAs name = some i ∧ unlink disk y u name r = (y.flag i, true)) ∨
      OnlyTouches y (unlink disk y u name r).1 (designated disk y u name) := by
  cases hopen : y.openAs name with
  | some i =>
    refine .inl ⟨i, rfl, ?_⟩
    simp only [unlink, hopen]
  | none =>
    right
    have hvia := @viaRoot_cases D P n disk y u name (deleteFile disk r.delete u y)
      (fun buf h => by simp only [deleteFile, h])
      (fun buf h => by
        obtain ⟨o, ho⟩ := Option.isSome_iff_exists.mp h
        cases r.delete <;> simp [deleteFile, ho])
    rcases hvia with ⟨-, hv⟩ | ⟨o, buf, hd, ho, hv⟩
    · obtain ⟨buf, hpair⟩ : ∃ buf, viaRoot disk (deleteFile disk r.delete u y) u (adosName u name) =
          ((y, some .notFound), buf) := ⟨_, Prod.ext hv rfl⟩
      simp only [unlink, hopen, hpair]
      exact .refl y _
    · have hdelete := onlyTouches_deleteFile r.delete ho
      rw [hd]
      simp only [unlink, hopen, hv]
      cases hreply : r.delete with
      | none =>
        simp only [hreply, deleteFile, ho] at hdelete ⊢
        exact hdelete
      | some refusal =>
        cases refusal with
        | other =>
          simp only [deleteFile, ho]
          exact .refl y _
        | deleteProtected =>
          simp only [deleteFile, ho]
          have hchmod := @onlyTouches_chmod D P n disk y u name hopen (r.stMode ||| sIwusr) r.protect
          have hobject := chmod_object disk y u name (r.stMode ||| sIwusr) r.protect
          rw [hd] at hchmod
          rcases hres : chmod disk y u name (r.stMode ||| sIwusr) r.protect with ⟨z, ok⟩
          rw [hres] at hchmod hobject
          cases ok with
          | false => exact hchmod
          | true =>
            have hz : z.object (disk.place u.cwd buf) = some o := by
              rw [hobject]
              exact ho
            exact hchmod.trans (onlyTouches_deleteFile r.again hz)

end Cases

/-! ## The invariant -/

/-- What is left to the close of the file is about an object that was asked for, or created by its `open`. -/
def File.Settled (asked : List Nat) (f : File) : Prop :=
  f.isDir = false → (f.funlink = true → f.obj ∈ asked) ∧ (f.dirty = true → f.obj ∈ asked ∨ f.created = true)

def Inv (y : Sys D P n) : Prop := ∀ i, ∀ f ∈ y.tab i, f.Settled y.asked

section Invariant

variable {y y' : Sys D P n} {i : Fin n} {name : List Char}

theorem Inv.of_eq (h : Inv y) (htab : y'.tab = y.tab) (hasked : y'.asked = y.asked) : Inv y' := by
  intro i f hf
  rw [htab] at hf
  rw [hasked]
  exact h i f hf

theorem Inv.ask (h : Inv y) (o : Option Nat) : Inv (y.ask o) := by
  intro i f hf hdir
  obtain ⟨hunlink, hdirty⟩ := h i f hf hdir
  exact ⟨fun hu => mem_append_right _ (hunlink hu),
    fun hd => (hdirty hd).imp_left (mem_append_right _)⟩

theorem mem_ask {o : Nat} {d : Option Nat} (h : d = some o) : o ∈ (y.ask d).asked := by
  rw [h]
  exact mem_cons_self

theorem Inv.setProt (h : Inv y) (o mode : Nat) : Inv (y.setProt o mode) := h.of_eq rfl rfl

theorem Inv.setFile (h : Inv y) {f : Option File} (hf : ∀ g ∈ f, g.Settled y.asked) :
    Inv (y.setFile i f) := by
  have hall : ∀ j, ∀ g ∈ update y.tab i f j, g.Settled y.asked :=
    (forall_update_iff y.tab fun _ f => ∀ g ∈ f, g.Settled y.asked).mpr ⟨hf, fun j _ => h j⟩
  exact hall

/-- `unlink` finds a file whose object was asked for. -/
theorem Inv.flag (h : Inv y) (hi : ∀ f ∈ y.tab i, f.isDir = false → f.obj ∈ y.asked) : Inv (y.flag i) := by
  refine h.setFile fun g hg hdir => ?_
  obtain ⟨f, hf, rfl⟩ := Option.mem_map.mp hg
  exact ⟨fun _ => hi f hf hdir, (h i f hf hdir).2⟩

/-- `chmod` finds files whose objects were asked for. -/
theorem Inv.mark (h : Inv y) (mode : Nat)
    (hname : ∀ i, ∀ f ∈ y.tab i, f.isDir = false → f.name = name → f.obj ∈ y.asked) :
    Inv (y.mark name mode) := by
  intro i g hg
  obtain ⟨f, hf, rfl⟩ := Option.mem_map.mp hg
  by_cases heq : f.name = name
  · rw [if_pos heq]
    exact fun hdir => ⟨(h i f hf hdir).1, fun _ => .inl (hname i f hf hdir heq)⟩
  · rw [if_neg heq]
    exact h i f hf

end Invariant

/-! ## One step -/

section Steps

variable {disk : Disk D P} {y y' : Sys D P n}

/-- A step keeps the invariant and touches only what was asked for, or created by the `open` of the file. -/
def Keeps (y y' : Sys D P n) (created : Option Nat) : Prop :=
  Inv y' ∧ ∀ o, Touched y y' o → o ∈ y'.asked ∨ created = some o

theorem Keeps.of_none (h : Keeps y y' none) (created : Option Nat) : Keeps y y' created :=
  ⟨h.1, fun o ho => .inl ((h.2 o ho).resolve_right (by simp))⟩

theorem Inv.keeps (h : Inv y') (hobject : y'.object = y.object) (hprot : y'.prot = y.prot)
    (created : Option Nat) : Keeps y y' created :=
  ⟨h, fun _ ho => absurd ho (not_touched hobject hprot)⟩

theorem keeps_chmod (h : Inv y) (u : User D) (name : List Char) (mode : Nat) (reply : Option Refusal)
    (hmeets : ∀ i, ∀ f ∈ y.tab i, f.isDir = false → f.name = name → designated disk y u name = some f.obj) :
    Keeps y (chmod disk (y.ask (designated disk y u name)) u name mode reply).1 none := by
  have hask := h.ask (designated disk y u name)
  rcases chmod_cases disk (y.ask (designated disk y u name)) u name mode reply with heq | ⟨o, hd, heq⟩
  · rw [heq]
    exact hask.keeps rfl rfl _
  · rw [heq]
    constructor
    · exact (hask.setProt o mode).mark mode
        fun i f hf hdir hname => mem_ask (hmeets i f hf hdir hname)
    · intro o' ho'
      have honly : some o = some o' := (onlyTouches_prot y o mode).touched o' ho'
      exact .inl (mem_ask (hd.trans honly))

variable [DecidableEq P]

theorem keeps_open (h : Inv y) (u : User D) (i : Fin n) (name : List Char) (creat excl : Bool) (mode : Nat)
    (reply : OpenReply) (above : Bool) :
    Keeps y (openFile disk y u i name creat excl mode reply above) none := by
  have hold : ∀ f : File, f.funlink = false → f.dirty = false → Keeps y (y.setFile i (some f)) none := by
    intro f hunlink hdirty
    refine Inv.keeps (h.setFile fun g hg _ => ?_) rfl rfl _
    cases Option.mem_some_iff.mp hg
    simp [hunlink, hdirty]
  fun_cases openFile disk y u i name creat excl mode reply above with
  | case1 | case3 => exact hold _ rfl rfl
  | case4 hdes =>
    constructor
    · have hnew : Inv (y.setFile i (some ⟨name, 1, y.next, true, false, mode, true, false⟩)) := by
        refine h.setFile fun g hg _ => ?_
        cases Option.mem_some_iff.mp hg
        exact ⟨fun hu => Bool.noConfusion hu, fun _ => .inr rfl⟩
      exact hnew.of_eq rfl rfl
    · rintro o (⟨p, hp, hp'⟩ | hprot)
      · by_cases hplace : p = newPlace disk u name above
        · rw [hplace, newPlace_empty hdes above] at hp
          cases hp
        · exact absurd ((update_of_ne hplace ..).trans hp) hp'
      · exact absurd rfl hprot
  | _ => exact h.keeps rfl rfl _

theorem keeps_unlink (h : Inv y) (u : User D) (name : List Char) (r : Replies)
    (hmeets : ∀ i ∈ y.openAs name, ∀ f ∈ y.tab i, f.isDir = false → designated disk y u name = some f.obj) :
    Keeps y (unlink disk (y.ask (designated disk y u name)) u name r).1 none := by
  have hask := h.ask (designated disk y u name)
  rcases unlink_cases disk (y.ask (designated disk y u name)) u name r with ⟨i, hi, heq⟩ | honly
  · rw [heq]
    exact Inv.keeps (hask.flag fun f hf hdir => mem_ask (hmeets i hi f hf hdir)) rfl rfl _
  · refine ⟨hask.of_eq honly.tab honly.asked, fun o ho => .inl ?_⟩
    rw [honly.asked]
    exact mem_ask (honly.touched o ho)

theorem keeps_close (h : Inv y) (u : User D) (i : Fin n) (r : Replies) {f : File} (hf : y.tab i = some f)
    (hdir : f.isDir = false)
    (hname : ∀ o ∈ designated disk y u f.name, o = f.obj)
    (hothers : ∀ j, j ≠ i → ∀ g ∈ y.tab j, g.isDir = false → g.name = f.name →
      g.obj = f.obj ∧ (f.funlink ∨ f.created = false)) :
    (f.funlink → Keeps y (unlink disk (y.setFile i none) u f.name r).1 none) ∧
    (f.funlink = false → f.dirty → Keeps y (chmod disk (y.setFile i none) u f.name f.mode r.protect).1
      (if f.created then some f.obj else none)) := by
  have hfree : Inv (y.setFile i none) := h.setFile fun g hg => absurd hg (Option.not_mem_none g)
  obtain ⟨hunlink, hdirty⟩ := h i f hf hdir
  -- a file that is found is another one
  have hothers' : ∀ j, ∀ g ∈ (y.setFile i none).tab j, g.isDir = false → g.name = f.name →
      g.obj = f.obj ∧ (f.funlink ∨ f.created = false) :=
    (forall_update_iff y.tab fun _ f' => ∀ g ∈ f', g.isDir = false → g.name = f.name →
      g.obj = f.obj ∧ (f.funlink ∨ f.created = false)).mpr
        ⟨fun g hg => absurd hg (Option.not_mem_none g), hothers⟩
  constructor
  · intro hfun
    have hasked := hunlink hfun
    rcases unlink_cases disk (y.setFile i none) u f.name r with ⟨j, hj, heq⟩ | honly
    · rw [heq]
      refine Inv.keeps (hfree.flag fun g hg hgdir => ?_) rfl rfl _
      obtain ⟨g', hg', hnamed⟩ := openAs_eq_some hj
      obtain rfl : g' = g := Option.some.inj (hg'.symm.trans hg)
      rw [(hothers' j g' hg hgdir hnamed).1]
      exact hasked
    · refine ⟨hfree.of_eq honly.tab honly.asked, fun o ho => .inl ?_⟩
      rw [honly.asked, hname o (honly.touched o ho)]
      exact hasked
  · intro hfun hdir'
    rcases chmod_cases disk (y.setFile i none) u f.name f.mode r.protect with heq | ⟨o, hd, heq⟩
    · rw [heq]
      exact hfree.keeps rfl rfl _
    · rw [heq]
      constructor
      · refine (hfree.setProt o f.mode).mark f.mode fun j g hg hgdir hnamed => ?_
        obtain ⟨hobj, hcreated⟩ := hothers' j g hg hgdir hnamed
        have hnew : f.created = false := hcreated.resolve_left (by simp [hfun])
        rw [hobj]
        exact (hdirty hdir').resolve_right (by simp [hnew])
      · intro o' ho'
        have honly : some o = some o' := (onlyTouches_prot y o f.mode).touched o' ho'
        have hself : o' = f.obj := hname o' (hd.trans honly)
        rw [hself]
        refine (hdirty hdir').imp id fun hcreated => ?_
        rw [if_pos hcreated]

variable [DecidableEq D]

theorem keeps_run (h : Inv y) (op : Op n) (hmeets : NamesAgree disk y op) :
    Keeps y (run disk y op) (createdBy y op) := by
  cases op with
  | openFile => exact keeps_open h _ _ _ _ _ _ _ _
  | chdir => exact Inv.keeps (h.of_eq rfl rfl) rfl rfl _
  | chmod p name mode reply => exact keeps_chmod h _ name mode reply hmeets
  | unlink p name r => exact keeps_unlink h _ name r hmeets
  | dup i =>
    refine Inv.keeps (h.setFile fun g hg => ?_) rfl rfl _
    obtain ⟨f, hf, rfl⟩ := Option.mem_map.mp hg
    exact h i f hf
  | close p i r =>
    cases hf : y.tab i with
    | none =>
      simp only [run, close, hf]
      exact h.keeps rfl rfl _
    | some f =>
      have hfree : Keeps y (y.setFile i none) (createdBy y (.close p i r)) :=
        Inv.keeps (h.setFile fun g hg => absurd hg (Option.not_mem_none g)) rfl rfl _
      have hcreated : createdBy y (.close p i r) = if f.created then some f.obj else none := by
        simp only [createdBy, hf, Option.bind_some]
      simp only [run, close, hf]
      split_ifs with hcount hdir hfun hdirty
      · refine Inv.keeps (h.setFile fun g hg => ?_) rfl rfl _
        cases Option.mem_some_iff.mp hg
        exact h i f hf
      · exact hfree
      · obtain ⟨hname, hothers⟩ := hmeets f hf (not_not.mp hcount) (by simpa using hdir) (.inl hfun)
        exact ((keeps_close h _ i r hf (by simpa using hdir) hname hothers).1 hfun).of_none _
      · obtain ⟨hname, hothers⟩ := hmeets f hf (not_not.mp hcount) (by simpa using hdir) (.inr hdirty)
        rw [hcreated]
        exact (keeps_close h _ i r hf (by simpa using hdir) hname hothers).2 (by simpa using hfun) hdirty
      · exact hfree

end Steps

/-! ## Runs -/

section Runs

variable [DecidableEq D] [DecidableEq P] {disk : Disk D P}

/-- No file is open, and the numbers of objects to be created are not in use. -/
structure Start (y : Sys D P n) : Prop where
  tab : ∀ i, y.tab i = none
  next : ∀ p, ∀ o ∈ y.object p, o < y.next

/-- **What is deleted was asked for**: in every run in which names agree, an object that a call deletes,
or whose protection it changes, is one that a call of `unlink` or `chmod`, this one or one before, was
about, or was created by the `open` of the file that is closed. -/
theorem touched_asked {y₀ : Sys D P n} (h₀ : Start y₀) (ops : List (Op n))
    (hmeets : ∀ x ∈ trace (run disk) y₀ ops, NamesAgree disk x.1 x.2) :
    ∀ x ∈ trace (run disk) y₀ ops, ∀ o, Touched x.1 (run disk x.1 x.2) o →
      o ∈ (run disk x.1 x.2).asked ∨ createdBy x.1 x.2 = some o := by
  have hstart : Inv y₀ := by
    intro i f hf
    rw [h₀.tab i] at hf
    cases hf
  have hrun : History (fun s a t => True ∧ t = run disk s a) y₀ ([] ++ trace (run disk) y₀ ops)
      (ops.foldl (run disk) y₀) := (History.nil y₀).trace ops fun _ _ => trivial
  have hstep : ∀ (y : Sys D P n) op y', Inv y → NamesAgree disk y op → (True ∧ y' = run disk y op) →
      Inv y' ∧ ∀ o, Touched y (run disk y op) o → o ∈ (run disk y op).asked ∨ createdBy y op = some o := by
    rintro y op _ hy hagree ⟨-, rfl⟩
    exact keeps_run hy op hagree
  exact hrun.forall_steps hstep hstart hmeets

/-! Two directories, with a file x in each. -/

def twoDirs : Disk Bool (Bool × List Char) where
  parent := fun _ => none
  depth := fun _ => 0
  depth_parent := fun h => by cases h
  dosLock := fun _ _ => .notFound
  nameFromLock := fun _ => none
  place := fun d buf => (d, buf)

/-- Processes 0 and 1 in these directories; x is object 0 in the first and object 1 in the second. -/
def twoProcs : Sys Bool (Bool × List Char) 2 where
  object := fun p => if p = (false, ['x']) then some 0 else if p = (true, ['x']) then some 1 else none
  prot := fun _ => 0
  next := 2
  tab := fun _ => none
  proc := fun p => ⟨p ≠ 0, false, false, []⟩
  asked := []

def granted : Replies := ⟨none, none, none, 0⟩

theorem start_twoProcs : Start twoProcs where
  tab _ := rfl
  next p o ho := by
    show o < 2
    simp only [twoProcs] at ho
    split_ifs at ho <;> cases ho
    · decide
    · decide

/-- Process 0 has its x open, and process `p` calls `unlink ("x")`. -/
def afterUnlink (p : Nat) : Sys Bool (Bool × List Char) 2 :=
  [Op.openFile 0 0 ['x'] false false 0 .file false, .unlink p ['x'] granted].foldl (run twoDirs) twoProcs

theorem touched_close (p : Nat)
    (h : (run twoDirs (afterUnlink p) (.close 0 0 granted)).object (false, ['x']) = none)
    (h' : (afterUnlink p).object (false, ['x']) = some 0) :
    Touched (afterUnlink p) (run twoDirs (afterUnlink p) (.close 0 0 granted)) 0 := by
  refine .inl ⟨(false, ['x']), h', ?_⟩
  rw [h]
  simp

/-- Process 0 calls it itself, and closes the file. -/
theorem touched_asked_own : Touched (afterUnlink 0) (run twoDirs (afterUnlink 0) (.close 0 0 granted)) 0 ∧
    0 ∈ (run twoDirs (afterUnlink 0) (.close 0 0 granted)).asked := by
  have htouched := touched_close 0 (by decide) (by decide)
  have hall := touched_asked start_twoProcs [Op.openFile 0 0 ['x'] false false 0 .file false,
    .unlink 0 ['x'] granted, .close 0 0 granted] ?_ (afterUnlink 0, .close 0 0 granted) ?_ 0 htouched
  · exact ⟨htouched, hall.resolve_right (by decide)⟩
  · simp only [trace, forall_mem_cons, NamesAgree]
    refine ⟨trivial, by decide, by decide, forall_mem_nil _⟩
  · exact mem_cons_of_mem _ (mem_cons_of_mem _ mem_cons_self)

/-- Process 1 calls it, in the other directory.  Its own x stays, and that of process 0 is deleted when it is
closed. -/
theorem unlink_deletes_other :
    (run twoDirs (afterUnlink 1) (.close 0 0 granted)).asked = [1] ∧
      createdBy (afterUnlink 1) (.close 0 0 granted) = none ∧
      Touched (afterUnlink 1) (run twoDirs (afterUnlink 1) (.close 0 0 granted)) 0 :=
  ⟨by decide, by decide, touched_close 1 (by decide) (by decide)⟩

end Runs

end Ixemul.Unlink
