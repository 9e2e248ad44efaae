/-
# Ixemul.Path.Buffer — how much of its buffer `ix_to_ados` writes (__open.c).

`ix_to_ados` translates a name into a buffer of `strlen(name) + 3` bytes, in the smallest case.  It writes
late (dots are counted and come out when it is clear what they are) and it writes a colon that was not in
the name. `check_root` then extends the result in place, again by a colon.

The functions are modelled here once more with their stores, each of which is logged.  What they leave in
the buffer is what `Path.Model` says, and the bound comes from there: a character that is written was read
before, except for one colon (`length_adosLoop_le`).
-/
import Ixemul.Lib.Buffer
import Ixemul.Path.Spelling

namespace Ixemul.Path

open Lib Lib.Logged Lib.Buffer
open List

/-! ## ix_to_ados with its stores -/

/-- The local variables, `p` as an index into `buf`. -/
structure Vars where
  p : Nat
  allowdot : Bool
  dotcnt : Nat
  root : Nat
  absados : Bool

def storeDots (v : Vars) : Writer Vars :=
  if v.dotcnt > 2 then do
    puts v.p (replicate v.dotcnt '.')
    pure { v with p := v.p + v.dotcnt, root := if v.root = 1 then 2 else v.root }
  else pure v

/-- The case for '/' and NUL. -/
def storeSeparator (v : Vars) (atNul : Bool) : Writer Vars := do
  let v ← storeDots v
  if v.root = 2 ∨ (v.root = 1 ∧ atNul) then do
    put v.p ':'
    pure { v with p := v.p + 1, root := 0 }
  else if (v.root = 0 ∧ v.absados = false) ∧
      (v.dotcnt = 2 ∨ ((v.dotcnt = 0 ∨ v.dotcnt > 2) ∧ atNul = false)) then do
    put v.p '/'
    pure { v with p := v.p + 1 }
  else pure v

/-- The case for '.'. -/
def storeDot (v : Vars) : Writer Vars :=
  if v.allowdot then pure { v with dotcnt := v.dotcnt + 1 }
  else do
    put v.p '.'
    pure { v with p := v.p + 1 }

/-- The case for every other character. -/
def storeChar (v : Vars) (c : Char) : Writer Vars := do
  puts v.p (replicate v.dotcnt '.')
  put (v.p + v.dotcnt) c
  pure ⟨v.p + v.dotcnt + 1, false, 0, if v.root = 1 then 2 else v.root, false⟩

/-- The loop `for (;;)`; `skip` as in `adosLoop`. -/
def storeLoop : Bool → List Char → Vars → Writer Vars
  | _, [], v => storeSeparator v true
  | skip, c :: q, v =>
    if c = '/' then
      if skip then storeLoop true q v
      else do
        let v ← storeSeparator v false
        storeLoop true q { v with allowdot := true, dotcnt := 0 }
    else if c = '.' then do
      let v ← storeDot v
      storeLoop false q v
    else do
      let v ← storeChar v c
      storeLoop false q v

/-- What precedes the loop, and the loop; a volume is copied with its colon. -/
def storeBody (u : User) (name : List Char) : Writer Vars :=
  let root := if u.isRoot then 1 else if name.head? = some '/' then 1 else 0
  let q := if u.isRoot = false ∧ name.head? = some '/' then name.tail else name
  match splitLastColon q with
  | some (before, after) => do
    let volume := volumeOf before ++ [':']
    puts 0 volume
    storeLoop false after ⟨volume.length, true, 0, 0, true⟩
  | none => storeLoop false q ⟨0, true, 0, root, false⟩

/-- The end of the text, less a lonely '/'. -/
def lonelyEnd (p : Nat) (b : Buf) : Nat :=
  if p > 2 ∧ b (p - 1) = '/' ∧ b (p - 2) ≠ '/' ∧ b (p - 2) ≠ ':' then p - 1 else p

/-- The names of devices, as `b` has them. -/
def storeDeviceOf (b : Buf) : Writer Unit :=
  if (chars b 0 9).map Char.toLower = ['c', 'o', 'n', 's', 'o', 'l', 'e', ':', nul] then puts 0 ['*', nul]
  else if chars b 0 4 = ['d', 'e', 'v', ':'] then
    if eqString b 4 ['t', 't', 'y'] then puts 0 ['*', nul]
    else if eqString b 4 ['n', 'u', 'l', 'l'] then puts 0 ['N', 'I', 'L', ':', nul]
    else if eqString b 4 ['r', 'a', 'n', 'd', 'o', 'm'] ∨ eqString b 4 ['u', 'r', 'a', 'n', 'd', 'o', 'm'] ∨
        eqString b 4 ['s', 'r', 'a', 'n', 'd', 'o', 'm'] ∨
        eqString b 4 ['p', 'r', 'a', 'n', 'd', 'o', 'm'] then
      puts 0 ['R', 'A', 'N', 'D', 'O', 'M', ':', nul]
    else if eqString b 4 ['z', 'e', 'r', 'o'] then puts 0 ['Z', 'E', 'R', 'O', ':', nul]
    else pure ()
  else pure ()

def storeDevice : Writer Unit := look id >>= storeDeviceOf

/-- `ix_to_ados(buf, name)`. -/
def storeIxToAdos (u : User) (name : List Char) : Writer Unit :=
  -- `strcpy`
  if u.useAmigaPaths then puts 0 (name ++ [nul])
  else do
    let v ← storeBody u name
    let p ← look (lonelyEnd v.p)
    put p nul
    storeDevice

/-! ## check_root -/

/-- The loop that goes up from the current directory, `depth` levels below the root of its volume: each
round takes a slash.  Its end: the index then, and whether the root was left. -/
def climb (b : Buf) : (depth i : Nat) → Nat × Bool
  | 0, i => (i + 1, true)
  | depth + 1, i => if b (i + 1) = '/' then climb b depth (i + 1) else (i + 1, false)

/-- What `check_root` comes to; there is no result if a search goes beyond `fuel` characters. -/
inductive Checked where
  | endless
  /-- NULL -/
  | null
  /-- a pointer into the buffer -/
  | at (i : Nat)
  deriving DecidableEq, Repr

/-- A colon at `p`, where the name ends. -/
def storeColon (b : Buf) (p : Nat) : Writer Unit :=
  if b p ≠ nul then put p ':'
  else do
    put p ':'
    put (p + 1) nul

/-- The name at `i`, behind the slashes, becomes a volume. -/
def makeVolume (fuel : Nat) (b : Buf) (i : Nat) : Writer Checked :=
  if b i = nul then pure (.at i)
  else
    match scan (fun c => c == nul || c == '/') b fuel (i + 1) with
    | none => pure .endless
    | some p => do
      storeColon b p
      pure (.at i)

/-- `check_root`, of a buffer with contents `b`. -/
def checkRootOf (fuel depth : Nat) (b : Buf) : Writer Checked :=
  if b 0 = '/' then
    match scan (· != '/') b fuel (climb b depth 0).1 with
    | none => pure .endless
    | some i => if (climb b depth 0).2 = false then pure .null else makeVolume fuel b i
  else pure .null

/-- `check_root(buf)`. -/
def checkRoot (fuel depth : Nat) : Writer Checked := look id >>= checkRootOf fuel depth

/-! ## What the loop writes, in numbers -/

section

variable {st st' : Dos} {skip atNul : Bool} {q name : List Char} {c : Char} {n : Nat} {s : List Char}
  {b : Buf} {depth i k fuel : Nat}

/-- The variables for the next component. -/
def nextComponent (st : Dos) : Dos := { st with allowdot := true, dotcnt := 0 }

/-- The colon that the loop still owes. -/
def owed (st : Dos) : Nat := if st.root = 0 then 0 else 1

theorem length_separate_nul (st : Dos) :
    (separate st true).out.length ≤ st.out.length + st.dotcnt + owed st := by
  unfold separate flushDots owed
  dsimp only
  split_ifs <;> simp_all <;> omega

theorem length_separate_slash (st : Dos) :
    (separate st false).out.length + owed (separate st false) ≤
      st.out.length + st.dotcnt + owed st + 1 := by
  unfold separate flushDots owed
  dsimp only
  split_ifs <;> simp_all <;> omega

theorem length_readDot (st : Dos) : (readDot st).out.length + (readDot st).dotcnt + owed (readDot st) =
    st.out.length + st.dotcnt + owed st + 1 := by
  unfold readDot owed
  split <;> simp <;> omega

theorem length_readChar (st : Dos) (c : Char) :
    (readChar st c).out.length + (readChar st c).dotcnt + owed (readChar st c) =
      st.out.length + st.dotcnt + owed st + 1 := by
  unfold readChar owed
  split_ifs <;> simp_all <;> omega

/-- **Every character that comes out was read, but for the colon that is owed.** -/
theorem length_adosLoop_le (skip : Bool) (q : List Char) (st : Dos) :
    (adosLoop skip q st).out.length ≤ st.out.length + st.dotcnt + owed st + q.length := by
  induction q generalizing skip st with
  | nil => exact length_separate_nul st
  | cons c q ih =>
    rw [adosLoop, length_cons]
    split_ifs
    · exact (ih true st).trans (by omega)
    · have hsep := length_separate_slash st
      have hrest := ih true (nextComponent (separate st false))
      have hout : (nextComponent (separate st false)).out = (separate st false).out := rfl
      have hdots : (nextComponent (separate st false)).dotcnt = 0 := rfl
      have howed : owed (nextComponent (separate st false)) = owed (separate st false) := rfl
      rw [hout, hdots, howed] at hrest
      exact hrest.trans (by omega)
    · have hdot := length_readDot st
      have hrest := ih false (readDot st)
      omega
    · have hchar := length_readChar st c
      have hrest := ih false (readChar st c)
      omega

/-- What the steps of the loop keep, the loop keeps. -/
theorem adosLoop_keeps {I : Dos → Prop} (hsep : ∀ st atNul, I st → I (separate st atNul))
    (hnext : ∀ st, I st → I (nextComponent st)) (hdot : ∀ st, I st → I (readDot st))
    (hchar : ∀ st, ∀ c ∈ q, c ≠ '/' → I st → I (readChar st c)) (h : I st) : I (adosLoop skip q st) := by
  induction q generalizing skip st with
  | nil => exact hsep st true h
  | cons c q ih =>
    have hrest : ∀ st, ∀ c ∈ q, c ≠ '/' → I st → I (readChar st c) :=
      fun st d hd => hchar st d (mem_cons_of_mem _ hd)
    rw [adosLoop]
    split_ifs with hslash
    · exact ih hrest h
    · exact ih hrest (hnext _ (hsep st false h))
    · exact ih hrest (hdot st h)
    · exact ih hrest (hchar st c mem_cons_self hslash h)

/-- The loop never takes a character back. -/
theorem length_adosLoop_ge (skip : Bool) (q : List Char) (st : Dos) :
    st.out.length ≤ (adosLoop skip q st).out.length := by
  refine adosLoop_keeps (I := fun st' => st.out.length ≤ st'.out.length) (fun st' atNul h => h.trans ?_)
    (fun _ => id) (fun st' h => h.trans ?_) (fun st' c _ _ h => h.trans ?_) le_rfl
  · unfold separate flushDots
    dsimp only
    split_ifs <;> simp
  · unfold readDot
    split <;> simp
  · simp [readChar]

/-- Behind a root the text does not begin with a slash, and while nothing has come out the colon is owed. -/
def Rooted (st : Dos) : Prop := st.out.head? ≠ some '/' ∧ (st.out = [] → st.root = 1)

theorem head?_append_ne {t : List Char} (hs : s.head? ≠ some '/') (ht : s = [] → t.head? ≠ some '/') :
    (s ++ t).head? ≠ some '/' := by
  cases s with
  | nil => exact ht rfl
  | cons => exact hs

theorem head?_replicate_ne (n : Nat) : (replicate n '.').head? ≠ some '/' := by
  cases n <;> simp [replicate_succ]

theorem Rooted.flushDots (h : Rooted st) : Rooted (flushDots st) := by
  unfold Path.flushDots
  split
  · rename_i hdots
    refine ⟨head?_append_ne h.1 fun _ => head?_replicate_ne _, fun hnil => ?_⟩
    have hlen := congrArg length hnil
    simp only [length_append, length_replicate, length_nil] at hlen
    omega
  · exact h

theorem Rooted.separate (h : Rooted st) (atNul : Bool) : Rooted (separate st atNul) := by
  have hflush := h.flushDots
  have hne (x : Char) : (Path.flushDots st).out ++ [x] = [] → (0 : Nat) = 1 := by
    intro hnil
    exact absurd hnil (append_ne_nil_of_right_ne_nil _ (cons_ne_nil _ _))
  unfold Path.separate
  dsimp only
  split_ifs with hcolon hslash
  · exact ⟨head?_append_ne hflush.1 fun _ => by simp, hne ':'⟩
  · refine ⟨head?_append_ne hflush.1 fun hnil => ?_, fun hnil => ?_⟩
    · -- a slash is written only after the colon
      have hroot := hflush.2 hnil
      omega
    · exact absurd (hne '/' hnil) Nat.zero_ne_one
  · exact hflush

theorem Rooted.adosLoop (h : Rooted st) (skip : Bool) (q : List Char) : Rooted (adosLoop skip q st) := by
  refine adosLoop_keeps (fun _ atNul h => h.separate atNul) (fun _ => id) (fun st h => ?_)
    (fun st c _ hslash h => ?_) h
  · unfold readDot
    split
    · exact h
    · exact ⟨head?_append_ne h.1 fun _ => by simp, fun hnil => by simp at hnil⟩
  · refine ⟨head?_append_ne (head?_append_ne h.1 fun _ => head?_replicate_ne _) fun _ => ?_, fun hnil => ?_⟩
    · simpa using hslash
    · simp [readChar] at hnil

/-! ## The whole text -/

theorem splitLastColon_some {before after : List Char} (h : splitLastColon q = some (before, after)) :
    q = before ++ ':' :: after := by
  fun_induction splitLastColon q generalizing before with
  | case2 c q before' after' hq ih =>
    cases h
    rw [cons_append, ← ih hq]
  | case3 =>
    cases h
    rfl
  | _ => cases h

theorem length_volumeOf_le (before : List Char) : (volumeOf before).length ≤ before.length := by
  rw [volumeOf, length_reverse]
  exact (takeWhile_sublist _).length_le.trans_eq length_reverse

/-- One character more than was read at most, and none more where a slash leads. -/
theorem length_adosBody (u : User) (name : List Char) : (adosBody u name).length ≤ name.length + 1 ∧
    ((adosBody u name).head? = some '/' → (adosBody u name).length ≤ name.length) := by
  have htail : name.head? = some '/' → name.tail.length + 1 = name.length := by
    intro h
    cases name with
    | nil => cases h
    | cons => simp
  unfold adosBody
  dsimp only
  split
  · -- with a colon, nothing is owed
    rename_i before after hsplit
    have hloop := length_adosLoop_le false after ⟨volumeOf before ++ [':'], true, 0, 0, true⟩
    have hvolume := length_volumeOf_le before
    have hlen := congrArg length (splitLastColon_some hsplit)
    have howed : owed ⟨volumeOf before ++ [':'], true, 0, 0, true⟩ = 0 := rfl
    simp only [length_append, length_cons, length_nil] at hloop hlen
    split_ifs at hlen with hslash
    · have := htail hslash.2
      omega
    · omega
  · have hloop (q : List Char) (root : Nat) : (adosLoop false q ⟨[], true, 0, root, false⟩).out.length ≤
        min root 1 + q.length := by
      refine (length_adosLoop_le false q _).trans ?_
      unfold owed
      split_ifs <;> simp_all
      omega
    by_cases hroot : u.isRoot
    · have hrooted : Rooted ⟨[], true, 0, 1, false⟩ := ⟨by simp, fun _ => rfl⟩
      have hle := hloop name 1
      simp only [hroot, Bool.true_eq_false, false_and, if_false, if_true]
      exact ⟨by omega, fun hslash => absurd hslash (hrooted.adosLoop false name).1⟩
    · by_cases hslash : name.head? = some '/'
      · have hle := hloop name.tail 1
        have := htail hslash
        simp only [hroot, hslash, and_self, if_true, Bool.false_eq_true, if_false]
        exact ⟨by omega, fun _ => by omega⟩
      · have hle := hloop name 0
        simp only [hroot, hslash, and_false, Bool.false_eq_true, if_false]
        exact ⟨by omega, fun _ => by omega⟩

theorem isPrefix_removeLonely (b : List Char) : removeLonely b <+: b := by
  rcases removeLonely_cases b with h | h
  · exact ⟨[], by rw [append_nil, h]⟩
  · exact ⟨['/'], h.symm⟩

theorem length_deviceName_le (b : List Char) : (deviceName b).length ≤ b.length := by
  have hdev : b.take 4 = ['d', 'e', 'v', ':'] → b.length = 4 + (b.drop 4).length := by
    intro h
    have hlen := congrArg length h
    simp only [length_take, length_cons, length_nil] at hlen
    rw [length_drop]
    omega
  unfold deviceName
  dsimp only
  split_ifs with hcon hpre htty hnull hrandom hzero
  · have hlen := congrArg length hcon
    simp only [length_map, length_cons, length_nil] at hlen ⊢
    omega
  · have := hdev hpre
    simp only [length_cons, length_nil]
    omega
  · have := hdev hpre
    simp only [length_cons, length_nil] at this ⊢
    omega
  · have := hdev hpre
    rcases hrandom with h | h | h | h <;> rw [h] at this <;>
      simp only [length_cons, length_nil] at this ⊢ <;> omega
  · have := hdev hpre
    rw [hzero] at this
    simp only [length_cons, length_nil] at this ⊢
    omega
  · exact le_rfl
  · exact le_rfl

theorem head?_deviceName {b : List Char} (h : (deviceName b).head? = some '/') : deviceName b = b := by
  rcases deviceName_cases b with heq | hmem
  · exact heq
  · have hnone : ∀ s ∈ specialNames, s.head? ≠ some '/' := by decide
    exact absurd h (hnone _ hmem)

/-- The same for the whole translation: the case of the slash leaves room for `check_root`. -/
theorem length_ixToAdos (u : User) (name : List Char) : (ixToAdos u name).length ≤ name.length + 1 ∧
    ((ixToAdos u name).head? = some '/' → (ixToAdos u name).length ≤ name.length) := by
  unfold ixToAdos
  split
  · exact ⟨by omega, fun _ => le_rfl⟩
  · obtain ⟨hle, hslash⟩ := length_adosBody u name
    have hlonely := (isPrefix_removeLonely (adosBody u name)).length_le
    have hdevice := length_deviceName_le (removeLonely (adosBody u name))
    refine ⟨by omega, fun hhead => ?_⟩
    rw [head?_deviceName hhead] at hhead
    obtain ⟨t, ht⟩ := isPrefix_removeLonely (adosBody u name)
    have := hslash (by rw [← ht, head?_append, hhead]; rfl)
    omega

/-! ## No NUL comes out -/

theorem nul_adosLoop (h : nul ∉ st.out) (hq : nul ∉ q) : nul ∉ (adosLoop skip q st).out := by
  have hdot : nul ≠ '.' := by decide
  have hcolon : nul ≠ ':' := by decide
  have hslash : nul ≠ '/' := by decide
  refine adosLoop_keeps (I := fun st => nul ∉ st.out) (fun st atNul h => ?_) (fun _ => id) (fun st h => ?_)
    (fun st c hc _ h => ?_) h
  · unfold separate flushDots
    dsimp only
    split_ifs <;> simp [h, hdot, hcolon, hslash]
  · unfold readDot
    split <;> simp [h, hdot]
  · have hne : nul ≠ c := fun heq => hq (heq ▸ hc)
    simp [readChar, h, hdot, hne]

theorem nul_adosBody (u : User) (h : nul ∉ name) : nul ∉ adosBody u name := by
  have hq : nul ∉ (if u.isRoot = false ∧ name.head? = some '/' then name.tail else name) := by
    split
    · exact fun hmem => h (mem_of_mem_tail hmem)
    · exact h
  unfold adosBody
  dsimp only
  split
  · rename_i before after hsplit
    rw [splitLastColon_some hsplit, mem_append, mem_cons, not_or, not_or] at hq
    obtain ⟨hbefore, hcolon, hafter⟩ := hq
    have hvolume : nul ∉ volumeOf before := by
      intro hmem
      rw [volumeOf, mem_reverse] at hmem
      exact hbefore (mem_reverse.mp (takeWhile_sublist _ |>.subset hmem))
    exact nul_adosLoop (by simp [hvolume, hcolon]) hafter
  · exact nul_adosLoop not_mem_nil hq

/-! ## The stores leave the text -/

/-- The variables that go with a state of `adosLoop`. -/
def varsOf (st : Dos) : Vars := ⟨st.out.length, st.allowdot, st.dotcnt, st.root, st.absados⟩

/-- From a buffer with the text of `st` the computation stores below `n` and leaves the text of `st'`. -/
def Stores (n : Nat) (st : Dos) (m : Writer Vars) (st' : Dos) : Prop :=
  Safe (· < n) (Holds st.out) m (fun v b => v = varsOf st' ∧ Holds st'.out b)

theorem stores_pure : Stores n st (pure (varsOf st)) st := Safe.pure (fun _ hb => ⟨rfl, hb⟩)

/-- Stores one after the other. -/
theorem Stores.bind {m : Writer Vars} {α : Type} {f : Vars → Writer α} {post : α → Buf → Prop}
    (hm : Stores n st m st') (hf : Safe (· < n) (Holds st'.out) (f (varsOf st')) post) :
    Safe (· < n) (Holds st.out) (m >>= f) post := by
  refine Safe.bind hm fun v b hb => ?_
  obtain ⟨rfl, hout⟩ := hb
  exact hf b hout

theorem stores_dots (hn : (flushDots st).out.length ≤ n) :
    Stores n st (storeDots (varsOf st)) (flushDots st) := by
  unfold flushDots at hn ⊢
  unfold storeDots varsOf
  by_cases hdots : st.dotcnt > 2
  · simp only [if_pos hdots] at hn ⊢
    rw [length_append] at hn
    refine Safe.bind (safe_puts hn) fun _ => Safe.pure fun b hb => ⟨?_, hb⟩
    simp [varsOf]
  · simp only [if_neg hdots]
    exact stores_pure

theorem length_flushDots_le_separate (st : Dos) (atNul : Bool) :
    (flushDots st).out.length ≤ (separate st atNul).out.length := by
  unfold separate
  dsimp only
  split_ifs <;> simp

theorem stores_put {v : Vars} (hn : st'.out.length ≤ n) (hout : st'.out = st.out ++ [c])
    (hv : v = varsOf st') :
    Stores n st (put (varsOf st).p c >>= fun _ => pure v) st' := by
  rw [hout, length_append] at hn
  refine Safe.bind (safe_put hn) fun _ => Safe.pure fun b hb => ⟨hv, ?_⟩
  rw [hout]
  exact hb

theorem stores_separator (hn : (separate st atNul).out.length ≤ n) :
    Stores n st (storeSeparator (varsOf st) atNul) (separate st atNul) := by
  refine (stores_dots ((length_flushDots_le_separate st atNul).trans hn)).bind ?_
  have hsep : separate st atNul =
      if (flushDots st).root = 2 ∨ ((flushDots st).root = 1 ∧ atNul) then
        { flushDots st with out := (flushDots st).out ++ [':'], root := 0 }
      else if ((flushDots st).root = 0 ∧ (flushDots st).absados = false) ∧ ((flushDots st).dotcnt = 2 ∨
          (((flushDots st).dotcnt = 0 ∨ (flushDots st).dotcnt > 2) ∧ atNul = false)) then
        { flushDots st with out := (flushDots st).out ++ ['/'] }
      else flushDots st := rfl
  rw [hsep] at hn ⊢
  generalize flushDots st = st at *
  unfold varsOf
  split_ifs at hn ⊢
  · exact stores_put hn rfl (by simp [varsOf])
  · exact stores_put hn rfl (by simp [varsOf])
  · exact stores_pure

theorem stores_dot (hn : (readDot st).out.length ≤ n) : Stores n st (storeDot (varsOf st)) (readDot st) := by
  unfold readDot at hn ⊢
  unfold storeDot varsOf
  split_ifs at hn ⊢
  · exact Safe.pure fun b hb => ⟨rfl, hb⟩
  · exact stores_put hn rfl (by simp [varsOf])

theorem stores_char (hn : (readChar st c).out.length ≤ n) :
    Stores n st (storeChar (varsOf st) c) (readChar st c) := by
  have hdots : (varsOf st).dotcnt = st.dotcnt := rfl
  have hlen : (varsOf st).p + st.dotcnt = (st.out ++ replicate st.dotcnt '.').length := by
    simp [varsOf]
  rw [readChar, length_append, length_append, length_singleton] at hn
  rw [storeChar, hdots, hlen]
  refine Safe.bind (safe_puts (by omega)) fun _ => ?_
  refine Safe.bind (safe_put (by rw [length_append]; omega)) fun _ => Safe.pure fun b hb => ⟨?_, hb⟩
  have hp : (st.out ++ replicate st.dotcnt '.').length + 1 = (readChar st c).out.length := by
    simp [readChar, Nat.add_assoc]
  exact congrArg (fun p => Vars.mk p false 0 (if st.root = 1 then 2 else st.root) false) hp

/-- **The loop stores what `adosLoop` says**, below any bound on the length of its text. -/
theorem stores_loop (skip : Bool) (q : List Char) (st : Dos) (hn : (adosLoop skip q st).out.length ≤ n) :
    Stores n st (storeLoop skip q (varsOf st)) (adosLoop skip q st) := by
  induction q generalizing skip st with
  | nil => exact stores_separator hn
  | cons c q ih =>
    rw [adosLoop] at hn ⊢
    rw [storeLoop]
    split_ifs at hn ⊢
    · exact ih true st hn
    · have hnext := ih true (nextComponent (separate st false)) hn
      have hle := (length_adosLoop_ge true q (nextComponent (separate st false))).trans hn
      exact (stores_separator hle).bind hnext
    · exact (stores_dot ((length_adosLoop_ge false q _).trans hn)).bind (ih false _ hn)
    · exact (stores_char ((length_adosLoop_ge false q _).trans hn)).bind (ih false _ hn)

/-- The stores of the body leave the text of `Path.Model`. -/
theorem stores_body (u : User) (hn : (adosBody u name).length ≤ n) :
    Safe (· < n) (fun _ => True) (storeBody u name)
      (fun v b => v.p = (adosBody u name).length ∧ Holds (adosBody u name) b) := by
  have hstores (st : Dos) {q : List Char} (hle : (adosLoop false q st).out.length ≤ n) :
      Safe (· < n) (Holds st.out) (storeLoop false q (varsOf st))
        (fun v b => v.p = (adosLoop false q st).out.length ∧ Holds (adosLoop false q st).out b) := by
    intro b hb
    obtain ⟨hacc, hv, hout⟩ := stores_loop false q st hle b hb
    exact ⟨hacc, by rw [hv]; rfl, hout⟩
  unfold storeBody adosBody at *
  dsimp only at hn ⊢
  generalize (if u.isRoot = false ∧ name.head? = some '/' then name.tail else name) = q at hn ⊢
  revert hn
  rcases splitLastColon q with _ | ⟨before, after⟩ <;> intro hn
  · intro b _
    exact hstores ⟨[], true, 0, _, false⟩ hn b holds_nil
  · have hvolume := (length_adosLoop_ge false after ⟨volumeOf before ++ [':'], true, 0, 0, true⟩).trans hn
    refine Safe.bind (safe_puts_zero hvolume) fun _ => ?_
    exact hstores ⟨volumeOf before ++ [':'], true, 0, 0, true⟩ hn

/-- A lonely slash is cut off by an index here, and off a list there. -/
theorem lonelyEnd_eq (h : Holds s b) : lonelyEnd s.length b = (removeLonely s).length := by
  have hshort (hle : s.length ≤ 2) : lonelyEnd s.length b = (removeLonely s).length := by
    have hsame : removeLonely s = s := by
      unfold removeLonely
      split
      · exact if_neg fun hall => absurd hall.1 (by omega)
      · rfl
    rw [hsame, lonelyEnd, if_neg fun hall => absurd hall.1 (by omega)]
  rcases hrev : s.reverse with _ | ⟨d, _ | ⟨c, r⟩⟩
  · exact hshort (by rw [← length_reverse, hrev]; simp)
  · exact hshort (by rw [← length_reverse, hrev]; simp)
  · have hs : s = r.reverse ++ [c, d] := by
      rw [← reverse_reverse s, hrev]
      simp
    have hlen : s.length = r.length + 2 := by rw [hs]; simp
    have hd : b (s.length - 1) = d := by
      apply h.getElem?
      rw [hlen, hs]
      simp
    have hc : b (s.length - 2) = c := by
      apply h.getElem?
      rw [hlen, hs]
      simp
    rw [lonelyEnd, hd, hc, removeLonely, hrev]
    by_cases hslash : d = '/'
    · subst hslash
      by_cases hlonely : s.length > 2 ∧ c ≠ '/' ∧ c ≠ ':'
      · simp only [hlonely, ne_eq, not_false_eq_true, and_self, if_true, length_dropLast]
      · rw [if_neg (fun hall => hlonely ⟨hall.1, hall.2.2⟩)]
        simp only [if_neg hlonely]
    · rw [if_neg (fun hall => hslash hall.2.1)]
      split
      · rename_i heq
        exact absurd (cons.inj heq).1 hslash
      · rfl

theorem holds_removeLonely (h : Holds s b) : Holds (removeLonely s) b := by
  obtain ⟨t, ht⟩ := isPrefix_removeLonely s
  rw [← ht] at h
  exact h.left

theorem console_iff (h : Holds (s ++ [nul]) b) (hs : nul ∉ s) :
    (chars b 0 9).map Char.toLower = ['c', 'o', 'n', 's', 'o', 'l', 'e', ':', nul] ↔
      s.map Char.toLower = ['c', 'o', 'n', 's', 'o', 'l', 'e', ':'] := by
  have hlower : Holds (s.map Char.toLower ++ [nul]) (fun i => (b i).toLower) := by
    have hmap : s.map Char.toLower ++ [nul] = (s ++ [nul]).map Char.toLower := by
      rw [map_append]
      rfl
    intro i hi
    simp only [hmap, length_map] at hi
    simp only [hmap, getElem_map, h i hi]
  have hnul : nul ∉ s.map Char.toLower := by
    intro hmem
    obtain ⟨c, hc, heq⟩ := mem_map.mp hmem
    exact hs (eq_of_toLower (by decide) heq ▸ hc)
  have hiff := eqString_iff (t := ['c', 'o', 'n', 's', 'o', 'l', 'e', ':']) hlower hnul (by decide)
    (Nat.zero_le _)
  rw [eqString, beq_iff_eq] at hiff
  exact hiff

/-- The stores for a device leave its name. -/
theorem safe_device (hs : nul ∉ s) (hn : s.length + 1 ≤ n) :
    Safe (· < n) (Holds (s ++ [nul])) storeDevice (fun _ => Holds (deviceName s ++ [nul])) := by
  intro b hb
  have hlen := length_deviceName_le s
  -- what is replaced is stored over the text, and is not longer
  have hputs (t : List Char) (ht : deviceName s = t) :
      (∀ a ∈ accesses (puts 0 (t ++ [nul])) b, a < n) ∧
        Holds (deviceName s ++ [nul]) (final (puts 0 (t ++ [nul])) b) := by
    rw [← ht]
    exact safe_puts_zero (by rw [length_append, length_singleton]; omega) b trivial
  have hkeep (ht : deviceName s = s) : (∀ a ∈ accesses (pure () : Writer Unit) b, a < n) ∧
      Holds (deviceName s ++ [nul]) (final (pure () : Writer Unit) b) := by
    rw [ht]
    exact ⟨by simp, hb⟩
  show (∀ a ∈ accesses (storeDeviceOf b) b, a < n) ∧ Holds (deviceName s ++ [nul]) (final (storeDeviceOf b) b)
  unfold storeDeviceOf
  by_cases hcon : s.map Char.toLower = ['c', 'o', 'n', 's', 'o', 'l', 'e', ':']
  · rw [if_pos ((console_iff hb hs).mpr hcon)]
    exact hputs ['*'] (if_pos hcon)
  · rw [if_neg (fun h => hcon ((console_iff hb hs).mp h))]
    have hdevice : deviceName s = if s.take 4 = ['d', 'e', 'v', ':'] then _ else s := if_neg hcon
    have hpre : chars b 0 4 = ['d', 'e', 'v', ':'] ↔ s.take 4 = ['d', 'e', 'v', ':'] :=
      chars_zero_iff (t := ['d', 'e', 'v', ':']) hb (by decide)
    by_cases hdev : s.take 4 = ['d', 'e', 'v', ':']
    · rw [if_pos (hpre.mpr hdev)]
      have hfour : 4 ≤ s.length := by
        have hl := congrArg length hdev
        rw [length_take] at hl
        simp only [length_cons, length_nil] at hl
        omega
      have hcmp (t : List Char) (ht : nul ∉ t) : eqString b 4 t ↔ s.drop 4 = t :=
        eqString_iff hb hs ht hfour
      simp only [hcmp ['t', 't', 'y'] (by decide), hcmp ['n', 'u', 'l', 'l'] (by decide),
        hcmp ['r', 'a', 'n', 'd', 'o', 'm'] (by decide), hcmp ['u', 'r', 'a', 'n', 'd', 'o', 'm'] (by decide),
        hcmp ['s', 'r', 'a', 'n', 'd', 'o', 'm'] (by decide),
        hcmp ['p', 'r', 'a', 'n', 'd', 'o', 'm'] (by decide), hcmp ['z', 'e', 'r', 'o'] (by decide)]
      dsimp only at hdevice
      split_ifs at hdevice ⊢
      · exact hputs ['*'] hdevice
      · exact hputs ['N', 'I', 'L', ':'] hdevice
      · exact hputs ['R', 'A', 'N', 'D', 'O', 'M', ':'] hdevice
      · exact hputs ['Z', 'E', 'R', 'O', ':'] hdevice
      · exact hkeep hdevice
    · rw [if_neg (fun h => hdev (hpre.mp h))]
      rw [if_neg hdev] at hdevice
      exact hkeep hdevice

/-- **`ix_to_ados` stores below `strlen(name) + 3` and leaves the text of `ixToAdos`.** -/
theorem safe_ixToAdos (u : User) (h : nul ∉ name) (hn : name.length + 2 ≤ n) :
    Safe (· < n) (fun _ => True) (storeIxToAdos u name) (fun _ => Holds (ixToAdos u name ++ [nul])) := by
  unfold storeIxToAdos ixToAdos
  split
  · exact safe_puts_zero (by simp; omega)
  · have hlen := (length_adosBody u name).1
    have hlonely := (isPrefix_removeLonely (adosBody u name)).length_le
    have hend (v : Vars) : Safe (· < n)
        (fun b => v.p = (adosBody u name).length ∧ Holds (adosBody u name) b) (look (lonelyEnd v.p))
        (fun p b => p = (removeLonely (adosBody u name)).length ∧
          Holds (removeLonely (adosBody u name)) b) := by
      refine Safe.look fun b hb => ?_
      rw [hb.1]
      exact ⟨lonelyEnd_eq hb.2, holds_removeLonely hb.2⟩
    have hput (p : Nat) : Safe (· < n) (fun b => p = (removeLonely (adosBody u name)).length ∧
        Holds (removeLonely (adosBody u name)) b) (put p nul)
        (fun _ => Holds (removeLonely (adosBody u name) ++ [nul])) := by
      rintro b ⟨rfl, hb⟩
      exact safe_put (by omega) b hb
    have hnul : nul ∉ removeLonely (adosBody u name) :=
      fun hmem => nul_adosBody u h ((isPrefix_removeLonely _).subset hmem)
    have hdevice := safe_device hnul (n := n) (by omega)
    refine Safe.bind (stores_body u (by omega)) fun v => ?_
    exact Safe.bind (hend v) fun p => Safe.bind (hput p) fun _ => hdevice

/-! ## check_root stays inside -/

/-- The buffer has a string that ends below `n`. -/
def Terminated (n : Nat) (b : Buf) : Prop := ∃ i, i < n ∧ b i = nul

/-- Going up a path stays below its NUL. -/
theorem climb_le (hi : b i ≠ nul) (hk : b (i + k) = nul) : (climb b depth i).1 ≤ i + k := by
  have hpos {i k : Nat} (hi : b i ≠ nul) (hk : b (i + k) = nul) : i + 1 ≤ i + k := by
    rcases Nat.eq_zero_or_pos k with rfl | hpos
    · exact absurd hk hi
    · exact Nat.add_le_add_left hpos i
  induction depth generalizing i k with
  | zero => exact hpos hi hk
  | succ depth ih =>
    have hle := hpos hi hk
    rw [climb]
    split
    · rename_i hslash
      have hsum : i + 1 + (k - 1) = i + k := by omega
      have hne : b (i + 1) ≠ nul := by
        rw [hslash]
        decide
      exact (ih hne (by rw [hsum]; exact hk)).trans_eq hsum
    · exact hle

/-- The colon of `check_root`, and the NUL behind it. -/
theorem safe_storeColon {p : Nat} (hk : b k = nul) (hp : p ≤ k) (hn : k + 2 ≤ n) :
    (∀ a ∈ accesses (storeColon b p) b, a < n) ∧ Terminated n (final (storeColon b p) b) := by
  by_cases hnul : b p = nul
  · rw [storeColon, if_neg (not_not.mpr hnul)]
    have hacc : accesses (put p ':' >>= fun _ => put (p + 1) nul) b = [p, p + 1] := rfl
    refine ⟨?_, p + 1, by omega, Function.update_self _ _ _⟩
    rw [hacc]
    intro a ha
    simp only [mem_cons, not_mem_nil, or_false] at ha
    omega
  · rw [storeColon, if_pos hnul]
    have hlt : p ≠ k := fun heq => hnul (heq ▸ hk)
    refine ⟨fun a ha => ?_, k, by omega, ?_⟩
    · rw [mem_singleton.mp ha]
      omega
    · exact (Function.update_of_ne hlt.symm _ _).trans hk

/-- What is to hold of the rest of a call, from the buffer `b` on. -/
def EndsWell (n : Nat) (m : Writer Checked) (b : Buf) : Prop :=
  (∀ a ∈ accesses m b, a < n) ∧ result m b ≠ .endless ∧ Terminated n (final m b)

theorem endsWell_pure {r : Checked} (hr : r ≠ .endless) (hb : Terminated n b) : EndsWell n (pure r) b :=
  ⟨by simp, hr, hb⟩

theorem endsWell_makeVolume (hk : b k = nul) (hi : i ≤ k) (hfuel : k < fuel)
    (hn : k + 2 ≤ n) : EndsWell n (makeVolume fuel b i) b := by
  by_cases hnul : b i = nul
  · rw [makeVolume, if_pos hnul]
    exact endsWell_pure (by simp) ⟨k, by omega, hk⟩
  · have hlt : i + 1 ≤ k := lt_of_le_of_ne hi fun heq => hnul (heq ▸ hk)
    obtain ⟨d, rfl⟩ := Nat.exists_eq_add_of_le hlt
    have hstop : (b (i + 1 + d) == nul || b (i + 1 + d) == '/') := by
      rw [hk]
      rfl
    obtain ⟨p, hp, -, hple⟩ : ∃ p, scan (fun c => c == nul || c == '/') b fuel (i + 1) = some p ∧
        i + 1 ≤ p ∧ p ≤ i + 1 + d := scan_isSome hstop (by omega)
    rw [makeVolume, if_neg hnul, hp]
    obtain ⟨hacc, hfinal⟩ := safe_storeColon hk hple hn
    refine ⟨?_, by simp, hfinal⟩
    rw [accesses_bind, accesses_pure, append_nil]
    exact hacc

theorem safe_checkRoot (hn : s.length + 1 ≤ n)
    (hslash : s.head? = some '/' → s.length + 2 ≤ n) (hfuel : s.length < fuel) :
    Safe (· < n) (Holds (s ++ [nul])) (checkRoot fuel depth) (fun r b => r ≠ .endless ∧ Terminated n b) := by
  intro b hb
  have hend : b s.length = nul := hb.getElem? (by simp)
  have hterm : Terminated n b := ⟨s.length, by omega, hend⟩
  show EndsWell n (checkRootOf fuel depth b) b
  by_cases h0 : b 0 = '/'
  · have hne : b 0 ≠ nul := by
      rw [h0]
      decide
    have hhead : s.head? = some '/' := by
      cases s with
      | nil => exact absurd hend hne
      | cons =>
        rw [← h0, hb 0 (by simp)]
        rfl
    have hclimb : (climb b depth 0).1 ≤ s.length :=
      (climb_le hne (by rwa [Nat.zero_add])).trans_eq (Nat.zero_add _)
    obtain ⟨d, hd⟩ := Nat.exists_eq_add_of_le hclimb
    have hstop : (b ((climb b depth 0).1 + d) != '/') := by
      rw [← hd, hend]
      decide
    obtain ⟨j, hj, -, hjle⟩ : ∃ j, scan (· != '/') b fuel (climb b depth 0).1 = some j ∧
        (climb b depth 0).1 ≤ j ∧ j ≤ (climb b depth 0).1 + d := scan_isSome hstop (by omega)
    rw [checkRootOf, if_pos h0, hj]
    by_cases hroot : (climb b depth 0).2 = false
    · simp only [if_pos hroot]
      exact endsWell_pure (by simp) hterm
    · simp only [if_neg hroot]
      exact endsWell_makeVolume hend (by omega) hfuel (hslash hhead)
  · rw [checkRootOf, if_neg h0]
    exact endsWell_pure (by simp) hterm

end

/-- `ix_to_ados(buf, name)`, and `check_root` on what it leaves, at `depth` levels below a root. -/
def translate (fuel depth : Nat) (u : User) (name : List Char) : Writer Checked := do
  storeIxToAdos u name
  checkRoot fuel depth

/-- **`ix_to_ados` and `check_root` stay inside of `strlen(name) + 3` bytes**, for every name, process and
depth, and leave a string there. -/
theorem translate_inside (u : User) (name : List Char) (hname : nul ∉ name) (depth : Nat) (b : Buf)
    (fuel : Nat) (hfuel : name.length + 1 < fuel) :
    (∀ i ∈ accesses (translate fuel depth u name) b, i < name.length + 3) ∧
      result (translate fuel depth u name) b ≠ .endless ∧
      Terminated (name.length + 3) (final (translate fuel depth u name) b) := by
  obtain ⟨hlen, hslash⟩ := length_ixToAdos u name
  have hstore := safe_ixToAdos (n := name.length + 3) u hname (by omega)
  have hcheck : Safe (· < name.length + 3) (Holds (ixToAdos u name ++ [nul])) (checkRoot fuel depth)
      (fun r b => r ≠ .endless ∧ Terminated (name.length + 3) b) := by
    refine safe_checkRoot (by omega) (fun h => ?_) (by omega)
    omega
  exact Safe.bind hstore (fun _ => hcheck) b trivial

/-- "../a" in the root of a volume: the text "/a" becomes "/a:". -/
theorem translate_inside_parent :
    let m := translate 6 0 ⟨false, false⟩ ['.', '.', '/', 'a']
    (∀ i ∈ accesses m (fun _ => 'x'), i < 7) ∧ result m (fun _ => 'x') ≠ .endless ∧
      Terminated 7 (final m (fun _ => 'x')) :=
  translate_inside ⟨false, false⟩ ['.', '.', '/', 'a'] (by decide) 0 (fun _ => 'x') 6 (by decide)

end Ixemul.Path
