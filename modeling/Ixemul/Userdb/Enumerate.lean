/-
# Ixemul.Userdb.Enumerate — when `getpwent` and `getgrent` come to an end (user.c, group.c).

The entry for the user who is logged in comes from `getpwnam`, which reads the file from its start and then
closes it with `endpwent`, and that sets `u_nextuid` back to 0.  Where the name is in the file, the
enumeration begins anew, for ever; where it is not, the result is taken for the end.  Only for nobody, or
without a name or a file, does it go on as it was meant to.
-/
import Ixemul.Userdb.Model

namespace Ixemul.Userdb

open List

variable {ε : Type} (db : Db ε) (env : Env) {s rest : Str}

/-! ## The lines of a file -/

/-- The entries of the lines that are accepted, in their order. -/
def entriesLoop : Nat → Str → List ε
  | 0, _ => []
  | fuel + 1, s =>
    match readLine s with
    | none => []
    | some (none, rest) => entriesLoop fuel rest
    | some (some line, rest) =>
      match db.line none line with
      | some e => e :: entriesLoop fuel rest
      | none => entriesLoop fuel rest

def entries (s : Str) : List ε := entriesLoop db (s.length + 1) s

theorem fgets_length (n : Nat) (s : Str) : (fgets n s).2.length ≤ s.length := by
  induction n generalizing s with
  | zero => exact le_rfl
  | succ n ih =>
    cases s with
    | nil => exact le_rfl
    | cons c s =>
      have := ih s
      simp only [fgets]
      split
      · simp
      · simp only [length_cons]
        omega

theorem fgets_length_lt {n : Nat} (hn : n ≠ 0) (hs : s ≠ []) : (fgets n s).2.length < s.length := by
  obtain ⟨n, rfl⟩ := Nat.exists_eq_succ_of_ne_zero hn
  cases s with
  | nil => exact absurd rfl hs
  | cons c s =>
    have := fgets_length n s
    simp only [fgets]
    split
    · simp
    · simp only [length_cons]
      omega

theorem skipLine_length (s : Str) : (skipLine s).length ≤ s.length := by
  induction s with
  | nil => exact le_rfl
  | cons =>
    simp only [skipLine]
    split
    · simp
    · simp only [length_cons]
      omega

theorem readLine_eq_none : readLine s = none ↔ s = [] := by
  unfold readLine
  constructor
  · intro h
    by_contra hs
    rw [if_neg hs] at h
    simp only at h
    split at h <;> cases h
  · intro h
    rw [if_pos h]

theorem readLine_length {line : Option Str} (h : readLine s = some (line, rest)) :
    rest.length < s.length := by
  have hs : s ≠ [] := by
    rintro rfl
    cases h
  have hlt : (fgets (maxlinelength - 1) s).2.length < s.length := fgets_length_lt (by decide) hs
  unfold readLine at h
  rw [if_neg hs] at h
  simp only at h
  split at h
  · obtain ⟨-, rfl⟩ := Prod.mk.inj (Option.some.inj h)
    exact hlt
  · obtain ⟨-, rfl⟩ := Prod.mk.inj (Option.some.inj h)
    exact lt_of_le_of_lt (skipLine_length _) hlt

variable {db} {env}

theorem entriesLoop_eq {fuel : Nat} (h : s.length < fuel) : entriesLoop db fuel s = entries db s := by
  suffices hall : ∀ fuel fuel' s, s.length < fuel → s.length < fuel' →
      entriesLoop db fuel s = entriesLoop db fuel' s from hall fuel _ s h (Nat.lt_succ_self _)
  intro fuel
  induction fuel with
  | zero =>
    intro fuel' s h
    omega
  | succ fuel ih =>
    intro fuel' s h h'
    obtain ⟨fuel', rfl⟩ : ∃ n, fuel' = n + 1 := ⟨fuel' - 1, by omega⟩
    simp only [entriesLoop]
    cases hline : readLine s with
    | none => rfl
    | some r =>
      obtain ⟨line, rest⟩ := r
      have hlt := readLine_length hline
      have hrest := ih fuel' rest (by omega) (by omega)
      cases line with
      | none => exact hrest
      | some => simp only [hrest]

@[simp] theorem entries_nil : entries db [] = [] := rfl

/-- **One call of the scan** returns the first entry that is left, or comes to the end. -/
theorem scan_none (s : Str) :
    (entries db s = [] ∧ scan db none s = (none, [])) ∨
      ∃ e rest, scan db none s = (some e, rest) ∧ entries db s = e :: entries db rest := by
  suffices hall : ∀ fuel s, s.length < fuel →
      (entriesLoop db fuel s = [] ∧ scanLoop db none fuel s = (none, [])) ∨
        ∃ e rest, scanLoop db none fuel s = (some e, rest) ∧ entriesLoop db fuel s = e :: entries db rest from
    hall _ s (Nat.lt_succ_self _)
  intro fuel
  induction fuel with
  | zero =>
    intro s h
    omega
  | succ fuel ih =>
    intro s h
    simp only [entriesLoop, scanLoop]
    cases hline : readLine s with
    | none => exact .inl ⟨rfl, by rw [readLine_eq_none.mp hline]⟩
    | some r =>
      obtain ⟨line, rest⟩ := r
      have hlt := readLine_length hline
      cases line with
      | none => exact ih rest (by omega)
      | some line =>
        cases hentry : db.line none line with
        | none => simpa only [hentry] using ih rest (by omega)
        | some e =>
          right
          refine ⟨e, rest, by simp only [hentry], ?_⟩
          simp only [hentry, entriesLoop_eq (show rest.length < fuel by omega)]

theorem scan_some (name s : Str) :
    (scan db (some name) s).1 = (entries db s).find? (fun e => db.nameOf e = name) := by
  suffices hall : ∀ fuel s, (scanLoop db (some name) fuel s).1 =
      (entriesLoop db fuel s).find? (fun e => db.nameOf e = name) from hall _ s
  intro fuel
  induction fuel with
  | zero => exact fun _ => rfl
  | succ fuel ih =>
    intro s
    simp only [entriesLoop, scanLoop]
    cases readLine s with
    | none => rfl
    | some r =>
      obtain ⟨line, rest⟩ := r
      cases line with
      | none => exact ih rest
      | some line =>
        simp only [db.line_name name line]
        cases db.line none line with
        | none => exact ih rest
        | some e =>
          by_cases hname : db.nameOf e = name
          · simp [Option.filter, hname]
          · simpa [Option.filter, hname] using ih rest

/-! ## Calls in a row -/

variable (db) (env)

/-- The cursor after `k` calls. -/
def after : Nat → Cursor → Cursor
  | 0, cur => cur
  | k + 1, cur => after k (getent db env cur).1

/-- What the call after `k` calls returns. -/
def result (k : Nat) (cur : Cursor) : Option ε := (getent db env (after db env k cur)).2

/-- A null result comes after at most `m` others. -/
def EndsWithin (cur : Cursor) (m : Nat) : Prop := ∃ k ≤ m, result db env k cur = none

/-- The entry for the name in the environment comes from the file. -/
def Restarts : Prop :=
  ∃ name, env.name = some name ∧ name ≠ db.nameOf db.nobody ∧
    ∃ e ∈ entries db env.contents, db.nameOf e = name

variable {db} {env} {cur : Cursor} {m : Nat} {name : Str}

theorem endsWithin_of_result (h : (getent db env cur).2 = none) (m : Nat) :
    EndsWithin db env cur m := ⟨0, Nat.zero_le _, h⟩

theorem EndsWithin.succ (h : EndsWithin db env (getent db env cur).1 m) : EndsWithin db env cur (m + 1) := by
  obtain ⟨k, hk, hres⟩ := h
  exact ⟨k + 1, Nat.succ_le_succ hk, hres⟩

theorem EndsWithin.mono {m' : Nat} (h : EndsWithin db env cur m) (hle : m ≤ m') :
    EndsWithin db env cur m' := by
  obtain ⟨k, hk, hres⟩ := h
  exact ⟨k, le_trans hk hle, hres⟩

theorem getent_entry {e : ε} {es : List ε} (hfp : cur.fp = some s)
    (hs : entries db s = e :: es) :
    ∃ rest, getent db env cur = ({ cur with fp := some rest }, some e) ∧ entries db rest = es := by
  obtain ⟨hnil, -⟩ | ⟨e', rest, hscan, hrest⟩ := @scan_none _ db s
  · rw [hnil] at hs
    cases hs
  · rw [hrest] at hs
    obtain ⟨rfl, rfl⟩ := cons.inj hs
    exact ⟨rest, by simp [getent, hfp, hscan], rfl⟩

theorem getent_end (hfp : cur.fp = some s) (hs : entries db s = []) :
    getent db env cur = builtinEnt db env { cur with fp := some [] } := by
  obtain ⟨-, hscan⟩ | ⟨e, rest, -, hrest⟩ := @scan_none _ db s
  · simp [getent, hfp, hscan]
  · rw [hrest] at hs
    cases hs

theorem EndsWithin.of_entries (es : List ε) (hfp : cur.fp = some s)
    (hs : entries db s = es)
    (h : ∀ rest, entries db rest = [] → EndsWithin db env { cur with fp := some rest } m) :
    EndsWithin db env cur (es.length + m) := by
  induction es generalizing cur s with
  | nil =>
    have hcur := h s hs
    rw [← hfp] at hcur
    exact hcur.mono (Nat.le_add_left _ _)
  | cons e es ih =>
    obtain ⟨rest, hget, hrest⟩ := @getent_entry _ db env _ _ _ _ hfp hs
    have htail : EndsWithin db env { cur with fp := some rest } (es.length + m) := ih rfl hrest h
    have hnext : EndsWithin db env (getent db env cur).1 (es.length + m) := by
      rw [hget]
      exact htail
    have hsucc := hnext.succ
    rw [length_cons]
    exact hsucc.mono (by omega)

/-! ## After the file -/

theorem builtinEnt_root (h : cur.next = 0) :
    builtinEnt db env cur = ({ cur with next := 1 }, some db.root) := if_pos h

theorem builtinEnt_null (h : cur.next = toId (-1)) : builtinEnt db env cur = (cur, none) := by
  rw [builtinEnt, h, if_neg (by decide), if_neg (by decide), if_pos rfl]

theorem builtinEnt_noName (h : cur.next = 1) (hname : env.name = none) :
    builtinEnt db env cur = ({ cur with next := toId (-1) }, some db.nobody) := by
  rw [builtinEnt, h, if_neg (by decide), if_neg (by decide), if_neg (by decide), hname]

theorem builtinEnt_name (h : cur.next = 1) (hname : env.name = some name) :
    builtinEnt db env cur = getnam db env name { cur with next := toId (-2) } := by
  rw [builtinEnt, h, if_neg (by decide), if_neg (by decide), if_neg (by decide), hname]

theorem endsWithin_last (hget : ∀ next, getent db env { cur with next } =
    builtinEnt db env { cur with next }) :
    EndsWithin db env { cur with next := toId (-1) } 0 ∧
      EndsWithin db env { cur with next := toId (-2) } 1 := by
  have hnull : EndsWithin db env { cur with next := toId (-1) } 0 := by
    apply endsWithin_of_result
    rw [hget, builtinEnt_null rfl]
  refine ⟨hnull, EndsWithin.succ ?_⟩
  rw [hget]
  exact hnull

theorem getnam_open (hfp : cur.fp = some s) (hstay : cur.stayopen = false)
    (hname : name ≠ db.nameOf db.nobody) :
    getnam db env name cur =
      (endent cur, (entries db env.contents).find? (fun e => db.nameOf e = name)) := by
  simp [getnam, hname, start, hfp, hstay, endent, scan_some]

theorem getnam_closed (hfp : cur.fp = none) (hfile : env.file = none)
    (hname : env.name = some name) : ∃ e, getnam db env name cur = (cur, some e) := by
  unfold getnam
  by_cases hnobody : name = db.nameOf db.nobody
  · exact ⟨db.nobody, if_pos hnobody⟩
  · rw [if_neg hnobody]
    by_cases hroot : name = db.nameOf db.root
    · exact ⟨db.root, by simp [start, hfp, hfile, hroot]⟩
    · exact ⟨db.own env name, by simp [start, hfp, hfile, hroot, hname]⟩

theorem endsWithin_builtin_open (hnot : ¬ Restarts db env) (hrest : entries db rest = []) :
    EndsWithin db env ⟨some rest, false, 0⟩ 3 := by
  have hend : ∀ next, getent db env ⟨some [], false, next⟩ = builtinEnt db env ⟨some [], false, next⟩ :=
    fun next => getent_end rfl entries_nil
  have hlast := @endsWithin_last _ db env ⟨some [], false, 0⟩ hend
  apply EndsWithin.succ
  rw [getent_end rfl hrest, builtinEnt_root rfl]
  cases hname : env.name with
  | none =>
    apply EndsWithin.succ
    rw [hend, builtinEnt_noName rfl hname]
    exact hlast.1.mono (by omega)
  | some name =>
    by_cases hnobody : name = db.nameOf db.nobody
    · apply EndsWithin.succ
      rw [hend, builtinEnt_name rfl hname, getnam, if_pos hnobody]
      exact hlast.2
    · -- the name is not in the file, and that is the null result
      apply endsWithin_of_result
      have hnam := @getnam_open _ db env _ ⟨some [], false, toId (-2)⟩ name rfl rfl hnobody
      rw [hend, builtinEnt_name rfl hname, hnam, find?_eq_none]
      intro e he hfound
      exact hnot ⟨name, hname, hnobody, e, he, of_decide_eq_true hfound⟩

theorem endsWithin_builtin_closed (hfile : env.file = none) (stayopen : Bool) :
    EndsWithin db env ⟨none, stayopen, 0⟩ 3 := by
  have hget : ∀ next, getent db env ⟨none, stayopen, next⟩ = builtinEnt db env ⟨none, stayopen, next⟩ := by
    intro next
    simp [getent, start, hfile]
  have hlast := @endsWithin_last _ db env ⟨none, stayopen, 0⟩ hget
  apply EndsWithin.succ
  rw [hget, builtinEnt_root rfl]
  apply EndsWithin.succ
  cases hname : env.name with
  | none =>
    rw [hget, builtinEnt_noName rfl hname]
    exact hlast.1.mono (by omega)
  | some name =>
    obtain ⟨e, he⟩ := @getnam_closed _ db env ⟨none, stayopen, toId (-2)⟩ name rfl hfile hname
    rw [hget, builtinEnt_name rfl hname, he]
    exact hlast.2

/-! ## For ever -/

/-- Where the enumeration is when it comes to its start again and again. -/
def OnCycle (cur : Cursor) : Prop :=
  cur.stayopen = false ∧ (cur.next = 0 ∨ (cur.next = 1 ∧ cur.fp = some []))

/-- With the file open a call on the cycle returns an entry and stays on it. -/
theorem OnCycle.open (h : Restarts db env) {next : Id} (hcur : OnCycle ⟨some s, false, next⟩) :
    OnCycle (getent db env ⟨some s, false, next⟩).1 ∧ (getent db env ⟨some s, false, next⟩).2 ≠ none := by
  obtain ⟨-, rfl | ⟨rfl, hfp⟩⟩ := hcur
  · cases hs : entries db s with
    | nil =>
      rw [getent_end rfl hs]
      exact ⟨⟨rfl, .inr ⟨rfl, rfl⟩⟩, Option.some_ne_none _⟩
    | cons =>
      obtain ⟨rest, hget, -⟩ := @getent_entry _ db env _ ⟨some s, false, 0⟩ _ _ rfl hs
      rw [hget]
      exact ⟨⟨rfl, .inl rfl⟩, Option.some_ne_none _⟩
  · obtain rfl : s = [] := Option.some.inj hfp
    obtain ⟨name, hname, hnobody, e, he, hfound⟩ := h
    have hnam := @getnam_open _ db env _ ⟨some [], false, toId (-2)⟩ name rfl rfl hnobody
    rw [getent_end rfl entries_nil, builtinEnt_name rfl hname, hnam]
    refine ⟨⟨rfl, .inl rfl⟩, fun hnone => ?_⟩
    exact find?_eq_none.mp hnone e he (decide_eq_true hfound)

theorem Restarts.file (h : Restarts db env) : env.file = some env.contents := by
  obtain ⟨name, -, -, e, he, -⟩ := h
  unfold Env.contents at he ⊢
  cases hfile : env.file with
  | none =>
    rw [hfile] at he
    cases he
  | some => rfl

theorem OnCycle.step (h : Restarts db env) (hcur : OnCycle cur) :
    OnCycle (getent db env cur).1 ∧ (getent db env cur).2 ≠ none := by
  obtain ⟨fp, stayopen, next⟩ := cur
  obtain rfl : stayopen = false := hcur.1
  cases fp with
  | some => exact hcur.open h
  | none =>
    -- the file was closed, and is opened again
    have hnext : next = 0 := by
      rcases hcur.2 with hnext | ⟨-, hfp⟩
      · exact hnext
      · cases hfp
    subst hnext
    have hget : getent db env ⟨none, false, 0⟩ = getent db env ⟨some env.contents, false, 0⟩ := by
      simp [getent, start, h.file]
    rw [hget]
    exact OnCycle.open h ⟨rfl, .inl rfl⟩

theorem OnCycle.result (h : Restarts db env) (k : Nat) (hcur : OnCycle cur) : result db env k cur ≠ none := by
  induction k generalizing cur with
  | zero => exact (hcur.step h).2
  | succ k ih =>
    exact ih (hcur.step h).1

/-! ## After `setpwent` -/

theorem setent_cases (cur : Cursor) :
    setent env cur = ⟨some env.contents, false, 0⟩ ∨
      (env.file = none ∧ ∃ stayopen, setent env cur = ⟨none, stayopen, 0⟩) := by
  obtain ⟨fp, stayopen, next⟩ := cur
  cases fp with
  | some => exact .inl rfl
  | none =>
    cases hfile : env.file with
    | some => exact .inl (by simp [setent, setpassent, start, hfile, Env.contents])
    | none => exact .inr ⟨rfl, stayopen, by simp [setent, setpassent, start, hfile]⟩

/-- **When the enumeration comes to an end.** -/
theorem endsWithin_iff (cur : Cursor) :
    EndsWithin db env (setent env cur) ((entries db env.contents).length + 3) ↔ ¬ Restarts db env := by
  constructor
  · rintro ⟨k, -, hnull⟩ hrestarts
    obtain hset | ⟨hfile, -⟩ := @setent_cases env cur
    · rw [hset] at hnull
      exact OnCycle.result hrestarts k ⟨rfl, .inl rfl⟩ hnull
    · rw [hrestarts.file] at hfile
      cases hfile
  · intro hnot
    obtain hset | ⟨hfile, stayopen, hset⟩ := @setent_cases env cur
    · rw [hset]
      exact EndsWithin.of_entries _ rfl rfl fun rest hrest => endsWithin_builtin_open hnot hrest
    · rw [hset]
      exact (endsWithin_builtin_closed hfile stayopen).mono (Nat.le_add_left _ _)

/-! ## initgroups -/

theorem initgroupsLoop_succ {env : Env} {cur' : Cursor} {gr : Group}
    (hget : getgrent env cur = (cur', some gr)) (hmem : name ∉ gr.mem) (basegid : Int) (fuel : Nat)
    {gidset : List Id} (hlen : gidset.length ≠ ngroupsMax) :
    initgroupsLoop env name basegid (fuel + 1) cur gidset =
      initgroupsLoop env name basegid fuel cur' gidset := by
  rw [initgroupsLoop, hget]
  simp only [hmem, and_false, if_false, hlen]

theorem initgroupsLoop_of_endsWithin {env : Env} (name : Str) (basegid : Int)
    (h : EndsWithin groupDb env cur m) (gidset : List Id) :
    (initgroupsLoop env name basegid (m + 1) cur gidset).isSome := by
  induction m generalizing cur gidset with
  | zero =>
    obtain ⟨k, hk, hnull⟩ := h
    obtain rfl : k = 0 := by omega
    have hget : getgrent env cur = ((getgrent env cur).1, none) := Prod.ext rfl hnull
    rw [initgroupsLoop, hget]
    rfl
  | succ m ih =>
    rw [initgroupsLoop]
    cases hget : getgrent env cur with
    | mk cur' gr =>
      cases gr with
      | none => rfl
      | some gr =>
        simp only
        generalize (if gr.gid ≠ toId basegid ∧ name ∈ gr.mem then gidset ++ [gr.gid] else gidset) = gidset'
        split
        · rfl
        · apply ih
          obtain ⟨k, hk, hnull⟩ := h
          obtain ⟨k, rfl⟩ : ∃ n, k = n + 1 := by
            refine ⟨k - 1, ?_⟩
            by_contra hzero
            obtain rfl : k = 0 := by omega
            have hsome : (getgrent env cur).2 = none := hnull
            rw [hget] at hsome
            cases hsome
          have hcur : (getent groupDb env cur).1 = cur' := congrArg Prod.fst hget
          rw [result, after, hcur] at hnull
          exact ⟨k, by omega, hnull⟩

theorem initgroups_isSome {env : Env} (hnot : ¬ Restarts groupDb env) (name : Str) (basegid : Int)
    (cur : Cursor) :
    (initgroups env ((entries groupDb env.contents).length + 4) name basegid cur).isSome := by
  unfold initgroups
  split
  · rfl
  · have hloop := initgroupsLoop_of_endsWithin name basegid ((endsWithin_iff cur).mpr hnot)
      [toId basegid, toId basegid]
    obtain ⟨r, hr⟩ := Option.isSome_iff_exists.mp hloop
    rw [setgrent, hr]
    rfl

/-- **The enumerations of the passwd and the group file**: after `setpwent` (`setgrent`) a null result
comes after at most three results more than there are lines, exactly if the name in the environment is
not that of a line; and then `initgroups` comes to an end with the enumeration. -/
theorem enumeration_ends_iff (penv genv : Env) (pcur gcur : Cursor) :
    (EndsWithin passwdDb penv (setpwent penv pcur) ((entries passwdDb penv.contents).length + 3) ↔
      ¬ Restarts passwdDb penv) ∧
    (EndsWithin groupDb genv (setgrent genv gcur) ((entries groupDb genv.contents).length + 3) ↔
      ¬ Restarts groupDb genv) ∧
    (¬ Restarts groupDb genv → ∀ name basegid,
      (initgroups genv ((entries groupDb genv.contents).length + 4) name basegid gcur).isSome) :=
  ⟨endsWithin_iff pcur, endsWithin_iff gcur,
    fun hnot name basegid => initgroups_isSome hnot name basegid gcur⟩

/-- One user in the passwd file, and nobody logged in; no group file. -/
theorem enumeration_ends_iff_logged_out :
    EndsWithin passwdDb ⟨some "joe|x|100|100|Joe|SYS:|sh\n".toList, none, none, none, 0, 0⟩
        (setpwent ⟨some "joe|x|100|100|Joe|SYS:|sh\n".toList, none, none, none, 0, 0⟩ ⟨none, false, 0⟩)
        ((entries passwdDb "joe|x|100|100|Joe|SYS:|sh\n".toList).length + 3) ∧
      (initgroups ⟨none, none, none, none, 0, 0⟩ 4 "joe".toList 5 ⟨none, false, 0⟩).isSome := by
  have h := enumeration_ends_iff ⟨some "joe|x|100|100|Joe|SYS:|sh\n".toList, none, none, none, 0, 0⟩
    ⟨none, none, none, none, 0, 0⟩ ⟨none, false, 0⟩ ⟨none, false, 0⟩
  refine ⟨h.1.mpr ?_, h.2.2 ?_ _ _⟩
  · rintro ⟨name, hname, -⟩
    cases hname
  · rintro ⟨name, hname, -⟩
    cases hname

/-- Joe is logged in, and in the passwd file. -/
def joe : Env := ⟨some "joe|x|100|100|Joe|SYS:|sh\n".toList, some "joe".toList, none, none, 100, 100⟩

/-- GROUP is a group of the group file. -/
def users : Env := ⟨some "users|*|100|joe\n".toList, some "users".toList, none, none, 100, 100⟩

theorem restarts_joe : Restarts passwdDb joe :=
  ⟨"joe".toList, rfl, by decide, ⟨"joe".toList, ['x'], 100, 100, "Joe".toList, "SYS:".toList, "sh".toList⟩,
    by decide, rfl⟩

theorem restarts_users : Restarts groupDb users :=
  ⟨"users".toList, rfl, by decide, ⟨"users".toList, ['*'], 100, ["joe".toList, []]⟩, by decide, rfl⟩

theorem initgroupsLoop_users (fuel : Nat) (gidset : List Id) (hlen : gidset.length ≠ ngroupsMax) :
    initgroupsLoop users "ann".toList 5 fuel ⟨some users.contents, false, 0⟩ gidset = none ∧
      initgroupsLoop users "ann".toList 5 fuel ⟨some [], false, 0⟩ gidset = none ∧
      initgroupsLoop users "ann".toList 5 fuel ⟨some [], false, 1⟩ gidset = none ∧
      initgroupsLoop users "ann".toList 5 fuel ⟨none, false, 0⟩ gidset = none := by
  have hread : getgrent users ⟨some users.contents, false, 0⟩ =
      (⟨some [], false, 0⟩, some ⟨"users".toList, ['*'], 100, ["joe".toList, []]⟩) := by decide
  have hwheel : getgrent users ⟨some [], false, 0⟩ = (⟨some [], false, 1⟩, some builtinWheel) := by decide
  have hfound : getgrent users ⟨some [], false, 1⟩ =
      (⟨none, false, 0⟩, some ⟨"users".toList, ['*'], 100, ["joe".toList, []]⟩) := by decide
  have hopen : getgrent users ⟨none, false, 0⟩ =
      (⟨some [], false, 0⟩, some ⟨"users".toList, ['*'], 100, ["joe".toList, []]⟩) := by decide
  induction fuel with
  | zero => exact ⟨rfl, rfl, rfl, rfl⟩
  | succ fuel ih =>
    obtain ⟨-, h₀, h₁, hclosed⟩ := ih
    rw [initgroupsLoop_succ hread (by decide) 5 fuel hlen, initgroupsLoop_succ hwheel (by decide) 5 fuel hlen,
      initgroupsLoop_succ hfound (by decide) 5 fuel hlen, initgroupsLoop_succ hopen (by decide) 5 fuel hlen]
    exact ⟨h₀, h₁, hclosed, h₀⟩

/-- For Joe, `getpwent` never returns a null pointer, nor does `getgrent` with such a GROUP; and
`initgroups` does not return for a user who is in no other group. -/
theorem enumeration_never_ends :
    (entries passwdDb joe.contents).length = 1 ∧ (entries groupDb users.contents).length = 1 ∧
      (∀ m, ¬ EndsWithin passwdDb joe (setpwent joe ⟨none, false, 0⟩) m) ∧
      (∀ m, ¬ EndsWithin groupDb users (setgrent users ⟨none, false, 0⟩) m) ∧
      ∀ fuel, initgroups users fuel "ann".toList 5 ⟨none, false, 0⟩ = none := by
  refine ⟨by decide, by decide, ?_, ?_, fun fuel => ?_⟩
  · rintro m ⟨k, -, hnull⟩
    exact OnCycle.result restarts_joe k ⟨rfl, .inl rfl⟩ hnull
  · rintro m ⟨k, -, hnull⟩
    exact OnCycle.result restarts_users k ⟨rfl, .inl rfl⟩ hnull
  · have hloop := (initgroupsLoop_users fuel [toId 5, toId 5] (by decide)).1
    have hset : setgrent users ⟨none, false, 0⟩ = ⟨some users.contents, false, 0⟩ := rfl
    rw [initgroups, if_neg (by decide), hset, hloop]

end Ixemul.Userdb
