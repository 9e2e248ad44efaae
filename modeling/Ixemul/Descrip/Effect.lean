/-
# Ixemul.Descrip.Effect — what each call does to the number of descriptors of a file.

What a call does to the number of descriptors is put together from three things: an entry without
descriptors gets its first one (`effect_take`), an entry with descriptors gets one more (`effect_share`), a
descriptor goes away (`effect_drop`).  `Effect` says what such a change means for the counts, for what
`falloc` handed out and for what was released; `Effect.trans` composes them.
-/
import Ixemul.Descrip.Model

namespace Ixemul.Descrip

open Function List

/-! ## Counting descriptors -/

/-- The slot with the content `o` points to `f`. -/
def pointsTo (f : FileIx) (o : Option FileIx) : Bool := decide (o = some f)

/-- The number of descriptors of `u` that point to `f`. -/
def refs (u : User) (f : FileIx) : Nat :=
  slots.countP (fun fd => pointsTo f (u.ofile fd))

theorem countP_update {ι β : Type*} [DecidableEq ι] {l : List ι} (hl : l.Nodup) {i : ι} (hi : i ∈ l)
    (g : ι → β) (v : β) (p : β → Bool) :
    l.countP (fun j => p (update g i v j)) + (if p (g i) then 1 else 0) =
      l.countP (fun j => p (g j)) + (if p v then 1 else 0) := by
  have hperm := perm_cons_erase hi
  have hrest : (l.erase i).countP (fun j => p (update g i v j)) =
      (l.erase i).countP (fun j => p (g j)) := by
    refine countP_congr fun j hj => ?_
    have hne : j ≠ i := (hl.mem_erase_iff.mp hj).1
    simp [hne]
  rw [hperm.countP_eq, hperm.countP_eq, countP_cons, countP_cons, hrest]
  simp only [update_self]
  omega

theorem refs_setOfile (u : User) (fd : Fd) (v : Option FileIx) (f : FileIx) :
    refs (u.setOfile fd v) f + (if u.ofile fd = some f then 1 else 0) =
      refs u f + (if v = some f then 1 else 0) := by
  have h := countP_update nodup_slots (mem_slots fd) u.ofile v (pointsTo f)
  have hite : ∀ o, (if pointsTo f o then 1 else 0) = if o = some f then 1 else 0 := by
    intro o
    by_cases ho : o = some f <;> simp [pointsTo, ho]
  rw [hite, hite] at h
  exact h

theorem refs_install (u : User) (fd : Fd) (fp : FileIx) (b : Bool) (f : FileIx) :
    refs (u.install fd fp b) f + (if u.ofile fd = some f then 1 else 0) =
      refs u f + (if fp = f then 1 else 0) := by
  have h := refs_setOfile u fd (some fp) f
  simp only [Option.some.injEq] at h
  exact h

theorem refs_pos {u : User} {fd : Fd} {f : FileIx} (h : u.ofile fd = some f) : 0 < refs u f :=
  countP_pos_iff.mpr ⟨fd, mem_slots fd, by simpa [pointsTo] using h⟩

/-! ## Effects -/

/-- From the file table `k` to `k'`, while the number of descriptors goes from `a` to `b`. -/
structure Effect (k k' : Ix) (a b : FileIx → Nat) : Prop where
  counts : ∀ f, (k'.fileTab f).count = b f
  /-- `falloc` hands out entries that had no descriptor, and they get one -/
  handed : ∃ hs, k'.handed = k.handed ++ hs ∧ hs.Nodup ∧ ∀ f ∈ hs, a f = 0 ∧ 0 < b f
  /-- an entry is released, once, exactly when its last descriptor goes -/
  released : ∀ f, k'.released.count f = k.released.count f + if 0 < a f ∧ b f = 0 then 1 else 0
  close : ∀ f, (k.fileTab f).close ≠ none → (k'.fileTab f).close ≠ none

/-- The count of every entry is its number of descriptors `a`, and an entry with descriptors has a
function to close it with. -/
structure Counts (k : Ix) (a : FileIx → Nat) : Prop where
  counts : ∀ f, (k.fileTab f).count = a f
  close : ∀ f, 0 < a f → (k.fileTab f).close ≠ none

variable {k k' k₁ : Ix} {u : User} {a b c o : FileIx → Nat} {f fp : FileIx} {fd : Fd}

theorem Counts.close_of_slot (hk : Counts k (fun f => o f + refs u f)) (hf : u.ofile fd = some f) :
    (k.fileTab f).close ≠ none := by
  apply hk.close
  have := refs_pos hf
  omega

theorem Effect.refl (hk : Counts k a) : Effect k k a a where
  counts := hk.counts
  handed := ⟨[], by simp⟩
  released := fun f => by
    rw [if_neg (by omega)]
    rfl
  close := fun _ h => h

/-- Effects compose where no entry gets its first descriptor after losing its last, or the other way
round. -/
theorem Effect.trans (h : Effect k k₁ a b) (h' : Effect k₁ k' b c)
    (hmono : ∀ f, (a f ≤ b f ∧ b f ≤ c f) ∨ (c f ≤ b f ∧ b f ≤ a f) ∨ (0 < a f ∧ 0 < b f ∧ 0 < c f)) :
    Effect k k' a c where
  counts := h'.counts
  handed := by
    obtain ⟨hs, h1, h2, h3⟩ := h.handed
    obtain ⟨hs', h1', h2', h3'⟩ := h'.handed
    refine ⟨hs ++ hs', by rw [h1', h1, append_assoc], ?_, ?_⟩
    · refine nodup_append.mpr ⟨h2, h2', ?_⟩
      rintro f hf _ hf' rfl
      have := (h3 f hf).2
      have := (h3' f hf').1
      omega
    · intro f hf
      have := hmono f
      rcases mem_append.mp hf with hf | hf
      · have := h3 f hf
        omega
      · have := h3' f hf
        omega
  released := by
    intro f
    have hm := hmono f
    rw [h'.released f, h.released f]
    split_ifs <;> omega
  close := fun f hf => h'.close f (h.close f hf)

theorem Effect.toCounts (h : Effect k k' a b) (hk : Counts k a)
    (hnew : ∀ f, a f = 0 → 0 < b f → (k'.fileTab f).close ≠ none) : Counts k' b where
  counts := h.counts
  close := by
    intro f hf
    rcases Nat.eq_zero_or_pos (a f) with h0 | hpos
    · exact hnew f h0 hf
    · exact h.close f (hk.close f hpos)

theorem setFile_fileTab (k : Ix) (fp : FileIx) (v : File) (f : FileIx) :
    (k.setFile fp v).fileTab f = if fp = f then v else k.fileTab f := by
  rcases eq_or_ne fp f with rfl | hf
  · simp [Ix.setFile]
  · simp [Ix.setFile, hf, hf.symm]

theorem setFile_count_close (k : Ix) (fp : FileIx) (n : Int) (f : FileIx) :
    ((k.setFile fp { k.fileTab fp with count := n }).fileTab f).close = (k.fileTab f).close := by
  rw [setFile_fileTab]
  split_ifs with hf
  · rw [← hf]
  · rfl

theorem effect_setClose (hk : ∀ f, (k.fileTab f).count = a f) (fp : FileIx) (fn : CloseFn) :
    Effect k (k.setClose fp fn) a a where
  counts := by
    intro f
    rw [← hk f, Ix.setClose, setFile_fileTab]
    split_ifs with hf
    · rw [← hf]
    · rfl
  handed := ⟨[], by simp [Ix.setClose, Ix.setFile]⟩
  released := fun f => by
    rw [if_neg (by omega)]
    rfl
  close := by
    intro f h
    rw [Ix.setClose, setFile_fileTab]
    split_ifs
    · exact Option.some_ne_none fn
    · exact h

theorem setClose_close (k : Ix) (fp : FileIx) (fn : CloseFn) :
    ((k.setClose fp fn).fileTab fp).close = some fn := by
  simp [Ix.setClose, Ix.setFile]

/-! ### One more descriptor -/

theorem effect_share (hk : Counts k a) (hfp : 0 < a fp) (hb : ∀ f, b f = a f + if fp = f then 1 else 0) :
    Effect k (k.addCount fp 1) a b ∧ Counts (k.addCount fp 1) b := by
  have heff : Effect k (k.addCount fp 1) a b := by
    refine ⟨fun f => ?_, ⟨[], by simp [Ix.addCount, Ix.setFile]⟩, fun f => ?_, fun f h => ?_⟩
    · have hcount := hk.counts f
      rw [hb f, Ix.addCount, setFile_fileTab]
      split_ifs with hf
      · rw [hf, hcount]
        rfl
      · exact hcount
    · have := hb f
      rw [if_neg (by omega)]
      rfl
    · rwa [Ix.addCount, setFile_count_close]
  refine ⟨heff, heff.toCounts hk fun f h0 hpos => ?_⟩
  rw [hb f] at hpos
  split_ifs at hpos with hf
  · subst hf
    omega
  · omega

theorem refs_install_free (hfree : u.ofile fd = none) (fp : FileIx) (x : Bool) (f : FileIx) :
    refs (u.install fd fp x) f = refs u f + if fp = f then 1 else 0 := by
  have := refs_install u fd fp x f
  rw [hfree, if_neg (by simp)] at this
  omega

theorem ufalloc_free {want : Nat} (h : ufalloc u want = .ok fd) : u.ofile fd = none := by
  unfold ufalloc at h
  split at h
  · next fd' hfd =>
    have := find?_some hfd
    cases h
    simpa using this
  · exact absurd h (by simp)

/-! ### The first descriptor -/

/-- **`falloc`** hands out an entry that nobody refers to, with the caller's new slot for its first
descriptor. -/
theorem falloc_ok {u' : User} (h : falloc k u = .ok (k', u', fp, fd)) :
    ufalloc u 0 = .ok fd ∧ (k.fileTab fp).count = 0 ∧ u' = u.install fd fp false ∧
      k' = { k.setFile fp { k.fileTab fp with count := 1 } with
        lastf := fp + 1, handed := k.handed ++ [fp] } := by
  revert h
  fun_cases falloc k u with
  | case3 fd hfd fp hfp =>
    rintro ⟨⟩
    exact ⟨hfd, by simpa using find?_some hfp, rfl, rfl⟩
  | _ => exact nofun

theorem falloc_spec (hk : ∀ f, (k.fileTab f).count = o f + refs u f) {u' : User}
    (h : falloc k u = .ok (k', u', fp, fd)) :
    Effect k k' (fun f => o f + refs u f) (fun f => o f + refs u' f) ∧
      o fp + refs u fp = 0 ∧ (∀ f, refs u' f = refs u f + if fp = f then 1 else 0) ∧
      u'.ofile fd = some fp ∧ u'.execveclose = u.execveclose := by
  obtain ⟨hfd, hzero, rfl, rfl⟩ := falloc_ok h
  have hnone : o fp + refs u fp = 0 := by
    have := hk fp
    omega
  have hrefs := fun f => refs_install_free (ufalloc_free hfd) fp false f
  refine ⟨⟨?_, ⟨[fp], rfl, nodup_singleton _, ?_⟩, ?_, ?_⟩, hnone, hrefs, ?_, rfl⟩
  · intro f
    have h1 := hk f
    have h2 := hrefs f
    rw [setFile_fileTab]
    split_ifs at h2 ⊢ with hf
    · subst hf
      dsimp only
      omega
    · omega
  · intro f hf
    have hf : f = fp := by simpa using hf
    subst hf
    have h2 := hrefs f
    rw [if_pos rfl] at h2
    exact ⟨hnone, by omega⟩
  · intro f
    have h2 := hrefs f
    rw [if_neg (by omega)]
    rfl
  · intro f hclose
    rwa [setFile_count_close]
  · simp [User.install]

/-- What a call of one process does, where the other processes have `o` descriptors. -/
def CallEffect (k : Ix) (u : User) (k' : Ix) (u' : User) (o : FileIx → Nat) : Prop :=
  Effect k k' (fun f => o f + refs u f) (fun f => o f + refs u' f) ∧
    Counts k' (fun f => o f + refs u' f) ∧ u'.execveclose = u.execveclose

theorem effect_take (hk : Counts k (fun f => o f + refs u f)) {u' : User}
    (h : falloc k u = .ok (k₁, u', fp, fd)) (fn : CloseFn) : CallEffect k u (k₁.setClose fp fn) u' o := by
  obtain ⟨heff, hnone, hrefs, -, hflag⟩ := falloc_spec hk.counts h
  have hset := effect_setClose heff.counts fp fn
  have hall := heff.trans hset (fun f => by
    have := hrefs f
    left
    omega)
  refine ⟨hall, hall.toCounts hk (fun f h0 hpos => ?_), hflag⟩
  have hf : f = fp := by
    by_contra hne
    have := hrefs f
    rw [if_neg (Ne.symm hne)] at this
    omega
  subst hf
  rw [setClose_close]
  simp

/-! ### One descriptor less -/

theorem effect_drop (fn : CloseFn) (hk : Counts k a) (hpos : 0 < a f)
    (hb : ∀ g, b g + (if f = g then 1 else 0) = a g) : Effect k (fn.run k f) a b := by
  -- the test of `__close` and that of the others agree on counts that are not negative
  obtain ⟨last, hrun, hlast⟩ : ∃ last : Int → Bool, fn.run k f = dropRef last k f ∧
      (last (b f) ↔ b f = 0) := by
    cases fn with
    | close =>
      refine ⟨fun n => !decide (n > 0), rfl, ?_⟩
      simp
    | mclose | pclose | unpClose => exact ⟨fun n => decide (n = 0), rfl, by simp⟩
  have hcounts (g : FileIx) : ((k.addCount f (-1)).fileTab g).count = b g := by
    have h1 := hk.counts g
    have h2 := hb g
    rw [Ix.addCount, setFile_fileTab]
    split_ifs at h2 ⊢ with hg
    · rw [hg, h1, ← h2]
      dsimp only
      omega
    · omega
  have hfileTab : (fn.run k f).fileTab = (k.addCount f (-1)).fileTab := by
    rw [hrun, dropRef]
    split_ifs <;> rfl
  refine ⟨?_, ⟨[], ?_, nodup_nil, by simp⟩, ?_, ?_⟩
  · intro g
    rw [hfileTab]
    exact hcounts g
  · rw [hrun, dropRef]
    split_ifs <;> simp [Ix.addCount, Ix.setFile]
  · intro g
    have hlist : (fn.run k f).released = k.released ++ if b f = 0 then [f] else [] := by
      rw [hrun, dropRef]
      simp only [hcounts, hlast]
      split_ifs <;> simp [Ix.addCount, Ix.setFile]
    rw [hlist, count_append]
    by_cases hg : f = g
    · subst hg
      rw [if_congr (and_iff_right hpos) rfl rfl]
      split_ifs <;> simp
    · have h2 := hb g
      rw [if_neg hg] at h2
      have hnot : ¬ (0 < a g ∧ b g = 0) := by omega
      rw [if_neg hnot]
      split_ifs <;> simp [hg]
  · intro g hg
    rwa [hfileTab, Ix.addCount, setFile_count_close]

/-! ## The calls -/

section

variable (hk : Counts k (fun f => o f + refs u f))
include hk

theorem CallEffect.refl : CallEffect k u k u o :=
  ⟨Effect.refl hk, hk, rfl⟩

theorem callEffect_share (hfree : u.ofile fd = none)
    (hlive : 0 < o fp + refs u fp) (x : Bool) :
    CallEffect k u (k.addCount fp 1) (u.install fd fp x) o := by
  obtain ⟨heff, hcounts⟩ := effect_share (b := fun f => o f + refs (u.install fd fp x) f) hk hlive fun f => by
    rw [refs_install_free hfree fp x f, Nat.add_assoc]
  exact ⟨heff, hcounts, rfl⟩

theorem callEffect_drop (hfd : u.ofile fd = some f)
    (fn : CloseFn) : CallEffect k u (fn.run k f) (u.setOfile fd none) o := by
  have hpos := refs_pos hfd
  have hrefs : ∀ g, refs (u.setOfile fd none) g + (if f = g then 1 else 0) = refs u g := by
    intro g
    have := refs_setOfile u fd none g
    rw [hfd] at this
    simpa using this
  have heff : Effect k (fn.run k f) (fun f => o f + refs u f)
      (fun f => o f + refs (u.setOfile fd none) f) :=
    effect_drop fn hk (show 0 < o f + refs u f by omega) (fun g => by
      have := hrefs g
      omega)
  refine ⟨heff, heff.toCounts hk (fun g h0 hg => ?_), rfl⟩
  have := hrefs g
  omega

theorem close_effect (fd : Int) : CallEffect k u (close k u fd).1 (close k u fd).2.1 o := by
  fun_cases close k u fd with
  | case3 _ _ f hf _ _ fn => exact callEffect_drop hk hf fn
  | case4 _ _ f hf _ _ hfn => exact absurd hfn (hk.close_of_slot hf)
  | _ => exact CallEffect.refl hk

theorem openFile_effect {res : Opened}
    (hok : (openFile k u res).2.2.isOk) :
    CallEffect k u (openFile k u res).1 (openFile k u res).2.1 o := by
  unfold openFile at hok ⊢
  split
  · exact CallEffect.refl hk
  · next k₁ u₁ fp fd h =>
    rw [h] at hok
    cases res with
    | file => exact effect_take hk h .close
    | dir => exact effect_take hk h .mclose
    | failed => simp [Except.isOk, Except.toBool] at hok

theorem unpSocket_effect : CallEffect k u (unpSocket k u).1 (unpSocket k u).2.1 o := by
  unfold unpSocket
  split
  · exact CallEffect.refl hk
  · next k₁ u₁ fp fd h =>
    exact effect_take hk h .unpClose

theorem pipe_effect (hok : (pipe k u).2.2.isOk) : CallEffect k u (pipe k u).1 (pipe k u).2.1 o := by
  unfold pipe at hok ⊢
  split
  · exact CallEffect.refl hk
  · next k₁ u₁ f1 fd1 h1 =>
    rw [h1] at hok
    simp only at hok
    split
    · next e h2 =>
      rw [h2] at hok
      simp [Except.isOk, Except.toBool] at hok
    · next k₂ u₂ f2 fd2 h2 =>
      obtain ⟨heff1, hnone1, hrefs1, -, hflag1⟩ := falloc_spec hk.counts h1
      obtain ⟨heff2, hnone2, hrefs2, -, hflag2⟩ := falloc_spec heff1.counts h2
      have hset1 := effect_setClose heff2.counts f1 .pclose
      have hset2 := effect_setClose hset1.counts f2 .pclose
      have hall : Effect k ((k₂.setClose f1 .pclose).setClose f2 .pclose) (fun f => o f + refs u f)
          (fun f => o f + refs u₂ f) := by
        refine ((heff1.trans heff2 ?_).trans hset1 ?_).trans hset2 ?_
        all_goals
          intro f
          have := hrefs1 f
          have := hrefs2 f
          left
          omega
      refine ⟨hall, hall.toCounts hk (fun f h0 hpos => ?_), hflag2.trans hflag1⟩
      -- an entry new in use is one of the two
      by_cases hf2 : f = f2
      · subst hf2
        rw [setClose_close]
        simp
      · by_cases hf1 : f = f1
        · subst hf1
          refine hset2.close f ?_
          rw [setClose_close]
          simp
        · have h1 := hrefs1 f
          have h2 := hrefs2 f
          rw [if_neg (Ne.symm hf1)] at h1
          rw [if_neg (Ne.symm hf2)] at h2
          omega

end

theorem getFile_ok {i : Nat} {r : Fd × FileIx} (h : getFile u i = .ok r) :
    u.ofile r.1 = some r.2 ∧ (r.1 : Nat) = i := by
  unfold getFile at h
  split_ifs at h with hi
  split at h
  · next fp hfp =>
    cases h
    exact ⟨hfp, rfl⟩
  · exact absurd h (by simp)

theorem getFile_live {i : Nat} {r : Fd × FileIx} (h : getFile u i = .ok r) : 0 < refs u r.2 :=
  refs_pos (getFile_ok h).1

section

variable (hk : Counts k (fun f => o f + refs u f))
include hk

theorem dup_effect (i : Nat) : CallEffect k u (dup k u i).1 (dup k u i).2.1 o := by
  fun_cases dup k u i with
  | case3 _ fp hget fd hfd =>
    have hlive : 0 < refs u fp := getFile_live hget
    exact callEffect_share hk (ufalloc_free hfd) (by omega) false
  | _ => exact CallEffect.refl hk

theorem fcntlDupfd_effect (fdes : Nat) (arg : Int) :
    CallEffect k u (fcntlDupfd k u fdes arg).1 (fcntlDupfd k u fdes arg).2.1 o := by
  fun_cases fcntlDupfd k u fdes arg with
  | case4 _ fp hget _ fd hfd =>
    have hlive : 0 < refs u fp := getFile_live hget
    exact callEffect_share hk (ufalloc_free hfd) (by omega) false
  | _ => exact CallEffect.refl hk

theorem fcntlInternalize_effect
    (hlive : 0 < (k.fileTab fp).count) :
    CallEffect k u (fcntlInternalize k u fp).1 (fcntlInternalize k u fp).2.1 o := by
  unfold fcntlInternalize
  split
  · exact CallEffect.refl hk
  · next fd hfd =>
    have := hk.counts fp
    exact callEffect_share hk (ufalloc_free hfd) (by omega) false

end

theorem CallEffect.trans {u₁ u' : User} (h : CallEffect k u k₁ u₁ o) (h' : CallEffect k₁ u₁ k' u' o)
    (hmono : ∀ f, (refs u f ≤ refs u₁ f ∧ refs u₁ f ≤ refs u' f) ∨
      (refs u' f ≤ refs u₁ f ∧ refs u₁ f ≤ refs u f) ∨
      (0 < o f + refs u f ∧ 0 < o f + refs u₁ f ∧ 0 < o f + refs u' f)) :
    CallEffect k u k' u' o :=
  ⟨h.1.trans h'.1 (fun f => by
    have := hmono f
    omega), h'.2.1, h'.2.2.trans h.2.2⟩

/-- `dup2` closes what the slot held and shares what the other slot holds.  Both may be the same file,
which then has two descriptors to begin with. -/
theorem dup2_effect (hk : Counts k (fun f => o f + refs u f)) (i j : Nat) :
    CallEffect k u (dup2 k u i j).1 (dup2 k u i j).2.1 o := by
  unfold dup2
  split
  · exact CallEffect.refl hk
  · next r fp hget =>
    obtain ⟨hslot, hri⟩ := getFile_ok hget
    simp only at hslot hri
    split_ifs with hj hij
    · exact CallEffect.refl hk
    · obtain ⟨fd, hfd⟩ : ∃ fd : Fd, fd = ⟨j, hj⟩ := ⟨_, rfl⟩
      have hne : r ≠ fd := by
        rintro rfl
        apply hij
        rw [← hri, hfd]
      simp only [← hfd]
      have hclear : (u.setOfile fd none).ofile r = some fp := by
        simpa [User.setOfile, hne] using hslot
      have hinstall : (u.setOfile fd none).install fd fp false = u.install fd fp false := by
        simp [User.setOfile, User.install]
      have hpos := refs_pos hclear
      split
      · next f hf =>
        split
        · next fn hfn =>
          have hdrop := callEffect_drop hk hf fn
          have hempty : (u.setOfile fd none).ofile fd = none := by simp [User.setOfile]
          have hshare := callEffect_share hdrop.2.1 hempty
            (show 0 < o fp + refs (u.setOfile fd none) fp by omega) false
          rw [hinstall] at hshare
          refine hdrop.trans hshare fun g => ?_
          have h1 := refs_setOfile u fd none g
          have h2 := refs_install u fd fp false g
          simp only [hf, Option.some.injEq, reduceCtorEq, if_false] at h1 h2
          by_cases hg : fp = g
          · subst hg
            by_cases hfg : f = fp
            · omega
            · omega
          · rw [if_neg hg] at h2
            omega
        · next hfn => exact absurd hfn (hk.close_of_slot hf)
      · next hfree =>
        have := refs_pos hslot
        exact callEffect_share hk hfree (by omega) false
    · exact CallEffect.refl hk

/-! ## The loops over a table -/

theorem adjustCounts_effect (fds : List Fd) (hk : Counts k a)
    (hlive : ∀ f fd, u.ofile fd = some f → 0 < a f) :
    Effect k (adjustCounts u k fds) a
        (fun f => a f + fds.countP (fun fd => pointsTo f (u.ofile fd))) ∧
      Counts (adjustCounts u k fds) (fun f => a f + fds.countP (fun fd => pointsTo f (u.ofile fd))) := by
  induction fds generalizing k a with
  | nil =>
    exact ⟨Effect.refl hk, hk⟩
  | cons fd fds ih =>
    unfold adjustCounts
    cases hslot : u.ofile fd with
    | none =>
      obtain ⟨h1, h2⟩ := ih hk hlive
      have hsame : ∀ f, (fd :: fds).countP (fun fd => pointsTo f (u.ofile fd)) =
          fds.countP (fun fd => pointsTo f (u.ofile fd)) := by
        intro f
        rw [countP_cons_of_neg (by simp [pointsTo, hslot])]
      simp only [hsame]
      exact ⟨h1, h2⟩
    | some fp =>
      have hone : ∀ f, (fd :: fds).countP (fun fd => pointsTo f (u.ofile fd)) =
          (if fp = f then 1 else 0) + fds.countP (fun fd => pointsTo f (u.ofile fd)) := by
        intro f
        rw [countP_cons, Nat.add_comm]
        by_cases hf : fp = f <;> simp [pointsTo, hslot, hf]
      obtain ⟨hshare, hk'⟩ := effect_share hk (hlive fp fd hslot) fun f => rfl
      obtain ⟨h1, h2⟩ := ih hk' (fun f fd hfd => by
        have := hlive f fd hfd
        omega)
      simp only [hone, ← Nat.add_assoc]
      refine ⟨hshare.trans h1 (fun f => ?_), h2⟩
      left
      omega

theorem closeAll_effect (fds : List Fd) (hk : Counts k (fun f => o f + refs u f))
    (hflag : u.execveclose = false) :
    CallEffect k u (closeAll k u fds).1 (closeAll k u fds).2 o ∧
      (∀ f, refs (closeAll k u fds).2 f ≤ refs u f) ∧
      (∀ fd, u.ofile fd = none → (closeAll k u fds).2.ofile fd = none) ∧
      ∀ fd ∈ fds, (closeAll k u fds).2.ofile fd = none := by
  induction fds generalizing k u with
  | nil => exact ⟨CallEffect.refl hk, fun _ => le_rfl, fun _ h => h, by simp⟩
  | cons fd fds ih =>
    unfold closeAll
    cases hslot : u.ofile fd with
    | none =>
      obtain ⟨h1, h2, h3, h4⟩ := ih hk hflag
      exact ⟨h1, h2, h3, forall_mem_cons.mpr ⟨h3 fd hslot, h4⟩⟩
    | some =>
      simp only [Option.isSome_some, if_true]
      have hclose : (close k u (fd : Nat)).2.1 = u.setOfile fd none := by
        have hrange : 0 ≤ ((fd : Nat) : Int) ∧ ((fd : Nat) : Int) < nofile := by
          omega
        unfold close
        rw [dif_pos hrange]
        simp only [Int.toNat_natCast, Fin.eta, hslot, hflag, Bool.false_and, Bool.false_eq_true,
          if_false]
        split <;> rfl
      have hone := close_effect hk (fd : Nat)
      rw [hclose] at hone ⊢
      obtain ⟨h1, h2, h3, h4⟩ := ih hone.2.1 hflag
      have hless : ∀ g, refs (u.setOfile fd none) g ≤ refs u g := by
        intro g
        have := refs_setOfile u fd none g
        rw [if_neg (show ¬ (none = some g) by simp)] at this
        omega
      have hnone : (u.setOfile fd none).ofile fd = none := by simp [User.setOfile]
      refine ⟨hone.trans h1 (fun g => .inr (.inl ⟨h2 g, hless g⟩)),
        fun g => le_trans (h2 g) (hless g), fun fd' hfd' => h3 fd' ?_,
        forall_mem_cons.mpr ⟨h3 fd hnone, h4⟩⟩
      by_cases heq : fd' = fd
      · subst heq
        exact hnone
      · simpa [User.setOfile, heq] using hfd'

end Ixemul.Descrip
