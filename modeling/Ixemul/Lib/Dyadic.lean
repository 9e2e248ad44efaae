/-
# Ixemul.Lib.Dyadic — chunks of memory cut into aligned power-of-two tiles.

A buddy system owns disjoint chunks of `2 ^ N` bytes and keeps every chunk cut into tiles; one of order `k`
is `2 ^ k` bytes long and starts at a multiple of `2 ^ k` from the base of its chunk.  `Tiling` says that
the tiles fit exactly.  Cutting a tile in two and joining two buddies keeps that, and the byte where the
buddy of a tile starts is the first byte of some tile of at most the same order (`Tiling.buddy_start`): what
is written there is the header of a tile, never the inside of one.
-/
import Mathlib.Data.Nat.Bitwise
import Mathlib.Data.List.Pairwise
import Mathlib.Algebra.Order.Group.Nat

namespace Ixemul.Lib.Dyadic

open List

/-! ## Buddy addresses -/

/-- The address of the buddy of the order-`k` tile at `addr`: flip bit `k` of its offset. -/
def buddyOf (base addr k : Nat) : Nat := ((addr - base) ^^^ 2 ^ k) + base

theorem xor_two_pow_mul (k q : Nat) :
    (2 ^ k * q) ^^^ 2 ^ k = if Even q then 2 ^ k * (q + 1) else 2 ^ k * (q - 1) := by
  have hshift : (2 ^ k * q) ^^^ 2 ^ k = 2 ^ k * (q ^^^ 1) := by
    have h := Nat.shiftLeft_xor_distrib (a := q) (b := 1) (i := k)
    simp only [Nat.shiftLeft_eq, one_mul] at h
    rw [mul_comm, ← h, mul_comm]
  rw [hshift]
  split_ifs with hq
  · rw [Nat.xor_one_of_even hq]
  · rw [Nat.xor_one_of_odd (Nat.not_even_iff_odd.mp hq)]

variable {k : Nat}

theorem xor_two_pow_spec {o : Nat} (hd : 2 ^ k ∣ o) :
    2 ^ k ∣ (o ^^^ 2 ^ k) ∧ (o ^^^ 2 ^ k) / 2 ^ (k + 1) = o / 2 ^ (k + 1) ∧ (o ^^^ 2 ^ k) ≠ o := by
  obtain ⟨q, rfl⟩ := hd
  have hpos : 0 < 2 ^ k := Nat.two_pow_pos k
  have hdiv : ∀ p, 2 ^ k * p / 2 ^ (k + 1) = p / 2 := fun p => by
    rw [pow_succ, Nat.mul_div_mul_left _ _ hpos]
  rw [xor_two_pow_mul]
  split_ifs with hq
  · refine ⟨Dvd.intro _ rfl, ?_, fun h => ?_⟩
    · rw [hdiv, hdiv]
      obtain ⟨r, rfl⟩ := hq
      omega
    · exact absurd (Nat.eq_of_mul_eq_mul_left hpos h) (by omega)
  · refine ⟨Dvd.intro _ rfl, ?_, fun h => ?_⟩
    · rw [hdiv, hdiv]
      obtain ⟨r, rfl⟩ := Nat.not_even_iff_odd.mp hq
      omega
    · have := Nat.eq_of_mul_eq_mul_left hpos h
      obtain ⟨r, rfl⟩ := Nat.not_even_iff_odd.mp hq
      omega

variable {base addr : Nat}

theorem buddyOf_buddyOf (k : Nat) (hb : base ≤ addr) : buddyOf base (buddyOf base addr k) k = addr := by
  simp only [buddyOf, Nat.add_sub_cancel, Nat.xor_assoc, Nat.xor_self, Nat.xor_zero]
  omega

theorem buddyOf_pair (hb : base ≤ addr) (hd : 2 ^ k ∣ addr - base) :
    (2 ^ (k + 1) ∣ addr - base ∧ buddyOf base addr k = addr + 2 ^ k) ∨
      (2 ^ (k + 1) ∣ buddyOf base addr k - base ∧ addr = buddyOf base addr k + 2 ^ k) := by
  obtain ⟨q, hq⟩ := hd
  have hbuddy : buddyOf base addr k =
      (if Even q then 2 ^ k * (q + 1) else 2 ^ k * (q - 1)) + base := by
    rw [buddyOf, hq, xor_two_pow_mul]
  by_cases hev : Even q
  · left
    rw [if_pos hev, mul_add, mul_one, ← hq] at hbuddy
    obtain ⟨r, rfl⟩ := hev
    refine ⟨⟨r, ?_⟩, by omega⟩
    rw [hq, pow_succ, mul_assoc, Nat.two_mul]
  · right
    obtain ⟨r, rfl⟩ := Nat.not_even_iff_odd.mp hev
    rw [if_neg hev, Nat.add_sub_cancel] at hbuddy
    rw [mul_add, mul_one] at hq
    refine ⟨⟨r, ?_⟩, by omega⟩
    rw [hbuddy, Nat.add_sub_cancel, pow_succ, mul_assoc]

theorem buddyOf_upper (hb : base ≤ addr) (hd : 2 ^ (k + 1) ∣ addr - base) :
    buddyOf base (addr + 2 ^ k) k = addr := by
  obtain ⟨q, hq⟩ := hd
  have hlower : buddyOf base addr k = addr + 2 ^ k := by
    have heven : 2 ^ (k + 1) * q = 2 ^ k * (2 * q) := by rw [pow_succ, mul_assoc]
    rw [buddyOf, hq, heven, xor_two_pow_mul, if_pos (even_two_mul q), mul_add, ← heven, ← hq]
    omega
  rw [← hlower]
  exact buddyOf_buddyOf k hb

/-! ## Chunks and tiles -/

variable {τ : Type*}

/-- A chunk of `2 ^ N` bytes, with a tag that its tiles share. -/
structure Chunk (τ : Type*) where
  tag : τ
  base : Nat
  deriving DecidableEq

/-- A tile of order `k`, free or in use. -/
structure Tile (τ : Type*) where
  tag : τ
  addr : Nat
  k : Nat
  free : Bool
  deriving DecidableEq

/-- The tile holds the byte at `x`. -/
def Tile.Covers (t : Tile τ) (x : Nat) : Prop := t.addr ≤ x ∧ x < t.addr + 2 ^ t.k

/-- The two tiles share no byte. -/
def Tile.Apart (t u : Tile τ) : Prop := t.addr + 2 ^ t.k ≤ u.addr ∨ u.addr + 2 ^ u.k ≤ t.addr

/-- The two chunks share no byte. -/
def Chunk.Apart (N : Nat) (c d : Chunk τ) : Prop :=
  c.base + 2 ^ N ≤ d.base ∨ d.base + 2 ^ N ≤ c.base

/-- The tile is cut from the chunk, at a multiple of its own size. -/
structure Tile.Within (N : Nat) (t : Tile τ) (c : Chunk τ) : Prop where
  tag : t.tag = c.tag
  order : t.k ≤ N
  base_le : c.base ≤ t.addr
  top_le : t.addr + 2 ^ t.k ≤ c.base + 2 ^ N
  aligned : 2 ^ t.k ∣ t.addr - c.base

/-- The tiles `ts` cut the chunks `cs` up exactly. -/
structure Tiling (N : Nat) (cs : List (Chunk τ)) (ts : List (Tile τ)) : Prop where
  within : ∀ t ∈ ts, ∃ c ∈ cs, t.Within N c
  apart : ts.Pairwise Tile.Apart
  cover : ∀ c ∈ cs, ∀ x, c.base ≤ x → x < c.base + 2 ^ N → ∃ t ∈ ts, t.Covers x
  chunks : cs.Pairwise (Chunk.Apart N)

variable {N : Nat} {cs : List (Chunk τ)} {ts us : List (Tile τ)} {c d : Chunk τ} {t u : Tile τ} {x a m : Nat}
  {g : τ}

theorem Tile.Apart.symm (h : t.Apart u) : u.Apart t := Or.symm h

theorem Chunk.Apart.symm (h : c.Apart N d) : d.Apart N c := Or.symm h

instance : Std.Symm (Tile.Apart (τ := τ)) := ⟨fun _ _ => Tile.Apart.symm⟩

instance : Std.Symm (Chunk.Apart (τ := τ) N) := ⟨fun _ _ => Chunk.Apart.symm⟩

theorem Tile.Apart.not_covers (h : t.Apart u) (ht : t.Covers x) : ¬ u.Covers x := by
  rcases h with h | h <;> intro hu <;> have := ht.1 <;> have := ht.2 <;> have := hu.1 <;>
    have := hu.2 <;> omega

theorem Tile.Within.setFree {b b' : Bool}
    (hw : (⟨g, a, k, b⟩ : Tile τ).Within N c) : (⟨g, a, k, b'⟩ : Tile τ).Within N c :=
  ⟨hw.tag, hw.order, hw.base_le, hw.top_le, hw.aligned⟩

theorem Tile.covers_addr (t : Tile τ) : t.Covers t.addr :=
  ⟨le_rfl, Nat.lt_add_of_pos_right (Nat.two_pow_pos _)⟩

theorem Tile.apart_of_covers (h : ∀ x, t.Covers x → ¬ u.Covers x) : t.Apart u := by
  have ht := h t.addr t.covers_addr
  have hu : ¬ t.Covers u.addr := fun hcov => h u.addr hcov u.covers_addr
  unfold Tile.Covers at ht hu
  unfold Tile.Apart
  omega

namespace Tiling

theorem perm (hT : Tiling N cs ts) (hp : ts.Perm us) : Tiling N cs us where
  within := fun t ht => hT.within t (hp.mem_iff.mpr ht)
  apart := (hp.pairwise_iff Tile.Apart.symm).mp hT.apart
  cover := fun c hc x h1 h2 => by
    obtain ⟨t, ht, hx⟩ := hT.cover c hc x h1 h2
    exact ⟨t, hp.mem_iff.mp ht, hx⟩
  chunks := hT.chunks

theorem perm_chunks {ds : List (Chunk τ)} (hT : Tiling N cs ts) (hp : cs.Perm ds) : Tiling N ds ts where
  within := fun t ht => by
    obtain ⟨c, hc, hw⟩ := hT.within t ht
    exact ⟨c, hp.mem_iff.mp hc, hw⟩
  apart := hT.apart
  cover := fun c hc => hT.cover c (hp.mem_iff.mpr hc)
  chunks := (hp.pairwise_iff Chunk.Apart.symm).mp hT.chunks

variable {x : Nat}

theorem eq_of_covers (hT : Tiling N cs ts) (ht : t ∈ ts) (hu : u ∈ ts)
    (hx : t.Covers x) (hy : u.Covers x) : t = u := by
  by_contra hne
  exact (hT.apart.forall ht hu hne).not_covers hx hy

theorem chunk_eq (hT : Tiling N cs ts) (hc : c ∈ cs) (hd : d ∈ cs)
    (hcx : c.base ≤ x ∧ x < c.base + 2 ^ N) (hdx : d.base ≤ x ∧ x < d.base + 2 ^ N) : c = d := by
  by_contra hne
  rcases hT.chunks.forall hc hd hne with h | h <;> omega

theorem within_of_covers (hT : Tiling N cs ts) (ht : t ∈ ts) (hx : t.Covers x)
    (hc : c ∈ cs) (h1 : c.base ≤ x) (h2 : x < c.base + 2 ^ N) : t.Within N c := by
  obtain ⟨d, hd, hw⟩ := hT.within t ht
  have hdx : d.base ≤ x ∧ x < d.base + 2 ^ N := by
    have := hw.base_le; have := hw.top_le; have := hx.1; have := hx.2
    omega
  rwa [hT.chunk_eq hc hd ⟨h1, h2⟩ hdx]

theorem chunk_unique (hT : Tiling N cs ts) (hc : c ∈ cs) (hd : d ∈ cs)
    (hwc : t.Within N c) (hwd : t.Within N d) : c = d := by
  have hp : 0 < 2 ^ t.k := Nat.two_pow_pos _
  have h1 := hwc.base_le; have h2 := hwc.top_le; have h3 := hwd.base_le; have h4 := hwd.top_le
  exact hT.chunk_eq hc hd ⟨h1, by omega⟩ ⟨h3, by omega⟩

end Tiling

theorem block_in_run {D y : Nat} (hD : 0 < D) (ha : D ∣ a) (hm : D ∣ m)
    (hx : a ≤ x ∧ x < a + m) (hxy : x / D = y / D) : a ≤ y ∧ y < a + m := by
  obtain ⟨p, rfl⟩ := ha
  obtain ⟨q, rfl⟩ := hm
  have hlo : p ≤ x / D := (Nat.le_div_iff_mul_le hD).mpr (by rw [mul_comm]; exact hx.1)
  have hhi : x / D < p + q := (Nat.div_lt_iff_lt_mul hD).mpr (by rw [mul_comm, mul_add]; exact hx.2)
  rw [hxy] at hlo hhi
  rw [Nat.le_div_iff_mul_le hD, mul_comm] at hlo
  rw [Nat.div_lt_iff_lt_mul hD, mul_comm, mul_add] at hhi
  exact ⟨hlo, hhi⟩

theorem eq_of_dvd_run (ha : m ∣ a) (hx : m ∣ x) (h : a ≤ x ∧ x < a + m) : x = a := by
  obtain ⟨p, rfl⟩ := ha
  obtain ⟨q, rfl⟩ := hx
  have hpq : p ≤ q := Nat.le_of_mul_le_mul_left h.1 (by omega)
  have hqp : q < p + 1 := by
    refine Nat.lt_of_mul_lt_mul_left (a := m) ?_
    exact h.2
  rw [show q = p by omega]

theorem Tile.Within.buddy_mem (hw : t.Within N c) (hk : t.k < N) :
    c.base ≤ buddyOf c.base t.addr t.k ∧ buddyOf c.base t.addr t.k < c.base + 2 ^ N := by
  have h1 := hw.base_le; have h2 := hw.top_le
  have hp : 0 < 2 ^ t.k := Nat.two_pow_pos _
  have hlt : t.addr - c.base < 2 ^ N := by omega
  have hx : (t.addr - c.base) ^^^ 2 ^ t.k < 2 ^ N :=
    Nat.xor_lt_two_pow hlt (Nat.pow_lt_pow_right (by omega) hk)
  simp only [buddyOf]
  omega

/-- **The buddy's address is where a tile starts**, and that tile is not longer than the one it is the
buddy of.  A longer tile there would reach over the pair and overlap the tile itself. -/
theorem Tiling.buddy_start (hT : Tiling N cs ts) (ht : t ∈ ts) (hc : c ∈ cs) (hw : t.Within N c)
    (hk : t.k < N) :
    ∃ u ∈ ts, u.Within N c ∧ u.addr = buddyOf c.base t.addr t.k ∧ u.k ≤ t.k ∧ u ≠ t := by
  obtain ⟨hlo, hhi⟩ := hw.buddy_mem hk
  obtain ⟨u, hu, hcov⟩ := hT.cover c hc _ hlo hhi
  have hwu : u.Within N c := hT.within_of_covers hu hcov hc hlo hhi
  obtain ⟨hdvd, hpair, hne⟩ := xor_two_pow_spec hw.aligned
  have hoff : buddyOf c.base t.addr t.k - c.base = (t.addr - c.base) ^^^ 2 ^ t.k := by
    simp [buddyOf]
  have hrun : u.addr - c.base ≤ (t.addr - c.base) ^^^ 2 ^ t.k ∧
      (t.addr - c.base) ^^^ 2 ^ t.k < u.addr - c.base + 2 ^ u.k := by
    have h1 := hcov.1; have h2 := hcov.2; have h3 := hwu.base_le
    omega
  have hle : u.k ≤ t.k := by
    by_contra hgt
    have hD : 2 ^ (t.k + 1) ∣ 2 ^ u.k := pow_dvd_pow 2 (by omega)
    have hcover := block_in_run (Nat.two_pow_pos _) (hD.trans hwu.aligned) hD hrun hpair
    have hut : u.Covers t.addr := by
      have h3 := hwu.base_le; have h4 := hw.base_le
      exact ⟨by omega, by omega⟩
    have := hT.eq_of_covers hu ht hut t.covers_addr
    subst this
    omega
  have hstart : (t.addr - c.base) ^^^ 2 ^ t.k = u.addr - c.base :=
    eq_of_dvd_run hwu.aligned ((pow_dvd_pow 2 hle).trans hdvd) hrun
  refine ⟨u, hu, hwu, ?_, hle, ?_⟩
  · have := hwu.base_le
    omega
  · rintro rfl
    exact hne hstart

/-! ## Operations on tilings -/

namespace Tiling

/-- Tiles are replaced by others that cover the same bytes. -/
theorem replace (os ns : List (Tile τ)) (hT : Tiling N cs (os ++ ts))
    (hwithin : ∀ t ∈ ns, ∃ c ∈ cs, t.Within N c) (hapart : ns.Pairwise Tile.Apart)
    (hcov : ∀ x, (∃ t ∈ ns, t.Covers x) ↔ ∃ t ∈ os, t.Covers x) : Tiling N cs (ns ++ ts) := by
  obtain ⟨-, hts, hcross⟩ := pairwise_append.mp hT.apart
  refine ⟨?_, pairwise_append.mpr ⟨hapart, hts, ?_⟩, ?_, hT.chunks⟩
  · intro t ht
    rcases mem_append.mp ht with ht | ht
    · exact hwithin t ht
    · exact hT.within t (mem_append_right _ ht)
  · intro t ht u hu
    refine Tile.apart_of_covers fun x htx hux => ?_
    obtain ⟨o, ho, hox⟩ := (hcov x).mp ⟨t, ht, htx⟩
    exact (hcross o ho u hu).not_covers hox hux
  · intro c hc x h1 h2
    obtain ⟨u, hu, hx⟩ := hT.cover c hc x h1 h2
    rcases mem_append.mp hu with hu | hu
    · obtain ⟨t, ht, htx⟩ := (hcov x).mpr ⟨u, hu, hx⟩
      exact ⟨t, mem_append_left _ ht, htx⟩
    · exact ⟨u, mem_append_right _ hu, hx⟩

theorem setFree (hT : Tiling N cs (t :: ts)) (b : Bool) : Tiling N cs ({ t with free := b } :: ts) := by
  refine replace [t] [{ t with free := b }] hT ?_ (pairwise_singleton ..) (by simp [Tile.Covers])
  intro u hu
  obtain ⟨c, hc, hw⟩ := hT.within t (mem_cons_self ..)
  rw [mem_singleton.mp hu]
  exact ⟨c, hc, hw.setFree⟩

variable {g : τ} {a k : Nat} {b₀ b₁ b₂ : Bool}

theorem covers_halves : (⟨g, a, k + 1, b₀⟩ : Tile τ).Covers x ↔
    (⟨g, a, k, b₁⟩ : Tile τ).Covers x ∨ (⟨g, a + 2 ^ k, k, b₂⟩ : Tile τ).Covers x := by
  simp only [Tile.Covers, pow_succ]
  omega

theorem split (hT : Tiling N cs (⟨g, a, k + 1, b₀⟩ :: ts)) :
    Tiling N cs (⟨g, a, k, b₁⟩ :: ⟨g, a + 2 ^ k, k, b₂⟩ :: ts) := by
  have hpow : 2 ^ (k + 1) = 2 ^ k + 2 ^ k := by rw [pow_succ]; omega
  refine replace [⟨g, a, k + 1, b₀⟩] [⟨g, a, k, b₁⟩, ⟨g, a + 2 ^ k, k, b₂⟩] hT ?_
    (pairwise_pair.mpr (.inl le_rfl)) fun x => by simpa using covers_halves.symm
  intro u hu
  obtain ⟨c, hc, hw⟩ := hT.within _ (mem_cons_self ..)
  have h1 := hw.order; have h2 := hw.base_le; have h3 := hw.top_le; have h4 := hw.aligned
  simp only [hpow] at h1 h2 h3 h4
  have hdvd : 2 ^ k ∣ a - c.base := dvd_trans (Dvd.intro 2 (by omega)) h4
  simp only [mem_cons, not_mem_nil, or_false] at hu
  rcases hu with rfl | rfl
  · exact ⟨c, hc, ⟨hw.tag, by simp only; omega, h2, by simp only; omega, hdvd⟩⟩
  · refine ⟨c, hc, ⟨hw.tag, by simp only; omega, by simp only; omega, by simp only; omega, ?_⟩⟩
    rw [show a + 2 ^ k - c.base = (a - c.base) + 2 ^ k by omega]
    exact (Nat.dvd_add_right hdvd).mpr dvd_rfl

theorem merge (hc : c ∈ cs)
    (hT : Tiling N cs (⟨g, a, k, b₁⟩ :: ⟨g, a + 2 ^ k, k, b₂⟩ :: ts))
    (hw : (⟨g, a, k, b₁⟩ : Tile τ).Within N c) (hk : k < N) (hal : 2 ^ (k + 1) ∣ a - c.base) :
    Tiling N cs (⟨g, a, k + 1, b₀⟩ :: ts) := by
  refine replace [⟨g, a, k, b₁⟩, ⟨g, a + 2 ^ k, k, b₂⟩] [⟨g, a, k + 1, b₀⟩] hT ?_ (pairwise_singleton ..)
    fun x => by simpa using covers_halves
  intro u hu
  rw [mem_singleton.mp hu]
  -- the chunk ends at a multiple of the size of the pair
  have hbase := hw.base_le; have htop := hw.top_le
  simp only at hbase htop
  have hpair : a + 2 ^ (k + 1) ≤ c.base + 2 ^ N := by
    obtain ⟨p, hp⟩ := hal
    obtain ⟨q, hq⟩ : 2 ^ (k + 1) ∣ 2 ^ N := pow_dvd_pow 2 hk
    have hlt : 2 ^ (k + 1) * p < 2 ^ (k + 1) * q := by
      have hp0 : 0 < 2 ^ k := Nat.two_pow_pos k
      rw [← hp, ← hq]; omega
    have hpq : p + 1 ≤ q := Nat.lt_of_mul_lt_mul_left hlt
    have := Nat.mul_le_mul_left (2 ^ (k + 1)) hpq
    rw [mul_add, ← hp, ← hq] at this
    omega
  exact ⟨c, hc, ⟨hw.tag, hk, hbase, hpair, hal⟩⟩

theorem addChunk (hT : Tiling N cs ts) (hc : ∀ d ∈ cs, c.Apart N d) (b : Bool) :
    Tiling N (c :: cs) (⟨c.tag, c.base, N, b⟩ :: ts) where
  within := by
    intro u hu
    rcases mem_cons.mp hu with rfl | hu
    · exact ⟨c, mem_cons_self .., ⟨rfl, le_rfl, le_rfl, le_rfl, by simp⟩⟩
    · obtain ⟨d, hd, hw⟩ := hT.within u hu
      exact ⟨d, mem_cons_of_mem _ hd, hw⟩
  apart := by
    refine pairwise_cons.mpr ⟨fun u hu => ?_, hT.apart⟩
    obtain ⟨d, hd, hw⟩ := hT.within u hu
    have h2 := hw.base_le; have h3 := hw.top_le
    rcases hc d hd with h | h
    · exact .inl (by simp only; omega)
    · exact .inr (by simp only; omega)
  cover := by
    intro d hd x h1 h2
    rcases mem_cons.mp hd with rfl | hd
    · exact ⟨_, mem_cons_self .., ⟨h1, h2⟩⟩
    · obtain ⟨u, hu, hx⟩ := hT.cover d hd x h1 h2
      exact ⟨u, mem_cons_of_mem _ hu, hx⟩
  chunks := pairwise_cons.mpr ⟨hc, hT.chunks⟩

theorem dropChunk {b : Bool} (hT : Tiling N (c :: cs) (⟨g, c.base, N, b⟩ :: ts)) : Tiling N cs ts where
  within := by
    intro u hu
    obtain ⟨d, hd, hw⟩ := hT.within u (mem_cons_of_mem _ hu)
    rcases mem_cons.mp hd with rfl | hd
    · have hp : 0 < 2 ^ u.k := Nat.two_pow_pos _
      have h2 := hw.base_le; have h3 := hw.top_le
      rcases (pairwise_cons.mp hT.apart).1 u hu with h | h <;> simp only at h <;> omega
    · exact ⟨d, hd, hw⟩
  apart := (pairwise_cons.mp hT.apart).2
  cover := by
    intro d hd x h1 h2
    obtain ⟨u, hu, hx⟩ := hT.cover d (mem_cons_of_mem _ hd) x h1 h2
    rcases mem_cons.mp hu with rfl | hu
    · have hx1 := hx.1; have hx2 := hx.2
      simp only at hx1 hx2
      rcases (pairwise_cons.mp hT.chunks).1 d hd with h | h <;> omega
    · exact ⟨u, hu, hx⟩
  chunks := (pairwise_cons.mp hT.chunks).2

end Tiling

/-! ## Coalescing -/

/-- No two free tiles are buddies of one order. -/
def NoFreeBuddies (N : Nat) (cs : List (Chunk τ)) (ts : List (Tile τ)) : Prop :=
  ∀ c ∈ cs, ∀ t ∈ ts, ∀ u ∈ ts, t.Within N c → u.Within N c → t.free = true → u.free = true →
    u.k = t.k → u.addr ≠ buddyOf c.base t.addr t.k

theorem NoFreeBuddies.mono {ds : List (Chunk τ)} (hF : NoFreeBuddies N cs ts)
    (hds : ∀ c ∈ ds, c ∈ cs) (hus : ∀ t ∈ us, t.free → t ∈ ts) : NoFreeBuddies N ds us :=
  fun c hc t ht u hu hwt hwu hft hfu =>
    hF c (hds c hc) t (hus t ht hft) u (hus u hu hfu) hwt hwu hft hfu

theorem NoFreeBuddies.cons (hF : NoFreeBuddies N cs ts) (hT : Tiling N cs (t :: ts)) (hc : c ∈ cs)
    (hw : t.Within N c) (hu : u ∈ t :: ts) (haddr : u.addr = buddyOf c.base t.addr t.k)
    (hno : ¬(u.free ∧ u.k = t.k)) : NoFreeBuddies N cs (t :: ts) := by
  -- a tile that starts where `u` starts is `u`
  have hat : ∀ x ∈ t :: ts, x.addr = u.addr → x = u := fun x hx hxu =>
    hT.eq_of_covers hx hu (Tile.covers_addr x) (hxu ▸ Tile.covers_addr u)
  intro d hd x hx y hy hwx hwy hfx hfy hk hxy
  rcases mem_cons.mp hx with rfl | hx'
  · have hdc := hT.chunk_unique hc hd hw hwx
    subst hdc
    have hyu := hat y hy (hxy.trans haddr.symm)
    subst hyu
    exact hno ⟨hfy, hk⟩
  · rcases mem_cons.mp hy with rfl | hy'
    · -- the buddy of the buddy is the tile itself
      have hdc := hT.chunk_unique hc hd hw hwy
      subst hdc
      have hback : x.addr = u.addr := by
        rw [haddr, hxy, hk, buddyOf_buddyOf _ hwx.base_le]
      have hxu := hat x hx hback
      subst hxu
      exact hno ⟨hfx, hk.symm⟩
    · exact hF d hd x hx' y hy' hwx hwy hfx hfy hk hxy

theorem NoFreeBuddies.addChunk (hF : NoFreeBuddies N cs ts)
    (hT : Tiling N (c :: cs) (⟨g, c.base, N, false⟩ :: ts)) :
    NoFreeBuddies N (c :: cs) (⟨g, c.base, N, false⟩ :: ts) := by
  intro d hd x hx y hy hwx hwy hfx hfy hk hxy
  have hmem : ∀ z ∈ (⟨g, c.base, N, false⟩ : Tile τ) :: ts, z.free → z ∈ ts := by
    intro z hz hfz
    rcases mem_cons.mp hz with rfl | hz
    · exact absurd hfz (by simp)
    · exact hz
  rcases mem_cons.mp hd with rfl | hd
  · -- no other tile is cut from the new chunk
    have hp : 0 < 2 ^ x.k := Nat.two_pow_pos _
    have h1 := hwx.base_le; have h2 := hwx.top_le
    have hcov : (⟨g, d.base, N, false⟩ : Tile τ).Covers x.addr := ⟨h1, by simp only; omega⟩
    have := hT.eq_of_covers (mem_cons_self ..) hx hcov (Tile.covers_addr x)
    subst this
    exact absurd hfx (by simp)
  · exact hF d hd x (hmem x hx hfx) y (hmem y hy hfy) hwx hwy hfx hfy hk hxy

/-- Where every tile is free, of order below `N`, and no two are buddies, there is no chunk: the
smallest tile of a chunk would have a buddy no smaller than itself. -/
theorem Tiling.no_chunks (hT : Tiling N cs ts) (hF : NoFreeBuddies N cs ts)
    (hfree : ∀ t ∈ ts, t.free ∧ t.k < N) : cs = [] := by
  rcases cs with _ | ⟨c, cs⟩
  · rfl
  · exfalso
    have hc : c ∈ c :: cs := mem_cons_self ..
    have hno : ∀ n, ∀ t ∈ ts, t.Within N c → t.k = n → False := by
      intro n
      induction n using Nat.strong_induction_on with
      | _ n ih =>
        intro t ht hw hk
        obtain ⟨u, hu, hwu, haddr, hle, -⟩ := hT.buddy_start ht hc hw (hfree t ht).2
        rcases Nat.lt_or_eq_of_le hle with hlt | heq
        · exact ih u.k (by omega) u hu hwu rfl
        · exact hF c hc t ht u hu hw hwu (hfree t ht).1 (hfree u hu).1 heq haddr
    have hlast : c.base < c.base + 2 ^ N := Nat.lt_add_of_pos_right (Nat.two_pow_pos _)
    obtain ⟨t, ht, hx⟩ := hT.cover c hc c.base le_rfl hlast
    exact hno t.k t ht (hT.within_of_covers ht hx hc le_rfl hlast) rfl

end Ixemul.Lib.Dyadic
