import Sysbench.Core.Distributions
import Sysbench.Machine.Doubles

/-! # Key segments of the threads

`select_random_points.lua` and `select_random_ranges.lua` give every thread a segment of the keys.
The borders are doubles, `sb_lua_rand` cuts them to integers, and both ends belong to the range that
`sb_rand` draws from.
-/
namespace Sysbench.Database

open Doubles Words
open Sysbench.Core (sbRandUniform intSize signed)
open Sysbench.Fileio (Draw sbMaxRnd)

def luaNumber (k : ℕ) : ℚ := nearest k

/-- `oltp_table_size / num_threads * i` -/
def border (tableSize numThreads i : ℕ) : ℚ :=
  nearest (nearest (luaNumber tableSize / luaNumber numThreads) * luaNumber i)

/-- The conversion of a number that is not negative to an `int`. Others than those are undefined. -/
def toCInt (x : ℚ) : Option ℤ := if x < 2 ^ 31 then some (⌊x⌋₊ : ℤ) else none

/-- `sb_lua_rand` with the uniform distribution. -/
def sbLuaRand (x y : ℚ) (rnd : Draw) : Option ℤ := do
  let a ← toCInt x
  let b ← toCInt y
  sbRandUniform a b rnd

section Scripts

variable (tableSize numThreads threadId : ℕ)

/-- One call of `sb_rand` in `event(thread_id)`, the same in both scripts. -/
def segmentKey (rnd : Draw) : Option ℤ :=
  sbLuaRand (border tableSize numThreads threadId) (border tableSize numThreads (threadId + 1)) rnd

def selectRandomPoints (randomPoints : ℕ) (rnd : ℕ → Draw) : Option (List ℤ) :=
  (List.range randomPoints).mapM fun i => segmentKey tableSize numThreads threadId (rnd i)

/-- The parameters of `select_random_ranges.lua`, two for each range. -/
def selectRandomRanges (numberOfRanges : ℕ) (delta : ℤ) (rnd : ℕ → Draw) :
    Option (List (ℤ × ℤ)) :=
  (List.range numberOfRanges).mapM fun i =>
    (segmentKey tableSize numThreads threadId (rnd i)).map fun key => (key, key + delta)

end Scripts

def keys {R : Type*} (event : R → Option (List ℤ)) : Set ℤ :=
  {key | ∃ rnd params, event rnd = some params ∧ key ∈ params}

/-- Two threads work, on different keys, and all of these are keys of the table. -/
structure SegmentsApart {R : Type*} (tableSize : ℕ) (event event' : R → Option (List ℤ)) :
    Prop where
  defined : ∀ rnd, (event rnd).isSome ∧ (event' rnd).isSome
  disjoint : Disjoint (keys event) (keys event')
  inside : ∀ key ∈ keys event ∪ keys event', 1 ≤ key ∧ key ≤ tableSize

def rangeStarts (tableSize numThreads threadId numberOfRanges : ℕ) (delta : ℤ) (rnd : ℕ → Draw) :
    Option (List ℤ) :=
  (selectRandomRanges tableSize numThreads threadId numberOfRanges delta rnd).map (List.map Prod.fst)

/-- Neither thread is the first one or the other's neighbour, and the borders are integers of C. -/
structure FarApart (tableSize numThreads i j : ℕ) : Prop where
  notFirst : 1 ≤ i ∧ 1 ≤ j
  gap : i + 2 ≤ j ∨ j + 2 ≤ i
  fits : border tableSize numThreads (max i j + 1) < 2 ^ 31

/-! ## Borders -/

section Border

variable {tableSize numThreads i j : ℕ}

theorem luaNumber_eq {k : ℕ} (h : k ≤ 2 ^ 53) : luaNumber k = k := nearest_natCast h

theorem luaNumber_nonneg (k : ℕ) : 0 ≤ luaNumber k := nearest_nonneg (Nat.cast_nonneg k)

def share (tableSize numThreads : ℕ) : ℚ := nearest (luaNumber tableSize / luaNumber numThreads)

theorem border_eq (h : i ≤ 2 ^ 53) :
    border tableSize numThreads i = nearest (share tableSize numThreads * i) := by
  rw [border, share, luaNumber_eq h]

theorem share_nonneg (tableSize numThreads : ℕ) : 0 ≤ share tableSize numThreads :=
  nearest_nonneg (div_nonneg (luaNumber_nonneg _) (luaNumber_nonneg _))

theorem one_le_share (hn : 1 ≤ numThreads) (hint : numThreads < 2 ^ 31)
    (hsize : numThreads ≤ tableSize) : 1 ≤ share tableSize numThreads := by
  have hle : luaNumber numThreads ≤ luaNumber tableSize :=
    nearest_mono (Nat.cast_nonneg _) (by exact_mod_cast hsize)
  have hpos : 0 < luaNumber numThreads := by
    rw [luaNumber_eq (by omega)]
    exact_mod_cast hn
  have hquot : (1 : ℕ) * 2 ^ (0 : ℤ) ≤ luaNumber tableSize / luaNumber numThreads := by
    rw [le_div_iff₀ hpos]
    simpa using hle
  have hround := le_nearest (by norm_num) hquot
  simpa [share] using hround

theorem border_zero : border tableSize numThreads 0 = 0 := by
  rw [border_eq (Nat.zero_le _)]
  simp

theorem border_nonneg (tableSize numThreads i : ℕ) : 0 ≤ border tableSize numThreads i :=
  nearest_nonneg (mul_nonneg (nearest_nonneg
    (div_nonneg (luaNumber_nonneg _) (luaNumber_nonneg _))) (luaNumber_nonneg _))

theorem border_mono (hij : i ≤ j) : border tableSize numThreads i ≤ border tableSize numThreads j := by
  refine nearest_mono (mul_nonneg (share_nonneg tableSize numThreads) (luaNumber_nonneg i)) ?_
  refine mul_le_mul_of_nonneg_left ?_ (share_nonneg tableSize numThreads)
  exact nearest_mono (Nat.cast_nonneg i) (by exact_mod_cast hij)

theorem share_mul_lt (h : i ≤ 2 ^ 53) (hfits : border tableSize numThreads i < 2 ^ 31) :
    share tableSize numThreads * i < 2 ^ 31 := by
  by_contra hle
  have hround := le_nearest (m := 1) (j := 31) (by norm_num) (x := share tableSize numThreads * i)
    (by simpa using not_lt.mp hle)
  rw [← border_eq h] at hround
  norm_num at hround hfits
  linarith

theorem floor_border_lt (hn : 1 ≤ numThreads) (hint : numThreads < 2 ^ 31)
    (hsize : numThreads ≤ tableSize) (hij : i < j) (hj : j ≤ numThreads)
    (hfits : border tableSize numThreads j < 2 ^ 31) :
    ⌊border tableSize numThreads i⌋₊ < ⌊border tableSize numThreads j⌋₊ := by
  have hshare := one_le_share hn hint hsize
  have hlt := share_mul_lt (by omega) hfits
  have hstep : share tableSize numThreads * i + 1 ≤ share tableSize numThreads * j := by
    have hcast : (i + 1 : ℚ) ≤ j := by exact_mod_cast hij
    nlinarith
  have hfloor := floor_nearest_add_one_le (mul_nonneg (share_nonneg tableSize numThreads)
    (Nat.cast_nonneg i)) (by linarith) hstep
  rw [border_eq (by omega), border_eq (by omega)]
  refine Nat.lt_of_succ_le (Nat.le_floor ?_)
  push_cast
  exact hfloor

theorem one_le_border (hn : 1 ≤ numThreads) (hint : numThreads < 2 ^ 31)
    (hsize : numThreads ≤ tableSize) (hi : 1 ≤ i) (hle : i ≤ numThreads) :
    1 ≤ border tableSize numThreads i := by
  have hshare := one_le_share hn hint hsize
  have hcast : (1 : ℚ) ≤ i := by exact_mod_cast hi
  have hprod : (1 : ℕ) * 2 ^ (0 : ℤ) ≤ share tableSize numThreads * i := by
    simp only [Nat.cast_one, zpow_zero, mul_one]
    nlinarith
  have hround := le_nearest (by norm_num) hprod
  rw [border_eq (by omega)]
  simpa using hround

theorem floor_border_le (hn : 1 ≤ numThreads) (hint : numThreads < 2 ^ 31) (hi : i ≤ numThreads)
    (hfits : border tableSize numThreads i < 2 ^ 31) :
    ⌊border tableSize numThreads i⌋₊ ≤ tableSize := by
  rcases le_or_gt (2 ^ 31) tableSize with hlarge | hsmall
  · refine le_trans (Nat.le_of_lt ?_) hlarge
    rw [Nat.floor_lt (border_nonneg tableSize numThreads i)]
    exact_mod_cast hfits
  have hcast : (tableSize : ℚ) < 2 ^ 31 := by exact_mod_cast hsmall
  have hpos : (0 : ℚ) < numThreads := by exact_mod_cast hn
  have hle : (i : ℚ) ≤ numThreads := by exact_mod_cast hi
  -- the quotient is rounded up by less than the half of a key in all segments
  have hshare : share tableSize numThreads ≤ tableSize / numThreads * (1 + 2 ^ (-53 : ℤ)) := by
    rw [share, luaNumber_eq (by omega), luaNumber_eq (by omega)]
    exact nearest_le_mul (by positivity)
  have hprod : share tableSize numThreads * i ≤ (2 * tableSize + 1 : ℕ) * 2 ^ (-1 : ℤ) := by
    calc share tableSize numThreads * i
        ≤ tableSize / numThreads * (1 + 2 ^ (-53 : ℤ)) * numThreads := by gcongr
      _ = tableSize * (1 + 2 ^ (-53 : ℤ)) := by field_simp
      _ ≤ (2 * tableSize + 1 : ℕ) * 2 ^ (-1 : ℤ) := by
        push_cast
        rw [zpow_neg_one]
        norm_num
        linarith
  have hround := nearest_le (by omega) (mul_nonneg (share_nonneg tableSize numThreads)
    (Nat.cast_nonneg i)) hprod
  rw [← Nat.lt_add_one_iff, border_eq (by omega), Nat.floor_lt' (by omega)]
  refine lt_of_le_of_lt hround ?_
  push_cast
  rw [zpow_neg_one]
  linarith

end Border

/-! ## Calls of `sb_rand` -/

section Keys

variable {tableSize numThreads i j : ℕ}

theorem toCInt_eq {x : ℚ} (h : x < 2 ^ 31) : toCInt x = some (⌊x⌋₊ : ℤ) := if_pos h

theorem sbRandUniform_eq {a d : ℕ} (hsize : d + 1 < 2 ^ 31) (hb : a + d < 2 ^ 31) (rnd : Draw) :
    sbRandUniform a (a + d : ℕ) rnd = some ((a + (rnd : ℕ) % (d + 1) : ℕ) : ℤ) := by
  have hmod : (rnd : ℕ) % (d + 1) < d + 1 := Nat.mod_lt _ (Nat.succ_pos d)
  have hdiff : signed ((a + d : ℕ) - (a : ℤ)) = some (d : ℤ) := by
    have heq : ((a + d : ℕ) - (a : ℤ)) = d := by push_cast; ring
    rw [heq]
    exact if_pos ⟨by omega, by omega⟩
  have hrange : intSize a (a + d : ℕ) = some ((d + 1 : ℕ) : ℤ) := by
    rw [intSize, hdiff, Option.bind_some]
    exact if_pos ⟨by omega, by omega⟩
  have htmod : ((rnd : ℕ) : ℤ).tmod (d + 1 : ℕ) = ((rnd : ℕ) % (d + 1) : ℕ) := rfl
  rw [sbRandUniform, hrange, Option.bind_eq_bind, Option.bind_some, if_neg (by omega), htmod,
    ← Nat.cast_add, toInt_natCast (by decide) (by omega)]

/-- What is cut from the borders of the thread. -/
theorem segmentKey_of_fits (hfits : border tableSize numThreads (i + 1) < 2 ^ 31) (rnd : Draw) :
    segmentKey tableSize numThreads i rnd =
      sbRandUniform ⌊border tableSize numThreads i⌋₊ ⌊border tableSize numThreads (i + 1)⌋₊ rnd := by
  have hlow := lt_of_le_of_lt (border_mono (Nat.le_succ i)) hfits
  rw [segmentKey, sbLuaRand, toCInt_eq hlow, toCInt_eq hfits, Option.bind_eq_bind, Option.bind_some,
    Option.bind_some]

theorem segmentKey_of_not_fits (hfits : ¬ border tableSize numThreads (i + 1) < 2 ^ 31)
    (rnd : Draw) : segmentKey tableSize numThreads i rnd = none := by
  have hend : toCInt (border tableSize numThreads (i + 1)) = none := if_neg hfits
  rw [segmentKey, sbLuaRand, hend]
  cases toCInt (border tableSize numThreads i) <;> rfl

/-- The keys between the borders of a thread, both included. -/
def Between (tableSize numThreads i : ℕ) (key : ℤ) : Prop :=
  (⌊border tableSize numThreads i⌋₊ : ℤ) ≤ key ∧ key ≤ ⌊border tableSize numThreads (i + 1)⌋₊

theorem floor_border_lt_two_pow (hfits : border tableSize numThreads i < 2 ^ 31) :
    ⌊border tableSize numThreads i⌋₊ < 2 ^ 31 := by
  rw [Nat.floor_lt (border_nonneg tableSize numThreads i)]
  exact_mod_cast hfits

/-- A thread other than the first draws a key of its segment, and reaches any that is no further from
the lower border than `sb_rnd()` goes. -/
theorem segmentKey_spec (hn : 1 ≤ numThreads) (hint : numThreads < 2 ^ 31)
    (hsize : numThreads ≤ tableSize) (hi : 1 ≤ i) (hlt : i < numThreads)
    (hfits : border tableSize numThreads (i + 1) < 2 ^ 31) :
    (∀ rnd, ∃ key, segmentKey tableSize numThreads i rnd = some key ∧
      Between tableSize numThreads i key) ∧
    ∀ key : ℕ, Between tableSize numThreads i key →
      key < ⌊border tableSize numThreads i⌋₊ + sbMaxRnd →
        ∃ rnd, segmentKey tableSize numThreads i rnd = some (key : ℤ) := by
  have hlow : 1 ≤ ⌊border tableSize numThreads i⌋₊ :=
    Nat.le_floor (by exact_mod_cast one_le_border hn hint hsize hi hlt.le)
  have hhigh := floor_border_lt_two_pow hfits
  have hmono : ⌊border tableSize numThreads i⌋₊ ≤ ⌊border tableSize numThreads (i + 1)⌋₊ :=
    Nat.floor_le_floor (border_mono (Nat.le_succ i))
  have hkey := segmentKey_of_fits hfits
  unfold Between
  obtain ⟨d, hd⟩ := Nat.exists_eq_add_of_le hmono
  rw [hd] at hkey hhigh ⊢
  generalize ⌊border tableSize numThreads i⌋₊ = a at *
  constructor
  · intro rnd
    have hmod : (rnd : ℕ) % (d + 1) < d + 1 := Nat.mod_lt _ (Nat.succ_pos d)
    exact ⟨_, (hkey rnd).trans (sbRandUniform_eq (by omega) hhigh rnd), by omega, by omega⟩
  · intro key hbetween hnear
    refine ⟨⟨key - a, by omega⟩, (hkey _).trans ((sbRandUniform_eq (by omega) hhigh _).trans ?_)⟩
    have hmod : (key - a) % (d + 1) = key - a := Nat.mod_eq_of_lt (by omega)
    dsimp only
    rw [hmod, Nat.add_sub_cancel' (by omega)]

/-- The first thread draws zero, if it draws at all. -/
theorem segmentKey_zero {key : ℤ} {rnd : Draw} (hrnd : (rnd : ℕ) = 0)
    (h : segmentKey tableSize numThreads 0 rnd = some key) : key = 0 := by
  by_cases hfits : border tableSize numThreads (0 + 1) < 2 ^ 31
  · rw [segmentKey_of_fits hfits, border_zero, Nat.floor_zero, sbRandUniform,
      Option.bind_eq_bind, Option.bind_eq_some_iff] at h
    obtain ⟨size, -, h⟩ := h
    rw [hrnd] at h
    obtain ⟨-, h⟩ := Option.ite_none_left_eq_some.mp h
    rw [← Option.some.inj h]
    simp [toInt]
  · rw [segmentKey_of_not_fits hfits] at h
    cases h

/-! ## Two threads -/

structure DrawsApart (tableSize : ℕ) (key key' : Draw → Option ℤ) : Prop where
  defined : ∀ rnd, (key rnd).isSome ∧ (key' rnd).isSome
  disjoint : ∀ rnd rnd' k, key rnd = some k → key' rnd' ≠ some k
  inside : ∀ rnd k, key rnd = some k ∨ key' rnd = some k → 1 ≤ k ∧ k ≤ tableSize

theorem DrawsApart.symm {key key' : Draw → Option ℤ} (h : DrawsApart tableSize key key') :
    DrawsApart tableSize key' key where
  defined rnd := (h.defined rnd).symm
  disjoint rnd rnd' k hk hk' := h.disjoint rnd' rnd k hk' hk
  inside rnd k hk := h.inside rnd k hk.symm

variable (hn : 1 ≤ numThreads) (hint : numThreads < 2 ^ 31) (hsize : numThreads ≤ tableSize)

include hn hint hsize

/-- Threads that are far enough apart have different keys. -/
theorem drawsApart_of_far (hi : 1 ≤ i) (hij : i + 2 ≤ j) (hj : j < numThreads)
    (hfits : border tableSize numThreads (j + 1) < 2 ^ 31) :
    DrawsApart tableSize (segmentKey tableSize numThreads i) (segmentKey tableSize numThreads j) := by
  have hfitsi : border tableSize numThreads (i + 1) < 2 ^ 31 :=
    lt_of_le_of_lt (border_mono (by omega)) hfits
  have hfitsj : border tableSize numThreads j < 2 ^ 31 :=
    lt_of_le_of_lt (border_mono (Nat.le_succ j)) hfits
  have hdrawi := (segmentKey_spec hn hint hsize hi (by omega) hfitsi).1
  have hdrawj := (segmentKey_spec hn hint hsize (by omega) hj hfits).1
  have hgap := floor_border_lt hn hint hsize (show i + 1 < j by omega) hj.le hfitsj
  have hinside : ∀ t, 1 ≤ t → t < numThreads → border tableSize numThreads (t + 1) < 2 ^ 31 →
      ∀ key, Between tableSize numThreads t key → 1 ≤ key ∧ key ≤ tableSize := by
    intro t ht htn htfits key hkey
    have hlow : 1 ≤ ⌊border tableSize numThreads t⌋₊ :=
      Nat.le_floor (by exact_mod_cast one_le_border hn hint hsize ht htn.le)
    have hhigh : ⌊border tableSize numThreads (t + 1)⌋₊ ≤ tableSize :=
      floor_border_le hn hint htn htfits
    unfold Between at hkey
    omega
  constructor
  · intro rnd
    obtain ⟨k, hk, -⟩ := hdrawi rnd
    obtain ⟨k', hk', -⟩ := hdrawj rnd
    rw [hk, hk']
    exact ⟨rfl, rfl⟩
  · intro rnd rnd' k hk hk'
    obtain ⟨ki, hki, hbi⟩ := hdrawi rnd
    obtain ⟨kj, hkj, hbj⟩ := hdrawj rnd'
    rw [hk] at hki
    rw [hk'] at hkj
    cases hki
    cases hkj
    unfold Between at hbi hbj
    omega
  · rintro rnd k (hk | hk)
    · obtain ⟨ki, hki, hbi⟩ := hdrawi rnd
      rw [hk] at hki
      cases hki
      exact hinside i hi (by omega) hfitsi k hbi
    · obtain ⟨kj, hkj, hbj⟩ := hdrawj rnd
      rw [hk] at hkj
      cases hkj
      exact hinside j (by omega) hj hfits k hbj

/-- A segment between others is shorter than the range of `sb_rnd()`. -/
theorem floor_border_succ_lt (hi : 1 ≤ i) (hj : i + 1 < numThreads)
    (hfits : border tableSize numThreads (i + 1 + 1) < 2 ^ 31) :
    ⌊border tableSize numThreads (i + 1)⌋₊ < ⌊border tableSize numThreads i⌋₊ + sbMaxRnd := by
  have hshare := one_le_share hn hint hsize
  have hlt := share_mul_lt (by omega) hfits
  have hcast : (1 : ℚ) ≤ i := by exact_mod_cast hi
  push_cast at hlt
  have hthird : share tableSize numThreads * 3 < 2 ^ 31 := by nlinarith
  have hround : ∀ t : ℕ, 1 ≤ t → t ≤ i + 1 →
      |border tableSize numThreads t - share tableSize numThreads * t| ≤ 1 := by
    intro t ht hti
    have htcast : (1 : ℚ) ≤ t := by exact_mod_cast ht
    have hticast : (t : ℚ) ≤ i + 1 := by exact_mod_cast hti
    rw [border_eq (by omega)]
    refine le_trans (abs_nearest_sub_le (k := 31) (by nlinarith) ?_) (by norm_num)
    norm_num at hlt ⊢
    nlinarith
  have hlow := (abs_le.mp (hround i hi (by omega))).1
  have hhigh := (abs_le.mp (hround (i + 1) (by omega) le_rfl)).2
  have hfloor := Nat.lt_floor_add_one (border tableSize numThreads i)
  have hfloor' := Nat.floor_le (border_nonneg tableSize numThreads (i + 1))
  have hresult : (⌊border tableSize numThreads (i + 1)⌋₊ : ℚ) <
      (⌊border tableSize numThreads i⌋₊ + sbMaxRnd : ℕ) := by
    have hmax : ((sbMaxRnd : ℕ) : ℚ) = 2 ^ 30 - 1 := by norm_num [sbMaxRnd]
    push_cast at hhigh ⊢
    rw [hmax]
    linarith
  exact_mod_cast hresult

/-- Neighbours meet at their border. -/
theorem not_drawsApart_next (hi : 1 ≤ i) (hj : i + 1 < numThreads)
    (hfits : border tableSize numThreads (i + 1 + 1) < 2 ^ 31) :
    ¬ DrawsApart tableSize (segmentKey tableSize numThreads i)
      (segmentKey tableSize numThreads (i + 1)) := by
  intro hapart
  have hfitsi : border tableSize numThreads (i + 1) < 2 ^ 31 :=
    lt_of_le_of_lt (border_mono (by omega)) hfits
  have hnear := floor_border_succ_lt hn hint hsize hi hj hfits
  have hmono : ∀ t, ⌊border tableSize numThreads t⌋₊ ≤ ⌊border tableSize numThreads (t + 1)⌋₊ :=
    fun t => Nat.floor_le_floor (border_mono (Nat.le_succ t))
  have hi' := hmono i
  have hj' := hmono (i + 1)
  obtain ⟨rnd, hrnd⟩ := (segmentKey_spec hn hint hsize hi (by omega) hfitsi).2
    ⌊border tableSize numThreads (i + 1)⌋₊ ⟨by omega, le_rfl⟩ hnear
  obtain ⟨rnd', hrnd'⟩ := (segmentKey_spec hn hint hsize (by omega) hj hfits).2
    ⌊border tableSize numThreads (i + 1)⌋₊ ⟨le_rfl, by omega⟩
    (Nat.lt_add_of_pos_right Sysbench.Fileio.sbMaxRnd_pos)
  exact hapart.disjoint rnd rnd' _ hrnd hrnd'

omit hn hint hsize in
/-- The first thread draws a key before the first of the table. -/
theorem not_drawsApart_zero {key : Draw → Option ℤ} :
    ¬ DrawsApart tableSize (segmentKey tableSize numThreads 0) key := by
  intro hapart
  have hzero : (0 : ℕ) < sbMaxRnd := Sysbench.Fileio.sbMaxRnd_pos
  obtain ⟨k, hk⟩ := Option.isSome_iff_exists.mp (hapart.defined ⟨0, hzero⟩).1
  have hinside := (hapart.inside _ k (.inl hk)).1
  rw [segmentKey_zero rfl hk] at hinside
  omega

theorem drawsApart_iff_of_lt (hij : i < j) (hj : j < numThreads) :
    DrawsApart tableSize (segmentKey tableSize numThreads i) (segmentKey tableSize numThreads j) ↔
      1 ≤ i ∧ i + 2 ≤ j ∧ border tableSize numThreads (j + 1) < 2 ^ 31 := by
  constructor
  · intro h
    have hfits : border tableSize numThreads (j + 1) < 2 ^ 31 := by
      by_contra hfits
      have hnone := (h.defined ⟨0, Sysbench.Fileio.sbMaxRnd_pos⟩).2
      rw [segmentKey_of_not_fits hfits] at hnone
      cases hnone
    have hi : 1 ≤ i := by
      by_contra hi
      obtain rfl : i = 0 := by omega
      exact not_drawsApart_zero h
    refine ⟨hi, ?_, hfits⟩
    by_contra hnext
    obtain rfl : j = i + 1 := by omega
    exact not_drawsApart_next hn hint hsize hi hj hfits h
  · rintro ⟨hi, hgap, hfits⟩
    exact drawsApart_of_far hn hint hsize hi hgap hj hfits

theorem drawsApart_iff (hi : i < numThreads) (hj : j < numThreads) (hij : i ≠ j) :
    DrawsApart tableSize (segmentKey tableSize numThreads i) (segmentKey tableSize numThreads j) ↔
      FarApart tableSize numThreads i j := by
  rcases Nat.lt_or_gt_of_ne hij with hlt | hlt
  · rw [drawsApart_iff_of_lt hn hint hsize hlt hj]
    constructor
    · rintro ⟨hone, hgap, hfits⟩
      exact ⟨⟨hone, by omega⟩, .inl hgap, by rwa [max_eq_right hlt.le]⟩
    · rintro ⟨hone, hgap, hfits⟩
      rw [max_eq_right hlt.le] at hfits
      exact ⟨hone.1, by omega, hfits⟩
  · have hsymm : DrawsApart tableSize (segmentKey tableSize numThreads i)
        (segmentKey tableSize numThreads j) ↔ DrawsApart tableSize
        (segmentKey tableSize numThreads j) (segmentKey tableSize numThreads i) :=
      ⟨DrawsApart.symm, DrawsApart.symm⟩
    rw [hsymm, drawsApart_iff_of_lt hn hint hsize hlt hi]
    constructor
    · rintro ⟨hone, hgap, hfits⟩
      exact ⟨⟨by omega, hone⟩, .inr hgap, by rwa [max_eq_left hlt.le]⟩
    · rintro ⟨hone, hgap, hfits⟩
      rw [max_eq_left hlt.le] at hfits
      exact ⟨hone.2, by omega, hfits⟩

end Keys

/-! ## The scripts -/

section Events

theorem mem_of_mapM {α β : Type*} {f : α → Option β} {l : List α} {ys : List β}
    (h : l.mapM f = some ys) {y : β} (hy : y ∈ ys) : ∃ a ∈ l, f a = some y := by
  induction l generalizing ys with
  | nil =>
    cases h
    cases hy
  | cons a l ih =>
    rw [List.mapM_cons, Option.bind_eq_bind, Option.bind_eq_some_iff] at h
    obtain ⟨b, hb, h⟩ := h
    rw [Option.bind_eq_bind, Option.bind_eq_some_iff] at h
    obtain ⟨zs, hzs, h⟩ := h
    cases h
    rcases List.mem_cons.mp hy with rfl | hy
    · exact ⟨a, List.mem_cons_self, hb⟩
    · obtain ⟨c, hc, hfc⟩ := ih hzs hy
      exact ⟨c, List.mem_cons_of_mem _ hc, hfc⟩

theorem isSome_mapM_iff {α β : Type*} {f : α → Option β} {l : List α} :
    (l.mapM f).isSome ↔ ∀ a ∈ l, (f a).isSome := by
  induction l with
  | nil => simp
  | cons a l ih =>
    rw [List.mapM_cons, List.forall_mem_cons, ← ih]
    cases f a with
    | none => simp
    | some b => cases l.mapM f <;> simp

theorem mapM_some {α β : Type*} (b : β) (l : List α) :
    l.mapM (fun _ => some b) = some (l.map fun _ => b) := by
  induction l with
  | nil => rfl
  | cons a l ih =>
    rw [List.mapM_cons, ih]
    rfl

def drawMany (key : Draw → Option ℤ) (count : ℕ) (rnd : ℕ → Draw) : Option (List ℤ) :=
  (List.range count).mapM fun i => key (rnd i)

variable {tableSize numThreads i j count : ℕ} {key key' : Draw → Option ℤ} {delta : ℤ}

theorem rangeStarts_eq : rangeStarts tableSize numThreads i count delta =
    drawMany (segmentKey tableSize numThreads i) count := by
  funext rnd
  unfold rangeStarts selectRandomRanges drawMany
  induction List.range count with
  | nil => rfl
  | cons t l ih =>
    rw [List.mapM_cons, List.mapM_cons, ← ih]
    cases segmentKey tableSize numThreads i (rnd t) with
    | none => rfl
    | some k =>
      simp only [Option.map_some, Option.bind_eq_bind, Option.bind_some]
      cases l.mapM fun i_1 => (segmentKey tableSize numThreads i (rnd i_1)).map
        fun key => (key, key + delta) <;> rfl

theorem isSome_drawMany (hcount : 0 < count) :
    (∀ rnd, (drawMany key count rnd).isSome) ↔ ∀ r, (key r).isSome := by
  constructor
  · intro h r
    exact isSome_mapM_iff.mp (h fun _ => r) 0 (List.mem_range.mpr hcount)
  · intro h rnd
    exact isSome_mapM_iff.mpr fun i _ => h (rnd i)

theorem keys_drawMany (hcount : 0 < count) : keys (drawMany key count) = {k | ∃ r, key r = some k} := by
  ext k
  constructor
  · rintro ⟨rnd, params, h, hk⟩
    obtain ⟨t, -, ht⟩ := mem_of_mapM h hk
    exact ⟨rnd t, ht⟩
  · rintro ⟨r, hr⟩
    refine ⟨fun _ => r, (List.range count).map fun _ => k, ?_, ?_⟩
    · unfold drawMany
      simp only [hr]
      exact mapM_some k _
    · exact List.mem_map.mpr ⟨0, List.mem_range.mpr hcount, rfl⟩

theorem segmentsApart_iff (hcount : 0 < count) :
    SegmentsApart tableSize (drawMany key count) (drawMany key' count) ↔
      DrawsApart tableSize key key' := by
  have hdefined : (∀ rnd, (drawMany key count rnd).isSome ∧ (drawMany key' count rnd).isSome) ↔
      ∀ r, (key r).isSome ∧ (key' r).isSome := by
    rw [forall_and, forall_and, isSome_drawMany hcount, isSome_drawMany hcount]
  constructor
  · rintro ⟨hdef, hdisjoint, hinside⟩
    rw [keys_drawMany hcount, keys_drawMany hcount] at hdisjoint hinside
    refine ⟨hdefined.mp hdef, fun r r' k hk hk' => ?_, fun r k hk => ?_⟩
    · exact Set.disjoint_left.mp hdisjoint ⟨r, hk⟩ ⟨r', hk'⟩
    · exact hinside k (hk.imp (fun h => ⟨r, h⟩) fun h => ⟨r, h⟩)
  · rintro ⟨hdef, hdisjoint, hinside⟩
    refine ⟨hdefined.mpr hdef, ?_, ?_⟩
    · rw [keys_drawMany hcount, keys_drawMany hcount]
      exact Set.disjoint_left.mpr fun k ⟨r, hk⟩ ⟨r', hk'⟩ => hdisjoint r r' k hk hk'
    · rw [keys_drawMany hcount, keys_drawMany hcount]
      rintro k (⟨r, hk⟩ | ⟨r, hk⟩)
      · exact hinside r k (.inl hk)
      · exact hinside r k (.inr hk)

/-- An event without parameters meets no other. -/
theorem segmentsApart_zero : SegmentsApart tableSize (drawMany key 0) (drawMany key' 0) := by
  have hempty : ∀ key : Draw → Option ℤ, keys (drawMany key 0) = ∅ := by
    intro key
    ext k
    refine iff_of_false ?_ (Set.notMem_empty k)
    rintro ⟨rnd, params, h, hk⟩
    cases h
    cases hk
  refine ⟨fun _ => ⟨rfl, rfl⟩, ?_, ?_⟩
  · rw [hempty]
    exact Set.empty_disjoint _
  · rw [hempty, hempty, Set.union_empty]
    exact fun k hk => absurd hk (Set.notMem_empty k)

theorem segmentsApart_drawMany_iff (hn : 1 ≤ numThreads) (hint : numThreads < 2 ^ 31)
    (hsize : numThreads ≤ tableSize) (hi : i < numThreads) (hj : j < numThreads) (hij : i ≠ j) :
    SegmentsApart tableSize (drawMany (segmentKey tableSize numThreads i) count)
      (drawMany (segmentKey tableSize numThreads j) count) ↔
      count = 0 ∨ FarApart tableSize numThreads i j := by
  rcases Nat.eq_zero_or_pos count with rfl | hcount
  · exact iff_of_true segmentsApart_zero (.inl rfl)
  · rw [segmentsApart_iff hcount, drawsApart_iff hn hint hsize hi hj hij,
      or_iff_right hcount.ne']

end Events

/-- Two threads have different keys of the table exactly if neither is the first, they are not
neighbours, and their borders are integers of C. -/
theorem segments_apart_iff {tableSize numThreads : ℕ} (hn : 1 ≤ numThreads)
    (hint : numThreads < 2 ^ 31) (hsize : numThreads ≤ tableSize) {i j : ℕ} (hi : i < numThreads)
    (hj : j < numThreads) (hij : i ≠ j) (randomPoints numberOfRanges : ℕ) (delta : ℤ) :
    (SegmentsApart tableSize (selectRandomPoints tableSize numThreads i randomPoints)
        (selectRandomPoints tableSize numThreads j randomPoints) ↔
      randomPoints = 0 ∨ FarApart tableSize numThreads i j) ∧
    (SegmentsApart tableSize (rangeStarts tableSize numThreads i numberOfRanges delta)
        (rangeStarts tableSize numThreads j numberOfRanges delta) ↔
      numberOfRanges = 0 ∨ FarApart tableSize numThreads i j) := by
  rw [rangeStarts_eq, rangeStarts_eq]
  exact ⟨segmentsApart_drawMany_iff hn hint hsize hi hj hij,
    segmentsApart_drawMany_iff hn hint hsize hi hj hij⟩

theorem border_hundred : border 100 4 4 = 100 := by
  have hquot : ((100 : ℕ) / (4 : ℕ) : ℚ) = (25 : ℕ) := by norm_num
  have hprod : ((25 : ℕ) * (4 : ℕ) : ℚ) = (100 : ℕ) := by norm_num
  rw [border, luaNumber_eq (by norm_num), luaNumber_eq (by norm_num), hquot,
    nearest_natCast (by norm_num), hprod, nearest_natCast (by norm_num), Nat.cast_ofNat]

theorem segments_apart_iff_hundred :
    SegmentsApart 100 (selectRandomPoints 100 4 1 10) (selectRandomPoints 100 4 3 10) ∧
      SegmentsApart 100 (rangeStarts 100 4 1 10 5) (rangeStarts 100 4 3 10 5) := by
  have h := @segments_apart_iff 100 4 (by decide) (by norm_num) (by decide) 1 3 (by decide)
    (by decide) (by decide) 10 10 5
  have hfar : FarApart 100 4 1 3 := by
    refine ⟨⟨le_rfl, by decide⟩, .inl le_rfl, ?_⟩
    rw [show max 1 3 + 1 = 4 from rfl, border_hundred]
    norm_num
  exact ⟨h.1.mpr (.inr hfar), h.2.mpr (.inr hfar)⟩

/-- The second and the third of four threads. -/
theorem not_segmentsApart_neighbours :
    ¬ SegmentsApart 100 (selectRandomPoints 100 4 1 10) (selectRandomPoints 100 4 2 10) := by
  intro h
  have hiff := (@segmentsApart_drawMany_iff 100 4 1 2 10 (by decide) (by norm_num) (by decide)
    (by decide) (by decide) (by decide)).mp h
  have hgap := (hiff.resolve_left (by decide)).gap
  omega

end Sysbench.Database
