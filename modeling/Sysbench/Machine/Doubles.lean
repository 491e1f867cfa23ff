import Mathlib

/-! # Rounding to doubles

Rounding to the nearest number with 53 significant bits, the even one of two. The range of the
exponent has no bounds here, so that the numbers are the normal doubles and those beyond them.
-/
namespace Sysbench.Doubles

/-- The nearest integer, the even one of two. -/
def roundEven (x : ℚ) : ℤ :=
  if x - ⌊x⌋ < 1 / 2 then ⌊x⌋
  else if 1 / 2 < x - ⌊x⌋ then ⌊x⌋ + 1
  else ⌊x⌋ + ⌊x⌋ % 2

def ulp (x : ℚ) : ℚ := 2 ^ (Int.log 2 x - 52)

def nearest (x : ℚ) : ℚ := roundEven (x / ulp x) * ulp x

@[simp] theorem roundEven_intCast (m : ℤ) : roundEven m = m := by
  simp [roundEven]

theorem floor_le_roundEven (x : ℚ) : ⌊x⌋ ≤ roundEven x := by
  have hmod := Int.emod_nonneg ⌊x⌋ two_ne_zero
  unfold roundEven
  split_ifs <;> omega

theorem roundEven_le_floor_add_one (x : ℚ) : roundEven x ≤ ⌊x⌋ + 1 := by
  have hmod := Int.emod_lt_of_pos ⌊x⌋ two_pos
  unfold roundEven
  split_ifs <;> omega

theorem roundEven_mono {x y : ℚ} (h : x ≤ y) : roundEven x ≤ roundEven y := by
  rcases (Int.floor_le_floor h).eq_or_lt with hfloor | hfloor
  · have hmod := Int.emod_nonneg ⌊y⌋ two_ne_zero
    have hmod' := Int.emod_lt_of_pos ⌊y⌋ two_pos
    unfold roundEven
    rw [hfloor]
    split_ifs
    all_goals first | omega | (exfalso; linarith)
  · calc roundEven x ≤ ⌊x⌋ + 1 := roundEven_le_floor_add_one x
      _ ≤ ⌊y⌋ := hfloor
      _ ≤ roundEven y := floor_le_roundEven y

theorem abs_roundEven_sub_le (x : ℚ) : |(roundEven x : ℚ) - x| ≤ 1 / 2 := by
  have hfloor := Int.floor_le x
  have hceil := Int.lt_floor_add_one x
  rw [abs_le]
  unfold roundEven
  split_ifs with hlow hhigh
  · constructor <;> linarith
  · push_cast
    constructor <;> linarith
  · -- a tie
    have htie : x - ⌊x⌋ = 1 / 2 := le_antisymm (not_lt.mp hhigh) (not_lt.mp hlow)
    rcases Int.emod_two_eq_zero_or_one ⌊x⌋ with hmod | hmod <;> rw [hmod] <;> push_cast <;>
      constructor <;> linarith

/-- A tie goes down to an even number. -/
theorem roundEven_even_add_half {m : ℤ} (hm : m % 2 = 0) : roundEven (m + 1 / 2) = m := by
  have hfloor : ⌊(m + 1 / 2 : ℚ)⌋ = m := by
    rw [Int.floor_eq_iff]
    constructor <;> linarith
  unfold roundEven
  rw [hfloor, hm]
  norm_num

/-- A tie goes up to an even number. -/
theorem roundEven_even_sub_half {m : ℤ} (hm : m % 2 = 0) : roundEven (m - 1 / 2) = m := by
  have hfloor : ⌊(m - 1 / 2 : ℚ)⌋ = m - 1 := by
    rw [Int.floor_eq_iff]
    push_cast
    constructor <;> linarith
  have hodd : (m - 1) % 2 = 1 := by omega
  unfold roundEven
  rw [hfloor, hodd]
  push_cast
  norm_num

theorem roundEven_eq {x : ℚ} {m : ℤ} (h : |m - x| < 1 / 2) : roundEven x = m := by
  have hround := abs_le.mp (abs_roundEven_sub_le x)
  have hm := abs_lt.mp h
  have hlow : (m : ℚ) < (roundEven x + 1 : ℤ) := by
    push_cast
    linarith
  have hhigh : (roundEven x : ℚ) < (m + 1 : ℤ) := by
    push_cast
    linarith
  rw [Int.cast_lt] at hlow hhigh
  omega

variable {x y : ℚ}

theorem ulp_pos (x : ℚ) : 0 < ulp x := by
  unfold ulp
  positivity

theorem log_eq {k : ℤ} (h : 2 ^ k ≤ x) (h' : x < 2 ^ (k + 1)) : Int.log 2 x = k := by
  have hx : 0 < x := lt_of_lt_of_le (by positivity) h
  have hle := (Int.zpow_le_iff_le_log one_lt_two hx).mp (by exact_mod_cast h)
  have hlt := (Int.lt_zpow_iff_log_lt one_lt_two hx).mp (by exact_mod_cast h')
  omega

theorem nearest_eq_roundEven {k : ℤ} (h : 2 ^ k ≤ x) (h' : x < 2 ^ (k + 1)) :
    nearest x = roundEven (x / 2 ^ (k - 52)) * 2 ^ (k - 52) := by
  simp only [nearest, ulp, log_eq h h']

theorem pow_mul_ulp (x : ℚ) (j : ℕ) : 2 ^ j * ulp x = 2 ^ (Int.log 2 x + (j - 52)) := by
  rw [ulp, ← zpow_natCast, ← zpow_add₀ two_ne_zero]
  ring_nf

theorem pow_52_mul_ulp (x : ℚ) : 2 ^ 52 * ulp x = 2 ^ Int.log 2 x := by
  simpa using pow_mul_ulp x 52

theorem pow_53_mul_ulp (x : ℚ) : 2 ^ 53 * ulp x = 2 ^ (Int.log 2 x + 1) := by
  simpa using pow_mul_ulp x 53

theorem nearest_of_pos (hx : 0 < x) :
    ∃ m : ℤ, nearest x = m * ulp x ∧ 2 ^ 52 ≤ m ∧ m ≤ 2 ^ 53 := by
  have hlow : ((2 ^ 52 : ℤ) : ℚ) ≤ x / ulp x := by
    rw [le_div_iff₀ (ulp_pos x), Int.cast_pow, Int.cast_ofNat, pow_52_mul_ulp]
    exact_mod_cast Int.zpow_log_le_self one_lt_two hx
  have hhigh : x / ulp x ≤ ((2 ^ 53 : ℤ) : ℚ) := by
    rw [div_le_iff₀ (ulp_pos x), Int.cast_pow, Int.cast_ofNat, pow_53_mul_ulp]
    exact_mod_cast (Int.lt_zpow_succ_log_self one_lt_two x).le
  refine ⟨roundEven (x / ulp x), rfl, ?_, ?_⟩
  · simpa only [roundEven_intCast] using roundEven_mono hlow
  · simpa only [roundEven_intCast] using roundEven_mono hhigh

theorem nearest_eq_of_mul_ulp {d : ℤ} (h : x = d * ulp x) : nearest x = x := by
  have hdiv : x / ulp x = d := (div_eq_iff (ulp_pos x).ne').mpr h
  rw [nearest, hdiv, roundEven_intCast, ← h]

theorem nearest_eq_of_lt {m : ℕ} (hm : m < 2 ^ 53) (j : ℤ) :
    nearest (m * 2 ^ j) = m * 2 ^ j := by
  rcases Nat.eq_zero_or_pos m with rfl | hpos
  · simp [nearest, roundEven]
  have hx : (0 : ℚ) < m * 2 ^ j := by positivity
  have hbits : (m * 2 ^ j : ℚ) < 2 ^ (53 + j) := by
    rw [zpow_add₀ two_ne_zero]
    gcongr
    exact_mod_cast hm
  have hlog : Int.log 2 (m * 2 ^ j : ℚ) < 53 + j :=
    (Int.lt_zpow_iff_log_lt one_lt_two hx).mp (by exact_mod_cast hbits)
  obtain ⟨n, hn⟩ : ∃ n : ℕ, j = n + (Int.log 2 (m * 2 ^ j : ℚ) - 52) :=
    ⟨(j - (Int.log 2 (m * 2 ^ j : ℚ) - 52)).toNat, by omega⟩
  apply nearest_eq_of_mul_ulp (d := m * 2 ^ n)
  calc (m * 2 ^ j : ℚ) = m * 2 ^ (n + (Int.log 2 (m * 2 ^ j : ℚ) - 52)) := by rw [← hn]
    _ = (m * 2 ^ n : ℤ) * ulp (m * 2 ^ j) := by
      rw [zpow_add₀ two_ne_zero, zpow_natCast, ulp, ← mul_assoc]
      push_cast
      rfl

theorem nearest_eq {m : ℕ} (hm : m ≤ 2 ^ 53) (j : ℤ) : nearest (m * 2 ^ j) = m * 2 ^ j := by
  rcases hm.eq_or_lt with rfl | hlt
  · have hhalf : ((2 ^ 53 : ℕ) * 2 ^ j : ℚ) = (2 ^ 52 : ℕ) * 2 ^ (j + 1) := by
      rw [zpow_add_one₀ two_ne_zero]
      push_cast
      ring
    rw [hhalf, nearest_eq_of_lt (by norm_num)]
  · exact nearest_eq_of_lt hlt j

theorem nearest_natCast {m : ℕ} (hm : m ≤ 2 ^ 53) : nearest m = m := by
  simpa using nearest_eq hm 0

@[simp] theorem nearest_zero : nearest 0 = 0 := by
  simpa using nearest_natCast (Nat.zero_le _)

theorem nearest_mul_ulp {d : ℤ} (h0 : 0 ≤ d) (hd : d ≤ 2 ^ 53) (x : ℚ) :
    nearest (d * ulp x) = d * ulp x := by
  lift d to ℕ using h0
  exact nearest_eq (by exact_mod_cast hd) _

theorem zpow_log_le_nearest (hx : 0 < x) : 2 ^ Int.log 2 x ≤ nearest x := by
  obtain ⟨m, hm, hlow, -⟩ := nearest_of_pos hx
  rw [hm, ← pow_52_mul_ulp]
  exact mul_le_mul_of_nonneg_right (by exact_mod_cast hlow) (ulp_pos x).le

theorem nearest_le_zpow (hx : 0 < x) : nearest x ≤ 2 ^ (Int.log 2 x + 1) := by
  obtain ⟨m, hm, -, hhigh⟩ := nearest_of_pos hx
  rw [hm, ← pow_53_mul_ulp]
  exact mul_le_mul_of_nonneg_right (by exact_mod_cast hhigh) (ulp_pos x).le

theorem nearest_nonneg (hx : 0 ≤ x) : 0 ≤ nearest x := by
  rcases hx.eq_or_lt with rfl | hpos
  · rw [nearest_zero]
  · exact le_trans (by positivity) (zpow_log_le_nearest hpos)

theorem nearest_mono (hx : 0 ≤ x) (h : x ≤ y) : nearest x ≤ nearest y := by
  rcases hx.eq_or_lt with rfl | hpos
  · rw [nearest_zero]
    exact nearest_nonneg h
  rcases (Int.log_mono_right hpos h).eq_or_lt with hlog | hlog
  · have hulp : ulp x = ulp y := by rw [ulp, hlog, ulp]
    have hround : roundEven (x / ulp y) ≤ roundEven (y / ulp y) := by
      apply roundEven_mono
      have hpos := ulp_pos y
      gcongr
    rw [nearest, nearest, hulp]
    exact mul_le_mul_of_nonneg_right (by exact_mod_cast hround) (ulp_pos y).le
  · calc nearest x ≤ 2 ^ (Int.log 2 x + 1) := nearest_le_zpow hpos
      _ ≤ 2 ^ Int.log 2 y := zpow_le_zpow_right₀ one_le_two hlog
      _ ≤ nearest y := zpow_log_le_nearest (hpos.trans_le h)

theorem nearest_le {m : ℕ} {j : ℤ} (hm : m ≤ 2 ^ 53) (hx : 0 ≤ x) (h : x ≤ m * 2 ^ j) :
    nearest x ≤ m * 2 ^ j := by
  rw [← nearest_eq hm j]
  exact nearest_mono hx h

theorem le_nearest {m : ℕ} {j : ℤ} (hm : m ≤ 2 ^ 53) (h : m * 2 ^ j ≤ x) :
    m * 2 ^ j ≤ nearest x := by
  rw [← nearest_eq hm j]
  exact nearest_mono (by positivity) h

theorem nearest_idem (hx : 0 ≤ x) : nearest (nearest x) = nearest x := by
  rcases hx.eq_or_lt with rfl | hpos
  · rw [nearest_zero, nearest_zero]
  obtain ⟨m, hm, hlow, hhigh⟩ := nearest_of_pos hpos
  rw [hm, nearest_mul_ulp (by omega) hhigh]

/-- Rounding moves a number by half the distance at most. -/
theorem abs_nearest_sub_le {k : ℤ} (hx : 0 < x) (h : x < 2 ^ k) :
    |nearest x - x| ≤ 2 ^ (k - 54) := by
  have hpos := ulp_pos x
  have hlog : Int.log 2 x < k := (Int.lt_zpow_iff_log_lt one_lt_two hx).mp (by exact_mod_cast h)
  have hdiff : nearest x - x = (roundEven (x / ulp x) - x / ulp x) * ulp x := by
    rw [sub_mul, div_mul_cancel₀ _ hpos.ne', nearest]
  calc |nearest x - x| = |(roundEven (x / ulp x) : ℚ) - x / ulp x| * ulp x := by
        rw [hdiff, abs_mul, abs_of_pos hpos]
    _ ≤ 1 / 2 * ulp x := by
        gcongr
        exact abs_roundEven_sub_le _
    _ = 2 ^ (Int.log 2 x - 53) := by
        rw [show Int.log 2 x - 53 = Int.log 2 x - 52 - 1 by ring, zpow_sub_one₀ two_ne_zero, ulp]
        ring
    _ ≤ 2 ^ (k - 54) := zpow_le_zpow_right₀ one_le_two (by omega)

/-- Rounding moves a number by 2^-53 of itself at most. -/
theorem nearest_le_mul (hx : 0 ≤ x) : nearest x ≤ x * (1 + 2 ^ (-53 : ℤ)) := by
  rcases hx.eq_or_lt with rfl | hpos
  · simp
  have herr := (abs_le.mp (abs_nearest_sub_le hpos
    (by exact_mod_cast Int.lt_zpow_succ_log_self one_lt_two x))).2
  have hlow : (2 : ℚ) ^ Int.log 2 x ≤ x := by
    exact_mod_cast Int.zpow_log_le_self one_lt_two hpos
  have hsplit : (2 : ℚ) ^ (Int.log 2 x + 1 - 54) = 2 ^ Int.log 2 x * 2 ^ (-53 : ℤ) := by
    rw [← zpow_add₀ two_ne_zero]
    ring_nf
  have hscale : (2 : ℚ) ^ Int.log 2 x * 2 ^ (-53 : ℤ) ≤ x * 2 ^ (-53 : ℤ) := by gcongr
  rw [hsplit] at herr
  linarith

def signedNearest (x : ℚ) : ℚ := if 0 ≤ x then nearest x else -nearest (-x)

theorem signedNearest_of_nonneg (hx : 0 ≤ x) : signedNearest x = nearest x := if_pos hx

theorem signedNearest_nonpos (hx : x < 0) : signedNearest x ≤ 0 := by
  have hneg := nearest_nonneg (x := -x) (by linarith)
  rw [signedNearest, if_neg (not_le.mpr hx)]
  linarith

/-! ## Whole numbers below doubles -/

/-- Below `2 ^ 52` one unit is an even number of units in the last place. -/
theorem exists_ulp_eq (hx : 0 < x) (hsmall : x < 2 ^ 52) :
    ∃ t : ℕ, ulp x = (2 ^ (t + 1))⁻¹ ∧ Int.log 2 x = 51 - t := by
  have hlog : Int.log 2 x < 52 :=
    (Int.lt_zpow_iff_log_lt one_lt_two hx).mp (by exact_mod_cast hsmall)
  obtain ⟨t, ht⟩ : ∃ t : ℕ, Int.log 2 x - 52 = -((t + 1 : ℕ) : ℤ) :=
    ⟨(51 - Int.log 2 x).toNat, by omega⟩
  refine ⟨t, ?_, by omega⟩
  rw [ulp, ht, zpow_neg, zpow_natCast]

/-- A number that is rounded up to a whole one is as close to the next one a unit further on. -/
theorem add_one_le_nearest {m : ℕ} (hx : 0 < x) (hsmall : x + 1 < 2 ^ 52) (hm : m ≤ nearest x) :
    (m : ℚ) + 1 ≤ nearest (x + 1) := by
  have hlog : Int.log 2 x ≤ Int.log 2 (x + 1) := Int.log_mono_right hx (by linarith)
  obtain ⟨t, hulp, ht⟩ := exists_ulp_eq (x := x + 1) (by linarith) hsmall
  have hbelow : (m - x) * 2 ^ (t + 1) ≤ 1 / 2 := by
    have herr := (abs_le.mp (abs_nearest_sub_le hx
      (by exact_mod_cast Int.lt_zpow_succ_log_self one_lt_two x))).2
    have hdist : (2 : ℚ) ^ (Int.log 2 x + 1 - 54) ≤ 2 ^ (-((t + 2 : ℕ) : ℤ)) :=
      zpow_le_zpow_right₀ one_le_two (by omega)
    have hhalf : (2 : ℚ) ^ (-((t + 2 : ℕ) : ℤ)) * 2 ^ (t + 1) = 1 / 2 := by
      rw [zpow_neg, zpow_natCast, pow_succ 2 (t + 1)]
      field_simp
    rw [← hhalf]
    gcongr
    linarith
  have hround : ((m + 1 : ℕ) * 2 ^ (t + 1) : ℤ) ≤ roundEven ((x + 1) / ulp (x + 1)) := by
    have heven : ((m + 1 : ℕ) * 2 ^ (t + 1) : ℤ) % 2 = 0 := by
      rw [pow_succ, ← mul_assoc]
      exact Int.mul_emod_left _ _
    rw [← roundEven_even_sub_half heven]
    apply roundEven_mono
    rw [hulp, div_inv_eq_mul]
    push_cast
    linarith
  have hmul : ((m + 1 : ℕ) * 2 ^ (t + 1) : ℚ) * ulp (x + 1) = m + 1 := by
    rw [hulp, mul_inv_cancel_right₀ (by positivity)]
    push_cast
    rfl
  calc (m + 1 : ℚ) = ((m + 1 : ℕ) * 2 ^ (t + 1) : ℤ) * ulp (x + 1) := by
        rw [← hmul]
        push_cast
        rfl
    _ ≤ roundEven ((x + 1) / ulp (x + 1)) * ulp (x + 1) :=
      mul_le_mul_of_nonneg_right (by exact_mod_cast hround) (ulp_pos _).le
    _ = nearest (x + 1) := rfl

/-- A double one unit further on has a larger whole part, also where the smaller number was rounded
up to a whole one. -/
theorem floor_nearest_add_one_le (hx : 0 ≤ x) (hsmall : x + 1 < 2 ^ 52) (h : x + 1 ≤ y) :
    (⌊nearest x⌋₊ : ℚ) + 1 ≤ nearest y := by
  refine le_trans ?_ (nearest_mono (by linarith) h)
  rcases hx.eq_or_lt with rfl | hpos
  · have hone : nearest (0 + 1) = 1 := by
      rw [zero_add]
      exact_mod_cast nearest_natCast (m := 1) (by norm_num)
    rw [nearest_zero, Nat.floor_zero, hone, Nat.cast_zero, zero_add]
  · exact add_one_le_nearest hpos hsmall (Nat.floor_le (nearest_nonneg hx))

/-! ## Rounding to whole numbers by adding a half -/

/-- Between a whole number and the half above it the sum is exact. -/
theorem floor_nearest_add_half_of_lt {a : ℕ} (ha : 1 ≤ a) (ha' : a < 2 ^ 52)
    (hdouble : nearest x = x) (h : a ≤ x) (h' : x < a + 1 / 2) :
    ⌊nearest (x + 1 / 2)⌋₊ = a := by
  have hx : 1 ≤ x := le_trans (by exact_mod_cast ha) h
  have hfloor : ⌊x⌋₊ = a := (Nat.floor_eq_iff (by linarith)).mpr ⟨h, by linarith⟩
  have hlog : Int.log 2 x = Nat.log 2 a := by rw [Int.log_of_one_le_right 2 hx, hfloor]
  have hsmall : Nat.log 2 a < 52 := Nat.log_lt_of_lt_pow (by omega) ha'
  obtain ⟨n, hn⟩ := Nat.exists_eq_add_of_le (Nat.lt_succ_iff.mp hsmall)
  obtain ⟨m, hm, hlow, -⟩ := nearest_of_pos (show 0 < x by linarith)
  rw [hdouble] at hm
  -- a half is a whole number of distances
  have hhalf : 2 ^ n * ulp x = 1 / 2 := by
    rw [pow_mul_ulp, hlog, show (Nat.log 2 a + (n - 52) : ℤ) = -1 by omega, zpow_neg_one]
    norm_num
  have hsum : x + 1 / 2 = (m + 2 ^ n : ℤ) * ulp x := by
    push_cast
    linear_combination hm - hhalf
  -- no power of two lies between the two whole numbers
  have hnext : (a + 1 : ℚ) ≤ 2 ^ 53 * ulp x := by
    rw [pow_53_mul_ulp, hlog]
    exact_mod_cast Nat.lt_pow_succ_log_self one_lt_two a
  have hbits : m + 2 ^ n ≤ 2 ^ 53 := by
    have hle : ((m + 2 ^ n : ℤ) : ℚ) * ulp x ≤ (2 ^ 53 : ℤ) * ulp x := by
      rw [← hsum, Int.cast_pow, Int.cast_ofNat]
      linarith
    exact_mod_cast le_of_mul_le_mul_right hle (ulp_pos x)
  have hexact : nearest (x + 1 / 2) = x + 1 / 2 := by
    rw [hsum]
    exact nearest_mul_ulp (by positivity) hbits x
  rw [hexact, Nat.floor_eq_iff (by linarith)]
  constructor <;> linarith

theorem floor_nearest_add_half_le {a : ℕ} (ha : 1 ≤ a) (ha' : a < 2 ^ 52) (hx : 0 ≤ x)
    (hdouble : nearest x = x) (h : x < a + 1 / 2) : ⌊nearest (x + 1 / 2)⌋₊ ≤ a := by
  rcases le_or_gt (a : ℚ) x with hle | hlt
  · exact (floor_nearest_add_half_of_lt ha ha' hdouble hle h).le
  · have hnext : nearest (x + 1 / 2) ≤ (2 * a + 1 : ℕ) * 2 ^ (-1 : ℤ) := by
      refine nearest_le (by omega) (by positivity) ?_
      rw [zpow_neg_one]
      push_cast
      linarith
    rw [zpow_neg_one] at hnext
    push_cast at hnext
    rw [← Nat.lt_add_one_iff, Nat.floor_lt' (by omega)]
    push_cast
    linarith

theorem floor_nearest_add_half_of_le {a : ℕ} (ha : a < 2 ^ 52 - 1) (h : a + 1 / 2 ≤ x)
    (h' : x ≤ a + 1) : ⌊nearest (x + 1 / 2)⌋₊ = a + 1 := by
  have hlow : ((a + 1 : ℕ) * 2 ^ (0 : ℤ) : ℚ) ≤ nearest (x + 1 / 2) := by
    refine le_nearest (by omega) ?_
    rw [zpow_zero]
    push_cast
    linarith
  have hhigh : nearest (x + 1 / 2) ≤ (2 * a + 3 : ℕ) * 2 ^ (-1 : ℤ) := by
    refine nearest_le (by omega) (by linarith) ?_
    rw [zpow_neg_one]
    push_cast
    linarith
  rw [zpow_zero, mul_one] at hlow
  rw [zpow_neg_one] at hhigh
  push_cast at hhigh
  rw [Nat.floor_eq_iff (le_trans (by positivity) hlow)]
  push_cast at hlow ⊢
  constructor <;> linarith

end Sysbench.Doubles
