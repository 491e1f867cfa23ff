import Sysbench.Fileio.Requests

/-! # Random numbers with a given distribution

The functions of `sysbench.c` that map values of `sb_rnd()` to a range. Their locals are 32-bit
words, and the mean of the Gaussian distribution is taken of a sum that wraps.
-/
namespace Sysbench.Core

open Words
open Fileio (Draw sbMaxRnd sbMaxRnd_pos)

/-- The result of an `int` operation. An overflow is undefined. -/
def signed (x : ℤ) : Option ℤ := if -2 ^ 31 ≤ x ∧ x < 2 ^ 31 then some x else none

def divide (x y : ℕ) : Option ℕ := if y = 0 then none else some (x / y)

def modulo (x y : ℕ) : Option ℕ := if y = 0 then none else some (x % y)

/-- `b - a + 1` as an `int`. -/
def intSize (a b : ℤ) : Option ℤ := (signed (b - a)).bind fun d => signed (d + 1)

structure RandSpec where
  randIter : ℕ
  randPct : ℕ
  randRes : ℕ
  deriving DecidableEq, Repr

def sbRandUniform (a b : ℤ) (rnd : Draw) : Option ℤ := do
  let size ← intSize a b
  if size = 0 then none else some (toInt 32 (a + (rnd : ℤ).tmod size))

/-- `sum += sb_rnd() % t` for the first `k` values; `sum` is an `int`. -/
def sumLoop (t : ℕ) (rnd : ℕ → Draw) : ℕ → Option ℤ
  | 0 => some 0
  | k + 1 => do
    let sum ← sumLoop t rnd k
    let d ← modulo (rnd k) t
    some (toInt 32 (sum + d))

/-- `a + sum / rand_iter`, where the count makes both operations unsigned. -/
def addMean (a sum : ℤ) (randIter : ℕ) : Option ℤ :=
  (divide (toUInt 32 sum) randIter).map fun mean : ℕ => toInt 32 (toUInt 32 (a + mean))

def sbRandGaussian (randIter : ℕ) (a b : ℤ) (rnd : ℕ → Draw) : Option ℤ := do
  let size ← intSize a b
  let sum ← sumLoop (toUInt 32 size) rnd randIter
  addMean a sum randIter

/-- The second part of `sb_rand_special`: few items near the centre. -/
def nearCentre (randPct t res : ℕ) : ℕ :=
  let share := toUInt 32 (t * randPct : ℕ)
  let d := if share / 100 < 1 then 1 else share / 100
  toUInt 32 (res % d + toUInt 32 ((t / 2 : ℕ) - (share / (100 * 2) : ℕ)) : ℕ)

def sbRandSpecial (o : RandSpec) (a b : ℤ) (rnd : ℕ → Draw) : Option ℤ :=
  if b ≤ a then some 0
  else do
    let size ← intSize a b
    let t := toUInt 32 size
    let factor ← divide 100 (toUInt 32 (100 - o.randRes))
    let res ← modulo (rnd 0) (toUInt 32 (t * factor : ℕ))
    if res < t then
      let sum ← sumLoop t (fun i => rnd (i + 1)) o.randIter
      addMean a sum o.randIter
    else
      some (toInt 32 (toUInt 32 (a + nearCentre o.randPct t res)))

/-! ## The size of a range -/

variable {a b : ℤ}

theorem intSize_eq (ha : 1 ≤ a) (hab : a ≤ b) (hb : b ≤ 2 ^ 31 - 2) :
    intSize a b = some (b - a + 1) := by
  have hdiff : signed (b - a) = some (b - a) := if_pos (by omega)
  have hsize : signed (b - a + 1) = some (b - a + 1) := if_pos (by omega)
  rw [intSize, hdiff, Option.bind_some, hsize]

def rangeCard (a b : ℤ) : ℕ := (b - a + 1).toNat

theorem toUInt_intSize (ha : 1 ≤ a) (hab : a ≤ b) (hb : b ≤ 2 ^ 31 - 2) :
    toUInt 32 (b - a + 1) = rangeCard a b :=
  toUInt_of_range (by omega) (by omega)

theorem rangeCard_pos (hab : a ≤ b) : 0 < rangeCard a b := by
  unfold rangeCard
  omega

theorem rangeCard_cast (hab : a ≤ b) : (rangeCard a b : ℤ) = b - a + 1 :=
  Int.toNat_of_nonneg (by omega)

/-! ## The sum of the Gaussian distribution -/

def exactSum (t : ℕ) (rnd : ℕ → Draw) (k : ℕ) : ℕ := ∑ i ∈ Finset.range k, (rnd i : ℕ) % t

variable {k t : ℕ}

theorem exactSum_succ (t : ℕ) (rnd : ℕ → Draw) (k : ℕ) :
    exactSum t rnd (k + 1) = exactSum t rnd k + (rnd k : ℕ) % t :=
  Finset.sum_range_succ ..

theorem draw_mod_le (ht : 0 < t) (d : Draw) : (d : ℕ) % t ≤ min t sbMaxRnd - 1 := by
  have hmod := Nat.mod_lt (d : ℕ) ht
  have hle := Nat.mod_le (d : ℕ) t
  have hd := d.isLt
  omega

theorem exactSum_le (ht : 0 < t) (rnd : ℕ → Draw) (k : ℕ) :
    exactSum t rnd k ≤ k * (min t sbMaxRnd - 1) := by
  induction k with
  | zero => simp [exactSum]
  | succ k ih =>
    have hle := draw_mod_le ht (rnd k)
    rw [exactSum_succ, Nat.succ_mul]
    omega

theorem exists_exactSum_eq (ht : 0 < t) (k : ℕ) :
    ∃ rnd, exactSum t rnd k = k * (min t sbMaxRnd - 1) := by
  have hmax := sbMaxRnd_pos
  have hdraw : min t sbMaxRnd - 1 < sbMaxRnd := by omega
  refine ⟨fun _ => ⟨min t sbMaxRnd - 1, hdraw⟩, ?_⟩
  have hmod : (min t sbMaxRnd - 1) % t = min t sbMaxRnd - 1 := Nat.mod_eq_of_lt (by omega)
  simp [exactSum, hmod]

theorem sumLoop_eq (ht : 0 < t) (rnd : ℕ → Draw) (k : ℕ) :
    sumLoop t rnd k = some (toInt 32 (exactSum t rnd k)) := by
  induction k with
  | zero => simp [sumLoop, exactSum, toInt]
  | succ k ih =>
    have hmod : modulo (rnd k) t = some ((rnd k : ℕ) % t) := if_neg ht.ne'
    have hadd : toInt 32 (toInt 32 (exactSum t rnd k) + ((rnd k : ℕ) % t : ℕ)) =
        toInt 32 (exactSum t rnd (k + 1)) := by
      rw [exactSum_succ, Nat.cast_add]
      exact Int.bmod_add_bmod
    simp only [sumLoop, ih, hmod, Option.bind_eq_bind, Option.bind_some, hadd]

theorem addMean_eq {n : ℕ} (ha : 1 ≤ a) (hk : 0 < k)
    (hn : a + (n % 2 ^ 32 / k : ℕ) < 2 ^ 31) :
    addMean a (toInt 32 n) k = some (a + (n % 2 ^ 32 / k : ℕ)) := by
  have hdiv : divide (toUInt 32 (toInt 32 n)) k = some (n % 2 ^ 32 / k) := by
    rw [toUInt_toInt, toUInt_eq_mod]
    exact if_neg hk.ne'
  obtain ⟨x, hx⟩ := Int.eq_ofNat_of_zero_le (a := a + (n % 2 ^ 32 / k : ℕ)) (by positivity)
  rw [addMean, hdiv, Option.map_some, hx, toUInt_natCast (by omega),
    toInt_natCast (by decide) (by omega)]

/-- The mean of a sum that wrapped is too small, but not out of range. -/
theorem gaussianSum_in_range (ha : 1 ≤ a) (hab : a ≤ b) (hb : b ≤ 2 ^ 31 - 2) (hk : 0 < k)
    (rnd : ℕ → Draw) :
    ((sumLoop (rangeCard a b) rnd k).bind fun sum => addMean a sum k) =
        some (a + (exactSum (rangeCard a b) rnd k % 2 ^ 32 / k : ℕ)) ∧
      a + (exactSum (rangeCard a b) rnd k % 2 ^ 32 / k : ℕ) ≤ b := by
  have hmean : exactSum (rangeCard a b) rnd k % 2 ^ 32 / k ≤ rangeCard a b - 1 := by
    have hsum := exactSum_le (rangeCard_pos hab) rnd k
    have hmin : k * (min (rangeCard a b) sbMaxRnd - 1) ≤ k * (rangeCard a b - 1) :=
      Nat.mul_le_mul_left k (by omega)
    exact Nat.div_le_of_le_mul ((Nat.mod_le _ _).trans (hsum.trans hmin))
  have hle : a + (exactSum (rangeCard a b) rnd k % 2 ^ 32 / k : ℕ) ≤ b := by
    have hcard := rangeCard_cast hab
    omega
  refine ⟨?_, hle⟩
  rw [sumLoop_eq (rangeCard_pos hab), Option.bind_some, addMean_eq ha hk (by omega)]

theorem sbRandGaussian_eq (ha : 1 ≤ a) (hab : a ≤ b) (hb : b ≤ 2 ^ 31 - 2) (hk : 0 < k)
    (rnd : ℕ → Draw) :
    sbRandGaussian k a b rnd = some (a + (exactSum (rangeCard a b) rnd k % 2 ^ 32 / k : ℕ)) := by
  rw [sbRandGaussian, intSize_eq ha hab hb, Option.bind_eq_bind, Option.bind_some,
    toUInt_intSize ha hab hb]
  exact (gaussianSum_in_range ha hab hb hk rnd).1

/-- A quotient by a word shows every wrap of the dividend. -/
theorem mod_div_eq_iff {n : ℕ} (hk : 0 < k) (hword : k < 2 ^ 32) :
    n % 2 ^ 32 / k = n / k ↔ n < 2 ^ 32 := by
  refine ⟨fun h => ?_, fun h => by rw [Nat.mod_eq_of_lt h]⟩
  by_contra hge
  have hwrap : n % 2 ^ 32 + k ≤ n := by omega
  have hdiv := Nat.div_le_div_right (c := k) hwrap
  rw [Nat.add_div_right _ hk] at hdiv
  omega

/-- The function returns the exact mean if and only if the sum fits in the accumulator. All sums
of a range fit if the largest one does. -/
theorem sbRandGaussian_exact_iff (ha : 1 ≤ a) (hab : a ≤ b) (hb : b ≤ 2 ^ 31 - 2) (hk : 1 ≤ k)
    (hword : k < 2 ^ 32) :
    (∀ rnd : ℕ → Draw,
      (sbRandGaussian k a b rnd = some (a + (exactSum (rangeCard a b) rnd k / k : ℕ)) ↔
        exactSum (rangeCard a b) rnd k < 2 ^ 32) ∧
      ∃ x, sbRandGaussian k a b rnd = some x ∧ a ≤ x ∧ x ≤ b) ∧
    ((∀ rnd : ℕ → Draw,
        sbRandGaussian k a b rnd = some (a + (exactSum (rangeCard a b) rnd k / k : ℕ))) ↔
      k * (min (rangeCard a b) sbMaxRnd - 1) < 2 ^ 32) := by
  have hiff : ∀ rnd : ℕ → Draw,
      sbRandGaussian k a b rnd = some (a + (exactSum (rangeCard a b) rnd k / k : ℕ)) ↔
        exactSum (rangeCard a b) rnd k < 2 ^ 32 := by
    intro rnd
    rw [sbRandGaussian_eq ha hab hb hk, Option.some_inj, add_right_inj, Nat.cast_inj]
    exact mod_div_eq_iff hk hword
  refine ⟨fun rnd => ⟨hiff rnd, _, sbRandGaussian_eq ha hab hb hk rnd, ?_, ?_⟩, ?_⟩
  · exact le_add_of_nonneg_right (Int.natCast_nonneg _)
  · exact (gaussianSum_in_range ha hab hb hk rnd).2
  · have hpos := rangeCard_pos hab
    constructor
    · intro hall
      obtain ⟨rnd, hsum⟩ := exists_exactSum_eq hpos k
      exact hsum ▸ (hiff rnd).mp (hall rnd)
    · intro hfit rnd
      exact (hiff rnd).mpr ((exactSum_le hpos rnd k).trans_lt hfit)

theorem sbRandGaussian_exact_default :
    (∀ rnd : ℕ → Draw,
      (sbRandGaussian 12 1 10000 rnd = some (1 + (exactSum (rangeCard 1 10000) rnd 12 / 12 : ℕ)) ↔
        exactSum (rangeCard 1 10000) rnd 12 < 2 ^ 32) ∧
      ∃ x, sbRandGaussian 12 1 10000 rnd = some x ∧ 1 ≤ x ∧ x ≤ 10000) ∧
    ((∀ rnd : ℕ → Draw,
        sbRandGaussian 12 1 10000 rnd =
          some (1 + (exactSum (rangeCard 1 10000) rnd 12 / 12 : ℕ))) ↔
      12 * (min (rangeCard 1 10000) sbMaxRnd - 1) < 2 ^ 32) :=
  sbRandGaussian_exact_iff (by decide) (by decide) (by decide) (by decide) (by decide)

/-- A table of 10^9 rows and the default of 12 iterations. -/
theorem sbRandGaussian_not_exact :
    ¬∀ (k : ℕ) (a b : ℤ) (rnd : ℕ → Draw), 1 ≤ a → a ≤ b → b ≤ 2 ^ 31 - 2 → 1 ≤ k → k < 2 ^ 32 →
      sbRandGaussian k a b rnd = some (a + (exactSum (rangeCard a b) rnd k / k : ℕ)) := by
  intro h
  have hlast := h 12 1 1000000000 (fun _ => ⟨999999999, by decide⟩) (by decide) (by decide)
    (by decide) (by decide) (by decide)
  revert hlast
  decide +kernel

/-! ## The special distribution -/

/-- The range that the first draw chooses from. -/
def specialRange (o : RandSpec) (t : ℕ) : ℕ := t * (100 / (100 - o.randRes))

/-- The values near the centre lie inside the range, also if the share of the range wraps. -/
theorem nearCentre_lt {randPct : ℕ} (ht : 0 < t) (hword : t < 2 ^ 31) (hpct : randPct ≤ 100)
    (res : ℕ) : nearCentre randPct t res < t := by
  have hshare : toUInt 32 (t * randPct : ℕ) ≤ 100 * t := by
    rw [toUInt_eq_mod, mul_comm 100]
    exact (Nat.mod_le _ _).trans (Nat.mul_le_mul_left t hpct)
  unfold nearCentre
  dsimp only
  generalize toUInt 32 (t * randPct : ℕ) = share at hshare ⊢
  have hres : res % (if share / 100 < 1 then 1 else share / 100) <
      if share / 100 < 1 then 1 else share / 100 := Nat.mod_lt res (by split <;> omega)
  generalize res % (if share / 100 < 1 then 1 else share / 100) = r at hres ⊢
  rw [toUInt_of_range (x := (t / 2 : ℕ) - (share / (100 * 2) : ℕ)) (by omega) (by omega),
    toUInt_eq_mod]
  split at hres <;> omega

variable {o : RandSpec}

theorem sbRandSpecial_of_lt (ha : 1 ≤ a) (hab : a < b) (hb : b ≤ 2 ^ 31 - 2) (hres : o.randRes ≤ 99)
    (rnd : ℕ → Draw) :
    sbRandSpecial o a b rnd =
      (modulo (rnd 0) (specialRange o (rangeCard a b) % 2 ^ 32)).bind fun res =>
        if res < rangeCard a b then
          (sumLoop (rangeCard a b) (fun i => rnd (i + 1)) o.randIter).bind fun sum =>
            addMean a sum o.randIter
        else some (toInt 32 (toUInt 32 (a + nearCentre o.randPct (rangeCard a b) res))) := by
  have hfactor : divide 100 (toUInt 32 (100 - o.randRes)) = some (100 / (100 - o.randRes)) := by
    have hword : toUInt 32 (100 - o.randRes) = 100 - o.randRes :=
      toUInt_sub (show o.randRes ≤ 100 by omega) (by norm_num)
    rw [hword]
    exact if_neg (by omega)
  unfold sbRandSpecial
  rw [if_neg (not_le.mpr hab), intSize_eq ha hab.le hb]
  simp only [Option.bind_eq_bind, Option.bind_some, toUInt_intSize ha hab.le hb, hfactor,
    toUInt_eq_mod, specialRange]

/-- The first part of the range returns a mean, the second one a value near the centre. -/
theorem sbRandSpecial_of_range (ha : 1 ≤ a) (hab : a < b) (hb : b ≤ 2 ^ 31 - 2)
    (hiter : 1 ≤ o.randIter) (hpct : o.randPct ≤ 100) (hres : o.randRes ≤ 99)
    (hrange : ¬2 ^ 32 ∣ specialRange o (rangeCard a b)) (rnd : ℕ → Draw) :
    ∃ x, sbRandSpecial o a b rnd = some x ∧ a ≤ x ∧ x ≤ b := by
  rw [Nat.dvd_iff_mod_eq_zero] at hrange
  have hmodulo : modulo (rnd 0) (specialRange o (rangeCard a b) % 2 ^ 32) =
      some ((rnd 0 : ℕ) % (specialRange o (rangeCard a b) % 2 ^ 32)) := if_neg hrange
  rw [sbRandSpecial_of_lt ha hab hb hres, hmodulo, Option.bind_some]
  split_ifs with hfirst
  · obtain ⟨hsum, hle⟩ := gaussianSum_in_range ha hab.le hb hiter fun i => rnd (i + 1)
    exact ⟨_, hsum, le_add_of_nonneg_right (Int.natCast_nonneg _), hle⟩
  · have hcard := rangeCard_cast hab.le
    have hlt := nearCentre_lt (t := rangeCard a b) (by omega) (by omega) hpct
      ((rnd 0 : ℕ) % (specialRange o (rangeCard a b) % 2 ^ 32))
    generalize nearCentre o.randPct (rangeCard a b) _ = res at hlt ⊢
    obtain ⟨x, hx⟩ := Int.eq_ofNat_of_zero_le (a := a + res) (by omega)
    refine ⟨a + res, ?_, by omega, by omega⟩
    rw [hx, toUInt_natCast (by omega), toInt_natCast (by decide) (by omega)]

/-- The function returns a value of the range if and only if the range has two elements and
its size as a special range is not a multiple of 2^32. -/
theorem sbRandSpecial_in_range_iff (ha : 1 ≤ a) (hab : a ≤ b) (hb : b ≤ 2 ^ 31 - 2)
    (hiter : 1 ≤ o.randIter) (hpct : o.randPct ≤ 100) (hres : o.randRes ≤ 99) (rnd : ℕ → Draw) :
    (∃ x, sbRandSpecial o a b rnd = some x ∧ a ≤ x ∧ x ≤ b) ↔
      a < b ∧ ¬2 ^ 32 ∣ specialRange o (rangeCard a b) := by
  refine ⟨?_, fun h => sbRandSpecial_of_range ha h.1 hb hiter hpct hres h.2 rnd⟩
  rintro ⟨x, hx, hlo, -⟩
  by_cases hlt : a < b
  · refine ⟨hlt, fun hdvd => ?_⟩
    have hmodulo : modulo (rnd 0) (specialRange o (rangeCard a b) % 2 ^ 32) = none :=
      if_pos (Nat.mod_eq_zero_of_dvd hdvd)
    rw [sbRandSpecial_of_lt ha hlt hb hres, hmodulo, Option.bind_none] at hx
    cases hx
  · have hzero : sbRandSpecial o a b rnd = some 0 := if_pos (not_lt.mp hlt)
    rw [hzero] at hx
    cases hx
    omega

theorem sbRandSpecial_in_range_default :
    (∃ x, sbRandSpecial ⟨12, 1, 75⟩ 1 10000 (fun _ => ⟨40000, by decide⟩) = some x ∧
        1 ≤ x ∧ x ≤ 10000) ↔
      (1 : ℤ) < 10000 ∧ ¬2 ^ 32 ∣ specialRange ⟨12, 1, 75⟩ (rangeCard 1 10000) :=
  sbRandSpecial_in_range_iff (by decide) (by decide) (by decide) (by decide) (by decide) (by decide)
    _

/-- The default settings, for a table of one row and for one of 2^30 rows. -/
theorem sbRandSpecial_not_in_range :
    (¬∃ x, sbRandSpecial ⟨12, 1, 75⟩ 1 1 (fun _ => ⟨0, by decide⟩) = some x ∧ 1 ≤ x ∧ x ≤ 1) ∧
      ¬∃ x, sbRandSpecial ⟨12, 1, 75⟩ 1 1073741824 (fun _ => ⟨0, by decide⟩) = some x ∧
        1 ≤ x ∧ x ≤ 1073741824 := by
  have hone : sbRandSpecial ⟨12, 1, 75⟩ 1 1 (fun _ => ⟨0, by decide⟩) = some 0 := by decide +kernel
  have hwrap : sbRandSpecial ⟨12, 1, 75⟩ 1 1073741824 (fun _ => ⟨0, by decide⟩) = none := by
    decide +kernel
  constructor
  · rintro ⟨x, hx, hlo, -⟩
    cases hone.symm.trans hx
    exact absurd hlo (by decide)
  · rintro ⟨x, hx, -⟩
    cases hwrap.symm.trans hx

end Sysbench.Core
