import Sysbench.Core.Snapshots
import Sysbench.Machine.Doubles

/-! # The interval of a percentile

`sb_percentile_calculate` computes the rank `nmax` in doubles and looks for the first interval,
from number 1 on, up to which so many values lie. Counts are below `2 ^ 64` and do not wrap here.
-/
namespace Sysbench.Core

open Doubles

/-- `nmax`. Every operation rounds. -/
def percentileNmax (total : ℕ) (percent : ℚ) : ℕ :=
  ⌊nearest (nearest (nearest (nearest total * percent) / 100) + 1 / 2)⌋₊

/-- The loop, when `k` intervals are left from number `i` on. -/
def percentileScan (tmp : ℕ → ℕ) (nmax ncur i : ℕ) : ℕ → ℕ
  | 0 => i
  | k + 1 =>
    if nmax ≤ ncur + tmp i then i else percentileScan tmp nmax (ncur + tmp i) (i + 1) k

/-- `sb_percentile_calculate`, up to the interval that `exp` turns into the result. Without any
values the result is 0.0. -/
def sbPercentileCalculate (size : ℕ) (percent : ℚ) (p : Percentile) : Option ℕ :=
  if p.total = 0 then none
  else some (percentileScan p.values (percentileNmax p.total percent) (p.values 0) 1 (size - 1))

inductive PercentileCall where
  | update (value : ℤ)
  | reset
  deriving DecidableEq

variable (bucket : ℤ → ℕ)

def percentileStep (p : Percentile) : PercentileCall → Percentile
  | .update value => sbPercentileUpdate bucket value p
  | .reset => sbPercentileReset

/-- The histogram after some calls; `sb_percentile_init` clears it as a reset does. -/
def percentileRun (calls : List PercentileCall) : Percentile :=
  calls.foldl (percentileStep bucket) sbPercentileReset

def record (values : Multiset ℤ) : PercentileCall → Multiset ℤ
  | .update value => value ::ₘ values
  | .reset => 0

def recordedValues (calls : List PercentileCall) : Multiset ℤ := calls.foldl record 0

def valuesBelow (values : Multiset ℤ) (j : ℕ) : ℕ := values.countP fun v => bucket v < j

/-- Interval `i` is where the search for `nmax` values ends, when `below j` values lie in the
intervals before `j`. -/
structure SearchEnds (below : ℕ → ℕ) (nmax start size i : ℕ) : Prop where
  start_le : start ≤ i
  le_size : i ≤ size
  before : ∀ j, start ≤ j → j < i → below (j + 1) < nmax
  reached : i < size → nmax ≤ below (i + 1)

variable {bucket}

/-! ## The search -/

theorem percentileScan_ends {tmp below : ℕ → ℕ} (hbelow : ∀ j, below (j + 1) = below j + tmp j)
    (nmax i k : ℕ) :
    SearchEnds below nmax i (i + k) (percentileScan tmp nmax (below i) i k) := by
  induction k generalizing i with
  | zero =>
    exact ⟨le_rfl, le_rfl, fun j hj hji => absurd hji (not_lt.mpr hj),
      fun h => absurd h (lt_irrefl _)⟩
  | succ k ih =>
    unfold percentileScan
    rw [← hbelow]
    split_ifs with hreached
    · exact ⟨le_rfl, by omega, fun j hj hji => absurd hji (not_lt.mpr hj), fun _ => hreached⟩
    · have h := ih (i + 1)
      rw [show i + 1 + k = i + (k + 1) by ring] at h
      refine ⟨by have := h.start_le; omega, h.le_size, fun j hj hji => ?_, h.reached⟩
      rcases hj.eq_or_lt with rfl | hlt
      · exact not_le.mp hreached
      · exact h.before j hlt hji

theorem SearchEnds.mono {below : ℕ → ℕ} {nmax nmax' start size i j : ℕ}
    (h : SearchEnds below nmax start size i) (h' : SearchEnds below nmax' start size j)
    (hle : nmax ≤ nmax') : i ≤ j := by
  by_contra hlt
  have hbefore := h.before j h'.start_le (by omega)
  have hreached := h'.reached (by have := h.le_size; omega)
  omega

theorem SearchEnds.lt_size {below : ℕ → ℕ} {nmax start size i : ℕ}
    (h : SearchEnds below nmax start size i) (hstart : start < size)
    (hall : nmax ≤ below size) : i < size := by
  refine lt_of_le_of_ne h.le_size ?_
  rintro rfl
  have hbefore := h.before (i - 1) (by omega) (by omega)
  rw [Nat.sub_add_cancel (by omega)] at hbefore
  omega

/-! ## The histogram -/

theorem percentileStep_histogram (values : Multiset ℤ) (c : PercentileCall) :
    percentileStep bucket (histogram bucket values) c = histogram bucket (record values c) := by
  cases c with
  | update value => exact sbPercentileUpdate_histogram value values
  | reset => exact histogram_zero.symm

theorem percentileRun_eq (calls : List PercentileCall) :
    percentileRun bucket calls = histogram bucket (recordedValues calls) := by
  have hrun : ∀ values : Multiset ℤ,
      calls.foldl (percentileStep bucket) (histogram bucket values) =
        histogram bucket (calls.foldl record values) := by
    induction calls with
    | nil => exact fun values => rfl
    | cons c calls ih =>
      intro values
      rw [List.foldl_cons, percentileStep_histogram, ih, List.foldl_cons]
  exact hrun 0

theorem update_mem_of_recorded {calls : List PercentileCall} {value : ℤ}
    (h : value ∈ recordedValues calls) : .update value ∈ calls := by
  have hrun : ∀ values : Multiset ℤ, value ∈ calls.foldl record values →
      value ∈ values ∨ .update value ∈ calls := by
    clear h
    induction calls with
    | nil => exact fun values hv => .inl hv
    | cons c calls ih =>
      intro values hv
      rcases ih _ hv with hv | hv
      · cases c with
        | update v =>
          rcases Multiset.mem_cons.mp hv with rfl | hv
          · exact .inr List.mem_cons_self
          · exact .inl hv
        | reset => exact absurd hv (Multiset.notMem_zero _)
      · exact .inr (List.mem_cons_of_mem _ hv)
  simpa using hrun 0 h

theorem valuesBelow_succ (bucket : ℤ → ℕ) (values : Multiset ℤ) (j : ℕ) :
    valuesBelow bucket values (j + 1) =
      valuesBelow bucket values j + (histogram bucket values).values j := by
  induction values using Multiset.induction with
  | empty => rfl
  | cons v values ih =>
    simp only [valuesBelow, histogram, Multiset.countP_cons] at ih ⊢
    rw [ih]
    split_ifs <;> omega

theorem valuesBelow_one (values : Multiset ℤ) :
    valuesBelow bucket values 1 = (histogram bucket values).values 0 := by
  simp [valuesBelow, histogram]

theorem sbPercentileCalculate_ends (bucket : ℤ → ℕ) {size : ℕ} (hsize : 1 ≤ size) {values : Multiset ℤ}
    (h : values ≠ 0) (percent : ℚ) :
    ∃ i, sbPercentileCalculate size percent (histogram bucket values) = some i ∧
      SearchEnds (valuesBelow bucket values) (percentileNmax values.card percent) 1 size i := by
  have hcard : (histogram bucket values).total ≠ 0 := by simpa [histogram] using h
  have hends := percentileScan_ends (valuesBelow_succ bucket values)
    (percentileNmax values.card percent) 1 (size - 1)
  rw [Nat.add_sub_cancel' hsize, valuesBelow_one] at hends
  exact ⟨_, if_neg hcard, hends⟩

theorem sbPercentileCalculate_off_table {size : ℕ} (hsize : 1 ≤ size) {values : Multiset ℤ}
    (h : values ≠ 0) {percent : ℚ} (hgt : values.card < percentileNmax values.card percent) :
    sbPercentileCalculate size percent (histogram bucket values) = some size := by
  obtain ⟨i, hi, hsearch⟩ := sbPercentileCalculate_ends bucket hsize h percent
  rcases hsearch.le_size.eq_or_lt with rfl | hlt
  · exact hi
  · have hreached := hsearch.reached hlt
    have hle : valuesBelow bucket values (i + 1) ≤ values.card := Multiset.countP_le_card _ _
    omega

/-! ## The rank in doubles -/

theorem percentileNmax_mono (total : ℕ) {p q : ℚ} (hp : 0 ≤ p) (h : p ≤ q) :
    percentileNmax total p ≤ percentileNmax total q := by
  have htotal : 0 ≤ nearest total := nearest_nonneg (Nat.cast_nonneg total)
  have hproduct : nearest (nearest total * p) ≤ nearest (nearest total * q) :=
    nearest_mono (by positivity) (by gcongr)
  have hproduct0 : 0 ≤ nearest (nearest total * p) := nearest_nonneg (by positivity)
  have hquotient : nearest (nearest (nearest total * p) / 100) ≤
      nearest (nearest (nearest total * q) / 100) :=
    nearest_mono (by positivity) (by gcongr)
  have hquotient0 : 0 ≤ nearest (nearest (nearest total * p) / 100) :=
    nearest_nonneg (by positivity)
  exact Nat.floor_le_floor (nearest_mono (by positivity) (by gcongr))

/-- The rank stays within the count up to 2.8 * 10 ^ 15 values. -/
theorem percentileNmax_le {total : ℕ} (hpos : 0 < total) (h : 100 * total ≤ 2 ^ 58) {p : ℚ}
    (hp : 0 ≤ p) (hp' : p ≤ 100) : percentileNmax total p ≤ total := by
  refine (percentileNmax_mono total hp hp').trans ?_
  have htotal : (1 : ℚ) ≤ total := by exact_mod_cast hpos
  have hlt : (total * 100 : ℚ) < 2 ^ 58 := by exact_mod_cast (show total * 100 < 2 ^ 58 by omega)
  unfold percentileNmax
  rw [nearest_natCast (show total ≤ 2 ^ 53 by omega)]
  -- the product is off by 16 at most, and the quotient by another quarter
  have hproduct := abs_le.mp (abs_nearest_sub_le (k := 58) (by positivity) hlt)
  generalize nearest (total * 100 : ℚ) = M at hproduct ⊢
  norm_num at hproduct
  have hquotient := abs_le.mp (abs_nearest_sub_le (k := 52) (x := M / 100) (by linarith)
    (by norm_num; linarith))
  norm_num at hquotient
  refine floor_nearest_add_half_le hpos (by omega) ?_ ?_ ?_
  · exact nearest_nonneg (by linarith)
  · exact nearest_idem (by linarith)
  · linarith

/-- A product of more than 53 bits is rounded to an even number. -/
theorem nearest_add_49 {a : ℕ} (h : 2 ^ 53 ≤ 100 * a + 49) (h' : 100 * a + 49 < 2 ^ 54) :
    nearest ((100 * a + 49 : ℕ) : ℚ) = 100 * a + 48 := by
  have hlow : (2 ^ (53 : ℤ) : ℚ) ≤ (100 * a + 49 : ℕ) := by exact_mod_cast h
  have hhigh : ((100 * a + 49 : ℕ) : ℚ) < 2 ^ (53 + 1 : ℤ) := by exact_mod_cast h'
  have hhalf : ((100 * a + 49 : ℕ) : ℚ) / 2 ^ (53 - 52 : ℤ) = ((50 * a + 24 : ℤ) : ℚ) + 1 / 2 := by
    norm_num
    ring
  rw [nearest_eq_roundEven hlow hhigh, hhalf, roundEven_even_add_half (by omega)]
  norm_num
  ring

theorem hundred_mul_le_nearest {a : ℕ} (h : 25 * a ≤ 2 ^ 53) (b : ℕ) :
    (100 * a : ℚ) ≤ nearest ((100 * a + b : ℕ) : ℚ) := by
  have hbits : (100 * a : ℚ) = (25 * a : ℕ) * 2 ^ (2 : ℤ) := by
    push_cast
    ring
  rw [hbits]
  refine le_nearest h ?_
  rw [← hbits]
  push_cast
  linarith [Nat.cast_nonneg (α := ℚ) b]

theorem nearest_quotient_lt {a b : ℕ} (ha : 1 ≤ a) (hb : b < 50) (h : 100 * a + b ≤ 2 ^ 54) :
    nearest (nearest ((100 * a + b : ℕ) : ℚ) / 100) < a + 1 / 2 := by
  have ha' : (1 : ℚ) ≤ a := by exact_mod_cast ha
  have hb' : (b : ℚ) ≤ 49 := by exact_mod_cast Nat.lt_succ_iff.mp hb
  have hlow := hundred_mul_le_nearest (show 25 * a ≤ 2 ^ 53 by omega) b
  rcases le_or_gt (100 * a + b) (2 ^ 53) with hsmall | hlarge
  · have hsize : (a : ℚ) + 1 ≤ 2 ^ (47 : ℤ) := by exact_mod_cast (show a + 1 ≤ 2 ^ 47 by omega)
    rw [nearest_natCast hsmall]
    push_cast
    have hquotient := abs_le.mp (abs_nearest_sub_le (k := 47) (x := (100 * a + b) / 100)
      (by positivity) (by linarith))
    norm_num at hquotient ⊢
    linarith
  · have hsize : (a : ℚ) + 1 ≤ 2 ^ (48 : ℤ) := by exact_mod_cast (show a + 1 ≤ 2 ^ 48 by omega)
    have hhigh : nearest ((100 * a + b : ℕ) : ℚ) ≤ 100 * a + 48 := by
      rw [← nearest_add_49 (by omega) (by omega)]
      exact nearest_mono (by positivity) (by push_cast; linarith)
    generalize nearest ((100 * a + b : ℕ) : ℚ) = M at hlow hhigh ⊢
    have hquotient := abs_le.mp (abs_nearest_sub_le (k := 48) (x := M / 100) (by linarith)
      (by linarith))
    norm_num at hquotient ⊢
    linarith

theorem nearest_quotient_mem {a b : ℕ} (hb : 50 ≤ b) (hb' : b < 100) (h : 100 * a + b ≤ 2 ^ 54) :
    (a + 1 / 2 : ℚ) ≤ nearest (nearest ((100 * a + b : ℕ) : ℚ) / 100) ∧
      nearest (nearest ((100 * a + b : ℕ) : ℚ) / 100) ≤ a + 1 := by
  have hbounds : (50 : ℚ) ≤ b ∧ (b : ℚ) ≤ 100 := ⟨by exact_mod_cast hb, by exact_mod_cast hb'.le⟩
  have hlow : ((50 * a + 25 : ℕ) * 2 ^ (1 : ℤ) : ℚ) ≤ nearest ((100 * a + b : ℕ) : ℚ) := by
    refine le_nearest (by omega) ?_
    push_cast
    linarith
  have hhigh : nearest ((100 * a + b : ℕ) : ℚ) ≤ (25 * a + 25 : ℕ) * 2 ^ (2 : ℤ) := by
    refine nearest_le (by omega) (by positivity) ?_
    push_cast
    linarith
  generalize nearest ((100 * a + b : ℕ) : ℚ) = M at hlow hhigh ⊢
  push_cast at hlow hhigh
  have hhalf : ((2 * a + 1 : ℕ) * 2 ^ (-1 : ℤ) : ℚ) ≤ nearest (M / 100) := by
    refine le_nearest (by omega) ?_
    rw [zpow_neg_one]
    push_cast
    linarith
  have hnext : nearest (M / 100) ≤ (a + 1 : ℕ) * 2 ^ (0 : ℤ) := by
    refine nearest_le (by omega) (by linarith [Nat.cast_nonneg (α := ℚ) a]) ?_
    rw [zpow_zero]
    push_cast
    linarith
  rw [zpow_neg_one] at hhalf
  rw [zpow_zero] at hnext
  push_cast at hhalf hnext
  constructor <;> linarith

theorem floor_nearest_rank_of_lt {b : ℕ} (hb : b < 50) :
    ⌊nearest (nearest (nearest (b : ℚ) / 100) + 1 / 2)⌋₊ = 0 := by
  have hb' : (b : ℚ) ≤ 49 := by exact_mod_cast Nat.lt_succ_iff.mp hb
  rw [nearest_natCast (by omega), Nat.floor_eq_zero]
  have hquotient : nearest (b / 100 : ℚ) ≤ (127 : ℕ) * 2 ^ (-8 : ℤ) :=
    nearest_le (by norm_num) (by positivity) (by norm_num; linarith)
  have hsum : nearest (nearest (b / 100 : ℚ) + 1 / 2) ≤ (255 : ℕ) * 2 ^ (-8 : ℤ) := by
    have hpos : 0 ≤ nearest (b / 100 : ℚ) := nearest_nonneg (by positivity)
    refine nearest_le (by norm_num) (by positivity) ?_
    norm_num at hquotient ⊢
    linarith
  norm_num at hsum ⊢
  linarith

/-- Up to a product of `2 ^ 54` the rank is exact. -/
theorem floor_nearest_rank {N : ℕ} (h : N ≤ 2 ^ 54) :
    ⌊nearest (nearest (nearest (N : ℚ) / 100) + 1 / 2)⌋₊ = (N + 50) / 100 := by
  obtain ⟨a, b, hb, rfl⟩ : ∃ a b, b < 100 ∧ N = 100 * a + b :=
    ⟨N / 100, N % 100, Nat.mod_lt _ (by norm_num), (Nat.div_add_mod N 100).symm⟩
  rcases lt_or_ge b 50 with hlt | hge
  · rw [show (100 * a + b + 50) / 100 = a by omega]
    rcases Nat.eq_zero_or_pos a with rfl | ha
    · simpa using floor_nearest_rank_of_lt hlt
    have hproduct := hundred_mul_le_nearest (show 25 * a ≤ 2 ^ 53 by omega) b
    have hlow : ((a : ℕ) * 2 ^ (0 : ℤ) : ℚ) ≤ nearest (nearest ((100 * a + b : ℕ) : ℚ) / 100) :=
      le_nearest (by omega) (by rw [zpow_zero]; linarith)
    rw [zpow_zero, mul_one] at hlow
    refine floor_nearest_add_half_of_lt ha (by omega) ?_ hlow (nearest_quotient_lt ha hlt h)
    exact nearest_idem (div_nonneg (nearest_nonneg (by positivity)) (by norm_num))
  · rw [show (100 * a + b + 50) / 100 = a + 1 by omega]
    obtain ⟨hhalf, hnext⟩ := nearest_quotient_mem hge hb h
    exact floor_nearest_add_half_of_le (by omega) hhalf hnext

/-- The conversion of the count loses nothing that the product keeps. -/
theorem nearest_product {total p : ℕ} (h : total * p ≤ 2 ^ 54) :
    nearest (nearest (total : ℚ) * p) = nearest ((total * p : ℕ) : ℚ) := by
  rcases le_or_gt total (2 ^ 53) with hle | hgt
  · rw [nearest_natCast hle, Nat.cast_mul]
  · have hp : p = 0 ∨ p = 1 := by
      by_contra hp
      have hlarge : 2 ^ 53 * 2 < total * p :=
        Nat.mul_lt_mul_of_lt_of_le hgt (by omega) (by omega)
      omega
    rcases hp with rfl | rfl
    · simp
    · simpa using nearest_idem (Nat.cast_nonneg (α := ℚ) total)

theorem percentileNmax_eq {total p : ℕ} (h : total * p ≤ 2 ^ 54) :
    percentileNmax total p = (total * p + 50) / 100 := by
  unfold percentileNmax
  rw [nearest_product h, floor_nearest_rank h]

theorem floor_rank (N : ℕ) : ⌊(N : ℚ) / 100 + 1 / 2⌋₊ = (N + 50) / 100 := by
  have hsum : (N : ℚ) / 100 + 1 / 2 = (N + 50 : ℕ) / (100 : ℕ) := by
    push_cast
    ring
  rw [hsum, Nat.floor_div_eq_div]

/-- Where the search ends for every history: the last two parts say how far the doubles reach. -/
theorem percentile_selection {size : ℕ} (hsize : 2 ≤ size) {calls : List PercentileCall}
    (hbucket : ∀ value, .update value ∈ calls → bucket value < size) {total : ℕ}
    (htotal : (percentileRun bucket calls).total = total) (hpos : 0 < total) {p : ℕ}
    (hp : 1 ≤ p) (hp' : p ≤ 100) :
    ∃ i, sbPercentileCalculate size p (percentileRun bucket calls) = some i ∧
      1 ≤ i ∧ i ≤ size ∧
      (valuesBelow bucket (recordedValues calls) i < percentileNmax total p ∨ i = 1) ∧
      (i < size →
        percentileNmax total p ≤ valuesBelow bucket (recordedValues calls) (i + 1)) ∧
      (∀ q j : ℕ, p ≤ q → q ≤ 100 →
        sbPercentileCalculate size q (percentileRun bucket calls) = some j → i ≤ j) ∧
      (100 * total ≤ 2 ^ 58 → i < size) ∧
      (total * p ≤ 2 ^ 54 →
        i < size ∧ percentileNmax total p = ⌊(total * p / 100 + 1 / 2 : ℚ)⌋₊) := by
  have hcard : (recordedValues calls).card = total := by rw [← htotal, percentileRun_eq, histogram]
  have hvalues : recordedValues calls ≠ 0 := by
    rw [ne_eq, ← Multiset.card_eq_zero]
    omega
  have hends := fun q : ℚ =>
    sbPercentileCalculate_ends bucket (show 1 ≤ size by omega) hvalues q
  rw [← percentileRun_eq, hcard] at hends
  obtain ⟨i, hi, hsearch⟩ := hends p
  -- the search ends within the table when the rank does not exceed the count
  have hall : valuesBelow bucket (recordedValues calls) size = total := by
    rw [← hcard]
    exact Multiset.countP_eq_card.mpr fun v hv => hbucket v (update_mem_of_recorded hv)
  have hwithin : percentileNmax total p ≤ total → i < size := fun hle =>
    hsearch.lt_size (by omega) (hall ▸ hle)
  refine ⟨i, hi, hsearch.start_le, hsearch.le_size, ?_, hsearch.reached, ?_, ?_, ?_⟩
  · rcases hsearch.start_le.eq_or_lt with hone | hlt
    · exact .inr hone.symm
    · have hbefore := hsearch.before (i - 1) (by omega) (by omega)
      rw [Nat.sub_add_cancel hsearch.start_le] at hbefore
      exact .inl hbefore
  · intro q j hq _ hj
    obtain ⟨j', hj', hsearch'⟩ := hends q
    cases hj.symm.trans hj'
    exact hsearch.mono hsearch' (percentileNmax_mono total (by positivity) (by exact_mod_cast hq))
  · intro hbound
    exact hwithin (percentileNmax_le hpos hbound (by positivity) (by exact_mod_cast hp'))
  · intro hbound
    have hexact := percentileNmax_eq hbound
    refine ⟨hwithin ?_, ?_⟩
    · have hmul : total * p ≤ total * 100 := Nat.mul_le_mul_left total hp'
      omega
    · rw [hexact, ← floor_rank, Nat.cast_mul]

theorem percentile_selection_three :
    ∃ i, sbPercentileCalculate 4 (50 : ℕ)
        (percentileRun Int.toNat [.update 3, .reset, .update 1, .update 2, .update 3]) = some i ∧
      1 ≤ i ∧ i < 4 ∧ percentileNmax 3 (50 : ℕ) = ⌊((3 : ℕ) * (50 : ℕ) / 100 + 1 / 2 : ℚ)⌋₊ := by
  obtain ⟨i, hi, hpos, -, -, -, -, -, hexact⟩ := @percentile_selection Int.toNat 4 (by decide)
    [.update 3, .reset, .update 1, .update 2, .update 3] (by simp) 3 rfl (by decide) 50
    (by decide) (by decide)
  obtain ⟨hlt, hrank⟩ := hexact (by norm_num)
  exact ⟨i, hi, hpos, hlt, hrank⟩

theorem foldl_record_replicate (values : Multiset ℤ) (k : ℕ) (value : ℤ) :
    (List.replicate k (.update value)).foldl record values =
      Multiset.replicate k value + values := by
  induction k generalizing values with
  | zero => simp
  | succ k ih =>
    rw [List.replicate_succ, List.foldl_cons, ih, record, Multiset.replicate_succ,
      Multiset.cons_add, Multiset.add_cons]

def twoValues (k l : ℕ) (v w : ℤ) : List PercentileCall :=
  List.replicate k (.update v) ++ List.replicate l (.update w)

theorem recordedValues_twoValues (k l : ℕ) (v w : ℤ) :
    recordedValues (twoValues k l v w) = Multiset.replicate l w + Multiset.replicate k v := by
  rw [recordedValues, twoValues, List.foldl_append, foldl_record_replicate,
    foldl_record_replicate, add_zero]

theorem percentileNmax_gt : percentileNmax 2882303761517121 100 = 2882303761517122 := by
  have hproduct : nearest ((2882303761517121 : ℕ) * 100) = 4503599627370502 * 2 ^ (6 : ℤ) := by
    rw [nearest_eq_roundEven (k := 58) (by norm_num) (by norm_num),
      roundEven_eq (m := 4503599627370502) (by norm_num [abs_lt])]
    norm_num
  have hquotient : nearest (4503599627370502 * 2 ^ (6 : ℤ) / 100) =
      5764607523034243 * 2 ^ (-1 : ℤ) := by
    rw [nearest_eq_roundEven (k := 51) (by norm_num) (by norm_num),
      roundEven_eq (m := 5764607523034243) (by norm_num [abs_lt])]
    norm_num
  have hsum : (5764607523034243 * 2 ^ (-1 : ℤ) + 1 / 2 : ℚ) = (2882303761517122 : ℕ) := by
    norm_num
  rw [percentileNmax, nearest_natCast (by norm_num), hproduct, hquotient, hsum,
    nearest_natCast (by norm_num), Nat.floor_natCast]

theorem percentileNmax_lt : percentileNmax 360287970189641 50 = 180143985094820 := by
  have hproduct : nearest ((360287970189641 : ℕ) * 50) = 4503599627370512 * 2 ^ (2 : ℤ) := by
    have hhalf : ((360287970189641 : ℕ) * 50 / 2 ^ (54 - 52 : ℤ) : ℚ) =
        (4503599627370512 : ℤ) + 1 / 2 := by
      norm_num
    rw [nearest_eq_roundEven (k := 54) (by norm_num) (by norm_num), hhalf,
      roundEven_even_add_half (by norm_num)]
    norm_num
  have hquotient : nearest (4503599627370512 * 2 ^ (2 : ℤ) / 100) =
      5764607523034255 * 2 ^ (-5 : ℤ) := by
    rw [nearest_eq_roundEven (k := 47) (by norm_num) (by norm_num),
      roundEven_eq (m := 5764607523034255) (by norm_num [abs_lt])]
    norm_num
  have hsum : (5764607523034255 * 2 ^ (-5 : ℤ) + 1 / 2 : ℚ) =
      (5764607523034271 : ℕ) * 2 ^ (-5 : ℤ) := by
    norm_num
  rw [percentileNmax, nearest_natCast (by norm_num), hproduct, hquotient, hsum,
    nearest_eq (by norm_num), Nat.floor_eq_iff (by positivity)]
  norm_num

theorem valuesBelow_replicate (k : ℕ) (v : ℤ) (j : ℕ) :
    valuesBelow bucket (Multiset.replicate k v) j = if bucket v < j then k else 0 := by
  rw [valuesBelow, ← Multiset.coe_replicate, Multiset.coe_countP, List.countP_replicate]
  simp

theorem valuesBelow_add (xs ys : Multiset ℤ) (j : ℕ) :
    valuesBelow bucket (xs + ys) j = valuesBelow bucket xs j + valuesBelow bucket ys j :=
  Multiset.countP_add _ _ _

/-- With more values than a hundredth of `2 ^ 58` the search for all of them can leave the table,
and with a product above `2 ^ 54` the interval found can have one value too few up to it. -/
theorem percentile_rank_rounds :
    sbPercentileCalculate 2 100 (percentileRun Int.toNat (twoValues 2882303761517120 1 0 1)) =
      some 2 ∧
    sbPercentileCalculate 3 50
      (percentileRun Int.toNat (twoValues 180143985094820 180143985094821 1 2)) = some 1 ∧
    valuesBelow Int.toNat (recordedValues (twoValues 180143985094820 180143985094821 1 2))
      (1 + 1) < ⌊(360287970189641 * 50 / 100 + 1 / 2 : ℚ)⌋₊ := by
  have hbelow : valuesBelow Int.toNat (Multiset.replicate 180143985094821 2 +
      Multiset.replicate 180143985094820 1) 2 = 180143985094820 := by
    rw [valuesBelow_add, valuesBelow_replicate, valuesBelow_replicate]
    simp
  rw [percentileRun_eq, percentileRun_eq, recordedValues_twoValues, recordedValues_twoValues, hbelow]
  refine ⟨?_, ?_, ?_⟩
  · apply sbPercentileCalculate_off_table one_le_two
    · rw [ne_eq, ← Multiset.card_eq_zero, Multiset.card_add, Multiset.card_replicate,
        Multiset.card_replicate]
      norm_num
    · rw [Multiset.card_add, Multiset.card_replicate, Multiset.card_replicate]
      norm_num [percentileNmax_gt]
  · have hcard : (Multiset.replicate 180143985094821 (2 : ℤ) +
        Multiset.replicate 180143985094820 1).card = 360287970189641 := by
      rw [Multiset.card_add, Multiset.card_replicate, Multiset.card_replicate]
    have hvalues : Multiset.replicate 180143985094821 (2 : ℤ) +
        Multiset.replicate 180143985094820 1 ≠ 0 := by
      rw [ne_eq, ← Multiset.card_eq_zero, hcard]
      norm_num
    obtain ⟨i, hi, hsearch⟩ :=
      sbPercentileCalculate_ends Int.toNat (show 1 ≤ 3 by norm_num) hvalues 50
    rw [hcard, percentileNmax_lt] at hsearch
    have hle : i ≤ 1 := by
      by_contra hlt
      have hbefore := hsearch.before 1 le_rfl (by omega)
      rw [hbelow] at hbefore
      exact lt_irrefl _ hbefore
    rw [hi, le_antisymm hle hsearch.start_le]
  · rw [← Nat.succ_le_iff, Nat.le_floor_iff (by norm_num)]
    norm_num

end Sysbench.Core
