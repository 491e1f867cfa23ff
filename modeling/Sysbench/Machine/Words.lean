import Mathlib

/-! # Fixed-width integers as conversions

The models compute in unbounded integers. Where a C assignment narrows a value,
the conversion is written out: `toInt w` is storage in a signed integer of `w` bits,
`toUInt w` in an unsigned one, both modulo `2 ^ w`.
-/
namespace Sysbench.Words

def toInt (w : ℕ) (x : ℤ) : ℤ := x.bmod (2 ^ w)

def toUInt (w : ℕ) (x : ℤ) : ℕ := (x % 2 ^ w).toNat

theorem toUInt_lt (w : ℕ) (x : ℤ) : toUInt w x < 2 ^ w := by
  have hpos : (0 : ℤ) < 2 ^ w := by positivity
  have hlt := Int.emod_lt_of_pos x hpos
  unfold toUInt
  have hcast : ((2 ^ w : ℕ) : ℤ) = 2 ^ w := by push_cast; rfl
  omega

theorem toUInt_of_range {w : ℕ} {x : ℤ} (h0 : 0 ≤ x) (hlt : x < 2 ^ w) : toUInt w x = x.toNat := by
  unfold toUInt
  rw [Int.emod_eq_of_lt h0 hlt]

theorem toUInt_natCast {w n : ℕ} (h : n < 2 ^ w) : toUInt w n = n := by
  have hlt : (n : ℤ) < 2 ^ w := by exact_mod_cast h
  rw [toUInt_of_range (Int.natCast_nonneg n) hlt, Int.toNat_natCast]

theorem toUInt_sub {w a b : ℕ} (hab : b ≤ a) (ha : a < 2 ^ w) : toUInt w ((a : ℤ) - b) = a - b := by
  rw [← Int.natCast_sub hab, toUInt_natCast (by omega)]

theorem toUInt_eq_mod (w n : ℕ) : toUInt w n = n % 2 ^ w := by
  have hcast : (n : ℤ) % 2 ^ w = ((n % 2 ^ w : ℕ) : ℤ) := by push_cast; rfl
  rw [toUInt, hcast, Int.toNat_natCast]

theorem toUInt_toUInt_add (w m n : ℕ) : toUInt w (toUInt w m + n : ℕ) = toUInt w (m + n : ℕ) := by
  simp only [toUInt_eq_mod, Nat.mod_add_mod]

theorem toUInt_add_toUInt (w m n : ℕ) :
    toUInt w (toUInt w m + toUInt w n : ℕ) = toUInt w (m + n : ℕ) := by
  simp only [toUInt_eq_mod, Nat.mod_add_mod, Nat.add_mod_mod]

theorem toUInt_toInt (w : ℕ) (x : ℤ) : toUInt w (toInt w x) = toUInt w x := by
  have hcast : ((2 ^ w : ℕ) : ℤ) = 2 ^ w := by push_cast; rfl
  unfold toUInt toInt
  rw [← hcast, Int.bmod_emod]

theorem toInt_toUInt (w : ℕ) (x : ℤ) : toInt w (toUInt w x) = toInt w x := by
  have hpos : (0 : ℤ) < ((2 ^ w : ℕ) : ℤ) := by positivity
  have hcast : ((2 ^ w : ℕ) : ℤ) = 2 ^ w := by push_cast; rfl
  unfold toInt toUInt
  rw [← hcast, Int.toNat_of_nonneg (Int.emod_nonneg x hpos.ne'), Int.emod_bmod]

/-- A wider unsigned number passed where a signed one is read. -/
theorem toInt_toUInt_of_le {w v : ℕ} (h : w ≤ v) (x : ℤ) : toInt w (toUInt v x) = toInt w x := by
  have hpos : (0 : ℤ) < 2 ^ v := by positivity
  have hdvd : ((2 ^ w : ℕ) : ℤ) ∣ 2 ^ v := by
    push_cast
    exact pow_dvd_pow 2 h
  unfold toInt toUInt
  rw [Int.toNat_of_nonneg (Int.emod_nonneg x hpos.ne'), ← Int.emod_bmod (x % 2 ^ v),
    Int.emod_emod_of_dvd x hdvd, Int.emod_bmod]

theorem toInt_natCast {w n : ℕ} (hw : 0 < w) (h : n < 2 ^ (w - 1)) : toInt w n = n := by
  obtain ⟨v, rfl⟩ := Nat.exists_eq_succ_of_ne_zero hw.ne'
  have hn : (n : ℤ) < 2 ^ v := by exact_mod_cast h
  have hcast : ((2 ^ (v + 1) : ℕ) : ℤ) = 2 * 2 ^ v := by push_cast; ring
  apply Int.bmod_eq_of_le
  · rw [Nat.succ_eq_add_one, hcast]
    omega
  · rw [Nat.succ_eq_add_one, hcast]
    omega

theorem toInt_lt {w : ℕ} (hw : 0 < w) (x : ℤ) : toInt w x < 2 ^ (w - 1) := by
  obtain ⟨v, rfl⟩ := Nat.exists_eq_succ_of_ne_zero hw.ne'
  have h := Int.bmod_lt (x := x) (m := 2 ^ (v + 1)) (by positivity)
  have hcast : ((2 ^ (v + 1) : ℕ) : ℤ) = 2 * 2 ^ v := by push_cast; ring
  rw [hcast] at h
  have hgoal : (2 : ℤ) ^ (v + 1 - 1) = 2 ^ v := by simp
  unfold toInt
  rw [Nat.succ_eq_add_one, hgoal]
  omega

theorem le_toInt {w : ℕ} (hw : 0 < w) (x : ℤ) : -2 ^ (w - 1) ≤ toInt w x := by
  obtain ⟨v, rfl⟩ := Nat.exists_eq_succ_of_ne_zero hw.ne'
  have h := Int.le_bmod (x := x) (m := 2 ^ (v + 1)) (by positivity)
  have hcast : ((2 ^ (v + 1) : ℕ) : ℤ) = 2 * 2 ^ v := by push_cast; ring
  rw [hcast] at h
  have hgoal : (2 : ℤ) ^ (v + 1 - 1) = 2 ^ v := by simp
  unfold toInt
  rw [Nat.succ_eq_add_one, hgoal]
  omega

/-- Storage changes a number by a multiple of the modulus. -/
theorem toInt_add_mul (w : ℕ) (x k : ℤ) : toInt w (x + k * 2 ^ w) = toInt w x := by
  have hcast : (2 : ℤ) ^ w = ((2 ^ w : ℕ) : ℤ) := by push_cast; rfl
  unfold toInt
  rw [hcast, ← Int.emod_bmod, Int.add_mul_emod_self_right, Int.emod_bmod]

theorem exists_toInt_eq (w : ℕ) (x : ℤ) : ∃ k : ℤ, toInt w x = x + k * 2 ^ w := by
  have hcast : (2 : ℤ) ^ w = ((2 ^ w : ℕ) : ℤ) := by push_cast; rfl
  obtain ⟨k, hk⟩ := Int.dvd_bmod_sub_self (x := x) (m := 2 ^ w)
  refine ⟨k, ?_⟩
  rw [toInt, hcast, mul_comm k]
  linarith

theorem toInt_of_range {w : ℕ} {x : ℤ} (hw : 0 < w) (hlo : -2 ^ (w - 1) ≤ x)
    (hhi : x < 2 ^ (w - 1)) : toInt w x = x := by
  obtain ⟨v, rfl⟩ := Nat.exists_eq_succ_of_ne_zero hw.ne'
  have hcast : ((2 ^ (v + 1) : ℕ) : ℤ) = 2 * 2 ^ v := by push_cast; ring
  rw [Nat.succ_eq_add_one, Nat.add_sub_cancel] at hlo hhi
  apply Int.bmod_eq_of_le
  · rw [Nat.succ_eq_add_one, hcast]
    omega
  · rw [Nat.succ_eq_add_one, hcast]
    omega

/-- A number just past the largest one comes out negative. -/
theorem toInt_of_le {w : ℕ} {x : ℤ} (hw : 0 < w) (hlo : 2 ^ (w - 1) ≤ x)
    (hhi : x < 2 ^ (w - 1) + 2 ^ w) : toInt w x = x - 2 ^ w := by
  have hdouble : (2 : ℤ) ^ w = 2 * 2 ^ (w - 1) := by
    rw [← pow_succ', Nat.sub_add_cancel hw]
  have hsub := toInt_add_mul w x (-1)
  rw [neg_one_mul] at hsub
  rw [← hsub, toInt_of_range hw (by omega) (by omega)]
  rfl

theorem toInt_natCast_eq_iff {w n : ℕ} (hw : 0 < w) : toInt w n = n ↔ n < 2 ^ (w - 1) := by
  constructor
  · intro h
    have hlt := toInt_lt hw n
    rw [h] at hlt
    exact_mod_cast hlt
  · exact toInt_natCast hw

/-- Storing a number that is not negative makes it no larger. -/
theorem toInt_natCast_le (w n : ℕ) : toInt w n ≤ n := by
  have hpos : (0 : ℤ) < ((2 ^ w : ℕ) : ℤ) := by positivity
  have hmod : (n : ℤ) % (2 ^ w : ℕ) ≤ n := by exact_mod_cast Nat.mod_le n (2 ^ w)
  unfold toInt Int.bmod
  dsimp only
  split <;> omega

theorem toInt_toInt_add (w : ℕ) (x y : ℤ) : toInt w (toInt w x + y) = toInt w (x + y) :=
  Int.bmod_add_bmod

theorem toInt_add_toInt (w : ℕ) (x y : ℤ) : toInt w (toInt w x + toInt w y) = toInt w (x + y) := by
  rw [toInt_toInt_add, add_comm x, toInt_toInt_add, add_comm y]

theorem toInt_sub_toInt (w : ℕ) (x y : ℤ) : toInt w (toInt w x - toInt w y) = toInt w (x - y) := by
  unfold toInt
  rw [Int.bmod_sub_bmod, Int.sub_bmod_bmod]

theorem toUInt_toUInt_sub (w : ℕ) (x y : ℤ) :
    toUInt w ((toUInt w x : ℤ) - toUInt w y) = toUInt w (x - y) := by
  have hpos : (0 : ℤ) < 2 ^ w := by positivity
  unfold toUInt
  rw [Int.toNat_of_nonneg (Int.emod_nonneg x hpos.ne'),
    Int.toNat_of_nonneg (Int.emod_nonneg y hpos.ne'), ← Int.sub_emod]

theorem toUInt_toUInt_add_int (w : ℕ) (x y : ℤ) :
    toUInt w ((toUInt w x : ℤ) + y) = toUInt w (x + y) := by
  have hpos : (0 : ℤ) < 2 ^ w := by positivity
  unfold toUInt
  rw [Int.toNat_of_nonneg (Int.emod_nonneg x hpos.ne'), Int.emod_add_emod]

theorem toUInt_toUInt_add_toUInt (w : ℕ) (x y : ℤ) :
    toUInt w ((toUInt w x : ℤ) + toUInt w y) = toUInt w (x + y) := by
  rw [toUInt_toUInt_add_int, add_comm x, toUInt_toUInt_add_int, add_comm y]

theorem toUInt_add_mul (w : ℕ) (x k : ℤ) : toUInt w (x + k * 2 ^ w) = toUInt w x := by
  rw [toUInt, Int.add_mul_emod_self_right, toUInt]

theorem toUInt_eq_iff {w : ℕ} {x : ℤ} : (toUInt w x : ℤ) = x ↔ 0 ≤ x ∧ x < 2 ^ w := by
  have hpos : (0 : ℤ) < 2 ^ w := by positivity
  constructor
  · intro h
    have hlt := toUInt_lt w x
    rw [← h]
    exact ⟨Int.natCast_nonneg _, by exact_mod_cast hlt⟩
  · rintro ⟨h0, hlt⟩
    rw [toUInt_of_range h0 hlt, Int.toNat_of_nonneg h0]

/-- A difference of stored numbers is the first of them exactly if the second is zero. -/
theorem toInt_sub_eq_iff {w n : ℕ} (hw : 0 < w) (y : ℤ) :
    toInt w (toInt w n - toInt w y) = n ↔ n < 2 ^ (w - 1) ∧ toInt w y = 0 := by
  have hcancel : toInt w (n - y) = toInt w (n - 0) ↔ toInt w y = toInt w 0 :=
    Int.bmod_sub_cancel_left n
  have hzero : toInt w 0 = 0 := Int.zero_bmod
  rw [toInt_sub_toInt]
  rw [sub_zero, hzero] at hcancel
  constructor
  · intro h
    have hlt := toInt_lt hw (n - y)
    rw [h] at hlt
    have hn : n < 2 ^ (w - 1) := by exact_mod_cast hlt
    exact ⟨hn, hcancel.mp (h.trans (toInt_natCast hw hn).symm)⟩
  · rintro ⟨hn, hy⟩
    rw [hcancel.mpr hy, toInt_natCast hw hn]

end Sysbench.Words
