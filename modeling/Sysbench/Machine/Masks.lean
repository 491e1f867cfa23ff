import Mathlib

/-! # Masks of one bit and multiples of a size -/
namespace Sysbench.Masks

variable {w i : ℕ} {x : BitVec w}

/-- A mask without a bit that is clear anyway. -/
theorem and_not_twoPow_of_clear (h : x.getLsbD i = false) : x &&& ~~~BitVec.twoPow w i = x := by
  ext j hj
  rw [BitVec.getElem_and, BitVec.getElem_not, BitVec.getElem_twoPow]
  by_cases hij : j = i
  · subst hij
    rw [← BitVec.getLsbD_eq_getElem, h]
    rfl
  · simp [hij]

/-- A bit is cleared and added again. -/
theorem and_not_twoPow_add_of_set (h : x.getLsbD i = true) :
    (x &&& ~~~BitVec.twoPow w i) + BitVec.twoPow w i = x := by
  have hdisjoint : (x &&& ~~~BitVec.twoPow w i) &&& BitVec.twoPow w i = 0#w := by
    ext j hj
    simp
  rw [BitVec.add_eq_or_of_and_eq_zero _ _ hdisjoint]
  ext j hj
  rw [BitVec.getElem_or, BitVec.getElem_and, BitVec.getElem_not, BitVec.getElem_twoPow]
  by_cases hij : j = i
  · subst hij
    rw [← BitVec.getLsbD_eq_getElem, h]
    simp
  · simp [hij]

/-- The first multiple of `p` above `q`. -/
theorem isLeast_multiple {p : ℕ} (hp : 0 < p) (q : ℕ) :
    IsLeast {m | p ∣ m ∧ q < m} (q / p * p + p) := by
  have hmod := Nat.div_add_mod' q p
  have hlt := Nat.mod_lt q hp
  refine ⟨⟨Dvd.intro_left (q / p + 1) (by rw [add_mul, one_mul]), by omega⟩, ?_⟩
  rintro m ⟨⟨k, rfl⟩, hq⟩
  have hk : q / p < k := Nat.div_lt_of_lt_mul hq
  calc q / p * p + p = p * (q / p + 1) := by rw [mul_add, mul_one, mul_comm]
    _ ≤ p * k := Nat.mul_le_mul_left p hk

end Sysbench.Masks
