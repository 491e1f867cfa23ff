import Sysbench.Machine.ShiftRegister

/-! # Errors that a remainder shows

Two messages of one length have the same remainder when the modulus divides their difference.
If the modulus has the term x^0 it divides no difference shorter than itself, wherever it stands
in the message, and it divides the difference of two bits when their distance is a multiple of
the period of x.
-/
namespace Sysbench.ShiftRegister

open Polynomial

variable {w k : ℕ}

/-! ## The bits of a message -/

/-- Bit `i` of a message, in the order in which the register takes them. -/
def bitAt (ms : List (BitVec k)) (i : ℕ) : Bool := (ms[i / k]?.getD 0#k).getLsbD (i % k)

theorem bitAt_of_ge {ms : List (BitVec k)} {i : ℕ} (hk : 0 < k) (hi : k * ms.length ≤ i) :
    bitAt ms i = false := by
  have hout : ms.length ≤ i / k := (Nat.le_div_iff_mul_le hk).mpr (by rwa [Nat.mul_comm])
  rw [bitAt, List.getElem?_eq_none hout, Option.getD_none, BitVec.getLsbD_zero]

theorem bitAt_append_left {ms : List (BitVec k)} {i : ℕ} (hi : i < k * ms.length)
    (ns : List (BitVec k)) : bitAt (ms ++ ns) i = bitAt ms i := by
  rw [bitAt, bitAt, List.getElem?_append_left (Nat.div_lt_of_lt_mul hi)]

theorem bitAt_append_right (ms ns : List (BitVec k)) (i : ℕ) :
    bitAt (ms ++ ns) (k * ms.length + i) = bitAt ns i := by
  rcases Nat.eq_zero_or_pos k with rfl | hk
  · simp [bitAt, BitVec.of_length_zero]
  · rw [bitAt, bitAt, Nat.mul_add_div hk, Nat.mul_add_mod,
      List.getElem?_append_right (Nat.le_add_right _ _), Nat.add_sub_cancel_left]

theorem eq_of_bitAt {ms ns : List (BitVec k)} (hlen : ms.length = ns.length)
    (h : ∀ i, bitAt ms i = bitAt ns i) : ms = ns := by
  apply List.ext_getElem hlen
  intro j hj hj'
  apply BitVec.eq_of_getLsbD_eq
  intro b hb
  have hdiv : (k * j + b) / k = j := by
    rw [Nat.mul_add_div (by omega), Nat.div_eq_of_lt hb, Nat.add_zero]
  have hmod : (k * j + b) % k = b := by rw [Nat.mul_add_mod, Nat.mod_eq_of_lt hb]
  have hbit := h (k * j + b)
  simpa [bitAt, hdiv, hmod, hj, hj'] using hbit

theorem coeff_message (hk : 0 < k) (ms : List (BitVec k)) (n : ℕ) :
    (message ms).coeff n =
      if n < k * ms.length then bit (bitAt ms (k * ms.length - 1 - n)) else 0 := by
  induction ms using List.reverseRecOn generalizing n with
  | nil => simp
  | append_singleton ms m ih =>
    rw [message_append_singleton, coeff_add, coeff_X_pow_mul', coeff_toPoly, List.length_append,
      List.length_singleton, Nat.mul_add, Nat.mul_one]
    by_cases hn : n < k
    · -- one of the last bits
      have hdiv : (k * ms.length + k - 1 - n) / k = ms.length := by
        rw [show k * ms.length + k - 1 - n = k * ms.length + (k - 1 - n) by omega,
          Nat.mul_add_div hk, Nat.div_eq_of_lt (by omega), Nat.add_zero]
      have hmod : (k * ms.length + k - 1 - n) % k = k - 1 - n := by
        rw [show k * ms.length + k - 1 - n = k * ms.length + (k - 1 - n) by omega,
          Nat.mul_add_mod, Nat.mod_eq_of_lt (by omega)]
      rw [if_neg (by omega), zero_add, if_pos (by omega), bitAt, hdiv, hmod,
        List.getElem?_concat_length, Option.getD_some, BitVec.getMsbD_eq_getLsbD,
        decide_eq_true hn, Bool.true_and]
    · rw [if_pos (by omega), BitVec.getMsbD_of_ge m n (by omega), bit_false, add_zero, ih]
      by_cases hlt : n < k * ms.length + k
      · have hin : k * ms.length - 1 - (n - k) < k * ms.length := by omega
        have hdiv : (k * ms.length - 1 - (n - k)) / k < ms.length :=
          Nat.div_lt_of_lt_mul hin
        rw [if_pos (by omega), if_pos hlt,
          show k * ms.length + k - 1 - n = k * ms.length - 1 - (n - k) by omega, bitAt, bitAt,
          List.getElem?_append_left hdiv]
      · rw [if_neg (by omega), if_neg hlt]

/-- The coefficients of a difference are the bits that differ. -/
theorem coeff_message_add (hk : 0 < k) {ms ns : List (BitVec k)} (hlen : ns.length = ms.length)
    (n : ℕ) : (message ms + message ns).coeff n = if n < k * ms.length then
      bit (bitAt ms (k * ms.length - 1 - n) ^^ bitAt ns (k * ms.length - 1 - n)) else 0 := by
  rw [coeff_add, coeff_message hk, coeff_message hk, hlen, bit_xor]
  split_ifs
  · rfl
  · rw [add_zero]

/-! ## Equal remainders -/

/-- The modulus has the term x^0, so it shares no factor with a power of x. -/
theorem isCoprime_modulus_X_pow {poly : BitVec w} (htop : poly.getMsbD 0 = true) (n : ℕ) :
    IsCoprime (modulus poly) (X ^ n) := by
  have hw : 0 < w := by
    by_contra hw
    rw [BitVec.getMsbD_of_ge poly 0 (by omega)] at htop
    exact Bool.false_ne_true htop
  have hcoeff : (modulus poly).coeff 0 = 1 := by
    rw [modulus, coeff_add, coeff_X_pow, if_neg (by omega), zero_add, coeff_toPoly, htop, bit_true]
  have hX : ¬X ∣ modulus poly := by
    rw [X_dvd_iff, hcoeff]
    exact one_ne_zero
  exact IsCoprime.pow_right (irreducible_X.coprime_iff_not_dvd.mpr hX).symm

/-- Messages of one length leave the same register exactly when the modulus divides their
difference. -/
theorem foldl_feed_eq_iff (hk : k ≤ w) {poly c : BitVec w} (htop : poly.getMsbD 0 = true)
    {ms ns : List (BitVec k)} (hlen : ns.length = ms.length) :
    ms.foldl (feed poly) c = ns.foldl (feed poly) c ↔
      modulus poly ∣ message ms + message ns := by
  have hms := toPoly_foldl_feed hk (toPoly_mod_self poly c) ms
  have hns := toPoly_foldl_feed hk (toPoly_mod_self poly c) ns
  have hdiff : X ^ (k * ms.length) * toPoly c + X ^ w * message ms -
      (X ^ (k * ns.length) * toPoly c + X ^ w * message ns) =
        X ^ w * (message ms + message ns) := by
    rw [hlen, add_sub_add_left_eq_sub, CharTwo.sub_eq_add, mul_add]
  constructor
  · intro h
    rw [h] at hms
    have hdvd := dvd_sub (dvd_sub_toPoly hms) (dvd_sub_toPoly hns)
    rw [sub_sub_sub_cancel_right, hdiff] at hdvd
    exact (isCoprime_modulus_X_pow htop w).dvd_of_dvd_mul_left hdvd
  · intro h
    apply toPoly_injective
    rw [hms, hns]
    refine modByMonic_eq_of_dvd_sub (monic_modulus poly) ?_
    rw [hdiff]
    exact Dvd.dvd.mul_left h _

/-! ## Bursts -/

/-- Messages that differ only inside a window no longer than the register. -/
theorem foldl_feed_ne_of_burst (hk0 : 0 < k) (hk : k ≤ w) {poly c : BitVec w}
    (htop : poly.getMsbD 0 = true) {ms ns : List (BitVec k)} (hlen : ns.length = ms.length)
    (hne : ns ≠ ms) {s : ℕ} (hburst : ∀ i, i < s ∨ s + w ≤ i → bitAt ns i = bitAt ms i) :
    ns.foldl (feed poly) c ≠ ms.foldl (feed poly) c := by
  intro h
  have hdvd := (foldl_feed_eq_iff hk htop hlen).mp h.symm
  have hcoeff := coeff_message_add hk0 hlen
  -- The difference starts at the lowest power of the window.
  have hlow : X ^ (k * ms.length - (s + w)) ∣ message ms + message ns := by
    rw [X_pow_dvd_iff]
    intro d hd
    rw [hcoeff, if_pos (by omega), hburst _ (Or.inr (by omega)), Bool.xor_self, bit_false]
  obtain ⟨q, hq⟩ := hlow
  rw [hq] at hdvd
  have hq_dvd : modulus poly ∣ q := (isCoprime_modulus_X_pow htop _).dvd_of_dvd_mul_left hdvd
  have hdegree : q.degree < (modulus poly).degree := by
    rw [degree_modulus, degree_lt_iff_coeff_zero]
    intro n hn
    have hn' := congrArg (coeff · (n + (k * ms.length - (s + w)))) hq
    simp only [coeff_X_pow_mul] at hn'
    rw [← hn', hcoeff]
    split_ifs with hlt
    · rw [hburst _ (Or.inl (by omega)), Bool.xor_self, bit_false]
    · rfl
  have hzero : q = 0 := by
    by_contra hq0
    exact not_lt_of_ge (degree_le_of_dvd hq_dvd hq0) hdegree
  rw [hzero, mul_zero] at hq
  refine hne (eq_of_bitAt hlen fun i => ?_)
  by_cases hi : i < k * ms.length
  · have hbit := hcoeff (k * ms.length - 1 - i)
    rw [hq, coeff_zero, if_pos (by omega),
      show k * ms.length - 1 - (k * ms.length - 1 - i) = i by omega, ← bit_false] at hbit
    have hxor := bit_injective hbit
    revert hxor
    cases bitAt ms i <;> cases bitAt ns i <;> simp
  · rw [bitAt_of_ge hk0 (by rw [hlen]; omega), bitAt_of_ge hk0 (by omega)]

/-! ## Two bits -/

def one (w : ℕ) : BitVec w := BitVec.twoPow w (w - 1)

theorem toPoly_one (hw : 0 < w) : toPoly (one w) = 1 := by
  ext n
  rw [coeff_toPoly, one, BitVec.getMsbD_eq_getLsbD, BitVec.getLsbD_twoPow, coeff_one]
  by_cases hn : n = 0
  · simp [hn, hw]
  · rw [if_neg hn]
    by_cases hlt : n < w
    · rw [decide_eq_false (show w - 1 ≠ w - 1 - n by omega), Bool.and_false, Bool.and_false,
        bit_false]
    · rw [decide_eq_false hlt, Bool.false_and, bit_false]

/-- The distance of two bits that the modulus divides. -/
theorem dvd_X_pow_add_one_iff (hw : 0 < w) (poly : BitVec w) (n : ℕ) :
    modulus poly ∣ X ^ n + 1 ↔ Function.minimalPeriod (shift poly) (one w) ∣ n := by
  have hone : toPoly (one w) = 1 %ₘ modulus poly := by
    have h := toPoly_mod_self poly (one w)
    rwa [toPoly_one hw] at h ⊢
  have hpow := toPoly_iterate_shift hone n
  rw [mul_one] at hpow
  rw [← Function.isPeriodicPt_iff_minimalPeriod_dvd, Function.IsPeriodicPt, Function.IsFixedPt,
    ← toPoly_injective.eq_iff, hpow, hone, ← CharTwo.sub_eq_add]
  constructor
  · exact modByMonic_eq_of_dvd_sub (monic_modulus poly)
  · intro h
    have hdvd := dvd_sub (dvd_sub_toPoly hpow) (dvd_sub_toPoly hone)
    have heq : toPoly ((shift poly)^[n] (one w)) = toPoly (one w) := by rw [hpow, hone, h]
    rwa [heq, sub_sub_sub_cancel_right] at hdvd

/-- Messages that differ in exactly two bits leave the same register exactly when the distance of
the bits is a multiple of the period. -/
theorem foldl_feed_eq_iff_of_two (hk0 : 0 < k) (hk : k ≤ w) {poly c : BitVec w}
    (htop : poly.getMsbD 0 = true) {ms ns : List (BitVec k)} (hlen : ns.length = ms.length)
    {i j : ℕ} (hij : i < j) (hj : j < k * ms.length)
    (htwo : ∀ b, bitAt ns b ≠ bitAt ms b ↔ b = i ∨ b = j) :
    ns.foldl (feed poly) c = ms.foldl (feed poly) c ↔
      Function.minimalPeriod (shift poly) (one w) ∣ j - i := by
  have hdiff : message ms + message ns = X ^ (k * ms.length - 1 - j) * (X ^ (j - i) + 1) := by
    ext n
    rw [coeff_message_add hk0 hlen, mul_add, mul_one, ← pow_add, coeff_add, coeff_X_pow,
      coeff_X_pow]
    have hbit : bit (bitAt ms (k * ms.length - 1 - n) ^^ bitAt ns (k * ms.length - 1 - n)) =
        if k * ms.length - 1 - n = i ∨ k * ms.length - 1 - n = j then 1 else 0 := by
      simp only [← htwo]
      cases bitAt ms (k * ms.length - 1 - n) <;> cases bitAt ns (k * ms.length - 1 - n) <;> rfl
    rw [hbit]
    split_ifs <;> first | rfl | omega
  rw [eq_comm, foldl_feed_eq_iff hk htop hlen, hdiff,
    ← dvd_X_pow_add_one_iff (hk0.trans_le hk) poly]
  exact ⟨(isCoprime_modulus_X_pow htop _).dvd_of_dvd_mul_left, fun h => Dvd.dvd.mul_left h _⟩

end Sysbench.ShiftRegister
