import Sysbench.Machine.ErrorPatterns

/-! # Powers of x in a register

Squaring and one place more for each bit of the exponent compute a power of x modulo the modulus,
which decides whether a given number is the period of x.
-/
namespace Sysbench.ShiftRegister

open Polynomial

variable {w : ℕ}

/-! ## Products -/

/-- `f c`, with the value of `c` computed first, so that a register which `f` reads at several
places is evaluated once. -/
def withValue {α : Type*} (c : BitVec w) (f : BitVec w → α) : α :=
  @Nat.rec (fun _ => α) (f 0#w) (fun n _ => f (BitVec.ofNat w (n + 1))) c.toNat

@[simp] theorem withValue_eq {α : Type*} (c : BitVec w) (f : BitVec w → α) :
    withValue c f = f c := by
  have hback : BitVec.ofNat w c.toNat = c := by simp
  unfold withValue
  cases hc : c.toNat with
  | zero =>
    rw [← hback, hc]
    rfl
  | succ n => rw [← hback, hc]

/-- The product by the first `n` coefficients of `a`, from the highest power. -/
def mulUpTo (poly a b : BitVec w) : ℕ → BitVec w
  | 0 => 0#w
  | n + 1 => withValue (mulUpTo poly a b n) fun r =>
      shift poly r ^^^ if a.getLsbD n then b else 0#w

def mul (poly a b : BitVec w) : BitVec w := mulUpTo poly a b w

theorem toPoly_setWidth_succ (a : BitVec w) (n : ℕ) :
    toPoly (a.setWidth (n + 1)) = X * toPoly (a.setWidth n) + C (bit (a.getLsbD n)) := by
  ext j
  cases j with
  | zero => simp [coeff_toPoly, BitVec.getMsbD_eq_getLsbD]
  | succ j =>
    rw [coeff_add, coeff_X_mul, coeff_C_succ, add_zero, coeff_toPoly, coeff_toPoly,
      BitVec.getMsbD_eq_getLsbD, BitVec.getMsbD_eq_getLsbD, BitVec.getLsbD_setWidth,
      BitVec.getLsbD_setWidth]
    by_cases hj : j < n
    · simp [hj, show n ≤ n + j + 1 by omega, show n - (j + 1) = n - 1 - j by omega,
        show n - 1 - j < n by omega]
    · simp [hj]

theorem toPoly_mulUpTo (poly a b : BitVec w) (n : ℕ) :
    toPoly (mulUpTo poly a b n) = (toPoly (a.setWidth n) * toPoly b) %ₘ modulus poly := by
  induction n with
  | zero => simp [mulUpTo, BitVec.of_length_zero]
  | succ n ih =>
    have hshift := dvd_sub_toPoly (toPoly_shift_mod ih)
    apply toPoly_eq_mod
    have hterm : toPoly (if a.getLsbD n then b else 0#w) = C (bit (a.getLsbD n)) * toPoly b := by
      split_ifs with hbit
      · rw [hbit, bit_true, C_1, one_mul]
      · rw [Bool.not_eq_true] at hbit
        rw [hbit, toPoly_zero, bit_false, C_0, zero_mul]
    rw [mulUpTo, withValue_eq, toPoly_xor, hterm, toPoly_setWidth_succ, add_mul, add_sub_add_right_eq_sub,
      mul_assoc]
    exact hshift

theorem toPoly_mul (poly a b : BitVec w) :
    toPoly (mul poly a b) = (toPoly a * toPoly b) %ₘ modulus poly := by
  have h := toPoly_mulUpTo poly a b w
  rwa [BitVec.setWidth_eq] at h

/-! ## Powers -/

/-- The number that the bits store, the highest first. -/
def exponent (bits : List Bool) : ℕ := bits.foldl (fun n b => 2 * n + b.toNat) 0

def binary : ℕ → ℕ → List Bool
  | 0, _ => []
  | len + 1, n => binary len (n / 2) ++ [n.testBit 0]

theorem exponent_append_singleton (bits : List Bool) (b : Bool) :
    exponent (bits ++ [b]) = 2 * exponent bits + b.toNat := by
  simp [exponent]

theorem exponent_binary {len n : ℕ} (hn : n < 2 ^ len) : exponent (binary len n) = n := by
  induction len generalizing n with
  | zero =>
    rw [pow_zero, Nat.lt_one_iff] at hn
    rw [hn]
    rfl
  | succ len ih =>
    rw [pow_succ] at hn
    rw [binary, exponent_append_singleton, ih (by omega), Nat.testBit_zero]
    obtain h | h := Nat.mod_two_eq_zero_or_one n
    · rw [h, decide_eq_false (by omega), Bool.toNat_false]
      omega
    · rw [h, decide_eq_true rfl, Bool.toNat_true]
      omega

/-- x to the power that the bits store. -/
def power (poly : BitVec w) (bits : List Bool) : BitVec w :=
  bits.foldl (fun r b => withValue r fun r =>
    if b then withValue (mul poly r r) (shift poly) else mul poly r r) (one w)

theorem mul_iterate_self (hw : 0 < w) (poly : BitVec w) (n : ℕ) :
    mul poly ((shift poly)^[n] (one w)) ((shift poly)^[n] (one w)) =
      (shift poly)^[2 * n] (one w) := by
  have hone : toPoly (one w) = 1 %ₘ modulus poly := by
    have h := toPoly_mod_self poly (one w)
    rwa [toPoly_one hw] at h ⊢
  have hpow : ∀ m, toPoly ((shift poly)^[m] (one w)) = X ^ m %ₘ modulus poly := by
    intro m
    have h := toPoly_iterate_shift hone m
    rwa [mul_one] at h
  apply toPoly_injective
  rw [toPoly_mul, hpow (2 * n)]
  apply modByMonic_eq_of_dvd_sub (monic_modulus poly)
  obtain ⟨q, hq⟩ := dvd_sub_toPoly (hpow n)
  refine ⟨-(q * (toPoly ((shift poly)^[n] (one w)) + X ^ n)), ?_⟩
  calc _ = -((X ^ n - toPoly ((shift poly)^[n] (one w))) *
        (toPoly ((shift poly)^[n] (one w)) + X ^ n)) := by ring
    _ = _ := by rw [hq]; ring

theorem power_eq (hw : 0 < w) (poly : BitVec w) (bits : List Bool) :
    power poly bits = (shift poly)^[exponent bits] (one w) := by
  induction bits using List.reverseRecOn with
  | nil => rfl
  | append_singleton bits b ih =>
    have hpower : power poly (bits ++ [b]) = if b then
        shift poly (mul poly (power poly bits) (power poly bits)) else
        mul poly (power poly bits) (power poly bits) := by simp [power]
    rw [hpower, exponent_append_singleton, ih, mul_iterate_self hw]
    cases b with
    | false => rfl
    | true =>
      rw [if_pos rfl, Bool.toNat_true]
      exact (Function.iterate_succ_apply' _ _ _).symm

theorem isPeriodicPt_iff_power {len n : ℕ} (hw : 0 < w) (hn : n < 2 ^ len) (poly : BitVec w) :
    Function.IsPeriodicPt (shift poly) n (one w) ↔ power poly (binary len n) = one w := by
  rw [power_eq hw, exponent_binary hn]
  exact Iff.rfl

/-- A number with the period among its divisors is the period when no quotient of it by a prime
is. -/
theorem minimalPeriod_eq_of_prime {α : Type*} {f : α → α} {x : α} {N : ℕ}
    (h : Function.IsPeriodicPt f N x)
    (hprime : ∀ p, p.Prime → p ∣ N → ¬Function.IsPeriodicPt f (N / p) x) :
    Function.minimalPeriod f x = N := by
  obtain ⟨q, hq⟩ := h.minimalPeriod_dvd
  by_cases hq1 : q = 1
  · rw [hq, hq1, mul_one]
  obtain ⟨p, hp, r, rfl⟩ := Nat.exists_prime_and_dvd hq1
  refine absurd ?_ (hprime p hp ⟨Function.minimalPeriod f x * r, by rw [hq]; ring⟩)
  rw [Function.isPeriodicPt_iff_minimalPeriod_dvd]
  refine ⟨r, ?_⟩
  rw [Nat.div_eq_of_eq_mul_right hp.pos]
  rw [← mul_assoc, mul_comm p, mul_assoc]
  exact hq

end Sysbench.ShiftRegister
