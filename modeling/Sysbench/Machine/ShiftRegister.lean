import Mathlib

/-! # Division by a shift register

A register of `w` bits stands for a polynomial over GF(2), with the lowest powers in the most
significant bits. Moving it to the right by one place multiplies by x, and the exclusive or with
the pattern `poly` when a bit falls out is the reduction modulo x^w + `poly`.
-/
namespace Sysbench.ShiftRegister

open Polynomial

variable {w k : ℕ}

/-! ## Registers as polynomials -/

/-- One bit as a coefficient. -/
def bit (b : Bool) : ZMod 2 := if b then 1 else 0

@[simp] theorem bit_false : bit false = 0 := rfl

@[simp] theorem bit_true : bit true = 1 := rfl

theorem bit_xor (a b : Bool) : bit (a ^^ b) = bit a + bit b := by
  cases a <;> cases b <;> decide

theorem bit_injective : Function.Injective bit := by
  intro a b h
  cases a <;> cases b <;> first | rfl | exact absurd h (by decide)

noncomputable def toPoly (c : BitVec w) : (ZMod 2)[X] :=
  ∑ n ∈ Finset.range w, monomial n (bit (c.getMsbD n))

theorem coeff_toPoly (c : BitVec w) (n : ℕ) : (toPoly c).coeff n = bit (c.getMsbD n) := by
  simp only [toPoly, finsetSum_coeff, coeff_monomial]
  rw [Finset.sum_ite_eq' (Finset.range w) n fun j => bit (c.getMsbD j)]
  split_ifs with hn
  · rfl
  · rw [BitVec.getMsbD_of_ge c n (by simpa using hn), bit_false]

theorem toPoly_injective : Function.Injective (toPoly (w := w)) := by
  intro c d h
  apply BitVec.eq_of_getMsbD_eq
  intro i _
  apply bit_injective
  rw [← coeff_toPoly, ← coeff_toPoly, h]

theorem toPoly_xor (c d : BitVec w) : toPoly (c ^^^ d) = toPoly c + toPoly d := by
  ext n
  rw [coeff_add, coeff_toPoly, coeff_toPoly, coeff_toPoly, BitVec.getMsbD_xor, bit_xor]

@[simp] theorem toPoly_zero : toPoly (0#w) = 0 := by
  ext n
  rw [coeff_toPoly, BitVec.getMsbD_zero, bit_false, coeff_zero]

theorem degree_toPoly_lt (c : BitVec w) : (toPoly c).degree < w := by
  rw [degree_lt_iff_coeff_zero]
  intro n hn
  rw [coeff_toPoly, BitVec.getMsbD_of_ge c n hn, bit_false]

/-- Widening puts the bits in the highest powers. -/
theorem toPoly_setWidth (hk : k ≤ w) (m : BitVec k) :
    toPoly (m.setWidth w) = X ^ (w - k) * toPoly m := by
  ext n
  rw [coeff_toPoly, BitVec.getMsbD_setWidth, coeff_X_pow_mul', coeff_toPoly]
  by_cases hn : w - k ≤ n
  · rw [if_pos hn, decide_eq_true hn, Bool.true_and, show n + k - w = n - (w - k) by omega]
  · rw [if_neg hn, decide_eq_false hn, Bool.false_and, bit_false]

/-! ## One place -/

/-- One place to the right, and the pattern if a bit falls out. -/
def shift (poly c : BitVec w) : BitVec w :=
  if c.getLsbD 0 then poly ^^^ c >>> 1 else c >>> 1

/-- The polynomial that the register divides by. -/
noncomputable def modulus (poly : BitVec w) : (ZMod 2)[X] := X ^ w + toPoly poly

theorem monic_modulus (poly : BitVec w) : (modulus poly).Monic :=
  monic_X_pow_add (degree_toPoly_lt poly)

theorem degree_modulus (poly : BitVec w) : (modulus poly).degree = w := by
  unfold modulus
  rw [degree_add_eq_left_of_degree_lt] <;> rw [degree_X_pow]
  exact degree_toPoly_lt poly

/-- The bit that falls out is the coefficient of x^w. -/
theorem toPoly_ushiftRight_one (c : BitVec w) :
    toPoly (c >>> 1) + C (bit (c.getLsbD 0)) * X ^ w = X * toPoly c := by
  ext n
  rw [coeff_add, coeff_toPoly, BitVec.getMsbD_ushiftRight, coeff_C_mul, coeff_X_pow]
  cases n with
  | zero =>
    rw [coeff_X_mul_zero]
    cases w with
    | zero => simp [BitVec.of_length_zero]
    | succ w => simp
  | succ n =>
    rw [coeff_X_mul, coeff_toPoly]
    by_cases hn : n + 1 < w
    · simp [hn, show n + 1 ≠ w by omega]
    · by_cases hw : n + 1 = w
      · subst hw
        simp [BitVec.getMsbD_eq_getLsbD]
      · rw [if_neg hw, BitVec.getMsbD_of_ge c n (by omega)]
        simp [hn]

theorem toPoly_shift (poly c : BitVec w) :
    toPoly (shift poly c) = X * toPoly c + C (bit (c.getLsbD 0)) * modulus poly := by
  rw [← toPoly_ushiftRight_one, modulus, mul_add, add_assoc, ← add_assoc (C _ * X ^ w),
    CharTwo.add_self_eq_zero, zero_add]
  unfold shift
  split_ifs with hlow
  · rw [hlow, toPoly_xor, bit_true, C_1, one_mul, add_comm]
  · rw [Bool.not_eq_true] at hlow
    rw [hlow, bit_false, C_0, zero_mul, add_zero]

/-- A register holds the remainder of every polynomial that it differs from by a multiple. -/
theorem toPoly_eq_mod {poly c : BitVec w} {q : (ZMod 2)[X]} (h : modulus poly ∣ q - toPoly c) :
    toPoly c = q %ₘ modulus poly := by
  rw [modByMonic_eq_of_dvd_sub (monic_modulus poly) h]
  refine ((modByMonic_eq_self_iff (monic_modulus poly)).mpr ?_).symm
  rw [degree_modulus]
  exact degree_toPoly_lt c

theorem dvd_sub_toPoly {poly c : BitVec w} {q : (ZMod 2)[X]} (h : toPoly c = q %ₘ modulus poly) :
    modulus poly ∣ q - toPoly c := by
  have hdvd := dvd_modByMonic_sub q (modulus poly)
  rw [← h] at hdvd
  exact (dvd_sub_comm).mp hdvd

theorem toPoly_shift_mod {poly c : BitVec w} {q : (ZMod 2)[X]}
    (h : toPoly c = q %ₘ modulus poly) : toPoly (shift poly c) = (X * q) %ₘ modulus poly := by
  apply toPoly_eq_mod
  obtain ⟨r, hr⟩ := dvd_sub_toPoly h
  refine ⟨X * r - C (bit (c.getLsbD 0)), ?_⟩
  rw [toPoly_shift, mul_sub, mul_left_comm, ← hr]
  ring

theorem toPoly_iterate_shift {poly c : BitVec w} {q : (ZMod 2)[X]}
    (h : toPoly c = q %ₘ modulus poly) (n : ℕ) :
    toPoly ((shift poly)^[n] c) = (X ^ n * q) %ₘ modulus poly := by
  induction n with
  | zero => rwa [pow_zero, one_mul]
  | succ n ih =>
    rw [Function.iterate_succ_apply', toPoly_shift_mod ih, pow_succ', mul_assoc]

/-- A register is its own remainder. -/
theorem toPoly_mod_self (poly c : BitVec w) : toPoly c = toPoly c %ₘ modulus poly :=
  toPoly_eq_mod (by rw [sub_self]; exact dvd_zero _)

/-! ## Messages -/

def feed (poly c : BitVec w) (m : BitVec k) : BitVec w := (shift poly)^[k] (c ^^^ m.setWidth w)

/-- The message as a polynomial: the first bits have the highest powers. -/
noncomputable def message (ms : List (BitVec k)) : (ZMod 2)[X] :=
  ms.foldl (fun q m => X ^ k * q + toPoly m) 0

@[simp] theorem message_nil : message ([] : List (BitVec k)) = 0 := rfl

theorem message_append_singleton (ms : List (BitVec k)) (m : BitVec k) :
    message (ms ++ [m]) = X ^ k * message ms + toPoly m := by
  simp [message]

theorem toPoly_feed (hk : k ≤ w) {poly c : BitVec w} {q : (ZMod 2)[X]}
    (h : toPoly c = q %ₘ modulus poly) (m : BitVec k) :
    toPoly (feed poly c m) = (X ^ k * q + X ^ w * toPoly m) %ₘ modulus poly := by
  have hsum : toPoly (c ^^^ m.setWidth w) = (q + X ^ (w - k) * toPoly m) %ₘ modulus poly := by
    apply toPoly_eq_mod
    rw [toPoly_xor, toPoly_setWidth hk, add_sub_add_right_eq_sub]
    exact dvd_sub_toPoly h
  rw [feed, toPoly_iterate_shift hsum, mul_add, ← mul_assoc (X ^ k), ← pow_add,
    show k + (w - k) = w by omega]

/-- A whole register fed into another one. -/
theorem feed_eq_feed_iff {poly : BitVec w} (h : Function.Injective (shift poly))
    {c d m n : BitVec w} : feed poly c m = feed poly d n ↔ c ^^^ m = d ^^^ n := by
  unfold feed
  rw [BitVec.setWidth_eq, BitVec.setWidth_eq]
  exact (h.iterate w).eq_iff

/-- The first bits of a chunk are its low bits. -/
theorem toPoly_append {j : ℕ} (n : BitVec j) (m : BitVec k) :
    toPoly (n ++ m) = X ^ j * toPoly m + toPoly n := by
  ext i
  rw [coeff_add, coeff_X_pow_mul', coeff_toPoly, coeff_toPoly, coeff_toPoly, BitVec.getMsbD_append]
  by_cases hi : j ≤ i
  · rw [if_pos hi, BitVec.getMsbD_of_ge n i hi]
    simp [hi]
  · rw [if_neg hi]
    simp [hi]

theorem feed_append {j : ℕ} (hjk : j + k ≤ w) (poly c : BitVec w) (n : BitVec j) (m : BitVec k) :
    feed poly c (n ++ m) = feed poly (feed poly c m) n := by
  have hm := toPoly_feed (show k ≤ w by omega) (toPoly_mod_self poly c) m
  apply toPoly_injective
  rw [toPoly_feed hjk (toPoly_mod_self poly c), toPoly_feed (by omega) hm, toPoly_append]
  congr 1
  ring

/-- The register after a message is the remainder of the message, moved up by `w` places, and of
what the register held before it. -/
theorem toPoly_foldl_feed (hk : k ≤ w) {poly c : BitVec w} {q : (ZMod 2)[X]}
    (h : toPoly c = q %ₘ modulus poly) (ms : List (BitVec k)) :
    toPoly (ms.foldl (feed poly) c) =
      (X ^ (k * ms.length) * q + X ^ w * message ms) %ₘ modulus poly := by
  induction ms using List.reverseRecOn with
  | nil => simpa using h
  | append_singleton ms m ih =>
    rw [List.foldl_append, List.foldl_cons, List.foldl_nil, toPoly_feed hk ih,
      message_append_singleton, List.length_append, List.length_singleton, mul_add k, mul_one,
      pow_add]
    congr 1
    ring

end Sysbench.ShiftRegister
