import Sysbench.Machine.Words

/-! # The CPU test

A request counts primes by trial division. The loops run on 64-bit integers and compare them with a
square root, whose type is a parameter here.
-/
namespace Sysbench.Cpu

open Words

def cpuInit (primeOption : ℤ) : Except String ℕ :=
  if primeOption ≤ 0 then .error s!"Invalid value of cpu-max-prime: {primeOption}."
  else .ok (toUInt 32 primeOption)

section Loops

variable {K : Type*} [NatCast K] [LE K] [DecidableLE K]

/-- `for (l = 2; l <= t; l++) if (c % l == 0) break;` from some `l` on: what is left in `l`, and the
number of divisions. The result is missing if the loop needs more rounds. -/
def trialLoop (c : ℕ) (t : K) : ℕ → ℕ → Option (ℕ × ℕ)
  | 0, _ => none
  | rounds + 1, l =>
    if (l : K) ≤ t then
      if c % l = 0 then some (l, 1)
      else (trialLoop c t rounds (toUInt 64 (l + 1 : ℕ))).map fun (l, divisions) => (l, divisions + 1)
    else some (l, 0)

/-- The loop over `c`, and what is left in `n`. -/
def primeLoop (sqrt : ℕ → K) (maxPrime rounds : ℕ) : ℕ → ℕ → ℕ → Option ℕ
  | 0, _, _ => none
  | turns + 1, c, n =>
    if c < maxPrime then do
      let t := sqrt c
      let (l, _) ← trialLoop c t rounds 2
      -- `if (l > t) n++;`
      let n := if (l : K) ≤ t then n else toUInt 64 (n + 1 : ℕ)
      primeLoop sqrt maxPrime rounds turns (toUInt 64 (c + 1 : ℕ)) n
    else some n

def cpuExecuteRequest (sqrt : ℕ → K) (maxPrime rounds : ℕ) : Option ℕ :=
  primeLoop sqrt maxPrime rounds rounds 3 0

end Loops

/-- The primes that a request counts. -/
def primesBelow (maxPrime : ℕ) : Finset ℕ := {p ∈ Finset.Ico 3 maxPrime | p.Prime}

/-! ## The inner loop -/

section Inner

variable {K : Type*} [NatCast K] [LE K] [DecidableLE K] {c l rounds : ℕ} {t : K}

/-- The comparison of an integer with the root is exact. -/
def ExactRoot (c : ℕ) (t : K) : Prop := ∀ l : ℕ, (l : K) ≤ t ↔ l ≤ Nat.sqrt c

/-- The loop ends with a divisor up to the root, or behind the root if `c` is prime. -/
theorem trialLoop_spec (ht : ExactRoot c t) (hc : 2 ≤ c) (hword : Nat.sqrt c + 1 < 2 ^ 64)
    (hl : 2 ≤ l) (hle : l ≤ Nat.sqrt c + 1) (hsmaller : ∀ m, 2 ≤ m → m < l → ¬ m ∣ c)
    (hrounds : Nat.sqrt c + 1 - l < rounds) :
    ∃ l' divisions, trialLoop c t rounds l = some (l', divisions) ∧
      divisions ≤ Nat.sqrt c + 1 - l ∧ (¬ (l' : K) ≤ t ↔ c.Prime) := by
  induction rounds generalizing l with
  | zero => exact absurd hrounds (Nat.not_lt_zero _)
  | succ rounds ih =>
    rw [trialLoop]
    by_cases hroot : l ≤ Nat.sqrt c
    · rw [if_pos ((ht l).mpr hroot)]
      by_cases hdvd : c % l = 0
      · rw [if_pos hdvd]
        refine ⟨l, 1, rfl, by omega, iff_of_false (not_not.mpr ((ht l).mpr hroot)) fun hprime => ?_⟩
        exact (Nat.prime_def_le_sqrt.mp hprime).2 l hl hroot (Nat.dvd_of_mod_eq_zero hdvd)
      · have hnext : ∀ m, 2 ≤ m → m < l + 1 → ¬ m ∣ c := by
          intro m hm hlt hmc
          rcases Nat.lt_succ_iff_lt_or_eq.mp hlt with hlt | rfl
          · exact hsmaller m hm hlt hmc
          · exact hdvd (Nat.mod_eq_zero_of_dvd hmc)
        obtain ⟨l', divisions, hloop, hbound, hprime⟩ :=
          ih (l := l + 1) (by omega) (by omega) hnext (by omega)
        rw [if_neg hdvd, toUInt_natCast (by omega), hloop]
        exact ⟨l', divisions + 1, rfl, by omega, hprime⟩
    · have hbehind : ¬ (l : K) ≤ t := fun h => hroot ((ht l).mp h)
      rw [if_neg hbehind]
      refine ⟨l, 0, rfl, Nat.zero_le _, iff_of_true hbehind ?_⟩
      exact Nat.prime_def_le_sqrt.mpr ⟨hc, fun m hm hmc => hsmaller m hm (by omega)⟩

theorem trialLoop_two (ht : ExactRoot c t) (hc : 3 ≤ c) (hword : c < 2 ^ 32) (hrounds : c ≤ rounds) :
    ∃ l divisions, trialLoop c t rounds 2 = some (l, divisions) ∧ divisions ≤ Nat.sqrt c ∧
      (¬ (l : K) ≤ t ↔ c.Prime) := by
  have hroot : Nat.sqrt c < c := Nat.sqrt_lt_self (by omega)
  have hone : 1 ≤ Nat.sqrt c := Nat.sqrt_pos.mpr (by omega)
  obtain ⟨l, divisions, hloop, hbound, hprime⟩ := trialLoop_spec ht (by omega) (by omega) le_rfl
    (by omega) (fun m hm hlt => absurd hm (by omega)) (show _ < rounds by omega)
  exact ⟨l, divisions, hloop, by omega, hprime⟩

end Inner

/-- The square root of the reals. -/
theorem exactRoot_sqrt (c : ℕ) : ExactRoot c (√(c : ℝ)) := by
  intro l
  rw [Real.le_sqrt (Nat.cast_nonneg l) (Nat.cast_nonneg c), Nat.le_sqrt']
  exact_mod_cast Iff.rfl

/-! ## The outer loop -/

section Outer

variable {K : Type*} [NatCast K] [LE K] [DecidableLE K] {sqrt : ℕ → K}
  {maxPrime rounds turns c n : ℕ}

theorem card_primes_succ (h : c < maxPrime) :
    ({p ∈ Finset.Ico c maxPrime | p.Prime} : Finset ℕ).card =
      (if c.Prime then 1 else 0) + ({p ∈ Finset.Ico (c + 1) maxPrime | p.Prime} : Finset ℕ).card := by
  rw [← Finset.insert_Ico_add_one_left_eq_Ico h, Finset.filter_insert]
  split_ifs
  · rw [Finset.card_insert_of_notMem (by simp), Nat.add_comm]
  · rw [Nat.zero_add]

theorem primeLoop_spec (hsqrt : ∀ c, ExactRoot c (sqrt c)) (hmax : maxPrime < 2 ^ 32) (hc : 3 ≤ c)
    (hn : n ≤ c) (hrounds : maxPrime ≤ rounds) (hturns : maxPrime - c < turns) :
    primeLoop sqrt maxPrime rounds turns c n =
      some (n + ({p ∈ Finset.Ico c maxPrime | p.Prime} : Finset ℕ).card) := by
  induction turns generalizing c n with
  | zero => exact absurd hturns (Nat.not_lt_zero _)
  | succ turns ih =>
    rw [primeLoop]
    by_cases hlt : c < maxPrime
    · have henough : c ≤ rounds := by omega
      obtain ⟨l, divisions, hloop, -, hprime⟩ := trialLoop_two (hsqrt c) hc (by omega) henough
      rw [if_pos hlt, card_primes_succ hlt]
      simp only [hloop, Option.bind_eq_bind, Option.bind_some]
      rw [toUInt_natCast (by omega), toUInt_natCast (by omega)]
      by_cases hp : c.Prime
      · rw [if_neg (hprime.mpr hp), if_pos hp, ih (by omega) (by omega) (by omega), Nat.add_assoc]
      · rw [if_pos (not_not.mp fun h => hp (hprime.mp h)), if_neg hp,
          ih (by omega) (by omega) (by omega), Nat.zero_add]
    · rw [if_neg hlt, Finset.Ico_eq_empty hlt, Finset.filter_empty, Finset.card_empty, Nat.add_zero]

end Outer

/-- With exact square roots a request ends and counts the primes from 3 to below the limit, and no
number takes more divisions than its root. -/
theorem request_counts_primes {primeOption : ℤ} {maxPrime : ℕ}
    (hinit : cpuInit primeOption = .ok maxPrime) (hint : primeOption < 2 ^ 31) :
    (maxPrime : ℤ) = primeOption ∧
    ∀ rounds, maxPrime + 1 ≤ rounds →
      cpuExecuteRequest (fun c => √(c : ℝ)) maxPrime rounds = some (primesBelow maxPrime).card ∧
      ∀ c, 3 ≤ c → c < maxPrime →
        ∃ l divisions, trialLoop c (√(c : ℝ)) rounds 2 = some (l, divisions) ∧
          divisions ≤ ⌊√(c : ℝ)⌋₊ := by
  unfold cpuInit at hinit
  split_ifs at hinit with hneg
  have hmax : toUInt 32 primeOption = primeOption.toNat := toUInt_of_range (by omega) (by omega)
  rw [hmax] at hinit
  obtain rfl := Except.ok.inj hinit
  refine ⟨Int.toNat_of_nonneg (by omega), fun rounds hrounds => ⟨?_, fun c hc hlt => ?_⟩⟩
  · rw [cpuExecuteRequest, primeLoop_spec exactRoot_sqrt (by omega) le_rfl (Nat.zero_le _)
      (by omega) (by omega), Nat.zero_add, primesBelow]
  · have henough : c ≤ rounds := by omega
    obtain ⟨l, divisions, hloop, hbound, -⟩ :=
      trialLoop_two (exactRoot_sqrt c) hc (by omega) henough
    exact ⟨l, divisions, hloop, by rwa [Real.nat_floor_real_sqrt_eq_nat_sqrt]⟩

theorem request_counts_primes_ten :
    ((10 : ℕ) : ℤ) = 10 ∧
    ∀ rounds, 10 + 1 ≤ rounds →
      cpuExecuteRequest (fun c => √(c : ℝ)) 10 rounds = some (primesBelow 10).card ∧
      ∀ c, 3 ≤ c → c < 10 →
        ∃ l divisions, trialLoop c (√(c : ℝ)) rounds 2 = some (l, divisions) ∧
          divisions ≤ ⌊√(c : ℝ)⌋₊ :=
  @request_counts_primes 10 10 rfl (by decide)

/-- 3, 5 and 7, with the roots rounded down. -/
example : cpuExecuteRequest (fun c => if c < 4 then 1 else if c < 9 then 2 else 3) 10 11 =
    some 3 := by decide

end Sysbench.Cpu
