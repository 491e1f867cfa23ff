import Sysbench.Core.Distributions
import Sysbench.Machine.Runs
import Sysbench.Machine.Strides

/-! # Unique random numbers

`sb_rand_uniq` walks round its range in strides of a prime. The mutex makes the section that
reads and advances the seed one step, whichever threads call.
-/
namespace Sysbench.Core

open Words Runs Strides

def largePrime : ℕ := 2147483647

/-- `sb_rand_uniq`: the value and the seed it leaves. -/
def sbRandUniq (a b : ℤ) (rndSeed : ℕ) : Option (ℤ × ℕ) := do
  let size ← intSize a b
  let r ← modulo rndSeed (toUInt 64 size)
  let value ← signed (toInt 32 (toUInt 32 r) + a)
  some (value, toUInt 64 (rndSeed + largePrime : ℕ))

/-- A call `sb_rand_uniq(a, b)` of a thread. -/
structure UniqCall where
  thread : ℕ
  a : ℤ
  b : ℤ
  deriving DecidableEq, Repr

/-- The seed, and the values handed out so far. -/
structure UniqState where
  rndSeed : ℕ
  returned : List ℤ
  deriving DecidableEq, Repr

def uniqStart : UniqState := ⟨largePrime, []⟩

def uniqStep (s : UniqState) (call : UniqCall) : Option UniqState :=
  (sbRandUniq call.a call.b s.rndSeed).map fun (value, rndSeed) => ⟨rndSeed, s.returned ++ [value]⟩

theorem largePrime_prime : largePrime.Prime :=
  lucas_lehmer_sufficiency 31 (by norm_num) (by norm_num)

/-! ## One call -/

variable {a b : ℤ} {s t : UniqState} {es fs : List UniqCall} {call : UniqCall}

/-- A range of `int`s that is smaller than the prime. -/
structure UniqRange (a b : ℤ) : Prop where
  lower : -2 ^ 31 ≤ a
  upper : b < 2 ^ 31
  nonempty : a ≤ b
  small : rangeCard a b < largePrime

theorem sbRandUniq_eq (h : UniqRange a b) (rndSeed : ℕ) :
    sbRandUniq a b rndSeed =
      some (a + (rndSeed % rangeCard a b : ℕ), toUInt 64 (rndSeed + largePrime : ℕ)) := by
  obtain ⟨hlo, hhi, hab, hsmall⟩ := h
  have hcard := rangeCard_cast hab
  have hpos := rangeCard_pos hab
  unfold largePrime at hsmall
  have hdiff : signed (b - a) = some (b - a) := if_pos (by omega)
  have hsize : intSize a b = some (b - a + 1) := by
    rw [intSize, hdiff, Option.bind_some]
    exact if_pos (by omega)
  have hmod : modulo rndSeed (rangeCard a b) = some (rndSeed % rangeCard a b) := if_neg hpos.ne'
  have hlt := Nat.mod_lt rndSeed hpos
  have hvalue : signed ((rndSeed % rangeCard a b : ℕ) + a) =
      some ((rndSeed % rangeCard a b : ℕ) + a) := if_pos (by omega)
  rw [sbRandUniq, hsize, Option.bind_eq_bind, Option.bind_some, ← hcard,
    toUInt_natCast (by omega), hmod, Option.bind_eq_bind, Option.bind_some,
    toUInt_natCast (by omega), toInt_natCast (by decide) (by omega), hvalue, Option.bind_some,
    add_comm]

/-- Whatever its range, a call advances the seed by the prime. -/
theorem uniqStep_seed (h : uniqStep s call = some t) :
    t.rndSeed = toUInt 64 (s.rndSeed + largePrime : ℕ) ∧
      t.returned.length = s.returned.length + 1 := by
  obtain ⟨⟨value, rndSeed⟩, hcall, rfl⟩ := Option.map_eq_some_iff.mp h
  have hseed : rndSeed = toUInt 64 (s.rndSeed + largePrime : ℕ) := by
    simp only [sbRandUniq, Option.bind_eq_bind, Option.bind_eq_some_iff] at hcall
    obtain ⟨_, -, _, -, _, -, hout⟩ := hcall
    cases hout
    rfl
  exact ⟨hseed, by simp⟩

/-! ## Runs -/

theorem rndSeed_eq (hr : run uniqStep uniqStart es = some s) :
    s.rndSeed = toUInt 64 (largePrime * (es.length + 1) : ℕ) := by
  have hinv := run_invariant (I := fun es s => s.rndSeed = toUInt 64 (largePrime * (es.length + 1) : ℕ))
    (by decide) ?_ hr
  · exact hinv
  · intro es s e t _ hs he
    rw [(uniqStep_seed he).1, hs, toUInt_toUInt_add, List.length_append]
    rfl

/-- Calls for one range walk round it, as long as the seed does not wrap. -/
theorem run_strides (h : UniqRange a b) (hcalls : ∀ e ∈ fs, e.a = a ∧ e.b = b)
    (hwrap : s.rndSeed + largePrime * fs.length < 2 ^ 64) :
    run uniqStep s fs =
      some ⟨s.rndSeed + largePrime * fs.length,
        s.returned ++ (strides s.rndSeed largePrime (rangeCard a b) fs.length).map fun i : ℕ => a + i⟩ := by
  induction fs generalizing s with
  | nil => simp [strides]
  | cons e fs ih =>
    obtain ⟨rfl, rfl⟩ := hcalls e List.mem_cons_self
    rw [List.length_cons, Nat.mul_succ] at hwrap
    have hstep : uniqStep s e = some ⟨s.rndSeed + largePrime,
        s.returned ++ [e.a + (s.rndSeed % rangeCard e.a e.b : ℕ)]⟩ := by
      rw [uniqStep, sbRandUniq_eq h, Option.map_some, toUInt_natCast (by omega)]
    rw [run_cons, hstep, Option.bind_some,
      ih (fun e he => hcalls e (List.mem_cons_of_mem _ he)) (by dsimp only; omega)]
    simp only [List.length_cons, strides_succ, List.append_assoc, List.singleton_append]
    congr 2
    ring

theorem count_window (h : UniqRange a b) (seed : ℕ) (x : ℤ) :
    ((strides seed largePrime (rangeCard a b) (rangeCard a b)).map fun i : ℕ => a + (i : ℤ)).count x =
      if a ≤ x ∧ x ≤ b then 1 else 0 := by
  have hpos := rangeCard_pos h.nonempty
  have hcard := rangeCard_cast h.nonempty
  have hcoprime : largePrime.Coprime (rangeCard a b) := by
    refine (largePrime_prime.coprime_iff_not_dvd).mpr fun hdvd => ?_
    exact absurd (Nat.le_of_dvd hpos hdvd) (not_le.mpr h.small)
  have hinj : Function.Injective fun i : ℕ => a + (i : ℤ) := by
    intro i j hij
    exact Nat.cast_injective (add_left_cancel hij)
  rw [((strides_perm_range hcoprime hpos).map _).count_eq,
    (List.nodup_range.map hinj).count]
  have hmem : x ∈ (List.range (rangeCard a b)).map (fun i : ℕ => a + (i : ℤ)) ↔ a ≤ x ∧ x ≤ b := by
    rw [List.mem_map]
    constructor
    · rintro ⟨i, hi, rfl⟩
      have := List.mem_range.mp hi
      omega
    · rintro ⟨hlo, hhi⟩
      exact ⟨(x - a).toNat, List.mem_range.mpr (by omega), by omega⟩
  exact if_congr hmem rfl rfl

/-- Any `n` consecutive calls for a range of `n` values return every value exactly once. -/
theorem sbRandUniq_permutes (h : UniqRange a b) (hr : run uniqStep uniqStart es = some s)
    (hcalls : ∀ e ∈ fs, e.a = a ∧ e.b = b) (hn : fs.length = rangeCard a b)
    (htotal : es.length + fs.length < 2 ^ 33) :
    ∃ values t, run uniqStep s fs = some t ∧ t.returned = s.returned ++ values ∧
      ∀ x, values.count x = if a ≤ x ∧ x ≤ b then 1 else 0 := by
  have hseed : s.rndSeed = largePrime * (es.length + 1) := by
    rw [rndSeed_eq hr]
    exact toUInt_natCast (by unfold largePrime; omega)
  have hwrap : s.rndSeed + largePrime * fs.length < 2 ^ 64 := by
    unfold largePrime at hseed ⊢
    omega
  refine ⟨_, _, run_strides h hcalls hwrap, rfl, fun x => ?_⟩
  rw [hn]
  exact count_window h s.rndSeed x

theorem sbRandUniq_permutes_three :
    ∃ values t, run uniqStep ⟨4294967294, [2]⟩
        [⟨0, 1, 3⟩, ⟨1, 1, 3⟩, ⟨0, 1, 3⟩] = some t ∧ t.returned = [2] ++ values ∧
      ∀ x, values.count x = if (1 : ℤ) ≤ x ∧ x ≤ 3 then 1 else 0 :=
  sbRandUniq_permutes ⟨by decide, by decide, by decide, by decide⟩
    (show run uniqStep uniqStart [⟨0, 1, 2⟩] = _ by decide +kernel) (by decide) (by decide) (by decide)

end Sysbench.Core
