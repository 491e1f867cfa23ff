import Sysbench.Options.Getters

/-! # The grammar of sizes

A size is a decimal number that may have one of four suffixes. `sb_opt_to_size` reads such a text
from the front like `sscanf("%llu%c")`, with a number of 64 bits.
-/
namespace Sysbench.Options

open Bytes CStrings Words

/-- The power of 1024 that a suffix stands for. -/
def suffixPower (c : Byte) : Option ℕ :=
  if c = charByte 'K' ∨ c = charByte 'k' then some 1
  else if c = charByte 'M' ∨ c = charByte 'm' then some 2
  else if c = charByte 'G' ∨ c = charByte 'g' then some 3
  else if c = charByte 'T' ∨ c = charByte 't' then some 4
  else none

inductive Denotes : List Byte → ℕ → Prop
  | number {digits : List Byte} : digits ≠ [] → (∀ b ∈ digits, isdigit b) →
      Denotes digits (decimal digits)
  | scaled {digits : List Byte} {c : Byte} {k : ℕ} : digits ≠ [] → (∀ b ∈ digits, isdigit b) →
      suffixPower c = some k → Denotes (digits ++ [c]) (decimal digits * 1024 ^ k)

/-- The whole text is a size of 64 bits, or the result is zero. -/
def ReadsSize (value : List Byte) (result : ℕ) : Prop :=
  (∀ n, Denotes value n → n < 2 ^ 64 → result = n) ∧
    ((∀ n, Denotes value n → 2 ^ 64 ≤ n) → result = 0)

/-- A size, and behind its suffix any text. -/
def StartsSize (value : List Byte) (n : ℕ) : Prop :=
  Denotes value n ∨
    ∃ digits c k rest, digits ≠ [] ∧ (∀ b ∈ digits, isdigit b) ∧ suffixPower c = some k ∧
      value = digits ++ c :: rest ∧ n = decimal digits * 1024 ^ k

theorem idxOf?_sizemods (c : Byte) :
    sizemods.idxOf? (toupper c) = (suffixPower c).map (· - 1) := by
  revert c
  decide

theorem not_isdigit_of_suffixPower {c : Byte} {k : ℕ} (h : suffixPower c = some k) :
    ¬ isdigit c := by
  intro hdigit
  have hnone : ∀ c : Byte, isdigit c → suffixPower c = none := by decide
  rw [hnone c hdigit] at h
  cases h

theorem suffixPower_pos {c : Byte} {k : ℕ} (h : suffixPower c = some k) : 0 < k := by
  unfold suffixPower at h
  split_ifs at h <;> cases h <;> decide

section Scan

variable {p s : List Byte}

theorem scanSize_eq (hne : p ≠ []) (hp : ∀ b ∈ p, isdigit b) :
    scanSize 0 false (p ++ s) = scanSize (decimal p % 2 ^ 64) true s := by
  have hscan := scanSize_digits (s := s) hp 0 false
  have hzero : toUInt 64 (0 : ℕ) = 0 := rfl
  rw [hzero] at hscan
  rw [hscan, toUInt_eq_mod]
  simp [hne, decimal]

theorem sizeOf_digits (hne : p ≠ []) (hp : ∀ b ∈ p, isdigit b) :
    sizeOf p = decimal p % 2 ^ 64 := by
  have hscan := scanSize_eq (s := []) hne hp
  rw [List.append_nil] at hscan
  rw [sizeOf, hscan]
  rfl

theorem sizeOf_suffix {c : Byte} (hne : p ≠ []) (hp : ∀ b ∈ p, isdigit b) (hc : ¬ isdigit c) :
    sizeOf (p ++ c :: s) =
      (suffixPower c).elim 0 fun k => decimal p * 1024 ^ k % 2 ^ 64 := by
  rw [sizeOf, scanSize_eq hne hp, scanSize, if_pos hc, if_pos rfl]
  simp only [idxOf?_sizemods]
  cases hk : suffixPower c with
  | none => rfl
  | some k =>
    have hpos := suffixPower_pos hk
    simp only [Option.map_some, Option.elim_some]
    rw [Nat.sub_add_cancel hpos]
    have hcast : ((decimal p % 2 ^ 64 : ℕ) : ℤ) * 1024 ^ k =
        (decimal p % 2 ^ 64 * 1024 ^ k : ℕ) := by
      push_cast
      rfl
    rw [hcast, toUInt_eq_mod, Nat.mod_mul_mod]

theorem sizeOf_no_digit (h : ∀ c ∈ s.head?, ¬ isdigit c) : sizeOf s = 0 := by
  cases s with
  | nil => rfl
  | cons c s =>
    have hc := h c rfl
    rw [sizeOf, scanSize, if_pos hc]
    rfl

end Scan

/-- A text is digits, and behind them nothing or something that is no digit. -/
theorem exists_digits (s : List Byte) :
    ∃ p t, s = p ++ t ∧ (∀ b ∈ p, isdigit b) ∧ ∀ c ∈ t.head?, ¬ isdigit c := by
  refine ⟨s.takeWhile isdigit, s.dropWhile isdigit, List.takeWhile_append_dropWhile.symm,
    fun b hb => List.mem_takeWhile_imp hb, fun c hc => ?_⟩
  have hhead := List.head?_dropWhile_not isdigit s
  rw [Option.mem_def.mp hc] at hhead
  simpa using hhead

variable {value : List Byte} {n : ℕ}

theorem StartsSize.sizeOf (h : StartsSize value n) : sizeOf value = n % 2 ^ 64 := by
  rcases h with h | ⟨digits, c, k, rest, hne, hdigits, hk, rfl, rfl⟩
  · cases h with
    | number hne hdigits => exact sizeOf_digits hne hdigits
    | scaled hne hdigits hk =>
      rw [sizeOf_suffix hne hdigits (not_isdigit_of_suffixPower hk), hk]
      rfl
  · rw [sizeOf_suffix hne hdigits (not_isdigit_of_suffixPower hk), hk]
    rfl

theorem sizeOf_eq_zero (h : ∀ n, ¬ StartsSize value n) : sizeOf value = 0 := by
  obtain ⟨p, t, rfl, hp, ht⟩ := exists_digits value
  by_cases hne : p = []
  · subst hne
    exact sizeOf_no_digit ht
  · cases t with
    | nil =>
      rw [List.append_nil] at h
      exact absurd (Or.inl (.number hne hp)) (h _)
    | cons c t =>
      rw [sizeOf_suffix hne hp (ht c rfl)]
      cases hk : suffixPower c with
      | none => rfl
      | some k => exact absurd (Or.inr ⟨p, c, k, t, hne, hp, hk, rfl, rfl⟩) (h _)

/-- A size of 64 bits at the start of a value is read exactly. Other values are zero. -/
theorem sbOptToSize_reads {opt : Opt} {val : Value} {rest : List Value}
    (hval : opt.values = val :: rest) :
    (∀ n, StartsSize val.data.chars n → n < 2 ^ 64 → sbOptToSize opt = n) ∧
      ((∀ n, ¬ StartsSize val.data.chars n) → sbOptToSize opt = 0) := by
  have hsize : sbOptToSize opt = Options.sizeOf val.data.chars := by rw [sbOptToSize, hval]
  rw [hsize]
  refine ⟨fun n hstart hlt => ?_, sizeOf_eq_zero⟩
  rw [hstart.sizeOf, Nat.mod_eq_of_lt hlt]

def sizeOption (value : CString) : Opt := ⟨.empty, .size, [⟨value, false⟩], false⟩

def sixteenKx : CString := .ofBytes ("16Kx".toList.map charByte)

def beyond64 : CString := .ofBytes ("18446744073709551617".toList.map charByte)

theorem sbOptToSize_reads_sixteenKx :
    (sizeOption sixteenKx).values = [⟨sixteenKx, false⟩] ∧
      (∀ n, StartsSize sixteenKx.chars n → n < 2 ^ 64 → sbOptToSize (sizeOption sixteenKx) = n) ∧
      ((∀ n, ¬ StartsSize sixteenKx.chars n) → sbOptToSize (sizeOption sixteenKx) = 0) :=
  ⟨rfl, sbOptToSize_reads (show (sizeOption sixteenKx).values = _ from rfl)⟩

/-- All but the last character of a size are digits. -/
theorem Denotes.dropLast (h : Denotes value n) : ∀ b ∈ value.dropLast, isdigit b := by
  cases h with
  | number _ hdigits => exact fun b hb => hdigits b (List.mem_of_mem_dropLast hb)
  | scaled _ hdigits _ =>
    rw [List.dropLast_concat]
    exact hdigits

theorem Denotes.eq_decimal (h : Denotes value n) (hdigits : ∀ b ∈ value, isdigit b) :
    n = decimal value := by
  cases h with
  | number _ _ => rfl
  | scaled _ _ hk =>
    exact absurd (hdigits _ (List.mem_append_right _ (List.mem_singleton_self _)))
      (not_isdigit_of_suffixPower hk)

/-- Text behind the suffix is ignored, and a number of more than 64 bits wraps around. -/
theorem not_readsSize : ¬ ReadsSize sixteenKx.chars (sbOptToSize (sizeOption sixteenKx)) ∧
    ¬ ReadsSize beyond64.chars (sbOptToSize (sizeOption beyond64)) := by
  constructor
  · intro h
    have hnone : ∀ n, ¬ Denotes sixteenKx.chars n := fun n hn =>
      absurd (hn.dropLast (charByte 'K') (by decide)) (by decide)
    have hzero := h.2 fun n hn => absurd hn (hnone n)
    exact absurd hzero (by decide)
  · intro h
    have hdigits : ∀ b ∈ beyond64.chars, isdigit b := by decide
    have hzero := h.2 fun n hn => by
      rw [hn.eq_decimal hdigits]
      decide
    exact absurd hzero (by decide)

end Sysbench.Options
