import Sysbench.Options.Settings
import Sysbench.Machine.Words

/-! # Typed values of options

The getters interpret the values that are stored with an option. Floating-point numbers are
of any type, with `sscanf("%f")` as a parameter that may fail.
-/
namespace Sysbench.Options

open Bytes CStrings Words Keyed

def isdigit (b : Byte) : Bool := charByte '0' ≤ b && b ≤ charByte '9'

def digit (b : Byte) : ℕ := b.toNat - (charByte '0').toNat

def toupper (b : Byte) : Byte := if 0x61#8 ≤ b && b ≤ 0x7a#8 then b - 0x20#8 else b

def decimal (digits : List Byte) : ℕ := digits.foldl (fun n b => n * 10 + digit b) 0

def longMax : ℤ := 2 ^ 63 - 1

def longMin : ℤ := -2 ^ 63

def intMax : ℤ := 2 ^ 31 - 1

def intMin : ℤ := -2 ^ 31

/-- A sign, if there is one, and the rest. -/
def splitSign : List Byte → Bool × List Byte
  | [] => (false, [])
  | c :: s => if c = charByte '-' then (true, s) else (false, if c = charByte '+' then s else c :: s)

/-- `strtol(s, &endptr, 10)` with what stands at `endptr`. -/
def strtol (s : List Byte) : ℤ × List Byte :=
  let (negative, t) := splitSign (s.dropWhile isspace)
  let digits := t.takeWhile isdigit
  if digits = [] then (0, s)
  else
    let n : ℤ := if negative then -(decimal digits : ℤ) else decimal digits
    (max longMin (min longMax n), t.dropWhile isdigit)

/-- The option and the value of the message before `exit(EXIT_FAILURE)`. -/
structure InvalidValue where
  name : CString
  value : CString
deriving DecidableEq

def InvalidValue.message (e : InvalidValue) : List Byte :=
  "Invalid value for the '".toList.map charByte ++ e.name.chars ++
    "' option: '".toList.map charByte ++ e.value.chars ++ "'\n".toList.map charByte

def sbOptToFlag (opt : Opt) : Bool := opt.values ≠ []

/-- `strtol` takes the whole value for a number that fits into an `int`. -/
def ValidInt (value : List Byte) : Prop :=
  ¬ ((strtol value).2 ≠ [] ∨ intMax < (strtol value).1 ∨ (strtol value).1 < intMin)

instance : DecidablePred ValidInt := fun v => by unfold ValidInt; infer_instance

def sbOptToInt (opt : Opt) : Except InvalidValue ℤ :=
  match opt.values with
  | [] => .ok 0
  | val :: _ =>
    let res := (strtol val.data.chars).1
    if ¬ ValidInt val.data.chars then .error ⟨opt.name, val.data⟩ else .ok res

def sizemods : List Byte := "KMGT".toList.map charByte

/-- The loop over the characters: the number before the first that is no digit, and this character
if there were digits. -/
def scanSize (res : ℕ) (digits : Bool) : List Byte → ℕ × Option Byte
  | [] => (res, none)
  | c :: s =>
    if ¬ isdigit c then (res, if digits then some c else none)
    else scanSize (toUInt 64 (res * 10 + digit c)) true s

def sizeOf (value : List Byte) : ℕ :=
  match scanSize 0 false value with
  | (res, none) => res
  | (res, some mult) =>
    match sizemods.idxOf? (toupper mult) with
    | none => 0
    | some n => toUInt 64 (res * 1024 ^ (n + 1))

def sbOptToSize (opt : Opt) : ℕ :=
  match opt.values with
  | [] => 0
  | val :: _ => sizeOf val.data.chars

/-- Every value is scanned and the last one counts. Without any the result is not initialized. -/
def sbOptToFloat {F : Type*} (sscanf : CString → Option F) (zero uninitialized : F) (opt : Opt) :
    F :=
  opt.values.foldl (fun _ val => (sscanf val.data).getD zero) uninitialized

def sbOptToString (opt : Opt) : Option CString := opt.values.head?.map Value.data

def sbOptToList (opt : Opt) : List CString := opt.values.map Value.data

def sbGetValueFlag (options : List Opt) (name : CString) : Bool :=
  (findOption options name).elim false sbOptToFlag

def sbGetValueInt (options : List Opt) (name : CString) : Except InvalidValue ℤ :=
  (findOption options name).elim (.ok 0) sbOptToInt

def sbGetValueSize (options : List Opt) (name : CString) : ℕ :=
  (findOption options name).elim 0 sbOptToSize

def sbGetValueFloat {F : Type*} (sscanf : CString → Option F) (zero uninitialized : F)
    (options : List Opt) (name : CString) : F :=
  (findOption options name).elim zero (sbOptToFloat sscanf zero uninitialized)

def sbGetValueString (options : List Opt) (name : CString) : Option CString :=
  (findOption options name).elim none sbOptToString

def sbGetValueList (options : List Opt) (name : CString) : Option (List CString) :=
  (findOption options name).map sbOptToList

/-! ## Numbers and separators -/

section Scan

variable {s p r : List Byte}

/-- A character that cannot be part of a number is left over. -/
theorem mem_strtol {c : Byte} (hc : c ∈ s) (hspace : isspace c = false) (hdigit : isdigit c = false)
    (hminus : c ≠ charByte '-') (hplus : c ≠ charByte '+') : c ∈ (strtol s).2 := by
  have hdrop : ∀ {p : Byte → Bool} {t : List Byte}, c ∈ t → p c = false → c ∈ t.dropWhile p := by
    intro p t ht hp
    rw [← List.takeWhile_append_dropWhile (p := p) (l := t), List.mem_append] at ht
    rcases ht with ht | ht
    · rw [List.mem_takeWhile_imp ht] at hp
      cases hp
    · exact ht
  have hsign : ∀ t : List Byte, c ∈ t → c ∈ (splitSign t).2 := by
    intro t ht
    cases t with
    | nil => exact ht
    | cons d t =>
      rw [splitSign]
      split
      · next hd => exact (List.mem_cons.mp ht).resolve_left fun heq => hminus (heq.trans hd)
      · split
        · next hd => exact (List.mem_cons.mp ht).resolve_left fun heq => hplus (heq.trans hd)
        · exact ht
  have hrest := hdrop (hsign _ (hdrop hc hspace)) hdigit
  rw [strtol]
  dsimp only
  split
  · exact hc
  · exact hrest

theorem not_validInt_of_mem (hs : valueSeparator ∈ s) : ¬ ValidInt s := by
  have hmem := mem_strtol hs (by decide) (by decide) (by decide) (by decide)
  exact fun hvalid => hvalid (Or.inl (List.ne_nil_of_mem hmem))

theorem toUInt_step (n : ℕ) (b : Byte) :
    toUInt 64 (toUInt 64 n * 10 + digit b) = toUInt 64 (n * 10 + digit b : ℕ) := by
  have hcast : ((toUInt 64 n : ℤ) * 10 + digit b) = (toUInt 64 n * 10 + digit b : ℕ) := by
    push_cast
    rfl
  rw [hcast]
  simp only [toUInt_eq_mod]
  rw [Nat.add_mod, Nat.mul_mod, Nat.mod_mod, ← Nat.mul_mod, ← Nat.add_mod]

theorem scanSize_digits (hp : ∀ b ∈ p, isdigit b) (n : ℕ) (digits : Bool) :
    scanSize (toUInt 64 n) digits (p ++ s) =
      scanSize (toUInt 64 (p.foldl (fun n b => n * 10 + digit b) n : ℕ)) (digits || p ≠ []) s := by
  induction p generalizing n digits with
  | nil => simp
  | cons b p ih =>
    have hb := hp b List.mem_cons_self
    rw [List.cons_append, scanSize, if_neg (not_not_intro hb), toUInt_step,
      ih (fun c hc => hp c (List.mem_cons_of_mem _ hc)), List.foldl_cons]
    simp

/-- What stands behind a character that is no digit does not matter. -/
theorem scanSize_append (hp : ∃ b ∈ p, ¬ isdigit b) (n : ℕ) (digits : Bool) :
    scanSize n digits (p ++ s) = scanSize n digits p := by
  induction p generalizing n digits with
  | nil => exact absurd hp (by simp)
  | cons c p ih =>
    rw [List.cons_append, scanSize, scanSize]
    by_cases hc : isdigit c
    · have hrest : ∃ b ∈ p, ¬ isdigit b := by
        obtain ⟨b, hb, hdigit⟩ := hp
        rcases List.mem_cons.mp hb with rfl | hb
        · exact absurd hc hdigit
        · exact ⟨b, hb, hdigit⟩
      rw [if_neg (not_not_intro hc), if_neg (not_not_intro hc), ih hrest]
    · rw [if_pos hc, if_pos hc]

/-- A separator behind digits makes the size zero. -/
theorem sizeOf_eq_iff : sizeOf (p ++ valueSeparator :: r) = sizeOf p ↔
    ((∀ b ∈ p, isdigit b) → 2 ^ 64 ∣ decimal p) := by
  by_cases hp : ∀ b ∈ p, isdigit b
  · have hzero : toUInt 64 (0 : ℕ) = 0 := rfl
    have hscan : ∀ s, scanSize 0 false (p ++ s) =
        scanSize (toUInt 64 (decimal p)) (decide (p ≠ [])) s := by
      intro s
      rw [← hzero, scanSize_digits hp, Bool.false_or]
      rfl
    have hleft : sizeOf (p ++ valueSeparator :: r) = 0 := by
      rw [sizeOf, hscan, scanSize, if_pos (by decide)]
      cases p with
      | nil => rfl
      | cons b p => rfl
    have hright : sizeOf p = toUInt 64 (decimal p) := by
      rw [sizeOf, ← List.append_nil p, hscan, List.append_nil]
      rfl
    rw [hleft, hright, toUInt_eq_mod, Nat.dvd_iff_mod_eq_zero]
    exact ⟨fun h _ => h.symm, fun h => (h hp).symm⟩
  · refine iff_of_true ?_ fun hall => absurd hall hp
    rw [sizeOf, sizeOf, scanSize_append]
    simpa using hp

end Scan

end Sysbench.Options
