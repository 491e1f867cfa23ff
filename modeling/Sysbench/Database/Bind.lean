import Sysbench.Database.Connection
import Sysbench.Machine.Words

/-! # Bound parameters

What a `db_bind_t` points to, and the text that `db_print_value` makes of it.
-/
namespace Sysbench.Database

open Bytes CStrings Words

structure DbTime where
  year : BitVec 32
  month : BitVec 32
  day : BitVec 32
  hour : BitVec 32
  minute : BitVec 32
  second : BitVec 32
  deriving DecidableEq

/-- The type of a parameter with the object that `buffer` points to. Strings are the bytes of their
buffers. -/
inductive BindValue where
  | none
  | tinyint (v : BitVec 8)
  | smallint (v : BitVec 16)
  | int (v : BitVec 32)
  | bigint (v : BitVec 64)
  | float (bits : BitVec 32)
  | double (bits : BitVec 64)
  | time (tm : DbTime)
  | date (tm : DbTime)
  | datetime (tm : DbTime)
  | timestamp (tm : DbTime)
  | char (buffer : List Byte)
  | varchar (buffer : List Byte)
  deriving DecidableEq

/-- `db_bind_t`, each pointer with what it points to. -/
structure DbBind where
  value : BindValue
  dataLen : Option ℕ
  maxLen : ℕ
  isNull : Option Byte
  deriving DecidableEq

structure FloatFormat where
  float : BitVec 32 → CString
  double : BitVec 64 → CString

def decimalChars (v : ℤ) : List Byte :=
  (if v < 0 then [charByte '-'] else []) ++ (Nat.toDigits 10 v.natAbs).map charByte

theorem mem_decimalChars {v : ℤ} {b : Byte} (h : b ∈ decimalChars v) :
    b = charByte '-' ∨ 48 ≤ b.toNat ∧ b.toNat ≤ 57 := by
  rcases List.mem_append.mp h with hsign | hdigit
  · split at hsign
    · exact Or.inl (List.mem_singleton.mp hsign)
    · exact absurd hsign List.not_mem_nil
  · obtain ⟨c, hc, rfl⟩ := List.mem_map.mp hdigit
    have hc : c.isDigit := Nat.isDigit_of_mem_toDigits (by decide) (by decide) hc
    simp only [Char.isDigit, Bool.and_eq_true, decide_eq_true_eq, UInt32.le_iff_toNat_le] at hc
    have hlow : '0'.val.toNat = 48 := rfl
    have hhigh : '9'.val.toNat = 57 := rfl
    refine Or.inr ?_
    simp only [charByte, BitVec.toNat_ofNat, Char.toNat]
    omega

def decimal (v : ℤ) : CString where
  chars := decimalChars v
  noNul h := by
    rcases mem_decimalChars h with hsign | hdigit
    · exact absurd hsign (by decide)
    · exact absurd hdigit.1 (by decide)

theorem length_decimal_le {v : ℤ} {n : ℕ} (hn : 0 < n) (h : v.natAbs < 10 ^ n) :
    (decimal v).length ≤ n + 1 := by
  have hdigits : (Nat.toDigits 10 v.natAbs).length ≤ n :=
    (Nat.length_toDigits_le_iff (by decide) hn).mpr h
  show (decimalChars v).length ≤ n + 1
  unfold decimalChars
  rw [List.length_append, List.length_map]
  split
  · rw [List.length_singleton]
    omega
  · rw [List.length_nil]
    omega

def nullText : CString := ⟨"NULL".toList.map charByte, by decide⟩

theorem decimal_ne_nullText (v : ℤ) : decimal v ≠ nullText := by
  intro h
  have hmem : charByte 'N' ∈ decimalChars v := by
    show charByte 'N' ∈ (decimal v).chars
    rw [h]
    decide
  rcases mem_decimalChars hmem with hsign | hdigit
  · exact absurd hsign (by decide)
  · exact absurd hdigit.2 (by decide)

def quote : CString := ⟨[39#8], by decide⟩

def quoted (s : CString) : CString := quote ++ s ++ quote

def dash : CString := ⟨[charByte '-'], by decide⟩

def colon : CString := ⟨[charByte ':'], by decide⟩

def blank : CString := ⟨[charByte ' '], by decide⟩

/-- `%d` of an `unsigned int`. -/
def DbTime.field (v : BitVec 32) : CString := decimal v.toInt

def DbTime.dateText (tm : DbTime) : CString :=
  DbTime.field tm.year ++ dash ++ DbTime.field tm.month ++ dash ++ DbTime.field tm.day

def DbTime.timeText (tm : DbTime) : CString :=
  DbTime.field tm.hour ++ colon ++ DbTime.field tm.minute ++ colon ++ DbTime.field tm.second

/-- The output of the `snprintf` that is called for the value. A buffer without a zero has none. -/
def BindValue.text (ff : FloatFormat) : BindValue → Option CString
  | .none => some .empty
  | .tinyint v => some (decimal v.toInt)
  | .smallint v => some (decimal v.toInt)
  | .int v => some (decimal v.toInt)
  | .bigint v => some (decimal v.toInt)
  | .float bits => some (ff.float bits)
  | .double bits => some (ff.double bits)
  | .char buffer | .varchar buffer => (readString buffer).map quoted
  | .date tm => some (quoted tm.dateText)
  | .time tm => some (quoted tm.timeText)
  | .datetime tm | .timestamp tm => some (quoted (tm.dateText ++ blank ++ tm.timeText))

/-- `is_null != NULL && *is_null` -/
def DbBind.nullFlag (b : DbBind) : Bool := b.isNull.any (· ≠ 0)

def DbBind.text (ff : FloatFormat) (b : DbBind) : Option CString :=
  if b.nullFlag then some nullText else b.value.text ff

/-- `snprintf`, and -1 if the output does not fit. -/
def printText (buf : List Byte) (pos : ℕ) (buflen : ℤ) (text : CString) : Option (List Byte × ℤ) :=
  (snprintf buf pos (toUInt 64 buflen) text).map fun (buf, n) =>
    (buf, if (n : ℤ) < buflen then n else -1)

/-- The default case stores nothing. -/
def dbPrintValue (ff : FloatFormat) (var : DbBind) (buf : List Byte) (pos : ℕ) (buflen : ℤ) :
    Option (List Byte × ℤ) :=
  if var.nullFlag then printText buf pos buflen nullText
  else
    match var.value with
    | .none => some (buf, if 0 < buflen then 0 else -1)
    | value => (value.text ff).bind fun text => printText buf pos buflen text

/-- A text printed behind a known prefix, as far as there is room for it. -/
theorem printText_spec {buf p : List Byte} {buflen : ℤ} (text : CString) (hp : p <+: buf)
    (hpos : 0 < buflen) (hroom : p.length + buflen ≤ buf.length) (hsmall : buflen < 2 ^ 31) :
    ∃ buf', printText buf p.length buflen text =
        some (buf', if (text.length : ℤ) < buflen then (text.length : ℤ) else -1) ∧
      buf'.length = buf.length ∧ p ++ (text.cut (buflen.toNat - 1)).chars ++ [0] <+: buf' := by
  have hsize : toUInt 64 buflen = buflen.toNat := toUInt_of_range hpos.le (by omega)
  have hsome : 0 < buflen.toNat := by omega
  have hfits : p.length + buflen.toNat ≤ buf.length := by omega
  obtain ⟨buf', hprint, hlen, hpre⟩ := snprintf_spec text hp hsome hfits
  refine ⟨buf', ?_, hlen, hpre⟩
  rw [printText, hsize, hprint]
  rfl

/-- The value is printed as its text unless it has no type. -/
theorem dbPrintValue_eq {ff : FloatFormat} {var : DbBind} {text : CString}
    (htext : var.text ff = some text) (hvalue : var.nullFlag = true ∨ var.value ≠ .none)
    (buf : List Byte) (pos : ℕ) (buflen : ℤ) :
    dbPrintValue ff var buf pos buflen = printText buf pos buflen text := by
  unfold DbBind.text at htext
  unfold dbPrintValue
  split at htext
  · next hnull =>
    obtain rfl := Option.some.inj htext
    exact if_pos hnull
  · next hnull =>
    rw [if_neg hnull]
    split
    · next hnone =>
      exact absurd hnone (hvalue.resolve_left hnull)
    · rw [htext]
      rfl

theorem dbPrintValue_spec {ff : FloatFormat} {var : DbBind} {text : CString}
    (htext : var.text ff = some text) {buf p : List Byte} {buflen : ℤ} (hp : p <+: buf)
    (hpos : 0 < buflen) (hroom : p.length + buflen ≤ buf.length) (hsmall : buflen < 2 ^ 31) :
    ∃ buf', dbPrintValue ff var buf p.length buflen =
        some (buf', if (text.length : ℤ) < buflen then (text.length : ℤ) else -1) ∧
      buf'.length = buf.length ∧ p <+: buf' ∧
      ((text.length : ℤ) < buflen → p ++ text.chars <+: buf') := by
  by_cases hvalue : var.nullFlag = true ∨ var.value ≠ .none
  · obtain ⟨buf', hprint, hlen, hcut⟩ := printText_spec text hp hpos hroom hsmall
    obtain ⟨hpre, hwhole⟩ := prefix_of_cut hcut
    refine ⟨buf', ?_, hlen, hpre, fun hlt => hwhole (by omega)⟩
    rw [dbPrintValue_eq htext hvalue, hprint]
  · obtain ⟨hnull, hnone⟩ := not_or.mp hvalue
    rw [not_not] at hnone
    have hempty : text = CString.empty := by
      rw [DbBind.text, if_neg hnull, hnone] at htext
      exact (Option.some.inj htext).symm
    have hlen : text.length = 0 := by
      rw [hempty]
      rfl
    refine ⟨buf, ?_, rfl, hp, fun _ => ?_⟩
    · simp [dbPrintValue, hnull, hnone, hlen, hpos]
    · simpa [hempty, CString.empty] using hp

end Sysbench.Database
