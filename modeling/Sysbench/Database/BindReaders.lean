import Sysbench.Database.Bind

/-! # Readers of a bound parameter

Four functions read the same structure: `db_print_value` for a query text, and those that hand the
parameters of a server-side statement to the libraries of PostgreSQL, Oracle and libAttachSQL.
-/
namespace Sysbench.Database

open Bytes CStrings Words

inductive Sent (α : Type) where
  | null
  | value (a : α)

/-! ## `db_print_value` -/

def printSent (ff : FloatFormat) (b : DbBind) : Option (Sent CString) :=
  (b.text ff).map fun text => if text = nullText then .null else .value text

/-! ## PostgreSQL -/

def maxParamLength : ℕ := 256

local instance lawfulByte : LawfulBEq Byte := inferInstance

/-- The branch of `pgsql_drv_execute` for one parameter, given the buffer of its value. -/
def pgsqlStoreValue (ff : FloatFormat) (b : DbBind) (pvalue : List Byte) : Option (List Byte) :=
  if b.isNull.isSome then some pvalue
  else
    match b.value with
    | .char buffer | .varchar buffer =>
      if 0 ∈ buffer ∨ maxParamLength ≤ buffer.length then
        some (strncpy buffer maxParamLength ++ pvalue.drop maxParamLength)
      else none
    | _ => (dbPrintValue ff b pvalue 0 maxParamLength).map Prod.fst

/-- The loop over the parameters. No buffer is left out, so none is sent as NULL. -/
def pgsqlStoreValues (ff : FloatFormat) (boundParam : List DbBind) (pvalues : List (List Byte)) :
    List (Option (List Byte)) :=
  List.zipWith (pgsqlStoreValue ff) boundParam pvalues

/-- `PQexecPrepared` takes a parameter in text format, up to its zero. -/
def pgsqlSent (pvalue : Option (List Byte)) : Option (Sent CString) :=
  (pvalue.bind readString).map .value

/-! ## Oracle -/

inductive DbType where
  | none
  | tinyint
  | smallint
  | int
  | bigint
  | float
  | double
  | time
  | date
  | datetime
  | timestamp
  | char
  | varchar
  deriving DecidableEq

def BindValue.type : BindValue → DbType
  | .none => .none
  | .tinyint _ => .tinyint
  | .smallint _ => .smallint
  | .int _ => .int
  | .bigint _ => .bigint
  | .float _ => .float
  | .double _ => .double
  | .time _ => .time
  | .date _ => .date
  | .datetime _ => .datetime
  | .timestamp _ => .timestamp
  | .char _ => .char
  | .varchar _ => .varchar

def BindValue.isString : BindValue → Bool
  | .char _ | .varchar _ => true
  | _ => false

def BindValue.isTime : BindValue → Bool
  | .time _ | .date _ | .datetime _ | .timestamp _ => true
  | _ => false

inductive OraType where
  | int
  | flt
  | date
  | timestamp
  | afc
  | vcs
  deriving DecidableEq

/-- `db_oracle_bind_map` without its last entry. -/
def dbOracleBindMap : List (DbType × OraType × ℤ) :=
  [(.tinyint, .int, 1), (.smallint, .int, 2), (.int, .int, 4), (.bigint, .int, 8),
    (.float, .flt, 4), (.double, .flt, 8), (.datetime, .date, 8), (.timestamp, .timestamp, 8),
    (.char, .afc, 0), (.varchar, .vcs, 0)]

/-- `strlen(param->buffer)` as an `sb4`. Only strings have their length taken. -/
def BindValue.strlen : BindValue → Option ℤ
  | .char buffer | .varchar buffer => (readString buffer).map fun s => toInt 32 s.length
  | _ => Option.none

/-- The type, the length and the indicator. There are none for a type that is not in the map. -/
def getOracleBindType (param : DbBind) : Option (OraType × ℤ × ℤ) :=
  (dbOracleBindMap.lookup param.value.type).bind fun (type, oraLen) =>
    let len :=
      if param.value.type = .char ∨ param.value.type = .varchar then param.value.strlen
      else some oraLen
    len.map fun len => (type, len, if param.isNull.isSome then -1 else 0)

def oraSent (param : DbBind) : Option (Sent (OraType × ℤ)) :=
  (getOracleBindType param).map fun (type, len, ind) =>
    if ind = -1 then .null else .value (type, len)

/-! ## libAttachSQL -/

inductive Setter where
  | int (v : ℤ)
  | bigint (v : ℤ)
  | float (bits : BitVec 32)
  | double (bits : BitVec 64)
  | time (hour minute second : BitVec 32)
  | datetime (tm : DbTime)
  | string (len : ℕ) (buffer : List Byte)
  | null

/-- The cases of the `switch` in `attachsql_drv_execute`. Strings have no `break`. -/
def attachsqlSetters (param : DbBind) : List Setter :=
  match param.value with
  | .tinyint v => [.int v.toInt]
  | .smallint v => [.int v.toInt]
  | .int v => [.int v.toInt]
  | .bigint v => [.bigint v.toInt]
  | .float bits => [.float bits]
  | .double bits => [.double bits]
  | .time tm => [.time tm.hour tm.minute tm.second]
  | .date tm | .datetime tm | .timestamp tm => [.datetime tm]
  | .char buffer | .varchar buffer => [.string param.maxLen buffer, .null]
  | .none => [.null]

/-- The calls of the loop from index `i` on, each with the index of its parameter; `none` if it has
not ended after `fuel` rounds. The index is a `uint16_t`, the number of parameters an `unsigned`. -/
def attachsqlCalls (boundParam : List DbBind) : ℕ → ℕ → Option (List (ℕ × Setter))
  | 0, _ => none
  | fuel + 1, i =>
    match boundParam[i]? with
    | none => some []
    | some param =>
      (attachsqlCalls boundParam fuel (toUInt 16 (i + 1 : ℕ))).map fun calls =>
        (attachsqlSetters param).map (Prod.mk i) ++ calls

def attachsqlDrvExecute (boundParam : List DbBind) (fuel : ℕ) : Option (List (ℕ × Setter)) :=
  attachsqlCalls boundParam fuel 0

/-- A setter replaces what an earlier one has set for the parameter. -/
def attachsqlSent (calls : List (ℕ × Setter)) (i : ℕ) : Option (Sent Setter) :=
  (calls.filter (·.1 = i)).getLast?.map fun (_, setter) =>
    match setter with
    | .null => .null
    | setter => .value setter

/-! ## What the readers should make of a parameter -/

/-- The number that a server takes from the text of a `float` or a `double`. The text for NULL is
not a number. -/
structure NumberReading where
  float : CString → Option (BitVec 32)
  double : CString → Option (BitVec 64)
  float_null : float nullText = none
  double_null : double nullText = none

/-- A text is the one of the value. In a query strings and times stand in quotes, which `wrap`
puts around them. -/
def TextCarries (reading : NumberReading) (wrap : CString → CString) :
    BindValue → CString → Prop
  | .none, _ => False
  | .tinyint v, text => text = decimal v.toInt
  | .smallint v, text => text = decimal v.toInt
  | .int v, text => text = decimal v.toInt
  | .bigint v, text => text = decimal v.toInt
  | .float bits, text => reading.float text = some bits
  | .double bits, text => reading.double text = some bits
  | .char buffer, text => ∃ s, readString buffer = some s ∧ text = wrap s
  | .varchar buffer, text => ∃ s, readString buffer = some s ∧ text = wrap s
  | .date tm, text => text = wrap tm.dateText
  | .time tm, text => text = wrap tm.timeText
  | .datetime tm, text => text = wrap (tm.dateText ++ blank ++ tm.timeText)
  | .timestamp tm, text => text = wrap (tm.dateText ++ blank ++ tm.timeText)

/-- The bytes of the object that `buffer` points to. -/
def BindValue.size : BindValue → Option ℕ
  | .none => Option.none
  | .tinyint _ => some 1
  | .smallint _ => some 2
  | .int _ => some 4
  | .bigint _ => some 8
  | .float _ => some 4
  | .double _ => some 8
  | .time _ | .date _ | .datetime _ | .timestamp _ => some 24
  | .char buffer | .varchar buffer => (readString buffer).map CString.length

def LengthCarries (value : BindValue) (bound : OraType × ℤ) : Prop :=
  ∃ size, value.size = some size ∧ bound.2 = size

def SetterCarries : BindValue → Setter → Prop
  | .tinyint v, .int x => x = v.toInt
  | .smallint v, .int x => x = v.toInt
  | .int v, .int x => x = v.toInt
  | .bigint v, .bigint x => x = v.toInt
  | .float bits, .float bits' => bits' = bits
  | .double bits, .double bits' => bits' = bits
  | .time tm, .time hour minute second =>
    hour = tm.hour ∧ minute = tm.minute ∧ second = tm.second
  | .date tm, .datetime tm' => tm' = tm
  | .datetime tm, .datetime tm' => tm' = tm
  | .timestamp tm, .datetime tm' => tm' = tm
  | .char buffer, .string len buffer' =>
    buffer' = buffer ∧ (readString buffer).map CString.length = some len
  | .varchar buffer, .string len buffer' =>
    buffer' = buffer ∧ (readString buffer).map CString.length = some len
  | _, _ => False

/-- A reader takes a parameter for NULL exactly when its flag says so, and else takes its value. -/
def ReadRight {α : Type} (b : DbBind) (carries : BindValue → α → Prop)
    (sent : Option (Sent α)) : Prop :=
  if b.nullFlag then sent = some .null
  else ∃ a, sent = some (.value a) ∧ carries b.value a

def ReadersRight (reading : NumberReading) (ff : FloatFormat) (boundParam : List DbBind) (i : ℕ)
    (b : DbBind) : Prop :=
  ReadRight b (TextCarries reading quoted) (printSent ff b) ∧
  (∀ pvalues : List (List Byte), pvalues.length = boundParam.length →
    (∀ pvalue ∈ pvalues, pvalue.length = maxParamLength) →
    ReadRight b (TextCarries reading id)
      (((pgsqlStoreValues ff boundParam pvalues)[i]?).bind pgsqlSent)) ∧
  ReadRight b LengthCarries (oraSent b) ∧
  (∃ fuel calls, attachsqlDrvExecute boundParam fuel = some calls ∧
    ReadRight b SetterCarries (attachsqlSent calls i))

/-- The readers are right about a number without a flag. The text of a `float` or a `double` must
be read back as the same number, also when it is cut to the buffer of PostgreSQL. -/
def Plain (reading : NumberReading) (ff : FloatFormat) (b : DbBind) : Prop :=
  b.isNull = none ∧
    match b.value with
    | .tinyint _ | .smallint _ | .int _ | .bigint _ => True
    | .float bits => reading.float (ff.float bits) = some bits ∧
        reading.float ((ff.float bits).cut (maxParamLength - 1)) = some bits
    | .double bits => reading.double (ff.double bits) = some bits ∧
        reading.double ((ff.double bits).cut (maxParamLength - 1)) = some bits
    | _ => False

variable {reading : NumberReading} {ff : FloatFormat}

/-! ## One parameter of an array -/

theorem filter_map_mk (setters : List Setter) (i j : ℕ) :
    (setters.map (Prod.mk i)).filter (·.1 = j) =
      if i = j then setters.map (Prod.mk i) else [] := by
  split
  · next h =>
    apply List.filter_eq_self.mpr
    intro call hcall
    obtain ⟨setter, -, rfl⟩ := List.mem_map.mp hcall
    exact decide_eq_true h
  · next h =>
    apply List.filter_eq_nil_iff.mpr
    intro call hcall
    obtain ⟨setter, -, rfl⟩ := List.mem_map.mp hcall
    simpa using h

/-- The calls for the index `j` are those of its parameter, if the loop has not passed it. -/
theorem filter_attachsqlCalls {boundParam : List DbBind} (hlen : boundParam.length < 2 ^ 16)
    {fuel i : ℕ} {calls : List (ℕ × Setter)} (h : attachsqlCalls boundParam fuel i = some calls)
    (j : ℕ) :
    calls.filter (·.1 = j) =
      if i ≤ j then
        ((boundParam[j]?).map fun param => (attachsqlSetters param).map (Prod.mk j)).getD []
      else [] := by
  induction fuel generalizing i calls with
  | zero => cases h
  | succ fuel ih =>
    unfold attachsqlCalls at h
    cases hi : boundParam[i]? with
    | none =>
      rw [hi] at h
      cases h
      have hend := List.getElem?_eq_none_iff.mp hi
      split
      · next hle => rw [List.getElem?_eq_none (hend.trans hle)]; rfl
      · rfl
    | some param =>
      rw [hi] at h
      obtain ⟨rest, hrest, rfl⟩ := Option.map_eq_some_iff.mp h
      have hlt := (List.getElem?_eq_some_iff.mp hi).1
      rw [toUInt_natCast (by omega)] at hrest
      rw [List.filter_append, ih hrest, filter_map_mk]
      rcases lt_trichotomy i j with hlt' | rfl | hgt
      · rw [if_neg hlt'.ne, if_pos (Nat.succ_le_of_lt hlt'), if_pos hlt'.le, List.nil_append]
      · rw [if_pos rfl, if_neg (Nat.not_succ_le_self i), if_pos le_rfl, List.append_nil, hi]
        rfl
      · rw [if_neg hgt.ne', if_neg (by omega), if_neg (by omega), List.append_nil]

theorem attachsqlCalls_isSome {boundParam : List DbBind} (hlen : boundParam.length < 2 ^ 16) {i : ℕ}
    (hi : i ≤ boundParam.length) :
    (attachsqlCalls boundParam (boundParam.length - i + 1) i).isSome := by
  obtain ⟨k, hk⟩ := Nat.exists_eq_add_of_le hi
  have hfuel : boundParam.length - i = k := by omega
  rw [hfuel]
  induction k generalizing i with
  | zero =>
    unfold attachsqlCalls
    rw [List.getElem?_eq_none (by omega)]
    rfl
  | succ k ih =>
    unfold attachsqlCalls
    rw [List.getElem?_eq_getElem (by omega), toUInt_natCast (by omega)]
    dsimp only
    rw [Option.isSome_map]
    exact ih (by omega) (by omega) (by omega)

/-- From 65536 parameters on the index never reaches the number of parameters. -/
theorem attachsqlCalls_endless {boundParam : List DbBind} (hlen : 2 ^ 16 ≤ boundParam.length)
    (fuel : ℕ) {i : ℕ} (hi : i < 2 ^ 16) : attachsqlCalls boundParam fuel i = none := by
  induction fuel generalizing i with
  | zero => rfl
  | succ fuel ih =>
    unfold attachsqlCalls
    rw [List.getElem?_eq_getElem (hi.trans_le hlen), ih (toUInt_lt 16 _)]
    rfl

/-- With fewer parameters the loop ends, and with the last setter of each parameter. -/
theorem attachsqlSent_iff {boundParam : List DbBind} {i : ℕ} {b : DbBind}
    (hb : boundParam[i]? = some b) {P : Option (Sent Setter) → Prop} :
    (∃ fuel calls, attachsqlDrvExecute boundParam fuel = some calls ∧ P (attachsqlSent calls i)) ↔
      boundParam.length < 2 ^ 16 ∧ P ((attachsqlSetters b).getLast?.map fun
        | .null => .null
        | setter => .value setter) := by
  have hsent : ∀ {fuel calls}, boundParam.length < 2 ^ 16 →
      attachsqlDrvExecute boundParam fuel = some calls →
      attachsqlSent calls i = (attachsqlSetters b).getLast?.map fun
        | .null => .null
        | setter => .value setter := by
    intro fuel calls hlen hcalls
    unfold attachsqlSent
    rw [filter_attachsqlCalls hlen hcalls, if_pos (Nat.zero_le i), hb, Option.map_some,
      Option.getD_some, List.getLast?_map, Option.map_map]
    rfl
  constructor
  · rintro ⟨fuel, calls, hcalls, hP⟩
    have hlen : boundParam.length < 2 ^ 16 := by
      by_contra hlong
      have hnone := attachsqlCalls_endless (not_lt.mp hlong) fuel (i := 0) (by norm_num)
      rw [attachsqlDrvExecute, hnone] at hcalls
      cases hcalls
    exact ⟨hlen, hsent hlen hcalls ▸ hP⟩
  · rintro ⟨hlen, hP⟩
    obtain ⟨calls, hcalls⟩ :=
      Option.isSome_iff_exists.mp (attachsqlCalls_isSome hlen (Nat.zero_le _))
    exact ⟨_, calls, hcalls, (hsent hlen hcalls).symm ▸ hP⟩

theorem pgsqlSent_at {boundParam : List DbBind} {pvalues : List (List Byte)} {i : ℕ} {b : DbBind}
    {pvalue : List Byte} (hb : boundParam[i]? = some b) (hp : pvalues[i]? = some pvalue) :
    ((pgsqlStoreValues ff boundParam pvalues)[i]?).bind pgsqlSent =
      pgsqlSent (pgsqlStoreValue ff b pvalue) := by
  unfold pgsqlStoreValues
  rw [List.getElem?_zipWith, hb, hp]
  rfl

/-! ## Wrong readers -/

/-- Old bytes without a zero, of which nothing can be read. -/
def junkValue : List Byte := List.replicate maxParamLength 1

/-- With a flag, set or not, PostgreSQL sends what the buffer held. -/
theorem pgsql_wrong {boundParam : List DbBind} {i : ℕ} {b : DbBind} {flag : Byte}
    (hb : boundParam[i]? = some b) (hflag : b.isNull = some flag) :
    ¬ReadersRight reading ff boundParam i b := by
  rintro ⟨-, hpgsql, -, -⟩
  have hlt : i < boundParam.length := (List.getElem?_eq_some_iff.mp hb).1
  have hread := hpgsql (List.replicate boundParam.length junkValue) List.length_replicate
    (fun pvalue hpvalue => by
      rw [List.eq_of_mem_replicate hpvalue, junkValue, List.length_replicate])
  have hat : (List.replicate boundParam.length junkValue)[i]? = some junkValue := by
    rw [List.getElem?_replicate, if_pos hlt]
  have hnone : pgsqlSent (pgsqlStoreValue ff b junkValue) = none := by
    have hjunk : readString junkValue = none := if_neg (by simp [junkValue])
    rw [pgsqlStoreValue, hflag, Option.isSome_some, if_pos rfl, pgsqlSent, Option.bind_some,
      hjunk, Option.map_none]
  rw [pgsqlSent_at hb hat, hnone] at hread
  unfold ReadRight at hread
  split at hread
  · cases hread
  · obtain ⟨a, ha, -⟩ := hread
    cases ha

/-- Oracle's map lacks two types, and has the size of a pointer for the other times. -/
theorem oracle_wrong {value : BindValue} {dataLen : Option ℕ} {maxLen : ℕ}
    (hvalue : value = .none ∨ value.isTime = true) :
    ¬ReadRight ⟨value, dataLen, maxLen, none⟩ LengthCarries
      (oraSent ⟨value, dataLen, maxLen, none⟩) := by
  rintro ⟨a, ha, size, hsize, hlen⟩
  rcases hvalue with rfl | htime
  · cases ha
  · cases value with
    | time tm => cases ha
    | date tm => cases ha
    | datetime tm =>
      cases ha
      obtain rfl := Option.some.inj hsize
      exact absurd hlen (by decide)
    | timestamp tm =>
      cases ha
      obtain rfl := Option.some.inj hsize
      exact absurd hlen (by decide)
    | _ => cases htime

/-- A string ends up as NULL in libAttachSQL. -/
theorem attachsql_wrong {boundParam : List DbBind} {i : ℕ} {value : BindValue}
    {dataLen : Option ℕ} {maxLen : ℕ} (hb : boundParam[i]? = some ⟨value, dataLen, maxLen, none⟩)
    (hvalue : value.isString = true) :
    ¬∃ fuel calls, attachsqlDrvExecute boundParam fuel = some calls ∧
      ReadRight ⟨value, dataLen, maxLen, none⟩ SetterCarries (attachsqlSent calls i) := by
  rw [attachsqlSent_iff hb]
  rintro ⟨-, a, ha, -⟩
  cases value with
  | char buffer => cases ha
  | varchar buffer => cases ha
  | _ => cases hvalue

/-! ## Right readers -/

theorem printSent_of_ne {b : DbBind} {text : CString} (htext : b.text ff = some text)
    (hne : text ≠ nullText) : printSent ff b = some (.value text) := by
  rw [printSent, htext, Option.map_some, if_neg hne]

theorem printSent_nullText {b : DbBind} (htext : b.text ff = some nullText) :
    printSent ff b = some .null := by
  rw [printSent, htext, Option.map_some, if_pos rfl]

/-- A value that is printed for PostgreSQL is read back up to the end of the buffer. -/
theorem pgsqlSent_print {value : BindValue} {dataLen : Option ℕ} {maxLen : ℕ} {text : CString}
    (htext : value.text ff = some text)
    (hnone : value ≠ .none) (hstring : value.isString = false)
    {pvalue : List Byte} (hlen : pvalue.length = maxParamLength) :
    pgsqlSent (pgsqlStoreValue ff ⟨value, dataLen, maxLen, none⟩ pvalue) =
      some (.value (text.cut (maxParamLength - 1))) := by
  have hstore : pgsqlStoreValue ff ⟨value, dataLen, maxLen, none⟩ pvalue =
      (dbPrintValue ff ⟨value, dataLen, maxLen, none⟩ pvalue 0 maxParamLength).map Prod.fst := by
    cases value with
    | char buffer => cases hstring
    | varchar buffer => cases hstring
    | _ => rfl
  have hroom : (([] : List Byte).length : ℤ) + (maxParamLength : ℤ) ≤ pvalue.length := by
    simp [hlen]
  obtain ⟨buf', hprint, -, hpre⟩ :=
    printText_spec text List.nil_prefix (by decide) hroom (by decide)
  have hread : readString buf' = some (text.cut (maxParamLength - 1)) :=
    readString_of_startsWith (by simpa [StartsWith] using hpre)
  have hprint' : printText pvalue 0 maxParamLength text = some (buf', _) := hprint
  have htext' : DbBind.text ff ⟨value, dataLen, maxLen, none⟩ = some text := htext
  rw [hstore, dbPrintValue_eq htext' (Or.inr hnone), hprint',
    Option.map_some, pgsqlSent, Option.bind_some, hread, Option.map_some]

theorem readRight_iff {α : Type} {value : BindValue} {dataLen : Option ℕ} {maxLen : ℕ}
    {carries : BindValue → α → Prop} {sent : Option (Sent α)} :
    ReadRight ⟨value, dataLen, maxLen, none⟩ carries sent ↔
      ∃ a, sent = some (.value a) ∧ carries value a := Iff.rfl

/-- The text of the value decides about a number without a flag. -/
theorem readersRight_iff {boundParam : List DbBind} {i : ℕ} {value : BindValue}
    {dataLen : Option ℕ} {maxLen : ℕ} (hb : boundParam[i]? = some ⟨value, dataLen, maxLen, none⟩)
    {text : CString} (htext : value.text ff = some text)
    (hnull : TextCarries reading quoted value text → text ≠ nullText)
    (hnone : value ≠ .none) (hstring : value.isString = false)
    (hora : ReadRight ⟨value, dataLen, maxLen, none⟩ LengthCarries
      (oraSent ⟨value, dataLen, maxLen, none⟩))
    (hset : ReadRight ⟨value, dataLen, maxLen, none⟩ SetterCarries
      ((attachsqlSetters ⟨value, dataLen, maxLen, none⟩).getLast?.map fun
        | .null => .null
        | setter => .value setter)) :
    ReadersRight reading ff boundParam i ⟨value, dataLen, maxLen, none⟩ ↔
      boundParam.length < 2 ^ 16 ∧ TextCarries reading quoted value text ∧
        TextCarries reading id value (text.cut (maxParamLength - 1)) := by
  have hprint : ReadRight ⟨value, dataLen, maxLen, none⟩ (TextCarries reading quoted)
      (printSent ff ⟨value, dataLen, maxLen, none⟩) ↔ TextCarries reading quoted value text := by
    rw [readRight_iff]
    constructor
    · rintro ⟨a, ha, hcarries⟩
      by_cases hnull' : text = nullText
      · rw [printSent_nullText (b := ⟨value, dataLen, maxLen, none⟩)
          (htext.trans (congrArg some hnull'))] at ha
        cases ha
      · rw [printSent_of_ne (b := ⟨value, dataLen, maxLen, none⟩) htext hnull'] at ha
        cases ha
        exact hcarries
    · exact fun hcarries =>
        ⟨text, printSent_of_ne (b := ⟨value, dataLen, maxLen, none⟩) htext (hnull hcarries), hcarries⟩
  have hpgsql : (∀ pvalues : List (List Byte), pvalues.length = boundParam.length →
      (∀ pvalue ∈ pvalues, pvalue.length = maxParamLength) →
      ReadRight ⟨value, dataLen, maxLen, none⟩ (TextCarries reading id)
        (((pgsqlStoreValues ff boundParam pvalues)[i]?).bind pgsqlSent)) ↔
      TextCarries reading id value (text.cut (maxParamLength - 1)) := by
    have hlt : i < boundParam.length := (List.getElem?_eq_some_iff.mp hb).1
    constructor
    · intro h
      have hread := h (List.replicate boundParam.length junkValue) List.length_replicate
        (fun pvalue hpvalue => by
          rw [List.eq_of_mem_replicate hpvalue, junkValue, List.length_replicate])
      have hat : (List.replicate boundParam.length junkValue)[i]? = some junkValue := by
        rw [List.getElem?_replicate, if_pos hlt]
      rw [pgsqlSent_at hb hat,
        pgsqlSent_print htext hnone hstring (by rw [junkValue, List.length_replicate])] at hread
      obtain ⟨a, ha, hcarries⟩ := readRight_iff.mp hread
      cases ha
      exact hcarries
    · intro hcarries pvalues hlen hall
      have hat : pvalues[i]? = some pvalues[i] := List.getElem?_eq_getElem (hlen ▸ hlt)
      rw [pgsqlSent_at hb hat, pgsqlSent_print htext hnone hstring (hall _ (List.getElem_mem _))]
      exact readRight_iff.mpr ⟨_, rfl, hcarries⟩
  unfold ReadersRight
  rw [hprint, hpgsql, attachsqlSent_iff hb]
  exact ⟨fun h => ⟨h.2.2.2.1, h.1, h.2.1⟩, fun h => ⟨h.2.1, h.2.2, hora, h.1, hset⟩⟩

/-- The integers have short texts that are never cut. -/
theorem cut_decimal {v : ℤ} (h : v.natAbs < 10 ^ 19) :
    (decimal v).cut (maxParamLength - 1) = decimal v :=
  CString.cut_eq_self ((length_decimal_le (by decide) h).trans (by decide))

theorem readersRight_plain_iff {boundParam : List DbBind} {i : ℕ} {b : DbBind}
    (hb : boundParam[i]? = some b) :
    ReadersRight reading ff boundParam i b ↔ boundParam.length < 2 ^ 16 ∧ Plain reading ff b := by
  obtain ⟨value, dataLen, maxLen, isNull⟩ := b
  cases isNull with
  | some flag => exact iff_of_false (pgsql_wrong hb rfl) (fun h => by cases h.2.1)
  | none =>
    have htime : value = .none ∨ value.isTime = true →
        ¬ReadersRight reading ff boundParam i ⟨value, dataLen, maxLen, none⟩ :=
      fun hvalue h => oracle_wrong hvalue h.2.2.1
    have hstring : value.isString = true →
        ¬ReadersRight reading ff boundParam i ⟨value, dataLen, maxLen, none⟩ :=
      fun hvalue h => attachsql_wrong hb hvalue h.2.2.2
    cases value with
    | none => exact iff_of_false (htime (Or.inl rfl)) (fun h => h.2.2)
    | time tm => exact iff_of_false (htime (Or.inr rfl)) (fun h => h.2.2)
    | date tm => exact iff_of_false (htime (Or.inr rfl)) (fun h => h.2.2)
    | datetime tm => exact iff_of_false (htime (Or.inr rfl)) (fun h => h.2.2)
    | timestamp tm => exact iff_of_false (htime (Or.inr rfl)) (fun h => h.2.2)
    | char buffer => exact iff_of_false (hstring rfl) (fun h => h.2.2)
    | varchar buffer => exact iff_of_false (hstring rfl) (fun h => h.2.2)
    | tinyint v =>
      refine (readersRight_iff hb rfl (fun _ => decimal_ne_nullText _) nofun rfl
        ⟨_, rfl, 1, rfl, rfl⟩ ⟨_, rfl, rfl⟩).trans (and_congr_right fun _ =>
          iff_of_true ⟨rfl, cut_decimal ?_⟩ ⟨rfl, trivial⟩)
      have := BitVec.toInt_lt (x := v)
      have := BitVec.le_toInt v
      omega
    | smallint v =>
      refine (readersRight_iff hb rfl (fun _ => decimal_ne_nullText _) nofun rfl
        ⟨_, rfl, 2, rfl, rfl⟩ ⟨_, rfl, rfl⟩).trans (and_congr_right fun _ =>
          iff_of_true ⟨rfl, cut_decimal ?_⟩ ⟨rfl, trivial⟩)
      have := BitVec.toInt_lt (x := v)
      have := BitVec.le_toInt v
      omega
    | int v =>
      refine (readersRight_iff hb rfl (fun _ => decimal_ne_nullText _) nofun rfl
        ⟨_, rfl, 4, rfl, rfl⟩ ⟨_, rfl, rfl⟩).trans (and_congr_right fun _ =>
          iff_of_true ⟨rfl, cut_decimal ?_⟩ ⟨rfl, trivial⟩)
      have := BitVec.toInt_lt (x := v)
      have := BitVec.le_toInt v
      omega
    | bigint v =>
      refine (readersRight_iff hb rfl (fun _ => decimal_ne_nullText _) nofun rfl
        ⟨_, rfl, 8, rfl, rfl⟩ ⟨_, rfl, rfl⟩).trans (and_congr_right fun _ =>
          iff_of_true ⟨rfl, cut_decimal ?_⟩ ⟨rfl, trivial⟩)
      have := BitVec.toInt_lt (x := v)
      have := BitVec.le_toInt v
      omega
    | float bits =>
      refine (readersRight_iff hb rfl ?_ nofun rfl ⟨_, rfl, 4, rfl, rfl⟩ ⟨_, rfl, rfl⟩).trans
        (and_congr_right fun _ => (and_iff_right rfl).symm)
      intro hread hnull
      have hnone := reading.float_null
      rw [← hnull] at hnone
      exact Option.some_ne_none _ (hread.symm.trans hnone)
    | double bits =>
      refine (readersRight_iff hb rfl ?_ nofun rfl ⟨_, rfl, 8, rfl, rfl⟩ ⟨_, rfl, rfl⟩).trans
        (and_congr_right fun _ => (and_iff_right rfl).symm)
      intro hread hnull
      have hnone := reading.double_null
      rw [← hnull] at hnone
      exact Option.some_ne_none _ (hread.symm.trans hnone)

/-- The readers agree on an array if and only if it holds plain numbers and is short enough for the
index of libAttachSQL's loop. -/
theorem readersRight_all_iff (reading : NumberReading) (ff : FloatFormat)
    (boundParam : List DbBind) :
    (∀ i b, boundParam[i]? = some b → ReadersRight reading ff boundParam i b) ↔
      boundParam.length < 2 ^ 16 ∧ ∀ b ∈ boundParam, Plain reading ff b := by
  constructor
  · intro h
    refine ⟨?_, fun b hb => ?_⟩
    · rcases boundParam with _ | ⟨b, bs⟩
      · norm_num
      · exact ((readersRight_plain_iff (i := 0) rfl).mp (h 0 b rfl)).1
    · obtain ⟨i, hi⟩ := List.mem_iff_getElem?.mp hb
      exact ((readersRight_plain_iff hi).mp (h i b hi)).2
  · rintro ⟨hlen, h⟩ i b hb
    exact (readersRight_plain_iff hb).mpr ⟨hlen, h b (List.mem_of_getElem? hb)⟩

def flaggedInt : DbBind := ⟨.int 7, none, 0, some 0⟩

def plainFormat : FloatFormat := ⟨fun _ => .empty, fun _ => .empty⟩

def plainReading : NumberReading := ⟨fun _ => none, fun _ => none, rfl, rfl⟩

/-- Oracle is told that it is NULL, a query text has its value. -/
theorem readers_differ :
    printSent plainFormat flaggedInt = some (.value (decimal 7)) ∧ oraSent flaggedInt = some .null ∧
      ¬∀ i b, [flaggedInt][i]? = some b →
        ReadersRight plainReading plainFormat [flaggedInt] i b := by
  have hprint : printSent plainFormat flaggedInt = some (.value (decimal 7)) :=
    printSent_of_ne rfl (decimal_ne_nullText 7)
  exact ⟨hprint, rfl, fun h => pgsql_wrong (i := 0) rfl rfl (h 0 flaggedInt rfl)⟩

end Sysbench.Database
