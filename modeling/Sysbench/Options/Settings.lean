import Sysbench.Options.ConfigFile

/-! # Setting options

`set_option` gives an option a type and the values that the type takes from a text. Seen
through `find_option`, the list of options is a map from names, and each call is an update
of that map at one name.
-/
namespace Sysbench.Options

open Bytes CStrings Keyed

abbrev FileSystem := CString → Option (List Byte)

def SbArgType.toNat : SbArgType → ℕ
  | .null => 0
  | .flag => 1
  | .int => 2
  | .size => 3
  | .float => 4
  | .string => 5
  | .list => 6
  | .file => 7

inductive OptionError
  | unknownType (type : SbArgType)
deriving DecidableEq

def OptionError.message : OptionError → String
  | .unknownType type => s!"Unknown argument type: {type.toNat}"

def onText : CString := ⟨"on".toList.map charByte, by decide⟩

/-- The tokens that `strtok(value, ",")` returns one after another. -/
def strtok (value : CString) : List CString :=
  ((value.chars.splitOn valueSeparator).filter (· ≠ [])).map .ofBytes

def readConfigFile (files : FileSystem) (options : List Opt) (filename : CString) : List Opt :=
  match files filename with
  | none => options
  | some fp => (readConfig fp options).2

def setOption (files : FileSystem) (options : List Opt) (name : CString) (value : Option CString)
    (type : SbArgType) : Except OptionError Unit × List Opt :=
  let (options, opt) := addOption options name
  let options := freeValues options opt
  let options := options.modify opt fun o => { o with type := type }
  if type ≠ .flag ∧ (value = none ∨ value = some .empty) then (.ok (), options)
  else
    match type with
    | .flag =>
      (.ok (), if value = none ∨ value = some onText then addValue options opt onText else options)
    | .int | .size | .float | .string => (.ok (), value.elim options (addValue options opt))
    | .list => (.ok (), (value.elim [] strtok).foldl (addValue · opt) options)
    | .file => (.ok (), value.elim options (readConfigFile files options))
    | .null => (.error (.unknownType type), options)

/-- The values that a call of `set_option` leaves. -/
def valuesOf (type : SbArgType) (value : Option CString) : List CString :=
  if type ≠ .flag ∧ (value = none ∨ value = some .empty) then []
  else
    match type with
    | .flag => if value = none ∨ value = some onText then [onText] else []
    | .int | .size | .float | .string => value.toList
    | .list => value.elim [] strtok
    | .file | .null => []

section SetOption

variable (files : FileSystem) (options : List Opt) (name : CString) (value : Option CString)
  {type : SbArgType}

/-- Unless a file is read, the option gets the type and the values. -/
theorem setOption_snd (htype : type = .file → value = none) :
    (setOption files options name value type).2 =
      (addOption options name).1.modify (addOption options name).2 fun o =>
        { o with type := type, values := (valuesOf type value).map fun v => ⟨v, false⟩ } := by
  have hadd : ∀ values : List CString,
      values.foldl (addValue · (addOption options name).2)
        ((freeValues (addOption options name).1 (addOption options name).2).modify
          (addOption options name).2 fun o => { o with type := type }) =
      (addOption options name).1.modify (addOption options name).2 fun o =>
        { o with type := type, values := values.map fun v => ⟨v, false⟩ } := by
    intro values
    rw [freeValues, List.modify_modify_eq, foldl_addValue]
    simp
  rw [← hadd]
  unfold setOption valuesOf
  dsimp only
  split
  · rfl
  · next hvalue =>
    cases type with
    | file => exact absurd ⟨fun h => (by cases h), Or.inl (htype rfl)⟩ hvalue
    | flag => dsimp only; split <;> rfl
    | list => rfl
    | null => rfl
    | int => cases value <;> rfl
    | size => cases value <;> rfl
    | float => cases value <;> rfl
    | string => cases value <;> rfl

theorem lookup_setOption (htype : type = .file → value = none) :
    lookup Opt.key (setOption files options name value type).2 =
      Function.update (lookup Opt.key options) (convertDashes name)
        (some { (findOption options name).getD (newOption name) with
          type := type, values := (valuesOf type value).map fun v => ⟨v, false⟩ }) := by
  rw [setOption_snd files options name value htype, addOption_eq, findOption_eq]
  exact lookup_modify_locate options (key_newOption name) fun _ => rfl

end SetOption

/-! ## Sequences of calls -/

inductive Op
  | set (name : CString) (value : Option CString) (type : {type : SbArgType // type ≠ .file})
  | remove (name : CString)

namespace Op

def name : Op → CString
  | set name _ _ => name
  | remove name => name

def apply (files : FileSystem) (options : List Opt) : Op → List Opt
  | set name value type => (setOption files options name value type).2
  | remove name => (removeOption options name).2

def result : Op → Option Opt
  | set name value type =>
    some ⟨convertDashes name, type, (valuesOf type value).map fun v => ⟨v, false⟩, false⟩
  | remove _ => none

end Op

/-- The options as such calls leave them: no name twice, each name in its stored form. -/
structure Stored (options : List Opt) : Prop where
  unique : Unique Opt.key options
  name : ∀ n opt, lookup Opt.key options n = some opt → opt.name = n ∧ opt.ignore = false

section Calls

variable (files : FileSystem) {options : List Opt}

theorem Stored.getD_newOption (hstored : Stored options) (name : CString) :
    ((findOption options name).getD (newOption name)).name = convertDashes name ∧
      ((findOption options name).getD (newOption name)).ignore = false := by
  rw [findOption_eq]
  cases hfind : lookup Opt.key options (convertDashes name) with
  | none => exact ⟨rfl, rfl⟩
  | some opt => exact hstored.name _ _ hfind

/-- Each call is an update of the map at its name. -/
theorem Stored.lookup_apply (hstored : Stored options) (op : Op) :
    lookup Opt.key (op.apply files options) =
      Function.update (lookup Opt.key options) (convertDashes op.name) op.result := by
  cases op with
  | set name value type =>
    obtain ⟨hname, hignore⟩ := hstored.getD_newOption name
    rw [Op.apply, lookup_setOption files options name value fun h => absurd h type.2]
    dsimp only
    rw [hname, hignore]
    rfl
  | remove name =>
    rw [Op.apply, removeOption_eq, lookup_remove hstored.unique]
    rfl

theorem Stored.apply (hstored : Stored options) (op : Op) : Stored (op.apply files options) where
  unique := by
    cases op with
    | set name value type =>
      rw [Op.apply, setOption_snd files options name value fun h => absurd h type.2, addOption_eq]
      exact unique_modify_locate hstored.unique (key_newOption name) fun _ => rfl
    | remove name =>
      rw [Op.apply, removeOption_eq]
      exact unique_remove hstored.unique
  name := by
    intro n opt hopt
    rw [hstored.lookup_apply files] at hopt
    by_cases hn : n = convertDashes op.name
    · subst hn
      rw [Function.update_self] at hopt
      cases op with
      | set name value type =>
        cases hopt
        exact ⟨rfl, rfl⟩
      | remove name => cases hopt
    · rw [Function.update_of_ne hn] at hopt
      exact hstored.name n opt hopt

theorem Stored.nil : Stored [] where
  unique := List.nodup_nil
  name := fun _ _ hopt => nomatch hopt

/-- A sequence of calls leaves a stored list that is the sequence of updates. -/
theorem Stored.foldl (hstored : Stored options) (ops : List Op) :
    Stored (ops.foldl (Op.apply files) options) ∧
      lookup Opt.key (ops.foldl (Op.apply files) options) =
        ops.foldl (fun m op => Function.update m (convertDashes op.name) op.result)
          (lookup Opt.key options) := by
  induction ops generalizing options with
  | nil => exact ⟨hstored, rfl⟩
  | cons op ops ih =>
    rw [List.foldl_cons, List.foldl_cons, ← hstored.lookup_apply files]
    exact ih (hstored.apply files op)

end Calls

def lastOn (ops : List Op) (n : CString) : Option Op :=
  ops.reverse.find? fun op => SameName op.name n

theorem sameName_of_lastOn {ops : List Op} {n : CString} {op : Op}
    (hlast : lastOn ops n = some op) : SameName op.name n := by
  unfold lastOn at hlast
  simpa using List.find?_some hlast

/-- The option store is a map from names up to dashes: an option is found exactly if the last call
on its name has set it, with what that call leaves in an empty list. -/
theorem options_are_map (files : FileSystem) (ops : List Op) (n : CString) :
    ((ops.foldl (Op.apply files) []).map fun opt => convertDashes opt.name).Nodup ∧
      (∀ s t, optNameCmp s t = 0 ↔ SameName s t) ∧
      match lastOn ops n with
      | none => findOption (ops.foldl (Op.apply files) []) n = none
      | some (.remove _) => findOption (ops.foldl (Op.apply files) []) n = none
      | some (.set name value type) => ∃ opt,
          findOption (ops.foldl (Op.apply files) []) n = some opt ∧ opt.type = type ∧
            findOption (setOption files [] name value type).2 name = some opt := by
  obtain ⟨hstored, hlookup⟩ := Stored.nil.foldl files ops
  refine ⟨hstored.unique, fun s t => optNameCmp_eq_zero, ?_⟩
  have hfind : findOption (ops.foldl (Op.apply files) []) n =
      ((lastOn ops n).map Op.result).getD none := by
    rw [findOption_eq, hlookup, foldl_update]
    rfl
  cases hlast : lastOn ops n with
  | none => rw [hfind, hlast]; rfl
  | some op =>
    rw [hlast] at hfind
    cases op with
    | remove name => exact hfind
    | set name value type =>
      have hsame : convertDashes name = convertDashes n := sameName_of_lastOn hlast
      refine ⟨_, hfind, rfl, ?_⟩
      rw [findOption_eq, ← Op.apply, Stored.nil.lookup_apply files, Op.name, Function.update_self]
      rfl

def dashedThreads : CString := ⟨"num-threads".toList.map charByte, by decide⟩

def underlinedThreads : CString := ⟨"num_threads".toList.map charByte, by decide⟩

/-- Two spellings of a name, and an option that is removed. -/
def threadsOps : List Op :=
  [.set dashedThreads (some onText) ⟨.flag, by decide⟩, .set onText none ⟨.list, by decide⟩,
    .set underlinedThreads (some ⟨"4".toList.map charByte, by decide⟩) ⟨.int, by decide⟩,
    .remove onText]

theorem options_are_map_threads :
    (∃ opt, findOption (threadsOps.foldl (Op.apply fun _ => none) []) dashedThreads = some opt ∧
      opt.type = .int ∧
      findOption
        (setOption (fun _ => none) [] underlinedThreads
          (some ⟨"4".toList.map charByte, by decide⟩) .int).2 underlinedThreads = some opt) ∧
      findOption (threadsOps.foldl (Op.apply fun _ => none) []) onText = none :=
  ⟨(options_are_map (fun _ => none) threadsOps dashedThreads).2.2,
    (options_are_map (fun _ => none) threadsOps onText).2.2⟩

end Sysbench.Options
