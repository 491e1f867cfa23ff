import Sysbench.Options.Arguments
import Sysbench.Options.Getters
import Sysbench.Machine.Doubles

/-! # Options as globals of a script

`sb_lua_new_state` gives every option to the interpreter of a thread: the `switch` over the types
pushes a value, and `lua_setglobal` pops one behind the `switch`, whatever was pushed.
-/
namespace Sysbench.Options

open Bytes CStrings Keyed Doubles

inductive Double
  | finite (x : ℚ)
  | infinite (negative : Bool)
  | nan
deriving DecidableEq

/-- Tables and functions are objects. -/
inductive LuaValue
  | nil
  | boolean (b : Bool)
  | number (x : Double)
  | string (s : CString)
  | object (address : ℕ)
deriving DecidableEq

/-- An interpreter with the values above the base of its stack, the last one first, and the
messages that were logged. -/
structure LuaState where
  stack : List LuaValue
  globals : CString → LuaValue
  log : List (List Byte)

namespace LuaState

def height (state : LuaState) : ℕ := state.stack.length

def push (state : LuaState) (v : LuaValue) : LuaState := { state with stack := v :: state.stack }

/-- `lua_setglobal`. There is no value above the base of an empty stack. -/
def setGlobal (state : LuaState) (name : CString) : Option LuaState :=
  match state.stack with
  | [] => none
  | v :: stack => some { state with stack := stack, globals := Function.update state.globals name v }

end LuaState

/-- `luaL_openlibs` and `luaopen_math`, which leaves its table on the stack. -/
def openLibs (libs : CString → LuaValue) : LuaState := ⟨[libs (literal "math")], libs, []⟩

def unknownTypeWarning (name : CString) : List Byte :=
  "Global option '".toList.map charByte ++ name.chars ++
    "' will not be exported, because the type is unknown".toList.map charByte

inductive ExportError
  | invalidValue (e : InvalidValue)
  | stackUnderflow
deriving DecidableEq

section Export

variable (sscanf : CString → Option Double) (uninitialized : Double)

def pushOption (state : LuaState) (opt : Opt) : Except InvalidValue LuaState :=
  match opt.type with
  | .flag => .ok (state.push (.boolean (sbOptToFlag opt)))
  | .int => (sbOptToInt opt).map fun n => state.push (.number (.finite n))
  | .float => .ok (state.push (.number (sbOptToFloat sscanf (.finite 0) uninitialized opt)))
  | .size => .ok (state.push (.number (.finite (nearest (sbOptToSize opt)))))
  | .string => .ok (state.push (.string ((sbOptToString opt).getD .empty)))
  | .list => .ok (state.push .nil)
  | .file => .ok state
  | .null => .ok { state with log := state.log ++ [unknownTypeWarning opt.name] }

def exportOption (state : LuaState) (opt : Opt) : Except ExportError LuaState := do
  let state ← (pushOption sscanf uninitialized state opt).mapError .invalidValue
  (state.setGlobal opt.name).elim (.error .stackUnderflow) .ok

def exportOptions (state : LuaState) (options : List Opt) : Except ExportError LuaState :=
  options.foldlM (exportOption sscanf uninitialized) state

/-- The iteration pops what it has pushed, and nothing else. -/
def Balanced (state : LuaState) (opt : Opt) : Prop :=
  ∃ pushed popped, pushOption sscanf uninitialized state opt = .ok pushed ∧
    pushed.setGlobal opt.name = some popped ∧ state.height < pushed.height ∧
    popped.height = state.height

/-- The value is that of the option, or none if the option is of another type. -/
def OwnValue (opt : Opt) (v : LuaValue) : Prop :=
  match opt.type with
  | .flag => v = .boolean (sbOptToFlag opt)
  | .int => ∃ n : ℤ, sbOptToInt opt = .ok n ∧ v = .number (.finite n)
  | .float => v = .number (sbOptToFloat sscanf (.finite 0) uninitialized opt)
  | .size => v = .number (.finite (sbOptToSize opt))
  | .string => v = .string ((sbOptToString opt).getD .empty)
  | .list | .file | .null => v = .nil

/-- Each iteration keeps the height of the stack, and each option ends as a global with its value. -/
structure ExportFaithful (libs : CString → LuaValue) (options : List Opt) : Prop where
  balanced : ∀ before opt after, options = before ++ opt :: after → ∀ state,
    exportOptions sscanf uninitialized (openLibs libs) before = .ok state →
      Balanced sscanf uninitialized state opt
  values : ∃ state, exportOptions sscanf uninitialized (openLibs libs) options = .ok state ∧
    ∀ opt ∈ options, OwnValue sscanf uninitialized opt (state.globals opt.name)

end Export

/-- The getters take the values, instead of ending the program with a message. -/
def Accepted (options : List Opt) : Prop :=
  ∀ opt ∈ options, opt.type = .int → ∃ n, sbOptToInt opt = .ok n

/-- Lists that the functions on options build: what they store is changed in place, its name not. -/
inductive Built : List Opt → Prop
  | nil : Built []
  | add {options : List Opt} (h : Built options) (name : CString) :
    Built (addOption options name).1
  | modify {options : List Opt} (h : Built options) (i : ℕ) (f : Opt → Opt)
    (hf : ∀ opt, (f opt).name = opt.name) : Built (options.modify i f)
  | remove {options : List Opt} (h : Built options) (name : CString) :
    Built (removeOption options name).2

/-- The type has a value in the interpreter, and a size can be a `double`. -/
def Exportable (opt : Opt) : Prop :=
  opt.type ≠ .file ∧ opt.type ≠ .null ∧
    (opt.type = .size → nearest (sbOptToSize opt) = sbOptToSize opt)

/-! ## Lists of options -/

section Lists

variable {options : List Opt}

theorem Built.freeValues (h : Built options) (opt : ℕ) : Built (freeValues options opt) :=
  h.modify opt (fun o => { o with values := [] }) fun _ => rfl

theorem Built.addValue (h : Built options) (opt : ℕ) (data : CString) :
    Built (addValue options opt data) :=
  h.modify opt (fun o => { o with values := o.values ++ [⟨data, false⟩] }) fun _ => rfl

theorem Built.addValues (h : Built options) (opt : ℕ) (values : List CString) :
    Built (values.foldl (Options.addValue · opt) options) := by
  induction values generalizing options with
  | nil => exact h
  | cons v values ih => exact ih (h.addValue opt v)

theorem Built.readLine (h : Built options) (buf : CString) : Built (readLine options buf).2 := by
  unfold Options.readLine
  split
  · exact h
  · exact ((h.add _).freeValues _).addValues _ _

theorem Built.readLines (h : Built options) (nline : ℕ) (bufs : List (List Byte)) :
    Built (readLines options nline bufs).2 := by
  induction bufs generalizing options nline with
  | nil => exact h
  | cons buf bufs ih =>
    have hline := h.readLine (.ofBytes buf)
    rw [Options.readLines]
    split <;> rename_i heq <;> rw [heq] at hline
    · exact hline
    · exact ih hline _

/-- What `main` does with the options is of this kind. -/
theorem Built.setOption (h : Built options) (files : FileSystem) (name : CString)
    (value : Option CString) (type : SbArgType) :
    Built (setOption files options name value type).2 := by
  have hset : Built ((Options.freeValues (addOption options name).1 (addOption options name).2).modify
      (addOption options name).2 fun o => { o with type := type }) :=
    ((h.add name).freeValues _).modify _ (fun o => { o with type := type }) fun _ => rfl
  unfold Options.setOption
  dsimp only
  split
  · exact hset
  cases type with
  | flag =>
    dsimp only
    split
    · exact hset.addValue _ _
    · exact hset
  | int | size | float | string =>
    cases value with
    | none => exact hset
    | some v => exact hset.addValue _ _
  | list => exact hset.addValues _ _
  | file =>
    cases value with
    | none => exact hset
    | some filename =>
      change Built (readConfigFile files _ filename)
      unfold readConfigFile
      split
      · exact hset
      · exact hset.readLines _ _
  | null => exact hset

theorem Built.name_eq_key (h : Built options) : ∀ opt ∈ options, opt.name = opt.key := by
  induction h with
  | nil => exact fun opt hopt => absurd hopt List.not_mem_nil
  | @add options _ name ih =>
    intro opt hopt
    unfold addOption at hopt
    split at hopt
    · exact ih opt hopt
    · rcases List.mem_append.mp hopt with hopt | hopt
      · exact ih opt hopt
      · rw [List.mem_singleton.mp hopt, key_newOption]
        rfl
  | modify _ i f hf ih =>
    intro opt hopt
    rcases mem_modify hopt with hopt | ⟨old, hold, rfl⟩
    · exact ih opt hopt
    · rw [Opt.key, hf]
      exact ih old hold
  | remove _ name ih =>
    intro opt hopt
    unfold removeOption at hopt
    split at hopt
    · exact ih opt hopt
    · exact ih opt (List.mem_of_mem_eraseIdx hopt)

theorem Built.unique (h : Built options) : Unique Opt.key options := by
  induction h with
  | nil => exact List.nodup_nil
  | add _ name ih =>
    rw [addOption_eq]
    exact unique_locate ih (key_newOption name)
  | modify _ i f hf ih => exact unique_modify ih i fun opt => congrArg convertDashes (hf opt)
  | remove _ name ih =>
    rw [removeOption_eq]
    exact unique_remove ih

/-- No two options are exported under one name. -/
theorem Built.nodup_name (h : Built options) : (options.map Opt.name).Nodup := by
  have hname : options.map Opt.name = options.map Opt.key :=
    List.map_congr_left h.name_eq_key
  rw [hname]
  exact h.unique

end Lists

/-! ## The loop -/

section Loop

variable {sscanf : CString → Option Double} {uninitialized : Double} {libs : CString → LuaValue}
  {options : List Opt}

/-- The `switch` pushes one value, or none for the two types that are not exported. -/
theorem pushOption_cases (state : LuaState) {opt : Opt}
    (haccept : opt.type = .int → ∃ n, sbOptToInt opt = .ok n) :
    (opt.type = .file ∨ opt.type = .null) ∧
        (∃ pushed, pushOption sscanf uninitialized state opt = .ok pushed ∧
          pushed.stack = state.stack) ∨
      (opt.type ≠ .file ∧ opt.type ≠ .null) ∧
        ∃ v, pushOption sscanf uninitialized state opt = .ok (state.push v) ∧
          (OwnValue sscanf uninitialized opt v ↔
            (opt.type = .size → nearest (sbOptToSize opt) = sbOptToSize opt)) := by
  unfold pushOption OwnValue
  cases htype : opt.type with
  | file => exact .inl ⟨.inl rfl, state, rfl, rfl⟩
  | null => exact .inl ⟨.inr rfl, _, rfl, rfl⟩
  | size =>
    refine .inr ⟨⟨nofun, nofun⟩, _, rfl, ?_⟩
    simp
  | int =>
    obtain ⟨n, hn⟩ := haccept htype
    refine .inr ⟨⟨nofun, nofun⟩, .number (.finite n), ?_, ?_⟩
    · rw [hn]
      rfl
    · exact iff_of_true ⟨n, hn, rfl⟩ nofun
  | flag | float | string | list =>
    exact .inr ⟨⟨nofun, nofun⟩, _, rfl, iff_of_true rfl nofun⟩

theorem exportOption_push {state : LuaState} {opt : Opt} {v : LuaValue}
    (hpush : pushOption sscanf uninitialized state opt = .ok (state.push v)) :
    exportOption sscanf uninitialized state opt =
      .ok { state with globals := Function.update state.globals opt.name v } := by
  rw [exportOption, hpush]
  rfl

theorem exportOptions_of_types (sscanf : CString → Option Double) (uninitialized : Double)
    (state : LuaState) (haccept : Accepted options)
    (hname : (options.map Opt.name).Nodup)
    (htypes : ∀ opt ∈ options, opt.type ≠ .file ∧ opt.type ≠ .null) :
    ∃ final, exportOptions sscanf uninitialized state options = .ok final ∧
      final.stack = state.stack ∧
      (∀ name, name ∉ options.map Opt.name → final.globals name = state.globals name) ∧
      ∀ opt ∈ options, OwnValue sscanf uninitialized opt (final.globals opt.name) ↔
        (opt.type = .size → nearest (sbOptToSize opt) = sbOptToSize opt) := by
  induction options generalizing state with
  | nil => exact ⟨state, rfl, rfl, fun _ _ => rfl, fun _ hopt => absurd hopt List.not_mem_nil⟩
  | cons opt options ih =>
    rw [List.map_cons, List.nodup_cons] at hname
    have htype := htypes opt List.mem_cons_self
    obtain ⟨v, hpush, hown⟩ : ∃ v, pushOption sscanf uninitialized state opt =
        .ok (state.push v) ∧ (OwnValue sscanf uninitialized opt v ↔
          (opt.type = .size → nearest (sbOptToSize opt) = sbOptToSize opt)) := by
      rcases pushOption_cases state (haccept opt List.mem_cons_self) with ⟨hnone, -⟩ | ⟨-, hpush⟩
      · exact absurd hnone (not_or.mpr htype)
      · exact hpush
    obtain ⟨final, hfinal, hstack, hkeep, hvalues⟩ :=
      ih { state with globals := Function.update state.globals opt.name v }
        (fun o ho => haccept o (List.mem_cons_of_mem _ ho)) hname.2
        fun o ho => htypes o (List.mem_cons_of_mem _ ho)
    refine ⟨final, ?_, hstack, fun name hnot => ?_, fun o ho => ?_⟩
    · rw [exportOptions, List.foldlM_cons, exportOption_push hpush]
      exact hfinal
    · rw [List.map_cons, List.mem_cons, not_or] at hnot
      rw [hkeep name hnot.2]
      exact Function.update_of_ne hnot.1 _ _
    · rcases List.mem_cons.mp ho with rfl | ho
      · rw [hkeep o.name hname.1]
        dsimp only
        rw [Function.update_self]
        exact hown
      · exact hvalues o ho

/-- An iteration is balanced exactly if the `switch` pushes a value. -/
theorem balanced_iff (state : LuaState) {opt : Opt}
    (haccept : opt.type = .int → ∃ n, sbOptToInt opt = .ok n) :
    Balanced sscanf uninitialized state opt ↔ opt.type ≠ .file ∧ opt.type ≠ .null := by
  rcases pushOption_cases state haccept with ⟨htype, pushed, hpush, hstack⟩ | ⟨htype, v, hpush, -⟩
  · refine iff_of_false ?_ (not_and_or.mpr (htype.imp not_not.mpr not_not.mpr))
    rintro ⟨pushed', popped, hpush', -, hlt, -⟩
    rw [hpush] at hpush'
    cases hpush'
    rw [LuaState.height, LuaState.height, hstack] at hlt
    exact lt_irrefl _ hlt
  · exact iff_of_true ⟨_, _, hpush, rfl, Nat.lt_succ_self _, rfl⟩ htype

/-- If all iterations are balanced, all types are exported: the first option of another type would
be reached by a run over those before it. -/
theorem types_of_balanced (haccept : Accepted options) (hname : (options.map Opt.name).Nodup)
    (hbalanced : ∀ before opt after, options = before ++ opt :: after → ∀ state,
      exportOptions sscanf uninitialized (openLibs libs) before = .ok state →
        Balanced sscanf uninitialized state opt) :
    ∀ opt ∈ options, opt.type ≠ .file ∧ opt.type ≠ .null := by
  induction options using List.reverseRecOn with
  | nil => exact fun opt hopt => absurd hopt List.not_mem_nil
  | append_singleton options opt ih =>
    have hacceptBefore : Accepted options := fun o ho => haccept o (List.mem_append_left _ ho)
    have hnameBefore : (options.map Opt.name).Nodup := by
      rw [List.map_append] at hname
      exact (List.nodup_append.mp hname).1
    have hbefore := ih hacceptBefore hnameBefore fun before o after hsplit =>
      hbalanced before o (after ++ [opt]) (by rw [hsplit, List.append_assoc, List.cons_append])
    obtain ⟨state, hstate, -⟩ := exportOptions_of_types sscanf uninitialized
      (openLibs libs) hacceptBefore hnameBefore hbefore
    have hopt := (balanced_iff state (haccept opt (by simp))).mp
      (hbalanced options opt [] rfl state hstate)
    intro o ho
    rcases List.mem_append.mp ho with ho | ho
    · exact hbefore o ho
    · rwa [List.mem_singleton.mp ho]

end Loop

/-- The export is faithful exactly for options that have a value in the interpreter. -/
theorem exportFaithful_iff (sscanf : CString → Option Double) (uninitialized : Double)
    (libs : CString → LuaValue) {options : List Opt} (hbuilt : Built options)
    (haccept : Accepted options) :
    ExportFaithful sscanf uninitialized libs options ↔ ∀ opt ∈ options, Exportable opt := by
  have hname := hbuilt.nodup_name
  constructor
  · rintro ⟨hbalanced, final, hfinal, hvalues⟩ opt hopt
    have htypes := types_of_balanced haccept hname hbalanced
    obtain ⟨final', hfinal', -, -, hown⟩ := exportOptions_of_types sscanf uninitialized
      (openLibs libs) haccept hname htypes
    rw [hfinal] at hfinal'
    cases hfinal'
    exact ⟨(htypes opt hopt).1, (htypes opt hopt).2, (hown opt hopt).mp (hvalues opt hopt)⟩
  · intro hexport
    have htypes : ∀ opt ∈ options, opt.type ≠ .file ∧ opt.type ≠ .null :=
      fun opt hopt => ⟨(hexport opt hopt).1, (hexport opt hopt).2.1⟩
    obtain ⟨final, hfinal, -, -, hown⟩ := exportOptions_of_types sscanf uninitialized
      (openLibs libs) haccept hname htypes
    constructor
    · intro before opt after hsplit state _
      have hopt : opt ∈ options := by simp [hsplit]
      exact (balanced_iff state (haccept opt hopt)).mpr (htypes opt hopt)
    · exact ⟨final, hfinal, fun opt hopt => (hown opt hopt).mpr (hexport opt hopt).2.2⟩

/-- The options of a test as they are stored, of different types. -/
def testOptions : List Opt :=
  [⟨literal "num_threads", .int, [⟨literal "4", false⟩], false⟩,
    ⟨literal "validate", .flag, [], false⟩,
    ⟨literal "file_total_size", .size, [⟨literal "2G", false⟩], false⟩,
    ⟨literal "rand_spec_res", .float, [⟨literal "75", false⟩], false⟩,
    ⟨literal "db_driver", .string, [⟨literal "mysql", false⟩], false⟩,
    ⟨literal "mysql_host", .list, [⟨literal "localhost", false⟩], false⟩]

theorem built_testOptions : Built testOptions :=
  let fill (type : SbArgType) (values : List Value) (opt : Opt) : Opt := { opt with type, values }
  ((((((((((((Built.nil.add (literal "num-threads")).modify 0
    (fill .int [⟨literal "4", false⟩]) fun _ => rfl).add (literal "validate")).modify 1
    (fill .flag []) fun _ => rfl).add (literal "file-total-size")).modify 2
    (fill .size [⟨literal "2G", false⟩]) fun _ => rfl).add (literal "rand-spec-res")).modify 3
    (fill .float [⟨literal "75", false⟩]) fun _ => rfl).add (literal "db-driver")).modify 4
    (fill .string [⟨literal "mysql", false⟩]) fun _ => rfl).add (literal "mysql-host")).modify 5
    (fill .list [⟨literal "localhost", false⟩]) fun _ => rfl)

def configFile : Opt := ⟨literal "config_file", .file, [], false⟩

theorem exportFaithful_iff_test :
    ExportFaithful (fun _ => some (.finite 75)) .nan (fun _ => .nil) testOptions := by
  have haccept : Accepted testOptions := by
    intro opt hopt htype
    simp only [testOptions, List.mem_cons, List.not_mem_nil, or_false] at hopt
    rcases hopt with rfl | rfl | rfl | rfl | rfl | rfl
    case inl => exact ⟨4, by decide⟩
    all_goals cases htype
  refine (exportFaithful_iff (fun _ => some (.finite 75)) .nan (fun _ => .nil) built_testOptions
    haccept).mpr ?_
  intro opt hopt
  simp only [testOptions, List.mem_cons, List.not_mem_nil, or_false] at hopt
  rcases hopt with rfl | rfl | rfl | rfl | rfl | rfl
  case inr.inr.inl => exact ⟨nofun, nofun, fun _ => nearest_natCast (by decide)⟩
  all_goals exact ⟨nofun, nofun, nofun⟩

/-- The option for a configuration file takes the table of `luaopen_math` from the stack. -/
theorem not_exportFaithful_configFile : Built [configFile] ∧ Accepted [configFile] ∧
    ¬ ExportFaithful (fun _ => none) .nan (fun _ => .nil) [configFile] := by
  refine ⟨?_, fun opt hopt htype => ?_, fun h => ?_⟩
  · exact (Built.nil.add (literal "config-file")).modify 0
      (fun opt => { opt with type := .file }) fun _ => rfl
  · rw [List.mem_singleton.mp hopt] at htype
    cases htype
  · obtain ⟨pushed, popped, hpush, -, hlt, -⟩ := h.balanced [] configFile [] rfl _ rfl
    cases hpush
    exact lt_irrefl _ hlt

end Sysbench.Options
