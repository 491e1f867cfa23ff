import Sysbench.Options.Settings

/-! # Command-line arguments

`parse_arguments` registers the general options and those of the tests, and then takes the
arguments from left to right. An option that is already in the list keeps the type that it
has there, and one that is not becomes a string.
-/
namespace Sysbench.Options

open Bytes CStrings Keyed

inductive SbCmd
  | null | prepare | run | help | cleanup | version
deriving DecidableEq

def literal (s : String) : CString := .ofBytes (s.toList.map charByte)

def parseCommand (cmd : CString) : SbCmd :=
  if cmd = literal "prepare" then .prepare
  else if cmd = literal "run" then .run
  else if cmd = literal "help" then .help
  else if cmd = literal "cleanup" then .cleanup
  else if cmd = literal "version" then .version
  else .null

structure SbArg where
  name : CString
  type : SbArgType
  value : Option CString

def configFileName : CString := literal "config-file"

def generalArgs : List SbArg :=
  [⟨literal "num-threads", .int, some (literal "1")⟩,
    ⟨literal "max-requests", .int, some (literal "10000")⟩,
    ⟨literal "max-time", .int, some (literal "0")⟩,
    ⟨literal "forced-shutdown", .string, some (literal "off")⟩,
    ⟨literal "thread-stack-size", .size, some (literal "64K")⟩,
    ⟨literal "tx-rate", .int, some (literal "0")⟩,
    ⟨literal "report-interval", .int, some (literal "0")⟩,
    ⟨literal "report-checkpoints", .list, some (literal "")⟩,
    ⟨literal "test", .string, none⟩,
    ⟨literal "debug", .flag, some (literal "off")⟩,
    ⟨literal "validate", .flag, some (literal "off")⟩,
    ⟨literal "help", .flag, none⟩,
    ⟨literal "version", .flag, some (literal "off")⟩,
    ⟨literal "rand-init", .flag, some (literal "off")⟩,
    ⟨literal "rand-type", .string, some (literal "special")⟩,
    ⟨literal "rand-spec-iter", .int, some (literal "12")⟩,
    ⟨literal "rand-spec-pct", .int, some (literal "1")⟩,
    ⟨literal "rand-spec-res", .int, some (literal "75")⟩,
    ⟨literal "rand-seed", .int, some (literal "0")⟩,
    ⟨literal "rand-pareto-h", .float, some (literal "0.2")⟩,
    ⟨configFileName, .file, none⟩]

inductive ArgError
  | option (e : OptionError)
  | multipleCommands
  | unknownCommand (arg : CString)
  /-- An option behind the command `help`. -/
  | help
deriving DecidableEq

/-- The text on `stderr` or `stdout`, where there is one. -/
def ArgError.message : ArgError → List Byte
  | .option e => e.message.toList.map charByte
  | .multipleCommands => "Multiple commands are not allowed.\n".toList.map charByte
  | .unknownCommand arg =>
    "Unknown command: ".toList.map charByte ++ arg.chars ++ ".\n".toList.map charByte
  | .help => []

section Code

variable (files : FileSystem)

def sbRegisterArgSet (options : List Opt) : List SbArg → Except OptionError Unit × List Opt
  | [] => (.ok (), options)
  | arg :: set =>
    match setOption files options arg.name arg.value arg.type with
    | (.error e, options) => (.error e, options)
    | (.ok (), options) => sbRegisterArgSet options set

/-- The options of the tests, up to the first test without any. -/
def registerTestArgs (options : List Opt) :
    List (Option (List SbArg)) → Except OptionError Unit × List Opt
  | [] => (.ok (), options)
  | none :: _ => (.ok (), options)
  | some args :: tests =>
    match sbRegisterArgSet files options args with
    | (.error e, options) => (.error e, options)
    | (.ok (), options) => registerTestArgs options tests

/-- `argv[i] + 2` up to the delimiter, and what stands behind it. -/
def splitArgument (arg : CString) : CString × Option CString :=
  let name := arg.chars.drop 2
  match name.dropWhile (· ≠ valueDelimiter) with
  | [] => (.ofBytes name, none)
  | _ :: value => (.ofBytes (name.takeWhile (· ≠ valueDelimiter)), some (.ofBytes value))

/-- The loop over the arguments, with `sb_globals.command` and the options it has reached. -/
def parseLoop (command : SbCmd) (options : List Opt) :
    List CString → Except ArgError Unit × SbCmd × List Opt
  | [] => (.ok (), command, options)
  | arg :: argv =>
    if arg.chars.take 2 ≠ (literal "--").chars then
      if command ≠ .null then (.error .multipleCommands, command, options)
      else if parseCommand arg = .null then (.error (.unknownCommand arg), .null, options)
      else parseLoop (parseCommand arg) options argv
    else
      let (name, value) := splitArgument arg
      if command = .help then (.error .help, command, options)
      else if command = .version then (.ok (), command, options)
      else
        let type := (findOption options name).elim .string Opt.type
        match setOption files options name value type with
        | (.error e, options) => (.error (.option e), command, options)
        | (.ok (), options) => parseLoop command options argv

/-- `tests` are the argument sets of the tests. The first argument is the name of the program. -/
def parseArguments (tests : List (Option (List SbArg))) (options : List Opt)
    (argv : List CString) : Except ArgError Unit × SbCmd × List Opt :=
  match sbRegisterArgSet files options generalArgs with
  | (.error e, options) => (.error (.option e), .null, options)
  | (.ok (), options) =>
    match registerTestArgs files options tests with
    | (.error e, options) => (.error (.option e), .null, options)
    | (.ok (), options) => parseLoop files .null options argv.tail

/-- The options that `main` has registered before: those of the log handlers and the drivers. -/
def startOptions (sets : List (List SbArg)) : List Opt :=
  sets.foldl (fun options set => (sbRegisterArgSet files options set).2) []

end Code

/-! ## Registered options -/

/-- An option with a value of its own type. Every one in the tables of the loggers, the drivers
and the tests is such an option. -/
structure PlainArg extends SbArg where
  typed : type ≠ .null ∧ type ≠ .file
  other : ¬ SameName name configFileName

/-- An option that is registered without reading a file. -/
def Registrable (arg : SbArg) : Prop := arg.type ≠ .null ∧ (arg.type = .file → arg.value = none)

instance : DecidablePred Registrable := fun arg => by unfold Registrable; infer_instance

/-- What registering leaves under the name. -/
def SbArg.result (arg : SbArg) : Opt :=
  ⟨convertDashes arg.name, arg.type, (valuesOf arg.type arg.value).map fun v => ⟨v, false⟩, false⟩

section Register

variable {files : FileSystem} {options : List Opt}

theorem setOption_fst {name : CString} {value : Option CString} {type : SbArgType} :
    (setOption files options name value type).1 =
      if type = .null ∧ ¬ (value = none ∨ value = some .empty) then .error (.unknownType .null)
      else .ok () := by
  unfold setOption
  dsimp only
  by_cases hvalue : value = none ∨ value = some .empty
  · cases type <;> simp [hvalue]
  · cases type <;> simp [hvalue]

variable (files)

/-- Storing an option in its stored form keeps the list as it should be. -/
theorem Stored.setOption (hstored : Stored options) {arg : SbArg} (harg : Registrable arg) :
    (Options.setOption files options arg.name arg.value arg.type).1 = .ok () ∧
      Stored (Options.setOption files options arg.name arg.value arg.type).2 ∧
      lookup Opt.key (Options.setOption files options arg.name arg.value arg.type).2 =
        Function.update (lookup Opt.key options) (convertDashes arg.name) (some arg.result) := by
  obtain ⟨hname, hignore⟩ := hstored.getD_newOption arg.name
  have hlookup : lookup Opt.key (Options.setOption files options arg.name arg.value arg.type).2 =
      Function.update (lookup Opt.key options) (convertDashes arg.name) (some arg.result) := by
    rw [lookup_setOption files options arg.name arg.value harg.2]
    dsimp only
    rw [hname, hignore]
    rfl
  refine ⟨?_, ⟨?_, ?_⟩, hlookup⟩
  · rw [setOption_fst, if_neg fun h => harg.1 h.1]
  · rw [setOption_snd files options arg.name arg.value harg.2, addOption_eq]
    exact unique_modify_locate hstored.unique (key_newOption arg.name) fun _ => rfl
  · intro n opt hopt
    rw [hlookup] at hopt
    by_cases hn : n = convertDashes arg.name
    · subst hn
      rw [Function.update_self] at hopt
      cases hopt
      exact ⟨rfl, rfl⟩
    · rw [Function.update_of_ne hn] at hopt
      exact hstored.name n opt hopt

theorem Stored.sbRegisterArgSet (hstored : Stored options) {set : List SbArg}
    (hset : ∀ arg ∈ set, Registrable arg) :
    (Options.sbRegisterArgSet files options set).1 = .ok () ∧
      Stored (Options.sbRegisterArgSet files options set).2 ∧
      lookup Opt.key (Options.sbRegisterArgSet files options set).2 =
        set.foldl (fun m arg => Function.update m (convertDashes arg.name) (some arg.result))
          (lookup Opt.key options) := by
  induction set generalizing options with
  | nil => exact ⟨rfl, hstored, rfl⟩
  | cons arg set ih =>
    obtain ⟨hok, hstored', hlookup⟩ :=
      hstored.setOption files (hset arg List.mem_cons_self)
    have hrest := ih hstored' fun a ha => hset a (List.mem_cons_of_mem _ ha)
    rw [hlookup] at hrest
    rw [Options.sbRegisterArgSet]
    cases hcall : Options.setOption files options arg.name arg.value arg.type with
    | mk res options' =>
      rw [hcall] at hok hrest
      obtain rfl : res = .ok () := hok
      exact hrest

theorem PlainArg.registrable (arg : PlainArg) : Registrable arg.toSbArg :=
  ⟨arg.typed.1, fun h => absurd h arg.typed.2⟩

theorem forall_registrable (set : List PlainArg) :
    ∀ arg ∈ set.map PlainArg.toSbArg, Registrable arg := by
  intro arg harg
  obtain ⟨plain, _, rfl⟩ := List.mem_map.mp harg
  exact plain.registrable

def configFileKey : CString := convertDashes configFileName

/-- `config-file` is in the list as an option that names a file. -/
def HasConfigFile (options : List Opt) : Prop :=
  ∃ opt, lookup Opt.key options configFileKey = some opt ∧ opt.type = .file

theorem Stored.registerPlain (hstored : Stored options) (set : List PlainArg) :
    (Options.sbRegisterArgSet files options (set.map PlainArg.toSbArg)).1 = .ok () ∧
      Stored (Options.sbRegisterArgSet files options (set.map PlainArg.toSbArg)).2 ∧
      lookup Opt.key (Options.sbRegisterArgSet files options (set.map PlainArg.toSbArg)).2
        configFileKey = lookup Opt.key options configFileKey := by
  obtain ⟨hok, hstored', hlookup⟩ :=
    hstored.sbRegisterArgSet files (forall_registrable set)
  refine ⟨hok, hstored', ?_⟩
  have hnone : ((set.map PlainArg.toSbArg).reverse.find?
      fun arg => convertDashes arg.name = configFileKey) = none := by
    rw [List.find?_eq_none]
    intro arg harg
    obtain ⟨plain, _, rfl⟩ := List.mem_map.mp (List.mem_reverse.mp harg)
    rw [decide_eq_true_eq]
    exact plain.other
  rw [hlookup, foldl_update (fun arg : SbArg => convertDashes arg.name) fun arg => some arg.result,
    hnone]
  rfl

theorem startOptions_stored (sets : List (List PlainArg)) :
    Stored (startOptions files (sets.map fun set => set.map PlainArg.toSbArg)) := by
  unfold startOptions
  rw [List.foldl_map]
  induction sets using List.reverseRecOn with
  | nil => exact Stored.nil
  | append_singleton sets set ih =>
    rw [List.foldl_concat]
    exact (ih.registerPlain files set).2.1

theorem Stored.registerGeneral (hstored : Stored options) :
    (Options.sbRegisterArgSet files options generalArgs).1 = .ok () ∧
      Stored (Options.sbRegisterArgSet files options generalArgs).2 ∧
      HasConfigFile (Options.sbRegisterArgSet files options generalArgs).2 := by
  have hall : ∀ arg ∈ generalArgs, Registrable arg := by
    intro arg harg
    fin_cases harg <;> decide
  obtain ⟨hok, hstored', hlookup⟩ := hstored.sbRegisterArgSet files hall
  refine ⟨hok, hstored', SbArg.result ⟨configFileName, .file, none⟩, ?_, rfl⟩
  rw [hlookup, foldl_update (fun arg : SbArg => convertDashes arg.name) fun arg => some arg.result]
  rfl

theorem Stored.registerTests (hstored : Stored options) (hfile : HasConfigFile options)
    (tests : List (Option (List PlainArg))) :
    (Options.registerTestArgs files options
        (tests.map (Option.map fun set => set.map PlainArg.toSbArg))).1 = .ok () ∧
      Stored (Options.registerTestArgs files options
        (tests.map (Option.map fun set => set.map PlainArg.toSbArg))).2 ∧
      HasConfigFile (Options.registerTestArgs files options
        (tests.map (Option.map fun set => set.map PlainArg.toSbArg))).2 := by
  induction tests generalizing options with
  | nil => exact ⟨rfl, hstored, hfile⟩
  | cons args tests ih =>
    cases args with
    | none => exact ⟨rfl, hstored, hfile⟩
    | some set =>
      obtain ⟨hok, hstored', hlookup⟩ := hstored.registerPlain files set
      have hfile' : HasConfigFile
          (Options.sbRegisterArgSet files options (set.map PlainArg.toSbArg)).2 := by
        rw [HasConfigFile, hlookup]
        exact hfile
      have hrest := ih hstored' hfile'
      rw [List.map_cons, Option.map_some, registerTestArgs]
      cases hcall : Options.sbRegisterArgSet files options (set.map PlainArg.toSbArg) with
      | mk res options' =>
        rw [hcall] at hok hrest
        obtain rfl : res = .ok () := hok
        exact hrest

end Register

end Sysbench.Options
