import Sysbench.Options.Arguments
import Sysbench.Options.Getters

/-! # The order of settings

Defaults, arguments and the lines of configuration files assign to the same list. A name that
no table registers gets its type from its first assignment: a string on the command line, no
type at all in a file. An assignment on the command line keeps the type that it finds, and
without a type it fails.
-/
namespace Sysbench.Options

open Bytes CStrings Keyed

structure Assignment where
  name : CString
  value : CString
  fromFile : Bool

/-- An option on the command line, or a file there with the names and values of its lines. -/
inductive Setting
  | assign (name value : CString)
  | configFile (spelled filename : CString) (lines : List (CString × CString))

def optionText (name value : CString) : CString :=
  literal "--" ++ (name ++ (literal "=" ++ value))

def Setting.text : Setting → CString
  | assign name value => optionText name value
  | configFile spelled filename _ => optionText spelled filename

/-- The assignments of a setting in their order. -/
def Setting.assignments : Setting → List Assignment
  | assign name value => [⟨name, value, false⟩]
  | configFile _ _ lines => lines.map fun line => ⟨line.1, line.2, true⟩

def lineText (line : CString × CString) : List Byte :=
  line.1.chars ++ valueDelimiter :: line.2.chars

def assignedTypes : List SbArgType := [.int, .size, .float, .string]

section Valid

variable (files : FileSystem) (registered : List Opt)

/-- The name is registered under a type that takes one value, or it is not registered. -/
def Assignable (name : CString) : Prop :=
  ∀ opt, findOption registered name = some opt → opt.type ∈ assignedTypes

instance (name : CString) : Decidable (Assignable registered name) :=
  inferInstanceAs (Decidable (∀ opt ∈ findOption registered name, opt.type ∈ assignedTypes))

structure ValidAssignment (name value : CString) : Prop where
  delimiter : valueDelimiter ∉ name.chars
  assignable : Assignable registered name
  nonempty : value ≠ .empty

/-- The file can be read and is made of the lines, each of which fits into the buffer. -/
structure ValidFile (filename : CString) (lines : List (CString × CString)) : Prop where
  nonempty : filename ≠ .empty
  text : ∃ text, files filename = some text ∧ FileText (lines.map lineText) text
  line : ∀ line ∈ lines, ValidAssignment registered line.1 line.2 ∧
    (∀ b ∈ line.2.chars, Plain b ∧ b ≠ valueSeparator) ∧
    newline ∉ line.1.chars ∧ (lineText line).length < maxStrLen

def Setting.Valid : Setting → Prop
  | assign name value => ValidAssignment registered name value
  | configFile spelled filename lines =>
    SameName spelled configFileName ∧ ValidFile files registered filename lines

end Valid

def firstAt (assigned : List Assignment) (k : CString) : Option Assignment :=
  assigned.find? fun a => convertDashes a.name = k

def lastAt (assigned : List Assignment) (k : CString) : Option Assignment :=
  assigned.reverse.find? fun a => convertDashes a.name = k

/-- A command-line assignment to a name that is not registered finds that the first assignment to
this name, if there is one, was on the command line as well. -/
def NotIntroducedByFile (registered : List Opt) (assigned : List Assignment) (a : Assignment) :
    Prop :=
  a.fromFile = false → findOption registered a.name = none →
    ∀ first, firstAt assigned (convertDashes a.name) = some first → first.fromFile = false

/-- What the string getter should return after the assignments. -/
def expectedString (registered : List Opt) (assigned : List Assignment) (n : CString) :
    Option CString :=
  match lastAt assigned (convertDashes n) with
  | some a => some a.value
  | none => sbGetValueString registered n

section Search

variable {assigned : List Assignment} {a : Assignment} {k : CString}

theorem firstAt_snoc : firstAt (assigned ++ [a]) k =
    (firstAt assigned k).or (if convertDashes a.name = k then some a else none) := by
  rw [firstAt, List.find?_append, List.find?_singleton, firstAt]
  simp

theorem lastAt_snoc : lastAt (assigned ++ [a]) k =
    if convertDashes a.name = k then some a else lastAt assigned k := by
  rw [lastAt, List.reverse_append, List.reverse_singleton, List.singleton_append, List.find?_cons]
  by_cases ha : convertDashes a.name = k <;> simp [ha, lastAt]

theorem firstAt_eq_none_iff : firstAt assigned k = none ↔ lastAt assigned k = none := by
  simp [firstAt, lastAt, List.find?_eq_none]

theorem firstAt_of_lastAt (hlast : lastAt assigned k = some a) :
    ∃ first, firstAt assigned k = some first :=
  Option.ne_none_iff_exists'.mp
    fun hnone => Option.some_ne_none a (hlast.symm.trans (firstAt_eq_none_iff.mp hnone))

end Search

def typeAfter (registered : List Opt) (assigned : List Assignment) (k : CString) : SbArgType :=
  match lookup Opt.key registered k, firstAt assigned k with
  | some opt, _ => opt.type
  | none, some first => if first.fromFile then .null else .string
  | none, none => .null

/-- The list after the assignments: every name but `config-file` has its last value. -/
structure Tracks (registered : List Opt) (assigned : List Assignment) (options : List Opt) :
    Prop where
  value : ∀ k, k ≠ configFileKey → lookup Opt.key options k =
    match lastAt assigned k with
    | none => lookup Opt.key registered k
    | some a => some ⟨k, typeAfter registered assigned k, [⟨a.value, false⟩], false⟩
  configFile : HasConfigFile options

section Steps

variable {files : FileSystem} {registered options : List Opt} {assigned : List Assignment}
  {name value : CString}

theorem typeAfter_snoc_of_ne {a : Assignment} {k : CString} (hk : convertDashes a.name ≠ k) :
    typeAfter registered (assigned ++ [a]) k = typeAfter registered assigned k := by
  rw [typeAfter, typeAfter, firstAt_snoc, if_neg hk, Option.or_none]

/-- An assignment does not change the type of a name that was assigned before. -/
theorem typeAfter_snoc_of_lastAt {a b : Assignment} {k : CString}
    (hlast : lastAt assigned k = some b) :
    typeAfter registered (assigned ++ [a]) k = typeAfter registered assigned k := by
  obtain ⟨first, hfirst⟩ := firstAt_of_lastAt hlast
  rw [typeAfter, typeAfter, firstAt_snoc, hfirst, Option.some_or]

theorem typeAfter_of_first {a : Assignment}
    (hlast : lastAt assigned (convertDashes a.name) = none) :
    typeAfter registered (assigned ++ [a]) (convertDashes a.name) =
      (findOption registered a.name).elim (if a.fromFile then .null else .string) Opt.type := by
  rw [typeAfter, firstAt_snoc, firstAt_eq_none_iff.mpr hlast, if_pos rfl, Option.none_or,
    findOption_eq]
  cases lookup Opt.key registered (convertDashes a.name) <;> rfl

theorem not_sameName_of_assignable (hconfig : HasConfigFile registered)
    (hname : Assignable registered name) : ¬ SameName name configFileName := by
  intro hsame
  obtain ⟨opt, hopt, htype⟩ := hconfig
  have hfind : findOption registered name = some opt := by
    rw [findOption_eq, show convertDashes name = configFileKey from hsame, hopt]
  have hmem := hname opt hfind
  rw [htype] at hmem
  exact absurd hmem (by decide)

/-- What the list holds under a name before an assignment to it. -/
theorem Tracks.getD_newOption (htracks : Tracks registered assigned options)
    (hstored : Stored registered) (hname : ¬ SameName name configFileName) :
    ((findOption options name).getD (newOption name)).name = convertDashes name ∧
      ((findOption options name).getD (newOption name)).ignore = false := by
  rw [findOption_eq, htracks.value _ hname]
  cases lastAt assigned (convertDashes name) with
  | some a => exact ⟨rfl, rfl⟩
  | none =>
    cases hfind : lookup Opt.key registered (convertDashes name) with
    | none => exact ⟨rfl, rfl⟩
    | some opt => exact hstored.name _ _ hfind

theorem Tracks.update (htracks : Tracks registered assigned options) {options' : List Opt}
    {a : Assignment} (hname : ¬ SameName a.name configFileName)
    (hlookup : lookup Opt.key options' = Function.update (lookup Opt.key options)
      (convertDashes a.name) (some ⟨convertDashes a.name,
        typeAfter registered (assigned ++ [a]) (convertDashes a.name), [⟨a.value, false⟩],
          false⟩)) :
    Tracks registered (assigned ++ [a]) options' where
  value := by
    intro k hk
    rw [hlookup, lastAt_snoc]
    by_cases ha : convertDashes a.name = k
    · subst ha
      rw [Function.update_self, if_pos rfl]
    · rw [Function.update_of_ne (Ne.symm ha), htracks.value k hk, if_neg ha,
        typeAfter_snoc_of_ne ha]
  configFile := by
    have hne : configFileKey ≠ convertDashes a.name := fun h => hname h.symm
    rw [HasConfigFile, hlookup, Function.update_of_ne hne]
    exact htracks.configFile

theorem Tracks.assignLine (htracks : Tracks registered assigned options) (value : CString)
    (hstored : Stored registered) (hname : ¬ SameName name configFileName) :
    Tracks registered (assigned ++ [⟨name, value, true⟩])
      (Options.assignLine options name [value]) := by
  obtain ⟨hkey, hignore⟩ := htracks.getD_newOption hstored hname
  have htype : ((findOption options name).getD (newOption name)).type =
      typeAfter registered (assigned ++ [⟨name, value, true⟩]) (convertDashes name) := by
    rw [findOption_eq, htracks.value _ hname]
    cases hlast : lastAt assigned (convertDashes name) with
    | some a => rw [typeAfter_snoc_of_lastAt hlast]; rfl
    | none =>
      rw [typeAfter_of_first (a := ⟨name, value, true⟩) hlast, findOption_eq]
      cases lookup Opt.key registered (convertDashes name) <;> rfl
  apply htracks.update hname
  rw [lookup_assignLine]
  dsimp only
  rw [hkey, hignore, htype]
  rfl

/-- The type that the command line finds for a name that was assigned before. -/
theorem Tracks.type_of_lastAt (htracks : Tracks registered assigned options)
    (hname : ¬ SameName name configFileName) {a : Assignment}
    (hlast : lastAt assigned (convertDashes name) = some a) :
    (findOption options name).elim .string Opt.type =
      typeAfter registered assigned (convertDashes name) := by
  rw [findOption_eq, htracks.value _ hname, hlast]
  rfl

theorem Tracks.type_of_first (htracks : Tracks registered assigned options)
    (hname : ¬ SameName name configFileName) (hlast : lastAt assigned (convertDashes name) = none) :
    (findOption options name).elim .string Opt.type =
      (findOption registered name).elim .string Opt.type := by
  rw [findOption_eq, htracks.value _ hname, hlast, ← findOption_eq]

/-- Unless a file has introduced the name, the command line assigns under a type that takes one
value, and this type stays. -/
theorem Tracks.type_of_notIntroduced (htracks : Tracks registered assigned options)
    (hname : ¬ SameName name configFileName) (hassignable : Assignable registered name)
    (hgood : NotIntroducedByFile registered assigned ⟨name, value, false⟩) :
    (findOption options name).elim .string Opt.type =
        typeAfter registered (assigned ++ [⟨name, value, false⟩]) (convertDashes name) ∧
      (findOption options name).elim .string Opt.type ∈ assignedTypes := by
  cases hlast : lastAt assigned (convertDashes name) with
  | some a =>
    obtain ⟨first, hfirst⟩ := firstAt_of_lastAt hlast
    rw [htracks.type_of_lastAt hname hlast, typeAfter_snoc_of_lastAt hlast]
    refine ⟨rfl, ?_⟩
    rw [typeAfter, hfirst, ← findOption_eq]
    cases hfind : findOption registered name with
    | some opt => exact hassignable opt hfind
    | none =>
      dsimp only
      rw [hgood rfl hfind first hfirst]
      decide
  | none =>
    rw [htracks.type_of_first hname hlast, typeAfter_of_first (a := ⟨name, value, false⟩) hlast]
    refine ⟨rfl, ?_⟩
    cases hfind : findOption registered name with
    | some opt => exact hassignable opt hfind
    | none => decide

theorem Tracks.type_of_introduced (htracks : Tracks registered assigned options)
    (hname : ¬ SameName name configFileName)
    (hbad : ¬ NotIntroducedByFile registered assigned ⟨name, value, false⟩) :
    (findOption options name).elim .string Opt.type = .null := by
  unfold NotIntroducedByFile at hbad
  push Not at hbad
  obtain ⟨-, hfind, first, hfirst, hfile⟩ := hbad
  obtain ⟨a, hlast⟩ := Option.ne_none_iff_exists'.mp
    fun hnone => Option.some_ne_none first (hfirst.symm.trans (firstAt_eq_none_iff.mpr hnone))
  rw [findOption_eq] at hfind
  rw [htracks.type_of_lastAt hname hlast, typeAfter, hfind, hfirst]
  exact if_pos (Bool.not_eq_false _ ▸ hfile)

/-- An option on the command line under a type that takes one value. -/
theorem Tracks.assign (htracks : Tracks registered assigned options) (files : FileSystem)
    (hstored : Stored registered)
    (hname : ¬ SameName name configFileName) (hassignable : Assignable registered name)
    (hvalue : value ≠ .empty)
    (hgood : NotIntroducedByFile registered assigned ⟨name, value, false⟩) :
    ∃ options', setOption files options name (some value)
        ((findOption options name).elim .string Opt.type) = (.ok (), options') ∧
      Tracks registered (assigned ++ [⟨name, value, false⟩]) options' := by
  obtain ⟨htype, hmem⟩ := htracks.type_of_notIntroduced hname hassignable hgood
  obtain ⟨hkey, hignore⟩ := htracks.getD_newOption hstored hname
  rw [htype] at hmem ⊢
  generalize htype' : typeAfter registered (assigned ++ [⟨name, value, false⟩])
    (convertDashes name) = type at hmem
  have hcall : type ≠ .null ∧ type ≠ .file ∧ valuesOf type (some value) = [value] := by
    unfold assignedTypes at hmem
    fin_cases hmem <;> simp [valuesOf, hvalue]
  refine ⟨(setOption files options name (some value) type).2, ?_, htracks.update hname ?_⟩
  · have hok : (setOption files options name (some value) type).1 = .ok () := by
      rw [setOption_fst, if_neg fun h => hcall.1 h.1]
    exact Prod.ext hok rfl
  · rw [lookup_setOption files options name (some value) fun h => absurd h hcall.2.1, hcall.2.2]
    dsimp only
    rw [hkey, hignore, htype']
    rfl

theorem Tracks.assign_fails (htracks : Tracks registered assigned options) (files : FileSystem)
    (hname : ¬ SameName name configFileName) (hvalue : value ≠ .empty)
    (hbad : ¬ NotIntroducedByFile registered assigned ⟨name, value, false⟩) :
    (setOption files options name (some value)
      ((findOption options name).elim .string Opt.type)).1 = .error (.unknownType .null) := by
  rw [htracks.type_of_introduced hname hbad, setOption_fst, if_pos ⟨rfl, by simpa using hvalue⟩]

end Steps

/-! ## Files -/

section Files

variable {files : FileSystem} {registered options : List Opt} {assigned : List Assignment}

/-- A line is read alike with and without its newline. -/
theorem readLine_lineText {line : CString × CString} {tail : List Byte}
    (hline : valueDelimiter ∉ line.1.chars) (hnonempty : line.2 ≠ .empty)
    (hplain : ∀ b ∈ line.2.chars, Plain b ∧ b ≠ valueSeparator) (htail : LineEnd tail)
    (options : List Opt) : readLine options (.ofBytes (lineText line ++ tail)) =
      (true, assignLine options line.1 [line.2]) := by
  have hnul : (0 : Byte) ∉ line.1.chars ++ valueDelimiter :: (line.2.chars ++ tail) := by
    have htailNul : (0 : Byte) ∉ tail := by rcases htail with rfl | rfl <;> decide
    simp only [List.mem_append, List.mem_cons, not_or]
    exact ⟨line.1.noNul, by decide, line.2.noNul, htailNul⟩
  have hne : line.2.chars ≠ [] := fun h => hnonempty (CString.ext h)
  rw [lineText, List.append_assoc, List.cons_append, readLine_eq options hline hnul,
    lineValues_plain (fun b hb => (hplain b hb).1) htail,
    configItems_singleton hne fun hmem => (hplain _ hmem).2 rfl, List.map_singleton,
    CString.ofBytes_chars, CString.ofBytes_chars]

/-- A file is read as the assignments of its lines. -/
theorem readConfig_lines {text : List Byte} {lines : List (CString × CString)}
    (htext : FileText (lines.map lineText) text)
    (hline : ∀ line ∈ lines, ValidAssignment registered line.1 line.2 ∧
      (∀ b ∈ line.2.chars, Plain b ∧ b ≠ valueSeparator) ∧
      newline ∉ line.1.chars ∧ (lineText line).length < maxStrLen) (options : List Opt) :
    readConfig text options =
      (none, lines.foldl (fun options line => assignLine options line.1 [line.2]) options) := by
  have hread : ∀ line ∈ lines, ∀ options tail, LineEnd tail →
      readLine options (.ofBytes (lineText line ++ tail)) =
        (true, assignLine options line.1 [line.2]) := by
    intro line hmem options tail htail
    obtain ⟨hvalid, hplain, -⟩ := hline line hmem
    exact readLine_lineText hvalid.delimiter hvalid.nonempty hplain htail options
  have hchunked : Chunked (lines.map lineText) (fgetsLines maxStrLen [] text) := by
    refine htext.chunked (by decide) fun l hl => ?_
    obtain ⟨line, hmem, rfl⟩ := List.mem_map.mp hl
    obtain ⟨-, hplain, hnewline, hlen⟩ := hline line hmem
    have hvalue : newline ∉ line.2.chars := fun h => absurd (hplain _ h).1.1 (by decide)
    refine ⟨?_, hlen⟩
    rw [lineText, List.mem_append, List.mem_cons]
    exact not_or.mpr ⟨hnewline, not_or.mpr ⟨by decide, hvalue⟩⟩
  let step (options : List Opt) (l : List Byte) : List Opt := (readLine options (.ofBytes l)).2
  have hstep : ∀ line ∈ lines, ∀ options,
      step options (lineText line) = assignLine options line.1 [line.2] := by
    intro line hmem options
    have h := hread line hmem options [] (Or.inl rfl)
    rw [List.append_nil] at h
    exact congrArg Prod.snd h
  have hlines : readLines options 0 (fgetsLines maxStrLen [] text) =
      (none, (lines.map lineText).foldl step options) := by
    refine hchunked.readLines step (fun l hl options tail htail => ?_) options 0
    obtain ⟨line, hmem, rfl⟩ := List.mem_map.mp hl
    rw [hread line hmem options tail htail, hstep line hmem options]
  rw [readConfig, hlines, List.foldl_map]
  exact congrArg (Prod.mk none)
    (List.foldl_ext _ _ _ fun options line hmem => hstep line hmem options)

theorem Tracks.assignLines (htracks : Tracks registered assigned options)
    (hstored : Stored registered) {lines : List (CString × CString)}
    (hnames : ∀ line ∈ lines, ¬ SameName line.1 configFileName) :
    Tracks registered (assigned ++ lines.map fun line => ⟨line.1, line.2, true⟩)
      (lines.foldl (fun options line => Options.assignLine options line.1 [line.2]) options) := by
  induction lines generalizing assigned options with
  | nil =>
    rw [List.map_nil, List.append_nil]
    exact htracks
  | cons line lines ih =>
    have hfirst := htracks.assignLine line.2 hstored (hnames line List.mem_cons_self)
    have hrest := ih hfirst fun l hl => hnames l (List.mem_cons_of_mem _ hl)
    rw [List.append_assoc] at hrest
    exact hrest

/-- A file is read into the options that the call leaves without a value. -/
theorem setOption_file {name filename : CString} (hfilename : filename ≠ .empty) :
    setOption files options name (some filename) .file =
      (.ok (), readConfigFile files (setOption files options name none .file).2 filename) := by
  simp [setOption, hfilename]

theorem Tracks.emptyConfigFile (htracks : Tracks registered assigned options)
    (files : FileSystem) {spelled : CString} (hspelled : convertDashes spelled = configFileKey) :
    Tracks registered assigned (setOption files options spelled none .file).2 := by
  have hlookup := lookup_setOption files options spelled none fun _ : SbArgType.file = .file => rfl
  rw [hspelled] at hlookup
  refine ⟨fun k hk => ?_, ?_⟩
  · rw [hlookup, Function.update_of_ne hk, htracks.value k hk]
  · rw [HasConfigFile, hlookup, Function.update_self]
    exact ⟨_, rfl, rfl⟩

theorem Tracks.configFileOption (htracks : Tracks registered assigned options)
    (hstored : Stored registered) (hconfig : HasConfigFile registered)
    {spelled filename : CString} {lines : List (CString × CString)}
    (hspelled : SameName spelled configFileName)
    (hfile : ValidFile files registered filename lines) :
    ∃ options', setOption files options spelled (some filename)
        ((findOption options spelled).elim .string Opt.type) = (.ok (), options') ∧
      Tracks registered (assigned ++ lines.map fun line => ⟨line.1, line.2, true⟩) options' := by
  have hkey : convertDashes spelled = configFileKey := hspelled
  obtain ⟨opt, hopt, htype⟩ := htracks.configFile
  obtain ⟨text, hread, htext⟩ := hfile.text
  have hemptied := htracks.emptyConfigFile files hkey
  have hlines := hemptied.assignLines hstored fun line hmem =>
    not_sameName_of_assignable hconfig (hfile.line line hmem).1.assignable
  refine ⟨_, ?_, hlines⟩
  rw [findOption_eq, hkey, hopt, Option.elim_some, htype, setOption_file hfile.nonempty,
    readConfigFile, hread]
  dsimp only
  rw [readConfig_lines htext hfile.line]

end Files

/-! ## Command lines -/

/-- Each of the new assignments succeeds behind the ones before it. -/
def InOrder (registered : List Opt) (assigned new : List Assignment) : Prop :=
  ∀ earlier a later, new = earlier ++ a :: later →
    NotIntroducedByFile registered (assigned ++ earlier) a

section InOrder

variable {registered : List Opt} {assigned new new' : List Assignment} {a : Assignment}

theorem inOrder_nil : InOrder registered assigned [] := by
  intro earlier a later h
  exact absurd h.symm (List.append_ne_nil_of_right_ne_nil _ (List.cons_ne_nil _ _))

theorem inOrder_cons : InOrder registered assigned (a :: new) ↔
    NotIntroducedByFile registered assigned a ∧ InOrder registered (assigned ++ [a]) new := by
  constructor
  · intro h
    refine ⟨?_, fun earlier b later hnew => ?_⟩
    · have hfirst := h [] a new rfl
      rwa [List.append_nil] at hfirst
    · rw [List.append_assoc]
      exact h (a :: earlier) b later (by rw [hnew]; rfl)
  · rintro ⟨hfirst, hrest⟩ earlier b later hnew
    cases earlier with
    | nil =>
      obtain ⟨rfl, rfl⟩ := List.cons.inj hnew
      rwa [List.append_nil]
    | cons c earlier =>
      obtain ⟨rfl, rfl⟩ := List.cons.inj hnew
      rw [List.append_cons]
      exact hrest earlier b later rfl

theorem inOrder_append : InOrder registered assigned (new ++ new') ↔
    InOrder registered assigned new ∧ InOrder registered (assigned ++ new) new' := by
  induction new generalizing assigned with
  | nil =>
    rw [List.nil_append, List.append_nil]
    exact (and_iff_right inOrder_nil).symm
  | cons a new ih =>
    rw [List.cons_append, inOrder_cons, ih, inOrder_cons, and_assoc, ← List.append_cons]

theorem inOrder_lines (lines : List (CString × CString)) :
    InOrder registered assigned (lines.map fun line => ⟨line.1, line.2, true⟩) := by
  induction lines generalizing assigned with
  | nil => exact inOrder_nil
  | cons line lines ih =>
    rw [List.map_cons, inOrder_cons]
    exact ⟨nofun, ih⟩

end InOrder

section Parse

variable {files : FileSystem} {registered options : List Opt} {assigned : List Assignment}

theorem splitArgument_optionText {name value : CString} (hname : valueDelimiter ∉ name.chars) :
    splitArgument (optionText name value) = (name, some value) := by
  have hpass : ∀ b ∈ name.chars, decide (b ≠ valueDelimiter) = true := fun b hb =>
    decide_eq_true (ne_of_mem_of_not_mem hb hname)
  have htext : (optionText name value).chars.drop 2 =
      name.chars ++ valueDelimiter :: value.chars := rfl
  have hdrop : (valueDelimiter :: value.chars).dropWhile (· ≠ valueDelimiter) =
      valueDelimiter :: value.chars := by
    simp
  have htake : (valueDelimiter :: value.chars).takeWhile (· ≠ valueDelimiter) = [] := by
    simp
  unfold splitArgument
  dsimp only
  rw [htext, List.dropWhile_append_of_pos hpass, List.takeWhile_append_of_pos hpass, hdrop, htake,
    List.append_nil]
  dsimp only
  rw [CString.ofBytes_chars, CString.ofBytes_chars]

theorem parseLoop_option {command : SbCmd} (hcommand : command ≠ .help ∧ command ≠ .version)
    {name value : CString} (hname : valueDelimiter ∉ name.chars) (rest : List CString) :
    parseLoop files command options (optionText name value :: rest) =
      match setOption files options name (some value)
        ((findOption options name).elim .string Opt.type) with
      | (.error e, options) => (.error (.option e), command, options)
      | (.ok (), options) => parseLoop files command options rest := by
  have hdashes : ¬ (optionText name value).chars.take 2 ≠ (literal "--").chars := by
    rw [not_not]
    rfl
  rw [parseLoop, if_neg hdashes, splitArgument_optionText hname]
  dsimp only
  exact (if_neg hcommand.1).trans (if_neg hcommand.2)

theorem not_mem_of_sameName {spelled : CString} (hspelled : SameName spelled configFileName) :
    valueDelimiter ∉ spelled.chars := by
  intro hmem
  have hmap : valueDelimiter ∈ spelled.chars.map convertDash :=
    List.mem_map.mpr ⟨valueDelimiter, hmem, by decide⟩
  rw [sameName_iff.mp hspelled] at hmap
  exact absurd hmap (by decide)

/-- A setting whose assignments succeed leaves the rest of the arguments to be read. -/
theorem Tracks.parseSetting (htracks : Tracks registered assigned options)
    (hstored : Stored registered) (hconfig : HasConfigFile registered) {command : SbCmd}
    (hcommand : command ≠ .help ∧ command ≠ .version) {setting : Setting}
    (hvalid : setting.Valid files registered)
    (hgood : InOrder registered assigned setting.assignments) (rest : List CString) :
    ∃ options', parseLoop files command options (setting.text :: rest) =
        parseLoop files command options' rest ∧
      Tracks registered (assigned ++ setting.assignments) options' := by
  cases setting with
  | assign name value =>
    have hname := not_sameName_of_assignable hconfig hvalid.assignable
    obtain ⟨options', hcall, htracks'⟩ := htracks.assign files hstored hname
      hvalid.assignable hvalid.nonempty (inOrder_cons.mp hgood).1
    refine ⟨options', ?_, htracks'⟩
    rw [Setting.text, parseLoop_option hcommand hvalid.delimiter, hcall]
  | configFile spelled filename lines =>
    obtain ⟨hspelled, hfile⟩ := hvalid
    obtain ⟨options', hcall, htracks'⟩ :=
      htracks.configFileOption hstored hconfig hspelled hfile
    refine ⟨options', ?_, htracks'⟩
    rw [Setting.text, parseLoop_option hcommand (not_mem_of_sameName hspelled), hcall]

theorem Tracks.parseSetting_fails (htracks : Tracks registered assigned options)
    (hconfig : HasConfigFile registered) {command : SbCmd}
    (hcommand : command ≠ .help ∧ command ≠ .version) {setting : Setting}
    (hvalid : setting.Valid files registered)
    (hbad : ¬ InOrder registered assigned setting.assignments) (rest : List CString) :
    (parseLoop files command options (setting.text :: rest)).1 ≠ .ok () := by
  cases setting with
  | assign name value =>
    have hname := not_sameName_of_assignable hconfig hvalid.assignable
    have hassign : ¬ NotIntroducedByFile registered assigned ⟨name, value, false⟩ := fun h =>
      hbad (inOrder_cons.mpr ⟨h, inOrder_nil⟩)
    have hcall := htracks.assign_fails files hname hvalid.nonempty hassign
    rw [Setting.text, parseLoop_option hcommand hvalid.delimiter]
    cases hset : setOption files options name (some value)
      ((findOption options name).elim .string Opt.type) with
    | mk res options' =>
      rw [hset] at hcall
      obtain rfl : res = .error (.unknownType .null) := hcall
      exact nofun
  | configFile spelled filename lines => exact absurd (inOrder_lines lines) hbad

theorem Tracks.parseSettings (htracks : Tracks registered assigned options)
    (hstored : Stored registered) (hconfig : HasConfigFile registered) {command : SbCmd}
    (hcommand : command ≠ .help ∧ command ≠ .version) {settings : List Setting}
    (hvalid : ∀ s ∈ settings, s.Valid files registered)
    (hgood : InOrder registered assigned (settings.flatMap Setting.assignments))
    (rest : List CString) :
    ∃ options', parseLoop files command options (settings.map Setting.text ++ rest) =
        parseLoop files command options' rest ∧
      Tracks registered (assigned ++ settings.flatMap Setting.assignments) options' := by
  induction settings generalizing assigned options with
  | nil => exact ⟨options, rfl, by rwa [List.flatMap_nil, List.append_nil]⟩
  | cons setting settings ih =>
    rw [List.flatMap_cons, inOrder_append] at hgood
    obtain ⟨options₁, hfirst, htracks₁⟩ := htracks.parseSetting hstored hconfig hcommand
      (hvalid setting List.mem_cons_self) hgood.1 (settings.map Setting.text ++ rest)
    obtain ⟨options₂, hrest, htracks₂⟩ := ih htracks₁
      (fun s hs => hvalid s (List.mem_cons_of_mem _ hs)) hgood.2
    refine ⟨options₂, hfirst.trans hrest, ?_⟩
    rwa [List.flatMap_cons, ← List.append_assoc]

theorem Tracks.parseSettings_fails (htracks : Tracks registered assigned options)
    (hstored : Stored registered) (hconfig : HasConfigFile registered) {command : SbCmd}
    (hcommand : command ≠ .help ∧ command ≠ .version) {settings : List Setting}
    (hvalid : ∀ s ∈ settings, s.Valid files registered)
    (hbad : ¬ InOrder registered assigned (settings.flatMap Setting.assignments))
    (rest : List CString) :
    (parseLoop files command options (settings.map Setting.text ++ rest)).1 ≠ .ok () := by
  induction settings generalizing assigned options with
  | nil => exact absurd inOrder_nil hbad
  | cons setting settings ih =>
    rw [List.flatMap_cons, inOrder_append, not_and_or] at hbad
    have hfirst := hvalid setting List.mem_cons_self
    by_cases hgood : InOrder registered assigned setting.assignments
    · obtain ⟨options₁, hstep, htracks₁⟩ := htracks.parseSetting hstored hconfig hcommand hfirst
        hgood (settings.map Setting.text ++ rest)
      rw [List.map_cons, List.cons_append, hstep]
      exact ih htracks₁ (fun s hs => hvalid s (List.mem_cons_of_mem _ hs))
        (hbad.resolve_left (not_not.mpr hgood))
    · exact htracks.parseSetting_fails hconfig hcommand hfirst hgood _

end Parse

/-! ## Whole runs -/

theorem Tracks.nil {registered : List Opt} (hconfig : HasConfigFile registered) :
    Tracks registered [] registered :=
  ⟨fun _ _ => rfl, hconfig⟩

theorem Tracks.getValueString {registered options : List Opt} {assigned : List Assignment}
    (htracks : Tracks registered assigned options) {n : CString}
    (hn : ¬ SameName n configFileName) :
    sbGetValueString options n = expectedString registered assigned n := by
  rw [sbGetValueString, findOption_eq, htracks.value _ hn, expectedString]
  cases lastAt assigned (convertDashes n) with
  | some a => rfl
  | none => rw [sbGetValueString, findOption_eq]

section Run

variable (files : FileSystem) (sets : List (List PlainArg)) (tests : List (Option (List PlainArg)))

/-- `parse_arguments` after the registrations of `main`. -/
def parseMain (argv : List CString) : Except ArgError Unit × SbCmd × List Opt :=
  parseArguments files (tests.map (Option.map fun set => set.map PlainArg.toSbArg))
    (startOptions files (sets.map fun set => set.map PlainArg.toSbArg)) argv

def registeredOptions : List Opt :=
  (registerTestArgs files
    (sbRegisterArgSet files (startOptions files (sets.map fun set => set.map PlainArg.toSbArg))
      generalArgs).2
    (tests.map (Option.map fun set => set.map PlainArg.toSbArg))).2

theorem registeredOptions_stored : Stored (registeredOptions files sets tests) ∧
    HasConfigFile (registeredOptions files sets tests) := by
  obtain ⟨-, hgeneral, hconfig⟩ := (startOptions_stored files sets).registerGeneral files
  obtain ⟨-, htests⟩ := hgeneral.registerTests files hconfig tests
  exact htests

theorem parseMain_eq (prog : CString) (argv : List CString) :
    parseMain files sets tests (prog :: argv) =
      parseLoop files .null (registeredOptions files sets tests) argv := by
  obtain ⟨hok, hgeneral, hconfig⟩ := (startOptions_stored files sets).registerGeneral files
  obtain ⟨hoks, -⟩ := hgeneral.registerTests files hconfig tests
  unfold parseMain registeredOptions parseArguments
  generalize startOptions files (sets.map fun set => set.map PlainArg.toSbArg) = options at *
  cases hcall : sbRegisterArgSet files options generalArgs with
  | mk res options₁ =>
    rw [hcall] at hok hoks
    obtain rfl : res = .ok () := hok
    dsimp only at hoks ⊢
    generalize tests.map (Option.map fun set => set.map PlainArg.toSbArg) = sets at *
    cases hcalls : registerTestArgs files options₁ sets with
    | mk res options₂ =>
      rw [hcalls] at hoks
      obtain rfl : res = .ok () := hoks
      rfl

def testCommands : List CString := [literal "prepare", literal "run", literal "cleanup"]

theorem nullCommand : SbCmd.null ≠ .help ∧ SbCmd.null ≠ .version := ⟨nofun, nofun⟩

theorem parseLoop_command (options : List Opt) {cmd : CString} (hcmd : cmd ∈ testCommands)
    (rest : List CString) : ∃ command, (command ≠ .help ∧ command ≠ .version) ∧
      parseLoop files .null options (cmd :: rest) = parseLoop files command options rest := by
  unfold testCommands at hcmd
  refine ⟨parseCommand cmd, ?_, ?_⟩
  · fin_cases hcmd <;> decide
  · have hdashes : cmd.chars.take 2 ≠ (literal "--").chars := by fin_cases hcmd <;> decide
    have hknown : parseCommand cmd ≠ .null := by fin_cases hcmd <;> decide
    rw [parseLoop, if_pos hdashes, if_neg (not_not.mpr rfl), if_neg hknown]

variable {files sets tests} {cmd : CString} {before after : List Setting}

theorem parseMain_inOrder (prog : CString) (hcmd : cmd ∈ testCommands)
    (hvalid : ∀ s ∈ before ++ after, s.Valid files (registeredOptions files sets tests))
    (hgood : InOrder (registeredOptions files sets tests) []
      ((before ++ after).flatMap Setting.assignments)) :
    ∃ command options, parseMain files sets tests
        (prog :: before.map Setting.text ++ cmd :: after.map Setting.text) =
          (.ok (), command, options) ∧
      Tracks (registeredOptions files sets tests)
        ((before ++ after).flatMap Setting.assignments) options := by
  obtain ⟨hstored, hconfig⟩ := registeredOptions_stored files sets tests
  rw [List.flatMap_append, inOrder_append, List.nil_append] at hgood
  obtain ⟨options₁, hbefore, htracks₁⟩ := (Tracks.nil hconfig).parseSettings hstored hconfig
    nullCommand (fun s hs => hvalid s (List.mem_append_left _ hs)) hgood.1
    (cmd :: after.map Setting.text)
  obtain ⟨command, hother, hcommand⟩ :=
    parseLoop_command files options₁ hcmd (after.map Setting.text)
  obtain ⟨options₂, hafter, htracks₂⟩ := htracks₁.parseSettings hstored hconfig hother
    (fun s hs => hvalid s (List.mem_append_right _ hs)) hgood.2 []
  refine ⟨command, options₂, ?_, ?_⟩
  · rw [List.cons_append, parseMain_eq, hbefore, hcommand, ← List.append_nil (after.map _), hafter]
    rfl
  · rw [List.flatMap_append]
    exact htracks₂

theorem parseMain_not_inOrder (prog : CString) (hcmd : cmd ∈ testCommands)
    (hvalid : ∀ s ∈ before ++ after, s.Valid files (registeredOptions files sets tests))
    (hbad : ¬ InOrder (registeredOptions files sets tests) []
      ((before ++ after).flatMap Setting.assignments)) :
    (parseMain files sets tests
      (prog :: before.map Setting.text ++ cmd :: after.map Setting.text)).1 ≠ .ok () := by
  obtain ⟨hstored, hconfig⟩ := registeredOptions_stored files sets tests
  have hvalid₁ : ∀ s ∈ before, s.Valid files (registeredOptions files sets tests) := fun s hs =>
    hvalid s (List.mem_append_left _ hs)
  rw [List.cons_append, parseMain_eq]
  rw [List.flatMap_append, inOrder_append, List.nil_append, not_and_or] at hbad
  by_cases hgood : InOrder (registeredOptions files sets tests) []
      (before.flatMap Setting.assignments)
  · obtain ⟨options₁, hbefore, htracks₁⟩ := (Tracks.nil hconfig).parseSettings hstored hconfig
      nullCommand hvalid₁ hgood (cmd :: after.map Setting.text)
    obtain ⟨command, hother, hcommand⟩ :=
      parseLoop_command files options₁ hcmd (after.map Setting.text)
    rw [hbefore, hcommand, ← List.append_nil (after.map _)]
    exact htracks₁.parseSettings_fails hstored hconfig hother
      (fun s hs => hvalid s (List.mem_append_right _ hs))
      (hbad.resolve_left (not_not.mpr hgood)) []
  · exact (Tracks.nil hconfig).parseSettings_fails hstored hconfig nullCommand hvalid₁ hgood _

/-- Later settings win exactly if no option on the command line has a name that was brought in by a
file without being registered. -/
theorem later_settings_win_iff (prog : CString) (hcmd : cmd ∈ testCommands)
    (hvalid : ∀ s ∈ before ++ after, s.Valid files (registeredOptions files sets tests)) :
    let registered := registeredOptions files sets tests
    let assigned := (before ++ after).flatMap Setting.assignments
    let parsed := parseMain files sets tests
      (prog :: before.map Setting.text ++ cmd :: after.map Setting.text)
    (parsed.1 = .ok () ∧ ∀ n, ¬ SameName n configFileName →
        sbGetValueString parsed.2.2 n = expectedString registered assigned n) ↔
      ∀ earlier a later, assigned = earlier ++ a :: later →
        NotIntroducedByFile registered earlier a := by
  intro registered assigned parsed
  by_cases hgood : InOrder registered [] assigned
  · refine iff_of_true ?_ hgood
    obtain ⟨command, options, hparsed, htracks⟩ := parseMain_inOrder prog hcmd hvalid hgood
    rw [show parsed = (.ok (), command, options) from hparsed]
    exact ⟨rfl, fun n hn => htracks.getValueString hn⟩
  · exact iff_of_false (fun h => parseMain_not_inOrder prog hcmd hvalid hgood h.1) hgood

end Run

/-- A file system with one file, `sb.cnf`, that has one line. -/
def oneLine (line : CString × CString) : FileSystem := fun filename =>
  if filename = literal "sb.cnf" then some (lineText line ++ [newline]) else none

def threadsFile : FileSystem := oneLine (literal "num-threads", literal "4")

def fooFile : FileSystem := oneLine (literal "foo", literal "4")

/-- The file in front of the command and an assignment behind it. -/
theorem oneLine_valid {registered : List Opt} {name : CString}
    (hname : Assignable registered name) (hchars : valueDelimiter ∉ name.chars ∧
      newline ∉ name.chars ∧ (lineText (name, literal "4")).length < maxStrLen) :
    ∀ s ∈ [Setting.configFile configFileName (literal "sb.cnf") [(name, literal "4")]] ++
        [Setting.assign name (literal "8")],
      s.Valid (oneLine (name, literal "4")) registered := by
  have hvalue : literal "4" ≠ .empty ∧
      ∀ b ∈ (literal "4").chars, Plain b ∧ b ≠ valueSeparator := by
    decide
  intro s hs
  rcases List.mem_pair.mp hs with rfl | rfl
  · refine ⟨rfl, by decide, ⟨_, rfl, .line .nil⟩, fun line hline => ?_⟩
    obtain rfl := List.mem_singleton.mp hline
    exact ⟨⟨hchars.1, hname, hvalue.1⟩, hvalue.2, hchars.2⟩
  · exact ⟨hchars.1, hname, by decide⟩

theorem later_settings_win_threads :
    let parsed := parseMain threadsFile [] [] [literal "sysbench",
      optionText configFileName (literal "sb.cnf"), literal "run",
      optionText (literal "num-threads") (literal "8")]
    parsed.1 = .ok () ∧
      sbGetValueString parsed.2.2 (literal "num_threads") = some (literal "8") := by
  have hassignable : Assignable (registeredOptions threadsFile [] []) (literal "num-threads") := by
    decide
  have hfound :
      findOption (registeredOptions threadsFile [] []) (literal "num-threads") ≠ none := by
    decide
  have hgood : InOrder (registeredOptions threadsFile [] []) []
      [⟨literal "num-threads", literal "4", true⟩, ⟨literal "num-threads", literal "8", false⟩] :=
    inOrder_cons.mpr ⟨nofun, inOrder_cons.mpr ⟨fun _ h => absurd h hfound, inOrder_nil⟩⟩
  have hcmd : literal "run" ∈ testCommands := by decide
  have hwin := (later_settings_win_iff (literal "sysbench") hcmd
    (oneLine_valid hassignable (by decide))).mpr hgood
  refine ⟨hwin.1, (hwin.2 (literal "num_threads") (by decide)).trans ?_⟩
  rfl

/-- A name that only a file has introduced cannot be set on the command line. -/
theorem later_setting_fails :
    let settings := [.configFile configFileName (literal "sb.cnf") [(literal "foo", literal "4")],
      .assign (literal "foo") (literal "8")]
    (∀ s ∈ settings, s.Valid fooFile (registeredOptions fooFile [] [])) ∧
      (parseMain fooFile [] []
        (literal "sysbench" :: settings.map Setting.text ++ [literal "run"])).1 ≠ .ok () := by
  intro settings
  have hassignable : Assignable (registeredOptions fooFile [] []) (literal "foo") := by
    decide
  have hfound : findOption (registeredOptions fooFile [] []) (literal "foo") = none := by decide
  have hvalid : ∀ s ∈ settings, s.Valid fooFile (registeredOptions fooFile [] []) :=
    oneLine_valid hassignable (by decide)
  have hbad : ¬ InOrder (registeredOptions fooFile [] []) []
      [⟨literal "foo", literal "4", true⟩, ⟨literal "foo", literal "8", false⟩] := by
    intro hgood
    have hfirst := hgood [⟨literal "foo", literal "4", true⟩] ⟨literal "foo", literal "8", false⟩ []
      rfl rfl hfound ⟨literal "foo", literal "4", true⟩
    exact absurd (hfirst (by simp [firstAt])) (by decide)
  have hfails : (parseMain fooFile [] [] (literal "sysbench" :: settings.map Setting.text ++
      literal "run" :: ([] : List Setting).map Setting.text)).1 ≠ .ok () := by
    apply parseMain_not_inOrder (literal "sysbench") (by decide)
    · rw [List.append_nil]
      exact hvalid
    · rw [List.append_nil]
      exact hbad
  exact ⟨hvalid, hfails⟩

end Sysbench.Options
