import Sysbench.Options.Getters

/-! # The command line and the configuration file

The same value is set by `set_option`, which looks at the type, and by a line of a file,
which is always read as a list. The getters tell the two apart unless the value looks the
same to both.
-/
namespace Sysbench.Options

open Bytes CStrings Words Keyed

/-- What the getter of a type returns. An `int` is missing where the process exits. -/
inductive Got (F : Type*)
  | nothing
  | flag (b : Bool)
  | int (n : Option ℤ)
  | size (n : ℕ)
  | float (x : F)
  | string (s : Option CString)
  | list (values : Option (List CString))

variable {F : Type*} (sscanf : CString → Option F) (zero uninitialized : F)

def sbGetValue (options : List Opt) (name : CString) : SbArgType → Got F
  | .flag => .flag (sbGetValueFlag options name)
  | .int => .int (sbGetValueInt options name).toOption
  | .size => .size (sbGetValueSize options name)
  | .float => .float (sbGetValueFloat sscanf zero uninitialized options name)
  | .string => .string (sbGetValueString options name)
  | .list => .list (sbGetValueList options name)
  | .null | .file => .nothing

def firstItem (v : CString) : CString := .ofBytes (v.chars.takeWhile (· ≠ valueSeparator))

/-- The last item that `read_config` finds. -/
def lastItem (v : CString) : CString := .ofBytes ((configItems v.chars).getLast?.getD [])

def scanned (item : CString) : F := (sscanf item).getD zero

/-- A value means the same on the command line and in a file. -/
def MeansSame (v : CString) : SbArgType → Prop
  | .flag => v = onText
  | .int => valueSeparator ∉ v.chars ∨ ¬ ValidInt (firstItem v).chars
  | .size => valueSeparator ∉ v.chars ∨
      ((∀ b ∈ (firstItem v).chars, isdigit b) → 2 ^ 64 ∣ decimal (firstItem v).chars)
  | .float => scanned sscanf zero (firstItem v) = scanned sscanf zero (lastItem v)
  | .string => valueSeparator ∉ v.chars
  | .list => ∀ item ∈ (v.chars.splitOn valueSeparator).dropLast, item ≠ []
  | .null | .file => True

/-- `sscanf` stops at a separator, which is no part of a number. -/
def StopsAtSeparator : Prop :=
  ∀ s p : CString, ∀ r, s.chars = p.chars ++ valueSeparator :: r → sscanf s = sscanf p

section Items

variable {v : CString}

theorem firstItem_eq_self (hv : valueSeparator ∉ v.chars) : firstItem v = v := by
  have hall : v.chars.takeWhile (· ≠ valueSeparator) = v.chars :=
    List.takeWhile_eq_self_iff.mpr fun b hb => decide_eq_true (ne_of_mem_of_not_mem hb hv)
  rw [firstItem, hall, CString.ofBytes_chars]

/-- A value with a separator is its first item, the separator and a rest. -/
theorem exists_firstItem (hv : valueSeparator ∈ v.chars) : ∃ r,
    v.chars = (firstItem v).chars ++ valueSeparator :: r ∧
      valueSeparator ∉ (firstItem v).chars := by
  obtain ⟨w, r, hsplit, hw⟩ := List.eq_append_cons_of_mem hv
  have hpass : ∀ b ∈ w, decide (b ≠ valueSeparator) = true := fun b hb =>
    decide_eq_true (ne_of_mem_of_not_mem hb hw)
  have hnul : (0 : Byte) ∉ w := fun hmem =>
    v.noNul (hsplit ▸ List.mem_append_left _ hmem)
  have hfirst : (firstItem v).chars = w := by
    have htake : (valueSeparator :: r).takeWhile (· ≠ valueSeparator) = [] := by simp
    rw [firstItem, hsplit, List.takeWhile_append_of_pos hpass, htake, List.append_nil,
      CString.chars_ofBytes hnul]
  rw [hfirst]
  exact ⟨r, hsplit, hw⟩

theorem configItems_eq (hne : v ≠ .empty) : ∃ items,
    (configItems v.chars).map CString.ofBytes = firstItem v :: items := by
  have hchars : v.chars ≠ [] := fun hnil => hne (CString.ext hnil)
  by_cases hv : valueSeparator ∈ v.chars
  · obtain ⟨r, hsplit, hw⟩ := exists_firstItem hv
    rw [hsplit, configItems_append hw, List.map_cons, CString.ofBytes_chars]
    exact ⟨_, rfl⟩
  · rw [configItems_singleton hchars hv, firstItem_eq_self hv, List.map_cons,
      CString.ofBytes_chars]
    exact ⟨[], rfl⟩

theorem getLast_configItems (hne : v ≠ .empty) :
    ((configItems v.chars).map CString.ofBytes).getLast? = some (lastItem v) := by
  obtain ⟨items, hitems⟩ := configItems_eq hne
  have hnil : configItems v.chars ≠ [] := by
    intro hnil
    rw [hnil] at hitems
    cases hitems
  rw [List.getLast?_map, lastItem, List.getLast?_eq_some_getLast hnil]
  rfl

theorem mem_of_mem_splitOn {s item : List Byte} {b : Byte} (hb : b ∈ item)
    (hitem : item ∈ s.splitOn valueSeparator) : b ∈ s := by
  induction s generalizing item with
  | nil =>
    rw [List.splitOn_nil, List.mem_singleton] at hitem
    rwa [hitem] at hb
  | cons c s ih =>
    rw [List.splitOn_cons_eq_if_modifyHead] at hitem
    split at hitem
    · rcases List.mem_cons.mp hitem with rfl | hitem
      · cases hb
      · exact List.mem_cons_of_mem c (ih hb hitem)
    · cases hsplit : s.splitOn valueSeparator with
      | nil =>
        rw [hsplit] at hitem
        cases hitem
      | cons first items =>
        rw [hsplit] at hitem
        rcases List.mem_cons.mp hitem with rfl | hitem
        · rcases List.mem_cons.mp hb with rfl | hb
          · exact List.mem_cons_self
          · exact List.mem_cons_of_mem c (ih hb (by rw [hsplit]; exact List.mem_cons_self))
        · exact List.mem_cons_of_mem c
            (ih hb (by rw [hsplit]; exact List.mem_cons_of_mem first hitem))

/-- The list items are those of `strtok` exactly if no item but the last one is empty. -/
theorem strtok_eq_iff (v : CString) :
    strtok v = (configItems v.chars).map CString.ofBytes ↔
      ∀ item ∈ (v.chars.splitOn valueSeparator).dropLast, item ≠ [] := by
  have hnul : ∀ item ∈ v.chars.splitOn valueSeparator, (0 : Byte) ∉ item := fun item hitem hzero =>
    v.noNul (mem_of_mem_splitOn hzero hitem)
  have hfilter : ∀ item ∈ (v.chars.splitOn valueSeparator).filter (· ≠ []), (0 : Byte) ∉ item :=
    fun item hitem => hnul item (List.mem_of_mem_filter hitem)
  have hconfig : ∀ item ∈ configItems v.chars, (0 : Byte) ∉ item := by
    intro item hitem
    unfold configItems at hitem
    dsimp only at hitem
    split at hitem
    · exact hnul item (List.dropLast_sublist _ |>.subset hitem)
    · exact hnul item hitem
  rw [strtok, CString.map_ofBytes_inj hfilter hconfig, configItems]
  obtain ⟨init, last, hsplit⟩ :=
    (List.eq_nil_or_concat (v.chars.splitOn valueSeparator)).resolve_left (List.splitOn_ne_nil _ _)
  rw [List.concat_eq_append] at hsplit
  rw [hsplit, List.dropLast_concat, List.getLast?_concat, List.filter_append]
  have hself : init.filter (fun item => decide (item ≠ [])) = init ↔ ∀ item ∈ init, item ≠ [] := by
    rw [List.filter_eq_self]
    simp
  rw [← hself]
  by_cases hlast : last = []
  · rw [if_pos (congrArg some hlast), hlast, List.filter_cons_of_neg (by simp), List.filter_nil,
      List.append_nil]
  · rw [if_neg fun h => hlast (Option.some.inj h), List.filter_cons_of_pos (by simpa using hlast),
      List.filter_nil, List.append_left_inj]

end Items

def Opt.withValues (opt : Opt) (values : List CString) : Opt :=
  { opt with values := values.map fun v => ⟨v, false⟩ }

section Sources

variable {files : FileSystem} {options : List Opt} {name v : CString} {opt : Opt}

theorem findOption_setOption (hopt : findOption options name = some opt)
    (htype : opt.type ≠ .file) :
    findOption (setOption files options name (some v) opt.type).2 name =
      some (opt.withValues (valuesOf opt.type (some v))) := by
  rw [findOption_eq, lookup_setOption files options name (some v) fun h => absurd h htype, hopt,
    Function.update_self]
  rfl

/-- A file of one line sets the items of its value. -/
theorem findOption_readConfig {text : List Byte} (hopt : findOption options name = some opt)
    (hplain : ∀ b ∈ v.chars, Plain b)
    (hname : valueDelimiter ∉ name.chars ∧ newline ∉ name.chars)
    (hlen : (name.chars ++ valueDelimiter :: v.chars).length < maxStrLen)
    (htext : FileText [name.chars ++ valueDelimiter :: v.chars] text) :
    findOption (readConfig text options).2 name =
      some (opt.withValues ((configItems v.chars).map CString.ofBytes)) := by
  have hnewline : newline ∉ name.chars ++ valueDelimiter :: v.chars := by
    intro hmem
    rcases List.mem_append.mp hmem with hmem | hmem
    · exact hname.2 hmem
    rcases List.mem_cons.mp hmem with heq | hmem
    · exact absurd heq (by decide)
    · exact absurd (hplain _ hmem).1 (by decide)
  have hchunked : Chunked [name.chars ++ valueDelimiter :: v.chars]
      (fgetsLines maxStrLen [] text) := by
    refine htext.chunked (by decide) fun l hl => ?_
    rw [List.mem_singleton] at hl
    subst hl
    exact ⟨hnewline, hlen⟩
  have hread := hchunked.readLines
    (fun options _ => assignLine options name ((configItems v.chars).map CString.ofBytes))
    (by
      intro l hl options tail htail
      rw [List.mem_singleton] at hl
      subst hl
      have hnul : (0 : Byte) ∉ name.chars ++ valueDelimiter :: (v.chars ++ tail) := by
        intro hmem
        rcases List.mem_append.mp hmem with hmem | hmem
        · exact name.noNul hmem
        rcases List.mem_cons.mp hmem with heq | hmem
        · exact absurd heq (by decide)
        rcases List.mem_append.mp hmem with hmem | hmem
        · exact v.noNul hmem
        · rcases htail with rfl | rfl
          · cases hmem
          · exact absurd (List.mem_singleton.mp hmem) (by decide)
      rw [List.append_assoc, List.cons_append, readLine_eq options hname.1 hnul,
        lineValues_plain hplain htail, CString.ofBytes_chars])
    options 0
  rw [readConfig, hread, List.foldl_cons, List.foldl_nil, findOption_eq, lookup_assignLine,
    Function.update_self, hopt]
  rfl

end Sources

/-- What the getters make of a list of values. -/
def gotOf (values : List CString) : SbArgType → Got F
  | .flag => .flag (values ≠ [])
  | .int =>
    match values with
    | [] => .int (some 0)
    | v :: _ => .int (if ValidInt v.chars then some (strtol v.chars).1 else none)
  | .size =>
    match values with
    | [] => .size 0
    | v :: _ => .size (sizeOf v.chars)
  | .float => .float (values.foldl (fun _ v => scanned sscanf zero v) uninitialized)
  | .string => .string values.head?
  | .list => .list (some values)
  | .null | .file => .nothing

section Getters

variable {options options' : List Opt} {name : CString} {opt : Opt} {v : CString}

theorem sbGetValue_eq {values : List CString}
    (hopt : findOption options name = some (opt.withValues values)) (type : SbArgType) :
    sbGetValue sscanf zero uninitialized options name type =
      gotOf sscanf zero uninitialized values type := by
  cases type with
  | null => rfl
  | file => rfl
  | flag =>
    rw [sbGetValue, sbGetValueFlag, hopt]
    simp [sbOptToFlag, Opt.withValues, gotOf]
  | int =>
    rw [sbGetValue, sbGetValueInt, hopt]
    cases values with
    | nil => rfl
    | cons v values =>
      simp only [Option.elim_some, sbOptToInt, Opt.withValues, List.map_cons, gotOf]
      by_cases hv : ValidInt v.chars
      · rw [if_neg (not_not_intro hv), if_pos hv]
        rfl
      · rw [if_pos hv, if_neg hv]
        rfl
  | size =>
    rw [sbGetValue, sbGetValueSize, hopt]
    cases values <;> rfl
  | float =>
    rw [sbGetValue, sbGetValueFloat, hopt]
    simp only [Option.elim_some, sbOptToFloat, Opt.withValues, List.foldl_map, scanned, gotOf]
  | string =>
    rw [sbGetValue, sbGetValueString, hopt]
    cases values <;> rfl
  | list =>
    rw [sbGetValue, sbGetValueList, hopt]
    simp [sbOptToList, Opt.withValues, gotOf, Function.comp_def]

end Getters

section Agreement

variable {v : CString}

theorem foldl_last {α β : Type*} (f : α → β) (init : β) {values : List α} {last : α}
    (hlast : values.getLast? = some last) : values.foldl (fun _ v => f v) init = f last := by
  obtain ⟨values, rfl⟩ := List.getLast?_eq_some_iff.mp hlast
  rw [List.foldl_concat]

/-- The values of the two sources look alike to the getter exactly under the condition. -/
theorem gotOf_eq_iff (hscan : StopsAtSeparator sscanf) (hne : v ≠ .empty) {type : SbArgType}
    (htype : type ≠ .null ∧ type ≠ .file) :
    gotOf sscanf zero uninitialized (valuesOf type (some v)) type =
        gotOf sscanf zero uninitialized ((configItems v.chars).map CString.ofBytes) type ↔
      MeansSame sscanf zero v type := by
  obtain ⟨items, hitems⟩ := configItems_eq hne
  have hguard : ¬ (type ≠ .flag ∧ (some v = none ∨ some v = some CString.empty)) := by
    rintro ⟨_, heq | heq⟩
    · cases heq
    · exact hne (Option.some.inj heq)
  unfold valuesOf
  rw [if_neg hguard]
  cases type with
  | null => exact absurd rfl htype.1
  | file => exact absurd rfl htype.2
  | flag =>
    rw [hitems]
    by_cases hon : v = onText <;> simp [gotOf, MeansSame, hon]
  | int =>
    rw [hitems]
    simp only [gotOf, MeansSame, Option.toList_some, Got.int.injEq]
    by_cases hv : valueSeparator ∈ v.chars
    · rw [if_neg (not_validInt_of_mem hv), or_iff_right (not_not_intro hv)]
      split
      · next h => simp [h]
      · next h => simp [h]
    · rw [firstItem_eq_self hv]
      exact iff_of_true rfl (Or.inl hv)
  | size =>
    rw [hitems]
    simp only [gotOf, MeansSame, Option.toList_some, Got.size.injEq]
    by_cases hv : valueSeparator ∈ v.chars
    · obtain ⟨r, hsplit, _⟩ := exists_firstItem hv
      rw [or_iff_right (not_not_intro hv), ← sizeOf_eq_iff (r := r), ← hsplit]
    · rw [firstItem_eq_self hv]
      exact iff_of_true rfl (Or.inl hv)
  | float =>
    simp only [gotOf, MeansSame, Option.toList_some, Got.float.injEq, List.foldl_cons,
      List.foldl_nil, foldl_last _ _ (getLast_configItems hne)]
    by_cases hv : valueSeparator ∈ v.chars
    · obtain ⟨r, hsplit, _⟩ := exists_firstItem hv
      rw [scanned, hscan v (firstItem v) r hsplit, ← scanned]
    · rw [firstItem_eq_self hv]
  | string =>
    rw [hitems]
    simp only [gotOf, MeansSame, Option.toList_some, Got.string.injEq, List.head?_cons,
      Option.some.injEq]
    constructor
    · intro heq hv
      obtain ⟨r, hsplit, hw⟩ := exists_firstItem hv
      rw [← heq] at hw
      exact hw hv
    · exact fun hv => (firstItem_eq_self hv).symm
  | list =>
    simp only [gotOf, MeansSame, Option.elim_some, Got.list.injEq, Option.some.injEq]
    exact strtok_eq_iff v

end Agreement

/-- The command line and a file agree on an option exactly if its value means the same to both. -/
theorem sources_agree_iff (files : FileSystem) {options : List Opt} {name v : CString} {opt : Opt}
    {text : List Byte} (hscan : StopsAtSeparator sscanf)
    (hopt : findOption options name = some opt) (htype : opt.type ≠ .null ∧ opt.type ≠ .file)
    (hne : v ≠ .empty) (hplain : ∀ b ∈ v.chars, Plain b)
    (hname : valueDelimiter ∉ name.chars ∧ newline ∉ name.chars)
    (hlen : (name.chars ++ valueDelimiter :: v.chars).length < maxStrLen)
    (htext : FileText [name.chars ++ valueDelimiter :: v.chars] text) :
    sbGetValue sscanf zero uninitialized (setOption files options name (some v) opt.type).2 name
          opt.type =
        sbGetValue sscanf zero uninitialized (readConfig text options).2 name opt.type ↔
      MeansSame sscanf zero v opt.type := by
  rw [sbGetValue_eq sscanf zero uninitialized (findOption_setOption hopt htype.2),
    sbGetValue_eq sscanf zero uninitialized
      (findOption_readConfig hopt hplain hname hlen htext)]
  exact gotOf_eq_iff sscanf zero uninitialized hscan hne htype

/-- `debug` as it is registered, and the value `off` for it. -/
def debugOption : Opt where
  name := ⟨"debug".toList.map charByte, by decide⟩
  type := .flag
  values := []
  ignore := false

def offText : CString := ⟨"off".toList.map charByte, by decide⟩

/-- Decimal digits at the start of a text. -/
def scanDigits (s : CString) : Option ℕ :=
  if s.chars.takeWhile isdigit = [] then none else some (decimal (s.chars.takeWhile isdigit))

theorem scanDigits_stops : StopsAtSeparator scanDigits := by
  intro s p r hs
  have hstop : (valueSeparator :: r).takeWhile isdigit = [] := List.takeWhile_cons_of_neg (by decide)
  have htake : s.chars.takeWhile isdigit = p.chars.takeWhile isdigit := by
    rw [hs, List.takeWhile_append, hstop]
    split
    · next hall =>
      have hself := (List.takeWhile_prefix (l := p.chars) isdigit).eq_of_length hall
      rw [List.append_nil, hself]
    · rfl
  rw [scanDigits, scanDigits, htake]

theorem debugOption_found : findOption [debugOption] debugOption.name = some debugOption := by
  decide

theorem debugOff_fileText : FileText [debugOption.name.chars ++ valueDelimiter :: offText.chars]
    ((debugOption.name.chars ++ valueDelimiter :: offText.chars) ++ newline :: []) :=
  .line .nil

theorem sources_agree_iff_debug :
    sbGetValue scanDigits 0 0
          (setOption (fun _ => none) [debugOption] debugOption.name (some offText) .flag).2
          debugOption.name .flag =
        sbGetValue scanDigits 0 0
          (readConfig ((debugOption.name.chars ++ valueDelimiter :: offText.chars) ++ newline :: [])
            [debugOption]).2 debugOption.name .flag ↔
      MeansSame scanDigits 0 offText .flag :=
  sources_agree_iff scanDigits 0 0 (fun _ => none) scanDigits_stops debugOption_found
    (by decide) (by decide) (by decide) (by decide) (by decide) debugOff_fileText

/-- `--debug=off` is off, and `debug=off` in a file is on. -/
theorem debugOff_differs :
    sbGetValueFlag
        (setOption (fun _ => none) [debugOption] debugOption.name (some offText) .flag).2
        debugOption.name = false ∧
      sbGetValueFlag
        (readConfig ((debugOption.name.chars ++ valueDelimiter :: offText.chars) ++ newline :: [])
          [debugOption]).2 debugOption.name = true := by
  have hfile := findOption_readConfig debugOption_found (show ∀ b ∈ offText.chars, Plain b by decide)
    (by decide) (by decide) debugOff_fileText
  refine ⟨by decide, ?_⟩
  obtain ⟨items, hitems⟩ := configItems_eq (v := offText) (by decide)
  rw [sbGetValueFlag, hfile, hitems]
  rfl

end Sysbench.Options
