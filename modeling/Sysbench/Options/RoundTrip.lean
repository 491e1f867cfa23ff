import Sysbench.Options.ConfigFile

/-! # Writing and reading a configuration

`write_config` puts a space between the name and the delimiter, and `read_config` takes the
name up to the delimiter, the space included. No name survives.
-/
namespace Sysbench.Options

open Bytes CStrings Keyed

/-- Reading the written text gives the same options with the same values. -/
def RoundTrip (options : List Opt) : Prop :=
  ∃ options', readConfig (writeConfig options).1 [] = (none, options') ∧
    List.Forall₂ (fun o o' => SameName o.name o'.name ∧
      o'.values.map Value.data = o.values.map Value.data) options options'

/-- An option whose name and values can be written and whose line can be read. -/
structure Writable (opt : Opt) : Prop where
  name : ∀ c ∈ opt.name.chars, Plain c ∧ c ≠ valueDelimiter
  values : ∀ val ∈ opt.values, val.data.chars ≠ [] ∧ newline ∉ val.data.chars
  line : opt.line.length < maxStrLen

section Write

variable {opt : Opt} {options : List Opt}

theorem mem_writeValues {vals : List Value} {c : Byte} (hc : c ∈ writeValues vals) :
    c = valueSeparator ∨ c = charByte ' ' ∨ ∃ val ∈ vals, c ∈ val.data.chars := by
  have htext : ∀ val : Value, c ∈ val.text → c ∈ val.data.chars := by
    intro val hmem
    unfold Value.text at hmem
    split at hmem
    · cases hmem
    · exact hmem
  induction vals with
  | nil => cases hc
  | cons val vals ih =>
    have hval : c ∈ val.text → ∃ v ∈ val :: vals, c ∈ v.data.chars := fun hmem =>
      ⟨val, List.mem_cons_self, htext val hmem⟩
    cases vals with
    | nil => exact Or.inr (Or.inr (hval hc))
    | cons val' vals =>
      rw [writeValues, List.append_assoc, List.mem_append, List.mem_append] at hc
      · rcases hc with hc | hc | hc
        · exact Or.inr (Or.inr (hval hc))
        · rcases List.mem_pair.mp hc with rfl | rfl
          · exact Or.inl rfl
          · exact Or.inr (Or.inl rfl)
        · rcases ih hc with hc | hc | ⟨v, hv, hc⟩
          · exact Or.inl hc
          · exact Or.inr (Or.inl hc)
          · exact Or.inr (Or.inr ⟨v, List.mem_cons_of_mem _ hv, hc⟩)
      · exact fun h => absurd h (List.cons_ne_nil _ _)

theorem Opt.line_eq (opt : Opt) : opt.line = (opt.name.chars ++ [charByte ' ']) ++
    valueDelimiter :: (charByte ' ' :: writeValues opt.values) := by
  simp [Opt.line]

/-- Besides the characters of its name and values a line has spaces and separators. -/
theorem mem_line {c : Byte} (hc : c ∈ opt.line) :
    c ∈ opt.name.chars ∨ c = charByte ' ' ∨ c = valueDelimiter ∨ c = valueSeparator ∨
      ∃ val ∈ opt.values, c ∈ val.data.chars := by
  rw [opt.line_eq, List.mem_append, List.mem_append, List.mem_singleton, List.mem_cons,
    List.mem_cons] at hc
  rcases hc with (hc | hc) | hc | hc | hc
  · exact Or.inl hc
  · exact Or.inr (Or.inl hc)
  · exact Or.inr (Or.inr (Or.inl hc))
  · exact Or.inr (Or.inl hc)
  · rcases mem_writeValues hc with hc | hc | hc
    · exact Or.inr (Or.inr (Or.inr (Or.inl hc)))
    · exact Or.inr (Or.inl hc)
    · exact Or.inr (Or.inr (Or.inr (Or.inr hc)))

theorem zero_not_mem_line (opt : Opt) : (0 : Byte) ∉ opt.line := by
  intro hmem
  rcases mem_line hmem with hc | hc | hc | hc | ⟨val, _, hc⟩
  · exact opt.name.noNul hc
  · exact absurd hc (by decide)
  · exact absurd hc (by decide)
  · exact absurd hc (by decide)
  · exact val.data.noNul hc

theorem Writable.newline_not_mem (hopt : Writable opt) : newline ∉ opt.line := by
  intro hmem
  rcases mem_line hmem with hc | hc | hc | hc | ⟨val, hval, hc⟩
  · exact absurd (hopt.name _ hc).1.1 (by decide)
  · exact absurd hc (by decide)
  · exact absurd hc (by decide)
  · exact absurd hc (by decide)
  · exact (hopt.values val hval).2 hc

/-- The text is the lines of the options that are not ignored. -/
theorem fileText_writeConfig (options : List Opt) :
    FileText ((options.filter fun opt => !opt.ignore).map Opt.line) (writeConfig options).1 := by
  induction options with
  | nil => exact .nil
  | cons opt options ih =>
    rw [writeConfig] at ih ⊢
    dsimp only at ih ⊢
    rw [List.flatMap_cons]
    cases hignore : opt.ignore with
    | true =>
      rw [List.filter_cons_of_neg (by simp [hignore])]
      exact ih
    | false =>
      rw [List.filter_cons_of_pos (by simp [hignore]), List.map_cons]
      simpa using FileText.line ih

end Write

section Read

variable {options : List Opt} {P : CString → Prop}

theorem map_name_modify (options : List Opt) (i : ℕ) {f : Opt → Opt}
    (hf : ∀ o, (f o).name = o.name) : (options.modify i f).map Opt.name = options.map Opt.name := by
  induction options generalizing i with
  | nil => rw [List.modify_nil]
  | cons o options ih =>
    cases i with
    | zero => rw [List.modify_zero_cons, List.map_cons, hf, List.map_cons]
    | succ i => rw [List.modify_succ_cons, List.map_cons, ih, List.map_cons]

/-- A line adds at most the name that it assigns to. -/
theorem assignLine_names {name : CString} {values : List CString}
    (hoptions : ∀ n ∈ options.map Opt.name, P n) (hname : P (convertDashes name)) :
    ∀ n ∈ (assignLine options name values).map Opt.name, P n := by
  rw [assignLine, map_name_modify]
  · rw [addOption]
    split
    · exact hoptions
    · rw [List.map_append, List.forall_mem_append]
      exact ⟨hoptions, fun n hn => (List.mem_singleton.mp hn) ▸ hname⟩
  · exact fun _ => rfl

/-- What each line keeps for all names, the whole file keeps. -/
theorem readLines_names {chunks : List (List Byte)}
    (hchunks : ∀ chunk ∈ chunks, ∀ options, (∀ n ∈ options.map Opt.name, P n) →
      ∀ n ∈ (readLine options (.ofBytes chunk)).2.map Opt.name, P n)
    (hoptions : ∀ n ∈ options.map Opt.name, P n) (nline : ℕ) :
    ∀ n ∈ (readLines options nline chunks).2.map Opt.name, P n := by
  induction chunks generalizing options nline with
  | nil => exact hoptions
  | cons chunk chunks ih =>
    have hfirst := hchunks chunk List.mem_cons_self options hoptions
    rw [readLines]
    cases hline : readLine options (.ofBytes chunk) with
    | mk ok options' =>
      rw [hline] at hfirst
      cases ok with
      | false => exact hfirst
      | true => exact ih (fun c hc => hchunks c (List.mem_cons_of_mem _ hc)) hfirst _

theorem Chunked.mem {ls chunks : List (List Byte)} (hchunks : Chunked ls chunks) :
    ∀ chunk ∈ chunks, chunk = [newline] ∨
      ∃ l ∈ ls, ∃ tail, LineEnd tail ∧ chunk = l ++ tail := by
  induction hchunks with
  | nil => exact fun chunk hc => absurd hc List.not_mem_nil
  | @whole l ls chunks _ ih =>
    intro chunk hc
    rcases List.mem_cons.mp hc with rfl | hc
    · exact Or.inr ⟨l, List.mem_cons_self, _, Or.inr rfl, rfl⟩
    · rcases ih chunk hc with hc | ⟨l', hl', hc⟩
      · exact Or.inl hc
      · exact Or.inr ⟨l', List.mem_cons_of_mem _ hl', hc⟩
  | @cut l ls chunks _ ih =>
    intro chunk hc
    rcases List.mem_cons.mp hc with hc | hc
    · exact Or.inr ⟨l, List.mem_cons_self, [], Or.inl rfl, by rw [hc, List.append_nil]⟩
    rcases List.mem_cons.mp hc with rfl | hc
    · exact Or.inl rfl
    · rcases ih chunk hc with hc | ⟨l', hl', hc⟩
      · exact Or.inl hc
      · exact Or.inr ⟨l', List.mem_cons_of_mem _ hl', hc⟩
  | @last l =>
    intro chunk hc
    rw [List.mem_singleton] at hc
    exact Or.inr ⟨l, List.mem_cons_self, [], Or.inl rfl, by rw [hc, List.append_nil]⟩

/-- The names read from written lines end with the space. -/
theorem readConfig_names (hoptions : ∀ opt ∈ options, Writable opt) :
    ∀ n ∈ (readConfig (writeConfig options).1 []).2.map Opt.name, charByte ' ' ∈ n.chars := by
  have hlines : ∀ l ∈ (options.filter fun opt => !opt.ignore).map Opt.line,
      ∃ opt, Writable opt ∧ opt.line = l := by
    intro l hl
    obtain ⟨opt, hopt, rfl⟩ := List.mem_map.mp hl
    exact ⟨opt, hoptions opt (List.mem_of_mem_filter hopt), rfl⟩
  have hchunked : Chunked ((options.filter fun opt => !opt.ignore).map Opt.line)
      (fgetsLines maxStrLen [] (writeConfig options).1) := by
    refine (fileText_writeConfig options).chunked (by decide) fun l hl => ?_
    obtain ⟨opt, hopt, rfl⟩ := hlines l hl
    exact ⟨hopt.newline_not_mem, hopt.line⟩
  refine readLines_names ?_ (fun n hn => absurd hn List.not_mem_nil) 0
  intro chunk hchunk options' hnames
  rcases hchunked.mem chunk hchunk with rfl | ⟨l, hl, tail, htail, rfl⟩
  · rw [readLine_skip _ (by decide)]
    exact hnames
  obtain ⟨opt, hopt, rfl⟩ := hlines l hl
  have hdelimiter : valueDelimiter ∉ opt.name.chars ++ [charByte ' '] := by
    intro hmem
    rcases List.mem_append.mp hmem with hmem | hmem
    · exact (hopt.name _ hmem).2 rfl
    · exact absurd (List.mem_singleton.mp hmem) (by decide)
  have hnul : (0 : Byte) ∉ opt.line ++ tail := by
    intro hmem
    rcases List.mem_append.mp hmem with hmem | hmem
    · exact zero_not_mem_line opt hmem
    · rcases htail with rfl | rfl
      · cases hmem
      · exact absurd (List.mem_singleton.mp hmem) (by decide)
  rw [opt.line_eq, List.append_assoc, List.cons_append] at hnul ⊢
  rw [readLine_eq _ hdelimiter hnul]
  refine assignLine_names hnames ?_
  have hname : (0 : Byte) ∉ opt.name.chars ++ [charByte ' '] := fun hmem =>
    hnul (List.mem_append_left _ hmem)
  rw [chars_convertDashes, CString.chars_ofBytes hname, List.map_append]
  exact List.mem_append_right _ List.mem_cons_self

end Read

/-- Names with and without a space are never the same. -/
theorem not_roundTrip {opt : Opt} {options : List Opt}
    (hoptions : ∀ o ∈ opt :: options, Writable o) : ¬ RoundTrip (opt :: options) := by
  rintro ⟨options', hread, hsame⟩
  have hnames := readConfig_names hoptions
  rw [hread] at hnames
  cases hsame with
  | @cons _ opt' _ rest hopt _ =>
    have hspace := hnames opt'.name List.mem_cons_self
    have hmem : convertDash (charByte ' ') ∈ opt'.name.chars.map convertDash :=
      List.mem_map_of_mem hspace
    rw [← sameName_iff.mp hopt.1] at hmem
    obtain ⟨c, hc, hconv⟩ := List.mem_map.mp hmem
    have hplain := ((hoptions opt List.mem_cons_self).name c hc).1.1
    rcases convertDash_eq_iff.mp hconv with rfl | hdash
    · exact absurd hplain (by decide)
    · exact hdash (Or.inr (by decide))

/-- Only the empty list survives writing and reading. -/
theorem roundTrip_iff {options : List Opt} (hoptions : ∀ opt ∈ options, Writable opt) :
    RoundTrip options ↔ options = [] := by
  cases options with
  | nil => exact iff_of_true ⟨[], rfl, .nil⟩ rfl
  | cons opt options => exact iff_of_false (not_roundTrip hoptions) (List.cons_ne_nil _ _)

def threadsOption : Opt where
  name := ⟨"threads".toList.map charByte, by decide⟩
  type := .int
  values := [⟨⟨[charByte '4'], by decide⟩, false⟩]
  ignore := false

theorem threadsOption_writable : ∀ opt ∈ [threadsOption], Writable opt := by
  intro opt hopt
  rw [List.mem_singleton] at hopt
  subst hopt
  exact ⟨by decide, by decide, by decide⟩

theorem roundTrip_iff_threads : RoundTrip [threadsOption] ↔ [threadsOption] = [] :=
  roundTrip_iff threadsOption_writable

theorem roundTrip_loses_name : ¬ RoundTrip [threadsOption] := not_roundTrip threadsOption_writable

end Sysbench.Options
