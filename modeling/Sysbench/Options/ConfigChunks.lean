import Sysbench.Options.Scanner

/-! # Lines and chunks of a configuration file

`read_config` takes each chunk that `fgets` returns for a line, and looks for comments behind the
delimiter only. A reference takes each complete line once. The two are compared line by line.
-/
namespace Sysbench.Options

open Bytes CStrings Keyed

def linesFrom (line : List Byte) : List Byte → List (List Byte)
  | [] => if line = [] then [] else [line]
  | b :: text =>
    if b = newline then (line ++ [b]) :: linesFrom [] text else linesFrom (line ++ [b]) text

def completeLines (text : List Byte) : List (List Byte) := linesFrom [] text

/-- The first character of the line that is no blank begins a comment. -/
def IsComment (line : List Byte) : Prop := (line.dropWhile isspace).head? = some commentChar

instance : DecidablePred IsComment := fun line => by unfold IsComment; infer_instance

/-- What a text sets: the option named in front of the first delimiter, to the values behind it,
unless these have an open quote. -/
structure LineSetting where
  name : CString
  closed : Bool
  values : List CString
deriving DecidableEq

def settingOf (text : List Byte) : Option LineSetting :=
  match text.dropWhile (· ≠ valueDelimiter) with
  | [] => none
  | _ :: rest => some ⟨.ofBytes (text.takeWhile (· ≠ valueDelimiter)), (lineValues rest).1,
      (lineValues rest).2⟩

/-- The reference: a comment defines nothing, any other line what it sets. -/
def referenceLine (line : List Byte) : Option LineSetting :=
  if IsComment line then none else settingOf line

/-- Settings are made one after another, up to the first one with an open quote. -/
def makeSettings (options : List Opt) : List LineSetting → Bool × List Opt
  | [] => (true, options)
  | s :: ss =>
    let options := assignLine options s.name s.values
    if s.closed then makeSettings options ss else (false, options)

/-- The reference takes each complete line once. -/
def reference (text : List Byte) (options : List Opt) : Bool × List Opt :=
  makeSettings options ((completeLines text).filterMap referenceLine)

/-- `read_config` succeeds where the reference does, with the same options. -/
def SameMeaning (text : List Byte) (options : List Opt) : Prop :=
  ((readConfig text options).1.isNone, (readConfig text options).2) = reference text options

def settingsMade : List LineSetting → List LineSetting
  | [] => []
  | s :: ss => s :: if s.closed then settingsMade ss else []

/-- The lines up to the first one whose values have an open quote. -/
def linesRead : List (List Byte) → List (List Byte)
  | [] => []
  | line :: lines =>
    line :: if (referenceLine line).all LineSetting.closed then linesRead lines else []

/-- The settings of the chunks of a line. -/
def chunkSettings (line : List Byte) : List LineSetting :=
  (fgetsLines maxStrLen [] line).filterMap settingOf

/-- A line that its chunks do not change: nothing is set in it, or it is no comment, its name and
delimiter are in its first chunk, and

* what follows the chunk adds nothing to the values in it, and holds no delimiter unless the chunk
  ends in quotes, or
* the chunk does not end in quotes, and the later chunks that set something set the same option, at
  last to the values of the line. -/
inductive SafeLine (line : List Byte) : Prop
  | nothing (h : valueDelimiter ∉ line)
  | first {name rest behind : List Byte} (hname : valueDelimiter ∉ name)
      (hcomment : ¬ IsComment line) (hchunk : line.take (maxStrLen - 1) = name ++ valueDelimiter :: rest)
      (hbehind : line.drop (maxStrLen - 1) = behind) (hvalues : AddsNothing (placeAfter rest) behind)
      (hdelimiter : (∃ qc, placeAfter rest = .quoted qc) ∨ valueDelimiter ∉ behind)
  | again {name rest behind : List Byte} (hname : valueDelimiter ∉ name)
      (hcomment : ¬ IsComment line) (hchunk : line.take (maxStrLen - 1) = name ++ valueDelimiter :: rest)
      (hbehind : line.drop (maxStrLen - 1) = behind) (hclosed : ∀ qc, placeAfter rest ≠ .quoted qc)
      {before : List LineSetting} {last : LineSetting}
      (hlater : settingsMade (chunkSettings behind) = before ++ [last])
      (hsame : ∀ s ∈ before ++ [last], SameName s.name (.ofBytes name))
      (hlast : (last.closed, last.values) = lineValues (rest ++ behind))

/-! ## Settings -/

section Settings

variable {options : List Opt} {ss : List LineSetting} {s r : LineSetting}

def LineSetting.apply (options : List Opt) (s : LineSetting) : List Opt :=
  assignLine options s.name s.values

theorem makeSettings_append (options : List Opt) (ss ts : List LineSetting) :
    makeSettings options (ss ++ ts) =
      if (makeSettings options ss).1 then makeSettings (makeSettings options ss).2 ts
      else makeSettings options ss := by
  induction ss generalizing options with
  | nil => rfl
  | cons s ss ih =>
    rw [List.cons_append, makeSettings, makeSettings]
    cases s.closed with
    | false => rfl
    | true => exact ih _

/-- The last setting that is made decides about the result. -/
theorem makeSettings_cases (ss : List LineSetting) : ss = [] ∨ ∃ before last,
    settingsMade ss = before ++ [last] ∧ ∀ options,
      makeSettings options ss = (last.closed, (before ++ [last]).foldl LineSetting.apply options) := by
  induction ss with
  | nil => exact .inl rfl
  | cons s ss ih =>
    right
    unfold makeSettings
    rw [settingsMade]
    cases hclosed : s.closed with
    | false => exact ⟨[], s, rfl, fun options => by rw [hclosed]; rfl⟩
    | true =>
      rcases ih with rfl | ⟨before, last, hmade, hmake⟩
      · exact ⟨[], s, rfl, fun options => by rw [hclosed]; rfl⟩
      · refine ⟨s :: before, last, ?_, fun options => ?_⟩
        · rw [if_pos rfl, hmade, List.cons_append]
        · rw [if_pos rfl, hmake, List.cons_append, List.foldl_cons]
          rfl

/-- An option is found under its name up to dashes. -/
theorem assignLine_congr {n m : CString} (h : SameName n m) (options : List Opt)
    (values : List CString) : assignLine options n values = assignLine options m values := by
  have hnew : newOption n = newOption m := by rw [newOption, newOption, h]
  rw [assignLine, assignLine, addOption_eq, addOption_eq, hnew, h]

theorem assignLine_assignLine {n m : CString} (h : SameName n m) (options : List Opt)
    (values values' : List CString) :
    assignLine (assignLine options n values) m values' = assignLine options n values' := by
  rw [← assignLine_congr h]
  simp only [assignLine, addOption_eq]
  exact modify_locate_locate options (key_newOption n) (fun _ => rfl) fun _ => rfl

theorem foldl_apply_same (h : ∀ t ∈ ss ++ [s], SameName t.name r.name)
    (hvalues : s.values = r.values) (options : List Opt) :
    (ss ++ [s]).foldl LineSetting.apply options = r.apply options := by
  induction ss generalizing options with
  | nil =>
    rw [List.nil_append, List.foldl_cons, List.foldl_nil, LineSetting.apply, LineSetting.apply, hvalues]
    exact assignLine_congr (h s (by simp)) options r.values
  | cons t ss ih =>
    rw [List.cons_append, List.foldl_cons, ih fun u hu => h u (List.mem_cons_of_mem _ hu)]
    exact assignLine_assignLine (h t List.mem_cons_self) options t.values r.values |>.trans
      (assignLine_congr (h t List.mem_cons_self) options r.values)

theorem lookup_apply (options : List Opt) (s : LineSetting) : lookup Opt.key (s.apply options) =
    Function.update (lookup Opt.key options) (convertDashes s.name)
      (some { (findOption options s.name).getD (newOption s.name) with
        values := s.values.map fun v => ⟨v, false⟩ }) :=
  lookup_assignLine options s.name s.values

/-- What was set once stays an option. -/
theorem isSome_lookup_foldl {k : CString} (h : (lookup Opt.key options k).isSome ∨
      ∃ s ∈ ss, convertDashes s.name = k) :
    (lookup Opt.key (ss.foldl LineSetting.apply options) k).isSome := by
  induction ss generalizing options with
  | nil =>
    rcases h with h | ⟨s, hs, -⟩
    · exact h
    · cases hs
  | cons s ss ih =>
    rw [List.foldl_cons]
    apply ih
    rw [lookup_apply]
    by_cases hk : convertDashes s.name = k
    · left
      rw [hk, Function.update_self]
      rfl
    · rw [Function.update_of_ne (Ne.symm hk)]
      rcases h with h | ⟨t, ht, htk⟩
      · exact .inl h
      · rcases List.mem_cons.mp ht with rfl | ht
        · exact absurd htk hk
        · exact .inr ⟨t, ht, htk⟩

theorem makeSettings_eq_nil_iff : (∀ options, makeSettings options ss = (true, options)) ↔ ss = [] := by
  constructor
  · intro h
    rcases makeSettings_cases ss with hnil | ⟨before, last, -, hmake⟩
    · exact hnil
    · have hresult := congrArg Prod.snd ((hmake []).symm.trans (h []))
      have hfound := @isSome_lookup_foldl [] (before ++ [last]) _ (.inr ⟨last, by simp, rfl⟩)
      dsimp only at hresult
      rw [hresult] at hfound
      cases hfound
  · rintro rfl options
    rfl

/-- Settings are one setting exactly if all that are made are on its option and the last one gives
its values. -/
theorem makeSettings_eq_iff (r : LineSetting) :
    (∀ options, makeSettings options ss = (r.closed, r.apply options)) ↔
      ∃ before last, settingsMade ss = before ++ [last] ∧
        (∀ s ∈ before ++ [last], SameName s.name r.name) ∧
        last.closed = r.closed ∧ last.values = r.values := by
  rcases makeSettings_cases ss with rfl | ⟨before, last, hmade, hmake⟩
  · refine iff_of_false (fun h => ?_) ?_
    · have hresult : [] = r.apply [] := congrArg Prod.snd (h [])
      have hfound := @isSome_lookup_foldl [] [r] _ (.inr ⟨r, by simp, rfl⟩)
      rw [List.foldl_cons, List.foldl_nil, ← hresult] at hfound
      cases hfound
    · rintro ⟨before, last, hmade, -⟩
      exact List.append_ne_nil_of_right_ne_nil _ (List.cons_ne_nil _ _) hmade.symm
  constructor
  · intro h
    have hresult := (hmake []).symm.trans (h [])
    have hlist := congrArg Prod.snd hresult
    dsimp only at hlist
    have hlookup : ∀ k, (lookup Opt.key (r.apply []) k).isSome → k = convertDashes r.name := by
      intro k hk
      by_contra hne
      rw [lookup_apply, Function.update_of_ne hne] at hk
      cases hk
    refine ⟨before, last, hmade, fun s hs => ?_, congrArg Prod.fst hresult, ?_⟩
    · apply hlookup
      rw [← hlist]
      exact isSome_lookup_foldl (.inr ⟨s, hs, rfl⟩)
    · have hname : convertDashes last.name = convertDashes r.name := by
        apply hlookup
        rw [← hlist]
        exact isSome_lookup_foldl (.inr ⟨last, by simp, rfl⟩)
      have hvalues := congrArg (fun l => (lookup Opt.key l (convertDashes r.name)).map Opt.values) hlist
      rw [List.foldl_append, List.foldl_cons, List.foldl_nil, lookup_apply, lookup_apply, hname,
        Function.update_self, Function.update_self] at hvalues
      have hinj : Function.Injective fun v : CString => (⟨v, false⟩ : Value) :=
        fun _ _ heq => congrArg Value.data heq
      exact List.map_injective_iff.mpr hinj (Option.some.inj hvalues)
  · rintro ⟨before', last', hmade', hnames, hclosed, hvalues⟩ options
    obtain ⟨rfl, hlast⟩ := List.append_inj' (hmade.symm.trans hmade') rfl
    cases hlast
    rw [hmake, hclosed, foldl_apply_same hnames hvalues]

end Settings

/-! ## Chunks -/

section Chunks

variable {text name rest line : List Byte} {size : ℕ}

theorem settingOf_eq (hname : valueDelimiter ∉ name) (rest : List Byte) :
    settingOf (name ++ valueDelimiter :: rest) =
      some ⟨.ofBytes name, (lineValues rest).1, (lineValues rest).2⟩ := by
  have hpass : ∀ b ∈ name, decide (b ≠ valueDelimiter) = true := fun b hb =>
    decide_eq_true (ne_of_mem_of_not_mem hb hname)
  have hdrop : (name ++ valueDelimiter :: rest).dropWhile (· ≠ valueDelimiter) =
      valueDelimiter :: rest := by
    rw [List.dropWhile_append_of_pos hpass]
    simp
  have htake : (name ++ valueDelimiter :: rest).takeWhile (· ≠ valueDelimiter) = name := by
    rw [List.takeWhile_append_of_pos hpass]
    simp
  rw [settingOf, hdrop, htake]

theorem settingOf_eq_none_iff : settingOf text = none ↔ valueDelimiter ∉ text := by
  by_cases h : valueDelimiter ∈ text
  · obtain ⟨name, rest, rfl, hname⟩ := List.eq_append_cons_of_mem h
    rw [settingOf_eq hname]
    exact iff_of_false nofun (not_not.mpr h)
  · have hdrop : text.dropWhile (· ≠ valueDelimiter) = [] :=
      List.dropWhile_eq_nil_iff.mpr fun b hb => decide_eq_true (ne_of_mem_of_not_mem hb h)
    rw [settingOf, hdrop]
    exact iff_of_true rfl h

theorem delimiter_inj {name' rest' : List Byte} (hname : valueDelimiter ∉ name)
    (hname' : valueDelimiter ∉ name')
    (h : name ++ valueDelimiter :: rest = name' ++ valueDelimiter :: rest') :
    name = name' ∧ rest = rest' := by
  induction name generalizing name' with
  | nil =>
    cases name' with
    | nil => exact ⟨rfl, (List.cons.inj h).2⟩
    | cons b name' =>
      rw [List.nil_append, List.cons_append] at h
      exact absurd ((List.cons.inj h).1 ▸ List.mem_cons_self) hname'
  | cons b name ih =>
    rw [List.mem_cons, not_or] at hname
    cases name' with
    | nil =>
      rw [List.nil_append, List.cons_append] at h
      exact absurd (List.cons.inj h).1.symm hname.1
    | cons b' name' =>
      rw [List.cons_append, List.cons_append] at h
      obtain ⟨rfl, htail⟩ := List.cons.inj h
      obtain ⟨rfl, hrest⟩ := ih hname.2 (fun hmem => hname' (List.mem_cons_of_mem _ hmem)) htail
      exact ⟨rfl, hrest⟩

/-- The loop of `read_config` makes the settings of the chunks. -/
theorem readLines_eq (options : List Opt) (nline : ℕ) {bufs : List (List Byte)}
    (hbufs : ∀ buf ∈ bufs, (0 : Byte) ∉ buf) :
    ((readLines options nline bufs).1.isNone, (readLines options nline bufs).2) =
      makeSettings options (bufs.filterMap settingOf) := by
  induction bufs generalizing options nline with
  | nil => rfl
  | cons buf bufs ih =>
    have hbuf := hbufs buf List.mem_cons_self
    have hrest := fun options => ih options (nline + 1) fun b hb => hbufs b (List.mem_cons_of_mem _ hb)
    rw [List.filterMap_cons, readLines]
    by_cases h : valueDelimiter ∈ buf
    · obtain ⟨name, rest, rfl, hname⟩ := List.eq_append_cons_of_mem h
      rw [readLine_eq options hname hbuf, settingOf_eq hname]
      dsimp only
      rw [makeSettings]
      dsimp only
      cases (lineValues rest).1 with
      | false => rfl
      | true => exact hrest _
    · rw [settingOf_eq_none_iff.mpr h, readLine_skip options (by rwa [CString.chars_ofBytes hbuf])]
      exact hrest _

/-- `fgets` returns the first characters of a line, and then the rest. -/
theorem fgetsLines_cons (hnewline : newline ∉ text.dropLast) (hne : text ≠ []) {begun : List Byte}
    {k : ℕ} (hlen : begun.length + k = size - 1) (hk : 0 < k) :
    fgetsLines size begun text = (begun ++ text.take k) :: fgetsLines size [] (text.drop k) := by
  induction text generalizing begun k with
  | nil => exact absurd rfl hne
  | cons b text ih =>
    obtain ⟨k, rfl⟩ := Nat.exists_eq_add_of_lt hk
    rw [Nat.zero_add] at hlen ⊢
    rw [fgetsLines]
    rw [List.take_succ_cons, List.drop_succ_cons]
    by_cases hend : text = []
    · subst hend
      rw [List.take_nil, List.drop_nil]
      split
      · rfl
      · rw [fgetsLines, fgetsLines, if_neg (by simp), if_pos rfl]
    rw [List.dropLast_cons_of_ne_nil hend, List.mem_cons, not_or] at hnewline
    by_cases hfull : k = 0
    · subst hfull
      rw [if_pos (.inr (by rw [List.length_append, List.length_singleton]; omega)), List.take_zero,
        List.drop_zero]
    · have hmore : (begun ++ [b]).length ≠ size - 1 := by
        rw [List.length_append, List.length_singleton]
        omega
      have hlen' : (begun ++ [b]).length + k = size - 1 := by
        rw [List.length_append, List.length_singleton]
        omega
      rw [if_neg (not_or.mpr ⟨Ne.symm hnewline.1, hmore⟩),
        ih hnewline.2 hend hlen' (Nat.pos_of_ne_zero hfull), List.append_assoc,
        List.singleton_append]

theorem flatten_fgetsLines (size : ℕ) (begun text : List Byte) :
    (fgetsLines size begun text).flatten = begun ++ text := by
  induction text generalizing begun with
  | nil =>
    rw [fgetsLines, List.append_nil]
    split
    · rename_i hnil
      rw [hnil]
      rfl
    · simp
  | cons b text ih =>
    rw [fgetsLines]
    split
    · rw [List.flatten_cons, ih]
      simp
    · rw [ih]
      simp

theorem fgetsLines_newline (size : ℕ) (begun line text : List Byte) :
    fgetsLines size begun (line ++ newline :: text) =
      fgetsLines size begun (line ++ [newline]) ++ fgetsLines size [] text := by
  induction line generalizing begun with
  | nil =>
    rw [List.nil_append, List.nil_append, fgetsLines, fgetsLines]
    rw [if_pos (.inl rfl), if_pos (.inl rfl), fgetsLines, if_pos rfl]
    rfl
  | cons b line ih =>
    rw [List.cons_append, List.cons_append, fgetsLines, fgetsLines]
    split
    · rw [ih, List.cons_append]
    · rw [ih]

end Chunks

/-! ## Lines -/

/-- Complete lines. The last one may lack its newline. -/
inductive AreLines : List (List Byte) → Prop
  | nil : AreLines []
  | line {l : List Byte} {lines : List (List Byte)} (hl : newline ∉ l) (h : AreLines lines) :
    AreLines ((l ++ [newline]) :: lines)
  | last {l : List Byte} (hl : newline ∉ l) (hne : l ≠ []) : AreLines [l]

section Lines

variable {lines part : List (List Byte)} {line : List Byte}

theorem linesFrom_append {l : List Byte} (hl : newline ∉ l) (begun text : List Byte) :
    linesFrom begun (l ++ text) = linesFrom (begun ++ l) text := by
  induction l generalizing begun with
  | nil => rw [List.nil_append, List.append_nil]
  | cons b l ih =>
    rw [List.mem_cons, not_or] at hl
    rw [List.cons_append, linesFrom, if_neg (Ne.symm hl.1), ih hl.2, List.append_assoc,
      List.singleton_append]

theorem areLines_linesFrom {begun : List Byte} (hbegun : newline ∉ begun) (text : List Byte) :
    AreLines (linesFrom begun text) := by
  induction text generalizing begun with
  | nil =>
    rw [linesFrom]
    split
    · exact .nil
    · exact .last hbegun ‹_›
  | cons b text ih =>
    rw [linesFrom]
    split
    · rename_i hb
      rw [hb]
      exact .line hbegun (ih List.not_mem_nil)
    · rename_i hb
      apply ih
      rw [List.mem_append, not_or]
      exact ⟨hbegun, by simpa using Ne.symm hb⟩

theorem flatten_linesFrom (begun text : List Byte) :
    (linesFrom begun text).flatten = begun ++ text := by
  induction text generalizing begun with
  | nil =>
    rw [linesFrom, List.append_nil]
    split
    · rename_i hnil
      rw [hnil]
      rfl
    · simp
  | cons b text ih =>
    rw [linesFrom]
    split
    · rw [List.flatten_cons, ih]
      simp
    · rw [ih]
      simp

theorem completeLines_flatten (h : AreLines lines) : completeLines lines.flatten = lines := by
  unfold completeLines
  induction h with
  | nil => rfl
  | line hl _ ih =>
    rw [List.flatten_cons, List.append_assoc, linesFrom_append hl, List.nil_append,
      List.singleton_append, linesFrom, if_pos rfl, ih]
  | @last l hl hne =>
    rw [List.flatten_singleton, ← List.append_nil l, linesFrom_append hl, List.nil_append, linesFrom,
      if_neg hne, List.append_nil]

theorem AreLines.tail (h : AreLines (line :: lines)) : AreLines lines := by
  cases h with
  | line _ h => exact h
  | last => exact .nil

theorem AreLines.cons_of (h : AreLines (line :: lines)) (hpart : AreLines part)
    (hnil : lines = [] → part = []) : AreLines (line :: part) := by
  cases h with
  | line hl _ => exact .line hl hpart
  | last hl hne =>
    rw [hnil rfl]
    exact .last hl hne

theorem AreLines.of_append_left {rest : List (List Byte)} (h : AreLines (lines ++ rest)) :
    AreLines lines := by
  induction lines with
  | nil => exact .nil
  | cons line lines ih => exact h.cons_of (ih h.tail) fun hnil => (List.append_eq_nil_iff.mp hnil).1

theorem AreLines.of_append_right {before : List (List Byte)} (h : AreLines (before ++ lines)) :
    AreLines lines := by
  induction before with
  | nil => exact h
  | cons line before ih => exact ih h.tail

theorem AreLines.of_infix (h : AreLines lines) (hpart : part <:+: lines) : AreLines part := by
  obtain ⟨before, after, rfl⟩ := hpart
  exact (h.of_append_left).of_append_right

/-- Each line is returned in its own chunks. -/
theorem AreLines.fgetsLines (h : AreLines lines) (size : ℕ) :
    fgetsLines size [] lines.flatten = lines.flatMap (Options.fgetsLines size []) := by
  induction h with
  | nil => rfl
  | line _ _ ih =>
    rw [List.flatten_cons, List.flatMap_cons, List.append_assoc, List.singleton_append,
      fgetsLines_newline, ih]
  | last => simp

theorem AreLines.mem (h : AreLines lines) (hline : line ∈ lines) :
    newline ∉ line.dropLast ∧ line ≠ [] := by
  induction h with
  | nil => cases hline
  | line hl _ ih =>
    rcases List.mem_cons.mp hline with rfl | hline
    · rw [List.dropLast_concat]
      exact ⟨hl, by simp⟩
    · exact ih hline
  | last hl hne =>
    rw [List.mem_singleton.mp hline]
    exact ⟨fun hmem => hl (List.dropLast_subset _ hmem), hne⟩

end Lines

/-! ## One line -/

section Line

variable {line name rest behind text : List Byte} {s : LineSetting}

theorem chunkSettings_eq (hnewline : newline ∉ line.dropLast) (hne : line ≠ []) :
    chunkSettings line = (settingOf (line.take (maxStrLen - 1))).toList ++
      chunkSettings (line.drop (maxStrLen - 1)) := by
  have hchunks : fgetsLines maxStrLen [] line =
      ([] ++ line.take (maxStrLen - 1)) :: fgetsLines maxStrLen [] (line.drop (maxStrLen - 1)) :=
    fgetsLines_cons hnewline hne (Nat.zero_add _) (by decide)
  rw [chunkSettings, hchunks, List.nil_append, List.filterMap_cons, chunkSettings]
  cases settingOf (line.take (maxStrLen - 1)) <;> rfl

theorem chunkSettings_eq_nil_iff : chunkSettings text = [] ↔ valueDelimiter ∉ text := by
  have hflatten := flatten_fgetsLines maxStrLen [] text
  rw [List.nil_append] at hflatten
  rw [chunkSettings, List.filterMap_eq_nil_iff]
  simp only [settingOf_eq_none_iff]
  conv_rhs => rw [← hflatten]
  simp [List.mem_flatten]

/-- The name of a chunk leaves room for the delimiter. -/
theorem length_name_lt (hs : s ∈ chunkSettings text) : s.name.length < maxStrLen - 1 := by
  obtain ⟨chunk, hchunk, hsetting⟩ := List.mem_filterMap.mp hs
  have hlen := @length_fgetsLines maxStrLen [] (by decide) text (by decide) chunk hchunk
  have hmem : valueDelimiter ∈ chunk := by
    by_contra h
    rw [settingOf_eq_none_iff.mpr h] at hsetting
    cases hsetting
  obtain ⟨name, rest, rfl, hname⟩ := List.eq_append_cons_of_mem hmem
  rw [settingOf_eq hname] at hsetting
  cases hsetting
  have hle : (CString.ofBytes name).length ≤ name.length :=
    (List.takeWhile_sublist _).length_le
  rw [List.length_append, List.length_cons] at hlen
  dsimp only
  omega

theorem length_eq_of_sameName {a b : CString} (h : SameName a b) : a.length = b.length := by
  have hlen := congrArg List.length (sameName_iff.mp h)
  rwa [List.length_map, List.length_map] at hlen

theorem settingsMade_subset (ss : List LineSetting) : settingsMade ss ⊆ ss := by
  induction ss with
  | nil => exact List.Subset.refl _
  | cons s ss ih =>
    rw [settingsMade]
    apply List.cons_subset_cons
    split
    · exact ih
    · exact List.nil_subset _

theorem settingsMade_eq_nil_iff (ss : List LineSetting) : settingsMade ss = [] ↔ ss = [] := by
  cases ss with
  | nil => exact iff_of_true rfl rfl
  | cons s ss => exact iff_of_false (List.cons_ne_nil _ _) (List.cons_ne_nil _ _)

/-- The values have an open quote exactly if the text ends in quotes. -/
theorem lineValues_open_iff (u : List Byte) :
    (lineValues u).1 = false ↔ ∃ qc, placeAfter u = .quoted qc := by
  rw [lineValues_eq_scan, placeAfter]
  dsimp only [Scan.finish]
  cases (Scan.start.run u).place <;> simp

theorem makeSettings_singleton (options : List Opt) (r : LineSetting) :
    makeSettings options (some r).toList = (r.closed, r.apply options) := by
  rw [Option.toList_some, makeSettings]
  cases r.closed <;> rfl

theorem lineValues_closed_iff (u : List Byte) :
    (lineValues u).1 = true ↔ ∀ qc, placeAfter u ≠ .quoted qc := by
  rw [← Bool.not_eq_false, lineValues_open_iff, not_exists]

/-- What the chunks set up to a last setting that is the one of the whole line. -/
theorem safeLine_of_settings (hname : valueDelimiter ∉ name) (hcomment : ¬ IsComment line)
    (hchunk : line.take (maxStrLen - 1) = name ++ valueDelimiter :: rest)
    (hbehind : line.drop (maxStrLen - 1) = behind) (hrest0 : (0 : Byte) ∉ rest ++ behind)
    {before : List LineSetting} {last : LineSetting}
    (hmade : settingsMade (⟨.ofBytes name, (lineValues rest).1, (lineValues rest).2⟩ ::
      chunkSettings behind) = before ++ [last])
    (hsame : ∀ s ∈ before ++ [last], SameName s.name (.ofBytes name))
    (hlast : (last.closed, last.values) = lineValues (rest ++ behind)) : SafeLine line := by
  rw [settingsMade] at hmade
  dsimp only at hmade
  cases before with
  | nil =>
    rw [List.nil_append, List.cons.injEq] at hmade
    obtain ⟨rfl, hnone⟩ := hmade
    refine .first hname hcomment hchunk hbehind ((lineValues_append_iff hrest0).mp hlast.symm) ?_
    cases hfirst : (lineValues rest).1 with
    | false => exact .inl ((lineValues_open_iff rest).mp hfirst)
    | true =>
      rw [hfirst, if_pos rfl, settingsMade_eq_nil_iff, chunkSettings_eq_nil_iff] at hnone
      exact .inr hnone
  | cons t before =>
    rw [List.cons_append, List.cons.injEq] at hmade
    obtain ⟨rfl, hlater⟩ := hmade
    cases hfirst : (lineValues rest).1 with
    | false =>
      rw [hfirst, if_neg Bool.false_ne_true] at hlater
      exact absurd hlater.symm (List.append_ne_nil_of_right_ne_nil _ (List.cons_ne_nil _ _))
    | true =>
      rw [hfirst, if_pos rfl] at hlater
      exact .again hname hcomment hchunk hbehind ((lineValues_closed_iff rest).mp hfirst) hlater
        (fun s hs => hsame s (List.mem_cons_of_mem _ hs)) hlast

theorem SafeLine.settings (h : SafeLine line) (hname : valueDelimiter ∉ name)
    (hchunk : line.take (maxStrLen - 1) = name ++ valueDelimiter :: rest)
    (hbehind : line.drop (maxStrLen - 1) = behind) (hrest0 : (0 : Byte) ∉ rest ++ behind) :
    ∃ before last, settingsMade (⟨.ofBytes name, (lineValues rest).1, (lineValues rest).2⟩ ::
        chunkSettings behind) = before ++ [last] ∧
      (∀ s ∈ before ++ [last], SameName s.name (.ofBytes name)) ∧
      last.closed = (lineValues (rest ++ behind)).1 ∧
      last.values = (lineValues (rest ++ behind)).2 := by
  rw [settingsMade]
  dsimp only
  cases h with
  | nothing h =>
    have hmem : valueDelimiter ∈ line.take (maxStrLen - 1) := by
      rw [hchunk]
      exact List.mem_append_right _ List.mem_cons_self
    exact absurd (List.mem_of_mem_take hmem) h
  | @first name' rest' behind' hname' _ hchunk' hbehind' hvalues hrest =>
    obtain ⟨rfl, rfl⟩ := delimiter_inj hname hname' (hchunk.symm.trans hchunk')
    obtain rfl := hbehind.symm.trans hbehind'
    have hsame := (lineValues_append_iff hrest0).mpr hvalues
    refine ⟨[], ⟨.ofBytes name, (lineValues rest).1, (lineValues rest).2⟩, ?_, ?_, ?_⟩
    · rw [List.nil_append]
      congr 1
      rcases hrest with hquoted | hnone
      · rw [(lineValues_open_iff rest).mpr hquoted]
        rfl
      · rw [chunkSettings_eq_nil_iff.mpr hnone]
        exact ite_self _
    · intro s hs
      rw [List.mem_singleton.mp hs]
      rfl
    · rw [hsame]
      exact ⟨rfl, rfl⟩
  | @again name' rest' behind' hname' _ hchunk' hbehind' hopen before last hlater hsame hlast =>
    obtain ⟨rfl, rfl⟩ := delimiter_inj hname hname' (hchunk.symm.trans hchunk')
    obtain rfl := hbehind.symm.trans hbehind'
    refine ⟨⟨.ofBytes name, (lineValues rest).1, (lineValues rest).2⟩ :: before, last, ?_, ?_,
      congrArg Prod.fst hlast, congrArg Prod.snd hlast⟩
    · rw [if_pos ((lineValues_closed_iff rest).mpr hopen), hlater, List.cons_append]
    · intro s hs
      rcases List.mem_cons.mp hs with rfl | hs
      · rfl
      · exact hsame s hs

/-- A line that is no comment, with its delimiter in the first chunk. -/
theorem safeLine_first_iff (hnewline : newline ∉ line.dropLast) (hnul : (0 : Byte) ∉ line)
    (hname : valueDelimiter ∉ name) (hcomment : ¬ IsComment line)
    (hchunk : line.take (maxStrLen - 1) = name ++ valueDelimiter :: rest)
    (hbehind : line.drop (maxStrLen - 1) = behind) :
    (∀ options, makeSettings options (chunkSettings line) =
      makeSettings options (referenceLine line).toList) ↔ SafeLine line := by
  have hline : line = name ++ valueDelimiter :: (rest ++ behind) := by
    rw [← List.take_append_drop (maxStrLen - 1) line, hchunk, hbehind, List.append_assoc,
      List.cons_append]
  have hne : line ≠ [] := by
    rw [hline]
    exact List.append_ne_nil_of_right_ne_nil _ (List.cons_ne_nil _ _)
  have hrest0 : (0 : Byte) ∉ rest ++ behind := by
    rw [hline] at hnul
    exact fun h => hnul (List.mem_append_right _ (List.mem_cons_of_mem _ h))
  have hreference : referenceLine line = some ⟨.ofBytes name, (lineValues (rest ++ behind)).1,
      (lineValues (rest ++ behind)).2⟩ := by
    rw [referenceLine, if_neg hcomment, hline, settingOf_eq hname]
  have hsettings : chunkSettings line =
      ⟨.ofBytes name, (lineValues rest).1, (lineValues rest).2⟩ :: chunkSettings behind := by
    rw [chunkSettings_eq hnewline hne, hchunk, settingOf_eq hname, hbehind]
    rfl
  rw [hreference]
  simp only [makeSettings_singleton]
  refine (makeSettings_eq_iff ⟨.ofBytes name, (lineValues (rest ++ behind)).1,
    (lineValues (rest ++ behind)).2⟩).trans ?_
  rw [hsettings]
  constructor
  · rintro ⟨before, last, hmade, hsame, hclosed, hvalues⟩
    exact safeLine_of_settings hname hcomment hchunk hbehind hrest0 hmade hsame
      (Prod.ext hclosed hvalues)
  · intro hsafe
    exact hsafe.settings hname hchunk hbehind hrest0

/-- A name that leaves no room for the delimiter in the first chunk is lost. -/
theorem not_makeSettings_long (hnul : (0 : Byte) ∉ line)
    (hname : valueDelimiter ∉ name) (hline : line = name ++ valueDelimiter :: rest)
    (hcomment : ¬ IsComment line) (hlong : maxStrLen - 1 ≤ name.length) :
    ¬ ∀ options, makeSettings options (chunkSettings line) =
      makeSettings options (referenceLine line).toList := by
  intro h
  rw [referenceLine, if_neg hcomment, hline, settingOf_eq hname, ← hline] at h
  simp only [makeSettings_singleton] at h
  obtain ⟨before, last, hmade, hsame, -⟩ := (makeSettings_eq_iff ⟨.ofBytes name,
    (lineValues rest).1, (lineValues rest).2⟩).mp h
  have hmem : last ∈ settingsMade (chunkSettings line) := by
    rw [hmade]
    exact List.mem_append_right _ List.mem_cons_self
  have hlt := length_name_lt (settingsMade_subset _ hmem)
  have hlen := length_eq_of_sameName (hsame last (by simp))
  have hnul' : (0 : Byte) ∉ name := by
    rw [hline] at hnul
    exact fun h => hnul (List.mem_append_left _ h)
  have hbytes : (CString.ofBytes name).length = name.length := by
    rw [CString.length, CString.chars_ofBytes hnul']
  dsimp only at hlen
  omega

theorem not_safeLine_comment (hcomment : IsComment line) (hmem : valueDelimiter ∈ line) :
    ¬ SafeLine line := by
  intro hsafe
  cases hsafe with
  | nothing h => exact h hmem
  | first _ h => exact h hcomment
  | again _ h => exact h hcomment

/-- The chunks of a line set what the line sets exactly if the line is safe. -/
theorem safeLine_iff (hnewline : newline ∉ line.dropLast) (hnul : (0 : Byte) ∉ line) :
    (∀ options, makeSettings options (chunkSettings line) =
      makeSettings options (referenceLine line).toList) ↔ SafeLine line := by
  by_cases hmem : valueDelimiter ∈ line
  · obtain ⟨name, rest, hline, hname⟩ := List.eq_append_cons_of_mem hmem
    by_cases hcomment : IsComment line
    · refine iff_of_false (fun h => ?_) (not_safeLine_comment hcomment hmem)
      rw [referenceLine, if_pos hcomment] at h
      exact chunkSettings_eq_nil_iff.mp (makeSettings_eq_nil_iff.mp h) hmem
    by_cases hlen : name.length < maxStrLen - 1
    · have hchunk : line.take (maxStrLen - 1) =
          name ++ valueDelimiter :: rest.take (maxStrLen - 1 - name.length - 1) := by
        rw [hline, List.take_append, List.take_of_length_le hlen.le]
        obtain ⟨k, hk⟩ := Nat.exists_eq_add_of_lt hlen
        have hroom : maxStrLen - 1 - name.length = k + 1 := by omega
        rw [hroom, List.take_succ_cons, Nat.add_sub_cancel]
      exact safeLine_first_iff hnewline hnul hname hcomment hchunk rfl
    · refine iff_of_false
        (not_makeSettings_long hnul hname hline hcomment (not_lt.mp hlen)) fun hsafe => ?_
      have hnone : valueDelimiter ∉ line.take (maxStrLen - 1) := by
        rw [hline, List.take_append_of_le_length (not_lt.mp hlen)]
        exact fun h => hname (List.mem_of_mem_take h)
      cases hsafe with
      | nothing h => exact h hmem
      | first _ _ hchunk => exact hnone (hchunk ▸ List.mem_append_right _ List.mem_cons_self)
      | again _ _ hchunk => exact hnone (hchunk ▸ List.mem_append_right _ List.mem_cons_self)
  · refine iff_of_true (fun options => ?_) (.nothing hmem)
    rw [chunkSettings_eq_nil_iff.mpr hmem, referenceLine, settingOf_eq_none_iff.mpr hmem, ite_self]
    rfl

end Line

/-! ## All lines -/

section Files

variable {lines : List (List Byte)}

theorem linesRead_subset (lines : List (List Byte)) : linesRead lines ⊆ lines := by
  induction lines with
  | nil => exact List.Subset.refl _
  | cons line lines ih =>
    rw [linesRead]
    apply List.cons_subset_cons
    split
    · exact ih
    · exact List.nil_subset _

theorem sameMeaning_lines (h : AreLines lines) (hnul : (0 : Byte) ∉ lines.flatten)
    (options : List Opt) : SameMeaning lines.flatten options ↔
      makeSettings options (lines.flatMap chunkSettings) =
        makeSettings options (lines.filterMap referenceLine) := by
  have hbufs : ∀ buf ∈ fgetsLines maxStrLen [] lines.flatten, (0 : Byte) ∉ buf := by
    intro buf hbuf hmem
    have hflatten := flatten_fgetsLines maxStrLen [] lines.flatten
    rw [List.nil_append] at hflatten
    apply hnul
    rw [← hflatten]
    exact List.mem_flatten.mpr ⟨buf, hbuf, hmem⟩
  rw [SameMeaning, readConfig, readLines_eq options 0 hbufs, h.fgetsLines, List.filterMap_flatMap,
    reference, completeLines_flatten h]
  rfl

/-- Safe lines are read as the reference reads them. -/
theorem makeSettings_lines (hlines : ∀ line ∈ lines, newline ∉ line.dropLast ∧ (0 : Byte) ∉ line)
    (hsafe : ∀ line ∈ linesRead lines, SafeLine line) (options : List Opt) :
    makeSettings options (lines.flatMap chunkSettings) =
      makeSettings options (lines.filterMap referenceLine) := by
  induction lines generalizing options with
  | nil => rfl
  | cons line lines ih =>
    rw [linesRead, List.forall_mem_cons] at hsafe
    obtain ⟨hline, hrest⟩ := List.forall_mem_cons.mp hlines
    have hfirst := (safeLine_iff hline.1 hline.2).mpr hsafe.1 options
    have hreference : (line :: lines).filterMap referenceLine =
        (referenceLine line).toList ++ lines.filterMap referenceLine := by
      rw [List.filterMap_cons]
      cases referenceLine line <;> rfl
    rw [List.flatMap_cons, hreference, makeSettings_append, makeSettings_append, hfirst]
    split
    · rename_i hgoes
      apply ih hrest
      have hall : (referenceLine line).all LineSetting.closed = true := by
        cases hr : referenceLine line with
        | none => rfl
        | some r =>
          rw [hr, makeSettings_singleton] at hgoes
          exact hgoes
      rw [hall] at hsafe
      exact hsafe.2
    · rfl

theorem sameMeaning_line {line : List Byte} (h : AreLines [line]) (hnul : (0 : Byte) ∉ line) :
    (∀ options, SameMeaning line options) ↔ SafeLine line := by
  have hsingle : (0 : Byte) ∉ [line].flatten := by rwa [List.flatten_singleton]
  have hreference : [line].filterMap referenceLine = (referenceLine line).toList := by
    rw [List.filterMap_cons]
    cases referenceLine line <;> rfl
  have hlines := sameMeaning_lines h hsingle
  rw [List.flatten_singleton, List.flatMap_singleton, hreference] at hlines
  rw [← safeLine_iff (h.mem List.mem_cons_self).1 hnul]
  exact forall_congr' hlines

/-- What the lines of a file mean depends on their chunks in unsafe lines only. -/
theorem sameMeaning_iff (fp : CString) :
    ((∀ part, part <:+: completeLines fp.chars → ∀ options, SameMeaning part.flatten options) ↔
        ∀ line ∈ completeLines fp.chars, SafeLine line) ∧
      ((∀ line ∈ linesRead (completeLines fp.chars), SafeLine line) →
        ∀ options, SameMeaning fp.chars options) := by
  have hare : AreLines (completeLines fp.chars) := areLines_linesFrom List.not_mem_nil _
  have hwhole : (completeLines fp.chars).flatten = fp.chars := flatten_linesFrom [] _
  have hline : ∀ line ∈ completeLines fp.chars, newline ∉ line.dropLast ∧ (0 : Byte) ∉ line := by
    intro line hline
    refine ⟨(hare.mem hline).1, fun h => fp.noNul ?_⟩
    rw [← hwhole]
    exact List.mem_flatten.mpr ⟨line, hline, h⟩
  have hread : ∀ part, part <:+: completeLines fp.chars →
      (∀ line ∈ linesRead part, SafeLine line) → ∀ options, SameMeaning part.flatten options := by
    intro part hpart hsafe options
    have hpartLine := fun line hmem => hline line (hpart.subset hmem)
    refine (sameMeaning_lines (hare.of_infix hpart) (fun h => ?_) options).mpr
      (makeSettings_lines hpartLine hsafe options)
    obtain ⟨line, hmem, h⟩ := List.mem_flatten.mp h
    exact (hpartLine line hmem).2 h
  refine ⟨⟨fun h line hmem => ?_, fun h part hpart => ?_⟩, fun h => ?_⟩
  · have hone : [line] <:+: completeLines fp.chars := by
      obtain ⟨before, after, heq⟩ := List.append_of_mem hmem
      exact ⟨before, after, by rw [heq]; simp⟩
    have hsame := h [line] hone
    rw [List.flatten_singleton] at hsame
    exact (sameMeaning_line (hare.of_infix hone) (hline line hmem).2).mp hsame
  · exact hread part hpart fun line hmem =>
      h line (hpart.subset (linesRead_subset part hmem))
  · rw [← hwhole]
    exact hread _ List.infix_rfl h

/-- A comment with a delimiter in it sets an option. -/
theorem not_sameMeaning_comment :
    ¬ ∀ (fp : CString) (options : List Opt), SameMeaning fp.chars options := by
  intro h
  have hnewline : newline ∉ "# a=1".toList.map charByte := by decide
  have hnul : (0 : Byte) ∉ "# a=1".toList.map charByte := by decide
  have hsame := h ⟨"# a=1".toList.map charByte, hnul⟩
  exact not_safeLine_comment (by decide) (by decide)
    ((sameMeaning_line (.last hnewline (by decide)) hnul).mp hsame)

end Files

end Sysbench.Options
