import Sysbench.Options.Store

/-! # Configuration files

A configuration file is read line by line into the list of options and written from it. The
reader knows comments, quotes and lists of values, and takes the name of an option as it
stands before the delimiter.
-/
namespace Sysbench.Options

open Bytes CStrings Keyed

def maxStrLen : ℕ := 256

def valueDelimiter : Byte := charByte '='

def valueSeparator : Byte := charByte ','

def commentChar : Byte := charByte '#'

def isQuote (c : Byte) : Bool := c = 39#8 || c = charByte '"'

/-- What the calls of `fgets(buf, size, fp)` return one after another. The first argument is the
line so far. -/
def fgetsLines (size : ℕ) : List Byte → List Byte → List (List Byte)
  | line, [] => if line = [] then [] else [line]
  | line, b :: fp =>
    let line := line ++ [b]
    if b = newline ∨ line.length = size - 1 then line :: fgetsLines size [] fp
    else fgetsLines size line fp

/-- The values behind the delimiter, and whether the line ends outside of quotes. -/
def lineValues : List Byte → Bool × List CString
  | [] => (true, [])
  | c :: tmp =>
    if isspace c then lineValues tmp
    else if c = commentChar then (true, [])
    else if isQuote c then
      let quoted := tmp.takeWhile (· ≠ c)
      let behind := tmp.dropWhile (· ≠ c)
      if behind = [] then (false, [])
      else
        let (ok, values) := lineValues ((behind.tail.dropWhile (· ≠ valueSeparator)).drop 1)
        (ok, .ofBytes quoted :: values)
    else
      let word := (c :: tmp).takeWhile fun b => b ≠ valueSeparator && !isspace b
      let (ok, values) := lineValues ((c :: tmp).drop (word.length + 1))
      (ok, .ofBytes word :: values)
termination_by tmp => tmp.length
decreasing_by
  · simp
  · have hquoted := (List.dropWhile_sublist (l := tmp) fun x => decide (x ≠ c)).length_le
    have hskipped := (List.dropWhile_sublist (l := (tmp.dropWhile fun x => decide (x ≠ c)).tail)
      fun x => decide (x ≠ valueSeparator)).length_le
    simp only [List.length_tail, List.length_drop, List.length_cons] at hskipped ⊢
    omega
  · simp only [List.length_drop, List.length_cons]
    omega

/-- One line of the file. The result is `false` for an open quote. -/
def readLine (options : List Opt) (buf : CString) : Bool × List Opt :=
  match buf.chars.dropWhile (· ≠ valueDelimiter) with
  | [] => (true, options)
  | _ :: tmp =>
    let name := CString.ofBytes (buf.chars.takeWhile (· ≠ valueDelimiter))
    let (options, newopt) := addOption options name
    let options := freeValues options newopt
    let (ok, values) := lineValues tmp
    (ok, values.foldl (addValue · newopt) options)

inductive ConfigError
  | unexpectedEol (line : ℕ)
deriving DecidableEq

def ConfigError.message : ConfigError → String
  | .unexpectedEol line => s!"unexpected EOL on line {line}\n"

def readLines (options : List Opt) (nline : ℕ) : List (List Byte) → Option ConfigError × List Opt
  | [] => (none, options)
  | buf :: bufs =>
    match readLine options (.ofBytes buf) with
    | (false, options) => (some (.unexpectedEol (nline + 1)), options)
    | (true, options) => readLines options (nline + 1) bufs

def readConfig (fp : List Byte) (options : List Opt) : Option ConfigError × List Opt :=
  readLines options 0 (fgetsLines maxStrLen [] fp)

def Value.text (val : Value) : List Byte := if val.ignore then [] else val.data.chars

def writeValues : List Value → List Byte
  | [] => []
  | [val] => val.text
  | val :: vals => val.text ++ [valueSeparator, charByte ' '] ++ writeValues vals

def Opt.line (opt : Opt) : List Byte :=
  opt.name.chars ++ [charByte ' ', valueDelimiter, charByte ' '] ++ writeValues opt.values

/-- The text written, and the options, which are not written again. -/
def writeConfig (options : List Opt) : List Byte × List Opt :=
  (options.flatMap fun opt => if opt.ignore then [] else opt.line ++ [newline],
    options.map fun opt => { opt with ignore := true })

/-! ## Lines -/

/-- The text is made of these lines. The last newline may be missing. -/
inductive FileText : List (List Byte) → List Byte → Prop
  | nil : FileText [] []
  | line {l : List Byte} {ls : List (List Byte)} {text : List Byte} :
      FileText ls text → FileText (l :: ls) (l ++ newline :: text)
  | last {l : List Byte} : l ≠ [] → FileText [l] l

/-- The pieces in which `fgets` returns lines that fit into its buffer. The newline of a line that
fills the buffer is a piece of its own. -/
inductive Chunked : List (List Byte) → List (List Byte) → Prop
  | nil : Chunked [] []
  | whole {l : List Byte} {ls chunks : List (List Byte)} :
      Chunked ls chunks → Chunked (l :: ls) ((l ++ [newline]) :: chunks)
  | cut {l : List Byte} {ls chunks : List (List Byte)} :
      Chunked ls chunks → Chunked (l :: ls) (l :: [newline] :: chunks)
  | last {l : List Byte} : Chunked [l] [l]

section Lines

variable {size : ℕ} {l line : List Byte} {ls : List (List Byte)}

theorem fgetsLines_append (hl : newline ∉ l) (hlen : (line ++ l).length < size - 1)
    (fp : List Byte) : fgetsLines size line (l ++ fp) = fgetsLines size (line ++ l) fp := by
  induction l generalizing line with
  | nil => rw [List.nil_append, List.append_nil]
  | cons b l ih =>
    rw [List.mem_cons, not_or] at hl
    rw [List.append_cons] at hlen ⊢
    have hshort : (line ++ [b]).length < size - 1 := by
      rw [List.length_append] at hlen
      omega
    rw [List.cons_append, fgetsLines]
    rw [if_neg (not_or.mpr ⟨Ne.symm hl.1, hshort.ne⟩), ih hl.2 hlen]

theorem length_fgetsLines (hsize : 1 < size) (fp : List Byte) (hlen : line.length < size - 1) :
    ∀ chunk ∈ fgetsLines size line fp, chunk.length < size := by
  induction fp generalizing line with
  | nil =>
    intro chunk hchunk
    rw [fgetsLines] at hchunk
    split at hchunk
    · cases hchunk
    · rw [List.mem_singleton.mp hchunk]
      omega
  | cons b fp ih =>
    have hsnoc : (line ++ [b]).length = line.length + 1 := by simp
    intro chunk hchunk
    rw [fgetsLines] at hchunk
    split at hchunk
    · rcases List.mem_cons.mp hchunk with rfl | hchunk
      · omega
      · exact ih (by rw [List.length_nil]; omega) chunk hchunk
    · rename_i hmore
      exact ih (by omega) chunk hchunk

/-- A line that fits is returned in one piece, with or without its newline. -/
theorem fgetsLines_line (hsize : 1 < size - 1) (hl : newline ∉ l) (hlen : l.length < size)
    (text : List Byte) : fgetsLines size [] (l ++ newline :: text) =
      if l.length = size - 1 then l :: [newline] :: fgetsLines size [] text
      else (l ++ [newline]) :: fgetsLines size [] text := by
  have hnewline : ∀ line, fgetsLines size line (newline :: text) =
      (line ++ [newline]) :: fgetsLines size [] text := by
    intro line
    rw [fgetsLines]
    exact if_pos (Or.inl rfl)
  split
  · next hfull =>
    have hne : l ≠ [] := by
      rintro rfl
      rw [List.length_nil] at hfull
      omega
    obtain ⟨init, b, rfl⟩ := List.eq_nil_or_concat l |>.resolve_left hne
    rw [List.concat_eq_append, List.length_append, List.length_singleton] at hfull
    rw [List.concat_eq_append, List.mem_append, not_or] at hl
    rw [List.concat_eq_append, List.append_assoc, fgetsLines_append hl.1 (by simp; omega),
      List.nil_append, List.singleton_append, fgetsLines]
    rw [if_pos (Or.inr (by simpa using hfull)), hnewline, List.nil_append]
  · next hshort =>
    rw [fgetsLines_append hl (by simp; omega), List.nil_append, hnewline]

theorem fgetsLines_last (hl : newline ∉ l) (hlen : l.length < size) (hne : l ≠ []) :
    fgetsLines size [] l = [l] := by
  obtain ⟨init, b, rfl⟩ := List.eq_nil_or_concat l |>.resolve_left hne
  rw [List.concat_eq_append] at *
  rw [List.length_append, List.length_singleton] at hlen
  rw [List.mem_append, not_or] at hl
  rw [fgetsLines_append hl.1 (by simp; omega), List.nil_append, fgetsLines]
  split
  · rfl
  · rw [fgetsLines, if_neg (List.append_ne_nil_of_right_ne_nil _ (List.cons_ne_nil _ _))]

theorem FileText.chunked {text : List Byte} (htext : FileText ls text) (hsize : 1 < size - 1)
    (hls : ∀ l ∈ ls, newline ∉ l ∧ l.length < size) : Chunked ls (fgetsLines size [] text) := by
  induction htext with
  | nil => exact .nil
  | line _ ih =>
    obtain ⟨hl, hlen⟩ := hls _ List.mem_cons_self
    have hrest := ih fun l hmem => hls l (List.mem_cons_of_mem _ hmem)
    rw [fgetsLines_line hsize hl hlen]
    split
    · exact .cut hrest
    · exact .whole hrest
  | last hne =>
    obtain ⟨hl, hlen⟩ := hls _ List.mem_cons_self
    rw [fgetsLines_last hl hlen hne]
    exact .last

end Lines

/-! ## Values -/

/-- The characters that mean something to `read_config` besides the separator. -/
def Plain (b : Byte) : Prop := isspace b = false ∧ b ≠ commentChar ∧ isQuote b = false

instance : DecidablePred Plain := fun b => by unfold Plain; infer_instance

/-- The items of a list as `read_config` finds them: a final empty one is not seen. -/
def configItems (v : List Byte) : List (List Byte) :=
  let items := v.splitOn valueSeparator
  if items.getLast? = some [] then items.dropLast else items

theorem configItems_nil : configItems [] = [] := by
  rw [configItems, List.splitOn_nil]
  rfl

theorem configItems_singleton {v : List Byte} (hne : v ≠ []) (hv : valueSeparator ∉ v) :
    configItems v = [v] := by
  rw [configItems, List.splitOn_eq_singleton hv, List.getLast?_singleton]
  exact if_neg fun h => hne (Option.some.inj h)

theorem configItems_append {w : List Byte} (hw : valueSeparator ∉ w) (r : List Byte) :
    configItems (w ++ valueSeparator :: r) = w :: configItems r := by
  have hne := List.splitOn_ne_nil valueSeparator r
  unfold configItems
  dsimp only
  rw [List.splitOn_append_cons_self_of_not_mem hw]
  cases hsplit : r.splitOn valueSeparator with
  | nil => exact absurd hsplit hne
  | cons item items =>
    rw [List.getLast?_cons_cons, List.dropLast_cons_cons]
    split <;> rfl

/-- What may follow the value on its line. -/
def LineEnd (tail : List Byte) : Prop := tail = [] ∨ tail = [newline]

theorem lineValues_lineEnd {tail : List Byte} (htail : LineEnd tail) :
    lineValues tail = (true, []) := by
  rcases htail with rfl | rfl
  · rw [lineValues]
  · rw [lineValues, if_pos (by decide), lineValues]

theorem lineValues_word {w rest : List Byte} (hplain : ∀ b ∈ (w ++ rest).head?, Plain b)
    (hne : w ++ rest ≠ []) (hw : ∀ b ∈ w, b ≠ valueSeparator ∧ isspace b = false)
    (hrest : ∀ b ∈ rest.head?, b = valueSeparator ∨ isspace b = true) :
    lineValues (w ++ rest) =
      ((lineValues rest.tail).1, .ofBytes w :: (lineValues rest.tail).2) := by
  have hpass : ∀ b ∈ w, (decide (b ≠ valueSeparator) && !isspace b) = true := by
    intro b hb
    rw [(hw b hb).2, decide_eq_true (hw b hb).1]
    rfl
  have hstop : (rest.takeWhile fun b => b ≠ valueSeparator && !isspace b) = [] := by
    cases rest with
    | nil => rfl
    | cons d rest =>
      rw [List.takeWhile_cons, if_neg]
      rcases hrest d rfl with rfl | hspace
      · decide
      · rw [hspace, Bool.not_true, Bool.and_false]
        decide
  have hword : ((w ++ rest).takeWhile fun b => b ≠ valueSeparator && !isspace b) = w := by
    rw [List.takeWhile_append_of_pos hpass, hstop, List.append_nil]
  have hdrop : (w ++ rest).drop (w.length + 1) = rest.tail := by
    rw [List.drop_append, List.drop_of_length_le (Nat.le_succ _), List.nil_append,
      Nat.add_sub_cancel_left, List.drop_one]
  cases hs : w ++ rest with
  | nil => exact absurd hs hne
  | cons c tmp =>
    obtain ⟨hspace, hcomment, hquote⟩ := hplain c (by rw [hs]; rfl)
    rw [lineValues, if_neg (by rw [hspace]; decide), if_neg hcomment,
      if_neg (by rw [hquote]; decide), ← hs]
    dsimp only
    rw [hword, hdrop]

theorem lineValues_space {c : Byte} (hc : isspace c = true) (rest : List Byte) :
    lineValues (c :: rest) = lineValues rest := by
  rw [lineValues, if_pos hc]

theorem lineValues_comment (rest : List Byte) :
    lineValues (commentChar :: rest) = (true, []) := by
  rw [lineValues, if_neg (by decide), if_pos rfl]

theorem isQuote_cases {qc : Byte} (hqc : isQuote qc = true) :
    isspace qc = false ∧ qc ≠ commentChar ∧ qc ≠ 0 := by
  rw [isQuote, Bool.or_eq_true, decide_eq_true_eq, decide_eq_true_eq] at hqc
  rcases hqc with rfl | rfl <;> decide

theorem lineValues_open {qc : Byte} {v : List Byte} (hqc : isQuote qc = true) (hv : qc ∉ v) :
    lineValues (qc :: v) = (false, []) := by
  obtain ⟨hspace, hcom, -⟩ := isQuote_cases hqc
  have hbehind : v.dropWhile (· ≠ qc) = [] :=
    List.dropWhile_eq_nil_iff.mpr fun b hb => decide_eq_true (ne_of_mem_of_not_mem hb hv)
  rw [lineValues, if_neg (by simp [hspace]), if_neg hcom, if_pos hqc]
  dsimp only
  rw [if_pos hbehind]

theorem lineValues_quote {qc : Byte} {v : List Byte} (hqc : isQuote qc = true) (hv : qc ∉ v)
    (rest : List Byte) : lineValues (qc :: (v ++ qc :: rest)) =
      ((lineValues ((rest.dropWhile (· ≠ valueSeparator)).drop 1)).1,
        .ofBytes v :: (lineValues ((rest.dropWhile (· ≠ valueSeparator)).drop 1)).2) := by
  obtain ⟨hspace, hcom, -⟩ := isQuote_cases hqc
  have hpass : ∀ b ∈ v, decide (b ≠ qc) = true := fun b hb =>
    decide_eq_true (ne_of_mem_of_not_mem hb hv)
  have hbehind : (v ++ qc :: rest).dropWhile (· ≠ qc) = qc :: rest := by
    rw [List.dropWhile_append_of_pos hpass]
    simp
  have hquoted : (v ++ qc :: rest).takeWhile (· ≠ qc) = v := by
    rw [List.takeWhile_append_of_pos hpass]
    simp
  rw [lineValues, if_neg (by simp [hspace]), if_neg hcom, if_pos hqc]
  dsimp only
  rw [hbehind, hquoted, if_neg (List.cons_ne_nil _ _), List.tail_cons]

theorem lineValues_plain {v tail : List Byte} (hv : ∀ b ∈ v, Plain b) (htail : LineEnd tail) :
    lineValues (v ++ tail) = (true, (configItems v).map CString.ofBytes) := by
  induction hlen : v.length using Nat.strong_induction_on generalizing v with
  | _ n ih =>
    have hhead : ∀ rest, ∀ b ∈ (v ++ rest).head?, v ≠ [] → Plain b := by
      intro rest b hb hne
      obtain ⟨c, v, rfl⟩ := List.exists_cons_of_ne_nil hne
      obtain rfl := Option.some.inj hb
      exact hv c List.mem_cons_self
    by_cases hnil : v = []
    · rw [hnil, List.nil_append, lineValues_lineEnd htail, configItems_nil, List.map_nil]
    by_cases hsep : valueSeparator ∈ v
    · obtain ⟨w, r, rfl, hw⟩ := List.eq_append_cons_of_mem hsep
      have hshort : r.length < n := by
        rw [← hlen, List.length_append, List.length_cons]
        omega
      have hr := ih r.length hshort (v := r)
        (fun b hb => hv b (List.mem_append_right _ (List.mem_cons_of_mem _ hb))) rfl
      have hword : ∀ b ∈ w, b ≠ valueSeparator ∧ isspace b = false := fun b hb =>
        ⟨ne_of_mem_of_not_mem hb hw, (hv b (List.mem_append_left _ hb)).1⟩
      have hstop : ∀ b ∈ (valueSeparator :: r ++ tail).head?,
          b = valueSeparator ∨ isspace b = true := fun b hb => Or.inl (Option.some.inj hb).symm
      have hfirst : ∀ b ∈ (w ++ (valueSeparator :: r ++ tail)).head?, Plain b := by
        rw [← List.append_assoc]
        exact fun b hb => hhead tail b hb hnil
      have hitem := lineValues_word hfirst
        (List.append_ne_nil_of_right_ne_nil _ (List.cons_ne_nil _ _)) hword hstop
      rw [List.append_assoc, hitem, List.cons_append, List.tail_cons, hr, configItems_append hw,
        List.map_cons]
    · have hword : ∀ b ∈ v, b ≠ valueSeparator ∧ isspace b = false := fun b hb =>
        ⟨ne_of_mem_of_not_mem hb hsep, (hv b hb).1⟩
      have hend : ∀ b ∈ tail.head?, b = valueSeparator ∨ isspace b = true := by
        intro b hb
        rcases htail with rfl | rfl
        · cases hb
        · obtain rfl := Option.some.inj hb
          exact Or.inr (by decide)
      have hbehind : tail.tail = [] := by rcases htail with rfl | rfl <;> rfl
      rw [lineValues_word (fun b hb => hhead tail b hb hnil)
        (List.append_ne_nil_of_left_ne_nil hnil _) hword hend, hbehind, lineValues,
        configItems_singleton hnil hsep]
      rfl

/-! ## Reading a line -/

/-- The option gets exactly these values. Its type stays, and a new one has none. -/
def assignLine (options : List Opt) (name : CString) (values : List CString) : List Opt :=
  let located := addOption options name
  located.1.modify located.2 fun o => { o with values := values.map fun v => ⟨v, false⟩ }

theorem foldl_addValue (values : List CString) (options : List Opt) (opt : ℕ)
    (f : Opt → Opt) : values.foldl (addValue · opt) (options.modify opt f) =
      options.modify opt fun o =>
        { f o with values := (f o).values ++ values.map fun v => ⟨v, false⟩ } := by
  induction values generalizing f with
  | nil => simp
  | cons v values ih =>
    rw [List.foldl_cons, addValue, List.modify_modify_eq, ih]
    congr 1
    funext o
    simp

theorem foldl_freeValues (options : List Opt) (name : CString) (values : List CString) :
    values.foldl (addValue · (addOption options name).2)
        (freeValues (addOption options name).1 (addOption options name).2) =
      assignLine options name values := by
  rw [freeValues, foldl_addValue, assignLine]
  simp only [List.nil_append]

theorem readLine_eq (options : List Opt) {name tmp : List Byte}
    (hname : valueDelimiter ∉ name) (hnul : (0 : Byte) ∉ name ++ valueDelimiter :: tmp) :
    readLine options (.ofBytes (name ++ valueDelimiter :: tmp)) =
      ((lineValues tmp).1, assignLine options (.ofBytes name) (lineValues tmp).2) := by
  have hpass : ∀ b ∈ name, decide (b ≠ valueDelimiter) = true := fun b hb =>
    decide_eq_true (ne_of_mem_of_not_mem hb hname)
  have hdrop : (valueDelimiter :: tmp).dropWhile (· ≠ valueDelimiter) = valueDelimiter :: tmp := by
    simp
  have htake : (valueDelimiter :: tmp).takeWhile (· ≠ valueDelimiter) = [] := by
    simp
  rw [readLine, CString.chars_ofBytes hnul, List.dropWhile_append_of_pos hpass,
    List.takeWhile_append_of_pos hpass, hdrop, htake, List.append_nil]
  dsimp only
  rw [foldl_freeValues]

theorem readLine_skip (options : List Opt) {line : CString} (hline : valueDelimiter ∉ line.chars) :
    readLine options line = (true, options) := by
  have hall : line.chars.dropWhile (· ≠ valueDelimiter) = [] := by
    rw [List.dropWhile_eq_nil_iff]
    exact fun b hb => decide_eq_true (ne_of_mem_of_not_mem hb hline)
  rw [readLine, hall]

/-- An assigned option is changed under its own key only. -/
theorem lookup_assignLine (options : List Opt) (name : CString) (values : List CString) :
    lookup Opt.key (assignLine options name values) =
      Function.update (lookup Opt.key options) (convertDashes name)
        (some { (findOption options name).getD (newOption name) with
          values := values.map fun v => ⟨v, false⟩ }) := by
  rw [assignLine, addOption_eq, findOption_eq]
  exact lookup_modify_locate options (key_newOption name) fun _ => rfl

/-- Lines that are read alike with and without their newline are read one after another. -/
theorem Chunked.readLines {ls chunks : List (List Byte)} (hchunks : Chunked ls chunks)
    (step : List Opt → List Byte → List Opt) (hstep : ∀ l ∈ ls, ∀ options tail, LineEnd tail →
      readLine options (.ofBytes (l ++ tail)) = (true, step options l))
    (options : List Opt) (nline : ℕ) :
    readLines options nline chunks = (none, ls.foldl step options) := by
  have hskip : ∀ options, readLine options (.ofBytes [newline]) = (true, options) := fun options =>
    readLine_skip options (by decide)
  induction hchunks generalizing options nline with
  | nil => rfl
  | whole _ ih =>
    have hline := hstep _ List.mem_cons_self options [newline] (Or.inr rfl)
    have hrest := ih fun l hl => hstep l (List.mem_cons_of_mem _ hl)
    rw [Options.readLines, hline, List.foldl_cons]
    exact hrest _ _
  | cut _ ih =>
    have hline := hstep _ List.mem_cons_self options [] (Or.inl rfl)
    have hrest := ih fun l hl => hstep l (List.mem_cons_of_mem _ hl)
    rw [List.append_nil] at hline
    rw [Options.readLines, hline, List.foldl_cons]
    dsimp only
    rw [Options.readLines, hskip]
    exact hrest _ _
  | last =>
    have hline := hstep _ List.mem_cons_self options [] (Or.inl rfl)
    rw [List.append_nil] at hline
    rw [Options.readLines, hline]
    rfl

end Sysbench.Options
