import Sysbench.Options.ConfigFile

/-! # The buffer of `read_config`

`fgets` writes a chunk of the file and a NUL into `buf`. The tokeniser moves a cursor over it and
ends names and values by NULs of its own. Here the buffer reaches up to the NUL of `fgets`, and an
access to anything else is a failure.
-/
namespace Sysbench.Options

open Bytes CStrings

/-- A value and the place in `buf` where it stands. -/
structure Span where
  start : ℕ
  value : CString
deriving DecidableEq

def Span.stop (v : Span) : ℕ := v.start + v.value.length

/-- The variables of the inner loop, with the places of the values found in the chunk. -/
structure Cursor where
  buf : List Byte
  tmp : ℕ
  options : List Opt
  spans : List Span

/-- The loops that count `optlen` from some place on, up to a NUL or another end. -/
def optlen (stop : Byte → Bool) : List Byte → Option ℕ
  | [] => none
  | b :: bs => if b = 0 ∨ stop b then some 0 else (optlen stop bs).map (· + 1)

/-- What an iteration ends with: the line is read, it has an open quote, or the cursor moves. -/
inductive Iteration
  | eol
  | unexpectedEol
  | more (s : Cursor)

/-- `add_value(&newopt->values, tmp)` with the string at `tmp`. -/
def Cursor.addValue (newopt : ℕ) (s : Cursor) (tmp : ℕ) : Option Cursor :=
  (readString (s.buf.drop tmp)).map fun value =>
    { s with options := Options.addValue s.options newopt value, spans := s.spans ++ [⟨tmp, value⟩] }

/-- The branch of a quote, which ends in front of the next value. -/
def quotedValue (newopt : ℕ) (qc : Byte) (s : Cursor) : Option Iteration :=
  let tmp := s.tmp + 1
  (optlen (· = qc) (s.buf.drop tmp)).bind fun len =>
    (s.buf[tmp + len]?).bind fun c =>
      if c = 0 then some .unexpectedEol
      else do
        let buf ← storeByte s.buf (tmp + len) 0
        let s ← Cursor.addValue newopt { s with buf := buf } tmp
        let skipped ← optlen (· = valueSeparator) (buf.drop (tmp + len + 1))
        let tmp := tmp + len + 1 + skipped
        let c ← buf[tmp]?
        return .more { s with tmp := if c = valueSeparator then tmp + 1 else tmp }

def plainValue (newopt : ℕ) (s : Cursor) : Option Iteration :=
  (optlen (fun b => b = valueSeparator || isspace b) (s.buf.drop s.tmp)).bind fun len =>
    (s.buf[s.tmp + len]?).bind fun c =>
      if c = 0 then
        (s.addValue newopt s.tmp).map fun s' => .more { s' with tmp := s.tmp + len }
      else do
        let buf ← storeByte s.buf (s.tmp + len) 0
        let s' ← Cursor.addValue newopt { s with buf := buf } s.tmp
        return .more { s' with tmp := s.tmp + len + 1 }

/-- One iteration of `while (*tmp != '\0')`. -/
def tokenize (newopt : ℕ) (s : Cursor) : Option Iteration :=
  (s.buf[s.tmp]?).bind fun c =>
    if c = 0 then some .eol
    else if isspace c then some (.more { s with tmp := s.tmp + 1 })
    else if c = commentChar then some .eol
    else if isQuote c then quotedValue newopt c s
    else plainValue newopt s

/-- At most `fuel` iterations. The result is `false` for an open quote. -/
def tokenizeLoop (newopt : ℕ) : ℕ → Cursor → Option (Bool × Cursor)
  | 0, _ => none
  | fuel + 1, s => (tokenize newopt s).bind fun
    | .eol => some (true, s)
    | .unexpectedEol => some (false, s)
    | .more s => tokenizeLoop newopt fuel s

/-- The body of the loop over the chunks, after `fgets` has written one. -/
def readChunk (fuel : ℕ) (options : List Opt) (chunk : List Byte) :
    Option (Bool × List Opt × List Span) := do
  let buf := chunk ++ [0]
  let tmp ← optlen (· = valueDelimiter) buf
  if (← buf[tmp]?) = 0 then return (true, options, [])
  let buf ← storeByte buf tmp 0
  let name ← readString buf
  let (options, newopt) := addOption options name
  let (ok, s) ← tokenizeLoop newopt fuel ⟨buf, tmp + 1, freeValues options newopt, []⟩
  return (ok, s.options, s.spans)

/-- The loop over the chunks. The last result are the places of the values in each of them. -/
def readChunks (fuel : ℕ) (options : List Opt) (nline : ℕ) :
    List (List Byte) → Option (Option ConfigError × List Opt × List (List Span))
  | [] => some (none, options, [])
  | buf :: bufs => (readChunk fuel options buf).bind fun
    | (false, options, spans) => some (some (.unexpectedEol (nline + 1)), options, [spans])
    | (true, options, spans) => (readChunks fuel options (nline + 1) bufs).map
      fun (result, options, rest) => (result, options, spans :: rest)

def readConfigBuffer (fuel : ℕ) (fp : List Byte) (options : List Opt) :
    Option (Option ConfigError × List Opt × List (List Span)) :=
  readChunks fuel options 0 (fgetsLines maxStrLen [] fp)

/-- The values stand in the chunk as it was read, one behind another, from some place on. -/
structure Placed (chunk : List Byte) (i : ℕ) (spans : List Span) : Prop where
  text : ∀ v ∈ spans, (chunk.drop v.start).take v.value.length = v.value.chars
  inside : ∀ v ∈ spans, i ≤ v.start ∧ v.stop ≤ chunk.length
  disjoint : spans.Pairwise fun v w => v.stop ≤ w.start

/-! ## One iteration -/

section Tokenize

variable {u junk pre : List Byte} {stop : Byte → Bool} {newopt : ℕ} {options : List Opt}
  {spans : List Span} {tmp : ℕ}

theorem optlen_eq {v : List Byte} {x : Byte} (hv : ∀ b ∈ v, b ≠ 0 ∧ stop b = false)
    (hx : x = 0 ∨ stop x) (rest : List Byte) : optlen stop (v ++ x :: rest) = some v.length := by
  induction v with
  | nil => exact if_pos hx
  | cons b v ih =>
    obtain ⟨hne, hstop⟩ := hv b List.mem_cons_self
    have hpass : ¬ (b = 0 ∨ stop b) := not_or.mpr ⟨hne, by simp [hstop]⟩
    rw [List.cons_append, optlen, if_neg hpass, ih fun c hc => hv c (List.mem_cons_of_mem _ hc)]
    rfl

theorem quoted_stops {qc : Byte} {v : List Byte} (hv : (0 : Byte) ∉ v) (hqc : qc ∉ v) :
    ∀ b ∈ v, b ≠ 0 ∧ decide (b = qc) = false := fun _ hb =>
  ⟨ne_of_mem_of_not_mem hb hv, decide_eq_false (ne_of_mem_of_not_mem hb hqc)⟩

theorem getElem?_pre {k : ℕ} (hk : pre.length = k) (rest : List Byte) :
    (pre ++ rest)[k]? = rest.head? := by
  rw [← hk, List.getElem?_append_right le_rfl, Nat.sub_self, List.head?_eq_getElem?]

theorem storeByte_pre {k : ℕ} (hk : pre.length = k) (b c : Byte) (rest : List Byte) :
    storeByte (pre ++ b :: rest) k c = some (pre ++ c :: rest) := by
  rw [← hk, storeByte, if_pos (by simp), List.set_append_right _ _ le_rfl, Nat.sub_self,
    List.set_cons_zero]

theorem readString_eq (hu : (0 : Byte) ∉ u) (junk : List Byte) :
    readString (u ++ 0 :: junk) = some (.ofBytes u) := by
  refine readString_of_startsWith ⟨junk, ?_⟩
  rw [CString.chars_ofBytes hu, List.append_assoc, List.singleton_append]

theorem addValue_pre (newopt : ℕ) {k : ℕ} (hk : pre.length = k) (hu : (0 : Byte) ∉ u)
    (options : List Opt) (spans : List Span) (tmp : ℕ) :
    Cursor.addValue newopt ⟨pre ++ (u ++ 0 :: junk), tmp, options, spans⟩ k =
      some ⟨pre ++ (u ++ 0 :: junk), tmp, addValue options newopt (.ofBytes u),
        spans ++ [⟨k, .ofBytes u⟩]⟩ := by
  rw [Cursor.addValue, ← hk, List.drop_left, readString_eq hu]
  rfl

/-- The next character decides about the branch. -/
theorem tokenize_cons (newopt : ℕ) (pre : List Byte) (c : Byte) (rest : List Byte)
    (options : List Opt) (spans : List Span) :
    tokenize newopt ⟨pre ++ c :: rest, pre.length, options, spans⟩ =
      if c = 0 then some .eol
      else if isspace c then some (.more ⟨pre ++ c :: rest, pre.length + 1, options, spans⟩)
      else if c = commentChar then some .eol
      else if isQuote c then quotedValue newopt c ⟨pre ++ c :: rest, pre.length, options, spans⟩
      else plainValue newopt ⟨pre ++ c :: rest, pre.length, options, spans⟩ := by
  rw [tokenize, getElem?_pre rfl, List.head?_cons, Option.bind_some]

theorem quotedValue_open {qc : Byte} (hu : (0 : Byte) ∉ u) (hqc : qc ∉ u) (s : Cursor)
    (hbuf : s.buf = pre ++ qc :: (u ++ 0 :: junk)) (htmp : pre.length = s.tmp) :
    quotedValue newopt qc s = some .unexpectedEol := by
  have hdrop : s.buf.drop (s.tmp + 1) = u ++ 0 :: junk := by
    rw [hbuf, List.append_cons, ← htmp]
    exact List.drop_left' (by simp)
  have hend : s.buf[s.tmp + 1 + u.length]? = some 0 := by
    rw [hbuf, List.append_cons, ← List.append_assoc]
    exact getElem?_pre (by simp only [List.length_append, List.length_singleton, htmp]) _
  rw [quotedValue]
  dsimp only
  rw [hdrop, optlen_eq (quoted_stops hu hqc) (.inl rfl), Option.bind_some, hend, Option.bind_some,
    if_pos rfl]

theorem skip_separator (hu : (0 : Byte) ∉ u) (junk : List Byte) : ∃ w,
    u = w ++ (u.dropWhile (· ≠ valueSeparator)).drop 1 ∧
    ∃ skipped c, optlen (· = valueSeparator) (u ++ 0 :: junk) = some skipped ∧
      (u ++ 0 :: junk)[skipped]? = some c ∧
      (if c = valueSeparator then skipped + 1 else skipped) = w.length := by
  induction u with
  | nil => exact ⟨[], rfl, 0, 0, rfl, rfl, if_neg (by decide)⟩
  | cons b u ih =>
    rw [List.mem_cons, not_or] at hu
    rw [List.dropWhile_cons, List.cons_append, optlen]
    by_cases hb : b = valueSeparator
    · rw [if_neg (by simpa using hb), if_pos (Or.inr (decide_eq_true hb))]
      exact ⟨[b], rfl, 0, b, rfl, rfl, if_pos hb⟩
    · obtain ⟨w, hw, skipped, c, hskip, hc, hlen⟩ := ih hu.2
      rw [if_pos (decide_eq_true hb), if_neg (not_or.mpr ⟨Ne.symm hu.1, by simpa using hb⟩), hskip]
      refine ⟨b :: w, by rw [List.cons_append, ← hw], skipped + 1, c, rfl, hc, ?_⟩
      rw [List.length_cons, ← hlen]
      split <;> rfl

theorem quotedValue_closed {qc : Byte} {v : List Byte} (hqc0 : qc ≠ 0) (hv : (0 : Byte) ∉ v)
    (hqc : qc ∉ v) (hu : (0 : Byte) ∉ u) (hpre : pre.length = tmp) :
    ∃ w, u = w ++ (u.dropWhile (· ≠ valueSeparator)).drop 1 ∧
      quotedValue newopt qc ⟨pre ++ qc :: (v ++ qc :: (u ++ 0 :: junk)), tmp, options, spans⟩ =
        some (.more ⟨pre ++ qc :: (v ++ 0 :: (u ++ 0 :: junk)), tmp + 1 + v.length + 1 + w.length,
          addValue options newopt (.ofBytes v), spans ++ [⟨tmp + 1, .ofBytes v⟩]⟩) := by
  obtain ⟨w, hw, skipped, c, hskip, hc, hlen⟩ := skip_separator hu junk
  refine ⟨w, hw, ?_⟩
  have hinside : ∀ x : Byte, pre ++ qc :: (v ++ x :: (u ++ 0 :: junk)) =
      (pre ++ [qc]) ++ (v ++ x :: (u ++ 0 :: junk)) := fun x => List.append_cons _ _ _
  have hbehind : ∀ x : Byte, pre ++ qc :: (v ++ x :: (u ++ 0 :: junk)) =
      (pre ++ [qc] ++ v ++ [x]) ++ (u ++ 0 :: junk) := fun x => by simp
  have hat : ∀ x : Byte, pre ++ qc :: (v ++ x :: (u ++ 0 :: junk)) =
      (pre ++ [qc] ++ v) ++ x :: (u ++ 0 :: junk) := fun x => by simp
  have hlen1 : (pre ++ [qc]).length = tmp + 1 := by
    rw [List.length_append, List.length_singleton, hpre]
  have hlen2 : (pre ++ [qc] ++ v).length = tmp + 1 + v.length := by
    rw [List.length_append, hlen1]
  have hlen3 : ∀ x : Byte, (pre ++ [qc] ++ v ++ [x]).length = tmp + 1 + v.length + 1 := fun x => by
    rw [List.length_append, hlen2, List.length_singleton]
  rw [quotedValue]
  dsimp only
  rw [hinside, List.drop_left' hlen1, optlen_eq (quoted_stops hv hqc) (.inr (decide_eq_true rfl)),
    Option.bind_some, ← hinside, hat, getElem?_pre hlen2, List.head?_cons, Option.bind_some,
    if_neg hqc0, storeByte_pre hlen2]
  simp only [Option.bind_eq_bind, Option.bind_some, Option.pure_def]
  rw [← hat, hinside, addValue_pre newopt hlen1 hv, Option.bind_some, ← hinside, hbehind,
    List.drop_left' (hlen3 0), hskip, Option.bind_some]
  have hnext : ((pre ++ [qc] ++ v ++ [0]) ++ (u ++ 0 :: junk))[tmp + 1 + v.length + 1 + skipped]? =
      some c := by
    rw [← hlen3 0, List.getElem?_append_right (by omega), Nat.add_sub_cancel_left, hc]
  have htmpEnd : (if c = valueSeparator then tmp + 1 + v.length + 1 + skipped + 1
      else tmp + 1 + v.length + 1 + skipped) = tmp + 1 + v.length + 1 + w.length := by
    rw [← hlen]
    split <;> rfl
  rw [hnext, Option.bind_some, htmpEnd]

theorem plainValue_last (hpre : pre.length = tmp) (hu : (0 : Byte) ∉ u)
    (hword : ∀ b ∈ u, (b = valueSeparator || isspace b) = false) :
    plainValue newopt ⟨pre ++ (u ++ 0 :: junk), tmp, options, spans⟩ =
      some (.more ⟨pre ++ (u ++ 0 :: junk), tmp + u.length, addValue options newopt (.ofBytes u),
        spans ++ [⟨tmp, .ofBytes u⟩]⟩) := by
  have hlen : (pre ++ u).length = tmp + u.length := by rw [List.length_append, hpre]
  have hend : (pre ++ (u ++ 0 :: junk))[tmp + u.length]? = some 0 := by
    rw [← List.append_assoc]
    exact getElem?_pre hlen _
  rw [plainValue, List.drop_left' hpre, optlen_eq (fun b hb => ⟨ne_of_mem_of_not_mem hb hu, hword b hb⟩)
    (.inl rfl), Option.bind_some, hend, Option.bind_some, if_pos rfl, addValue_pre newopt hpre hu]
  rfl

theorem plainValue_more {v : List Byte} {x : Byte} (hpre : pre.length = tmp) (hv : (0 : Byte) ∉ v)
    (hword : ∀ b ∈ v, (b = valueSeparator || isspace b) = false) (hx0 : x ≠ 0)
    (hx : (x = valueSeparator || isspace x) = true) :
    plainValue newopt ⟨pre ++ (v ++ x :: junk), tmp, options, spans⟩ =
      some (.more ⟨pre ++ (v ++ 0 :: junk), tmp + v.length + 1, addValue options newopt (.ofBytes v),
        spans ++ [⟨tmp, .ofBytes v⟩]⟩) := by
  have hlen : (pre ++ v).length = tmp + v.length := by rw [List.length_append, hpre]
  have hend : (pre ++ (v ++ x :: junk))[tmp + v.length]? = some x := by
    rw [← List.append_assoc]
    exact getElem?_pre hlen _
  have hstore : storeByte (pre ++ (v ++ x :: junk)) (tmp + v.length) 0 =
      some (pre ++ (v ++ 0 :: junk)) := by
    rw [← List.append_assoc, storeByte_pre hlen, List.append_assoc]
  rw [plainValue, List.drop_left' hpre, optlen_eq (fun b hb => ⟨ne_of_mem_of_not_mem hb hv, hword b hb⟩)
    (.inr hx), Option.bind_some, hend, Option.bind_some, if_neg hx0, hstore]
  simp only [Option.bind_eq_bind, Option.bind_some, Option.pure_def]
  rw [addValue_pre newopt hpre hv, Option.bind_some]

end Tokenize

/-! ## A chunk -/

section Placed

variable {chunk v rest : List Byte} {x : Byte} {i j : ℕ} {spans : List Span}

theorem Placed.nil : Placed chunk i [] :=
  ⟨fun _ hv => absurd hv List.not_mem_nil, fun _ hv => absurd hv List.not_mem_nil, List.Pairwise.nil⟩

/-- What is read behind the cursor stands in the chunk. -/
theorem Placed.cons {v : Span} (htext : (chunk.drop v.start).take v.value.length = v.value.chars)
    (hstart : i ≤ v.start) (hstop : v.stop ≤ chunk.length) (hj : v.stop ≤ j)
    (h : Placed chunk j spans) : Placed chunk i (v :: spans) where
  text := List.forall_mem_cons.mpr ⟨htext, h.text⟩
  inside := by
    refine List.forall_mem_cons.mpr ⟨⟨hstart, hstop⟩, fun w hw => ⟨?_, (h.inside w hw).2⟩⟩
    have hle := (h.inside w hw).1
    rw [Span.stop] at hj
    omega
  disjoint := List.pairwise_cons.mpr ⟨fun w hw => hj.trans (h.inside w hw).1, h.disjoint⟩

theorem Placed.mono (hij : i ≤ j) (h : Placed chunk j spans) : Placed chunk i spans where
  text := h.text
  inside v hv := ⟨hij.trans (h.inside v hv).1, (h.inside v hv).2⟩
  disjoint := h.disjoint

/-- The part of the chunk in front of a character that is still as it was read. -/
theorem slice_of_drop (h : (chunk ++ [0]).drop i = v ++ x :: rest) :
    (chunk.drop i).take v.length = v ∧ i + v.length ≤ chunk.length := by
  have hlen := congrArg List.length h
  simp only [List.length_drop, List.length_append, List.length_cons, List.length_nil] at hlen
  have hle : v.length ≤ (chunk.drop i).length := by
    rw [List.length_drop]
    omega
  have htake := congrArg (List.take v.length) h
  rw [List.drop_append_of_le_length (by omega), List.take_append_of_le_length hle,
    List.take_left] at htake
  exact ⟨htake, by omega⟩

end Placed

section Chunk

variable {newopt : ℕ} {u : List Byte}

/-- From a cursor at the string `u` on, the loop reads what `lineValues` reads. The chunk is still
as it was read there, so the values stand in it. -/
def Reads (newopt : ℕ) (u : List Byte) : Prop :=
  ∀ (fuel : ℕ) (pre chunk junk : List Byte) (options : List Opt) (spans : List Span),
    u.length < fuel → (chunk ++ [0]).drop pre.length = u ++ 0 :: junk →
    ∃ s new, tokenizeLoop newopt fuel ⟨pre ++ (u ++ 0 :: junk), pre.length, options, spans⟩ =
        some ((lineValues u).1, s) ∧
      s.options = (lineValues u).2.foldl (addValue · newopt) options ∧
      s.spans = spans ++ new ∧ new.map Span.value = (lineValues u).2 ∧
      Placed chunk pre.length new

theorem Reads.of_end (ok : Bool) (hvalues : lineValues u = (ok, []))
    (hstep : ∀ (pre junk : List Byte) (options : List Opt) (spans : List Span),
      tokenize newopt ⟨pre ++ (u ++ 0 :: junk), pre.length, options, spans⟩ =
        some (if ok then .eol else .unexpectedEol)) : Reads newopt u := by
  intro fuel pre chunk junk options spans hfuel _
  obtain ⟨fuel, rfl⟩ := Nat.exists_eq_add_of_lt hfuel
  refine ⟨⟨pre ++ (u ++ 0 :: junk), pre.length, options, spans⟩, [], ?_, ?_, (List.append_nil _).symm,
    ?_, .nil⟩
  · rw [tokenizeLoop, hstep, hvalues]
    cases ok <;> rfl
  · rw [hvalues]
    rfl
  · rw [hvalues]
    rfl

theorem Reads.of_skip {w u' : List Byte} (hu : u = w ++ u') (hw : w ≠ [])
    (hvalues : lineValues u = lineValues u')
    (hstep : ∀ (pre junk : List Byte) (options : List Opt) (spans : List Span),
      tokenize newopt ⟨pre ++ (u ++ 0 :: junk), pre.length, options, spans⟩ =
        some (.more ⟨pre ++ (u ++ 0 :: junk), pre.length + w.length, options, spans⟩))
    (ih : Reads newopt u') : Reads newopt u := by
  intro fuel pre chunk junk options spans hfuel hdrop
  obtain ⟨fuel, rfl⟩ := Nat.exists_eq_add_of_lt (Nat.zero_lt_of_lt hfuel)
  have hlen : (pre ++ w).length = pre.length + w.length := List.length_append
  have hpos := List.length_pos_iff.mpr hw
  have hfuel' : u'.length < 0 + fuel := by
    rw [hu, List.length_append] at hfuel
    omega
  have hdrop' : (chunk ++ [0]).drop (pre ++ w).length = u' ++ 0 :: junk := by
    rw [hlen, ← List.drop_drop, hdrop, hu, List.append_assoc, List.drop_left]
  obtain ⟨s, new, hloop, hoptions, hspans, hvals, hplaced⟩ :=
    ih (0 + fuel) (pre ++ w) chunk junk options spans hfuel' hdrop'
  refine ⟨s, new, ?_, ?_, hspans, ?_, hplaced.mono (by omega)⟩
  · rw [tokenizeLoop, hstep, Option.bind_some, hvalues, ← hloop, hlen, hu, List.append_assoc,
      List.append_assoc]
  · rw [hvalues, hoptions]
  · rw [hvalues, hvals]

theorem Reads.of_value {a v b t : List Byte} (hu : u = a ++ v ++ b ++ t) (hne : a ++ v ++ b ≠ [])
    (hv : (0 : Byte) ∉ v)
    (hvalues : lineValues u = ((lineValues t).1, .ofBytes v :: (lineValues t).2))
    (hstep : ∀ (pre junk : List Byte) (options : List Opt) (spans : List Span),
      ∃ w : List Byte, w.length = (a ++ v ++ b).length ∧
        tokenize newopt ⟨pre ++ (u ++ 0 :: junk), pre.length, options, spans⟩ =
          some (.more ⟨pre ++ w ++ (t ++ 0 :: junk), (pre ++ w).length,
            addValue options newopt (.ofBytes v), spans ++ [⟨pre.length + a.length, .ofBytes v⟩]⟩))
    (ih : Reads newopt t) : Reads newopt u := by
  intro fuel pre chunk junk options spans hfuel hdrop
  obtain ⟨fuel, rfl⟩ := Nat.exists_eq_add_of_lt (Nat.zero_lt_of_lt hfuel)
  obtain ⟨w, hw, htoken⟩ := hstep pre junk options spans
  have hpos := List.length_pos_iff.mpr hne
  have hfuel' : t.length < 0 + fuel := by
    rw [hu, List.length_append] at hfuel
    omega
  have hlen : (pre ++ w).length = pre.length + (a ++ v ++ b).length := by
    rw [List.length_append, hw]
  have hdrop' : (chunk ++ [0]).drop (pre ++ w).length = t ++ 0 :: junk := by
    rw [hlen, ← List.drop_drop, hdrop, hu, List.append_assoc _ t, List.drop_left]
  obtain ⟨s, new, hloop, hoptions, hspans, hvals, hplaced⟩ :=
    ih (0 + fuel) (pre ++ w) chunk junk (addValue options newopt (.ofBytes v))
      (spans ++ [⟨pre.length + a.length, .ofBytes v⟩]) hfuel' hdrop'
  -- the value as it stands in the chunk
  obtain ⟨y, rest, hrest⟩ : ∃ y rest, b ++ t ++ 0 :: junk = y :: rest :=
    List.exists_cons_of_ne_nil (by simp)
  have hslice : (chunk ++ [0]).drop (pre.length + a.length) = v ++ y :: rest := by
    rw [← List.drop_drop, hdrop, hu, ← hrest]
    simp only [List.append_assoc, List.drop_left]
  obtain ⟨htext, hstop⟩ := slice_of_drop hslice
  have hchars : (CString.ofBytes v).chars = v := CString.chars_ofBytes hv
  have hlength : (CString.ofBytes v).length = v.length := congrArg List.length hchars
  refine ⟨s, ⟨pre.length + a.length, .ofBytes v⟩ :: new, ?_, ?_, ?_, ?_, ?_⟩
  · rw [tokenizeLoop, htoken, Option.bind_some, hvalues, ← hloop]
  · rw [hvalues, hoptions]
    rfl
  · rw [hspans, List.append_assoc, List.singleton_append]
  · rw [List.map_cons, hvals, hvalues]
  · refine Placed.cons ?_ (Nat.le_add_right _ _) ?_ ?_ hplaced
    · rw [hlength, hchars, htext]
    · dsimp only [Span.stop]
      rw [hlength]
      exact hstop
    · dsimp only [Span.stop]
      rw [hlength, hlen, List.length_append, List.length_append]
      omega

theorem exists_word (u : List Byte) : ∃ v rest, u = v ++ rest ∧
    (∀ b ∈ v, b ≠ valueSeparator ∧ isspace b = false) ∧
    ∀ b ∈ rest.head?, b = valueSeparator ∨ isspace b = true := by
  induction u with
  | nil => exact ⟨[], [], rfl, fun _ hb => absurd hb List.not_mem_nil, nofun⟩
  | cons b u ih =>
    by_cases hb : b = valueSeparator ∨ isspace b = true
    · refine ⟨[], b :: u, rfl, fun _ hb => absurd hb List.not_mem_nil, ?_⟩
      rintro _ ⟨⟩
      exact hb
    · obtain ⟨v, rest, rfl, hword, hrest⟩ := ih
      rw [not_or, Bool.not_eq_true] at hb
      exact ⟨b :: v, rest, rfl, List.forall_mem_cons.mpr ⟨hb, hword⟩, hrest⟩

theorem Reads.of_quoted {c : Byte} {v rest : List Byte} (hplace : ¬ isspace c = true ∧ c ≠ commentChar)
    (hquote : isQuote c = true) (hu : (0 : Byte) ∉ c :: (v ++ c :: rest)) (hv : c ∉ v)
    (ih : Reads newopt ((rest.dropWhile (· ≠ valueSeparator)).drop 1)) :
    Reads newopt (c :: (v ++ c :: rest)) := by
  obtain ⟨hc0, hv0, hrest0⟩ : c ≠ 0 ∧ (0 : Byte) ∉ v ∧ (0 : Byte) ∉ rest := by
    simp only [List.mem_cons, List.mem_append, not_or] at hu
    exact ⟨Ne.symm hu.1, hu.2.1, hu.2.2.2⟩
  obtain ⟨w, hw, -⟩ := skip_separator hrest0 []
  have hsplit : c :: (v ++ c :: rest) =
      [c] ++ v ++ ([c] ++ w) ++ (rest.dropWhile (· ≠ valueSeparator)).drop 1 := by
    conv_lhs => rw [hw]
    simp
  refine .of_value hsplit (by simp) hv0 (lineValues_quote hquote hv rest)
    (fun pre junk options spans => ⟨c :: (v ++ 0 :: w), by simp, ?_⟩) ih
  obtain ⟨w', hw', hstep⟩ := @quotedValue_closed rest junk pre newopt options spans pre.length c v
    hc0 hv0 hv hrest0 rfl
  obtain rfl : w = w' := List.append_cancel_right (hw.symm.trans hw')
  have hbuf : pre ++ c :: (v ++ 0 :: (rest ++ 0 :: junk)) = pre ++ c :: (v ++ 0 :: w) ++
      ((rest.dropWhile (· ≠ valueSeparator)).drop 1 ++ 0 :: junk) := by
    conv_lhs => rw [hw]
    simp
  have hat : pre.length + 1 + v.length + 1 + w.length = (pre ++ c :: (v ++ 0 :: w)).length := by
    simp only [List.length_append, List.length_cons]
    omega
  rw [List.cons_append, tokenize_cons, if_neg hc0, if_neg hplace.1, if_neg hplace.2,
    if_pos hquote, List.append_assoc, List.cons_append, hstep, hbuf, hat]
  rfl

theorem Reads.of_word {c : Byte} {t : List Byte} (hc : Plain c) (hu : (0 : Byte) ∉ c :: t)
    (ih : ∀ r : List Byte, r.length ≤ t.length → (0 : Byte) ∉ r → Reads newopt r) :
    Reads newopt (c :: t) := by
  have hc0 : c ≠ 0 := ne_of_mem_of_not_mem List.mem_cons_self hu
  obtain ⟨v, rest, hsplit, hword, hrest⟩ := exists_word (c :: t)
  rw [hsplit] at hu
  have hv0 : (0 : Byte) ∉ v := fun h => hu (List.mem_append_left _ h)
  have hstops : ∀ b ∈ v, (b = valueSeparator || isspace b) = false := fun b hb => by
    simp [hword b hb]
  have hhead : ∀ b ∈ (v ++ rest).head?, Plain b := by
    rw [← hsplit]
    rintro b ⟨⟩
    exact hc
  have hvalues := lineValues_word hhead (hsplit ▸ List.cons_ne_nil c t) hword hrest
  have hbranch : ∀ pre junk options spans,
      tokenize newopt ⟨pre ++ (c :: t ++ 0 :: junk), pre.length, options, spans⟩ =
        plainValue newopt ⟨pre ++ (c :: t ++ 0 :: junk), pre.length, options, spans⟩ := by
    obtain ⟨hspace, hcom, hquote⟩ := hc
    intro pre junk options spans
    rw [List.cons_append, tokenize_cons, if_neg hc0, if_neg (by simp [hspace]), if_neg hcom,
      if_neg (by simp [hquote])]
  rw [hsplit] at hbranch ⊢
  cases rest with
  | nil =>
    rw [List.append_nil] at hsplit hbranch hvalues ⊢
    refine .of_value (a := []) (b := []) (t := []) (by simp) (by simp [← hsplit]) hv0 hvalues
      (fun pre junk options spans => ⟨v, by simp, ?_⟩) (ih [] (Nat.zero_le _) List.not_mem_nil)
    rw [hbranch, plainValue_last rfl hv0 hstops, List.nil_append, List.append_assoc,
      List.length_append]
    rfl
  | cons x r =>
    have hx := hrest x rfl
    have hx0 : x ≠ 0 := ne_of_mem_of_not_mem (List.mem_append_right _ List.mem_cons_self) hu
    have hr0 : (0 : Byte) ∉ r := fun h =>
      hu (List.mem_append_right _ (List.mem_cons_of_mem _ h))
    have hshort : r.length ≤ t.length := by
      have hcount := congrArg List.length hsplit
      rw [List.length_cons, List.length_append, List.length_cons] at hcount
      omega
    refine .of_value (a := []) (b := [x]) (t := r) (by simp) (by simp) hv0 hvalues
      (fun pre junk options spans => ⟨v ++ [0], by simp, ?_⟩) (ih r hshort hr0)
    rw [hbranch, List.append_assoc, List.cons_append, plainValue_more rfl hv0 hstops hx0
      (by simpa using hx)]
    simp [Nat.add_assoc]

theorem reads (u : List Byte) (hu : (0 : Byte) ∉ u) : Reads newopt u := by
  induction hlen : u.length using Nat.strong_induction_on generalizing u with
  | _ n ih =>
  cases u with
  | nil =>
    refine .of_end true (by rw [lineValues]) fun pre junk options spans => ?_
    rw [List.nil_append, tokenize_cons, if_pos rfl]
    rfl
  | cons c t =>
    rw [List.length_cons] at hlen
    have hc0 : c ≠ 0 := ne_of_mem_of_not_mem List.mem_cons_self hu
    have ht : (0 : Byte) ∉ t := fun h => hu (List.mem_cons_of_mem _ h)
    by_cases hspace : isspace c = true
    · refine .of_skip (w := [c]) rfl (List.cons_ne_nil _ _) (lineValues_space hspace t)
        (fun pre junk options spans => ?_) (ih t.length (by omega) t ht rfl)
      rw [List.cons_append, tokenize_cons, if_neg hc0, if_pos hspace]
      rfl
    by_cases hcom : c = commentChar
    · subst hcom
      refine .of_end true (lineValues_comment t) fun pre junk options spans => ?_
      rw [List.cons_append, tokenize_cons, if_neg hc0, if_neg hspace, if_pos rfl]
      rfl
    by_cases hquote : isQuote c = true
    · by_cases hqc : c ∈ t
      · obtain ⟨v, rest, rfl, hv⟩ := List.eq_append_cons_of_mem hqc
        have hsuffix : (rest.dropWhile (· ≠ valueSeparator)).drop 1 <:+ v ++ c :: rest :=
          ((List.drop_suffix _ _).trans (List.dropWhile_suffix _)).trans
            ((List.suffix_cons c rest).trans (List.suffix_append v _))
        have hshort := hsuffix.length_le
        exact .of_quoted ⟨hspace, hcom⟩ hquote hu hv
          (ih _ (by omega) _ (fun h => ht (hsuffix.subset h)) rfl)
      · refine .of_end false (lineValues_open hquote hqc) fun pre junk options spans => ?_
        rw [List.cons_append, tokenize_cons, if_neg hc0, if_neg hspace, if_neg hcom, if_pos hquote]
        exact quotedValue_open ht hqc _ rfl rfl
    · have hplain : Plain c := ⟨by simpa using hspace, hcom, by simpa using hquote⟩
      exact .of_word hplain hu fun r hr hr0 => ih r.length (by omega) r hr0 rfl

/-- The string in the chunk is the line that `readLine` reads. -/
theorem exists_string (chunk : List Byte) : ∃ u junk, chunk ++ [0] = u ++ 0 :: junk ∧
    (0 : Byte) ∉ u ∧ CString.ofBytes chunk = .ofBytes u ∧ u.length ≤ chunk.length := by
  by_cases hzero : (0 : Byte) ∈ chunk
  · obtain ⟨u, junk, rfl, hu⟩ := List.eq_append_cons_of_mem hzero
    refine ⟨u, junk ++ [0], by simp, hu, ?_, by simp⟩
    have hall : ∀ b ∈ u, decide (b ≠ 0) = true := fun b hb =>
      decide_eq_true (ne_of_mem_of_not_mem hb hu)
    ext1
    rw [CString.chars_ofBytes hu]
    show (u ++ 0 :: junk).takeWhile (· ≠ 0) = u
    rw [List.takeWhile_append_of_pos hall]
    simp
  · exact ⟨chunk, [], rfl, hzero, rfl, le_rfl⟩

theorem readChunk_spec (options : List Opt) {chunk : List Byte} {fuel : ℕ}
    (hfuel : chunk.length < fuel) :
    ∃ spans, readChunk fuel options chunk = some ((readLine options (.ofBytes chunk)).1,
        (readLine options (.ofBytes chunk)).2, spans) ∧ Placed chunk 0 spans := by
  obtain ⟨u, junk, hbuf, hu, hstring, hlen⟩ := exists_string chunk
  rw [hstring, readChunk]
  dsimp only
  rw [hbuf]
  by_cases hdelim : valueDelimiter ∈ u
  · obtain ⟨name, tmp, rfl, hname⟩ := List.eq_append_cons_of_mem hdelim
    have hname0 : (0 : Byte) ∉ name := fun h => hu (List.mem_append_left _ h)
    have htmp0 : (0 : Byte) ∉ tmp := fun h =>
      hu (List.mem_append_right _ (List.mem_cons_of_mem _ h))
    have hdrop : (chunk ++ [0]).drop (name ++ [0]).length = tmp ++ 0 :: junk := by
      rw [hbuf, List.append_assoc, List.length_append, ← List.drop_drop, List.drop_left]
      rfl
    have hshort : tmp.length < fuel := by
      rw [List.length_append, List.length_cons] at hlen
      omega
    obtain ⟨s, new, hloop, hoptions, hspans, -, hplaced⟩ := reads tmp htmp0 fuel (name ++ [0]) chunk
      junk (freeValues (addOption options (.ofBytes name)).1 (addOption options (.ofBytes name)).2)
      [] hshort hdrop
    refine ⟨new, ?_, hplaced.mono (Nat.zero_le _)⟩
    have hne : valueDelimiter ≠ 0 := by decide
    have hat : (name ++ valueDelimiter :: (tmp ++ 0 :: junk))[name.length]? =
        some valueDelimiter := getElem?_pre rfl _
    have hlength : (name ++ [0]).length = name.length + 1 := by simp
    rw [readLine_eq options hname hu, List.append_assoc, List.cons_append,
      optlen_eq (quoted_stops hname0 hname) (.inr (decide_eq_true rfl))]
    simp only [Option.bind_eq_bind, Option.bind_some, Option.pure_def]
    rw [hat, Option.bind_some, if_neg hne, storeByte_pre rfl, Option.bind_some,
      readString_eq hname0, Option.bind_some]
    rw [List.append_assoc, List.singleton_append, hlength] at hloop
    rw [hloop, Option.bind_some, hoptions, foldl_freeValues, hspans, List.nil_append]
  · refine ⟨[], ?_, .nil⟩
    have hat : (u ++ 0 :: junk)[u.length]? = some 0 := getElem?_pre rfl _
    rw [optlen_eq (quoted_stops hu hdelim) (.inl rfl)]
    simp only [Option.bind_eq_bind, Option.bind_some, Option.pure_def]
    rw [hat, Option.bind_some, if_pos rfl, readLine_skip]
    rwa [CString.chars_ofBytes hu]

theorem readChunks_spec (options : List Opt) (nline : ℕ) {bufs : List (List Byte)} {fuel : ℕ}
    (hfuel : ∀ chunk ∈ bufs, chunk.length < fuel) :
    ∃ spans, readChunks fuel options nline bufs =
        some ((readLines options nline bufs).1, (readLines options nline bufs).2, spans) ∧
      List.Forall₂ (fun chunk => Placed chunk 0) (bufs.take spans.length) spans := by
  induction bufs generalizing options nline with
  | nil => exact ⟨[], rfl, .nil⟩
  | cons buf bufs ih =>
    obtain ⟨spans, hchunk, hplaced⟩ := readChunk_spec options (hfuel buf List.mem_cons_self)
    rw [readChunks, hchunk, readLines, Option.bind_some]
    cases hline : readLine options (.ofBytes buf) with
    | mk ok options' =>
      cases ok with
      | false => exact ⟨[spans], rfl, .cons hplaced .nil⟩
      | true =>
        obtain ⟨rest, hrest, hall⟩ := ih options' (nline + 1) fun chunk hmem =>
          hfuel chunk (List.mem_cons_of_mem _ hmem)
        refine ⟨spans :: rest, ?_, .cons hplaced hall⟩
        dsimp only
        rw [hrest]
        rfl

end Chunk

/-- The tokeniser comes to its end in the part of the buffer that `fgets` has written, whatever the
file and the options are. No two values of a chunk share a byte of it. -/
theorem tokeniser_total (fp : List Byte) (options : List Opt) :
    (∀ chunk ∈ fgetsLines maxStrLen [] fp, chunk.length < maxStrLen) ∧
      ∃ enough, ∀ fuel ≥ enough, ∃ spans,
        readConfigBuffer fuel fp options =
          some ((readConfig fp options).1, (readConfig fp options).2, spans) ∧
        List.Forall₂ (fun chunk => Placed chunk 0)
          ((fgetsLines maxStrLen [] fp).take spans.length) spans := by
  have hlength := @length_fgetsLines maxStrLen [] (by decide) fp (by decide)
  refine ⟨hlength, maxStrLen, fun fuel hfuel => ?_⟩
  exact readChunks_spec options 0 fun chunk hchunk => (hlength chunk hchunk).trans_le hfuel

end Sysbench.Options
