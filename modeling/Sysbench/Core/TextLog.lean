import Sysbench.Machine.CStrings
import Sysbench.Machine.Repeats
import Sysbench.Machine.Words

/-! # Text messages of the log

The handler of text messages keeps the last text and counts how often it comes again. The count is
printed before the next text that is another one. Messages are logged after `log_init`.
-/
namespace Sysbench.Core

open Bytes CStrings Words Repeats

def textBufferSize : ℕ := 4096

inductive LogMsgPriority
  | fatal | alert | warning | notice | info | debug
deriving DecidableEq

def LogMsgPriority.toNat : LogMsgPriority → ℕ
  | .fatal => 0
  | .alert => 1
  | .warning => 2
  | .notice => 3
  | .info => 4
  | .debug => 5

def logMsgTextAllowDuplicates : ℕ := 1

structure LogMsgText where
  priority : LogMsgPriority
  text : List Byte
  flags : ℕ

/-- `text_cnt`, the string in `text_buf` and what was printed. -/
structure TextHandler where
  textCnt : ℕ
  textBuf : List Byte
  out : List Byte

def bytesOf (s : String) : List Byte := s.toList.map charByte

def textHandlerInit : TextHandler := ⟨0, [], []⟩

def LogMsgPriority.text : LogMsgPriority → List Byte
  | .fatal => bytesOf "FATAL: "
  | .alert => bytesOf "ALERT: "
  | .warning => bytesOf "WARNING: "
  | .debug => bytesOf "DEBUG: "
  | .notice | .info => []

def unsignedText (n : ℕ) : List Byte := (Nat.toDigits 10 n).map charByte

def repeatNotice (cnt : ℕ) : List Byte :=
  bytesOf "(last message repeated " ++ unsignedText cnt ++ bytesOf " times)"

/-- `!text_msg->flags & LOG_MSG_TEXT_ALLOW_DUPLICATES` -/
def skipsDuplicates (flags : ℕ) : Prop :=
  (if flags = 0 then 1 else 0) &&& logMsgTextAllowDuplicates ≠ 0

instance (flags : ℕ) : Decidable (skipsDuplicates flags) := by
  unfold skipsDuplicates
  infer_instance

def textHandlerProcess (verbosity : ℕ) (h : TextHandler) (textMsg : LogMsgText) : TextHandler :=
  if verbosity < textMsg.priority.toNat then h
  else if skipsDuplicates textMsg.flags ∧ h.textBuf = textMsg.text then
    { h with textCnt := toUInt 32 (h.textCnt + 1) }
  else
    let h :=
      if skipsDuplicates textMsg.flags then
        { textCnt := 0
          textBuf := textMsg.text
          out := h.out ++ if 0 < h.textCnt then repeatNotice h.textCnt ++ [newline] else [] }
      else h
    { h with out := h.out ++ (textMsg.priority.text ++ textMsg.text) }

/-- The buffer of `log_text`: the text that `vsnprintf` stores, and the newline behind it as far as
there is room. -/
def textBuffer (text : List Byte) : List Byte :=
  let maxlen := textBufferSize
  let n := if maxlen ≤ text.length then maxlen else text.length
  text.take (maxlen - 1) ++ [newline].take (maxlen - n - 1)

def logText (verbosity : ℕ) (h : TextHandler) (priority : LogMsgPriority) (text : List Byte) :
    TextHandler :=
  textHandlerProcess verbosity h ⟨priority, textBuffer text, 0⟩

/-- The number of the notice that a line is. -/
def noticeCount (line : List Byte) : Option ℕ :=
  let digits := (line.drop (bytesOf "(last message repeated ").length).takeWhile (· ≠ charByte ' ')
  let n := Nat.ofDigitChars 10 (digits.map fun b => Char.ofNat b.toNat) 0
  if n < 2 ^ 32 ∧ line = repeatNotice n then some n else none

/-- A text of one line that fits into the buffer and is no notice. -/
structure LogLine where
  chars : List Byte
  noNul : (0 : Byte) ∉ chars
  oneLine : newline ∉ chars
  fits : chars.length < textBufferSize
  noNotice : noticeCount chars = none

structure LogCall where
  priority : LogMsgPriority
  text : LogLine

def LogCall.line (c : LogCall) : List Byte := c.priority.text ++ c.text.chars

def logCalls (verbosity : ℕ) (h : TextHandler) (calls : List LogCall) : TextHandler :=
  calls.foldl (fun h c => logText verbosity h c.priority c.text.chars) h

/-- `log_done`. The text handler has no `done`. That of the operations logs the statistics. -/
def logDone (verbosity : ℕ) (h : TextHandler) (stats : List LogCall) : TextHandler :=
  logCalls verbosity h stats

def passing (verbosity : ℕ) (calls : List LogCall) : List LogCall :=
  calls.filter fun c => c.priority.toNat ≤ verbosity

/-- The printed text, with its notices expanded, has the lines of the messages. -/
def LosesNothing (verbosity : ℕ) (calls stats : List LogCall) : Prop :=
  expand noticeCount newline (logDone verbosity (logCalls verbosity textHandlerInit calls) stats).out
    = (passing verbosity (calls ++ stats)).map LogCall.line

def repeats (p : List LogCall) : ℕ :=
  match p.reverse with
  | [] => 0
  | c :: cs => (cs.takeWhile fun b => b.text.chars = c.text.chars).length

/-- A message may follow another one with the same text if it has the same line. Another one needs
the newline of the message before. -/
structure Follows (a b : LogCall) : Prop where
  sameLine : a.text.chars = b.text.chars → a.line = b.line
  ended : a.text.chars ≠ b.text.chars → a.text.chars.length + 1 < textBufferSize

/-- Nothing of these messages is lost so far, if the count is kept in mind. -/
structure Kept (p : List LogCall) : Prop where
  follows : p.IsChain Follows
  counted : ∀ q, q <+: p → repeats q < 2 ^ 32

/-! ## Notices -/

section Notices

theorem length_repeatNotice_lt {n : ℕ} (h : n < 2 ^ 32) :
    (repeatNotice n).length + 1 < textBufferSize := by
  have hdigits : (Nat.toDigits 10 n).length ≤ 10 :=
    (Nat.length_toDigits_le_iff (by decide) (by decide)).mpr (h.trans (by decide))
  have hstart : (bytesOf "(last message repeated ").length = 23 := by decide
  have hend : (bytesOf " times)").length = 7 := by decide
  rw [repeatNotice, List.length_append, List.length_append, unsignedText, List.length_map, hstart,
    hend, textBufferSize]
  omega

theorem mem_unsignedText {n : ℕ} {b : Byte} (h : b ∈ unsignedText n) :
    48 ≤ b.toNat ∧ b.toNat ≤ 57 := by
  obtain ⟨c, hc, rfl⟩ := List.mem_map.mp h
  have hc : c.isDigit := Nat.isDigit_of_mem_toDigits (by decide) (by decide) hc
  simp only [Char.isDigit, Bool.and_eq_true, decide_eq_true_eq, UInt32.le_iff_toNat_le] at hc
  have hlow : '0'.val.toNat = 48 := rfl
  have hhigh : '9'.val.toNat = 57 := rfl
  simp only [charByte, BitVec.toNat_ofNat, Char.toNat]
  omega

theorem unsignedText_value (n : ℕ) :
    Nat.ofDigitChars 10 ((unsignedText n).map fun b => Char.ofNat b.toNat) 0 = n := by
  have hchar : ∀ c ∈ Nat.toDigits 10 n, Char.ofNat (charByte c).toNat = c := by
    intro c hc
    have hmem := mem_unsignedText (List.mem_map_of_mem hc)
    have hc : c.isDigit := Nat.isDigit_of_mem_toDigits (by decide) (by decide) hc
    simp only [Char.isDigit, Bool.and_eq_true, decide_eq_true_eq, UInt32.le_iff_toNat_le] at hc
    have hhigh : '9'.val.toNat = 57 := rfl
    have hbyte : (charByte c).toNat = c.toNat := by
      simp only [charByte, BitVec.toNat_ofNat, Char.toNat]
      omega
    rw [hbyte, Char.ofNat_toNat]
  have hmap : (unsignedText n).map (fun b => Char.ofNat b.toNat) = Nat.toDigits 10 n := by
    rw [unsignedText, List.map_map]
    exact (List.map_congr_left hchar).trans (List.map_id _)
  rw [hmap, Nat.ofDigitChars_ten_toDigits]

theorem noticeCount_repeatNotice {n : ℕ} (h : n < 2 ^ 32) :
    noticeCount (repeatNotice n) = some n := by
  have hdigits : ((repeatNotice n).drop (bytesOf "(last message repeated ").length).takeWhile
      (· ≠ charByte ' ') = unsignedText n := by
    rw [repeatNotice, List.append_assoc, List.drop_left, List.takeWhile_append_of_pos]
    · have hend : (bytesOf " times)").takeWhile (· ≠ charByte ' ') = [] := by decide
      rw [hend, List.append_nil]
    · intro b hb
      have hmem := mem_unsignedText hb
      refine decide_eq_true fun heq => ?_
      rw [heq] at hmem
      exact absurd hmem.1 (by decide)
  rw [noticeCount, hdigits, unsignedText_value]
  exact if_pos ⟨h, rfl⟩

theorem eq_of_noticeCount {line : List Byte} {n : ℕ} (h : noticeCount line = some n) :
    n < 2 ^ 32 ∧ line = repeatNotice n := by
  unfold noticeCount at h
  dsimp only at h
  split at h
  · rename_i hline
    cases h
    exact hline
  · cases h

theorem newline_notMem_repeatNotice (n : ℕ) : newline ∉ repeatNotice n := by
  intro h
  rw [repeatNotice, List.mem_append, List.mem_append] at h
  rcases h with (h | h) | h
  · exact absurd h (by decide)
  · exact absurd (mem_unsignedText h).1 (by decide)
  · exact absurd h (by decide)

theorem newline_notMem_line (c : LogCall) : newline ∉ c.line := by
  intro h
  rcases List.mem_append.mp h with h | h
  · revert h
    cases c.priority <;> decide
  · exact c.text.oneLine h

/-- A prefix does not make a notice of a text. -/
theorem noticeCount_line (c : LogCall) : noticeCount c.line = none := by
  cases hcount : noticeCount c.line with
  | none => rfl
  | some n =>
    have hline := (eq_of_noticeCount hcount).2
    unfold LogCall.line at hline hcount
    cases hprio : c.priority <;> rw [hprio] at hline hcount
    case notice | info =>
      rw [LogMsgPriority.text, List.nil_append, c.text.noNotice] at hcount
      cases hcount
    all_goals
      have hhead := congrArg List.head? hline
      cases hhead

/-- What a long line begins is no notice. -/
theorem noticeCount_of_length {line : List Byte} (h : textBufferSize ≤ line.length + 1) :
    noticeCount line = none := by
  cases hcount : noticeCount line with
  | none => rfl
  | some n =>
    obtain ⟨hn, rfl⟩ := eq_of_noticeCount hcount
    have hlength := length_repeatNotice_lt hn
    omega

end Notices

/-! ## The handler -/

section Handler

def LogCall.Ended (c : LogCall) : Prop := c.text.chars.length + 1 < textBufferSize

instance (c : LogCall) : Decidable c.Ended := by
  unfold LogCall.Ended
  infer_instance

theorem textBuffer_eq (c : LogCall) : textBuffer c.text.chars =
    c.text.chars ++ if c.Ended then [newline] else [] := by
  have hfits := c.text.fits
  rw [textBuffer, if_neg (by omega), List.take_of_length_le (by omega)]
  by_cases hended : c.Ended
  · have hroom : [newline].length ≤ textBufferSize - c.text.chars.length - 1 := by
      unfold LogCall.Ended at hended
      rw [List.length_singleton]
      omega
    rw [if_pos hended, List.take_of_length_le hroom]
  · have hroom : textBufferSize - c.text.chars.length - 1 = 0 := by
      unfold LogCall.Ended at hended
      omega
    rw [if_neg hended, hroom, List.take_zero]

theorem textBuffer_ne_nil (c : LogCall) : textBuffer c.text.chars ≠ [] := by
  rw [textBuffer_eq]
  intro h
  obtain ⟨hchars, hend⟩ := List.append_eq_nil_iff.mp h
  have hended : c.Ended := by
    rw [LogCall.Ended, hchars]
    decide
  rw [if_pos hended] at hend
  cases hend

/-- The comparison with the text before sees the text alone. -/
theorem textBuffer_eq_iff (a b : LogCall) :
    textBuffer a.text.chars = textBuffer b.text.chars ↔ a.text.chars = b.text.chars := by
  refine ⟨fun h => ?_, congrArg textBuffer⟩
  have htake : ∀ c : LogCall, (textBuffer c.text.chars).takeWhile (· ≠ newline) = c.text.chars := by
    intro c
    rw [textBuffer_eq, List.takeWhile_append_of_pos fun x hx =>
      decide_eq_true (ne_of_mem_of_not_mem hx c.text.oneLine)]
    split <;> simp
  rw [← htake a, h, htake b]

variable {verbosity : ℕ} {h : TextHandler} {c : LogCall}

theorem logText_filtered (hprio : verbosity < c.priority.toNat) :
    logText verbosity h c.priority c.text.chars = h := if_pos hprio

theorem logText_same (hprio : c.priority.toNat ≤ verbosity)
    (hsame : h.textBuf = textBuffer c.text.chars) :
    logText verbosity h c.priority c.text.chars = { h with textCnt := toUInt 32 (h.textCnt + 1) } := by
  have hskip : skipsDuplicates 0 := by decide
  rw [logText, textHandlerProcess, if_neg (not_lt.mpr hprio)]
  exact if_pos ⟨hskip, hsame⟩

theorem logText_other (hprio : c.priority.toNat ≤ verbosity)
    (hother : h.textBuf ≠ textBuffer c.text.chars) :
    logText verbosity h c.priority c.text.chars =
      { textCnt := 0
        textBuf := textBuffer c.text.chars
        out := h.out ++ (if 0 < h.textCnt then repeatNotice h.textCnt ++ [newline] else []) ++
          (c.priority.text ++ textBuffer c.text.chars) } := by
  have hskip : skipsDuplicates 0 := by decide
  rw [logText, textHandlerProcess, if_neg (not_lt.mpr hprio)]
  dsimp only
  rw [if_neg fun hand => hother hand.2, if_pos hskip]

end Handler

/-! ## Reading what was printed -/

section Reading

/-- The line that a notice repeats, once it is complete. -/
def current (r : Reader Byte) : List Byte := if r.rest = [] then r.before else r.rest

variable {r : Reader Byte}

theorem read_message (r : Reader Byte) (c : LogCall)
    (hcount : noticeCount (r.rest ++ c.line) = none) :
    ∃ u, r.read noticeCount newline (c.priority.text ++ textBuffer c.text.chars) = u ∧
      (c.Ended → u.rest = []) ∧ (¬ c.Ended → u.rest = r.rest ++ c.line) ∧
      u.final noticeCount = r.lines ++ [r.rest ++ c.line] ∧ current u = r.rest ++ c.line := by
  rw [textBuffer_eq, ← List.append_assoc]
  by_cases hended : c.Ended
  · refine ⟨⟨r.lines ++ [r.rest ++ c.line], r.rest ++ c.line, []⟩, ?_, fun _ => rfl,
      fun hopen => absurd hended hopen, rfl, rfl⟩
    rw [if_pos hended]
    exact (Reader.read_line (newline_notMem_line c)).trans (Reader.close_of_none hcount)
  · have hne : r.rest ++ c.line ≠ [] := by
      intro hnil
      have hchars := (List.append_eq_nil_iff.mp (List.append_eq_nil_iff.mp hnil).2).2
      apply hended
      rw [LogCall.Ended, hchars]
      decide
    refine ⟨{ r with rest := r.rest ++ c.line }, ?_, fun hend => absurd hend hended, fun _ => rfl,
      Reader.final_of_none hne hcount, if_neg hne⟩
    rw [if_neg hended, List.append_nil]
    exact Reader.read_of_notMem (newline_notMem_line c)

def flush (cnt : ℕ) : List Byte := if 0 < cnt then repeatNotice cnt ++ [newline] else []

/-- A notice behind a complete line repeats it. -/
theorem read_flush {cnt : ℕ} (hcnt : cnt < 2 ^ 32) (hrest : r.rest = []) :
    (r.read noticeCount newline (flush cnt)).rest = [] ∧
      (r.read noticeCount newline (flush cnt)).lines =
        r.final noticeCount ++ List.replicate cnt (current r) := by
  rw [Reader.final_of_rest hrest, current, if_pos hrest]
  rcases Nat.eq_zero_or_pos cnt with rfl | hpos
  · exact ⟨hrest, (List.append_nil _).symm⟩
  · rw [flush, if_pos hpos, Reader.read_line (newline_notMem_repeatNotice cnt), hrest,
      List.nil_append, Reader.close_of_some (noticeCount_repeatNotice hcnt)]
    exact ⟨rfl, rfl⟩

/-- Behind a long line without its newline the notice becomes a part of this line. -/
theorem read_flush_open {cnt : ℕ} (hrest : textBufferSize ≤ r.rest.length + 1) (c : LogCall) :
    ∃ u, r.read noticeCount newline (flush cnt) = u ∧ noticeCount (u.rest ++ c.line) = none ∧
      u.lines.length + 1 ≤ (r.final noticeCount).length + cnt := by
  have hne : r.rest ≠ [] := by
    intro hnil
    rw [hnil] at hrest
    exact absurd hrest (by decide)
  have hlong : ∀ t, noticeCount (r.rest ++ t) = none := by
    intro t
    apply noticeCount_of_length
    rw [List.length_append]
    omega
  have hfinal : (r.final noticeCount).length = r.lines.length + 1 := by
    rw [Reader.final_of_none hne (by simpa using hlong []), List.length_append,
      List.length_singleton]
  rcases Nat.eq_zero_or_pos cnt with rfl | hpos
  · exact ⟨r, rfl, hlong c.line, hfinal.ge⟩
  · refine ⟨⟨r.lines ++ [r.rest ++ repeatNotice cnt], r.rest ++ repeatNotice cnt, []⟩, ?_,
      noticeCount_line c, ?_⟩
    · rw [flush, if_pos hpos, Reader.read_line (newline_notMem_repeatNotice cnt),
        Reader.close_of_none (hlong _)]
    · rw [List.length_append, List.length_singleton]
      omega

end Reading

/-! ## Runs -/

section Runs

theorem repeats_concat (p : List LogCall) (c : LogCall) :
    repeats (p ++ [c]) = match p.getLast? with
      | none => 0
      | some a => if a.text.chars = c.text.chars then repeats p + 1 else 0 := by
  rcases List.eq_nil_or_concat p with rfl | ⟨q, a, rfl⟩
  · rfl
  · rw [List.concat_eq_append, List.getLast?_concat]
    simp only [repeats, List.reverse_append, List.reverse_singleton, List.singleton_append]
    rw [List.takeWhile_cons]
    by_cases heq : a.text.chars = c.text.chars
    · rw [if_pos heq, if_pos (decide_eq_true heq), heq, List.length_cons]
    · rw [if_neg heq, if_neg (by simpa using heq), List.length_nil]

theorem kept_concat (p : List LogCall) (c : LogCall) :
    Kept (p ++ [c]) ↔ Kept p ∧ (∀ a ∈ p.getLast?, Follows a c) ∧ repeats (p ++ [c]) < 2 ^ 32 := by
  constructor
  · rintro ⟨hfollows, hcounted⟩
    rw [List.isChain_append] at hfollows
    exact ⟨⟨hfollows.1, fun q hq => hcounted q (hq.trans (List.prefix_append _ _))⟩,
      fun a ha => hfollows.2.2 a ha c rfl, hcounted _ List.prefix_rfl⟩
  · rintro ⟨⟨hfollows, hcounted⟩, hlast, hrepeats⟩
    refine ⟨List.isChain_append.mpr ⟨hfollows, List.isChain_singleton c, fun a ha b hb => ?_⟩,
      fun q hq => ?_⟩
    · cases hb
      exact hlast a ha
    · rcases List.prefix_concat_iff.mp hq with rfl | hq
      · exact hrepeats
      · exact hcounted q hq

/-- What the handler has printed of the messages that pass. -/
structure Tracks (p : List LogCall) (h : TextHandler) (r : Reader Byte) : Prop where
  read : Reader.start.read noticeCount newline h.out = r
  textBuf : h.textBuf = p.getLast?.elim [] fun a => textBuffer a.text.chars
  textCnt : h.textCnt = toUInt 32 (repeats p)
  bound : (r.final noticeCount).length + h.textCnt ≤ p.length
  rest : ∀ a ∈ p.getLast?, if a.Ended then r.rest = [] else textBufferSize ≤ r.rest.length + 1
  rest_nil : p = [] → r.rest = []
  current : Kept p → ∀ a ∈ p.getLast?, current r = a.line
  exact : r.final noticeCount ++ List.replicate h.textCnt (Core.current r) = p.map LogCall.line ↔
    Kept p

variable {p : List LogCall} {h : TextHandler} {r : Reader Byte} {verbosity : ℕ} {c : LogCall}

theorem Tracks.init : Tracks [] textHandlerInit Reader.start where
  read := rfl
  textBuf := rfl
  textCnt := rfl
  bound := le_rfl
  rest _ ha := nomatch ha
  rest_nil _ := rfl
  current _ _ ha := nomatch ha
  exact := by
    refine iff_of_true rfl ⟨List.isChain_nil, fun q hq => ?_⟩
    rw [List.prefix_nil.mp hq]
    decide

theorem Tracks.textCnt_lt (ht : Tracks p h r) : h.textCnt < 2 ^ 32 := by
  rw [ht.textCnt]
  exact toUInt_lt _ _

theorem Tracks.textCnt_eq (ht : Tracks p h r) (hp : Kept p) : h.textCnt = repeats p := by
  rw [ht.textCnt, toUInt_natCast (hp.counted p List.prefix_rfl)]

theorem Tracks.same (ht : Tracks p h r) {a : LogCall} (ha : p.getLast? = some a)
    (hsame : a.text.chars = c.text.chars) :
    Tracks (p ++ [c]) { h with textCnt := toUInt 32 (h.textCnt + 1) } r := by
  have hrepeats : repeats (p ++ [c]) = repeats p + 1 := by
    rw [repeats_concat, ha]
    exact if_pos hsame
  have hended : c.Ended ↔ a.Ended := by rw [LogCall.Ended, LogCall.Ended, hsame]
  have hmod : toUInt 32 (h.textCnt + 1) = (h.textCnt + 1) % 2 ^ 32 := by
    exact_mod_cast toUInt_eq_mod 32 (h.textCnt + 1)
  have hkept : Kept (p ++ [c]) ↔ Kept p ∧ a.line = c.line ∧ repeats p + 1 < 2 ^ 32 := by
    rw [kept_concat, hrepeats, ha]
    refine and_congr_right fun _ => and_congr_left fun _ => ?_
    constructor
    · exact fun hf => (hf a rfl).sameLine hsame
    · rintro hline _ ⟨⟩
      exact ⟨fun _ => hline, fun hne => absurd hsame hne⟩
  have hbound := ht.bound
  refine ⟨ht.read, ?_, ?_, ?_, ?_, fun hnil => absurd hnil (by simp), ?_, ?_⟩
  · rw [List.getLast?_concat, ht.textBuf, ha, Option.elim_some, Option.elim_some, hsame]
  · dsimp only
    rw [hrepeats, ht.textCnt]
    exact_mod_cast toUInt_toUInt_add 32 (repeats p) 1
  · dsimp only
    rw [hmod, List.length_append, List.length_singleton]
    have hle := Nat.mod_le (h.textCnt + 1) (2 ^ 32)
    omega
  · intro b hb
    rw [List.getLast?_concat] at hb
    cases hb
    rw [if_congr hended rfl rfl]
    exact ht.rest a ha
  · intro hk b hb
    rw [List.getLast?_concat] at hb
    cases hb
    obtain ⟨hp, hline, -⟩ := hkept.mp hk
    rw [ht.current hp a ha, hline]
  · dsimp only
    rw [hkept, hmod, List.map_append, List.map_singleton]
    constructor
    · intro heq
      -- only a count that was not reduced has enough copies
      have hlength := congrArg List.length heq
      rw [List.length_append, List.length_append, List.length_replicate, List.length_singleton,
        List.length_map] at hlength
      have hle := Nat.mod_le (h.textCnt + 1) (2 ^ 32)
      have hcnt : (h.textCnt + 1) % 2 ^ 32 = h.textCnt + 1 := by omega
      rw [hcnt, List.replicate_succ', ← List.append_assoc] at heq
      obtain ⟨hbefore, hlast⟩ := List.append_inj' heq rfl
      have hp := ht.exact.mp hbefore
      rw [List.singleton_inj, ht.current hp a ha] at hlast
      refine ⟨hp, hlast, ?_⟩
      have hlt := Nat.mod_lt (h.textCnt + 1) (show 0 < 2 ^ 32 by decide)
      rw [← ht.textCnt_eq hp]
      omega
    · rintro ⟨hp, hline, hlt⟩
      rw [ht.textCnt_eq hp, Nat.mod_eq_of_lt hlt, List.replicate_succ', ← List.append_assoc,
        ← ht.textCnt_eq hp, ht.exact.mpr hp, ht.current hp a ha, hline]

theorem repeats_other (hother : ∀ a ∈ p.getLast?, a.text.chars ≠ c.text.chars) :
    repeats (p ++ [c]) = 0 := by
  rw [repeats_concat]
  cases hlast : p.getLast? with
  | none => rfl
  | some a => exact if_neg (hother a hlast)

theorem kept_other (hother : ∀ a ∈ p.getLast?, a.text.chars ≠ c.text.chars) :
    Kept (p ++ [c]) ↔ Kept p ∧ ∀ a ∈ p.getLast?, a.Ended := by
  rw [kept_concat, repeats_other hother]
  refine and_congr_right fun _ => ?_
  constructor
  · exact fun hf a ha => (hf.1 a ha).ended (hother a ha)
  · exact fun hended => ⟨fun a ha => ⟨fun hsame => absurd hsame (hother a ha), fun _ =>
      hended a ha⟩, by decide⟩

/-- What is left to read behind a message. -/
theorem rest_message {u : Reader Byte} {w : List Byte} (hclosed : c.Ended → u.rest = [])
    (hopen : ¬ c.Ended → u.rest = w ++ c.line) :
    ∀ b ∈ (p ++ [c]).getLast?,
      if b.Ended then u.rest = [] else textBufferSize ≤ u.rest.length + 1 := by
  intro b hb
  rw [List.getLast?_concat] at hb
  cases hb
  split
  · exact hclosed ‹_›
  · rename_i hnot
    rw [hopen hnot, LogCall.line, List.length_append, List.length_append]
    rw [LogCall.Ended] at hnot
    omega

theorem Tracks.other_ended (ht : Tracks p h r)
    (hother : ∀ a ∈ p.getLast?, a.text.chars ≠ c.text.chars) (hended : ∀ a ∈ p.getLast?, a.Ended) :
    ∃ u, Tracks (p ++ [c])
      ⟨0, textBuffer c.text.chars,
        h.out ++ flush h.textCnt ++ (c.priority.text ++ textBuffer c.text.chars)⟩ u := by
  have hbound := ht.bound
  have hrest : r.rest = [] := by
    cases hlast : p.getLast? with
    | none => exact ht.rest_nil (List.getLast?_eq_none_iff.mp hlast)
    | some a =>
      have hopen := ht.rest a hlast
      rwa [if_pos (hended a hlast)] at hopen
  obtain ⟨hnil, hlines⟩ := read_flush ht.textCnt_lt hrest
  obtain ⟨u, hu, hclosed, hopen, hfinal, hcurrent⟩ := read_message
    (r.read noticeCount newline (flush h.textCnt)) c (by
      rw [hnil]
      exact noticeCount_line c)
  rw [hnil, List.nil_append] at hfinal hcurrent
  rw [hlines] at hfinal
  refine ⟨u, ?_, ?_, ?_, ?_, rest_message hclosed hopen, fun hnil => absurd hnil (by simp), ?_, ?_⟩
  · rw [Reader.read_append (h.out ++ flush h.textCnt), Reader.read_append h.out, ht.read, hu]
  · rw [List.getLast?_concat, Option.elim_some]
  · rw [repeats_other hother]
    rfl
  · dsimp only
    rw [hfinal, List.length_append, List.length_append, List.length_replicate,
      List.length_append, List.length_singleton, List.length_singleton]
    omega
  · intro _ b hb
    rw [List.getLast?_concat] at hb
    cases hb
    exact hcurrent
  · rw [kept_other hother, and_iff_left hended, hfinal, List.replicate_zero, List.append_nil,
      List.map_append, List.map_singleton, List.append_left_inj]
    exact ht.exact

theorem Tracks.other_open (ht : Tracks p h r)
    (hother : ∀ a ∈ p.getLast?, a.text.chars ≠ c.text.chars) {a : LogCall}
    (ha : a ∈ p.getLast?) (hnot : ¬ a.Ended) :
    ∃ u, Tracks (p ++ [c])
      ⟨0, textBuffer c.text.chars,
        h.out ++ flush h.textCnt ++ (c.priority.text ++ textBuffer c.text.chars)⟩ u := by
  have hbound := ht.bound
  have hlost : ¬ Kept (p ++ [c]) := fun hk => hnot (((kept_other hother).mp hk).2 a ha)
  have hrest := ht.rest a ha
  rw [if_neg hnot] at hrest
  obtain ⟨v, hv, hcount, hlines⟩ := @read_flush_open r h.textCnt hrest c
  obtain ⟨u, hu, hclosed, hopen, hfinal, -⟩ := read_message v c hcount
  have hlength : (u.final noticeCount).length ≤ p.length := by
    rw [hfinal, List.length_append, List.length_singleton]
    omega
  refine ⟨u, ?_, ?_, ?_, ?_, rest_message hclosed hopen, fun hnil => absurd hnil (by simp),
    fun hk => absurd hk hlost, ?_⟩
  · rw [Reader.read_append (h.out ++ flush h.textCnt), Reader.read_append h.out, ht.read, hv, hu]
  · rw [List.getLast?_concat, Option.elim_some]
  · rw [repeats_other hother]
    rfl
  · dsimp only
    rw [List.length_append]
    omega
  · refine iff_of_false (fun heq => ?_) hlost
    have hlen := congrArg List.length heq
    rw [List.replicate_zero, List.append_nil, List.length_map, List.length_append,
      List.length_singleton] at hlen
    omega

theorem Tracks.other (ht : Tracks p h r)
    (hother : ∀ a ∈ p.getLast?, a.text.chars ≠ c.text.chars) :
    ∃ u, Tracks (p ++ [c])
      ⟨0, textBuffer c.text.chars,
        h.out ++ flush h.textCnt ++ (c.priority.text ++ textBuffer c.text.chars)⟩ u := by
  by_cases hended : ∀ a ∈ p.getLast?, a.Ended
  · exact ht.other_ended hother hended
  · push Not at hended
    obtain ⟨a, ha, hnot⟩ := hended
    exact ht.other_open hother ha hnot

theorem Tracks.logText (ht : Tracks p h r) (hprio : c.priority.toNat ≤ verbosity) :
    ∃ u, Tracks (p ++ [c]) (logText verbosity h c.priority c.text.chars) u := by
  by_cases hsame : h.textBuf = textBuffer c.text.chars
  · rw [logText_same hprio hsame]
    rw [ht.textBuf] at hsame
    cases hlast : p.getLast? with
    | none =>
      rw [hlast] at hsame
      exact absurd hsame.symm (textBuffer_ne_nil c)
    | some a =>
      rw [hlast, Option.elim_some, textBuffer_eq_iff] at hsame
      exact ⟨r, ht.same hlast hsame⟩
  · rw [logText_other hprio hsame]
    apply ht.other
    intro a ha heq
    apply hsame
    rw [ht.textBuf, ha, Option.elim_some, heq]

theorem Tracks.logCalls (ht : Tracks p h r) (calls : List LogCall) :
    ∃ u, Tracks (p ++ passing verbosity calls) (logCalls verbosity h calls) u := by
  induction calls generalizing p h r with
  | nil => exact ⟨r, by rwa [passing, List.filter_nil, List.append_nil]⟩
  | cons c calls ih =>
    rw [passing, List.filter_cons, Core.logCalls, List.foldl_cons]
    by_cases hprio : c.priority.toNat ≤ verbosity
    · obtain ⟨u, hu⟩ := ht.logText hprio
      rw [if_pos (decide_eq_true hprio), List.append_cons]
      exact ih hu
    · rw [if_neg (by simpa using hprio), logText_filtered (not_le.mp hprio)]
      exact ih ht

end Runs

/-- The log loses nothing exactly if the messages that pass are kept and the last one is no
repetition: `log_done` does not print the count. -/
theorem losesNothing_iff (verbosity : ℕ) (calls stats : List LogCall) :
    LosesNothing verbosity calls stats ↔
      Kept (passing verbosity (calls ++ stats)) ∧ repeats (passing verbosity (calls ++ stats)) = 0 := by
  obtain ⟨r, hr⟩ := Tracks.init.logCalls (calls ++ stats)
  have hdone : logDone verbosity (logCalls verbosity textHandlerInit calls) stats =
      logCalls verbosity textHandlerInit (calls ++ stats) := List.foldl_append.symm
  have hbound := hr.bound
  have hexact := hr.exact
  rw [List.nil_append] at hr hbound hexact
  rw [LosesNothing, hdone, expand, hr.read]
  constructor
  · intro heq
    -- a count that is kept in mind has no room among the lines
    rw [heq, List.length_map] at hbound
    have hcnt : (logCalls verbosity textHandlerInit (calls ++ stats)).textCnt = 0 := by omega
    rw [hcnt, List.replicate_zero, List.append_nil] at hexact
    have hk := hexact.mp heq
    exact ⟨hk, (hr.textCnt_eq hk).symm.trans hcnt⟩
  · rintro ⟨hk, hrepeats⟩
    have hcnt := hr.textCnt_eq hk
    rw [hrepeats] at hcnt
    rw [hcnt, List.replicate_zero, List.append_nil] at hexact
    exact hexact.mpr hk

def hello : LogLine := ⟨bytesOf "hello", by decide, by decide, by decide, by decide⟩

/-- At the lowest verbosity the statistics do not pass, and the second of two messages is lost. -/
theorem not_losesNothing_repeated : ¬ ∃ stats : List LogCall, (∀ c ∈ stats, c.priority = .notice) ∧
    LosesNothing 0 [⟨.fatal, hello⟩, ⟨.fatal, hello⟩] stats := by
  rintro ⟨stats, hstats, hloses⟩
  have hpassing : passing 0 ([⟨.fatal, hello⟩, ⟨.fatal, hello⟩] ++ stats) =
      [⟨.fatal, hello⟩, ⟨.fatal, hello⟩] := by
    have hnone : passing 0 stats = [] := by
      refine List.filter_eq_nil_iff.mpr fun c hc => ?_
      rw [hstats c hc]
      decide
    rw [passing, List.filter_append]
    exact (congrArg _ hnone).trans (List.append_nil _)
  obtain ⟨r, hr⟩ := Tracks.init.logCalls ([⟨.fatal, hello⟩, ⟨.fatal, hello⟩] ++ stats)
  rw [List.nil_append, hpassing] at hr
  have hcnt := hr.textCnt.trans (show toUInt 32 1 = 1 by decide)
  have hbound := hr.bound
  have hfinal : r.final noticeCount = [LogCall.line ⟨.fatal, hello⟩, LogCall.line ⟨.fatal, hello⟩] := by
    rw [← hr.read, logCalls, List.foldl_append]
    rw [LosesNothing, hpassing] at hloses
    exact hloses
  rw [hcnt, hfinal] at hbound
  exact absurd hbound (by decide)

end Sysbench.Core
