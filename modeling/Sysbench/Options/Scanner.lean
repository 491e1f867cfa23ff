import Sysbench.Options.ConfigBuffer

/-! # Values by characters

The values of a line, read one character after another. What a text adds to the values of the text
before depends on the place where that one ends.
-/
namespace Sysbench.Options

open Bytes CStrings

/-- Where a text of values ends: between values, in a word, in quotes, behind a quoted value or in a
comment. -/
inductive Place
  | between
  | word
  | quoted (qc : Byte)
  | behind
  | comment
deriving DecidableEq

/-- The place, the value begun there and the values before. -/
structure Scan where
  place : Place
  begun : List Byte
  values : List (List Byte)

namespace Scan

def start : Scan := ⟨.between, [], []⟩

def step (s : Scan) (c : Byte) : Scan :=
  match s.place with
  | .between =>
    if isspace c then s
    else if c = commentChar then { s with place := .comment }
    else if isQuote c then { s with place := .quoted c }
    else if c = valueSeparator then { s with values := s.values ++ [[]] }
    else { s with place := .word, begun := [c] }
  | .word =>
    if c = valueSeparator ∨ isspace c then ⟨.between, [], s.values ++ [s.begun]⟩
    else { s with begun := s.begun ++ [c] }
  | .quoted qc =>
    if c = qc then ⟨.behind, [], s.values ++ [s.begun]⟩ else { s with begun := s.begun ++ [c] }
  | .behind => if c = valueSeparator then { s with place := .between } else s
  | .comment => s

def run (s : Scan) (text : List Byte) : Scan := text.foldl step s

/-- The values if nothing follows, and whether the quotes are closed. -/
def finish (s : Scan) : Bool × List (List Byte) :=
  match s.place with
  | .word => (true, s.values ++ [s.begun])
  | .quoted _ => (false, s.values)
  | .between | .behind | .comment => (true, s.values)

end Scan

/-- The place at the end of a text of values. -/
def placeAfter (text : List Byte) : Place := (Scan.start.run text).place

/-- The first character that is no blank begins a comment, if there is one. -/
def BlankOrComment (text : List Byte) : Prop :=
  ∀ c ∈ (text.dropWhile isspace).head?, c = commentChar

/-- A text behind the place adds no value and changes none. -/
def AddsNothing (place : Place) (text : List Byte) : Prop :=
  match place with
  | .between => BlankOrComment text
  | .word => ∀ c ∈ text.head?, (c = valueSeparator ∨ isspace c) ∧ BlankOrComment text.tail
  | .quoted qc => qc ∉ text
  | .behind => BlankOrComment ((text.dropWhile (· ≠ valueSeparator)).drop 1)
  | .comment => True

section Scan

variable {s : Scan} {values : List (List Byte)} {begun u v : List Byte} {qc : Byte}

theorem Scan.run_append (s : Scan) (u v : List Byte) : s.run (u ++ v) = (s.run u).run v :=
  List.foldl_append

theorem Scan.run_cons (s : Scan) (c : Byte) (u : List Byte) : s.run (c :: u) = (s.step c).run u :=
  rfl

theorem Scan.step_between (c : Byte) : Scan.step ⟨.between, begun, values⟩ c =
    if isspace c then ⟨.between, begun, values⟩
    else if c = commentChar then ⟨.comment, begun, values⟩
    else if isQuote c then ⟨.quoted c, begun, values⟩
    else if c = valueSeparator then ⟨.between, begun, values ++ [[]]⟩
    else ⟨.word, [c], values⟩ := rfl

theorem Scan.run_comment (u : List Byte) : Scan.run ⟨.comment, begun, values⟩ u =
    ⟨.comment, begun, values⟩ := by
  induction u with
  | nil => rfl
  | cons c u ih => exact ih

theorem Scan.run_word (hv : ∀ b ∈ v, b ≠ valueSeparator ∧ isspace b = false) :
    Scan.run ⟨.word, begun, values⟩ v = ⟨.word, begun ++ v, values⟩ := by
  induction v generalizing begun with
  | nil => rw [List.append_nil]; rfl
  | cons c v ih =>
    obtain ⟨hsep, hspace⟩ := hv c List.mem_cons_self
    have hstep : Scan.step ⟨.word, begun, values⟩ c = ⟨.word, begun ++ [c], values⟩ :=
      if_neg (not_or.mpr ⟨hsep, by simp [hspace]⟩)
    rw [Scan.run_cons, hstep, ih fun b hb => hv b (List.mem_cons_of_mem _ hb), List.append_assoc,
      List.singleton_append]

theorem Scan.run_quoted (hv : qc ∉ v) :
    Scan.run ⟨.quoted qc, begun, values⟩ v = ⟨.quoted qc, begun ++ v, values⟩ := by
  induction v generalizing begun with
  | nil => rw [List.append_nil]; rfl
  | cons c v ih =>
    rw [List.mem_cons, not_or] at hv
    have hstep : Scan.step ⟨.quoted qc, begun, values⟩ c = ⟨.quoted qc, begun ++ [c], values⟩ :=
      if_neg (Ne.symm hv.1)
    rw [Scan.run_cons, hstep, ih hv.2, List.append_assoc, List.singleton_append]

/-- Behind a quoted value the text up to the separator is skipped. -/
theorem Scan.finish_behind (u : List Byte) : (Scan.run ⟨.behind, [], values⟩ u).finish =
    (Scan.run ⟨.between, [], values⟩ ((u.dropWhile (· ≠ valueSeparator)).drop 1)).finish := by
  induction u with
  | nil => rfl
  | cons c u ih =>
    rw [Scan.run_cons, List.dropWhile_cons]
    by_cases hc : c = valueSeparator
    · have hstep : Scan.step ⟨.behind, [], values⟩ c = ⟨.between, [], values⟩ := if_pos hc
      rw [hstep, if_neg (by simpa using hc), List.drop_one, List.tail_cons]
    · have hstep : Scan.step ⟨.behind, [], values⟩ c = ⟨.behind, [], values⟩ := if_neg hc
      rw [hstep, if_pos (decide_eq_true hc)]
      exact ih

theorem Scan.finish_cons {v rest : List Byte} (h : ∃ vs,
      (Scan.run ⟨.between, [], values ++ [v]⟩ rest).finish =
        ((lineValues rest).1, values ++ [v] ++ vs) ∧ (lineValues rest).2 = vs.map .ofBytes) :
    ∃ vs, (Scan.run ⟨.between, [], values ++ [v]⟩ rest).finish =
        ((lineValues rest).1, values ++ vs) ∧
      CString.ofBytes v :: (lineValues rest).2 = vs.map .ofBytes := by
  obtain ⟨vs, hfinish, hvals⟩ := h
  refine ⟨v :: vs, ?_, ?_⟩
  · rw [hfinish, List.append_assoc, List.singleton_append]
  · rw [hvals, List.map_cons]

/-- From between two values on, the scanner finds those of `lineValues`. -/
theorem Scan.finish_between (u : List Byte) (values : List (List Byte)) : ∃ vs,
    (Scan.run ⟨.between, [], values⟩ u).finish = ((lineValues u).1, values ++ vs) ∧
      (lineValues u).2 = vs.map .ofBytes := by
  induction hlen : u.length using Nat.strong_induction_on generalizing u values with
  | _ n ih =>
  cases u with
  | nil =>
    refine ⟨[], ?_, ?_⟩
    · rw [lineValues, List.append_nil]
      rfl
    · rw [lineValues]
      rfl
  | cons c t =>
    rw [List.length_cons] at hlen
    rw [Scan.run_cons]
    by_cases hspace : isspace c = true
    · rw [Scan.step_between, if_pos hspace, lineValues_space hspace]
      exact ih t.length (by omega) t values rfl
    by_cases hcom : c = commentChar
    · subst hcom
      rw [Scan.step_between, if_neg hspace, if_pos rfl, lineValues_comment, Scan.run_comment]
      exact ⟨[], by rw [List.append_nil]; rfl, rfl⟩
    by_cases hquote : isQuote c = true
    · rw [Scan.step_between, if_neg hspace, if_neg hcom, if_pos hquote]
      by_cases hqc : c ∈ t
      · obtain ⟨v, rest, rfl, hv⟩ := List.eq_append_cons_of_mem hqc
        have hclose : Scan.step ⟨.quoted c, v, values⟩ c = ⟨.behind, [], values ++ [v]⟩ := if_pos rfl
        have hshort : ((rest.dropWhile (· ≠ valueSeparator)).drop 1).length < n := by
          have hle := (List.dropWhile_sublist (l := rest) (· ≠ valueSeparator)).length_le
          rw [List.length_append, List.length_cons] at hlen
          rw [List.length_drop]
          omega
        rw [Scan.run_append, Scan.run_quoted hv, List.nil_append, Scan.run_cons, hclose,
          Scan.finish_behind, lineValues_quote hquote hv]
        exact Scan.finish_cons (ih _ hshort _ (values ++ [v]) rfl)
      · rw [lineValues_open hquote hqc, Scan.run_quoted hqc]
        exact ⟨[], by rw [List.append_nil]; rfl, rfl⟩
    · have hplain : Plain c := ⟨by simpa using hspace, hcom, by simpa using hquote⟩
      obtain ⟨v, rest, hsplit, hword, hrest⟩ := exists_word (c :: t)
      have hhead : ∀ b ∈ (v ++ rest).head?, Plain b := by
        rw [← hsplit]
        rintro b ⟨⟩
        exact hplain
      have hvalues := lineValues_word hhead (hsplit ▸ List.cons_ne_nil c t) hword hrest
      rw [← hsplit] at hvalues
      rw [Scan.step_between, if_neg hspace, if_neg hcom, if_neg hquote, hvalues]
      cases v with
      | nil =>
        -- a separator without a word before it
        rw [List.nil_append] at hsplit
        subst hsplit
        have hsep : c = valueSeparator := (hrest c rfl).resolve_right hspace
        rw [if_pos hsep, List.tail_cons]
        exact Scan.finish_cons (ih t.length (by omega) t (values ++ [[]]) rfl)
      | cons d v =>
        rw [List.cons_append] at hsplit
        obtain ⟨rfl, rfl⟩ := List.cons.inj hsplit
        have hsep := (hword c List.mem_cons_self).1
        rw [if_neg hsep, Scan.run_append,
          Scan.run_word fun b hb => hword b (List.mem_cons_of_mem _ hb)]
        cases rest with
        | nil =>
          refine ⟨[c :: v], ?_, ?_⟩
          · rw [List.tail_nil, lineValues]
            rfl
          · rw [List.tail_nil, lineValues]
            rfl
        | cons x r =>
          have hclose : Scan.step ⟨.word, [c] ++ v, values⟩ x =
              ⟨.between, [], values ++ [c :: v]⟩ := if_pos (hrest x rfl)
          have hshort : r.length < n := by
            rw [List.length_append, List.length_cons] at hlen
            omega
          rw [Scan.run_cons, hclose, List.tail_cons]
          exact Scan.finish_cons (ih r.length hshort r (values ++ [c :: v]) rfl)

/-- No value is written where the next word is missing or commented out. -/
theorem lineValues_eq_nil_iff (u : List Byte) : lineValues u = (true, []) ↔ BlankOrComment u := by
  induction u with
  | nil =>
    rw [lineValues]
    exact iff_of_true rfl fun b hb => by cases hb
  | cons c t ih =>
    unfold BlankOrComment at ih ⊢
    by_cases hspace : isspace c = true
    · rw [lineValues_space hspace, List.dropWhile_cons, if_pos hspace, ih]
    rw [List.dropWhile_cons, if_neg hspace]
    by_cases hcom : c = commentChar
    · subst hcom
      rw [lineValues_comment]
      exact iff_of_true rfl fun b hb => (Option.some.inj hb).symm
    refine iff_of_false (fun heq => ?_) fun h => hcom (h c rfl)
    by_cases hquote : isQuote c = true
    · by_cases hqc : c ∈ t
      · obtain ⟨v, rest, rfl, hv⟩ := List.eq_append_cons_of_mem hqc
        rw [lineValues_quote hquote hv] at heq
        exact List.cons_ne_nil _ _ (congrArg Prod.snd heq)
      · rw [lineValues_open hquote hqc] at heq
        cases heq
    · obtain ⟨v, rest, hsplit, hword, hrest⟩ := exists_word (c :: t)
      have hhead : ∀ b ∈ (v ++ rest).head?, Plain b := by
        rw [← hsplit]
        rintro b ⟨⟩
        exact ⟨by simpa using hspace, hcom, by simpa using hquote⟩
      have hvalues := lineValues_word hhead (hsplit ▸ List.cons_ne_nil c t) hword hrest
      rw [← hsplit, heq] at hvalues
      exact List.cons_ne_nil _ _ (congrArg Prod.snd hvalues).symm

/-- What is read from between two values on is the value `y` if it was `x` and nothing follows. -/
theorem Scan.finish_between_iff (u : List Byte) (x y : List (List Byte))
    (hlen : y.length ≤ x.length) : (Scan.run ⟨.between, [], values ++ x⟩ u).finish =
      (true, values ++ y) ↔ x = y ∧ BlankOrComment u := by
  obtain ⟨vs, hfinish, hvals⟩ := Scan.finish_between u (values ++ x)
  rw [hfinish, List.append_assoc, ← lineValues_eq_nil_iff]
  constructor
  · intro heq
    have hok := congrArg Prod.fst heq
    have hitems := List.append_cancel_left (congrArg Prod.snd heq)
    have hcount := congrArg List.length hitems
    rw [List.length_append] at hcount
    obtain rfl : vs = [] := List.eq_nil_of_length_eq_zero (by omega)
    exact ⟨(List.append_nil x).symm.trans hitems, Prod.ext hok hvals⟩
  · rintro ⟨rfl, hnil⟩
    rw [hnil] at hvals ⊢
    rw [List.map_eq_nil_iff.mp hvals.symm, List.append_nil]

/-- Between two values and behind a quoted one nothing is begun. -/
def Scan.Settled (s : Scan) : Prop := s.place = .between ∨ s.place = .behind → s.begun = []

theorem Scan.settled_step (hs : s.Settled) (c : Byte) : (s.step c).Settled := by
  obtain ⟨place, begun, values⟩ := s
  unfold Scan.Settled Scan.step at *
  dsimp only at *
  cases place with
  | comment => exact hs
  | between | word | quoted | behind => dsimp only; split_ifs <;> simp_all

theorem Scan.settled_run (hs : s.Settled) (u : List Byte) : (s.run u).Settled := by
  induction u generalizing s with
  | nil => exact hs
  | cons c u ih => exact ih (s.settled_step hs c)

/-- Inside quotes only the closing quote adds a value. -/
theorem Scan.finish_quoted_iff (qc : Byte) (begun u : List Byte) :
    (Scan.run ⟨.quoted qc, begun, values⟩ u).finish = Scan.finish ⟨.quoted qc, begun, values⟩ ↔
      AddsNothing (.quoted qc) u := by
  by_cases hqc : qc ∈ u
  · refine iff_of_false (fun heq => ?_) fun h => h hqc
    obtain ⟨v, rest, rfl, hv⟩ := List.eq_append_cons_of_mem hqc
    have hclose : Scan.step ⟨.quoted qc, begun ++ v, values⟩ qc =
        ⟨.behind, [], values ++ [begun ++ v]⟩ := if_pos rfl
    rw [Scan.run_append, Scan.run_quoted hv, Scan.run_cons, hclose, Scan.finish_behind] at heq
    obtain ⟨vs, hfinish, -⟩ := Scan.finish_between
      ((rest.dropWhile (· ≠ valueSeparator)).drop 1) (values ++ [begun ++ v])
    have hcount := congrArg (fun p => p.2.length) (hfinish.symm.trans heq)
    simp [Scan.finish] at hcount
  · rw [Scan.run_quoted hqc]
    exact iff_of_true rfl hqc

/-- A word must end at once, and no further one may come. -/
theorem Scan.finish_word_iff (begun u : List Byte) :
    (Scan.run ⟨.word, begun, values⟩ u).finish = Scan.finish ⟨.word, begun, values⟩ ↔
      AddsNothing .word u := by
  obtain ⟨v, rest, rfl, hword, hrest⟩ := exists_word u
  have hgrown : begun ++ v = begun ↔ v = [] := by simp
  have hhead : v ≠ [] → ¬ AddsNothing .word (v ++ rest) := by
    intro hne h
    obtain ⟨c, v, rfl⟩ := List.exists_cons_of_ne_nil hne
    obtain ⟨hsep, hspace⟩ := hword c List.mem_cons_self
    rcases (h c rfl).1 with hc | hc
    · exact hsep hc
    · rw [hspace] at hc
      cases hc
  rw [Scan.run_append, Scan.run_word hword]
  cases rest with
  | nil =>
    have hfinish : (Scan.run ⟨.word, begun ++ v, values⟩ []).finish =
        Scan.finish ⟨.word, begun, values⟩ ↔ v = [] := by
      simp [Scan.run, Scan.finish]
    rw [hfinish]
    constructor
    · rintro rfl
      exact nofun
    · exact fun h => by_contra fun hne => hhead hne h
  | cons x r =>
    have hclose : Scan.step ⟨.word, begun ++ v, values⟩ x =
        ⟨.between, [], values ++ [begun ++ v]⟩ := if_pos (hrest x rfl)
    rw [Scan.run_cons, hclose]
    refine (Scan.finish_between_iff r [begun ++ v] [begun] le_rfl).trans ?_
    rw [List.singleton_inj, hgrown]
    constructor
    · rintro ⟨rfl, hblank⟩
      rintro c ⟨⟩
      exact ⟨hrest x rfl, hblank⟩
    · intro h
      have hv : v = [] := by_contra fun hne => hhead hne h
      subst hv
      exact ⟨rfl, (h x rfl).2⟩

/-- The values stay the same exactly if the text adds nothing at the place. -/
theorem Scan.finish_run_iff (hs : s.Settled) (u : List Byte) :
    (s.run u).finish = s.finish ↔ AddsNothing s.place u := by
  obtain ⟨place, begun, values⟩ := s
  cases place with
  | comment =>
    rw [Scan.run_comment]
    exact iff_of_true rfl trivial
  | between =>
    obtain rfl : begun = [] := hs (.inl rfl)
    have hiff := @Scan.finish_between_iff values u [] [] le_rfl
    rw [List.append_nil, and_iff_right rfl] at hiff
    exact hiff
  | behind =>
    obtain rfl : begun = [] := hs (.inr rfl)
    rw [Scan.finish_behind]
    have hiff := @Scan.finish_between_iff values ((u.dropWhile (· ≠ valueSeparator)).drop 1) [] []
      le_rfl
    rw [List.append_nil, and_iff_right rfl] at hiff
    exact hiff
  | quoted qc => exact Scan.finish_quoted_iff qc begun u
  | word => exact Scan.finish_word_iff begun u

/-- The parts of a text without zeros have none. -/
def Scan.NoNul (s : Scan) : Prop := (0 : Byte) ∉ s.begun ∧ ∀ v ∈ s.values, (0 : Byte) ∉ v

theorem Scan.noNul_step {c : Byte} (hs : s.NoNul) (hc : (0 : Byte) ≠ c) : (s.step c).NoNul := by
  obtain ⟨place, begun, values⟩ := s
  unfold Scan.NoNul Scan.step at *
  dsimp only at *
  cases place with
  | comment => exact hs
  | between | word | quoted | behind =>
    dsimp only
    split_ifs <;> simp_all [or_imp]

theorem Scan.noNul_run (hs : s.NoNul) {u : List Byte} (hu : (0 : Byte) ∉ u) : (s.run u).NoNul := by
  induction u generalizing s with
  | nil => exact hs
  | cons c u ih =>
    rw [List.mem_cons, not_or] at hu
    exact ih (s.noNul_step hs hu.1) hu.2

theorem lineValues_eq_scan (u : List Byte) : lineValues u =
    ((Scan.start.run u).finish.1, (Scan.start.run u).finish.2.map .ofBytes) := by
  obtain ⟨vs, hfinish, hvals⟩ := Scan.finish_between u []
  rw [List.nil_append] at hfinish
  rw [Scan.start, hfinish, ← hvals]

theorem noNul_finish {u : List Byte} (hu : (0 : Byte) ∉ u) :
    ∀ v ∈ (Scan.start.run u).finish.2, (0 : Byte) ∉ v := by
  have hstart : Scan.start.NoNul := ⟨List.not_mem_nil, fun _ hv => absurd hv List.not_mem_nil⟩
  obtain ⟨hbegun, hvalues⟩ := Scan.noNul_run hstart hu
  unfold Scan.finish
  split <;> simp_all [or_imp]

end Scan

/-- The end of a text adds nothing to its values exactly if it adds nothing at the place where the
rest of the text ends. -/
theorem lineValues_append_iff {u v : List Byte} (h : (0 : Byte) ∉ u ++ v) :
    lineValues (u ++ v) = lineValues u ↔ AddsNothing (placeAfter u) v := by
  have hu : (0 : Byte) ∉ u := fun hmem => h (List.mem_append_left _ hmem)
  have hsettled : (Scan.start.run u).Settled := Scan.settled_run (fun _ => rfl) u
  rw [placeAfter, ← Scan.finish_run_iff hsettled, ← Scan.run_append, lineValues_eq_scan,
    lineValues_eq_scan, Prod.mk.injEq, CString.map_ofBytes_inj (noNul_finish h) (noNul_finish hu)]
  exact Prod.ext_iff.symm

end Sysbench.Options
