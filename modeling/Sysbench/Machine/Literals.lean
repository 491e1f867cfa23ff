import Mathlib

/-! # String literals in a text

A literal stands between two quotes, and two quotes inside it are one quote of its value. What a
quote means elsewhere, in a comment for instance, depends on the dialect. Nothing in this file
knows about a program.
-/
namespace Sysbench.Literals

/-- What a dialect says about the text outside of the literals. Where `ordinary` holds, a quote is a
symbol like any other. -/
structure Scanner {α : Type*} (quote : α) (σ : Type*) where
  start : σ
  next : σ → α → σ
  ordinary : σ → Bool
  ordinary_next : ∀ u, ordinary u = true → ordinary (next u quote) = true

/-- Where the reader of a text is. It is `closed` behind a quote that ends a literal unless another
quote follows. -/
inductive Place (σ : Type*)
  | outside (u : σ)
  | inside
  | closed

inductive Token (α : Type*)
  | plain (a : α)
  | literal
  deriving DecidableEq

variable {α σ : Type*} {quote : α} [DecidableEq α] (lex : Scanner quote σ)

def step : Place σ → α → Place σ
  | .outside u, a => if a = quote ∧ lex.ordinary u = false then .inside else .outside (lex.next u a)
  | .inside, a => if a = quote then .closed else .inside
  | .closed, a => if a = quote then .inside else .outside (lex.next lex.start a)

def emit : Place σ → α → List (Token α)
  | .outside u, a => if a = quote ∧ lex.ordinary u = false then [.literal] else [.plain a]
  | .inside, _ => []
  | .closed, a => if a = quote then [] else [.plain a]

def after (p : Place σ) (as : List α) : Place σ := as.foldl (step lex) p

/-- The structure of a text: nothing is left of its literals but that they are there. -/
def tokens : Place σ → List α → List (Token α)
  | _, [] => []
  | p, a :: as => emit lex p a ++ tokens (step lex p a) as

/-- A quote begins a literal here or goes on with one that is over. -/
def Opens : Place σ → Prop
  | .outside u => lex.ordinary u = false
  | .inside => False
  | .closed => True

variable (quote) in
def doubled (as : List α) : List α := as.flatMap fun a => if a = quote then [a, a] else [a]

section Reading

variable {lex} {p : Place σ} {u : σ} {a : α} {as xs ys : List α}

theorem tokens_append (p : Place σ) (as bs : List α) :
    tokens lex p (as ++ bs) = tokens lex p as ++ tokens lex (after lex p as) bs := by
  induction as generalizing p with
  | nil => rfl
  | cons a as ih =>
    rw [List.cons_append, tokens, tokens, ih, List.append_assoc]
    rfl

theorem after_append (p : Place σ) (as bs : List α) :
    after lex p (as ++ bs) = after lex (after lex p as) bs := List.foldl_append

variable (quote) in
theorem length_doubled (as : List α) :
    (doubled quote as).length = as.length + as.count quote := by
  induction as with
  | nil => rfl
  | cons a as ih =>
    have hcons : doubled quote (a :: as) =
        (if a = quote then [a, a] else [a]) ++ doubled quote as := rfl
    rw [hcons, List.length_append, ih, List.length_cons, List.count_cons]
    by_cases ha : a = quote
    · simp [ha]
      omega
    · simp [ha]
      omega

theorem doubled_eq_self_iff : doubled quote as = as ↔ quote ∉ as := by
  constructor
  · intro h hmem
    have hlen := length_doubled quote as
    have hpos : 0 < as.count quote := List.count_pos_iff.mpr hmem
    rw [h] at hlen
    omega
  · intro h
    induction as with
    | nil => rfl
    | cons a as ih =>
      obtain ⟨ha, has⟩ := not_or.mp (List.mem_cons.not.mp h)
      rw [doubled, List.flatMap_cons, if_neg (Ne.symm ha)]
      exact congrArg (a :: ·) (ih has)

theorem read_doubled (lex : Scanner quote σ) (as : List α) :
    after lex .inside (doubled quote as) = .inside ∧
      tokens lex .inside (doubled quote as) = [] := by
  induction as with
  | nil => exact ⟨rfl, rfl⟩
  | cons a as ih =>
    have hcons : doubled quote (a :: as) =
        (if a = quote then [a, a] else [a]) ++ doubled quote as := rfl
    rw [hcons, after_append, tokens_append]
    by_cases ha : a = quote
    · simpa [ha, after, step, tokens, emit] using ih
    · simpa [ha, after, step, tokens, emit] using ih

/-- A quoted value is one literal, whatever it is. -/
theorem read_literal (hp : Opens lex p) (as : List α) :
    after lex p (quote :: (doubled quote as ++ [quote])) = .closed ∧
      tokens lex p (quote :: (doubled quote as ++ [quote])) = emit lex p quote := by
  obtain ⟨hafter, htokens⟩ := read_doubled lex as
  have hstep : step lex p quote = .inside := by
    cases p with
    | outside u => exact if_pos ⟨rfl, hp⟩
    | inside => exact hp.elim
    | closed => exact if_pos rfl
  constructor
  · show after lex (step lex p quote) _ = _
    rw [hstep, after_append, hafter]
    exact if_pos rfl
  · rw [tokens, hstep, tokens_append, htokens, hafter]
    exact List.append_nil _

/-- Outside of the literals every symbol counts. -/
theorem read_plain (lex : Scanner quote σ) (h : quote ∉ as) (u : σ) :
    ∃ u', after lex (.outside u) as = .outside u' ∧
      tokens lex (.outside u) as = as.map Token.plain := by
  induction as generalizing u with
  | nil => exact ⟨u, rfl, rfl⟩
  | cons a as ih =>
    obtain ⟨ha, has⟩ := not_or.mp (List.mem_cons.not.mp h)
    have hno : ¬(a = quote ∧ lex.ordinary u = false) := fun h => ha h.1.symm
    obtain ⟨u', hafter, htokens⟩ := ih has (lex.next u a)
    have hstep : step lex (.outside u) a = .outside (lex.next u a) := if_neg hno
    have hemit : emit lex (.outside u) a = [.plain a] := if_neg hno
    refine ⟨u', ?_, ?_⟩
    · show after lex (step lex (.outside u) a) as = _
      rw [hstep, hafter]
    · rw [tokens, hstep, hemit, htokens]
      rfl

theorem tokens_closed (ha : a ≠ quote) :
    tokens lex .closed (a :: as) = tokens lex (.outside lex.start) (a :: as) := by
  have hno : ¬(a = quote ∧ lex.ordinary lex.start = false) := fun h => ha h.1
  simp only [tokens, emit, step, if_neg ha, if_neg hno]

/-! ## Two readers of one text -/

def depth : Place σ → ℕ
  | .inside => 1
  | _ => 0

/-- A reader at `p` still has to give `queue` before it gives what the reader at `p'` gives. -/
structure Delayed (lex : Scanner quote σ) (p p' : Place σ) (queue : List (Token α)) : Prop where
  ne : queue ≠ []
  quotes : (queue.count (.plain quote) + depth p + depth p') % 2 = 0
  last : p' = .inside ∨ p' = .closed → queue.getLast? = some .literal
  closed : p' = .closed → ∀ u, p = .outside u → lex.ordinary u = true

/-- Each quote is given or changes the side. -/
theorem quotes_step (lex : Scanner quote σ) (p : Place σ) (a : α) :
    ((emit lex p a).count (.plain quote) + depth p + depth (step lex p a)) % 2 =
      if a = quote then 1 else 0 := by
  by_cases ha : a = quote
  · cases p with
    | outside u => by_cases hu : lex.ordinary u = false <;> simp [emit, step, depth, ha, hu]
    | inside => simp [emit, step, depth, ha]
    | closed => simp [emit, step, depth, ha]
  · cases p <;> simp [emit, step, depth, ha]

theorem emit_eq_literal (h : emit lex p a = [.literal]) :
    a = quote ∧ ∃ u, p = .outside u ∧ lex.ordinary u = false := by
  cases p with
  | outside u =>
    by_cases hopen : a = quote ∧ lex.ordinary u = false
    · exact ⟨hopen.1, u, rfl, hopen.2⟩
    · rw [emit, if_neg hopen] at h
      cases h
  | inside => cases h
  | closed =>
    rw [emit] at h
    split at h <;> cases h

theorem emit_eq_nil (h : emit lex p a = []) : p = .inside ∨ p = .closed ∧ a = quote := by
  cases p with
  | outside u =>
    rw [emit] at h
    split at h <;> cases h
  | inside => exact Or.inl rfl
  | closed =>
    refine Or.inr ⟨rfl, ?_⟩
    by_contra ha
    rw [emit, if_neg ha] at h
    cases h

theorem length_emit_le (lex : Scanner quote σ) (p : Place σ) (a : α) :
    (emit lex p a).length ≤ 1 := by
  cases p with
  | outside u =>
    rw [emit]
    split <;> exact le_rfl
  | inside => exact Nat.zero_le 1
  | closed =>
    rw [emit]
    split
    · exact Nat.zero_le 1
    · exact le_rfl

variable {p' : Place σ} {queue queue' : List (Token α)}

/-- A queue of one literal would be given at a quote, and then both readers are on one side. -/
theorem Delayed.step_ne (h : Delayed lex p p' queue)
    (hqueue : queue ++ emit lex p' a = emit lex p a ++ queue') : queue' ≠ [] := by
  rintro rfl
  rw [List.append_nil] at hqueue
  have hpos : 0 < queue.length := List.length_pos_of_ne_nil h.ne
  have hlen := congrArg List.length hqueue
  rw [List.length_append] at hlen
  have hle := length_emit_le lex p a
  have hnil : emit lex p' a = [] := List.length_eq_zero_iff.mp (by omega)
  rw [hnil, List.append_nil] at hqueue
  have hsides := emit_eq_nil hnil
  obtain ⟨t, ht⟩ := List.length_eq_one_iff.mp (show queue.length = 1 by omega)
  have hlast := h.last (hsides.imp id And.left)
  rw [ht] at hlast
  obtain rfl : t = .literal := Option.some.inj hlast
  obtain ⟨-, u, rfl, hu⟩ := emit_eq_literal (hqueue.symm.trans ht)
  rcases hsides with rfl | ⟨rfl, -⟩
  · have hquotes := h.quotes
    rw [ht] at hquotes
    simp [depth] at hquotes
  · rw [h.closed rfl u rfl] at hu
    cases hu

theorem Delayed.step (h : Delayed lex p p' queue)
    (hqueue : queue ++ emit lex p' a = emit lex p a ++ queue') :
    Delayed lex (step lex p a) (step lex p' a) queue' where
  ne := h.step_ne hqueue
  quotes := by
    have hcount := congrArg (List.count (.plain quote)) hqueue
    rw [List.count_append, List.count_append] at hcount
    have hsame := (quotes_step lex p a).trans (quotes_step lex p' a).symm
    have hquotes := h.quotes
    omega
  last hside := by
    have hwhole : (queue ++ emit lex p' a).getLast? = some .literal := by
      cases p' with
      | outside u =>
        by_cases hopen : a = quote ∧ lex.ordinary u = false
        · rw [emit, if_pos hopen, List.getLast?_concat]
        · rw [Literals.step, if_neg hopen] at hside
          rcases hside with hside | hside <;> cases hside
      | inside => simpa [emit] using h.last (Or.inl rfl)
      | closed =>
        by_cases ha : a = quote
        · simpa [emit, ha] using h.last (Or.inr rfl)
        · rw [Literals.step, if_neg ha] at hside
          rcases hside with hside | hside <;> cases hside
    rw [hqueue, List.getLast?_append_of_ne_nil _ (h.step_ne hqueue)] at hwhole
    exact hwhole
  closed hclosed u hu := by
    have ha : a = quote := by
      by_contra ha
      cases p' <;> simp [Literals.step, ha] at hclosed
    cases p with
    | outside u₀ =>
      by_cases hopen : a = quote ∧ lex.ordinary u₀ = false
      · rw [Literals.step, if_pos hopen] at hu
        cases hu
      · rw [Literals.step, if_neg hopen] at hu
        cases hu
        have hu₀ : lex.ordinary u₀ = true := by
          rw [not_and, Bool.not_eq_false] at hopen
          exact hopen ha
        rw [ha]
        exact lex.ordinary_next u₀ hu₀
    | inside => simp [Literals.step, ha] at hu
    | closed => simp [Literals.step, ha] at hu

/-- The delay lasts to the end of the text. -/
theorem Delayed.tokens_ne (h : Delayed lex p p' queue) (as : List α) :
    tokens lex p as ≠ queue ++ tokens lex p' as := by
  induction as generalizing p p' queue with
  | nil => exact fun heq => h.ne (List.append_eq_nil_iff.mp heq.symm).1
  | cons a as ih =>
    intro heq
    rw [tokens, tokens, ← List.append_assoc] at heq
    rcases List.append_eq_append_iff.mp heq with ⟨queue', hqueue, hrest⟩ | ⟨extra, hemit, hrest⟩
    · exact ih (h.step hqueue) hrest
    · obtain rfl : extra = [] := by
        by_contra hextra
        have hlen := congrArg List.length hemit
        have hpos := List.length_pos_of_ne_nil hextra
        have hqueue := List.length_pos_of_ne_nil h.ne
        have hle := length_emit_le lex p a
        rw [List.length_append, List.length_append] at hlen
        omega
      rw [List.append_nil] at hemit
      refine ih (h.step (hemit.symm.trans (List.append_nil _).symm)) ?_
      exact hrest.symm

/-! ## Values in other places -/

/-- Outside of the literals the first difference of two values is seen. -/
theorem tokens_ne_outside (hx : quote ∉ xs) (hy : quote ∉ ys) (hne : xs ≠ ys) (u : σ)
    (as : List α) :
    tokens lex (.outside u) (xs ++ quote :: as) ≠ tokens lex (.outside u) (ys ++ quote :: as) := by
  have hend : ∀ {b : α} {u : σ} {bs cs : List α}, b ≠ quote →
      tokens lex (.outside u) (quote :: bs) ≠ tokens lex (.outside u) (b :: cs) := by
    intro b u bs cs hb heq
    have hemit : emit lex (.outside u) b = [.plain b] := if_neg fun h => hb h.1
    rw [tokens, tokens, hemit, emit] at heq
    split at heq <;> simp [hb.symm] at heq
  induction xs generalizing ys u with
  | nil =>
    cases ys with
    | nil => exact absurd rfl hne
    | cons b ys => exact hend (Ne.symm (not_or.mp (List.mem_cons.not.mp hy)).1)
  | cons a xs ih =>
    obtain ⟨ha, hxs⟩ := not_or.mp (List.mem_cons.not.mp hx)
    cases ys with
    | nil => exact (hend (Ne.symm ha)).symm
    | cons b ys =>
      obtain ⟨hb, hys⟩ := not_or.mp (List.mem_cons.not.mp hy)
      have hemit : ∀ c, c ≠ quote → emit lex (.outside u) c = [.plain c] :=
        fun c hc => if_neg fun h => hc h.1
      have hstep : ∀ c, c ≠ quote → step lex (.outside u) c = .outside (lex.next u c) :=
        fun c hc => if_neg fun h => hc h.1
      intro heq
      rw [List.cons_append, List.cons_append, tokens, tokens, hemit a (Ne.symm ha),
        hemit b (Ne.symm hb), hstep a (Ne.symm ha), hstep b (Ne.symm hb)] at heq
      obtain ⟨hab, hrest⟩ := List.cons.inj heq
      obtain rfl : a = b := Token.plain.inj hab
      exact ih hxs hys (fun h => hne (congrArg (a :: ·) h)) (lex.next u a) hrest

/-- The empty value leaves the reader where it was, and no other value has that effect. -/
theorem tokens_inside_ne (hx : quote ∉ xs) (hne : xs ≠ []) (u : σ) (as : List α) :
    tokens lex .inside as ≠ tokens lex (.outside u) (xs ++ quote :: as) := by
  obtain ⟨u', hafter, htokens⟩ := read_plain lex hx u
  have hpos : 0 < xs.length := List.length_pos_of_ne_nil hne
  rw [tokens_append, hafter, htokens, tokens]
  cases hu' : lex.ordinary u' with
  | false =>
    intro heq
    have hstep : step lex (.outside u') quote = .inside := if_pos ⟨rfl, hu'⟩
    rw [hstep] at heq
    have hlen := congrArg List.length heq
    rw [List.length_append, List.length_append, List.length_map] at hlen
    omega
  | true =>
    have hno : ¬(quote = quote ∧ lex.ordinary u' = false) := by simp [hu']
    have hstep : step lex (.outside u') quote = .outside (lex.next u' quote) := if_neg hno
    have hemit : emit lex (.outside u') quote = [.plain quote] := if_neg hno
    rw [hstep, hemit, ← List.append_assoc]
    refine Delayed.tokens_ne ⟨by simp, ?_, by simp, by simp⟩ as
    have hcount : (xs.map Token.plain).count (.plain quote) = 0 := by
      rw [List.count_eq_zero]
      intro hmem
      obtain ⟨b, hb, heq⟩ := List.mem_map.mp hmem
      exact hx (Token.plain.inj heq ▸ hb)
    rw [List.count_append, hcount, List.count_singleton_self]
    simp [depth]

/-- Two values between quotes are told apart unless a quote opens a literal here. -/
theorem tokens_quoted_ne (hp : ¬Opens lex p) (hx : quote ∉ xs) (hy : quote ∉ ys) (hne : xs ≠ ys)
    (as : List α) :
    tokens lex p (quote :: (xs ++ quote :: as)) ≠ tokens lex p (quote :: (ys ++ quote :: as)) := by
  rw [tokens, tokens]
  refine fun heq => ?_
  have hrest := List.append_cancel_left heq
  cases p with
  | outside u =>
    have hstep : step lex (.outside u) quote = .outside (lex.next u quote) :=
      if_neg fun h => hp h.2
    rw [hstep] at hrest
    exact tokens_ne_outside hx hy hne _ as hrest
  | closed => exact hp trivial
  | inside =>
    have hstep : step lex .inside quote = .closed := if_pos rfl
    have hempty : tokens lex .closed (quote :: as) = tokens lex .inside as := by
      simp [tokens, emit, step]
    rw [hstep] at hrest
    cases xs with
    | nil =>
      cases ys with
      | nil => exact hne rfl
      | cons b ys =>
        have hb : b ≠ quote := Ne.symm (not_or.mp (List.mem_cons.not.mp hy)).1
        rw [List.nil_append, hempty, List.cons_append, tokens_closed hb] at hrest
        exact tokens_inside_ne hy (List.cons_ne_nil b ys) _ as hrest
    | cons a xs =>
      have ha : a ≠ quote := Ne.symm (not_or.mp (List.mem_cons.not.mp hx)).1
      cases ys with
      | nil =>
        rw [List.nil_append, hempty, List.cons_append, tokens_closed ha] at hrest
        exact tokens_inside_ne hx (List.cons_ne_nil a xs) _ as hrest.symm
      | cons b ys =>
        have hb : b ≠ quote := Ne.symm (not_or.mp (List.mem_cons.not.mp hy)).1
        rw [List.cons_append, List.cons_append, tokens_closed ha, tokens_closed hb] at hrest
        exact tokens_ne_outside hx hy hne _ as hrest

end Reading

end Sysbench.Literals
