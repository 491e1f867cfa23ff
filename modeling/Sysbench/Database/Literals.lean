import Sysbench.Database.Emulation
import Sysbench.Machine.Literals

/-! # String values in a statement

`db_print_value` puts a string between two quotes as it is. What becomes of the statement depends
on the value and on the place of its placeholder.
-/
namespace Sysbench.Database

open Bytes CStrings Placeholders Literals

def apostrophe : Byte := 39#8

variable {σ : Type*}

/-- `x` is the value of a CHAR or VARCHAR parameter. -/
def IsString (b : DbBind) (x : CString) : Prop :=
  b.nullFlag = false ∧
    ∃ buffer, (b.value = .char buffer ∨ b.value = .varchar buffer) ∧ readString buffer = some x

theorem zero_notMem_doubled (x : CString) : (0 : Byte) ∉ doubled apostrophe x.chars := by
  intro hmem
  obtain ⟨a, ha, hzero⟩ := List.mem_flatMap.mp hmem
  have hzero : (0 : Byte) = a := by
    split at hzero <;> simpa using hzero
  exact x.noNul (hzero ▸ ha)

/-- The literal of standard SQL whose value is `x`. -/
def sqlLiteral (x : CString) : CString :=
  quote ++ ⟨doubled apostrophe x.chars, zero_notMem_doubled x⟩ ++ quote

/-- What the placeholders become: the parameters in `others` have these texts, and the rest are
strings. -/
def texts (others : ℕ → Option CString) (v : ℕ → CString) (k : ℕ) : CString :=
  (others k).getD (quoted (v k))

def sentText (query : CString) (others : ℕ → Option CString) (v : ℕ → CString) : CString :=
  substituted (texts others v) 0 query

section Dialect

variable (lex : Scanner apostrophe σ)

def structureOf (text : CString) : List (Token Byte) := tokens lex (.outside lex.start) text.chars

/-- Strings with these values are rendered as literals, and two statements that differ in such
values differ only inside literals. -/
structure RendersSafely (ff : FloatFormat) (query : CString) (others : ℕ → Option CString)
    (values : Set CString) : Prop where
  literal : ∀ b x, IsString b x → x ∈ values → b.text ff = some (sqlLiteral x)
  statements : ∀ v v', (∀ k, v k ∈ values) → (∀ k, v' k ∈ values) →
    structureOf lex (sentText query others v) = structureOf lex (sentText query others v')

/-- Every placeholder of a string stands where a quote opens a literal, given the place and the
number of the next placeholder. -/
def StandsFree (others : ℕ → Option CString) : Place σ → ℕ → List Byte → Prop
  | _, _, [] => True
  | p, k, c :: cs =>
    if c = mark then
      match others k with
      | none => Opens lex p ∧ StandsFree others .closed (k + 1) cs
      | some text => StandsFree others (after lex p text.chars) (k + 1) cs
    else StandsFree others (Literals.step lex p c) k cs

end Dialect

/-! ## One value -/

variable {lex : Scanner apostrophe σ} {ff : FloatFormat} {others : ℕ → Option CString}
  {p : Place σ} {k : ℕ} {cs : List Byte} {x y : CString} {v v' : ℕ → CString}

theorem IsString.text {b : DbBind} (h : IsString b x) : b.text ff = some (quoted x) := by
  obtain ⟨hnull, buffer, hvalue, hread⟩ := h
  rw [DbBind.text, if_neg (by simp [hnull])]
  rcases hvalue with hvalue | hvalue <;> simp [hvalue, BindValue.text, hread]

theorem isString_char (x : CString) : IsString ⟨.char (x.chars ++ [0]), none, 0, none⟩ x :=
  ⟨rfl, _, Or.inl rfl, readString_of_startsWith (List.prefix_refl _)⟩

theorem chars_quoted (x : CString) :
    (quoted x).chars = apostrophe :: (x.chars ++ [apostrophe]) := by
  simp [quoted, quote, apostrophe]

theorem chars_sqlLiteral (x : CString) :
    (sqlLiteral x).chars = apostrophe :: (doubled apostrophe x.chars ++ [apostrophe]) := by
  simp [sqlLiteral, quote, apostrophe]

theorem quoted_eq_sqlLiteral_iff : quoted x = sqlLiteral x ↔ apostrophe ∉ x.chars := by
  rw [CString.ext_iff, chars_quoted, chars_sqlLiteral, List.cons.injEq,
    List.append_cancel_right_eq, and_iff_right rfl, eq_comm, doubled_eq_self_iff]

/-! ## The statement -/

theorem read_quoted (hp : Opens lex p) (hx : apostrophe ∉ x.chars) :
    after lex p (quoted x).chars = .closed ∧
      tokens lex p (quoted x).chars = emit lex p apostrophe := by
  rw [quoted_eq_sqlLiteral_iff.mpr hx, chars_sqlLiteral]
  exact read_literal hp x.chars

theorem texts_string (hk : others k = none) (v : ℕ → CString) :
    texts others v k = quoted (v k) := by
  rw [texts, hk]
  rfl

theorem texts_other {text : CString} (hk : others k = some text) (v : ℕ → CString) :
    texts others v k = text := by
  rw [texts, hk]
  rfl

theorem substitute_mark (texts : ℕ → CString) (k : ℕ) (cs : List Byte) :
    substitute texts k (mark :: cs) = (texts k).chars ++ substitute texts (k + 1) cs := if_pos rfl

theorem substitute_char (texts : ℕ → CString) (k : ℕ) {c : Byte} (hc : c ≠ mark) :
    substitute texts k (c :: cs) = c :: substitute texts k cs := if_neg hc

theorem substitute_congr_from {texts texts' : ℕ → CString} (h : ∀ i ≥ k, texts i = texts' i) :
    substitute texts k cs = substitute texts' k cs := by
  induction cs generalizing k with
  | nil => rfl
  | cons c cs ih =>
    by_cases hc : c = mark
    · subst hc
      rw [substitute_mark, substitute_mark, h k le_rfl, ih fun i hi => h i (Nat.le_of_succ_le hi)]
    · rw [substitute_char _ _ hc, substitute_char _ _ hc, ih h]

theorem tokens_substitute_eq (h : StandsFree lex others p k cs)
    (hv : ∀ i, apostrophe ∉ (v i).chars) (hv' : ∀ i, apostrophe ∉ (v' i).chars) :
    tokens lex p (substitute (texts others v) k cs) =
      tokens lex p (substitute (texts others v') k cs) := by
  induction cs generalizing p k with
  | nil => rfl
  | cons c cs ih =>
    by_cases hc : c = mark
    · subst hc
      rw [StandsFree, if_pos rfl] at h
      rw [substitute_mark, substitute_mark, tokens_append, tokens_append]
      cases hk : others k with
      | none =>
        rw [hk] at h
        obtain ⟨hafter, htokens⟩ := read_quoted h.1 (hv k)
        obtain ⟨hafter', htokens'⟩ := read_quoted h.1 (hv' k)
        rw [texts_string hk, texts_string hk, hafter, hafter', htokens, htokens', ih h.2]
      | some text =>
        rw [hk] at h
        rw [texts_other hk, texts_other hk, ih h]
    · rw [StandsFree, if_neg hc] at h
      rw [substitute_char _ _ hc, substitute_char _ _ hc, tokens, tokens, ih h]

/-- Statements that differ in the value of one placeholder only. -/
theorem tokens_update_ne (hopens : ¬Opens lex p) (hk : others k = none)
    (hx : apostrophe ∉ x.chars) (hy : apostrophe ∉ y.chars) (hne : x ≠ y) :
    tokens lex p (substitute (texts others fun _ => x) k (mark :: cs)) ≠
      tokens lex p (substitute (texts others (Function.update (fun _ => x) k y)) k
        (mark :: cs)) := by
  have hrest : substitute (texts others (Function.update (fun _ => x) k y)) (k + 1) cs =
      substitute (texts others fun _ => x) (k + 1) cs := by
    refine substitute_congr_from fun i hi => ?_
    rw [texts, texts, Function.update_of_ne (by omega)]
  rw [substitute_mark, substitute_mark, texts_string hk, texts_string hk, Function.update_self,
    hrest, chars_quoted, chars_quoted, List.cons_append, List.cons_append, List.append_assoc,
    List.append_assoc]
  exact tokens_quoted_ne hopens hx hy (fun heq => hne (CString.ext heq)) _

/-- Two values are told apart by some statement unless all placeholders stand free. -/
theorem exists_tokens_ne (hx : apostrophe ∉ x.chars) (hy : apostrophe ∉ y.chars) (hne : x ≠ y)
    (h : ¬StandsFree lex others p k cs) :
    ∃ v v' : ℕ → CString, (∀ i, v i = x ∨ v i = y) ∧ (∀ i, v' i = x ∨ v' i = y) ∧
      tokens lex p (substitute (texts others v) k cs) ≠
        tokens lex p (substitute (texts others v') k cs) := by
  have hfree : ∀ {z : CString}, z = x ∨ z = y → apostrophe ∉ z.chars := by
    rintro z (rfl | rfl)
    · exact hx
    · exact hy
  induction cs generalizing p k with
  | nil => exact absurd trivial h
  | cons c cs ih =>
    by_cases hc : c = mark
    · subst hc
      rw [StandsFree, if_pos rfl] at h
      cases hk : others k with
      | none =>
        rw [hk] at h
        by_cases hopens : Opens lex p
        · obtain ⟨v, v', hv, hv', hdiff⟩ := ih fun hrest => h ⟨hopens, hrest⟩
          obtain ⟨hafter, htokens⟩ := read_quoted hopens (hfree (hv k))
          obtain ⟨hafter', htokens'⟩ := read_quoted hopens (hfree (hv' k))
          refine ⟨v, v', hv, hv', ?_⟩
          rw [substitute_mark, substitute_mark, tokens_append, tokens_append, texts_string hk,
            texts_string hk, hafter, hafter', htokens, htokens']
          exact fun heq => hdiff (List.append_cancel_left heq)
        · refine ⟨fun _ => x, Function.update (fun _ => x) k y, fun _ => Or.inl rfl, fun i => ?_,
            tokens_update_ne hopens hk hx hy hne⟩
          by_cases hi : i = k
          · exact Or.inr (by rw [hi, Function.update_self])
          · exact Or.inl (Function.update_of_ne hi _ _)
      | some text =>
        rw [hk] at h
        obtain ⟨v, v', hv, hv', hdiff⟩ := ih h
        refine ⟨v, v', hv, hv', ?_⟩
        rw [substitute_mark, substitute_mark, tokens_append, tokens_append, texts_other hk,
          texts_other hk]
        exact fun heq => hdiff (List.append_cancel_left heq)
    · rw [StandsFree, if_neg hc] at h
      obtain ⟨v, v', hv, hv', hdiff⟩ := ih h
      refine ⟨v, v', hv, hv', ?_⟩
      rw [substitute_char _ _ hc, substitute_char _ _ hc, tokens, tokens]
      exact fun heq => hdiff (List.append_cancel_left heq)

section Result

variable {query : CString} {values : Set CString}

theorem RendersSafely.quoteFree (h : RendersSafely lex ff query others values) {x : CString}
    (hx : x ∈ values) : apostrophe ∉ x.chars := by
  have hliteral := h.literal _ x (isString_char x) hx
  rw [(isString_char x).text] at hliteral
  exact quoted_eq_sqlLiteral_iff.mp (Option.some.inj hliteral)

theorem RendersSafely.standsFree (h : RendersSafely lex ff query others values)
    (hmany : ¬values.Subsingleton) :
    StandsFree lex others (.outside lex.start) 0 query.chars := by
  by_contra hplaces
  obtain ⟨x, hx, y, hy, hne⟩ := Set.not_subsingleton_iff.mp hmany
  have hvalues : ∀ {z : CString}, z = x ∨ z = y → z ∈ values := by
    rintro z (rfl | rfl)
    · exact hx
    · exact hy
  obtain ⟨v, v', hv, hv', hdiff⟩ :=
    exists_tokens_ne (h.quoteFree hx) (h.quoteFree hy) hne hplaces
  exact hdiff (h.statements v v' (fun k => hvalues (hv k)) fun k => hvalues (hv' k))

theorem builds_sentText {heap : Heap} {params : List DbBind}
    (hparams : ∀ k < placeholders query, ∃ b, params[k]? = some b ∧
      match others k with
      | none => IsString b (v k)
      | some text => b.text ff = some text)
    (hne : query.chars ≠ []) (hheap : ∀ size, heap size ≠ none)
    (hsize : (sentText query others v).length < 2 ^ 30) :
    Builds heap ff ⟨query, params⟩ (sentText query others v) := by
  refine builds_of_length hne hheap (fun k hk => ?_) hsize
  obtain ⟨b, hb, hvalue⟩ := hparams k hk
  refine ⟨b, hb, ?_⟩
  cases hother : others k with
  | none =>
    rw [hother] at hvalue
    rw [hvalue.text, texts_string hother]
  | some text =>
    rw [hother] at hvalue
    rw [hvalue, texts_other hother]

end Result

/-- When strings are rendered safely: no value has a quote, and unless there is only one value, no
placeholder of a string stands in a literal or in another place without literals. The texts are
those that the drivers without prepared statements build. -/
theorem rendersSafely_iff (lex : Scanner apostrophe σ) (ff : FloatFormat) (query : CString)
    (others : ℕ → Option CString) (values : Set CString) :
    (RendersSafely lex ff query others values ↔
      (∀ x ∈ values, apostrophe ∉ x.chars) ∧
        (values.Subsingleton ∨ StandsFree lex others (.outside lex.start) 0 query.chars)) ∧
    ∀ (heap : Heap) (params : List DbBind) (v : ℕ → CString),
      (∀ k < placeholders query, ∃ b, params[k]? = some b ∧
        match others k with
        | none => IsString b (v k)
        | some text => b.text ff = some text) →
      query.chars ≠ [] → (∀ size, heap size ≠ none) → (sentText query others v).length < 2 ^ 30 →
      Builds heap ff ⟨query, params⟩ (sentText query others v) := by
  refine ⟨⟨fun h => ⟨fun x hx => h.quoteFree hx, or_iff_not_imp_left.mpr h.standsFree⟩, ?_⟩,
    fun heap params v => builds_sentText⟩
  rintro ⟨hfree, hplaces⟩
  refine ⟨fun b x hb hx => ?_, fun v v' hv hv' => ?_⟩
  · rw [hb.text, quoted_eq_sqlLiteral_iff.mpr (hfree x hx)]
  · rcases hplaces with hsingle | hplaces
    · obtain rfl : v = v' := funext fun k => hsingle (hv k) (hv' k)
      rfl
    · exact tokens_substitute_eq hplaces (fun i => hfree _ (hv i)) fun i => hfree _ (hv' i)

/-! ## Standard SQL -/

/-- What the last characters outside of a literal have begun. -/
inductive SqlContext
  | plain
  | dash
  | slash
  | identifier
  | lineComment
  | comment
  | commentStar

def SqlContext.ofPlain (c : Byte) : SqlContext :=
  if c = charByte '"' then .identifier
  else if c = charByte '-' then .dash
  else if c = charByte '/' then .slash
  else .plain

def SqlContext.next : SqlContext → Byte → SqlContext
  | .plain, c => ofPlain c
  | .dash, c => if c = charByte '-' then .lineComment else ofPlain c
  | .slash, c => if c = charByte '*' then .comment else ofPlain c
  | .identifier, c => if c = charByte '"' then .plain else .identifier
  | .lineComment, c => if c = charByte '\n' then .plain else .lineComment
  | .comment, c => if c = charByte '*' then .commentStar else .comment
  | .commentStar, c =>
    if c = charByte '/' then .plain
    else if c = charByte '*' then .commentStar
    else .comment

def SqlContext.ordinary : SqlContext → Bool
  | .identifier | .lineComment | .comment | .commentStar => true
  | _ => false

theorem SqlContext.ordinary_next (u : SqlContext) (h : u.ordinary = true) :
    (u.next apostrophe).ordinary = true := by
  cases u with
  | plain | dash | slash => cases h
  | identifier | lineComment | comment | commentStar => rfl

/-- Delimited identifiers and the two kinds of comments. -/
def standardSql : Scanner apostrophe SqlContext :=
  ⟨.plain, SqlContext.next, SqlContext.ordinary, SqlContext.ordinary_next⟩

def whereQuery : CString := ⟨"c=?".toList.map charByte, by decide⟩

def noFloats : FloatFormat := ⟨fun _ => .empty, fun _ => .empty⟩

theorem rendersSafely_iff_where :
    RendersSafely standardSql noFloats whereQuery (fun _ => none)
        {x | apostrophe ∉ x.chars} ∧
      Builds (fun _ => some fun _ => 0) noFloats ⟨whereQuery, [⟨.char [97, 0], none, 0, none⟩]⟩
        (sentText whereQuery (fun _ => none) fun _ => ⟨[97], by decide⟩) := by
  obtain ⟨hiff, hbuilds⟩ := rendersSafely_iff standardSql noFloats whereQuery (fun _ => none)
    {x | apostrophe ∉ x.chars}
  refine ⟨hiff.mpr ⟨fun x hx => hx, Or.inr ⟨rfl, trivial⟩⟩, ?_⟩
  refine hbuilds _ _ _ (fun k hk => ?_) (by decide) (fun _ => by simp) (by decide)
  obtain rfl : k = 0 := Nat.lt_one_iff.mp hk
  exact ⟨_, rfl, isString_char ⟨[97], by decide⟩⟩

def injection : CString := ⟨"' or '1".toList.map charByte, by decide⟩

theorem not_rendersSafely :
    quoted injection ≠ sqlLiteral injection ∧
      structureOf standardSql (sentText whereQuery (fun _ => none) fun _ => injection) ≠
        structureOf standardSql (sentText whereQuery (fun _ => none) fun _ => .empty) ∧
      ¬RendersSafely standardSql noFloats whereQuery (fun _ => none) Set.univ := by
  have hliteral : quoted injection ≠ sqlLiteral injection := by decide
  refine ⟨hliteral, by decide, fun h => hliteral ?_⟩
  have := h.literal _ injection (isString_char injection) trivial
  rw [(isString_char injection).text] at this
  exact Option.some.inj this

end Sysbench.Database
