import Sysbench.Database.Bind

/-! # Placeholders of a query

The emulated `execute` of four drivers and the `prepare` of two write a query into a growing
buffer and replace each `?` on the way. They differ in what they print for it.
-/
namespace Sysbench.Database

open Bytes CStrings Words

namespace Placeholders

/-- A request for memory is refused, or the new bytes hold anything. -/
abbrev Heap := ℕ → Option (ℕ → Byte)

def realloc (heap : Heap) (buf : List Byte) (size : ℕ) : Option (List Byte) :=
  (heap size).map fun fresh =>
    buf.take size ++ (List.range' buf.length (size - buf.length)).map fresh

/-- The buffer has `buflen` bytes, none before the first allocation. -/
structure State where
  i : ℕ
  j : ℕ
  vcnt : ℕ
  buf : List Byte
  needRealloc : Bool

inductive Outcome where
  | more (s : State)
  | failed
  | done (buf : List Byte) (vcnt : ℕ)
  | outside

/-- What is printed for the placeholder number `vcnt` at a position of the buffer, given the room
behind it. It returns the new buffer and the length, which is negative without enough room. -/
abbrev Print := ℕ → List Byte → ℕ → ℕ → Option (List Byte × ℤ)

def nextBuflen (buflen : ℕ) : ℕ := if 0 < buflen then toUInt 32 (buflen * 2 : ℕ) else 256

def grow (heap : Heap) (s : State) : Option (List Byte) :=
  if toUInt 32 (s.j + 1 : ℕ) ≥ s.buf.length ∨ s.needRealloc then
    realloc heap s.buf (nextBuflen s.buf.length)
  else some s.buf

def mark : Byte := charByte '?'

/-- The test of the loop and its body from `again` on. -/
def step (heap : Heap) (print : Print) (query : CString) (s : State) : Outcome :=
  match query.chars[s.i]? with
  | none =>
    match storeByte s.buf s.j 0 with
    | some buf => .done buf s.vcnt
    | none => .outside
  | some c =>
    match grow heap s with
    | none => .failed
    | some buf =>
      if c ≠ mark then
        match storeByte buf s.j c with
        | some buf =>
          .more { s with i := s.i + 1, j := s.j + 1, buf := buf, needRealloc := false }
        | none => .outside
      else
        match print s.vcnt buf s.j (toUInt 32 (buf.length - s.j)) with
        | none => .outside
        | some (buf, n) =>
          if n < 0 then .more { s with buf := buf, needRealloc := true }
          else .more ⟨s.i + 1, s.j + n.toNat, s.vcnt + 1, buf, false⟩

def run (heap : Heap) (print : Print) (query : CString) : ℕ → Outcome → Outcome
  | fuel + 1, .more s => run heap print query fuel (step heap print query s)
  | _, o => o

def start (vcnt : ℕ) : State := ⟨0, 0, vcnt, [], true⟩

def Ends (heap : Heap) (print : Print) (query : CString) (s : State) (o : Outcome) : Prop :=
  ∃ enough, ∀ fuel ≥ enough, run heap print query fuel (.more s) = o

/-- The print of `mysql_drv_execute`, `drizzle_drv_execute`, `pgsql_drv_execute` and
`ora_drv_execute`. -/
def executePrint (ff : FloatFormat) (boundParam : List DbBind) : Print :=
  fun vcnt buf pos room => (boundParam[vcnt]?).bind fun var =>
    dbPrintValue ff var buf pos (toInt 32 room)

def numbered (sign : CString) (vcnt : ℕ) : CString := sign ++ decimal (toInt 32 vcnt)

def numberedPrint (sign : CString) : Print :=
  fun vcnt buf pos room => (snprintf buf pos room (numbered sign vcnt)).map fun (buf, n) =>
    (buf, if (n : ℤ) < toInt 32 room then (n : ℤ) else -1)

def dollar : CString := ⟨[charByte '$'], by decide⟩

def pgsqlPreparePrint : Print := numberedPrint dollar

def oraPreparePrint : Print := numberedPrint colon

def pgsqlNparams (vcnt : ℕ) : ℤ := toInt 32 (vcnt - 1)

/-- Plain substitution: the k-th mark is replaced by the k-th text. -/
def substitute (texts : ℕ → CString) : ℕ → List Byte → List Byte
  | _, [] => []
  | k, c :: cs =>
    if c = mark then (texts k).chars ++ substitute texts (k + 1) cs
    else c :: substitute texts k cs

theorem zero_notMem_substitute (texts : ℕ → CString) {cs : List Byte} (h : (0 : Byte) ∉ cs)
    (k : ℕ) : (0 : Byte) ∉ substitute texts k cs := by
  induction cs generalizing k with
  | nil => exact List.not_mem_nil
  | cons c cs ih =>
    obtain ⟨hc, hcs⟩ := not_or.mp (List.mem_cons.not.mp h)
    rw [substitute]
    split
    · intro hmem
      exact (List.mem_append.mp hmem).elim (texts k).noNul (ih hcs (k + 1))
    · exact List.mem_cons.not.mpr (not_or.mpr ⟨hc, ih hcs k⟩)

def substituted (texts : ℕ → CString) (first : ℕ) (query : CString) : CString :=
  ⟨substitute texts first query.chars, zero_notMem_substitute texts query.noNul first⟩

def placeholders (query : CString) : ℕ := query.chars.count mark

/-- The loop stops. It has written the text with its zero, or an allocation has failed. -/
def Rewrites (heap : Heap) (print : Print) (first : ℕ) (query text : CString) : Prop :=
  ∃ o, Ends heap print query (start first) o ∧
    ((o = .failed ∧ ∃ size, heap size = none) ∨
      ∃ buf, o = .done buf (first + placeholders query) ∧ StartsWith buf text)

/-! ## Ends of a loop -/

section Loop

variable {heap : Heap} {print : Print} {query : CString}

theorem Ends.of_step {s t : State} {o : Outcome} (h : step heap print query s = .more t)
    (ht : Ends heap print query t o) : Ends heap print query s o := by
  obtain ⟨enough, henough⟩ := ht
  refine ⟨enough + 1, fun fuel hfuel => ?_⟩
  obtain ⟨fuel, rfl⟩ := Nat.exists_eq_add_of_le' (Nat.le_of_add_left_le hfuel)
  rw [run, h]
  exact henough fuel (Nat.le_of_add_le_add_right hfuel)

theorem Ends.last {s : State} {o : Outcome} (h : step heap print query s = o)
    (hlast : ∀ t, o ≠ .more t) : Ends heap print query s o := by
  refine ⟨1, fun fuel hfuel => ?_⟩
  obtain ⟨fuel, rfl⟩ := Nat.exists_eq_add_of_le' hfuel
  rw [run, h]
  cases o with
  | more t => exact absurd rfl (hlast t)
  | failed => cases fuel <;> rfl
  | done buf vcnt => cases fuel <;> rfl
  | outside => cases fuel <;> rfl

/-! ## What is written

The written part `p` is followed by at least one byte, so that the zero fits. A buffer that was
too small for a text is smaller than the whole result.
-/

structure Written (p : List Byte) (s : State) : Prop where
  pre : p <+: s.buf
  j_eq : s.j = p.length
  room : s.buf = [] ∨ s.j < s.buf.length
  small : s.buf.length < 2 ^ 31 + s.j
  retry : s.needRealloc = true → s.buf.length < 2 ^ 30

theorem written_start (first : ℕ) : Written [] (start first) where
  pre := List.prefix_rfl
  j_eq := rfl
  room := Or.inl rfl
  small := show 0 < 2 ^ 31 + 0 by decide
  retry _ := show 0 < 2 ^ 30 by decide

theorem realloc_spec (heap : Heap) {buf p : List Byte} (hp : p <+: buf) {size : ℕ}
    (hsize : buf.length ≤ size) :
    realloc heap buf size = none ∧ heap size = none ∨
      ∃ buf', realloc heap buf size = some buf' ∧ p <+: buf' ∧ buf'.length = size := by
  unfold realloc
  cases hheap : heap size with
  | none => exact Or.inl ⟨rfl, rfl⟩
  | some fresh =>
    refine Or.inr ⟨_, rfl, ?_, ?_⟩
    · rw [List.take_of_length_le hsize]
      exact hp.trans (List.prefix_append _ _)
    · simp only [List.length_append, List.length_take, List.length_map, List.length_range']
      omega

theorem grow_spec (heap : Heap) {p : List Byte} {s : State} (hs : Written p s) (hp : p.length < 2 ^ 30) :
    (grow heap s = none ∧ ∃ size, heap size = none) ∨
      ∃ buf, grow heap s = some buf ∧ p <+: buf ∧ s.j + 1 < buf.length ∧
        buf.length < 2 ^ 31 + s.j ∧ s.buf.length ≤ buf.length ∧
        (s.needRealloc = true → s.buf.length < buf.length) := by
  obtain ⟨hpre, hj, hroom, hsmall, hretry⟩ := hs
  have hj1 : toUInt 32 (s.j + 1 : ℕ) = s.j + 1 := toUInt_natCast (by omega)
  unfold grow
  rw [hj1]
  split
  · next hfull =>
    have hlen : s.buf.length ≤ 2 ^ 30 := by
      rcases hfull with hfull | hneed
      · omega
      · exact (hretry hneed).le
    have hnext : nextBuflen s.buf.length = if 0 < s.buf.length then s.buf.length * 2 else 256 := by
      unfold nextBuflen
      rw [toUInt_natCast (by omega)]
    have hempty : s.buf = [] → s.j = 0 := by
      intro hnil
      have := hpre.length_le
      simp only [hnil, List.length_nil] at this
      omega
    have hgrown : s.buf.length < nextBuflen s.buf.length ∧
        s.j + 1 < nextBuflen s.buf.length ∧ nextBuflen s.buf.length < 2 ^ 31 + s.j := by
      rw [hnext]
      rcases hroom with hnil | hlt
      · have := hempty hnil
        simp only [hnil, List.length_nil, lt_irrefl, if_false]
        omega
      · rw [if_pos (by omega)]
        rcases hfull with hfull | hneed
        · omega
        · have := hretry hneed
          omega
    obtain ⟨hlt, hjlt, hbig⟩ := hgrown
    rcases realloc_spec heap hpre hlt.le with ⟨hnone, hheap⟩ | ⟨buf, hbuf, hpre', hlen'⟩
    · exact Or.inl ⟨hnone, _, hheap⟩
    · refine Or.inr ⟨buf, hbuf, hpre', ?_, ?_, ?_, fun _ => ?_⟩ <;> omega
  · next hfits =>
    obtain ⟨hlt, hneed⟩ := not_or.mp hfits
    exact Or.inr ⟨s.buf, rfl, hpre, by omega, hsmall, le_rfl, fun h => absurd h hneed⟩

/-- The print of a placeholder stores its text if there is room for it and the zero. -/
def Prints (print : Print) (vcnt : ℕ) (text : CString) : Prop :=
  ∀ (buf p : List Byte) (room : ℕ), p <+: buf → 0 < room → p.length + room ≤ buf.length →
    room < 2 ^ 31 → ∃ buf', print vcnt buf p.length room =
        some (buf', if (text.length : ℤ) < room then (text.length : ℤ) else -1) ∧
      buf'.length = buf.length ∧ p <+: buf' ∧ (text.length < room → p ++ text.chars <+: buf')

theorem step_char (heap : Heap) (print : Print) {p : List Byte} {s : State} (hs : Written p s) {c : Byte}
    (hc : query.chars[s.i]? = some c) (hmark : c ≠ mark) (hp : p.length < 2 ^ 30) :
    (step heap print query s = .failed ∧ ∃ size, heap size = none) ∨
      ∃ t, step heap print query s = .more t ∧ t.i = s.i + 1 ∧ t.vcnt = s.vcnt ∧
        Written (p ++ [c]) t ∧ t.j < t.buf.length := by
  unfold step
  rw [hc]
  dsimp only
  rcases grow_spec heap hs hp with
    ⟨hnone, hheap⟩ | ⟨buf, hbuf, hpre, hjlt, hbig, hle, hlt⟩
  · rw [hnone]
    exact Or.inl ⟨rfl, hheap⟩
  · have hj := hs.j_eq
    obtain ⟨buf', hstore, hlen, hpre'⟩ := storeByte_spec hpre (by omega) c
    rw [hbuf]
    dsimp only
    rw [if_pos hmark, hj, hstore]
    refine Or.inr ⟨_, rfl, rfl, rfl, ⟨hpre', ?_, ?_, ?_, ?_⟩, ?_⟩
    · simp
    · exact Or.inr (by simp only; omega)
    · simp only
      omega
    · intro hfalse
      exact absurd hfalse Bool.false_ne_true
    · simp only
      omega

theorem step_mark (heap : Heap) {p : List Byte} {s : State} (hs : Written p s) {text : CString}
    (hc : query.chars[s.i]? = some mark) (hprints : Prints print s.vcnt text)
    (hp : p.length + text.length < 2 ^ 30) :
    (step heap print query s = .failed ∧ ∃ size, heap size = none) ∨
      (∃ t, step heap print query s = .more t ∧ t.i = s.i + 1 ∧ t.vcnt = s.vcnt + 1 ∧
        Written (p ++ text.chars) t ∧ t.j < t.buf.length) ∨
      ∃ t, step heap print query s = .more t ∧ t.i = s.i ∧ t.vcnt = s.vcnt ∧ Written p t ∧
        t.needRealloc = true ∧ t.buf.length ≤ p.length + text.length ∧
        s.buf.length ≤ t.buf.length ∧ (s.needRealloc = true → s.buf.length < t.buf.length) := by
  unfold step
  rw [hc]
  dsimp only
  rcases grow_spec heap hs (by omega) with
    ⟨hnone, hheap⟩ | ⟨buf, hbuf, hpre, hjlt, hbig, hle, hlt⟩
  · rw [hnone]
    exact Or.inl ⟨rfl, hheap⟩
  · have hj := hs.j_eq
    have hroom : toUInt 32 ((buf.length : ℤ) - s.j) = buf.length - p.length := by
      rw [toUInt_of_range (by omega) (by omega)]
      omega
    obtain ⟨buf', hprint, hlen, hpre', hwhole⟩ :=
      hprints buf p (buf.length - p.length) hpre (by omega) (by omega) (by omega)
    have hchars : text.chars.length = text.length := rfl
    rw [hbuf]
    dsimp only
    rw [if_neg (not_not.mpr rfl), hroom, hj, hprint]
    dsimp only
    by_cases hfits : text.length < buf.length - p.length
    · have hfits' : (text.length : ℤ) < (buf.length - p.length : ℕ) := by exact_mod_cast hfits
      rw [if_pos hfits', if_neg (by omega)]
      refine Or.inr (Or.inl ⟨_, rfl, rfl, rfl, ⟨hwhole hfits, ?_, ?_, ?_, ?_⟩, ?_⟩)
      · simp only [List.length_append, Int.toNat_natCast, hchars]
      · exact Or.inr (by simp only [Int.toNat_natCast]; omega)
      · simp only [Int.toNat_natCast]
        omega
      · intro hfalse
        exact absurd hfalse Bool.false_ne_true
      · simp only [Int.toNat_natCast]
        omega
    · have hfits' : ¬(text.length : ℤ) < (buf.length - p.length : ℕ) := by exact_mod_cast hfits
      rw [if_neg hfits', if_pos (by decide)]
      refine Or.inr (Or.inr ⟨_, rfl, rfl, rfl, ⟨hpre', rfl, ?_, ?_, fun _ => ?_⟩, rfl, ?_, ?_, ?_⟩)
      · exact Or.inr (by simp only; omega)
      · simp only
        omega
      · simp only
        omega
      · simp only
        omega
      · simp only
        omega
      · intro hneed
        have := hlt hneed
        simp only
        omega

def Good (heap : Heap) (text : List Byte) (vcnt : ℕ) (o : Outcome) : Prop :=
  (o = .failed ∧ ∃ size, heap size = none) ∨ ∃ buf, o = .done buf vcnt ∧ text ++ [0] <+: buf

theorem ends_failed {s : State} {text : List Byte} {vcnt : ℕ}
    (h : step heap print query s = .failed ∧ ∃ size, heap size = none) :
    ∃ o, Ends heap print query s o ∧ Good heap text vcnt o :=
  ⟨.failed, Ends.last h.1 (fun _ => by simp), Or.inl ⟨rfl, h.2⟩⟩

theorem ends_more {s t : State} {text : List Byte} {vcnt : ℕ}
    (h : step heap print query s = .more t)
    (ht : ∃ o, Ends heap print query t o ∧ Good heap text vcnt o) :
    ∃ o, Ends heap print query s o ∧ Good heap text vcnt o := by
  obtain ⟨o, ho, hgood⟩ := ht
  exact ⟨o, Ends.of_step h ho, hgood⟩

/-- A placeholder is left behind after finitely many tries, each in a larger buffer than the one
before. -/
theorem ends_mark {p : List Byte} {s : State} (hs : Written p s) {text : CString}
    {whole : List Byte} {vcnt : ℕ}
    (hc : query.chars[s.i]? = some mark) (hprints : Prints print s.vcnt text)
    (hp : p.length + text.length < 2 ^ 30)
    (hrest : ∀ t, t.i = s.i + 1 → t.vcnt = s.vcnt + 1 → Written (p ++ text.chars) t →
      t.j < t.buf.length → ∃ o, Ends heap print query t o ∧ Good heap whole vcnt o) :
    ∃ o, Ends heap print query s o ∧ Good heap whole vcnt o := by
  -- The distance to a buffer that is large enough; a first try may leave the buffer as it is.
  induction hm : 2 * (p.length + text.length + 1 - s.buf.length) +
      (if s.needRealloc = true then 0 else 1) using Nat.strong_induction_on generalizing s with
  | _ m ih =>
    rcases step_mark heap hs hc hprints hp with hfail |
      ⟨t, ht, hti, htv, hw, hroom⟩ | ⟨t, ht, hti, htv, hw, hneed, hsmall, hle, hlt⟩
    · exact ends_failed hfail
    · exact ends_more ht (hrest t hti htv hw hroom)
    · have hless : 2 * (p.length + text.length + 1 - t.buf.length) +
          (if t.needRealloc = true then 0 else 1) < m := by
        rw [← hm, if_pos hneed]
        split
        · next hs' =>
          have := hlt hs'
          omega
        · omega
      refine ends_more ht (ih _ hless hw (by rw [hti]; exact hc) (by rw [htv]; exact hprints)
        (fun u hui huv => ?_) rfl)
      rw [hti] at hui
      rw [htv] at huv
      exact hrest u hui huv

/-- From any place of the query on, what is left of it is written behind `p`. -/
theorem ends_rest {texts : ℕ → CString} {cs p : List Byte} {s : State} (hs : Written p s)
    (hcs : query.chars.drop s.i = cs) (hroom : cs = [] → s.j < s.buf.length)
    (hprints : ∀ k < s.vcnt + cs.count mark, s.vcnt ≤ k → Prints print k (texts k))
    (hsize : (p ++ substitute texts s.vcnt cs).length < 2 ^ 30) :
    ∃ o, Ends heap print query s o ∧
      Good heap (p ++ substitute texts s.vcnt cs) (s.vcnt + cs.count mark) o := by
  induction cs generalizing p s with
  | nil =>
    have hend : query.chars[s.i]? = none := by
      rw [List.getElem?_eq_none_iff]
      exact List.drop_eq_nil_iff.mp hcs
    have hj := hs.j_eq
    have hlt := hroom rfl
    obtain ⟨buf, hstore, -, hpre⟩ := storeByte_spec hs.pre (by omega) 0
    have hdone : step heap print query s = .done buf s.vcnt := by
      unfold step
      rw [hend, hj, hstore]
    refine ⟨.done buf s.vcnt, Ends.last hdone (fun _ => by simp), Or.inr ⟨buf, rfl, ?_⟩⟩
    simpa [substitute] using hpre
  | cons c cs ih =>
    have hc : query.chars[s.i]? = some c := by
      rw [← List.head?_drop, hcs]
      rfl
    have hdrop : query.chars.drop (s.i + 1) = cs := by
      rw [← List.tail_drop, hcs]
      rfl
    by_cases hmark : c = mark
    · subst hmark
      have hcount : (mark :: cs).count mark = cs.count mark + 1 := List.count_cons_self
      have htail : substitute texts s.vcnt (mark :: cs) =
          (texts s.vcnt).chars ++ substitute texts (s.vcnt + 1) cs := if_pos rfl
      have hchars : (texts s.vcnt).chars.length = (texts s.vcnt).length := rfl
      rw [htail, ← List.append_assoc] at hsize ⊢
      rw [hcount] at hprints ⊢
      have hp : p.length + (texts s.vcnt).length < 2 ^ 30 := by
        rw [List.length_append, List.length_append] at hsize
        omega
      refine ends_mark hs hc (hprints s.vcnt (by omega) le_rfl) hp fun t hti htv hw htroom => ?_
      have hnext := ih hw (by rw [hti]; exact hdrop) (fun _ => htroom)
        (fun k hk hle => hprints k (by omega) (by omega)) (by rw [htv]; exact hsize)
      rw [htv] at hnext
      have hvcnt : s.vcnt + 1 + cs.count mark = s.vcnt + (cs.count mark + 1) := by omega
      rwa [hvcnt] at hnext
    · have hcount : (c :: cs).count mark = cs.count mark := List.count_cons_of_ne hmark
      have htail : substitute texts s.vcnt (c :: cs) = c :: substitute texts s.vcnt cs :=
        if_neg hmark
      rw [htail, List.append_cons] at hsize ⊢
      rw [hcount] at hprints ⊢
      have hp : p.length < 2 ^ 30 := by
        rw [List.length_append, List.length_append] at hsize
        omega
      rcases step_char heap print hs hc hmark hp with hfail |
        ⟨t, ht, hti, htv, hw, htroom⟩
      · exact ends_failed hfail
      · have hnext := ih hw (by rw [hti]; exact hdrop) (fun _ => htroom)
          (fun k hk hle => hprints k (by omega) (by omega)) (by rw [htv]; exact hsize)
        rw [htv] at hnext
        exact ends_more ht hnext

theorem rewrites {texts : ℕ → CString} {first : ℕ} (hne : query.chars ≠ [])
    (hprints : ∀ k < first + placeholders query, first ≤ k → Prints print k (texts k))
    (hsize : (substituted texts first query).length < 2 ^ 30) :
    Rewrites heap print first query (substituted texts first query) :=
  ends_rest (p := []) (written_start first) rfl (fun h => absurd h hne) hprints hsize

end Loop

/-! ## The two kinds of print -/

theorem prints_execute {ff : FloatFormat} {boundParam : List DbBind} {k : ℕ} {var : DbBind}
    {text : CString} (hvar : boundParam[k]? = some var) (htext : var.text ff = some text) :
    Prints (executePrint ff boundParam) k text := by
  intro buf p room hp hpos hroom hsmall
  have hint : toInt 32 room = room := toInt_natCast (by decide) hsmall
  obtain ⟨buf', hprint, hlen, hpre, hwhole⟩ :=
    dbPrintValue_spec htext hp (Int.natCast_pos.mpr hpos) (by exact_mod_cast hroom)
      (by exact_mod_cast hsmall)
  refine ⟨buf', ?_, hlen, hpre, fun hlt => hwhole (by exact_mod_cast hlt)⟩
  rw [executePrint, hvar, hint]
  exact hprint

theorem prints_numbered (sign : CString) (k : ℕ) :
    Prints (numberedPrint sign) k (numbered sign k) := by
  intro buf p room hp hpos hroom hsmall
  have hint : toInt 32 room = room := toInt_natCast (by decide) hsmall
  obtain ⟨buf', hprint, hlen, hcut⟩ := snprintf_spec (numbered sign k) hp hpos hroom
  obtain ⟨hpre, hwhole⟩ := prefix_of_cut hcut
  refine ⟨buf', ?_, hlen, hpre, fun hlt => hwhole (Nat.le_pred_of_lt hlt)⟩
  rw [numberedPrint, hprint, hint]
  rfl

theorem substitute_congr {texts texts' : ℕ → CString} {cs : List Byte} {k : ℕ}
    (h : ∀ i < k + cs.count mark, texts i = texts' i) :
    substitute texts k cs = substitute texts' k cs := by
  induction cs generalizing k with
  | nil => rfl
  | cons c cs ih =>
    rw [substitute, substitute]
    split
    · next hmark =>
      subst hmark
      rw [List.count_cons_self] at h
      rw [h k (by omega), ih (fun i hi => h i (by omega))]
    · next hmark =>
      rw [List.count_cons_of_ne hmark] at h
      rw [ih h]

/-- Texts that are not empty leave no more marks than the result has bytes. -/
theorem count_le_length_substitute {texts : ℕ → CString} (hpos : ∀ k, 0 < (texts k).length)
    (cs : List Byte) (k : ℕ) : cs.count mark ≤ (substitute texts k cs).length := by
  induction cs generalizing k with
  | nil => exact le_rfl
  | cons c cs ih =>
    rw [substitute]
    split
    · next hmark =>
      have := ih (k + 1)
      have := hpos k
      have hchars : (texts k).chars.length = (texts k).length := rfl
      rw [hmark, List.count_cons_self, List.length_append]
      omega
    · next hmark =>
      rw [List.count_cons_of_ne hmark, List.length_cons]
      exact Nat.le_succ_of_le (ih k)

def signed (sign : CString) (k : ℕ) : CString := sign ++ decimal k

theorem substituted_numbered {sign : CString} (hsign : 0 < sign.length) {query : CString}
    (hsize : (substituted (signed sign) 1 query).length < 2 ^ 30) :
    placeholders query < 2 ^ 30 ∧
      substituted (signed sign) 1 query = substituted (numbered sign) 1 query := by
  have hpos : ∀ k, 0 < (signed sign k).length := by
    intro k
    rw [signed, CString.length_append]
    exact Nat.add_pos_left hsign _
  have hcount : placeholders query < 2 ^ 30 :=
    (count_le_length_substitute hpos query.chars 1).trans_lt hsize
  refine ⟨hcount, CString.ext (substitute_congr fun i hi => ?_)⟩
  have hint : toInt 32 (i : ℤ) = i :=
    toInt_natCast (by decide) (by unfold placeholders at hcount; omega)
  rw [signed, numbered, hint]

end Placeholders

open Placeholders

/-- Each loop leaves the query with its marks replaced, wherever the buffer had to grow. -/
theorem placeholders_replaced (heap : Heap) (query : CString) (hne : query.chars ≠ []) :
    (∀ (ff : FloatFormat) (boundParam : List DbBind) (texts : ℕ → CString),
      (∀ k < placeholders query,
        ∃ var, boundParam[k]? = some var ∧ var.text ff = some (texts k)) →
      (substituted texts 0 query).length < 2 ^ 30 →
      Rewrites heap (executePrint ff boundParam) 0 query (substituted texts 0 query)) ∧
    ((substituted (signed dollar) 1 query).length < 2 ^ 30 →
      Rewrites heap pgsqlPreparePrint 1 query (substituted (signed dollar) 1 query) ∧
        pgsqlNparams (1 + placeholders query) = placeholders query) ∧
    ((substituted (signed colon) 1 query).length < 2 ^ 30 →
      Rewrites heap oraPreparePrint 1 query (substituted (signed colon) 1 query)) := by
  refine ⟨fun ff boundParam texts htexts hsize => ?_, fun hsize => ?_, fun hsize => ?_⟩
  · refine rewrites hne (fun k hk _ => ?_) hsize
    obtain ⟨var, hvar, htext⟩ := htexts k (by omega)
    exact prints_execute hvar htext
  · obtain ⟨hcount, heq⟩ := substituted_numbered (by decide) hsize
    rw [heq] at hsize ⊢
    refine ⟨rewrites hne (fun k _ _ => prints_numbered dollar k) hsize, ?_⟩
    have hint : toInt 32 (placeholders query : ℤ) = placeholders query :=
      toInt_natCast (by decide) (by omega)
    rw [pgsqlNparams]
    simpa using hint
  · obtain ⟨-, heq⟩ := substituted_numbered (by decide) hsize
    rw [heq] at hsize ⊢
    exact rewrites hne (fun k _ _ => prints_numbered colon k) hsize

def pairQuery : CString := ⟨"(?,?)".toList.map charByte, by decide⟩

theorem placeholders_replaced_pair :
    Rewrites (fun _ => some fun _ => 0)
      (executePrint ⟨fun _ => .empty, fun _ => .empty⟩
        [⟨.int 7, none, 0, none⟩, ⟨.char [97, 0], none, 0, some 1⟩]) 0 pairQuery
      (substituted (fun k => if k = 0 then decimal 7 else nullText) 0 pairQuery) ∧
    Rewrites (fun _ => some fun _ => 0) pgsqlPreparePrint 1 pairQuery
      (substituted (signed dollar) 1 pairQuery) ∧
    Rewrites (fun _ => some fun _ => 0) oraPreparePrint 1 pairQuery
      (substituted (signed colon) 1 pairQuery) := by
  obtain ⟨hexecute, hpgsql, hora⟩ :=
    placeholders_replaced (fun _ => some fun _ => 0) pairQuery (by decide)
  refine ⟨hexecute _ _ _ (fun k hk => ?_) (by decide), (hpgsql (by decide)).1, hora (by decide)⟩
  have hk : k < 2 := hk
  interval_cases k
  · exact ⟨_, rfl, rfl⟩
  · exact ⟨_, rfl, rfl⟩

end Sysbench.Database
