import Sysbench.Database.Emulation
import Sysbench.Database.BindReaders
import Sysbench.Machine.Runs

/-! # Reads of bound parameters

The number of placeholders is known from the text of a statement, the array of parameters is
the one of the last call of `db_bind_param`. The emulated execution and the one of a statement
that PostgreSQL has prepared do not compare the two.
-/
namespace Sysbench.Database

open Bytes CStrings Words Placeholders Runs

structure PgStmt where
  nparams : ℤ
  prepared : Bool
  pvalues : List (List Byte)

/-- `db_stmt_t`. The array of parameters is NULL at first. A statement without a `pg_stmt_t` is
emulated. -/
structure DbStmt where
  query : CString
  boundParam : Option (List DbBind)
  ptr : Option PgStmt

def DbStmt.boundParamLen (stmt : DbStmt) : ℕ := stmt.boundParam.elim 0 List.length

/-- What `mysql_drv_prepare`, `drizzle_drv_prepare`, `pgsql_drv_prepare` and `ora_drv_prepare` do
for an emulated statement. In a dry run MySQL does nothing and emulates nothing. -/
def emulatedPrepare (query : CString) : DbStmt := ⟨query, none, none⟩

/-- `pgsql_drv_prepare` on the server, with its loop followed for a number of steps. It is only for
a statement without parameters that `PQprepare` is asked, which accepts or not. -/
def pgsqlDrvPrepare (heap : Heap) (accepts : Bool) (fuel : ℕ) (query : CString) : Option DbStmt :=
  match Placeholders.run heap pgsqlPreparePrint query fuel (.more (start 1)) with
  | .done buf vcnt => (readString buf).bind fun text =>
    let nparams := pgsqlNparams vcnt
    if nparams = 0 then if accepts then some ⟨text, none, some ⟨nparams, true, []⟩⟩ else none
    else some ⟨text, none, some ⟨nparams, false, []⟩⟩
  | _ => none

/-- The array is copied. Emulated statements of the other drivers are bound in the same way. -/
def emulatedBindParam (stmt : DbStmt) (params : List DbBind) : DbStmt :=
  { stmt with boundParam := some params }

/-- `pgsql_drv_bind_param`. `accepts` is the answer of `PQprepare`, and `fresh` is what the new
buffers hold. There is no result where the function returns 1. -/
def pgsqlDrvBindParam (accepts : Bool) (fresh : ℕ → List Byte) (stmt : DbStmt)
    (params : List DbBind) : Option DbStmt :=
  let stmt := emulatedBindParam stmt params
  match stmt.ptr with
  | none => some stmt
  | some pgstmt =>
    if pgstmt.prepared then some stmt
    else if toUInt 32 pgstmt.nparams ≠ params.length then none
    else if accepts then
      let pvalues := (List.range params.length).map fresh
      some { stmt with ptr := some { pgstmt with prepared := true, pvalues := pvalues } }
    else none

inductive Fault where
  | nullParam
  | unbound (index : ℕ)
  | nullBuffer
  deriving DecidableEq

def DbStmt.readParam (stmt : DbStmt) (index : ℕ) : Except Fault DbBind :=
  match stmt.boundParam with
  | none => .error .nullParam
  | some params => (params[index]?).elim (.error (.unbound index)) .ok

/-- What the next round of the emulated execution does wrong. The buffer is NULL until the first
round, which always allocates it. -/
def DbStmt.faultAt (stmt : DbStmt) (heap : Heap) (s : State) : Option Fault :=
  match stmt.query.chars[s.i]? with
  | none => if s.i = 0 then some .nullBuffer else none
  | some c =>
    if c = mark ∧ (grow heap s).isSome then
      match stmt.readParam s.vcnt with
      | .error fault => some fault
      | .ok _ => none
    else none

def DbStmt.fillValues (stmt : DbStmt) (ff : FloatFormat) (pgstmt : PgStmt) :
    Except Fault (List (Option (List Byte))) :=
  (List.range (toUInt 32 pgstmt.nparams)).mapM fun i =>
    (stmt.readParam i).map fun b => (pgstmt.pvalues[i]?).bind (pgsqlStoreValue ff b)

def DbStmt.emulated (stmt : DbStmt) : EmulatedStmt := ⟨stmt.query, stmt.boundParam.getD []⟩

def DbStmt.Faults (stmt : DbStmt) (heap : Heap) (ff : FloatFormat) (fault : Fault) : Prop :=
  match stmt.ptr with
  | none => ∃ fuel s, stmt.emulated.build heap ff fuel = .more s ∧ stmt.faultAt heap s = some fault
  | some pgstmt => stmt.fillValues ff pgstmt = .error fault

/-- The operation `execute` of the driver. `answer` is what becomes of a statement that
`PQexecPrepared` is given. -/
def DbStmt.execute (stmt : DbStmt) (d : EmulatingDriver)
    (answer : List (Option (List Byte)) → DbError) (heap : Heap) (ff : FloatFormat) (fuel : ℕ)
    (con : DbConn) : Option (DbError × DbConn) :=
  match stmt.ptr with
  | none => d.execute con (stmt.emulated.build heap ff fuel)
  | some pgstmt =>
    match stmt.fillValues ff pgstmt with
    | .error _ => none
    | .ok values => some (answer values, con)

inductive StmtCall where
  | bindParam (accepts : Bool) (fresh : ℕ → List Byte) (params : List DbBind)
  | execute (ff : FloatFormat)

/-- The statement after a successful call. Only the buffers change when it is executed. -/
def DbStmt.next (stmt : DbStmt) : StmtCall → Option DbStmt
  | .bindParam accepts fresh params => pgsqlDrvBindParam accepts fresh stmt params
  | .execute ff =>
    match stmt.ptr with
    | none => some stmt
    | some pgstmt =>
      match stmt.fillValues ff pgstmt with
      | .error _ => none
      | .ok values => (values.mapM id).map fun pvalues =>
        { stmt with ptr := some { pgstmt with pvalues := pvalues } }

/-- The statement as `db_prepare` returns it for the text. -/
inductive PreparedFrom (text : CString) : DbStmt → Prop
  | emulated : PreparedFrom text (emulatedPrepare text)
  | server {heap : Heap} {accepts : Bool} {fuel : ℕ} {stmt : DbStmt} :
      pgsqlDrvPrepare heap accepts fuel text = some stmt → PreparedFrom text stmt

/-- There is a parameter for each placeholder, and an emulated statement has a text. -/
structure Covered (text : CString) (stmt : DbStmt) : Prop where
  nonempty : stmt.ptr = none → text.chars ≠ []
  params : placeholders text ≤ stmt.boundParamLen

structure ExecutesSafely (d : EmulatingDriver) (text : CString) (stmt : DbStmt) : Prop where
  inside : ∀ heap ff fault, ¬ stmt.Faults heap ff fault
  fails : stmt.boundParamLen < placeholders text → ∀ answer heap ff fuel con rc con',
    stmt.execute d answer heap ff fuel con = some (rc, con') → rc ≠ .none

/-! ## Counting the placeholders -/

section Loop

variable {heap : Heap} {print : Print} {query : CString}

/-- The placeholders before the position have been counted, from `first` on. -/
def Counted (query : CString) (first : ℕ) (s : State) : Prop :=
  s.vcnt = first + (query.chars.take s.i).count mark

theorem counted_start (first : ℕ) : Counted query first (start first) :=
  (Nat.add_zero first).symm

theorem step_more {s t : State} (hstep : step heap print query s = .more t) :
    ∃ c, query.chars[s.i]? = some c ∧ (grow heap s).isSome ∧
      ((c ≠ mark ∧ t.i = s.i + 1 ∧ t.vcnt = s.vcnt) ∨
        (c = mark ∧ t.i = s.i + 1 ∧ t.vcnt = s.vcnt + 1) ∨ (t.i = s.i ∧ t.vcnt = s.vcnt)) := by
  unfold step at hstep
  split at hstep
  · split at hstep <;> cases hstep
  next c hc =>
  split at hstep
  · cases hstep
  next buf hgrow =>
  refine ⟨c, hc, by rw [hgrow]; rfl, ?_⟩
  by_cases hmark : c = mark
  · rw [if_neg (not_not.mpr hmark)] at hstep
    split at hstep
    · cases hstep
    next buf' n hprint =>
    split at hstep
    · cases hstep
      exact Or.inr (Or.inr ⟨rfl, rfl⟩)
    · cases hstep
      exact Or.inr (Or.inl ⟨hmark, rfl, rfl⟩)
  · rw [if_pos hmark] at hstep
    split at hstep
    · cases hstep
      exact Or.inl ⟨hmark, rfl, rfl⟩
    · cases hstep

theorem count_take_succ {cs : List Byte} {i : ℕ} {c : Byte} (hc : cs[i]? = some c) :
    (cs.take (i + 1)).count mark = (cs.take i).count mark + if c = mark then 1 else 0 := by
  rw [List.take_add_one, hc, Option.toList_some, List.count_append, List.count_singleton]
  simp

theorem Counted.step {first : ℕ} {s t : State} (hs : Counted query first s)
    (hstep : step heap print query s = .more t) : Counted query first t := by
  obtain ⟨c, hc, -, ⟨hmark, hi, hv⟩ | ⟨hmark, hi, hv⟩ | ⟨hi, hv⟩⟩ := step_more hstep
  · rw [Counted, hi, hv, count_take_succ hc, if_neg hmark]
    exact hs
  · rw [Counted, hi, hv, count_take_succ hc, if_pos hmark, ← add_assoc]
    exact congrArg (· + 1) hs
  · rw [Counted, hi, hv]
    exact hs

theorem step_done {s : State} {buf : List Byte} {vcnt : ℕ}
    (hstep : step heap print query s = .done buf vcnt) :
    query.chars[s.i]? = none ∧ vcnt = s.vcnt := by
  unfold step at hstep
  split at hstep
  · next hend =>
    split at hstep <;> cases hstep
    exact ⟨hend, rfl⟩
  · split at hstep
    · cases hstep
    split at hstep
    · split at hstep <;> cases hstep
    · split at hstep
      · cases hstep
      · split at hstep <;> cases hstep

/-- The first of some rounds, which may be the last one. -/
theorem run_succ {s : State} {fuel : ℕ} {o : Outcome}
    (hrun : Placeholders.run heap print query (fuel + 1) (.more s) = o) :
    (∃ t, step heap print query s = .more t ∧
        Placeholders.run heap print query fuel (.more t) = o) ∨
      step heap print query s = o ∧ ∀ t, o ≠ .more t := by
  rw [Placeholders.run] at hrun
  cases hstep : step heap print query s with
  | more t =>
    rw [hstep] at hrun
    exact Or.inl ⟨t, rfl, hrun⟩
  | failed =>
    rw [hstep] at hrun
    obtain rfl : .failed = o := by cases fuel <;> exact hrun
    exact Or.inr ⟨rfl, fun t h => by cases h⟩
  | done buf vcnt =>
    rw [hstep] at hrun
    obtain rfl : .done buf vcnt = o := by cases fuel <;> exact hrun
    exact Or.inr ⟨rfl, fun t h => by cases h⟩
  | outside =>
    rw [hstep] at hrun
    obtain rfl : .outside = o := by cases fuel <;> exact hrun
    exact Or.inr ⟨rfl, fun t h => by cases h⟩

/-- What the rounds keep holds in every state that they reach. -/
theorem run_more {P : State → Prop}
    (hkeep : ∀ s t, P s → step heap print query s = .more t → P t) {s t : State} (hs : P s)
    {fuel : ℕ} (hrun : Placeholders.run heap print query fuel (.more s) = .more t) : P t := by
  induction fuel generalizing s with
  | zero =>
    cases hrun
    exact hs
  | succ fuel ih =>
    rcases run_succ hrun with ⟨u, hstep, hrest⟩ | ⟨-, hlast⟩
    · exact ih (hkeep s u hs hstep) hrest
    · exact absurd rfl (hlast t)

theorem Counted.lt_placeholders {first : ℕ} {s : State} (hs : Counted query first s)
    (hmark : query.chars[s.i]? = some mark) : s.vcnt < first + placeholders query := by
  have hle : ((query.chars.take (s.i + 1)).count mark) ≤ placeholders query :=
    (List.take_sublist _ _).count_le mark
  rw [count_take_succ hmark, if_pos rfl] at hle
  rw [hs]
  omega

theorem Counted.done {first : ℕ} {s : State} (hs : Counted query first s) {fuel vcnt : ℕ}
    {buf : List Byte} (hrun : Placeholders.run heap print query fuel (.more s) = .done buf vcnt) :
    vcnt = first + placeholders query := by
  induction fuel generalizing s with
  | zero => cases hrun
  | succ fuel ih =>
    rcases run_succ hrun with ⟨t, hstep, hrest⟩ | ⟨hstep, -⟩
    · exact ih (hs.step hstep) hrest
    · obtain ⟨hend, rfl⟩ := step_done hstep
      rw [hs, List.take_of_length_le (List.getElem?_eq_none_iff.mp hend)]
      rfl

end Loop

/-! ## Executions -/

section Execute

variable {text : CString} {stmt : DbStmt}

theorem DbStmt.readParam_of_lt {index : ℕ} (h : index < stmt.boundParamLen) :
    ∃ b, stmt.readParam index = .ok b := by
  unfold boundParamLen at h
  unfold readParam
  cases hparams : stmt.boundParam with
  | none =>
    rw [hparams] at h
    exact absurd h (Nat.not_lt_zero index)
  | some params =>
    rw [hparams] at h
    have hlt : index < params.length := h
    refine ⟨params[index], ?_⟩
    dsimp only
    rw [List.getElem?_eq_getElem hlt, Option.elim_some]

theorem DbStmt.readParam_of_ge {index : ℕ} (h : stmt.boundParamLen ≤ index) :
    ∃ fault, stmt.readParam index = .error fault := by
  unfold boundParamLen at h
  unfold readParam
  cases hparams : stmt.boundParam with
  | none => exact ⟨.nullParam, rfl⟩
  | some params =>
    rw [hparams] at h
    have hge : params.length ≤ index := h
    refine ⟨.unbound index, ?_⟩
    dsimp only
    rw [List.getElem?_eq_none hge, Option.elim_none]

/-- What the loop over a list returns if every element has a result. -/
theorem mapM_ok {α β ε : Type} {f : α → Except ε β} {l : List α}
    (h : ∀ a ∈ l, ∃ b, f a = .ok b) : ∃ bs, l.mapM f = .ok bs := by
  induction l with
  | nil => exact ⟨[], rfl⟩
  | cons a l ih =>
    obtain ⟨b, hb⟩ := h a List.mem_cons_self
    obtain ⟨bs, hbs⟩ := ih fun a' ha => h a' (List.mem_cons_of_mem _ ha)
    refine ⟨b :: bs, ?_⟩
    rw [List.mapM_cons, hb, hbs]
    rfl

/-- The text and what has been counted in it. -/
def FromText (text : CString) (stmt : DbStmt) : Prop :=
  match stmt.ptr with
  | none => stmt.query = text
  | some pgstmt => pgstmt.nparams = pgsqlNparams (1 + placeholders text)

theorem PreparedFrom.fromText (hprepared : PreparedFrom text stmt) : FromText text stmt := by
  cases hprepared with
  | emulated => rfl
  | server hprepare =>
    unfold pgsqlDrvPrepare at hprepare
    split at hprepare
    · next buf vcnt hrun =>
      obtain ⟨text', -, hprepare⟩ := Option.bind_eq_some_iff.mp hprepare
      have hvcnt := (counted_start 1).done hrun
      dsimp only at hprepare
      split at hprepare
      · split at hprepare
        · cases hprepare
          exact congrArg pgsqlNparams hvcnt
        · cases hprepare
      · cases hprepare
        exact congrArg pgsqlNparams hvcnt
    · cases hprepare

theorem FromText.next (h : FromText text stmt) {call : StmtCall} {stmt' : DbStmt}
    (hcall : stmt.next call = some stmt') : FromText text stmt' := by
  unfold FromText at h
  cases call with
  | bindParam accepts fresh params =>
    unfold DbStmt.next pgsqlDrvBindParam emulatedBindParam at hcall
    dsimp only at hcall
    cases hptr : stmt.ptr with
    | none =>
      rw [hptr] at h hcall
      cases hcall
      exact h
    | some pgstmt =>
      rw [hptr] at h hcall
      dsimp only at hcall
      split at hcall
      · cases hcall
        exact h
      split at hcall
      · cases hcall
      split at hcall
      · cases hcall
        exact h
      · cases hcall
  | execute ff =>
    unfold DbStmt.next at hcall
    cases hptr : stmt.ptr with
    | none =>
      rw [hptr] at h hcall
      cases hcall
      rw [FromText, hptr]
      exact h
    | some pgstmt =>
      rw [hptr] at h hcall
      dsimp only at hcall
      split at hcall
      · cases hcall
      · obtain ⟨pvalues, -, rfl⟩ := Option.map_eq_some_iff.mp hcall
        exact h

theorem toUInt_nparams_le (text : CString) :
    toUInt 32 (pgsqlNparams (1 + placeholders text)) ≤ placeholders text := by
  have hcount : ((1 + placeholders text : ℕ) : ℤ) - 1 = placeholders text := by
    push_cast
    ring
  rw [pgsqlNparams, hcount, toUInt_toInt, toUInt_eq_mod]
  exact Nat.mod_le _ _

/-- Where every placeholder has its parameter, nothing else is accessed. -/
theorem Covered.inside (hcovered : Covered text stmt) (h : FromText text stmt) (heap : Heap)
    (ff : FloatFormat) (fault : Fault) : ¬ stmt.Faults heap ff fault := by
  obtain ⟨hnonempty, hparams⟩ := hcovered
  unfold FromText at h
  unfold DbStmt.Faults
  cases hptr : stmt.ptr with
  | none =>
    rw [hptr] at h
    dsimp only at h ⊢
    rintro ⟨fuel, s, hrun, hfault⟩
    have hcounted : Counted stmt.query 0 s :=
      run_more (fun s t hs hstep => hs.step hstep) (counted_start 0) hrun
    unfold DbStmt.faultAt at hfault
    split at hfault
    · next hend =>
      split at hfault
      · next hzero =>
        rw [hzero, h] at hend
        exact hnonempty hptr (List.length_eq_zero_iff.mp
          (Nat.le_zero.mp (List.getElem?_eq_none_iff.mp hend)))
      · cases hfault
    · next c hc =>
      split at hfault
      · next hmark =>
        rw [hmark.1] at hc
        have hlt := hcounted.lt_placeholders hc
        rw [zero_add, h] at hlt
        obtain ⟨b, hb⟩ := stmt.readParam_of_lt (hlt.trans_le hparams)
        rw [hb] at hfault
        cases hfault
      · cases hfault
  | some pgstmt =>
    rw [hptr] at h
    dsimp only at h ⊢
    have hread : ∀ i ∈ List.range (toUInt 32 pgstmt.nparams), ∃ value,
        ((stmt.readParam i).map fun b => (pgstmt.pvalues[i]?).bind (pgsqlStoreValue ff b)) =
          .ok value := by
      intro i hi
      rw [List.mem_range, h] at hi
      obtain ⟨b, hb⟩ :=
        stmt.readParam_of_lt ((hi.trans_le (toUInt_nparams_le text)).trans_le hparams)
      exact ⟨_, by rw [hb]; rfl⟩
    obtain ⟨values, hvalues⟩ := mapM_ok hread
    rw [DbStmt.fillValues, hvalues]
    exact nofun

theorem Covered.executesSafely (hcovered : Covered text stmt) (h : FromText text stmt)
    (d : EmulatingDriver) : ExecutesSafely d text stmt where
  inside := hcovered.inside h
  fails hfew := absurd hcovered.params (Nat.not_le.mpr hfew)

end Execute

/-! ## Executions without enough parameters -/

section Few

variable {heap : Heap} {print print' : Print} {query text : CString} {stmt : DbStmt}

theorem step_congr {s : State} {c : Byte} (hc : query.chars[s.i]? = some c)
    (hprint : c = mark → print s.vcnt = print' s.vcnt) :
    step heap print query s = step heap print' query s := by
  unfold step
  rw [hc]
  dsimp only
  by_cases hmark : c = mark
  · rw [hprint hmark]
  · simp only [if_pos hmark]

/-- A loop that passes more than `len` placeholders stands at the one after them. It gets there with
any print that agrees on the ones before. -/
theorem exists_at_placeholder {len : ℕ} (hprint : ∀ k < len, print k = print' k) {fuel vcnt : ℕ}
    {s : State} {buf : List Byte} (hs : s.vcnt ≤ len) (hvcnt : len < vcnt)
    (hrun : Placeholders.run heap print' query fuel (.more s) = .done buf vcnt) :
    ∃ fuel' t, Placeholders.run heap print query fuel' (.more s) = .more t ∧
      query.chars[t.i]? = some mark ∧ (grow heap t).isSome ∧ t.vcnt = len := by
  induction fuel generalizing s with
  | zero => cases hrun
  | succ fuel ih =>
    rcases run_succ hrun with ⟨t, hstep, hrest⟩ | ⟨hstep, -⟩
    · obtain ⟨c, hc, hgrow, hcases⟩ := step_more hstep
      by_cases hhere : c = mark ∧ s.vcnt = len
      · exact ⟨0, s, rfl, hhere.1 ▸ hc, hgrow, hhere.2⟩
      have hsame : step heap print query s = .more t := by
        rw [step_congr hc fun hmark => hprint _ (lt_of_le_of_ne hs fun h => hhere ⟨hmark, h⟩), hstep]
      have ht : t.vcnt ≤ len := by
        rcases hcases with ⟨-, -, hv⟩ | ⟨hmark, -, hv⟩ | ⟨-, hv⟩
        · exact hv.trans_le hs
        · exact hv.trans_le (lt_of_le_of_ne hs fun h => hhere ⟨hmark, h⟩)
        · exact hv.trans_le hs
      obtain ⟨fuel', u, hu, hat⟩ := ih ht hrest
      refine ⟨fuel' + 1, u, ?_, hat⟩
      rw [Placeholders.run, hsame]
      exact hu
    · obtain ⟨-, rfl⟩ := step_done hstep
      exact absurd hs (Nat.not_le.mpr hvcnt)

def DbStmt.paramText (stmt : DbStmt) (ff : FloatFormat) (k : ℕ) : CString :=
  (((stmt.boundParam.getD [])[k]?).bind (DbBind.text ff)).getD .empty

/-- The strings among the parameters end, and what is written is shorter than 1 GiB. -/
structure Printable (ff : FloatFormat) (text : CString) (stmt : DbStmt) : Prop where
  readable : ∀ var ∈ stmt.boundParam.getD [], var.text ff ≠ none
  short : text.length < 2 ^ 30 ∧ (substituted (stmt.paramText ff) 0 text).length < 2 ^ 30

/-- The emulated execution gets to the first placeholder without a parameter. -/
theorem Printable.exists_fault {ff : FloatFormat} (h : Printable ff text stmt)
    (hquery : stmt.query = text) (hne : text.chars ≠ [])
    (hfew : stmt.boundParamLen < placeholders text) : ∃ fuel s fault,
      stmt.emulated.build (fun _ => some fun _ => 0) ff fuel = .more s ∧
        stmt.faultAt (fun _ => some fun _ => 0) s = some fault := by
  -- The loop with parameters of no type for the missing ones comes to an end.
  let filler : DbBind := ⟨.none, none, 0, none⟩
  let params := stmt.boundParam.getD []
  let print' := executePrint ff (params ++ List.replicate (placeholders text) filler)
  have hlen : stmt.boundParamLen = params.length := by
    unfold DbStmt.boundParamLen
    cases hparams : stmt.boundParam <;> simp [params, hparams]
  have hprints : ∀ k < 0 + placeholders text, 0 ≤ k → Prints print' k (stmt.paramText ff k) := by
    intro k hk _
    by_cases hlt : k < params.length
    · obtain ⟨t, ht⟩ := Option.ne_none_iff_exists'.mp (h.readable params[k] (List.getElem_mem hlt))
      have hvar : (params ++ List.replicate (placeholders text) filler)[k]? = some params[k] := by
        rw [List.getElem?_append_left hlt, List.getElem?_eq_getElem hlt]
      refine prints_execute hvar ?_
      rw [DbStmt.paramText, List.getElem?_eq_getElem hlt, Option.bind_some, ht]
      rfl
    · have hvar : (params ++ List.replicate (placeholders text) filler)[k]? = some filler := by
        rw [List.getElem?_append_right (Nat.le_of_not_lt hlt), List.getElem?_replicate]
        exact if_pos (by omega)
      refine prints_execute hvar ?_
      rw [DbStmt.paramText, List.getElem?_eq_none (Nat.le_of_not_lt hlt)]
      rfl
  have hrewrites : Rewrites (fun _ => some fun _ => 0) print' 0 text _ :=
    rewrites hne hprints h.short.2
  obtain ⟨o, ⟨enough, hends⟩, ⟨-, size, hnone⟩ | ⟨buf, rfl, -⟩⟩ := hrewrites
  · cases hnone
  have hagree : ∀ k < params.length, executePrint ff params k = print' k := by
    intro k hk
    funext buf pos room
    simp only [executePrint, print', List.getElem?_append_left hk]
  rw [zero_add] at hends
  obtain ⟨fuel, s, hrun, hmark, hgrow, hvcnt⟩ := exists_at_placeholder hagree
    (Nat.zero_le _) (hlen ▸ hfew) (hends enough le_rfl)
  obtain ⟨fault, hfault⟩ := stmt.readParam_of_ge (hlen.trans hvcnt.symm).le
  refine ⟨fuel, s, fault, ?_, ?_⟩
  · rw [← hquery] at hrun
    exact hrun
  · rw [← hquery] at hmark
    rw [DbStmt.faultAt, hmark]
    dsimp only
    rw [if_pos ⟨rfl, hgrow⟩, hfault]

theorem mapM_error {α β ε : Type} {f : α → Except ε β} {l : List α} {a : α} (ha : a ∈ l)
    {e : ε} (he : f a = .error e) : ∃ e', l.mapM f = .error e' := by
  induction l with
  | nil => cases ha
  | cons b l ih =>
    cases hb : f b with
    | error e' => exact ⟨e', by rw [List.mapM_cons, hb]; rfl⟩
    | ok value =>
      have hmem : a ∈ l := by
        rcases List.mem_cons.mp ha with rfl | hmem
        · rw [he] at hb
          cases hb
        · exact hmem
      obtain ⟨e', hrest⟩ := ih hmem
      exact ⟨e', by rw [List.mapM_cons, hb, hrest]; rfl⟩

/-- An execution that is safe has its text and its parameters. -/
theorem ExecutesSafely.covered {d : EmulatingDriver} (hsafe : ExecutesSafely d text stmt)
    (h : FromText text stmt) {ff : FloatFormat} (hprintable : Printable ff text stmt) :
    Covered text stmt := by
  unfold FromText at h
  have hinside := hsafe.inside (fun _ => some fun _ => 0) ff
  unfold DbStmt.Faults at hinside
  cases hptr : stmt.ptr with
  | none =>
    rw [hptr] at h hinside
    dsimp only at h hinside
    have hne : text.chars ≠ [] := by
      intro hempty
      refine hinside .nullBuffer ⟨0, start 0, rfl, ?_⟩
      rw [DbStmt.faultAt, h, hempty]
      rfl
    refine ⟨fun _ => hne, Nat.le_of_not_lt fun hfew => ?_⟩
    obtain ⟨fuel, s, fault, hrun, hfault⟩ := hprintable.exists_fault h hne hfew
    exact hinside fault ⟨fuel, s, hrun, hfault⟩
  | some pgstmt =>
    rw [hptr] at h hinside
    dsimp only at h hinside
    refine ⟨fun hnone => absurd (hptr.symm.trans hnone) nofun, Nat.le_of_not_lt fun hfew => ?_⟩
    have hcount : toUInt 32 pgstmt.nparams = placeholders text := by
      have hle : placeholders text ≤ text.length := List.count_le_length
      have hshort := hprintable.short.1
      have hint : ((1 + placeholders text : ℕ) : ℤ) - 1 = placeholders text := by
        push_cast
        ring
      rw [h, pgsqlNparams, hint, toUInt_toInt, toUInt_natCast (by omega)]
    obtain ⟨fault, hfault⟩ := stmt.readParam_of_ge le_rfl
    obtain ⟨fault', hfill⟩ := mapM_error (f := fun i => (stmt.readParam i).map fun b =>
        (pgstmt.pvalues[i]?).bind (pgsqlStoreValue ff b))
      (List.mem_range.mpr (hfew.trans_eq hcount.symm)) (e := fault) (by rw [hfault]; rfl)
    exact hinside fault' hfill

end Few

/-! ## Runs -/

/-- A condition on the statement whenever it is executed. -/
def WhenExecuted (P : DbStmt → Prop) (stmt : DbStmt) (call : StmtCall) : Prop :=
  ∀ ff, call = .execute ff → P stmt

theorem FromText.run {text : CString} {stmt stmt' : DbStmt} (h : FromText text stmt)
    {calls : List StmtCall} (hrun : Runs.run DbStmt.next stmt calls = some stmt') :
    FromText text stmt' :=
  run_preserves (fun _ _ _ ht hcall => ht.next hcall) h hrun

/-- Executions are safe in every run in which the statement is covered whenever it is executed. As
long as the parameters can be printed, they are safe in no other. -/
theorem executes_safely (d : EmulatingDriver) {text : CString} {stmt : DbStmt}
    (hprepared : PreparedFrom text stmt) (calls : List StmtCall) :
    (Guarded DbStmt.next (WhenExecuted (Covered text)) stmt calls →
      Guarded DbStmt.next (WhenExecuted (ExecutesSafely d text)) stmt calls) ∧
    ∀ ff, Guarded DbStmt.next (WhenExecuted (Printable ff text)) stmt calls →
      Guarded DbStmt.next (WhenExecuted (ExecutesSafely d text)) stmt calls →
        Guarded DbStmt.next (WhenExecuted (Covered text)) stmt calls := by
  have hfrom := hprepared.fromText
  constructor
  · intro hcovered pre call stmt' hpre hrun ff hcall
    exact (hcovered pre call stmt' hpre hrun ff hcall).executesSafely (hfrom.run hrun) d
  · intro ff hprintable hsafe pre call stmt' hpre hrun ff' hcall
    exact (hsafe pre call stmt' hpre hrun ff' hcall).covered (hfrom.run hrun)
      (hprintable pre call stmt' hpre hrun ff' hcall)

/-- Both placeholders are bound before the execution. -/
theorem executes_safely_pair :
    Guarded DbStmt.next (WhenExecuted (ExecutesSafely .drizzle pairQuery))
      (emulatedPrepare pairQuery)
      [.bindParam true (fun _ => []) [flaggedInt, flaggedInt], .execute plainFormat] := by
  refine (executes_safely .drizzle .emulated _).1 ?_
  have hbound : Guarded DbStmt.next (WhenExecuted (Covered pairQuery)) (emulatedPrepare pairQuery)
      [.bindParam true (fun _ => []) [flaggedInt, flaggedInt]] :=
    (guarded_snoc_iff rfl).mpr ⟨guarded_nil, fun _ hcall => nomatch hcall⟩
  exact (guarded_snoc_iff rfl).mpr ⟨hbound, fun _ _ => ⟨by decide, by decide⟩⟩

def markQuery : CString := ⟨[mark], by decide⟩

/-- A statement that is executed without having been bound, and one without a text. -/
theorem execute_unsafe :
    (emulatedPrepare markQuery).Faults (fun _ => some fun _ => 0) plainFormat .nullParam ∧
      (emulatedPrepare .empty).Faults (fun _ => some fun _ => 0) plainFormat .nullBuffer ∧
      ¬ Guarded DbStmt.next (WhenExecuted (ExecutesSafely .drizzle markQuery))
        (emulatedPrepare markQuery) [.execute plainFormat] := by
  have hfault : (emulatedPrepare markQuery).Faults (fun _ => some fun _ => 0) plainFormat
      .nullParam := ⟨0, start 0, rfl, rfl⟩
  refine ⟨hfault, ⟨0, start 0, rfl, rfl⟩, fun hsafe => ?_⟩
  exact (hsafe [] _ _ List.prefix_rfl rfl plainFormat rfl).inside _ _ _ hfault

end Sysbench.Database
