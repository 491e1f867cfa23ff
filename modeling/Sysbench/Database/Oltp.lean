import Sysbench.Database.Restart
import Sysbench.Machine.Transactions
import Sysbench.Options.Getters

/-! # The OLTP workload

The event of `oltp.lua` deletes a row and inserts it again. The MySQL driver compares an error
of the server with `--mysql-ignore-errors`, and an ignored error starts the event again, with
other random numbers. The server may fail any statement for any reason.
-/
namespace Sysbench.Database.Oltp

open CStrings Words Runs Transactions Session

abbrev Tables := ℕ → ℤ → ℕ

inductive RangeKind
  | simple
  | sum
  | order
  | distinct
deriving DecidableEq

/-- The global variables after `set_vars`. -/
structure Vars where
  tableSize : ℕ
  rangeSize : ℤ
  tablesCount : ℕ
  pointSelects : ℕ
  ranges : RangeKind → ℕ
  indexUpdates : ℕ
  nonIndexUpdates : ℕ
  readOnly : Bool
  skipTrx : Bool

/-- What `sb_rand_uniform` and `sb_rand` return during one call of the event function. -/
structure Draws where
  table : ℕ
  pointSelect : ℕ → ℤ
  rangeStart : RangeKind → ℕ → ℤ
  indexUpdate : ℕ → ℤ
  nonIndexUpdate : ℕ → ℤ
  row : ℤ
  k : ℤ

inductive Statement
  | begin
  | pointSelect (table : ℕ) (id : ℤ)
  | rangeSelect (kind : RangeKind) (table : ℕ) (low high : ℤ)
  | indexUpdate (table : ℕ) (id : ℤ)
  | nonIndexUpdate (table : ℕ) (id : ℤ)
  | delete (table : ℕ) (id : ℤ)
  | insert (table : ℕ) (id k : ℤ)
  | commit
deriving DecidableEq

def Vars.selects (vars : Vars) (d : Draws) : List Statement :=
  (List.range vars.pointSelects).map (fun i => Statement.pointSelect d.table (d.pointSelect i)) ++
    [RangeKind.simple, .sum, .order, .distinct].flatMap fun kind =>
      (List.range (vars.ranges kind)).map fun i =>
        Statement.rangeSelect kind d.table (d.rangeStart kind i)
          (d.rangeStart kind i + (vars.rangeSize - 1))

def Vars.updates (vars : Vars) (d : Draws) : List Statement :=
  (List.range vars.indexUpdates).map (fun i => Statement.indexUpdate d.table (d.indexUpdate i)) ++
    (List.range vars.nonIndexUpdates).map fun i =>
      Statement.nonIndexUpdate d.table (d.nonIndexUpdate i)

/-- The queries of `event` for a transactional engine. -/
def Vars.event (vars : Vars) (d : Draws) : List Statement :=
  let bracket (q : Statement) : List Statement := if vars.skipTrx then [] else [q]
  let writes : List Statement :=
    if vars.readOnly then []
    else vars.updates d ++ [.delete d.table d.row, .insert d.table d.row d.k]
  bracket .begin ++ vars.selects d ++ writes ++ bracket .commit

/-! ## The server -/

def deleteRow (table : ℕ) (id : ℤ) (tables : Tables) : Tables := fun t i =>
  if t = table ∧ i = id then 0 else tables t i

def insertRow (table : ℕ) (id : ℤ) (tables : Tables) : Tables := fun t i =>
  if t = table ∧ i = id then tables t i + 1 else tables t i

/-- A statement that succeeds. An `id` that the unsigned, generated column does not take as it is
gives the row the id that the server chooses. -/
def Statement.perform (q : Statement) (chosen : ℤ) (s : Session Tables) : Session Tables :=
  match q with
  | .begin => s.begin
  | .delete table id => s.change (deleteRow table id)
  | .insert table id _ => s.change (insertRow table (if 0 < id then id else chosen))
  | .commit => s.commit
  | _ => s

/-- `mysql_field_count` is not zero. -/
def Statement.hasResult : Statement → Bool
  | .pointSelect _ _ | .rangeSelect _ _ _ _ => true
  | _ => false

/-- `mysql_errno`, whether the server has undone the whole transaction, and whether a new
connection can be made. -/
structure Failure where
  code : ℕ
  whole : Bool
  reconnects : Bool

/-- The result set of a successful statement may still get lost. -/
inductive Reply
  | ok (chosen : ℤ) (store : Option Failure)
  | error (f : Failure)

/-! ## The driver -/

def atoi (val : CString) : ℤ := toInt 32 (Options.strtol val.chars).1

def allText : CString := ⟨"all".toList.map charByte, by decide⟩

def ignores (ignoredErrors : List CString) (error : ℕ) : Prop :=
  ∃ val ∈ ignoredErrors, error = toUInt 32 (atoi val) ∨ val = allText

instance (ignoredErrors : List CString) : DecidablePred (ignores ignoredErrors) := fun _ => by
  unfold ignores
  infer_instance

/-- `CR_SERVER_LOST`, `CR_SERVER_GONE_ERROR`, `CR_TCP_CONNECTION`, `CR_SERVER_LOST_EXTENDED`. -/
def lostConnection : List ℕ := [2013, 2006, 2011, 2055]

/-- The server rolls back when the old connection is closed. -/
def mysqlDrvReconnect (reconnects : Bool) (s : Session Tables) : DbError × Session Tables :=
  (if reconnects then .reconnected else .failed, s.rollback)

def checkError (ignoredErrors : List CString) (f : Failure) (s : Session Tables) :
    DbError × Session Tables :=
  if ignores ignoredErrors f.code then
    if f.code ∈ lostConnection then mysqlDrvReconnect f.reconnects s
    else (.restartTransaction, s)
  else (.failed, s)

def mysqlDrvQuery (ignoredErrors : List CString) (q : Statement) (s : Session Tables) :
    Reply → DbError × Session Tables
  | .ok chosen _ => (.none, q.perform chosen s)
  | .error f => checkError ignoredErrors f (s.fail f.whole)

def mysqlDrvStoreResults (ignoredErrors : List CString) (q : Statement) (s : Session Tables) :
    Reply → DbError × Session Tables
  | .ok _ (some f) =>
    if q.hasResult then checkError ignoredErrors f (s.fail f.whole) else (.none, s)
  | _ => (.none, s)

def luaResult (answer : DbError) : Except Event.LuaError Unit :=
  if answer = .none then .ok () else .error (.number answer.errno.code)

/-- The answer to `db_store_results` is ignored. -/
def sbLuaDbQuery (ignoredErrors : List CString) (q : Statement) (s : Session Tables) (r : Reply) :
    Except Event.LuaError Unit × Session Tables :=
  let (answer, s) := mysqlDrvQuery ignoredErrors q s r
  (luaResult answer,
    if answer = .none then (mysqlDrvStoreResults ignoredErrors q s r).2 else s)

/-! ## Runs of events -/

inductive Phase
  | idle
  | restarting
  | running (rest : List Statement)
  | fatal

structure OltpState where
  session : Session Tables
  phase : Phase

inductive Label
  | attempt (d : Draws)
  | reply (r : Reply)

def Phase.before : List Statement → Phase
  | [] => .idle
  | q :: rest => .running (q :: rest)

def Phase.caught (e : Event.LuaError) : Phase :=
  if e = .number DbError.restartTransaction.code then .restarting else .fatal

def replied (ignoredErrors : List CString) (s : Session Tables) (q : Statement)
    (rest : List Statement) (r : Reply) : OltpState :=
  match sbLuaDbQuery ignoredErrors q s r with
  | (.ok (), s) => ⟨s, .before rest⟩
  | (.error e, s) => ⟨s, .caught e⟩

def step (vars : Vars) (ignoredErrors : List CString) (s : OltpState) : Label → Option OltpState
  | .attempt d =>
    match s.phase with
    | .idle | .restarting => some ⟨s.session, .before (vars.event d)⟩
    | _ => none
  | .reply r =>
    match s.phase with
    | .running (q :: rest) => some (replied ignoredErrors s.session q rest r)
    | _ => none

def start (tables : Tables) : OltpState := ⟨⟨tables, none⟩, .idle⟩

def Vars.HasId (vars : Vars) (id : ℤ) : Prop := 1 ≤ id ∧ id ≤ vars.tableSize

instance (vars : Vars) : DecidablePred vars.HasId := fun _ => by
  unfold Vars.HasId
  infer_instance

/-- Every table holds exactly the ids from one to the table size. -/
def Vars.Complete (vars : Vars) (tables : Tables) : Prop :=
  ∀ t, 1 ≤ t → t ≤ vars.tablesCount → ∀ i, tables t i = if vars.HasId i then 1 else 0

/-- The row is inserted again only under an id of the table, and an ignored error of its insertion
undoes the deletion too. -/
def RowReturns (vars : Vars) (ignoredErrors : List CString) (s : OltpState) : Label → Prop
  | .attempt _ => True
  | .reply r => ∀ table id k rest, s.phase = .running (.insert table id k :: rest) →
    match r with
    | .ok _ _ => vars.HasId id
    | .error f => ignores ignoredErrors f.code → vars.HasId id →
      s.session.pending ≠ none ∧ (f.whole = true ∨ f.code ∈ lostConnection)

/-! ## Rows -/

/-- One row is missing, if it is one of the table. -/
def Vars.Lacks (vars : Vars) (table : ℕ) (id : ℤ) (tables : Tables) : Prop :=
  ∀ t, 1 ≤ t → t ≤ vars.tablesCount → ∀ i,
    tables t i = if vars.HasId i ∧ ¬(t = table ∧ i = id) then 1 else 0

section Rows

variable {vars : Vars} {tables : Tables} {table : ℕ} {id : ℤ}

theorem Vars.Complete.deleteRow (h : vars.Complete tables) :
    vars.Lacks table id (deleteRow table id tables) := by
  intro t hpos hcount i
  unfold Oltp.deleteRow
  by_cases hrow : t = table ∧ i = id
  · rw [if_pos hrow, if_neg fun hhas => hhas.2 hrow]
  · rw [if_neg hrow, h t hpos hcount i]
    simp only [hrow, not_false_eq_true, and_true]

theorem Vars.Lacks.insertRow (h : vars.Lacks table id tables) (hid : vars.HasId id) :
    vars.Complete (insertRow table id tables) := by
  intro t hpos hcount i
  unfold Oltp.insertRow
  rw [h t hpos hcount i]
  by_cases hrow : t = table ∧ i = id
  · obtain ⟨rfl, rfl⟩ := hrow
    simp [hid]
  · simp only [hrow, not_false_eq_true, and_true, if_false]

theorem Vars.Lacks.complete (h : vars.Lacks table id tables) (hid : ¬vars.HasId id) :
    vars.Complete tables := by
  intro t hpos hcount i
  rw [h t hpos hcount i]
  by_cases hi : vars.HasId i
  · have hne : ¬(t = table ∧ i = id) := by
      rintro ⟨-, rfl⟩
      exact hid hi
    simp only [hi, hne, not_false_eq_true, and_self]
  · simp only [hi, false_and]

end Rows

/-! ## The queries of one attempt -/

/-- The statement leaves the ids of all tables as they are. -/
def Statement.Plain : Statement → Prop
  | .delete _ _ | .insert _ _ _ => False
  | _ => True

/-- A deletion is followed by the insertion of the same row. -/
inductive Paired : List Statement → Prop
  | nil : Paired []
  | plain {q : Statement} {rest : List Statement} :
      q.Plain → Paired rest → Paired (q :: rest)
  | row {table : ℕ} {id k : ℤ} {rest : List Statement} :
      Paired rest → Paired (.delete table id :: .insert table id k :: rest)

theorem Paired.append {qs rest : List Statement} (hqs : Paired qs) (hrest : Paired rest) :
    Paired (qs ++ rest) := by
  induction hqs with
  | nil => exact hrest
  | plain hq _ ih => exact .plain hq ih
  | row _ ih => exact .row ih

theorem paired_of_plain {qs : List Statement} (h : ∀ q ∈ qs, q.Plain) : Paired qs := by
  induction qs with
  | nil => exact .nil
  | cons q qs ih =>
    exact .plain (h q List.mem_cons_self) (ih fun p hp => h p (List.mem_cons_of_mem q hp))

theorem paired_map {f : ℕ → Statement} (hf : ∀ i, (f i).Plain) (n : ℕ) :
    Paired ((List.range n).map f) := by
  refine paired_of_plain fun q hq => ?_
  obtain ⟨i, -, rfl⟩ := List.mem_map.mp hq
  exact hf i

theorem paired_selects (vars : Vars) (d : Draws) : Paired (vars.selects d) := by
  refine Paired.append (paired_map ?_ _) (paired_of_plain fun q hq => ?_)
  · exact fun _ => trivial
  · obtain ⟨kind, -, hq⟩ := List.mem_flatMap.mp hq
    obtain ⟨i, -, rfl⟩ := List.mem_map.mp hq
    trivial

theorem paired_updates (vars : Vars) (d : Draws) : Paired (vars.updates d) := by
  refine Paired.append (paired_map ?_ _) (paired_map ?_ _)
  · exact fun _ => trivial
  · exact fun _ => trivial

theorem paired_event (vars : Vars) (d : Draws) : Paired (vars.event d) := by
  have hbracket : ∀ q : Statement, q.Plain → Paired (if vars.skipTrx then [] else [q]) := by
    intro q hq
    split
    · exact .nil
    · exact .plain hq .nil
  have hbegin := (hbracket .begin trivial).append (paired_selects vars d)
  refine (hbegin.append ?_).append (hbracket .commit trivial)
  split
  · exact .nil
  · exact (paired_updates vars d).append (.row .nil)

/-! ## Replies -/

section Replies

variable {vars : Vars} {ignoredErrors : List CString} {s : Session Tables}

/-- An ignored error restarts the event, on a new connection if the old one was lost. -/
theorem checkError_cases (ignoredErrors : List CString) (f : Failure) (s : Session Tables) :
    (checkError ignoredErrors f s).1 = .failed ∨
      ignores ignoredErrors f.code ∧
        (f.code ∈ lostConnection ∧
            checkError ignoredErrors f s = (.reconnected, s.rollback) ∨
          f.code ∉ lostConnection ∧
            checkError ignoredErrors f s = (.restartTransaction, s)) := by
  unfold checkError mysqlDrvReconnect
  by_cases hignored : ignores ignoredErrors f.code
  · by_cases hlost : f.code ∈ lostConnection
    · rw [if_pos hignored, if_pos hlost]
      cases f.reconnects with
      | false => exact Or.inl rfl
      | true => exact Or.inr ⟨hignored, Or.inl ⟨hlost, rfl⟩⟩
    · rw [if_pos hignored, if_neg hlost]
      exact Or.inr ⟨hignored, Or.inr ⟨hlost, rfl⟩⟩
  · rw [if_neg hignored]
    exact Or.inl rfl

theorem keeps_checkError {P : Tables → Prop} (h : Keeps P s) (f : Failure) :
    Keeps P (checkError ignoredErrors f s).2 := by
  unfold checkError mysqlDrvReconnect
  split
  · split
    · exact h.rollback
    · exact h
  · exact h

theorem keeps_storeResults {P : Tables → Prop} (h : Keeps P s) (q : Statement) (r : Reply) :
    Keeps P (mysqlDrvStoreResults ignoredErrors q s r).2 := by
  unfold mysqlDrvStoreResults
  split
  · split
    · exact keeps_checkError (h.fail _) _
    · exact h
  · exact h

theorem keeps_perform {P : Tables → Prop} (h : Keeps P s) {q : Statement} (hq : q.Plain)
    (chosen : ℤ) : Keeps P (q.perform chosen s) := by
  cases q with
  | begin => exact h.begin
  | pointSelect => exact h
  | rangeSelect => exact h
  | indexUpdate => exact h
  | nonIndexUpdate => exact h
  | delete => exact hq.elim
  | insert => exact hq.elim
  | commit => exact h.commit

theorem sbLuaDbQuery_error (ignoredErrors : List CString) (q : Statement) (s : Session Tables)
    (f : Failure) : sbLuaDbQuery ignoredErrors q s (.error f) =
      (luaResult (checkError ignoredErrors f (s.fail f.whole)).1,
        (checkError ignoredErrors f (s.fail f.whole)).2) :=
  Prod.ext rfl (ite_self _)

/-- An error of a statement ends the run of the test, or it is ignored. -/
theorem replied_error_cases (ignoredErrors : List CString) (s : Session Tables) (q : Statement)
    (rest : List Statement) (f : Failure) :
    (replied ignoredErrors s q rest (.error f)).phase = .fatal ∨
      ignores ignoredErrors f.code ∧
        (f.code ∈ lostConnection ∧
            replied ignoredErrors s q rest (.error f) = ⟨s.rollback, .restarting⟩ ∨
          f.code ∉ lostConnection ∧
            replied ignoredErrors s q rest (.error f) = ⟨s.fail f.whole, .restarting⟩) := by
  unfold replied
  rw [sbLuaDbQuery_error]
  rcases checkError_cases ignoredErrors f (s.fail f.whole) with
    hfailed | ⟨hignored, ⟨hlost, hcheck⟩ | ⟨hlost, hcheck⟩⟩
  · rw [hfailed]
    exact Or.inl rfl
  · rw [hcheck, rollback_fail]
    exact Or.inr ⟨hignored, Or.inl ⟨hlost, rfl⟩⟩
  · rw [hcheck]
    exact Or.inr ⟨hignored, Or.inr ⟨hlost, rfl⟩⟩

end Replies

/-! ## Steps -/

/-- Between the two statements of a row the row is missing, and otherwise the tables are
complete, whether the open transaction is committed or rolled back. -/
inductive Sound (vars : Vars) : OltpState → Prop
  | idle {s : Session Tables} : Keeps vars.Complete s → Sound vars ⟨s, .idle⟩
  | restarting {s : Session Tables} : Keeps vars.Complete s → Sound vars ⟨s, .restarting⟩
  | running {s : Session Tables} {rest : List Statement} :
      Keeps vars.Complete s → Paired rest → Sound vars ⟨s, .running rest⟩
  | deleted {s : Session Tables} {table : ℕ} {id k : ℤ} {rest : List Statement} :
      Departs vars.Complete (vars.Lacks table id) s → Paired rest →
        Sound vars ⟨s, .running (.insert table id k :: rest)⟩
  | fatal (s : Session Tables) : Sound vars ⟨s, .fatal⟩

section Steps

variable {vars : Vars} {ignoredErrors : List CString} {s : Session Tables}
  {rest : List Statement}

theorem sound_before (h : Keeps vars.Complete s) (hrest : Paired rest) :
    Sound vars ⟨s, .before rest⟩ := by
  cases rest with
  | nil => exact .idle h
  | cons q rest => exact .running h hrest

theorem sound_of_fatal {u : OltpState} (h : u.phase = .fatal) : Sound vars u := by
  obtain ⟨s, phase⟩ := u
  obtain rfl : phase = .fatal := h
  exact .fatal s

/-- A failing statement does no harm to complete tables. -/
theorem sound_replied_error (h : Keeps vars.Complete s) (q : Statement) (f : Failure) :
    Sound vars (replied ignoredErrors s q rest (.error f)) := by
  rcases replied_error_cases ignoredErrors s q rest f with
    hfatal | ⟨-, ⟨-, hreplied⟩ | ⟨-, hreplied⟩⟩
  · exact sound_of_fatal hfatal
  · rw [hreplied]
    exact .restarting h.rollback
  · rw [hreplied]
    exact .restarting (h.fail _)

theorem sound_plain (h : Keeps vars.Complete s) {q : Statement} (hq : q.Plain)
    (hrest : Paired rest) (r : Reply) : Sound vars (replied ignoredErrors s q rest r) := by
  cases r with
  | error f => exact sound_replied_error h q f
  | ok chosen store => exact sound_before (keeps_storeResults (keeps_perform h hq chosen) q _) hrest

theorem sound_delete (h : Keeps vars.Complete s) {table : ℕ} {id k : ℤ} (hrest : Paired rest)
    (r : Reply) :
    Sound vars (replied ignoredErrors s (.delete table id) (.insert table id k :: rest) r) := by
  cases r with
  | error f => exact sound_replied_error h _ f
  | ok chosen store =>
    have hreplied : replied ignoredErrors s (.delete table id) (.insert table id k :: rest)
        (.ok chosen store) =
          ⟨s.change (deleteRow table id), .running (.insert table id k :: rest)⟩ := by
      cases store <;> rfl
    rw [hreplied]
    exact .deleted (h.change fun _ htables => htables.deleteRow) hrest

theorem sound_insert {table : ℕ} {id k : ℤ}
    (h : Departs vars.Complete (vars.Lacks table id) s) (hrest : Paired rest) {r : Reply}
    (hsafe : RowReturns vars ignoredErrors ⟨s, .running (.insert table id k :: rest)⟩ (.reply r)) :
    Sound vars (replied ignoredErrors s (.insert table id k) rest r) := by
  have hsafe := hsafe table id k rest rfl
  cases r with
  | ok chosen store =>
    have hid : vars.HasId id := hsafe
    have hreplied : replied ignoredErrors s (.insert table id k) rest (.ok chosen store) =
        ⟨s.change (insertRow table (if 0 < id then id else chosen)), .before rest⟩ := by
      cases store <;> rfl
    rw [hreplied, if_pos (show 0 < id from hid.1)]
    exact sound_before (h.change fun _ htables => htables.insertRow hid) hrest
  | error f =>
    by_cases hid : vars.HasId id
    · rcases replied_error_cases ignoredErrors s (.insert table id k) rest f with
        hfatal | ⟨hignored, ⟨-, hreplied⟩ | ⟨hlost, hreplied⟩⟩
      · exact sound_of_fatal hfatal
      · rw [hreplied]
        exact .restarting (h.rollback (hsafe hignored hid).1)
      · obtain ⟨hopen, hwhole | hlost'⟩ := hsafe hignored hid
        · rw [hreplied, hwhole]
          exact .restarting (h.rollback hopen)
        · exact absurd hlost' hlost
    · exact sound_replied_error (h.imp fun _ htables => htables.complete hid) _ f

theorem sound_step {t u : OltpState} {l : Label} (ht : Sound vars t)
    (hsafe : RowReturns vars ignoredErrors t l) (hu : step vars ignoredErrors t l = some u) :
    Sound vars u := by
  cases l with
  | attempt d =>
    cases ht with
    | idle h =>
      obtain rfl := Option.some.inj hu
      exact sound_before h (paired_event vars d)
    | restarting h =>
      obtain rfl := Option.some.inj hu
      exact sound_before h (paired_event vars d)
    | running => cases hu
    | deleted => cases hu
    | fatal => cases hu
  | reply r =>
    cases ht with
    | idle => cases hu
    | restarting => cases hu
    | running h hrest =>
      cases hrest with
      | nil => cases hu
      | plain hq hrest =>
        obtain rfl := Option.some.inj hu
        exact sound_plain h hq hrest r
      | row hrest =>
        obtain rfl := Option.some.inj hu
        exact sound_delete h hrest r
    | deleted h hrest =>
      obtain rfl := Option.some.inj hu
      exact sound_insert h hrest hsafe
    | fatal => cases hu

/-- If the tables are complete before the run, they are complete again whenever an event has
ended, in every run in which the deleted row returns. -/
theorem oltp_tables_complete (vars : Vars) (ignoredErrors : List CString) {tables : Tables}
    (hcomplete : vars.Complete tables) {es : List Label} {t : OltpState}
    (hr : run (step vars ignoredErrors) (start tables) es = some t)
    (hreturns : Guarded (step vars ignoredErrors) (RowReturns vars ignoredErrors)
      (start tables) es)
    (hidle : t.phase = .idle) : vars.Complete t.session.committed := by
  have hsound : Sound vars t := by
    refine hreturns.invariant (I := fun _ t => Sound vars t) ?_ ?_ hr
    · exact .idle ⟨hcomplete, fun hopen => absurd rfl hopen⟩
    · exact fun _ _ _ _ _ ht hsafe hu => sound_step ht hsafe hu
  cases hsound with
  | idle h => exact Keeps.committed h
  | restarting => cases hidle
  | running => cases hidle
  | deleted => cases hidle
  | fatal => cases hidle

end Steps

/-! ## A lost row -/

def rowVars : Vars := ⟨3, 100, 1, 0, fun _ => 0, 0, 0, false, false⟩

def threeRows : Tables := fun _ i => if rowVars.HasId i then 1 else 0

def drawRow (row : ℤ) : Label :=
  .attempt ⟨1, fun _ => 1, fun _ _ => 1, fun _ => 1, fun _ => 1, row, 1⟩

def accepted : Label := .reply (.ok 0 none)

def lockErrors : List CString :=
  [⟨"1213".toList.map charByte, by decide⟩, ⟨"1205".toList.map charByte, by decide⟩]

/-- The insertion of the first attempt fails. -/
def failedInsertion (f : Failure) : List Label :=
  [drawRow 1, accepted, accepted, .reply (.error f), drawRow 2, accepted, accepted, accepted,
    accepted]

theorem threeRows_complete : rowVars.Complete threeRows := fun _ _ _ _ => rfl

/-- After a deadlock at the insertion the second attempt takes another row. -/
theorem oltp_tables_complete_deadlock :
    ∃ t, run (step rowVars lockErrors) (start threeRows) (failedInsertion ⟨1213, true, true⟩) =
        some t ∧
      t.phase = .idle ∧ rowVars.Complete t.session.committed := by
  have hrun : run (step rowVars lockErrors) (start threeRows)
      (failedInsertion ⟨1213, true, true⟩) = some _ := rfl
  refine ⟨_, hrun, rfl, oltp_tables_complete rowVars lockErrors threeRows_complete hrun ?_ rfl⟩
  have hplain : ∀ {s : OltpState} {l : Label},
      (∀ table id k rest, s.phase ≠ .running (.insert table id k :: rest)) →
        RowReturns rowVars lockErrors s l := by
    intro s l hne
    cases l with
    | attempt d => trivial
    | reply r => exact fun table id k rest h => absurd h (hne table id k rest)
  refine (guarded_cons_iff rfl).mpr ⟨hplain nofun, (guarded_cons_iff rfl).mpr ⟨hplain nofun, ?_⟩⟩
  refine (guarded_cons_iff rfl).mpr ⟨hplain nofun, (guarded_cons_iff rfl).mpr ⟨?_, ?_⟩⟩
  · exact fun _ _ _ _ _ _ _ => ⟨nofun, Or.inl rfl⟩
  refine (guarded_cons_iff rfl).mpr ⟨hplain nofun, (guarded_cons_iff rfl).mpr ⟨hplain nofun, ?_⟩⟩
  refine (guarded_cons_iff rfl).mpr ⟨hplain nofun, (guarded_cons_iff rfl).mpr ⟨?_, ?_⟩⟩
  · intro table id k rest h
    cases h
    exact ⟨by decide, by decide⟩
  exact (guarded_cons_iff rfl).mpr ⟨hplain nofun, guarded_nil⟩

/-- A lock wait timeout undoes only the insertion, and the BEGIN of the second attempt commits
the deletion. -/
theorem oltp_row_lost :
    rowVars.Complete threeRows ∧
      ∃ t, run (step rowVars lockErrors) (start threeRows)
          (failedInsertion ⟨1205, false, true⟩) = some t ∧
        t.phase = .idle ∧ ¬rowVars.Complete t.session.committed := by
  refine ⟨threeRows_complete, _, rfl, rfl, fun hcomplete => ?_⟩
  have hrow := hcomplete 1 le_rfl le_rfl 1
  exact absurd hrow (by decide)

end Sysbench.Database.Oltp
