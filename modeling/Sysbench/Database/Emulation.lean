import Sysbench.Database.Placeholders
import Sysbench.Database.Stats

/-! # Emulated statements

A driver without prepared statements of its own keeps the text of a statement. To execute it, it
replaces the placeholders and runs the result as a query.
-/
namespace Sysbench.Database

open Bytes CStrings Placeholders

/-- The drivers that emulate statements. MySQL has a mode in which nothing is sent. -/
inductive EmulatingDriver where
  | mysql (dryRun : Bool)
  | drizzle
  | pgsql
  | oracle
  deriving DecidableEq

def EmulatingDriver.dryRun : EmulatingDriver → Bool
  | .mysql dryRun => dryRun
  | _ => false

/-- The operation `query` of the driver, where `server` tells how each text would be answered. -/
def EmulatingDriver.driver (d : EmulatingDriver) (server : List Query → CString → DbError) :
    DbDriver where
  describe := none
  query log text := if d.dryRun then .none else server log text

structure EmulatedStmt where
  query : CString
  boundParam : List DbBind

/-- `db_prepare` takes the type from the text with its placeholders. -/
def EmulatedStmt.type (stmt : EmulatedStmt) : DbQueryType := dbGetQueryType stmt.query

/-- The loop of the drivers, followed for a number of steps. -/
def EmulatedStmt.build (stmt : EmulatedStmt) (heap : Heap) (ff : FloatFormat) (fuel : ℕ) :
    Outcome :=
  run heap (executePrint ff stmt.boundParam) stmt.query fuel (.more (start 0))

/-- The text is run as a query and its answer becomes the `db_errno` of the connection. A driver
returns what it makes of the answer. -/
def runText (report : DbError → DbError) (con : DbConn) (text : CString) :
    Option (DbError × DbConn) :=
  con.driver.map fun driver =>
    let answer := driver.query con.sent text
    (report answer, { con with sent := con.sent ++ [Query.mk text answer], dbErrno := answer })

/-- What follows the loop. Without memory the statement has failed. -/
def executeBuilt (report : DbError → DbError) (con : DbConn) : Outcome → Option (DbError × DbConn)
  | .failed => some (.failed, con)
  | .done buf _ => (readString buf).bind (runText report con)
  | _ => none

def mysqlDrvExecute (dryRun : Bool) (con : DbConn) (built : Outcome) : Option (DbError × DbConn) :=
  if dryRun then some (.none, con) else executeBuilt id con built

def drizzleDrvExecute (con : DbConn) (built : Outcome) : Option (DbError × DbConn) :=
  executeBuilt id con built

def pgsqlDrvExecute (con : DbConn) (built : Outcome) : Option (DbError × DbConn) :=
  executeBuilt id con built

/-- The answer of the query is stored but not returned. -/
def oraDrvExecute (con : DbConn) (built : Outcome) : Option (DbError × DbConn) :=
  executeBuilt (fun _ => .none) con built

def EmulatingDriver.execute : EmulatingDriver → DbConn → Outcome → Option (DbError × DbConn)
  | .mysql dryRun => mysqlDrvExecute dryRun
  | .drizzle => drizzleDrvExecute
  | .pgsql => pgsqlDrvExecute
  | .oracle => oraDrvExecute

/-- What a caller sees of `db_query` or `db_execute`: whether there is a result set, the
connection, and the counters. -/
structure CallResult (n : ℕ) where
  resultSet : Bool
  con : DbConn
  stats : ThreadStats n

variable {n : ℕ}

def executed (stmt : EmulatedStmt) (t : Fin n) (stats : ThreadStats n) (rc : DbError)
    (con : DbConn) : CallResult n :=
  let stats := dbExecuteStats t stmt.type rc stats
  match rc with
  | .none => ⟨true, { con with dbErrno := .none }, stats⟩
  | .reconnected => ⟨false, { con with dbErrno := .restartTransaction }, stats⟩
  | error => ⟨false, { con with dbErrno := error }, stats⟩

def dbExecute (d : EmulatingDriver) (stmt : EmulatedStmt) (t : Fin n) (con : DbConn)
    (stats : ThreadStats n) (built : Outcome) : Option (CallResult n) :=
  (d.execute con built).map fun (rc, con) => executed stmt t stats rc con

def dbQueryCall (d : EmulatingDriver) (server : List Query → CString → DbError) (t : Fin n)
    (con : DbConn) (stats : ThreadStats n) (text : CString) : CallResult n :=
  let result := dbQuery con text
  ⟨result.1, result.2, dbQueryStats t text ((d.driver server).query con.sent text) stats⟩

/-- The same result set or none, the same error and the same counters. Unless nothing is sent, the
server has been given the same texts. -/
structure SameResult (d : EmulatingDriver) (r r' : CallResult n) : Prop where
  resultSet : r.resultSet = r'.resultSet
  dbErrno : r.con.dbErrno = r'.con.dbErrno
  stats : r.stats = r'.stats
  sent : d.dryRun = false → r.con.sent = r'.con.sent

/-- The execution comes to an end and its result is that of the query. -/
def ExecutesAs (d : EmulatingDriver) (server : List Query → CString → DbError) (heap : Heap)
    (ff : FloatFormat) (stmt : EmulatedStmt) (t : Fin n) (con : DbConn) (stats : ThreadStats n)
    (text : CString) : Prop :=
  ∃ enough, ∀ fuel ≥ enough, ∃ r,
    dbExecute d stmt t con stats (stmt.build heap ff fuel) = some r ∧
      SameResult d r (dbQueryCall d server t con stats text)

def Builds (heap : Heap) (ff : FloatFormat) (stmt : EmulatedStmt) (text : CString) : Prop :=
  ∃ buf vcnt, Ends heap (executePrint ff stmt.boundParam) stmt.query (start 0) (.done buf vcnt) ∧
    readString buf = some text

/-! ## The end of the loop -/

theorem run_stable {heap : Heap} {print : Print} {query : CString} {s : Outcome} {fuel : ℕ}
    {o : Outcome} (h : run heap print query fuel s = o) (hlast : ∀ t, o ≠ .more t) :
    ∀ more ≥ fuel, run heap print query more s = o := by
  induction fuel generalizing s with
  | zero =>
    intro more _
    obtain rfl : s = o := h
    cases s with
    | more t => exact absurd rfl (hlast t)
    | failed => cases more <;> rfl
    | done buf vcnt => cases more <;> rfl
    | outside => cases more <;> rfl
  | succ fuel ih =>
    intro more hmore
    obtain ⟨more, rfl⟩ := Nat.exists_eq_add_of_le' (Nat.le_of_add_left_le hmore)
    cases s with
    | more t => exact ih h more (Nat.le_of_add_le_add_right hmore)
    | failed => exact h
    | done buf vcnt => exact h
    | outside => exact h

theorem Ends.unique {heap : Heap} {print : Print} {query : CString} {s : State} {o o' : Outcome}
    (h : Ends heap print query s o) (h' : Ends heap print query s o') : o = o' := by
  obtain ⟨enough, henough⟩ := h
  obtain ⟨enough', henough'⟩ := h'
  exact (henough _ (le_max_left enough enough')).symm.trans (henough' _ (le_max_right _ _))

/-- Non-empty queries with short texts are built as long as there is memory. -/
theorem builds_of_length {heap : Heap} {ff : FloatFormat} {stmt : EmulatedStmt}
    {texts : ℕ → CString} (hne : stmt.query.chars ≠ []) (hheap : ∀ size, heap size ≠ none)
    (htexts : ∀ k < placeholders stmt.query,
      ∃ var, stmt.boundParam[k]? = some var ∧ var.text ff = some (texts k))
    (hsize : (substituted texts 0 stmt.query).length < 2 ^ 30) :
    Builds heap ff stmt (substituted texts 0 stmt.query) := by
  have hprints : ∀ k < 0 + placeholders stmt.query, 0 ≤ k →
      Prints (executePrint ff stmt.boundParam) k (texts k) := by
    intro k hk _
    obtain ⟨var, hvar, htext⟩ := htexts k (by omega)
    exact prints_execute hvar htext
  have hrewrites : Rewrites heap (executePrint ff stmt.boundParam) 0 stmt.query
      (substituted texts 0 stmt.query) := rewrites hne hprints hsize
  obtain ⟨o, hends, ⟨-, size, hrefused⟩ | ⟨buf, rfl, hstarts⟩⟩ := hrewrites
  · exact absurd hrefused (hheap size)
  · exact ⟨buf, _, hends, readString_of_startsWith hstarts⟩

/-- An empty query has no buffer. -/
theorem not_builds_empty {heap : Heap} {ff : FloatFormat} {stmt : EmulatedStmt} {text : CString}
    (hempty : stmt.query.chars = []) : ¬Builds heap ff stmt text := by
  rintro ⟨buf, vcnt, hends, -⟩
  have houtside : Placeholders.step heap (executePrint ff stmt.boundParam) stmt.query (start 0) =
      .outside := by
    unfold Placeholders.step
    rw [hempty]
    rfl
  have hlast : Ends heap (executePrint ff stmt.boundParam) stmt.query (start 0) .outside :=
    Ends.last houtside (fun _ => by simp)
  cases Ends.unique hends hlast

/-! ## Counters -/

/-- Counters tell the types of queries apart. -/
theorem raise_counters_iff {stats : ThreadStats n} {t : Fin n} {a b : DbQueryType} :
    stats.raise t a.counters = stats.raise t b.counters ↔ a = b := by
  refine ⟨fun h => ?_, fun h => by rw [h]⟩
  have hmem : ∀ c, c ∈ a.counters ↔ c ∈ b.counters := by
    intro c
    have hc := congrFun (congrFun h t) c
    simp only [ThreadStats.raise, Function.update_self] at hc
    split at hc <;> split at hc <;> simp_all
  have hread := hmem .readOps
  have hwrite := hmem .writeOps
  have htrans := hmem .transactions
  cases a <;> cases b <;> first | rfl | simp [DbQueryType.counters] at hread hwrite htrans

theorem stats_eq_iff (stats : ThreadStats n) (t : Fin n) (stmt : EmulatedStmt) (text : CString)
    (answer : DbError) :
    dbExecuteStats t stmt.type answer stats = dbQueryStats t text answer stats ↔
      (answer = .none → dbGetQueryType stmt.query = dbGetQueryType text) := by
  unfold dbExecuteStats dbQueryStats
  cases answer with
  | none => exact raise_counters_iff.trans (by simp [EmulatedStmt.type])
  | restartTransaction => simp [DbError.counters]
  | reconnected => simp [DbError.counters]
  | failed => simp [DbError.counters]

/-! ## The two ways to run a text -/

variable {d : EmulatingDriver} {server : List Query → CString → DbError} {heap : Heap}
  {ff : FloatFormat} {stmt : EmulatedStmt} {t : Fin n} {con : DbConn} {stats : ThreadStats n}
  {text : CString}

/-- Oracle does not return the answer. -/
def EmulatingDriver.report : EmulatingDriver → DbError → DbError
  | .oracle => fun _ => .none
  | _ => id

theorem EmulatingDriver.execute_eq (d : EmulatingDriver) (con : DbConn) (built : Outcome) :
    d.execute con built =
      if d.dryRun then some (.none, con) else executeBuilt d.report con built := by
  cases d with
  | mysql dryRun => rfl
  | drizzle => rfl
  | pgsql => rfl
  | oracle => rfl

theorem dbQueryCall_dryRun (t : Fin n) (stats : ThreadStats n) (text : CString)
    (hcon : con.driver = some (d.driver server)) (hdry : d.dryRun = true) :
    (dbQueryCall d server t con stats text).resultSet = true ∧
      (dbQueryCall d server t con stats text).con.dbErrno = .none ∧
      (dbQueryCall d server t con stats text).stats = dbQueryStats t text .none stats := by
  have hanswer : (d.driver server).query con.sent text = .none := if_pos hdry
  unfold dbQueryCall dbQuery
  rw [hcon]
  simp only [hanswer, and_self]

/-- In a dry run only the counters can differ. -/
theorem executesAs_dryRun_iff (hcon : con.driver = some (d.driver server))
    (hdry : d.dryRun = true) :
    ExecutesAs d server heap ff stmt t con stats text ↔
      dbGetQueryType stmt.query = dbGetQueryType text := by
  have hexecute : ∀ built, dbExecute d stmt t con stats built =
      some ⟨true, { con with dbErrno := .none }, dbExecuteStats t stmt.type .none stats⟩ := by
    intro built
    rw [dbExecute, EmulatingDriver.execute_eq, if_pos hdry]
    rfl
  obtain ⟨hset, herrno, hstats⟩ := dbQueryCall_dryRun t stats text hcon hdry
  unfold ExecutesAs
  simp only [hexecute, Option.some.injEq, exists_eq_left']
  constructor
  · rintro ⟨enough, h⟩
    have hsame := (h enough le_rfl).stats
    rw [hstats] at hsame
    exact (stats_eq_iff stats t stmt text .none).mp hsame rfl
  · intro htype
    refine ⟨0, fun fuel _ => ⟨hset.symm, herrno.symm, ?_, ?_⟩⟩
    · rw [hstats]
      exact (stats_eq_iff stats t stmt text .none).mpr fun _ => htype
    · intro hfalse
      rw [hdry] at hfalse
      cases hfalse

/-- What an execution that has sent the text `sent` leaves behind. -/
def executedText (d : EmulatingDriver) (server : List Query → CString → DbError)
    (stmt : EmulatedStmt) (t : Fin n) (con : DbConn) (stats : ThreadStats n) (sent : CString) :
    CallResult n :=
  let answer := server con.sent sent
  executed stmt t stats (d.report answer)
    { con with sent := con.sent ++ [Query.mk sent answer], dbErrno := answer }

theorem dbExecute_done (hcon : con.driver = some (d.driver server)) (hdry : d.dryRun = false)
    (buf : List Byte) (vcnt : ℕ) :
    dbExecute d stmt t con stats (.done buf vcnt) =
      (readString buf).map (executedText d server stmt t con stats) := by
  have hanswer : ∀ log text, (d.driver server).query log text = server log text :=
    fun log text => if_neg (by simp [hdry])
  rw [dbExecute, EmulatingDriver.execute_eq, if_neg (by simp [hdry]), executeBuilt]
  cases readString buf with
  | none => rfl
  | some sent =>
    simp only [Option.bind_some, runText, hcon, Option.map_some, hanswer, executedText]

theorem executed_eq (rc : DbError) :
    executed stmt t stats rc con =
      ⟨decide (rc = .none), { con with dbErrno := rc.errno },
        dbExecuteStats t stmt.type rc stats⟩ := by
  cases rc <;> rfl

theorem dbQueryCall_eq (hcon : con.driver = some (d.driver server)) (hdry : d.dryRun = false) :
    dbQueryCall d server t con stats text =
      ⟨decide (server con.sent text = .none), { con with
          sent := con.sent ++ [Query.mk text (server con.sent text)]
          dbErrno := (server con.sent text).errno },
        dbQueryStats t text (server con.sent text) stats⟩ := by
  have hanswer : (d.driver server).query con.sent text = server con.sent text :=
    if_neg (by simp [hdry])
  unfold dbQueryCall dbQuery
  rw [hcon]
  simp only [hanswer]
  cases server con.sent text <;> rfl

/-- Once the same text has been sent, the answer decides. -/
theorem sameResult_iff (hcon : con.driver = some (d.driver server)) (hdry : d.dryRun = false) :
    SameResult d (executedText d server stmt t con stats text)
        (dbQueryCall d server t con stats text) ↔
      (d = .oracle → server con.sent text = .none) ∧
        (server con.sent text = .none → dbGetQueryType stmt.query = dbGetQueryType text) := by
  have hstats := stats_eq_iff stats t stmt text (server con.sent text)
  rw [executedText, executed_eq, dbQueryCall_eq hcon hdry]
  by_cases hora : d = .oracle
  · subst hora
    constructor
    · intro h
      have hnone : server con.sent text = .none := of_decide_eq_true h.resultSet.symm
      have hsame := h.stats
      rw [hnone] at hstats hsame
      exact ⟨fun _ => hnone, fun _ => hstats.mp hsame rfl⟩
    · rintro ⟨hnone, htype⟩
      have hnone := hnone rfl
      rw [hnone] at hstats htype ⊢
      exact ⟨rfl, rfl, hstats.mpr htype, fun _ => rfl⟩
  · have hreport : d.report (server con.sent text) = server con.sent text := by
      cases d with
      | oracle => exact absurd rfl hora
      | _ => rfl
    rw [hreport]
    constructor
    · exact fun h => ⟨fun h' => absurd h' hora, hstats.mp h.stats⟩
    · exact fun h => ⟨rfl, rfl, hstats.mpr h.2, fun _ => rfl⟩

/-- An execution that has the result of the query has built the text. -/
theorem ExecutesAs.builds (hcon : con.driver = some (d.driver server)) (hdry : d.dryRun = false)
    (h : ExecutesAs d server heap ff stmt t con stats text) :
    Builds heap ff stmt text ∧
      SameResult d (executedText d server stmt t con stats text)
        (dbQueryCall d server t con stats text) := by
  obtain ⟨enough, h⟩ := h
  obtain ⟨r, hr, hsame⟩ := h enough le_rfl
  have hsent := hsame.sent hdry
  rw [dbQueryCall_eq hcon hdry] at hsent
  cases hbuilt : stmt.build heap ff enough with
  | more s =>
    rw [hbuilt, dbExecute, EmulatingDriver.execute_eq, if_neg (by simp [hdry])] at hr
    cases hr
  | outside =>
    rw [hbuilt, dbExecute, EmulatingDriver.execute_eq, if_neg (by simp [hdry])] at hr
    cases hr
  | failed =>
    rw [hbuilt, dbExecute, EmulatingDriver.execute_eq, if_neg (by simp [hdry])] at hr
    obtain rfl := Option.some.inj hr
    simp [executed_eq] at hsent
  | done buf vcnt =>
    rw [hbuilt, dbExecute_done hcon hdry] at hr
    obtain ⟨sent, hread, rfl⟩ := Option.map_eq_some_iff.mp hr
    have htext : sent = text := by
      rw [executedText, executed_eq] at hsent
      exact congrArg Query.text (List.singleton_inj.mp (List.append_cancel_left hsent))
    subst htext
    exact ⟨⟨buf, vcnt, ⟨enough, run_stable hbuilt (fun _ => by simp)⟩, hread⟩, hsame⟩

theorem executesAs_iff (hcon : con.driver = some (d.driver server)) (hdry : d.dryRun = false) :
    ExecutesAs d server heap ff stmt t con stats text ↔
      Builds heap ff stmt text ∧
        SameResult d (executedText d server stmt t con stats text)
          (dbQueryCall d server t con stats text) := by
  refine ⟨fun h => h.builds hcon hdry, ?_⟩
  rintro ⟨⟨buf, vcnt, ⟨enough, hends⟩, hread⟩, hsame⟩
  refine ⟨enough, fun fuel hfuel => ⟨_, ?_, hsame⟩⟩
  have hbuilt : stmt.build heap ff fuel = .done buf vcnt := hends fuel hfuel
  rw [hbuilt, dbExecute_done hcon hdry, hread]
  rfl

/-- When the execution of an emulated statement has the result of its text as a query. The text
is built for every query that is not empty, within the memory and the sizes of the loop. -/
theorem executesAs_query_iff (d : EmulatingDriver) (server : List Query → CString → DbError)
    (heap : Heap) (ff : FloatFormat) (stmt : EmulatedStmt) (texts : ℕ → CString)
    (htexts : ∀ k < placeholders stmt.query,
      ∃ var, stmt.boundParam[k]? = some var ∧ var.text ff = some (texts k))
    (t : Fin n) (con : DbConn) (hcon : con.driver = some (d.driver server))
    (stats : ThreadStats n) :
    let text := substituted texts 0 stmt.query
    (ExecutesAs d server heap ff stmt t con stats text ↔
      if d.dryRun then dbGetQueryType stmt.query = dbGetQueryType text
      else Builds heap ff stmt text ∧ (d = .oracle → server con.sent text = .none) ∧
        (server con.sent text = .none → dbGetQueryType stmt.query = dbGetQueryType text)) ∧
    (stmt.query.chars = [] → ¬Builds heap ff stmt text) ∧
    (stmt.query.chars ≠ [] → (∀ size, heap size ≠ none) → text.length < 2 ^ 30 →
      Builds heap ff stmt text) := by
  refine ⟨?_, not_builds_empty, fun hne hheap hsize => builds_of_length hne hheap htexts hsize⟩
  cases hdry : d.dryRun with
  | true => exact executesAs_dryRun_iff hcon hdry
  | false =>
    rw [executesAs_iff hcon hdry, sameResult_iff hcon hdry]
    rfl

/-! ## Two statements -/

def newCon (driver : DbDriver) : DbConn :=
  ⟨some driver, .none, false, 0, none, 0, 0, 0, 0, 0, []⟩

def deleteText : CString := ⟨"delete".toList.map charByte, by decide⟩

def pairStmt : EmulatedStmt :=
  ⟨pairQuery, [⟨.int 7, none, 0, none⟩, ⟨.char [97, 0], none, 0, some 1⟩]⟩

/-- A deadlock is reported in the same way. -/
theorem executesAs_query_iff_deadlock :
    ExecutesAs .drizzle (fun _ _ => .restartTransaction) (fun _ => some fun _ => 0)
      ⟨fun _ => .empty, fun _ => .empty⟩ pairStmt (0 : Fin 1)
      (newCon (EmulatingDriver.drizzle.driver fun _ _ => .restartTransaction)) initStats
      (substituted (fun k => if k = 0 then decimal 7 else nullText) 0 pairQuery) := by
  obtain ⟨hiff, -, hbuilds⟩ := executesAs_query_iff .drizzle (fun _ _ => .restartTransaction)
    (fun _ => some fun _ => 0) ⟨fun _ => .empty, fun _ => .empty⟩ pairStmt
    (fun k => if k = 0 then decimal 7 else nullText)
    (fun k hk => by
      have hk : k < 2 := hk
      interval_cases k
      · exact ⟨_, rfl, rfl⟩
      · exact ⟨_, rfl, rfl⟩)
    (0 : Fin 1) (newCon (EmulatingDriver.drizzle.driver fun _ _ => .restartTransaction)) rfl
    initStats
  exact hiff.mpr ⟨hbuilds (by decide) (fun _ => by simp) (by decide), nofun, nofun⟩

/-- A failed query is a success when Oracle executes it. -/
theorem executesAs_oracle_failed :
    ¬ExecutesAs .oracle (fun _ _ => .failed) (fun _ => some fun _ => 0)
      ⟨fun _ => .empty, fun _ => .empty⟩ ⟨deleteText, []⟩ (0 : Fin 1)
      (newCon (EmulatingDriver.oracle.driver fun _ _ => .failed)) initStats
      (substituted (fun _ => .empty) 0 deleteText) := by
  intro h
  obtain ⟨-, hsame⟩ := h.builds rfl rfl
  exact absurd (((sameResult_iff rfl rfl).mp hsame).1 rfl) (by decide)

end Sysbench.Database
