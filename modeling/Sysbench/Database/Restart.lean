import Sysbench.Database.BulkInsert

/-! # Restart of an event

`sb_lua_op_execute_request` runs the event function of a script. The function calls the driver
through the Lua API, and the driver may ask for the transaction to be started again.
-/
namespace Sysbench.Database

open CStrings Runs

def DbError.Asks : DbError → Prop
  | .restartTransaction | .reconnected => True
  | _ => False

def DbError.code : DbError → ℤ
  | .none => 0
  | .restartTransaction => 1
  | .reconnected => 2
  | .failed => 3

namespace Event

inductive LuaError where
  | number (v : ℤ)
  | message
  deriving DecidableEq

/-- The calls of the Lua API. The driver's answers to `store_results` and `execute` come with the
call. What the other functions do, such as `db_connect`, is not asked of the driver in this way:
they succeed or throw a message, and may leave another connection behind. -/
inductive LuaCall where
  | query (text : CString) (store : DbError)
  | execute (answer : DbError)
  | storeResults (answer : DbError)
  | bulkInsertNext (row : CString)
  | bulkInsertDone
  | other (fails : Bool) (con : DbConn)

/-- The answer to `db_store_results` is ignored. -/
def sbLuaDbQuery (con : DbConn) (text : CString) : Except LuaError Unit × DbConn :=
  match dbQuery con text with
  | (false, con) => (.error (.number con.dbErrno.code), con)
  | (true, con) => (.ok (), con)

/-- `db_execute` has no result set unless the driver's answer is a success. -/
def sbLuaDbExecute (con : DbConn) (answer : DbError) : Except LuaError Unit × DbConn :=
  let con := { con with dbErrno := answer.errno }
  if answer = .none then (.ok (), con) else (.error (.number con.dbErrno.code), con)

def sbLuaDbStoreResults (con : DbConn) : Except LuaError Unit × DbConn := (.ok (), con)

def sbLuaDbBulkInsertNext (con : DbConn) (row : CString) :
    Option (Except LuaError Unit × DbConn) :=
  (dbBulkInsertNext con row).map fun
    | (.ok (), con) => (.ok (), con)
    | (.error _, con) => (.error .message, con)

def sbLuaDbBulkInsertDone (con : DbConn) : Option (Except LuaError Unit × DbConn) :=
  (dbBulkInsertDone con).map fun con => (.ok (), con)

def LuaCall.perform (con : DbConn) : LuaCall → Option (Except LuaError Unit × DbConn)
  | .query text _ => some (sbLuaDbQuery con text)
  | .execute answer => some (sbLuaDbExecute con answer)
  | .storeResults _ => some (sbLuaDbStoreResults con)
  | .bulkInsertNext row => sbLuaDbBulkInsertNext con row
  | .bulkInsertDone => sbLuaDbBulkInsertDone con
  | .other fails con => some (if fails then .error .message else .ok (), con)

inductive Phase where
  | running
  | finished
  | fatal
  deriving DecidableEq

/-- The event function is in the given attempt, in which it has made `calls` calls. -/
structure EventState where
  con : DbConn
  phase : Phase
  attempt : ℕ
  calls : ℕ

/-- What the event function does next. It may throw an error of its own. -/
inductive Label where
  | call (c : LuaCall)
  | throw (e : LuaError)
  | ret

def EventState.caught (s : EventState) (con : DbConn) (e : LuaError) : EventState :=
  if e = .number DbError.restartTransaction.code then ⟨con, .running, s.attempt + 1, 0⟩
  else ⟨con, .fatal, s.attempt, s.calls⟩

def step (s : EventState) (l : Label) : Option EventState :=
  if s.phase = .running then
    match l with
    | .ret => some { s with phase := .finished }
    | .throw e => some (s.caught s.con e)
    | .call c =>
      (c.perform s.con).map fun
        | (.ok (), con) => { s with con := con, calls := s.calls + 1 }
        | (.error e, con) => s.caught con e
  else none

/-- The answers to the queries that were sent between the two states of a connection. -/
def answers (con con' : DbConn) : List DbError :=
  (con'.sent.drop con.sent.length).map Query.answer

def LuaCall.reports (con : DbConn) : LuaCall → List DbError
  | .query text store =>
    answers con (dbQuery con text).2 ++ if (dbQuery con text).1 then [store] else []
  | .execute answer => [answer]
  | .storeResults answer => [answer]
  | .bulkInsertNext row => ((dbBulkInsertNext con row).map fun r => answers con r.2).getD []
  | .bulkInsertDone => ((dbBulkInsertDone con).map fun r => answers con r).getD []
  | .other _ _ => []

def Requests (s : EventState) (l : Label) : Prop :=
  ∃ c, l = .call c ∧ ∃ report ∈ c.reports s.con, report.Asks

/-- The next thing that happens is the event from its beginning. -/
def Restarted (s t : EventState) : Prop :=
  t.phase = .running ∧ t.attempt = s.attempt + 1 ∧ t.calls = 0

/-- No request is dropped: each one leads to a restart at once. -/
def Obeys : EventState → List Label → Prop :=
  Guarded step fun s l => Requests s l → ∀ t, step s l = some t → Restarted s t

def PassesOn (con : DbConn) : LuaCall → Prop
  | .query text store => (dbQuery con text).1 = true → ¬store.Asks
  | .execute _ => True
  | c => ∀ report ∈ c.reports con, ¬report.Asks

def Answered (s : EventState) (l : Label) : Prop :=
  ∀ c, l = .call c → (step s l).isSome → PassesOn s.con c

/-! ## Calls -/

theorem step_call {s : EventState} (hphase : s.phase = .running) (c : LuaCall) :
    step s (.call c) = (c.perform s.con).map fun
      | (.ok (), con) => { s with con := con, calls := s.calls + 1 }
      | (.error e, con) => s.caught con e := if_pos hphase

theorem restarted_caught (s : EventState) (con : DbConn) :
    Restarted s (s.caught con (.number DbError.restartTransaction.code)) := ⟨rfl, rfl, rfl⟩

theorem not_restarted_continued (s : EventState) (con : DbConn) :
    ¬Restarted s { s with con := con, calls := s.calls + 1 } := by
  rintro ⟨-, -, hcalls⟩
  exact Nat.succ_ne_zero _ hcalls

theorem not_restarted_message (s : EventState) (con : DbConn) :
    ¬Restarted s (s.caught con .message) := by
  rintro ⟨hphase, -, -⟩
  cases hphase

theorem not_restarted {s t : EventState} {c : LuaCall} (hphase : s.phase = .running)
    (hc : ∀ e con, c.perform s.con = some (.error e, con) → e = .message)
    (ht : step s (.call c) = some t) : ¬Restarted s t := by
  rw [step_call hphase] at ht
  obtain ⟨⟨result, con⟩, hperform, rfl⟩ := Option.map_eq_some_iff.mp ht
  cases result with
  | ok => exact not_restarted_continued s con
  | error e =>
    obtain rfl := hc e con hperform
    exact not_restarted_message s con

theorem bulkInsertNext_message {con con' : DbConn} {row : CString} {e : LuaError}
    (h : sbLuaDbBulkInsertNext con row = some (.error e, con')) : e = .message := by
  obtain ⟨⟨result, con''⟩, -, hresult⟩ := Option.map_eq_some_iff.mp h
  cases result with
  | ok => cases hresult
  | error e' =>
    cases hresult
    rfl

theorem bulkInsertDone_ok {con con' : DbConn} {e : LuaError} :
    sbLuaDbBulkInsertDone con ≠ some (.error e, con') := by
  intro h
  obtain ⟨con'', -, hresult⟩ := Option.map_eq_some_iff.mp h
  cases hresult

theorem errno_of_asks {answer : DbError} (h : answer.Asks) :
    answer ≠ .none ∧ answer.errno = .restartTransaction := by
  cases answer with
  | none => exact h.elim
  | restartTransaction => exact ⟨nofun, rfl⟩
  | reconnected => exact ⟨nofun, rfl⟩
  | failed => exact h.elim

theorem execute_restarts {s t : EventState} {answer : DbError} (hphase : s.phase = .running)
    (hask : answer.Asks) (ht : step s (.call (.execute answer)) = some t) : Restarted s t := by
  obtain ⟨hne, herrno⟩ := errno_of_asks hask
  rw [step_call hphase, LuaCall.perform, sbLuaDbExecute, if_neg hne] at ht
  obtain rfl := Option.some.inj ht
  simp only [herrno]
  exact restarted_caught s _

/-- A query sends its text once, and fails unless the answer is a success. -/
theorem dbQuery_answers (con : DbConn) (text : CString) :
    answers con (dbQuery con text).2 = [] ∨
      ∃ answer, answers con (dbQuery con text).2 = [answer] ∧
        (dbQuery con text).1 = decide (answer = .none) ∧
        (answer ≠ .none → (dbQuery con text).2.dbErrno = answer.errno) := by
  unfold dbQuery answers
  split
  · exact Or.inl (by simp)
  · next driver _ =>
    refine Or.inr ⟨driver.query con.sent text, ?_⟩
    cases driver.query con.sent text <;> simp [DbError.errno]

theorem query_restarts {s t : EventState} {text : CString} {store : DbError}
    (hphase : s.phase = .running)
    (hask : ∃ report ∈ answers s.con (dbQuery s.con text).2, report.Asks)
    (ht : step s (.call (.query text store)) = some t) : Restarted s t := by
  obtain ⟨report, hmem, hasks⟩ := hask
  rcases dbQuery_answers s.con text with hnil | ⟨answer, hone, hok, herrno⟩
  · rw [hnil] at hmem
    cases hmem
  · rw [hone] at hmem
    obtain rfl := List.mem_singleton.mp hmem
    obtain ⟨hne, hcode⟩ := errno_of_asks hasks
    have herrno := (herrno hne).trans hcode
    rw [decide_eq_false hne] at hok
    rw [step_call hphase, LuaCall.perform, sbLuaDbQuery] at ht
    rcases hquery : dbQuery s.con text with ⟨done, con⟩
    rw [hquery] at ht hok herrno
    subst hok
    dsimp only at ht herrno
    rw [herrno] at ht
    obtain rfl := Option.some.inj ht
    exact restarted_caught s con

theorem query_continues {s t : EventState} {text : CString} {store : DbError}
    (hphase : s.phase = .running) (hok : (dbQuery s.con text).1 = true)
    (ht : step s (.call (.query text store)) = some t) : ¬Restarted s t := by
  rw [step_call hphase, LuaCall.perform, sbLuaDbQuery] at ht
  rcases hquery : dbQuery s.con text with ⟨done, con⟩
  rw [hquery] at ht hok
  dsimp only at hok
  subst hok
  obtain rfl := Option.some.inj ht
  exact not_restarted_continued s con

/-! ## Steps -/

theorem requests_call_iff {s : EventState} {c : LuaCall} :
    Requests s (.call c) ↔ ∃ report ∈ c.reports s.con, report.Asks := by
  constructor
  · rintro ⟨c', hc, hask⟩
    obtain rfl := Label.call.inj hc
    exact hask
  · exact fun hask => ⟨c, rfl, hask⟩

/-- A call that cannot restart must not be asked to. -/
theorem obeys_iff_of_not_restarted {s : EventState} {c : LuaCall}
    (hnot : ∀ t, step s (.call c) = some t → ¬Restarted s t) :
    (Requests s (.call c) → ∀ t, step s (.call c) = some t → Restarted s t) ↔
      ((step s (.call c)).isSome → ∀ report ∈ c.reports s.con, ¬report.Asks) := by
  rw [requests_call_iff]
  constructor
  · intro h hsome report hmem hasks
    obtain ⟨t, ht⟩ := Option.isSome_iff_exists.mp hsome
    exact hnot t ht (h ⟨report, hmem, hasks⟩ t ht)
  · rintro h ⟨report, hmem, hasks⟩ t ht
    exact absurd hasks (h (Option.isSome_iff_exists.mpr ⟨t, ht⟩) report hmem)

theorem answered_call_iff {s : EventState} {c : LuaCall} :
    Answered s (.call c) ↔ ((step s (.call c)).isSome → PassesOn s.con c) := by
  constructor
  · exact fun h => h c rfl
  · intro h c' hc
    obtain rfl := Label.call.inj hc
    exact h

/-- A step obeys the driver if and only if the call passes on what is asked. -/
theorem obeys_step_iff (s : EventState) (l : Label) :
    (Requests s l → ∀ t, step s l = some t → Restarted s t) ↔ Answered s l := by
  cases l with
  | ret => exact iff_of_true (fun ⟨_, h, _⟩ => nomatch h) nofun
  | throw e => exact iff_of_true (fun ⟨_, h, _⟩ => nomatch h) nofun
  | call c =>
    rw [answered_call_iff]
    by_cases hphase : s.phase = .running
    · cases c with
      | query text store =>
        rw [requests_call_iff]
        constructor
        · intro h hsome hok hasks
          obtain ⟨t, ht⟩ := Option.isSome_iff_exists.mp hsome
          refine query_continues hphase hok ht (h ⟨store, ?_, hasks⟩ t ht)
          rw [LuaCall.reports, if_pos hok]
          exact List.mem_append_right _ (List.mem_singleton_self store)
        · rintro h ⟨report, hmem, hasks⟩ t ht
          rcases List.mem_append.mp hmem with hanswer | hstore
          · exact query_restarts hphase ⟨report, hanswer, hasks⟩ ht
          · split at hstore
            · next hok =>
              obtain rfl := List.mem_singleton.mp hstore
              exact absurd hasks (h (Option.isSome_iff_exists.mpr ⟨t, ht⟩) hok)
            · cases hstore
      | execute answer =>
        rw [requests_call_iff]
        refine iff_of_true ?_ (fun _ => trivial)
        rintro ⟨report, hmem, hasks⟩ t ht
        obtain rfl := List.mem_singleton.mp hmem
        exact execute_restarts hphase hasks ht
      | storeResults answer =>
        refine obeys_iff_of_not_restarted fun t ht => not_restarted hphase ?_ ht
        intro e con h
        cases h
      | bulkInsertNext row =>
        refine obeys_iff_of_not_restarted fun t ht => not_restarted hphase ?_ ht
        intro e con h
        have hnext : sbLuaDbBulkInsertNext s.con row = some (.error e, con) := h
        exact bulkInsertNext_message hnext
      | bulkInsertDone =>
        refine obeys_iff_of_not_restarted fun t ht => not_restarted hphase ?_ ht
        exact fun e con h => absurd h bulkInsertDone_ok
      | other fails con =>
        refine obeys_iff_of_not_restarted fun t ht => not_restarted hphase ?_ ht
        intro e con' h
        cases fails with
        | false => cases h
        | true =>
          cases h
          rfl
    · have hnone : step s (.call c) = none := if_neg hphase
      rw [hnone]
      exact iff_of_true (fun _ _ h => nomatch h) (fun h => nomatch h)

/-- Every request of the driver restarts the event, in exactly those runs in which requests are
only made where they are passed on. -/
theorem obeys_iff (s : EventState) (es : List Label) :
    Obeys s es ↔ Guarded step Answered s es :=
  forall₃_congr fun _ l t => forall₂_congr fun _ _ => obeys_step_iff t l

def lastRow : EventState where
  con := ⟨some ⟨none, fun _ _ => .restartTransaction⟩, .none, true, 1, some [65, 0], 2, 1, 0, 0, 0, []⟩
  phase := .running
  attempt := 0
  calls := 3

/-- The event goes on after the flush of the last row as if it had been inserted. -/
theorem obeys_lastRow : ¬Obeys lastRow [.call .bulkInsertDone] := by
  intro h
  have hrequest : Requests lastRow (.call .bulkInsertDone) :=
    requests_call_iff.mpr ⟨.restartTransaction, List.mem_singleton_self _, trivial⟩
  have hrestarted := h [] _ _ List.prefix_rfl rfl hrequest _ rfl
  exact not_restarted_continued _ _ hrestarted

end Event

end Sysbench.Database
