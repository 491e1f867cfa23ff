import Sysbench.Database.Restart
import Sysbench.Database.Stats

/-! # Accesses to the statistics of the threads

The index into `thread_stats` is the thread of the connection, and the connection has it from the
Lua state that it was made in. Commands run in a state of their own, whose thread is -1.
-/
namespace Sysbench.Database

open CStrings Runs Event

/-- The interpreters: the one for commands, and one for each thread. -/
inductive LuaState (n : ℕ)
  | gstate
  | states (i : Fin n)

def LuaState.threadId {n : ℕ} : LuaState n → ℤ
  | .gstate => -1
  | .states i => (i : ℕ)

structure ThreadConn where
  con : DbConn
  threadId : ℤ

/-- The connection that `db_connect` returns, after `db_set_thread`. -/
def sbLuaDbConnect {n : ℕ} (L : LuaState n) (con : DbConn) : ThreadConn := ⟨con, L.threadId⟩

/-! ## Accesses -/

/-- The indices that `db_update_thread_stats` uses: for the mutex, the counters, and the mutex. -/
def updateAccesses (id : ℤ) (type : DbQueryType) : List ℤ :=
  if id < 0 then [] else [id] ++ type.counters.map (fun _ => id) ++ [id]

/-- The indices that `db_query` and `db_execute` use after the driver's answer. -/
def answerAccesses (id : ℤ) (type : DbQueryType) : DbError → List ℤ
  | .none => updateAccesses id type
  | .reconnected => [id]
  | .restartTransaction => [id]
  | .failed => []

def Event.LuaCall.queries (con : DbConn) : LuaCall → List Query
  | .query text _ => (dbQuery con text).2.sent.drop con.sent.length
  | .bulkInsertNext row =>
    ((dbBulkInsertNext con row).map fun r => r.2.sent.drop con.sent.length).getD []
  | .bulkInsertDone => ((dbBulkInsertDone con).map fun r => r.sent.drop con.sent.length).getD []
  | .execute _ | .storeResults _ | .other _ _ => []

def Event.LuaCall.executed : LuaCall → List DbError
  | .execute answer => [answer]
  | _ => []

/-- A call, with the type of the statement if it is an execution. -/
structure StatsCall where
  call : LuaCall
  stmtType : DbQueryType

def StatsCall.answers (con : DbConn) (c : StatsCall) : List DbError :=
  (c.call.queries con).map Query.answer ++ c.call.executed

def StatsCall.accesses (s : ThreadConn) (c : StatsCall) : List ℤ :=
  ((c.call.queries s.con).flatMap fun q =>
    answerAccesses s.threadId (dbGetQueryType q.text) q.answer) ++
    c.call.executed.flatMap (answerAccesses s.threadId c.stmtType)

/-- A connection that takes the place of another is made in the same state. -/
def statsStep (s : ThreadConn) (c : StatsCall) : Option ThreadConn :=
  (c.call.perform s.con).map fun r => ⟨r.2, s.threadId⟩

/-- The accesses of the step stay in an array of `n` threads. -/
def InBounds (n : ℕ) (s : ThreadConn) (c : StatsCall) : Prop :=
  ∀ i ∈ c.accesses s, 0 ≤ i ∧ i < n

/-- The driver asks for no restart of a command. -/
def Unasked {n : ℕ} (L : LuaState n) (s : ThreadConn) (c : StatsCall) : Prop :=
  L = .gstate → ∀ answer ∈ c.answers s.con, ¬ answer.Asks

/-! ## One answer -/

theorem mem_answerAccesses {id i : ℤ} {type : DbQueryType} {answer : DbError}
    (h : i ∈ answerAccesses id type answer) : i = id := by
  cases answer with
  | none =>
    rw [answerAccesses, updateAccesses] at h
    split_ifs at h with hneg
    · cases h
    · simp only [List.mem_append, List.mem_singleton, List.mem_map] at h
      rcases h with (h | ⟨_, _, h⟩) | h
      · exact h
      · exact h.symm
      · exact h
  | reconnected => exact List.mem_singleton.mp h
  | restartTransaction => exact List.mem_singleton.mp h
  | failed => cases h

/-- The guard against the thread of commands is missing where a restart is asked for. -/
theorem answerAccesses_neg {id : ℤ} (hneg : id < 0) (type : DbQueryType) (answer : DbError) :
    answerAccesses id type answer = [] ↔ ¬ answer.Asks := by
  cases answer with
  | none => exact iff_of_true (if_pos hneg) fun h => h
  | reconnected => exact iff_of_false (List.cons_ne_nil _ _) fun h => h trivial
  | restartTransaction => exact iff_of_false (List.cons_ne_nil _ _) fun h => h trivial
  | failed => exact iff_of_true rfl fun h => h

theorem forall_answerAccesses_iff {n : ℕ} {id : ℤ} (hneg : id < 0) (type : DbQueryType)
    (answer : DbError) :
    (∀ i ∈ answerAccesses id type answer, 0 ≤ i ∧ i < n) ↔ ¬ answer.Asks := by
  rw [← answerAccesses_neg hneg type]
  constructor
  · intro hall
    rw [List.eq_nil_iff_forall_not_mem]
    intro i hi
    have hbound := hall i hi
    rw [mem_answerAccesses hi] at hbound
    omega
  · intro hnil i hi
    rw [hnil] at hi
    cases hi

/-! ## One call -/

theorem mem_accesses {s : ThreadConn} {c : StatsCall} {i : ℤ} (h : i ∈ c.accesses s) :
    i = s.threadId := by
  rcases List.mem_append.mp h with h | h
  · obtain ⟨q, -, hi⟩ := List.mem_flatMap.mp h
    exact mem_answerAccesses hi
  · obtain ⟨answer, -, hi⟩ := List.mem_flatMap.mp h
    exact mem_answerAccesses hi

theorem inBounds_command_iff {n : ℕ} {s : ThreadConn} (hneg : s.threadId < 0) (c : StatsCall) :
    InBounds n s c ↔ ∀ answer ∈ c.answers s.con, ¬ answer.Asks := by
  unfold InBounds StatsCall.accesses StatsCall.answers
  simp only [List.forall_mem_append, List.forall_mem_flatMap, forall_answerAccesses_iff hneg,
    List.forall_mem_map]

theorem inBounds_iff {n : ℕ} (L : LuaState n) {s : ThreadConn} (hs : s.threadId = L.threadId)
    (c : StatsCall) : InBounds n s c ↔ Unasked L s c := by
  cases L with
  | gstate =>
    have hneg : s.threadId < 0 := hs.trans_lt (show (-1 : ℤ) < 0 by decide)
    rw [inBounds_command_iff hneg]
    exact ⟨fun h _ => h, fun h => h rfl⟩
  | states i =>
    refine iff_of_true (fun j hj => ?_) fun h => by cases h
    rw [mem_accesses hj, hs]
    have hlt : ((i : ℕ) : ℤ) < n := by exact_mod_cast i.isLt
    exact ⟨Int.natCast_nonneg _, hlt⟩

/-! ## Runs -/

theorem statsStep_threadId {s t : ThreadConn} {c : StatsCall} (h : statsStep s c = some t) :
    t.threadId = s.threadId := by
  obtain ⟨r, -, rfl⟩ := Option.map_eq_some_iff.mp h
  rfl

/-- The statistics are used in bounds in exactly the runs in which no restart of a command is asked
for. -/
theorem statsInBounds_iff {n : ℕ} (L : LuaState n) (con : DbConn) {calls : List StatsCall}
    {s : ThreadConn} (hr : run statsStep (sbLuaDbConnect L con) calls = some s) :
    Guarded statsStep (InBounds n) (sbLuaDbConnect L con) calls ↔
      Guarded statsStep (Unasked L) (sbLuaDbConnect L con) calls :=
  guarded_congr (I := fun s => s.threadId = L.threadId) rfl
    (fun _ _ _ hs hstep => (statsStep_threadId hstep).trans hs)
    (fun _ c _ hs _ => inBounds_iff L hs c) hr

def deadlocked : DbConn :=
  ⟨some ⟨none, fun _ _ => .restartTransaction⟩, .none, false, 0, none, 0, 0, 0, 0, 0, []⟩

def dropTable : StatsCall := ⟨.query .empty .none, .other⟩

theorem statsInBounds_iff_deadlocked :
    Guarded statsStep (InBounds 1) (sbLuaDbConnect (LuaState.gstate (n := 1)) deadlocked)
        [dropTable] ↔
      Guarded statsStep (Unasked (LuaState.gstate (n := 1)))
        (sbLuaDbConnect (LuaState.gstate (n := 1)) deadlocked) [dropTable] :=
  statsInBounds_iff (n := 1) .gstate deadlocked
    (show run statsStep (sbLuaDbConnect .gstate deadlocked) [dropTable] = some _ from rfl)

/-- A deadlock in the prepare command counts an error of thread -1. -/
theorem not_inBounds : dropTable.accesses (sbLuaDbConnect (LuaState.gstate (n := 1)) deadlocked) =
      [-1] ∧
    ¬ Guarded statsStep (InBounds 1) (sbLuaDbConnect (LuaState.gstate (n := 1)) deadlocked)
      [dropTable] := by
  refine ⟨rfl, fun h => ?_⟩
  have hbound := h [] dropTable _ List.prefix_rfl rfl (-1) (List.mem_singleton_self _)
  omega

end Sysbench.Database
