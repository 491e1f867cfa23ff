import Sysbench.Database.CommonLua
import Sysbench.Database.Oltp
import Sysbench.Database.Stats

/-! # The totals of the OLTP workload

`db_query` counts a query that succeeds by the beginning of its text. The COMMIT is the last query
of an event, so the transactions in the report are the events that have ended, however often they
were started again.
-/
namespace Sysbench.Database.Oltp

open Bytes CStrings Words Runs Transactions
open CommonLua (lit tableName)

/-! ## The texts -/

structure Strings where
  c : CString
  pad : CString

def beginQuery (myisam : Bool) : CString :=
  if myisam then lit "LOCK TABLES sbtest WRITE" else lit "BEGIN"

def commitQuery (myisam : Bool) : CString :=
  if myisam then lit "UNLOCK TABLES" else lit "COMMIT"

def RangeKind.columns : RangeKind → CString
  | .simple | .order => lit "SELECT c FROM "
  | .sum => lit "SELECT SUM(K) FROM "
  | .distinct => lit "SELECT DISTINCT c FROM "

def RangeKind.orderBy : RangeKind → CString
  | .simple | .sum => lit ""
  | _ => lit " ORDER BY c"

def Statement.text (myisam : Bool) (s : Strings) : Statement → CString
  | .begin => beginQuery myisam
  | .pointSelect table id =>
    lit "SELECT c FROM " ++ tableName table ++ (lit " WHERE id=" ++ decimal id)
  | .rangeSelect kind table low high =>
    kind.columns ++ tableName table ++ (lit " WHERE id BETWEEN " ++ decimal low ++ lit " AND " ++
      decimal low ++ lit "+" ++ decimal (high - low) ++ kind.orderBy)
  | .indexUpdate table id =>
    lit "UPDATE " ++ tableName table ++ (lit " SET k=k+1 WHERE id=" ++ decimal id)
  | .nonIndexUpdate table id =>
    lit "UPDATE " ++ tableName table ++
      (lit " SET c='" ++ s.c ++ lit "' WHERE id=" ++ decimal id)
  | .delete table id =>
    lit "DELETE FROM " ++ tableName table ++ (lit " WHERE id=" ++ decimal id)
  | .insert table id k =>
    lit "INSERT INTO " ++ tableName table ++ (lit " (id, k, c, pad) VALUES (" ++ decimal id ++
      lit ", " ++ decimal k ++ lit ", '" ++ s.c ++ lit "', '" ++ s.pad ++ lit "')")
  | .commit => commitQuery myisam

def Statement.type : Statement → DbQueryType
  | .begin => .other
  | .pointSelect _ _ | .rangeSelect _ _ _ _ => .read
  | .commit => .commit
  | _ => .write

/-- No word that decides the type is longer than 13 characters. -/
theorem dbGetQueryType_append {p : CString} (s : CString) (hlen : 13 ≤ p.length)
    (hspace : p.chars.head?.any isspace = false) :
    dbGetQueryType (p ++ s) = dbGetQueryType p := by
  have hdrop : ∀ l : List Byte, (p.chars ++ l).dropWhile isspace = p.chars ++ l := by
    intro l
    match hp : p.chars with
    | [] =>
      rw [CString.length, hp] at hlen
      cases hlen
    | b :: rest =>
      rw [hp] at hspace
      have hb : isspace b = false := hspace
      rw [List.cons_append, List.dropWhile_cons, hb]
      rfl
  have hword : ∀ word : String, word.length ≤ 13 →
      startsWithWord (p.chars ++ s.chars) word = startsWithWord p.chars word := by
    intro word hw
    unfold startsWithWord
    rw [List.take_append_of_le_length (hw.trans hlen)]
  have hself := hdrop []
  rw [List.append_nil] at hself
  unfold dbGetQueryType
  rw [CString.chars_append, hdrop s.chars, hself]
  simp only [hword _ (show "select".length ≤ 13 by decide),
    hword _ (show "insert".length ≤ 13 by decide), hword _ (show "update".length ≤ 13 by decide),
    hword _ (show "delete".length ≤ 13 by decide), hword _ (show "commit".length ≤ 13 by decide),
    hword _ (show "unlock tables".length ≤ 13 by decide)]

/-- The type of a query on a table shows in its words before the number of the table. -/
theorem dbGetQueryType_table {words : CString} {type : DbQueryType}
    (hlen : 13 ≤ (words ++ lit "sbtest").length)
    (hspace : (words ++ lit "sbtest").chars.head?.any isspace = false)
    (htype : dbGetQueryType (words ++ lit "sbtest") = type) (table : ℕ) (rest : CString) :
    dbGetQueryType (words ++ tableName table ++ rest) = type := by
  rw [tableName, ← CString.append_assoc, CString.append_assoc,
    dbGetQueryType_append _ hlen hspace, htype]

theorem dbGetQueryType_select (kind : RangeKind) (table : ℕ) (rest : CString) :
    dbGetQueryType (kind.columns ++ tableName table ++ rest) = .read := by
  cases kind <;> exact dbGetQueryType_table (by decide) (by decide) (by decide) _ _

theorem dbGetQueryType_update (table : ℕ) (rest : CString) :
    dbGetQueryType (lit "UPDATE " ++ tableName table ++ rest) = .write :=
  dbGetQueryType_table (by decide) (by decide) (by decide) _ _

theorem dbGetQueryType_begin (myisam : Bool) : dbGetQueryType (beginQuery myisam) = .other := by
  cases myisam <;> decide

theorem dbGetQueryType_commit (myisam : Bool) : dbGetQueryType (commitQuery myisam) = .commit := by
  cases myisam <;> decide

theorem dbGetQueryType_text (myisam : Bool) (s : Strings) (q : Statement) :
    dbGetQueryType (q.text myisam s) = q.type := by
  cases q with
  | begin => exact dbGetQueryType_begin myisam
  | pointSelect table id => exact dbGetQueryType_select .simple table _
  | rangeSelect kind table low high => exact dbGetQueryType_select kind table _
  | indexUpdate table id => exact dbGetQueryType_update table _
  | nonIndexUpdate table id => exact dbGetQueryType_update table _
  | delete table id =>
    exact @dbGetQueryType_table (lit "DELETE FROM ") .write (by decide) (by decide) (by decide) _ _
  | insert table id k =>
    exact @dbGetQueryType_table (lit "INSERT INTO ") .write (by decide) (by decide) (by decide) _ _
  | commit => exact dbGetQueryType_commit myisam

/-! ## The workers -/

/-- The threads of the test, with what `db_query` counts. -/
structure Workers (n : ℕ) where
  workers : Fin n → OltpState
  stats : ThreadStats n
  /-- the calls of the event function that have returned -/
  completed : Fin n → ℕ
  /-- the attempts that were started again -/
  restarts : Fin n → ℕ

structure WorkerLabel (n : ℕ) where
  t : Fin n
  label : Label
  strings : Strings

variable {n : ℕ}

def initWorkers (tables : Tables) : Workers n :=
  ⟨fun _ => start tables, initStats, fun _ => 0, fun _ => 0⟩

def Phase.returned : Phase → ℕ
  | .idle => 1
  | _ => 0

def Phase.restarted : Phase → ℕ
  | .restarting => 1
  | _ => 0

def countReply (ignoredErrors : List CString) (myisam : Bool) (w : OltpState)
    (l : WorkerLabel n) (stats : ThreadStats n) : ThreadStats n :=
  match l.label, w.phase with
  | .reply r, .running (q :: _) =>
    dbQueryStats l.t (q.text myisam l.strings) (mysqlDrvQuery ignoredErrors q w.session r).1 stats
  | _, _ => stats

def workersStep (vars : Vars) (ignoredErrors : List CString) (myisam : Bool) (s : Workers n)
    (l : WorkerLabel n) : Option (Workers n) :=
  (step vars ignoredErrors (s.workers l.t) l.label).map fun w =>
    { workers := Function.update s.workers l.t w
      stats := countReply ignoredErrors myisam (s.workers l.t) l s.stats
      completed := Function.update s.completed l.t (s.completed l.t + w.phase.returned)
      restarts := Function.update s.restarts l.t (s.restarts l.t + w.phase.restarted) }

/-! ## The queries of one attempt -/

def tally (c : Counter) (qs : List Statement) : ℕ := qs.countP fun q => c ∈ q.type.counters

theorem tally_append (c : Counter) (qs rest : List Statement) :
    tally c (qs ++ rest) = tally c qs + tally c rest := List.countP_append

theorem tally_cons (c : Counter) (q : Statement) (rest : List Statement) :
    tally c (q :: rest) = tally c rest + if c ∈ q.type.counters then 1 else 0 := by
  simp only [tally, List.countP_cons, decide_eq_true_eq]

/-- How often one event raises a counter. -/
def Vars.perEvent (vars : Vars) : Counter → ℕ
  | .readOps => vars.pointSelects + vars.ranges .simple + vars.ranges .sum + vars.ranges .order +
      vars.ranges .distinct
  | .writeOps => if vars.readOnly then 0 else vars.indexUpdates + vars.nonIndexUpdates + 2
  | .otherOps => if vars.skipTrx then 0 else 2
  | .transactions => if vars.skipTrx then 0 else 1
  | _ => 0

theorem tally_map (c : Counter) {f : ℕ → Statement} {type : DbQueryType}
    (hf : ∀ i, (f i).type = type) (k : ℕ) :
    tally c ((List.range k).map f) = if c ∈ type.counters then k else 0 := by
  induction k with
  | zero => simp [tally]
  | succ k ih =>
    rw [List.range_succ, List.map_append, tally_append, ih, List.map_singleton, tally_cons, hf]
    split_ifs <;> rfl

theorem tally_selects (c : Counter) (vars : Vars) (d : Draws) :
    tally c (vars.selects d) = if c = .readOps then vars.perEvent .readOps else 0 := by
  have hread : (c ∈ DbQueryType.counters .read) ↔ c = .readOps := List.mem_singleton
  simp only [Vars.selects, List.flatMap_cons, List.flatMap_nil, List.append_nil, tally_append]
  have hrange : ∀ kind, tally c ((List.range (vars.ranges kind)).map fun i =>
      Statement.rangeSelect kind d.table (d.rangeStart kind i)
        (d.rangeStart kind i + (vars.rangeSize - 1))) =
        if c ∈ DbQueryType.counters .read then vars.ranges kind else 0 :=
    fun kind => @tally_map c _ .read (fun _ => rfl) _
  rw [@tally_map c _ .read (fun _ => rfl), hrange, hrange, hrange, hrange]
  simp only [hread, Vars.perEvent]
  split_ifs <;> omega

theorem tally_updates (c : Counter) (vars : Vars) (d : Draws) :
    tally c (vars.updates d) =
      if c = .writeOps then vars.indexUpdates + vars.nonIndexUpdates else 0 := by
  have hwrite : (c ∈ DbQueryType.counters .write) ↔ c = .writeOps := List.mem_singleton
  rw [Vars.updates, tally_append, @tally_map c _ .write (fun _ => rfl),
    @tally_map c _ .write (fun _ => rfl)]
  simp only [hwrite]
  split_ifs <;> rfl

/-- The counts do not depend on the random numbers. -/
theorem tally_event (c : Counter) (vars : Vars) (d : Draws) :
    tally c (vars.event d) = vars.perEvent c := by
  have hnil : tally c [] = 0 := rfl
  unfold Vars.event
  simp only [tally_append, tally_selects]
  cases hskip : vars.skipTrx <;> cases hread : vars.readOnly <;> cases c <;>
    simp [tally_append, tally_updates, tally_cons, hnil, Vars.perEvent, hskip, hread,
      Statement.type, DbQueryType.counters]

/-- As long as an attempt has queries to send, its COMMIT is among them. -/
theorem tally_transactions {vars : Vars} {d : Draws} {rest : List Statement} (hne : rest ≠ [])
    (hsuffix : rest <:+ vars.event d) : tally .transactions rest = vars.perEvent .transactions := by
  obtain ⟨sent, hsent⟩ := hsuffix
  have htotal := tally_event .transactions vars d
  rw [← hsent, tally_append] at htotal
  cases hskip : vars.skipTrx with
  | true =>
    simp only [Vars.perEvent, hskip, if_true] at htotal ⊢
    omega
  | false =>
    have hlast : rest.getLast hne = .commit := by
      have hevent : (vars.event d).getLast? = some .commit := by
        unfold Vars.event
        rw [hskip]
        exact List.getLast?_concat
      rw [← hsent, List.getLast?_append_of_ne_nil _ hne, List.getLast?_eq_some_getLast hne] at hevent
      exact Option.some_inj.mp hevent
    have hpos : 0 < tally .transactions rest := by
      refine List.countP_pos_iff.mpr ⟨rest.getLast hne, List.getLast_mem hne, ?_⟩
      rw [hlast]
      decide
    simp only [Vars.perEvent, hskip] at htotal ⊢
    simp only [Bool.false_eq_true, if_false] at htotal ⊢
    omega

/-! ## One thread -/

/-- What the totals say about one thread. -/
structure Ledger where
  phase : Phase
  counts : Counter → ℕ
  completed : ℕ
  restarts : ℕ

def Workers.ledger (s : Workers n) (i : Fin n) : Ledger :=
  ⟨(s.workers i).phase, s.stats i, s.completed i, s.restarts i⟩

def Ledger.raised (l : Ledger) (cs : List Counter) (c : Counter) : ℕ :=
  l.counts c + if c ∈ cs then 1 else 0

/-- What a step does to the ledger of its thread. -/
inductive Move (vars : Vars) (l : Ledger) : Ledger → Prop
  | attempt (d : Draws) (hphase : l.phase = .idle ∨ l.phase = .restarting) :
      Move vars l ⟨.before (vars.event d), l.counts,
        l.completed + (Phase.before (vars.event d)).returned, l.restarts⟩
  | success (q : Statement) (rest : List Statement) (hphase : l.phase = .running (q :: rest)) :
      Move vars l ⟨.before rest, l.raised q.type.counters,
        l.completed + (Phase.before rest).returned, l.restarts⟩
  | restart (rest : List Statement) (cs : List Counter) (hphase : l.phase = .running rest)
      (hcs : cs = [.errors] ∨ cs = [.reconnects]) :
      Move vars l ⟨.restarting, l.raised cs, l.completed, l.restarts + 1⟩
  | stop (rest : List Statement) (hphase : l.phase = .running rest) :
      Move vars l ⟨.fatal, l.counts, l.completed, l.restarts⟩

theorem ThreadStats.raise_self (stats : ThreadStats n) (t : Fin n) (cs : List Counter) :
    stats.raise t cs t = fun c => stats t c + if c ∈ cs then 1 else 0 := by
  funext c
  rw [ThreadStats.raise, Function.update_self]
  split_ifs <;> rfl

theorem ThreadStats.raise_of_ne (stats : ThreadStats n) {t i : Fin n} (h : i ≠ t)
    (cs : List Counter) : stats.raise t cs i = stats i := Function.update_of_ne h _ _

theorem before_restarted (rest : List Statement) : (Phase.before rest).restarted = 0 := by
  cases rest <;> rfl

/-- The answer of the driver decides how the script goes on. -/
theorem replied_cases (ignoredErrors : List CString) (s : Session Tables) (q : Statement)
    (rest : List Statement) (r : Reply) :
    (mysqlDrvQuery ignoredErrors q s r).1 = .none ∧
        (replied ignoredErrors s q rest r).phase = .before rest ∨
      ((mysqlDrvQuery ignoredErrors q s r).1 = .restartTransaction ∨
          (mysqlDrvQuery ignoredErrors q s r).1 = .reconnected) ∧
        (replied ignoredErrors s q rest r).phase = .restarting ∨
      (mysqlDrvQuery ignoredErrors q s r).1 = .failed ∧
        (replied ignoredErrors s q rest r).phase = .fatal := by
  cases r with
  | ok chosen store => exact .inl ⟨rfl, rfl⟩
  | error f =>
    have hphase : (replied ignoredErrors s q rest (.error f)).phase =
        match luaResult (checkError ignoredErrors f (s.fail f.whole)).1 with
        | .ok () => .before rest
        | .error e => .caught e := by
      rw [replied, sbLuaDbQuery_error]
      split <;> simp_all
    rw [hphase, show (mysqlDrvQuery ignoredErrors q s (.error f)).1 =
      (checkError ignoredErrors f (s.fail f.whole)).1 from rfl]
    rcases checkError_cases ignoredErrors f (s.fail f.whole) with h | ⟨-, ⟨-, h⟩ | ⟨-, h⟩⟩
    · rw [h]
      exact .inr (.inr ⟨rfl, rfl⟩)
    · rw [h]
      exact .inr (.inl ⟨.inr rfl, rfl⟩)
    · rw [h]
      exact .inr (.inl ⟨.inl rfl, rfl⟩)

theorem countReply_of_ne (ignoredErrors : List CString) (myisam : Bool) (w : OltpState)
    (l : WorkerLabel n) (stats : ThreadStats n) {i : Fin n} (hi : i ≠ l.t) :
    countReply ignoredErrors myisam w l stats i = stats i := by
  obtain ⟨session, phase⟩ := w
  obtain ⟨t, label, strings⟩ := l
  cases label with
  | attempt d => rfl
  | reply r =>
    cases phase with
    | running rest =>
      cases rest with
      | nil => rfl
      | cons q rest => exact ThreadStats.raise_of_ne _ hi _
    | _ => rfl

section Moves

variable {vars : Vars} {ignoredErrors : List CString} {myisam : Bool} {s u : Workers n}
  {l : WorkerLabel n}

theorem workersStep_of_ne (hu : workersStep vars ignoredErrors myisam s l = some u) {i : Fin n}
    (hi : i ≠ l.t) : u.ledger i = s.ledger i := by
  obtain ⟨w, -, rfl⟩ := Option.map_eq_some_iff.mp hu
  simp only [Workers.ledger, Function.update_of_ne hi,
    countReply_of_ne ignoredErrors myisam (s.workers l.t) l s.stats hi]

theorem workersStep_self {w : OltpState} {counts : Counter → ℕ}
    (hu : workersStep vars ignoredErrors myisam s l = some u)
    (hw : step vars ignoredErrors (s.workers l.t) l.label = some w)
    (hstats : countReply ignoredErrors myisam (s.workers l.t) l s.stats l.t = counts) :
    u.ledger l.t = ⟨w.phase, counts, s.completed l.t + w.phase.returned,
      s.restarts l.t + w.phase.restarted⟩ := by
  rw [workersStep, hw] at hu
  cases hu
  simp only [Workers.ledger, Function.update_self, hstats]

theorem workersStep_move (hu : workersStep vars ignoredErrors myisam s l = some u) :
    Move vars (s.ledger l.t) (u.ledger l.t) := by
  obtain ⟨w, hw, -⟩ := Option.map_eq_some_iff.mp hu
  have hself := fun counts => @workersStep_self n vars ignoredErrors myisam s u l w counts hu hw
  obtain ⟨t, label, strings⟩ := l
  cases label with
  | attempt d =>
    rw [hself _ rfl]
    rw [step] at hw
    split at hw
    · next hphase =>
      cases hw
      rw [before_restarted]
      exact .attempt d (.inl hphase)
    · next hphase =>
      cases hw
      rw [before_restarted]
      exact .attempt d (.inr hphase)
    · cases hw
  | reply r =>
    rw [step] at hw
    split at hw
    · next q rest hphase =>
      cases hw
      have hcounts : countReply ignoredErrors myisam (s.workers t) ⟨t, .reply r, strings⟩
          s.stats t = (s.ledger t).raised
            ((mysqlDrvQuery ignoredErrors q (s.workers t).session r).1.counters q.type) := by
        rw [countReply]
        simp only [hphase]
        rw [dbQueryStats, dbGetQueryType_text, ThreadStats.raise_self]
        rfl
      rw [hself _ hcounts]
      rcases replied_cases ignoredErrors (s.workers t).session q rest r with
        ⟨hanswer, hnext⟩ | ⟨hanswer, hnext⟩ | ⟨hanswer, hnext⟩
      · rw [hanswer, hnext, before_restarted]
        exact .success q rest hphase
      · rw [hnext]
        rcases hanswer with hanswer | hanswer
        · rw [hanswer]
          exact .restart (q :: rest) _ hphase (.inl rfl)
        · rw [hanswer]
          exact .restart (q :: rest) _ hphase (.inr rfl)
      · rw [hanswer, hnext]
        exact .stop (q :: rest) hphase
    · cases hw

end Moves

/-! ## The balance -/

def Phase.sent (vars : Vars) (c : Counter) : Phase → ℕ
  | .running rest => vars.perEvent c - tally c rest
  | _ => 0

def Phase.stopped : Phase → ℕ
  | .fatal => 1
  | _ => 0

def Counter.Ops (c : Counter) : Prop := c ≠ .errors ∧ c ≠ .reconnects

/-- An attempt that has not ended has counted no transaction, and for the rest at most what one
event counts. -/
structure Counted (vars : Vars) (l : Ledger) : Prop where
  running : ∀ rest, l.phase = .running rest → rest ≠ [] ∧ ∃ d, rest <:+ vars.event d
  ops : ∀ c : Counter, Counter.Ops c → ∃ lost ≤ vars.perEvent c * (l.restarts + l.phase.stopped),
    l.counts c = vars.perEvent c * l.completed + lost + l.phase.sent vars c
  transactions : l.counts .transactions = vars.perEvent .transactions * l.completed
  answers : l.counts .errors + l.counts .reconnects = l.restarts

theorem not_mem_counters (type : DbQueryType) :
    Counter.errors ∉ type.counters ∧ Counter.reconnects ∉ type.counters := by
  cases type <;> decide

theorem tally_le {vars : Vars} {d : Draws} {rest : List Statement}
    (hsuffix : rest <:+ vars.event d) (c : Counter) : tally c rest ≤ vars.perEvent c := by
  obtain ⟨sent, hsent⟩ := hsuffix
  rw [← tally_event c vars d, ← hsent, tally_append]
  exact Nat.le_add_left _ _

theorem before_running {vars : Vars} {d : Draws} {rest left : List Statement}
    (hsuffix : rest <:+ vars.event d) (hphase : Phase.before rest = .running left) :
    left ≠ [] ∧ ∃ d, left <:+ vars.event d := by
  cases rest with
  | nil => cases hphase
  | cons q rest =>
    cases hphase
    exact ⟨List.cons_ne_nil _ _, d, hsuffix⟩

theorem before_stopped (rest : List Statement) : (Phase.before rest).stopped = 0 := by
  cases rest <;> rfl

/-- What is left of an attempt is still to be counted. -/
theorem perEvent_before {vars : Vars} {d : Draws} {rest : List Statement}
    (hsuffix : rest <:+ vars.event d) (c : Counter) (k : ℕ) :
    vars.perEvent c * (k + (Phase.before rest).returned) + (Phase.before rest).sent vars c +
      tally c rest = vars.perEvent c * k + vars.perEvent c := by
  cases rest with
  | nil => rfl
  | cons q rest =>
    rw [show (Phase.before (q :: rest)).sent vars c = vars.perEvent c - tally c (q :: rest) from rfl,
      Nat.add_assoc, Nat.sub_add_cancel (tally_le hsuffix c)]
    rfl

theorem before_transactions {vars : Vars} {d : Draws} {rest : List Statement}
    (hsuffix : rest <:+ vars.event d) : (Phase.before rest).sent vars .transactions = 0 := by
  cases rest with
  | nil => rfl
  | cons q rest =>
    rw [show (Phase.before (q :: rest)).sent vars .transactions =
      vars.perEvent .transactions - tally .transactions (q :: rest) from rfl,
      tally_transactions (List.cons_ne_nil q rest) hsuffix, Nat.sub_self]

theorem sent_le (vars : Vars) (c : Counter) (phase : Phase) :
    phase.sent vars c ≤ vars.perEvent c := by
  cases phase with
  | running rest => exact Nat.sub_le _ _
  | _ => exact Nat.zero_le _

theorem counted_start (vars : Vars) : Counted vars ⟨.idle, fun _ => 0, 0, 0⟩ where
  running := fun _ h => by cases h
  ops := fun c _ => ⟨0, Nat.zero_le _, rfl⟩
  transactions := rfl
  answers := rfl

section Steps

variable {vars : Vars} {l l' : Ledger}

theorem counted_attempt (h : Counted vars l) (d : Draws)
    (hphase : l.phase = .idle ∨ l.phase = .restarting) :
    Counted vars ⟨.before (vars.event d), l.counts,
      l.completed + (Phase.before (vars.event d)).returned, l.restarts⟩ := by
  have hself : vars.event d <:+ vars.event d := List.suffix_refl _
  have hquiet : ∀ c, l.phase.sent vars c = 0 ∧ l.phase.stopped = 0 := by
    intro c
    rcases hphase with hphase | hphase
    · rw [hphase]
      exact ⟨rfl, rfl⟩
    · rw [hphase]
      exact ⟨rfl, rfl⟩
  have hbefore : ∀ c, vars.perEvent c * (l.completed + (Phase.before (vars.event d)).returned) +
      (Phase.before (vars.event d)).sent vars c = vars.perEvent c * l.completed := by
    intro c
    have hperEvent := perEvent_before hself c l.completed
    rw [tally_event] at hperEvent
    exact Nat.add_right_cancel hperEvent
  refine ⟨fun rest hrest => before_running hself hrest, fun c hc => ?_, ?_, h.answers⟩
  · obtain ⟨lost, hlost, hcount⟩ := h.ops c hc
    rw [(hquiet c).1] at hcount
    rw [(hquiet c).2] at hlost
    refine ⟨lost, ?_, ?_⟩
    · rwa [before_stopped]
    · rw [Nat.add_right_comm, hbefore]
      exact hcount
  · have hevent := hbefore .transactions
    rw [before_transactions hself, Nat.add_zero] at hevent
    exact h.transactions.trans hevent.symm

theorem counted_success (h : Counted vars l) (q : Statement) (rest : List Statement)
    (hphase : l.phase = .running (q :: rest)) :
    Counted vars ⟨.before rest, l.raised q.type.counters,
      l.completed + (Phase.before rest).returned, l.restarts⟩ := by
  obtain ⟨hne, d, hsuffix⟩ := h.running _ hphase
  have hrest : rest <:+ vars.event d := (List.suffix_cons q rest).trans hsuffix
  have hfirst := fun c => tally_cons c q rest
  refine ⟨fun left hleft => before_running hrest hleft, fun c hc => ?_, ?_, ?_⟩
  · obtain ⟨lost, hlost, hcount⟩ := h.ops c hc
    have hbefore := perEvent_before hrest c l.completed
    have hle := tally_le hsuffix c
    rw [hphase] at hlost hcount
    simp only [Phase.sent] at hcount
    refine ⟨lost, ?_, ?_⟩
    · rwa [before_stopped]
    · have hstep := hfirst c
      simp only [Ledger.raised]
      omega
  · have hbefore := perEvent_before hrest .transactions l.completed
    rw [before_transactions hrest] at hbefore
    have hleft := tally_transactions hne hsuffix
    rw [hfirst] at hleft
    have htransactions := h.transactions
    simp only [Ledger.raised]
    omega
  · obtain ⟨herrors, hreconnects⟩ := not_mem_counters q.type
    simp only [Ledger.raised, if_neg herrors, if_neg hreconnects]
    exact h.answers

theorem counted_restart (h : Counted vars l) (rest : List Statement) (cs : List Counter)
    (hphase : l.phase = .running rest) (hcs : cs = [.errors] ∨ cs = [.reconnects]) :
    Counted vars ⟨.restarting, l.raised cs, l.completed, l.restarts + 1⟩ := by
  have hops : ∀ c : Counter, Counter.Ops c → l.raised cs c = l.counts c := by
    rintro c ⟨herrors, hreconnects⟩
    rcases hcs with rfl | rfl
    · rw [Ledger.raised, if_neg (List.mem_singleton.not.mpr herrors), Nat.add_zero]
    · rw [Ledger.raised, if_neg (List.mem_singleton.not.mpr hreconnects), Nat.add_zero]
  refine ⟨fun _ hnext => (by cases hnext), fun c hc => ?_, ?_, ?_⟩
  · obtain ⟨lost, hlost, hcount⟩ := h.ops c hc
    rw [hphase] at hlost
    have hsent := sent_le vars c l.phase
    refine ⟨lost + l.phase.sent vars c, ?_, ?_⟩
    · exact Nat.add_le_add hlost hsent
    · exact ((hops c hc).trans hcount).trans (Nat.add_assoc _ _ _)
  · exact (hops .transactions ⟨by decide, by decide⟩).trans h.transactions
  · have hanswers := h.answers
    rcases hcs with rfl | rfl
    · simp only [Ledger.raised, List.mem_singleton, if_true, reduceCtorEq, if_false]
      omega
    · simp only [Ledger.raised, List.mem_singleton, if_true, reduceCtorEq, if_false]
      omega

theorem counted_stop (h : Counted vars l) (rest : List Statement)
    (hphase : l.phase = .running rest) :
    Counted vars ⟨.fatal, l.counts, l.completed, l.restarts⟩ := by
  refine ⟨fun _ hnext => (by cases hnext), fun c hc => ?_, h.transactions, h.answers⟩
  obtain ⟨lost, hlost, hcount⟩ := h.ops c hc
  rw [hphase] at hlost
  refine ⟨lost + l.phase.sent vars c, ?_, ?_⟩
  · exact Nat.add_le_add hlost (sent_le vars c l.phase)
  · exact hcount.trans (Nat.add_assoc _ _ _)

theorem counted_move (h : Counted vars l) (hmove : Move vars l l') : Counted vars l' := by
  cases hmove with
  | attempt d hphase => exact counted_attempt h d hphase
  | success q rest hphase => exact counted_success h q rest hphase
  | restart rest cs hphase hcs => exact counted_restart h rest cs hphase hcs
  | stop rest hphase => exact counted_stop h rest hphase

end Steps

/-! ## Runs -/

def Phase.unfinished : Phase → ℕ
  | .running _ | .fatal => 1
  | _ => 0

theorem Counted.bounds {vars : Vars} {l : Ledger} (h : Counted vars l) {c : Counter}
    (hc : Counter.Ops c) :
    vars.perEvent c * l.completed ≤ l.counts c ∧
      l.counts c ≤ vars.perEvent c * (l.completed + l.restarts + l.phase.unfinished) := by
  obtain ⟨lost, hlost, hcount⟩ := h.ops c hc
  have hsent := sent_le vars c l.phase
  rw [hcount, Nat.mul_add, Nat.mul_add]
  rw [Nat.mul_add] at hlost
  refine ⟨Nat.le_add_right_of_le (Nat.le_add_right _ _), ?_⟩
  cases hphase : l.phase with
  | running rest =>
    rw [hphase] at hlost hsent
    simp only [Phase.stopped, Phase.unfinished] at hlost ⊢
    omega
  | _ =>
    rw [hphase] at hlost
    simp only [Phase.stopped, Phase.unfinished, Phase.sent] at hlost ⊢
    omega

section Totals

variable {vars : Vars} {ignoredErrors : List CString} {myisam : Bool} {tables : Tables}
  {es : List (WorkerLabel n)} {s : Workers n}

theorem counted_run
    (hr : run (workersStep vars ignoredErrors myisam) (initWorkers tables) es = some s)
    (i : Fin n) : Counted vars (s.ledger i) := by
  refine run_preserves (I := fun s => ∀ i, Counted vars (s.ledger i)) (fun s l u hs hu i => ?_)
    (fun i => counted_start vars) hr i
  by_cases hi : i = l.t
  · rw [hi]
    exact counted_move (hs l.t) (workersStep_move hu)
  · rw [workersStep_of_ne hu hi]
    exact hs i

def deadlockLabels (t : Fin n) : List (WorkerLabel n) :=
  (failedInsertion ⟨1213, true, true⟩).map fun l => ⟨t, l, ⟨lit "", lit ""⟩⟩

theorem deadlockLabels_run : ∃ s : Workers 1,
    run (workersStep rowVars lockErrors false) (initWorkers threeRows) (deadlockLabels 0) = some s ∧
      s.completed 0 = 1 ∧ s.restarts 0 = 1 := ⟨_, rfl, rfl, rfl⟩

end Totals

end Sysbench.Database.Oltp
