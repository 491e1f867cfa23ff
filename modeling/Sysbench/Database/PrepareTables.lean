import Sysbench.Database.ScriptLogs
import Sysbench.Machine.KeyedRuns

/-! # The tables after the preparation

What the server makes of the statements that `create_insert` sends. The threads of
`parallel_prepare.lua` send theirs at the same time, each for its own tables, so the tables are
the same for every order in which the statements arrive.
-/
namespace Sysbench.Database.CommonLua

open Bytes CStrings Words Batches Runs KeyedRuns
open Event (LuaError)

/-! ## The server -/

structure Table where
  indexed : Bool
  rows : List CString
deriving DecidableEq

inductive Op
  | create
  | createIfNotExists
  | createIndex
  | insert (rows : List CString)
  | drop
  | dropIfExists
  | commit
deriving DecidableEq

/-- A statement and the number of the table that it names, if it names one. -/
abbrev Statement := Option ℕ × Op

abbrev Tables := Option ℕ → Option Table

/-- What the scripts rely on of the server: the effect of a statement that it accepts. -/
structure TableServer (server : Option Table → Op → Option (Option Table)) : Prop where
  create : server none .create = some (some ⟨false, []⟩)
  createIfNotExists : ∀ t, server t .createIfNotExists = some (some (t.getD ⟨false, []⟩))
  createIndex : ∀ rows, server (some ⟨false, rows⟩) .createIndex = some (some ⟨true, rows⟩)
  insert : ∀ (t : Table) rows,
    server (some t) (.insert rows) = some (some { t with rows := t.rows ++ rows })
  drop : ∀ t : Table, server (some t) .drop = some none
  drop_none : server none .drop = none
  dropIfExists : ∀ t, server t .dropIfExists = some none
  commit : ∀ t, server t .commit = some t

/-- Such a server, which also refuses a second table or index of a name. -/
def serverStep : Option Table → Op → Option (Option Table)
  | none, .create => some (some ⟨false, []⟩)
  | t, .createIfNotExists => some (some (t.getD ⟨false, []⟩))
  | some t, .createIndex => if t.indexed then none else some (some { t with indexed := true })
  | some t, .insert rows => some (some { t with rows := t.rows ++ rows })
  | some _, .drop => some none
  | _, .dropIfExists => some none
  | t, .commit => some t
  | _, _ => none

theorem serverStep_tableServer : TableServer serverStep where
  create := rfl
  createIfNotExists t := by cases t <;> rfl
  createIndex _ := rfl
  insert _ _ := rfl
  drop _ := rfl
  drop_none := rfl
  dropIfExists t := by cases t <;> rfl
  commit t := by cases t <;> rfl

/-- The text of a statement of `common.lua`, which has no others. -/
def Vars.render (vars : Vars) : Statement → CString
  | (some i, .create) =>
    match vars.createTable i with
    | .ok (some text) => text
    | _ => lit ""
  | (some i, .createIndex) => createIndexText i
  | (some i, .insert rows) => insertText (vars.insertHeader i) rows
  | (some i, .drop) => dropText i
  | (_, .commit) => commitText
  | _ => lit ""

def Vars.accepted (vars : Vars) (q : Statement) : Query := ⟨vars.render q, .none⟩

def actionStatement (i : ℕ) : Action CString → Statement
  | .send g => (some i, .insert g)
  | .settle => (none, .commit)

def tableStatements (i : ℕ) (acts : List (Action CString)) : List Statement :=
  (some i, .create) :: (some i, .createIndex) :: acts.map (actionStatement i)

/-! ## Lengths -/

theorem length_insertHeader (vars : Vars) {i : ℕ} (hi : i < 10 ^ 14) :
    (vars.insertHeader i).length ≤ 100 := by
  have hname : (decimal i).length ≤ 15 := length_decimal_le (by omega) (by simpa using hi)
  have hinto : (lit "INSERT INTO ").length ≤ 12 := by decide
  have htable : (lit "sbtest").length ≤ 6 := by decide
  have hvalues : (lit "(k, c, pad) VALUES").length ≤ 30 := by decide
  have hvalues' : (lit "(id, k, c, pad) VALUES").length ≤ 30 := by decide
  unfold Vars.insertHeader tableName
  split_ifs <;> simp only [CString.length_append] <;> omega

theorem length_row (vars : Vars) (d : RowDraws) {j : ℕ} (hj : j < 10 ^ 14) :
    (vars.row d j).length ≤ 400 := by
  have hid : (decimal j).length ≤ 15 := length_decimal_le (by omega) (by simpa using hj)
  have hk : (decimal d.k.toInt).length ≤ 11 := by
    refine length_decimal_le (by omega) ?_
    have := BitVec.toInt_lt (x := d.k)
    have := BitVec.le_toInt (x := d.k)
    omega
  have hc : cFormat.length ≤ 119 := by decide
  have hpad : padFormat.length ≤ 59 := by decide
  have hopen : (lit "(").length ≤ 1 := by decide
  have hcomma : (lit ",").length ≤ 1 := by decide
  have hcomma' : (lit ", '").length ≤ 3 := by decide
  have hquote : (lit ",'").length ≤ 2 := by decide
  have hmiddle : (lit "', '").length ≤ 4 := by decide
  have hclose : (lit "')").length ≤ 2 := by decide
  have hclose' : (lit "'  )").length ≤ 4 := by decide
  unfold Vars.row
  split_ifs <;> simp only [CString.length_append, length_sbRandStr] <;> omega

/-! ## Loops -/

theorem mem_luaFor {first last n i : ℕ} (hn : 0 < n) :
    i ∈ luaFor first last n ↔ first ≤ i ∧ i ≤ last ∧ n ∣ i - first := by
  unfold luaFor
  split_ifs with h
  · rw [List.mem_map]
    constructor
    · rintro ⟨k, hk, rfl⟩
      rw [List.mem_range, Nat.lt_succ_iff] at hk
      have := (Nat.le_div_iff_mul_le hn).mp hk
      exact ⟨by omega, by omega, k, by rw [Nat.add_sub_cancel_left, Nat.mul_comm]⟩
    · rintro ⟨hlow, hhigh, k, hk⟩
      refine ⟨k, ?_, by rw [Nat.mul_comm, ← hk]; omega⟩
      rw [List.mem_range, Nat.lt_succ_iff, Nat.le_div_iff_mul_le hn, Nat.mul_comm, ← hk]
      omega
  · refine iff_of_false List.not_mem_nil fun hi => ?_
    omega

theorem nodup_luaFor {n : ℕ} (hn : 0 < n) (first last : ℕ) : (luaFor first last n).Nodup := by
  unfold luaFor
  split_ifs
  · refine List.Nodup.map (fun a b hab => ?_) List.nodup_range
    exact Nat.eq_of_mul_eq_mul_right hn (Nat.add_left_cancel hab)
  · exact List.nodup_nil

/-! ## Logs -/

/-- The driver is one whose tables are named by their numbers, with its options given. -/
def Vars.Known (vars : Vars) : Prop :=
  (vars.dbDriver = some (lit "mysql") ∨ vars.dbDriver = some (lit "attachsql")) ∧
      vars.mysqlTableEngine ≠ none ∧ vars.myisamMaxRows ≠ none ∨
    vars.dbDriver = some (lit "pgsql")

theorem Vars.Known.createTable {vars : Vars} (h : vars.Known) (i : ℕ) :
    ∃ text, vars.createTable i = .ok (some text) := by
  unfold Vars.createTable
  rcases h with ⟨hdriver, hengine, hrows⟩ | hdriver
  · obtain ⟨engine, hengine⟩ := Option.ne_none_iff_exists'.mp hengine
    obtain ⟨maxRows, hrows⟩ := Option.ne_none_iff_exists'.mp hrows
    rw [if_pos hdriver, hengine, hrows]
    exact ⟨_, rfl⟩
  · have hmysql : ¬(vars.dbDriver = some (lit "mysql") ∨ vars.dbDriver = some (lit "attachsql")) := by
      rw [hdriver]
      decide
    rw [if_neg hmysql, if_pos hdriver]
    exact ⟨_, rfl⟩

section Logs

variable {vars : Vars} {d : DbDriver}

theorem Vars.rows_fit (draws : ℕ → RowDraws) {i : ℕ} (hi : i < 10 ^ 14) :
    ∀ r ∈ vars.rows draws, Fits (vars.insertHeader i) [r] := by
  intro r hr
  obtain ⟨j, hj, rfl⟩ := List.mem_map.mp hr
  have hlt : j < 10 ^ 14 := ((mem_luaFor (by omega)).mp hj).2.1.trans_lt vars.tableSize_lt
  have hheader := length_insertHeader vars hi
  have hrow := length_row vars (draws j) hlt
  unfold Fits bulkPacketSize
  rw [insertText_singleton, CString.length_append]
  omega

theorem logsOn_createInsert (hdescribes : Describes d) (hknown : vars.Known) {env : TableEnv}
    (hmemory : env.block ≠ none) {i : ℕ} (hi : i < 10 ^ 14) :
    LogsOn d (vars.createInsert env i) fun _ log => ∃ acts : List (Action CString),
      log = (tableStatements i acts).map vars.accepted ∧
        (groups acts).flatten = vars.rows env.draws := by
  obtain ⟨text, htext⟩ := hknown.createTable i
  obtain ⟨memory, hmemory⟩ := Option.ne_none_iff_exists'.mp hmemory
  have hheader : (vars.insertHeader i).length + 1 ≤ bulkPacketSize := by
    have := length_insertHeader vars hi
    unfold bulkPacketSize
    omega
  have hbody : vars.createInsert env i = (do
      dbQueryCall text
      dbQueryCall (createIndexText i)
      bulkInsert (vars.insertHeader i) (some memory) (vars.rows env.draws)
      return none) := by
    unfold Vars.createInsert
    rw [htext, hmemory]
    rfl
  rw [hbody]
  refine ((logsOn_query text).bind fun _ => (logsOn_query (createIndexText i)).bind fun _ =>
    (logsOn_bulkInsert hdescribes hheader (Vars.rows_fit env.draws hi) memory).bind fun _ =>
      logsOn_pure none).imp ?_
  rintro _ _ ⟨_, _, _, rfl, ⟨_, _, _, rfl, ⟨_, _, _, ⟨acts, rfl, hacts⟩, ⟨-, rfl⟩, rfl⟩, rfl⟩, rfl⟩
  refine ⟨acts, ?_, hacts⟩
  have hcreate : vars.accepted (some i, .create) = ⟨text, .none⟩ := by
    rw [Vars.accepted, Vars.render, htext]
  have hactions : acts.map (actionQuery (vars.insertHeader i)) =
      (acts.map (actionStatement i)).map vars.accepted := by
    rw [List.map_map]
    refine List.map_congr_left fun a _ => ?_
    cases a <;> rfl
  rw [tableStatements, List.map_cons, List.map_cons, hcreate, ← hactions, List.append_nil]
  rfl

theorem logsOn_discard {α : Type} {f : LuaM α} {P : List Query → Prop}
    (hf : LogsOn d f fun _ log => P log) : LogsOn d (discard f) fun _ log => P log := by
  refine (hf.bind fun _ => logsOn_pure ()).imp ?_
  rintro _ _ ⟨_, l, _, hP, ⟨-, rfl⟩, rfl⟩
  rwa [List.append_nil]

theorem logsOn_tables (hdescribes : Describes d) (hknown : vars.Known) {env : ℕ → TableEnv}
    (hmemory : ∀ i, (env i).block ≠ none) {n : ℕ} (hn : 0 < n) (first : ℕ) :
    LogsOn d ((luaFor first vars.tablesCount n).forM fun i => discard (vars.createInsert (env i) i))
      fun _ log => ∃ acts : ℕ → List (Action CString),
        log = ((luaFor first vars.tablesCount n).flatMap fun i =>
          tableStatements i (acts i)).map vars.accepted ∧
        ∀ i ∈ luaFor first vars.tablesCount n,
          (groups (acts i)).flatten = vars.rows (env i).draws := by
  have hturn : ∀ i ∈ luaFor first vars.tablesCount n,
      LogsOn d (discard (vars.createInsert (env i) i)) fun _ log =>
        ∃ acts : List (Action CString), log = (tableStatements i acts).map vars.accepted ∧
          (groups acts).flatten = vars.rows (env i).draws := fun i hi =>
    logsOn_discard (logsOn_createInsert hdescribes hknown (hmemory i)
      (((mem_luaFor hn).mp hi).2.1.trans_lt vars.tablesCount_lt))
  refine (LogsOn.forM (nodup_luaFor hn _ _) hturn).imp ?_
  rintro _ _ ⟨acts, rfl, hacts⟩
  exact ⟨acts, List.map_flatMap.symm, hacts⟩

end Logs

/-! ## What the server holds -/

theorem project_actions (i : ℕ) (acts : List (Action CString)) :
    project (some i) (acts.map (actionStatement i)) = (groups acts).map .insert := by
  induction acts with
  | nil => rfl
  | cons a acts ih =>
    cases a with
    | send g => rw [List.map_cons, actionStatement, project_cons_self, ih]; rfl
    | settle => rw [List.map_cons, actionStatement, project_cons_of_ne (by simp), ih]; rfl

theorem project_actions_of_ne {i j : ℕ} (h : j ≠ i) (acts : List (Action CString)) :
    project (some i) (acts.map (actionStatement j)) = [] := by
  induction acts with
  | nil => rfl
  | cons a acts ih =>
    cases a with
    | send g => rw [List.map_cons, actionStatement, project_cons_of_ne (by simpa using h), ih]
    | settle => rw [List.map_cons, actionStatement, project_cons_of_ne (by simp), ih]

/-- A statement of a bulk insert that names no table is a COMMIT. -/
theorem mem_actions_none {j : ℕ} {op : Op} {acts : List (Action CString)}
    (h : (none, op) ∈ acts.map (actionStatement j)) : op = .commit := by
  obtain ⟨a, -, ha⟩ := List.mem_map.mp h
  cases a with
  | send g => cases ha
  | settle => exact (Prod.mk.inj ha).2.symm

theorem project_tableStatements (i : ℕ) (acts : List (Action CString)) :
    project (some i) (tableStatements i acts) =
      .create :: .createIndex :: (groups acts).map .insert := by
  rw [tableStatements, project_cons_self, project_cons_self, project_actions]

theorem project_tableStatements_of_ne {i j : ℕ} (h : j ≠ i) (acts : List (Action CString)) :
    project (some i) (tableStatements j acts) = [] := by
  have hj : (some j : Option ℕ) ≠ some i := by simpa using h
  rw [tableStatements, project_cons_of_ne hj, project_cons_of_ne hj, project_actions_of_ne h]

namespace TableServer

variable {server : Option Table → Op → Option (Option Table)}

theorem run_inserts (h : TableServer server) (t : Table) (gs : List (List CString)) :
    run server (some t) (gs.map .insert) =
      some (some { t with rows := t.rows ++ gs.flatten }) := by
  induction gs generalizing t with
  | nil => simp
  | cons g gs ih =>
    rw [List.map_cons, run_cons, h.insert, Option.bind_some, ih, List.flatten_cons,
      List.append_assoc]

/-- A table that does not exist is created with its index and filled. -/
theorem run_table (h : TableServer server) (gs : List (List CString)) :
    run server none (.create :: .createIndex :: gs.map .insert) =
      some (some ⟨true, gs.flatten⟩) := by
  rw [run_cons, h.create, Option.bind_some, run_cons, h.createIndex, Option.bind_some,
    h.run_inserts, List.nil_append]

theorem run_commits (h : TableServer server) {ops : List Op} (hops : ∀ op ∈ ops, op = .commit)
    (t : Option Table) : run server t ops = some t := by
  induction ops with
  | nil => rfl
  | cons op ops ih =>
    obtain rfl := hops op List.mem_cons_self
    rw [run_cons, h.commit, Option.bind_some]
    exact ih fun op hop => hops op (List.mem_cons_of_mem _ hop)

end TableServer

theorem mem_tableStatements {i j : ℕ} {op : Op} {acts : List (Action CString)}
    (h : (some i, op) ∈ tableStatements j acts) : j = i := by
  by_contra hne
  have hmem := mem_project.mpr h
  rw [project_tableStatements_of_ne hne] at hmem
  cases hmem

theorem mem_tableStatements_none {j : ℕ} {op : Op} {acts : List (Action CString)}
    (h : (none, op) ∈ tableStatements j acts) : op = .commit := by
  simp only [tableStatements, List.mem_cons, Prod.mk.injEq, reduceCtorEq, false_and, false_or] at h
  exact mem_actions_none h

/-- The tables that the script numbers, filled, and the other ones as they were. -/
def Vars.filled (vars : Vars) (rows : ℕ → List CString) (tables : Tables) : Tables
  | some i => if 1 ≤ i ∧ i ≤ vars.tablesCount then some ⟨true, rows i⟩ else tables (some i)
  | none => tables none

def Vars.threadStatements (vars : Vars) (n : ℕ) (acts : ℕ → ℕ → List (Action CString)) (t : ℕ) :
    List Statement :=
  if t < n then (luaFor (t + 1) vars.tablesCount n).flatMap fun i => tableStatements i (acts t i)
  else []

section Threads

variable {vars : Vars} {n : ℕ} {acts : ℕ → ℕ → List (Action CString)} {t : ℕ}

theorem mem_threadStatements {k : Option ℕ} {op : Op}
    (h : (k, op) ∈ vars.threadStatements n acts t) :
    t < n ∧ ∃ i ∈ luaFor (t + 1) vars.tablesCount n, (k, op) ∈ tableStatements i (acts t i) := by
  unfold Vars.threadStatements at h
  split_ifs at h with ht
  · exact ⟨ht, List.mem_flatMap.mp h⟩
  · cases h

/-- A table belongs to one thread. -/
theorem mem_luaFor_thread (ht : t < n) {i : ℕ} :
    i ∈ luaFor (t + 1) vars.tablesCount n ↔
      (1 ≤ i ∧ i ≤ vars.tablesCount) ∧ (i - 1) % n = t := by
  rw [mem_luaFor (by omega)]
  constructor
  · rintro ⟨hlow, hhigh, k, hk⟩
    refine ⟨⟨by omega, hhigh⟩, ?_⟩
    rw [show i - 1 = t + n * k by omega, Nat.add_mul_mod_self_left, Nat.mod_eq_of_lt ht]
  · rintro ⟨⟨hlow, hhigh⟩, hmod⟩
    have hdiv := Nat.mod_add_div (i - 1) n
    exact ⟨by omega, hhigh, (i - 1) / n, by omega⟩

/-- In whatever order the statements of the threads arrive, the tables are filled. -/
theorem run_threadStatements {server : Option Table → Op → Option (Option Table)}
    (hserver : TableServer server) (hn : 0 < n) {rows : ℕ → List CString}
    (hacts : ∀ t < n, ∀ i ∈ luaFor (t + 1) vars.tablesCount n,
      (groups (acts t i)).flatten = rows i)
    {events : List (ℕ × Statement)} (h : Interleaves events (vars.threadStatements n acts))
    {tables : Tables} (hempty : ∀ i, 1 ≤ i → i ≤ vars.tablesCount → tables (some i) = none) :
    run (keyedStep server) tables (events.map Prod.snd) = some (vars.filled rows tables) := by
  rw [run_keyedStep_iff]
  rintro (_ | i)
  · refine hserver.run_commits (fun op hop => ?_) _
    obtain ⟨⟨t, q⟩, hmem, hq⟩ := List.mem_map.mp (mem_project.mp hop)
    obtain rfl : q = (none, op) := hq
    have hlog : (none, op) ∈ vars.threadStatements n acts t := (h t) ▸ mem_project.mpr hmem
    obtain ⟨-, i, -, hi⟩ := mem_threadStatements hlog
    exact mem_tableStatements_none hi
  have howner : ∀ t op, (some i, op) ∈ vars.threadStatements n acts t →
      (1 ≤ i ∧ i ≤ vars.tablesCount) ∧ t = (i - 1) % n := by
    intro t op hop
    obtain ⟨ht, j, hj, hstatement⟩ := mem_threadStatements hop
    obtain rfl := mem_tableStatements hstatement
    obtain ⟨hrange, hmod⟩ := (mem_luaFor_thread ht).mp hj
    exact ⟨hrange, hmod.symm⟩
  by_cases hi : 1 ≤ i ∧ i ≤ vars.tablesCount
  · have ht : (i - 1) % n < n := Nat.mod_lt _ hn
    have hmem : i ∈ luaFor ((i - 1) % n + 1) vars.tablesCount n :=
      (mem_luaFor_thread ht).mpr ⟨hi, rfl⟩
    rw [h.project_eq fun t op hop => (howner t op hop).2, Vars.threadStatements, if_pos ht,
      project_flatMap (nodup_luaFor hn _ _) hmem
        fun j hj => project_tableStatements_of_ne hj _,
      project_tableStatements, hempty i hi.1 hi.2, hserver.run_table, hacts _ ht i hmem,
      Vars.filled, if_pos hi]
  · rw [h.project_eq_nil fun t op hop => hi (howner t op hop).1, run_nil, Vars.filled, if_neg hi]

end Threads

/-- `thread_init` of `parallel_prepare.lua`, in any number of threads. The code stays inside the
bulk-insert buffers, and if the server accepts the statements then, in whatever order they arrive,
every table exists in the end with its index and with all its rows in order. -/
theorem parallelPrepare_fills {server : Option Table → Op → Option (Option Table)}
    (hserver : TableServer server) {vars : Vars} (hknown : vars.Known) {n : ℕ} (hn : 0 < n)
    {con : ℕ → DbConn} (hcon : ∀ t < n, ∃ d, (con t).driver = some d ∧ Describes d)
    {env : ℕ → ℕ → TableEnv} (hmemory : ∀ t i, (env t i).block ≠ none) :
    ∃ (res : ℕ → Except LuaError Unit) (con' : ℕ → DbConn) (log : ℕ → List Query),
      (∀ t < n, exec (vars.threadInit n t (env t)) (con t) = some (res t, con' t) ∧
        (con' t).sent = (con t).sent ++ log t) ∧
      ((∀ t < n, Succeeded (log t)) → (∀ t < n, res t = .ok ()) ∧
        ∃ statements : ℕ → List Statement,
          (∀ t < n, log t = (statements t).map vars.accepted) ∧
          ∀ (events : List (ℕ × Statement)) (tables : Tables),
            Interleaves events (fun t => if t < n then statements t else []) →
            (∀ i, 1 ≤ i → i ≤ vars.tablesCount → tables (some i) = none) →
            run (keyedStep server) tables (events.map Prod.snd) =
              some (vars.filled (fun i => vars.rows (env ((i - 1) % n) i).draws) tables)) := by
  have hthread : ∀ t, ∃ res con' log, t < n →
      (exec (vars.threadInit n t (env t)) (con t) = some (res, con') ∧
        con'.sent = (con t).sent ++ log) ∧
      (Succeeded log → res = .ok () ∧ ∃ acts : ℕ → List (Action CString),
        log = (vars.threadStatements n (fun _ => acts) t).map vars.accepted ∧
        ∀ i ∈ luaFor (t + 1) vars.tablesCount n,
          (groups (acts i)).flatten = vars.rows (env t i).draws) := by
    intro t
    by_cases ht : t < n
    · obtain ⟨d, hd, hdescribes⟩ := hcon t ht
      obtain ⟨res, con', log, hexec, -, hsent, hok⟩ :=
        logsOn_tables hdescribes hknown (hmemory t) hn (t + 1) (con t) hd
      refine ⟨res, con', log, fun _ => ⟨⟨hexec, hsent⟩, fun hs => ?_⟩⟩
      obtain ⟨_, hres, acts, hlog, hacts⟩ := hok hs
      refine ⟨hres, acts, ?_, hacts⟩
      rw [hlog, Vars.threadStatements, if_pos ht]
    · exact ⟨.ok (), con t, [], fun h => absurd h ht⟩
  choose res con' log hthread using hthread
  refine ⟨res, con', log, fun t ht => (hthread t ht).1, fun hs => ?_⟩
  refine ⟨fun t ht => ((hthread t ht).2 (hs t ht)).1, ?_⟩
  have hacts : ∀ t, ∃ acts : ℕ → List (Action CString), t < n →
      log t = (vars.threadStatements n (fun _ => acts) t).map vars.accepted ∧
        ∀ i ∈ luaFor (t + 1) vars.tablesCount n,
          (groups (acts i)).flatten = vars.rows (env t i).draws := by
    intro t
    by_cases ht : t < n
    · obtain ⟨-, acts, h⟩ := (hthread t ht).2 (hs t ht)
      exact ⟨acts, fun _ => h⟩
    · exact ⟨fun _ => [], fun h => absurd h ht⟩
  choose acts hacts using hacts
  refine ⟨vars.threadStatements n acts, fun t ht => (hacts t ht).1, ?_⟩
  intro events tables hevents hempty
  have hinterleaves : Interleaves events (vars.threadStatements n acts) := by
    intro t
    rw [hevents t]
    dsimp only [Vars.threadStatements]
    split_ifs <;> rfl
  refine run_threadStatements hserver hn (fun t ht i hi => ?_) hinterleaves hempty
  rw [(hacts t ht).2 i hi, ((mem_luaFor_thread ht).mp hi).2]

def smallVars : Vars where
  dbDriver := some (lit "pgsql")
  secondary := false
  autoInc := true
  tableSize := 2
  tablesCount := 3
  tableSize_lt := by decide
  tablesCount_lt := by decide
  mysqlTableEngine := none
  myisamMaxRows := none
  mysqlTableOptions := none

def smallEnv : TableEnv where
  block := some (List.Vector.replicate _ 0)
  draws := fun _ => ⟨fun _ => ⟨0, by decide⟩, fun _ => ⟨0, by decide⟩, 1#32⟩

theorem parallelPrepare_fills_small :
    ∃ (res : ℕ → Except LuaError Unit) (con' : ℕ → DbConn) (log : ℕ → List Query),
      (∀ t < 2, exec (smallVars.threadInit 2 t fun _ => smallEnv) commitConn =
          some (res t, con' t) ∧ (con' t).sent = commitConn.sent ++ log t) ∧
      ((∀ t < 2, Succeeded (log t)) → (∀ t < 2, res t = .ok ()) ∧
        ∃ statements : ℕ → List Statement,
          (∀ t < 2, log t = (statements t).map smallVars.accepted) ∧
          ∀ (events : List (ℕ × Statement)) (tables : Tables),
            Interleaves events (fun t => if t < 2 then statements t else []) →
            (∀ i, 1 ≤ i → i ≤ smallVars.tablesCount → tables (some i) = none) →
            run (keyedStep serverStep) tables (events.map Prod.snd) =
              some (smallVars.filled (fun _ => smallVars.rows smallEnv.draws) tables)) :=
  @parallelPrepare_fills serverStep serverStep_tableServer smallVars (Or.inr rfl) 2 (by decide)
    (fun _ => commitConn) (fun _ _ => ⟨_, rfl, _, rfl⟩) (fun _ _ => smallEnv) fun _ _ h => by cases h

end Sysbench.Database.CommonLua
