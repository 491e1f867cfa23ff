import Sysbench.Database.PrepareTables

/-! # From the preparation to the cleanup

The cleanup of `common.lua` drops what `prepare` has created. The threads of `bulk_insert.lua`
number their tables from 0, in which its cleanup does not follow them.
-/
namespace Sysbench.Database.CommonLua

open Bytes CStrings Words Batches Runs KeyedRuns
open Event (LuaError)

/-! ## Dropping tables -/

def drops (last : ℕ) : List Statement := (luaFor 1 last 1).flatMap fun i => [(some i, .drop)]

theorem mem_luaFor_one {i last : ℕ} : i ∈ luaFor 1 last 1 ↔ 1 ≤ i ∧ i ≤ last := by
  rw [mem_luaFor (by omega)]
  exact ⟨fun h => ⟨h.1, h.2.1⟩, fun h => ⟨h.1, h.2, one_dvd _⟩⟩

theorem project_drops_none (last : ℕ) : project none (drops last) = [] :=
  project_flatMap_eq_nil fun _ _ => project_cons_of_ne (by simp) _ _

theorem project_drops (last i : ℕ) :
    project (some i) (drops last) = if 1 ≤ i ∧ i ≤ last then [.drop] else [] := by
  have hother : ∀ j, j ≠ i → project (some i) [((some j : Option ℕ), Op.drop)] = [] :=
    fun j hj => project_cons_of_ne (by simpa using hj) _ _
  split_ifs with hi
  · rw [drops, project_flatMap (nodup_luaFor (by omega) 1 last) (mem_luaFor_one.mpr hi) hother]
    exact project_cons_self _ _ _
  · refine project_flatMap_eq_nil fun j hj => hother j ?_
    rintro rfl
    exact hi (mem_luaFor_one.mp hj)

theorem logsOn_drops {d : DbDriver} (last : ℕ) :
    LogsOn d ((luaFor 1 last 1).forM fun i => dbQueryCall (dropText i)) fun _ log =>
      log = (luaFor 1 last 1).flatMap fun i => [⟨dropText i, .none⟩] := by
  have hturn : ∀ i ∈ luaFor 1 last 1, LogsOn d (dbQueryCall (dropText i)) fun _ log =>
      ∃ _ : Unit, log = [⟨dropText i, .none⟩] ∧ True :=
    fun i _ => (logsOn_query _).imp fun _ _ hlog => ⟨(), hlog, trivial⟩
  refine (LogsOn.forM (nodup_luaFor (by omega) 1 last) hturn).imp ?_
  rintro _ _ ⟨_, hlog, -⟩
  exact hlog

theorem map_accepted_drops (vars : Vars) (last : ℕ) :
    (drops last).map vars.accepted = (luaFor 1 last 1).flatMap fun i => [⟨dropText i, .none⟩] :=
  List.map_flatMap

/-! ## The tables of `common.lua` -/

/-- The tables that `prepare` has filled are gone after the cleanup, and nothing else is. -/
theorem prepare_cleanup_restores {server : Option Table → Op → Option (Option Table)}
    (hserver : TableServer server) {vars : Vars} (hknown : vars.Known) {con con₀ : DbConn}
    {d d₀ : DbDriver} (hd : con.driver = some d) (hdescribes : Describes d)
    (hd₀ : con₀.driver = some d₀) {env : ℕ → TableEnv} (hmemory : ∀ i, (env i).block ≠ none) :
    ∃ res con' log res₀ con₀' log₀, exec (vars.prepare env) con = some (res, con') ∧
      con'.sent = con.sent ++ log ∧ exec vars.cleanup con₀ = some (res₀, con₀') ∧
      con₀'.sent = con₀.sent ++ log₀ ∧
      (Succeeded log → Succeeded log₀ → res = .ok 0 ∧ res₀ = .ok () ∧
        ∃ made dropped : List Statement, log = made.map vars.accepted ∧
          log₀ = dropped.map vars.accepted ∧
          ∀ tables : Tables, (∀ i, 1 ≤ i → i ≤ vars.tablesCount → tables (some i) = none) →
            run (keyedStep server) tables made =
                some (vars.filled (fun i => vars.rows (env i).draws) tables) ∧
              run (keyedStep server) tables (made ++ dropped) = some tables) := by
  obtain ⟨res, con', log, hexec, -, hsent, hok⟩ :=
    ((logsOn_tables hdescribes hknown hmemory Nat.one_pos 1).bind fun _ => logsOn_pure 0) con hd
  obtain ⟨res₀, con₀', log₀, hexec₀, -, hsent₀, hok₀⟩ := logsOn_drops vars.tablesCount con₀ hd₀
  refine ⟨res, con', log, res₀, con₀', log₀, hexec, hsent, hexec₀, hsent₀, fun hs hs₀ => ?_⟩
  obtain ⟨_, rfl, _, _, _, ⟨acts, rfl, hacts⟩, ⟨rfl, rfl⟩, rfl⟩ := hok hs
  obtain ⟨_, rfl, rfl⟩ := hok₀ hs₀
  refine ⟨rfl, rfl, vars.threadStatements 1 (fun _ => acts) 0, drops vars.tablesCount, ?_,
    (map_accepted_drops vars _).symm, fun tables hempty => ?_⟩
  · rw [List.append_nil]
    rfl
  have hmade : run (keyedStep server) tables (vars.threadStatements 1 (fun _ => acts) 0) =
      some (vars.filled (fun i => vars.rows (env i).draws) tables) := by
    have hinterleaves := @interleaves_single _ _ _ 0 _ (vars.threadStatements 1 fun _ => acts) rfl
      fun t ht => if_neg (by omega)
    have hrun := @run_threadStatements vars 1 (fun _ => acts) server hserver Nat.one_pos
      (fun i => vars.rows (env i).draws) (fun t ht i hi => ?_) _ hinterleaves tables hempty
    · rwa [List.map_map, show (Prod.snd ∘ fun q : Statement => (0, q)) = id from rfl,
        List.map_id] at hrun
    · obtain rfl := Nat.lt_one_iff.mp ht
      exact hacts i hi
  refine ⟨hmade, ?_⟩
  rw [run_append, hmade, Option.bind_some, run_keyedStep_iff]
  rintro (_ | i)
  · rw [project_drops_none]
    rfl
  · rw [project_drops, Vars.filled]
    split_ifs with hi
    · rw [hempty i hi.1 hi.2, run_cons, hserver.drop]
      rfl
    · rfl

theorem prepare_cleanup_restores_small :
    ∃ res con' log res₀ con₀' log₀,
      exec (smallVars.prepare fun _ => smallEnv) commitConn = some (res, con') ∧
      con'.sent = commitConn.sent ++ log ∧
      exec smallVars.cleanup commitConn = some (res₀, con₀') ∧
      con₀'.sent = commitConn.sent ++ log₀ ∧
      (Succeeded log → Succeeded log₀ → res = .ok 0 ∧ res₀ = .ok () ∧
        ∃ made dropped : List Statement, log = made.map smallVars.accepted ∧
          log₀ = dropped.map smallVars.accepted ∧
          ∀ tables : Tables, (∀ i, 1 ≤ i → i ≤ smallVars.tablesCount → tables (some i) = none) →
            run (keyedStep serverStep) tables made =
                some (smallVars.filled (fun _ => smallVars.rows smallEnv.draws) tables) ∧
              run (keyedStep serverStep) tables (made ++ dropped) = some tables) :=
  prepare_cleanup_restores serverStep_tableServer (Or.inr rfl) rfl ⟨_, rfl⟩ rfl
    fun _ h => by cases h

/-! ## The tables of `bulk_insert.lua` -/

structure BulkTest where
  tableSize : ℕ
  tableSize_lt : tableSize < 10 ^ 14
  numThreads : ℕ
  numThreads_pos : 0 < numThreads
  numThreads_lt : numThreads < 2 ^ 32

namespace BulkTest

def createText (i : ℕ) : CString :=
  lit "CREATE TABLE IF NOT EXISTS " ++ tableName i ++
    lit " (\nid INTEGER UNSIGNED NOT NULL,\nk INTEGER UNSIGNED DEFAULT '0' NOT NULL,\n" ++
    lit "PRIMARY KEY (id)\n) ENGINE = InnoDB\n"

def header (i : ℕ) : CString := lit "INSERT INTO " ++ tableName i ++ lit " VALUES"

def row (i : ℕ) : CString := lit "(" ++ decimal i ++ lit "," ++ decimal i ++ lit ")"

def rows (vars : BulkTest) : List CString := (luaFor 1 vars.tableSize 1).map row

def event (vars : BulkTest) (block : Option (List.Vector Byte bulkPacketSize)) (threadId : ℕ) :
    LuaM Unit := do
  dbQueryCall (lit "DROP TABLE IF EXISTS " ++ tableName threadId)
  dbQueryCall (createText threadId)
  bulkInsert (header threadId) block vars.rows

def cleanup (vars : BulkTest) : LuaM Unit :=
  (luaFor 1 vars.numThreads 1).forM fun i => dbQueryCall (dropText i)

/-- The text of a statement of `bulk_insert.lua`, which has no others. -/
def render : Statement → CString
  | (some i, .dropIfExists) => lit "DROP TABLE IF EXISTS " ++ tableName i
  | (some i, .createIfNotExists) => createText i
  | (some i, .insert rows) => insertText (header i) rows
  | (some i, .drop) => dropText i
  | (_, .commit) => commitText
  | _ => lit ""

def accepted (q : Statement) : Query := ⟨render q, .none⟩

def eventStatements (i : ℕ) (acts : List (Action CString)) : List Statement :=
  (some i, .dropIfExists) :: (some i, .createIfNotExists) :: acts.map (actionStatement i)

theorem length_header {i : ℕ} (hi : i < 2 ^ 32) : (header i).length ≤ 100 := by
  have hname : (decimal i).length ≤ 15 :=
    length_decimal_le (by omega) (by simp only [Int.natAbs_natCast]; omega)
  have hinto : (lit "INSERT INTO ").length ≤ 12 := by decide
  have htable : (lit "sbtest").length ≤ 6 := by decide
  have hvalues : (lit " VALUES").length ≤ 7 := by decide
  unfold header tableName
  simp only [CString.length_append]
  omega

theorem rows_fit (vars : BulkTest) {i : ℕ} (hi : i < 2 ^ 32) :
    ∀ r ∈ vars.rows, Fits (header i) [r] := by
  intro r hr
  obtain ⟨j, hj, rfl⟩ := List.mem_map.mp hr
  have hlt : j < 10 ^ 14 := (mem_luaFor_one.mp hj).2.trans_lt vars.tableSize_lt
  have hid : (decimal j).length ≤ 15 := length_decimal_le (by omega) (by simpa using hlt)
  have hopen : (lit "(").length ≤ 1 := by decide
  have hcomma : (lit ",").length ≤ 1 := by decide
  have hclose : (lit ")").length ≤ 1 := by decide
  have hheader := length_header hi
  unfold Fits bulkPacketSize
  simp only [insertText_singleton, row, CString.length_append]
  omega

section Events

variable {vars : BulkTest} {d : DbDriver}

theorem logsOn_event (hdescribes : Describes d) (memory : List.Vector Byte bulkPacketSize) {i : ℕ}
    (hi : i < 2 ^ 32) :
    LogsOn d (vars.event (some memory) i) fun _ log => ∃ acts : List (Action CString),
      log = (eventStatements i acts).map accepted ∧ (groups acts).flatten = vars.rows := by
  have hheader : (header i).length + 1 ≤ bulkPacketSize := by
    have := length_header hi
    unfold bulkPacketSize
    omega
  refine ((logsOn_query _).bind fun _ => (logsOn_query _).bind fun _ =>
    logsOn_bulkInsert hdescribes hheader (vars.rows_fit hi) memory).imp ?_
  rintro _ _ ⟨_, _, _, rfl, ⟨_, _, _, rfl, ⟨acts, rfl, hacts⟩, rfl⟩, rfl⟩
  refine ⟨acts, ?_, hacts⟩
  have hactions : acts.map (actionQuery (header i)) =
      (acts.map (actionStatement i)).map accepted := by
    rw [List.map_map]
    refine List.map_congr_left fun a _ => ?_
    cases a <;> rfl
  rw [eventStatements, List.map_cons, List.map_cons, ← hactions]
  rfl

theorem logsOn_events (hdescribes : Describes d) {block : ℕ → List.Vector Byte bulkPacketSize}
    {i : ℕ} (hi : i < 2 ^ 32) (k : ℕ) :
    LogsOn d ((List.range k).forM fun j => vars.event (some (block j)) i) fun _ log =>
      ∃ acts : ℕ → List (Action CString),
        log = ((List.range k).flatMap fun j => eventStatements i (acts j)).map accepted ∧
        ∀ j ∈ List.range k, (groups (acts j)).flatten = vars.rows := by
  refine (LogsOn.forM List.nodup_range fun j _ =>
    logsOn_event hdescribes (block j) hi).imp ?_
  rintro _ _ ⟨acts, rfl, hacts⟩
  exact ⟨acts, List.map_flatMap.symm, hacts⟩

end Events

theorem project_eventStatements (i : ℕ) (acts : List (Action CString)) :
    project (some i) (eventStatements i acts) =
      .dropIfExists :: .createIfNotExists :: (groups acts).map .insert := by
  rw [eventStatements, project_cons_self, project_cons_self, project_actions]

theorem project_eventStatements_of_ne {i j : ℕ} (h : j ≠ i) (acts : List (Action CString)) :
    project (some i) (eventStatements j acts) = [] := by
  have hj : (some j : Option ℕ) ≠ some i := by simpa using h
  rw [eventStatements, project_cons_of_ne hj, project_cons_of_ne hj, project_actions_of_ne h]

section Server

variable {server : Option Table → Op → Option (Option Table)}

theorem run_event (hserver : TableServer server) (t : Option Table) (gs : List (List CString)) :
    run server t (.dropIfExists :: .createIfNotExists :: gs.map .insert) =
      some (some ⟨false, gs.flatten⟩) := by
  rw [run_cons, hserver.dropIfExists, Option.bind_some, run_cons, hserver.createIfNotExists,
    Option.bind_some]
  exact hserver.run_inserts ⟨false, []⟩ gs

/-- The last of some events decides. -/
theorem run_events (hserver : TableServer server) {gs : ℕ → List (List CString)}
    {rows : List CString} {k : ℕ} (h : ∀ j < k, (gs j).flatten = rows) (t : Option Table) :
    run server t ((List.range k).flatMap fun j =>
        .dropIfExists :: .createIfNotExists :: (gs j).map .insert) =
      some (if k = 0 then t else some ⟨false, rows⟩) := by
  induction k with
  | zero => rfl
  | succ k ih =>
    rw [List.range_succ, List.flatMap_append, run_append, ih fun j hj => h j (by omega),
      Option.bind_some, List.flatMap_singleton, run_event hserver, h k (Nat.lt_succ_self k),
      if_neg (Nat.succ_ne_zero k)]

end Server

def threadStatements (vars : BulkTest) (k : ℕ → ℕ) (acts : ℕ → ℕ → List (Action CString)) (t : ℕ) :
    List Statement :=
  if t < vars.numThreads then (List.range (k t)).flatMap fun j => eventStatements t (acts t j)
  else []

section Threads

variable {vars : BulkTest} {k : ℕ → ℕ} {acts : ℕ → ℕ → List (Action CString)} {t : ℕ}

theorem mem_threadStatements {key : Option ℕ} {op : Op}
    (h : (key, op) ∈ vars.threadStatements k acts t) :
    t < vars.numThreads ∧ (key = some t ∨ key = none ∧ op = .commit) := by
  unfold threadStatements at h
  split_ifs at h with ht
  case neg => cases h
  refine ⟨ht, ?_⟩
  obtain ⟨j, -, hj⟩ := List.mem_flatMap.mp h
  cases key with
  | none =>
    simp only [eventStatements, List.mem_cons, Prod.mk.injEq, reduceCtorEq, false_and,
      false_or] at hj
    exact .inr ⟨rfl, mem_actions_none hj⟩
  | some i =>
    refine .inl (congrArg some ?_)
    by_contra hne
    have hmem := mem_project.mpr hj
    rw [project_eventStatements_of_ne (Ne.symm hne)] at hmem
    cases hmem

/-- In whatever order the statements of the threads arrive, each thread's table is the one of its
last event. -/
theorem run_threadStatements {server : Option Table → Op → Option (Option Table)}
    (hserver : TableServer server) (hacts : ∀ t < vars.numThreads, ∀ j < k t,
      (groups (acts t j)).flatten = vars.rows)
    {events : List (ℕ × Statement)} (h : Interleaves events (vars.threadStatements k acts))
    (tables : Tables) : run (keyedStep server) tables (events.map Prod.snd) = some fun
      | some i => if i < vars.numThreads ∧ k i ≠ 0 then some ⟨false, vars.rows⟩ else tables (some i)
      | none => tables none := by
  rw [run_keyedStep_iff]
  rintro (_ | i)
  · refine hserver.run_commits (fun op hop => ?_) _
    obtain ⟨⟨t, q⟩, hmem, hq⟩ := List.mem_map.mp (mem_project.mp hop)
    obtain rfl : q = (none, op) := hq
    obtain ⟨-, hkey⟩ := mem_threadStatements ((h t) ▸ mem_project.mpr hmem)
    exact (hkey.resolve_left (by simp)).2
  have howner : ∀ t op, (some i, op) ∈ vars.threadStatements k acts t →
      i < vars.numThreads ∧ t = i := by
    intro t op hop
    obtain ⟨ht, hkey⟩ := mem_threadStatements hop
    obtain rfl : i = t := Option.some_inj.mp (hkey.resolve_right (by simp))
    exact ⟨ht, rfl⟩
  by_cases hi : i < vars.numThreads
  · have hown : project (some i) (vars.threadStatements k acts i) =
        (List.range (k i)).flatMap fun j =>
          .dropIfExists :: .createIfNotExists :: (groups (acts i j)).map .insert := by
      rw [threadStatements, if_pos hi]
      generalize List.range (k i) = js
      induction js with
      | nil => rfl
      | cons j js ih =>
        rw [List.flatMap_cons, project_append, ih, project_eventStatements, List.flatMap_cons]
    rw [h.project_eq fun t op hop => (howner t op hop).2, hown, run_events hserver (hacts i hi)]
    by_cases hk : k i = 0
    · simp [hk]
    · simp [hk, hi]
  · rw [h.project_eq_nil fun t op hop => hi (howner t op hop).1, run_nil]
    simp [hi]

end Threads

theorem project_take_zero (last m : ℕ) : project (some 0) ((drops last).take m) = [] := by
  rw [List.eq_nil_iff_forall_not_mem]
  intro op hop
  have hmem : (some 0, op) ∈ drops last := List.mem_of_mem_take (mem_project.mp hop)
  have hnone := mem_project.mpr hmem
  rw [project_drops, if_neg (by omega)] at hnone
  cases hnone

theorem three_rows_lt : 3 < 10 ^ 14 := by decide

theorem two_threads_lt : 2 < 2 ^ 32 := by decide

def smallTest : BulkTest := ⟨3, three_rows_lt, 2, Nat.two_pos, two_threads_lt⟩

end BulkTest

end Sysbench.Database.CommonLua
