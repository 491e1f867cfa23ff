import Sysbench.Database.Bind
import Sysbench.Database.BulkCalls
import Sysbench.Database.Restart
import Sysbench.Fileio.Requests

/-! # Creating the test tables

`create_insert` of `common.lua` creates one table with an index and fills it by a bulk insert;
`prepare` does so for all tables in one connection, and `thread_init` of `parallel_prepare.lua`
for the tables of one thread. An error that the API throws ends the function.
-/
namespace Sysbench.Database.CommonLua

open Bytes CStrings Words
open Event (LuaError)
open Fileio (Draw)

/-! ## Functions of the script -/

/-- A Lua function with a connection. There is no result where the memory is violated. -/
abbrev LuaM := ExceptT LuaError (StateT DbConn Option)

def exec {α : Type} (f : LuaM α) (con : DbConn) : Option (Except LuaError α × DbConn) :=
  (f.run).run con

theorem exec_bind {α β : Type} (f : LuaM α) (g : α → LuaM β) (con : DbConn) :
    exec (f >>= g) con = (exec f con).bind fun
      | (.ok a, con) => exec (g a) con
      | (.error e, con) => some (.error e, con) := by
  show (StateT.run (ExceptT.run (f >>= g)) con) = _
  rw [ExceptT.run_bind, StateT.run_bind]
  show Option.bind (exec f con) _ = Option.bind (exec f con) _
  congr 1
  funext r
  obtain ⟨_ | _, con'⟩ := r <;> rfl

def dbQueryCall (query : CString) : LuaM Unit :=
  ExceptT.mk fun con => some (Event.sbLuaDbQuery con query)

/-- `block` is what `malloc` returns. -/
def sbLuaDbBulkInsertInit (con : DbConn) (block : Option (List.Vector Byte bulkPacketSize))
    (query : CString) : Option (Except LuaError Unit × DbConn) :=
  (dbBulkInsertInit con block query).map fun
    | (.ok (), con) => (.ok (), con)
    | (.error _, con) => (.error .message, con)

def dbBulkInsertInitCall (block : Option (List.Vector Byte bulkPacketSize)) (query : CString) :
    LuaM Unit :=
  ExceptT.mk fun con => sbLuaDbBulkInsertInit con block query

def dbBulkInsertNextCall (query : CString) : LuaM Unit :=
  ExceptT.mk fun con => Event.sbLuaDbBulkInsertNext con query

def dbBulkInsertDoneCall : LuaM Unit := ExceptT.mk Event.sbLuaDbBulkInsertDone

def luaFor (first last step : ℕ) : List ℕ :=
  if first ≤ last then (List.range ((last - first) / step + 1)).map fun k => first + k * step
  else []

/-! ## Random strings -/

/-- `sb_rand_str`, with the draw for the character at each place. -/
def sbRandStrChars (fmt : List Byte) (rnd : ℕ → Draw) : List Byte :=
  fmt.mapIdx fun i c =>
    if c = charByte '#' then BitVec.ofNat 8 ('0'.toNat + (rnd i : ℕ) % 10)
    else if c = charByte '@' then BitVec.ofNat 8 ('a'.toNat + (rnd i : ℕ) % 26)
    else c

theorem sbRandStrChars_ne_zero {fmt : List Byte} (h : (0 : Byte) ∉ fmt) (rnd : ℕ → Draw) :
    (0 : Byte) ∉ sbRandStrChars fmt rnd := by
  have hrange : ∀ low n m : ℕ, 1 ≤ low → low + n ≤ 256 → 0 < n →
      (0 : Byte) ≠ BitVec.ofNat 8 (low + m % n) := by
    intro low n m hlow hhigh hn hzero
    have hmod := Nat.mod_lt m hn
    have := congrArg BitVec.toNat hzero
    rw [BitVec.toNat_ofNat, Nat.mod_eq_of_lt (by omega)] at this
    simp at this
    omega
  intro hmem
  obtain ⟨i, hi, hc⟩ := List.mem_mapIdx.mp hmem
  split_ifs at hc
  · exact hrange _ _ _ (by decide) (by decide) (by decide) hc.symm
  · exact hrange _ _ _ (by decide) (by decide) (by decide) hc.symm
  · exact h (hc ▸ List.getElem_mem hi)

def sbRandStr (fmt : CString) (rnd : ℕ → Draw) : CString :=
  ⟨sbRandStrChars fmt.chars rnd, sbRandStrChars_ne_zero fmt.noNul rnd⟩

@[simp] theorem length_sbRandStr (fmt : CString) (rnd : ℕ → Draw) :
    (sbRandStr fmt rnd).length = fmt.length := by
  simp [sbRandStr, CString.length, sbRandStrChars]

/-! ## The texts -/

def lit (s : String) : CString := CString.ofBytes (s.toList.map charByte)

/-- `set_vars` has run. A number stands for itself in a text below the 15 digits of `%.14g`. -/
structure Vars where
  dbDriver : Option CString
  secondary : Bool
  autoInc : Bool
  tableSize : ℕ
  tablesCount : ℕ
  tableSize_lt : tableSize < 10 ^ 14
  tablesCount_lt : tablesCount < 10 ^ 14
  mysqlTableEngine : Option CString
  myisamMaxRows : Option CString
  mysqlTableOptions : Option CString

def Vars.indexName (vars : Vars) : CString :=
  if vars.secondary then lit "KEY xid" else lit "PRIMARY KEY"

def Vars.autoIncText (vars : Vars) : CString :=
  if vars.autoInc then lit "AUTO_INCREMENT" else lit ""

def tableName (i : ℕ) : CString := lit "sbtest" ++ decimal i

def textColumns : CString :=
  lit "c CHAR(120) DEFAULT '' NOT NULL,\npad CHAR(60) DEFAULT '' NOT NULL,\n"

def luaText : Option CString → Except LuaError CString
  | some s => .ok s
  | none => .error .message

/-- The text of CREATE TABLE. There is none for an unknown driver. -/
def Vars.createTable (vars : Vars) (i : ℕ) : Except LuaError (Option CString) :=
  if vars.dbDriver = some (lit "mysql") ∨ vars.dbDriver = some (lit "attachsql") then do
    let engine ← luaText vars.mysqlTableEngine
    let maxRows ← luaText vars.myisamMaxRows
    pure (some (lit "CREATE TABLE " ++ tableName i ++
      lit " (\nid INTEGER UNSIGNED NOT NULL " ++ vars.autoIncText ++
      lit ",\nk INTEGER UNSIGNED DEFAULT '0' NOT NULL,\n" ++ textColumns ++ vars.indexName ++
      lit " (id)\n) /*! ENGINE = " ++ engine ++ lit " MAX_ROWS = " ++ maxRows ++ lit " */ " ++
      vars.mysqlTableOptions.getD (lit "")))
  else if vars.dbDriver = some (lit "pgsql") then
    pure (some (lit "CREATE TABLE " ++ tableName i ++ lit " (\nid SERIAL NOT NULL" ++
      lit ",\nk INTEGER DEFAULT '0' NOT NULL,\n" ++ textColumns ++ vars.indexName ++
      lit " (id)\n) "))
  else if vars.dbDriver = some (lit "drizzle") then
    pure (some (lit "CREATE TABLE sbtest (\nid INTEGER NOT NULL " ++ vars.autoIncText ++
      lit ",\nk INTEGER DEFAULT '0' NOT NULL,\n" ++ textColumns ++ vars.indexName ++
      lit " (id)\n) "))
  else do
    -- The message names the driver.
    let _ ← luaText vars.dbDriver
    pure none

def createIndexText (i : ℕ) : CString :=
  lit "CREATE INDEX k_" ++ decimal i ++ lit " on " ++ tableName i ++ lit "(k)"

def Vars.insertHeader (vars : Vars) (i : ℕ) : CString :=
  lit "INSERT INTO " ++ tableName i ++
    if vars.autoInc then lit "(k, c, pad) VALUES" else lit "(id, k, c, pad) VALUES"

def padFormat : CString := lit "###########-###########-###########-###########-###########"

def cFormat : CString := padFormat ++ lit "-" ++ padFormat

structure RowDraws where
  c : ℕ → Draw
  pad : ℕ → Draw
  /-- The `int` that `sb_rand` returns. -/
  k : BitVec 32

def Vars.row (vars : Vars) (d : RowDraws) (j : ℕ) : CString :=
  let cVal := sbRandStr cFormat d.c
  let padVal := sbRandStr padFormat d.pad
  if vars.autoInc then
    lit "(" ++ decimal d.k.toInt ++ lit ", '" ++ cVal ++ lit "', '" ++ padVal ++ lit "')"
  else
    lit "(" ++ decimal j ++ lit "," ++ decimal d.k.toInt ++ lit ",'" ++ cVal ++ lit "', '" ++
      padVal ++ lit "'  )"

/-! ## The functions -/

structure TableEnv where
  block : Option (List.Vector Byte bulkPacketSize)
  draws : ℕ → RowDraws

def bulkInsert (header : CString) (block : Option (List.Vector Byte bulkPacketSize))
    (rows : List CString) : LuaM Unit := do
  dbBulkInsertInitCall block header
  rows.forM dbBulkInsertNextCall
  dbBulkInsertDoneCall

def Vars.rows (vars : Vars) (draws : ℕ → RowDraws) : List CString :=
  (luaFor 1 vars.tableSize 1).map fun j => vars.row (draws j) j

def Vars.createInsert (vars : Vars) (env : TableEnv) (i : ℕ) : LuaM (Option ℕ) := do
  match ← (ExceptT.mk (pure (vars.createTable i)) : LuaM (Option CString)) with
  | none => return some 1
  | some query =>
    dbQueryCall query
    dbQueryCall (createIndexText i)
    bulkInsert (vars.insertHeader i) env.block (vars.rows env.draws)
    return none

def Vars.prepare (vars : Vars) (env : ℕ → TableEnv) : LuaM ℕ := do
  (luaFor 1 vars.tablesCount 1).forM fun i => discard (vars.createInsert (env i) i)
  return 0

def Vars.threadInit (vars : Vars) (numThreads threadId : ℕ) (env : ℕ → TableEnv) : LuaM Unit :=
  (luaFor (threadId + 1) vars.tablesCount numThreads).forM fun i =>
    discard (vars.createInsert (env i) i)

def dropText (i : ℕ) : CString := lit "DROP TABLE " ++ tableName i

def Vars.cleanup (vars : Vars) : LuaM Unit :=
  (luaFor 1 vars.tablesCount 1).forM fun i => dbQueryCall (dropText i)

end Sysbench.Database.CommonLua
