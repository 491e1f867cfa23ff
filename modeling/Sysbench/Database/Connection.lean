import Sysbench.Machine.CStrings

/-! # Database connections

A driver answers each query with a `db_error_t`. Its answer may depend on everything it
was asked before, so any pattern of successes and failures is some driver.
-/
namespace Sysbench.Database

open Bytes CStrings

inductive DbError
  | none
  | restartTransaction
  | reconnected
  | failed
deriving DecidableEq

def DbError.errno : DbError → DbError
  | .reconnected => .restartTransaction
  | error => error

structure DrvCaps where
  multiRowsInsert : Bool
  needsCommit : Bool
deriving DecidableEq

structure Query where
  text : CString
  answer : DbError
deriving DecidableEq

/-- `describe` may be missing, and it may fail. -/
structure DbDriver where
  describe : Option (Option DrvCaps)
  query : List Query → CString → DbError

structure DbConn where
  driver : Option DbDriver
  dbErrno : DbError
  bulkSupported : Bool
  bulkCnt : ℕ
  bulkBuffer : Option (List Byte)
  bulkBuflen : ℕ
  bulkPtr : ℕ
  bulkPtrOrig : ℕ
  bulkCommitCnt : ℕ
  bulkCommitMax : ℕ
  /-- The queries that the driver was given on this connection, with its answers. -/
  sent : List Query

def dbDescribe (drv : DbDriver) : Option DrvCaps :=
  match drv.describe with
  | none => none
  | some describe => describe

/-- The result is `false` where `db_query` returns NULL. -/
def dbQuery (con : DbConn) (query : CString) : Bool × DbConn :=
  match con.driver with
  | none => (false, con)
  | some driver =>
    let answer := driver.query con.sent query
    let con := { con with sent := con.sent ++ [Query.mk query answer] }
    match answer with
    | .none => (true, { con with dbErrno := .none })
    | .reconnected => (false, { con with dbErrno := .restartTransaction })
    | error => (false, { con with dbErrno := error })

/-- The state after the queries `log`, which touch only the commit counter and `db_errno`. -/
def DbConn.queried (con : DbConn) (c : ℕ) (e : DbError) (log : List Query) : DbConn :=
  { con with bulkCommitCnt := c, dbErrno := e, sent := con.sent ++ log }

theorem DbConn.queried_queried (con : DbConn) (c c' : ℕ) (e e' : DbError) (log log' : List Query) :
    (con.queried c e log).queried c' e' log' = con.queried c' e' (log ++ log') := by
  unfold queried
  rw [List.append_assoc]

/-- A query only appends to the record and sets `db_errno`. It succeeds exactly if the
driver says so. -/
theorem dbQuery_eq (con : DbConn) {driver : DbDriver} (hd : con.driver = some driver)
    (query : CString) : ∃ answer errno, dbQuery con query =
      (decide (answer = .none), con.queried con.bulkCommitCnt errno [⟨query, answer⟩]) := by
  unfold dbQuery
  split
  · next hnone => cases hd.symm.trans hnone
  · next driver' _ =>
    cases driver'.query con.sent query with
    | none => exact ⟨.none, .none, rfl⟩
    | restartTransaction => exact ⟨.restartTransaction, .restartTransaction, rfl⟩
    | reconnected => exact ⟨.reconnected, .restartTransaction, rfl⟩
    | failed => exact ⟨.failed, .failed, rfl⟩

end Sysbench.Database
