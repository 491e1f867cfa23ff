import Sysbench.Database.Connection
import Sysbench.Machine.Pool

/-! # Statistics of the database tests

Each thread has six counters. A query raises some of them according to its text, or to the
error that the driver reports.
-/
namespace Sysbench.Database

open Bytes CStrings Pool

inductive DbQueryType where
  | read | write | commit | other
  deriving DecidableEq

inductive Counter where
  | readOps | writeOps | otherOps | transactions | errors | reconnects
  deriving DecidableEq

abbrev ThreadStats (n : ℕ) := Fin n → Counter → ℕ

inductive StatType where
  | intermediate | cumulative
  deriving DecidableEq

/-! ## Query types -/

/-- `!strncasecmp(query, word, strlen(word))` for a word in small letters. -/
def startsWithWord (query : List Byte) (word : String) : Bool :=
  (query.take word.length).map tolower = word.toList.map charByte

def dbGetQueryType (query : CString) : DbQueryType :=
  let query := query.chars.dropWhile isspace
  if startsWithWord query "select" then .read
  else if startsWithWord query "insert" || startsWithWord query "update" ||
      startsWithWord query "delete" then .write
  else if startsWithWord query "commit" || startsWithWord query "unlock tables" then .commit
  else .other

/-! ## Counters -/

def DbQueryType.counters : DbQueryType → List Counter
  | .read => [.readOps]
  | .write => [.writeOps]
  | .commit => [.otherOps, .transactions]
  | .other => [.otherOps]

/-- The counters that a query or the execution of a statement raises, by the driver's answer. -/
def DbError.counters (type : DbQueryType) : DbError → List Counter
  | .none => type.counters
  | .reconnected => [.reconnects]
  | .restartTransaction => [.errors]
  | .failed => []

variable {n : ℕ}

def initStats : ThreadStats n := fun _ _ => 0

def ThreadStats.raise (stats : ThreadStats n) (t : Fin n) (cs : List Counter) : ThreadStats n :=
  Function.update stats t fun c => if c ∈ cs then stats t c + 1 else stats t c

/-- `thread_stats[id]` is changed under its mutex. -/
def dbUpdateThreadStats (t : Fin n) (type : DbQueryType) (stats : ThreadStats n) : ThreadStats n :=
  stats.raise t type.counters

def dbQueryStats (t : Fin n) (query : CString) (answer : DbError) (stats : ThreadStats n) :
    ThreadStats n := stats.raise t (answer.counters (dbGetQueryType query))

/-- What `db_execute` does for a statement of the given type. -/
def dbExecuteStats (t : Fin n) (type : DbQueryType) (answer : DbError) (stats : ThreadStats n) :
    ThreadStats n := stats.raise t (answer.counters type)

def ThreadStats.clear (stats : ThreadStats n) (t : Fin n) (c : Counter) : ThreadStats n :=
  Function.update stats t (Function.update (stats t) c 0)

def ThreadStats.sum (stats : ThreadStats n) (c : Counter) : ℕ := ∑ i, stats i c

theorem ThreadStats.sum_raise (stats : ThreadStats n) (t : Fin n) (cs : List Counter)
    (c : Counter) : (stats.raise t cs).sum c = stats.sum c + if c ∈ cs then 1 else 0 := by
  have hsum := sum_update (fun st : Counter → ℕ => st c) stats t
    fun c => if c ∈ cs then stats t c + 1 else stats t c
  unfold ThreadStats.sum ThreadStats.raise
  dsimp only at hsum
  split at hsum <;> simp_all only [if_true, if_false] <;> omega

theorem ThreadStats.sum_clear (stats : ThreadStats n) (t : Fin n) (c c' : Counter) :
    (stats.clear t c).sum c' + (if c = c' then stats t c else 0) = stats.sum c' := by
  have hsum := sum_update (fun st : Counter → ℕ => st c') stats t (Function.update (stats t) c 0)
  unfold ThreadStats.sum ThreadStats.clear
  by_cases hc : c = c'
  · subst hc
    simpa using hsum
  · rw [Function.update_of_ne (Ne.symm hc)] at hsum
    rw [if_neg hc]
    exact Nat.add_right_cancel hsum

theorem ThreadStats.sum_zero (c : Counter) : (initStats : ThreadStats n).sum c = 0 := by
  simp [ThreadStats.sum, initStats]

end Sysbench.Database
