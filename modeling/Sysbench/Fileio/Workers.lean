import Sysbench.Fileio.Calls
import Sysbench.Fileio.Execute

/-! # Worker threads

A worker loops in `runner_thread`: it takes a request under the execution mutex and
executes it outside. One event is a call of the generator or one action of one
worker's request, so a run of the machine below is an interleaving of the threads.
-/
namespace Sysbench.Fileio

open Runs

inductive Worker where
  /-- about to ask for a request -/
  | idle
  /-- executing `r`, with what is left to do; an error is a request that was refused -/
  | busy (r : FileRequest) (todo : Except String (List Action))
  /-- left the loop on a NULL request -/
  | finished
  /-- left the loop because executing `r` failed -/
  | failed (r : FileRequest) (todo : Except String (List Action))
  /-- left the loop on the time limit or on an error of another thread -/
  | stopped

structure System (n : ℕ) where
  vars : Vars
  worker : Fin n → Worker

def initSystem (n : ℕ) (perThread : ℕ → PerThread) : System n :=
  ⟨initVars perThread, fun _ => .idle⟩

inductive Event (n : ℕ) where
  /-- thread `t` gets request `q` -/
  | get (t : Fin n) (draws : List Draw) (q : Request)
  /-- thread `t` performs the next action of its request -/
  | act (t : Fin n) (a : Action)
  /-- the next action of thread `t` fails -/
  | fail (t : Fin n)
  /-- `file_execute_request` returns to thread `t` -/
  | ret (t : Fin n)
  | stop (t : Fin n)
  /-- `file_print_stats` -/
  | intermediateReport
  | cumulativeReport
  deriving DecidableEq

/-- The steps of a request that can report an error. -/
def Action.canFail : Action → Bool
  | .pwrite .. => true
  | .pread .. => true
  | .validateBuffer .. => true
  | .fsync _ => true
  | _ => false

variable (c : Config)

/-- What a worker does with the request it got. -/
def taken : Request → Worker
  | .null => .finished
  | .file r => .busy r (fileExecuteRequest c r)

/-- An intermediate report remembers the counters it printed. -/
def Stats.intermediate (st : Stats) : Stats :=
  { st with
    lastOtherOps := st.otherOps
    lastBytesRead := st.bytesRead
    lastBytesWritten := st.bytesWritten }

variable {n : ℕ}

def System.setWorker (s : System n) (t : Fin n) (w : Worker) : System n :=
  { s with worker := Function.update s.worker t w }

def System.setStats (s : System n) (st : Stats) : System n :=
  { s with vars := { s.vars with stats := st } }

def workerStep (s : System c.numThreads) : Event c.numThreads → Option (System c.numThreads)
  | .get t draws q =>
    match s.worker t with
    | .idle =>
      (fileGetRequest c s.vars t draws).bind fun p =>
        if p.1 = q then some ⟨p.2, Function.update s.worker t (taken c q)⟩ else none
    | _ => none
  | .act t a =>
    match s.worker t with
    | .busy r (.ok (b :: todo)) =>
      if b = a then some ((s.setStats (a.count s.vars.stats)).setWorker t (.busy r (.ok todo)))
      else none
    | _ => none
  | .fail t =>
    match s.worker t with
    | .busy r (.ok (b :: todo)) =>
      if b.canFail then some (s.setWorker t (.failed r (.ok (b :: todo)))) else none
    | _ => none
  | .ret t =>
    match s.worker t with
    | .busy _ (.ok []) => some (s.setWorker t .idle)
    | .busy r (.error e) => some (s.setWorker t (.failed r (.error e)))
    | _ => none
  | .stop t =>
    match s.worker t with
    | .idle => some (s.setWorker t .stopped)
    | _ => none
  | .intermediateReport => some (s.setStats s.vars.stats.intermediate)
  | .cumulativeReport => some (s.setStats clearStats)

inductive Moved (s : System c.numThreads) : Event c.numThreads → System c.numThreads → Prop
  | get {t : Fin c.numThreads} {draws : List Draw} {q : Request} {v : Vars} (hw : s.worker t = .idle)
      (hget : fileGetRequest c s.vars t draws = some (q, v)) :
      Moved s (.get t draws q) ⟨v, Function.update s.worker t (taken c q)⟩
  | act {t : Fin c.numThreads} {a : Action} {r : FileRequest} {todo : List Action}
      (hw : s.worker t = .busy r (.ok (a :: todo))) :
      Moved s (.act t a) ((s.setStats (a.count s.vars.stats)).setWorker t (.busy r (.ok todo)))
  | fail {t : Fin c.numThreads} {a : Action} {r : FileRequest} {todo : List Action}
      (hw : s.worker t = .busy r (.ok (a :: todo))) :
      Moved s (.fail t) (s.setWorker t (.failed r (.ok (a :: todo))))
  | ret {t : Fin c.numThreads} {r : FileRequest} (hw : s.worker t = .busy r (.ok [])) :
      Moved s (.ret t) (s.setWorker t .idle)
  | refused {t : Fin c.numThreads} {r : FileRequest} {e : String} (hw : s.worker t = .busy r (.error e)) :
      Moved s (.ret t) (s.setWorker t (.failed r (.error e)))
  | stop {t : Fin c.numThreads} (hw : s.worker t = .idle) : Moved s (.stop t) (s.setWorker t .stopped)
  | intermediateReport :
      Moved s .intermediateReport (s.setStats s.vars.stats.intermediate)
  | cumulativeReport : Moved s .cumulativeReport (s.setStats clearStats)

variable {c}

theorem workerStep_moved {s u : System c.numThreads} {e : Event c.numThreads}
    (h : workerStep c s e = some u) : Moved c s e u := by
  cases e with
  | get t draws q =>
    simp only [workerStep] at h
    split at h
    · rename_i hw
      obtain ⟨⟨q', v⟩, hget, h⟩ := Option.bind_eq_some_iff.mp h
      by_cases hq : q' = q
      · subst hq
        simp only [if_true, Option.some.injEq] at h
        subst h
        exact .get hw hget
      · simp [hq] at h
    · cases h
  | act t a =>
    simp only [workerStep] at h
    split at h
    · rename_i r b todo hw
      by_cases hb : b = a
      · subst hb
        simp only [if_true, Option.some.injEq] at h
        subst h
        exact .act hw
      · simp [hb] at h
    · cases h
  | fail t =>
    simp only [workerStep] at h
    split at h
    · rename_i r b todo hw
      by_cases hb : b.canFail
      · rw [if_pos hb] at h
        cases h
        exact .fail hw
      · simp [hb] at h
    · cases h
  | ret t =>
    simp only [workerStep] at h
    split at h
    · cases h
      exact .ret ‹_›
    · cases h
      exact .refused ‹_›
    · cases h
  | stop t =>
    simp only [workerStep] at h
    split at h
    · cases h
      exact .stop ‹_›
    · cases h
  | intermediateReport =>
    cases h
    exact .intermediateReport
  | cumulativeReport =>
    cases h
    exact .cumulativeReport

def Event.handedOut : Event n → Option Request
  | .get _ _ q => some q
  | _ => none

def handedOut (es : List (Event n)) : List Request := es.filterMap Event.handedOut

@[simp] theorem handedOut_nil : handedOut ([] : List (Event n)) = [] := rfl

theorem handedOut_snoc (es : List (Event n)) (e : Event n) :
    handedOut (es ++ [e]) = handedOut es ++ e.handedOut.toList := by
  simp only [handedOut, List.filterMap_append, List.filterMap_cons]
  cases e.handedOut <;> rfl

/-- An interleaving of the workers is a sequence of calls to the generator that hands
out the same requests, with the counters changing in between. -/
theorem workers_refine_calls {perThread : ℕ → PerThread} {es : List (Event c.numThreads)}
    {s : System c.numThreads} (hr : run (workerStep c) (initSystem _ perThread) es = some s) :
    ∃ calls, run (callStep c) (initVars perThread) calls = some s.vars ∧
      requests calls = handedOut es := by
  have hsim : ∀ (s : System c.numThreads) v e s', s.vars = v → workerStep c s e = some s' →
      ∃ calls v', run (callStep c) v calls = some v' ∧ s'.vars = v' ∧
        calls.filterMap Call.handedOut = (Event.handedOut e).toList := by
    rintro s _ e s' rfl he
    -- a step that is no call changes the counters at most
    have hstats : ∀ st : Stats, ∃ calls v, run (callStep c) s.vars calls = some v ∧
        { s.vars with stats := st } = v ∧ calls.filterMap Call.handedOut = [] :=
      fun st => ⟨[.stats st], _, rfl, rfl, rfl⟩
    cases workerStep_moved he with
    | @get t draws q v hw hget =>
      exact ⟨[.request t draws q], v, by simpa using callStep_request_iff.mpr hget, rfl, rfl⟩
    | act hw => exact hstats _
    | fail hw => exact hstats _
    | ret hw => exact hstats _
    | refused hw => exact hstats _
    | stop hw => exact hstats _
    | intermediateReport => exact hstats _
    | cumulativeReport => exact hstats _
  obtain ⟨calls, v, hv, rfl, hobs⟩ := run_simulation hsim rfl hr
  exact ⟨calls, hv, hobs⟩

/-- The dirty flag is set in writing modes only. -/
theorem workers_isDirty {perThread : ℕ → PerThread} {es : List (Event c.numThreads)}
    {s : System c.numThreads} (hr : run (workerStep c) (initSystem _ perThread) es = some s) :
    s.vars.isDirty → CanWrite c := by
  obtain ⟨calls, hcalls, -⟩ := workers_refine_calls hr
  exact (calls_invariant (I := fun _ _ => True) trivial (fun _ _ _ _ _ _ => trivial)
    (fun _ _ _ _ => trivial) hcalls).2

theorem workerStep_get {s : System c.numThreads} {t : Fin c.numThreads} {draws : List Draw}
    {q : Request} {v : Vars} (hw : s.worker t = .idle)
    (hget : fileGetRequest c s.vars t draws = some (q, v)) :
    workerStep c s (.get t draws q) = some ⟨v, Function.update s.worker t (taken c q)⟩ := by
  simp only [workerStep, hw, hget, Option.bind_some, if_true]

end Sysbench.Fileio
