import Sysbench.Core.EventQueue
import Sysbench.Core.Timer

/-! # The threads of a test run

`run_test` with the threads that it creates. The start mutex is held by the main thread from
before the first creation until the timers run. A section of another thread that locks a mutex,
changes a counter and unlocks it again is one step; the sections of the reporting threads are
taken apart, since reports are printed in them. What the requests and the reports do is left
open, but for their use of the execution mutex.
-/
namespace Sysbench.Core

open Rings Runs

structure RunConfig where
  txRate : ℕ
  /-- the sorted times of `sb_globals.checkpoints`, in seconds -/
  checkpoints : List ℕ
  /-- `test->ops.print_stats != NULL` -/
  printStats : Bool
  deriving Repr

inductive TimerName where
  | exec | cumulative1 | cumulative2
  deriving DecidableEq, Repr

inductive Helper where
  | report | eventgen | checkpoints
  deriving DecidableEq, Repr

inductive Main where
  | init
  | prepare
  | lockStart
  | create (h : Helper)
  | createRunner (i : ℕ)
  | startTimer (k : TimerName)
  | unlockStart
  | join (i : ℕ)
  | stopTimer (k : TimerName)
  | silence
  | cleanup
  | printStats
  | destroyMutexes
  | done
  | cancel (h : Helper)
  | joinHelper (h : Helper)
  | returned (code : ℕ)
  deriving DecidableEq, Repr

inductive Runner where
  | absent
  | initializing
  | barrier
  | top
  /-- about to lock the event queue -/
  | waiting
  /-- has taken an event -/
  | serving
  | requesting
  | pending
  | executing
  | served (null : Bool)
  | leaving
  | returned
  deriving DecidableEq, Repr

inductive Report where
  | absent
  | created
  | barrier
  /-- about to read the timer -/
  | ready
  | asleep
  | locking
  /-- holds `report_interval_mutex` -/
  | holding
  | printing
  | unlocking
  | returned
  deriving DecidableEq, Repr

inductive Checkpoint where
  | absent
  | created
  | barrier
  | loop (i : ℕ)
  | asleep (i : ℕ)
  | woken (i : ℕ)
  | locking (i : ℕ)
  /-- holds `exec_mutex` -/
  | reporting (i : ℕ)
  | reported (i : ℕ)
  | unlocking (i : ℕ)
  | returned
  deriving DecidableEq, Repr

inductive Eventgen where
  | absent | created | barrier | generating | returned
  deriving DecidableEq, Repr

inductive Owner (n : ℕ) where
  | runner (t : Fin n)
  | report
  | checkpoints
  deriving DecidableEq

structure RunState (n : ℕ) where
  main : Main
  /-- `run_test` holds `thread_start_mutex` -/
  startHeld : Bool
  /-- `sb_globals.error` -/
  error : Bool
  numRunning : ℕ
  timers : TimerName → SbTimer
  /-- `sb_globals.report_interval` -/
  reportInterval : ℕ
  execOwner : Option (Owner n)
  queue : EventQueue
  cancelled : Helper → Bool
  runners : Fin n → Runner
  report : Report
  checkpoint : Checkpoint
  eventgen : Eventgen

def initRun (n reportInterval : ℕ) (links : Links (Option ℕ)) : RunState n where
  main := .init
  startHeld := false
  error := false
  numRunning := 0
  timers _ := { sbTimerInit with state := .uninitialized }
  reportInterval
  execOwner := none
  queue := initEventQueue links
  cancelled _ := false
  runners _ := .absent
  report := .absent
  checkpoint := .absent
  eventgen := .absent

inductive MainEvent where
  /-- `ops.init`, `ops.prepare` or `ops.cleanup` -/
  | call (ok : Bool)
  /-- `pthread_create` -/
  | create (ok : Bool)
  | startTimer (k : TimerName) (now : Timespec)
  | stopTimer (k : TimerName) (now : Timespec)
  /-- the final `print_stats(SB_STAT_CUMULATIVE)` -/
  | printStats
  | next
  deriving DecidableEq, Repr

inductive RunnerEvent where
  | threadInit (ok : Bool)
  | pass
  /-- reads `queue_is_full` -/
  | look (full : Bool)
  | dequeue (taken : Option (ℕ × ℕ))
  | getRequest
  | gotRequest (null : Bool)
  | executeRequest
  | executed (error : Bool)
  | lockExec
  | unlockExec
  | check (timeLimit error : Bool)
  | finish
  deriving DecidableEq, Repr

inductive ReportEvent where
  | start
  | pass
  | value (now : Timespec)
  | wake
  | lock
  /-- `print_stats(SB_STAT_INTERMEDIATE)` -/
  | print
  | silent
  | lockExec
  | unlockExec
  | printed
  | unlock
  | die
  deriving DecidableEq, Repr

inductive CheckpointEvent where
  | start
  | pass
  | look (now : Timespec) (curr : ℕ)
  | exit
  | wake
  | value (now : Timespec)
  | lock
  /-- `print_stats(SB_STAT_CUMULATIVE)` -/
  | printStats
  | printGlobalStats
  | unlock
  | die
  deriving DecidableEq, Repr

inductive EventgenEvent where
  | start
  | pass
  | stamp (now : Timespec)
  | append
  | advance
  | exit
  | die
  deriving DecidableEq, Repr

inductive RunEvent (n : ℕ) where
  | main (e : MainEvent)
  | runner (t : Fin n) (e : RunnerEvent)
  | report (e : ReportEvent)
  | checkpoint (e : CheckpointEvent)
  | eventgen (e : EventgenEvent)
  deriving DecidableEq

variable {n : ℕ} (cfg : RunConfig)

/-! ## The main thread -/

def RunConfig.wants (s : RunState n) : Helper → Bool
  | .report => 0 < s.reportInterval
  | .eventgen => 0 < cfg.txRate
  | .checkpoints => 0 < cfg.checkpoints.length

def Main.afterCreate : Helper → Main
  | .report => .create .eventgen
  | .eventgen => .create .checkpoints
  | .checkpoints => .createRunner 0

def Main.afterStart : TimerName → Main
  | .exec => .startTimer .cumulative1
  | .cumulative1 => .startTimer .cumulative2
  | .cumulative2 => .unlockStart

def Main.afterStop : TimerName → Main
  | .exec => .stopTimer .cumulative1
  | .cumulative1 => .stopTimer .cumulative2
  | .cumulative2 => .silence

/-- The order of the cancellations. `run_test` has not failed if it gets to the end. -/
def Main.afterCancel (error : Bool) : Helper → Main
  | .report => .cancel .eventgen
  | .eventgen => .cancel .checkpoints
  | .checkpoints => .returned (if error then 1 else 0)

def RunState.createHelper (s : RunState n) : Helper → RunState n
  | .report => { s with report := .created }
  | .eventgen => { s with eventgen := .created }
  | .checkpoints => { s with checkpoint := .created }

/-- The `…_thread_created` variables of `run_test`. -/
def RunState.isCreated (s : RunState n) : Helper → Bool
  | .report => s.report ≠ .absent
  | .eventgen => s.eventgen ≠ .absent
  | .checkpoints => s.checkpoint ≠ .absent

def RunState.hasReturned (s : RunState n) : Helper → Bool
  | .report => s.report = .returned
  | .eventgen => s.eventgen = .returned
  | .checkpoints => s.checkpoint = .returned

def Report.holdsInterval : Report → Bool
  | .holding | .printing | .unlocking => true
  | _ => false

def mainStep (s : RunState n) (e : MainEvent) : Option (RunState n) :=
  match s.main, e with
  | .init, .call ok =>
    if ok then some { s with main := .prepare, timers := fun _ => sbTimerInit }
    else some { s with main := .returned 1 }
  | .prepare, .call ok => some { s with main := if ok then .lockStart else .returned 1 }
  | .lockStart, .next =>
    some
      { s with
        main := .create .report
        startHeld := true
        numRunning := 0
        queue := initEventQueue s.queue.links }
  | .create h, .create ok =>
    if cfg.wants s h then
      -- a failure returns with the start mutex locked
      if ok then some { s.createHelper h with main := .afterCreate h }
      else some { s with main := .returned 1 }
    else none
  | .create h, .next => if cfg.wants s h then none else some { s with main := .afterCreate h }
  | .createRunner i, .create ok =>
    if h : i < n then
      if s.error then none
      else if ok then
        some
          { s with
            main := .createRunner (i + 1)
            runners := Function.update s.runners ⟨i, h⟩ .initializing }
      else some { s with main := .returned 1 }
    else none
  | .createRunner i, .next =>
    if i < n then if s.error then some { s with main := .returned 1 } else none
    else some { s with main := .startTimer .exec }
  | .startTimer k, .startTimer k' now =>
    if k = k' then
      (sbTimerStart now (s.timers k)).map fun timer =>
        { s with timers := Function.update s.timers k timer, main := .afterStart k }
    else none
  | .unlockStart, .next => some { s with startHeld := false, main := .join 0 }
  | .join i, .next =>
    if h : i < n then
      if s.runners ⟨i, h⟩ = .returned then some { s with main := .join (i + 1) } else none
    else some { s with main := .stopTimer .exec }
  | .stopTimer k, .stopTimer k' now =>
    if k = k' then
      (sbTimerStop now (s.timers k)).map fun timer =>
        { s with timers := Function.update s.timers k timer, main := .afterStop k }
    else none
  | .silence, .next =>
    if s.report.holdsInterval then none else some { s with reportInterval := 0, main := .cleanup }
  | .cleanup, .call ok => some { s with main := if ok then .printStats else .returned 1 }
  | .printStats, .printStats =>
    if cfg.printStats && !s.error then some { s with main := .destroyMutexes } else none
  | .printStats, .next =>
    if cfg.printStats && !s.error then none else some { s with main := .destroyMutexes }
  | .destroyMutexes, .next => some { s with main := .done }
  | .done, .next => some { s with main := .cancel .report }
  | .cancel h, .next =>
    if s.isCreated h then
      some { s with main := .joinHelper h, cancelled := Function.update s.cancelled h true }
    else some { s with main := .afterCancel s.error h }
  | .joinHelper h, .next =>
    if s.hasReturned h then some { s with main := .afterCancel s.error h } else none
  | _, _ => none

/-! ## The runners -/

def Runner.next (s : RunState n) (t : Fin n) : RunnerEvent → Runner → Option Runner
  | .threadInit ok, .initializing => some (if ok then .barrier else .returned)
  | .pass, .barrier => if s.startHeld then none else some .top
  | .look full, .top =>
    if 0 < cfg.txRate ∧ s.queue.queueIsFull = full then some (if full then .leaving else .waiting)
    else none
  | .dequeue _, .waiting => some .serving
  | .getRequest, .top => if 0 < cfg.txRate then none else some .requesting
  | .getRequest, .serving => some .requesting
  | .gotRequest null, .requesting =>
    if s.execOwner = some (.runner t) then none else some (if null then .served true else .pending)
  | .executeRequest, .pending => some .executing
  | .executed error, .executing =>
    if s.execOwner = some (.runner t) then none else some (if error then .leaving else .served false)
  | .lockExec, .requesting => some .requesting
  | .lockExec, .executing => some .executing
  | .unlockExec, .requesting => some .requesting
  | .unlockExec, .executing => some .executing
  | .check timeLimit error, .served null =>
    if s.error = error then some (if timeLimit || null || error then .leaving else .top) else none
  | .finish, .leaving => if s.startHeld then none else some .returned
  | _, _ => none

/-- What a runner changes besides its place. -/
def RunnerEvent.effect (s : RunState n) (t : Fin n) : RunnerEvent → Option (RunState n)
  | .threadInit ok => some { s with error := s.error || !ok }
  | .pass => some { s with numRunning := s.numRunning + 1 }
  | .dequeue taken =>
    (queueStep maxQueueLen s.queue (.dequeue t taken)).map fun queue => { s with queue }
  | .lockExec => if s.execOwner = none then some { s with execOwner := some (.runner t) } else none
  | .unlockExec => if s.execOwner = some (.runner t) then some { s with execOwner := none } else none
  | .finish => some { s with numRunning := s.numRunning - 1 }
  | _ => some s

def runnerStep (s : RunState n) (t : Fin n) (e : RunnerEvent) : Option (RunState n) :=
  (Runner.next cfg s t e (s.runners t)).bind fun r =>
    (e.effect s t).map fun u => { u with runners := Function.update s.runners t r }

/-! ## The reporting threads and the generator -/

def RunState.readTimer (s : RunState n) (now : Timespec) : Option (ℕ × RunState n) :=
  (sbTimerValue now (s.timers .exec)).map fun p =>
    (p.1, { s with timers := Function.update s.timers .exec p.2 })

def Report.next (s : RunState n) : ReportEvent → Report → Option Report
  | .start, .created => some (if cfg.printStats then .barrier else .returned)
  | .pass, .barrier => if s.startHeld then none else some .ready
  | .value _, .ready => some .asleep
  | .wake, .asleep => some .locking
  | .lock, .locking => some .holding
  | .print, .holding => if 0 < s.reportInterval then some .printing else none
  | .silent, .holding => if 0 < s.reportInterval then none else some .unlocking
  | .lockExec, .printing => some .printing
  | .unlockExec, .printing => some .printing
  | .printed, .printing => if s.execOwner = some .report then none else some .unlocking
  | .unlock, .unlocking => some .ready
  -- a silent section has no cancellation point
  | .die, .asleep => if s.cancelled .report then some .returned else none
  | _, _ => none

def ReportEvent.effect (s : RunState n) : ReportEvent → Option (RunState n)
  | .value now => (s.readTimer now).map Prod.snd
  | .lockExec => if s.execOwner = none then some { s with execOwner := some .report } else none
  | .unlockExec => if s.execOwner = some .report then some { s with execOwner := none } else none
  | _ => some s

def reportStep (s : RunState n) (e : ReportEvent) : Option (RunState n) :=
  (Report.next cfg s e s.report).bind fun r => (e.effect s).map fun u => { u with report := r }

def sec2ns (sec : ℕ) : ℕ := sec * 1000000000

def Checkpoint.next (s : RunState n) : CheckpointEvent → Checkpoint → Option Checkpoint
  | .start, .created => some (if cfg.printStats then .barrier else .returned)
  | .pass, .barrier => if s.startHeld then none else some (.loop 0)
  | .look _ curr, .loop i =>
    cfg.checkpoints[i]?.map fun sec => if sec2ns sec ≤ curr then .loop (i + 1) else .asleep i
  | .exit, .loop i => if i < cfg.checkpoints.length then none else some .returned
  | .wake, .asleep i => some (.woken i)
  | .value _, .woken i => some (.locking i)
  | .lock, .locking i => some (.reporting i)
  | .printStats, .reporting i => some (.reported i)
  | .printGlobalStats, .reported i => some (.unlocking i)
  | .unlock, .unlocking i => some (.loop (i + 1))
  | .die, .asleep _ | .die, .reporting _ | .die, .reported _ =>
    if s.cancelled .checkpoints then some .returned else none
  | _, _ => none

def CheckpointEvent.effect (s : RunState n) : CheckpointEvent → Option (RunState n)
  | .look now curr =>
    (s.readTimer now).bind fun p => if p.1 = curr then some p.2 else none
  | .value now => (s.readTimer now).map Prod.snd
  | .lock => if s.execOwner = none then some { s with execOwner := some .checkpoints } else none
  | .unlock => some { s with execOwner := none }
  | _ => some s

def checkpointStep (s : RunState n) (e : CheckpointEvent) : Option (RunState n) :=
  (Checkpoint.next cfg s e s.checkpoint).bind fun c =>
    (e.effect s).map fun u => { u with checkpoint := c }

def Eventgen.next (s : RunState n) : EventgenEvent → Eventgen → Option Eventgen
  | .start, .created => some .barrier
  | .pass, .barrier => if s.startHeld then none else some .generating
  | .stamp _, .generating | .append, .generating | .advance, .generating => some .generating
  | .exit, .generating => if s.queue.gen = .stopped then some .returned else none
  | .die, .generating => if s.cancelled .eventgen then some .returned else none
  | _, _ => none

def EventgenEvent.effect (s : RunState n) : EventgenEvent → Option (RunState n)
  | .stamp now =>
    (s.readTimer now).bind fun p =>
      (queueStep maxQueueLen p.2.queue (.stamp p.1 : QueueEvent n)).map fun queue =>
        { p.2 with queue }
  | .append =>
    (queueStep maxQueueLen s.queue (.append : QueueEvent n)).map fun queue => { s with queue }
  | .advance =>
    (queueStep maxQueueLen s.queue (.advance : QueueEvent n)).map fun queue => { s with queue }
  | _ => some s

def eventgenStep (s : RunState n) (e : EventgenEvent) : Option (RunState n) :=
  (Eventgen.next s e s.eventgen).bind fun g => (e.effect s).map fun u => { u with eventgen := g }

def runStep (s : RunState n) : RunEvent n → Option (RunState n)
  | .main e => mainStep cfg s e
  | .runner t e => runnerStep cfg s t e
  | .report e => reportStep cfg s e
  | .checkpoint e => checkpointStep cfg s e
  | .eventgen e => eventgenStep s e

/-! ## What a step can do -/

inductive MainMoved (s : RunState n) : MainEvent → RunState n → Prop
  | init (hm : s.main = .init) :
      MainMoved s (.call true) { s with main := .prepare, timers := fun _ => sbTimerInit }
  | initFailed (hm : s.main = .init) : MainMoved s (.call false) { s with main := .returned 1 }
  | prepare (hm : s.main = .prepare) : MainMoved s (.call true) { s with main := .lockStart }
  | prepareFailed (hm : s.main = .prepare) :
      MainMoved s (.call false) { s with main := .returned 1 }
  | lockStart (hm : s.main = .lockStart) :
      MainMoved s .next
        { s with
          main := .create .report
          startHeld := true
          numRunning := 0
          queue := initEventQueue s.queue.links }
  | create {h : Helper} (hm : s.main = .create h) (hw : cfg.wants s h = true) :
      MainMoved s (.create true) { s.createHelper h with main := .afterCreate h }
  | createFailed {h : Helper} (hm : s.main = .create h) :
      MainMoved s (.create false) { s with main := .returned 1 }
  | skipHelper {h : Helper} (hm : s.main = .create h) (hw : cfg.wants s h = false) :
      MainMoved s .next { s with main := .afterCreate h }
  | createRunner {i : ℕ} (hm : s.main = .createRunner i) (h : i < n) (he : s.error = false) :
      MainMoved s (.create true)
        { s with
          main := .createRunner (i + 1)
          runners := Function.update s.runners ⟨i, h⟩ .initializing }
  | createRunnerFailed {i : ℕ} (hm : s.main = .createRunner i) :
      MainMoved s (.create false) { s with main := .returned 1 }
  | seenError {i : ℕ} (hm : s.main = .createRunner i) :
      MainMoved s .next { s with main := .returned 1 }
  | created {i : ℕ} (hm : s.main = .createRunner i) (hi : n ≤ i) :
      MainMoved s .next { s with main := .startTimer .exec }
  | startTimer {k : TimerName} {now : Timespec} {timer : SbTimer} (hm : s.main = .startTimer k)
      (h : sbTimerStart now (s.timers k) = some timer) :
      MainMoved s (.startTimer k now)
        { s with timers := Function.update s.timers k timer, main := .afterStart k }
  | unlockStart (hm : s.main = .unlockStart) :
      MainMoved s .next { s with startHeld := false, main := .join 0 }
  | join {i : ℕ} (hm : s.main = .join i) (h : i < n) (hr : s.runners ⟨i, h⟩ = .returned) :
      MainMoved s .next { s with main := .join (i + 1) }
  | joined {i : ℕ} (hm : s.main = .join i) (hi : n ≤ i) :
      MainMoved s .next { s with main := .stopTimer .exec }
  | stopTimer {k : TimerName} {now : Timespec} {timer : SbTimer} (hm : s.main = .stopTimer k)
      (h : sbTimerStop now (s.timers k) = some timer) :
      MainMoved s (.stopTimer k now)
        { s with timers := Function.update s.timers k timer, main := .afterStop k }
  | silence (hm : s.main = .silence) (hh : s.report.holdsInterval = false) :
      MainMoved s .next { s with reportInterval := 0, main := .cleanup }
  | cleanup (hm : s.main = .cleanup) : MainMoved s (.call true) { s with main := .printStats }
  | cleanupFailed (hm : s.main = .cleanup) :
      MainMoved s (.call false) { s with main := .returned 1 }
  | printStats (hm : s.main = .printStats) (hp : cfg.printStats = true) (he : s.error = false) :
      MainMoved s .printStats { s with main := .destroyMutexes }
  | skipStats (hm : s.main = .printStats) (hp : (cfg.printStats && !s.error) = false) :
      MainMoved s .next { s with main := .destroyMutexes }
  | destroyMutexes (hm : s.main = .destroyMutexes) : MainMoved s .next { s with main := .done }
  | done (hm : s.main = .done) : MainMoved s .next { s with main := .cancel .report }
  | cancel {h : Helper} (hm : s.main = .cancel h) (hc : s.isCreated h = true) :
      MainMoved s .next
        { s with main := .joinHelper h, cancelled := Function.update s.cancelled h true }
  | skipCancel {h : Helper} (hm : s.main = .cancel h) (hc : s.isCreated h = false) :
      MainMoved s .next { s with main := .afterCancel s.error h }
  | joinHelper {h : Helper} (hm : s.main = .joinHelper h) (hr : s.hasReturned h = true) :
      MainMoved s .next { s with main := .afterCancel s.error h }

variable {cfg} {s u : RunState n}

theorem mainStep_call {ok : Bool} (h : mainStep cfg s (.call ok) = some u) :
    MainMoved cfg s (.call ok) u := by
  unfold mainStep at h
  cases hm : s.main <;> rw [hm] at h
  case init =>
    cases ok <;> cases h
    · exact .initFailed hm
    · exact .init hm
  case prepare =>
    cases ok <;> cases h
    · exact .prepareFailed hm
    · exact .prepare hm
  case cleanup =>
    cases ok <;> cases h
    · exact .cleanupFailed hm
    · exact .cleanup hm
  all_goals cases h

theorem mainStep_create {ok : Bool} (h : mainStep cfg s (.create ok) = some u) :
    MainMoved cfg s (.create ok) u := by
  unfold mainStep at h
  cases hm : s.main <;> rw [hm] at h
  case create helper =>
    obtain ⟨hw, h⟩ := Option.ite_none_right_eq_some.mp h
    cases ok <;> cases h
    · exact .createFailed hm
    · exact .create hm hw
  case createRunner i =>
    obtain ⟨hi, h⟩ := Option.dite_none_right_eq_some.mp h
    obtain ⟨he, h⟩ := Option.ite_none_left_eq_some.mp h
    cases ok <;> cases h
    · exact .createRunnerFailed hm
    · exact .createRunner hm hi (by simpa using he)
  all_goals cases h

theorem mainStep_startTimer {k : TimerName} {now : Timespec}
    (h : mainStep cfg s (.startTimer k now) = some u) : MainMoved cfg s (.startTimer k now) u := by
  unfold mainStep at h
  cases hm : s.main <;> rw [hm] at h
  case startTimer k' =>
    obtain ⟨rfl, hstart⟩ := Option.ite_none_right_eq_some.mp h
    obtain ⟨timer, htimer, rfl⟩ := Option.map_eq_some_iff.mp hstart
    exact .startTimer hm htimer
  all_goals cases h

theorem mainStep_stopTimer {k : TimerName} {now : Timespec}
    (h : mainStep cfg s (.stopTimer k now) = some u) : MainMoved cfg s (.stopTimer k now) u := by
  unfold mainStep at h
  cases hm : s.main <;> rw [hm] at h
  case stopTimer k' =>
    obtain ⟨rfl, hstop⟩ := Option.ite_none_right_eq_some.mp h
    obtain ⟨timer, htimer, rfl⟩ := Option.map_eq_some_iff.mp hstop
    exact .stopTimer hm htimer
  all_goals cases h

theorem mainStep_printStats (h : mainStep cfg s .printStats = some u) :
    MainMoved cfg s .printStats u := by
  unfold mainStep at h
  cases hm : s.main <;> rw [hm] at h
  case printStats =>
    obtain ⟨hp, h⟩ := Option.ite_none_right_eq_some.mp h
    cases h
    obtain ⟨hstats, he⟩ := Bool.and_eq_true_iff.mp hp
    exact .printStats hm hstats (by simpa using he)
  all_goals cases h

theorem mainStep_next (h : mainStep cfg s .next = some u) : MainMoved cfg s .next u := by
  unfold mainStep at h
  cases hm : s.main <;> rw [hm] at h
  case lockStart =>
    cases h
    exact .lockStart hm
  case create helper =>
    obtain ⟨hw, h⟩ := Option.ite_none_left_eq_some.mp h
    cases h
    exact .skipHelper hm (by simpa using hw)
  case createRunner i =>
    dsimp only at h
    split_ifs at h with hi he <;> cases h
    · exact .seenError hm
    · exact .created hm (Nat.le_of_not_lt hi)
  case unlockStart =>
    cases h
    exact .unlockStart hm
  case join i =>
    dsimp only at h
    split_ifs at h with hi hr <;> cases h
    · exact .join hm hi hr
    · exact .joined hm (Nat.le_of_not_lt hi)
  case silence =>
    obtain ⟨hh, h⟩ := Option.ite_none_left_eq_some.mp h
    cases h
    exact .silence hm (by simpa using hh)
  case printStats =>
    obtain ⟨hp, h⟩ := Option.ite_none_left_eq_some.mp h
    cases h
    exact .skipStats hm (Bool.eq_false_of_not_eq_true hp)
  case destroyMutexes =>
    cases h
    exact .destroyMutexes hm
  case done =>
    cases h
    exact .done hm
  case cancel helper =>
    dsimp only at h
    split_ifs at h with hc <;> cases h
    · exact .cancel hm hc
    · exact .skipCancel hm (by simpa using hc)
  case joinHelper helper =>
    obtain ⟨hr, h⟩ := Option.ite_none_right_eq_some.mp h
    cases h
    exact .joinHelper hm hr
  all_goals cases h

theorem mainStep_moved {e : MainEvent} (h : mainStep cfg s e = some u) : MainMoved cfg s e u := by
  cases e with
  | call ok => exact mainStep_call h
  | create ok => exact mainStep_create h
  | startTimer k now => exact mainStep_startTimer h
  | stopTimer k now => exact mainStep_stopTimer h
  | printStats => exact mainStep_printStats h
  | next => exact mainStep_next h

/-- A runner moves on, and changes a counter, the error flag, the queue or the owner of
`exec_mutex`. -/
theorem runnerStep_eq {t : Fin n} {e : RunnerEvent} (h : runnerStep cfg s t e = some u) :
    ∃ r v, Runner.next cfg s t e (s.runners t) = some r ∧ e.effect s t = some v ∧
      ∃ numRunning error execOwner queue,
        v = { s with numRunning, error, execOwner, queue } ∧
        u = { v with runners := Function.update s.runners t r } := by
  obtain ⟨r, hr, hafter⟩ := Option.bind_eq_some_iff.mp h
  obtain ⟨v, hv, rfl⟩ := Option.map_eq_some_iff.mp hafter
  refine ⟨r, v, hr, hv, v.numRunning, v.error, v.execOwner, v.queue, ?_, rfl⟩
  cases e with
  | dequeue taken =>
    obtain ⟨queue, -, rfl⟩ := Option.map_eq_some_iff.mp hv
    rfl
  | lockExec =>
    obtain ⟨-, heq⟩ := Option.ite_none_right_eq_some.mp hv
    cases heq
    rfl
  | unlockExec =>
    obtain ⟨-, heq⟩ := Option.ite_none_right_eq_some.mp hv
    cases heq
    rfl
  | _ =>
    cases hv
    rfl

theorem RunState.readTimer_eq {now : Timespec} {p : ℕ × RunState n}
    (h : s.readTimer now = some p) :
    ∃ timer, sbTimerValue now (s.timers .exec) = some (p.1, timer) ∧
      p.2 = { s with timers := Function.update s.timers .exec timer } := by
  obtain ⟨q, hq, rfl⟩ := Option.map_eq_some_iff.mp h
  exact ⟨q.2, hq, rfl⟩

theorem reportStep_eq {e : ReportEvent} (h : reportStep cfg s e = some u) :
    ∃ r v, Report.next cfg s e s.report = some r ∧ e.effect s = some v ∧
      ∃ timers execOwner, v = { s with timers, execOwner } ∧ u = { v with report := r } := by
  obtain ⟨r, hr, hafter⟩ := Option.bind_eq_some_iff.mp h
  obtain ⟨v, hv, rfl⟩ := Option.map_eq_some_iff.mp hafter
  refine ⟨r, v, hr, hv, v.timers, v.execOwner, ?_, rfl⟩
  cases e with
  | value now =>
    obtain ⟨p, hp, rfl⟩ := Option.map_eq_some_iff.mp hv
    obtain ⟨timer, -, heq⟩ := RunState.readTimer_eq hp
    rw [heq]
  | lockExec =>
    obtain ⟨-, heq⟩ := Option.ite_none_right_eq_some.mp hv
    cases heq
    rfl
  | unlockExec =>
    obtain ⟨-, heq⟩ := Option.ite_none_right_eq_some.mp hv
    cases heq
    rfl
  | _ =>
    cases hv
    rfl

theorem checkpointStep_eq {e : CheckpointEvent} (h : checkpointStep cfg s e = some u) :
    ∃ c v, Checkpoint.next cfg s e s.checkpoint = some c ∧ e.effect s = some v ∧
      ∃ timers execOwner, v = { s with timers, execOwner } ∧ u = { v with checkpoint := c } := by
  obtain ⟨c, hc, hafter⟩ := Option.bind_eq_some_iff.mp h
  obtain ⟨v, hv, rfl⟩ := Option.map_eq_some_iff.mp hafter
  refine ⟨c, v, hc, hv, v.timers, v.execOwner, ?_, rfl⟩
  cases e with
  | look now curr =>
    obtain ⟨p, hp, hif⟩ := Option.bind_eq_some_iff.mp hv
    obtain ⟨timer, -, heq⟩ := RunState.readTimer_eq hp
    split_ifs at hif
    cases hif
    rw [heq]
  | value now =>
    obtain ⟨p, hp, rfl⟩ := Option.map_eq_some_iff.mp hv
    obtain ⟨timer, -, heq⟩ := RunState.readTimer_eq hp
    rw [heq]
  | lock =>
    obtain ⟨-, heq⟩ := Option.ite_none_right_eq_some.mp hv
    cases heq
    rfl
  | _ =>
    cases hv
    rfl

theorem eventgenStep_eq {e : EventgenEvent} (h : eventgenStep s e = some u) :
    ∃ g v, Eventgen.next s e s.eventgen = some g ∧ e.effect s = some v ∧
      ∃ timers queue, v = { s with timers, queue } ∧ u = { v with eventgen := g } := by
  obtain ⟨g, hg, hafter⟩ := Option.bind_eq_some_iff.mp h
  obtain ⟨v, hv, rfl⟩ := Option.map_eq_some_iff.mp hafter
  refine ⟨g, v, hg, hv, v.timers, v.queue, ?_, rfl⟩
  cases e with
  | stamp now =>
    obtain ⟨p, hp, hqueue⟩ := Option.bind_eq_some_iff.mp hv
    obtain ⟨timer, -, heq⟩ := RunState.readTimer_eq hp
    obtain ⟨queue, -, rfl⟩ := Option.map_eq_some_iff.mp hqueue
    rw [heq]
  | append =>
    obtain ⟨queue, -, rfl⟩ := Option.map_eq_some_iff.mp hv
    rfl
  | advance =>
    obtain ⟨queue, -, rfl⟩ := Option.map_eq_some_iff.mp hv
    rfl
  | _ =>
    cases hv
    rfl

end Sysbench.Core
