import Sysbench.Core.Timer
import Sysbench.Machine.Pool
import Sysbench.Machine.Runs
import Sysbench.Machine.Windows

/-! # The log of operations

The handler of start and stop messages together with the reports, for `n` threads and report
checkpoints switched on. A stop has two locked sections: the timer under `timers_mutex`, then
the histogram under its own mutex. `print_global_stats` copies and resets the timers, reads
the histogram and resets it, all of it under `timers_mutex`, and merges the copies after
that; at a forced shutdown it stops the copies that are running first. Only one thread prints at a
time. One event is one locked section, or the store of the
queue wait, which takes no lock.
-/
namespace Sysbench.Core

open Runs Windows Words

/-- `sb_percentile_t`: how many values fell into each interval. -/
@[ext] structure Percentile where
  values : ℕ → ℕ
  total : ℕ

def sbPercentileReset : Percentile := ⟨fun _ => 0, 0⟩

/-- `sb_percentile_update`. The interval of a value is found in floating point. -/
def sbPercentileUpdate (bucket : ℤ → ℕ) (value : ℤ) (p : Percentile) : Percentile where
  values := Function.update p.values (bucket value) (p.values (bucket value) + 1)
  total := p.total + 1

variable {n : ℕ}

inductive Reporter (n : ℕ) where
  | idle
  /-- it holds `timers_mutex`, and has copied and reset the timers -/
  | copied (timersCopy : Fin n → SbTimer)
  /-- `sb_percentile_calculate` has read the histogram -/
  | calculated (timersCopy : Fin n → SbTimer) (hist : Percentile)
  /-- it has reset the histogram and released the mutex -/
  | merging (timersCopy : Fin n → SbTimer) (hist : Percentile)

def Reporter.locked : Reporter n → Bool
  | .copied _ => true
  | .calculated _ _ => true
  | _ => false

def Reporter.timersCopy : Reporter n → Option (Fin n → SbTimer)
  | .idle => none
  | .copied timersCopy => some timersCopy
  | .calculated timersCopy _ => some timersCopy
  | .merging timersCopy _ => some timersCopy

structure LogState (n : ℕ) where
  timers : Fin n → SbTimer
  /-- the response time that a stopped thread has yet to put into the histogram -/
  value : Fin n → Option ℤ
  percentile : Percentile
  reporter : Reporter n

def operHandlerInit (n : ℕ) : LogState n :=
  ⟨fun _ => sbTimerInit, fun _ => none, sbPercentileReset, .idle⟩

inductive LogEvent (n : ℕ) where
  /-- `runner_thread` stores the queue wait: the value of the execution timer less the time
  stamp of the event -/
  | queue (t : Fin n) (execValue eventTime : ℕ)
  | start (t : Fin n) (now : Timespec)
  /-- the timer section of a stop message -/
  | stop (t : Fin n) (now : Timespec) (elapsed : ℕ)
  /-- the histogram section of a stop message -/
  | update (t : Fin n)
  | copy
  | calculate
  | reset
  /-- `print_global_stats` has merged the copies into `t` and prints it -/
  | print (t : SbTimer)
  /-- the same with `forced_shutdown_in_progress`, the number of unfinished transactions in front -/
  | printForced (now : Fin n → Timespec) (unfinished : ℕ) (t : SbTimer)
  deriving DecidableEq

/-- `t = merge_timers(&t, &timers_copy[i])` for every thread. -/
def mergeAll (timersCopy : Fin n → SbTimer) : SbTimer :=
  (List.finRange n).foldl (fun t i => mergeTimers t (timersCopy i)) sbTimerInit

/-- A running timer is stopped; `sb_timer_stop` does not abort then. -/
def stopRunning (now : Timespec) (t : SbTimer) : SbTimer :=
  if t.state = .running then (sbTimerStop now t).getD t else t

def stopAll (now : Fin n → Timespec) (timersCopy : Fin n → SbTimer) : Fin n → SbTimer :=
  fun t => stopRunning (now t) (timersCopy t)

def unfinished (timersCopy : Fin n → SbTimer) : ℕ :=
  (List.finRange n).countP fun t => (timersCopy t).state = .running

def queueWait (execValue eventTime : ℕ) : ℕ := toUInt 64 ((execValue : ℤ) - eventTime)

def LogState.setTimer (s : LogState n) (t : Fin n) (timer : SbTimer) : LogState n :=
  { s with timers := Function.update s.timers t timer }

variable (bucket : ℤ → ℕ)

/-- A thread sends its next message only after the last one was handled. -/
def logStep (s : LogState n) : LogEvent n → Option (LogState n)
  | .queue t execValue eventTime =>
    if s.value t = none then
      some (s.setTimer t { s.timers t with queueTime := queueWait execValue eventTime })
    else none
  | .start t now =>
    if s.reporter.locked = false ∧ s.value t = none then
      (sbTimerStart now (s.timers t)).map (s.setTimer t)
    else none
  | .stop t now elapsed =>
    if s.reporter.locked = false ∧ s.value t = none then
      (sbTimerStop now (s.timers t)).bind fun timer =>
      (sbTimerValue now timer).bind fun p =>
        if p.1 = elapsed then
          some { s.setTimer t p.2 with value := Function.update s.value t (some (toInt 64 p.1)) }
        else none
    else none
  | .update t => (s.value t).map fun v =>
      { s with
        percentile := sbPercentileUpdate bucket v s.percentile
        value := Function.update s.value t none }
  | .copy =>
    match s.reporter with
    | .idle => some { s with timers := fun t => sbTimerReset (s.timers t), reporter := .copied s.timers }
    | _ => none
  | .calculate =>
    match s.reporter with
    | .copied timersCopy => some { s with reporter := .calculated timersCopy s.percentile }
    | _ => none
  | .reset =>
    match s.reporter with
    | .calculated timersCopy hist =>
      some { s with percentile := sbPercentileReset, reporter := .merging timersCopy hist }
    | _ => none
  | .print t =>
    match s.reporter with
    | .merging timersCopy _ => if mergeAll timersCopy = t then some { s with reporter := .idle } else none
    | _ => none
  | .printForced now k t =>
    match s.reporter with
    | .merging timersCopy _ =>
      if unfinished timersCopy = k ∧ mergeAll (stopAll now timersCopy) = t then
        some { s with reporter := .idle }
      else none
    | _ => none

inductive LogMoved (s : LogState n) : LogEvent n → LogState n → Prop
  | queue {t : Fin n} {execValue eventTime : ℕ} (hv : s.value t = none) :
      LogMoved s (.queue t execValue eventTime)
        (s.setTimer t { s.timers t with queueTime := queueWait execValue eventTime })
  | start {t : Fin n} {now : Timespec} {timer : SbTimer} (hl : s.reporter.locked = false)
      (hv : s.value t = none) (h : sbTimerStart now (s.timers t) = some timer) :
      LogMoved s (.start t now) (s.setTimer t timer)
  | stop {t : Fin n} {now : Timespec} {timer : SbTimer} (hl : s.reporter.locked = false)
      (hv : s.value t = none) (h : sbTimerStop now (s.timers t) = some timer) :
      LogMoved s (.stop t now timer.elapsed)
        { s.setTimer t timer with
          value := Function.update s.value t (some (toInt 64 timer.elapsed)) }
  | update {t : Fin n} {v : ℤ} (hv : s.value t = some v) :
      LogMoved s (.update t)
        { s with
          percentile := sbPercentileUpdate bucket v s.percentile
          value := Function.update s.value t none }
  | copy (h : s.reporter = .idle) :
      LogMoved s .copy
        { s with timers := fun t => sbTimerReset (s.timers t), reporter := .copied s.timers }
  | calculate {timersCopy : Fin n → SbTimer} (h : s.reporter = .copied timersCopy) :
      LogMoved s .calculate { s with reporter := .calculated timersCopy s.percentile }
  | reset {timersCopy : Fin n → SbTimer} {hist : Percentile}
      (h : s.reporter = .calculated timersCopy hist) :
      LogMoved s .reset
        { s with percentile := sbPercentileReset, reporter := .merging timersCopy hist }
  | print {timersCopy : Fin n → SbTimer} {hist : Percentile}
      (h : s.reporter = .merging timersCopy hist) :
      LogMoved s (.print (mergeAll timersCopy)) { s with reporter := .idle }
  | printForced {timersCopy : Fin n → SbTimer} {hist : Percentile} {now : Fin n → Timespec}
      (h : s.reporter = .merging timersCopy hist) :
      LogMoved s (.printForced now (unfinished timersCopy) (mergeAll (stopAll now timersCopy)))
        { s with reporter := .idle }

variable {bucket}

theorem logStep_moved {s u : LogState n} {e : LogEvent n} (h : logStep bucket s e = some u) :
    LogMoved bucket s e u := by
  cases e with
  | queue t execValue eventTime =>
    simp only [logStep] at h
    split_ifs at h with hv
    cases h
    exact .queue hv
  | start t now =>
    obtain ⟨⟨hl, hv⟩, h⟩ := Option.ite_none_right_eq_some.mp h
    obtain ⟨timer, hstart, rfl⟩ := Option.map_eq_some_iff.mp h
    exact .start hl hv hstart
  | stop t now elapsed =>
    obtain ⟨⟨hl, hv⟩, h⟩ := Option.ite_none_right_eq_some.mp h
    obtain ⟨timer, hstop, h⟩ := Option.bind_eq_some_iff.mp h
    obtain ⟨p, hvalue, hafter⟩ := Option.bind_eq_some_iff.mp h
    split_ifs at hafter with helapsed
    subst helapsed
    cases hafter
    -- a stopped timer keeps the value it was stopped with
    have hp : p = (timer.elapsed, timer) := by
      simpa [sbTimerValue, (sbTimerStop_eq hstop).2] using hvalue.symm
    subst hp
    exact .stop hl hv hstop
  | update t =>
    obtain ⟨v, hv, rfl⟩ := Option.map_eq_some_iff.mp h
    exact .update hv
  | copy =>
    simp only [logStep] at h
    split at h
    · cases h
      exact .copy ‹_›
    · cases h
  | calculate =>
    simp only [logStep] at h
    split at h
    · cases h
      exact .calculate ‹_›
    · cases h
  | reset =>
    simp only [logStep] at h
    split at h
    · cases h
      exact .reset ‹_›
    · cases h
  | print t =>
    simp only [logStep] at h
    split at h
    · split_ifs at h with heq
      subst heq
      cases h
      exact .print ‹_›
    · cases h
  | printForced now k t =>
    simp only [logStep] at h
    split at h
    · split_ifs at h with heq
      obtain ⟨rfl, rfl⟩ := heq
      cases h
      exact .printForced ‹_›
    · cases h

end Sysbench.Core
