import Sysbench.Machine.Locks

/-! # The mutexes of a test run

The lock skeletons of the threads and of what they call. A call through a function pointer is a
choice among what the pointer can hold, a condition that does not matter for the mutexes is a
choice. The conditions `n_checkpoints > 0` around the timers come in pairs and are kept.
-/
namespace Sysbench.Core.LockOrder

open Locks

inductive Mutex where
  | threadStart | reportInterval | exec | timers
  /-- of the histogram in `sb_logger.c` -/
  | percentile
  /-- of the histogram for the intermediate reports -/
  | localPercentile
  | stat (i : ℕ)
  | eventQueue | text | rnd
  /-- of the CPU test -/
  | request
  /-- of the database drivers -/
  | hosts
  /-- the locks that the threads and the mutex test are about -/
  | test (i : ℕ)
  deriving DecidableEq

def Mutex.rank : Mutex → ℕ
  | .threadStart => 0
  | .reportInterval => 1
  | .exec => 2
  | .timers => 3
  | .text => 5
  | _ => 4

inductive StatType where
  | intermediate | cumulative
  deriving DecidableEq

inductive TestName where
  | cpu | memory | threads | mutex | fileio | lua
  deriving DecidableEq

/-- What the skeletons depend on. -/
structure LockConfig where
  /-- `n_checkpoints > 0` -/
  checkpoints : Bool
  txRate : Bool
  numThreads : ℕ
  /-- the number of locks of the test -/
  testLocks : ℕ
  test : TestName

variable (cfg : LockConfig)

/-! ## Messages and statistics -/

/-- The duplicate check is made under the mutex, with a return inside. -/
def textHandlerProcess (allowDuplicates : Bool) : Cmd Mutex :=
  .call (block [maybe .ret, if allowDuplicates then .skip else holding .text [maybeLeave .text]])

def logText : Cmd Mutex := .call (textHandlerProcess false)

def logTimestamp : Cmd Mutex := .call (textHandlerProcess true)

def logErrno : Cmd Mutex := .call (block [maybe .ret, logText])

/-- The functions of `sb_timer.c` may warn. -/
def sbTimer : Cmd Mutex := .call (maybe logText)

def sbPercentileUpdate (m : Mutex) : Cmd Mutex := .call (holding m [])

def sbPercentileCalculate (m : Mutex) : Cmd Mutex := .call (holding m [maybeLeave m])

def sbPercentileReset (m : Mutex) : Cmd Mutex := .call (holding m [])

/-- A section under the timers' mutex, which is used with checkpoints only. -/
def holdingTimers (cs : List (Cmd Mutex)) : Cmd Mutex :=
  if cfg.checkpoints then holding .timers cs else block cs

/-- `LOG_EVENT_START` and `LOG_EVENT_STOP`. -/
def operHandlerProcess (start : Bool) : Cmd Mutex :=
  .call
    (if start then block [holdingTimers cfg [sbTimer], .ret]
    else block [holdingTimers cfg [sbTimer, sbTimer], sbPercentileUpdate .percentile])

def logEventStart : Cmd Mutex := .call (operHandlerProcess cfg true)

def logEventStop : Cmd Mutex := .call (operHandlerProcess cfg false)

def printGlobalStats : Cmd Mutex :=
  .call
    (block
      [sbTimer,
        holdingTimers cfg
          [sbTimer, sbPercentileCalculate .percentile, sbPercentileReset .percentile],
        .loop (anyOf [sbTimer, logText])])

def dbUpdateThreadStats (i : ℕ) : Cmd Mutex :=
  .call (block [maybe .ret, holding (.stat i) [maybe logText]])

def dbPrintStats (type : StatType) : Cmd Mutex :=
  .call
    (block
      [block ((List.range cfg.numThreads).map fun i => holding (.stat i) []),
        match type with
        | .intermediate =>
          block
            [sbTimer, sbPercentileCalculate .localPercentile, logTimestamp,
              if cfg.txRate then holding .eventQueue [logTimestamp] else .skip, holding .exec [],
              sbPercentileReset .localPercentile, .ret]
        | .cumulative => block [sbTimer, .loop logText, sbTimer]])

def filePrintStats : StatType → Cmd Mutex
  | .intermediate =>
    .call
      (block
        [holding .exec [sbTimer], sbPercentileCalculate .localPercentile, logTimestamp,
          sbPercentileReset .localPercentile])
  | .cumulative => .call (block [sbTimer, .loop logText, .call (maybe sbTimer)])

def memoryPrintStats : StatType → Cmd Mutex
  | .intermediate => .call (holding .exec [sbTimer, logTimestamp])
  | .cumulative => .call (block [sbTimer, .loop logText, maybe sbTimer])

def printStats (type : StatType) : Option (Cmd Mutex) :=
  match cfg.test with
  | .memory => some (memoryPrintStats type)
  | .fileio => some (filePrintStats type)
  | .lua => some (maybe (dbPrintStats cfg type))
  | _ => none

/-! ## Requests -/

def fileGetSeqRequest : Cmd Mutex :=
  .call
    (block
      [holding .exec [maybeLeave .exec, maybeLeave .exec, maybe (.call (maybe logText))], .ret])

def fileGetRndRequest : Cmd Mutex :=
  .call
    (block [holding .exec [maybeLeave .exec, maybeLeave .exec, maybeLeave .exec, .loop .skip], .ret])

def getRequest : Cmd Mutex :=
  match cfg.test with
  | .cpu => .call (block [maybe .ret, holding .request [], .ret])
  | .memory => .call (block [holding .exec [maybeLeave .exec], .ret])
  | .threads => .call (block [holding .exec [maybeLeave .exec], .ret])
  | .mutex => .call .ret
  | .fileio => .call (.choice fileGetSeqRequest fileGetRndRequest)
  | .lua => .call (block [maybe .ret, .ret])

def fileWait : Cmd Mutex :=
  .call
    (block
      [maybe (block [logErrno, .ret]),
        .loop (block [maybe (block [logText, .ret]), maybe (holding .exec [])]), .ret])

/-- `file_pread`, `file_pwrite` and `file_fsync`: in async mode through `file_submit_or_wait`. -/
def fileOperation : Cmd Mutex :=
  .call (anyOf [block [logErrno, .ret], .call (block [maybe (block [logErrno, .ret]), maybe fileWait])])

/-- What the drivers and the Lua API do for an event: messages, a new connection, statistics of a
query, a unique random number. -/
def luaCall (thread : ℕ) : Cmd Mutex :=
  anyOf
    [logText, .call (block [holding .hosts [], .loop logText, .ret]), dbUpdateThreadStats thread,
      .call (holding .rnd [])]

def executeRequest (thread : ℕ) : Cmd Mutex :=
  match cfg.test with
  | .cpu => .call (block [logEventStart cfg, logEventStop cfg])
  | .memory =>
    .call (block [logEventStart cfg, maybe (block [logText, .ret]), logEventStop cfg])
  | .threads | .mutex =>
    .call
      (block
        [logEventStart cfg,
          .loop (anyOf ((List.range cfg.testLocks).map fun i => holding (.test i) [])),
          logEventStop cfg])
  | .fileio =>
    .call
      (block
        [maybe logText, maybe (block [logText, .ret]), maybe (block [logText, .ret]),
          anyOf
            [block [logText, .ret],
              block
                [logEventStart cfg, fileOperation, maybe (block [logErrno, .ret]),
                  maybe (block [fileOperation, maybe (block [logErrno, .ret]), holding .exec []]),
                  logEventStop cfg, sbTimer, sbPercentileUpdate .localPercentile,
                  maybe (holding .exec [])],
              block
                [logEventStart cfg, fileOperation, maybe (block [logErrno, .ret]),
                  logEventStop cfg, sbTimer, sbPercentileUpdate .localPercentile,
                  maybe (block [logText, .ret]), maybe (holding .exec [])],
              block [fileOperation, maybe (block [logErrno, .ret]), maybe (holding .exec [])]]])
  | .lua =>
    .call
      (block
        [logEventStart cfg, .loop (luaCall thread), maybe (block [logText, .ret]),
          logEventStop cfg, sbTimer, sbPercentileUpdate .localPercentile])

/-- `sb_lua_op_thread_init` and `sb_lua_op_thread_done`. -/
def luaOpThread (thread : ℕ) : Cmd Mutex :=
  .call (block [.loop (luaCall thread), maybe (block [logText, .ret])])

/-- The queued operations of the thread are waited for. -/
def fileThreadDone : Cmd Mutex := .call (block [maybe (block [fileWait, .ret]), .ret])

def threadInit (thread : ℕ) : Cmd Mutex :=
  match cfg.test with
  | .lua => luaOpThread thread
  | _ => .skip

def threadDone (thread : ℕ) : Cmd Mutex :=
  match cfg.test with
  | .lua => luaOpThread thread
  | .fileio => fileThreadDone
  | _ => .skip

/-! ## Threads -/

/-- `pthread_cond_wait` unlocks the mutex and locks it again. -/
def condWait (m : Mutex) : Cmd Mutex := block [.unlock m, .lock m]

/-- The loop of `runner_thread`, which a `break` leaves: a call that it returns from. -/
def runnerLoop (thread : ℕ) : Cmd Mutex :=
  .call
    (.loop
      (block
        [if cfg.txRate then
            block
              [maybe (block [logText, .ret]), holding .eventQueue [.loop (condWait .eventQueue)],
                sbTimer]
          else .skip,
          getRequest cfg, maybe (block [executeRequest cfg thread, maybe .ret]),
          if cfg.txRate then holding .eventQueue [] else .skip,
          maybe (block [sbTimer, maybe (block [logText, .ret])])]))

def runnerThread (thread : ℕ) : Cmd Mutex :=
  block
    [logText, maybe (block [threadInit cfg thread, maybe .ret]), holding .threadStart [],
      runnerLoop cfg thread, maybe (threadDone cfg thread), holding .threadStart [], .ret]

def eventgenThreadProc : Cmd Mutex :=
  block
    [logText, holding .threadStart [], sbTimer,
      .loop
        (block
          [sbTimer, maybe logTimestamp, sbTimer, holding .eventQueue [],
            maybe (block [logText, .ret])])]

def reportThreadProc : Cmd Mutex :=
  match printStats cfg .intermediate with
  | none => block [logText, .ret]
  | some report =>
    block
      [logText, holding .threadStart [], sbTimer,
        .loop (block [holding .reportInterval [maybe report], sbTimer])]

def checkpointsThreadProc : Cmd Mutex :=
  match printStats cfg .cumulative with
  | none => block [logText, .ret]
  | some report =>
    block
      [logText, holding .threadStart [],
        .loop
          (block
            [sbTimer,
              maybe
                (block [sbTimer, holding .exec [logTimestamp, report, printGlobalStats cfg]])]),
        .ret]

/-- `run_test`, up to the cancellation of the threads. `failed` is the error return while the
threads are created. -/
def runTestWith (failed : Cmd Mutex) : Cmd Mutex :=
  block
    [.loop logText, maybe .ret, .loop logText, maybe .ret,
      holding .threadStart
        [block [maybe (block [logErrno, failed]), maybe (block [logErrno, failed]),
            maybe (block [logErrno, failed]),
            .loop (block [maybe failed, maybe (block [logErrno, failed])])],
          sbTimer, sbTimer, sbTimer],
      logText, .loop logErrno, sbTimer, sbTimer, sbTimer, holding .reportInterval [], logText,
      maybe .ret, (printStats cfg .cumulative).elim .skip maybe, .loop logText]

inductive ThreadName where
  | main
  | runner (i : ℕ)
  | report | checkpoints | eventgen
  deriving DecidableEq

def threadProcWith (failed : Cmd Mutex) : ThreadName → Cmd Mutex
  | .main => runTestWith cfg failed
  | .runner i => runnerThread cfg i
  | .report => reportThreadProc cfg
  | .checkpoints => checkpointsThreadProc cfg
  | .eventgen => eventgenThreadProc

def initThreadsWith (failed : Cmd Mutex) (t : ThreadName) : Thread Mutex :=
  .start (threadProcWith cfg failed t)

/-- `main` ends the process when `run_test` fails. -/
def initThreads (t : ThreadName) : Thread Mutex := initThreadsWith cfg .fail t

/-! ## What each function locks -/

variable {cfg} {r : ℕ} {m : Mutex} {cs : List (Cmd Mutex)}

theorem textHandlerProcess_keeps (dup : Bool) (hr : r ≤ 5) :
    Keeps Mutex.rank r (textHandlerProcess dup) := by
  apply Keeps.call
  apply Body.cons (.maybe .ret)
  cases dup with
  | false => exact .cons (.holding hr (.cons .maybeLeave .nil)) .nil
  | true => exact .cons Keeps.skip.body .nil

theorem logText_keeps (hr : r ≤ 5) : Keeps Mutex.rank r logText :=
  .call (textHandlerProcess_keeps false hr).body

theorem logTimestamp_keeps (hr : r ≤ 5) : Keeps Mutex.rank r logTimestamp :=
  .call (textHandlerProcess_keeps true hr).body

theorem logErrno_keeps (hr : r ≤ 5) : Keeps Mutex.rank r logErrno :=
  .call (.cons (.maybe .ret) (.cons (logText_keeps hr).body .nil))

theorem sbTimer_keeps (hr : r ≤ 5) : Keeps Mutex.rank r sbTimer :=
  .call (logText_keeps hr).maybe.body

theorem section_keeps (hr : r ≤ m.rank) : Keeps Mutex.rank r (holding m []) := .holding hr .nil

theorem sbPercentileUpdate_keeps (hr : r ≤ m.rank) : Keeps Mutex.rank r (sbPercentileUpdate m) :=
  .call (section_keeps hr).body

theorem sbPercentileReset_keeps (hr : r ≤ m.rank) : Keeps Mutex.rank r (sbPercentileReset m) :=
  .call (section_keeps hr).body

theorem sbPercentileCalculate_keeps (hr : r ≤ m.rank) :
    Keeps Mutex.rank r (sbPercentileCalculate m) :=
  .call (.holding hr (.cons .maybeLeave .nil))

theorem holdingTimers_keeps (hr : r ≤ 3) (h : Keeps Mutex.rank 4 (block cs)) :
    Keeps Mutex.rank r (holdingTimers cfg cs) := by
  rw [holdingTimers]
  split
  · exact .holding hr h
  · exact h.mono (hr.trans (by decide))

theorem operHandlerProcess_keeps (start : Bool) (hr : r ≤ 3) :
    Keeps Mutex.rank r (operHandlerProcess cfg start) := by
  have htimer : Keeps Mutex.rank 4 sbTimer := sbTimer_keeps (by decide)
  apply Keeps.call
  cases start with
  | true => exact .cons (holdingTimers_keeps hr (.cons htimer .nil)).body (.cons .ret .nil)
  | false =>
    have hupdate : Keeps Mutex.rank r (sbPercentileUpdate .percentile) :=
      sbPercentileUpdate_keeps (hr.trans (by decide))
    exact .cons (holdingTimers_keeps hr (.cons htimer (.cons htimer .nil))).body
      (.cons hupdate.body .nil)

theorem logEventStart_keeps (hr : r ≤ 3) : Keeps Mutex.rank r (logEventStart cfg) :=
  .call (operHandlerProcess_keeps true hr).body

theorem logEventStop_keeps (hr : r ≤ 3) : Keeps Mutex.rank r (logEventStop cfg) :=
  .call (operHandlerProcess_keeps false hr).body

theorem printGlobalStats_keeps (hr : r ≤ 3) : Keeps Mutex.rank r (printGlobalStats cfg) := by
  have htimer : Keeps Mutex.rank r sbTimer := sbTimer_keeps (hr.trans (by decide))
  have htext : Keeps Mutex.rank r logText := logText_keeps (hr.trans (by decide))
  have hsection : Keeps Mutex.rank r
      (holdingTimers cfg
        [sbTimer, sbPercentileCalculate .percentile, sbPercentileReset .percentile]) :=
    holdingTimers_keeps hr (.cons (sbTimer_keeps (by decide))
      (.cons (sbPercentileCalculate_keeps (by decide))
        (.cons (sbPercentileReset_keeps (by decide)) .nil)))
  apply Keeps.call
  exact (htimer.cons (hsection.cons (.cons (.loop (htimer.alt (htext.alt .none))) .nil))).body

theorem dbUpdateThreadStats_keeps (i : ℕ) (hr : r ≤ 4) :
    Keeps Mutex.rank r (dbUpdateThreadStats i) := by
  have htext : Keeps Mutex.rank 5 logText := logText_keeps (by decide)
  apply Keeps.call
  exact .cons (.maybe .ret)
    (.cons (Keeps.holding (m := Mutex.stat i) hr (.cons htext.maybe .nil)).body .nil)

/-- The sections of the threads' statistics are entered one after another. -/
theorem statSections_keeps (n : ℕ) (hr : r ≤ 4) :
    Keeps Mutex.rank r (block ((List.range n).map fun i => holding (Mutex.stat i) [])) := by
  apply Keeps.block_of_forall
  intro c hc
  obtain ⟨i, -, rfl⟩ := List.mem_map.mp hc
  exact section_keeps hr

/-- An intermediate report enters the section of `exec_mutex`; a cumulative one, which may be
printed inside of it, does not. -/
def StatType.level : StatType → ℕ
  | .intermediate => 2
  | .cumulative => 3

theorem dbPrintStats_keeps (type : StatType) :
    Keeps Mutex.rank type.level (dbPrintStats cfg type) := by
  apply Keeps.call
  cases type with
  | intermediate =>
    have hqueue : Keeps Mutex.rank 2
        (if cfg.txRate then holding .eventQueue [logTimestamp] else .skip) := by
      split
      · exact .holding (by decide) (.cons (logTimestamp_keeps (by decide)) .nil)
      · exact .skip
    apply Body.cons (statSections_keeps _ (by decide)).body
    refine .cons (.cons (sbTimer_keeps (by decide)).body ?_) .nil
    apply Body.cons (sbPercentileCalculate_keeps (by decide)).body
    apply Body.cons (logTimestamp_keeps (by decide)).body
    apply Body.cons hqueue.body
    apply Body.cons (section_keeps (by decide)).body
    exact .cons (sbPercentileReset_keeps (by decide)).body (.cons .ret .nil)
  | cumulative =>
    have htimer : Keeps Mutex.rank 3 sbTimer := sbTimer_keeps (by decide)
    have htext : Keeps Mutex.rank 3 logText := logText_keeps (by decide)
    apply Body.cons (statSections_keeps _ (by decide)).body
    exact .cons (htimer.cons (htext.loop.cons (htimer.cons .nil))).body .nil

theorem filePrintStats_keeps (type : StatType) :
    Keeps Mutex.rank type.level (filePrintStats type) := by
  cases type with
  | intermediate =>
    apply Keeps.call
    apply Body.cons (Keeps.holding (by decide) (.cons (sbTimer_keeps (by decide)) .nil)).body
    apply Body.cons (sbPercentileCalculate_keeps (by decide)).body
    apply Body.cons (logTimestamp_keeps (by decide)).body
    exact .cons (sbPercentileReset_keeps (by decide)).body .nil
  | cumulative =>
    have hclear : Keeps Mutex.rank StatType.cumulative.level (.call (maybe sbTimer)) :=
      .call (sbTimer_keeps (by decide)).maybe.body
    apply Keeps.call
    apply Body.cons (sbTimer_keeps (by decide)).body
    exact .cons (logText_keeps (by decide)).loop.body (.cons hclear.body .nil)

theorem memoryPrintStats_keeps (type : StatType) :
    Keeps Mutex.rank type.level (memoryPrintStats type) := by
  cases type with
  | intermediate =>
    have hin : Keeps Mutex.rank 3 (block [sbTimer, logTimestamp]) :=
      .cons (sbTimer_keeps (by decide)) (.cons (logTimestamp_keeps (by decide)) .nil)
    exact .call (Keeps.holding (by decide) hin).body
  | cumulative =>
    have htimer : Keeps Mutex.rank 3 sbTimer := sbTimer_keeps (by decide)
    have htext : Keeps Mutex.rank 3 logText := logText_keeps (by decide)
    exact .call (htimer.cons (htext.loop.cons (htimer.maybe.cons .nil))).body

theorem printStats_keeps {type : StatType} {report : Cmd Mutex}
    (h : printStats cfg type = some report) : Keeps Mutex.rank type.level report := by
  rw [printStats] at h
  split at h
  · obtain rfl := Option.some.inj h
    exact memoryPrintStats_keeps type
  · obtain rfl := Option.some.inj h
    exact filePrintStats_keeps type
  · obtain rfl := Option.some.inj h
    exact (dbPrintStats_keeps type).maybe
  · cases h

/-! ## Requests -/

theorem fileGetSeqRequest_keeps (hr : r ≤ 2) : Keeps Mutex.rank r fileGetSeqRequest := by
  have hwarn : Keeps Mutex.rank 3 (.call (maybe logText)) :=
    .call (logText_keeps (by decide)).maybe.body
  have hin : Inside Mutex.rank .exec r
      (block [maybeLeave .exec, maybeLeave .exec, maybe (.call (maybe logText))]) :=
    .cons .maybeLeave (.cons .maybeLeave (.cons (hwarn.maybe.inside hr) .nil))
  exact .call (.cons (.holding hr hin) (.cons .ret .nil))

theorem fileGetRndRequest_keeps (hr : r ≤ 2) : Keeps Mutex.rank r fileGetRndRequest := by
  have hin : Inside Mutex.rank .exec r
      (block [maybeLeave .exec, maybeLeave .exec, maybeLeave .exec, .loop .skip]) :=
    .cons .maybeLeave (.cons .maybeLeave (.cons .maybeLeave
      (.cons (Keeps.skip.loop.inside hr) .nil)))
  exact .call (.cons (.holding hr hin) (.cons .ret .nil))

theorem getRequest_keeps (hr : r ≤ 2) : Keeps Mutex.rank r (getRequest cfg) := by
  have hleave : Inside Mutex.rank .exec r (block [maybeLeave .exec]) := .cons .maybeLeave .nil
  rw [getRequest]
  split
  · have hcount : Keeps Mutex.rank r (holding .request []) :=
      section_keeps (hr.trans (by decide))
    exact .call (.cons (.maybe .ret) (.cons hcount.body (.cons .ret .nil)))
  · exact .call (.cons (.holding hr hleave) (.cons .ret .nil))
  · exact .call (.cons (.holding hr hleave) (.cons .ret .nil))
  · exact .call .ret
  · exact .call ((fileGetSeqRequest_keeps hr).choice (fileGetRndRequest_keeps hr)).body
  · exact .call (.cons (.maybe .ret) (.cons .ret .nil))

theorem failed_body {c : Cmd Mutex} (hc : Keeps Mutex.rank r c) :
    Body Mutex.rank r (maybe (block [c, .ret])) := .maybe (.cons hc.body (.cons .ret .nil))

theorem fileWait_keeps (hr : r ≤ 2) : Keeps Mutex.rank r fileWait := by
  have herrno : Keeps Mutex.rank r logErrno := logErrno_keeps (hr.trans (by decide))
  have htext : Keeps Mutex.rank r logText := logText_keeps (hr.trans (by decide))
  have hsection : Keeps Mutex.rank r (holding .exec []) := section_keeps hr
  apply Keeps.call
  apply Body.cons (failed_body herrno)
  exact .cons (.loop (.cons (failed_body htext) (.cons hsection.maybe.body .nil))) (.cons .ret .nil)

theorem fileOperation_keeps (hr : r ≤ 2) : Keeps Mutex.rank r fileOperation := by
  have herrno : Keeps Mutex.rank r logErrno := logErrno_keeps (hr.trans (by decide))
  have hsubmit : Keeps Mutex.rank r
      (.call (block [maybe (block [logErrno, .ret]), maybe fileWait])) :=
    .call (.cons (failed_body herrno) (.cons (fileWait_keeps hr).maybe.body .nil))
  exact .call (.alt (.cons herrno.body (.cons .ret .nil)) (.alt hsubmit.body .none))

theorem luaCall_keeps (thread : ℕ) (hr : r ≤ 2) : Keeps Mutex.rank r (luaCall thread) := by
  have htext : Keeps Mutex.rank r logText := logText_keeps (hr.trans (by decide))
  have hhosts : Keeps Mutex.rank r (holding .hosts []) := section_keeps (hr.trans (by decide))
  have hrnd : Keeps Mutex.rank r (holding .rnd []) := section_keeps (hr.trans (by decide))
  have hconnect : Keeps Mutex.rank r (.call (block [holding .hosts [], .loop logText, .ret])) :=
    .call (.cons hhosts.body (.cons htext.loop.body (.cons .ret .nil)))
  apply htext.alt
  apply hconnect.alt
  exact (dbUpdateThreadStats_keeps thread (hr.trans (by decide))).alt ((Keeps.call hrnd.body).alt .none)

theorem executeRequest_keeps (thread : ℕ) (hr : r ≤ 2) :
    Keeps Mutex.rank r (executeRequest cfg thread) := by
  have herrno : Keeps Mutex.rank r logErrno := logErrno_keeps (hr.trans (by decide))
  have htext : Keeps Mutex.rank r logText := logText_keeps (hr.trans (by decide))
  have htimer : Keeps Mutex.rank r sbTimer := sbTimer_keeps (hr.trans (by decide))
  have hstart : Keeps Mutex.rank r (logEventStart cfg) := logEventStart_keeps (hr.trans (by decide))
  have hstop : Keeps Mutex.rank r (logEventStop cfg) := logEventStop_keeps (hr.trans (by decide))
  have hlocal : Keeps Mutex.rank r (sbPercentileUpdate .localPercentile) :=
    sbPercentileUpdate_keeps (hr.trans (by decide))
  have hlocks : Keeps Mutex.rank r
      (anyOf ((List.range cfg.testLocks).map fun i => holding (Mutex.test i) [])) := by
    apply Keeps.anyOf_of_forall
    intro c hc
    obtain ⟨i, -, rfl⟩ := List.mem_map.mp hc
    exact section_keeps (m := Mutex.test i) (hr.trans (by decide : 2 ≤ 4))
  have hexec : Keeps Mutex.rank r (holding .exec []) := section_keeps hr
  rw [executeRequest]
  split
  · exact .call (hstart.cons (hstop.cons .nil)).body
  · exact .call (.cons hstart.body (.cons (failed_body htext) (.cons hstop.body .nil)))
  · exact .call (hstart.cons (hlocks.loop.cons (hstop.cons .nil))).body
  · exact .call (hstart.cons (hlocks.loop.cons (hstop.cons .nil))).body
  · have hoperation : Body Mutex.rank r fileOperation := (fileOperation_keeps hr).body
    have hwrite : Body Mutex.rank r
        (maybe (block [fileOperation, maybe (block [logErrno, .ret]), holding .exec []])) :=
      .maybe (.cons hoperation (.cons (failed_body herrno) (.cons hexec.body .nil)))
    apply Keeps.call
    apply Body.cons htext.maybe.body
    apply Body.cons (failed_body htext)
    apply Body.cons (failed_body htext)
    refine .cons (.alt (.cons htext.body (.cons .ret .nil)) (.alt ?_ (.alt ?_ (.alt ?_ .none)))) .nil
    · apply Body.cons hstart.body
      apply Body.cons hoperation
      apply Body.cons (failed_body herrno)
      apply Body.cons hwrite
      exact (hstop.cons (htimer.cons (hlocal.cons (hexec.maybe.cons .nil)))).body
    · apply Body.cons hstart.body
      apply Body.cons hoperation
      apply Body.cons (failed_body herrno)
      apply Body.cons (hstop.body)
      apply Body.cons htimer.body
      apply Body.cons hlocal.body
      exact .cons (failed_body htext) (.cons hexec.maybe.body .nil)
    · exact .cons hoperation (.cons (failed_body herrno) (.cons hexec.maybe.body .nil))
  · apply Keeps.call
    apply Body.cons hstart.body
    apply Body.cons (luaCall_keeps thread hr).loop.body
    apply Body.cons (failed_body htext)
    exact (hstop.cons (htimer.cons (hlocal.cons .nil))).body

theorem luaOpThread_keeps (thread : ℕ) (hr : r ≤ 2) : Keeps Mutex.rank r (luaOpThread thread) := by
  have htext : Keeps Mutex.rank r logText := logText_keeps (hr.trans (by decide))
  exact .call (.cons (luaCall_keeps thread hr).loop.body (.cons (failed_body htext) .nil))

theorem threadInit_keeps (thread : ℕ) (hr : r ≤ 2) : Keeps Mutex.rank r (threadInit cfg thread) := by
  rw [threadInit]
  split
  · exact luaOpThread_keeps thread hr
  · exact .skip

theorem threadDone_keeps (thread : ℕ) (hr : r ≤ 2) : Keeps Mutex.rank r (threadDone cfg thread) := by
  rw [threadDone]
  split
  · exact luaOpThread_keeps thread hr
  · exact .call (.cons (failed_body (fileWait_keeps hr)) (.cons .ret .nil))
  · exact .skip

/-! ## What each thread locks -/

/-- The event queue's mutex is given up and taken again while a thread waits. -/
theorem queueWait_keeps (hr : r ≤ 4) :
    Keeps Mutex.rank r (holding .eventQueue [.loop (condWait .eventQueue)]) := by
  intro base held hh
  have hlt : ∀ x ∈ held, x.rank < Mutex.eventQueue.rank := fun x hx => (hh x hx).trans_le hr
  have hwait : Typed Mutex.rank base (.eventQueue :: held) (condWait .eventQueue)
      (.eventQueue :: held) := .seq .unlock (.seq (.lock hlt) .skip)
  exact .seq (.lock hlt) (.seq (.seq (.loop hwait) .skip) (.seq .unlock .skip))

theorem runnerLoop_keeps (thread : ℕ) (hr : r ≤ 2) : Keeps Mutex.rank r (runnerLoop cfg thread) := by
  have htext : Keeps Mutex.rank r logText := logText_keeps (hr.trans (by decide))
  have htimer : Keeps Mutex.rank r sbTimer := sbTimer_keeps (hr.trans (by decide))
  have hqueue : Keeps Mutex.rank r (holding .eventQueue []) := section_keeps (hr.trans (by decide))
  apply Keeps.call
  apply Body.loop
  refine .cons ?_ (.cons (getRequest_keeps hr).body (.cons ?_ (.cons ?_ (.cons ?_ .nil))))
  · split
    · have hwait := queueWait_keeps (r := r) (hr.trans (by decide))
      exact .cons (failed_body htext) (.cons hwait.body (.cons htimer.body .nil))
    · exact Keeps.skip.body
  · exact .maybe (.cons (executeRequest_keeps thread hr).body (.cons (.maybe .ret) .nil))
  · split
    · exact hqueue.body
    · exact Keeps.skip.body
  · exact .maybe (.cons htimer.body (.cons (failed_body htext) .nil))

theorem runnerThread_body (thread : ℕ) : Body Mutex.rank 0 (runnerThread cfg thread) := by
  have hstart : Keeps Mutex.rank 0 (holding .threadStart []) := section_keeps (by decide)
  have hinit : Keeps Mutex.rank 0 (threadInit cfg thread) := threadInit_keeps thread (by decide)
  have hdone : Keeps Mutex.rank 0 (threadDone cfg thread) := threadDone_keeps thread (by decide)
  apply Body.cons (logText_keeps (by decide)).body
  apply Body.cons (.maybe (.cons hinit.body (.cons (.maybe .ret) .nil)))
  apply Body.cons hstart.body
  apply Body.cons (runnerLoop_keeps thread (by decide)).body
  exact .cons hdone.maybe.body (.cons hstart.body (.cons .ret .nil))

theorem eventgenThreadProc_body : Body Mutex.rank 0 eventgenThreadProc := by
  have htext : Keeps Mutex.rank 0 logText := logText_keeps (by decide)
  have htimer : Keeps Mutex.rank 0 sbTimer := sbTimer_keeps (by decide)
  have hqueue : Keeps Mutex.rank 0 (holding .eventQueue []) := section_keeps (by decide)
  apply Body.cons htext.body
  apply Body.cons (section_keeps (by decide)).body
  apply Body.cons htimer.body
  refine .cons (.loop ?_) .nil
  apply Body.cons htimer.body
  apply Body.cons (logTimestamp_keeps (by decide)).maybe.body
  apply Body.cons htimer.body
  exact .cons hqueue.body (.cons (failed_body htext) .nil)

theorem reportThreadProc_body : Body Mutex.rank 0 (reportThreadProc cfg) := by
  have htext : Keeps Mutex.rank 0 logText := logText_keeps (by decide)
  have htimer : Keeps Mutex.rank 0 sbTimer := sbTimer_keeps (by decide)
  rw [reportThreadProc]
  split
  · exact .cons htext.body (.cons .ret .nil)
  · rename_i report hreport
    have hin : Keeps Mutex.rank 0 (holding .reportInterval [maybe report]) :=
      .holding (by decide) (.cons (printStats_keeps hreport).maybe .nil)
    apply Body.cons htext.body
    apply Body.cons (section_keeps (by decide)).body
    exact .cons htimer.body (.cons (hin.cons (htimer.cons .nil)).loop.body .nil)

theorem checkpointsThreadProc_body : Body Mutex.rank 0 (checkpointsThreadProc cfg) := by
  have htext : Keeps Mutex.rank 0 logText := logText_keeps (by decide)
  have htimer : Keeps Mutex.rank 0 sbTimer := sbTimer_keeps (by decide)
  rw [checkpointsThreadProc]
  split
  · exact .cons htext.body (.cons .ret .nil)
  · rename_i report hreport
    have hin : Keeps Mutex.rank 0 (holding .exec [logTimestamp, report, printGlobalStats cfg]) :=
      .holding (by decide) (.cons (logTimestamp_keeps (by decide))
        (.cons (printStats_keeps hreport) (.cons (printGlobalStats_keeps (by decide)) .nil)))
    have hloop := (htimer.cons ((htimer.cons (hin.cons .nil)).maybe.cons .nil)).loop
    apply Body.cons htext.body
    apply Body.cons (section_keeps (by decide)).body
    exact .cons hloop.body (.cons .ret .nil)

/-- After an error return of `run_test` nothing follows. -/
theorem runTestWith_body : Body Mutex.rank 0 (runTestWith cfg .fail) := by
  have htext : Keeps Mutex.rank 0 logText := logText_keeps (by decide)
  have htimer : Keeps Mutex.rank 0 sbTimer := sbTimer_keeps (by decide)
  have hin : Keeps Mutex.rank 1
      (block
        [block [maybe (block [logErrno, .fail]), maybe (block [logErrno, .fail]),
            maybe (block [logErrno, .fail]),
            .loop (block [maybe .fail, maybe (block [logErrno, .fail])])],
          sbTimer, sbTimer, sbTimer]) := by
    have htimer' : Keeps Mutex.rank 1 sbTimer := sbTimer_keeps (by decide)
    have hfail : Keeps Mutex.rank 1 (maybe (block [logErrno, .fail])) :=
      ((logErrno_keeps (by decide)).cons (Keeps.fail.cons .nil)).maybe
    have hcreate := (Keeps.fail.maybe.cons (hfail.cons .nil)).loop
    exact (hfail.cons (hfail.cons (hfail.cons (hcreate.cons .nil)))).cons
      (htimer'.cons (htimer'.cons (htimer'.cons .nil)))
  have hcreate : Keeps Mutex.rank 0 (holding .threadStart _) := .holding (Nat.zero_le _) hin
  have hsilence : Keeps Mutex.rank 0 (holding .reportInterval []) := section_keeps (by decide)
  have hreport : Keeps Mutex.rank 0 ((printStats cfg .cumulative).elim .skip maybe) := by
    cases h : printStats cfg .cumulative with
    | none => exact .skip
    | some report => exact (Keeps.mono (printStats_keeps h) (Nat.zero_le _)).maybe
  apply Body.cons htext.loop.body
  apply Body.cons (.maybe .ret)
  apply Body.cons htext.loop.body
  apply Body.cons (.maybe .ret)
  apply Body.cons hcreate.body
  apply Body.cons htext.body
  apply Body.cons (logErrno_keeps (by decide)).loop.body
  apply Body.cons htimer.body
  apply Body.cons htimer.body
  apply Body.cons htimer.body
  apply Body.cons hsilence.body
  apply Body.cons htext.body
  apply Body.cons (.maybe .ret)
  exact (hreport.cons (htext.loop.cons .nil)).body

theorem threadProc_body (t : ThreadName) : Body Mutex.rank 0 (threadProcWith cfg .fail t) := by
  cases t with
  | main => exact runTestWith_body
  | runner i => exact runnerThread_body i
  | report => exact reportThreadProc_body
  | checkpoints => exact checkpointsThreadProc_body
  | eventgen => exact eventgenThreadProc_body

theorem initThreads_disciplined (t : ThreadName) : Disciplined Mutex.rank (initThreads cfg t) :=
  disciplined_start (threadProc_body t fun _ hx => absurd hx List.not_mem_nil)

/-! ## The discipline -/

/-- No thread asks for a mutex it holds; nested mutexes are taken in the order of their ranks; a
function returns with what was held at its call; no threads wait for each other in a circle. -/
structure LockDiscipline (s : ThreadName → Thread Mutex) : Prop where
  notHeld : ∀ t m, (s t).wants = some m → m ∉ (s t).held
  nested : ∀ t m, (s t).wants = some m → ∀ x ∈ (s t).held, x.rank < m.rank
  released : ∀ t k entry cs, (s t).Returning → (s t).callers = (k, entry) :: cs →
    (s t).held = entry
  acyclic : ∀ t, ¬ Relation.TransGen (WaitsFor s) t t

theorem logErrno_runs {h : List Mutex} {k : List (Cmd Mutex)}
    {callers : List (List (Cmd Mutex) × List Mutex)} (hh : Mutex.text ∉ h) :
    Relation.ReflTransGen OwnStep ⟨h, logErrno :: k, callers⟩ ⟨h, k, callers⟩ := by
  apply Relation.ReflTransGen.head (.of_wants .call rfl)
  apply Relation.ReflTransGen.head (.of_wants .seq rfl)
  apply Relation.ReflTransGen.head (.of_wants .right rfl)
  apply Relation.ReflTransGen.head (.of_wants .skip rfl)
  apply Relation.ReflTransGen.head (.of_wants .seq rfl)
  apply Relation.ReflTransGen.head (.of_wants .call rfl)
  apply Relation.ReflTransGen.head (.of_wants .call rfl)
  apply Relation.ReflTransGen.head (.of_wants .seq rfl)
  apply Relation.ReflTransGen.head (.of_wants .right rfl)
  apply Relation.ReflTransGen.head (.of_wants .skip rfl)
  apply Relation.ReflTransGen.head (.of_wants .seq rfl)
  apply Relation.ReflTransGen.head (.of_wants .seq rfl)
  apply Relation.ReflTransGen.head (b := ⟨.text :: h, _, _⟩)
  · exact ⟨.lock, fun m hm => by cases hm; exact hh⟩
  apply Relation.ReflTransGen.head (.of_wants .seq rfl)
  apply Relation.ReflTransGen.head (.of_wants .seq rfl)
  apply Relation.ReflTransGen.head (.of_wants .right rfl)
  apply Relation.ReflTransGen.head (.of_wants .skip rfl)
  apply Relation.ReflTransGen.head (.of_wants .skip rfl)
  apply Relation.ReflTransGen.head (.of_wants .seq rfl)
  apply Relation.ReflTransGen.head (b := ⟨h, _, _⟩) (.of_wants .unlock rfl)
  apply Relation.ReflTransGen.head (.of_wants .skip rfl)
  apply Relation.ReflTransGen.head (.of_wants .skip rfl)
  apply Relation.ReflTransGen.head (.of_wants .done rfl)
  apply Relation.ReflTransGen.head (.of_wants .done rfl)
  apply Relation.ReflTransGen.head (.of_wants .skip rfl)
  apply Relation.ReflTransGen.head (.of_wants .done rfl)
  exact .refl

/-- The creation of the first thread fails. -/
theorem runTest_fails (cfg : LockConfig) (failed : Cmd Mutex) :
    ∃ k, Relation.ReflTransGen OwnStep (initThreadsWith cfg failed .main)
      ⟨[.threadStart], failed :: k, [([], [])]⟩ := by
  apply Exists.intro
  apply Relation.ReflTransGen.head (.of_wants .call rfl)
  apply Relation.ReflTransGen.head (.of_wants .seq rfl)
  apply Relation.ReflTransGen.head (.of_wants .leave rfl)
  apply Relation.ReflTransGen.head (.of_wants .seq rfl)
  apply Relation.ReflTransGen.head (.of_wants .right rfl)
  apply Relation.ReflTransGen.head (.of_wants .skip rfl)
  apply Relation.ReflTransGen.head (.of_wants .seq rfl)
  apply Relation.ReflTransGen.head (.of_wants .leave rfl)
  apply Relation.ReflTransGen.head (.of_wants .seq rfl)
  apply Relation.ReflTransGen.head (.of_wants .right rfl)
  apply Relation.ReflTransGen.head (.of_wants .skip rfl)
  apply Relation.ReflTransGen.head (.of_wants .seq rfl)
  apply Relation.ReflTransGen.head (.of_wants .seq rfl)
  apply Relation.ReflTransGen.head (b := ⟨[.threadStart], _, _⟩) ⟨.lock, fun _ _ => List.not_mem_nil⟩
  apply Relation.ReflTransGen.head (.of_wants .seq rfl)
  apply Relation.ReflTransGen.head (.of_wants .seq rfl)
  apply Relation.ReflTransGen.head (.of_wants .seq rfl)
  apply Relation.ReflTransGen.head (.of_wants .left rfl)
  apply Relation.ReflTransGen.head (.of_wants .seq rfl)
  apply Relation.ReflTransGen.trans (logErrno_runs (by decide))
  apply Relation.ReflTransGen.head (.of_wants .seq rfl)
  exact .refl

theorem initThreadsWith_fails (cfg : LockConfig) (failed : Cmd Mutex) :
    ∃ k, Reachable (initThreadsWith cfg failed)
      (Function.update (initThreadsWith cfg failed) .main
        ⟨[.threadStart], failed :: k, [([], [])]⟩) := by
  obtain ⟨k, hk⟩ := runTest_fails cfg failed
  exact ⟨k, .alone (fun _ _ => rfl) hk⟩

def cpuTest : LockConfig :=
  { checkpoints := false, txRate := false, numThreads := 1, testLocks := 0, test := .cpu }

/-- An error return of `run_test` keeps the mutex that the threads wait for. -/
theorem lockDiscipline_failed :
    ∃ s, Reachable (initThreadsWith cpuTest .ret) s ∧ ¬ LockDiscipline s := by
  obtain ⟨k, hk⟩ := initThreadsWith_fails cpuTest .ret
  refine ⟨_, hk, fun hs => ?_⟩
  have hheld := hs.released .main [] [] [] (Or.inr ⟨k, rfl⟩) rfl
  cases hheld

theorem lockDiscipline {s : ThreadName → Thread Mutex} (h : Reachable (initThreads cfg) s) :
    LockDiscipline s := by
  have hs : ∀ t, Disciplined Mutex.rank (s t) := h.disciplined initThreads_disciplined
  constructor
  case notHeld => exact fun t m hm => (hs t).not_mem hm
  case nested => exact fun t m hm x hx => (hs t).rank_lt hm hx
  case released => exact fun t k entry cs hr hcs => (hs t).returns hr hcs
  case acyclic => exact no_cycle hs

theorem lockDiscipline_creating :
    ∃ k, LockDiscipline
      (Function.update (initThreads cpuTest) .main ⟨[.threadStart], .fail :: k, [([], [])]⟩) := by
  obtain ⟨k, hk⟩ := initThreadsWith_fails cpuTest .fail
  exact ⟨k, lockDiscipline hk⟩

end Sysbench.Core.LockOrder
