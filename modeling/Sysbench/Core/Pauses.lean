import Sysbench.Core.RunTest

/-! # The pauses of the reporting threads

`checkpoints_thread_proc` and `report_thread_proc` compute their pauses in 64 bits and hand the
microseconds to `usleep`, whose parameter has 32. A pause of 2^32 microseconds or more is cut.
-/
namespace Sysbench.Core

open Words Runs

/-- What `usleep(pause_ns / 1000)` receives; `useconds_t` is a 32-bit word. -/
def usleepArg (pauseNs : ℕ) : ℕ := toUInt 32 (pauseNs / 1000 : ℕ)

/-- The pause before the report of a checkpoint, unless its time has passed. -/
def checkpointPause (checkpoint currNs : ℕ) : Option ℕ :=
  if sec2ns checkpoint ≤ currNs then none else some (toUInt 64 ((sec2ns checkpoint : ℤ) - currNs))

/-- `do { next_ns = prev_ns + interval_ns; prev_ns = next_ns; } while (curr_ns >= next_ns);` The
result is missing if the loop needs more rounds. -/
def nextReport (intervalNs currNs : ℕ) : ℕ → ℕ → Option ℕ
  | 0, _ => none
  | rounds + 1, prevNs =>
    let nextNs := toUInt 64 (prevNs + intervalNs : ℕ)
    if nextNs ≤ currNs then nextReport intervalNs currNs rounds nextNs else some nextNs

/-- The pause before the next intermediate report. -/
def reportPause (intervalNs currNs rounds prevNs : ℕ) : Option ℕ :=
  (nextReport intervalNs currNs rounds prevNs).map fun nextNs : ℕ => toUInt 64 ((nextNs : ℤ) - currNs)

/-! ## Single pauses -/

/-- The shortest pause that is cut, 2^32 microseconds. -/
def maxPauseNs : ℕ := 2 ^ 32 * 1000

theorem usleepArg_eq_iff (pauseNs : ℕ) : usleepArg pauseNs = pauseNs / 1000 ↔ pauseNs < maxPauseNs := by
  unfold usleepArg maxPauseNs
  rw [toUInt_eq_mod, Nat.mod_eq_iff_lt (by decide), Nat.div_lt_iff_lt_mul (by decide)]

theorem sec2ns_eq (sec : ℕ) : sec2ns sec = sec * 1000000000 := rfl

/-- A checkpoint is slept out in full if it is less than 2^32 microseconds ahead. -/
theorem checkpointPause_full_iff {checkpoint currNs : ℕ} (hcheckpoint : checkpoint < 2 ^ 32)
    (hahead : currNs < checkpoint * 1000000000) :
    ∃ pauseNs, checkpointPause checkpoint currNs = some pauseNs ∧
      pauseNs = checkpoint * 1000000000 - currNs ∧
      (usleepArg pauseNs = pauseNs / 1000 ↔ checkpoint * 1000000000 < currNs + maxPauseNs) := by
  refine ⟨_, if_neg (by rw [sec2ns_eq]; omega), ?_, ?_⟩
  · rw [sec2ns_eq, toUInt_sub (by omega) (by omega)]
  · rw [sec2ns_eq, toUInt_sub (by omega) (by omega), usleepArg_eq_iff]
    omega

theorem reportInterval_full_iff {interval : ℕ} (h : interval < 2 ^ 31) :
    usleepArg (sec2ns interval) = sec2ns interval / 1000 ↔ interval ≤ 4294 := by
  rw [usleepArg_eq_iff, sec2ns_eq, maxPauseNs]
  omega

/-- The `j`-th time of a report after `prevNs`. -/
def reportTime (prevNs intervalNs j : ℕ) : ℕ := toUInt 64 (prevNs + j * intervalNs : ℕ)

/-- The first report time after `currNs` is less than 2^32 microseconds ahead. -/
def ReportSoon (prevNs intervalNs currNs : ℕ) : Prop :=
  ∃ j, (∀ i < j, reportTime prevNs intervalNs (i + 1) ≤ currNs) ∧
    currNs < reportTime prevNs intervalNs (j + 1) ∧
    reportTime prevNs intervalNs (j + 1) < currNs + maxPauseNs

theorem reportTime_succ (prevNs intervalNs j : ℕ) :
    reportTime (toUInt 64 (prevNs + intervalNs : ℕ)) intervalNs j =
      reportTime prevNs intervalNs (j + 1) := by
  rw [reportTime, toUInt_toUInt_add, reportTime, Nat.succ_mul, Nat.add_assoc,
    Nat.add_comm intervalNs]

theorem nextReport_eq {intervalNs currNs rounds prevNs nextNs : ℕ}
    (h : nextReport intervalNs currNs rounds prevNs = some nextNs) :
    ∃ j, nextNs = reportTime prevNs intervalNs (j + 1) ∧ currNs < nextNs ∧
      ∀ i < j, reportTime prevNs intervalNs (i + 1) ≤ currNs := by
  induction rounds generalizing prevNs with
  | zero => cases h
  | succ rounds ih =>
    rw [nextReport] at h
    have hfirst : reportTime prevNs intervalNs 1 = toUInt 64 (prevNs + intervalNs : ℕ) := by
      rw [reportTime, Nat.one_mul]
    split_ifs at h with hpast
    · obtain ⟨j, hnext, hlt, hearlier⟩ := ih h
      refine ⟨j + 1, by rw [hnext, reportTime_succ], hlt, fun i hi => ?_⟩
      cases i with
      | zero => exact hfirst ▸ hpast
      | succ i =>
        rw [← reportTime_succ]
        exact hearlier i (Nat.lt_of_succ_lt_succ hi)
    · cases h
      exact ⟨0, hfirst.symm, not_le.mp hpast, fun i hi => absurd hi (Nat.not_lt_zero i)⟩

theorem reportPause_full_iff {intervalNs currNs rounds prevNs pauseNs : ℕ}
    (h : reportPause intervalNs currNs rounds prevNs = some pauseNs) :
    usleepArg pauseNs = pauseNs / 1000 ↔ ReportSoon prevNs intervalNs currNs := by
  obtain ⟨nextNs, hnext, rfl⟩ := Option.map_eq_some_iff.mp h
  obtain ⟨j, rfl, hlt, hearlier⟩ := nextReport_eq hnext
  rw [toUInt_sub hlt.le (toUInt_lt 64 _), usleepArg_eq_iff]
  constructor
  · intro hshort
    exact ⟨j, hearlier, hlt, by omega⟩
  · rintro ⟨k, hbefore, hafter, hsoon⟩
    -- both are the first report time after the reading
    have hkj : k = j := by
      rcases Nat.lt_trichotomy k j with hkj | hkj | hkj
      · exact absurd hafter (not_lt.mpr (hearlier k hkj))
      · exact hkj
      · exact absurd hlt (not_lt.mpr (hbefore j hkj))
    rw [hkj] at hsoon
    omega

/-! ## The checkpoints thread -/

structure SleepState where
  i : ℕ
  now : ℕ
  reports : List (ℕ × ℕ)
  deriving DecidableEq, Repr

/-- The thread reads `curr_ns` at the time `readAt`. A timer that runs shows that time, one that has
been stopped an earlier one. -/
inductive SleepEvent where
  | pass (readAt currNs : ℕ)
  /-- the report after a pause is made at the time `wakeAt` -/
  | report (readAt currNs wakeAt : ℕ)
  deriving DecidableEq, Repr

variable (checkpoints : List ℕ)

/-- `usleep` sleeps at least the number of microseconds it receives. -/
def sleepStep (s : SleepState) : SleepEvent → Option SleepState
  | .pass readAt currNs => do
    let checkpoint ← checkpoints[s.i]?
    if s.now ≤ readAt ∧ currNs ≤ readAt ∧ checkpointPause checkpoint currNs = none then
      some { s with i := s.i + 1, now := readAt }
    else none
  | .report readAt currNs wakeAt => do
    let checkpoint ← checkpoints[s.i]?
    let pauseNs ← checkpointPause checkpoint currNs
    if s.now ≤ readAt ∧ currNs ≤ readAt ∧ readAt + usleepArg pauseNs * 1000 ≤ wakeAt then
      some ⟨s.i + 1, wakeAt, s.reports ++ [(checkpoint, wakeAt)]⟩
    else none

def SleepState.start : SleepState := ⟨0, 0, []⟩

/-- The next checkpoint is less than 2^32 microseconds ahead of the reading. -/
def CheckpointSoon (s : SleepState) : SleepEvent → Prop
  | .pass _ _ => True
  | .report _ currNs _ =>
    ∀ checkpoint, checkpoints[s.i]? = some checkpoint →
      checkpoint * 1000000000 < currNs + maxPauseNs

def SleepState.Timely (s : SleepState) : Prop := ∀ r ∈ s.reports, r.1 * 1000000000 < r.2 + 1000

variable {checkpoints} {s u : SleepState} {es : List SleepEvent} {e : SleepEvent}

theorem sleepStep_timely (hcheckpoints : ∀ c ∈ checkpoints, c < 2 ^ 32) (hs : s.Timely)
    (he : sleepStep checkpoints s e = some u) (hsoon : CheckpointSoon checkpoints s e) : u.Timely := by
  cases e with
  | pass readAt currNs =>
    simp only [sleepStep, Option.bind_eq_bind, Option.bind_eq_some_iff,
      Option.ite_none_right_eq_some] at he
    obtain ⟨checkpoint, -, -, hu⟩ := he
    cases hu
    exact hs
  | report readAt currNs wakeAt =>
    simp only [sleepStep, Option.bind_eq_bind, Option.bind_eq_some_iff,
      Option.ite_none_right_eq_some] at he
    obtain ⟨checkpoint, hget, pauseNs, hpause, ⟨-, hread, hwake⟩, hu⟩ := he
    cases hu
    have hbound : checkpoint < 2 ^ 32 := hcheckpoints _ (List.mem_of_getElem? hget)
    have hahead : currNs < checkpoint * 1000000000 := by
      unfold checkpointPause at hpause
      split_ifs at hpause with hpast
      rw [sec2ns_eq] at hpast
      omega
    obtain ⟨pauseNs', hpause', hvalue, hfull⟩ := checkpointPause_full_iff hbound hahead
    obtain rfl : pauseNs' = pauseNs := Option.some_inj.mp (hpause'.symm.trans hpause)
    rw [hfull.mpr (hsoon checkpoint hget)] at hwake
    intro r hr
    rcases List.mem_append.mp hr with hr | hr
    · exact hs r hr
    · rw [List.mem_singleton.mp hr]
      dsimp only
      omega

theorem run_timely (hcheckpoints : ∀ c ∈ checkpoints, c < 2 ^ 32)
    (hr : run (sleepStep checkpoints) .start es = some s)
    (hsoon : Guarded (sleepStep checkpoints) (CheckpointSoon checkpoints) .start es) : s.Timely := by
  refine hsoon.invariant (I := fun _ s => s.Timely) (fun r hr => by cases hr) ?_ hr
  intro _ t e u _ ht hsoon he
  exact sleepStep_timely hcheckpoints ht he hsoon

/-! ## The report thread -/

/-- `pause_ns` and `prev_ns` before a call of `usleep`, and the reading they were computed at. -/
structure ReportClock where
  pauseNs : ℕ
  prevNs : ℕ
  currNs : ℕ
  deriving DecidableEq, Repr

def ReportClock.start (interval readNs : ℕ) : ReportClock :=
  ⟨sec2ns interval, toUInt 64 (readNs + sec2ns interval : ℕ), readNs⟩

/-- One turn of the loop: the thread sleeps, reads the running timer at `currNs`, and computes the
next pause in some number of rounds. -/
def reportClockStep (interval : ℕ) (s : ReportClock) : ℕ × ℕ → Option ReportClock
  | (currNs, rounds) => do
    let nextNs ← nextReport (sec2ns interval) currNs rounds s.prevNs
    if s.currNs + usleepArg s.pauseNs * 1000 ≤ currNs then
      some ⟨toUInt 64 ((nextNs : ℤ) - currNs), nextNs, currNs⟩
    else none

def ReportClock.Full (s : ReportClock) : Prop := usleepArg s.pauseNs = s.pauseNs / 1000

/-- The report that is waited for is not later than the pause, and the pause exceeds the interval
by less than the microsecond that the last one lost. -/
structure ReportClock.OnTime (interval : ℕ) (s : ReportClock) : Prop where
  prev : s.prevNs ≤ s.currNs + s.pauseNs
  pause : s.pauseNs ≤ sec2ns interval + 999

variable {interval readNs : ℕ} {c d : ReportClock} {turns : List (ℕ × ℕ)}

theorem ReportClock.OnTime.full (h : c.OnTime interval) (hinterval : interval ≤ 4294) : c.Full := by
  have hpause := h.pause
  rw [sec2ns_eq] at hpause
  rw [Full, usleepArg_eq_iff, maxPauseNs]
  omega

theorem ReportClock.OnTime.step (h : c.OnTime interval) (hinterval : interval ≤ 4294) {e : ℕ × ℕ}
    (he : reportClockStep interval c e = some d) : d.OnTime interval := by
  obtain ⟨currNs, rounds⟩ := e
  simp only [reportClockStep, Option.bind_eq_bind, Option.bind_eq_some_iff,
    Option.ite_none_right_eq_some] at he
  obtain ⟨nextNs, hnext, hslept, hd⟩ := he
  cases hd
  obtain ⟨j, hreport, hlt, hearlier⟩ := nextReport_eq hnext
  have hword : nextNs < 2 ^ 64 := hreport ▸ toUInt_lt 64 _
  rw [h.full hinterval] at hslept
  have hprev := h.prev
  have hstep : nextNs ≤ currNs + sec2ns interval + 999 := by
    cases j with
    | zero =>
      have hle : nextNs ≤ c.prevNs + sec2ns interval := by
        rw [hreport, reportTime, Nat.one_mul, toUInt_eq_mod]
        exact Nat.mod_le _ _
      omega
    | succ j =>
      have hbefore := hearlier j (Nat.lt_succ_self j)
      have hle : nextNs ≤ reportTime c.prevNs (sec2ns interval) (j + 1) + sec2ns interval := by
        rw [hreport, reportTime, Nat.succ_mul, ← Nat.add_assoc, ← toUInt_toUInt_add, ← reportTime,
          toUInt_eq_mod]
        exact Nat.mod_le _ _
      omega
  constructor
  · dsimp only
    rw [toUInt_sub hlt.le hword]
    omega
  · dsimp only
    rw [toUInt_sub hlt.le hword]
    omega

/-- On a running timer, the report thread sleeps out all of its pauses if and only if the interval
is at most 4294 seconds. -/
theorem report_pauses_full_iff (hinterval : interval < 2 ^ 31) :
    (∀ turns c, run (reportClockStep interval) (.start interval readNs) turns = some c → c.Full) ↔
      interval ≤ 4294 := by
  constructor
  · intro hall
    exact (reportInterval_full_iff hinterval).mp (hall [] _ rfl)
  · intro hle turns c hr
    have hstart : (ReportClock.start interval readNs).OnTime interval := by
      constructor
      · exact (toUInt_eq_mod 64 _).trans_le (Nat.mod_le _ _)
      · exact Nat.le_add_right _ _
    exact (run_preserves (I := ReportClock.OnTime interval) (fun _ _ _ h he => h.step hle he) hstart
      hr).full hle

/-! ## Both threads -/

/-- `usleep` receives a pause in full if and only if it is shorter than 2^32 microseconds: for
a checkpoint, if its time is less than that ahead of the reading; for the first pause of the report
thread, and for all of them on a running timer, if the interval is at most 4294 seconds; for a later
one, if the first report time after the reading is less than 2^32 microseconds ahead. If all pauses
of the checkpoints thread are short enough, no report of a run is early by a microsecond. -/
theorem pauses_slept_out (checkpoint currNs interval : ℕ) :
    (checkpoint < 2 ^ 32 → currNs < checkpoint * 1000000000 →
      ∃ pauseNs, checkpointPause checkpoint currNs = some pauseNs ∧
        pauseNs = checkpoint * 1000000000 - currNs ∧
        (usleepArg pauseNs = pauseNs / 1000 ↔ checkpoint * 1000000000 < currNs + maxPauseNs)) ∧
    (interval < 2 ^ 31 →
      (usleepArg (sec2ns interval) = sec2ns interval / 1000 ↔ interval ≤ 4294) ∧
      ∀ readNs, (∀ turns c, run (reportClockStep interval) (.start interval readNs) turns = some c →
        c.Full) ↔ interval ≤ 4294) ∧
    (∀ rounds prevNs pauseNs, reportPause (sec2ns interval) currNs rounds prevNs = some pauseNs →
      (usleepArg pauseNs = pauseNs / 1000 ↔ ReportSoon prevNs (sec2ns interval) currNs)) ∧
    ∀ checkpoints es s, (∀ c ∈ checkpoints, c < 2 ^ 32) →
      run (sleepStep checkpoints) .start es = some s →
      Guarded (sleepStep checkpoints) (CheckpointSoon checkpoints) .start es → s.Timely :=
  ⟨fun hbound hahead => checkpointPause_full_iff hbound hahead,
    fun h => ⟨reportInterval_full_iff h, fun _ => report_pauses_full_iff h⟩,
    fun _ _ _ h => reportPause_full_iff h,
    fun _ _ _ hcheckpoints hr hsoon => run_timely hcheckpoints hr hsoon⟩

/-- A checkpoint after ten seconds, of which three have passed, and a report every ten seconds. -/
theorem pauses_slept_out_ten :
    (∃ pauseNs, checkpointPause 10 3000000000 = some pauseNs ∧ usleepArg pauseNs = 7000000) ∧
      usleepArg (sec2ns 10) = sec2ns 10 / 1000 ∧
      ∃ s, run (sleepStep [10]) .start [.report 3000000000 3000000000 10000000001] = some s ∧
        s.Timely := by
  obtain ⟨hcheckpoint, hinterval, -, hruns⟩ := pauses_slept_out 10 3000000000 10
  refine ⟨?_, (hinterval (by decide)).1.mpr (by decide), ?_⟩
  · obtain ⟨pauseNs, hpause, rfl, hfull⟩ := hcheckpoint (by decide) (by decide)
    exact ⟨_, hpause, hfull.mpr (by decide)⟩
  have hrun : run (sleepStep [10]) .start [.report 3000000000 3000000000 10000000001] =
      some ⟨1, 10000000001, [(10, 10000000001)]⟩ := by decide +kernel
  refine ⟨_, hrun, hruns _ _ _ (by decide) hrun ?_⟩
  rw [guarded_cons_iff (t := ⟨1, 10000000001, [(10, 10000000001)]⟩) (by decide +kernel)]
  refine ⟨fun checkpoint hget => ?_, guarded_nil⟩
  cases hget
  decide

/-- A checkpoint after 5000 seconds is reported after 706 seconds. -/
theorem checkpoint_report_early :
    (∃ pauseNs, checkpointPause 5000 0 = some pauseNs ∧ usleepArg pauseNs ≠ pauseNs / 1000) ∧
      ∃ s, run (sleepStep [5000]) .start [.report 0 0 706000000000] = some s ∧ ¬s.Timely := by
  constructor
  · exact ⟨5000000000000, by decide +kernel, by decide +kernel⟩
  · refine ⟨⟨1, 706000000000, [(5000, 706000000000)]⟩, by decide +kernel, fun h => ?_⟩
    exact absurd (h _ List.mem_cons_self) (by decide)

end Sysbench.Core
