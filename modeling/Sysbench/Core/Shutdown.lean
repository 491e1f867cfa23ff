import Sysbench.Core.StartBarrier

/-! # The end of a test run

The report thread is silenced under its mutex before the final report. The checkpoint thread is
cancelled only after the mutexes are destroyed and the test is done, so a checkpoint that is
still to come, or a report that is being printed, comes after the final one.
-/
namespace Sysbench.Core

open Rings Runs

variable {n : ℕ}

/-- Another thread than the main one calls `print_stats` or `print_global_stats`, or locks
`exec_mutex`. -/
def RunEvent.isLate : RunEvent n → Bool
  | .report .print | .report .lockExec => true
  | .checkpoint .lock | .checkpoint .printStats | .checkpoint .printGlobalStats => true
  | .runner _ .lockExec => true
  | _ => false

/-- The checkpoint thread prints nothing more when the timer is stopped at `value`: it is not
asleep and not in its locked section, and no checkpoint to come is beyond the value. -/
def Checkpoint.Quiet (cfg : RunConfig) (value : ℕ) : Checkpoint → Prop
  | .absent | .returned => True
  | .created | .barrier => ∀ sec ∈ cfg.checkpoints, sec2ns sec ≤ value
  | .loop i => ∀ sec ∈ cfg.checkpoints.drop i, sec2ns sec ≤ value
  | .unlocking i => ∀ sec ∈ cfg.checkpoints.drop (i + 1), sec2ns sec ≤ value
  | _ => False

def Runner.inRequest : Runner → Bool
  | .requesting | .executing => true
  | _ => false

def Checkpoint.holdsExec : Checkpoint → Bool
  | .reporting _ | .reported _ | .unlocking _ => true
  | _ => false

/-! ## Before the final report -/

structure RunState.Waiting (s : RunState n) : Prop where
  runners : ∀ t, (s.runners t).running = false
  report : s.report.passed = false
  checkpoint : s.checkpoint.passed = false
  exec : s.execOwner = none

structure RunState.Joined (s : RunState n) : Prop where
  held : s.startHeld = false
  runners : ∀ t, s.runners t = .returned

structure RunState.Stopped (s : RunState n) : Prop extends s.Joined where
  timer : (s.timers .exec).state = .stopped

structure RunState.Silent (s : RunState n) : Prop extends s.Stopped where
  interval : s.reportInterval = 0
  report : s.report ≠ .printing

/-- What `run_test` has done, up to its final report. -/
def RunState.Closing (s : RunState n) : Prop :=
  match s.main with
  | .init | .prepare | .lockStart | .create _ | .createRunner _ | .startTimer _ | .unlockStart =>
    s.Waiting
  | .join i => s.startHeld = false ∧ ∀ t : Fin n, t < i → s.runners t = .returned
  | .stopTimer .exec => s.Joined
  | .stopTimer _ | .silence => s.Stopped
  | .cleanup | .printStats => s.Silent
  | _ => True

/-- Who holds `exec_mutex`. A cancelled thread keeps it. -/
structure ExecHeld (s : RunState n) : Prop where
  runner : ∀ t, s.execOwner = some (.runner t) → (s.runners t).inRequest = true
  report : s.execOwner = some .report → s.report = .printing
  checkpoint : s.execOwner = some .checkpoints →
    s.checkpoint.holdsExec = true ∨ s.cancelled .checkpoints = true

def Main.cancelling : Main → Bool
  | .cancel _ | .joinHelper _ | .returned _ => true
  | _ => false

structure Ending (s : RunState n) : Prop where
  closing : s.Closing
  exec : ExecHeld s
  fresh : s.main.cancelling = false → ∀ h, s.cancelled h = false

variable {cfg : RunConfig} {es : List (RunEvent n)} {s u v : RunState n} {value : ℕ}

/-! ## The timer -/

theorem sbTimerValue_stopped {now : Timespec} {t t' : SbTimer} {value : ℕ}
    (h : sbTimerValue now t = some (value, t')) (ht : t.state = .stopped) :
    value = t.elapsed ∧ t' = t := by
  simp only [sbTimerValue, ht, Option.some.injEq, Prod.mk.injEq] at h
  exact ⟨h.1.symm, h.2.symm⟩

theorem RunState.readTimer_stopped {now : Timespec} {p : ℕ × RunState n}
    (h : s.readTimer now = some p) (ht : (s.timers .exec).state = .stopped) :
    p = ((s.timers .exec).elapsed, s) := by
  obtain ⟨timer, hvalue, hs⟩ := s.readTimer_eq h
  obtain ⟨helapsed, rfl⟩ := sbTimerValue_stopped hvalue ht
  rw [Function.update_eq_self] at hs
  exact Prod.ext helapsed hs

theorem reportStep_timer {e : ReportEvent} (h : reportStep cfg s e = some u)
    (ht : (s.timers .exec).state = .stopped) : u.timers = s.timers := by
  obtain ⟨r, v, -, hv, timers, execOwner, rfl, rfl⟩ := reportStep_eq h
  cases e with
  | value now =>
    obtain ⟨p, hp, heq⟩ := Option.map_eq_some_iff.mp hv
    rw [RunState.readTimer_stopped hp ht] at heq
    exact (congrArg RunState.timers heq).symm
  | lockExec =>
    obtain ⟨-, heq⟩ := Option.ite_none_right_eq_some.mp hv
    exact (congrArg RunState.timers (Option.some.inj heq)).symm
  | unlockExec =>
    obtain ⟨-, heq⟩ := Option.ite_none_right_eq_some.mp hv
    exact (congrArg RunState.timers (Option.some.inj heq)).symm
  | _ => exact (congrArg RunState.timers (Option.some.inj hv)).symm

theorem checkpointStep_timer {e : CheckpointEvent} (h : checkpointStep cfg s e = some u)
    (ht : (s.timers .exec).state = .stopped) : u.timers = s.timers := by
  obtain ⟨c, v, -, hv, timers, execOwner, rfl, rfl⟩ := checkpointStep_eq h
  cases e with
  | look now curr =>
    obtain ⟨p, hp, hif⟩ := Option.bind_eq_some_iff.mp hv
    obtain ⟨-, heq⟩ := Option.ite_none_right_eq_some.mp hif
    rw [RunState.readTimer_stopped hp ht] at heq
    exact (congrArg RunState.timers (Option.some.inj heq)).symm
  | value now =>
    obtain ⟨p, hp, heq⟩ := Option.map_eq_some_iff.mp hv
    rw [RunState.readTimer_stopped hp ht] at heq
    exact (congrArg RunState.timers heq).symm
  | lock =>
    obtain ⟨-, heq⟩ := Option.ite_none_right_eq_some.mp hv
    exact (congrArg RunState.timers (Option.some.inj heq)).symm
  | _ => exact (congrArg RunState.timers (Option.some.inj hv)).symm

theorem eventgenStep_timer {e : EventgenEvent} (h : eventgenStep s e = some u)
    (ht : (s.timers .exec).state = .stopped) : u.timers = s.timers := by
  obtain ⟨g, v, -, hv, timers, queue, rfl, rfl⟩ := eventgenStep_eq h
  cases e with
  | stamp now =>
    obtain ⟨p, hp, hmap⟩ := Option.bind_eq_some_iff.mp hv
    rw [RunState.readTimer_stopped hp ht] at hmap
    obtain ⟨queue, -, heq⟩ := Option.map_eq_some_iff.mp hmap
    exact (congrArg RunState.timers heq).symm
  | append =>
    obtain ⟨queue, -, heq⟩ := Option.map_eq_some_iff.mp hv
    exact (congrArg RunState.timers heq).symm
  | advance =>
    obtain ⟨queue, -, heq⟩ := Option.map_eq_some_iff.mp hv
    exact (congrArg RunState.timers heq).symm
  | _ => exact (congrArg RunState.timers (Option.some.inj hv)).symm

/-! ## The owner of the execution mutex -/

theorem RunnerEvent.effect_owner {t : Fin n} {e : RunnerEvent} (h : e.effect s t = some u) :
    u.execOwner = s.execOwner ∨ e = .lockExec ∧ u.execOwner = some (.runner t) ∨
      u.execOwner = none := by
  cases e with
  | dequeue taken =>
    obtain ⟨queue, -, rfl⟩ := Option.map_eq_some_iff.mp h
    exact .inl rfl
  | lockExec =>
    obtain ⟨-, heq⟩ := Option.ite_none_right_eq_some.mp h
    cases heq
    exact .inr (.inl ⟨rfl, rfl⟩)
  | unlockExec =>
    obtain ⟨-, heq⟩ := Option.ite_none_right_eq_some.mp h
    cases heq
    exact .inr (.inr rfl)
  | _ =>
    cases h
    exact .inl rfl

theorem ReportEvent.effect_owner {e : ReportEvent} (h : e.effect s = some u) :
    u.execOwner = s.execOwner ∨ e = .lockExec ∧ u.execOwner = some .report ∨
      u.execOwner = none := by
  cases e with
  | value now =>
    obtain ⟨p, hp, rfl⟩ := Option.map_eq_some_iff.mp h
    obtain ⟨timer, -, heq⟩ := RunState.readTimer_eq hp
    exact .inl (by rw [heq])
  | lockExec =>
    obtain ⟨-, heq⟩ := Option.ite_none_right_eq_some.mp h
    cases heq
    exact .inr (.inl ⟨rfl, rfl⟩)
  | unlockExec =>
    obtain ⟨-, heq⟩ := Option.ite_none_right_eq_some.mp h
    cases heq
    exact .inr (.inr rfl)
  | _ =>
    cases h
    exact .inl rfl

theorem CheckpointEvent.effect_owner {e : CheckpointEvent} (h : e.effect s = some u) :
    u.execOwner = s.execOwner ∧ e ≠ .unlock ∨ e = .lock ∧ u.execOwner = some .checkpoints ∨
      u.execOwner = none := by
  cases e with
  | look now curr =>
    obtain ⟨p, hp, hif⟩ := Option.bind_eq_some_iff.mp h
    obtain ⟨-, hu⟩ := Option.ite_none_right_eq_some.mp hif
    cases hu
    obtain ⟨timer, -, heq⟩ := RunState.readTimer_eq hp
    exact .inl ⟨by rw [heq], by simp⟩
  | value now =>
    obtain ⟨p, hp, rfl⟩ := Option.map_eq_some_iff.mp h
    obtain ⟨timer, -, heq⟩ := RunState.readTimer_eq hp
    exact .inl ⟨by rw [heq], by simp⟩
  | lock =>
    obtain ⟨-, heq⟩ := Option.ite_none_right_eq_some.mp h
    cases heq
    exact .inr (.inl ⟨rfl, rfl⟩)
  | unlock =>
    cases h
    exact .inr (.inr rfl)
  | _ =>
    cases h
    exact .inl ⟨rfl, by simp⟩

theorem Runner.next_inRequest {t : Fin n} {e : RunnerEvent} {r r' : Runner}
    (h : Runner.next cfg s t e r = some r') :
    (e = .lockExec → r.inRequest = true ∧ r'.inRequest = true) ∧
      (s.execOwner = some (.runner t) → r.inRequest = true → r'.inRequest = true) := by
  unfold Runner.next at h
  split at h
  all_goals try split_ifs at h
  all_goals cases h
  all_goals simp_all [Runner.inRequest]

theorem Report.next_printing {e : ReportEvent} {r r' : Report}
    (h : Report.next cfg s e r = some r') :
    (e = .lockExec → r = .printing ∧ r' = .printing) ∧
      (s.execOwner = some .report → r = .printing → r' = .printing) ∧
      (s.reportInterval = 0 → r' = .printing → r = .printing) := by
  unfold Report.next at h
  split at h
  all_goals try split_ifs at h
  all_goals cases h
  all_goals simp_all [Nat.pos_iff_ne_zero]

theorem Checkpoint.next_holdsExec {e : CheckpointEvent} {c c' : Checkpoint}
    (h : Checkpoint.next cfg s e c = some c') :
    (e = .lock → c.passed = true ∧ c'.holdsExec = true) ∧
      (c.holdsExec = true → c'.holdsExec = true ∨ e = .unlock ∨ s.cancelled .checkpoints = true) := by
  unfold Checkpoint.next at h
  split at h
  case h_3 => exact ⟨CheckpointEvent.noConfusion, fun h => absurd h Bool.false_ne_true⟩
  all_goals try split_ifs at h
  all_goals cases h
  all_goals simp_all [Checkpoint.holdsExec, Checkpoint.passed]

theorem Runner.running_of_inRequest {r : Runner} (h : r.inRequest = true) : r.running = true := by
  cases r <;> first | rfl | cases h

/-! ## The invariant -/

theorem Ending.init (reportInterval : ℕ) (links : Links (Option ℕ)) :
    Ending (initRun n reportInterval links) where
  closing := ⟨fun _ => rfl, rfl, rfl, rfl⟩
  exec := ⟨nofun, nofun, nofun⟩
  fresh _ _ := rfl

theorem RunState.Closing.other (h : s.Closing) (hready : s.Ready es) (hmain : u.main = s.main)
    (hheld : u.startHeld = s.startHeld)
    (hwait : (s.startHeld = true ∨ s.NoThreads) → s.Waiting → u.Waiting)
    (hrunners : ∀ t, s.runners t = .returned → u.runners t = .returned)
    (htimer : (s.timers .exec).state = .stopped → u.timers = s.timers)
    (hinterval : u.reportInterval = s.reportInterval)
    (hreport : s.reportInterval = 0 → u.report = .printing → s.report = .printing) :
    u.Closing := by
  have hjoined : s.Joined → u.Joined := fun hj =>
    ⟨hheld.trans hj.held, fun t => hrunners t (hj.runners t)⟩
  have hstopped : s.Stopped → u.Stopped := fun hs =>
    ⟨hjoined hs.toJoined, by rw [htimer hs.timer]; exact hs.timer⟩
  have hsilent : s.Silent → u.Silent := fun hs =>
    ⟨hstopped hs.toStopped, hinterval.trans hs.interval,
      fun hp => hs.report (hreport hs.interval hp)⟩
  cases hm : s.main with
  | init | prepare | lockStart =>
    simp only [RunState.Closing, RunState.Ready, hmain, hm] at h hready ⊢
    exact hwait (.inr hready) h
  | create | createRunner | startTimer | unlockStart =>
    simp only [RunState.Closing, RunState.Ready, hmain, hm] at h hready ⊢
    exact hwait (.inl hready.1) h
  | join i =>
    simp only [RunState.Closing, hmain, hm] at h ⊢
    exact ⟨hheld.trans h.1, fun t ht => hrunners t (h.2 t ht)⟩
  | stopTimer k =>
    cases k <;> simp only [RunState.Closing, hmain, hm] at h ⊢
    · exact hjoined h
    · exact hstopped h
    · exact hstopped h
  | silence =>
    simp only [RunState.Closing, hmain, hm] at h ⊢
    exact hstopped h
  | cleanup | printStats =>
    simp only [RunState.Closing, hmain, hm] at h ⊢
    exact hsilent h
  | _ => simp only [RunState.Closing, hmain, hm]

/-- Nobody passes the barrier while the mutex is held. -/
theorem stays_behind {passed passed' held : Bool}
    (h : passed' = true → passed = true ∨ held = false) (hp : passed = false)
    (hheld : held = true) : passed' = false := by
  subst hp hheld
  simpa using h

theorem Ending.runnerStep (hend : Ending s) (hready : s.Ready es) {t : Fin n} {e : RunnerEvent}
    (h : runnerStep cfg s t e = some u) : Ending u := by
  obtain ⟨r, v, hr, hv, numRunning, error, execOwner, queue, rfl, rfl⟩ := runnerStep_eq h
  obtain ⟨hne, hpass, -⟩ := Runner.next_running hr
  obtain ⟨hlock, hown⟩ := Runner.next_inRequest hr
  have howner := RunnerEvent.effect_owner hv
  dsimp only at howner
  constructor
  · apply hend.closing.other hready
    · rfl
    · rfl
    · intro hfree hw
      rcases hfree with hheld | hno
      · have hidle : r.running = false := stays_behind hpass (hw.runners t) hheld
        refine ⟨fun i => ?_, hw.report, hw.checkpoint, ?_⟩
        · by_cases hit : i = t
          · subst hit
            simpa using hidle
          · simpa [hit] using hw.runners i
        · rcases howner with hsame | ⟨hlocked, -⟩ | hnone
          · exact hsame.trans hw.exec
          · have hrun := Runner.running_of_inRequest (hlock hlocked).1
            rw [hw.runners t] at hrun
            cases hrun
          · exact hnone
      · exact absurd (hno.runners t) hne
    · intro i hi
      by_cases hit : i = t
      · subst hit
        rw [hi] at hr
        cases e <;> simp [Runner.next] at hr
      · simpa [hit] using hi
    · exact fun _ => rfl
    · rfl
    · exact fun _ hp => hp
  · rcases howner with rfl | ⟨hlocked, rfl⟩ | rfl
    · refine ⟨fun i hi => ?_, hend.exec.report, hend.exec.checkpoint⟩
      have hold := hend.exec.runner i hi
      by_cases hit : i = t
      · subst hit
        simpa using hown hi hold
      · simpa [hit] using hold
    · refine ⟨fun i hi => ?_, nofun, nofun⟩
      obtain rfl : t = i := Owner.runner.inj (Option.some.inj hi)
      simpa using (hlock hlocked).2
    · exact ⟨nofun, nofun, nofun⟩
  · exact hend.fresh

theorem Ending.reportStep (hend : Ending s) (hready : s.Ready es) {e : ReportEvent}
    (h : reportStep cfg s e = some u) : Ending u := by
  have htimers := reportStep_timer h
  obtain ⟨r, v, hr, hv, timers, execOwner, rfl, rfl⟩ := reportStep_eq h
  obtain ⟨hne, hpass, -⟩ := Report.next_passed (n := n) hr
  obtain ⟨hlock, hown, hprint⟩ := Report.next_printing hr
  have howner := ReportEvent.effect_owner hv
  dsimp only at howner
  constructor
  · apply hend.closing.other hready
    · rfl
    · rfl
    · intro hfree hw
      rcases hfree with hheld | hno
      · refine ⟨hw.runners, ?_, hw.checkpoint, ?_⟩
        · exact stays_behind hpass hw.report hheld
        · rcases howner with hsame | ⟨hlocked, -⟩ | hnone
          · exact hsame.trans hw.exec
          · have hrun := hw.report
            rw [(hlock hlocked).1] at hrun
            cases hrun
          · exact hnone
      · exact absurd hno.report hne
    · exact fun _ => id
    · exact htimers
    · rfl
    · exact hprint
  · rcases howner with rfl | ⟨hlocked, rfl⟩ | rfl
    · exact ⟨hend.exec.runner, fun hi => hown hi (hend.exec.report hi), hend.exec.checkpoint⟩
    · exact ⟨nofun, fun _ => (hlock hlocked).2, nofun⟩
    · exact ⟨nofun, nofun, nofun⟩
  · exact hend.fresh

theorem Ending.checkpointStep (hend : Ending s) (hready : s.Ready es) {e : CheckpointEvent}
    (h : checkpointStep cfg s e = some u) : Ending u := by
  have htimers := checkpointStep_timer h
  obtain ⟨c, v, hc, hv, timers, execOwner, rfl, rfl⟩ := checkpointStep_eq h
  obtain ⟨hne, hpass, -⟩ := Checkpoint.next_passed (n := n) hc
  obtain ⟨hlock, hholds⟩ := Checkpoint.next_holdsExec hc
  have howner := CheckpointEvent.effect_owner hv
  dsimp only at howner
  constructor
  · apply hend.closing.other hready
    · rfl
    · rfl
    · intro hfree hw
      rcases hfree with hheld | hno
      · refine ⟨hw.runners, hw.report, ?_, ?_⟩
        · exact stays_behind hpass hw.checkpoint hheld
        · rcases howner with ⟨hsame, -⟩ | ⟨hlocked, -⟩ | hnone
          · exact hsame.trans hw.exec
          · have hrun := (hlock hlocked).1
            rw [hw.checkpoint] at hrun
            cases hrun
          · exact hnone
      · exact absurd hno.checkpoint hne
    · exact fun _ => id
    · exact htimers
    · rfl
    · exact fun _ hp => hp
  · rcases howner with ⟨rfl, hne⟩ | ⟨hlocked, rfl⟩ | rfl
    · refine ⟨hend.exec.runner, hend.exec.report, fun hi => ?_⟩
      rcases hend.exec.checkpoint hi with hold | hcancelled
      · rcases hholds hold with hnew | hunlock | hcancelled
        · exact .inl hnew
        · exact absurd hunlock hne
        · exact .inr hcancelled
      · exact .inr hcancelled
    · exact ⟨nofun, nofun, fun _ => .inl (hlock hlocked).2⟩
    · exact ⟨nofun, nofun, nofun⟩
  · exact hend.fresh

theorem Ending.eventgenStep (hend : Ending s) (hready : s.Ready es) {e : EventgenEvent}
    (h : eventgenStep s e = some u) : Ending u := by
  have htimers := eventgenStep_timer h
  obtain ⟨g, v, hg, hv, timers, queue, rfl, rfl⟩ := eventgenStep_eq h
  constructor
  · apply hend.closing.other hready
    · rfl
    · rfl
    · exact fun _ hw => ⟨hw.runners, hw.report, hw.checkpoint, hw.exec⟩
    · exact fun _ => id
    · exact htimers
    · rfl
    · exact fun _ hp => hp
  · exact ⟨hend.exec.runner, hend.exec.report, hend.exec.checkpoint⟩
  · exact hend.fresh

/-- What `run_test` has done stays done, and its next step adds to it. -/
theorem RunState.Closing.mainMoved (h : s.Closing) {e : MainEvent} (hmoved : MainMoved cfg s e u) :
    u.Closing := by
  cases hmoved with
  | init hm | prepare hm | lockStart hm | created hm =>
    simp only [RunState.Closing, hm] at h
    exact ⟨h.runners, h.report, h.checkpoint, h.exec⟩
  | @create helper hm =>
    simp only [RunState.Closing, hm] at h
    cases helper with
    | report => exact ⟨h.runners, rfl, h.checkpoint, h.exec⟩
    | eventgen => exact ⟨h.runners, h.report, h.checkpoint, h.exec⟩
    | checkpoints => exact ⟨h.runners, h.report, rfl, h.exec⟩
  | @skipHelper helper hm =>
    simp only [RunState.Closing, hm] at h
    cases helper <;> exact ⟨h.runners, h.report, h.checkpoint, h.exec⟩
  | @createRunner i hm hi =>
    simp only [RunState.Closing, hm] at h
    refine ⟨fun t => ?_, h.report, h.checkpoint, h.exec⟩
    by_cases hit : t = ⟨i, hi⟩
    · subst hit
      simp [Runner.running]
    · simpa [hit] using h.runners t
  | @startTimer k now timer hm =>
    simp only [RunState.Closing, hm] at h
    cases k <;> exact ⟨h.runners, h.report, h.checkpoint, h.exec⟩
  | unlockStart hm => exact ⟨rfl, fun t ht => absurd ht (Nat.not_lt_zero _)⟩
  | @join i hm hi hr =>
    simp only [RunState.Closing, hm] at h
    refine ⟨h.1, fun t ht => ?_⟩
    obtain hlt | heq := Nat.lt_succ_iff_lt_or_eq.mp ht
    · exact h.2 t hlt
    · obtain rfl : t = ⟨i, hi⟩ := Fin.ext heq
      exact hr
  | joined hm hi =>
    simp only [RunState.Closing, hm] at h
    exact ⟨h.1, fun t => h.2 t (t.isLt.trans_le hi)⟩
  | @stopTimer k now timer hm hstop =>
    cases k with
    | exec =>
      simp only [RunState.Closing, hm] at h
      exact ⟨⟨h.held, h.runners⟩, by simpa using (sbTimerStop_eq hstop).2⟩
    | cumulative1 | cumulative2 =>
      simp only [RunState.Closing, hm] at h
      exact ⟨⟨h.held, h.runners⟩, by simpa using h.timer⟩
  | silence hm hh =>
    simp only [RunState.Closing, hm] at h
    refine ⟨⟨⟨h.held, h.runners⟩, h.timer⟩, rfl, fun hp => ?_⟩
    change s.report = .printing at hp
    rw [hp] at hh
    cases hh
  | cleanup hm =>
    simp only [RunState.Closing, hm] at h
    exact ⟨⟨⟨h.held, h.runners⟩, h.timer⟩, h.interval, h.report⟩
  | @skipCancel helper hm | @joinHelper helper hm => cases helper <;> trivial
  | _ => trivial

theorem mainMoved_fresh {e : MainEvent} (hmoved : MainMoved cfg s e u)
    (h : s.main.cancelling = false → ∀ i, s.cancelled i = false)
    (hu : u.main.cancelling = false) : ∀ i, u.cancelled i = false := by
  cases hmoved with
  | @create helper hm | @skipHelper helper hm =>
    rw [hm] at h
    cases helper <;> exact h rfl
  | init hm | prepare hm | lockStart hm | createRunner hm | created hm | startTimer hm
  | unlockStart hm | join hm | joined hm | stopTimer hm | silence hm | cleanup hm | printStats hm
  | skipStats hm | destroyMutexes hm => exact h (hm ▸ rfl)
  | @skipCancel helper hm | @joinHelper helper hm => cases helper <;> cases hu
  | _ => cases hu

theorem ExecHeld.same (h : ExecHeld s) (howner : u.execOwner = s.execOwner)
    (hrunners : u.runners = s.runners) (hreport : u.report = s.report)
    (hcheckpoint : u.checkpoint = s.checkpoint) (hcancelled : u.cancelled = s.cancelled) :
    ExecHeld u := by
  refine ⟨fun t => ?_, ?_, ?_⟩
  · rw [howner, hrunners]
    exact h.runner t
  · rw [howner, hreport]
    exact h.report
  · rw [howner, hcheckpoint, hcancelled]
    exact h.checkpoint

theorem execHeld_of_free (hfree : s.execOwner = none) : ExecHeld s := by
  constructor
  all_goals simp [hfree]

theorem ExecHeld.mainMoved (h : ExecHeld s) (hclosing : s.Closing) {e : MainEvent}
    (hmoved : MainMoved cfg s e u) : ExecHeld u := by
  cases hmoved with
  | @create helper hm =>
    simp only [RunState.Closing, hm] at hclosing
    cases helper <;> exact execHeld_of_free hclosing.exec
  | createRunner hm =>
    simp only [RunState.Closing, hm] at hclosing
    exact execHeld_of_free hclosing.exec
  | @cancel helper hm =>
    refine ⟨h.runner, h.report, fun hi => (h.checkpoint hi).imp_right fun hc => ?_⟩
    by_cases hh : .checkpoints = helper
    · subst hh
      simp
    · simpa [hh] using hc
  | _ => exact h.same rfl rfl rfl rfl rfl

theorem Ending.mainStep (hend : Ending s) {e : MainEvent} (h : mainStep cfg s e = some u) :
    Ending u := by
  have hmoved := mainStep_moved h
  exact ⟨hend.closing.mainMoved hmoved, hend.exec.mainMoved hend.closing hmoved,
    mainMoved_fresh hmoved hend.fresh⟩

theorem run_ending {reportInterval : ℕ} {links : Links (Option ℕ)}
    (hr : run (runStep cfg) (initRun n reportInterval links) es = some s) : Ending s := by
  refine run_invariant (I := fun _ s => Ending s) (Ending.init reportInterval links) ?_ hr
  intro es s e u hrun hend he
  have hready := (run_barrier hrun).ready
  cases e with
  | main e => exact hend.mainStep he
  | runner t e => exact hend.runnerStep hready he
  | report e => exact hend.reportStep hready he
  | checkpoint e => exact hend.checkpointStep hready he
  | eventgen e => exact hend.eventgenStep hready he

/-! ## After the final report -/

def Main.reported : Main → Bool
  | .destroyMutexes | .done | .cancel _ | .joinHelper _ | .returned _ => true
  | _ => false

/-- Only the checkpoint thread could still report, and it will not. -/
structure Settled (cfg : RunConfig) (value : ℕ) (s : RunState n) : Prop extends s.Silent where
  main : s.main.reported = true
  elapsed : (s.timers .exec).elapsed = value
  quiet : s.checkpoint.Quiet cfg value

theorem Main.afterCancel_reported (error : Bool) (h : Helper) :
    (Main.afterCancel error h).reported = true := by
  cases h <;> rfl

theorem Settled.mainStep (hset : Settled cfg value s) {e : MainEvent}
    (h : mainStep cfg s e = some u) : Settled cfg value u := by
  have hmain := hset.main
  have hsilent : ∀ {main : Main} {cancelled : Helper → Bool}, main.reported = true →
      Settled cfg value { s with main, cancelled } := fun hm =>
    ⟨⟨⟨⟨hset.held, hset.runners⟩, hset.timer⟩, hset.interval, hset.report⟩, hm, hset.elapsed,
      hset.quiet⟩
  cases mainStep_moved h with
  | destroyMutexes hm => exact hsilent rfl
  | done hm => exact hsilent rfl
  | cancel hm => exact hsilent rfl
  | skipCancel hm => exact hsilent (Main.afterCancel_reported _ _)
  | joinHelper hm => exact hsilent (Main.afterCancel_reported _ _)
  | _ hm =>
    rw [hm] at hmain
    cases hmain

theorem Settled.reportStep (hset : Settled cfg value s) {e : ReportEvent}
    (h : reportStep cfg s e = some u) :
    (RunEvent.report e : RunEvent n).isLate = false ∧ Settled cfg value u := by
  have htimers := reportStep_timer h hset.timer
  obtain ⟨r, v, hr, -, timers, execOwner, rfl, rfl⟩ := reportStep_eq h
  obtain ⟨hlock, -, hprint⟩ := Report.next_printing hr
  obtain rfl : timers = s.timers := htimers
  refine ⟨?_, ⟨⟨⟨hset.held, hset.runners⟩, hset.timer⟩, hset.interval,
    fun hp => hset.report (hprint hset.interval hp)⟩, hset.main, hset.elapsed, hset.quiet⟩
  cases e with
  | lockExec => exact absurd (hlock rfl).1 hset.report
  | print =>
    have hstop := hset.interval
    unfold Report.next at hr
    split at hr <;> simp_all
  | _ => rfl

theorem drop_tail {l : List ℕ} {i x : ℕ} {p : ℕ → Prop} (hx : l[i]? = some x) :
    (∀ y ∈ l.drop i, p y) ↔ p x ∧ ∀ y ∈ l.drop (i + 1), p y := by
  obtain ⟨hi, rfl⟩ := List.getElem?_eq_some_iff.mp hx
  rw [List.drop_eq_getElem_cons hi, List.forall_mem_cons]

theorem Checkpoint.Quiet.next {e : CheckpointEvent} {c c' : Checkpoint}
    (hq : c.Quiet cfg value) (h : Checkpoint.next cfg s e c = some c')
    (hlook : ∀ now curr, e = .look now curr → curr = value) :
    (RunEvent.checkpoint e : RunEvent n).isLate = false ∧ c'.Quiet cfg value := by
  unfold Checkpoint.next at h
  split at h
  case h_3 now curr i =>
    obtain ⟨sec, hsec, rfl⟩ := Option.map_eq_some_iff.mp h
    obtain ⟨hle, htail⟩ := (drop_tail hsec).mp hq
    rw [hlook now curr rfl, if_pos hle]
    exact ⟨rfl, htail⟩
  all_goals try split_ifs at h
  all_goals cases h
  all_goals first | exact hq.elim | exact ⟨rfl, hq⟩ | exact ⟨rfl, trivial⟩

theorem Settled.checkpointStep (hset : Settled cfg value s) {e : CheckpointEvent}
    (h : checkpointStep cfg s e = some u) :
    (RunEvent.checkpoint e : RunEvent n).isLate = false ∧ Settled cfg value u := by
  have htimers := checkpointStep_timer h hset.timer
  obtain ⟨c, v, hc, hv, timers, execOwner, rfl, rfl⟩ := checkpointStep_eq h
  obtain rfl : timers = s.timers := htimers
  have hlook : ∀ now curr, e = .look now curr → curr = value := by
    rintro now curr rfl
    obtain ⟨p, hp, hif⟩ := Option.bind_eq_some_iff.mp hv
    obtain ⟨heq, -⟩ := Option.ite_none_right_eq_some.mp hif
    rw [RunState.readTimer_stopped hp hset.timer] at heq
    exact heq.symm.trans hset.elapsed
  obtain ⟨hlate, hquiet⟩ := hset.quiet.next hc hlook
  exact ⟨hlate, ⟨⟨⟨hset.held, hset.runners⟩, hset.timer⟩, hset.interval, hset.report⟩, hset.main,
    hset.elapsed, hquiet⟩

theorem Settled.step (hset : Settled cfg value s) {e : RunEvent n}
    (h : runStep cfg s e = some u) : e.isLate = false ∧ Settled cfg value u := by
  cases e with
  | main e => exact ⟨rfl, hset.mainStep h⟩
  | runner t e =>
    obtain ⟨r, v, hr, -⟩ := runnerStep_eq h
    rw [hset.runners t] at hr
    cases e <;> simp [Runner.next] at hr
  | report e => exact hset.reportStep h
  | checkpoint e => exact hset.checkpointStep h
  | eventgen e =>
    have htimers := eventgenStep_timer h hset.timer
    obtain ⟨g, v, -, -, timers, queue, rfl, rfl⟩ := eventgenStep_eq h
    obtain rfl : timers = s.timers := htimers
    exact ⟨rfl, ⟨⟨⟨hset.held, hset.runners⟩, hset.timer⟩, hset.interval, hset.report⟩, hset.main,
      hset.elapsed, hset.quiet⟩

/-- From a settled state nothing is reported any more. -/
theorem run_settled (hset : Settled cfg value s) {es : List (RunEvent n)}
    (hr : run (runStep cfg) s es = some u) : ∀ e ∈ es, e.isLate = false := by
  induction es generalizing s with
  | nil => simp
  | cons e es ih =>
    rw [run_cons, Option.bind_eq_some_iff] at hr
    obtain ⟨v, hv, hr⟩ := hr
    obtain ⟨hlate, hset'⟩ := hset.step hv
    exact List.forall_mem_cons.mpr ⟨hlate, ih hset' hr⟩

/-! ## A report after the final one -/

/-- Some run from here has a late report. -/
def LateRun (cfg : RunConfig) (s : RunState n) : Prop :=
  ∃ es u, run (runStep cfg) s es = some u ∧ ∃ e ∈ es, e.isLate = true

theorem LateRun.now {e : RunEvent n} (h : runStep cfg s e = some u) (he : e.isLate = true) :
    LateRun cfg s :=
  ⟨[e], u, by simp [h], e, List.mem_singleton_self e, he⟩

theorem LateRun.cons {e : RunEvent n} (hl : LateRun cfg u) (h : runStep cfg s e = some u) :
    LateRun cfg s := by
  obtain ⟨es, v, hv, e', hmem, he'⟩ := hl
  exact ⟨e :: es, v, by simp [h, hv], e', List.mem_cons_of_mem e hmem, he'⟩

/-- The timer stands at `value`, and the mutexes that the checkpoint thread needs are free. -/
structure Open (value : ℕ) (s : RunState n) : Prop where
  held : s.startHeld = false
  timer : (s.timers .exec).state = .stopped
  elapsed : (s.timers .exec).elapsed = value
  free : s.checkpoint.holdsExec = false → s.execOwner = none

theorem RunState.readTimer_of_stopped (now : Timespec) (ht : (s.timers .exec).state = .stopped) :
    s.readTimer now = some ((s.timers .exec).elapsed, s) := by
  simp [RunState.readTimer, sbTimerValue, ht]

theorem Open.asleep (ho : Open value s) {i : ℕ} (hc : s.checkpoint = .asleep i) :
    LateRun cfg s := by
  have hfree : s.execOwner = none := ho.free (by rw [hc]; rfl)
  have hwake : runStep cfg s (.checkpoint .wake) = some { s with checkpoint := .woken i } := by
    simp [runStep, checkpointStep, Checkpoint.next, CheckpointEvent.effect, hc]
  have hvalue : runStep cfg { s with checkpoint := .woken i } (.checkpoint (.value ⟨0, 0⟩)) =
      some { s with checkpoint := .locking i } := by
    simp [runStep, checkpointStep, Checkpoint.next, CheckpointEvent.effect,
      RunState.readTimer_of_stopped, ho.timer]
  have hlock : runStep cfg { s with checkpoint := .locking i } (.checkpoint .lock) =
      some { s with execOwner := some .checkpoints, checkpoint := .reporting i } := by
    simp [runStep, checkpointStep, Checkpoint.next, CheckpointEvent.effect, hfree]
  exact ((LateRun.now hlock rfl).cons hvalue).cons hwake

theorem Open.loop {i : ℕ} {rest : List ℕ} (hrest : cfg.checkpoints.drop i = rest)
    (ho : Open value s) (hc : s.checkpoint = .loop i)
    (hahead : ¬ ∀ sec ∈ rest, sec2ns sec ≤ value) : LateRun cfg s := by
  induction rest generalizing i s with
  | nil => simp at hahead
  | cons sec rest ih =>
    have hget : cfg.checkpoints[i]? = some sec := by
      have hhead : (cfg.checkpoints.drop i)[0]? = some sec := by rw [hrest]; rfl
      simpa using hhead
    have htail : cfg.checkpoints.drop (i + 1) = rest := by
      have hdrop := congrArg List.tail hrest
      simpa using hdrop
    have hlook : runStep cfg s (.checkpoint (.look ⟨0, 0⟩ value)) =
        some { s with checkpoint := if sec2ns sec ≤ value then .loop (i + 1) else .asleep i } := by
      simp [runStep, checkpointStep, Checkpoint.next, CheckpointEvent.effect, hc, hget,
        RunState.readTimer_of_stopped, ho.timer, ho.elapsed]
    have hfree : s.execOwner = none := ho.free (by rw [hc]; rfl)
    have hopen : ∀ c, Open value { s with checkpoint := c } := fun c =>
      ⟨ho.held, ho.timer, ho.elapsed, fun _ => hfree⟩
    by_cases hle : sec2ns sec ≤ value
    · rw [if_pos hle] at hlook
      refine (ih htail (hopen _) rfl fun hall => hahead ?_).cons hlook
      exact List.forall_mem_cons.mpr ⟨hle, hall⟩
    · rw [if_neg hle] at hlook
      exact ((hopen _).asleep rfl).cons hlook

theorem Open.barrier (ho : Open value s) (hc : s.checkpoint = .barrier)
    (hahead : ¬ ∀ sec ∈ cfg.checkpoints, sec2ns sec ≤ value) : LateRun cfg s := by
  have hfree : s.execOwner = none := ho.free (by rw [hc]; rfl)
  have hpass : runStep cfg s (.checkpoint .pass) = some { s with checkpoint := .loop 0 } := by
    simp [runStep, checkpointStep, Checkpoint.next, CheckpointEvent.effect, hc, ho.held]
  have hopen : Open value { s with checkpoint := .loop 0 } :=
    ⟨ho.held, ho.timer, ho.elapsed, fun _ => hfree⟩
  exact (hopen.loop List.drop_zero rfl hahead).cons hpass

/-- A checkpoint thread that is not quiet can report. -/
theorem Open.late (ho : Open value s) (hstats : cfg.printStats = true)
    (hloud : ¬ s.checkpoint.Quiet cfg value) : LateRun cfg s := by
  cases hc : s.checkpoint with
  | absent | returned =>
    rw [hc] at hloud
    exact absurd trivial hloud
  | created =>
    rw [hc] at hloud
    have hfree : s.execOwner = none := ho.free (by rw [hc]; rfl)
    have hstart : runStep cfg s (.checkpoint .start) = some { s with checkpoint := .barrier } := by
      simp [runStep, checkpointStep, Checkpoint.next, CheckpointEvent.effect, hc, hstats]
    have hopen : Open value { s with checkpoint := .barrier } :=
      ⟨ho.held, ho.timer, ho.elapsed, fun _ => hfree⟩
    exact (hopen.barrier rfl hloud).cons hstart
  | barrier =>
    rw [hc] at hloud
    exact ho.barrier hc hloud
  | loop i =>
    rw [hc] at hloud
    exact ho.loop rfl hc hloud
  | asleep i => exact ho.asleep hc
  | woken i =>
    have hfree : s.execOwner = none := ho.free (by rw [hc]; rfl)
    have hvalue : runStep cfg s (.checkpoint (.value ⟨0, 0⟩)) =
        some { s with checkpoint := .locking i } := by
      simp [runStep, checkpointStep, Checkpoint.next, CheckpointEvent.effect, hc,
        RunState.readTimer_of_stopped, ho.timer]
    have hlock : runStep cfg { s with checkpoint := .locking i } (.checkpoint .lock) =
        some { s with execOwner := some .checkpoints, checkpoint := .reporting i } := by
      simp [runStep, checkpointStep, Checkpoint.next, CheckpointEvent.effect, hfree]
    exact (LateRun.now hlock rfl).cons hvalue
  | locking i =>
    have hfree : s.execOwner = none := ho.free (by rw [hc]; rfl)
    have hlock : runStep cfg s (.checkpoint .lock) =
        some { s with execOwner := some .checkpoints, checkpoint := .reporting i } := by
      simp [runStep, checkpointStep, Checkpoint.next, CheckpointEvent.effect, hc, hfree]
    exact .now hlock rfl
  | reporting i =>
    have hprint : runStep cfg s (.checkpoint .printStats) =
        some { s with checkpoint := .reported i } := by
      simp [runStep, checkpointStep, Checkpoint.next, CheckpointEvent.effect, hc]
    exact .now hprint rfl
  | reported i =>
    have hprint : runStep cfg s (.checkpoint .printGlobalStats) =
        some { s with checkpoint := .unlocking i } := by
      simp [runStep, checkpointStep, Checkpoint.next, CheckpointEvent.effect, hc]
    exact .now hprint rfl
  | unlocking i =>
    rw [hc] at hloud
    have hunlock : runStep cfg s (.checkpoint .unlock) =
        some { s with execOwner := none, checkpoint := .loop (i + 1) } := by
      simp [runStep, checkpointStep, Checkpoint.next, CheckpointEvent.effect, hc]
    have hopen : Open value { s with execOwner := none, checkpoint := .loop (i + 1) } :=
      ⟨ho.held, ho.timer, ho.elapsed, fun _ => rfl⟩
    exact (hopen.loop rfl rfl hloud).cons hunlock

/-- Nothing is reported after the final report, in whatever way the run goes on, exactly when
the checkpoint thread is quiet at the call. -/
theorem shutdown_iff {reportInterval : ℕ} {links : Links (Option ℕ)}
    (hr : run (runStep cfg) (initRun n reportInterval links) es = some s)
    (hfinal : runStep cfg s (.main .printStats) = some u) :
    (∀ fs v, run (runStep cfg) u fs = some v → ∀ e ∈ fs, e.isLate = false) ↔
      s.checkpoint.Quiet cfg (s.timers .exec).elapsed := by
  have hend := run_ending hr
  have hclosing := hend.closing
  have hexec := hend.exec
  cases mainStep_moved hfinal with
  | printStats hm hstats herror =>
    simp only [RunState.Closing, hm] at hclosing
    constructor
    · intro hall
      by_contra hloud
      have hopen : Open (s.timers .exec).elapsed { s with main := .destroyMutexes } := by
        refine ⟨hclosing.held, hclosing.timer, rfl, fun hholds => ?_⟩
        change s.checkpoint.holdsExec = false at hholds
        cases howner : s.execOwner with
        | none => rfl
        | some owner =>
          cases owner with
          | runner t =>
            have hin := hexec.runner t howner
            rw [hclosing.runners t] at hin
            cases hin
          | report => exact absurd (hexec.report howner) hclosing.report
          | checkpoints =>
            have hfresh := hend.fresh (by rw [hm]; rfl) .checkpoints
            rcases hexec.checkpoint howner with hc | hc
            · rw [hholds] at hc
              cases hc
            · rw [hfresh] at hc
              cases hc
      obtain ⟨fs, v, hv, e, hmem, hlate⟩ := hopen.late hstats hloud
      rw [hall fs v hv e hmem] at hlate
      cases hlate
    · intro hquiet fs v hv
      have hset : Settled cfg (s.timers .exec).elapsed { s with main := .destroyMutexes } :=
        ⟨⟨⟨⟨hclosing.held, hclosing.runners⟩, hclosing.timer⟩, hclosing.interval,
          hclosing.report⟩, rfl, rfl, hquiet⟩
      exact run_settled hset hv

def finalEvents : List (RunEvent 1) :=
  [.main (.call true), .main (.call true), .main .next, .main .next, .main .next,
    .main (.create true), .main (.create true), .checkpoint .start, .runner 0 (.threadInit true),
    .main .next, .main (.startTimer .exec ⟨0, 0⟩), .main (.startTimer .cumulative1 ⟨0, 0⟩),
    .main (.startTimer .cumulative2 ⟨0, 0⟩), .main .next, .checkpoint .pass, .runner 0 .pass,
    .checkpoint (.look ⟨0, 5⟩ 5), .runner 0 .getRequest, .runner 0 (.gotRequest true),
    .runner 0 (.check false false), .runner 0 .finish, .main .next, .main .next,
    .main (.stopTimer .exec ⟨0, 9⟩), .main (.stopTimer .cumulative1 ⟨0, 9⟩),
    .main (.stopTimer .cumulative2 ⟨0, 9⟩), .main .next, .main (.call true)]

/-- The mutexes are destroyed and the test is done when the checkpoint is reported. -/
def lateEvents : List (RunEvent 1) :=
  [.main .next, .main .next, .checkpoint .wake, .checkpoint (.value ⟨1, 0⟩), .checkpoint .lock,
    .checkpoint .printStats, .checkpoint .printGlobalStats]

theorem finalEvents_run :
    ∃ s u, run (runStep ⟨0, [1], true⟩) (initRun 1 0 ⟨id, id⟩) finalEvents = some s ∧
      runStep ⟨0, [1], true⟩ s (.main .printStats) = some u ∧
      ∃ v, run (runStep ⟨0, [1], true⟩) u lateEvents = some v := ⟨_, _, rfl, rfl, _, rfl⟩

theorem shutdown_iff_checkpoint :
    ∃ s u, run (runStep ⟨0, [1], true⟩) (initRun 1 0 ⟨id, id⟩) finalEvents = some s ∧
      runStep ⟨0, [1], true⟩ s (.main .printStats) = some u ∧
      ((∀ fs v, run (runStep ⟨0, [1], true⟩) u fs = some v → ∀ e ∈ fs, e.isLate = false) ↔
        s.checkpoint.Quiet ⟨0, [1], true⟩ (s.timers .exec).elapsed) := by
  obtain ⟨s, u, hs, hu, -⟩ := finalEvents_run
  exact ⟨s, u, hs, hu, shutdown_iff hs hu⟩

/-- A checkpoint is reported after the final report. -/
theorem shutdown_late :
    ∃ s u v, run (runStep ⟨0, [1], true⟩) (initRun 1 0 ⟨id, id⟩) finalEvents = some s ∧
      runStep ⟨0, [1], true⟩ s (.main .printStats) = some u ∧
      run (runStep ⟨0, [1], true⟩) u lateEvents = some v ∧
      .checkpoint .printStats ∈ lateEvents := by
  obtain ⟨s, u, hs, hu, v, hv⟩ := finalEvents_run
  exact ⟨s, u, v, hs, hu, hv, by decide⟩

end Sysbench.Core
