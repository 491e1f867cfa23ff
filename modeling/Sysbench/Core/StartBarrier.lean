import Sysbench.Core.RunTest
import Sysbench.Machine.Pool

/-! # The start barrier

Until the timers run, the main thread holds the start mutex or no thread exists. A thread that
is past the barrier has locked it in between.
-/
namespace Sysbench.Core

open Rings Runs Pool

variable {n : ℕ}

def Runner.running : Runner → Bool
  | .absent | .initializing | .barrier | .returned => false
  | _ => true

def Report.passed : Report → Bool
  | .absent | .created | .barrier | .returned => false
  | _ => true

def Checkpoint.passed : Checkpoint → Bool
  | .absent | .created | .barrier | .returned => false
  | _ => true

def Eventgen.passed : Eventgen → Bool
  | .generating => true
  | _ => false

/-- A call of `get_request` or `execute_request`, a generated event or a report. -/
def RunEvent.isWork : RunEvent n → Bool
  | .runner _ .getRequest | .runner _ .executeRequest => true
  | .eventgen (.stamp _) | .eventgen .append => true
  | .report .print => true
  | .checkpoint .printStats | .checkpoint .printGlobalStats => true
  | .main .printStats => true
  | _ => false

def Started (es : List (RunEvent n)) (k : TimerName) : Prop :=
  ∃ now, .main (.startTimer k now) ∈ es

def RunState.runningCount (s : RunState n) : ℕ := total (fun r => r.running.toNat) s.runners

structure RunState.NoThreads (s : RunState n) : Prop where
  runners : ∀ t, s.runners t = .absent
  report : s.report = .absent
  checkpoint : s.checkpoint = .absent
  eventgen : s.eventgen = .absent

def TimerName.before : TimerName → List TimerName
  | .exec => []
  | .cumulative1 => [.exec]
  | .cumulative2 => [.exec, .cumulative1]

/-- How far `run_test` is with the threads, the mutex and the timers. -/
def RunState.Ready (es : List (RunEvent n)) (s : RunState n) : Prop :=
  match s.main with
  | .init | .prepare | .lockStart => s.NoThreads
  | .create _ => s.startHeld = true ∧ ∀ t, s.runners t = .absent
  | .createRunner i => s.startHeld = true ∧ ∀ t : Fin n, i ≤ t → s.runners t = .absent
  | .startTimer k => s.startHeld = true ∧ ∀ j ∈ k.before, Started es j
  | .unlockStart => s.startHeld = true ∧ ∀ k, Started es k
  | .returned _ => s.NoThreads ∨ s.startHeld = true ∨ ∀ k, Started es k
  | _ => ∀ k, Started es k

/-- Whoever is past the barrier finds the timers started. -/
structure Barrier (es : List (RunEvent n)) (s : RunState n) : Prop where
  ready : s.Ready es
  runners : ∀ t, (s.runners t).running = true → ∀ k, Started es k
  report : s.report.passed = true → ∀ k, Started es k
  checkpoint : s.checkpoint.passed = true → ∀ k, Started es k
  eventgen : s.eventgen.passed = true → ∀ k, Started es k
  count : s.numRunning = s.runningCount

variable {cfg : RunConfig} {es : List (RunEvent n)} {s u : RunState n} {k : TimerName}

theorem Started.snoc (h : Started es k) (e : RunEvent n) : Started (es ++ [e]) k := by
  obtain ⟨now, hmem⟩ := h
  exact ⟨now, List.mem_append_left _ hmem⟩

/-- A thread passes the barrier only after the timers were started. -/
theorem RunState.Ready.released (h : s.Ready es) (hheld : s.startHeld = false)
    (hthreads : ¬ s.NoThreads) (k : TimerName) : Started es k := by
  cases hm : s.main <;> simp only [RunState.Ready, hm, hheld, Bool.false_eq_true, false_and,
    false_or] at h
  case init => exact absurd h hthreads
  case prepare => exact absurd h hthreads
  case lockStart => exact absurd h hthreads
  case returned =>
    rcases h with h | h
    · exact absurd h hthreads
    · exact h k
  all_goals exact h k

theorem RunState.Ready.other (h : s.Ready es) (hmain : u.main = s.main)
    (hheld : u.startHeld = s.startHeld) (hthreads : ¬ s.NoThreads)
    (hnone : ∀ t, s.runners t = .absent → u.runners t = .absent) (e : RunEvent n) :
    u.Ready (es ++ [e]) := by
  cases hm : s.main <;> simp only [RunState.Ready, hmain, hheld, hm] at h ⊢
  case init => exact absurd h hthreads
  case prepare => exact absurd h hthreads
  case lockStart => exact absurd h hthreads
  case create => exact ⟨h.1, fun t => hnone t (h.2 t)⟩
  case createRunner i => exact ⟨h.1, fun t ht => hnone t (h.2 t ht)⟩
  case startTimer k => exact ⟨h.1, fun j hj => (h.2 j hj).snoc e⟩
  case unlockStart => exact ⟨h.1, fun k => (h.2 k).snoc e⟩
  case returned =>
    rcases h with h | h | h
    · exact absurd h hthreads
    · exact .inr (.inl h)
    · exact .inr (.inr fun k => (h k).snoc e)
  all_goals exact fun k => (h k).snoc e

/-! ## Runners -/

/-- A runner that moves is created, and it moves past the barrier when the mutex is free. -/
theorem Runner.next_running {t : Fin n} {e : RunnerEvent} {r r' : Runner}
    (h : Runner.next cfg s t e r = some r') :
    r ≠ .absent ∧ (r'.running = true → r.running = true ∨ s.startHeld = false) ∧
      r'.running.toNat + (if e = .finish then 1 else 0) =
        r.running.toNat + (if e = .pass then 1 else 0) := by
  unfold Runner.next at h
  split at h
  all_goals try split_ifs at h
  all_goals cases h
  all_goals simp_all [Runner.running]

theorem Runner.running_of_isWork {t : Fin n} {e : RunnerEvent} {r r' : Runner}
    (h : Runner.next cfg s t e r = some r') (hwork : (RunEvent.runner t e).isWork = true) :
    r.running = true := by
  unfold Runner.next at h
  split at h
  all_goals first | rfl | cases hwork | cases h

theorem RunnerEvent.effect_numRunning {t : Fin n} {e : RunnerEvent}
    (h : e.effect s t = some u) :
    u.numRunning =
      if e = .pass then s.numRunning + 1 else if e = .finish then s.numRunning - 1
      else s.numRunning := by
  cases e with
  | dequeue taken =>
    obtain ⟨queue, -, rfl⟩ := Option.map_eq_some_iff.mp h
    rfl
  | lockExec =>
    obtain ⟨-, heq⟩ := Option.ite_none_right_eq_some.mp h
    cases heq
    rfl
  | unlockExec =>
    obtain ⟨-, heq⟩ := Option.ite_none_right_eq_some.mp h
    cases heq
    rfl
  | _ =>
    cases h
    rfl

/-- A step of a runner moves the counter with it. -/
theorem runnerStep_count {t : Fin n} {e : RunnerEvent} (hs : s.numRunning = s.runningCount)
    (h : runnerStep cfg s t e = some u) : u.numRunning = u.runningCount := by
  obtain ⟨r, v, hr, hv, numRunning, error, execOwner, queue, heq, rfl⟩ := runnerStep_eq h
  obtain ⟨-, -, hbal⟩ := Runner.next_running hr
  have htotal := total_update (fun r => r.running.toNat) s.runners t r
  have hcount : v.numRunning = _ := RunnerEvent.effect_numRunning hv
  change v.numRunning = total (fun r => r.running.toNat) (Function.update s.runners t r)
  rw [hcount, hs]
  rw [RunState.runningCount]
  split_ifs with hpass hfinish
  · subst hpass
    simp only [reduceCtorEq, if_false, if_true] at hbal
    omega
  · subst hfinish
    simp only [reduceCtorEq, if_false, if_true] at hbal
    omega
  · simp only [hpass, hfinish, if_false] at hbal
    omega

/-! ## Helpers -/

theorem Report.next_passed {e : ReportEvent} {r r' : Report}
    (h : Report.next cfg s e r = some r') :
    r ≠ .absent ∧ (r'.passed = true → r.passed = true ∨ s.startHeld = false) ∧
      ((RunEvent.report e : RunEvent n).isWork = true → r.passed = true) := by
  unfold Report.next at h
  split at h
  all_goals try split_ifs at h
  all_goals cases h
  all_goals simp_all [Report.passed, RunEvent.isWork]

theorem Checkpoint.next_passed {e : CheckpointEvent} {c c' : Checkpoint}
    (h : Checkpoint.next cfg s e c = some c') :
    c ≠ .absent ∧ (c'.passed = true → c.passed = true ∨ s.startHeld = false) ∧
      ((RunEvent.checkpoint e : RunEvent n).isWork = true → c.passed = true) := by
  unfold Checkpoint.next at h
  split at h
  case h_3 =>
    exact ⟨Checkpoint.noConfusion, fun _ => .inl rfl, fun _ => rfl⟩
  all_goals try split_ifs at h
  all_goals cases h
  all_goals simp_all [Checkpoint.passed, RunEvent.isWork]

theorem Eventgen.next_passed {e : EventgenEvent} {g g' : Eventgen}
    (h : Eventgen.next s e g = some g') :
    g ≠ .absent ∧ (g'.passed = true → g.passed = true ∨ s.startHeld = false) ∧
      ((RunEvent.eventgen e : RunEvent n).isWork = true → g.passed = true) := by
  unfold Eventgen.next at h
  split at h
  all_goals try split_ifs at h
  all_goals cases h
  all_goals simp_all [Eventgen.passed, RunEvent.isWork]

/-! ## Runs -/

theorem Barrier.init (reportInterval : ℕ) (links : Links (Option ℕ)) :
    Barrier [] (initRun n reportInterval links) where
  ready := ⟨fun _ => rfl, rfl, rfl, rfl⟩
  runners _ h := absurd h Bool.false_ne_true
  report h := absurd h Bool.false_ne_true
  checkpoint h := absurd h Bool.false_ne_true
  eventgen h := absurd h Bool.false_ne_true
  count := (total_eq_zero fun _ => rfl).symm

/-- A step of a created thread that moves past the barrier only when the mutex is free. -/
theorem Barrier.other (hb : Barrier es s) (hmain : u.main = s.main)
    (hheld : u.startHeld = s.startHeld) (hthreads : ¬ s.NoThreads)
    (hrunners : ∀ t, (s.runners t = .absent → u.runners t = .absent) ∧
      ((u.runners t).running = true → (s.runners t).running = true ∨ s.startHeld = false))
    (hreport : u.report.passed = true → s.report.passed = true ∨ s.startHeld = false)
    (hcheckpoint : u.checkpoint.passed = true → s.checkpoint.passed = true ∨ s.startHeld = false)
    (heventgen : u.eventgen.passed = true → s.eventgen.passed = true ∨ s.startHeld = false)
    (hcount : u.numRunning = u.runningCount) (e : RunEvent n) : Barrier (es ++ [e]) u := by
  have hstarted : ∀ {p : Prop}, (p → ∀ k, Started es k) → p ∨ s.startHeld = false →
      ∀ k, Started (es ++ [e]) k := by
    intro p hp h k
    rcases h with h | hfree
    · exact (hp h k).snoc e
    · exact (hb.ready.released hfree hthreads k).snoc e
  constructor
  · exact hb.ready.other hmain hheld hthreads (fun t => (hrunners t).1) e
  · intro t ht
    exact hstarted (hb.runners t) ((hrunners t).2 ht)
  · exact fun h => hstarted hb.report (hreport h)
  · exact fun h => hstarted hb.checkpoint (hcheckpoint h)
  · exact fun h => hstarted hb.eventgen (heventgen h)
  · exact hcount

theorem Barrier.runnerStep (hb : Barrier es s) {t : Fin n} {e : RunnerEvent}
    (h : runnerStep cfg s t e = some u) : Barrier (es ++ [.runner t e]) u := by
  have hcount := runnerStep_count hb.count h
  obtain ⟨r, v, hr, -, numRunning, error, execOwner, queue, rfl, rfl⟩ := runnerStep_eq h
  obtain ⟨hne, hpass, -⟩ := Runner.next_running hr
  apply hb.other
  · rfl
  · rfl
  · exact fun hno => hne (hno.runners t)
  · intro i
    by_cases hit : i = t
    · subst hit
      simp only [Function.update_self]
      exact ⟨fun hi => absurd hi hne, hpass⟩
    · simp only [Function.update_of_ne hit]
      exact ⟨id, .inl⟩
  · exact .inl
  · exact .inl
  · exact .inl
  · exact hcount

theorem Barrier.reportStep (hb : Barrier es s) {e : ReportEvent}
    (h : reportStep cfg s e = some u) : Barrier (es ++ [.report e]) u := by
  obtain ⟨r, v, hr, -, timers, execOwner, rfl, rfl⟩ := reportStep_eq h
  obtain ⟨hne, hpass, -⟩ := Report.next_passed (n := n) hr
  apply hb.other
  · rfl
  · rfl
  · exact fun hno => hne hno.report
  · exact fun t => ⟨id, .inl⟩
  · exact hpass
  · exact .inl
  · exact .inl
  · exact hb.count

theorem Barrier.checkpointStep (hb : Barrier es s) {e : CheckpointEvent}
    (h : checkpointStep cfg s e = some u) : Barrier (es ++ [.checkpoint e]) u := by
  obtain ⟨c, v, hc, -, timers, execOwner, rfl, rfl⟩ := checkpointStep_eq h
  obtain ⟨hne, hpass, -⟩ := Checkpoint.next_passed (n := n) hc
  apply hb.other
  · rfl
  · rfl
  · exact fun hno => hne hno.checkpoint
  · exact fun t => ⟨id, .inl⟩
  · exact .inl
  · exact hpass
  · exact .inl
  · exact hb.count

theorem Barrier.eventgenStep (hb : Barrier es s) {e : EventgenEvent}
    (h : eventgenStep s e = some u) : Barrier (es ++ [.eventgen e]) u := by
  obtain ⟨g, v, hg, -, timers, queue, rfl, rfl⟩ := eventgenStep_eq h
  obtain ⟨hne, hpass, -⟩ := Eventgen.next_passed (n := n) hg
  apply hb.other
  · rfl
  · rfl
  · exact fun hno => hne hno.eventgen
  · exact fun t => ⟨id, .inl⟩
  · exact .inl
  · exact .inl
  · exact hpass
  · exact hb.count

/-- A step of the main thread: it creates threads, and nobody gets past the barrier. -/
theorem Barrier.main (hb : Barrier es s) {e : RunEvent n} (hready : u.Ready (es ++ [e]))
    (hrunners : ∀ t, (u.runners t).running = true → (s.runners t).running = true)
    (hreport : u.report.passed = true → s.report.passed = true)
    (hcheckpoint : u.checkpoint.passed = true → s.checkpoint.passed = true)
    (heventgen : u.eventgen.passed = true → s.eventgen.passed = true)
    (hcount : u.numRunning = u.runningCount) : Barrier (es ++ [e]) u := by
  constructor
  · exact hready
  · exact fun t ht k => (hb.runners t (hrunners t ht) k).snoc e
  · exact fun h k => (hb.report (hreport h) k).snoc e
  · exact fun h k => (hb.checkpoint (hcheckpoint h) k).snoc e
  · exact fun h k => (hb.eventgen (heventgen h) k).snoc e
  · exact hcount

theorem RunState.NoThreads.count (h : s.NoThreads) : s.runningCount = 0 := by
  apply total_eq_zero
  intro t
  rw [h.runners t]
  rfl

theorem Barrier.create (hb : Barrier es s) {h : Helper} (hm : s.main = .create h)
    (e : RunEvent n) : Barrier (es ++ [e]) { s.createHelper h with main := .afterCreate h } := by
  have hready := hb.ready
  simp only [RunState.Ready, hm] at hready
  have habsurd : ∀ {p : Prop}, false = true → p := fun h => absurd h Bool.false_ne_true
  cases h with
  | report => exact hb.main hready (fun _ => id) habsurd id id hb.count
  | eventgen => exact hb.main hready (fun _ => id) id id habsurd hb.count
  | checkpoints =>
    refine hb.main ?_ (fun _ => id) id habsurd id hb.count
    exact ⟨hready.1, fun t _ => hready.2 t⟩

theorem Barrier.createRunner (hb : Barrier es s) {i : ℕ} (hm : s.main = .createRunner i)
    (hi : i < n) (e : RunEvent n) :
    Barrier (es ++ [e])
      { s with
        main := .createRunner (i + 1)
        runners := Function.update s.runners ⟨i, hi⟩ .initializing } := by
  have hready := hb.ready
  simp only [RunState.Ready, hm] at hready
  have habsent : s.runners ⟨i, hi⟩ = .absent := hready.2 _ le_rfl
  refine hb.main ⟨hready.1, ?_⟩ ?_ id id id ?_
  · intro t ht
    have hne : t ≠ ⟨i, hi⟩ := by
      rintro rfl
      exact absurd ht (by simp)
    change Function.update s.runners ⟨i, hi⟩ .initializing t = .absent
    rw [Function.update_of_ne hne]
    exact hready.2 t (by omega)
  · intro t ht
    by_cases hit : t = ⟨i, hi⟩
    · subst hit
      simp [Runner.running] at ht
    · simpa [hit] using ht
  · have htotal := total_update (fun r => r.running.toNat) s.runners ⟨i, hi⟩ .initializing
    have hcount : s.numRunning = total (fun r => r.running.toNat) s.runners := hb.count
    simp only [habsent, Runner.running, Bool.toNat_false, add_zero] at htotal
    exact hcount.trans htotal.symm

theorem Barrier.mainStep (hb : Barrier es s) {e : MainEvent}
    (h : mainStep cfg s e = some u) : Barrier (es ++ [.main e]) u := by
  have hready := hb.ready
  have hmono : ∀ {k}, Started es k → Started (es ++ [.main e]) k := fun h => h.snoc _
  cases mainStep_moved h with
  | init hm | prepare hm =>
    simp only [RunState.Ready, hm] at hready
    exact hb.main ⟨hready.runners, hready.report, hready.checkpoint, hready.eventgen⟩
      (fun _ => id) id id id hb.count
  | initFailed hm | prepareFailed hm =>
    simp only [RunState.Ready, hm] at hready
    exact hb.main (.inl ⟨hready.runners, hready.report, hready.checkpoint, hready.eventgen⟩)
      (fun _ => id) id id id hb.count
  | lockStart hm =>
    simp only [RunState.Ready, hm] at hready
    exact hb.main ⟨rfl, hready.runners⟩ (fun _ => id) id id id hready.count.symm
  | create hm => exact hb.create hm _
  | createRunner hm hi => exact hb.createRunner hm hi _
  | createFailed hm | createRunnerFailed hm | seenError hm =>
    simp only [RunState.Ready, hm] at hready
    exact hb.main (.inr (.inl hready.1)) (fun _ => id) id id id hb.count
  | @skipHelper helper hm =>
    simp only [RunState.Ready, hm] at hready
    refine hb.main ?_ (fun _ => id) id id id hb.count
    cases helper with
    | checkpoints => exact ⟨hready.1, fun t _ => hready.2 t⟩
    | _ => exact hready
  | created hm =>
    simp only [RunState.Ready, hm] at hready
    exact hb.main ⟨hready.1, by simp [TimerName.before]⟩ (fun _ => id) id id id hb.count
  | @startTimer k now timer hm =>
    simp only [RunState.Ready, hm] at hready
    obtain ⟨hheld, hbefore⟩ := hready
    have hnew : Started (es ++ [.main (.startTimer k now)]) k := ⟨now, by simp⟩
    refine hb.main ?_ (fun _ => id) id id id hb.count
    cases k with
    | exec =>
      refine ⟨hheld, fun j hj => ?_⟩
      obtain rfl : j = .exec := by simpa [TimerName.before] using hj
      exact hnew
    | cumulative1 =>
      refine ⟨hheld, fun j hj => ?_⟩
      obtain rfl | rfl : j = .exec ∨ j = .cumulative1 := by simpa [TimerName.before] using hj
      · exact hmono (hbefore _ (by simp [TimerName.before]))
      · exact hnew
    | cumulative2 =>
      refine ⟨hheld, fun j => ?_⟩
      cases j with
      | cumulative2 => exact hnew
      | _ => exact hmono (hbefore _ (by simp [TimerName.before]))
  | unlockStart hm =>
    simp only [RunState.Ready, hm] at hready
    exact hb.main (fun k => hmono (hready.2 k)) (fun _ => id) id id id hb.count
  | @stopTimer k now timer hm =>
    simp only [RunState.Ready, hm] at hready
    refine hb.main ?_ (fun _ => id) id id id hb.count
    cases k <;> exact fun k => hmono (hready k)
  | @joinHelper helper hm | @skipCancel helper hm =>
    simp only [RunState.Ready, hm] at hready
    refine hb.main ?_ (fun _ => id) id id id hb.count
    cases helper with
    | checkpoints => exact .inr (.inr fun k => hmono (hready k))
    | _ => exact fun k => hmono (hready k)
  | cleanupFailed hm =>
    simp only [RunState.Ready, hm] at hready
    exact hb.main (.inr (.inr fun k => hmono (hready k))) (fun _ => id) id id id hb.count
  | join hm | joined hm | silence hm | cleanup hm | printStats hm | skipStats hm
  | destroyMutexes hm | done hm | cancel hm =>
    simp only [RunState.Ready, hm] at hready
    exact hb.main (fun k => hmono (hready k)) (fun _ => id) id id id hb.count

theorem Barrier.step (hb : Barrier es s) {e : RunEvent n} (h : runStep cfg s e = some u) :
    (e.isWork = true → ∀ k, Started es k) ∧ Barrier (es ++ [e]) u := by
  cases e with
  | main e =>
    refine ⟨fun hwork => ?_, hb.mainStep h⟩
    have hready := hb.ready
    cases mainStep_moved h with
    | printStats hm =>
      simp only [RunState.Ready, hm] at hready
      exact hready
    | _ => cases hwork
  | runner t e =>
    refine ⟨fun hwork => ?_, hb.runnerStep h⟩
    obtain ⟨r, v, hr, -⟩ := runnerStep_eq h
    exact hb.runners t (Runner.running_of_isWork hr hwork)
  | report e =>
    refine ⟨fun hwork => ?_, hb.reportStep h⟩
    obtain ⟨r, v, hr, -⟩ := reportStep_eq h
    exact hb.report ((Report.next_passed hr).2.2 hwork)
  | checkpoint e =>
    refine ⟨fun hwork => ?_, hb.checkpointStep h⟩
    obtain ⟨c, v, hc, -⟩ := checkpointStep_eq h
    exact hb.checkpoint ((Checkpoint.next_passed hc).2.2 hwork)
  | eventgen e =>
    refine ⟨fun hwork => ?_, hb.eventgenStep h⟩
    obtain ⟨g, v, hg, -⟩ := eventgenStep_eq h
    exact hb.eventgen ((Eventgen.next_passed hg).2.2 hwork)

theorem run_barrier {reportInterval : ℕ} {links : Links (Option ℕ)}
    (hr : run (runStep cfg) (initRun n reportInterval links) es = some s) : Barrier es s :=
  run_invariant (I := Barrier) (Barrier.init reportInterval links)
    (fun _ _ _ _ _ hb he => (hb.step he).2) hr

/-- In every run the timers are started before the first request, event and report, and
`num_running` counts the runners between the barrier and their final section. -/
theorem startBarrier {reportInterval : ℕ} {links : Links (Option ℕ)}
    (hr : run (runStep cfg) (initRun n reportInterval links) es = some s) :
    (∀ pre e post, es = pre ++ e :: post → e.isWork = true → ∀ k, Started pre k) ∧
      s.numRunning = s.runningCount := by
  refine ⟨?_, (run_barrier hr).count⟩
  rintro pre e post rfl hwork
  obtain ⟨v, hv, hrest⟩ := run_append_iff.mp hr
  rw [run_cons, Option.bind_eq_some_iff] at hrest
  obtain ⟨w, hw, -⟩ := hrest
  exact ((run_barrier hv).step hw).1 hwork

def barrierEvents : List (RunEvent 2) :=
  [.main (.call true), .main (.call true), .main .next, .main (.create true), .report .start,
    .main .next, .main .next, .main (.create true), .main (.create true),
    .runner 0 (.threadInit true), .main .next, .main (.startTimer .exec ⟨0, 0⟩),
    .main (.startTimer .cumulative1 ⟨0, 0⟩), .runner 1 (.threadInit false),
    .main (.startTimer .cumulative2 ⟨0, 0⟩), .main .next, .report .pass, .runner 0 .pass,
    .report (.value ⟨0, 1⟩), .runner 0 .getRequest, .report .wake, .report .lock,
    .report .print]

theorem barrierEvents_run :
    ∃ s, run (runStep ⟨0, [], true⟩) (initRun 2 1 ⟨id, id⟩) barrierEvents = some s := ⟨_, rfl⟩

theorem startBarrier_two :
    ∃ s, run (runStep ⟨0, [], true⟩) (initRun 2 1 ⟨id, id⟩) barrierEvents = some s ∧
      (∀ pre e post, barrierEvents = pre ++ e :: post → e.isWork = true → ∀ k, Started pre k) ∧
        s.numRunning = s.runningCount := by
  obtain ⟨s, hs⟩ := barrierEvents_run
  exact ⟨s, hs, startBarrier hs⟩

end Sysbench.Core
