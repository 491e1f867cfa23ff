import Sysbench.Core.Checkpoints

/-! # Reports as snapshots

A report's percentile is read from the histogram after the copy of the timers. The stops that
the copy counts are in the histogram, except for those of threads that are between the two
sections of a stop. A report at a forced shutdown counts the running timers as well, which never
come into its histogram.
-/
namespace Sysbench.Core

open Runs Windows Words Pool

variable {n : ℕ} (bucket : ℤ → ℕ)

def histogram (values : Multiset ℤ) : Percentile where
  values b := values.countP fun v => bucket v = b
  total := values.card

/-- The values that stops with these elapsed times put into the histogram. -/
def responseTimes (elapsed : Multiset ℕ) : Multiset ℤ := elapsed.map fun e : ℕ => toInt 64 e

/-- Every report computes its percentile from exactly the stops that its timers count, those that it
stops itself included. -/
structure ReportsConsistent (es : List (LogEvent n)) : Prop where
  read : ∀ pre s, pre ++ [.calculate] <+: es →
    run (logStep bucket) (operHandlerInit n) pre = some s →
      s.percentile = histogram bucket (responseTimes (stopTimes (lastWindow LogEvent.isCopy pre)))
  forced : ∀ pre s now k t timersCopy hist, pre ++ [.printForced now k t] <+: es →
    run (logStep bucket) (operHandlerInit n) pre = some s → s.reporter = .merging timersCopy hist →
      hist = histogram bucket (responseTimes
        (stopTimes (lastWindow LogEvent.isCopy pre) + forcedStops now timersCopy))

/-- When a report reads the histogram no thread is between the two sections of a stop, and a report
at a forced shutdown finds no copy running. -/
structure StopsWhole (es : List (LogEvent n)) : Prop where
  read : ∀ pre s, pre ++ [.calculate] <+: es →
    run (logStep bucket) (operHandlerInit n) pre = some s → ∀ t, s.value t = none
  forced : ∀ pre s now k t timersCopy hist, pre ++ [.printForced now k t] <+: es →
    run (logStep bucket) (operHandlerInit n) pre = some s → s.reporter = .merging timersCopy hist →
      ∀ i, (timersCopy i).state ≠ .running

/-- The values that are still to be put into the histogram. -/
def pending (s : LogState n) : Multiset ℤ := ∑ t, ((s.value t).toList : Multiset ℤ)

variable {bucket}

theorem histogram_zero : histogram bucket 0 = sbPercentileReset := rfl

theorem sbPercentileUpdate_histogram (v : ℤ) (values : Multiset ℤ) :
    sbPercentileUpdate bucket v (histogram bucket values) = histogram bucket (v ::ₘ values) := by
  apply Percentile.ext
  · funext b
    simp only [sbPercentileUpdate, histogram, Multiset.countP_cons]
    by_cases hb : bucket v = b
    · subst hb
      simp
    · rw [Function.update_of_ne (Ne.symm hb), if_neg hb, add_zero]
  · simp [sbPercentileUpdate, histogram]

theorem responseTimes_add (xs ys : Multiset ℕ) :
    responseTimes (xs + ys) = responseTimes xs + responseTimes ys := Multiset.map_add _ _ _

theorem pending_eq_zero {s : LogState n} : pending s = 0 ↔ ∀ t, s.value t = none := by
  simp [pending, Finset.sum_eq_zero_iff]

/-- The histogram holds what was stopped and is not pending. -/
theorem pending_update {s : LogState n} (t : Fin n) (v : Option ℤ) :
    (∑ i, ((Function.update s.value t v i).toList : Multiset ℤ)) + ((s.value t).toList : Multiset ℤ) =
      pending s + (v.toList : Multiset ℤ) :=
  sum_update (fun v : Option ℤ => (v.toList : Multiset ℤ)) s.value t v

variable (bucket)

/-- The histogram holds what was stopped and is not pending: in the open window, or, while a
report holds the mutex, in the window it counts. No stop is handled under the mutex. -/
inductive Snapshot (es : List (LogEvent n)) (s : LogState n) : Prop
  | unlocked (values : Multiset ℤ) (hl : s.reporter.locked = false)
      (hp : s.percentile = histogram bucket values)
      (h : values + pending s = responseTimes (stopTimes (since LogEvent.isCopy es)))
  | copied (values : Multiset ℤ) (timersCopy : Fin n → SbTimer)
      (hr : s.reporter = .copied timersCopy) (hp : s.percentile = histogram bucket values)
      (h : values + pending s = responseTimes (stopTimes (lastWindow LogEvent.isCopy es)))
      (hz : stopTimes (since LogEvent.isCopy es) = 0)
  | calculated (timersCopy : Fin n → SbTimer) (hist : Percentile)
      (hr : s.reporter = .calculated timersCopy hist) (hv : ∀ t, s.value t = none)
      (hz : stopTimes (since LogEvent.isCopy es) = 0)

variable {bucket}

theorem stopTimes_since (es : List (LogEvent n)) {e : LogEvent n} (hcopy : e.isCopy = false)
    (hstop : e.stopTime = none) :
    stopTimes (since LogEvent.isCopy (es ++ [e])) = stopTimes (since LogEvent.isCopy es) := by
  simp [since_other es hcopy, stopTimes_snoc, hstop]

theorem Snapshot.keep {es : List (LogEvent n)} {s u : LogState n} (h : Snapshot bucket es s)
    {e : LogEvent n} (hcopy : e.isCopy = false) (hstop : e.stopTime = none)
    (hrep : u.reporter = s.reporter) (hperc : u.percentile = s.percentile)
    (hvalue : u.value = s.value) : Snapshot bucket (es ++ [e]) u := by
  have hsince := stopTimes_since es hcopy hstop
  have hpend : pending u = pending s := by simp [pending, hvalue]
  cases h with
  | unlocked values hl hp h =>
    exact .unlocked values (hrep ▸ hl) (hperc.trans hp) (by rw [hpend, h, hsince])
  | copied values timersCopy hr hp h hz =>
    exact .copied values timersCopy (hrep.trans hr) (hperc.trans hp)
      (by rw [hpend, h, lastWindow_other es hcopy]) (hsince.trans hz)
  | calculated timersCopy hist hr hv hz =>
    exact .calculated timersCopy hist (hrep.trans hr) (hvalue ▸ hv) (hsince.trans hz)

theorem Snapshot.update {es : List (LogEvent n)} {s : LogState n} {t : Fin n} {v : ℤ}
    (h : Snapshot bucket es s) (hv : s.value t = some v) :
    Snapshot bucket (es ++ [.update t]) { s with
      percentile := sbPercentileUpdate bucket v s.percentile
      value := Function.update s.value t none } := by
  have hsince := stopTimes_since es (e := .update t) rfl rfl
  have hpend := pending_update (s := s) t none
  rw [hv] at hpend
  simp only [Option.toList_none, Option.toList_some, Multiset.coe_nil, add_zero] at hpend
  have hmove : ∀ values : Multiset ℤ, (v ::ₘ values) +
      (∑ i, ((Function.update s.value t none i).toList : Multiset ℤ)) = values + pending s := by
    intro values
    rw [← hpend, Multiset.cons_add, ← Multiset.add_cons, Multiset.coe_singleton,
      ← Multiset.singleton_add]
    exact congrArg (values + ·) (add_comm _ _)
  cases h with
  | unlocked values hl hp h =>
    refine .unlocked (v ::ₘ values) hl ?_ ?_
    · dsimp only
      rw [hp, sbPercentileUpdate_histogram]
    · rw [hsince, ← h]
      exact hmove values
  | copied values timersCopy hr hp h hz =>
    refine .copied (v ::ₘ values) timersCopy hr ?_ ?_ (hsince.trans hz)
    · dsimp only
      rw [hp, sbPercentileUpdate_histogram]
    · rw [lastWindow_other es rfl, ← h]
      exact hmove values
  | calculated timersCopy hist hr hnone hz =>
    rw [hnone t] at hv
    cases hv

/-- One step, provided that nothing is pending when a report reads the histogram. -/
theorem LogMoved.snapshot {es : List (LogEvent n)} {s u : LogState n} {e : LogEvent n}
    (hmv : LogMoved bucket s e u) (h : Snapshot bucket es s)
    (hcalc : e = .calculate → ∀ t, s.value t = none) : Snapshot bucket (es ++ [e]) u := by
  cases hmv with
  | queue hv => exact h.keep rfl rfl rfl rfl rfl
  | start hl hv hstart => exact h.keep rfl rfl rfl rfl rfl
  | @stop t now timer hl hv hstop =>
    cases h with
    | unlocked values hl' hp h =>
      refine .unlocked values hl hp ?_
      have hpend := pending_update (s := s) t (some (toInt 64 timer.elapsed))
      rw [hv] at hpend
      simp only [Option.toList_none, Multiset.coe_nil, add_zero] at hpend
      rw [since_other es rfl, stopTimes_snoc, responseTimes_add, ← h, add_assoc]
      exact congrArg (values + ·) hpend
    | copied values timersCopy hr => simp [hr, Reporter.locked] at hl
    | calculated timersCopy hist hr => simp [hr, Reporter.locked] at hl
  | update hv => exact h.update hv
  | copy hr =>
    have hmark : LogEvent.isCopy (.copy : LogEvent n) = true := rfl
    cases h with
    | unlocked values hl hp h =>
      refine .copied values s.timers rfl hp ?_ ?_
      · rw [lastWindow_mark es hmark]
        exact h
      · rw [since_mark es hmark]
        rfl
    | copied values timersCopy hr' => simp [hr] at hr'
    | calculated timersCopy hist hr' => simp [hr] at hr'
  | @calculate timersCopy hr =>
    cases h with
    | unlocked values hl => simp [hr, Reporter.locked] at hl
    | copied values timersCopy' hr' hp h hz =>
      exact .calculated timersCopy s.percentile rfl (hcalc rfl)
        ((stopTimes_since es rfl rfl).trans hz)
    | calculated timersCopy' hist hr' => simp [hr] at hr'
  | @reset timersCopy hist hr =>
    cases h with
    | unlocked values hl => simp [hr, Reporter.locked] at hl
    | copied values timersCopy' hr' => simp [hr] at hr'
    | calculated timersCopy' hist' hr' hv hz =>
      refine .unlocked 0 rfl histogram_zero.symm ?_
      have hpend : pending s = 0 := pending_eq_zero.mpr hv
      rw [stopTimes_since es rfl rfl, hz]
      exact (zero_add _).trans hpend
  | @print timersCopy hist hr =>
    have hsince := stopTimes_since es (e := .print (mergeAll timersCopy)) rfl rfl
    cases h with
    | unlocked values hl hp h => exact .unlocked values rfl hp (by rw [hsince]; exact h)
    | copied values timersCopy' hr' => simp [hr] at hr'
    | calculated timersCopy' hist' hr' => simp [hr] at hr'
  | @printForced timersCopy hist now hr =>
    have hsince := stopTimes_since es
      (e := .printForced now (unfinished timersCopy) (mergeAll (stopAll now timersCopy))) rfl rfl
    cases h with
    | unlocked values hl hp h => exact .unlocked values rfl hp (by rw [hsince]; exact h)
    | copied values timersCopy' hr' => simp [hr] at hr'
    | calculated timersCopy' hist' hr' => simp [hr] at hr'

/-- What a report reads is complete exactly when no thread is between its two sections. -/
theorem Snapshot.consistent_iff {es : List (LogEvent n)} {s u : LogState n}
    (h : Snapshot bucket es s) (hmv : LogMoved bucket s .calculate u) :
    s.percentile = histogram bucket (responseTimes (stopTimes (lastWindow LogEvent.isCopy es))) ↔
      ∀ t, s.value t = none := by
  cases hmv with
  | calculate hr =>
    cases h with
    | unlocked values hl => simp [hr, Reporter.locked] at hl
    | copied values timersCopy hr' hp h hz =>
      rw [← pending_eq_zero, hp, ← h]
      constructor
      · intro heq
        have hcard := congrArg Percentile.total heq
        simp only [histogram, Multiset.card_add] at hcard
        exact Multiset.card_eq_zero.mp (by omega)
      · intro hz
        rw [hz, add_zero]
    | calculated timersCopy hist hr' => simp [hr] at hr'

/-! ## What a report has read -/

/-- The histogram in the hands of a report holds the stops that its copy counts. -/
def HistRight (bucket : ℤ → ℕ) (es : List (LogEvent n)) (s : LogState n) : Prop :=
  ∀ timersCopy hist,
    s.reporter = .calculated timersCopy hist ∨ s.reporter = .merging timersCopy hist →
      hist = histogram bucket (responseTimes (stopTimes (lastWindow LogEvent.isCopy es)))

theorem LogMoved.histRight {es : List (LogEvent n)} {s u : LogState n} {e : LogEvent n}
    (hmv : LogMoved bucket s e u) (hsnap : Snapshot bucket es s) (h : HistRight bucket es s)
    (hcalc : e = .calculate → ∀ t, s.value t = none) : HistRight bucket (es ++ [e]) u := by
  intro timersCopy hist hrep
  cases hmv with
  | @calculate timersCopy' hr =>
    have hconsistent := (hsnap.consistent_iff (.calculate hr)).mpr (hcalc rfl)
    rw [lastWindow_other es rfl, ← hconsistent]
    rcases hrep with hrep | hrep <;> cases hrep
    rfl
  | reset hr =>
    rw [lastWindow_other es rfl]
    rcases hrep with hrep | hrep <;> cases hrep
    exact h _ _ (.inl hr)
  | copy hr => rcases hrep with hrep | hrep <;> cases hrep
  | print hr => rcases hrep with hrep | hrep <;> cases hrep
  | printForced hr => rcases hrep with hrep | hrep <;> cases hrep
  | queue | start | stop | update =>
    rw [lastWindow_other es rfl]
    exact h _ _ hrep

theorem forcedStops_eq_zero (now : Fin n → Timespec) {timersCopy : Fin n → SbTimer} :
    forcedStops now timersCopy = 0 ↔ ∀ t, (timersCopy t).state ≠ .running := by
  rw [forcedStops, Finset.sum_eq_zero_iff]
  refine forall_congr' fun t => ?_
  split
  · next hrunning => simp [hrunning]
  · next hrunning => simp [hrunning]

/-- A forced report that has read right is right exactly if it stops nothing. -/
theorem HistRight.forced_iff {es : List (LogEvent n)} {s : LogState n} (h : HistRight bucket es s)
    {timersCopy : Fin n → SbTimer} {hist : Percentile} {now : Fin n → Timespec}
    (hr : s.reporter = .merging timersCopy hist) :
    hist = histogram bucket (responseTimes
        (stopTimes (lastWindow LogEvent.isCopy es) + forcedStops now timersCopy)) ↔
      ∀ t, (timersCopy t).state ≠ .running := by
  rw [h timersCopy hist (.inr hr), ← forcedStops_eq_zero now]
  constructor
  · intro heq
    have hcard := congrArg Percentile.total heq
    simp only [histogram, responseTimes, Multiset.card_map, Multiset.card_add] at hcard
    exact Multiset.card_eq_zero.mp (by omega)
  · intro hz
    rw [hz, add_zero]

/-- If nothing is pending at the reports before the end, the histograms are right there. -/
theorem run_snapshot {es : List (LogEvent n)} {s : LogState n}
    (hnone : ∀ pre u, pre ++ [.calculate] <+: es → run (logStep bucket) (operHandlerInit n) pre =
      some u → Snapshot bucket pre u → ∀ t, u.value t = none)
    (hr : run (logStep bucket) (operHandlerInit n) es = some s) :
    Snapshot bucket es s ∧ HistRight bucket es s := by
  induction es using List.reverseRecOn generalizing s with
  | nil =>
    cases hr
    refine ⟨.unlocked 0 rfl histogram_zero.symm (by simp [pending, operHandlerInit, stopTimes,
      responseTimes]), fun timersCopy hist hrep => ?_⟩
    rcases hrep with hrep | hrep <;> cases hrep
  | append_singleton es e ih =>
    obtain ⟨v, hv, hstep⟩ := run_snoc_iff.mp hr
    obtain ⟨hsnap, hhist⟩ :=
      ih (fun pre u hpre => hnone pre u (hpre.trans (List.prefix_append _ _))) hv
    have hcalc : e = .calculate → ∀ t, v.value t = none := by
      rintro rfl
      exact hnone es v List.prefix_rfl hv hsnap
    exact ⟨(logStep_moved hstep).snapshot hsnap hcalc,
      (logStep_moved hstep).histRight hsnap hhist hcalc⟩

def splitStopEvents : List (LogEvent 1) :=
  [.start 0 ⟨0, 0⟩, .stop 0 ⟨0, 5⟩ 5, .copy, .calculate, .update 0]

theorem splitStopEvents_run :
    ∃ s, run (logStep fun _ => 0) (operHandlerInit 1) splitStopEvents = some s := ⟨_, rfl⟩

end Sysbench.Core
