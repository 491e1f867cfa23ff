import Sysbench.Core.OperLog

/-! # Totals of the checkpoint reports

The stops before a report's copy and after the one before it are the ones it counts. A timer
holds the totals of the stops since the last copy, a copy those of the window it closed, and
so every stop is counted once, however the sections of the threads interleave.
-/
namespace Sysbench.Core

open Runs Windows Words

variable {n : ℕ}

/-- The mark of a window: the timers are copied and reset. -/
def LogEvent.isCopy : LogEvent n → Bool
  | .copy => true
  | _ => false

/-- The elapsed time that a stop records. -/
def LogEvent.stopTime : LogEvent n → Option ℕ
  | .stop _ _ elapsed => some elapsed
  | _ => none

def LogEvent.stopTimeOf (t : Fin n) : LogEvent n → Option ℕ
  | .stop i _ elapsed => if i = t then some elapsed else none
  | _ => none

def stopTimes (es : List (LogEvent n)) : Multiset ℕ := es.filterMap LogEvent.stopTime

def stopTimesOf (t : Fin n) (es : List (LogEvent n)) : Multiset ℕ :=
  es.filterMap (LogEvent.stopTimeOf t)

def LogEvent.report : LogEvent n → Option SbTimer
  | .print t => some t
  | .printForced _ _ t => some t
  | _ => none

/-- A report at a forced shutdown, which counts what is still running. -/
def LogEvent.isForced : LogEvent n → Bool
  | .printForced _ _ _ => true
  | _ => false

/-- The merged timers that were printed, in order. -/
def reports (es : List (LogEvent n)) : List SbTimer := es.filterMap LogEvent.report

def Reporter.total (field : SbTimer → ℕ) (r : Reporter n) : ℕ :=
  r.timersCopy.elim 0 fun timersCopy => ∑ t, field (timersCopy t)

theorem filterMap_snoc {α β : Type} (f : α → Option β) (es : List α) (e : α) :
    (es ++ [e]).filterMap f = es.filterMap f ++ (f e).toList := by
  simp only [List.filterMap_append, List.filterMap_cons]
  cases f e <;> rfl

theorem stopTimes_snoc (es : List (LogEvent n)) (e : LogEvent n) :
    stopTimes (es ++ [e]) = stopTimes es + (e.stopTime.toList : Multiset ℕ) := by
  rw [stopTimes, filterMap_snoc, ← Multiset.coe_add, stopTimes]

theorem stopTimesOf_snoc (t : Fin n) (es : List (LogEvent n)) (e : LogEvent n) :
    stopTimesOf t (es ++ [e]) = stopTimesOf t es + ((e.stopTimeOf t).toList : Multiset ℕ) := by
  rw [stopTimesOf, filterMap_snoc, ← Multiset.coe_add, stopTimesOf]

theorem reports_snoc (es : List (LogEvent n)) (e : LogEvent n) :
    reports (es ++ [e]) = reports es ++ e.report.toList := filterMap_snoc _ _ _

/-- Every stop is a stop of one thread. -/
theorem sum_stopTimesOf (es : List (LogEvent n)) : ∑ t, stopTimesOf t es = stopTimes es := by
  induction es using List.reverseRecOn with
  | nil => simp [stopTimesOf, stopTimes]
  | append_singleton es e ih =>
    have hone : ∑ t, ((e.stopTimeOf t).toList : Multiset ℕ) = (e.stopTime.toList : Multiset ℕ) := by
      cases e with
      | stop i now elapsed =>
        rw [Finset.sum_eq_single i]
        · simp [LogEvent.stopTimeOf, LogEvent.stopTime]
        · intro t _ ht
          simp [LogEvent.stopTimeOf, ht.symm]
        · simp
      | _ => simp [LogEvent.stopTimeOf, LogEvent.stopTime]
    simp only [stopTimesOf_snoc, Finset.sum_add_distrib, ih, hone, stopTimes_snoc]

theorem mergeAll_records {timersCopy : Fin n → SbTimer} {xs : Fin n → Multiset ℕ}
    (h : ∀ t, (timersCopy t).Records (xs t)) : (mergeAll timersCopy).Records (∑ t, xs t) := by
  have hall := foldl_mergeTimers_records (l := List.finRange n) (fun i _ => h i) sbTimerInit_records
  rwa [zero_add, ← Fin.sum_univ_def] at hall

/-- The elapsed times of the copies that are running at a forced shutdown. -/
def forcedStops (now : Fin n → Timespec) (timersCopy : Fin n → SbTimer) : Multiset ℕ :=
  ∑ t, if (timersCopy t).state = .running then {(stopRunning (now t) (timersCopy t)).elapsed} else 0

/-- What the timers and the copies record, and how the stops are divided among the reports. -/
structure Counted (es : List (LogEvent n)) (s : LogState n) : Prop where
  timers : ∀ t, (s.timers t).Records (stopTimesOf t (since LogEvent.isCopy es))
  copies : ∀ timersCopy, s.reporter.timersCopy = some timersCopy →
    ∀ t, (timersCopy t).Records (stopTimesOf t (lastWindow LogEvent.isCopy es))
  ledger : ∃ parts : List (SbTimer × Multiset ℕ), parts.map Prod.fst = reports es ∧
    (∀ part ∈ parts, part.1.Records part.2) ∧
    stopTimes es = (parts.map Prod.snd).sum +
      s.reporter.timersCopy.elim 0 (fun _ => stopTimes (lastWindow LogEvent.isCopy es)) +
      stopTimes (since LogEvent.isCopy es)

variable {bucket : ℤ → ℕ}

/-- A step that is no copy and no print: the copies stay, and one timer may record a stop. -/
theorem Counted.keep {es : List (LogEvent n)} {s u : LogState n} (h : Counted es s)
    {e : LogEvent n} (hcopy : e.isCopy = false) (hrep : e.report = none)
    (hcopies : u.reporter.timersCopy = s.reporter.timersCopy)
    (htimers : ∀ t, (u.timers t).Records
      (stopTimesOf t (since LogEvent.isCopy es) + ((e.stopTimeOf t).toList : Multiset ℕ))) :
    Counted (es ++ [e]) u := by
  constructor
  · intro t
    rw [since_other es hcopy, stopTimesOf_snoc]
    exact htimers t
  · intro timersCopy hc t
    rw [lastWindow_other es hcopy]
    exact h.copies timersCopy (hcopies ▸ hc) t
  · obtain ⟨parts, hfst, hrec, hsum⟩ := h.ledger
    refine ⟨parts, by simp [reports_snoc, hrep, hfst], hrec, ?_⟩
    rw [since_other es hcopy, lastWindow_other es hcopy, hcopies, stopTimes_snoc, stopTimes_snoc,
      hsum]
    exact add_assoc _ _ _

theorem LogMoved.counted {es : List (LogEvent n)} {s u : LogState n} {e : LogEvent n}
    (hmv : LogMoved bucket s e u) (hforced : e.isForced = false) (h : Counted es s) :
    Counted (es ++ [e]) u := by
  -- a message of thread `t` changes the timer of `t` only
  have hset : ∀ {t : Fin n} {timer : SbTimer} {e : LogEvent n},
      timer.Records (stopTimesOf t (since LogEvent.isCopy es) + ((e.stopTimeOf t).toList : Multiset ℕ)) →
      (∀ i, i ≠ t → e.stopTimeOf i = none) → ∀ i, ((s.setTimer t timer).timers i).Records
        (stopTimesOf i (since LogEvent.isCopy es) + ((e.stopTimeOf i).toList : Multiset ℕ)) := by
    intro t timer e ht hother i
    by_cases hi : i = t
    · subst hi
      simpa [LogState.setTimer] using ht
    · simpa [LogState.setTimer, hi, hother i hi] using h.timers i
  cases hmv with
  | @queue t execValue eventTime hv =>
    obtain ⟨hevents, hsum, hmin, hmax⟩ := h.timers t
    refine h.keep rfl rfl rfl (hset ?_ fun _ _ => rfl)
    simpa [LogEvent.stopTimeOf] using ⟨hevents, hsum, hmin, hmax⟩
  | @start t now timer hl hv hstart =>
    refine h.keep rfl rfl rfl (hset ?_ fun _ _ => rfl)
    simpa [LogEvent.stopTimeOf] using sbTimerStart_records (h.timers t) hstart
  | @stop t now timer hl hv hstop =>
    refine h.keep rfl rfl rfl (hset ?_ fun i hi => if_neg (Ne.symm hi))
    have hrec := sbTimerStop_records (h.timers t) hstop
    simpa [LogEvent.stopTimeOf, add_comm] using hrec
  | update hv => exact h.keep rfl rfl rfl fun t => by simpa [LogEvent.stopTimeOf] using h.timers t
  | calculate hr =>
    exact h.keep rfl rfl (by rw [hr]; rfl) fun t => by simpa [LogEvent.stopTimeOf] using h.timers t
  | reset hr =>
    exact h.keep rfl rfl (by rw [hr]; rfl) fun t => by simpa [LogEvent.stopTimeOf] using h.timers t
  | copy hr =>
    have hmark : LogEvent.isCopy (.copy : LogEvent n) = true := rfl
    constructor
    · intro t
      rw [since_mark es hmark]
      exact sbTimerReset_records _
    · intro timersCopy hc t
      rw [lastWindow_mark es hmark]
      cases hc
      exact h.timers t
    · obtain ⟨parts, hfst, hrec, hsum⟩ := h.ledger
      refine ⟨parts, by simp [reports_snoc, LogEvent.report, hfst], hrec, ?_⟩
      rw [since_mark es hmark, lastWindow_mark es hmark, stopTimes_snoc, hsum, hr]
      simp [Reporter.timersCopy, LogEvent.stopTime, stopTimes]
  | @print timersCopy hist hr =>
    have hother : LogEvent.isCopy (.print (mergeAll timersCopy) : LogEvent n) = false := rfl
    have hcopies := h.copies timersCopy (by rw [hr]; rfl)
    constructor
    · intro t
      rw [since_other es hother, stopTimesOf_snoc]
      simpa [LogEvent.stopTimeOf] using h.timers t
    · intro timersCopy' hc
      cases hc
    · obtain ⟨parts, hfst, hrec, hsum⟩ := h.ledger
      refine ⟨parts ++ [(mergeAll timersCopy, stopTimes (lastWindow LogEvent.isCopy es))], ?_, ?_, ?_⟩
      · simp [reports_snoc, LogEvent.report, hfst]
      · intro part hpart
        rcases List.mem_append.mp hpart with hpart | hpart
        · exact hrec part hpart
        · rw [List.mem_singleton.mp hpart, ← sum_stopTimesOf]
          exact mergeAll_records hcopies
      · rw [since_other es hother, stopTimes_snoc, stopTimes_snoc, hsum, hr]
        simp [Reporter.timersCopy, LogEvent.stopTime]
  | printForced hr => cases hforced

theorem run_counted {es : List (LogEvent n)} {s : LogState n}
    (hforced : ∀ e ∈ es, e.isForced = false)
    (hr : run (logStep bucket) (operHandlerInit n) es = some s) : Counted es s := by
  refine run_invariant (I := fun es s => (∀ e ∈ es, e.isForced = false) → Counted es s) ?_ ?_ hr
    hforced
  · refine fun _ => ⟨fun t => sbTimerInit_records, fun timersCopy hc => ?_, [], rfl, ?_, rfl⟩
    · cases hc
    · intro part hpart
      cases hpart
  · intro es s e u _ h hstep hforced
    exact (logStep_moved hstep).counted
      (hforced e (List.mem_append_right _ (List.mem_singleton.mpr rfl)))
      (h fun e he => hforced e (List.mem_append_left _ he))

/-! ## Without overflow -/

theorem SbTimer.Records.exact {t : SbTimer} {xs ys : Multiset ℕ} (h : t.Records xs) (hle : xs ≤ ys)
    (hcard : ys.card < 2 ^ 64) (hsum : ys.sum < 2 ^ 64) :
    t.events = xs.card ∧ t.sumTime = xs.sum := by
  obtain ⟨zs, rfl⟩ := Multiset.le_iff_exists_add.mp hle
  rw [Multiset.card_add] at hcard
  rw [Multiset.sum_add] at hsum
  rw [h.events, h.sumTime, toUInt_natCast (by omega), toUInt_natCast (by omega)]
  exact ⟨rfl, rfl⟩

theorem stopTimesOf_le (t : Fin n) (es : List (LogEvent n)) : stopTimesOf t es ≤ stopTimes es := by
  rw [← sum_stopTimesOf]
  exact Finset.single_le_sum (f := fun i => stopTimesOf i es) (fun _ _ => zero_le)
    (Finset.mem_univ t)

theorem stopTimes_sublist {es fs : List (LogEvent n)} (h : es.Sublist fs) :
    stopTimes es ≤ stopTimes fs := Multiset.coe_le.mpr (h.filterMap _).subperm

theorem totals_of_records {timers : Fin n → SbTimer} {fs : List (LogEvent n)}
    (h : ∀ t, (timers t).Records (stopTimesOf t fs)) (hcard : (stopTimes fs).card < 2 ^ 64)
    (hsum : (stopTimes fs).sum < 2 ^ 64) :
    ∑ t, (timers t).events = (stopTimes fs).card ∧ ∑ t, (timers t).sumTime = (stopTimes fs).sum := by
  have hexact := fun t => (h t).exact (stopTimesOf_le t fs) hcard hsum
  constructor
  · rw [Finset.sum_congr rfl fun t _ => (hexact t).1, ← sum_stopTimesOf, Multiset.card_sum]
  · rw [Finset.sum_congr rfl fun t _ => (hexact t).2, ← sum_stopTimesOf, Multiset.sum_sum]

/-- The totals of the printed reports are those of the stops they count. -/
theorem totals_of_parts {parts : List (SbTimer × Multiset ℕ)}
    (h : ∀ part ∈ parts, part.1.events = part.2.card ∧ part.1.sumTime = part.2.sum) :
    ((parts.map Prod.fst).map SbTimer.events).sum = ((parts.map Prod.snd).sum).card ∧
      ((parts.map Prod.fst).map SbTimer.sumTime).sum = ((parts.map Prod.snd).sum).sum := by
  induction parts with
  | nil => exact ⟨rfl, rfl⟩
  | cons part parts ih =>
    obtain ⟨hevents, hsum⟩ := h part List.mem_cons_self
    obtain ⟨ihevents, ihsum⟩ := ih fun p hp => h p (List.mem_cons_of_mem _ hp)
    simp only [List.map_cons, List.sum_cons, Multiset.card_add, Multiset.sum_add]
    exact ⟨by rw [hevents, ihevents], by rw [hsum, ihsum]⟩

/-- Without a forced shutdown every stop is counted once: in a printed report, in the report in
progress, or in the timers. A report that counts something prints the totals, the minimum and the
maximum of the stops between its copy of the timers and the one before. -/
theorem reports_account {es : List (LogEvent n)} {s : LogState n}
    (hforced : ∀ e ∈ es, e.isForced = false)
    (hr : run (logStep bucket) (operHandlerInit n) es = some s)
    (hcard : (stopTimes es).card < 2 ^ 64) (hsum : (stopTimes es).sum < 2 ^ 64) :
    ((reports es).map SbTimer.events).sum + s.reporter.total SbTimer.events +
        ∑ t, (s.timers t).events = (stopTimes es).card ∧
      ((reports es).map SbTimer.sumTime).sum + s.reporter.total SbTimer.sumTime +
        ∑ t, (s.timers t).sumTime = (stopTimes es).sum ∧
      ∀ pre t, pre ++ [.print t] <+: es →
        t.events = (stopTimes (lastWindow LogEvent.isCopy pre)).card ∧
        t.sumTime = (stopTimes (lastWindow LogEvent.isCopy pre)).sum ∧
        (0 < t.events → IsLeast {x | x ∈ stopTimes (lastWindow LogEvent.isCopy pre)} t.minTime ∧
          IsGreatest {x | x ∈ stopTimes (lastWindow LogEvent.isCopy pre)} t.maxTime) := by
  have hbound : ∀ {fs : List (LogEvent n)}, fs.Sublist es →
      (stopTimes fs).card < 2 ^ 64 ∧ (stopTimes fs).sum < 2 ^ 64 := by
    intro fs hfs
    obtain ⟨zs, hz⟩ := Multiset.le_iff_exists_add.mp (stopTimes_sublist hfs)
    rw [hz, Multiset.card_add] at hcard
    rw [hz, Multiset.sum_add] at hsum
    exact ⟨by omega, by omega⟩
  have hcounted := run_counted hforced hr
  have hwindows := lastWindow_since_sublist (p := LogEvent.isCopy) es
  have hlast := (List.sublist_append_left _ _).trans hwindows
  have hopen := (List.sublist_append_right _ _).trans hwindows
  obtain ⟨hevents, htimes⟩ := totals_of_records hcounted.timers (hbound hopen).1 (hbound hopen).2
  obtain ⟨parts, hfst, hrec, hsplit⟩ := hcounted.ledger
  have hparts : ∀ part ∈ parts, part.1.events = part.2.card ∧ part.1.sumTime = part.2.sum := by
    intro part hpart
    refine (hrec part hpart).exact ?_ hcard hsum
    calc part.2 ≤ (parts.map Prod.snd).sum :=
          List.single_le_sum (fun _ _ => zero_le) _ (List.mem_map_of_mem hpart)
      _ ≤ stopTimes es := by
          rw [hsplit, add_assoc]
          exact Multiset.le_add_right _ _
  obtain ⟨hpevents, hptimes⟩ := totals_of_parts hparts
  rw [hfst] at hpevents hptimes
  have hcopies : s.reporter.total SbTimer.events =
        (s.reporter.timersCopy.elim 0 fun _ => stopTimes (lastWindow LogEvent.isCopy es)).card ∧
      s.reporter.total SbTimer.sumTime =
        (s.reporter.timersCopy.elim 0 fun _ => stopTimes (lastWindow LogEvent.isCopy es)).sum := by
    unfold Reporter.total
    cases hc : s.reporter.timersCopy with
    | none => exact ⟨rfl, rfl⟩
    | some timersCopy =>
      exact totals_of_records (hcounted.copies timersCopy hc) (hbound hlast).1 (hbound hlast).2
  refine ⟨?_, ?_, ?_⟩
  · rw [hpevents, hcopies.1, hevents, hsplit, Multiset.card_add, Multiset.card_add]
  · rw [hptimes, hcopies.2, htimes, hsplit, Multiset.sum_add, Multiset.sum_add]
  · intro pre t hpre
    obtain ⟨rest, rfl⟩ := id hpre
    obtain ⟨v, hv, -⟩ := run_append_iff.mp hr
    obtain ⟨u, hu, hstep⟩ := run_snoc_iff.mp hv
    have hsub : (lastWindow LogEvent.isCopy pre).Sublist (pre ++ [.print t] ++ rest) :=
      ((List.sublist_append_left _ _).trans (lastWindow_since_sublist pre)).trans
        ((List.sublist_append_left _ _).trans (List.sublist_append_left _ _))
    cases logStep_moved hstep with
    | @print timersCopy hist hrep =>
      have hcopies := (run_counted (fun e he => hforced e (by simp [he])) hu).copies timersCopy
        (by rw [hrep]; rfl)
      have hmerged := mergeAll_records hcopies
      rw [sum_stopTimesOf] at hmerged
      obtain ⟨he, hs⟩ := hmerged.exact le_rfl (hbound hsub).1 (hbound hsub).2
      refine ⟨he, hs, fun hpos => hmerged.bounds ?_ ?_⟩
      · intro hz
        rw [he, hz] at hpos
        exact absurd hpos (lt_irrefl 0)
      · intro x hx
        exact (Multiset.single_le_sum (fun _ _ => Nat.zero_le _) x hx).trans_lt (hbound hsub).2

/-- A merged timer with the given totals. -/
def mergedTimer (elapsed sumTime minTime maxTime events : ℕ) : SbTimer where
  timeStart := ⟨0, 0⟩
  timeEnd := ⟨0, 0⟩
  timeSplit := ⟨0, 0⟩
  elapsed := elapsed
  minTime := minTime
  maxTime := maxTime
  sumTime := sumTime
  events := events
  queueTime := 0
  state := .uninitialized

/-- A checkpoint falls into an event of five nanoseconds, and another one follows it. -/
def checkpointEvents : List (LogEvent 1) :=
  [.start 0 ⟨0, 0⟩, .copy, .calculate, .reset, .print (mergedTimer 0 0 uint64Max 0 0),
    .stop 0 ⟨0, 5⟩ 5, .update 0, .copy, .calculate, .reset, .print (mergedTimer 5 5 5 5 1)]

theorem checkpointEvents_run :
    ∃ s, run (logStep fun _ => 0) (operHandlerInit 1) checkpointEvents = some s := ⟨_, rfl⟩

theorem reports_account_checkpoint : ∃ s : LogState 1,
    ((reports checkpointEvents).map SbTimer.events).sum + s.reporter.total SbTimer.events +
      ∑ t, (s.timers t).events = 1 := by
  obtain ⟨s, hs⟩ := checkpointEvents_run
  exact ⟨s, (reports_account (by decide) hs (by decide) (by decide)).1⟩

end Sysbench.Core
