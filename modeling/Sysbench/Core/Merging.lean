import Sysbench.Core.Splits

/-! # Merging timers

A timer summarizes the elapsed times it has recorded, whatever calls were made on it, and merging
is the sum of what two timers record. The order of the timers does not matter.
-/
namespace Sysbench.Core

open Words Runs

inductive TimerCall where
  | init
  | reset
  | start (now : Timespec)
  | stop (now : Timespec)
  | value (now : Timespec)
  | split (now : Timespec)
  | queueTime (time : ℕ)
  deriving DecidableEq, Repr

structure RecordState where
  timer : SbTimer
  recorded : List ℕ
  deriving DecidableEq, Repr

def RecordState.start : RecordState := ⟨sbTimerInit, []⟩

def recordStep (s : RecordState) : TimerCall → Option RecordState
  | .init => some ⟨sbTimerInit, []⟩
  | .reset => some ⟨sbTimerReset s.timer, []⟩
  | .start now => (sbTimerStart now s.timer).map fun t => { s with timer := t }
  | .stop now => (sbTimerStop now s.timer).map fun t => ⟨t, s.recorded ++ [t.elapsed]⟩
  | .value now => (sbTimerValue now s.timer).map fun (_, t) => { s with timer := t }
  | .split now => (sbTimerSplit now s.timer).map fun (_, t) => { s with timer := t }
  | .queueTime time => some { s with timer := { s.timer with queueTime := time } }

/-- Some calls lead to the timer `t`, which has recorded `xs` since. -/
def Recorded (t : SbTimer) (xs : List ℕ) : Prop :=
  ∃ calls, run recordStep .start calls = some ⟨t, xs⟩

/-! ## What a timer records -/

/-- The totals, and the range of a 64-bit word. -/
def RecordState.Summarized (s : RecordState) : Prop :=
  s.timer.Records s.recorded ∧ ∀ x ∈ s.recorded, x < 2 ^ 64

variable {s u : RecordState} {c : TimerCall} {t : SbTimer} {xs : List ℕ}

theorem RecordState.Summarized.keep (h : s.Summarized) (htimer : t.events = s.timer.events ∧
      t.sumTime = s.timer.sumTime ∧ t.minTime = s.timer.minTime ∧ t.maxTime = s.timer.maxTime) :
    RecordState.Summarized { s with timer := t } := by
  obtain ⟨hevents, hsum, hmin, hmax⟩ := htimer
  exact ⟨⟨hevents.trans h.1.events, hsum.trans h.1.sumTime, hmin.trans h.1.minTime,
    hmax.trans h.1.maxTime⟩, h.2⟩

theorem RecordState.Summarized.step (h : s.Summarized) (he : recordStep s c = some u) :
    u.Summarized := by
  cases c with
  | init =>
    cases he
    exact ⟨sbTimerInit_records, by simp⟩
  | reset =>
    cases he
    exact ⟨sbTimerReset_records s.timer, by simp⟩
  | start now =>
    obtain ⟨t, hstart, rfl⟩ := Option.map_eq_some_iff.mp he
    exact ⟨sbTimerStart_records h.1 hstart, h.2⟩
  | stop now =>
    obtain ⟨t, hstop, rfl⟩ := Option.map_eq_some_iff.mp he
    refine ⟨?_, fun x hx => ?_⟩
    · have hrecords := sbTimerStop_records h.1 hstop
      rwa [← Multiset.singleton_add, add_comm, ← Multiset.coe_singleton, Multiset.coe_add]
        at hrecords
    · rcases List.mem_append.mp hx with hx | hx
      · exact h.2 x hx
      · rw [List.mem_singleton.mp hx, (sbTimerStop_eq hstop).1]
        exact toUInt_lt 64 _
  | value now =>
    obtain ⟨⟨v, t⟩, hvalue, rfl⟩ := Option.map_eq_some_iff.mp he
    unfold sbTimerValue at hvalue
    split at hvalue <;> cases hvalue <;> exact h.keep ⟨rfl, rfl, rfl, rfl⟩
  | split now =>
    obtain ⟨⟨v, t⟩, hsplit, rfl⟩ := Option.map_eq_some_iff.mp he
    unfold sbTimerSplit at hsplit
    split at hsplit <;> cases hsplit <;> exact h.keep ⟨rfl, rfl, rfl, rfl⟩
  | queueTime time =>
    cases he
    exact h.keep ⟨rfl, rfl, rfl, rfl⟩

theorem Recorded.summarized (h : Recorded t xs) : t.Records xs ∧ ∀ x ∈ xs, x < 2 ^ 64 := by
  obtain ⟨calls, hr⟩ := h
  have hstart : RecordState.start.Summarized := ⟨sbTimerInit_records, by simp [RecordState.start]⟩
  exact run_preserves (I := RecordState.Summarized) (fun _ _ _ h he => h.step he) hstart hr

theorem recordStep_interval (xs : List ℕ) {x : ℕ} (ht : t.state ≠ .uninitialized) (hx : x < 2 ^ 64) :
    ∃ t', run recordStep ⟨t, xs⟩ [.start ⟨0, 0⟩, .queueTime 0, .stop ⟨x / 1000000000, x % 1000000000⟩] =
      some ⟨t', xs ++ [x]⟩ ∧ t'.state ≠ .uninitialized := by
  let started : SbTimer := { t with
    timeStart := ⟨0, 0⟩, timeSplit := ⟨0, 0⟩, state := .running, queueTime := 0 }
  obtain ⟨t', hstop⟩ : ∃ t', sbTimerStop ⟨x / 1000000000, x % 1000000000⟩ started = some t' :=
    ⟨_, if_neg (show TimerState.running ≠ .uninitialized by decide)⟩
  have helapsed : t'.elapsed = x := by
    have hdiff : timespecDiff ⟨x / 1000000000, x % 1000000000⟩ ⟨0, 0⟩ = x := by
      rw [timespecDiff_eq, show Timespec.ns ⟨x / 1000000000, x % 1000000000⟩ - Timespec.ns ⟨0, 0⟩ = x by
        simp only [Timespec.ns]; omega]
      exact toUInt_natCast hx
    rw [(sbTimerStop_eq hstop).1, hdiff]
    exact toUInt_natCast hx
  refine ⟨t', ?_, by rw [(sbTimerStop_eq hstop).2]; decide⟩
  have hstart : recordStep ⟨t, xs⟩ (.start ⟨0, 0⟩) =
      some ⟨{ t with timeStart := ⟨0, 0⟩, timeSplit := ⟨0, 0⟩, state := .running }, xs⟩ := by
    rw [recordStep, sbTimerStart, if_neg ht, Option.map_some]
  have hlast : recordStep ⟨started, xs⟩ (.stop ⟨x / 1000000000, x % 1000000000⟩) =
      some ⟨t', xs ++ [x]⟩ := by
    rw [recordStep, hstop, Option.map_some, helapsed]
  rw [run_cons, hstart, Option.bind_some, run_cons]
  exact (congrArg (fun s => Option.bind s fun s => run recordStep s []) hlast)

theorem exists_recorded (h : ∀ x ∈ xs, x < 2 ^ 64) : ∃ t, Recorded t xs := by
  have hstate : ∃ t, Recorded t xs ∧ t.state ≠ .uninitialized := by
    induction xs using List.reverseRecOn with
    | nil => exact ⟨sbTimerInit, ⟨[], rfl⟩, by decide⟩
    | append_singleton xs x ih =>
      obtain ⟨t, ⟨calls, hr⟩, ht⟩ := ih fun y hy => h y (List.mem_append_left _ hy)
      obtain ⟨t', hr', ht'⟩ :=
        recordStep_interval xs ht (h x (List.mem_append_right _ List.mem_cons_self))
      exact ⟨t', ⟨_, run_append_iff.mpr ⟨_, hr, hr'⟩⟩, ht'⟩
  exact hstate.imp fun _ h => h.1

/-! ## Merging -/

def mergeTimersOf (timers : List SbTimer) : SbTimer := timers.foldl mergeTimers sbTimerInit

/-- The four totals that merging keeps. -/
def SbTimer.totals (t : SbTimer) : ℕ × ℕ × ℕ × ℕ := (t.events, t.sumTime, t.minTime, t.maxTime)

theorem SbTimer.Records.totals_eq {t' : SbTimer} {ys : Multiset ℕ} (h : t.Records ys)
    (h' : t'.Records ys) : t.totals = t'.totals := by
  simp only [SbTimer.totals, h.events, h.sumTime, h.minTime, h.maxTime, h'.events, h'.sumTime,
    h'.minTime, h'.maxTime]

variable {ts : List (SbTimer × List ℕ)}

theorem mergeTimersOf_records (h : ∀ p ∈ ts, Recorded p.1 p.2) :
    (mergeTimersOf (ts.map Prod.fst)).Records (ts.flatMap Prod.snd) := by
  have hfold : (ts.foldl (fun t p => mergeTimers t p.1) sbTimerInit).Records
      (0 + (ts.map fun p => (p.2 : Multiset ℕ)).sum) :=
    foldl_mergeTimers_records (fun p hp => (h p hp).summarized.1) sbTimerInit_records
  have hsum : (ts.map fun p => (p.2 : Multiset ℕ)).sum = (ts.flatMap Prod.snd : List ℕ) := by
    clear h hfold
    induction ts with
    | nil => rfl
    | cons p ts ih => rw [List.map_cons, List.sum_cons, ih, List.flatMap_cons, Multiset.coe_add]
  rw [mergeTimersOf, List.foldl_map]
  rwa [zero_add, hsum] at hfold

/-- The mean lies between the extremes unless a total wraps. -/
theorem SbTimer.Records.avg_bounds (h : t.Records xs) (hrange : ∀ x ∈ xs, x < 2 ^ 64)
    (hne : xs ≠ []) (hevents : xs.length < 2 ^ 64) (hsum : xs.sum < 2 ^ 64) :
    t.minTime ≤ getAvgTime t ∧ getAvgTime t ≤ t.maxTime := by
  obtain ⟨⟨-, hmin⟩, -, hmax⟩ := h.bounds (mt (Multiset.coe_eq_zero xs).mp hne) hrange
  have hpos : 0 < xs.length := List.length_pos_of_ne_nil hne
  have hcount : t.events = xs.length := h.events.trans (toUInt_natCast hevents)
  have htotal : t.sumTime = xs.sum := h.sumTime.trans (toUInt_natCast hsum)
  have havg : getAvgTime t = xs.sum / xs.length := by
    rw [getAvgTime, hcount, htotal, if_neg hpos.ne']
  rw [havg]
  constructor
  · rw [Nat.le_div_iff_mul_le hpos, mul_comm]
    exact List.card_nsmul_le_sum xs _ fun x hx => hmin hx
  · exact Nat.div_le_of_le_mul (List.sum_le_card_nsmul xs _ fun x hx => hmax hx)

/-- Merged in any order, the timers of all threads have the totals of one timer that records the
events of all of them, in any order. The average lies between the minimum and the maximum. -/
theorem merge_timers_is_record (h : ∀ p ∈ ts, Recorded p.1 p.2) :
    (∃ one, Recorded one (ts.flatMap Prod.snd)) ∧
    (∀ one xs, Recorded one xs → xs.Perm (ts.flatMap Prod.snd) →
      (mergeTimersOf (ts.map Prod.fst)).totals = one.totals) ∧
    (ts.flatMap Prod.snd ≠ [] → (ts.flatMap Prod.snd).length < 2 ^ 64 →
      (ts.flatMap Prod.snd).sum < 2 ^ 64 →
        (mergeTimersOf (ts.map Prod.fst)).minTime ≤ getAvgTime (mergeTimersOf (ts.map Prod.fst)) ∧
        getAvgTime (mergeTimersOf (ts.map Prod.fst)) ≤ (mergeTimersOf (ts.map Prod.fst)).maxTime) := by
  have hmerged := mergeTimersOf_records h
  have hrange : ∀ x ∈ ts.flatMap Prod.snd, x < 2 ^ 64 := by
    intro x hx
    obtain ⟨p, hp, hxp⟩ := List.mem_flatMap.mp hx
    exact (h p hp).summarized.2 x hxp
  refine ⟨exists_recorded hrange, fun one xs hone hperm => ?_, fun hne hlen hsum => ?_⟩
  · have hrecords := hone.summarized.1
    rw [Multiset.coe_eq_coe.mpr hperm] at hrecords
    exact hmerged.totals_eq hrecords
  · exact hmerged.avg_bounds hrange hne hlen hsum

def threeTimers : List (SbTimer × List ℕ) :=
  [(sbTimerInit, []),
    ({ sbTimerInit with
        timeEnd := ⟨0, 7⟩
        elapsed := 7
        minTime := 7
        maxTime := 7
        sumTime := 7
        events := 1
        state := .stopped }, [7]),
    (sbTimerInit, [])]

theorem merge_timers_is_record_three :
    (∃ one, Recorded one (threeTimers.flatMap Prod.snd)) ∧
    (∀ one xs, Recorded one xs → xs.Perm (threeTimers.flatMap Prod.snd) →
      (mergeTimersOf (threeTimers.map Prod.fst)).totals = one.totals) ∧
    (threeTimers.flatMap Prod.snd ≠ [] → (threeTimers.flatMap Prod.snd).length < 2 ^ 64 →
      (threeTimers.flatMap Prod.snd).sum < 2 ^ 64 →
        (mergeTimersOf (threeTimers.map Prod.fst)).minTime ≤
            getAvgTime (mergeTimersOf (threeTimers.map Prod.fst)) ∧
          getAvgTime (mergeTimersOf (threeTimers.map Prod.fst)) ≤
            (mergeTimersOf (threeTimers.map Prod.fst)).maxTime) := by
  refine merge_timers_is_record fun p hp => ?_
  rcases List.mem_cons.mp hp with rfl | hp
  · exact ⟨[], rfl⟩
  rcases List.mem_cons.mp hp with rfl | hp
  · exact ⟨[.start ⟨0, 0⟩, .value ⟨0, 3⟩, .stop ⟨0, 7⟩], by decide +kernel⟩
  · rw [List.mem_singleton.mp hp]
    exact ⟨[.init], rfl⟩

end Sysbench.Core
