import Sysbench.Database.Stats
import Sysbench.Machine.Runs
import Sysbench.Machine.Windows
import Sysbench.Machine.Words

/-! # The numbers of an interval

An intermediate report prints how far five sums have moved since it was last printed. A
cumulative report sets the counters back to zero, and four of the last values.
-/
namespace Sysbench.Database.Intervals

open CStrings Runs Windows Words

inductive Last where
  | transactions | readOps | writeOps | errors | reconnects
  deriving DecidableEq

def Last.counter : Last → Counter
  | .transactions => .transactions
  | .readOps => .readOps
  | .writeOps => .writeOps
  | .errors => .errors
  | .reconnects => .reconnects

def lasts : List Last := [.transactions, .readOps, .writeOps, .errors, .reconnects]

structure StatsState (n : ℕ) where
  threadStats : ThreadStats n
  last : Last → ℕ

variable {n : ℕ}

/-- The sums are `unsigned long`. -/
def StatsState.sum (s : StatsState n) (c : Counter) : ℕ := toUInt 64 (s.threadStats.sum c : ℕ)

/-- What the report divides by the length of the interval. -/
def StatsState.difference (s : StatsState n) (f : Last) : ℕ :=
  toUInt 64 ((s.sum f.counter : ℤ) - s.last f)

def dbResetStats (s : StatsState n) : StatsState n where
  threadStats := initStats
  last
    | .transactions => 0
    | .readOps => 0
    | .writeOps => 0
    | .errors => 0
    | .reconnects => s.last .reconnects

/-- The counts that the report prints: the differences, or the totals. -/
def dbPrintStats (s : StatsState n) : StatType → List ℕ × StatsState n
  | .intermediate => (lasts.map s.difference, { s with last := fun f => s.sum f.counter })
  | .cumulative =>
    ([.readOps, .writeOps, .otherOps, .transactions, .errors, .reconnects].map s.sum,
      dbResetStats s)

inductive StatsEvent (n : ℕ) where
  | query (t : Fin n) (text : CString) (answer : DbError)
  /-- a statement whose text was of the given type -/
  | execute (t : Fin n) (type : DbQueryType) (answer : DbError)
  | report (type : StatType) (printed : List ℕ)
  deriving DecidableEq

def initIntervals (n : ℕ) : StatsState n := ⟨initStats, fun _ => 0⟩

def statsStep (s : StatsState n) : StatsEvent n → Option (StatsState n)
  | .query t text answer =>
    some { s with threadStats := dbQueryStats t text answer s.threadStats }
  | .execute t type answer =>
    some { s with threadStats := dbExecuteStats t type answer s.threadStats }
  | .report type printed =>
    if (dbPrintStats s type).1 = printed then some (dbPrintStats s type).2 else none

def StatsEvent.counters : StatsEvent n → List Counter
  | .query _ text answer => answer.counters (dbGetQueryType text)
  | .execute _ type answer => answer.counters type
  | .report _ _ => []

def StatsEvent.reportType : StatsEvent n → Option StatType
  | .report type _ => some type
  | _ => none

def StatsEvent.isReport (e : StatsEvent n) : Bool := e.reportType.isSome

/-- How many such events there were since the latest report. -/
def countSince (f : Last) (es : List (StatsEvent n)) : ℕ :=
  (since StatsEvent.isReport es).countP fun e => f.counter ∈ e.counters

/-- Every intermediate report prints the numbers of events since the report before it. -/
def IntervalsRight (es : List (StatsEvent n)) : Prop :=
  ∀ pre printed, pre ++ [.report .intermediate printed] <+: es →
    printed = lasts.map fun f => countSince f pre

def lastReport (es : List (StatsEvent n)) : Option StatType :=
  (es.filterMap StatsEvent.reportType).getLast?

/-- Before every intermediate report that follows a cumulative one `last_reconnects` is zero. No
interval has so many events that their number does not fit into an `unsigned long`. -/
def ShadowsZero (es : List (StatsEvent n)) : Prop :=
  ∀ pre printed s, pre ++ [.report .intermediate printed] <+: es →
    run statsStep (initIntervals n) pre = some s →
    (lastReport pre = some .cumulative → s.last .reconnects = 0) ∧
      ∀ f, countSince f pre < 2 ^ 64

variable {es : List (StatsEvent n)} {e : StatsEvent n} {s u : StatsState n} {f : Last}

theorem countSince_snoc : countSince f (es ++ [e]) =
    if e.isReport then 0 else countSince f es + if f.counter ∈ e.counters then 1 else 0 := by
  rw [countSince, since_snoc]
  split
  · rfl
  · rw [List.countP_append, List.countP_singleton]
    simp [countSince]

theorem lastReport_snoc : lastReport (es ++ [e]) = e.reportType.or (lastReport es) := by
  unfold lastReport
  rw [List.filterMap_append]
  cases h : e.reportType <;> simp [h]

/-- An outcome raises the sums by what it is counted as. -/
theorem statsStep_outcome (he : statsStep s e = some u) (hno : e.isReport = false) (c : Counter) :
    u.threadStats.sum c = s.threadStats.sum c + (if c ∈ e.counters then 1 else 0) ∧
      u.last = s.last := by
  cases e with
  | query t text answer =>
    cases he
    exact ⟨ThreadStats.sum_raise _ _ _ c, rfl⟩
  | execute t type answer =>
    cases he
    exact ⟨ThreadStats.sum_raise _ _ _ c, rfl⟩
  | report type printed => cases hno

/-- The last value is out of date: it is the one of the reconnects, after a cumulative report. -/
def Stale (f : Last) (es : List (StatsEvent n)) : Prop :=
  f = .reconnects ∧ lastReport es = some .cumulative

instance (f : Last) (es : List (StatsEvent n)) : Decidable (Stale f es) := instDecidableAnd

/-- The sum has moved by the number of events, from the last value or from zero. -/
structure Tracked (f : Last) (es : List (StatsEvent n)) (s : StatsState n) : Prop where
  last_lt : s.last f < 2 ^ 64
  sum : s.sum f.counter =
    toUInt 64 ((if Stale f es then 0 else s.last f) + countSince f es : ℕ)

theorem Tracked.step (h : Tracked f es s) (he : statsStep s e = some u) :
    Tracked f (es ++ [e]) u := by
  cases hrep : e.isReport with
  | false =>
    obtain ⟨hsum, hlast⟩ := statsStep_outcome he hrep f.counter
    have hnone : e.reportType = none := by simpa [StatsEvent.isReport] using hrep
    have hstale : Stale f (es ++ [e]) ↔ Stale f es := by simp [Stale, lastReport_snoc, hnone]
    constructor
    · rw [hlast]
      exact h.last_lt
    · have hold := h.sum
      simp only [StatsState.sum, toUInt_eq_mod, hstale, hlast, countSince_snoc, hrep,
        Bool.false_eq_true, if_false] at hold ⊢
      rw [hsum]
      omega
  | true =>
    cases e with
    | query t text answer => cases hrep
    | execute t type answer => cases hrep
    | report type printed =>
      obtain ⟨-, heq⟩ := Option.ite_none_right_eq_some.mp he
      cases heq
      have hlastReport : lastReport (es ++ [.report type printed]) = some type := by
        rw [lastReport_snoc]
        rfl
      cases type with
      | intermediate =>
        have hstale : ¬ Stale f (es ++ [.report .intermediate printed]) := by
          simp [Stale, hlastReport]
        constructor
        · exact toUInt_lt 64 (s.threadStats.sum f.counter : ℕ)
        · rw [if_neg hstale, countSince_snoc, if_pos hrep, add_zero]
          exact (toUInt_natCast (toUInt_lt 64 (s.threadStats.sum f.counter : ℕ))).symm
      | cumulative =>
        constructor
        · cases f with
          | reconnects => exact h.last_lt
          | _ => exact Nat.two_pow_pos 64
        · have hzero : (if Stale f (es ++ [.report .cumulative printed]) then 0
              else (dbPrintStats s .cumulative).2.last f) = 0 := by
            split
            · rfl
            · next hstale =>
              cases f with
              | reconnects => exact absurd ⟨rfl, hlastReport⟩ hstale
              | _ => rfl
          rw [hzero, countSince_snoc, if_pos hrep]
          simp [dbPrintStats, dbResetStats, StatsState.sum, ThreadStats.sum_zero]

theorem run_tracked (hr : run statsStep (initIntervals n) es = some s) (f : Last) :
    Tracked f es s := by
  refine run_invariant (I := fun es s => Tracked f es s) ?_ ?_ hr
  · constructor
    · exact Nat.two_pow_pos 64
    · simp [initIntervals, StatsState.sum, ThreadStats.sum_zero, Stale, countSince, lastReport]
  · intro es s e u _ hs he
    exact hs.step he

/-- A difference is the number of events exactly if the number fits and the last value is up to
date or zero. -/
theorem Tracked.difference_iff (h : Tracked f es s) :
    s.difference f = countSince f es ↔
      (Stale f es → s.last f = 0) ∧ countSince f es < 2 ^ 64 := by
  have hlast := h.last_lt
  have hsum := h.sum
  unfold StatsState.difference
  simp only [toUInt] at hsum ⊢
  by_cases hstale : Stale f es
  · simp only [hstale, if_true, zero_add, true_imp_iff] at hsum ⊢
    omega
  · simp only [hstale, if_false, false_imp_iff, true_and] at hsum ⊢
    omega

/-- In every run the intermediate reports are right exactly when `last_reconnects` is zero
before each one that follows a cumulative report, and the numbers fit. -/
theorem intervalsRight_iff {es : List (StatsEvent n)} {s : StatsState n}
    (hr : run statsStep (initIntervals n) es = some s) : IntervalsRight es ↔ ShadowsZero es := by
  have hreport : ∀ {pre printed u}, pre ++ [.report .intermediate printed] <+: es →
      run statsStep (initIntervals n) pre = some u →
      (printed = lasts.map (fun f => countSince f pre) ↔
        ∀ f, (Stale f pre → u.last f = 0) ∧ countSince f pre < 2 ^ 64) := by
    rintro pre printed u ⟨rest, rfl⟩ hu
    obtain ⟨v, hv, -⟩ := run_append_iff.mp hr
    obtain ⟨u', hu', hstep⟩ := run_snoc_iff.mp hv
    obtain rfl : u' = u := Option.some.inj (hu'.symm.trans hu)
    obtain ⟨hprinted, -⟩ := Option.ite_none_right_eq_some.mp hstep
    have hall : ∀ f : Last, f ∈ lasts := by
      intro f
      cases f <;> decide
    rw [← hprinted, dbPrintStats, List.map_inj_left]
    constructor
    · intro h f
      exact (run_tracked hu f).difference_iff.mp (h f (hall f))
    · intro h f _
      exact (run_tracked hu f).difference_iff.mpr (h f)
  have hrun : ∀ {pre printed}, pre ++ [.report .intermediate printed] <+: es →
      ∃ u, run statsStep (initIntervals n) pre = some u := by
    rintro pre printed ⟨rest, rfl⟩
    obtain ⟨v, hv, -⟩ := run_append_iff.mp hr
    obtain ⟨u, hu, -⟩ := run_snoc_iff.mp hv
    exact ⟨u, hu⟩
  constructor
  · intro h pre printed u hpre hu
    have hright := (hreport hpre hu).mp (h pre printed hpre)
    exact ⟨fun hcum => (hright .reconnects).1 ⟨rfl, hcum⟩, fun f => (hright f).2⟩
  · intro h pre printed hpre
    obtain ⟨u, hu⟩ := hrun hpre
    obtain ⟨hzero, hfits⟩ := h pre printed u hpre hu
    refine (hreport hpre hu).mpr fun f => ⟨?_, hfits f⟩
    rintro ⟨rfl, hcum⟩
    exact hzero hcum

/-- A reconnect is reported, then the counters are reset, then there is another report. -/
def reconnectEvents : List (StatsEvent 1) :=
  [.execute 0 .read .reconnected, .report .intermediate [0, 0, 0, 0, 1],
    .report .cumulative [0, 0, 0, 0, 0, 1],
    .report .intermediate [0, 0, 0, 0, 2 ^ 64 - 1]]

theorem reconnectEvents_run : ∃ s, run statsStep (initIntervals 1) reconnectEvents = some s :=
  ⟨_, rfl⟩

/-- The last report prints the largest `unsigned long` where no event has happened. -/
theorem intervals_wrap : ∃ es : List (StatsEvent 1),
    (∃ s, run statsStep (initIntervals 1) es = some s) ∧ ¬ IntervalsRight es := by
  refine ⟨reconnectEvents, reconnectEvents_run, fun h => ?_⟩
  have hlast := h (reconnectEvents.take 3) _ List.prefix_rfl
  exact absurd hlast (by decide)

theorem intervalsRight_iff_reconnect : ¬ ShadowsZero reconnectEvents := by
  obtain ⟨s, hs⟩ := reconnectEvents_run
  rw [← intervalsRight_iff hs]
  intro h
  have hlast := h (reconnectEvents.take 3) _ List.prefix_rfl
  exact absurd hlast (by decide)

end Sysbench.Database.Intervals
