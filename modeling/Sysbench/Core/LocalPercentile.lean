import Sysbench.Core.Snapshots

/-! # The percentile of the intermediate reports

The workers put the response times into `local_percentile`. An intermediate report computes its
percentile from the histogram and clears it, in two sections with others in between.
-/
namespace Sysbench.Core.LocalPercentile

open Runs

/-- The locked sections of an intermediate report around the one that reads the histogram:
how many come before it, and how many between it and the one that clears the histogram. -/
structure PrintStats where
  before : ℕ
  between : ℕ

/-- The counters of each thread are summed up; the queue length is printed in the tx-rate mode,
the last values are stored. -/
def dbPrintStats (numThreads : ℕ) (txRate : Bool) : PrintStats where
  before := numThreads
  between := if txRate then 2 else 1

def filePrintStats : PrintStats where
  before := 1
  between := 0

/-- The tests that put response times into `local_percentile`. -/
inductive IntervalTest where
  | db (txRate : Bool)
  | file
  deriving DecidableEq

def printStats (numThreads : ℕ) : IntervalTest → PrintStats
  | .db txRate => dbPrintStats numThreads txRate
  | .file => filePrintStats

inductive Phase where
  | idle
  /-- so many sections come before the one that reads the histogram -/
  | before (k : ℕ)
  /-- the percentile is computed from `hist`, so many sections come before the reset -/
  | between (hist : Percentile) (k : ℕ)

structure IntervalState where
  percentile : Percentile
  phase : Phase
  /-- the histograms of the finished reports -/
  reported : List Percentile

inductive IntervalEvent (n : ℕ) where
  /-- worker `t` records a response time -/
  | update (t : Fin n) (value : ℤ)
  /-- the next section of the report thread -/
  | report
  deriving DecidableEq

variable {n : ℕ} (bucket : ℤ → ℕ) (ps : PrintStats)

def initInterval : IntervalState := ⟨sbPercentileReset, .idle, []⟩

def reportStep (s : IntervalState) : IntervalState :=
  match s.phase with
  | .idle => { s with phase := .before ps.before }
  | .before (k + 1) => { s with phase := .before k }
  | .before 0 => { s with phase := .between s.percentile ps.between }
  | .between hist (k + 1) => { s with phase := .between hist k }
  | .between hist 0 => ⟨sbPercentileReset, .idle, s.reported ++ [hist]⟩

def intervalStep (s : IntervalState) : IntervalEvent n → Option IntervalState
  | .update _ value => some { s with percentile := sbPercentileUpdate bucket value s.percentile }
  | .report => some (reportStep ps s)

def IntervalEvent.value : IntervalEvent n → Option ℤ
  | .update _ value => some value
  | .report => none

def recorded (es : List (IntervalEvent n)) : Multiset ℤ := es.filterMap IntervalEvent.value

/-- The recorded values are those of the finished reports, `parts`, those in the histogram,
`rest`, and `lost` ones. A report that is being printed reads values that are still there. -/
structure Split (es : List (IntervalEvent n)) (s : IntervalState) (parts : List (Multiset ℤ))
    (rest lost : Multiset ℤ) : Prop where
  reported : s.reported = parts.map (histogram bucket)
  percentile : s.percentile = histogram bucket rest
  reading : ∀ hist k, s.phase = .between hist k → ∃ part ≤ rest, hist = histogram bucket part
  values : parts.sum + rest + lost = recorded es

/-- Every recorded value is in exactly one report or still in the histogram. -/
def Accounted (es : List (IntervalEvent n)) (s : IntervalState) : Prop :=
  ∃ parts rest, Split bucket es s parts rest 0

/-- The histogram is cleared only as the report has read it. -/
def ClearsRead (s : IntervalState) : IntervalEvent n → Prop
  | .report => ∀ hist, s.phase = .between hist 0 → hist = s.percentile
  | .update _ _ => True

variable {bucket ps} {es : List (IntervalEvent n)} {e : IntervalEvent n} {s u : IntervalState}
  {parts : List (Multiset ℤ)} {rest lost : Multiset ℤ}

theorem recorded_snoc :
    recorded (es ++ [e]) = recorded es + ((e.value.toList : List ℤ) : Multiset ℤ) := by
  unfold recorded
  rw [List.filterMap_append, ← Multiset.coe_add]
  cases e <;> rfl

theorem histogram_injective_of_le {part : Multiset ℤ} (hle : part ≤ rest)
    (h : histogram bucket part = histogram bucket rest) : part = rest :=
  Multiset.eq_of_le_of_card_le hle (congrArg Percentile.total h).ge

/-- How many values are lost can be told from the sizes of the histograms. -/
theorem Split.card_lost (h : Split bucket es s parts rest lost) :
    (s.reported.map Percentile.total).sum + s.percentile.total + Multiset.card lost =
      Multiset.card (recorded es) := by
  rw [← h.values, h.reported, h.percentile, List.map_map]
  simp only [Multiset.card_add]
  have hsum : ∀ parts : List (Multiset ℤ),
      (parts.map (Percentile.total ∘ histogram bucket)).sum = Multiset.card parts.sum := by
    intro parts
    induction parts with
    | nil => rfl
    | cons part parts ih =>
      rw [List.map_cons, List.sum_cons, ih, List.sum_cons, Multiset.card_add]
      rfl
  rw [hsum]
  rfl

theorem Split.accounted_iff_lost (h : Split bucket es s parts rest lost) :
    Accounted bucket es s ↔ lost = 0 := by
  constructor
  · rintro ⟨parts', rest', h'⟩
    have hcard := h.card_lost
    have hcard' := h'.card_lost
    rw [Multiset.card_zero] at hcard'
    exact Multiset.card_eq_zero.mp (by omega)
  · rintro rfl
    exact ⟨parts, rest, h⟩

/-- A step loses what the histogram holds beyond what the report has read, when it clears it. -/
theorem Split.step (h : Split bucket es s parts rest lost)
    (he : intervalStep bucket ps s e = some u) :
    ∃ parts' rest' lost', Split bucket (es ++ [e]) u parts' rest' lost' ∧
      (lost' = 0 ↔ lost = 0 ∧ ClearsRead s e) := by
  cases e with
  | update t value =>
    cases he
    refine ⟨parts, value ::ₘ rest, lost, ?_, by simp [ClearsRead]⟩
    constructor
    case reported => exact h.reported
    case percentile => exact (congrArg _ h.percentile).trans (sbPercentileUpdate_histogram _ _)
    case reading =>
      intro hist k hphase
      obtain ⟨part, hle, hhist⟩ := h.reading hist k hphase
      exact ⟨part, hle.trans (Multiset.le_cons_self _ _), hhist⟩
    case values =>
      rw [recorded_snoc, ← h.values]
      simp only [IntervalEvent.value, Option.toList_some, Multiset.coe_singleton]
      rw [← Multiset.singleton_add]
      abel
  | report =>
    cases he
    have hvalues : recorded (es ++ [.report]) = recorded es := by
      rw [recorded_snoc]
      exact add_zero _
    have hphase : ∀ phase, (∀ hist k, phase = .between hist k →
        ∃ part ≤ rest, hist = histogram bucket part) →
        Split bucket (es ++ [.report]) { s with phase } parts rest lost := fun phase hreading =>
      ⟨h.reported, h.percentile, hreading, by rw [hvalues]; exact h.values⟩
    unfold reportStep
    match hs : s.phase with
    | .idle => exact ⟨parts, rest, lost, hphase _ nofun, by simp [ClearsRead, hs]⟩
    | .before (k + 1) => exact ⟨parts, rest, lost, hphase _ nofun, by simp [ClearsRead, hs]⟩
    | .before 0 =>
      refine ⟨parts, rest, lost, hphase _ ?_, by simp [ClearsRead, hs]⟩
      intro hist k heq
      cases heq
      exact ⟨rest, le_rfl, h.percentile⟩
    | .between hist (k + 1) =>
      refine ⟨parts, rest, lost, hphase _ ?_, by simp [ClearsRead, hs]⟩
      intro hist' k' heq
      cases heq
      exact h.reading hist (k + 1) hs
    | .between hist 0 =>
      obtain ⟨part, hle, hhist⟩ := h.reading hist 0 hs
      obtain ⟨extra, rfl⟩ := Multiset.le_iff_exists_add.mp hle
      refine ⟨parts ++ [part], 0, lost + extra, ?_, ?_⟩
      · constructor
        case reported => simp [h.reported, hhist]
        case percentile => exact histogram_zero.symm
        case reading => exact nofun
        case values =>
          rw [hvalues, ← h.values, List.sum_append, List.sum_singleton]
          abel
      · have hread : ClearsRead s (.report : IntervalEvent n) ↔ extra = 0 := by
          simp only [ClearsRead, hs, Phase.between.injEq, and_true, forall_eq', hhist, h.percentile]
          constructor
          · intro heq
            exact left_eq_add.mp (histogram_injective_of_le hle heq)
          · rintro rfl
            rw [add_zero]
        rw [hread, add_eq_zero]

theorem accounted_guarded (hr : run (intervalStep bucket ps) initInterval es = some s) :
    Accounted bucket es s ↔ Guarded (intervalStep bucket ps) ClearsRead initInterval es := by
  have hinit : Split bucket ([] : List (IntervalEvent n)) initInterval [] 0 0 :=
    ⟨rfl, histogram_zero.symm, nofun, rfl⟩
  refine guarded_iff (P := fun es s => Accounted bucket es s) (hinit.accounted_iff_lost.mpr rfl) ?_ hr
  intro es s e u hs he
  have hsplit : ∃ parts rest lost, Split bucket es s parts rest lost := by
    refine run_invariant (I := fun es s => ∃ parts rest lost, Split bucket es s parts rest lost)
      ⟨_, _, _, hinit⟩ ?_ hs
    rintro es s e u - ⟨parts, rest, lost, h⟩ he
    obtain ⟨parts', rest', lost', h', -⟩ := h.step he
    exact ⟨parts', rest', lost', h'⟩
  obtain ⟨parts, rest, lost, h⟩ := hsplit
  obtain ⟨parts', rest', lost', h', hlost⟩ := h.step he
  rw [h'.accounted_iff_lost, h.accounted_iff_lost, hlost]

/-- A response time is recorded between the two sections of a report. -/
def gapEvents : IntervalTest → List (IntervalEvent 1)
  | .db false => [.report, .report, .report, .update 0 5, .report, .report]
  | .db true => [.report, .report, .report, .update 0 5, .report, .report, .report]
  | .file => [.report, .report, .report, .update 0 5, .report]

theorem gapEvents_run (test : IntervalTest) :
    run (intervalStep (fun _ => 0) (printStats 1 test)) initInterval (gapEvents test) =
      some ⟨sbPercentileReset, .idle, [sbPercentileReset]⟩ := by
  match test with
  | .db false => rfl
  | .db true => rfl
  | .file => rfl

/-- It is in no report and no longer in the histogram. -/
theorem accounted_gap (test : IntervalTest) :
    ¬ Accounted (fun _ => 0) (gapEvents test) ⟨sbPercentileReset, .idle, [sbPercentileReset]⟩ := by
  rintro ⟨parts, rest, h⟩
  have hcard := h.card_lost
  match test with
  | .db false => exact absurd hcard (by decide)
  | .db true => exact absurd hcard (by decide)
  | .file => exact absurd hcard (by decide)

theorem responseTimes_lost : ∃ (es : List (IntervalEvent 1)) (s : IntervalState),
    run (intervalStep (fun _ => 0) (printStats 1 .file)) initInterval es = some s ∧
      ¬ Accounted (fun _ => 0) es s :=
  ⟨_, _, gapEvents_run .file, accounted_gap .file⟩

/-- In every run of either test the response times are accounted for exactly when no report
clears more than it has read. -/
theorem accounted_iff (bucket : ℤ → ℕ) (test : IntervalTest) {es : List (IntervalEvent n)}
    {s : IntervalState} (hr : run (intervalStep bucket (printStats n test)) initInterval es = some s) :
    Accounted bucket es s ↔
      Guarded (intervalStep bucket (printStats n test)) ClearsRead initInterval es :=
  accounted_guarded hr

theorem accounted_iff_gap : Accounted (fun _ => 0) (gapEvents .file)
      ⟨sbPercentileReset, .idle, [sbPercentileReset]⟩ ↔
    Guarded (intervalStep (fun _ => 0) (printStats 1 .file)) ClearsRead initInterval
      (gapEvents .file) :=
  accounted_iff (fun _ => 0) .file (gapEvents_run .file)

end Sysbench.Core.LocalPercentile
