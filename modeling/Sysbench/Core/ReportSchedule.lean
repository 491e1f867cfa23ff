import Sysbench.Core.Pauses

/-! # The schedule of the report thread

`report_thread_proc` counts its report times on in steps of the interval from the first reading of
the timer. A turn that comes late leaves out the times that have passed.
-/
namespace Sysbench.Core

open Words

/-- One turn of the thread's loop: `prev_ns` and `curr_ns` before the inner loop, and what is computed
from them. -/
structure ReportTurn where
  prevNs : ℕ
  currNs : ℕ
  nextNs : ℕ
  pauseNs : ℕ
  deriving DecidableEq, Repr

variable (intervalNs : ℕ)

/-- The turns for the readings of the timer. The result is missing if an inner loop needs more
rounds. -/
def reportTurns (rounds : ℕ) : ℕ → List ℕ → Option (List ReportTurn)
  | _, [] => some []
  | prevNs, currNs :: readings => do
    let nextNs ← nextReport intervalNs currNs rounds prevNs
    let turns ← reportTurns rounds nextNs readings
    some (⟨prevNs, currNs, nextNs, toUInt 64 ((nextNs : ℤ) - currNs)⟩ :: turns)

def reportThread (rounds startNs : ℕ) (readings : List ℕ) : Option (List ReportTurn) :=
  reportTurns intervalNs rounds (toUInt 64 (startNs + intervalNs : ℕ)) readings

/-- No sum in the first rounds of the inner loop reaches 2^64. -/
def LoopFits (currNs : ℕ) : ℕ → ℕ → Prop
  | 0, _ => True
  | rounds + 1, prevNs =>
    prevNs + intervalNs < 2 ^ 64 ∧
      (prevNs + intervalNs ≤ currNs → LoopFits currNs rounds (prevNs + intervalNs))

def TurnsFit : ℕ → List ℕ → Prop
  | _, [] => True
  | prevNs, currNs :: readings =>
    (∀ rounds, LoopFits intervalNs currNs rounds prevNs) ∧
      ∀ rounds nextNs, nextReport intervalNs currNs rounds prevNs = some nextNs →
        TurnsFit nextNs readings

/-- No sum `prev_ns + interval_ns` of the thread reaches 2^64. -/
def SumsFit (startNs : ℕ) (readings : List ℕ) : Prop :=
  startNs + intervalNs < 2 ^ 64 ∧ TurnsFit intervalNs (startNs + intervalNs) readings

def reportGrid (startNs : ℕ) : Set ℕ := {g | ∃ m, g = startNs + m * intervalNs}

/-- The next report is at the first time of the grid after the last one and the reading, and the
pause ends there. -/
structure ReportTurn.OnGrid (startNs : ℕ) (turn : ReportTurn) : Prop where
  next : IsLeast {g ∈ reportGrid intervalNs startNs | turn.prevNs < g ∧ turn.currNs < g} turn.nextNs
  pause : turn.currNs + turn.pauseNs = turn.nextNs
  pause_pos : 0 < turn.pauseNs

variable {intervalNs}
variable {rounds startNs prevNs currNs nextNs : ℕ} {readings : List ℕ} {turns : List ReportTurn}

/-! ## The inner loop -/

/-- The loop goes one interval beyond the reading, or beyond the last report time. -/
theorem loopFits_of_lt (hprev : prevNs + intervalNs < 2 ^ 64) (hcurr : currNs + intervalNs < 2 ^ 64) :
    LoopFits intervalNs currNs rounds prevNs := by
  induction rounds generalizing prevNs with
  | zero => trivial
  | succ rounds ih => exact ⟨hprev, fun hpast => ih (by omega)⟩

theorem LoopFits.later (h : ∀ rounds, LoopFits intervalNs currNs rounds prevNs)
    (hpast : prevNs + intervalNs ≤ currNs) (rounds : ℕ) :
    LoopFits intervalNs currNs rounds (prevNs + intervalNs) :=
  (h (rounds + 1)).2 hpast

/-- The loop ends, at the first time after the reading. -/
theorem nextReport_ends (hinterval : 0 < intervalNs)
    (hfit : ∀ rounds, LoopFits intervalNs currNs rounds prevNs) :
    ∃ n k, (∀ rounds, n ≤ rounds →
        nextReport intervalNs currNs rounds prevNs = some (prevNs + (k + 1) * intervalNs)) ∧
      prevNs + (k + 1) * intervalNs < 2 ^ 64 ∧ currNs < prevNs + (k + 1) * intervalNs ∧
      ∀ i < k, prevNs + (i + 1) * intervalNs ≤ currNs := by
  induction hd : currNs - prevNs using Nat.strong_induction_on generalizing prevNs with
  | _ d ih =>
    have hsum : toUInt 64 (prevNs + intervalNs : ℕ) = prevNs + intervalNs :=
      toUInt_natCast (hfit 1).1
    have hround : ∀ rounds, nextReport intervalNs currNs (rounds + 1) prevNs =
        if prevNs + intervalNs ≤ currNs then
          nextReport intervalNs currNs rounds (prevNs + intervalNs)
        else some (prevNs + intervalNs) := by
      intro rounds
      rw [nextReport, hsum]
    by_cases hpast : prevNs + intervalNs ≤ currNs
    · obtain ⟨n, k, hends, hlt, hafter, hbefore⟩ :=
        ih _ (by omega) (LoopFits.later hfit hpast) rfl
      have hshift : ∀ i, prevNs + intervalNs + (i + 1) * intervalNs =
          prevNs + (i + 1 + 1) * intervalNs := fun i => by ring
      simp only [hshift] at hends hlt hafter hbefore
      refine ⟨n + 1, k + 1, fun rounds hrounds => ?_, hlt, hafter, fun i hi => ?_⟩
      · obtain ⟨rounds, rfl⟩ := Nat.exists_eq_add_of_le' (Nat.one_le_of_lt hrounds)
        rw [hround, if_pos hpast]
        exact hends rounds (Nat.le_of_succ_le_succ hrounds)
      · cases i with
        | zero => rwa [Nat.zero_add, Nat.one_mul]
        | succ i => exact hbefore i (Nat.lt_of_succ_lt_succ hi)
    · refine ⟨1, 0, fun rounds hrounds => ?_, ?_, ?_, fun i hi => absurd hi (Nat.not_lt_zero i)⟩
      · obtain ⟨rounds, rfl⟩ := Nat.exists_eq_add_of_le' hrounds
        rw [hround, if_neg hpast, Nat.zero_add, Nat.one_mul]
      · rw [Nat.zero_add, Nat.one_mul]
        exact (hfit 1).1
      · rw [Nat.zero_add, Nat.one_mul]
        exact not_le.mp hpast

/-- What the loop finds from a time of the grid is the next one that is late enough. -/
theorem isLeast_of_before (hinterval : 0 < intervalNs) {k : ℕ}
    (hprev : prevNs ∈ reportGrid intervalNs startNs)
    (hafter : currNs < prevNs + (k + 1) * intervalNs)
    (hbefore : ∀ i < k, prevNs + (i + 1) * intervalNs ≤ currNs) :
    IsLeast {g ∈ reportGrid intervalNs startNs | prevNs < g ∧ currNs < g}
      (prevNs + (k + 1) * intervalNs) := by
  obtain ⟨m, rfl⟩ := hprev
  constructor
  · refine ⟨⟨m + (k + 1), by ring⟩, ?_, hafter⟩
    have hpos : 0 < (k + 1) * intervalNs := Nat.mul_pos (Nat.succ_pos k) hinterval
    omega
  · rintro g ⟨⟨m', rfl⟩, hprev, hcurr⟩
    have hm : m < m' := by
      have hmul : m * intervalNs < m' * intervalNs := by omega
      exact Nat.lt_of_mul_lt_mul_right hmul
    obtain ⟨i, rfl⟩ := Nat.exists_eq_add_of_lt hm
    have hi : k ≤ i := by
      by_contra hlt
      have hle := hbefore i (not_le.mp hlt)
      have heq : startNs + m * intervalNs + (i + 1) * intervalNs =
          startNs + (m + i + 1) * intervalNs := by ring
      omega
    have hle : (m + (k + 1)) * intervalNs ≤ (m + i + 1) * intervalNs :=
      Nat.mul_le_mul_right _ (by omega)
    have heq : startNs + m * intervalNs + (k + 1) * intervalNs =
        startNs + (m + (k + 1)) * intervalNs := by ring
    omega

/-! ## The turns -/

/-- The turns exist, each on the grid, and every report time is after the ones before. -/
theorem reportTurns_grid (hinterval : 0 < intervalNs)
    (hprev : prevNs ∈ reportGrid intervalNs startNs) (hfit : TurnsFit intervalNs prevNs readings) :
    ∃ n turns, (∀ rounds, n ≤ rounds →
        reportTurns intervalNs rounds prevNs readings = some turns) ∧
      turns.map ReportTurn.currNs = readings ∧
      turns.map ReportTurn.prevNs = (prevNs :: turns.map ReportTurn.nextNs).take turns.length ∧
      (prevNs :: turns.map ReportTurn.nextNs).Pairwise (· < ·) ∧
      ∀ turn ∈ turns, turn.OnGrid intervalNs startNs := by
  induction readings generalizing prevNs with
  | nil => exact ⟨0, [], fun _ _ => rfl, rfl, rfl, List.pairwise_singleton _ _, nofun⟩
  | cons currNs readings ih =>
    obtain ⟨hloop, hrest⟩ := hfit
    obtain ⟨n, k, hends, hlt, hafter, hbefore⟩ := nextReport_ends hinterval hloop
    have hleast := isLeast_of_before hinterval hprev hafter hbefore
    generalize prevNs + (k + 1) * intervalNs = nextNs at hends hlt hafter hleast
    obtain ⟨n', turns, hturns, hcurrs, hprevs, hsorted, hgrid⟩ :=
      ih hleast.1.1 (hrest n nextNs (hends n le_rfl))
    have hpause : toUInt 64 ((nextNs : ℤ) - currNs) = nextNs - currNs := toUInt_sub hafter.le hlt
    refine ⟨max n n', ⟨prevNs, currNs, nextNs, nextNs - currNs⟩ :: turns, ?_, ?_, ?_, ?_, ?_⟩
    · intro rounds hrounds
      rw [reportTurns, hends rounds (le_trans (le_max_left n n') hrounds), Option.bind_eq_bind,
        Option.bind_some, hturns rounds (le_trans (le_max_right n n') hrounds), Option.bind_eq_bind,
        Option.bind_some, hpause]
    · rw [List.map_cons, hcurrs]
    · rw [List.map_cons, List.map_cons, hprevs, List.length_cons, List.take_succ_cons]
    · rw [List.map_cons, List.pairwise_cons]
      refine ⟨fun g hg => ?_, hsorted⟩
      rcases List.mem_cons.mp hg with rfl | hg
      · exact hleast.1.2.1
      · exact hleast.1.2.1.trans ((List.pairwise_cons.mp hsorted).1 g hg)
    · intro turn hturn
      rcases List.mem_cons.mp hturn with rfl | hturn
      · exact ⟨hleast, by dsimp only; omega, by dsimp only; omega⟩
      · exact hgrid turn hturn

/-- As long as no sum reaches 2^64, every inner loop of the report thread ends, and the report
times are on the grid, increasing, each the first one after the last and after the reading. -/
theorem report_schedule (hinterval : 0 < intervalNs) (hfit : SumsFit intervalNs startNs readings) :
    ∃ n turns, (∀ rounds, n ≤ rounds →
        reportThread intervalNs rounds startNs readings = some turns) ∧
      turns.map ReportTurn.currNs = readings ∧
      turns.map ReportTurn.prevNs =
        ((startNs + intervalNs) :: turns.map ReportTurn.nextNs).take turns.length ∧
      (turns.map ReportTurn.nextNs).Pairwise (· < ·) ∧
      ∀ turn ∈ turns, turn.OnGrid intervalNs startNs := by
  have hstart : startNs + intervalNs ∈ reportGrid intervalNs startNs := ⟨1, by ring⟩
  obtain ⟨n, turns, hturns, hcurrs, hprevs, hsorted, hgrid⟩ :=
    reportTurns_grid hinterval hstart hfit.2
  refine ⟨n, turns, fun rounds hrounds => ?_, hcurrs, hprevs, hsorted.of_cons, hgrid⟩
  rw [reportThread, toUInt_natCast hfit.1]
  exact hturns rounds hrounds

/-- Four report times have passed at the reading. -/
theorem report_schedule_late :
    ∃ n turns, (∀ rounds, n ≤ rounds → reportThread 10 rounds 3 [47] = some turns) ∧
      turns.map ReportTurn.currNs = [47] ∧
      turns.map ReportTurn.prevNs = ((3 + 10) :: turns.map ReportTurn.nextNs).take turns.length ∧
      (turns.map ReportTurn.nextNs).Pairwise (· < ·) ∧
      ∀ turn ∈ turns, turn.OnGrid 10 3 := by
  refine report_schedule (by decide) ⟨by decide, fun rounds => ?_, fun _ _ _ => trivial⟩
  exact loopFits_of_lt (by decide) (by decide)

example : reportThread 10 6 3 [47] = some [⟨13, 47, 53, 6⟩] := by decide

end Sysbench.Core
