import Sysbench.Core.Timer
import Sysbench.Machine.Runs

/-! # Splits of a timer

The values of `sb_timer_split` are consecutive differences of reference points, so that their
sum telescopes. The reference point of a split is the reading of the clock, or the last stop.
-/
namespace Sysbench.Core

open Words Runs

/-! ## Consecutive differences -/

/-- The steps of a walk from `a` over the given points. -/
def differences : ℤ → List ℤ → List ℤ
  | _, [] => []
  | a, b :: bs => (b - a) :: differences b bs

theorem sum_differences (a : ℤ) (bs : List ℤ) :
    (differences a bs).sum = (a :: bs).getLast (List.cons_ne_nil a bs) - a := by
  induction bs generalizing a with
  | nil => simp [differences]
  | cons b bs ih =>
    rw [differences, List.sum_cons, ih, List.getLast_cons (List.cons_ne_nil b bs)]
    ring

theorem differences_nonneg {a : ℤ} {bs : List ℤ} (hchain : (a :: bs).IsChain (· ≤ ·)) :
    ∀ d ∈ differences a bs, 0 ≤ d := by
  induction bs generalizing a with
  | nil =>
    intro d hd
    cases hd
  | cons b bs ih =>
    rw [List.isChain_cons_cons] at hchain
    intro d hd
    rcases List.mem_cons.mp hd with rfl | hd
    · exact sub_nonneg.mpr hchain.1
    · exact ih hchain.2 d hd

/-! ## Calls on a started timer -/

def Timespec.ns (a : Timespec) : ℤ := a.sec * 1000000000 + a.nsec

theorem timespecDiff_eq (a b : Timespec) : timespecDiff a b = toUInt 64 (a.ns - b.ns) := by
  unfold timespecDiff Timespec.ns
  congr 1
  ring

/-- A call on a started timer. `now` is what the clock shows when it is made. -/
inductive ClockCall where
  | value (now : Timespec)
  | split (now : Timespec)
  | stop (now : Timespec)
  deriving DecidableEq, Repr

def ClockCall.now : ClockCall → Timespec
  | .value now | .split now | .stop now => now

/-- A timer, and what its splits have returned. -/
structure SplitState where
  timer : SbTimer
  splits : List ℕ
  deriving DecidableEq, Repr

def clockStep (s : SplitState) : ClockCall → Option SplitState
  | .value now => (sbTimerValue now s.timer).map fun (_, t) => { s with timer := t }
  | .split now => (sbTimerSplit now s.timer).map fun (res, t) => ⟨t, s.splits ++ [res]⟩
  | .stop now => (sbTimerStop now s.timer).map fun t => { s with timer := t }

/-- The reference points of the splits, after a last stop. -/
def splitPoints : Option Timespec → List ClockCall → List Timespec
  | _, [] => []
  | stop, .value _ :: cs => splitPoints stop cs
  | stop, .split now :: cs => stop.getD now :: splitPoints stop cs
  | _, .stop now :: cs => splitPoints (some now) cs

/-- The timer runs, or it is stopped and its end is the last stop. -/
def StoppedAt (t : SbTimer) : Option Timespec → Prop
  | none => t.state = .running
  | some stop => t.state = .stopped ∧ t.timeEnd = stop

variable {s : SplitState} {stop : Option Timespec} {cs : List ClockCall}

theorem sbTimerValue_stoppedAt {t : SbTimer} (h : StoppedAt t stop) (now : Timespec) :
    ∃ v t', sbTimerValue now t = some (v, t') ∧ StoppedAt t' stop ∧ t'.timeSplit = t.timeSplit := by
  cases stop with
  | none =>
    have hstate : t.state = .running := h
    have hvalue : sbTimerValue now t = some ((sbTimerUpdate now t).elapsed, sbTimerUpdate now t) := by
      simp only [sbTimerValue, hstate]
    exact ⟨_, _, hvalue, hstate, rfl⟩
  | some stop =>
    have hvalue : sbTimerValue now t = some (t.elapsed, t) := by simp only [sbTimerValue, h.1]
    exact ⟨_, _, hvalue, h, rfl⟩

theorem sbTimerSplit_stoppedAt {t : SbTimer} (h : StoppedAt t stop) (now : Timespec) :
    ∃ t', sbTimerSplit now t = some (timespecDiff (stop.getD now) t.timeSplit, t') ∧
      StoppedAt t' stop ∧ t'.timeSplit = stop.getD now := by
  cases stop with
  | none =>
    have hstate : t.state = .running := h
    refine ⟨{ t with elapsed := timespecDiff now t.timeStart, timeSplit := now }, ?_, hstate, rfl⟩
    simp only [sbTimerSplit, hstate, Option.getD_none]
  | some stop =>
    obtain ⟨hstate, rfl⟩ := h
    refine ⟨{ t with timeSplit := t.timeEnd }, ?_, ⟨hstate, rfl⟩, rfl⟩
    simp only [sbTimerSplit, hstate, Option.getD_some]

theorem sbTimerStop_stoppedAt {t : SbTimer} (h : StoppedAt t stop) (now : Timespec) :
    ∃ t', sbTimerStop now t = some t' ∧ StoppedAt t' (some now) ∧ t'.timeSplit = t.timeSplit := by
  have hstate : t.state ≠ .uninitialized := by
    cases stop with
    | none => exact fun hu => by cases hu.symm.trans (show t.state = .running from h)
    | some stop => exact fun hu => by cases hu.symm.trans h.1
  exact ⟨_, if_neg hstate, ⟨rfl, rfl⟩, rfl⟩

/-- The splits return the differences of their reference points, as 64-bit words. -/
theorem run_splits (h : StoppedAt s.timer stop) :
    ∃ t, run clockStep s cs = some t ∧
      t.splits = s.splits ++
        (differences s.timer.timeSplit.ns ((splitPoints stop cs).map Timespec.ns)).map (toUInt 64) := by
  induction cs generalizing s stop with
  | nil => exact ⟨s, rfl, by simp [splitPoints, differences]⟩
  | cons c cs ih =>
    cases c with
    | value now =>
      obtain ⟨v, timer, hvalue, htimer, hsplit⟩ := sbTimerValue_stoppedAt h now
      obtain ⟨t, hr, ht⟩ := ih (s := { s with timer }) htimer
      refine ⟨t, ?_, ?_⟩
      · rwa [run_cons, clockStep, hvalue]
      · rwa [splitPoints, ← hsplit]
    | split now =>
      obtain ⟨timer, hres, htimer, hsplit⟩ := sbTimerSplit_stoppedAt h now
      obtain ⟨t, hr, ht⟩ := ih (s := ⟨timer, s.splits ++ [_]⟩) htimer
      refine ⟨t, ?_, ?_⟩
      · rwa [run_cons, clockStep, hres]
      · rw [ht, hsplit, timespecDiff_eq, List.append_assoc]
        rfl
    | stop now =>
      obtain ⟨timer, hstop, htimer, hsplit⟩ := sbTimerStop_stoppedAt h now
      obtain ⟨t, hr, ht⟩ := ih (s := { s with timer }) htimer
      refine ⟨t, ?_, ?_⟩
      · rwa [run_cons, clockStep, hstop]
      · rwa [splitPoints, ← hsplit]

/-! ## A monotone clock -/

theorem splitPoints_chain {lo : ℤ} (hstop : ∀ x ∈ stop, lo ≤ x.ns ∧ ∀ c ∈ cs, x.ns ≤ c.now.ns)
    (hlow : ∀ c ∈ cs, lo ≤ c.now.ns) (hmono : cs.Pairwise fun c d => c.now.ns ≤ d.now.ns) :
    (lo :: (splitPoints stop cs).map Timespec.ns).IsChain (· ≤ ·) := by
  induction cs generalizing lo stop with
  | nil => simp [splitPoints]
  | cons c cs ih =>
    obtain ⟨hlater, htail⟩ := List.pairwise_cons.mp hmono
    have hlo := hlow c List.mem_cons_self
    have hrest := fun d hd => hlow d (List.mem_cons_of_mem _ hd)
    have hkept : ∀ x ∈ stop, lo ≤ x.ns ∧ ∀ d ∈ cs, x.ns ≤ d.now.ns := fun x hx =>
      ⟨(hstop x hx).1, fun d hd => (hstop x hx).2 d (List.mem_cons_of_mem _ hd)⟩
    cases c with
    | value now => exact ih hkept hrest htail
    | split now =>
      rw [splitPoints, List.map_cons, List.isChain_cons_cons]
      cases stop with
      | none => exact ⟨hlo, @ih none now.ns (fun x hx => by cases hx) hlater htail⟩
      | some x =>
        obtain ⟨hlox, hafter⟩ := hkept x rfl
        exact ⟨hlox, @ih (some x) x.ns (fun y hy => by cases hy; exact ⟨le_rfl, hafter⟩) hafter htail⟩
    | stop now => exact @ih (some now) lo (fun x hx => by cases hx; exact ⟨hlo, hlater⟩) hrest htail

/-- On a monotone clock that advances by less than 2^64 ns from one reference point to the next one,
the splits are the exact times between these points and add up to the time from the start to the
last one. -/
theorem splits_add_up {t timer : SbTimer} {start : Timespec}
    (hstart : sbTimerStart start t = some timer)
    (hmono : ((start :: cs.map ClockCall.now).map Timespec.ns).Pairwise (· ≤ ·))
    (hshort : ∀ d ∈ differences start.ns ((splitPoints none cs).map Timespec.ns), d < 2 ^ 64) :
    ∃ s, run clockStep ⟨timer, []⟩ cs = some s ∧
      s.splits.map Nat.cast = differences start.ns ((splitPoints none cs).map Timespec.ns) ∧
      (s.splits.sum : ℤ) = ((splitPoints none cs).getLastD start).ns - start.ns := by
  have hrunning : StoppedAt timer none ∧ timer.timeSplit = start := by
    unfold sbTimerStart at hstart
    split_ifs at hstart
    cases hstart
    exact ⟨rfl, rfl⟩
  obtain ⟨s, hr, hsplits⟩ := @run_splits ⟨timer, []⟩ none cs hrunning.1
  rw [List.nil_append, hrunning.2] at hsplits
  rw [List.map_cons, List.map_map, List.pairwise_cons, List.pairwise_map] at hmono
  have hchain := @splitPoints_chain none cs start.ns (fun x hx => by cases hx)
    (fun c hc => hmono.1 _ (List.mem_map_of_mem hc)) hmono.2
  have hexact : s.splits.map Nat.cast =
      differences start.ns ((splitPoints none cs).map Timespec.ns) := by
    rw [hsplits, List.map_map]
    refine (List.map_congr_left fun d hd => ?_).trans (List.map_id _)
    have hnonneg := differences_nonneg hchain d hd
    have hd := hshort d hd
    rw [Function.comp_apply, toUInt_of_range hnonneg (by exact_mod_cast hd), id,
      Int.toNat_of_nonneg hnonneg]
  refine ⟨s, hr, hexact, ?_⟩
  have hlast : (start.ns :: (splitPoints none cs).map Timespec.ns).getLast (List.cons_ne_nil _ _) =
      ((splitPoints none cs).getLastD start).ns := by
    rw [← List.getLast_eq_getLastD (List.cons_ne_nil _ _)]
    exact List.getLast_map (f := Timespec.ns) (l := start :: splitPoints none cs) (by simp)
  rw [Nat.cast_list_sum, hexact, sum_differences, hlast]

/-- A split, a stop, and a split of the stopped timer. -/
theorem splits_add_up_stopped :
    ∃ s, run clockStep ⟨{ sbTimerInit with state := .running }, []⟩
        [.split ⟨0, 900⟩, .stop ⟨1, 5⟩, .split ⟨7, 0⟩] = some s ∧
      s.splits.map Nat.cast = differences (Timespec.ns ⟨0, 0⟩)
        ((splitPoints none [.split ⟨0, 900⟩, .stop ⟨1, 5⟩, .split ⟨7, 0⟩]).map Timespec.ns) ∧
      (s.splits.sum : ℤ) =
        ((splitPoints none [.split ⟨0, 900⟩, .stop ⟨1, 5⟩, .split ⟨7, 0⟩]).getLastD ⟨0, 0⟩).ns -
          Timespec.ns ⟨0, 0⟩ :=
  splits_add_up (show sbTimerStart ⟨0, 0⟩ sbTimerInit = some _ from rfl) (by decide) (by decide)

/-- A split 2^64 ns after the start or later. -/
theorem split_wraps :
    ¬∀ (t timer : SbTimer) (start : Timespec) (cs : List ClockCall),
      sbTimerStart start t = some timer →
      ((start :: cs.map ClockCall.now).map Timespec.ns).Pairwise (· ≤ ·) →
      (∀ now ∈ start :: cs.map ClockCall.now, 0 ≤ now.nsec ∧ now.nsec < 1000000000) →
      ∃ s, run clockStep ⟨timer, []⟩ cs = some s ∧
        (s.splits.sum : ℤ) = ((splitPoints none cs).getLastD start).ns - start.ns := by
  intro h
  obtain ⟨s, hr, hsum⟩ := h sbTimerInit { sbTimerInit with state := .running } ⟨0, 0⟩
    [.split ⟨18446744074, 0⟩] rfl (by decide) (by decide)
  have hrun : (run clockStep ⟨{ sbTimerInit with state := .running }, []⟩
      [.split ⟨18446744074, 0⟩]).map SplitState.splits = some [290448384] := by decide +kernel
  rw [hr, Option.map_some, Option.some_inj] at hrun
  rw [hrun] at hsum
  revert hsum
  decide +kernel

end Sysbench.Core
