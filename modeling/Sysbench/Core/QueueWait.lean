import Sysbench.Core.OperLog

/-! # The queue wait of an event

In tx-rate mode the wait of an event is stored in the timer of the thread when the event is
dequeued, and the stop of the event adds it to the elapsed time. A checkpoint that resets the
timers in between takes the wait away.
-/
namespace Sysbench.Core

open Runs Words

variable {n : ℕ}

def LogEvent.isOf (t : Fin n) : LogEvent n → Bool
  | .queue i _ _ => i = t
  | .start i _ => i = t
  | .stop i _ _ => i = t
  | .update i => i = t
  | _ => false

/-- One event of thread `t` in a run: dequeued, started and stopped, with nothing else of
this thread in between. -/
structure Handled (es pre mid₁ mid₂ : List (LogEvent n)) (t : Fin n) (execValue eventTime : ℕ)
    (started stopped : Timespec) (elapsed : ℕ) : Prop where
  split : pre ++ .queue t execValue eventTime :: mid₁ ++ .start t started :: mid₂ ++
    [.stop t stopped elapsed] <+: es
  queued : ∀ e ∈ mid₁, e.isOf t = false
  running : ∀ e ∈ mid₂, e.isOf t = false

/-- Every event is recorded with its run time and the wait computed when it was dequeued. -/
def WaitsRecorded (es : List (LogEvent n)) : Prop :=
  ∀ pre mid₁ mid₂ t execValue eventTime started stopped elapsed,
    Handled es pre mid₁ mid₂ t execValue eventTime started stopped elapsed →
      elapsed = toUInt 64 (timespecDiff stopped started + queueWait execValue eventTime : ℕ)

/-- No event that had to wait is reset before its stop. -/
def WaitsKept (es : List (LogEvent n)) : Prop :=
  ∀ pre mid₁ mid₂ t execValue eventTime started stopped elapsed,
    Handled es pre mid₁ mid₂ t execValue eventTime started stopped elapsed →
      queueWait execValue eventTime = 0 ∨ .copy ∉ mid₁ ∧ .copy ∉ mid₂

variable {bucket : ℤ → ℕ}

/-- What the others do to a timer: a copy resets it, everything else leaves it alone. -/
theorem LogMoved.other {s u : LogState n} {e : LogEvent n} (hmv : LogMoved bucket s e u)
    {t : Fin n} (he : e.isOf t = false) :
    (u.timers t).timeStart = (s.timers t).timeStart ∧
      (u.timers t).queueTime = if e = .copy then 0 else (s.timers t).queueTime := by
  have hset : ∀ {i : Fin n} {timer : SbTimer}, decide (i = t) = false →
      (s.setTimer i timer).timers t = s.timers t := by
    intro i timer hi
    exact Function.update_of_ne (Ne.symm (of_decide_eq_false hi)) _ _
  cases hmv with
  | queue hv =>
    rw [hset he]
    exact ⟨rfl, rfl⟩
  | start hl hv hstart =>
    rw [hset he]
    exact ⟨rfl, rfl⟩
  | @stop i now timer hl hv hstop =>
    have hkeep : (s.setTimer i timer).timers t = s.timers t := hset he
    exact ⟨congrArg SbTimer.timeStart hkeep, congrArg SbTimer.queueTime hkeep⟩
  | copy hr => exact ⟨rfl, rfl⟩
  | _ => exact ⟨rfl, rfl⟩

theorem run_other {t : Fin n} {mid : List (LogEvent n)} {s u : LogState n}
    (hr : run (logStep bucket) s mid = some u) (hmid : ∀ e ∈ mid, e.isOf t = false) :
    (u.timers t).timeStart = (s.timers t).timeStart ∧
      (u.timers t).queueTime = if .copy ∈ mid then 0 else (s.timers t).queueTime := by
  induction mid generalizing s with
  | nil =>
    cases hr
    exact ⟨rfl, rfl⟩
  | cons e mid ih =>
    rw [run_cons, Option.bind_eq_some_iff] at hr
    obtain ⟨v, hv, hr⟩ := hr
    obtain ⟨hstart, hqueue⟩ := ih hr fun e he => hmid e (List.mem_cons_of_mem _ he)
    obtain ⟨hstart', hqueue'⟩ := (logStep_moved hv).other (hmid e List.mem_cons_self)
    refine ⟨hstart.trans hstart', ?_⟩
    rw [hqueue, hqueue']
    by_cases he : e = .copy
    · simp [he]
    · simp [he, Ne.symm he]

/-- The elapsed time of an event: the wait is lost if a checkpoint falls before the stop. -/
theorem Handled.elapsed_eq {es pre mid₁ mid₂ : List (LogEvent n)} {t : Fin n}
    {execValue eventTime elapsed : ℕ} {started stopped : Timespec} {s : LogState n}
    (h : Handled es pre mid₁ mid₂ t execValue eventTime started stopped elapsed)
    (hr : run (logStep bucket) (operHandlerInit n) es = some s) :
    elapsed = toUInt 64 (timespecDiff stopped started +
      if .copy ∈ mid₁ ∨ .copy ∈ mid₂ then 0 else queueWait execValue eventTime : ℕ) := by
  obtain ⟨rest, rfl⟩ := h.split
  obtain ⟨v, hv, -⟩ := run_append_iff.mp hr
  obtain ⟨v₂, hv₂, hstop⟩ := run_snoc_iff.mp hv
  obtain ⟨v₁, hv₁, hv₂⟩ := run_append_iff.mp hv₂
  obtain ⟨v₀, hv₀, hv₁⟩ := run_append_iff.mp hv₁
  obtain ⟨w₀, hqueue, hmid₁⟩ := Option.bind_eq_some_iff.mp ((run_cons _ _ _ _).symm.trans hv₁)
  obtain ⟨w₁, hstart, hmid₂⟩ := Option.bind_eq_some_iff.mp ((run_cons _ _ _ _).symm.trans hv₂)
  obtain ⟨-, hwait₁⟩ := run_other hmid₁ h.queued
  obtain ⟨hstart₂, hwait₂⟩ := run_other hmid₂ h.running
  have hwait : (w₀.timers t).queueTime = queueWait execValue eventTime := by
    cases logStep_moved hqueue with
    | queue hv => simp [LogState.setTimer]
  have hstarted : (w₁.timers t).timeStart = started ∧
      (w₁.timers t).queueTime = (v₁.timers t).queueTime := by
    cases logStep_moved hstart with
    | @start _ _ timer hl hv hs =>
      unfold sbTimerStart at hs
      split_ifs at hs
      cases hs
      simp [LogState.setTimer]
  cases logStep_moved hstop with
  | @stop _ _ timer hl hv hs =>
    obtain ⟨heq, -⟩ := sbTimerStop_eq hs
    rw [heq, hstart₂, hwait₂, hstarted.1, hstarted.2, hwait₁, hwait]
    by_cases h₁ : .copy ∈ mid₁ <;> by_cases h₂ : .copy ∈ mid₂ <;> simp [h₁, h₂]

/-- A sum of two words changes when the second one, not zero, is dropped. -/
theorem toUInt_add_eq_iff {m w : ℕ} (hw : w < 2 ^ 64) :
    toUInt 64 m = toUInt 64 (m + w : ℕ) ↔ w = 0 := by
  rw [toUInt_eq_mod, toUInt_eq_mod]
  omega

/-- In every run the recorded times contain the waits exactly when no checkpoint falls
between the dequeue of an event that had to wait and its stop. -/
theorem waitsRecorded_iff {es : List (LogEvent n)} {s : LogState n}
    (hr : run (logStep bucket) (operHandlerInit n) es = some s) :
    WaitsRecorded es ↔ WaitsKept es := by
  have hone : ∀ {pre mid₁ mid₂ t execValue eventTime started stopped elapsed},
      Handled es pre mid₁ mid₂ t execValue eventTime started stopped elapsed →
      (elapsed = toUInt 64 (timespecDiff stopped started + queueWait execValue eventTime : ℕ) ↔
        queueWait execValue eventTime = 0 ∨ .copy ∉ mid₁ ∧ .copy ∉ mid₂) := by
    intro pre mid₁ mid₂ t execValue eventTime started stopped elapsed h
    rw [h.elapsed_eq hr]
    by_cases hcopy : .copy ∈ mid₁ ∨ .copy ∈ mid₂
    · have hlt : queueWait execValue eventTime < 2 ^ 64 := toUInt_lt 64 _
      rw [if_pos hcopy, add_zero, toUInt_add_eq_iff hlt]
      tauto
    · rw [if_neg hcopy]
      tauto
  constructor
  · intro h pre mid₁ mid₂ t execValue eventTime started stopped elapsed hh
    exact (hone hh).mp (h _ _ _ _ _ _ _ _ _ hh)
  · intro h pre mid₁ mid₂ t execValue eventTime started stopped elapsed hh
    exact (hone hh).mpr (h _ _ _ _ _ _ _ _ _ hh)

/-- An event waits for three nanoseconds and runs for five; a checkpoint falls in between. -/
def waitEvents : List (LogEvent 1) :=
  [.queue 0 3 0, .copy, .calculate, .reset, .start 0 ⟨0, 3⟩, .stop 0 ⟨0, 8⟩ 5]

theorem waitEvents_run : ∃ s, run (logStep fun _ => 0) (operHandlerInit 1) waitEvents = some s :=
  ⟨_, rfl⟩

theorem waitsRecorded_iff_checkpoint : WaitsRecorded waitEvents ↔ WaitsKept waitEvents := by
  obtain ⟨s, hs⟩ := waitEvents_run
  exact waitsRecorded_iff hs

/-- The checkpoint takes the wait away: five nanoseconds are recorded instead of eight. -/
theorem waitsRecorded_checkpoint : ∃ es : List (LogEvent 1),
    (∃ s, run (logStep fun _ => 0) (operHandlerInit 1) es = some s) ∧ ¬ WaitsRecorded es := by
  refine ⟨waitEvents, waitEvents_run, fun hrec => ?_⟩
  have heq := hrec [] [.copy, .calculate, .reset] [] 0 3 0 ⟨0, 3⟩ ⟨0, 8⟩ 5
    ⟨List.prefix_rfl, by decide, by decide⟩
  exact absurd heq (by decide)

end Sysbench.Core
