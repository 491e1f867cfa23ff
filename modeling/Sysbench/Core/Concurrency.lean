import Sysbench.Core.EventQueue
import Sysbench.Machine.Pool

/-! # The concurrency counter of the tx-rate mode

A worker raises `sb_globals.concurrency` when it takes an event and lowers it after the request,
both times under the queue mutex. It leaves its loop without lowering it when the request failed.
-/
namespace Sysbench.Core

open Rings Runs Pool

inductive TxWorker where
  | top
  /-- about to lock the event queue -/
  | waiting
  /-- has dequeued an event -/
  | dequeued
  | executing
  /-- about to lower the counter; whether the request was `SB_REQ_TYPE_NULL` -/
  | executed (null : Bool)
  | finished (null : Bool)
  /-- has left the loop -/
  | left
  deriving DecidableEq

/-- One for a worker that has dequeued an event and not finished handling it. -/
def TxWorker.handling : TxWorker → ℕ
  | .dequeued | .executing | .executed _ => 1
  | _ => 0

structure TxState (n : ℕ) where
  queue : EventQueue
  concurrency : ℤ
  workers : Fin n → TxWorker

inductive TxEvent (n : ℕ) where
  /-- a step of the generator, or a worker takes an event -/
  | queue (e : QueueEvent n)
  /-- worker `t` reads `queue_is_full` -/
  | look (t : Fin n) (full : Bool)
  | getRequest (t : Fin n) (null : Bool)
  | executeRequest (t : Fin n) (error : Bool)
  | finish (t : Fin n)
  /-- worker `t` compares the clock with the time limit and reads `sb_globals.error` -/
  | check (t : Fin n) (timeLimit error : Bool)
  /-- the intermediate report of the database tests prints both counters -/
  | report (eventQueueLength : ℕ) (concurrency : ℤ)
  deriving DecidableEq

variable {n : ℕ}

def initTx (n : ℕ) (links : Links (Option ℕ)) : TxState n where
  queue := initEventQueue links
  concurrency := 0
  workers _ := .top

def TxState.move (s : TxState n) (t : Fin n) (w : TxWorker) : TxState n :=
  { s with workers := Function.update s.workers t w }

/-- The two locked sections in which a worker changes the counter, and the steps between them. -/
def txStep (maxLen : ℕ) (s : TxState n) : TxEvent n → Option (TxState n)
  | .queue e =>
    (queueStep maxLen s.queue e).bind fun queue =>
      match e with
      | .dequeue t _ =>
        if s.workers t = .waiting then
          some { s.move t .dequeued with queue, concurrency := s.concurrency + 1 }
        else none
      | _ => some { s with queue }
  | .look t full =>
    if s.workers t = .top ∧ s.queue.queueIsFull = full then
      some (s.move t (if full then .left else .waiting))
    else none
  | .getRequest t null =>
    if s.workers t = .dequeued then
      some (s.move t (if null then .executed true else .executing))
    else none
  | .executeRequest t error =>
    -- break if error returned
    if s.workers t = .executing then
      some (s.move t (if error then .left else .executed false))
    else none
  | .finish t =>
    match s.workers t with
    | .executed null => some { s.move t (.finished null) with concurrency := s.concurrency - 1 }
    | _ => none
  | .check t timeLimit error =>
    match s.workers t with
    | .finished null => some (s.move t (if timeLimit || null || error then .left else .top))
    | _ => none
  | .report eventQueueLength concurrency =>
    if s.queue.eventQueueLength = eventQueueLength ∧ s.concurrency = concurrency then some s
    else none

def TxState.handling (s : TxState n) : ℕ := total TxWorker.handling s.workers

def TxEvent.failed : TxEvent n → Bool
  | .executeRequest _ error => error
  | _ => false

@[simp] theorem TxState.move_concurrency (s : TxState n) (t : Fin n) (w : TxWorker) :
    (s.move t w).concurrency = s.concurrency := rfl

theorem TxState.handling_move {s u : TxState n} {t : Fin n} {v w : TxWorker}
    (hv : s.workers t = v) (hu : u.workers = Function.update s.workers t w) :
    u.handling + v.handling = s.handling + w.handling := by
  have htotal := total_update TxWorker.handling s.workers t w
  rw [hv, ← hu] at htotal
  exact htotal

/-- Every step moves the counter with the workers, but for a failed request. -/
theorem txStep_concurrency {maxLen : ℕ} {s u : TxState n} {e : TxEvent n}
    (he : txStep maxLen s e = some u) :
    u.concurrency - u.handling = s.concurrency - s.handling + if e.failed then 1 else 0 := by
  cases e with
  | queue e =>
    obtain ⟨queue, -, hafter⟩ := Option.bind_eq_some_iff.mp he
    cases e with
    | dequeue t taken =>
      obtain ⟨hv, heq⟩ := Option.ite_none_right_eq_some.mp hafter
      have hu : u.workers = Function.update s.workers t .dequeued := by
        cases heq
        rfl
      have hraised : u.concurrency = s.concurrency + 1 := by
        cases heq
        rfl
      have hmove := TxState.handling_move hv hu
      simp only [TxWorker.handling] at hmove
      simp only [TxEvent.failed, Bool.false_eq_true, if_false]
      omega
    | _ =>
      cases hafter
      simp [TxState.handling, TxEvent.failed]
  | look t full =>
    obtain ⟨⟨hv, -⟩, heq⟩ := Option.ite_none_right_eq_some.mp he
    cases heq
    have hmove :=
      TxState.handling_move (u := s.move t (if full then .left else .waiting)) hv rfl
    cases full <;> simp [TxWorker.handling, TxEvent.failed] at hmove ⊢ <;> omega
  | getRequest t null =>
    obtain ⟨hv, heq⟩ := Option.ite_none_right_eq_some.mp he
    cases heq
    have hmove :=
      TxState.handling_move (u := s.move t (if null then .executed true else .executing)) hv rfl
    cases null <;> simp [TxWorker.handling, TxEvent.failed] at hmove ⊢ <;> omega
  | executeRequest t error =>
    obtain ⟨hv, heq⟩ := Option.ite_none_right_eq_some.mp he
    cases heq
    have hmove :=
      TxState.handling_move (u := s.move t (if error then .left else .executed false)) hv rfl
    -- a failed request takes the worker out of the sum and leaves the counter
    cases error <;> simp [TxWorker.handling, TxEvent.failed] at hmove ⊢ <;> omega
  | finish t =>
    simp only [txStep] at he
    split at he
    next null hv =>
      have hu : u.workers = Function.update s.workers t (.finished null) := by
        cases he
        rfl
      have hlowered : u.concurrency = s.concurrency - 1 := by
        cases he
        rfl
      have hmove := TxState.handling_move hv hu
      simp only [TxWorker.handling] at hmove
      simp only [TxEvent.failed, Bool.false_eq_true, if_false]
      omega
    next => cases he
  | check t timeLimit error =>
    simp only [txStep] at he
    split at he <;> cases he
    rename_i null hv
    have hmove :=
      TxState.handling_move (u := s.move t (if timeLimit || null || error then .left else .top)) hv rfl
    have hnone : (if timeLimit || null || error then TxWorker.left else .top).handling = 0 := by
      split_ifs <;> rfl
    rw [hnone] at hmove
    simp only [TxWorker.handling, TxState.move_concurrency, TxEvent.failed, Bool.false_eq_true,
      if_false] at hmove ⊢
    omega
  | report eventQueueLength concurrency =>
    obtain ⟨-, heq⟩ := Option.ite_none_right_eq_some.mp he
    cases heq
    simp [TxEvent.failed]

/-- The counter is ahead of the workers by the requests that failed. -/
theorem run_concurrency {maxLen : ℕ} {links : Links (Option ℕ)} {es : List (TxEvent n)}
    {s : TxState n} (hr : run (txStep maxLen) (initTx n links) es = some s) :
    s.concurrency = s.handling + es.countP TxEvent.failed := by
  refine run_invariant (I := fun es (s : TxState n) =>
    s.concurrency = s.handling + es.countP TxEvent.failed) ?_ ?_ hr
  · have hzero : (initTx n links).handling = 0 := total_eq_zero fun i => rfl
    rw [hzero]
    rfl
  · intro es s e u _ hs he
    have hstep := txStep_concurrency he
    rw [hs] at hstep
    rw [List.countP_append, List.countP_singleton]
    push_cast at hstep ⊢
    omega

/-- The counter is the number of workers that handle an event exactly when no request of the
run has failed. -/
theorem concurrency_eq_iff {links : Links (Option ℕ)} {es : List (TxEvent n)} {s : TxState n}
    (hr : run (txStep maxQueueLen) (initTx n links) es = some s) :
    s.concurrency = s.handling ↔ ∀ t, .executeRequest t true ∉ es := by
  rw [run_concurrency hr, add_eq_left, Nat.cast_eq_zero, List.countP_eq_zero]
  constructor
  · intro h t hmem
    exact h _ hmem rfl
  · intro h e hmem hfailed
    cases e with
    | executeRequest t error =>
      obtain rfl : error = true := hfailed
      exact h t hmem
    | _ => exact Bool.false_ne_true hfailed

def failedEvents : List (TxEvent 1) :=
  [.queue (.stamp 5), .look 0 false, .queue .append, .queue (.dequeue 0 (some (0, 5))),
    .getRequest 0 false, .executeRequest 0 true]

theorem concurrency_eq_iff_failed :
    ∃ s, run (txStep maxQueueLen) (initTx 1 ⟨id, id⟩) failedEvents = some s ∧
      (s.concurrency = s.handling ↔ ∀ t, .executeRequest t true ∉ failedEvents) :=
  ⟨_, rfl, concurrency_eq_iff rfl⟩

/-- A worker that has left its loop is still counted. -/
theorem concurrency_failed : ∃ s : TxState 1,
    run (txStep maxQueueLen) (initTx 1 ⟨id, id⟩) failedEvents = some s ∧
      s.workers 0 = .left ∧ s.concurrency = 1 ∧ s.handling = 0 :=
  ⟨_, rfl, rfl, rfl, rfl⟩

end Sysbench.Core
