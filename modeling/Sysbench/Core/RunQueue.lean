import Sysbench.Core.Concurrency
import Sysbench.Core.StartBarrier

/-! # The event queue in a test run

With a transaction rate the runners and the generator of `run_test` take the steps of the workers
and the generator of the tx-rate mode, between others that the queue does not take part in.
-/
namespace Sysbench.Core

open Rings Runs

/-- Where a runner is in the loop of the tx-rate mode. One that has returned is in none. -/
def Runner.txWorker : Runner → Option TxWorker
  | .absent | .initializing | .barrier | .top => some .top
  | .waiting => some .waiting
  | .serving | .requesting => some .dequeued
  | .pending | .executing => some .executing
  | .served null => some (.executed null)
  | .leaving => some .left
  | .returned => none

variable {n : ℕ}

/-- The workers of the tx-rate mode stand where the runners do. -/
structure RunState.Shows (s : RunState n) (x : TxState n) : Prop where
  queue : s.queue = x.queue
  workers : ∀ t w, (s.runners t).txWorker = some w → x.workers t = w

variable {cfg : RunConfig} {s u : RunState n} {x y : TxState n} {t : Fin n}

/-! ## The runners -/

/-- What the step of a runner is to its worker. -/
def RunnerEvent.Leads (s : RunState n) (p r : Option TxWorker) : RunnerEvent → Prop
  | .look full =>
    p = some .top ∧ s.queue.queueIsFull = full ∧ r = some (if full then .left else .waiting)
  | .dequeue _ => p = some .waiting ∧ r = some .dequeued
  | .gotRequest null => p = some .dequeued ∧ r = some (if null then .executed true else .executing)
  | .executed error => p = some .executing ∧ r = some (if error then .left else .executed false)
  | .check timeLimit error =>
    ∃ null, p = some (.executed null) ∧
      r = some (if timeLimit || null || error then .left else .top)
  | _ => r = none ∨ r = p

theorem Runner.next_leads {e : RunnerEvent} {p r : Runner} (hrate : 0 < cfg.txRate)
    (hr : Runner.next cfg s t e p = some r) : e.Leads s p.txWorker r.txWorker := by
  unfold Runner.next at hr
  split at hr
  case h_1 ok =>
    cases ok <;> cases hr
    · exact .inl rfl
    · exact .inr rfl
  case h_2 =>
    obtain ⟨-, heq⟩ := Option.ite_none_left_eq_some.mp hr
    cases heq
    exact .inr rfl
  case h_3 full =>
    obtain ⟨⟨-, hfull⟩, heq⟩ := Option.ite_none_right_eq_some.mp hr
    cases full <;> cases heq <;> exact ⟨rfl, hfull, rfl⟩
  case h_4 =>
    cases hr
    exact ⟨rfl, rfl⟩
  case h_5 =>
    rw [if_pos hrate] at hr
    cases hr
  case h_7 null =>
    obtain ⟨-, heq⟩ := Option.ite_none_left_eq_some.mp hr
    cases null <;> cases heq <;> exact ⟨rfl, rfl⟩
  case h_9 error =>
    obtain ⟨-, heq⟩ := Option.ite_none_left_eq_some.mp hr
    cases error <;> cases heq <;> exact ⟨rfl, rfl⟩
  case h_14 timeLimit error null =>
    obtain ⟨-, heq⟩ := Option.ite_none_right_eq_some.mp hr
    refine ⟨null, rfl, ?_⟩
    cases heq
    split <;> rfl
  case h_15 =>
    obtain ⟨-, heq⟩ := Option.ite_none_left_eq_some.mp hr
    cases heq
    exact .inl rfl
  case h_16 => cases hr
  all_goals
    cases hr
    exact .inr rfl

theorem runnerStep_queue {e : RunnerEvent} (he : runnerStep cfg s t e = some u) :
    ∃ r, Runner.next cfg s t e (s.runners t) = some r ∧
      u.runners = Function.update s.runners t r ∧
      match e with
      | .dequeue taken => queueStep maxQueueLen s.queue (.dequeue t taken) = some u.queue
      | _ => u.queue = s.queue := by
  obtain ⟨r, hr, hafter⟩ := Option.bind_eq_some_iff.mp he
  obtain ⟨v, hv, rfl⟩ := Option.map_eq_some_iff.mp hafter
  refine ⟨r, hr, rfl, ?_⟩
  cases e with
  | dequeue taken =>
    obtain ⟨queue, hqueue, rfl⟩ := Option.map_eq_some_iff.mp hv
    exact hqueue
  | lockExec =>
    obtain ⟨-, heq⟩ := Option.ite_none_right_eq_some.mp hv
    cases heq
    rfl
  | unlockExec =>
    obtain ⟨-, heq⟩ := Option.ite_none_right_eq_some.mp hv
    cases heq
    rfl
  | _ =>
    cases hv
    rfl

theorem RunState.Shows.move {r : Runner} {w : TxWorker} (h : s.Shows x) (hq : u.queue = y.queue)
    (hu : u.runners = Function.update s.runners t r)
    (hy : y.workers = Function.update x.workers t w) (hr : r.txWorker = some w) : u.Shows y := by
  refine ⟨hq, fun i v hv => ?_⟩
  rw [hu] at hv
  rw [hy]
  rcases eq_or_ne i t with rfl | hi
  · rw [Function.update_self] at hv ⊢
    exact Option.some_inj.mp (hr.symm.trans hv)
  · rw [Function.update_of_ne hi] at hv ⊢
    exact h.workers i v hv

theorem RunState.Shows.stay {r : Runner} (h : s.Shows x) (hq : u.queue = s.queue)
    (hu : u.runners = Function.update s.runners t r)
    (hr : r.txWorker = none ∨ r.txWorker = (s.runners t).txWorker) : u.Shows x := by
  refine ⟨hq.trans h.queue, fun i w hw => ?_⟩
  rw [hu] at hw
  rcases eq_or_ne i t with rfl | hi
  · rw [Function.update_self] at hw
    rcases hr with hr | hr
    · rw [hr] at hw
      cases hw
    · exact h.workers i w (hr.symm.trans hw)
  · rw [Function.update_of_ne hi] at hw
    exact h.workers i w hw

theorem run_one {e : TxEvent n} (he : txStep maxQueueLen x e = some y) :
    run (txStep maxQueueLen) x [e] = some y := by
  rw [run_cons, he]
  rfl

theorem RunState.Shows.runner {e : RunnerEvent} (hrate : 0 < cfg.txRate) (h : s.Shows x)
    (he : runnerStep cfg s t e = some u) :
    ∃ fs y, run (txStep maxQueueLen) x fs = some y ∧ u.Shows y := by
  obtain ⟨r, hr, hu, hqueue⟩ := runnerStep_queue he
  have hleads := Runner.next_leads hrate hr
  cases e with
  | look full =>
    obtain ⟨hp, hfull, hr⟩ := hleads
    have hx : txStep maxQueueLen x (.look t full) = some _ :=
      if_pos ⟨h.workers t _ hp, h.queue ▸ hfull⟩
    exact ⟨_, _, run_one hx, h.move (hqueue.trans h.queue) hu rfl hr⟩
  | dequeue taken =>
    obtain ⟨hp, hr⟩ := hleads
    rw [h.queue] at hqueue
    have hx : txStep maxQueueLen x (.queue (.dequeue t taken)) =
        some { x.move t .dequeued with queue := u.queue, concurrency := x.concurrency + 1 } := by
      rw [txStep, hqueue, Option.bind_some]
      exact if_pos (h.workers t _ hp)
    exact ⟨_, _, run_one hx, h.move rfl hu rfl hr⟩
  | gotRequest null =>
    obtain ⟨hp, hr⟩ := hleads
    have hx : txStep maxQueueLen x (.getRequest t null) = some _ := if_pos (h.workers t _ hp)
    exact ⟨_, _, run_one hx, h.move (hqueue.trans h.queue) hu rfl hr⟩
  | executed error =>
    obtain ⟨hp, hr⟩ := hleads
    have hx : txStep maxQueueLen x (.executeRequest t error) = some _ := if_pos (h.workers t _ hp)
    exact ⟨_, _, run_one hx, h.move (hqueue.trans h.queue) hu rfl hr⟩
  | check timeLimit error =>
    -- the worker lowers the counter before it looks at the clock
    obtain ⟨null, hp, hr⟩ := hleads
    have hx := h.workers t _ hp
    have hfinish : txStep maxQueueLen x (.finish t) =
        some { x.move t (.finished null) with concurrency := x.concurrency - 1 } := by
      rw [txStep, hx]
    have hcheck : ∀ v : TxState n, v.workers t = .finished null →
        txStep maxQueueLen v (.check t timeLimit error) =
          some (v.move t (if timeLimit || null || error then .left else .top)) := by
      intro v hv
      rw [txStep, hv]
    refine ⟨[.finish t, .check t timeLimit error], _, run_append_iff.mpr
      ⟨_, run_one hfinish, run_one (hcheck _ (Function.update_self t _ _))⟩, ?_⟩
    exact h.move (hqueue.trans h.queue) hu (Function.update_idem _ _ _) hr
  | _ => exact ⟨[], x, rfl, h.stay hqueue hu hleads⟩

/-! ## The other threads -/

theorem RunState.Shows.same (h : s.Shows x) (hq : u.queue = s.queue) (hu : u.runners = s.runners) :
    u.Shows x :=
  ⟨hq.trans h.queue, fun i w hw => h.workers i w (hu ▸ hw)⟩

theorem RunState.Shows.gen {e : QueueEvent n} {queue : EventQueue} (h : s.Shows x)
    (hqueue : queueStep maxQueueLen s.queue e = some queue) (he : ∀ t taken, e ≠ .dequeue t taken)
    (hq : u.queue = queue) (hu : u.runners = s.runners) :
    ∃ fs y, run (txStep maxQueueLen) x fs = some y ∧ u.Shows y := by
  rw [h.queue] at hqueue
  have hx : txStep maxQueueLen x (.queue e) = some { x with queue } := by
    rw [txStep, hqueue, Option.bind_some]
    cases e with
    | dequeue t taken => exact absurd rfl (he t taken)
    | _ => rfl
  exact ⟨_, _, run_one hx, hq, fun i w hw => h.workers i w (hu ▸ hw)⟩

theorem RunState.Shows.eventgen {e : EventgenEvent} (h : s.Shows x)
    (he : eventgenStep s e = some u) :
    ∃ fs y, run (txStep maxQueueLen) x fs = some y ∧ u.Shows y := by
  obtain ⟨g, -, hafter⟩ := Option.bind_eq_some_iff.mp he
  obtain ⟨v, hv, rfl⟩ := Option.map_eq_some_iff.mp hafter
  cases e with
  | stamp now =>
    obtain ⟨p, hp, hqueue⟩ := Option.bind_eq_some_iff.mp hv
    obtain ⟨timer, -, heq⟩ := RunState.readTimer_eq hp
    rw [heq] at hqueue
    obtain ⟨queue, hgen, rfl⟩ := Option.map_eq_some_iff.mp hqueue
    exact h.gen hgen nofun rfl rfl
  | append =>
    obtain ⟨queue, hqueue, rfl⟩ := Option.map_eq_some_iff.mp hv
    exact h.gen hqueue nofun rfl rfl
  | advance =>
    obtain ⟨queue, hqueue, rfl⟩ := Option.map_eq_some_iff.mp hv
    exact h.gen hqueue nofun rfl rfl
  | _ =>
    cases hv
    exact ⟨[], x, rfl, h.same rfl rfl⟩

/-- The threads of `run_test` up to now are matched by a run of the tx-rate mode. -/
def RunState.InTxRun (s : RunState n) : Prop :=
  ∃ links fs x, run (txStep maxQueueLen) (initTx n links) fs = some x ∧ s.Shows x

theorem RunState.InTxRun.extend (h : s.InTxRun)
    (hstep : ∀ x, s.Shows x → ∃ fs y, run (txStep maxQueueLen) x fs = some y ∧ u.Shows y) :
    u.InTxRun := by
  obtain ⟨links, fs, x, hx, hshows⟩ := h
  obtain ⟨gs, y, hy, hshows'⟩ := hstep x hshows
  exact ⟨links, fs ++ gs, y, run_append_iff.mpr ⟨x, hx, hy⟩, hshows'⟩

theorem RunState.InTxRun.same (h : s.InTxRun) (hq : u.queue = s.queue)
    (hu : u.runners = s.runners) : u.InTxRun :=
  h.extend fun x hx => ⟨[], x, rfl, hx.same hq hu⟩

theorem inTxRun_init {links : Links (Option ℕ)} (hq : s.queue = initEventQueue links)
    (hs : ∀ t, s.runners t = .absent) : s.InTxRun := by
  refine ⟨links, [], _, rfl, hq, fun t w hw => ?_⟩
  rw [hs t] at hw
  exact Option.some_inj.mp hw

theorem RunState.InTxRun.main {es : List (RunEvent n)} {e : MainEvent} (h : s.InTxRun)
    (hb : Barrier es s) (he : mainStep cfg s e = some u) : u.InTxRun := by
  have hready := hb.ready
  cases mainStep_moved he with
  | lockStart hm =>
    -- the list is set up anew
    rw [RunState.Ready, hm] at hready
    exact inTxRun_init rfl hready.runners
  | createRunner hm hi =>
    rw [RunState.Ready, hm] at hready
    refine h.extend fun x hx => ⟨[], x, rfl, hx.stay rfl rfl (.inr ?_)⟩
    rw [hready.2 _ le_rfl]
    rfl
  | @create helper hm hw => cases helper <;> exact h.same rfl rfl
  | _ => exact h.same rfl rfl

theorem RunState.InTxRun.step {es : List (RunEvent n)} {e : RunEvent n} (hrate : 0 < cfg.txRate)
    (h : s.InTxRun) (hb : Barrier es s) (he : runStep cfg s e = some u) : u.InTxRun := by
  cases e with
  | main e => exact h.main hb he
  | runner t e => exact h.extend fun x hx => hx.runner hrate he
  | report e =>
    obtain ⟨r, v, -, -, timers, execOwner, rfl, rfl⟩ := reportStep_eq he
    exact h.same rfl rfl
  | checkpoint e =>
    obtain ⟨c, v, -, -, timers, execOwner, rfl, rfl⟩ := checkpointStep_eq he
    exact h.same rfl rfl
  | eventgen e => exact h.extend fun x hx => hx.eventgen he

/-- In every run of `run_test` with a transaction rate the runners and the generator are in a run
of the tx-rate mode. -/
theorem run_inTxRun {reportInterval : ℕ} {links : Links (Option ℕ)} {es : List (RunEvent n)}
    (hrate : 0 < cfg.txRate) (hr : run (runStep cfg) (initRun n reportInterval links) es = some s) :
    s.InTxRun :=
  (run_invariant (I := fun es s => Barrier es s ∧ s.InTxRun)
    ⟨Barrier.init reportInterval links, inTxRun_init rfl fun _ => rfl⟩
    (fun _ _ _ _ _ h he => ⟨(h.1.step he).2, h.2.step hrate h.1 he⟩) hr).2

end Sysbench.Core
