import Sysbench.Core.TxSignals

/-! # The workers at the event queue with POSIX condition variables

A worker that finds the queue empty sleeps on `event_queue_cv`. The generator signals it in the
same locked section in which it appends an event. It gives up when the queue is full, and then
nobody else would wake a worker.
-/
namespace Sysbench.Core

open Rings Runs Pool

structure PosixTx (n : ℕ) where
  tx : TxState n
  /-- in `pthread_cond_wait`, and nobody has woken it -/
  blocked : Fin n → Bool

inductive PosixEvent (n : ℕ) where
  /-- a step that concerns no sleeping worker -/
  | tx (e : TxEvent n)
  /-- the locked section of the generator; its signal wakes the workers in `woken` -/
  | append (woken : Fin n → Bool)
  /-- worker `t` finds the queue empty and calls `pthread_cond_wait` -/
  | sleep (t : Fin n)
  /-- a spurious wakeup -/
  | wake (t : Fin n)

variable {n : ℕ}

def initPosixTx (n : ℕ) (links : Links (Option ℕ)) : PosixTx n where
  tx := initTx n links
  blocked _ := false

def PosixTx.allows (s : PosixTx n) : TxEvent n → Bool
  | .queue .append => false
  | .queue (.dequeue t _) => !s.blocked t
  | _ => true

/-- `pthread_cond_signal` unblocks at least one of the threads that are blocked, if there are any. -/
def PosixTx.Unblocks (s : PosixTx n) (woken : Fin n → Bool) : Prop :=
  (∀ t, woken t → s.blocked t) ∧ ((∃ t, s.blocked t) → ∃ t, woken t)

instance (s : PosixTx n) : DecidablePred s.Unblocks := fun _ => by
  unfold PosixTx.Unblocks
  infer_instance

def posixStep (maxLen : ℕ) (s : PosixTx n) : PosixEvent n → Option (PosixTx n)
  | .tx e =>
    if s.allows e then (txStep maxLen s.tx e).map fun tx => { s with tx } else none
  | .append woken =>
    if s.Unblocks woken then
      (txStep maxLen s.tx (.queue .append)).map fun tx => ⟨tx, fun t => s.blocked t && !woken t⟩
    else none
  | .sleep t =>
    if s.tx.workers t = .waiting ∧ s.blocked t = false ∧ s.tx.queue.eventQueueLength = 0 then
      some { s with blocked := Function.update s.blocked t true }
    else none
  | .wake t =>
    if s.blocked t then some { s with blocked := Function.update s.blocked t false } else none

/-- The workers that are about to lock the queue and to test its length. -/
def PosixTx.coming (s : PosixTx n) : Finset (Fin n) :=
  Finset.univ.filter fun t => s.tx.workers t = .waiting ∧ s.blocked t = false

theorem PosixTx.mem_coming {s : PosixTx n} {t : Fin n} :
    t ∈ s.coming ↔ s.tx.workers t = .waiting ∧ s.blocked t = false := by
  simp [PosixTx.coming]

/-- How many steps a worker still takes once the queue is full. -/
def TxWorker.stepsLeft : TxWorker → ℕ
  | .waiting => 6
  | .dequeued => 5
  | .executing => 4
  | .executed _ => 3
  | .finished _ => 2
  | .top => 1
  | .left => 0

def TxEvent.isWorker : TxEvent n → Bool
  | .queue (.dequeue _ _) => true
  | .queue _ | .report _ _ => false
  | _ => true

/-- A step of a worker, or one that wakes it. -/
def PosixEvent.isWorker : PosixEvent n → Bool
  | .tx e => e.isWorker
  | .append _ => false
  | .sleep _ | .wake _ => true

def TxWorker.mayTake : TxWorker → ℕ
  | .waiting => 1
  | _ => 0

def PosixEvent.takes (t : Fin n) : PosixEvent n → Bool
  | .tx (.queue (.dequeue i _)) => i = t
  | _ => false

/-! ## What a step does -/

inductive PosixMoved (maxLen : ℕ) (s : PosixTx n) : PosixEvent n → PosixTx n → Prop
  | gen {e : QueueEvent n} {u : TxState n} (hq : queueStep maxLen s.tx.queue e = some u.queue)
      (hw : u.workers = s.tx.workers) (he : ∀ t taken, e ≠ .dequeue t taken) (happend : e ≠ .append) :
    PosixMoved maxLen s (.tx (.queue e)) { s with tx := u }
  | dequeue {t : Fin n} {taken : Option (ℕ × ℕ)} {u : TxState n} (ht : t ∈ s.coming)
      (hq : queueStep maxLen s.tx.queue (.dequeue t taken) = some u.queue)
      (hu : u.workers = Function.update s.tx.workers t .dequeued) :
    PosixMoved maxLen s (.tx (.queue (.dequeue t taken))) { s with tx := u }
  | own {e : TxEvent n} {t : Fin n} {w : TxWorker} {u : TxState n} (hw : s.tx.workers t ≠ .waiting)
      (hq : u.queue = s.tx.queue) (hu : u.workers = Function.update s.tx.workers t w)
      (hleft : s.tx.queue.queueIsFull = true → w.stepsLeft < (s.tx.workers t).stepsLeft)
      (he : ∀ i, (PosixEvent.tx e).takes i = false) :
    PosixMoved maxLen s (.tx e) { s with tx := u }
  | report {queueLength : ℕ} {concurrency : ℤ} :
    PosixMoved maxLen s (.tx (.report queueLength concurrency)) s
  | append {woken : Fin n → Bool} {u : TxState n} (hwoken : s.Unblocks woken)
      (hq : queueStep maxLen s.tx.queue (@QueueEvent.append n) = some u.queue)
      (hw : u.workers = s.tx.workers) :
    PosixMoved maxLen s (.append woken) ⟨u, fun t => s.blocked t && !woken t⟩
  | sleep {t : Fin n} (ht : t ∈ s.coming) (hempty : s.tx.queue.eventQueueLength = 0) :
    PosixMoved maxLen s (.sleep t) { s with blocked := Function.update s.blocked t true }
  | wake {t : Fin n} (ht : s.blocked t) :
    PosixMoved maxLen s (.wake t) { s with blocked := Function.update s.blocked t false }

section Steps

variable {maxLen : ℕ} {s u : PosixTx n} {e : PosixEvent n} {t : Fin n}

/-- A step in the loop of worker `t`, which does not wait for the queue. -/
theorem txStep_own {e : TxEvent n} {v : TxState n} (he : txStep maxLen s.tx e = some v)
    (hqueue : ∀ f, e ≠ .queue f) (hreport : ∀ l c, e ≠ .report l c) :
    ∃ t w, s.tx.workers t ≠ .waiting ∧ v.queue = s.tx.queue ∧
      v.workers = Function.update s.tx.workers t w ∧
      (s.tx.queue.queueIsFull = true → w.stepsLeft < (s.tx.workers t).stepsLeft) := by
  cases e with
  | queue e => exact absurd rfl (hqueue e)
  | report l c => exact absurd rfl (hreport l c)
  | look t full =>
    obtain ⟨⟨hw, hlook⟩, heq⟩ := Option.ite_none_right_eq_some.mp he
    cases heq
    refine ⟨t, _, by simp [hw], rfl, rfl, fun hfull => ?_⟩
    rw [← hlook, hfull, hw]
    decide
  | getRequest t null =>
    obtain ⟨hw, heq⟩ := Option.ite_none_right_eq_some.mp he
    cases heq
    refine ⟨t, _, by simp [hw], rfl, rfl, fun _ => ?_⟩
    rw [hw]
    cases null <;> decide
  | executeRequest t error =>
    obtain ⟨hw, heq⟩ := Option.ite_none_right_eq_some.mp he
    cases heq
    refine ⟨t, _, by simp [hw], rfl, rfl, fun _ => ?_⟩
    rw [hw]
    cases error <;> decide
  | finish t =>
    rw [txStep] at he
    split at he
    · next null hw =>
      cases he
      refine ⟨t, _, by simp [hw], rfl, rfl, fun _ => ?_⟩
      rw [hw]
      exact Nat.lt_add_one _
    · cases he
  | check t timeLimit error =>
    rw [txStep] at he
    split at he
    · next null hw =>
      cases he
      refine ⟨t, _, by simp [hw], rfl, rfl, fun _ => ?_⟩
      rw [hw]
      split
      · exact Nat.two_pos
      · exact Nat.one_lt_two
    · cases he

theorem txStep_queue {e : QueueEvent n} {v : TxState n} (he : txStep maxLen s.tx (.queue e) = some v) :
    queueStep maxLen s.tx.queue e = some v.queue ∧
      ((∀ t taken, e ≠ .dequeue t taken) ∧ v.workers = s.tx.workers ∨
        ∃ t taken, e = .dequeue t taken ∧ s.tx.workers t = .waiting ∧
          v.workers = Function.update s.tx.workers t .dequeued) := by
  obtain ⟨queue, hq, hafter⟩ := Option.bind_eq_some_iff.mp he
  cases e with
  | dequeue t taken =>
    obtain ⟨hw, heq⟩ := Option.ite_none_right_eq_some.mp hafter
    cases heq
    exact ⟨hq, .inr ⟨t, taken, rfl, hw, rfl⟩⟩
  | _ =>
    cases hafter
    exact ⟨hq, .inl ⟨by simp, rfl⟩⟩

theorem posixStep_moved (he : posixStep maxLen s e = some u) : PosixMoved maxLen s e u := by
  cases e with
  | tx e =>
    obtain ⟨ha, hmap⟩ := Option.ite_none_right_eq_some.mp he
    obtain ⟨v, hv, rfl⟩ := Option.map_eq_some_iff.mp hmap
    by_cases hqueue : ∃ f, e = .queue f
    · obtain ⟨f, rfl⟩ := hqueue
      obtain ⟨hq, ⟨hne, hw⟩ | ⟨t, taken, rfl, hw, hu⟩⟩ := txStep_queue hv
      · refine .gen hq hw hne ?_
        rintro rfl
        cases ha
      · exact .dequeue (PosixTx.mem_coming.mpr ⟨hw, by simpa [PosixTx.allows] using ha⟩) hq hu
    · by_cases hreport : ∃ l c, e = .report l c
      · obtain ⟨l, c, rfl⟩ := hreport
        obtain ⟨-, heq⟩ := Option.ite_none_right_eq_some.mp hv
        cases heq
        exact .report
      · obtain ⟨t, w, hw, hq, hu, hleft⟩ := txStep_own hv (fun f hf => hqueue ⟨f, hf⟩)
          fun l c hlc => hreport ⟨l, c, hlc⟩
        refine .own hw hq hu hleft fun i => ?_
        cases e with
        | queue f => exact absurd ⟨f, rfl⟩ hqueue
        | _ => rfl
  | append woken =>
    obtain ⟨hwoken, hmap⟩ := Option.ite_none_right_eq_some.mp he
    obtain ⟨v, hv, rfl⟩ := Option.map_eq_some_iff.mp hmap
    obtain ⟨hq, ⟨-, hw⟩ | ⟨t, taken, heq, -⟩⟩ := txStep_queue hv
    · exact .append hwoken hq hw
    · cases heq
  | sleep t =>
    obtain ⟨⟨hw, hb, hempty⟩, heq⟩ := Option.ite_none_right_eq_some.mp he
    cases heq
    exact .sleep (PosixTx.mem_coming.mpr ⟨hw, hb⟩) hempty
  | wake t =>
    obtain ⟨ht, heq⟩ := Option.ite_none_right_eq_some.mp he
    cases heq
    exact .wake ht

/-- Only appending fills the queue. -/
theorem queueStep_full {q q' : EventQueue} {e : QueueEvent n} (hq : queueStep maxLen q e = some q') :
    q'.queueIsFull = q.queueIsFull ∨
      e = .append ∧ (∃ i, q'.gen = .advance i) ∧ maxLen ≤ q'.eventQueueLength := by
  cases e with
  | stamp time =>
    rw [queueStep] at hq
    split at hq
    · cases hq
      exact .inl rfl
    · cases hq
  | append =>
    rw [queueStep] at hq
    split at hq
    · next i _ =>
      cases hq
      rw [EventQueue.append]
      dsimp only
      split
      · next hle => exact .inr ⟨rfl, ⟨i, rfl⟩, hle⟩
      · exact .inl rfl
    · cases hq
  | advance =>
    rw [queueStep] at hq
    split at hq
    · cases hq
      exact .inl rfl
    · cases hq
  | dequeue t taken =>
    obtain ⟨-, heq⟩ := Option.ite_none_right_eq_some.mp hq
    cases heq
    rw [EventQueue.dequeue]
    split <;> exact .inl rfl

/-! ## Nobody sleeps while events wait -/

/-- If a worker sleeps, there are at least as many workers on their way to the queue as there are
events in it. -/
structure Watched (s : PosixTx n) : Prop where
  waits : ∀ t, s.blocked t → s.tx.workers t = .waiting
  attended : (∃ t, s.blocked t) → s.tx.queue.eventQueueLength ≤ s.coming.card

theorem watched_init (links : Links (Option ℕ)) : Watched (initPosixTx n links) where
  waits _ h := by cases h
  attended := fun ⟨_, h⟩ => by cases h

theorem coming_congr (hw : u.tx.workers = s.tx.workers) (hb : u.blocked = s.blocked) :
    u.coming = s.coming := by
  rw [PosixTx.coming, PosixTx.coming, hw, hb]

theorem coming_dequeue (ht : t ∈ s.coming)
    (hu : u.tx.workers = Function.update s.tx.workers t .dequeued) (hb : u.blocked = s.blocked) :
    u.coming.card + 1 = s.coming.card := by
  have herase : u.coming = s.coming.erase t := by
    ext i
    rw [Finset.mem_erase, PosixTx.mem_coming, PosixTx.mem_coming, hu, hb]
    by_cases hi : i = t
    · subst hi
      simp
    · rw [Function.update_of_ne hi]
      simp [hi]
  rw [herase]
  exact Finset.card_erase_add_one ht

theorem coming_own {w : TxWorker} (hw : s.tx.workers t ≠ .waiting)
    (hu : u.tx.workers = Function.update s.tx.workers t w) (hb : u.blocked = s.blocked) :
    s.coming ⊆ u.coming := by
  intro i hi
  obtain ⟨hwait, hfree⟩ := PosixTx.mem_coming.mp hi
  have hne : i ≠ t := fun heq => hw (heq ▸ hwait)
  rw [PosixTx.mem_coming, hu, hb, Function.update_of_ne hne]
  exact ⟨hwait, hfree⟩

theorem Watched.append {woken : Fin n → Bool} {v : TxState n} (h : Watched s)
    (hwoken : s.Unblocks woken) (hq : queueStep maxLen s.tx.queue (@QueueEvent.append n) = some v.queue)
    (hw : v.workers = s.tx.workers) : Watched ⟨v, fun t => s.blocked t && !woken t⟩ := by
  refine ⟨fun t ht => ?_, fun hasleep => ?_⟩
  · rw [hw]
    exact h.waits t (Bool.and_eq_true_iff.mp ht).1
  · obtain ⟨i, hi⟩ := hasleep
    have hbefore : ∃ t, s.blocked t := ⟨i, (Bool.and_eq_true_iff.mp hi).1⟩
    obtain ⟨j, hj⟩ := hwoken.2 hbefore
    have hmore : insert j s.coming ⊆
        PosixTx.coming ⟨v, fun t => s.blocked t && !woken t⟩ := by
      intro k hk
      rw [PosixTx.mem_coming, hw]
      rcases Finset.mem_insert.mp hk with rfl | hk
      · exact ⟨h.waits k (hwoken.1 k hj), by simp [hj]⟩
      · obtain ⟨hwait, hfree⟩ := PosixTx.mem_coming.mp hk
        exact ⟨hwait, by simp [hfree]⟩
    have hnew : j ∉ s.coming := fun hmem => by
      have hfree := (PosixTx.mem_coming.mp hmem).2
      rw [hwoken.1 j hj] at hfree
      cases hfree
    have hlength : v.queue.eventQueueLength = s.tx.queue.eventQueueLength + 1 :=
      queueStep_length (by simp) hq
    have hcard := Finset.card_le_card hmore
    rw [Finset.card_insert_of_notMem hnew] at hcard
    have := h.attended hbefore
    simp only
    omega

theorem Watched.step (h : Watched s) (hqueue : QueueRuns n maxLen s.tx.queue) (hmax : 0 < maxLen)
    (he : posixStep maxLen s e = some u) : Watched u := by
  cases posixStep_moved he with
  | @gen e v hq hw hne happend =>
    have hlength := queueStep_length hne hq
    have hsame : (TxEvent.queue e).isAppend = false := by
      cases e with
      | append => exact absurd rfl happend
      | _ => rfl
    rw [hsame] at hlength
    refine ⟨fun t ht => ?_, fun hasleep => ?_⟩
    · exact (congrFun hw t).trans (h.waits t ht)
    · rw [@coming_congr n s { s with tx := v } hw rfl]
      exact hlength.le.trans (h.attended hasleep)
  | @dequeue t taken v ht hq hu =>
    refine ⟨fun i hi => ?_, fun hasleep => ?_⟩
    · have hne : i ≠ t := fun heq => by
        have hfree := (PosixTx.mem_coming.mp ht).2
        rw [← heq, hi] at hfree
        cases hfree
      exact (congrFun hu i).trans ((Function.update_of_ne hne _ _).trans (h.waits i hi))
    · obtain ⟨d, k, es, hstored, hordered⟩ := hqueue
      have hsome : taken ≠ none := by
        rintro rfl
        exact (hstored.step hmax hordered hq).1 t rfl
      have hlength := queueStep_taken hsome hq
      have hcoming := @coming_dequeue n s { s with tx := v } t ht hu rfl
      have := h.attended hasleep
      simp only
      omega
  | @own e t w v hw hq hu =>
    refine ⟨fun i hi => ?_, fun hasleep => ?_⟩
    · have hne : i ≠ t := fun heq => hw (heq ▸ h.waits i hi)
      exact (congrFun hu i).trans ((Function.update_of_ne hne _ _).trans (h.waits i hi))
    · have hsub := @coming_own n s { s with tx := v } t w hw hu rfl
      have hlength : v.queue.eventQueueLength = s.tx.queue.eventQueueLength := by rw [hq]
      exact hlength.le.trans ((h.attended hasleep).trans (Finset.card_le_card hsub))
  | report => exact h
  | append hwoken hq hw => exact h.append hwoken hq hw
  | @sleep t ht hempty =>
    refine ⟨fun i hi => ?_, fun _ => ?_⟩
    · by_cases hit : i = t
      · rw [hit]
        exact (PosixTx.mem_coming.mp ht).1
      · exact h.waits i (by simpa [hit] using hi)
    · exact hempty.le.trans (Nat.zero_le _)
  | @wake t ht =>
    have hback : ∀ i, Function.update s.blocked t false i = true → s.blocked i = true := by
      intro i hi
      by_cases hit : i = t
      · rw [hit]
        exact ht
      · simpa [hit] using hi
    refine ⟨fun i hi => h.waits i (hback i hi), fun ⟨i, hi⟩ => ?_⟩
    refine (h.attended ⟨i, hback i hi⟩).trans (Finset.card_le_card fun j hj => ?_)
    obtain ⟨hwait, hfree⟩ := PosixTx.mem_coming.mp hj
    refine PosixTx.mem_coming.mpr ⟨hwait, ?_⟩
    by_cases hjt : j = t
    · simp [hjt]
    · simp [hjt, hfree]

/-! ## The generator has given up -/

/-- With the queue full nobody sleeps, and there is an event for everyone who comes. -/
structure Served (s : PosixTx n) : Prop where
  stopped : (∃ i, s.tx.queue.gen = .advance i) ∨ s.tx.queue.gen = .stopped
  awake : ∀ t, s.blocked t = false
  enough : s.coming.card ≤ s.tx.queue.eventQueueLength

theorem coming_card_le (s : PosixTx n) : s.coming.card ≤ n :=
  (Finset.card_le_univ _).trans (Fintype.card_fin n).le

/-- The event that fills the queue finds everyone awake. -/
theorem Watched.served (h : Watched s) (hn : n ≤ maxLen) (hle : maxLen ≤ s.tx.queue.eventQueueLength)
    (hgen : (∃ i, s.tx.queue.gen = .advance i) ∨ s.tx.queue.gen = .stopped) : Served s := by
  refine ⟨hgen, fun t => ?_, ((coming_card_le s).trans hn).trans hle⟩
  by_contra hblocked
  have hasleep : s.blocked t = true := by simpa using hblocked
  have hsub : s.coming ⊆ Finset.univ.erase t := by
    intro i hi
    refine Finset.mem_erase.mpr ⟨fun heq => ?_, Finset.mem_univ i⟩
    have hfree := (PosixTx.mem_coming.mp hi).2
    rw [heq, hasleep] at hfree
    cases hfree
  have hcard := Finset.card_le_card hsub
  rw [Finset.card_erase_of_mem (Finset.mem_univ t), Finset.card_univ, Fintype.card_fin] at hcard
  have hattended := h.attended ⟨t, hasleep⟩
  have hpos : 0 < n := t.pos
  omega

/-- With the queue full the generator only goes to its end. -/
theorem queueStep_stopped {q q' : EventQueue} {e : QueueEvent n}
    (hgen : (∃ i, q.gen = .advance i) ∨ q.gen = .stopped) (hfull : q.queueIsFull = true)
    (hq : queueStep maxLen q e = some q') (hne : ∀ t taken, e ≠ .dequeue t taken) :
    q'.gen = .stopped ∧ q'.queueIsFull = true ∧ q'.eventQueueLength = q.eventQueueLength := by
  cases e with
  | stamp time =>
    rcases hgen with ⟨i, hgen⟩ | hgen
    · rw [queueStep, hgen] at hq
      cases hq
    · rw [queueStep, hgen] at hq
      cases hq
  | append =>
    rcases hgen with ⟨i, hgen⟩ | hgen
    · rw [queueStep, hgen] at hq
      cases hq
    · rw [queueStep, hgen] at hq
      cases hq
  | advance =>
    rcases hgen with ⟨i, hgen⟩ | hgen
    · rw [queueStep, hgen] at hq
      cases hq
      rw [EventQueue.advance, hfull]
      exact ⟨rfl, rfl, rfl⟩
    · rw [queueStep, hgen] at hq
      cases hq
  | dequeue t taken => exact absurd rfl (hne t taken)

theorem stepsLeft_le (w : TxWorker) : w.stepsLeft ≤ 6 := by
  cases w <;> simp [TxWorker.stepsLeft]

theorem TxState.stepsLeft_move {v w : TxWorker} {x : TxState n} (hv : s.tx.workers t = v)
    (hx : x.workers = Function.update s.tx.workers t w) (hlt : w.stepsLeft < v.stepsLeft) :
    total TxWorker.stepsLeft x.workers + 1 ≤ total TxWorker.stepsLeft s.tx.workers := by
  have htotal := total_update TxWorker.stepsLeft s.tx.workers t w
  rw [hv, ← hx] at htotal
  omega

theorem Served.step (h : Served s) (hfull : s.tx.queue.queueIsFull = true)
    (hqueue : QueueRuns n maxLen s.tx.queue) (hmax : 0 < maxLen)
    (he : posixStep maxLen s e = some u) :
    Served u ∧ u.tx.queue.queueIsFull = true ∧
      total TxWorker.stepsLeft u.tx.workers + e.isWorker.toNat ≤
        total TxWorker.stepsLeft s.tx.workers := by
  cases posixStep_moved he with
  | @gen e v hq hw hne happend =>
    obtain ⟨hgen, hfull', hlength⟩ := queueStep_stopped h.stopped hfull hq hne
    have hworker : (PosixEvent.tx (TxEvent.queue e)).isWorker = false := by
      cases e with
      | dequeue t taken => exact absurd rfl (hne t taken)
      | _ => rfl
    refine ⟨⟨.inr hgen, h.awake, ?_⟩, hfull', ?_⟩
    · rw [@coming_congr n s { s with tx := v } hw rfl]
      exact h.enough.trans hlength.ge
    · rw [hworker, hw]
      exact le_rfl
  | @dequeue t taken v ht hq hu =>
    obtain ⟨d, k, es, hstored, hordered⟩ := hqueue
    have hsome : taken ≠ none := by
      rintro rfl
      exact (hstored.step hmax hordered hq).1 t rfl
    have hlength := queueStep_taken hsome hq
    have hcoming := @coming_dequeue n s { s with tx := v } t ht hu rfl
    have henough := h.enough
    have hgen : v.queue.gen = s.tx.queue.gen := by
      rcases queueStep_gen hq with ⟨⟨_, heq⟩, -⟩ | ⟨heq, -⟩ | heq | ⟨-, -, -, hgen⟩
      · cases heq
      · cases heq
      · cases heq
      · exact hgen
    have hfull' : v.queue.queueIsFull = true := by
      rcases queueStep_full hq with hsame | ⟨heq, -⟩
      · rw [hsame, hfull]
      · cases heq
    refine ⟨⟨?_, h.awake, ?_⟩, hfull', ?_⟩
    · rw [hgen]
      exact h.stopped
    · simp only
      omega
    · exact TxState.stepsLeft_move (PosixTx.mem_coming.mp ht).1 hu (by decide)
  | @own e t w v hw hq hu hleft =>
    have hsub : PosixTx.coming { s with tx := v } ⊆ s.coming := by
      intro i hi
      obtain ⟨hwait, hfree⟩ := PosixTx.mem_coming.mp hi
      have hne : i ≠ t := by
        rintro rfl
        have hw' : w = .waiting := by
          rw [← hwait, hu, Function.update_self]
        have hlt := (hleft hfull).trans_le (stepsLeft_le _)
        rw [hw'] at hlt
        exact lt_irrefl _ hlt
      rw [hu, Function.update_of_ne hne] at hwait
      exact PosixTx.mem_coming.mpr ⟨hwait, hfree⟩
    refine ⟨⟨?_, h.awake, ?_⟩, ?_, ?_⟩
    · rw [hq]
      exact h.stopped
    · refine (Finset.card_le_card hsub).trans ?_
      rw [hq]
      exact h.enough
    · rw [hq]
      exact hfull
    · refine le_trans ?_ (TxState.stepsLeft_move rfl hu (hleft hfull))
      exact Nat.add_le_add_left (Bool.toNat_le _) _
  | report => exact ⟨h, hfull, le_rfl⟩
  | append hwoken hq hw =>
    rcases h.stopped with ⟨i, hgen⟩ | hgen
    · rw [queueStep, hgen] at hq
      cases hq
    · rw [queueStep, hgen] at hq
      cases hq
  | @sleep t ht hempty =>
    have hone := Finset.card_pos.mpr ⟨t, ht⟩
    have henough := h.enough
    omega
  | @wake t ht =>
    rw [h.awake] at ht
    cases ht

/-- A worker that takes an event with the queue full does not come back for another one. -/
theorem mayTake_step (hfull : s.tx.queue.queueIsFull = true)
    (he : posixStep maxLen s e = some u) (i : Fin n) :
    (u.tx.workers i).mayTake + (e.takes i).toNat ≤ (s.tx.workers i).mayTake := by
  cases posixStep_moved he with
  | @gen e v hq hw hne happend =>
    have htakes : (PosixEvent.tx (TxEvent.queue e)).takes i = false := by
      cases e with
      | dequeue t taken => exact absurd rfl (hne t taken)
      | _ => rfl
    rw [htakes, hw]
    exact le_rfl
  | @dequeue t taken v ht hq hu =>
    rw [hu]
    by_cases hi : i = t
    · subst hi
      rw [Function.update_self, (PosixTx.mem_coming.mp ht).1]
      exact Nat.add_le_add_left (Bool.toNat_le _) 0
    · rw [Function.update_of_ne hi,
        show (PosixEvent.tx (.queue (.dequeue t taken))).takes i = false from
          decide_eq_false (Ne.symm hi)]
      exact le_rfl
  | @own e t w v hw hq hu hleft htakes =>
    rw [htakes i, hu]
    by_cases hi : i = t
    · subst hi
      have hlt := (hleft hfull).trans_le (stepsLeft_le _)
      rw [Function.update_self]
      cases w with
      | waiting => exact absurd hlt (Nat.lt_irrefl 6)
      | _ => exact Nat.zero_le _
    · rw [Function.update_of_ne hi]
      exact le_rfl
  | append hwoken hq hw =>
    simp only [hw]
    exact Nat.le_refl _
  | report | sleep | wake => exact Nat.le_refl _

end Steps

/-! ## Runs -/

section Running

variable {maxLen : ℕ} {s u : PosixTx n}

structure PosixInv (maxLen : ℕ) (s : PosixTx n) : Prop where
  queue : QueueRuns n maxLen s.tx.queue
  watched : Watched s
  served : n ≤ maxLen → s.tx.queue.queueIsFull = true → Served s

theorem posixInv_init (hmax : 0 < maxLen) (links : Links (Option ℕ)) :
    PosixInv maxLen (initPosixTx n links) where
  queue := by
    refine ⟨0, 0, [], stored_init hmax links, ?_⟩
    simp [Ordered, generated, dequeued, slots, EventQueue.stamped, initEventQueue, initPosixTx,
      initTx]
  watched := watched_init links
  served _ h := by cases h

theorem PosixInv.step {e : PosixEvent n} (hmax : 0 < maxLen) (h : PosixInv maxLen s)
    (he : posixStep maxLen s e = some u) : PosixInv maxLen u := by
  have hruns : ∀ {e : QueueEvent n} {q : EventQueue}, queueStep maxLen s.tx.queue e = some q →
      QueueRuns n maxLen q := by
    intro e q hq
    obtain ⟨d, k, es, hstored, hordered⟩ := h.queue
    obtain ⟨-, d', k', hstored', hordered'⟩ := hstored.step hmax hordered hq
    exact ⟨d', k', es ++ [e], hstored', hordered'⟩
  have hwatched := h.watched.step h.queue hmax he
  refine ⟨?_, hwatched, fun hn hfull => ?_⟩
  · cases posixStep_moved he with
    | gen hq => exact hruns hq
    | dequeue ht hq => exact hruns hq
    | own hw hq =>
      simp only [hq]
      exact h.queue
    | append hwoken hq => exact hruns hq
    | report | sleep | wake => exact h.queue
  · by_cases hbefore : s.tx.queue.queueIsFull = true
    · exact ((h.served hn hbefore).step hbefore h.queue hmax he).1
    · have hnew : ∀ {e : QueueEvent n} {q : EventQueue}, queueStep maxLen s.tx.queue e = some q →
          q.queueIsFull = true →
          e = .append ∧ (∃ i, q.gen = .advance i) ∧ maxLen ≤ q.eventQueueLength := by
        intro e q hq hq'
        rcases queueStep_full hq with hsame | happend
        · exact absurd (hsame ▸ hq') hbefore
        · exact happend
      cases posixStep_moved he with
      | gen hq hw hne happend => exact absurd (hnew hq hfull).1 happend
      | dequeue ht hq => cases (hnew hq hfull).1
      | own hw hq =>
        rw [hq] at hfull
        exact absurd hfull hbefore
      | append hwoken hq =>
        obtain ⟨-, hgen, hle⟩ := hnew hq hfull
        exact hwatched.served hn hle (.inl hgen)
      | report | sleep | wake => exact absurd hfull hbefore

theorem posixInv_of_run {links : Links (Option ℕ)} {es : List (PosixEvent n)} (hmax : 0 < maxLen)
    (hr : run (posixStep maxLen) (initPosixTx n links) es = some s) : PosixInv maxLen s :=
  run_preserves (I := PosixInv maxLen) (fun _ _ _ h he => h.step hmax he)
    (posixInv_init hmax links) hr

/-- However many workers a signal wakes and however often one wakes for nothing: as long as a
worker sleeps, there are at least as many workers on their way to the queue as it holds events. -/
theorem sleepers_outnumbered {links : Links (Option ℕ)} {es : List (PosixEvent n)} (hmax : 0 < maxLen)
    (hr : run (posixStep maxLen) (initPosixTx n links) es = some s) {t : Fin n}
    (ht : s.blocked t = true) : s.tx.queue.eventQueueLength ≤ s.coming.card :=
  (posixInv_of_run hmax hr).watched.attended ⟨t, ht⟩

/-- A worker that sees a full queue can always go on. -/
theorem Served.left_of_stuck (h : Served s)
    (hfull : s.tx.queue.queueIsFull = true)
    (hstuck : ∀ e : PosixEvent n, e.isWorker → posixStep maxLen s e = none) (t : Fin n) :
    s.tx.workers t = .left := by
  have hnone : ∀ e : TxEvent n, e.isWorker → s.allows e → txStep maxLen s.tx e = none := by
    intro e hworker ha
    have hnone := hstuck (.tx e) hworker
    rw [posixStep, if_pos ha, Option.map_eq_none_iff] at hnone
    exact hnone
  cases hw : s.tx.workers t with
  | top =>
    have hlook := hnone (.look t true) rfl rfl
    rw [txStep, if_pos ⟨hw, hfull⟩] at hlook
    cases hlook
  | waiting =>
    have hmem : t ∈ s.coming := PosixTx.mem_coming.mpr ⟨hw, h.awake t⟩
    have hpos : 0 < s.tx.queue.eventQueueLength := (Finset.card_pos.mpr ⟨t, hmem⟩).trans_le h.enough
    have htake := hnone (.queue (.dequeue t s.tx.queue.dequeue.1)) rfl
      (by simp [PosixTx.allows, h.awake t])
    rw [txStep, queueStep, if_pos ⟨hpos, rfl⟩] at htake
    simp only [Option.bind_some, if_pos hw] at htake
    cases htake
  | dequeued =>
    have hget := hnone (.getRequest t true) rfl rfl
    rw [txStep, if_pos hw] at hget
    cases hget
  | executing =>
    have hexecute := hnone (.executeRequest t true) rfl rfl
    rw [txStep, if_pos hw] at hexecute
    cases hexecute
  | executed null =>
    have hfinish := hnone (.finish t) rfl rfl
    rw [txStep, hw] at hfinish
    cases hfinish
  | finished null =>
    have hcheck := hnone (.check t true true) rfl rfl
    rw [txStep, hw] at hcheck
    cases hcheck
  | left => rfl

/-- Once the queue is full nobody sleeps any more, though the generator wakes nobody: every worker
takes at most one more event, and leaves its loop after a few steps. -/
theorem full_queue_ends {links : Links (Option ℕ)} {es : List (PosixEvent n)} (hmax : 0 < maxLen)
    (hn : n ≤ maxLen) (hr : run (posixStep maxLen) (initPosixTx n links) es = some s)
    (hfull : s.tx.queue.queueIsFull = true) {fs : List (PosixEvent n)}
    (hrest : run (posixStep maxLen) s fs = some u) :
    (∀ t, u.blocked t = false) ∧ fs.countP PosixEvent.isWorker ≤ 6 * n ∧
      (∀ t, fs.countP (PosixEvent.takes t) ≤ 1) ∧
      ((∀ e : PosixEvent n, e.isWorker → posixStep maxLen u e = none) →
        ∀ t, u.tx.workers t = .left) := by
  have hinv := posixInv_of_run hmax hr
  obtain ⟨-, hserved, hfull', hsteps, htakes⟩ : PosixInv maxLen u ∧ Served u ∧
      u.tx.queue.queueIsFull = true ∧
      total TxWorker.stepsLeft u.tx.workers + fs.countP PosixEvent.isWorker ≤
        total TxWorker.stepsLeft s.tx.workers ∧
      ∀ t, (u.tx.workers t).mayTake + fs.countP (PosixEvent.takes t) ≤
        (s.tx.workers t).mayTake := by
    refine run_invariant (I := fun fs u => PosixInv maxLen u ∧ Served u ∧
      u.tx.queue.queueIsFull = true ∧
      total TxWorker.stepsLeft u.tx.workers + fs.countP PosixEvent.isWorker ≤
        total TxWorker.stepsLeft s.tx.workers ∧
      ∀ t, (u.tx.workers t).mayTake + fs.countP (PosixEvent.takes t) ≤
        (s.tx.workers t).mayTake)
      ⟨hinv, hinv.served hn hfull, hfull, le_rfl, fun t => le_rfl⟩ ?_ hrest
    rintro fs u e v - ⟨hinv, hserved, hfull, hsteps, htakes⟩ he
    obtain ⟨hserved', hfull', hless⟩ := hserved.step hfull hinv.queue hmax he
    refine ⟨hinv.step hmax he, hserved', hfull', ?_, fun t => ?_⟩
    · rw [List.countP_append, List.countP_singleton]
      cases hworker : e.isWorker with
      | true =>
        rw [hworker] at hless
        simp only [Bool.toNat_true, if_true] at hless ⊢
        omega
      | false =>
        rw [hworker] at hless
        simp only [Bool.toNat_false, Bool.false_eq_true, if_false] at hless ⊢
        omega
    · have hone := mayTake_step hfull he t
      have hbefore := htakes t
      rw [List.countP_append, List.countP_singleton]
      cases htake : e.takes t with
      | true =>
        rw [htake] at hone
        simp only [Bool.toNat_true, if_true] at hone ⊢
        omega
      | false =>
        rw [htake] at hone
        simp only [Bool.toNat_false, Bool.false_eq_true, if_false] at hone ⊢
        omega
  have hbound : total TxWorker.stepsLeft s.tx.workers ≤ 6 * n := by
    calc total TxWorker.stepsLeft s.tx.workers ≤ ∑ _t : Fin n, 6 :=
          Finset.sum_le_sum fun t _ => stepsLeft_le _
      _ = 6 * n := by simp [Nat.mul_comm]
  refine ⟨hserved.awake, by omega, fun t => ?_, fun hstuck => hserved.left_of_stuck hfull' hstuck⟩
  have hone : (s.tx.workers t).mayTake ≤ 1 := by
    cases s.tx.workers t <;> simp [TxWorker.mayTake]
  have := htakes t
  omega

end Running

/-- Both workers sleep when the first event comes, and its signal wakes one of them. -/
def twoSleepers : List (PosixEvent 2) :=
  [.tx (.look 0 false), .sleep 0, .tx (.look 1 false), .sleep 1, .tx (.queue (.stamp 5)),
    .append fun t => t = 1]

theorem sleepers_outnumbered_two : ∃ s,
    run (posixStep 2) (initPosixTx 2 ⟨id, id⟩) twoSleepers = some s ∧
      s.tx.queue.eventQueueLength = 1 ∧ s.blocked 0 = true ∧
      s.tx.queue.eventQueueLength ≤ s.coming.card := by
  obtain ⟨s, hs, hlength, hblocked⟩ : ∃ s,
      run (posixStep 2) (initPosixTx 2 ⟨id, id⟩) twoSleepers = some s ∧
        s.tx.queue.eventQueueLength = 1 ∧ s.blocked 0 = true := ⟨_, rfl, rfl, rfl⟩
  exact ⟨s, hs, hlength, hblocked, sleepers_outnumbered Nat.two_pos hs hblocked⟩

/-- The first event wakes one worker and the second one the other. -/
def twoWoken : List (PosixEvent 2) :=
  twoSleepers ++ [.tx (.queue .advance), .tx (.queue (.stamp 6)), .append fun t => t = 0]

theorem full_queue_ends_two : ∃ s,
    run (posixStep 2) (initPosixTx 2 ⟨id, id⟩) twoWoken = some s ∧
      ∀ fs u, run (posixStep 2) s fs = some u →
        (∀ t, u.blocked t = false) ∧ fs.countP PosixEvent.isWorker ≤ 6 * 2 ∧
          (∀ t, fs.countP (PosixEvent.takes t) ≤ 1) ∧
          ((∀ e : PosixEvent 2, e.isWorker → posixStep 2 u e = none) →
            ∀ t, u.tx.workers t = .left) := by
  obtain ⟨s, hs, hfull⟩ : ∃ s,
      run (posixStep 2) (initPosixTx 2 ⟨id, id⟩) twoWoken = some s ∧
        s.tx.queue.queueIsFull = true := ⟨_, rfl, rfl⟩
  exact ⟨s, hs, fun fs u hu => full_queue_ends Nat.two_pos le_rfl hs hfull hu⟩

end Sysbench.Core
