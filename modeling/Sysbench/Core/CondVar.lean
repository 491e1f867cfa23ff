import Sysbench.Machine.Pool
import Sysbench.Machine.Runs

/-! # Condition variables on Windows

The port of condition variables counts its waiters and wakes them with two Windows events. An
event is a mark: setting it again does nothing, and the waiter that takes the mark of the
automatic event resets it. A section under `lock_waiting` is one step.
-/
namespace Sysbench.Core

open Pool Runs

inductive CondEvent where
  /-- reset automatically -/
  | signal
  /-- reset by hand -/
  | broadcast
  deriving DecidableEq, Repr

structure Cond where
  waiting : ℕ
  events : CondEvent → Bool
  broadcastBlockEvent : Bool

def pthreadCondInit : Cond where
  waiting := 0
  events _ := false
  broadcastBlockEvent := true

def pthreadCondSignal (cond : Cond) : Cond :=
  if 0 < cond.waiting then { cond with events := Function.update cond.events .signal true } else cond

def pthreadCondBroadcast (cond : Cond) : Cond :=
  if 0 < cond.waiting then
    { cond with
      broadcastBlockEvent := false
      events := Function.update cond.events .broadcast true }
  else cond

/-- The event with the lowest index ends the wait. -/
def waitForMultipleObjects (cond : Cond) : Option CondEvent :=
  if cond.events .signal then some .signal else if cond.events .broadcast then some .broadcast else none

def Cond.take (cond : Cond) : CondEvent → Cond
  | .signal => { cond with events := Function.update cond.events .signal false }
  | .broadcast => cond

/-- The section of `pthread_cond_timedwait` behind the wait. -/
def Cond.stopWaiting (cond : Cond) (result : CondEvent) : Cond :=
  if cond.waiting - 1 = 0 ∧ result = .broadcast then
    -- the last waiter closes the broadcast gate and opens the block gate
    { waiting := cond.waiting - 1
      events := Function.update cond.events .broadcast false
      broadcastBlockEvent := true }
  else { cond with waiting := cond.waiting - 1 }

inductive WaitPlace where
  | outside
  /-- about to wait for `broadcast_block_event` -/
  | gate
  | counting
  /-- about to leave the mutex -/
  | leaving
  /-- in `WaitForMultipleObjects`, or about to call it -/
  | blocked
  | released (result : CondEvent)
  /-- about to enter the mutex -/
  | entering
  deriving DecidableEq, Repr

structure Sync (T : Type*) where
  cond : Cond
  mutex : Option T
  place : T → WaitPlace

def initSync (T : Type*) : Sync T where
  cond := pthreadCondInit
  mutex := none
  place _ := .outside

inductive SyncEvent (T : Type*) where
  /-- `pthread_mutex_lock` and `pthread_mutex_unlock` -/
  | lock (t : T)
  | unlock (t : T)
  /-- the call of `pthread_cond_wait` -/
  | wait (t : T)
  | passGate (t : T)
  | count (t : T)
  | leave (t : T)
  /-- `WaitForMultipleObjects` returns -/
  | wake (t : T) (result : CondEvent)
  | uncount (t : T)
  | enter (t : T)
  | signal (t : T)
  | broadcast (t : T)
  deriving DecidableEq

variable {T : Type*} [DecidableEq T]

def Sync.walk (s : Sync T) (t : T) (p : WaitPlace) : Sync T :=
  { s with place := Function.update s.place t p }

def syncStep (s : Sync T) : SyncEvent T → Option (Sync T)
  | .lock t => if s.place t = .outside ∧ s.mutex = none then some { s with mutex := some t } else none
  | .unlock t =>
    if s.place t = .outside ∧ s.mutex = some t then some { s with mutex := none } else none
  | .wait t => if s.place t = .outside ∧ s.mutex = some t then some (s.walk t .gate) else none
  | .passGate t =>
    if s.place t = .gate ∧ s.cond.broadcastBlockEvent then some (s.walk t .counting) else none
  | .count t =>
    if s.place t = .counting then
      some { s.walk t .leaving with cond := { s.cond with waiting := s.cond.waiting + 1 } }
    else none
  | .leave t =>
    if s.place t = .leaving ∧ s.mutex = some t then some { s.walk t .blocked with mutex := none }
    else none
  | .wake t result =>
    if s.place t = .blocked ∧ waitForMultipleObjects s.cond = some result then
      some { s.walk t (.released result) with cond := s.cond.take result }
    else none
  | .uncount t =>
    match s.place t with
    | .released result => some { s.walk t .entering with cond := s.cond.stopWaiting result }
    | _ => none
  | .enter t =>
    if s.place t = .entering ∧ s.mutex = none then some { s.walk t .outside with mutex := some t }
    else none
  | .signal t =>
    if s.place t = .outside then some { s with cond := pthreadCondSignal s.cond } else none
  | .broadcast t =>
    if s.place t = .outside then some { s with cond := pthreadCondBroadcast s.cond } else none

def SyncEvent.isInside : SyncEvent T → Bool
  | .passGate _ | .count _ | .leave _ | .wake _ _ | .uncount _ | .enter _ => true
  | _ => false

/-- No call of `pthread_cond_wait` can go on. -/
def Sync.Quiescent (s : Sync T) : Prop :=
  ∀ e : SyncEvent T, e.isInside → syncStep s e = none

def SyncEvent.release : SyncEvent T → ℕ
  | .wake _ _ => 1
  | _ => 0

def releases (es : List (SyncEvent T)) : ℕ := (es.map SyncEvent.release).sum

def SyncEvent.isSignal : SyncEvent T → Bool
  | .signal _ => true
  | _ => false

/-- One for a call of `pthread_cond_signal` made while all of `W` are blocked. -/
def Sync.signalTo (s : Sync T) (W : Finset T) (e : SyncEvent T) : ℕ :=
  if e.isSignal ∧ ∀ t ∈ W, s.place t = .blocked then 1 else 0

/-- How many signal calls of a run are made while all of `W` are blocked. -/
def signalsTo (W : Finset T) (s : Sync T) : List (SyncEvent T) → ℕ
  | [] => 0
  | e :: es => s.signalTo W e + (syncStep s e).elim 0 fun u => signalsTo W u es

def SyncEvent.takesMark : SyncEvent T → Bool
  | .wake _ .signal => true
  | _ => false

def WaitPlace.asleep : WaitPlace → ℕ
  | .blocked => 1
  | _ => 0

def WaitPlace.counted : WaitPlace → ℕ
  | .leaving | .blocked | .released _ => 1
  | _ => 0

/-- A signal call that finds the mark of an earlier one is made while at most one thread is
blocked. -/
def Heeded [Fintype T] (s : Sync T) (e : SyncEvent T) : Prop :=
  e.isSignal → s.cond.events .signal → total WaitPlace.asleep s.place ≤ 1

instance [Fintype T] (s : Sync T) : DecidablePred (Heeded s) := fun _ => by
  unfold Heeded
  infer_instance

/-! ## What a step does -/

inductive SyncMoved (s : Sync T) : SyncEvent T → Sync T → Prop
  | lock {t : T} (hp : s.place t = .outside) (hm : s.mutex = none) :
    SyncMoved s (.lock t) { s with mutex := some t }
  | unlock {t : T} (hp : s.place t = .outside) (hm : s.mutex = some t) :
    SyncMoved s (.unlock t) { s with mutex := none }
  | wait {t : T} (hp : s.place t = .outside) (hm : s.mutex = some t) :
    SyncMoved s (.wait t) (s.walk t .gate)
  | passGate {t : T} (hp : s.place t = .gate) (hg : s.cond.broadcastBlockEvent) :
    SyncMoved s (.passGate t) (s.walk t .counting)
  | count {t : T} (hp : s.place t = .counting) : SyncMoved s (.count t)
      { s.walk t .leaving with cond := { s.cond with waiting := s.cond.waiting + 1 } }
  | leave {t : T} (hp : s.place t = .leaving) (hm : s.mutex = some t) :
    SyncMoved s (.leave t) { s.walk t .blocked with mutex := none }
  | wake {t : T} {result : CondEvent} (hp : s.place t = .blocked)
      (hr : waitForMultipleObjects s.cond = some result) : SyncMoved s (.wake t result)
      { s.walk t (.released result) with cond := s.cond.take result }
  | uncount {t : T} {result : CondEvent} (hp : s.place t = .released result) :
    SyncMoved s (.uncount t) { s.walk t .entering with cond := s.cond.stopWaiting result }
  | enter {t : T} (hp : s.place t = .entering) (hm : s.mutex = none) :
    SyncMoved s (.enter t) { s.walk t .outside with mutex := some t }
  | signal {t : T} (hp : s.place t = .outside) :
    SyncMoved s (.signal t) { s with cond := pthreadCondSignal s.cond }
  | broadcast {t : T} (hp : s.place t = .outside) :
    SyncMoved s (.broadcast t) { s with cond := pthreadCondBroadcast s.cond }

variable {s u : Sync T} {e : SyncEvent T} {t : T}

theorem syncStep_moved (he : syncStep s e = some u) : SyncMoved s e u := by
  cases e with
  | lock t =>
    obtain ⟨⟨hp, hm⟩, heq⟩ := Option.ite_none_right_eq_some.mp he
    cases heq
    exact .lock hp hm
  | unlock t =>
    obtain ⟨⟨hp, hm⟩, heq⟩ := Option.ite_none_right_eq_some.mp he
    cases heq
    exact .unlock hp hm
  | wait t =>
    obtain ⟨⟨hp, hm⟩, heq⟩ := Option.ite_none_right_eq_some.mp he
    cases heq
    exact .wait hp hm
  | passGate t =>
    obtain ⟨⟨hp, hg⟩, heq⟩ := Option.ite_none_right_eq_some.mp he
    cases heq
    exact .passGate hp hg
  | count t =>
    obtain ⟨hp, heq⟩ := Option.ite_none_right_eq_some.mp he
    cases heq
    exact .count hp
  | leave t =>
    obtain ⟨⟨hp, hm⟩, heq⟩ := Option.ite_none_right_eq_some.mp he
    cases heq
    exact .leave hp hm
  | wake t result =>
    obtain ⟨⟨hp, hr⟩, heq⟩ := Option.ite_none_right_eq_some.mp he
    cases heq
    exact .wake hp hr
  | uncount t =>
    rw [syncStep] at he
    split at he
    · cases he
      exact .uncount ‹_›
    · cases he
  | enter t =>
    obtain ⟨⟨hp, hm⟩, heq⟩ := Option.ite_none_right_eq_some.mp he
    cases heq
    exact .enter hp hm
  | signal t =>
    obtain ⟨hp, heq⟩ := Option.ite_none_right_eq_some.mp he
    cases heq
    exact .signal hp
  | broadcast t =>
    obtain ⟨hp, heq⟩ := Option.ite_none_right_eq_some.mp he
    cases heq
    exact .broadcast hp

def SyncEvent.actor : SyncEvent T → T
  | .lock t | .unlock t | .wait t | .passGate t | .count t | .leave t | .wake t _ | .uncount t
  | .enter t | .signal t | .broadcast t => t

@[simp] theorem Sync.walk_place (s : Sync T) (t : T) (p : WaitPlace) :
    (s.walk t p).place = Function.update s.place t p := rfl

@[simp] theorem Sync.walk_cond (s : Sync T) (t : T) (p : WaitPlace) : (s.walk t p).cond = s.cond := rfl

theorem Sync.walk_other (s : Sync T) (p : WaitPlace) {t i : T} (h : i ≠ t) :
    (s.walk t p).place i = s.place i := Function.update_of_ne h _ _

theorem SyncMoved.other (h : SyncMoved s e u) {i : T} (hi : i ≠ e.actor) :
    u.place i = s.place i ∧ (u.mutex = some i ↔ s.mutex = some i) := by
  have hne : ∀ t : T, i ≠ t → (some t = some i ↔ False) := fun t ht =>
    iff_false_intro fun heq => ht (Option.some.inj heq).symm
  cases h with
  | @lock t hp hm => exact ⟨rfl, by simp [hm, hne t hi]⟩
  | @unlock t hp hm => exact ⟨rfl, by simp [hm, hne t hi]⟩
  | wait | passGate | count | wake | uncount => exact ⟨s.walk_other _ hi, Iff.rfl⟩
  | @leave t hp hm => exact ⟨s.walk_other _ hi, by simp [hm, hne t hi]⟩
  | @enter t hp hm => exact ⟨s.walk_other _ hi, by simp [hm, hne t hi]⟩
  | signal | broadcast => exact ⟨rfl, Iff.rfl⟩

@[simp] theorem pthreadCondSignal_waiting (cond : Cond) :
    (pthreadCondSignal cond).waiting = cond.waiting := by
  unfold pthreadCondSignal
  split <;> rfl

@[simp] theorem pthreadCondBroadcast_waiting (cond : Cond) :
    (pthreadCondBroadcast cond).waiting = cond.waiting := by
  unfold pthreadCondBroadcast
  split <;> rfl

@[simp] theorem Cond.take_waiting (cond : Cond) (result : CondEvent) :
    (cond.take result).waiting = cond.waiting := by
  cases result <;> rfl

@[simp] theorem Cond.stopWaiting_waiting (cond : Cond) (result : CondEvent) :
    (cond.stopWaiting result).waiting = cond.waiting - 1 := by
  unfold Cond.stopWaiting
  split <;> rfl

theorem SyncMoved.mark (h : SyncMoved s e u) : u.cond.events .signal =
    if e.isSignal ∧ 0 < s.cond.waiting then true else !e.takesMark && s.cond.events .signal := by
  cases h with
  | @wake t result =>
    cases result <;> simp [SyncEvent.isSignal, SyncEvent.takesMark, Cond.take]
  | @uncount t result =>
    by_cases hlast : s.cond.waiting - 1 = 0 ∧ result = .broadcast <;>
      simp [SyncEvent.isSignal, SyncEvent.takesMark, Cond.stopWaiting, hlast]
  | signal =>
    by_cases hw : 0 < s.cond.waiting <;>
      simp [SyncEvent.isSignal, SyncEvent.takesMark, pthreadCondSignal, hw]
  | broadcast =>
    by_cases hw : 0 < s.cond.waiting <;>
      simp [SyncEvent.isSignal, SyncEvent.takesMark, pthreadCondBroadcast, hw]
  | _ => simp [SyncEvent.isSignal, SyncEvent.takesMark]

/-- Only a broadcast closes the block gate. -/
theorem SyncMoved.gate (h : SyncMoved s e u) (hgate : s.cond.broadcastBlockEvent)
    (he : ∀ t, e ≠ .broadcast t) : u.cond.broadcastBlockEvent := by
  cases h with
  | @wake t result => cases result <;> exact hgate
  | uncount =>
    dsimp only
    unfold Cond.stopWaiting
    split
    · rfl
    · exact hgate
  | signal =>
    dsimp only
    unfold pthreadCondSignal
    split <;> exact hgate
  | broadcast => exact absurd rfl (he _)
  | _ => exact hgate

section Counting

variable [Fintype T]

/-- The counter counts the threads that wait. -/
def WaitersCounted (s : Sync T) : Prop := s.cond.waiting = total WaitPlace.counted s.place

omit [DecidableEq T] in
theorem waitersCounted_init : WaitersCounted (initSync T) := (total_eq_zero fun _ => rfl).symm

theorem Sync.total_walk (cost : WaitPlace → ℕ) {t : T} {p : WaitPlace} (hp : s.place t = p)
    (q : WaitPlace) : total cost (s.walk t q).place + cost p = total cost s.place + cost q := by
  subst hp
  exact total_update cost s.place t q

theorem WaitersCounted.step (hs : WaitersCounted s) (he : syncStep s e = some u) :
    WaitersCounted u := by
  unfold WaitersCounted at hs ⊢
  have hwalk : ∀ {t p q}, s.place t = p →
      total WaitPlace.counted (s.walk t q).place + p.counted = s.cond.waiting + q.counted := by
    intro t p q hp
    rw [hs]
    exact Sync.total_walk WaitPlace.counted hp q
  cases syncStep_moved he with
  | lock | unlock => exact hs
  | wait hp => exact (@hwalk _ _ .gate hp).symm
  | passGate hp => exact (@hwalk _ _ .counting hp).symm
  | count hp => exact (@hwalk _ _ .leaving hp).symm
  | leave hp => exact (Nat.succ.inj (@hwalk _ _ .blocked hp)).symm
  | @wake t result hp =>
    rw [Cond.take_waiting]
    exact (Nat.succ.inj (@hwalk _ _ (.released result) hp)).symm
  | @uncount t result hp =>
    have htotal : total WaitPlace.counted (s.walk t .entering).place + 1 = s.cond.waiting :=
      @hwalk _ _ .entering hp
    rw [Cond.stopWaiting_waiting, ← htotal]
    rfl
  | enter hp => exact (@hwalk _ _ .outside hp).symm
  | signal =>
    rw [pthreadCondSignal_waiting]
    exact hs
  | broadcast =>
    rw [pthreadCondBroadcast_waiting]
    exact hs

theorem waitersCounted_of_run {es : List (SyncEvent T)}
    (hr : run syncStep (initSync T) es = some s) : WaitersCounted s :=
  run_preserves (I := WaitersCounted) (fun _ _ _ hs he => hs.step he) waitersCounted_init hr

omit [DecidableEq T] in
theorem WaitersCounted.asleep_le (hs : WaitersCounted s) :
    total WaitPlace.asleep s.place ≤ s.cond.waiting := by
  rw [hs]
  refine Finset.sum_le_sum fun t _ => ?_
  cases s.place t <;> simp [WaitPlace.asleep, WaitPlace.counted]

end Counting

/-! ## Releases -/

section Releases

variable {W : Finset T} {k r : ℕ}

def asleepIn (W : Finset T) (s : Sync T) : ℕ := ∑ t ∈ W, (s.place t).asleep

omit [DecidableEq T] in
theorem asleepIn_eq_card (h : ∀ t ∈ W, s.place t = .blocked) : asleepIn W s = W.card := by
  rw [asleepIn, Finset.card_eq_sum_ones]
  exact Finset.sum_congr rfl fun t ht => by rw [h t ht]; rfl

omit [DecidableEq T] in
theorem asleepIn_le_total [Fintype T] (W : Finset T) (s : Sync T) :
    asleepIn W s ≤ total WaitPlace.asleep s.place :=
  Finset.sum_le_univ_sum_of_nonneg fun _ => Nat.zero_le _

/-- A signal that is not heeded changes nothing, with two or more threads blocked. -/
theorem eq_of_not_heeded [Fintype T] (hs : WaitersCounted s) (hheeded : ¬ Heeded s e)
    (he : syncStep s e = some u) : u = s ∧ 2 ≤ total WaitPlace.asleep s.place := by
  obtain ⟨hsignal, hmark, hfew⟩ : e.isSignal ∧ s.cond.events .signal ∧
      ¬ total WaitPlace.asleep s.place ≤ 1 := by
    unfold Heeded at hheeded
    tauto
  refine ⟨?_, by omega⟩
  have hwaiting := hs.asleep_le
  have hsame : pthreadCondSignal s.cond = s.cond := by
    rw [pthreadCondSignal, if_pos (by omega), ← hmark, Function.update_eq_self]
  cases syncStep_moved he with
  | signal => rw [hsame]
  | _ => cases hsignal

/-- A thread that no longer waits for the events has been released. -/
theorem SyncMoved.asleepIn_le (h : SyncMoved s e u) (W : Finset T) :
    asleepIn W s ≤ asleepIn W u + e.release := by
  have hwalk : ∀ {t q} (p : WaitPlace) (n : ℕ), s.place t = p → p.asleep ≤ q.asleep + n →
      asleepIn W s ≤ asleepIn W (s.walk t q) + n := by
    rintro t q p n rfl hle
    have hone : ∀ i ∈ W, (s.place i).asleep ≤
        (Function.update s.place t q i).asleep + if i = t then n else 0 := by
      intro i _
      by_cases hi : i = t
      · subst hi
        simpa using hle
      · simp [hi]
    calc asleepIn W s ≤ ∑ i ∈ W, ((Function.update s.place t q i).asleep + if i = t then n else 0) :=
          Finset.sum_le_sum hone
      _ = asleepIn W (s.walk t q) + ∑ i ∈ W, if i = t then n else 0 := Finset.sum_add_distrib
      _ ≤ asleepIn W (s.walk t q) + n := by
          rw [Finset.sum_ite_eq']
          split <;> simp
  cases h with
  | lock | unlock | signal | broadcast => exact le_rfl
  | wait hp | passGate hp | count hp | leave hp | uncount hp | enter hp =>
    exact hwalk _ 0 hp (Nat.zero_le _)
  | wake hp => exact hwalk _ 1 hp le_rfl

/-- A waiter that takes the mark is released. -/
theorem SyncMoved.mark_le (h : SyncMoved s e u) :
    (s.cond.events .signal).toNat ≤ (u.cond.events .signal).toNat + e.release := by
  have hmark := h.mark
  split at hmark
  · rw [hmark]
    exact (Bool.toNat_le _).trans (Nat.le_add_right _ _)
  · cases htakes : e.takesMark with
    | false =>
      rw [htakes] at hmark
      rw [hmark]
      exact Nat.le_add_right _ _
    | true =>
      have hrelease : e.release = 1 := by
        cases e with
        | wake => rfl
        | _ => cases htakes
      rw [hrelease]
      exact (Bool.toNat_le _).trans (Nat.le_add_left _ _)

/-- After `k` signals to `W` and `r` releases: each signal has released a waiter or its mark is
still there, unless `W` is awake. -/
structure Repaid (W : Finset T) (k r : ℕ) (s : Sync T) : Prop where
  marked : min k W.card ≤ r + (s.cond.events .signal).toNat
  awake : k = 0 ∨ W.card ≤ r + asleepIn W s

theorem Repaid.step [Fintype T] (h : Repaid W k r s) (hs : WaitersCounted s) (hheeded : Heeded s e)
    (he : syncStep s e = some u) : Repaid W (k + s.signalTo W e) (r + e.release) u := by
  have hmoved := syncStep_moved he
  have hmark := hmoved.mark_le
  have hasleep := hmoved.asleepIn_le W
  by_cases hsignal : e.isSignal ∧ ∀ t ∈ W, s.place t = .blocked
  · have hto : s.signalTo W e = 1 := if_pos hsignal
    have hall := asleepIn_eq_card hsignal.2
    have htotal := asleepIn_le_total W s
    have hwaiting := hs.asleep_le
    rw [hto]
    refine ⟨?_, .inr (by omega)⟩
    rcases Nat.eq_zero_or_pos W.card with hnone | hsome
    · omega
    have hset : u.cond.events .signal = true := by
      rw [hmoved.mark, if_pos ⟨hsignal.1, by omega⟩]
    rw [hset]
    cases hold : s.cond.events .signal with
    | true =>
      -- the mark of an earlier signal is there, so nobody else is blocked
      have hfew := hheeded hsignal.1 hold
      simp only [Bool.toNat_true]
      omega
    | false =>
      have hmarked := h.marked
      rw [hold] at hmarked
      simp only [Bool.toNat_true, Bool.toNat_false] at hmarked ⊢
      omega
  · have hto : s.signalTo W e = 0 := if_neg hsignal
    have hmarked := h.marked
    have hawake := h.awake
    rw [hto]
    exact ⟨by omega, by omega⟩

theorem Repaid.run [Fintype T] {es : List (SyncEvent T)} (h : Repaid W k r s)
    (hs : WaitersCounted s) (hg : Guarded syncStep Heeded s es) (hr : run syncStep s es = some u) :
    Repaid W (k + signalsTo W s es) (r + releases es) u := by
  induction es generalizing k r s with
  | nil =>
    cases hr
    exact h
  | cons e es ih =>
    rw [run_cons, Option.bind_eq_some_iff] at hr
    obtain ⟨v, hv, hr⟩ := hr
    obtain ⟨he, hes⟩ := (guarded_cons_iff hv).mp hg
    have hrest := ih (h.step hs he hv) (hs.step hv) hes hr
    rw [signalsTo, hv, Option.elim_some, ← add_assoc]
    rw [releases, List.map_cons, List.sum_cons, ← add_assoc]
    exact hrest

/-- All threads are outside, or blocked without a mark. -/
theorem quiescent_of_places (h : ∀ t, s.place t = .outside ∨
    s.place t = .blocked ∧ waitForMultipleObjects s.cond = none) : s.Quiescent := by
  intro e he
  by_contra hne
  obtain ⟨v, hv⟩ := Option.ne_none_iff_exists'.mp hne
  cases syncStep_moved hv with
  | @wake t result hp hr =>
    rcases h t with hout | ⟨-, hnone⟩
    · rw [hp] at hout
      cases hout
    · rw [hr] at hnone
      cases hnone
  | @passGate t hp | @count t hp | @leave t hp | @uncount t result hp | @enter t hp =>
    rcases h t with hout | ⟨hblocked, -⟩
    · rw [hp] at hout
      cases hout
    · rw [hp] at hblocked
      cases hblocked
  | _ => cases he

/-- At least `min k w` waiters have been released by `k` signals to `w` blocked threads. -/
theorem Repaid.quiescent (h : Repaid W k r s) (hq : s.Quiescent) : min k W.card ≤ r := by
  have hmarked := h.marked
  cases hmark : s.cond.events .signal with
  | false =>
    rw [hmark] at hmarked
    exact hmarked
  | true =>
    have hawake : asleepIn W s = 0 := by
      refine Finset.sum_eq_zero fun t _ => ?_
      cases hp : s.place t with
      | blocked =>
        have hwait : waitForMultipleObjects s.cond = some .signal := if_pos hmark
        have hstep := hq (.wake t .signal) rfl
        rw [syncStep, if_pos ⟨hp, hwait⟩] at hstep
        cases hstep
      | _ => rfl
    have := h.awake
    omega

/-- If no signal finds the mark of an earlier one while several threads are blocked, no signal is
lost. -/
theorem releases_of_guarded [Fintype T] {pre es : List (SyncEvent T)}
    (hpre : Runs.run syncStep (initSync T) pre = some s) (hr : Runs.run syncStep s es = some u)
    (hg : Guarded syncStep Heeded s es) (hq : u.Quiescent) (W : Finset T) :
    min (signalsTo W s es) W.card ≤ releases es := by
  have hstart : Repaid W 0 0 s := ⟨by simp, .inl rfl⟩
  have hend := (hstart.run (waitersCounted_of_run hpre) hg hr).quiescent hq
  rwa [Nat.zero_add, Nat.zero_add] at hend

end Releases

end Sysbench.Core
