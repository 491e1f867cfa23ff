import Sysbench.Core.Concurrency
import Sysbench.Core.CondVar

/-! # Signals in the tx-rate mode on Windows

The generator signals each event that it appends, and a worker that finds the queue empty waits
for a signal. The threads of the queue use its mutex and its condition variable; the generator
is the thread `none`.
-/
namespace Sysbench.Core

open Rings Runs Pool

structure WinTx (n : ℕ) where
  tx : TxState n
  /-- `event_queue_mutex` and `event_queue_cv` -/
  sync : Sync (Option (Fin n))
  /-- the generator has appended an event and is about to signal it -/
  unsignalled : Bool

def initWinTx (n : ℕ) (links : Links (Option ℕ)) : WinTx n where
  tx := initTx n links
  sync := initSync (Option (Fin n))
  unsignalled := false

inductive WinEvent (n : ℕ) where
  | tx (e : TxEvent n)
  | sync (e : SyncEvent (Option (Fin n)))
  deriving DecidableEq

variable {n : ℕ}

def Generator.isAppend : Generator → Bool
  | .append _ => true
  | _ => false

def Generator.isAdvance : Generator → Bool
  | .advance _ => true
  | _ => false

def TxWorker.isExecuted : TxWorker → Bool
  | .executed _ => true
  | _ => false

def TxWorker.isFinished : TxWorker → Bool
  | .finished _ => true
  | _ => false

def TxEvent.isAppend : TxEvent n → Bool
  | .queue .append => true
  | _ => false

/-- Where the threads of the queue stand to its mutex in their steps. -/
def WinTx.allowsTx (s : WinTx n) : TxEvent n → Bool
  | .queue (.stamp _) => true
  | .queue .append => s.sync.mutex = some none
  | .queue .advance => s.sync.mutex ≠ some none
  -- `while (!event_queue_length)` has ended
  | .queue (.dequeue t _) => s.sync.mutex = some (some t) ∧ s.sync.place (some t) = .outside
  | .finish t => s.sync.mutex = some (some t)
  | .look t _ | .getRequest t _ | .executeRequest t _ | .check t _ _ =>
    s.sync.mutex ≠ some (some t)
  | .report _ _ => false

/-- Where they call the functions of the mutex and the condition variable. -/
def WinTx.allowsSync (s : WinTx n) : SyncEvent (Option (Fin n)) → Bool
  | .lock none => s.tx.queue.gen.isAppend
  | .lock (some t) => s.tx.workers t = .waiting ∨ (s.tx.workers t).isExecuted
  | .unlock none => s.tx.queue.gen.isAdvance ∧ s.unsignalled = false
  | .unlock (some t) => s.tx.workers t = .dequeued ∨ (s.tx.workers t).isFinished
  | .wait none => false
  | .wait (some t) => s.tx.workers t = .waiting ∧ s.tx.queue.eventQueueLength = 0
  | .signal none => s.unsignalled
  | .signal (some _) | .broadcast _ => false
  | .passGate _ | .count _ | .leave _ | .wake _ _ | .uncount _ | .enter _ => true

def winStep (maxLen : ℕ) (s : WinTx n) : WinEvent n → Option (WinTx n)
  | .tx e =>
    if s.allowsTx e then
      (txStep maxLen s.tx e).map fun tx => { s with tx, unsignalled := s.unsignalled || e.isAppend }
    else none
  | .sync e =>
    if s.allowsSync e then
      (syncStep s.sync e).map fun sync =>
        { s with sync, unsignalled := s.unsignalled && !e.isSignal }
    else none

/-- Nothing can happen before the generator wakes up. -/
def WinTx.Quiescent (maxLen : ℕ) (s : WinTx n) : Prop :=
  ∀ e, (∀ time, e ≠ .tx (.queue (.stamp time))) → winStep maxLen s e = none

/-- The events in the queue that the generator has signalled. -/
def WinTx.signalled (s : WinTx n) : ℕ := s.tx.queue.eventQueueLength - s.unsignalled.toNat

/-- A signal finds the mark of an earlier one only while at most one worker is blocked. -/
def WinHeeded (s : WinTx n) (e : WinEvent n) : Prop := ∀ f, e = .sync f → Heeded s.sync f

instance (s : WinTx n) : DecidablePred (WinHeeded s)
  | .tx _ => .isTrue nofun
  | .sync e => decidable_of_iff (Heeded s.sync e)
    ⟨fun h _ hf => WinEvent.sync.inj hf ▸ h, fun h => h e rfl⟩

/-! ## What the steps do -/

inductive TxMoved (maxLen : ℕ) (s u : TxState n) : TxEvent n → Prop
  | gen {e : QueueEvent n} (hq : queueStep maxLen s.queue e = some u.queue)
      (hw : u.workers = s.workers) (he : ∀ t taken, e ≠ .dequeue t taken) : TxMoved maxLen s u (.queue e)
  | dequeue {t : Fin n} {taken : Option (ℕ × ℕ)}
      (hq : queueStep maxLen s.queue (.dequeue t taken) = some u.queue) (hw : s.workers t = .waiting)
      (hu : u.workers = Function.update s.workers t .dequeued) :
    TxMoved maxLen s u (.queue (.dequeue t taken))
  | finish {t : Fin n} {null : Bool} (hw : s.workers t = .executed null) (hq : u.queue = s.queue)
      (hu : u.workers = Function.update s.workers t (.finished null)) : TxMoved maxLen s u (.finish t)
  | own {e : TxEvent n} {t : Fin n} {w : TxWorker} (hw : s.workers t ≠ .waiting)
      (hq : u.queue = s.queue) (hu : u.workers = Function.update s.workers t w)
      (he : ∀ s : WinTx n, s.allowsTx e = decide (s.sync.mutex ≠ some (some t)))
      (happend : e.isAppend = false) :
    TxMoved maxLen s u e
  | report {queueLength : ℕ} {concurrency : ℤ} : TxMoved maxLen s u (.report queueLength concurrency)

theorem txStep_moved {maxLen : ℕ} {s u : TxState n} {e : TxEvent n}
    (he : txStep maxLen s e = some u) : TxMoved maxLen s u e := by
  cases e with
  | queue e =>
    obtain ⟨queue, hq, hafter⟩ := Option.bind_eq_some_iff.mp he
    cases e with
    | dequeue t taken =>
      obtain ⟨hw, heq⟩ := Option.ite_none_right_eq_some.mp hafter
      cases heq
      exact .dequeue hq hw rfl
    | _ =>
      cases hafter
      exact .gen hq rfl (by simp)
  | look t full =>
    obtain ⟨⟨hw, -⟩, heq⟩ := Option.ite_none_right_eq_some.mp he
    cases heq
    exact .own (by simp [hw]) rfl rfl (fun _ => rfl) rfl
  | getRequest t null =>
    obtain ⟨hw, heq⟩ := Option.ite_none_right_eq_some.mp he
    cases heq
    exact .own (by simp [hw]) rfl rfl (fun _ => rfl) rfl
  | executeRequest t error =>
    obtain ⟨hw, heq⟩ := Option.ite_none_right_eq_some.mp he
    cases heq
    exact .own (by simp [hw]) rfl rfl (fun _ => rfl) rfl
  | finish t =>
    rw [txStep] at he
    split at he
    · cases he
      exact .finish ‹_› rfl rfl
    · cases he
  | check t timeLimit error =>
    rw [txStep] at he
    split at he
    · rename_i null hw
      cases he
      exact .own (by simp [hw]) rfl rfl (fun _ => rfl) rfl
    · cases he
  | report => exact .report

/-! ## Where the threads are -/

def WaitPlace.inMutex : WaitPlace → Bool
  | .gate | .counting | .leaving => true
  | _ => false

def TxWorker.locks : TxWorker → Bool
  | .waiting | .dequeued | .executed _ | .finished _ => true
  | _ => false

/-- How a worker stands to the mutex and the condition variable. -/
structure Fits (s : WinTx n) (t : Fin n) : Prop where
  waits : s.sync.place (some t) ≠ .outside → s.tx.workers t = .waiting
  inside : (s.sync.place (some t)).inMutex →
    s.sync.mutex = some (some t) ∧ s.tx.queue.eventQueueLength = 0
  holds : s.sync.mutex = some (some t) → (s.sync.place (some t)).inMutex ∨
    s.sync.place (some t) = .outside ∧ (s.tx.workers t).locks

/-- How the generator stands to them. -/
structure GenFits (s : WinTx n) : Prop where
  outside : s.sync.place none = .outside
  holds : s.sync.mutex = some none →
    s.tx.queue.gen.isAppend ∧ s.unsignalled = false ∨ s.tx.queue.gen.isAdvance
  signals : s.unsignalled → s.sync.mutex = some none ∧ s.tx.queue.gen.isAdvance
  gate : s.sync.cond.broadcastBlockEvent

section Standing

variable {maxLen : ℕ} {s u : WinTx n} {t : Fin n}

theorem Fits.frame (h : Fits s t) (hp : u.sync.place (some t) = s.sync.place (some t))
    (hw : u.tx.workers t = s.tx.workers t)
    (hm : u.sync.mutex = some (some t) ↔ s.sync.mutex = some (some t))
    (hl : s.sync.mutex = some (some t) →
      u.tx.queue.eventQueueLength = s.tx.queue.eventQueueLength) : Fits u t := by
  refine ⟨fun hne => ?_, fun hin => ?_, fun hmutex => ?_⟩
  · rw [hw]
    rw [hp] at hne
    exact h.waits hne
  · rw [hp] at hin
    obtain ⟨hmutex, hlen⟩ := h.inside hin
    exact ⟨hm.mpr hmutex, (hl hmutex).trans hlen⟩
  · rw [hp, hw]
    exact h.holds (hm.mp hmutex)

theorem fits_outside (hp : s.sync.place (some t) = .outside)
    (hlocks : s.sync.mutex = some (some t) → (s.tx.workers t).locks) : Fits s t where
  waits hne := absurd hp hne
  inside hin := by
    rw [hp] at hin
    cases hin
  holds hm := .inr ⟨hp, hlocks hm⟩

theorem fits_inside (hp : (s.sync.place (some t)).inMutex) (hw : s.tx.workers t = .waiting)
    (hm : s.sync.mutex = some (some t)) (hl : s.tx.queue.eventQueueLength = 0) : Fits s t where
  waits _ := hw
  inside _ := ⟨hm, hl⟩
  holds _ := .inl hp

theorem fits_away (hp : (s.sync.place (some t)).inMutex = false) (hw : s.tx.workers t = .waiting)
    (hm : s.sync.mutex ≠ some (some t)) : Fits s t where
  waits _ := hw
  inside hin := by
    rw [hp] at hin
    cases hin
  holds h := absurd h hm

/-- A worker that waits for the events or comes back from there does not hold the mutex. -/
theorem Fits.not_holds (h : Fits s t) (hne : s.sync.place (some t) ≠ .outside)
    (hp : (s.sync.place (some t)).inMutex = false) : s.sync.mutex ≠ some (some t) := by
  intro hm
  rcases h.holds hm with hin | ⟨hout, -⟩
  · rw [hp] at hin
    cases hin
  · exact hne hout

theorem Fits.sync {e : SyncEvent (Option (Fin n))} {v : Sync (Option (Fin n))} {b : Bool}
    (h : Fits s t) (ha : s.allowsSync e) (hv : syncStep s.sync e = some v) :
    Fits ⟨s.tx, v, b⟩ t := by
  have hmoved := syncStep_moved hv
  by_cases hactor : some t = e.actor
  · have hat : ∀ p, (s.sync.walk (some t) p).place (some t) = p := fun p => Function.update_self ..
    cases hmoved with
    | lock hp hm =>
      cases hactor
      refine fits_outside hp fun _ => ?_
      rcases of_decide_eq_true ha with hw | hw
      · simp [hw, TxWorker.locks]
      · dsimp only
        cases hworker : s.tx.workers t <;> simp_all [TxWorker.isExecuted, TxWorker.locks]
    | unlock hp hm =>
      cases hactor
      exact fits_outside hp nofun
    | wait hp hm =>
      cases hactor
      obtain ⟨hw, hl⟩ := of_decide_eq_true ha
      exact fits_inside (by simp [hat, WaitPlace.inMutex]) hw hm hl
    | passGate hp =>
      cases hactor
      obtain ⟨hm, hl⟩ := h.inside (by rw [hp]; rfl)
      exact fits_inside (by simp [hat, WaitPlace.inMutex]) (h.waits (by rw [hp]; nofun)) hm hl
    | count hp =>
      cases hactor
      obtain ⟨hm, hl⟩ := h.inside (by rw [hp]; rfl)
      exact fits_inside (by simp [hat, WaitPlace.inMutex]) (h.waits (by rw [hp]; nofun)) hm hl
    | leave hp hm =>
      cases hactor
      exact fits_away (by simp [hat, WaitPlace.inMutex]) (h.waits (by rw [hp]; nofun)) nofun
    | wake hp =>
      cases hactor
      exact fits_away (by simp [hat, WaitPlace.inMutex]) (h.waits (by rw [hp]; nofun))
        (h.not_holds (by rw [hp]; nofun) (by rw [hp]; rfl))
    | uncount hp =>
      cases hactor
      exact fits_away (by simp [hat, WaitPlace.inMutex]) (h.waits (by rw [hp]; nofun))
        (h.not_holds (by rw [hp]; nofun) (by rw [hp]; rfl))
    | enter hp hm =>
      cases hactor
      refine fits_outside (hat _) fun _ => ?_
      dsimp only
      rw [h.waits (by rw [hp]; nofun)]
      rfl
    | signal | broadcast =>
      cases hactor
      cases ha
  · have hother := hmoved.other hactor
    exact h.frame hother.1 rfl hother.2 fun _ => rfl

/-- The generator changes the length in its locked section only. -/
theorem queueStep_length {q q' : EventQueue} {e : QueueEvent n} (he : ∀ t taken, e ≠ .dequeue t taken)
    (hq : queueStep maxLen q e = some q') :
    q'.eventQueueLength = q.eventQueueLength + (TxEvent.queue e).isAppend.toNat := by
  cases e with
  | dequeue t taken => exact absurd rfl (he t taken)
  | _ =>
    rw [queueStep] at hq
    split at hq <;> cases hq
    rfl

theorem Fits.tx {e : TxEvent n} {v : TxState n} {b : Bool} (h : ∀ t, Fits s t) (ha : s.allowsTx e)
    (hv : txStep maxLen s.tx e = some v) (t : Fin n) : Fits ⟨v, s.sync, b⟩ t := by
  have hupdate : ∀ {i w}, v.workers = Function.update s.tx.workers i w → t ≠ i →
      v.workers t = s.tx.workers t := by
    intro i w hu hne
    rw [hu, Function.update_of_ne hne]
  have houtside : ∀ {i}, s.tx.workers i ≠ .waiting → s.sync.place (some i) = .outside := by
    intro i hw
    by_contra hne
    exact hw ((h i).waits hne)
  cases txStep_moved hv with
  | @gen e hq hw he =>
    refine (h t).frame rfl (congrFun hw t) Iff.rfl fun hm => ?_
    have hlength := queueStep_length he hq
    cases e with
    | append =>
      rw [of_decide_eq_true ha] at hm
      cases hm
    | dequeue i taken => exact absurd rfl (he i taken)
    | _ => exact hlength
  | @dequeue i taken hq hw hu =>
    obtain ⟨hm, hp⟩ := of_decide_eq_true ha
    by_cases hi : t = i
    · subst hi
      refine fits_outside hp fun _ => ?_
      dsimp only
      rw [hu, Function.update_self]
      rfl
    · refine (h t).frame rfl (hupdate hu hi) Iff.rfl fun hm' => ?_
      rw [hm] at hm'
      exact absurd (Option.some.inj (Option.some.inj hm')).symm hi
  | @finish i null hw hq hu =>
    by_cases hi : t = i
    · subst hi
      refine fits_outside (houtside (by rw [hw]; nofun)) fun _ => ?_
      dsimp only
      rw [hu, Function.update_self]
      rfl
    · exact (h t).frame rfl (hupdate hu hi) Iff.rfl fun _ => congrArg EventQueue.eventQueueLength hq
  | @own e i w hw hq hu he happend =>
    by_cases hi : t = i
    · subst hi
      rw [he] at ha
      exact fits_outside (houtside hw) fun hm => absurd hm (of_decide_eq_true ha)
    · exact (h t).frame rfl (hupdate hu hi) Iff.rfl fun _ => congrArg EventQueue.eventQueueLength hq
  | report => cases ha

/-- Where the generator is before or after a step on the queue. -/
theorem queueStep_gen {q q' : EventQueue} {e : QueueEvent n} (hq : queueStep maxLen q e = some q') :
    (∃ time, e = .stamp time) ∧ q.gen.isAppend = false ∧ q.gen.isAdvance = false ∨
      e = .append ∧ q'.gen.isAdvance ∨ e = .advance ∨
      ∃ t taken, e = .dequeue t taken ∧ q'.gen = q.gen := by
  cases e with
  | stamp time =>
    rw [queueStep] at hq
    split at hq
    · rename_i i hg
      rw [hg]
      exact .inl ⟨⟨time, rfl⟩, rfl, rfl⟩
    · cases hq
  | append =>
    rw [queueStep] at hq
    split at hq <;> cases hq
    exact .inr (.inl ⟨rfl, rfl⟩)
  | advance => exact .inr (.inr (.inl rfl))
  | dequeue t taken =>
    obtain ⟨-, heq⟩ := Option.ite_none_right_eq_some.mp hq
    refine .inr (.inr (.inr ⟨t, taken, rfl, ?_⟩))
    cases heq
    rw [EventQueue.dequeue]
    cases q.links.next none <;> rfl

theorem genFits_init (links : Links (Option ℕ)) : GenFits (initWinTx n links) where
  outside := rfl
  holds := nofun
  signals := nofun
  gate := rfl

theorem GenFits.keep (h : GenFits s) {v : TxState n} {b : Bool}
    (hgen : v.queue.gen = s.tx.queue.gen) (hb : b = s.unsignalled) : GenFits ⟨v, s.sync, b⟩ where
  outside := h.outside
  holds := by
    dsimp only
    rw [hgen, hb]
    exact h.holds
  signals := by
    dsimp only
    rw [hgen, hb]
    exact h.signals
  gate := h.gate

theorem GenFits.queue {e : QueueEvent n} {v : TxState n} (h : GenFits s)
    (ha : s.allowsTx (.queue e)) (hq : queueStep maxLen s.tx.queue e = some v.queue) :
    GenFits ⟨v, s.sync, s.unsignalled || (TxEvent.queue e).isAppend⟩ := by
  rcases queueStep_gen hq with ⟨⟨time, rfl⟩, happend, hadvance⟩ | ⟨rfl, hadvance⟩ | rfl |
    ⟨t, taken, rfl, hgen⟩
  · -- asleep, the generator neither holds the mutex nor has anything to signal
    refine ⟨h.outside, fun hm => ?_, fun hu => ?_, h.gate⟩
    · rcases h.holds hm with ⟨hat, -⟩ | hat
      · rw [happend] at hat
        cases hat
      · rw [hadvance] at hat
        cases hat
    · have hat := (h.signals (by simpa [TxEvent.isAppend] using hu)).2
      rw [hadvance] at hat
      cases hat
  · exact ⟨h.outside, fun _ => .inr hadvance, fun _ => ⟨of_decide_eq_true ha, hadvance⟩, h.gate⟩
  · have hm : s.sync.mutex ≠ some none := of_decide_eq_true ha
    refine ⟨h.outside, fun h => absurd h hm, fun hu => ?_, h.gate⟩
    exact absurd (h.signals (by simpa [TxEvent.isAppend] using hu)).1 hm
  · exact h.keep hgen (Bool.or_false _)

theorem GenFits.tx {e : TxEvent n} {v : TxState n} (h : GenFits s) (ha : s.allowsTx e)
    (hv : txStep maxLen s.tx e = some v) : GenFits ⟨v, s.sync, s.unsignalled || e.isAppend⟩ := by
  cases txStep_moved hv with
  | gen hq => exact h.queue ha hq
  | dequeue hq => exact h.queue ha hq
  | finish hw hq => exact h.keep (congrArg EventQueue.gen hq) (Bool.or_false _)
  | own hw hq hu he happend =>
    exact h.keep (congrArg EventQueue.gen hq) (by rw [happend, Bool.or_false])
  | report => cases ha

theorem GenFits.sync {e : SyncEvent (Option (Fin n))} {v : Sync (Option (Fin n))} (h : GenFits s)
    (ha : s.allowsSync e) (hv : syncStep s.sync e = some v) :
    GenFits ⟨s.tx, v, s.unsignalled && !e.isSignal⟩ := by
  have hmoved := syncStep_moved hv
  have hgate : v.cond.broadcastBlockEvent := hmoved.gate h.gate fun t ht => by
    rw [ht] at ha
    cases ha
  by_cases hactor : none = e.actor
  · cases hmoved with
    | lock hp hm =>
      cases hactor
      have hnot : s.unsignalled = false := by
        by_contra hu
        have hheld := (h.signals (by simpa using hu)).1
        rw [hm] at hheld
        cases hheld
      rw [hnot]
      exact ⟨hp, fun _ => .inl ⟨ha, rfl⟩, nofun, hgate⟩
    | unlock hp hm =>
      cases hactor
      rw [(of_decide_eq_true ha).2]
      exact ⟨hp, nofun, nofun, hgate⟩
    | signal hp =>
      cases hactor
      have hu := h.signals ha
      refine ⟨hp, fun _ => .inr hu.2, fun hs => ?_, hgate⟩
      simp [SyncEvent.isSignal] at hs
    | wait | broadcast =>
      cases hactor
      cases ha
    | passGate hp | count hp | leave hp | wake hp | uncount hp | enter hp =>
      cases hactor
      rw [h.outside] at hp
      cases hp
  · obtain ⟨hp, hm⟩ := hmoved.other hactor
    have hsignal : e.isSignal = false := by
      cases e with
      | signal t =>
        cases t with
        | none => exact absurd rfl hactor
        | some t => cases ha
      | _ => rfl
    rw [hsignal, Bool.not_false, Bool.and_true]
    refine ⟨hp.trans h.outside, fun hmutex => h.holds (hm.mp hmutex), fun hu => ?_, hgate⟩
    exact ⟨hm.mpr (h.signals hu).1, (h.signals hu).2⟩

end Standing

/-! ## Signalled events and workers on their way -/

/-- One for a worker that was woken and has not come back to the mutex. -/
def WaitPlace.returning : WaitPlace → ℕ
  | .released _ | .entering => 1
  | _ => 0

/-- One if a worker holds the mutex and is about to test the length. -/
def WinTx.testing (s : WinTx n) : ℕ :=
  match s.sync.mutex with
  | some (some t) => if s.sync.place (some t) = .outside ∧ s.tx.workers t = .waiting then 1 else 0
  | _ => 0

def Sync.mark (s : Sync (Option (Fin n))) : ℕ := (s.cond.events .signal).toNat

/-- For each signalled event in the queue there is a mark or a worker that will look, or else the
marks are enough for the blocked workers. -/
def Attended (s : WinTx n) : Prop :=
  s.signalled ≤ s.sync.mark + total WaitPlace.returning s.sync.place + s.testing ∨
    total WaitPlace.asleep s.sync.place ≤ s.sync.mark

section Attending

variable {maxLen : ℕ} {s u : WinTx n} {t : Fin n}

theorem Attended.mono (h : Attended s) (hsignalled : u.signalled ≤ s.signalled)
    (hmark : s.sync.mark ≤ u.sync.mark)
    (hlook : total WaitPlace.returning s.sync.place + s.testing ≤
      total WaitPlace.returning u.sync.place + u.testing)
    (hasleep : total WaitPlace.asleep u.sync.place ≤ total WaitPlace.asleep s.sync.place) :
    Attended u := by
  rcases h with h | h
  · left
    omega
  · right
    omega

/-- A mark is exchanged for a worker that will look. -/
theorem Attended.woken (h : Attended s) (hsignalled : u.signalled ≤ s.signalled)
    (hmark : s.sync.mark ≤ u.sync.mark + 1)
    (hlook : total WaitPlace.returning s.sync.place + 1 + s.testing ≤
      total WaitPlace.returning u.sync.place + u.testing)
    (hasleep : total WaitPlace.asleep u.sync.place + 1 ≤ total WaitPlace.asleep s.sync.place) :
    Attended u := by
  rcases h with h | h
  · left
    omega
  · right
    omega

theorem attended_of_signalled (h : u.signalled = 0) : Attended u := by
  left
  omega

theorem signalled_eq_zero (h : s.tx.queue.eventQueueLength = 0) : s.signalled = 0 := by
  rw [WinTx.signalled, h, Nat.zero_sub]

theorem testing_eq_zero (h : s.sync.mutex = none) : s.testing = 0 := by
  rw [WinTx.testing, h]

theorem testing_eq_one (hm : s.sync.mutex = some (some t))
    (hp : s.sync.place (some t) = .outside) (hw : s.tx.workers t = .waiting) : s.testing = 1 := by
  rw [WinTx.testing, hm]
  exact if_pos ⟨hp, hw⟩

/-- A step of another thread leaves the worker in front of its test. -/
theorem testing_le (h : ∀ t, s.sync.mutex = some (some t) → s.sync.place (some t) = .outside →
      s.tx.workers t = .waiting → u.sync.mutex = some (some t) ∧
        u.sync.place (some t) = .outside ∧ u.tx.workers t = .waiting) : s.testing ≤ u.testing := by
  rw [WinTx.testing]
  split
  · rename_i t hm
    split
    · rename_i hat
      obtain ⟨hm', hp', hw'⟩ := h t hm hat.1 hat.2
      exact (testing_eq_one hm' hp' hw').ge
    · exact Nat.zero_le _
  · exact Nat.zero_le _

theorem Attended.signal (h : Attended s) (hc : WaitersCounted s.sync)
    (hheeded : Heeded s.sync (.signal none)) (hu : s.unsignalled) :
    Attended ⟨s.tx, { s.sync with cond := pthreadCondSignal s.sync.cond }, s.unsignalled && false⟩ := by
  have hsignalled : WinTx.signalled ⟨s.tx, { s.sync with cond := pthreadCondSignal s.sync.cond },
      s.unsignalled && false⟩ ≤ s.signalled + 1 := by
    rw [WinTx.signalled, WinTx.signalled, hu]
    exact Nat.le_succ_of_pred_le le_rfl
  have hasleep := hc.asleep_le
  rcases Nat.eq_zero_or_pos s.sync.cond.waiting with hnone | hsome
  · right
    dsimp only
    omega
  have hmark : Sync.mark { s.sync with cond := pthreadCondSignal s.sync.cond } = 1 := by
    rw [Sync.mark, pthreadCondSignal, if_pos hsome]
    simp
  cases hold : s.sync.cond.events .signal with
  | true =>
    -- nobody besides the one for whom the mark is there is blocked
    right
    rw [hmark]
    exact hheeded rfl hold
  | false =>
    have hzero : s.sync.mark = 0 := by rw [Sync.mark, hold]; rfl
    rcases h with h | h
    · left
      rw [hmark]
      change _ ≤ 1 + total WaitPlace.returning s.sync.place + s.testing
      omega
    · right
      rw [hmark]
      exact h.trans (hzero.trans_le (Nat.zero_le 1))

theorem testing_walk {t : Option (Fin n)} {q : WaitPlace} {cond : Cond} {b : Bool}
    (hne : s.sync.place t ≠ .outside) :
    s.testing ≤ WinTx.testing ⟨s.tx, { s.sync.walk t q with cond }, b⟩ := by
  refine testing_le fun i hm hp hw => ⟨hm, ?_, hw⟩
  have hi : some i ≠ t := by
    rintro rfl
    exact hne hp
  exact (s.sync.walk_other q hi).trans hp

theorem Attended.enter {t : Fin n} (h : Attended s) (hfits : Fits s t)
    (hp : s.sync.place (some t) = .entering) (hm : s.sync.mutex = none) :
    Attended ⟨s.tx, { s.sync.walk (some t) .outside with mutex := some (some t) }, s.unsignalled⟩ := by
  have hret := Sync.total_walk WaitPlace.returning hp .outside
  have hasleep := Sync.total_walk WaitPlace.asleep hp .outside
  have hw : s.tx.workers t = .waiting := hfits.waits (by rw [hp]; nofun)
  have htest : WinTx.testing ⟨s.tx, { s.sync.walk (some t) .outside with mutex := some (some t) },
      s.unsignalled⟩ = 1 := testing_eq_one rfl (Function.update_self ..) hw
  refine h.mono le_rfl le_rfl ?_ hasleep.le
  rw [testing_eq_zero hm]
  exact hret.ge.trans (Nat.add_le_add_left htest.ge _)

theorem Attended.sync {e : SyncEvent (Option (Fin n))} {v : Sync (Option (Fin n))}
    (h : Attended s) (hfits : ∀ t, Fits s t) (hgen : GenFits s) (hc : WaitersCounted s.sync)
    (hheeded : Heeded s.sync e) (ha : s.allowsSync e) (hv : syncStep s.sync e = some v) :
    Attended ⟨s.tx, v, s.unsignalled && !e.isSignal⟩ := by
  have hmoved := syncStep_moved hv
  have hmark : s.sync.mark ≤ v.mark + e.release := hmoved.mark_le
  have hsignalled : ∀ {v} {e : SyncEvent (Option (Fin n))}, e.isSignal = false →
      WinTx.signalled ⟨s.tx, v, s.unsignalled && !e.isSignal⟩ ≤ s.signalled := by
    intro v e he
    rw [he, Bool.not_false, Bool.and_true]
    exact le_rfl
  -- whoever is in the mutex has found the queue empty
  have hempty : ∀ {t q v b}, s.sync.place t = q → q.inMutex → Attended ⟨s.tx, v, b⟩ := by
    intro t q v b hq hin
    cases t with
    | none =>
      rw [← hq, hgen.outside] at hin
      cases hin
    | some t =>
      obtain ⟨-, hlen⟩ := (hfits t).inside (by rwa [hq])
      exact attended_of_signalled (signalled_eq_zero hlen)
  cases hmoved with
  | lock hp hm =>
    refine h.mono (hsignalled rfl) le_rfl ?_ le_rfl
    rw [testing_eq_zero hm]
    exact Nat.add_le_add_left (Nat.zero_le _) _
  | unlock hp hm =>
    refine h.mono (hsignalled rfl) le_rfl (Nat.add_le_add_left (testing_le ?_) _) le_rfl
    intro i hmi _ hw
    cases hm.symm.trans hmi
    rcases of_decide_eq_true ha with hat | hat
    · rw [hw] at hat
      cases hat
    · rw [hw] at hat
      cases hat
  | @wait t hp hm =>
    cases t with
    | none => cases ha
    | some t => exact attended_of_signalled (signalled_eq_zero (of_decide_eq_true ha).2)
  | passGate hp => exact hempty hp rfl
  | count hp => exact hempty hp rfl
  | leave hp => exact hempty hp rfl
  | @wake t result hp hr =>
    have hret := Sync.total_walk WaitPlace.returning hp (.released result)
    have hasleep := Sync.total_walk WaitPlace.asleep hp (.released result)
    exact h.woken (hsignalled rfl) hmark
      (Nat.add_le_add hret.ge (testing_walk (by rw [hp]; nofun))) hasleep.le
  | @uncount t result hp =>
    have hret := Sync.total_walk WaitPlace.returning hp .entering
    have hasleep := Sync.total_walk WaitPlace.asleep hp .entering
    refine h.mono (hsignalled rfl) hmark (Nat.add_le_add (Nat.succ.inj hret).ge ?_) hasleep.le
    exact testing_walk (by rw [hp]; nofun)
  | @enter t hp hm =>
    cases t with
    | none =>
      rw [hgen.outside] at hp
      cases hp
    | some t =>
      have hsame : (s.unsignalled && !(SyncEvent.enter (some t)).isSignal) = s.unsignalled :=
        Bool.and_true _
      rw [hsame]
      exact h.enter (hfits t) hp hm
  | @signal t hp =>
    cases t with
    | none => exact h.signal hc hheeded ha
    | some t => cases ha
  | broadcast => cases ha

def QueueRuns (n maxLen : ℕ) (q : EventQueue) : Prop :=
  ∃ (d k : ℕ) (es : List (QueueEvent n)), Stored maxLen d k q ∧ Ordered maxLen d k es q

theorem queueStep_taken {q q' : EventQueue} {taken : Option (ℕ × ℕ)} (hsome : taken ≠ none)
    (hq : queueStep maxLen q (.dequeue t taken) = some q') :
    q'.eventQueueLength + 1 = q.eventQueueLength := by
  obtain ⟨⟨hpos, htaken⟩, heq⟩ := Option.ite_none_right_eq_some.mp hq
  cases heq
  subst htaken
  rw [EventQueue.dequeue] at hsome ⊢
  cases hnext : q.links.next none with
  | none =>
    rw [hnext] at hsome
    exact absurd rfl hsome
  | some i => exact Nat.sub_add_cancel hpos

theorem Attended.own {v : TxState n} {b : Bool} {w : TxWorker} (h : Attended s)
    (hq : v.queue = s.tx.queue) (hu : v.workers = Function.update s.tx.workers t w)
    (hw : s.tx.workers t ≠ .waiting) (hb : b = s.unsignalled) : Attended ⟨v, s.sync, b⟩ := by
  have htest : s.testing ≤ WinTx.testing ⟨v, s.sync, b⟩ := by
    refine testing_le fun i hm hp hwi => ⟨hm, hp, ?_⟩
    have hi : i ≠ t := by
      rintro rfl
      exact hw hwi
    dsimp only
    rw [hu, Function.update_of_ne hi, hwi]
  refine h.mono ?_ le_rfl (Nat.add_le_add_left htest _) le_rfl
  rw [WinTx.signalled, WinTx.signalled, hq, hb]

theorem Attended.tx {e : TxEvent n} {v : TxState n} (h : Attended s) (hgen : GenFits s)
    (hmax : 0 < maxLen) (hqueue : QueueRuns n maxLen s.tx.queue) (ha : s.allowsTx e)
    (hv : txStep maxLen s.tx e = some v) : Attended ⟨v, s.sync, s.unsignalled || e.isAppend⟩ := by
  cases txStep_moved hv with
  | @gen e hq hw he =>
    have hlength := queueStep_length he hq
    have htest : s.testing ≤
        WinTx.testing ⟨v, s.sync, s.unsignalled || (TxEvent.queue e).isAppend⟩ :=
      testing_le fun i hm hp hwi => ⟨hm, hp, (congrFun hw i).trans hwi⟩
    refine h.mono ?_ le_rfl (Nat.add_le_add_left htest _) le_rfl
    rw [WinTx.signalled, WinTx.signalled, hlength]
    cases hu : s.unsignalled with
    | false => simp
    | true =>
      -- there is nothing to append before the signal
      have happend : (TxEvent.queue e).isAppend = false := by
        cases e with
        | append =>
          have hadvance := (hgen.signals hu).2
          rw [queueStep] at hq
          split at hq
          · rename_i i hg
            rw [hg] at hadvance
            cases hadvance
          · cases hq
        | _ => rfl
      rw [happend]
      exact le_rfl
  | @dequeue t taken hq hw hu =>
    obtain ⟨hm, hp⟩ := of_decide_eq_true ha
    obtain ⟨d, k, es, hstored, hordered⟩ := hqueue
    have hsome : taken ≠ none := by
      rintro rfl
      exact (hstored.step hmax hordered hq).1 t rfl
    have hlength := queueStep_taken hsome hq
    have hbefore := testing_eq_one hm hp hw
    have hnot : s.unsignalled = false := by
      by_contra hu
      have hheld := (hgen.signals (by simpa using hu)).1
      rw [hm] at hheld
      cases hheld
    have hsignalled : WinTx.signalled ⟨v, s.sync, s.unsignalled || false⟩ + 1 = s.signalled := by
      rw [WinTx.signalled, WinTx.signalled, hnot]
      exact hlength
    rcases h with h | h
    · left
      change _ ≤ s.sync.mark + total WaitPlace.returning s.sync.place + _
      have hone : WinTx.signalled ⟨v, s.sync, s.unsignalled || false⟩ ≤
          s.sync.mark + total WaitPlace.returning s.sync.place := by omega
      exact hone.trans (Nat.le_add_right _ _)
    · exact .inr h
  | @finish t null hw hq hu => exact h.own hq hu (by simp [hw]) (Bool.or_false _)
  | @own e t w hw hq hu he happend => exact h.own hq hu hw (by rw [happend, Bool.or_false])
  | report => cases ha

end Attending

/-! ## Runs -/

section Running

variable {maxLen : ℕ} {s u : WinTx n} {t : Fin n}

structure WinInv (maxLen : ℕ) (s : WinTx n) : Prop where
  workers : ∀ t, Fits s t
  gen : GenFits s
  counted : WaitersCounted s.sync
  queue : QueueRuns n maxLen s.tx.queue
  attended : Attended s

theorem winInv_init (hmax : 0 < maxLen) (links : Links (Option ℕ)) :
    WinInv maxLen (initWinTx n links) where
  workers _ := fits_outside rfl nofun
  gen := genFits_init links
  counted := waitersCounted_init
  queue := by
    refine ⟨0, 0, [], stored_init hmax links, ?_⟩
    simp [Ordered, generated, dequeued, slots, EventQueue.stamped, initEventQueue, initWinTx, initTx]
  attended := attended_of_signalled (signalled_eq_zero rfl)

theorem QueueRuns.tx {e : TxEvent n} {v : TxState n} (h : QueueRuns n maxLen s.tx.queue)
    (hmax : 0 < maxLen) (ha : s.allowsTx e) (hv : txStep maxLen s.tx e = some v) :
    QueueRuns n maxLen v.queue := by
  have hstep : ∀ {e : QueueEvent n}, queueStep maxLen s.tx.queue e = some v.queue →
      QueueRuns n maxLen v.queue := by
    intro e hq
    obtain ⟨d, k, es, hstored, hordered⟩ := h
    obtain ⟨-, d', k', hstored', hordered'⟩ := hstored.step hmax hordered hq
    exact ⟨d', k', es ++ [e], hstored', hordered'⟩
  cases txStep_moved hv with
  | gen hq => exact hstep hq
  | dequeue hq => exact hstep hq
  | finish hw hq => rwa [hq]
  | own hw hq => rwa [hq]
  | report => cases ha

theorem WinInv.step {e : WinEvent n} (hmax : 0 < maxLen) (h : WinInv maxLen s)
    (hheeded : WinHeeded s e) (he : winStep maxLen s e = some u) : WinInv maxLen u := by
  cases e with
  | tx e =>
    obtain ⟨ha, hmap⟩ := Option.ite_none_right_eq_some.mp he
    obtain ⟨v, hv, rfl⟩ := Option.map_eq_some_iff.mp hmap
    exact ⟨Fits.tx h.workers ha hv, h.gen.tx ha hv, h.counted, h.queue.tx hmax ha hv,
      h.attended.tx h.gen hmax h.queue ha hv⟩
  | sync e =>
    obtain ⟨ha, hmap⟩ := Option.ite_none_right_eq_some.mp he
    obtain ⟨v, hv, rfl⟩ := Option.map_eq_some_iff.mp hmap
    exact ⟨fun t => (h.workers t).sync ha hv, h.gen.sync ha hv, h.counted.step hv, h.queue,
      h.attended.sync h.workers h.gen h.counted (hheeded e rfl) ha hv⟩

theorem winInv_of_run {links : Links (Option ℕ)} {es : List (WinEvent n)} (hmax : 0 < maxLen)
    (hg : Guarded (winStep maxLen) WinHeeded (initWinTx n links) es)
    (hr : run (winStep maxLen) (initWinTx n links) es = some s) : WinInv maxLen s :=
  hg.invariant (I := fun _ s => WinInv maxLen s) (winInv_init hmax links)
    (fun _ _ _ _ _ h hheeded he => h.step hmax hheeded he) hr

/-! ## Quiescent states -/

theorem WinTx.Quiescent.sync {e : SyncEvent (Option (Fin n))} (hq : s.Quiescent maxLen)
    (ha : s.allowsSync e) : syncStep s.sync e = none := by
  have hstep := hq (.sync e) nofun
  rw [winStep, if_pos ha] at hstep
  exact Option.map_eq_none_iff.mp hstep

theorem WinTx.Quiescent.tx {e : TxEvent n} (hq : s.Quiescent maxLen) (ha : s.allowsTx e)
    (he : ∀ time, e ≠ .queue (.stamp time)) : txStep maxLen s.tx e = none := by
  have hstep := hq (.tx e) fun time heq => he time (WinEvent.tx.inj heq)
  rw [winStep, if_pos ha] at hstep
  exact Option.map_eq_none_iff.mp hstep

theorem WinTx.Quiescent.mutex_ne_none (hq : s.Quiescent maxLen) (h : WinInv maxLen s) :
    s.sync.mutex ≠ some none := by
  intro hm
  rcases h.gen.holds hm with ⟨happend, -⟩ | hadvance
  · have hstep := hq.tx (e := .queue .append) (decide_eq_true hm) nofun
    rw [txStep, queueStep] at hstep
    cases hgen : s.tx.queue.gen with
    | append i =>
      rw [hgen] at hstep
      cases hstep
    | _ =>
      rw [hgen] at happend
      cases happend
  · cases hu : s.unsignalled with
    | true =>
      have hstep := hq.sync (e := .signal none) hu
      rw [syncStep, if_pos h.gen.outside] at hstep
      cases hstep
    | false =>
      have hstep := hq.sync (e := .unlock none) (decide_eq_true ⟨hadvance, hu⟩)
      rw [syncStep, if_pos ⟨h.gen.outside, hm⟩] at hstep
      cases hstep

theorem WinTx.Quiescent.mutex_ne_some (hq : s.Quiescent maxLen) (h : WinInv maxLen s) (t : Fin n) :
    s.sync.mutex ≠ some (some t) := by
  intro hm
  rcases (h.workers t).holds hm with hin | ⟨hp, hlocks⟩
  · cases hp : s.sync.place (some t) with
    | gate =>
      have hstep := hq.sync (e := .passGate (some t)) rfl
      rw [syncStep, if_pos ⟨hp, h.gen.gate⟩] at hstep
      cases hstep
    | counting =>
      have hstep := hq.sync (e := .count (some t)) rfl
      rw [syncStep, if_pos hp] at hstep
      cases hstep
    | leaving =>
      have hstep := hq.sync (e := .leave (some t)) rfl
      rw [syncStep, if_pos ⟨hp, hm⟩] at hstep
      cases hstep
    | _ =>
      rw [hp] at hin
      cases hin
  have hunlock : ¬ s.allowsSync (.unlock (some t)) := by
    intro ha
    have hstep := hq.sync ha
    rw [syncStep, if_pos ⟨hp, hm⟩] at hstep
    cases hstep
  cases hw : s.tx.workers t with
  | waiting =>
    rcases Nat.eq_zero_or_pos s.tx.queue.eventQueueLength with hlen | hlen
    · have hstep := hq.sync (e := .wait (some t)) (decide_eq_true ⟨hw, hlen⟩)
      rw [syncStep, if_pos ⟨hp, hm⟩] at hstep
      cases hstep
    · have hstep := hq.tx (e := .queue (.dequeue t s.tx.queue.dequeue.1)) (decide_eq_true ⟨hm, hp⟩)
        (by simp)
      rw [txStep, queueStep, if_pos ⟨hlen, rfl⟩, Option.bind_some] at hstep
      dsimp only at hstep
      rw [if_pos hw] at hstep
      cases hstep
  | dequeued => exact hunlock (decide_eq_true (.inl hw))
  | executed null =>
    have hstep := hq.tx (e := .finish t) (decide_eq_true hm) (by simp)
    rw [txStep, hw] at hstep
    cases hstep
  | finished null =>
    refine hunlock (decide_eq_true (.inr ?_))
    rw [hw]
    rfl
  | _ =>
    rw [hw] at hlocks
    cases hlocks

theorem WinTx.Quiescent.mutex (hq : s.Quiescent maxLen) (h : WinInv maxLen s) :
    s.sync.mutex = none := by
  rcases hm : s.sync.mutex with _ | _ | t
  · rfl
  · exact absurd hm (hq.mutex_ne_none h)
  · exact absurd hm (hq.mutex_ne_some h t)

theorem WinTx.Quiescent.returning (hq : s.Quiescent maxLen) (h : WinInv maxLen s) :
    total WaitPlace.returning s.sync.place = 0 := by
  refine total_eq_zero fun t => ?_
  cases hp : s.sync.place t with
  | released result =>
    have hstep := hq.sync (e := .uncount t) rfl
    rw [syncStep, hp] at hstep
    cases hstep
  | entering =>
    have hstep := hq.sync (e := .enter t) rfl
    rw [syncStep, if_pos ⟨hp, hq.mutex h⟩] at hstep
    cases hstep
  | _ => rfl

/-- Only the generator can wake up: no worker is blocked while a signalled event is queued. -/
theorem WinInv.quiescent (h : WinInv maxLen s) (hq : s.Quiescent maxLen)
    (hp : s.sync.place (some t) = .blocked) : s.signalled = 0 := by
  have hmark : s.sync.mark = 0 := by
    cases hold : s.sync.cond.events .signal with
    | false => rw [Sync.mark, hold]; rfl
    | true =>
      have hstep := hq.sync (e := .wake (some t) .signal) rfl
      rw [syncStep, if_pos ⟨hp, if_pos hold⟩] at hstep
      cases hstep
  have hasleep : 1 ≤ total WaitPlace.asleep s.sync.place := by
    have hone := Finset.single_le_sum (f := fun t => (s.sync.place t).asleep)
      (fun _ _ => Nat.zero_le _) (Finset.mem_univ (some t))
    rw [hp] at hone
    exact hone
  have hattended := h.attended
  unfold Attended at hattended
  rw [hmark, hq.returning h, testing_eq_zero (hq.mutex h)] at hattended
  omega

/-- As long as no signal finds the mark of an earlier one with several threads blocked, `k` signals
to `w` blocked threads release at least `min k w` waiters, and no worker stays blocked while the
queue holds a signalled event. -/
theorem signals_heeded (T : Type*) [Fintype T] [DecidableEq T] (n : ℕ) (links : Links (Option ℕ)) :
    (∀ (pre es : List (SyncEvent T)) (s u : Sync T), run syncStep (initSync T) pre = some s →
      run syncStep s es = some u → Guarded syncStep Heeded s es → u.Quiescent →
      ∀ W : Finset T, min (signalsTo W s es) W.card ≤ releases es) ∧
    ∀ (es : List (WinEvent n)) (s : WinTx n),
      run (winStep maxQueueLen) (initWinTx n links) es = some s →
      Guarded (winStep maxQueueLen) WinHeeded (initWinTx n links) es →
      s.Quiescent maxQueueLen → ∀ t, s.sync.place (some t) = .blocked → s.signalled = 0 := by
  refine ⟨fun pre es s u hpre hes hg hq W => ?_, fun es s hr hg hq t hp => ?_⟩
  · exact releases_of_guarded hpre hes hg hq W
  · exact (winInv_of_run (by decide) hg hr).quiescent hq hp

end Running

def twoWait : List (SyncEvent (Fin 3)) :=
  [.lock 0, .wait 0, .passGate 0, .count 0, .leave 0, .lock 1, .wait 1, .passGate 1, .count 1, .leave 1]

/-- The third one signals twice, and only one of the two is released. -/
def twoSignals : List (SyncEvent (Fin 3)) :=
  [.signal 2, .signal 2, .wake 0 .signal, .uncount 0, .enter 0, .unlock 0]

theorem not_signals_kept : ¬ ∀ (pre es : List (SyncEvent (Fin 3))) (s u : Sync (Fin 3)),
    run syncStep (initSync (Fin 3)) pre = some s → run syncStep s es = some u → u.Quiescent →
      ∀ W : Finset (Fin 3), min (signalsTo W s es) W.card ≤ releases es := by
  intro h
  have hquiet := quiescent_of_places
    (s := ((run syncStep (initSync (Fin 3)) (twoWait ++ twoSignals)).get rfl)) (by decide)
  exact absurd (h twoWait twoSignals _ _ rfl rfl hquiet {0, 1}) (by decide)

/-- The third one signals again after the first of the two is released. -/
def heededSignals : List (SyncEvent (Fin 3)) :=
  [.signal 2, .wake 0 .signal, .signal 2, .uncount 0, .wake 1 .signal, .enter 0, .unlock 0,
    .uncount 1, .enter 1, .unlock 1]

/-- Both workers wait when an event comes. One takes it and leaves, and the other one sleeps. -/
def oneServed : List (WinEvent 2) :=
  let wait (t : Fin 2) : List (WinEvent 2) :=
    [.tx (.look t false), .sync (.lock (some t)), .sync (.wait (some t)),
      .sync (.passGate (some t)), .sync (.count (some t)), .sync (.leave (some t))]
  wait 0 ++ wait 1 ++
    [.tx (.queue (.stamp 5)), .sync (.lock none), .tx (.queue .append), .sync (.signal none),
      .sync (.unlock none), .tx (.queue .advance), .sync (.wake (some 0) .signal),
      .sync (.uncount (some 0)), .sync (.enter (some 0)),
      .tx (.queue (.dequeue 0 (some (0, 5)))), .sync (.unlock (some 0)), .tx (.getRequest 0 true),
      .sync (.lock (some 0)), .tx (.finish 0), .sync (.unlock (some 0)), .tx (.check 0 false false)]

/-- The generator and the workers that have not left sleep. -/
theorem quiescent_of_asleep {n maxLen i : ℕ} {s : WinTx n} (hgen : s.tx.queue.gen = .stamp i)
    (hmutex : s.sync.mutex = none) (hsignal : s.unsignalled = false)
    (hnone : s.sync.place none = .outside) (hmark : waitForMultipleObjects s.sync.cond = none)
    (hworker : ∀ t, s.tx.workers t = .left ∧ s.sync.place (some t) = .outside ∨
      s.tx.workers t = .waiting ∧ s.sync.place (some t) = .blocked) : s.Quiescent maxLen := by
  intro e he
  cases e with
  | tx e =>
    cases e with
    | queue e =>
      cases e with
      | stamp time => exact absurd rfl (he time)
      | append => simp [winStep, WinTx.allowsTx, hmutex]
      | advance => simp [winStep, txStep, queueStep, hgen]
      | dequeue t taken => simp [winStep, WinTx.allowsTx, hmutex]
    | report => simp [winStep, WinTx.allowsTx]
    | look t | getRequest t | executeRequest t | finish t | check t =>
      rcases hworker t with ⟨ht, -⟩ | ⟨ht, -⟩ <;> simp [winStep, txStep, ht]
  | sync e =>
    cases e with
    | lock t =>
      cases t with
      | none => simp [winStep, WinTx.allowsSync, hgen, Generator.isAppend]
      | some t =>
        rcases hworker t with ⟨ht, -⟩ | ⟨-, hp⟩
        · simp [winStep, WinTx.allowsSync, ht, TxWorker.isExecuted]
        · simp [winStep, syncStep, hp]
    | unlock t => simp [winStep, syncStep, hmutex]
    | wait t => simp [winStep, syncStep, hmutex]
    | signal t => cases t <;> simp [winStep, WinTx.allowsSync, hsignal]
    | broadcast t => simp [winStep, WinTx.allowsSync]
    | wake t => simp [winStep, syncStep, hmark]
    | passGate t | count t | leave t | uncount t | enter t =>
      cases t with
      | none => simp [winStep, syncStep, hnone]
      | some t => rcases hworker t with ⟨-, hp⟩ | ⟨-, hp⟩ <;> simp [winStep, syncStep, hp]

theorem signals_heeded_two :
    (∃ s u, run syncStep (initSync (Fin 3)) twoWait = some s ∧
      run syncStep s heededSignals = some u ∧
      ∀ W : Finset (Fin 3), min (signalsTo W s heededSignals) W.card ≤ releases heededSignals) ∧
    ∃ s, run (winStep maxQueueLen) (initWinTx 2 ⟨id, id⟩) oneServed = some s ∧
      s.sync.place (some 1) = .blocked ∧ s.signalled = 0 := by
  obtain ⟨hsync, hwin⟩ := signals_heeded (Fin 3) 2 ⟨id, id⟩
  constructor
  · obtain ⟨s, u, hs, hu, hheeded, hquiet⟩ : ∃ s u, run syncStep (initSync (Fin 3)) twoWait = some s ∧
        run syncStep s heededSignals = some u ∧ Guarded syncStep Heeded s heededSignals ∧
        u.Quiescent :=
      ⟨_, _, rfl, rfl, by decide, quiescent_of_places (by decide)⟩
    exact ⟨s, u, hs, hu, fun W => hsync twoWait heededSignals s u hs hu hheeded hquiet W⟩
  · obtain ⟨s, hs, hquiet, hblocked⟩ : ∃ s,
        run (winStep maxQueueLen) (initWinTx 2 ⟨id, id⟩) oneServed = some s ∧
          s.Quiescent maxQueueLen ∧ s.sync.place (some 1) = .blocked :=
      ⟨_, rfl, quiescent_of_asleep (i := 1) rfl rfl rfl rfl rfl (by decide), rfl⟩
    have hheeded : Guarded (winStep maxQueueLen) WinHeeded (initWinTx 2 ⟨id, id⟩) oneServed := by
      decide
    exact ⟨s, hs, hblocked, hwin oneServed s hs hheeded hquiet 1 hblocked⟩

end Sysbench.Core
