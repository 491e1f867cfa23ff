import Sysbench.Machine.Ring
import Sysbench.Machine.Runs

/-! # The event queue of the tx-rate mode

The generator thread stores a time stamp in a slot of `queue_array`, appends the slot to the
queue under the queue mutex and goes on to the next slot, around the array. The workers take
the first slot of the queue under the mutex. The list items are the nodes of a ring: the head
`event_queue` is `none`, the item of slot `i` is `some i`.
-/
namespace Sysbench.Core

open Rings Runs

def maxQueueLen : ℕ := 100000

/-- Where the generator is, with its index `i`. -/
inductive Generator where
  /-- about to store the time stamp of the next event -/
  | stamp (i : ℕ)
  /-- about to append the slot -/
  | append (i : ℕ)
  /-- about to advance the index, or to give up -/
  | advance (i : ℕ)
  | stopped
  deriving DecidableEq

structure EventQueue where
  links : Links (Option ℕ)
  /-- `queue_array[i].event_time` -/
  eventTime : ℕ → ℕ
  eventQueueLength : ℕ
  queueIsFull : Bool
  gen : Generator

/-- `run_test` and the start of `eventgen_thread_proc`, which sets up the list before it appends
anything; nobody reads a list of length zero. What the static pointers hold does not matter. -/
def initEventQueue (links : Links (Option ℕ)) : EventQueue where
  links := links.init none
  eventTime _ := 0
  eventQueueLength := 0
  queueIsFull := false
  gen := .stamp 0

inductive QueueEvent (n : ℕ) where
  | stamp (time : ℕ)
  | append
  | advance
  /-- worker `t` takes the first slot of the list and reads its time stamp, if there is one -/
  | dequeue (t : Fin n) (taken : Option (ℕ × ℕ))
  deriving DecidableEq

variable {n : ℕ} (maxLen : ℕ)

/-- The locked section in which the generator appends slot `i`. -/
def EventQueue.append (q : EventQueue) (i : ℕ) : EventQueue :=
  { q with
    links := q.links.addTail (some i) none
    eventQueueLength := q.eventQueueLength + 1
    queueIsFull := if maxLen ≤ q.eventQueueLength + 1 then true else q.queueIsFull
    gen := .advance i }

/-- `if (queue_is_full) return NULL; i++; if (i >= MAX_QUEUE_LEN) i = 0;` -/
def EventQueue.advance (q : EventQueue) (i : ℕ) : EventQueue :=
  { q with
    gen := if q.queueIsFull then .stopped else .stamp (if maxLen ≤ i + 1 then 0 else i + 1) }

/-- The locked section in which a worker that has seen a positive length takes an event. -/
def EventQueue.dequeue (q : EventQueue) : Option (ℕ × ℕ) × EventQueue :=
  match q.links.next none with
  | some i =>
    (some (i, q.eventTime i),
      { q with links := q.links.delete (some i), eventQueueLength := q.eventQueueLength - 1 })
  -- the body of SB_LIST_ONCE is skipped
  | none => (none, q)

def queueStep (q : EventQueue) : QueueEvent n → Option EventQueue
  | .stamp time =>
    match q.gen with
    | .stamp i => some { q with eventTime := Function.update q.eventTime i time, gen := .append i }
    | _ => none
  | .append =>
    match q.gen with
    | .append i => some (q.append maxLen i)
    | _ => none
  | .advance =>
    match q.gen with
    | .advance i => some (q.advance maxLen i)
    | _ => none
  | .dequeue _ taken =>
    if 0 < q.eventQueueLength ∧ q.dequeue.1 = taken then some q.dequeue.2 else none

def QueueEvent.stamped : QueueEvent n → Option ℕ
  | .stamp time => some time
  | _ => none

def QueueEvent.taken : QueueEvent n → Option ℕ
  | .dequeue _ taken => taken.map Prod.snd
  | _ => none

def generated (es : List (QueueEvent n)) : List ℕ := es.filterMap QueueEvent.stamped

def dequeued (es : List (QueueEvent n)) : List ℕ := es.filterMap QueueEvent.taken

/-- The event that has been stamped but not appended. -/
def EventQueue.stamped (q : EventQueue) : List ℕ :=
  match q.gen with
  | .append i => [q.eventTime i]
  | _ => []

/-- The slots `xs` are linked, from the first to the last. -/
def EventQueue.Holds (q : EventQueue) (xs : List ℕ) : Prop := Linked q.links none (xs.map some)

/-- The state of a lossless queue after the events `es`. -/
structure LosslessFifo (es : List (QueueEvent n)) (q : EventQueue) (xs : List ℕ) : Prop where
  linked : q.Holds xs
  length : q.eventQueueLength = xs.length
  bounded : xs.length ≤ maxLen
  /-- the slot that is written next is not linked -/
  free : ∀ i, q.gen = .stamp i ∨ q.gen = .append i → i < maxLen ∧ i ∉ xs
  /-- what was generated has been taken, in order, or is still there -/
  order : generated es = dequeued es ++ xs.map q.eventTime ++ q.stamped

variable {maxLen}

theorem generated_snoc (es : List (QueueEvent n)) (e : QueueEvent n) :
    generated (es ++ [e]) = generated es ++ e.stamped.toList := by
  cases h : e.stamped <;> simp [generated, h]

theorem dequeued_snoc (es : List (QueueEvent n)) (e : QueueEvent n) :
    dequeued (es ++ [e]) = dequeued es ++ e.taken.toList := by
  cases h : e.taken <;> simp [dequeued, h]

/-! ## The slots in use -/

def slots (maxLen d k : ℕ) : List ℕ := (List.range' d k).map (· % maxLen)

theorem slots_snoc (maxLen d k : ℕ) : slots maxLen d (k + 1) = slots maxLen d k ++ [(d + k) % maxLen] := by
  simp [slots, List.range'_concat]

theorem slots_cons (maxLen d k : ℕ) : slots maxLen d (k + 1) = d % maxLen :: slots maxLen (d + 1) k := by
  simp [slots, List.range'_succ]

/-- Fewer events than slots leave the next slot out. -/
theorem not_mem_slots {d k : ℕ} (hk : k < maxLen) : (d + k) % maxLen ∉ slots maxLen d k := by
  intro hmem
  obtain ⟨j, hj, heq⟩ := List.mem_map.mp hmem
  obtain ⟨i, hi, rfl⟩ := List.mem_range'.mp hj
  rw [one_mul] at heq
  have hdvd : maxLen ∣ (d + k) - (d + i) := (Nat.modEq_iff_dvd' (by omega)).mp heq
  have hz := Nat.eq_zero_of_dvd_of_lt hdvd (by omega)
  omega

/-- The index after `m`, around the array. -/
theorem succ_mod (hmax : 0 < maxLen) (m : ℕ) :
    (if maxLen ≤ m % maxLen + 1 then 0 else m % maxLen + 1) = (m + 1) % maxLen := by
  have hlt := Nat.mod_lt m hmax
  have hmod : (m + 1) % maxLen = (m % maxLen + 1) % maxLen := by simp
  rw [hmod]
  split_ifs with h
  · have heq : m % maxLen + 1 = maxLen := by omega
    rw [heq]
    exact (Nat.mod_self maxLen).symm
  · exact (Nat.mod_eq_of_lt (by omega)).symm

/-! ## Runs of the queue -/

/-- What the index `i` of the generator is when `m` events have been appended. -/
def Generator.At (maxLen m : ℕ) (queueIsFull : Bool) : Generator → Prop
  | .stamp i | .append i => i = m % maxLen ∧ queueIsFull = false
  | .advance i => (if maxLen ≤ i + 1 then 0 else i + 1) = m % maxLen
  | .stopped => True

/-- `d` events have been taken and `k` are linked. -/
structure Stored (maxLen d k : ℕ) (q : EventQueue) : Prop where
  linked : q.Holds (slots maxLen d k)
  length : q.eventQueueLength = k
  room : q.queueIsFull = false → k < maxLen
  le : k ≤ maxLen
  gen : q.gen.At maxLen (d + k) q.queueIsFull

/-- What was generated has been taken, in order, or is still there. -/
def Ordered (maxLen d k : ℕ) (es : List (QueueEvent n)) (q : EventQueue) : Prop :=
  generated es = dequeued es ++ (slots maxLen d k).map q.eventTime ++ q.stamped

variable {es : List (QueueEvent n)} {q q' : EventQueue} {d k i : ℕ}

theorem stored_init (hmax : 0 < maxLen) (links : Links (Option ℕ)) :
    Stored maxLen 0 0 (initEventQueue links) where
  linked := linked_init links
  length := rfl
  room _ := hmax
  le := Nat.zero_le maxLen
  gen := ⟨(Nat.zero_mod maxLen).symm, rfl⟩

theorem Stored.stamp (hs : Stored maxLen d k q) (ho : Ordered maxLen d k es q)
    (hg : q.gen = .stamp i) (time : ℕ) :
    Stored maxLen d k { q with eventTime := Function.update q.eventTime i time, gen := .append i } ∧
      Ordered maxLen d k (es ++ [.stamp time])
        { q with eventTime := Function.update q.eventTime i time, gen := .append i } := by
  have hat := hs.gen
  simp only [hg, Generator.At] at hat
  obtain ⟨rfl, hfull⟩ := hat
  have hfree := not_mem_slots (d := d) (hs.room hfull)
  have hmap : (slots maxLen d k).map (Function.update q.eventTime ((d + k) % maxLen) time) =
      (slots maxLen d k).map q.eventTime := by
    apply List.map_congr_left
    intro j hj
    have hne : j ≠ (d + k) % maxLen := by
      rintro rfl
      exact hfree hj
    exact Function.update_of_ne hne _ _
  refine ⟨⟨hs.linked, hs.length, hs.room, hs.le, rfl, hfull⟩, ?_⟩
  simp only [Ordered, EventQueue.stamped, hg, List.append_nil] at ho
  simp [Ordered, EventQueue.stamped, generated_snoc, dequeued_snoc, ho, hmap, QueueEvent.stamped,
    QueueEvent.taken]

theorem Stored.append (hs : Stored maxLen d k q) (ho : Ordered maxLen d k es q)
    (hmax : 0 < maxLen) (hg : q.gen = .append i) :
    Stored maxLen d (k + 1) (q.append maxLen i) ∧
      Ordered maxLen d (k + 1) (es ++ [.append]) (q.append maxLen i) := by
  have hat := hs.gen
  simp only [hg, Generator.At] at hat
  obtain ⟨rfl, hfull⟩ := hat
  have hlt := hs.room hfull
  have hfree := not_mem_slots (d := d) hlt
  refine ⟨⟨?_, ?_, ?_, hlt, ?_⟩, ?_⟩
  · have hnew : some ((d + k) % maxLen) ∉ none :: (slots maxLen d k).map some := by
      simpa using hfree
    have hadd := Linked.addTail hs.linked hnew
    rw [EventQueue.Holds, slots_snoc, List.map_append]
    exact hadd
  · exact congrArg (· + 1) hs.length
  · intro hroom
    simp only [EventQueue.append, hfull, hs.length] at hroom
    split_ifs at hroom with hle
    omega
  · exact succ_mod hmax (d + k)
  · simp only [Ordered, EventQueue.stamped, hg] at ho
    simp [Ordered, EventQueue.stamped, EventQueue.append, generated_snoc, dequeued_snoc, ho,
      slots_snoc, QueueEvent.stamped, QueueEvent.taken]

theorem Stored.advance (hs : Stored maxLen d k q) (ho : Ordered maxLen d k es q)
    (hg : q.gen = .advance i) :
    Stored maxLen d k (q.advance maxLen i) ∧
      Ordered maxLen d k (es ++ [.advance]) (q.advance maxLen i) := by
  have hat := hs.gen
  simp only [hg, Generator.At] at hat
  refine ⟨⟨hs.linked, hs.length, hs.room, hs.le, ?_⟩, ?_⟩
  · cases hfull : q.queueIsFull with
    | true => simp [EventQueue.advance, hfull, Generator.At]
    | false => simpa [EventQueue.advance, hfull, Generator.At] using hat
  · simp only [Ordered, EventQueue.stamped, hg, List.append_nil] at ho
    cases hfull : q.queueIsFull <;>
      simp [Ordered, EventQueue.stamped, EventQueue.advance, hfull, generated_snoc, dequeued_snoc,
        ho, QueueEvent.stamped, QueueEvent.taken]

/-- A worker that has seen a positive length takes the event that was appended first. -/
theorem Stored.dequeue (hs : Stored maxLen d k q) (ho : Ordered maxLen d k es q)
    (hpos : 0 < q.eventQueueLength) (t : Fin n) :
    q.dequeue.1 ≠ none ∧ Stored maxLen (d + 1) (k - 1) q.dequeue.2 ∧
      Ordered maxLen (d + 1) (k - 1) (es ++ [.dequeue t q.dequeue.1]) q.dequeue.2 := by
  obtain ⟨k, rfl⟩ : ∃ j, k = j + 1 := ⟨k - 1, by have := hs.length; omega⟩
  have hlinked := hs.linked
  rw [EventQueue.Holds, slots_cons, List.map_cons] at hlinked
  have hdeq : q.dequeue = (some (d % maxLen, q.eventTime (d % maxLen)),
      { q with
        links := q.links.delete (some (d % maxLen))
        eventQueueLength := q.eventQueueLength - 1 }) := by
    simp [EventQueue.dequeue, hlinked.next_head]
  have hadd : d + 1 + k = d + (k + 1) := by omega
  rw [hdeq]
  refine ⟨Option.some_ne_none _, ⟨hlinked.delete, ?_, ?_, ?_, ?_⟩, ?_⟩
  · exact congrArg (· - 1) hs.length
  · intro hfull
    have := hs.room hfull
    omega
  · have := hs.le
    omega
  · have hgen := hs.gen
    rwa [← hadd] at hgen
  · rw [Ordered, slots_cons] at ho
    simpa [Ordered, EventQueue.stamped, generated_snoc, dequeued_snoc, QueueEvent.stamped,
      QueueEvent.taken] using ho

theorem Stored.step (hmax : 0 < maxLen) (hs : Stored maxLen d k q) (ho : Ordered maxLen d k es q)
    {e : QueueEvent n} (he : queueStep maxLen q e = some q') :
    (∀ t, e ≠ .dequeue t none) ∧
      ∃ d k, Stored maxLen d k q' ∧ Ordered maxLen d k (es ++ [e]) q' := by
  cases e with
  | stamp time =>
    simp only [queueStep] at he
    split at he <;> cases he
    rename_i i hg
    exact ⟨by simp, d, k, hs.stamp ho hg time⟩
  | append =>
    simp only [queueStep] at he
    split at he <;> cases he
    rename_i i hg
    exact ⟨by simp, d, k + 1, hs.append ho hmax hg⟩
  | advance =>
    simp only [queueStep] at he
    split at he <;> cases he
    rename_i i hg
    exact ⟨by simp, d, k, hs.advance ho hg⟩
  | dequeue t taken =>
    obtain ⟨⟨hpos, rfl⟩, hnext⟩ := Option.ite_none_right_eq_some.mp he
    cases hnext
    obtain ⟨hsome, hnew⟩ := hs.dequeue ho hpos t
    refine ⟨fun u heq => hsome ?_, d + 1, k - 1, hnew⟩
    exact (QueueEvent.dequeue.inj heq).2

theorem Stored.losslessFifo (hmax : 0 < maxLen) (hs : Stored maxLen d k q)
    (ho : Ordered maxLen d k es q) : LosslessFifo maxLen es q (slots maxLen d k) where
  linked := hs.linked
  length := by simpa [slots] using hs.length
  bounded := by simpa [slots] using hs.le
  free := by
    have hnext : ∀ i, i = (d + k) % maxLen ∧ q.queueIsFull = false →
        i < maxLen ∧ i ∉ slots maxLen d k := by
      rintro i ⟨rfl, hfull⟩
      exact ⟨Nat.mod_lt _ hmax, not_mem_slots (hs.room hfull)⟩
    have hgen := hs.gen
    rintro i (hg | hg)
    · rw [hg] at hgen
      exact hnext i hgen
    · rw [hg] at hgen
      exact hnext i hgen
  order := ho

/-- The queue is a lossless FIFO, however the generator and the workers take turns. -/
theorem eventQueue_losslessFifo {links : Links (Option ℕ)}
    (hr : run (queueStep maxQueueLen) (initEventQueue links) es = some q) :
    (∃ xs, LosslessFifo maxQueueLen es q xs) ∧ ∀ t, .dequeue t none ∉ es := by
  have hmax : 0 < maxQueueLen := by decide
  have hinv : (∃ d k, Stored maxQueueLen d k q ∧ Ordered maxQueueLen d k es q) ∧
      ∀ t, .dequeue t none ∉ es := by
    refine run_invariant (I := fun es q => (∃ d k, Stored maxQueueLen d k q ∧
      Ordered maxQueueLen d k es q) ∧ ∀ t, .dequeue t none ∉ es) ?_ ?_ hr
    · refine ⟨⟨0, 0, stored_init hmax links, ?_⟩, by simp⟩
      simp [Ordered, generated, dequeued, slots, EventQueue.stamped, initEventQueue]
    · rintro es q e q' - ⟨⟨d, k, hs, ho⟩, hnone⟩ he
      obtain ⟨htaken, hnew⟩ := hs.step hmax ho he
      refine ⟨hnew, fun t hmem => ?_⟩
      rcases List.mem_append.mp hmem with hmem | hmem
      · exact hnone t hmem
      · exact htaken t (List.mem_singleton.mp hmem).symm
  obtain ⟨⟨d, k, hs, ho⟩, hnone⟩ := hinv
  exact ⟨⟨slots maxQueueLen d k, hs.losslessFifo hmax ho⟩, hnone⟩

def queueEvents : List (QueueEvent 2) :=
  [.stamp 5, .append, .advance, .stamp 7, .dequeue 1 (some (0, 5)), .append,
    .dequeue 0 (some (1, 7)), .advance]

theorem queueEvents_run :
    ∃ q, run (queueStep maxQueueLen) (initEventQueue ⟨id, id⟩) queueEvents = some q := ⟨_, rfl⟩

theorem eventQueue_losslessFifo_two :
    ∃ q, run (queueStep maxQueueLen) (initEventQueue ⟨id, id⟩) queueEvents = some q ∧
      (∃ xs, LosslessFifo maxQueueLen queueEvents q xs) ∧ ∀ t, .dequeue t none ∉ queueEvents := by
  obtain ⟨q, hq⟩ := queueEvents_run
  exact ⟨q, hq, eventQueue_losslessFifo hq⟩

end Sysbench.Core
