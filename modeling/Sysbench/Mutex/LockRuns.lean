import Sysbench.Machine.Pool
import Sysbench.Mutex.Locks

/-! # Runs of the tests of threads and of mutexes

The workers of both tests take a lock and release it again before they take another one, so they
never wait for each other in a circle. The threads test hands its locks out in turn.
-/
namespace Sysbench.Mutex

open Runs Words Pool

/-! ## Workers with locks -/

inductive LockWorker where
  | top
  /-- in `execute_request`, with the operations that are left -/
  | executing (ops : List LockOp)
  /-- has left the loop of `runner_thread` -/
  | left

structure LockState (n : ℕ) where
  owner : ℕ → Option (Fin n)
  workers : Fin n → LockWorker

variable {n : ℕ}

def initLocks (n : ℕ) : LockState n := ⟨fun _ => none, fun _ => .top⟩

def LockState.walk (s : LockState n) (t : Fin n) (w : LockWorker) : LockState n :=
  { s with workers := Function.update s.workers t w }

@[simp] theorem LockState.walk_workers (s : LockState n) (t : Fin n) (w : LockWorker) :
    (s.walk t w).workers = Function.update s.workers t w := rfl

@[simp] theorem LockState.walk_owner (s : LockState n) (t : Fin n) (w : LockWorker) :
    (s.walk t w).owner = s.owner := rfl

def LockState.perform (s : LockState n) (t : Fin n) (op : LockOp) : Option (LockState n) :=
  match s.workers t with
  | .executing (first :: ops) =>
    if op = first then
      match op with
      | .lock i =>
        if s.owner i = none then
          some { s.walk t (.executing ops) with owner := Function.update s.owner i (some t) }
        else none
      | .unlock i =>
        if s.owner i = some t then
          some { s.walk t (.executing ops) with owner := Function.update s.owner i none }
        else none
    else none
  | _ => none

/-- Every lock is released before the next one is taken; the first argument is the lock held. -/
inductive Paired : Option ℕ → List LockOp → Prop
  | nil : Paired none []
  | lock {i : ℕ} {ops : List LockOp} : Paired (some i) ops → Paired none (.lock i :: ops)
  | unlock {i : ℕ} {ops : List LockOp} : Paired none ops → Paired (some i) (.unlock i :: ops)

theorem Paired.append {held : Option ℕ} {ops rest : List LockOp} (h : Paired held ops)
    (hrest : Paired none rest) : Paired held (ops ++ rest) := by
  induction h with
  | nil => exact hrest
  | lock _ ih => exact .lock ih
  | unlock _ ih => exact .unlock ih

theorem paired_flatten {pairs : List (List LockOp)} (h : ∀ ops ∈ pairs, Paired none ops) :
    Paired none pairs.flatten := by
  induction pairs with
  | nil => exact .nil
  | cons ops pairs ih =>
    rw [List.flatten_cons]
    exact (h ops List.mem_cons_self).append (ih fun ops' hmem => h ops' (List.mem_cons_of_mem _ hmem))

def LockWorker.Holds : LockWorker → Option ℕ → Prop
  | .executing ops, held => Paired held ops
  | _, held => held = none

@[simp] theorem holds_executing {ops : List LockOp} {held : Option ℕ} :
    (LockWorker.executing ops).Holds held ↔ Paired held ops := Iff.rfl

/-- Every worker holds at most the lock that it is about to release. -/
def Orderly (s : LockState n) : Prop :=
  ∀ t, ∃ held, (s.workers t).Holds held ∧ ∀ i, s.owner i = some t ↔ held = some i

inductive Performed (s : LockState n) (t : Fin n) : LockOp → LockState n → Prop
  | lock {i : ℕ} {ops : List LockOp} (hw : s.workers t = .executing (.lock i :: ops))
      (hfree : s.owner i = none) : Performed s t (.lock i)
    { s.walk t (.executing ops) with owner := Function.update s.owner i (some t) }
  | unlock {i : ℕ} {ops : List LockOp} (hw : s.workers t = .executing (.unlock i :: ops))
      (hheld : s.owner i = some t) : Performed s t (.unlock i)
    { s.walk t (.executing ops) with owner := Function.update s.owner i none }

section Operations

variable {s u : LockState n} {t : Fin n} {op : LockOp}

theorem perform_iff : s.perform t op = some u ↔ Performed s t op u := by
  constructor
  · intro h
    rw [LockState.perform] at h
    split at h
    · next first ops hw =>
      split at h
      · next heq =>
        subst heq
        cases op with
        | lock i =>
          dsimp only at h
          split at h
          · next hfree =>
            cases h
            exact .lock hw hfree
          · cases h
        | unlock i =>
          dsimp only at h
          split at h
          · next hheld =>
            cases h
            exact .unlock hw hheld
          · cases h
      · cases h
    · cases h
  · rintro (⟨hw, hfree⟩ | ⟨hw, hheld⟩)
    · rw [LockState.perform, hw]
      simp [hfree]
    · rw [LockState.perform, hw]
      simp [hheld]

theorem orderly_init : Orderly (initLocks n) := fun _ => ⟨none, rfl, fun _ => by simp [initLocks]⟩

theorem Orderly.walk (h : Orderly s) {w : LockWorker}
    (hbefore : ∀ held, (s.workers t).Holds held → held = none) (hafter : w.Holds none) :
    Orderly (s.walk t w) := by
  intro i
  obtain ⟨held, hholds, howner⟩ := h i
  by_cases hi : i = t
  · subst hi
    cases hbefore held hholds
    exact ⟨none, by rwa [LockState.walk_workers, Function.update_self], howner⟩
  · exact ⟨held, by rwa [LockState.walk_workers, Function.update_of_ne hi], howner⟩

theorem Orderly.perform (h : Orderly s) (hp : Performed s t op u) : Orderly u := by
  cases hp with
  | @lock i ops hw hfree =>
    intro j
    obtain ⟨held, hholds, howner⟩ := h j
    by_cases hj : j = t
    · subst hj
      rw [hw] at hholds
      cases hholds with
      | lock hrest =>
        refine ⟨some i, by simpa using hrest, fun k => ?_⟩
        by_cases hk : k = i
        · simp [hk]
        · have hnot := (howner k).not.mpr (by simp)
          simp [Function.update_of_ne hk, hnot, Ne.symm hk]
    · refine ⟨held, by simpa [hj] using hholds, fun k => ?_⟩
      by_cases hk : k = i
      · have hnot := (howner i).not.mp (by simp [hfree])
        simp [hk, Ne.symm hj, hnot]
      · simpa [Function.update_of_ne hk] using howner k
  | @unlock i ops hw hheld =>
    intro j
    obtain ⟨held, hholds, howner⟩ := h j
    by_cases hj : j = t
    · subst hj
      rw [hw] at hholds
      cases hholds with
      | unlock hrest =>
        refine ⟨none, by simpa using hrest, fun k => ?_⟩
        by_cases hk : k = i
        · simp [hk]
        · have hnot := (howner k).not.mpr (by simpa using Ne.symm hk)
          simp [Function.update_of_ne hk, hnot]
    · refine ⟨held, by simpa [hj] using hholds, fun k => ?_⟩
      by_cases hk : k = i
      · have hnot := (howner i).not.mp (by simp [hheld, Ne.symm hj])
        simp [hk, hnot]
      · simpa [Function.update_of_ne hk] using howner k

/-- If no operation is possible, none is left: whoever holds the lock that another worker waits
for can release it. -/
theorem Orderly.finished (h : Orderly s) (hstuck : ∀ t op, s.perform t op = none) {ops : List LockOp}
    (hw : s.workers t = .executing ops) : ops = [] := by
  have hunlock : ∀ t i rest, s.workers t = .executing (.unlock i :: rest) → s.owner i ≠ some t := by
    intro t i rest hw hheld
    have hnone := hstuck t (.unlock i)
    rw [perform_iff.mpr (.unlock hw hheld)] at hnone
    cases hnone
  obtain ⟨held, hholds, howner⟩ := h t
  rw [hw] at hholds
  cases hholds with
  | nil => rfl
  | @lock i rest hrest =>
    cases hfree : s.owner i with
    | none =>
      have hnone := hstuck t (.lock i)
      rw [perform_iff.mpr (.lock hw hfree)] at hnone
      cases hnone
    | some j =>
      obtain ⟨held', hholds', howner'⟩ := h j
      have hheld := (howner' i).mp hfree
      subst hheld
      cases hj : s.workers j with
      | executing ops' =>
        rw [hj] at hholds'
        cases hholds' with
        | unlock hrest' => exact absurd hfree (hunlock j i _ hj)
      | top =>
        rw [hj] at hholds'
        cases hholds'
      | left =>
        rw [hj] at hholds'
        cases hholds'
  | @unlock i rest hrest => exact absurd ((howner i).mpr rfl) (hunlock t i rest hw)

theorem Orderly.free (h : Orderly s) (hleft : ∀ t, s.workers t = .left) (i : ℕ) :
    s.owner i = none := by
  cases howner : s.owner i with
  | none => rfl
  | some t =>
    obtain ⟨held, hholds, hheld⟩ := h t
    rw [hleft t] at hholds
    cases hholds
    cases (hheld i).mp howner

def LockWorker.ahead (op : LockOp) : LockWorker → ℕ
  | .executing ops => ops.count op
  | _ => 0

/-- A worker at the top of its loop takes a step at least, and one behind its operations two at
most. -/
def LockWorker.stepsLeft : LockWorker → ℕ
  | .top => 1
  | .executing ops => ops.length + 2
  | .left => 0

theorem Performed.workers (h : Performed s t op u) :
    ∃ ops, s.workers t = .executing (op :: ops) ∧
      u.workers = Function.update s.workers t (.executing ops) := by
  cases h with
  | lock hw => exact ⟨_, hw, rfl⟩
  | unlock hw => exact ⟨_, hw, rfl⟩

theorem Performed.ahead (h : Performed s t op u) (op' : LockOp) :
    total (LockWorker.ahead op') u.workers + (if op = op' then 1 else 0) =
      total (LockWorker.ahead op') s.workers := by
  obtain ⟨ops, hw, hu⟩ := h.workers
  have htotal := total_update (LockWorker.ahead op') s.workers t (.executing ops)
  rw [← hu, hw] at htotal
  simp only [LockWorker.ahead, List.count_cons, beq_iff_eq] at htotal
  omega

theorem Performed.stepsLeft (h : Performed s t op u) :
    total LockWorker.stepsLeft u.workers + 1 = total LockWorker.stepsLeft s.workers := by
  obtain ⟨ops, hw, hu⟩ := h.workers
  have htotal := total_update LockWorker.stepsLeft s.workers t (.executing ops)
  rw [← hu, hw] at htotal
  simp only [LockWorker.stepsLeft, List.length_cons] at htotal
  omega

def LockWorker.busy : LockWorker → ℕ
  | .executing _ => 1
  | _ => 0

theorem Performed.busy (h : Performed s t op u) :
    total LockWorker.busy u.workers = total LockWorker.busy s.workers := by
  obtain ⟨ops, hw, hu⟩ := h.workers
  have htotal := total_update LockWorker.busy s.workers t (.executing ops)
  rw [← hu, hw] at htotal
  exact Nat.add_right_cancel htotal

theorem total_walk (cost : LockWorker → ℕ) (s : LockState n) (t : Fin n) (w : LockWorker) :
    total cost (s.walk t w).workers + cost (s.workers t) = total cost s.workers + cost w :=
  total_update cost s.workers t w

end Operations

/-! ## The threads test -/

structure ThreadsRun (n : ℕ) where
  vars : ThreadsVars
  locks : LockState n

inductive ThreadsEvent (n : ℕ) where
  /-- `threads_get_request`, in its locked section -/
  | request (t : Fin n)
  | perform (t : Fin n) (op : LockOp)
  /-- the request is executed; whether the time limit or an error ends the loop -/
  | finish (t : Fin n) (ends : Bool)
deriving DecidableEq

def initThreads (n : ℕ) (o : ThreadsOptions) : ThreadsRun n := ⟨threadsInit o, initLocks n⟩

/-- What a worker does with its request. -/
def ThreadsRequest.worker (vars : ThreadsVars) : ThreadsRequest → LockWorker
  | .null => .left
  | .threads lockNum => .executing (threadsExecuteRequest vars lockNum)

def threadsRunStep (maxRequests : ℕ) (s : ThreadsRun n) : ThreadsEvent n → Option (ThreadsRun n)
  | .request t =>
    match s.locks.workers t with
    | .top => (threadsGetRequest maxRequests s.vars).map fun r =>
        ⟨r.2, s.locks.walk t (r.1.worker r.2)⟩
    | _ => none
  | .perform t op => (s.locks.perform t op).map fun locks => { s with locks }
  | .finish t ends =>
    match s.locks.workers t with
    | .executing [] => some { s with locks := s.locks.walk t (if ends then .left else .top) }
    | _ => none

def ThreadsEvent.performs (op : LockOp) : ThreadsEvent n → Bool
  | .perform _ op' => op' = op
  | _ => false

def ThreadsEvent.isFinish : ThreadsEvent n → Bool
  | .finish _ _ => true
  | _ => false

/-- The requests before request `k` that use lock `i`. -/
def turns (threadLocks i k : ℕ) : ℕ := Nat.count (fun j => j % threadLocks = i) k

theorem paired_execute (vars : ThreadsVars) (lockNum : ℕ) :
    Paired none (threadsExecuteRequest vars lockNum) :=
  paired_flatten fun ops hops => by
    rw [List.eq_of_mem_replicate hops]
    exact .lock (.unlock .nil)

theorem length_execute (vars : ThreadsVars) (lockNum : ℕ) :
    (threadsExecuteRequest vars lockNum).length = 2 * vars.threadYields := by
  simp [threadsExecuteRequest, Nat.mul_comm]

theorem count_execute (vars : ThreadsVars) (lockNum i : ℕ) :
    (threadsExecuteRequest vars lockNum).count (.lock i) =
      if lockNum = i then vars.threadYields else 0 := by
  rw [threadsExecuteRequest, List.count_flatten, List.map_replicate, List.sum_replicate]
  by_cases h : lockNum = i
  · simp [h]
  · simp [h]

theorem threadsGetRequest_cases {maxRequests : ℕ} (hpos : 0 < maxRequests)
    (hword : maxRequests < 2 ^ 32)
    {vars vars' : ThreadsVars} {r : ThreadsRequest}
    (h : threadsGetRequest maxRequests vars = some (r, vars')) :
    maxRequests ≤ vars.reqPerformed ∧ r = .null ∧ vars' = vars ∨
      vars.reqPerformed < maxRequests ∧ r = .threads (vars.reqPerformed % vars.threadLocks) ∧
        vars' = { vars with reqPerformed := vars.reqPerformed + 1 } := by
  unfold threadsGetRequest at h
  split_ifs at h with hdone hlocks
  · cases h
    exact .inl ⟨hdone.2, rfl, rfl⟩
  · have hlt : vars.reqPerformed < maxRequests := by omega
    rw [toUInt_natCast (by omega)] at h
    cases h
    exact .inr ⟨hlt, rfl, rfl⟩

structure ThreadsInv (maxRequests : ℕ) (o : ThreadsOptions) (es : List (ThreadsEvent n))
    (s : ThreadsRun n) : Prop where
  yields : s.vars.threadYields = (threadsInit o).threadYields
  locks : s.vars.threadLocks = (threadsInit o).threadLocks
  orderly : Orderly s.locks
  bounded : s.vars.reqPerformed ≤ maxRequests
  left : ∀ t, s.locks.workers t = .left → .finish t true ∈ es ∨ s.vars.reqPerformed = maxRequests
  executed : es.countP ThreadsEvent.isFinish + total LockWorker.busy s.locks.workers =
    s.vars.reqPerformed
  performed : ∀ i, es.countP (ThreadsEvent.performs (.lock i)) +
      total (LockWorker.ahead (.lock i)) s.locks.workers =
    s.vars.threadYields * turns s.vars.threadLocks i s.vars.reqPerformed
  steps : es.length + total LockWorker.stepsLeft s.locks.workers +
      (maxRequests - s.vars.reqPerformed) * (2 * s.vars.threadYields + 2) ≤
    n + maxRequests * (2 * s.vars.threadYields + 2)

section Threads

variable {maxRequests : ℕ} {o : ThreadsOptions} {es : List (ThreadsEvent n)} {s u : ThreadsRun n}
  {e : ThreadsEvent n}

theorem threadsInv_init : ThreadsInv maxRequests o [] (initThreads n o) where
  yields := rfl
  locks := rfl
  orderly := orderly_init
  bounded := Nat.zero_le _
  left _ h := by cases h
  executed := (Nat.zero_add _).trans (total_eq_zero fun _ => rfl)
  performed i := by
    have hnone : total (LockWorker.ahead (.lock i)) (initThreads n o).locks.workers = 0 :=
      total_eq_zero fun _ => rfl
    rw [hnone]
    rfl
  steps := by
    have htop : total LockWorker.stepsLeft (initThreads n o).locks.workers = n := by
      simp [total, initThreads, initLocks, LockWorker.stepsLeft]
    rw [htop, List.length_nil, Nat.zero_add]
    rfl

theorem left_walk {t i : Fin n} {w : LockWorker} (hw : (s.locks.walk t w).workers i = .left) :
    i = t ∧ w = .left ∨ s.locks.workers i = .left := by
  by_cases hi : i = t
  · subst hi
    rw [LockState.walk_workers, Function.update_self] at hw
    exact .inl ⟨rfl, hw⟩
  · rw [LockState.walk_workers, Function.update_of_ne hi] at hw
    exact .inr hw

theorem ThreadsInv.request (hpos : 0 < maxRequests) (hword : maxRequests < 2 ^ 32)
    (h : ThreadsInv maxRequests o es s) {t : Fin n} {r : ThreadsRequest} {vars : ThreadsVars}
    (htop : s.locks.workers t = .top) (hget : threadsGetRequest maxRequests s.vars = some (r, vars)) :
    ThreadsInv maxRequests o (es ++ [.request t]) ⟨vars, s.locks.walk t (r.worker vars)⟩ := by
  have hordered : ∀ w : LockWorker, w.Holds none → Orderly (s.locks.walk t w) := fun w hw =>
    h.orderly.walk (fun held hheld => by rwa [htop] at hheld) hw
  have hperformed : ∀ i, (es ++ [ThreadsEvent.request t]).countP (ThreadsEvent.performs (.lock i)) =
      es.countP (ThreadsEvent.performs (.lock i)) := fun i => by
    rw [List.countP_append]
    rfl
  have hfinished : (es ++ [ThreadsEvent.request t]).countP ThreadsEvent.isFinish =
      es.countP ThreadsEvent.isFinish := by
    rw [List.countP_append]
    rfl
  have hsteps := h.steps
  have hexecuted := h.executed
  rcases threadsGetRequest_cases hpos hword hget with ⟨hdone, rfl, rfl⟩ | ⟨hlt, rfl, rfl⟩
  · refine ⟨h.yields, h.locks, hordered _ rfl, h.bounded, fun i hi => ?_, ?_, fun i => ?_, ?_⟩
    · rcases left_walk hi with ⟨rfl, -⟩ | hi
      · exact .inr (le_antisymm h.bounded hdone)
      · exact (h.left i hi).imp (List.mem_append_left _) id
    · have htotal := total_walk LockWorker.busy s.locks t .left
      rw [htop] at htotal
      rw [hfinished]
      dsimp only [ThreadsRequest.worker]
      rw [Nat.add_right_cancel htotal]
      exact hexecuted
    · have htotal := total_walk (LockWorker.ahead (.lock i)) s.locks t .left
      rw [htop] at htotal
      simp only [LockWorker.ahead, Nat.add_zero] at htotal
      rw [hperformed]
      dsimp only [ThreadsRequest.worker]
      rw [htotal]
      exact h.performed i
    · have htotal := total_walk LockWorker.stepsLeft s.locks t .left
      rw [htop] at htotal
      simp only [LockWorker.stepsLeft, Nat.add_zero] at htotal
      rw [List.length_append, List.length_singleton]
      dsimp only [ThreadsRequest.worker]
      omega
  · refine ⟨h.yields, h.locks, hordered _ (paired_execute _ _), hlt, fun i hi => ?_, ?_,
      fun i => ?_, ?_⟩
    · rcases left_walk hi with ⟨-, hexecuting⟩ | hi
      · cases hexecuting
      · rcases h.left i hi with hmem | hdone
        · exact .inl (List.mem_append_left _ hmem)
        · omega
    · have htotal := total_walk LockWorker.busy s.locks t
        (.executing (threadsExecuteRequest { s.vars with reqPerformed := s.vars.reqPerformed + 1 }
          (s.vars.reqPerformed % s.vars.threadLocks)))
      rw [htop] at htotal
      simp only [LockWorker.busy, Nat.add_zero] at htotal
      rw [hfinished]
      dsimp only [ThreadsRequest.worker]
      omega
    · have htotal := total_walk (LockWorker.ahead (.lock i)) s.locks t
        (.executing (threadsExecuteRequest s.vars (s.vars.reqPerformed % s.vars.threadLocks)))
      rw [htop] at htotal
      simp only [LockWorker.ahead, Nat.add_zero, count_execute] at htotal
      have hbefore := h.performed i
      rw [hperformed]
      dsimp only [ThreadsRequest.worker]
      rw [turns, Nat.count_succ, Nat.mul_add, ← turns, mul_ite, mul_one, mul_zero, ← hbefore]
      exact (congrArg (_ + ·) htotal).trans (Nat.add_assoc _ _ _).symm
    · obtain ⟨k, hk⟩ := Nat.exists_eq_add_of_lt hlt
      have htotal := total_walk LockWorker.stepsLeft s.locks t
        (.executing (threadsExecuteRequest { s.vars with reqPerformed := s.vars.reqPerformed + 1 }
          (s.vars.reqPerformed % s.vars.threadLocks)))
      rw [htop] at htotal
      simp only [LockWorker.stepsLeft, length_execute] at htotal
      have hbefore : maxRequests - s.vars.reqPerformed = k + 1 := by omega
      have hafter : maxRequests - (s.vars.reqPerformed + 1) = k := by omega
      rw [hbefore, Nat.succ_mul] at hsteps
      rw [List.length_append, List.length_singleton]
      dsimp only [ThreadsRequest.worker]
      rw [hafter]
      omega

theorem ThreadsInv.perform (h : ThreadsInv maxRequests o es s) {t : Fin n} {op : LockOp}
    {locks : LockState n} (hp : Performed s.locks t op locks) :
    ThreadsInv maxRequests o (es ++ [.perform t op]) { s with locks } := by
  refine ⟨h.yields, h.locks, h.orderly.perform hp, h.bounded, fun i hi => ?_, ?_, fun i => ?_, ?_⟩
  · obtain ⟨ops, hw, hu⟩ := hp.workers
    dsimp only at hi
    rw [hu] at hi
    rcases update_eq_iff.mp hi with ⟨-, hexecuting⟩ | ⟨-, hi⟩
    · cases hexecuting
    · exact (h.left i hi).imp (List.mem_append_left _) id
  · rw [List.countP_append]
    dsimp only
    rw [hp.busy]
    exact h.executed
  · have hahead := hp.ahead (.lock i)
    rw [List.countP_append, List.countP_singleton]
    simp only [ThreadsEvent.performs, decide_eq_true_eq]
    have hbefore := h.performed i
    omega
  · have hsteps := hp.stepsLeft
    have hbefore := h.steps
    rw [List.length_append, List.length_singleton]
    dsimp only
    omega

theorem ThreadsInv.finish (h : ThreadsInv maxRequests o es s) {t : Fin n} (ends : Bool)
    (hw : s.locks.workers t = .executing []) :
    ThreadsInv maxRequests o (es ++ [.finish t ends])
      { s with locks := s.locks.walk t (if ends then .left else .top) } := by
  have hafter : (if ends then LockWorker.left else .top).Holds none := by
    cases ends <;> rfl
  have hcosts : (if ends then LockWorker.left else .top).stepsLeft ≤ 1 ∧
      (if ends then LockWorker.left else .top).busy = 0 ∧
      ∀ op, (if ends then LockWorker.left else .top).ahead op = 0 := by
    cases ends
    · exact ⟨Nat.le_refl 1, rfl, fun _ => rfl⟩
    · exact ⟨Nat.zero_le 1, rfl, fun _ => rfl⟩
  refine ⟨h.yields, h.locks, h.orderly.walk (fun held hheld => ?_) hafter, h.bounded,
    fun i hi => ?_, ?_, fun i => ?_, ?_⟩
  · rw [hw] at hheld
    cases hheld
    rfl
  · rcases left_walk hi with ⟨rfl, hleft⟩ | hi
    · left
      cases ends with
      | true => exact List.mem_append_right _ (List.mem_singleton.mpr rfl)
      | false => cases hleft
    · exact (h.left i hi).imp (List.mem_append_left _) id
  · have htotal := total_walk LockWorker.busy s.locks t (if ends then .left else .top)
    have hone : (LockWorker.executing []).busy = 1 := rfl
    rw [hw, hcosts.2.1, hone] at htotal
    have hexecuted := h.executed
    rw [List.countP_append, List.countP_singleton]
    simp only [ThreadsEvent.isFinish, if_true]
    omega
  · have htotal := total_walk (LockWorker.ahead (.lock i)) s.locks t (if ends then .left else .top)
    rw [hw, hcosts.2.2] at htotal
    simp only [LockWorker.ahead, List.count_nil, Nat.add_zero] at htotal
    rw [List.countP_append, htotal]
    exact h.performed i
  · have htotal := total_walk LockWorker.stepsLeft s.locks t (if ends then .left else .top)
    have htwo : (LockWorker.executing []).stepsLeft = 2 := rfl
    rw [hw, htwo] at htotal
    have hsteps := h.steps
    have hcost := hcosts.1
    rw [List.length_append, List.length_singleton]
    dsimp only
    omega

theorem ThreadsInv.step (hpos : 0 < maxRequests) (hword : maxRequests < 2 ^ 32)
    (h : ThreadsInv maxRequests o es s) (he : threadsRunStep maxRequests s e = some u) :
    ThreadsInv maxRequests o (es ++ [e]) u := by
  cases e with
  | request t =>
    rw [threadsRunStep] at he
    split at he
    · next htop =>
      obtain ⟨⟨r, vars⟩, hget, rfl⟩ := Option.map_eq_some_iff.mp he
      exact h.request hpos hword htop hget
    · cases he
  | perform t op =>
    obtain ⟨locks, hp, rfl⟩ := Option.map_eq_some_iff.mp he
    exact h.perform (perform_iff.mp hp)
  | finish t ends =>
    rw [threadsRunStep] at he
    split at he
    · next hw =>
      cases he
      exact h.finish ends hw
    · cases he

theorem threadsInv_of_run (hpos : 0 < maxRequests) (hword : maxRequests < 2 ^ 32)
    (hr : run (threadsRunStep maxRequests) (initThreads n o) es = some s) :
    ThreadsInv maxRequests o es s :=
  run_invariant (I := ThreadsInv maxRequests o) threadsInv_init
    (fun _ _ _ _ _ h he => h.step hpos hword he) hr

theorem ThreadsInv.stuck (h : ThreadsInv maxRequests o es s) (hlocks : (o.threadLocks : ℤ) ≠ 0)
    (hstuck : ∀ e, threadsRunStep maxRequests s e = none) (t : Fin n) : s.locks.workers t = .left := by
  cases hw : s.locks.workers t with
  | top =>
    have hnone := hstuck (.request t)
    rw [threadsRunStep, hw] at hnone
    have hget := Option.map_eq_none_iff.mp hnone
    have hzero : s.vars.threadLocks ≠ 0 := by
      rw [h.locks]
      exact (toUInt_eq_zero_iff o.threadLocks).not.mpr hlocks
    rw [threadsGetRequest, if_neg hzero] at hget
    split_ifs at hget
  | executing ops =>
    have hnil : ops = [] := by
      refine h.orderly.finished (fun i op => ?_) hw
      exact Option.map_eq_none_iff.mp (hstuck (.perform i op))
    subst hnil
    have hnone := hstuck (.finish t true)
    rw [threadsRunStep, hw] at hnone
    cases hnone
  | left => rfl

/-- Every run of the threads test comes to an end. Then no mutex is locked, every request that was
handed out has been executed, and unless all workers were stopped, all requests were: mutex `i` has
been locked in turn with the others. -/
theorem threads_run_ends (hlocks : (o.threadLocks : ℤ) ≠ 0) (hpos : 0 < maxRequests)
    (hword : maxRequests < 2 ^ 32)
    (hr : run (threadsRunStep maxRequests) (initThreads n o) es = some s) :
    es.length ≤ n + maxRequests * (2 * toUInt 32 o.threadYields + 2) ∧
      ((∀ e, threadsRunStep maxRequests s e = none) →
        (∀ t, s.locks.workers t = .left) ∧ (∀ i, s.locks.owner i = none) ∧
        es.countP ThreadsEvent.isFinish = s.vars.reqPerformed ∧
        s.vars.reqPerformed ≤ maxRequests ∧
        ((∃ t, .finish t true ∉ es) → s.vars.reqPerformed = maxRequests) ∧
        ∀ i < toUInt 32 o.threadLocks, es.countP (ThreadsEvent.performs (.lock i)) =
          toUInt 32 o.threadYields * (s.vars.reqPerformed / toUInt 32 o.threadLocks +
            if i < s.vars.reqPerformed % toUInt 32 o.threadLocks then 1 else 0)) := by
  have h := threadsInv_of_run hpos hword hr
  have hyields : s.vars.threadYields = toUInt 32 o.threadYields := h.yields
  have hnum : s.vars.threadLocks = toUInt 32 o.threadLocks := h.locks
  refine ⟨?_, fun hstuck => ?_⟩
  · have hsteps := h.steps
    rw [hyields] at hsteps
    omega
  have hleft := h.stuck hlocks hstuck
  refine ⟨hleft, h.orderly.free hleft, ?_, h.bounded, fun ⟨t, ht⟩ => ?_, fun i hi => ?_⟩
  · have hbusy : total LockWorker.busy s.locks.workers = 0 :=
      total_eq_zero fun t => by rw [hleft t]; rfl
    rw [← h.executed, hbusy, Nat.add_zero]
  · exact (h.left t (hleft t)).resolve_left ht
  · have hahead : total (LockWorker.ahead (.lock i)) s.locks.workers = 0 :=
      total_eq_zero fun t => by rw [hleft t]; rfl
    have hperformed := h.performed i
    rw [hahead, Nat.add_zero, hyields, hnum] at hperformed
    rw [hperformed, turns]
    have hturn : ∀ j, j % toUInt 32 o.threadLocks = i ↔ j ≡ i [MOD toUInt 32 o.threadLocks] := by
      intro j
      rw [Nat.ModEq, Nat.mod_eq_of_lt hi]
    simp only [hturn]
    rw [Nat.count_modEq_card _ (Nat.zero_lt_of_lt hi), Nat.mod_eq_of_lt hi]

theorem threadsRun_stuck (hleft : ∀ t, s.locks.workers t = .left) (e : ThreadsEvent n) :
    threadsRunStep maxRequests s e = none := by
  cases e with
  | request t => rw [threadsRunStep, hleft t]
  | perform t op => rw [threadsRunStep, LockState.perform, hleft t, Option.map_none]
  | finish t ends => rw [threadsRunStep, hleft t]

end Threads

theorem one_int : Options.intMin ≤ 1 ∧ 1 ≤ Options.intMax := by decide

theorem two_int : Options.intMin ≤ 2 ∧ 2 ≤ Options.intMax := by decide

def twoLocks : ThreadsOptions := ⟨⟨1, one_int⟩, ⟨2, two_int⟩⟩

def twoRequests : List (ThreadsEvent 2) :=
  [.request 0, .request 1, .perform 0 (.lock 0), .perform 1 (.lock 1), .perform 0 (.unlock 0),
    .finish 0 false, .request 0, .perform 1 (.unlock 1), .finish 1 false, .request 1]

theorem threads_run_ends_two : ∃ s,
    run (threadsRunStep 2) (initThreads 2 twoLocks) twoRequests = some s ∧
    twoRequests.countP ThreadsEvent.isFinish = s.vars.reqPerformed ∧ s.vars.reqPerformed ≤ 2 ∧
      ((∃ t : Fin 2, .finish t true ∉ twoRequests) → s.vars.reqPerformed = 2) ∧
      ∀ i < toUInt 32 twoLocks.threadLocks, twoRequests.countP (ThreadsEvent.performs (.lock i)) =
        toUInt 32 twoLocks.threadYields * (s.vars.reqPerformed / toUInt 32 twoLocks.threadLocks +
          if i < s.vars.reqPerformed % toUInt 32 twoLocks.threadLocks then 1 else 0) := by
  obtain ⟨s, hs, hw, hw'⟩ : ∃ s,
      run (threadsRunStep 2) (initThreads 2 twoLocks) twoRequests = some s ∧
      s.locks.workers 0 = .left ∧ s.locks.workers 1 = .left := ⟨_, rfl, rfl, rfl⟩
  have hleft : ∀ t, s.locks.workers t = .left := Fin.forall_fin_two.mpr ⟨hw, hw'⟩
  have hends := threads_run_ends (o := twoLocks) (by decide) Nat.two_pos (by decide) hs
  exact ⟨s, hs, (hends.2 fun e => threadsRun_stuck hleft e).2.2⟩

/-! ## The mutex test -/

inductive MutexEvent (n : ℕ) where
  /-- `mutex_execute_request` begins; the values that `rand()` will return -/
  | execute (t : Fin n) (rands : List ℕ)
  | perform (t : Fin n) (op : LockOp)
  /-- it returns 1, which ends the loop of its worker -/
  | finish (t : Fin n)

def Execution.ops : Execution → Option (List LockOp)
  | .returned ops => some ops
  | _ => none

def mutexRunStep (vars : MutexVars) (s : LockState n) : MutexEvent n → Option (LockState n)
  | .execute t rands =>
    match s.workers t with
    | .top => (mutexExecuteRequest vars (mutexGetRequest vars) rands).ops.map fun ops =>
        s.walk t (.executing ops)
    | _ => none
  | .perform t op => s.perform t op
  | .finish t =>
    match s.workers t with
    | .executing [] => some (s.walk t .left)
    | _ => none

/-- How often the `do` loop runs: a counter of zero wraps around. -/
def rounds (nlocks : ℕ) : ℕ := if nlocks = 0 then 2 ^ 32 else nlocks

theorem executeLoop_returned {mutexNum nlocks : ℕ} (hword : nlocks < 2 ^ 32) {rands : List ℕ}
    {ops : List LockOp} (h : executeLoop mutexNum nlocks rands = .returned ops) :
    ∃ used : List ℕ, used.length = rounds nlocks ∧ ops = used.flatMap (lockPair mutexNum) := by
  induction rands generalizing nlocks ops with
  | nil => cases h
  | cons rand rands ih =>
    rw [executeLoop] at h
    dsimp only at h
    split_ifs at h with hnum hmore
    · have hrounds : rounds nlocks = rounds (toUInt 32 ((nlocks : ℤ) - 1)) + 1 := by
        unfold rounds toUInt at *
        split_ifs <;> omega
      cases hrest : executeLoop mutexNum (toUInt 32 ((nlocks : ℤ) - 1)) rands with
      | trap =>
        rw [hrest] at h
        cases h
      | running =>
        rw [hrest] at h
        cases h
      | returned rest =>
        rw [hrest] at h
        cases h
        obtain ⟨used, hlen, rfl⟩ := ih (toUInt_lt 32 _) hrest
        exact ⟨rand :: used, by rw [List.length_cons, hlen, hrounds], rfl⟩
    · cases h
      refine ⟨[rand], ?_, (List.append_nil _).symm⟩
      unfold rounds toUInt at *
      split_ifs <;> simp <;> omega

theorem exists_executeLoop {mutexNum : ℕ} (hnum : mutexNum ≠ 0) {nlocks : ℕ} (hword : nlocks < 2 ^ 32) :
    ∃ rands ops, executeLoop mutexNum nlocks rands = .returned ops := by
  by_cases hzero : nlocks = 0
  · subst hzero
    exact ⟨List.replicate (2 ^ 32) 0, _, executeLoop_zero hnum List.length_replicate⟩
  · have hlen : (List.replicate nlocks 0).length = nlocks := List.length_replicate
    refine ⟨List.replicate nlocks 0, (List.replicate nlocks 0).flatMap (lockPair mutexNum), ?_⟩
    have heq := @executeLoop_eq mutexNum hnum (List.replicate nlocks 0) (by omega) (by omega)
    rwa [hlen] at heq

def LockOp.isLock : LockOp → Bool
  | .lock _ => true
  | .unlock _ => false

def MutexEvent.locks (t : Fin n) : MutexEvent n → Bool
  | .perform i op => i = t && op.isLock
  | _ => false

def LockWorker.locksLeft (total : ℕ) : LockWorker → ℕ
  | .top => total
  | .executing ops => ops.countP LockOp.isLock
  | .left => 0

def LockWorker.mutexSteps (total : ℕ) : LockWorker → ℕ
  | .top => 2 * total + 2
  | .executing ops => ops.length + 1
  | .left => 0

theorem paired_pairs (mutexNum : ℕ) (used : List ℕ) : Paired none (used.flatMap (lockPair mutexNum)) := by
  rw [List.flatMap_def]
  refine paired_flatten fun ops hops => ?_
  obtain ⟨rand, -, rfl⟩ := List.mem_map.mp hops
  exact .lock (.unlock .nil)

theorem length_pairs (mutexNum : ℕ) (used : List ℕ) :
    (used.flatMap (lockPair mutexNum)).length = 2 * used.length := by
  induction used with
  | nil => rfl
  | cons rand used ih =>
    rw [List.flatMap_cons, List.length_append, ih, List.length_cons, lockPair]
    simp only [List.length_cons, List.length_nil]
    omega

theorem locks_pairs (mutexNum : ℕ) (used : List ℕ) :
    (used.flatMap (lockPair mutexNum)).countP LockOp.isLock = used.length := by
  induction used with
  | nil => rfl
  | cons rand used ih =>
    rw [List.flatMap_cons, List.countP_append, ih, List.length_cons, Nat.add_comm]
    rfl

structure MutexInv (vars : MutexVars) (es : List (MutexEvent n)) (s : LockState n) : Prop where
  orderly : Orderly s
  locked : ∀ t, es.countP (MutexEvent.locks t) +
    (s.workers t).locksLeft (rounds vars.mutexLocks) = rounds vars.mutexLocks
  steps : es.length + total (LockWorker.mutexSteps (rounds vars.mutexLocks)) s.workers ≤
    n * (2 * rounds vars.mutexLocks + 2)

section Mutexes

variable {vars : MutexVars} {es : List (MutexEvent n)} {s u : LockState n} {e : MutexEvent n}

theorem mutexInv_init : MutexInv vars [] (initLocks n) where
  orderly := orderly_init
  locked t := Nat.zero_add _
  steps := by
    rw [List.length_nil, Nat.zero_add]
    simp [total, initLocks, LockWorker.mutexSteps]

theorem MutexInv.extend (h : MutexInv vars es s) {t : Fin n} {w w' : LockWorker} {k : ℕ}
    (hw : s.workers t = w) (hu : u.workers = Function.update s.workers t w') (horderly : Orderly u)
    (hlocks : ∀ i, (if e.locks i then 1 else 0) = if i = t then k else 0)
    (hleft : w'.locksLeft (rounds vars.mutexLocks) + k = w.locksLeft (rounds vars.mutexLocks))
    (hsteps : w'.mutexSteps (rounds vars.mutexLocks) + 1 = w.mutexSteps (rounds vars.mutexLocks)) :
    MutexInv vars (es ++ [e]) u := by
  refine ⟨horderly, fun i => ?_, ?_⟩
  · have hbefore := h.locked i
    have hone := hlocks i
    rw [List.countP_append, List.countP_singleton, hone, hu]
    by_cases hi : i = t
    · subst hi
      rw [hw] at hbefore
      rw [Function.update_self, if_pos rfl]
      omega
    · rw [Function.update_of_ne hi, if_neg hi]
      exact hbefore
  · have htotal := total_update (LockWorker.mutexSteps (rounds vars.mutexLocks)) s.workers t w'
    rw [hw, ← hu] at htotal
    have hbefore := h.steps
    rw [List.length_append, List.length_singleton]
    omega

theorem MutexInv.step (hword : vars.mutexLocks < 2 ^ 32) (h : MutexInv vars es s)
    (he : mutexRunStep vars s e = some u) : MutexInv vars (es ++ [e]) u := by
  have hother : ∀ t : Fin n, (∀ i, e.locks i = false) →
      ∀ i, (if e.locks i then 1 else 0) = if i = t then 0 else 0 := fun t hno i => by
    rw [hno i]
    simp
  cases e with
  | execute t rands =>
    rw [mutexRunStep] at he
    split at he
    · next htop =>
      obtain ⟨ops, hops, rfl⟩ := Option.map_eq_some_iff.mp he
      have hreturned : mutexExecuteRequest vars (mutexGetRequest vars) rands = .returned ops := by
        cases hexec : mutexExecuteRequest vars (mutexGetRequest vars) rands with
        | returned ops' =>
          rw [hexec] at hops
          cases hops
          rfl
        | trap =>
          rw [hexec] at hops
          cases hops
        | running =>
          rw [hexec] at hops
          cases hops
      obtain ⟨used, hused, rfl⟩ := executeLoop_returned hword hreturned
      refine h.extend htop rfl ?_ (hother t fun _ => rfl) ?_ ?_
      · exact h.orderly.walk (fun held hheld => by rwa [htop] at hheld) (paired_pairs _ _)
      · exact (locks_pairs _ _).trans hused
      · show (used.flatMap (lockPair vars.mutexNum)).length + 1 + 1 = 2 * rounds vars.mutexLocks + 2
        rw [length_pairs, hused]
    · cases he
  | perform t op =>
    have hp := perform_iff.mp he
    obtain ⟨ops, hw, hu⟩ := hp.workers
    refine h.extend (k := if op.isLock then 1 else 0) hw hu (h.orderly.perform hp) (fun i => ?_) ?_ rfl
    · by_cases hi : i = t
      · simp [MutexEvent.locks, hi]
      · simp [MutexEvent.locks, hi, Ne.symm hi]
    · exact List.countP_cons.symm
  | finish t =>
    rw [mutexRunStep] at he
    split at he
    · next hw =>
      cases he
      refine h.extend hw rfl ?_ (hother t fun _ => rfl) rfl rfl
      refine h.orderly.walk (fun held hheld => ?_) rfl
      rw [hw] at hheld
      cases hheld
      rfl
    · cases he

theorem mutexInv_of_run (hword : vars.mutexLocks < 2 ^ 32)
    (hr : run (mutexRunStep vars) (initLocks n) es = some s) : MutexInv vars es s :=
  run_invariant (I := MutexInv vars) mutexInv_init (fun _ _ _ _ _ h he => h.step hword he) hr

/-- Every run of the mutex test comes to an end. Then every worker has executed one request and has
locked as many mutexes as it asks for, or `2 ^ 32` if it asks for none, and no mutex is locked. -/
theorem mutex_run_ends {malloc : ℕ → Bool} {o : MutexOptions} (hinit : mutexInit malloc o = .ok vars)
    (hnum : (o.mutexNum : ℤ) ≠ 0) (hr : run (mutexRunStep vars) (initLocks n) es = some s) :
    es.length ≤ n * (2 * rounds vars.mutexLocks + 2) ∧
      ((∀ e, mutexRunStep vars s e = none) → (∀ t, s.workers t = .left) ∧
        (∀ i, s.owner i = none) ∧
        ∀ t, es.countP (MutexEvent.locks t) = rounds vars.mutexLocks) := by
  obtain ⟨hzero, hword⟩ : vars.mutexNum ≠ 0 ∧ vars.mutexLocks < 2 ^ 32 := by
    unfold mutexInit at hinit
    dsimp only at hinit
    split at hinit
    · cases hinit
      exact ⟨(toUInt_eq_zero_iff o.mutexNum).not.mpr hnum, toUInt_lt 32 _⟩
    · cases hinit
  have h := mutexInv_of_run hword hr
  refine ⟨(Nat.le_add_right _ _).trans h.steps, fun hstuck => ?_⟩
  have hleft : ∀ t, s.workers t = .left := by
    intro t
    cases hw : s.workers t with
    | top =>
      obtain ⟨rands, ops, hops⟩ := exists_executeLoop hzero hword
      have hnone := hstuck (.execute t rands)
      rw [mutexRunStep, hw] at hnone
      dsimp only at hnone
      rw [mutexExecuteRequest, mutexGetRequest, hops] at hnone
      cases hnone
    | executing ops =>
      have hnil := h.orderly.finished (fun i op => hstuck (.perform i op)) hw
      subst hnil
      have hnone := hstuck (.finish t)
      rw [mutexRunStep, hw] at hnone
      cases hnone
    | left => rfl
  refine ⟨hleft, h.orderly.free hleft, fun t => ?_⟩
  have hlocked := h.locked t
  rwa [hleft t] at hlocked

theorem mutexRun_stuck (hleft : ∀ t, s.workers t = .left) (e : MutexEvent n) :
    mutexRunStep vars s e = none := by
  cases e with
  | execute t rands => rw [mutexRunStep, hleft t]
  | perform t op => rw [mutexRunStep, LockState.perform, hleft t]
  | finish t => rw [mutexRunStep, hleft t]

end Mutexes

def twoMutexes : MutexOptions := ⟨⟨2, two_int⟩, ⟨1, one_int⟩, ⟨1, one_int⟩⟩

/-- Two workers draw the same mutex, and the second one waits for it. -/
def sameMutex : List (MutexEvent 2) :=
  [.execute 0 [7], .execute 1 [5], .perform 0 (.lock 1), .perform 0 (.unlock 1),
    .perform 1 (.lock 1), .finish 0, .perform 1 (.unlock 1), .finish 1]

theorem mutex_run_ends_two : ∃ s, run (mutexRunStep ⟨2, 1, 1⟩) (initLocks 2) sameMutex = some s ∧
    (∀ i, s.owner i = none) ∧ ∀ t, sameMutex.countP (MutexEvent.locks t) = rounds 1 := by
  obtain ⟨s, hs, hw, hw'⟩ : ∃ s, run (mutexRunStep ⟨2, 1, 1⟩) (initLocks 2) sameMutex = some s ∧
      s.workers 0 = .left ∧ s.workers 1 = .left := ⟨_, rfl, rfl, rfl⟩
  have hleft : ∀ t, s.workers t = .left := Fin.forall_fin_two.mpr ⟨hw, hw'⟩
  have hends := @mutex_run_ends 2 ⟨2, 1, 1⟩ _ s (fun _ => true) twoMutexes rfl (by decide) hs
  exact ⟨s, hs, (hends.2 fun e => mutexRun_stuck hleft e).2⟩

end Sysbench.Mutex
