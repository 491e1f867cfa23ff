import Sysbench.Machine.Checks
import Sysbench.Machine.Runs
import Sysbench.Machine.Words
import Sysbench.Options.Getters

/-! # The tests of threads and of mutexes

Both take their numbers from `int` options into unsigned variables and compute a lock from a
remainder: of the number of requests, and of `rand()`.
-/
namespace Sysbench.Mutex

open Runs Words

/-- What `sb_get_value_int` returns. -/
abbrev IntValue := {x : ℤ // Options.intMin ≤ x ∧ x ≤ Options.intMax}

theorem toUInt_eq_zero_iff (x : IntValue) : toUInt 32 x = 0 ↔ (x : ℤ) = 0 := by
  obtain ⟨x, hlo, hhi⟩ := x
  unfold Options.intMin at hlo
  unfold Options.intMax at hhi
  unfold toUInt
  dsimp only
  omega

def pthreadMutexSize : ℕ := 40

inductive LockOp
  | lock (i : ℕ)
  | unlock (i : ℕ)
deriving DecidableEq

def LockOp.index : LockOp → ℕ
  | .lock i => i
  | .unlock i => i

/-! ## The threads test -/

structure ThreadsOptions where
  threadYields : IntValue
  threadLocks : IntValue

structure ThreadsVars where
  threadYields : ℕ
  threadLocks : ℕ
  reqPerformed : ℕ

inductive ThreadsRequest
  | null
  | threads (lockNum : ℕ)
deriving DecidableEq

def threadsInit (o : ThreadsOptions) : ThreadsVars where
  threadYields := toUInt 32 o.threadYields
  threadLocks := toUInt 32 o.threadLocks
  reqPerformed := 0

/-- `malloc size` is whether the allocation succeeds. -/
def threadsPrepare (malloc : ℕ → Bool) (s : ThreadsVars) : Except String Unit :=
  if malloc (s.threadLocks * pthreadMutexSize) then .ok () else .error "Memory allocation failure!"

/-- There is no result when the remainder traps. -/
def threadsGetRequest (maxRequests : ℕ) (s : ThreadsVars) : Option (ThreadsRequest × ThreadsVars) :=
  if 0 < maxRequests ∧ maxRequests ≤ s.reqPerformed then some (.null, s)
  else if s.threadLocks = 0 then none
  else
    some (.threads (s.reqPerformed % s.threadLocks),
      { s with reqPerformed := toUInt 32 (s.reqPerformed + 1 : ℕ) })

def threadsExecuteRequest (s : ThreadsVars) (lockNum : ℕ) : List LockOp :=
  (List.replicate s.threadYields [LockOp.lock lockNum, .unlock lockNum]).flatten

def threadsStep (maxRequests : ℕ) (s : ThreadsVars) (_threadId : ℕ) : Option ThreadsVars :=
  (threadsGetRequest maxRequests s).map Prod.snd

/-- No call after a successful preparation traps. -/
def ThreadsDefined (maxRequests : ℕ) (o : ThreadsOptions) : Prop :=
  ∀ malloc, threadsPrepare malloc (threadsInit o) = .ok () →
    ∀ calls s, run (threadsStep maxRequests) (threadsInit o) calls = some s →
      threadsGetRequest maxRequests s ≠ none

theorem threadsStep_threadLocks {maxRequests : ℕ} {s t : ThreadsVars} {threadId : ℕ}
    (h : threadsStep maxRequests s threadId = some t) : t.threadLocks = s.threadLocks := by
  unfold threadsStep threadsGetRequest at h
  split_ifs at h <;> cases h <;> rfl

theorem run_threadLocks {maxRequests : ℕ} {o : ThreadsOptions} {calls : List ℕ} {s : ThreadsVars}
    (hr : run (threadsStep maxRequests) (threadsInit o) calls = some s) :
    s.threadLocks = toUInt 32 o.threadLocks :=
  run_preserves (I := fun s => s.threadLocks = toUInt 32 o.threadLocks)
    (fun _ _ _ hs hstep => (threadsStep_threadLocks hstep).trans hs) rfl hr

theorem threadsDefined_iff (maxRequests : ℕ) (o : ThreadsOptions) :
    ThreadsDefined maxRequests o ↔ (o.threadLocks : ℤ) ≠ 0 := by
  rw [Ne, ← toUInt_eq_zero_iff]
  constructor
  · intro hdef hzero
    refine hdef (fun _ => true) rfl [] _ rfl ?_
    have hfirst : ¬ (0 < maxRequests ∧ maxRequests ≤ 0) := by omega
    exact (if_neg hfirst).trans (if_pos hzero)
  · intro hne malloc _ calls s hr
    rw [← run_threadLocks hr] at hne
    unfold threadsGetRequest
    rw [if_neg hne]
    split_ifs <;> exact Option.some_ne_none _

/-! ## The mutex test -/

structure MutexOptions where
  mutexNum : IntValue
  mutexLocks : IntValue
  mutexLoops : IntValue

structure MutexVars where
  mutexNum : ℕ
  mutexLocks : ℕ
  mutexLoops : ℕ

structure MutexRequest where
  nlocks : ℕ
  nloops : ℕ

/-- `thread_lock`, with its padding -/
def threadLockSize : ℕ := pthreadMutexSize + 256

def mutexInit (malloc : ℕ → Bool) (o : MutexOptions) : Except String MutexVars :=
  let s : MutexVars := ⟨toUInt 32 o.mutexNum, toUInt 32 o.mutexLocks, toUInt 32 o.mutexLoops⟩
  if malloc (s.mutexNum * threadLockSize) then .ok s else .error "Memory allocation failure!"

def mutexGetRequest (s : MutexVars) : MutexRequest := ⟨s.mutexLocks, s.mutexLoops⟩

inductive Execution
  /-- the remainder trapped -/
  | trap
  /-- `rand()` is called once more -/
  | running
  | returned (ops : List LockOp)
deriving DecidableEq

/-- The operations before those of the rest. -/
def Execution.after (ops : List LockOp) : Execution → Execution
  | .trap => .trap
  | .running => .running
  | .returned rest => .returned (ops ++ rest)

def lockPair (mutexNum rand : ℕ) : List LockOp :=
  [.lock (rand % mutexNum), .unlock (rand % mutexNum)]

/-- The `do` loop on the values of `rand()`. Its inner loop has no effect but time. -/
def executeLoop (mutexNum : ℕ) : ℕ → List ℕ → Execution
  | _, [] => .running
  | nlocks, rand :: rands =>
    if mutexNum = 0 then .trap
    else
      let left := toUInt 32 ((nlocks : ℤ) - 1)
      if 0 < left then (executeLoop mutexNum left rands).after (lockPair mutexNum rand)
      else .returned (lockPair mutexNum rand)

def mutexExecuteRequest (s : MutexVars) (r : MutexRequest) (rands : List ℕ) : Execution :=
  executeLoop s.mutexNum r.nlocks rands

/-- After every successful initialization the execution of a request does not trap, and performs
the pairs asked for, whatever `rand()` returns. -/
def MutexExact (o : MutexOptions) : Prop :=
  ∀ malloc s, mutexInit malloc o = .ok s →
    (∀ rands, mutexExecuteRequest s (mutexGetRequest s) rands ≠ .trap) ∧
      (0 ≤ (o.mutexLocks : ℤ) → ∀ rand : ℕ → ℕ, ∃ n,
        mutexExecuteRequest s (mutexGetRequest s) ((List.range n).map rand) =
          .returned
            ((List.range (o.mutexLocks : ℤ).toNat).flatMap fun k => lockPair s.mutexNum (rand k)))

section Loop

variable {mutexNum : ℕ}

theorem executeLoop_ne_trap (hnum : mutexNum ≠ 0) (nlocks : ℕ) (rands : List ℕ) :
    executeLoop mutexNum nlocks rands ≠ .trap := by
  induction rands generalizing nlocks with
  | nil => exact Execution.noConfusion
  | cons rand rands ih =>
    rw [executeLoop, if_neg hnum]
    dsimp only
    split_ifs
    · have hrest := ih (toUInt 32 ((nlocks : ℤ) - 1))
      cases hexec : executeLoop mutexNum (toUInt 32 ((nlocks : ℤ) - 1)) rands with
      | trap => exact absurd hexec hrest
      | running => exact Execution.noConfusion
      | returned ops => exact Execution.noConfusion
    · exact Execution.noConfusion

theorem executeLoop_ne_nil (nlocks : ℕ) (rands : List ℕ) :
    executeLoop mutexNum nlocks rands ≠ .returned [] := by
  cases rands with
  | nil => exact Execution.noConfusion
  | cons rand rands =>
    rw [executeLoop]
    dsimp only
    split_ifs
    · exact Execution.noConfusion
    · cases executeLoop mutexNum (toUInt 32 ((nlocks : ℤ) - 1)) rands with
      | trap => exact Execution.noConfusion
      | running => exact Execution.noConfusion
      | returned ops => exact fun h => by cases h
    · exact fun h => by cases h

theorem executeLoop_eq (hnum : mutexNum ≠ 0) {rands : List ℕ} (hpos : 0 < rands.length)
    (hword : rands.length < 2 ^ 32) :
    executeLoop mutexNum rands.length rands = .returned (rands.flatMap (lockPair mutexNum)) := by
  induction rands with
  | nil => exact absurd hpos (lt_irrefl 0)
  | cons rand rands ih =>
    rw [List.length_cons] at hword ⊢
    have hleft : toUInt 32 (((rands.length + 1 : ℕ) : ℤ) - 1) = rands.length := by
      have hsub := toUInt_sub (w := 32) (Nat.le_add_left 1 rands.length) hword
      rw [Nat.cast_one] at hsub
      rw [hsub, Nat.add_sub_cancel]
    rw [executeLoop, if_neg hnum, hleft, List.flatMap_cons]
    dsimp only
    by_cases hmore : 0 < rands.length
    · rw [if_pos hmore, ih hmore (by omega)]
      rfl
    · rw [if_neg hmore, List.length_eq_zero_iff.mp (by omega : rands.length = 0)]
      rfl

theorem executeLoop_zero (hnum : mutexNum ≠ 0) {rands : List ℕ} (hlen : rands.length = 2 ^ 32) :
    executeLoop mutexNum 0 rands = .returned (rands.flatMap (lockPair mutexNum)) := by
  cases rands with
  | nil => exact absurd hlen (by decide)
  | cons rand rands =>
    have hrest : rands.length = 2 ^ 32 - 1 := by
      rw [List.length_cons] at hlen
      omega
    have hleft : toUInt 32 (((0 : ℕ) : ℤ) - 1) = rands.length := by
      rw [hrest]
      rfl
    rw [executeLoop, if_neg hnum, hleft, List.flatMap_cons]
    dsimp only
    rw [if_pos (by omega), executeLoop_eq hnum (by omega) (by omega)]
    rfl

end Loop

theorem mutexExact_iff (o : MutexOptions) :
    MutexExact o ↔ (o.mutexNum : ℤ) ≠ 0 ∧ (o.mutexLocks : ℤ) ≠ 0 := by
  constructor
  · intro hexact
    have hinit := hexact (fun _ => true) _ rfl
    refine ⟨fun hzero => ?_, fun hzero => ?_⟩
    · exact hinit.1 [0] (if_pos ((toUInt_eq_zero_iff o.mutexNum).mpr hzero))
    · obtain ⟨n, hn⟩ := hinit.2 hzero.ge fun _ => 0
      rw [hzero] at hn
      exact executeLoop_ne_nil _ _ hn
  · rintro ⟨hnum, hlocks⟩ malloc s hs
    unfold mutexInit at hs
    dsimp only at hs
    split_ifs at hs
    cases hs
    have hnum' : toUInt 32 o.mutexNum ≠ 0 := fun h => hnum ((toUInt_eq_zero_iff _).mp h)
    refine ⟨executeLoop_ne_trap hnum' _, fun hnn rand => ?_⟩
    have hhi := o.mutexLocks.2.2
    unfold Options.intMax at hhi
    have hlen : ((List.range (o.mutexLocks : ℤ).toNat).map rand).length =
        (o.mutexLocks : ℤ).toNat := by
      rw [List.length_map, List.length_range]
    have hcounter : toUInt 32 o.mutexLocks = (o.mutexLocks : ℤ).toNat :=
      toUInt_of_range hnn (by omega)
    have hloop := executeLoop_eq hnum' (hlen.symm ▸ (by omega : 0 < (o.mutexLocks : ℤ).toNat))
      (hlen.symm ▸ (by omega : (o.mutexLocks : ℤ).toNat < 2 ^ 32))
    rw [hlen, ← hcounter, List.flatMap_map] at hloop
    rw [← hcounter]
    exact ⟨toUInt 32 o.mutexLocks, hloop⟩

end Sysbench.Mutex
