import Sysbench.Machine.Pool
import Sysbench.Machine.Runs
import Sysbench.Machine.Words

/-! # The limit on the number of requests

`cpu_get_request` and `sb_lua_get_request` compare a counter with `max_requests` and raise it
afterwards. The comparison is made without a lock in both, so that other threads may come
between a thread's comparison and its increment. The increment is taken as one step, also in
`sb_lua_get_request`, where no lock protects `nevents++`.
-/
namespace Sysbench.Core.RequestLimit

open Runs Pool Words

/-- `sb_request_type_t`, of these tests. -/
inductive ReqType where
  | null | cpu | script
  deriving DecidableEq

/-- A generator with its check of the limit and the type of its requests. -/
structure GetRequest where
  limitReached : (maxRequests performed : ℕ) → Bool
  type : ReqType

def cpuGetRequest : GetRequest where
  limitReached maxRequests reqPerformed := decide (maxRequests > 0 ∧ reqPerformed ≥ maxRequests)
  type := .cpu

def sbLuaGetRequest : GetRequest where
  limitReached maxRequests nevents := decide (maxRequests ≠ 0 ∧ nevents ≥ maxRequests)
  type := .script

inductive TestName where
  | cpu | lua
  deriving DecidableEq

def getRequest : TestName → GetRequest
  | .cpu => cpuGetRequest
  | .lua => sbLuaGetRequest

structure LimitState (n : ℕ) where
  /-- `req_performed` or `nevents`, an `unsigned int` -/
  performed : ℕ
  /-- the threads that have passed the check and not raised the counter -/
  passed : Fin n → Bool

inductive LimitEvent (n : ℕ) where
  /-- thread `t` is sent away with a request of type `null` -/
  | refuse (t : Fin n) (type : ReqType)
  | pass (t : Fin n)
  /-- thread `t` raises the counter and is given a request -/
  | count (t : Fin n) (type : ReqType)
  deriving DecidableEq

variable {n : ℕ}

def initLimit (n : ℕ) : LimitState n where
  performed := 0
  passed _ := false

def limitStep (g : GetRequest) (maxRequests : ℕ) (s : LimitState n) :
    LimitEvent n → Option (LimitState n)
  | .refuse t type =>
    if s.passed t = false ∧ g.limitReached maxRequests s.performed = true ∧ type = .null then some s
    else none
  | .pass t =>
    if s.passed t = false ∧ g.limitReached maxRequests s.performed = false then
      some { s with passed := Function.update s.passed t true }
    else none
  | .count t type =>
    if s.passed t = true ∧ type = g.type then
      some
        { performed := toUInt 32 (s.performed + 1 : ℕ)
          passed := Function.update s.passed t false }
    else none

def LimitEvent.handsOut : LimitEvent n → Bool
  | .refuse _ type | .count _ type => type ≠ .null
  | .pass _ => false

def handedOut (es : List (LimitEvent n)) : ℕ := es.countP LimitEvent.handsOut

def LimitState.between (s : LimitState n) : ℕ := total Bool.toNat s.passed

/-- A thread passes the check only if the requests of the threads that have passed it before
leave one for it. -/
def LeavesOne (maxRequests : ℕ) (s : LimitState n) : LimitEvent n → Prop
  | .pass _ => s.performed + s.between < maxRequests
  | _ => True

variable {g : GetRequest} {maxRequests : ℕ} {s u : LimitState n} {es : List (LimitEvent n)}
  {e : LimitEvent n}

theorem handedOut_snoc : handedOut (es ++ [e]) = handedOut es + e.handsOut.toNat := by
  rw [handedOut, List.countP_append, List.countP_singleton]
  cases e.handsOut <;> rfl

theorem between_update {t : Fin n} {b : Bool} :
    total Bool.toNat (Function.update s.passed t b) + (s.passed t).toNat = s.between + b.toNat :=
  total_update Bool.toNat s.passed t b

theorem getRequest_type_ne (test : TestName) : (getRequest test).type ≠ .null := by
  cases test <;> decide

/-- A positive limit is reached when the counter has come to it, in both tests. -/
theorem getRequest_limitReached {test : TestName} (hpos : 0 < maxRequests) (performed : ℕ) :
    (getRequest test).limitReached maxRequests performed = decide (maxRequests ≤ performed) := by
  cases test with
  | cpu => simp [getRequest, cpuGetRequest, hpos]
  | lua => simp [getRequest, sbLuaGetRequest, hpos.ne']

/-- A step adds what it hands out to the counter, and moves one thread. -/
theorem limitStep_counts (hg : g.type ≠ .null) (he : limitStep g maxRequests s e = some u) :
    u.performed = toUInt 32 (s.performed + e.handsOut.toNat : ℕ) ∨
      e.handsOut = false ∧ u.performed = s.performed := by
  cases e with
  | refuse t type =>
    obtain ⟨⟨-, -, htype⟩, heq⟩ := Option.ite_none_right_eq_some.mp he
    cases heq
    exact Or.inr ⟨by simp [LimitEvent.handsOut, htype], rfl⟩
  | pass t =>
    obtain ⟨-, heq⟩ := Option.ite_none_right_eq_some.mp he
    cases heq
    exact Or.inr ⟨rfl, rfl⟩
  | count t type =>
    obtain ⟨⟨-, htype⟩, heq⟩ := Option.ite_none_right_eq_some.mp he
    cases heq
    left
    simp [LimitEvent.handsOut, htype, hg]

/-- The counter is the number of requests handed out, as an `unsigned int`. -/
theorem run_performed (hg : g.type ≠ .null)
    (hr : run (limitStep g maxRequests) (initLimit n) es = some s) :
    s.performed = toUInt 32 (handedOut es : ℕ) := by
  refine run_invariant (I := fun es (s : LimitState n) => s.performed = toUInt 32 (handedOut es : ℕ))
    ?_ ?_ hr
  · rw [toUInt_eq_mod]
    rfl
  · intro es s e u _ hs he
    rw [handedOut_snoc]
    rcases limitStep_counts hg he with hcount | ⟨hno, hsame⟩
    · rw [hcount, hs, toUInt_toUInt_add]
    · rw [hsame, hs, hno]
      rfl

/-- What is handed out and what is promised grows exactly when a thread passes the check. -/
theorem limitStep_promised (es : List (LimitEvent n)) (hg : g.type ≠ .null)
    (he : limitStep g maxRequests s e = some u) :
    handedOut (es ++ [e]) + u.between =
      handedOut es + s.between + if e matches .pass _ then 1 else 0 := by
  rw [handedOut_snoc]
  cases e with
  | refuse t type =>
    obtain ⟨⟨-, -, htype⟩, heq⟩ := Option.ite_none_right_eq_some.mp he
    cases heq
    simp [LimitEvent.handsOut, htype]
  | pass t =>
    obtain ⟨⟨hidle, -⟩, heq⟩ := Option.ite_none_right_eq_some.mp he
    cases heq
    have hmove := between_update (s := s) (t := t) (b := true)
    rw [hidle] at hmove
    simp only [LimitState.between, LimitEvent.handsOut, Bool.toNat_false, Bool.toNat_true,
      if_true] at hmove ⊢
    omega
  | count t type =>
    obtain ⟨⟨hpassed, htype⟩, heq⟩ := Option.ite_none_right_eq_some.mp he
    cases heq
    have hmove := between_update (s := s) (t := t) (b := false)
    rw [hpassed] at hmove
    have hout : (LimitEvent.count t type).handsOut = true := by
      simp [LimitEvent.handsOut, htype, hg]
    rw [hout]
    simp only [LimitState.between, Bool.toNat_false, Bool.toNat_true, Bool.false_eq_true,
      if_false] at hmove ⊢
    omega

/-- What is handed out and promised stays within the limit exactly when every thread that
passes the check finds one request left. -/
theorem promised_le_iff {test : TestName} (hmax : maxRequests < 2 ^ 32)
    (hr : run (limitStep (getRequest test) maxRequests) (initLimit n) es = some s) :
    handedOut es + s.between ≤ maxRequests ↔
      Guarded (limitStep (getRequest test) maxRequests) (LeavesOne maxRequests) (initLimit n) es := by
  refine guarded_iff (P := fun es (s : LimitState n) => handedOut es + s.between ≤ maxRequests)
    ?_ ?_ hr
  · have hnone : (initLimit n).between = 0 := total_eq_zero fun _ => rfl
    rw [hnone]
    exact Nat.zero_le _
  · intro es s e u hs he
    have hg := getRequest_type_ne test
    have hperf := run_performed hg hs
    have hpromised := limitStep_promised es hg he
    rw [hpromised]
    cases e with
    | pass t =>
      simp only [LeavesOne, if_true]
      constructor
      · intro hle
        rw [hperf, toUInt_natCast (by omega)]
        omega
      · rintro ⟨hle, hleft⟩
        rw [hperf, toUInt_natCast (by omega)] at hleft
        omega
    | _ => simp [LeavesOne]

/-- The check is enough when nobody is between the two steps. -/
theorem LeavesOne.of_alone {test : TestName} (hpos : 0 < maxRequests)
    (he : limitStep (getRequest test) maxRequests s e = some u) (halone : s.between = 0) :
    LeavesOne maxRequests s e := by
  cases e with
  | pass t =>
    obtain ⟨⟨-, hcheck⟩, -⟩ := Option.ite_none_right_eq_some.mp he
    rw [getRequest_limitReached hpos, decide_eq_false_iff_not] at hcheck
    simp only [LeavesOne]
    omega
  | _ => trivial

/-- The limit holds in every run in which each thread that passes the check finds one request
left, and in no other run whose threads have all returned. -/
theorem handedOut_le_iff {test : TestName} {maxRequests : ℕ} (hmax : maxRequests < 2 ^ 32)
    {es : List (LimitEvent n)} {s : LimitState n}
    (hr : run (limitStep (getRequest test) maxRequests) (initLimit n) es = some s) :
    (Guarded (limitStep (getRequest test) maxRequests) (LeavesOne maxRequests) (initLimit n) es →
        handedOut es ≤ maxRequests) ∧
      ((∀ t, s.passed t = false) → handedOut es ≤ maxRequests →
        Guarded (limitStep (getRequest test) maxRequests) (LeavesOne maxRequests) (initLimit n) es) := by
  rw [← promised_le_iff hmax hr]
  constructor
  · intro hle
    omega
  · intro hidle hle
    have hnone : s.between = 0 := total_eq_zero fun t => by simp [hidle t]
    omega

def raceEvents (type : ReqType) : List (LimitEvent 2) :=
  [.pass 0, .pass 1, .count 0 type, .count 1 type]

theorem raceEvents_run (test : TestName) :
    ∃ s, run (limitStep (getRequest test) 1) (initLimit 2) (raceEvents (getRequest test).type) =
      some s ∧ ∀ t, s.passed t = false := by
  cases test
  all_goals exact ⟨_, rfl, by decide⟩

/-- Two requests are handed out under a limit of one. -/
theorem handedOut_race : ∃ es : List (LimitEvent 2),
    (∃ s, run (limitStep (getRequest .cpu) 1) (initLimit 2) es = some s) ∧ ¬ handedOut es ≤ 1 := by
  obtain ⟨s, hs, -⟩ := raceEvents_run .cpu
  exact ⟨_, ⟨s, hs⟩, by decide⟩

theorem handedOut_le_iff_race :
    ¬ Guarded (limitStep cpuGetRequest 1) (LeavesOne 1) (initLimit 2) (raceEvents .cpu) := by
  obtain ⟨s, hs, hidle⟩ := raceEvents_run .cpu
  intro hguarded
  have hle : handedOut (raceEvents .cpu) ≤ 1 :=
    (handedOut_le_iff (by decide) hs).1 hguarded
  exact absurd hle (by decide)

end Sysbench.Core.RequestLimit
