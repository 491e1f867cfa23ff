import Sysbench.Core.Checkpoints
import Sysbench.Core.RequestLimit
import Sysbench.Machine.Parts

/-! # The number of events in the reports

The workers of the CPU test get their requests under the limit, report the beginning and the end of
each to the log, and every report counts the ends since the one before. So the reports together
count every request that was handed out, and at most one more for each further worker than the
limit allows.
-/
namespace Sysbench.Core

open Runs Pool Parts Words Windows RequestLimit

inductive WorkPlace where
  | top
  /-- `cpu_get_request` has passed its check -/
  | passed
  | requested
  /-- the start message is handled -/
  | started
  /-- the timer section of the stop message -/
  | stopped
  /-- about to compare the clock with the time limit -/
  | executed
  | left
  deriving DecidableEq

structure WorkState (n : ℕ) where
  limit : LimitState n
  log : LogState n
  places : Fin n → WorkPlace

inductive WorkEvent (n : ℕ) where
  | limit (e : LimitEvent n)
  | log (e : LogEvent n)
  | check (t : Fin n) (timeLimit : Bool)

variable {n : ℕ}

def initWork (n : ℕ) : WorkState n := ⟨initLimit n, operHandlerInit n, fun _ => .top⟩

def WorkState.walk (s : WorkState n) (t : Fin n) (p q : WorkPlace) : Option (WorkState n) :=
  if s.places t = p then some { s with places := Function.update s.places t q } else none

/-- What a step on the limit is for its worker. -/
def limitWalk (s : WorkState n) : LimitEvent n → Option (WorkState n)
  | .refuse t _ => s.walk t .top .left
  | .pass t => s.walk t .top .passed
  | .count t _ => s.walk t .passed .requested

/-- What a message is for its worker; the reports are no steps of a worker. There is neither a queue
of events nor a forced shutdown. -/
def logWalk (s : WorkState n) : LogEvent n → Option (WorkState n)
  | .queue _ _ _ => none
  | .printForced _ _ _ => none
  | .start t _ => s.walk t .requested .started
  | .stop t _ _ => s.walk t .started .stopped
  | .update t => s.walk t .stopped .executed
  | _ => some s

def workStep (maxRequests : ℕ) (bucket : ℤ → ℕ) (s : WorkState n) :
    WorkEvent n → Option (WorkState n)
  | .limit e =>
    (limitStep cpuGetRequest maxRequests s.limit e).bind fun limit => limitWalk { s with limit } e
  | .log e => (logStep bucket s.log e).bind fun log => logWalk { s with log } e
  | .check t timeLimit => s.walk t .executed (if timeLimit then .left else .top)

def WorkEvent.limit? : WorkEvent n → Option (LimitEvent n)
  | .limit e => some e
  | _ => none

def WorkEvent.log? : WorkEvent n → Option (LogEvent n)
  | .log e => some e
  | _ => none

def limits (es : List (WorkEvent n)) : List (LimitEvent n) := es.filterMap WorkEvent.limit?

def messages (es : List (WorkEvent n)) : List (LogEvent n) := es.filterMap WorkEvent.log?

def finalReport (t : SbTimer) : List (WorkEvent n) :=
  [.log .copy, .log .calculate, .log .reset, .log (.print t)]

def WorkPlace.busy : WorkPlace → ℕ
  | .requested | .started => 1
  | _ => 0

section Work

variable {maxRequests : ℕ} {bucket : ℤ → ℕ} {s u : WorkState n} {e : WorkEvent n}
  {es : List (WorkEvent n)}

theorem walk_eq {t : Fin n} {p q : WorkPlace} (h : s.walk t p q = some u) :
    s.places t = p ∧ u = { s with places := Function.update s.places t q } := by
  obtain ⟨hp, heq⟩ := Option.ite_none_right_eq_some.mp h
  exact ⟨hp, (Option.some.inj heq).symm⟩

theorem limitWalk_parts {e : LimitEvent n} (h : limitWalk s e = some u) :
    u.limit = s.limit ∧ u.log = s.log := by
  cases e with
  | refuse t type | pass t | count t type =>
    obtain ⟨-, rfl⟩ := walk_eq h
    exact ⟨rfl, rfl⟩

theorem logWalk_parts {e : LogEvent n} (h : logWalk s e = some u) :
    u.limit = s.limit ∧ u.log = s.log := by
  cases e with
  | queue | printForced => cases h
  | start | stop | update =>
    obtain ⟨-, rfl⟩ := walk_eq h
    exact ⟨rfl, rfl⟩
  | copy | calculate | reset | print =>
    cases h
    exact ⟨rfl, rfl⟩

theorem limit_isPart : IsPart (workStep (n := n) maxRequests bucket)
    (limitStep cpuGetRequest maxRequests) WorkState.limit WorkEvent.limit? := by
  intro s e u he
  cases e with
  | limit e =>
    obtain ⟨limit, hlimit, hwalk⟩ := Option.bind_eq_some_iff.mp he
    rw [(limitWalk_parts hwalk).1]
    exact hlimit
  | log e =>
    obtain ⟨log, -, hwalk⟩ := Option.bind_eq_some_iff.mp he
    exact (logWalk_parts hwalk).1
  | check t timeLimit =>
    obtain ⟨-, rfl⟩ := walk_eq he
    rfl

theorem log_isPart : IsPart (workStep (n := n) maxRequests bucket) (logStep bucket)
    WorkState.log WorkEvent.log? := by
  intro s e u he
  cases e with
  | limit e =>
    obtain ⟨limit, -, hwalk⟩ := Option.bind_eq_some_iff.mp he
    exact (limitWalk_parts hwalk).2
  | log e =>
    obtain ⟨log, hlog, hwalk⟩ := Option.bind_eq_some_iff.mp he
    rw [(logWalk_parts hwalk).2]
    exact hlog
  | check t timeLimit =>
    obtain ⟨-, rfl⟩ := walk_eq he
    rfl

/-! ## The requests and the ends of their execution -/

def WorkEvent.hands : WorkEvent n → ℕ
  | .limit e => e.handsOut.toNat
  | _ => 0

def WorkEvent.ends : WorkEvent n → ℕ
  | .log e => e.stopTime.toList.length
  | _ => 0

theorem walk_busy {t : Fin n} {p q : WorkPlace} (h : s.walk t p q = some u) :
    total WorkPlace.busy u.places + p.busy = total WorkPlace.busy s.places + q.busy := by
  obtain ⟨hp, rfl⟩ := walk_eq h
  have htotal := total_update WorkPlace.busy s.places t q
  rw [hp] at htotal
  exact htotal

theorem workStep_busy (he : workStep maxRequests bucket s e = some u) :
    total WorkPlace.busy u.places + e.ends = total WorkPlace.busy s.places + e.hands := by
  cases e with
  | limit e =>
    obtain ⟨limit, hlimit, hwalk⟩ := Option.bind_eq_some_iff.mp he
    cases e with
    | refuse t type =>
      obtain ⟨⟨-, -, rfl⟩, -⟩ := Option.ite_none_right_eq_some.mp hlimit
      exact walk_busy hwalk
    | pass t => exact walk_busy hwalk
    | count t type =>
      obtain ⟨⟨-, rfl⟩, -⟩ := Option.ite_none_right_eq_some.mp hlimit
      exact walk_busy hwalk
  | log e =>
    obtain ⟨log, -, hwalk⟩ := Option.bind_eq_some_iff.mp he
    cases e with
    | queue | printForced => cases hwalk
    | start t now =>
      have hbusy := walk_busy hwalk
      exact Nat.succ.inj hbusy
    | stop t now elapsed => exact walk_busy hwalk
    | update t => exact walk_busy hwalk
    | copy | calculate | reset | print =>
      cases hwalk
      rfl
  | check t timeLimit =>
    rw [workStep] at he
    have hbusy := walk_busy he
    cases timeLimit <;> exact hbusy

theorem limits_snoc (es : List (WorkEvent n)) (e : WorkEvent n) :
    handedOut (limits (es ++ [e])) = handedOut (limits es) + e.hands := by
  rw [limits, filterMap_snoc, ← limits]
  cases e with
  | limit e => exact handedOut_snoc
  | log | check =>
    rw [show WorkEvent.limit? _ = none from rfl, Option.toList_none, List.append_nil]
    rfl

theorem messages_snoc (es : List (WorkEvent n)) (e : WorkEvent n) :
    (stopTimes (messages (es ++ [e]))).card = (stopTimes (messages es)).card + e.ends := by
  rw [messages, filterMap_snoc, ← messages]
  cases e with
  | log e =>
    rw [show (WorkEvent.log e).log?.toList = [e] from rfl, stopTimes_snoc, Multiset.card_add]
    rfl
  | limit | check =>
    rw [show WorkEvent.log? _ = none from rfl, Option.toList_none, List.append_nil]
    rfl

/-! ## Runs -/

theorem work_accounts (hr : run (workStep maxRequests bucket) (initWork n) es = some s) :
    (stopTimes (messages es)).card + total WorkPlace.busy s.places = handedOut (limits es) := by
  refine run_invariant (I := fun es s => (stopTimes (messages es)).card +
    total WorkPlace.busy s.places = handedOut (limits es)) ?_ (fun es s e u _ h he => ?_) hr
  · exact (Nat.zero_add _).trans (total_eq_zero fun _ => rfl)
  · have hbusy := workStep_busy he
    rw [messages_snoc, limits_snoc, ← h]
    omega

/-- The alarm of a forced shutdown is not part of these runs. -/
theorem messages_not_forced (hr : run (workStep maxRequests bucket) (initWork n) es = some s) :
    ∀ m ∈ messages es, m.isForced = false := by
  refine run_invariant (I := fun es (_ : WorkState n) => ∀ m ∈ messages es, m.isForced = false)
    (fun m hm => absurd hm List.not_mem_nil) (fun es s e u _ h he m hm => ?_) hr
  rw [messages, filterMap_snoc, ← messages, List.mem_append] at hm
  rcases hm with hm | hm
  · exact h m hm
  · cases e with
    | limit | check => cases hm
    | log e =>
      obtain rfl := List.mem_singleton.mp hm
      obtain ⟨log, -, hwalk⟩ := Option.bind_eq_some_iff.mp he
      cases m with
      | printForced => cases hwalk
      | _ => rfl

/-- A worker has left because the limit is reached, or because of the time limit. -/
theorem left_cases (hr : run (workStep maxRequests bucket) (initWork n) es = some s) (t : Fin n)
    (ht : s.places t = .left) : .limit (.refuse t .null) ∈ es ∨ .check t true ∈ es := by
  refine run_invariant (I := fun es s => ∀ t, s.places t = .left →
    WorkEvent.limit (.refuse t .null) ∈ es ∨ .check t true ∈ es) (fun t ht => by cases ht)
    (fun es s e u _ h he t ht => ?_) hr t ht
  have hother : ∀ {i p q} {v : WorkState n}, v.walk i p q = some u → v.places = s.places →
      (i = t → q = .left → WorkEvent.limit (.refuse t .null) = e ∨ .check t true = e) →
      WorkEvent.limit (.refuse t .null) ∈ es ++ [e] ∨ .check t true ∈ es ++ [e] := by
    intro i p q v hwalk hv hnew
    obtain ⟨-, rfl⟩ := walk_eq hwalk
    dsimp only at ht
    rcases update_eq_iff.mp ht with ⟨rfl, hq⟩ | ⟨-, ht⟩
    · exact (hnew rfl hq).imp (fun heq => List.mem_append_right _ (List.mem_singleton.mpr heq))
        fun heq => List.mem_append_right _ (List.mem_singleton.mpr heq)
    · rw [hv] at ht
      exact (h t ht).imp (List.mem_append_left _) (List.mem_append_left _)
  cases e with
  | limit e =>
    obtain ⟨limit, hlimit, hwalk⟩ := Option.bind_eq_some_iff.mp he
    cases e with
    | refuse i type =>
      obtain ⟨⟨-, -, rfl⟩, -⟩ := Option.ite_none_right_eq_some.mp hlimit
      exact hother hwalk rfl fun hi _ => .inl (by rw [hi])
    | pass i | count i type => exact hother hwalk rfl fun _ hq => by cases hq
  | log e =>
    obtain ⟨log, -, hwalk⟩ := Option.bind_eq_some_iff.mp he
    cases e with
    | queue | printForced => cases hwalk
    | start i now | stop i now elapsed | update i => exact hother hwalk rfl fun _ hq => by cases hq
    | copy | calculate | reset | print =>
      cases hwalk
      exact (h t ht).imp (List.mem_append_left _) (List.mem_append_left _)
  | check i timeLimit =>
    refine hother he rfl fun hi hq => ?_
    cases timeLimit with
    | true => exact .inr (by rw [hi])
    | false => cases hq

theorem between_le (s : LimitState n) : s.between ≤ n := by
  calc s.between = ∑ t, (s.passed t).toNat := rfl
    _ ≤ ∑ _t : Fin n, 1 := Finset.sum_le_sum fun t _ => Bool.toNat_le _
    _ = n := by simp

/-- Everybody may have passed the check for the last request. -/
theorem handedOut_lt {es : List (LimitEvent n)} {s : LimitState n} (hpos : 0 < maxRequests)
    (hword : maxRequests + n ≤ 2 ^ 32)
    (hr : run (limitStep cpuGetRequest maxRequests) (initLimit n) es = some s) :
    handedOut es + s.between < maxRequests + n ∧
      ∀ t, .refuse t .null ∈ es → maxRequests ≤ handedOut es := by
  have htype : cpuGetRequest.type ≠ .null := by decide
  refine run_invariant (I := fun es s => handedOut es + s.between < maxRequests + n ∧
    ∀ t, .refuse t .null ∈ es → maxRequests ≤ handedOut es) ⟨?_, fun t h => by cases h⟩ ?_ hr
  · have hnone : (initLimit n).between = 0 := total_eq_zero fun _ => rfl
    rw [hnone]
    exact Nat.add_pos_left hpos n
  · rintro es s e u hes ⟨hlt, hrefused⟩ he
    have hperformed : s.performed = handedOut es := by
      rw [run_performed htype hes, toUInt_natCast (by omega)]
    have hpromised := limitStep_promised es htype he
    refine ⟨?_, fun t hmem => ?_⟩
    · cases e with
      | pass t =>
        obtain ⟨⟨-, hcheck⟩, -⟩ := Option.ite_none_right_eq_some.mp he
        have hmore : s.performed < maxRequests := by
          simp only [cpuGetRequest, decide_eq_false_iff_not] at hcheck
          omega
        have hbetween := between_le u
        rw [handedOut_snoc]
        simp only [LimitEvent.handsOut, Bool.toNat_false]
        omega
      | refuse | count =>
        simp only [reduceCtorEq, if_false] at hpromised
        omega
    · rw [handedOut_snoc]
      rcases List.mem_append.mp hmem with hmem | hmem
      · exact (hrefused t hmem).trans (Nat.le_add_right _ _)
      · cases List.mem_singleton.mp hmem
        obtain ⟨⟨-, hcheck, -⟩, -⟩ := Option.ite_none_right_eq_some.mp he
        simp only [cpuGetRequest, decide_eq_true_eq] at hcheck
        omega

/-- The events of reports that count fewer than `2 ^ 64` stops. -/
theorem events_of_parts {parts : List (SbTimer × Multiset ℕ)}
    (h : ∀ part ∈ parts, part.1.events = part.2.card) :
    ((parts.map Prod.fst).map SbTimer.events).sum = ((parts.map Prod.snd).sum).card := by
  induction parts with
  | nil => rfl
  | cons part parts ih =>
    simp only [List.map_cons, List.sum_cons, Multiset.card_add]
    rw [h part List.mem_cons_self, ih fun p hp => h p (List.mem_cons_of_mem _ hp)]

/-- A report after which nothing stops leaves nothing uncounted. -/
theorem events_reported {es : List (LogEvent n)} {s : LogState n} {t : SbTimer}
    (hforced : ∀ e ∈ es, e.isForced = false) (hcard : (stopTimes es).card < 2 ^ 64)
    (hr : run (logStep bucket) (operHandlerInit n)
      (es ++ [LogEvent.copy, .calculate, .reset, .print t]) = some s) :
    ((reports (es ++ [LogEvent.copy, .calculate, .reset, .print t])).map SbTimer.events).sum =
      (stopTimes es).card := by
  have hplain : ∀ e ∈ es ++ [LogEvent.copy, .calculate, .reset, .print t], e.isForced = false := by
    intro e he
    rcases List.mem_append.mp he with he | he
    · exact hforced e he
    · simp only [List.mem_cons, List.not_mem_nil, or_false] at he
      rcases he with rfl | rfl | rfl | rfl <;> rfl
  obtain ⟨parts, hfst, hrecords, hsplit⟩ := (run_counted hplain hr).ledger
  have hlast : es ++ [LogEvent.copy, .calculate, .reset, .print t] =
      es ++ [LogEvent.copy] ++ [LogEvent.calculate] ++ [LogEvent.reset] ++ [LogEvent.print t] := by
    simp
  have hquiet : stopTimes (es ++ [LogEvent.copy, .calculate, .reset, .print t]) = stopTimes es := by
    rw [hlast]
    simp only [stopTimes_snoc, LogEvent.stopTime, Option.toList_none, Multiset.coe_nil, add_zero]
  have hsince : stopTimes (since LogEvent.isCopy
      (es ++ [LogEvent.copy, .calculate, .reset, .print t])) = 0 := by
    rw [hlast, since_other _ rfl, since_other _ rfl, since_other _ rfl, since_mark _ rfl]
    rfl
  have hidle : s.reporter.timersCopy = none := by
    rw [hlast] at hr
    obtain ⟨u, -, hprint⟩ := run_snoc_iff.mp hr
    cases logStep_moved hprint with
    | print => rfl
  rw [hquiet, hsince, hidle, Option.elim_none, add_zero, add_zero] at hsplit
  rw [← hfst, hsplit]
  refine events_of_parts fun part hpart => ?_
  have hle : part.2.card ≤ (stopTimes es).card := by
    rw [hsplit]
    exact Multiset.card_le_card
      (List.single_le_sum (fun _ _ => zero_le) _ (List.mem_map_of_mem hpart))
  rw [(hrecords part hpart).events, toUInt_natCast (hle.trans_lt hcard)]

/-- When all workers have left, the reports up to the one at the end count every request that was
handed out. These are fewer than the limit and the number of workers together, and unless the time
limit has stopped all workers, they are not fewer than the limit. -/
theorem cpu_events_reported (hpos : 0 < maxRequests) (hword : maxRequests + n ≤ 2 ^ 32)
    (hr : run (workStep maxRequests bucket) (initWork n) es = some s)
    (hleft : ∀ t, s.places t = .left) {timer : SbTimer}
    (hfinal : run (workStep maxRequests bucket) s (finalReport timer) = some u) :
    ((reports (messages (es ++ finalReport timer))).map SbTimer.events).sum =
        handedOut (limits es) ∧
      handedOut (limits es) < maxRequests + n ∧
      ((∃ t, .check t true ∉ es) → maxRequests ≤ handedOut (limits es)) := by
  have hlimits : run (limitStep cpuGetRequest maxRequests) (initLimit n) (limits es) =
      some s.limit := limit_isPart.run hr
  obtain ⟨hlt, hrefused⟩ := handedOut_lt hpos hword hlimits
  have hbusy : total WorkPlace.busy s.places = 0 := total_eq_zero fun t => by rw [hleft t]; rfl
  have haccounts := work_accounts hr
  rw [hbusy, Nat.add_zero] at haccounts
  refine ⟨?_, by omega, fun ⟨t, ht⟩ => ?_⟩
  · have hmessages : messages (es ++ finalReport timer) =
        messages es ++ [LogEvent.copy, .calculate, .reset, .print timer] := List.filterMap_append
    have hlog : run (logStep bucket) (operHandlerInit n) (messages (es ++ finalReport timer)) =
        some u.log := log_isPart.run (run_append_iff.mpr ⟨s, hr, hfinal⟩)
    rw [hmessages] at hlog ⊢
    exact (events_reported (messages_not_forced hr) (by omega) hlog).trans haccounts
  · have hmem := (left_cases hr t (hleft t)).resolve_right ht
    exact hrefused t (List.mem_filterMap.mpr ⟨.limit (.refuse t .null), hmem, rfl⟩)

end Work

/-- Two workers have both passed the check when the first counts, so each gets a request. -/
def twoWork : List (WorkEvent 2) :=
  [.limit (.pass 0), .limit (.pass 1), .limit (.count 0 .cpu), .log (.start 0 ⟨0, 0⟩),
    .limit (.count 1 .cpu), .log (.start 1 ⟨0, 1⟩), .log (.stop 0 ⟨0, 5⟩ 5), .log (.stop 1 ⟨0, 8⟩ 7),
    .log (.update 1), .check 1 false, .log (.update 0), .check 0 false, .limit (.refuse 0 .null),
    .limit (.refuse 1 .null)]

theorem cpu_events_reported_two :
    ((reports (messages (twoWork ++ finalReport (mergedTimer 12 12 5 7 2)))).map
      SbTimer.events).sum = handedOut (limits twoWork) ∧
      handedOut (limits twoWork) < 1 + 2 := by
  obtain ⟨s, u, hs, hu, hplaces⟩ : ∃ s u,
      run (workStep 1 fun _ => 0) (initWork 2) twoWork = some s ∧
        run (workStep 1 fun _ => 0) s (finalReport (mergedTimer 12 12 5 7 2)) = some u ∧
        ∀ t, s.places t = .left := ⟨_, _, rfl, rfl, by decide⟩
  obtain ⟨hevents, hlt, -⟩ := cpu_events_reported Nat.one_pos (by decide) hs hplaces hu
  exact ⟨hevents, hlt⟩

end Sysbench.Core
