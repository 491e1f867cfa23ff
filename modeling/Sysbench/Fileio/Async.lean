import Sysbench.Fileio.Execute
import Sysbench.Machine.Runs

/-! # Accounting of asynchronous requests

The AIO context of one worker thread. The kernel keeps the operations in flight and
delivers them in batches; `nrequests` is the worker's own count of them. A failed or
short operation makes `file_wait` return in the middle of a batch, so the rest of the
batch has left the kernel but stays counted.
-/
namespace Sysbench.Fileio

open Checks Runs Words

structure AioOper where
  type : FileOp
  len : ℤ
  deriving DecidableEq, Repr

/-- The operation an action queues in async mode. `file_fsync` syncs at once. -/
def Action.queues : Action → Option AioOper
  | .pread _ size _ => some ⟨.read, size⟩
  | .pwrite _ size _ => some ⟨.write, size⟩
  | _ => none

/-- `sb_aio_context_t` of a worker, with the operations the kernel has in flight. -/
structure AioContext where
  nrequests : ℕ
  inflight : Multiset AioOper
  stats : Stats

def initAioContext (stats : Stats) : AioContext := ⟨0, 0, stats⟩

/-- The backlog is an `int` option stored as unsigned; `file_async_init` refuses zero. -/
def fileAsyncInit (fileAsyncBacklog : ℤ) : Except String ℕ := do
  let backlog := toUInt 32 fileAsyncBacklog
  require (0 < backlog) s!"Invalid value of file-async-backlog: {backlog}"
  .ok backlog

/-- One element of `events[]`: a completed operation and its result. -/
abbrev AioEvent := AioOper × ℤ

/-- `io_getevents`: the kernel hands over a batch of at least `minNr` and at most `nr` of
the operations in flight. It waits as long as there is no such batch. -/
def ioGetevents (minNr nr : ℕ) (batch : List AioEvent) (a : AioContext) : Option AioContext :=
  if minNr ≤ batch.length ∧ batch.length ≤ nr ∧ (batch.map Prod.fst : Multiset AioOper) ≤ a.inflight
  then some { a with inflight := a.inflight - (batch.map Prod.fst : Multiset AioOper) }
  else none

def AioEvent.succeeded (e : AioEvent) : Bool :=
  match e.1.type with
  | .fsync => e.2 = 0
  | .read => e.2 = e.1.len
  | .write => e.2 = e.1.len
  | .null => true

def AioOper.count (oper : AioOper) (st : Stats) : Stats :=
  match oper.type with
  | .fsync => Action.countOther.count st
  | .read => (Action.countRead oper.len).count st
  | .write => (Action.countWrite oper.len).count st
  | .null => st

/-- The loop over the batch. It returns at the first operation that failed. -/
def verifyResults : List AioEvent → AioContext → Bool × AioContext
  | [], a => (true, a)
  | e :: batch, a =>
    if AioEvent.succeeded e then
      verifyResults batch
        { a with nrequests := toUInt 32 ((a.nrequests : ℤ) - 1), stats := e.1.count a.stats }
    else (false, a)

variable (backlog : ℕ)

/-- `file_wait`. The first component is whether it returns 0. -/
def fileWait (nreq : ℕ) (batch : List AioEvent) (a : AioContext) : Option (Bool × AioContext) :=
  (ioGetevents nreq backlog batch a).map fun a =>
    if batch.length < 1 then (false, a) else verifyResults batch a

/-- `file_submit_or_wait`. The kernel accepts the operation or not; `batch` is empty
unless the call goes on to wait. -/
def fileSubmitOrWait (oper : AioOper) (accepted : Bool) (batch : List AioEvent)
    (a : AioContext) : Option (Bool × AioContext) :=
  if accepted then
    let a := { a with
      nrequests := toUInt 32 ((a.nrequests : ℤ) + 1)
      inflight := oper ::ₘ a.inflight }
    if a.nrequests < backlog then if batch = [] then some (true, a) else none
    else fileWait backlog 1 batch a
  else if batch = [] then some (false, a) else none

def threadDoneAsks (a : AioContext) : Option ℕ :=
  if 0 < a.nrequests then some a.nrequests else none

def fileThreadDone (batch : List AioEvent) (a : AioContext) : Option (Bool × AioContext) :=
  match threadDoneAsks a with
  | some nreq => fileWait backlog nreq batch a
  | none => if batch = [] then some (true, a) else none

inductive AioCall where
  | submitOrWait (oper : AioOper) (accepted : Bool) (batch : List AioEvent) (ok : Bool)
  | wait (nreq : ℕ) (batch : List AioEvent) (ok : Bool)
  | threadDone (batch : List AioEvent) (ok : Bool)
  deriving DecidableEq

def AioCall.batch : AioCall → List AioEvent
  | .submitOrWait _ _ batch _ => batch
  | .wait _ batch _ => batch
  | .threadDone batch _ => batch

def aioStep (a : AioContext) : AioCall → Option AioContext
  | .submitOrWait oper accepted batch ok =>
    (fileSubmitOrWait backlog oper accepted batch a).bind fun p => if p.1 = ok then some p.2 else none
  | .wait nreq batch ok =>
    (fileWait backlog nreq batch a).bind fun p => if p.1 = ok then some p.2 else none
  | .threadDone batch ok =>
    (fileThreadDone backlog batch a).bind fun p => if p.1 = ok then some p.2 else none

def AllSucceeded (calls : List AioCall) : Prop :=
  ∀ call ∈ calls, ∀ e ∈ call.batch, AioEvent.succeeded e

/-- The count is right in every state of the run. -/
structure AioAccounted (stats : Stats) (calls : List AioCall) : Prop where
  count : ∀ pre a, pre <+: calls → run (aioStep backlog) (initAioContext stats) pre = some a →
    a.nrequests = a.inflight.card
  /-- a successful submit leaves room for another one -/
  room : ∀ pre oper batch a, pre ++ [.submitOrWait oper true batch true] <+: calls →
    run (aioStep backlog) (initAioContext stats) (pre ++ [.submitOrWait oper true batch true]) =
      some a → a.nrequests < backlog
  /-- `file_thread_done` does not wait for more than there is -/
  asks : ∀ pre a nreq, pre <+: calls → run (aioStep backlog) (initAioContext stats) pre = some a →
    threadDoneAsks a = some nreq → nreq ≤ a.inflight.card

variable {backlog}

theorem fileAsyncInit_ok {value : ℤ} (h : fileAsyncInit value = .ok backlog) :
    0 < backlog ∧ backlog < 2 ^ 32 := by
  simp only [fileAsyncInit, bind_eq_ok, require_eq_ok] at h
  obtain ⟨-, hpos, h⟩ := h
  cases h
  exact ⟨hpos, toUInt_lt 32 value⟩

theorem verifyResults_inflight (batch : List AioEvent) (a : AioContext) :
    (verifyResults batch a).2.inflight = a.inflight := by
  induction batch generalizing a with
  | nil => rfl
  | cons e batch ih =>
    unfold verifyResults
    split_ifs
    · exact ih _
    · rfl

/-- The loop counts the operations before the first failure. -/
theorem verifyResults_nrequests (batch : List AioEvent) (a : AioContext)
    (hlen : batch.length ≤ a.nrequests) (hlt : a.nrequests < 2 ^ 32) :
    (verifyResults batch a).2.nrequests + (batch.takeWhile AioEvent.succeeded).length =
      a.nrequests := by
  induction batch generalizing a with
  | nil => rfl
  | cons e batch ih =>
    rw [List.length_cons] at hlen
    have hdec : toUInt 32 ((a.nrequests : ℤ) - 1) = a.nrequests - 1 :=
      toUInt_sub (show 1 ≤ a.nrequests by omega) hlt
    unfold verifyResults
    by_cases he : AioEvent.succeeded e
    · rw [if_pos he, List.takeWhile_cons_of_pos he, List.length_cons, hdec]
      have hrest := ih { a with nrequests := a.nrequests - 1, stats := e.1.count a.stats }
        (by dsimp only; omega) (by dsimp only; omega)
      dsimp only at hrest
      omega
    · rw [if_neg he, List.takeWhile_cons_of_neg he]
      rfl

theorem length_takeWhile_eq_iff {α : Type*} (p : α → Bool) (l : List α) :
    (l.takeWhile p).length = l.length ↔ ∀ x ∈ l, p x := by
  constructor
  · intro h
    have heq : l.takeWhile p = l := (List.takeWhile_prefix p).eq_of_length h
    exact List.takeWhile_eq_self_iff.mp heq
  · intro h
    rw [List.takeWhile_eq_self_iff.mpr h]

/-- A batch is accounted for exactly when all of it succeeded. -/
theorem fileWait_count {nreq : ℕ} {batch : List AioEvent} {a b : AioContext} {ok : Bool}
    (h : fileWait backlog nreq batch a = some (ok, b)) (ha : a.nrequests = a.inflight.card)
    (hlt : a.nrequests < 2 ^ 32) :
    (b.nrequests = b.inflight.card ↔ ∀ e ∈ batch, AioEvent.succeeded e) ∧
      b.inflight.card + nreq ≤ a.inflight.card := by
  obtain ⟨a', hget, hb⟩ := Option.map_eq_some_iff.mp h
  unfold ioGetevents at hget
  split_ifs at hget with hlegal
  cases hget
  obtain ⟨hmin, -, hsub⟩ := hlegal
  have hcard := Multiset.card_le_card hsub
  have hrest := Multiset.card_sub hsub
  rw [Multiset.coe_card, List.length_map] at hcard hrest
  by_cases hz : batch.length < 1
  · rw [if_pos hz] at hb
    cases hb
    obtain rfl : batch = [] := List.length_eq_zero_iff.mp (by omega)
    dsimp only
    rw [hrest]
    exact ⟨iff_of_true (by simpa using ha) (by simp), by simpa using hmin⟩
  · rw [if_neg hz] at hb
    obtain rfl : b = (verifyResults batch _).2 := (congrArg Prod.snd hb).symm
    have hcount := verifyResults_nrequests batch
      { a with inflight := a.inflight - (batch.map Prod.fst : Multiset AioOper) }
      (by dsimp only; omega) hlt
    rw [verifyResults_inflight, ← length_takeWhile_eq_iff]
    dsimp only at hcount ⊢
    rw [hrest]
    constructor <;> omega

/-- The count is right, and another operation fits. -/
structure AioExact (backlog : ℕ) (a : AioContext) : Prop where
  count : a.nrequests = a.inflight.card
  room : a.nrequests < backlog

theorem AioExact.step (hback : backlog < 2 ^ 32) {a b : AioContext} (h : AioExact backlog a)
    {call : AioCall} (hstep : aioStep backlog a call = some b) :
    (b.nrequests = b.inflight.card ↔ ∀ e ∈ call.batch, AioEvent.succeeded e) ∧
      b.inflight.card < backlog := by
  have hcount := h.count
  have hroom := h.room
  have hwait : ∀ {nreq batch ok}, fileWait backlog nreq batch a = some (ok, b) →
      (b.nrequests = b.inflight.card ↔ ∀ e ∈ batch, AioEvent.succeeded e) ∧
        b.inflight.card < backlog := by
    intro nreq batch ok hw
    obtain ⟨hiff, hle⟩ := fileWait_count hw hcount (by omega)
    exact ⟨hiff, by omega⟩
  have hnone : a.nrequests = a.inflight.card ↔ ∀ e ∈ ([] : List AioEvent), AioEvent.succeeded e :=
    iff_of_true hcount (by simp)
  cases call with
  | submitOrWait oper accepted batch ok =>
    obtain ⟨⟨ok', b'⟩, hsub, hok⟩ := Option.bind_eq_some_iff.mp hstep
    obtain ⟨-, rfl⟩ : ok' = ok ∧ b' = b := by simpa [ite_eq_iff] using hok
    unfold fileSubmitOrWait at hsub
    have hinc : toUInt 32 ((a.nrequests : ℤ) + 1) = a.nrequests + 1 := by
      rw [toUInt_of_range (by omega) (by omega)]
      omega
    cases accepted with
    | false =>
      simp only [Bool.false_eq_true, if_false] at hsub
      split_ifs at hsub with hb
      cases hsub
      rw [AioCall.batch, hb]
      exact ⟨hnone, by omega⟩
    | true =>
      simp only [if_true, hinc] at hsub
      split_ifs at hsub with hlt hb
      · cases hsub
        rw [AioCall.batch, hb]
        simp only [Multiset.card_cons]
        exact ⟨iff_of_true (by omega) (by simp), by omega⟩
      · obtain ⟨hiff, hle⟩ := fileWait_count hsub (by simp only [Multiset.card_cons]; omega)
          (by dsimp only; omega)
        rw [Multiset.card_cons] at hle
        exact ⟨hiff, by omega⟩
  | wait nreq batch ok =>
    obtain ⟨⟨ok', b'⟩, hw, hok⟩ := Option.bind_eq_some_iff.mp hstep
    obtain ⟨-, rfl⟩ : ok' = ok ∧ b' = b := by simpa [ite_eq_iff] using hok
    exact hwait hw
  | threadDone batch ok =>
    obtain ⟨⟨ok', b'⟩, hdone, hok⟩ := Option.bind_eq_some_iff.mp hstep
    obtain ⟨-, rfl⟩ : ok' = ok ∧ b' = b := by simpa [ite_eq_iff] using hok
    unfold fileThreadDone at hdone
    split at hdone
    · exact hwait hdone
    · split_ifs at hdone with hb
      cases hdone
      rw [AioCall.batch, hb]
      exact ⟨hnone, by omega⟩

theorem AllSucceeded.exact (hpos : 0 < backlog) (hback : backlog < 2 ^ 32) {stats : Stats}
    {calls : List AioCall} (h : AllSucceeded calls) {a : AioContext}
    (hr : run (aioStep backlog) (initAioContext stats) calls = some a) : AioExact backlog a := by
  induction calls using List.reverseRecOn generalizing a with
  | nil =>
    cases hr
    exact ⟨rfl, hpos⟩
  | append_singleton calls call ih =>
    obtain ⟨b, hb, hstep⟩ := run_snoc_iff.mp hr
    have hexact := ih (fun call hmem => h call (List.mem_append_left _ hmem)) hb
    obtain ⟨hiff, hlt⟩ := hexact.step hback hstep
    have hcount := hiff.mpr (h call (List.mem_append_right _ List.mem_cons_self))
    exact ⟨hcount, by omega⟩

/-- In every run the count of queued requests is right throughout exactly when every
operation that the kernel delivered succeeded. -/
theorem aioAccounted_iff {value : ℤ} (hinit : fileAsyncInit value = .ok backlog) {stats : Stats}
    {calls : List AioCall} {s : AioContext}
    (hr : run (aioStep backlog) (initAioContext stats) calls = some s) :
    AioAccounted backlog stats calls ↔ AllSucceeded calls := by
  obtain ⟨hpos, hback⟩ := fileAsyncInit_ok hinit
  constructor
  · intro hacc
    suffices hpre : ∀ pre, pre <+: calls → AllSucceeded pre from hpre calls List.prefix_rfl
    intro pre
    induction pre using List.reverseRecOn with
    | nil => exact fun _ call hmem => by cases hmem
    | append_singleton pre call ih =>
      intro hbefore
      have hall := ih ((List.prefix_append _ _).trans hbefore)
      obtain ⟨rest, rfl⟩ := id hbefore
      obtain ⟨b, hb, -⟩ := run_append_iff.mp hr
      obtain ⟨a, ha, hstep⟩ := run_snoc_iff.mp hb
      -- a batch that is not all right leaves the count too high at once
      have hbatch := ((hall.exact hpos hback ha).step hback hstep).1.mp
        (hacc.count _ b hbefore hb)
      intro call' hmem
      rcases List.mem_append.mp hmem with hmem | hmem
      · exact hall call' hmem
      · rw [List.mem_singleton.mp hmem]
        exact hbatch
  · intro hall
    have hexact : ∀ pre a, pre <+: calls →
        run (aioStep backlog) (initAioContext stats) pre = some a → AioExact backlog a := by
      intro pre a hbefore ha
      exact AllSucceeded.exact hpos hback (fun call hmem => hall call (hbefore.subset hmem)) ha
    refine ⟨fun pre a hbefore ha => (hexact pre a hbefore ha).count,
      fun pre oper batch a hbefore ha => (hexact _ a hbefore ha).room, ?_⟩
    intro pre a nreq hbefore ha hasks
    have hcount := (hexact pre a hbefore ha).count
    unfold threadDoneAsks at hasks
    split_ifs at hasks
    cases hasks
    omega

theorem aioAccounted_iff_one : AioAccounted 1 clearStats
      [.submitOrWait ⟨.read, 4⟩ true [(⟨.read, 4⟩, 4)] true] ↔
    AllSucceeded [.submitOrWait ⟨.read, 4⟩ true [(⟨.read, 4⟩, 4)] true] := by
  have hr : ∃ s, run (aioStep 1) (initAioContext clearStats)
      [.submitOrWait ⟨.read, 4⟩ true [(⟨.read, 4⟩, 4)] true] = some s := ⟨_, rfl⟩
  obtain ⟨s, hs⟩ := hr
  exact aioAccounted_iff (show fileAsyncInit 1 = .ok 1 from rfl) hs

/-- A READ that delivers two bytes of four leaves the kernel but not the count. -/
theorem aioAccounted_short : ∃ backlog calls s, fileAsyncInit 1 = .ok backlog ∧
    run (aioStep backlog) (initAioContext clearStats) calls = some s ∧
    ¬ AioAccounted backlog clearStats calls := by
  refine ⟨1, [.submitOrWait ⟨.read, 4⟩ true [(⟨.read, 4⟩, 2)] false], _, rfl, rfl, fun hacc => ?_⟩
  have hcount := hacc.count _ _ List.prefix_rfl rfl
  exact absurd hcount (by decide)

end Sysbench.Fileio
