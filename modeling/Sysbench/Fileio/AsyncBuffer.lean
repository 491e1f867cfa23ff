import Sysbench.Fileio.Async
import Sysbench.Fileio.Validation
import Sysbench.Fileio.Workers

/-! # The buffer of a worker thread

One worker with its buffer and its AIO context. In sync and mmap mode a system call is over
when it returns; in async mode `file_pread` and `file_pwrite` queue an operation and wait for
a completion only when the queue is full. The operations are numbered in the order of
submission, so that the READ of the current request can be told from earlier ones. The
worker may get any request.
-/
namespace Sysbench.Fileio

open Runs Words

abbrev NumberedOper := ℕ × AioOper

structure BufferThread where
  worker : Worker
  aio : AioContext
  /-- the operations the kernel has in flight -/
  ops : Multiset NumberedOper
  /-- how many operations were prepared so far -/
  prepared : ℕ

def initBufferThread : BufferThread := ⟨.idle, initAioContext clearStats, 0, 0⟩

inductive BufferEvent where
  | get (q : Request)
  /-- an action that is over when the call returns -/
  | act (a : Action)
  /-- `file_pread` or `file_pwrite` in async mode, with the completions of `file_wait` -/
  | queue (a : Action) (accepted : Bool) (batch : List (NumberedOper × ℤ)) (ok : Bool)
  | fail
  | ret
  | stop
  deriving DecidableEq

variable (c : Config)

/-- `file_fill_buffer` and `file_validate_buffer` stay inside the buffer. -/
def Action.inBuffer : Action → Bool
  | .fillBuffer size _ =>
    fillBound (toUInt 32 size) + (fileChecksumLength + fileOffsetLength) ≤ bufferCapacity c
  | .validateBuffer size _ =>
    payloadLength (toUInt 32 size) + (fileChecksumLength + fileOffsetLength) ≤ bufferCapacity c
  | _ => true

def Action.queued (a : Action) : Bool := c.fileIoMode = .async ∧ a.queues.isSome

/-- `file_pread` and `file_pwrite` in async mode: zero if queueing or waiting failed. -/
def queueResult (ok : Bool) (oper : AioOper) : ℤ := if ok then oper.len else 0

/-- The operations in flight once the kernel has taken `oper`, or refused it. -/
def BufferThread.submit (s : BufferThread) (oper : AioOper) (accepted : Bool) :
    Multiset NumberedOper :=
  if accepted then (s.prepared, oper) ::ₘ s.ops else s.ops

variable (backlog : ℕ)

/-- A call outside the buffer leaves the worker without a next step. -/
def bufferStep (s : BufferThread) : BufferEvent → Option BufferThread
  | .get q =>
    match s.worker with
    | .idle => some { s with worker := taken c q }
    | _ => none
  | .act a =>
    match s.worker with
    | .busy r (.ok (b :: todo)) =>
      if b = a ∧ a.queued c = false then
        if a.inBuffer c then some { s with worker := .busy r (.ok todo) }
        else some { s with worker := .failed r (.ok (b :: todo)) }
      else none
    | _ => none
  | .queue a accepted batch ok =>
    match s.worker with
    | .busy r (.ok (b :: todo)) =>
      if b = a ∧ c.fileIoMode = .async then
        a.queues.bind fun oper =>
        (fileSubmitOrWait backlog oper accepted (batch.map fun e => (e.1.2, e.2)) s.aio).bind fun p =>
        if p.1 = ok ∧ (batch.map Prod.fst : Multiset NumberedOper) ≤ s.submit oper accepted then
          some
            { worker := if queueResult ok oper = oper.len then .busy r (.ok todo)
                else .failed r (.ok (b :: todo))
              aio := p.2
              ops := s.submit oper accepted - (batch.map Prod.fst : Multiset NumberedOper)
              prepared := s.prepared + 1 }
        else none
      else none
    | _ => none
  | .fail =>
    match s.worker with
    | .busy r (.ok (b :: todo)) =>
      if b.canFail ∧ b.queued c = false then some { s with worker := .failed r (.ok (b :: todo)) }
      else none
    | _ => none
  | .ret =>
    match s.worker with
    | .busy _ (.ok []) => some { s with worker := .idle }
    | .busy r (.error e) => some { s with worker := .failed r (.error e) }
    | _ => none
  | .stop =>
    match s.worker with
    | .idle => some { s with worker := .stopped }
    | _ => none

/-- The buffer may be used for `a`: the READ that was just prepared is over, or, where the
buffer is overwritten, everything is. -/
def BufferThread.Free (s : BufferThread) : Action → Prop
  | .validateBuffer _ _ => ∀ op ∈ s.ops, op.1 + 1 ≠ s.prepared
  | .fillBuffer _ _ => s.ops = 0
  | .pread _ _ _ => s.ops = 0
  | _ => True

def BufferEvent.action : BufferEvent → Option Action
  | .act a => some a
  | .queue a _ _ _ => some a
  | _ => none

/-- Every use of the buffer in the run finds it free. -/
def BufferSafe (es : List BufferEvent) : Prop :=
  ∀ pre e a s, pre ++ [e] <+: es → e.action = some a →
    run (bufferStep c backlog) initBufferThread pre = some s → s.Free a

def BufferEvent.overwrites (e : BufferEvent) : Bool :=
  match e.action with
  | some (.fillBuffer _ _) => true
  | some (.pread _ _ _) => true
  | _ => false

/-- The worker overwrites its buffer once at most, and no READ that the kernel took goes on
to its validation. -/
structure OneOperation (es : List BufferEvent) : Prop where
  single : es.countP BufferEvent.overwrites ≤ 1
  unvalidated : ∀ pre f size pos batch ok size' pos', ¬
    pre ++ [.queue (.pread f size pos) true batch ok, .act (.validateBuffer size' pos')] <+: es

inductive BufferMoved (s : BufferThread) : BufferEvent → BufferThread → Prop
  | get {q : Request} (hw : s.worker = .idle) :
      BufferMoved s (.get q) { s with worker := taken c q }
  | act {a : Action} {r : FileRequest} {todo : List Action}
      (hw : s.worker = .busy r (.ok (a :: todo))) (hq : a.queued c = false)
      (hin : a.inBuffer c = true) :
      BufferMoved s (.act a) { s with worker := .busy r (.ok todo) }
  | outside {a : Action} {r : FileRequest} {todo : List Action}
      (hw : s.worker = .busy r (.ok (a :: todo))) (hin : a.inBuffer c = false) :
      BufferMoved s (.act a) { s with worker := .failed r (.ok (a :: todo)) }
  | queue {a : Action} {r : FileRequest} {todo : List Action} {oper : AioOper} {accepted ok : Bool}
      {batch : List (NumberedOper × ℤ)} {aio : AioContext}
      (hw : s.worker = .busy r (.ok (a :: todo))) (hio : c.fileIoMode = .async)
      (hoper : a.queues = some oper)
      (hsub : fileSubmitOrWait backlog oper accepted (batch.map fun e => (e.1.2, e.2)) s.aio =
        some (ok, aio))
      (hle : (batch.map Prod.fst : Multiset NumberedOper) ≤ s.submit oper accepted) :
      BufferMoved s (.queue a accepted batch ok)
        { worker := if queueResult ok oper = oper.len then .busy r (.ok todo)
            else .failed r (.ok (a :: todo))
          aio := aio
          ops := s.submit oper accepted - (batch.map Prod.fst : Multiset NumberedOper)
          prepared := s.prepared + 1 }
  | fail {a : Action} {r : FileRequest} {todo : List Action}
      (hw : s.worker = .busy r (.ok (a :: todo))) (hq : a.queued c = false) :
      BufferMoved s .fail { s with worker := .failed r (.ok (a :: todo)) }
  | ret {r : FileRequest} (hw : s.worker = .busy r (.ok [])) :
      BufferMoved s .ret { s with worker := .idle }
  | refused {r : FileRequest} {e : String} (hw : s.worker = .busy r (.error e)) :
      BufferMoved s .ret { s with worker := .failed r (.error e) }
  | stop (hw : s.worker = .idle) : BufferMoved s .stop { s with worker := .stopped }

variable {c} {backlog}

theorem bufferStep_moved {s t : BufferThread} {e : BufferEvent}
    (h : bufferStep c backlog s e = some t) : BufferMoved c backlog s e t := by
  cases e with
  | get q =>
    simp only [bufferStep] at h
    split at h
    · cases h
      exact .get ‹_›
    · cases h
  | act a =>
    simp only [bufferStep] at h
    split at h
    · rename_i r b todo hw
      split_ifs at h with hb hin
      · obtain ⟨rfl, hq⟩ := hb
        cases h
        exact .act hw hq hin
      · obtain ⟨rfl, -⟩ := hb
        cases h
        exact .outside hw (by simpa using hin)
    · cases h
  | queue a accepted batch ok =>
    simp only [bufferStep] at h
    split at h
    · rename_i r b todo hw
      split_ifs at h with hb
      obtain ⟨rfl, hio⟩ := hb
      obtain ⟨oper, hoper, h⟩ := Option.bind_eq_some_iff.mp h
      obtain ⟨⟨ok', aio⟩, hsub, hafter⟩ := Option.bind_eq_some_iff.mp h
      obtain ⟨⟨rfl, hle⟩, hafter⟩ := Option.ite_none_right_eq_some.mp hafter
      cases hafter
      exact .queue hw hio hoper hsub hle
    · cases h
  | fail =>
    simp only [bufferStep] at h
    split at h
    · rename_i r b todo hw
      split_ifs at h with hb
      cases h
      exact .fail hw hb.2
    · cases h
  | ret =>
    simp only [bufferStep] at h
    split at h
    · cases h
      exact .ret ‹_›
    · cases h
      exact .refused ‹_›
    · cases h
  | stop =>
    simp only [bufferStep] at h
    split at h
    · cases h
      exact .stop ‹_›
    · cases h

/-! ## Stages of a request -/

/-- The action neither uses the buffer nor queues an operation. -/
def Action.plain : Action → Bool
  | .fsync _ => true
  | .countRead _ => true
  | .countWrite _ => true
  | .countOther => true
  | _ => false

variable (c)

/-- What a worker in validation mode can have left to do. -/
inductive Stage : List Action → Prop
  | rest {todo : List Action} (h : ∀ a ∈ todo, a.plain) : Stage todo
  | fill {f : ℕ} {size pos : ℤ} {todo : List Action} (h : ∀ a ∈ todo, a.plain) :
      Stage (.fillBuffer size pos :: .pwrite f size pos :: todo)
  | pwrite {f : ℕ} {size pos : ℤ} {todo : List Action} (h : ∀ a ∈ todo, a.plain)
      (hin : (Action.fillBuffer size pos).inBuffer c = true) : Stage (.pwrite f size pos :: todo)
  | pread {f : ℕ} {size pos : ℤ} {todo : List Action} (h : ∀ a ∈ todo, a.plain) :
      Stage (.pread f size pos :: .validateBuffer size pos :: todo)
  | validate {size pos : ℤ} {todo : List Action} (h : ∀ a ∈ todo, a.plain) :
      Stage (.validateBuffer size pos :: todo)

def Staged (w : Worker) : Prop := ∀ r todo, w = .busy r (.ok todo) → Stage c todo

def Worker.atPwrite : Worker → Bool
  | .busy _ (.ok (.pwrite _ _ _ :: _)) => true
  | _ => false

/-- The worker has left its loop, or is about to leave the buffer. -/
def Worker.leaving : Worker → Bool
  | .idle => false
  | .busy _ (.ok (.validateBuffer size _ :: _)) => size = 0
  | .busy _ (.ok _) => false
  | _ => true

variable {c}

theorem stage_execute (hval : c.validate = true) {r : FileRequest} {todo : List Action}
    (h : fileExecuteRequest c r = .ok todo) : Stage c todo := by
  rcases (fileExecuteRequest_ok h).2 with ⟨-, rfl⟩ | ⟨-, rfl⟩ | ⟨-, rfl⟩
  · rw [writeActions, if_pos hval]
    apply Stage.fill
    intro a ha
    split_ifs at ha <;> simp at ha <;> rcases ha with rfl | rfl | rfl <;> rfl
  · rw [readActions, if_pos hval]
    apply Stage.pread
    intro a ha
    split_ifs at ha <;> simp_all [Action.plain]
  · apply Stage.rest
    intro a ha
    unfold fsyncActions at ha
    split_ifs at ha <;> simp at ha <;> rcases ha with rfl | rfl <;> rfl

theorem staged_taken (hval : c.validate = true) (q : Request) : Staged c (taken c q) := by
  intro r todo h
  cases q with
  | null => cases h
  | file r' =>
    simp only [taken, Worker.busy.injEq] at h
    exact stage_execute hval h.2

theorem staged_of_ne_busy {w : Worker} (h : ∀ r todo, w ≠ .busy r todo) : Staged c w :=
  fun r _ hw => absurd hw (h r _)

theorem Stage.tail {a : Action} {todo : List Action} (h : Stage c (a :: todo))
    (hin : a.inBuffer c = true) : Stage c todo := by
  cases h with
  | rest h => exact .rest fun b hb => h b (List.mem_cons_of_mem _ hb)
  | fill h => exact .pwrite h hin
  | pwrite h hin' => exact .rest h
  | pread h => exact .validate h
  | validate h => exact .rest h

theorem inBuffer_of_queues {a : Action} {oper : AioOper} (h : a.queues = some oper) :
    a.inBuffer c = true := by
  cases a <;> first | rfl | cases h

theorem BufferMoved.staged (hval : c.validate = true) {s t : BufferThread} {e : BufferEvent}
    (h : BufferMoved c backlog s e t) (hs : Staged c s.worker) : Staged c t.worker := by
  cases h with
  | get hw => exact staged_taken hval _
  | act hw hq hin =>
    intro r todo hbusy
    cases hbusy
    exact (hs _ _ hw).tail hin
  | outside hw hin => exact staged_of_ne_busy fun _ _ heq => by cases heq
  | queue hw hio hoper hsub hle =>
    intro r todo hbusy
    dsimp only at hbusy
    split_ifs at hbusy
    cases hbusy
    exact (hs _ _ hw).tail (inBuffer_of_queues hoper)
  | fail hw hq => exact staged_of_ne_busy fun _ _ heq => by cases heq
  | ret hw => exact staged_of_ne_busy fun _ _ heq => by cases heq
  | refused hw => exact staged_of_ne_busy fun _ _ heq => by cases heq
  | stop hw => exact staged_of_ne_busy fun _ _ heq => by cases heq

theorem run_staged (hval : c.validate = true) {es : List BufferEvent} {s : BufferThread}
    (hr : run (bufferStep c backlog) initBufferThread es = some s) : Staged c s.worker :=
  run_preserves (I := fun s : BufferThread => Staged c s.worker)
    (fun _ _ _ hs hstep => (bufferStep_moved hstep).staged hval hs)
    (staged_of_ne_busy fun _ _ heq => by cases heq) hr

/-! ## What a submission leaves in flight -/

theorem submit_one {oper : AioOper} {accepted ok : Bool} {batch : List AioEvent} {a b : AioContext}
    (h : fileSubmitOrWait 1 oper accepted batch a = some (ok, b)) (hz : a.nrequests = 0) :
    (accepted = true → batch.length = 1) ∧ (b.nrequests = 0 ∨ ok = false) := by
  unfold fileSubmitOrWait at h
  have hinc : toUInt 32 ((a.nrequests : ℤ) + 1) = 1 := by
    rw [hz]
    rfl
  cases accepted with
  | false =>
    simp only [Bool.false_eq_true, if_false] at h
    split_ifs at h
    cases h
    simp [hz]
  | true =>
    simp only [if_true, hinc, lt_irrefl, if_false] at h
    obtain ⟨a', hget, hb⟩ := Option.map_eq_some_iff.mp h
    obtain ⟨⟨hmin, hmax, -⟩, ha'⟩ := Option.ite_none_right_eq_some.mp hget
    cases ha'
    have hlen : batch.length = 1 := by omega
    refine ⟨fun _ => hlen, ?_⟩
    obtain ⟨e, rfl⟩ := List.length_eq_one_iff.mp hlen
    by_cases he : AioEvent.succeeded e
    · simp only [List.length_singleton, lt_irrefl, if_false, verifyResults, if_pos he] at hb
      cases hb
      exact .inl rfl
    · simp only [List.length_singleton, lt_irrefl, if_false, verifyResults, if_neg he] at hb
      cases hb
      exact .inr rfl

theorem submit_room {oper : AioOper} {accepted ok : Bool} {batch : List AioEvent} {a b : AioContext}
    (h : fileSubmitOrWait backlog oper accepted batch a = some (ok, b)) (hz : a.nrequests = 0)
    (hroom : 1 < backlog) :
    batch = [] ∧ ok = accepted ∧ (accepted = false → b.nrequests = 0) := by
  unfold fileSubmitOrWait at h
  have hinc : toUInt 32 ((a.nrequests : ℤ) + 1) = 1 := by
    rw [hz]
    rfl
  cases accepted with
  | false =>
    simp only [Bool.false_eq_true, if_false] at h
    split_ifs at h with hb
    cases h
    exact ⟨hb, rfl, fun _ => hz⟩
  | true =>
    simp only [if_true, hinc, hroom] at h
    split_ifs at h with hb
    cases h
    exact ⟨hb, rfl, fun hf => by cases hf⟩

theorem inBuffer_zero (hcap : bufferCapacity c < 2 ^ 32) (pos : ℤ) :
    (Action.validateBuffer 0 pos).inBuffer c = false ∧ (Action.fillBuffer 0 pos).inBuffer c = false := by
  have hpay : payloadLength (toUInt 32 0) = 2 ^ 32 - 12 := payloadLength_of_lt (by decide)
  have hfill : fillBound (toUInt 32 0) = 2 ^ 64 - 12 := rfl
  simp only [Action.inBuffer, hpay, hfill, fileChecksumLength, fileOffsetLength,
    decide_eq_false_iff_not]
  omega

theorem queues_of_plain {a : Action} (h : a.plain = true) : a.queues = none := by
  cases a <;> first | rfl | cases h

theorem not_leaving_of_queues {a : Action} {oper : AioOper} (h : a.queues = some oper)
    (r : FileRequest) (todo : List Action) :
    (Worker.busy r (.ok (a :: todo))).leaving = false := by
  cases a <;> first | rfl | cases h

theorem BufferMoved.leaving (hcap : bufferCapacity c < 2 ^ 32) {s t : BufferThread} {e : BufferEvent}
    (h : BufferMoved c backlog s e t) (hs : s.worker.leaving = true) : t.worker.leaving = true := by
  cases h with
  | get hw =>
    rw [hw] at hs
    cases hs
  | @act a r todo hw hq hin =>
    rw [hw] at hs
    cases a with
    | validateBuffer size pos =>
      obtain rfl : size = 0 := by simpa [Worker.leaving] using hs
      rw [(inBuffer_zero hcap pos).1] at hin
      cases hin
    | _ => cases hs
  | outside hw hin => rfl
  | @queue a r todo oper accepted ok batch aio hw hio hoper hsub hle =>
    rw [hw, not_leaving_of_queues hoper] at hs
    cases hs
  | fail hw hq => rfl
  | ret hw =>
    rw [hw] at hs
    cases hs
  | refused hw => rfl
  | stop hw => rfl

/-- The stages that queue an operation: what is left afterwards, also when it fails. -/
theorem Stage.afterQueue (hcap : bufferCapacity c < 2 ^ 32) {a : Action} {todo : List Action}
    {oper : AioOper} (h : Stage c (a :: todo)) (hoper : a.queues = some oper) (r : FileRequest) :
    (if queueResult false oper = oper.len then Worker.busy r (.ok todo)
      else .failed r (.ok (a :: todo))).leaving = true ∧
      (Worker.busy r (.ok todo)).atPwrite = false := by
  cases h with
  | rest h =>
    rw [queues_of_plain (h a List.mem_cons_self)] at hoper
    cases hoper
  | fill h => cases hoper
  | @pwrite f size pos todo h hin =>
    cases hoper
    have hne : queueResult false ⟨.write, size⟩ ≠ size := by
      intro hz
      obtain rfl : size = 0 := hz.symm
      rw [(inBuffer_zero hcap pos).2] at hin
      cases hin
    refine ⟨by rw [if_neg hne]; rfl, ?_⟩
    cases todo with
    | nil => rfl
    | cons b todo =>
      have hplain := h b List.mem_cons_self
      cases b <;> first | rfl | cases hplain
  | @pread f size pos todo h =>
    cases hoper
    refine ⟨?_, rfl⟩
    split_ifs with hz
    · exact decide_eq_true hz.symm
    · rfl
  | validate h => cases hoper

/-- Nothing is in flight between two calls, and the count is right while the worker runs. -/
structure Alone (s : BufferThread) : Prop where
  ops : s.ops = 0
  count : s.aio.nrequests = 0 ∨ s.worker.leaving = true

theorem Alone.step (hcap : bufferCapacity c < 2 ^ 32) {s t : BufferThread} {e : BufferEvent}
    (h : Alone s) (hstage : Staged c s.worker) (hmv : BufferMoved c 1 s e t) : Alone t := by
  have hkeep : t.ops = s.ops → t.aio = s.aio → Alone t := by
    intro hops haio
    refine ⟨hops.trans h.ops, ?_⟩
    rw [haio]
    exact h.count.imp_right (hmv.leaving hcap)
  cases hmv with
  | @queue a r todo oper accepted ok batch aio hw hio hoper hsub hle =>
    have hrun : s.aio.nrequests = 0 := by
      refine h.count.resolve_right ?_
      rw [hw, not_leaving_of_queues hoper]
      exact Bool.false_ne_true
    obtain ⟨hlen, hcount⟩ := submit_one hsub hrun
    constructor
    · dsimp only
      unfold BufferThread.submit at hle ⊢
      cases accepted with
      | false =>
        rw [h.ops] at hle ⊢
        exact Multiset.zero_sub _
      | true =>
        -- the one operation in flight is the one that was delivered
        have hcard := Multiset.card_le_card hle
        simp only [if_true, h.ops] at hle ⊢
        have heq : (batch.map Prod.fst : Multiset NumberedOper) = (s.prepared, oper) ::ₘ 0 := by
          apply Multiset.eq_of_le_of_card_le hle
          have hone := hlen rfl
          simp only [List.length_map] at hone
          simp [hone]
        rw [heq]
        exact tsub_self _
    · rcases hcount with hz | rfl
      · exact .inl hz
      · exact .inr ((hstage _ _ hw).afterQueue hcap hoper r).1
  | get hw => exact hkeep rfl rfl
  | act hw hq hin => exact hkeep rfl rfl
  | outside hw hin => exact hkeep rfl rfl
  | fail hw hq => exact hkeep rfl rfl
  | ret hw => exact hkeep rfl rfl
  | refused hw => exact hkeep rfl rfl
  | stop hw => exact hkeep rfl rfl

theorem run_alone (hcap : bufferCapacity c < 2 ^ 32) (hval : c.validate = true)
    {es : List BufferEvent} {s : BufferThread}
    (hr : run (bufferStep c 1) initBufferThread es = some s) : Alone s :=
  (run_preserves (I := fun s : BufferThread => Alone s ∧ Staged c s.worker)
    (fun _ _ _ hs hstep => ⟨hs.1.step hcap hs.2 (bufferStep_moved hstep),
      (bufferStep_moved hstep).staged hval hs.2⟩)
    ⟨⟨rfl, .inl rfl⟩, staged_of_ne_busy fun _ _ heq => by cases heq⟩ hr).1

/-- Outside async mode nothing is ever queued. -/
theorem run_noOps (hio : c.fileIoMode ≠ .async) {es : List BufferEvent} {s : BufferThread}
    (hr : run (bufferStep c backlog) initBufferThread es = some s) : s.ops = 0 := by
  refine run_preserves (I := fun s : BufferThread => s.ops = 0) ?_ rfl hr
  intro s e t hs hstep
  cases bufferStep_moved hstep with
  | queue hw hasync hoper hsub hle => exact absurd hasync hio
  | _ => exact hs

theorem free_of_ops {s : BufferThread} (h : s.ops = 0) (a : Action) : s.Free a := by
  cases a <;> simp [BufferThread.Free, h]

/-! ## Larger queues -/

def overwrites (es : List BufferEvent) : ℕ := es.countP BufferEvent.overwrites

@[simp] theorem overwrites_snoc (es : List BufferEvent) (e : BufferEvent) :
    overwrites (es ++ [e]) = overwrites es + if e.overwrites then 1 else 0 := by
  simp [overwrites, List.countP_append, List.countP_cons]

/-- A run without accidents so far: the buffer is unused, or filled for a WRITE, or in use
by the one operation in flight, or the worker is leaving. -/
inductive Used (es : List BufferEvent) (s : BufferThread) : Prop
  | unused (hn : overwrites es = 0) (hops : s.ops = 0) (hz : s.aio.nrequests = 0)
      (hw : s.worker.atPwrite = false)
  | filled (hn : overwrites es = 1) (hops : s.ops = 0) (hz : s.aio.nrequests = 0)
      (hw : s.worker.atPwrite = true)
  | busy (hn : overwrites es = 1) (hops : s.ops ≠ 0) (hw : s.worker.atPwrite = false)
  | leaving (hn : overwrites es ≤ 1) (hw : s.worker.leaving = true)

theorem Used.overwrites_le {es : List BufferEvent} {s : BufferThread} (h : Used es s) :
    overwrites es ≤ 1 := by
  cases h <;> omega

theorem atPwrite_taken (hval : c.validate = true) (q : Request) : (taken c q).atPwrite = false := by
  cases q with
  | null => rfl
  | file r =>
    cases hacts : fileExecuteRequest c r with
    | error e => simp only [taken, hacts, Worker.atPwrite]
    | ok todo =>
      simp only [taken, hacts]
      rcases (fileExecuteRequest_ok hacts).2 with ⟨-, rfl⟩ | ⟨-, rfl⟩ | ⟨-, rfl⟩
      · simp [writeActions, hval, Worker.atPwrite]
      · simp [readActions, Worker.atPwrite]
      · unfold fsyncActions
        split_ifs <;> rfl

theorem Stage.atPwrite_tail {a : Action} {todo : List Action} (h : Stage c (a :: todo))
    (r : FileRequest) :
    (Worker.busy r (.ok todo)).atPwrite = true ↔ ∃ size pos, a = .fillBuffer size pos := by
  have hplain : ∀ {todo : List Action}, (∀ a ∈ todo, a.plain) →
      (Worker.busy r (.ok todo)).atPwrite = false := by
    intro todo h
    cases todo with
    | nil => rfl
    | cons b todo =>
      have hb := h b List.mem_cons_self
      cases b <;> first | rfl | cases hb
  cases h with
  | rest h =>
    have ha := h a List.mem_cons_self
    rw [hplain fun b hb => h b (List.mem_cons_of_mem _ hb)]
    simp only [Bool.false_eq_true, false_iff]
    rintro ⟨size, pos, rfl⟩
    cases ha
  | fill h => exact iff_of_true rfl ⟨_, _, rfl⟩
  | pwrite h hin =>
    rw [hplain h]
    simp
  | pread h => exact iff_of_false (by simp [Worker.atPwrite]) (by simp)
  | validate h =>
    rw [hplain h]
    simp

/-- A worker that runs, has nothing in flight and has not filled its buffer has not used it. -/
theorem Used.first {es : List BufferEvent} {s : BufferThread} (h : Used es s) (hops : s.ops = 0)
    (hw : s.worker.atPwrite = false) (hl : s.worker.leaving = false) :
    overwrites es = 0 ∧ s.aio.nrequests = 0 := by
  cases h with
  | unused hn ho hz hsw => exact ⟨hn, hz⟩
  | filled hn ho hz hsw => simp [hw] at hsw
  | busy hn ho hsw => exact absurd hops ho
  | leaving hn hsw => simp [hl] at hsw

/-- One step of a run in async mode with a queue of several operations. -/
theorem Used.step (hcap : bufferCapacity c < 2 ^ 32) (hval : c.validate = true)
    (hio : c.fileIoMode = .async) (hback : 1 < backlog) {es : List BufferEvent}
    {s t : BufferThread} {e : BufferEvent} (h : Used es s) (hstage : Staged c s.worker)
    (hfree : ∀ a, e.action = some a → s.Free a) (hmv : BufferMoved c backlog s e t) :
    Used (es ++ [e]) t := by
  -- a step that neither queues nor overwrites, and does not lead to a WRITE
  have hquiet : t.ops = s.ops → t.aio = s.aio → e.overwrites = false →
      s.worker.atPwrite = false → t.worker.atPwrite = false → Used (es ++ [e]) t := by
    intro hops haio he hsp htp
    have hcount : overwrites (es ++ [e]) = overwrites es := by simp [he]
    cases h with
    | unused hn ho hz hw => exact .unused (hcount.trans hn) (hops.trans ho) (haio ▸ hz) htp
    | filled hn ho hz hw => simp [hsp] at hw
    | busy hn ho hw => exact .busy (hcount.trans hn) (hops ▸ ho) htp
    | leaving hn hw => exact .leaving (hcount.le.trans hn) (hmv.leaving hcap hw)
  have hone : e.overwrites = true → overwrites es = 0 → overwrites (es ++ [e]) = 1 := by
    intro he hn
    simp [he, hn]
  cases hmv with
  | get hw => exact hquiet rfl rfl rfl (by rw [hw]; rfl) (atPwrite_taken hval _)
  | @act a r todo hw hq hin =>
    have htail := (hstage _ _ hw).atPwrite_tail r
    cases a with
    | fillBuffer size pos =>
      have hops : s.ops = 0 := hfree _ rfl
      obtain ⟨hn, hz⟩ := h.first hops (by rw [hw]; rfl) (by rw [hw]; rfl)
      exact .filled (hone rfl hn) hops hz (htail.mpr ⟨_, _, rfl⟩)
    | pread f size pos => simp [Action.queued, hio, Action.queues] at hq
    | pwrite f size pos => simp [Action.queued, hio, Action.queues] at hq
    | _ => exact hquiet rfl rfl rfl (by rw [hw]; rfl) (by simpa using htail)
  | @outside a r todo hw hin =>
    cases a with
    | fillBuffer size pos =>
      obtain ⟨hn, -⟩ := h.first (hfree _ rfl) (by rw [hw]; rfl) (by rw [hw]; rfl)
      exact .leaving (hone rfl hn).le rfl
    | validateBuffer size pos => exact hquiet rfl rfl rfl (by rw [hw]; rfl) rfl
    | _ => cases hin
  | @queue a r todo oper accepted ok batch aio hw _ hoper hsub hle =>
    obtain ⟨hfailed, htail⟩ := (hstage _ _ hw).afterQueue hcap hoper r
    have hidle : s.aio.nrequests = 0 → overwrites (es ++ [.queue a accepted batch ok]) = 1 →
        Used (es ++ [.queue a accepted batch ok])
          { worker := if queueResult ok oper = oper.len then .busy r (.ok todo)
              else .failed r (.ok (a :: todo))
            aio := aio
            ops := s.submit oper accepted - (batch.map Prod.fst : Multiset NumberedOper)
            prepared := s.prepared + 1 } := by
      intro hz hn
      obtain ⟨hb, rfl, -⟩ := submit_room hsub hz hback
      obtain rfl : batch = [] := List.map_eq_nil_iff.mp hb
      cases ok with
      | true => exact .busy hn (by simp [BufferThread.submit]) (by simpa [queueResult] using htail)
      | false => exact .leaving hn.le hfailed
    cases a with
    | pread f size pos =>
      obtain ⟨hn, hz⟩ := h.first (hfree _ rfl) (by rw [hw]; rfl) (by rw [hw]; rfl)
      exact hidle hz (hone rfl hn)
    | pwrite f size pos =>
      -- the WRITE follows the filling of the buffer
      have hcount : overwrites (es ++ [.queue (.pwrite f size pos) accepted batch ok]) =
          overwrites es := overwrites_snoc es _
      cases h with
      | filled hn ho hz hsw => exact hidle hz (hcount.trans hn)
      | unused hn ho hz hsw => simp [hw, Worker.atPwrite] at hsw
      | busy hn ho hsw => simp [hw, Worker.atPwrite] at hsw
      | leaving hn hsw => simp [hw, Worker.leaving] at hsw
    | _ => cases hoper
  | @fail a r todo hw hq =>
    refine hquiet rfl rfl rfl ?_ rfl
    rw [hw]
    cases a <;> first | rfl | simp [Action.queued, hio, Action.queues] at hq
  | ret hw => exact hquiet rfl rfl rfl (by rw [hw]; rfl) rfl
  | refused hw => exact hquiet rfl rfl rfl (by rw [hw]; rfl) rfl
  | stop hw => exact hquiet rfl rfl rfl (by rw [hw]; rfl) rfl

theorem BufferSafe.used (hcap : bufferCapacity c < 2 ^ 32) (hval : c.validate = true)
    (hio : c.fileIoMode = .async) (hback : 1 < backlog) {es : List BufferEvent}
    (hsafe : BufferSafe c backlog es) {pre : List BufferEvent} (hpre : pre <+: es)
    {s : BufferThread} (hr : run (bufferStep c backlog) initBufferThread pre = some s) :
    Used pre s := by
  induction pre using List.reverseRecOn generalizing s with
  | nil =>
    cases hr
    exact .unused rfl rfl rfl rfl
  | append_singleton pre e ih =>
    obtain ⟨u, hu, he⟩ := run_snoc_iff.mp hr
    exact (ih ((List.prefix_append _ _).trans hpre) hu).step hcap hval hio hback
      (run_staged hval hu) (fun a ha => hsafe pre e a u hpre ha hu) (bufferStep_moved he)

/-! ## Runs with one operation -/

def Worker.atValidate : Worker → Bool
  | .busy _ (.ok (.validateBuffer _ _ :: _)) => true
  | _ => false

/-- What is known along a run in async mode: an operation in flight has been prepared, and
has used the buffer; a buffer that is validated was read before. -/
structure Traced (es : List BufferEvent) (s : BufferThread) : Prop where
  numbered : ∀ op ∈ s.ops, op.1 < s.prepared
  used : s.ops ≠ 0 ∨ s.worker.atPwrite = true → 1 ≤ overwrites es
  read : s.worker.atValidate = true → (∀ op ∈ s.ops, op.1 + 1 ≠ s.prepared) ∨
    ∃ pre f size pos batch ok, es = pre ++ [.queue (.pread f size pos) true batch ok]

theorem atValidate_taken (q : Request) : (taken c q).atValidate = false := by
  cases q with
  | null => rfl
  | file r =>
    cases hacts : fileExecuteRequest c r with
    | error e => simp only [taken, hacts, Worker.atValidate]
    | ok todo =>
      simp only [taken, hacts]
      rcases (fileExecuteRequest_ok hacts).2 with ⟨-, rfl⟩ | ⟨-, rfl⟩ | ⟨-, rfl⟩
      · unfold writeActions
        split_ifs <;> rfl
      · rfl
      · unfold fsyncActions
        split_ifs <;> rfl

theorem Stage.atValidate_tail {a : Action} {todo : List Action} (h : Stage c (a :: todo))
    {r : FileRequest} (hv : (Worker.busy r (.ok todo)).atValidate = true) :
    ∃ f size pos, a = .pread f size pos := by
  have hplain : ∀ {todo : List Action}, (∀ a ∈ todo, a.plain) →
      (Worker.busy r (.ok todo)).atValidate = false := by
    intro todo h
    cases todo with
    | nil => rfl
    | cons b todo =>
      have hb := h b List.mem_cons_self
      cases b <;> first | rfl | cases hb
  cases h with
  | rest h => simp [hplain fun b hb => h b (List.mem_cons_of_mem _ hb)] at hv
  | fill h => cases hv
  | pwrite h hin => simp [hplain h] at hv
  | pread h => exact ⟨_, _, _, rfl⟩
  | validate h => simp [hplain h] at hv

theorem Traced.step (hval : c.validate = true) (hio : c.fileIoMode = .async)
    {es : List BufferEvent} {s t : BufferThread} {e : BufferEvent} (h : Traced es s) (hstage : Staged c s.worker) (hmv : BufferMoved c backlog s e t) :
    Traced (es ++ [e]) t := by
  -- a step that queues nothing and leads neither to a WRITE nor to a validation
  have hquiet : t.ops = s.ops → t.prepared = s.prepared →
      (t.worker.atPwrite = true → e.overwrites = true) → t.worker.atValidate = false →
      Traced (es ++ [e]) t := by
    intro hops hprep hwrite hvalidate
    refine ⟨hops ▸ hprep ▸ h.numbered, ?_, fun hv => by simp [hvalidate] at hv⟩
    rw [hops, overwrites_snoc]
    rintro (hne | hw)
    · exact (h.used (.inl hne)).trans (Nat.le_add_right _ _)
    · simp [hwrite hw]
  cases hmv with
  | get hw =>
    exact hquiet rfl rfl (fun hp => by simp [atPwrite_taken hval] at hp) (atValidate_taken _)
  | @act a r todo hw hq hin =>
    refine hquiet rfl rfl ?_ ?_
    · intro hp
      obtain ⟨size, pos, rfl⟩ := ((hstage _ _ hw).atPwrite_tail r).mp hp
      rfl
    · by_contra hv
      obtain ⟨f, size, pos, rfl⟩ := (hstage _ _ hw).atValidate_tail (r := r) (by simpa using hv)
      simp [Action.queued, hio, Action.queues] at hq
  | outside hw hin => exact hquiet rfl rfl (fun hp => by cases hp) rfl
  | @queue a r todo oper accepted ok batch aio hw _ hoper hsub hle =>
    have hmem : ∀ op ∈ s.submit oper accepted - (batch.map Prod.fst : Multiset NumberedOper),
        op ∈ s.submit oper accepted := fun op hop => Multiset.mem_of_le tsub_le_self hop
    have hnew : ∀ op ∈ s.submit oper accepted, op ∈ s.ops ∨ accepted = true ∧ op.1 = s.prepared := by
      intro op hop
      unfold BufferThread.submit at hop
      cases accepted with
      | false => exact .inl hop
      | true =>
        rcases Multiset.mem_cons.mp hop with rfl | hop
        · exact .inr ⟨rfl, rfl⟩
        · exact .inl hop
    have hused : 1 ≤ overwrites (es ++ [.queue a accepted batch ok]) := by
      rw [overwrites_snoc]
      cases a with
      | pread f size pos => exact Nat.le_add_left _ _
      | pwrite f size pos =>
        exact (h.used (.inr (by rw [hw]; rfl))).trans (Nat.le_add_right _ _)
      | _ => cases hoper
    refine ⟨?_, fun _ => hused, ?_⟩
    · intro op hop
      rcases hnew op (hmem op hop) with hold | ⟨-, heq⟩
      · exact (h.numbered op hold).trans (Nat.lt_succ_self _)
      · exact heq.trans_lt (Nat.lt_succ_self _)
    · intro hv
      have hread : ∃ f size pos, a = .pread f size pos := by
        dsimp only at hv
        split_ifs at hv
        · exact (hstage _ _ hw).atValidate_tail hv
        · cases hv
      obtain ⟨f, size, pos, rfl⟩ := hread
      cases accepted with
      | true => exact .inr ⟨es, f, size, pos, batch, ok, rfl⟩
      | false =>
        refine .inl fun op hop => ?_
        rcases hnew op (hmem op hop) with hold | ⟨hacc, -⟩
        · have := h.numbered op hold
          dsimp only
          omega
        · cases hacc
  | fail hw hq => exact hquiet rfl rfl (fun hp => by cases hp) rfl
  | ret hw => exact hquiet rfl rfl (fun hp => by cases hp) rfl
  | refused hw => exact hquiet rfl rfl (fun hp => by cases hp) rfl
  | stop hw => exact hquiet rfl rfl (fun hp => by cases hp) rfl

theorem run_traced (hval : c.validate = true) (hio : c.fileIoMode = .async)
    {es : List BufferEvent} {s : BufferThread}
    (hr : run (bufferStep c backlog) initBufferThread es = some s) : Traced es s := by
  refine run_invariant (I := Traced) ?_ ?_ hr
  · constructor
    · intro op hop
      cases hop
    · rintro (hne | hp)
      · exact absurd rfl hne
      · cases hp
    · intro hv
      cases hv
  · intro es s e t hr h hstep
    exact h.step hval hio (run_staged hval hr) (bufferStep_moved hstep)

/-- The action of an event is what the worker has to do next. -/
theorem BufferMoved.next {s t : BufferThread} {e : BufferEvent} (h : BufferMoved c backlog s e t)
    {a : Action} (ha : e.action = some a) : ∃ r todo, s.worker = .busy r (.ok (a :: todo)) := by
  cases h with
  | act hw => exact Option.some.inj ha ▸ ⟨_, _, hw⟩
  | outside hw => exact Option.some.inj ha ▸ ⟨_, _, hw⟩
  | queue hw => exact Option.some.inj ha ▸ ⟨_, _, hw⟩
  | _ => cases ha

theorem OneOperation.safe (hval : c.validate = true) (hio : c.fileIoMode = .async)
    {es : List BufferEvent} {s : BufferThread}
    (hr : run (bufferStep c backlog) initBufferThread es = some s) (hone : OneOperation es) :
    BufferSafe c backlog es := by
  intro pre e a u hpre ha hu
  obtain ⟨rest, rfl⟩ := id hpre
  obtain ⟨v, hv, -⟩ := run_append_iff.mp hr
  obtain ⟨u', hu', hstep⟩ := run_snoc_iff.mp hv
  obtain rfl : u' = u := Option.some.inj (hu'.symm.trans hu)
  have htraced := run_traced hval hio hu
  obtain ⟨r, todo, hw⟩ := (bufferStep_moved hstep).next ha
  -- a second use of the buffer would be counted
  have hfirst : e.overwrites = true → u'.ops = 0 := by
    intro he
    by_contra hne
    have hused := htraced.used (.inl hne)
    have hcount : overwrites (pre ++ [e]) ≤ overwrites (pre ++ [e] ++ rest) :=
      (List.prefix_append _ _).sublist.countP_le
    rw [overwrites_snoc, if_pos he] at hcount
    have hsingle : overwrites (pre ++ [e] ++ rest) ≤ 1 := hone.single
    omega
  cases a with
  | fillBuffer size pos => exact hfirst (by simp [BufferEvent.overwrites, ha])
  | pread f size pos => exact hfirst (by simp [BufferEvent.overwrites, ha])
  | validateBuffer size pos =>
    refine (htraced.read (by rw [hw]; rfl)).resolve_right ?_
    rintro ⟨pre', f, size', pos', batch, ok, rfl⟩
    have he : e = .act (.validateBuffer size pos) := by
      cases bufferStep_moved hstep with
      | act hw => exact congrArg _ (Option.some.inj ha)
      | outside hw => exact congrArg _ (Option.some.inj ha)
      | queue hw hq hoper =>
        cases ha
        cases hoper
      | _ => cases ha
    subst he
    refine hone.unvalidated pre' f size' pos' batch ok size pos ?_
    simp
  | _ => trivial

/-- In validation mode the buffer is used safely in a run exactly when nothing is queued, or
the queue holds one operation, or the worker performs no second one and validates none. -/
theorem bufferSafe_iff {g : Globals} {o : Options} (hp : parseArguments g o = .ok c)
    (hval : c.validate = true) {value : ℤ}
    (hinit : c.fileIoMode = .async → fileAsyncInit value = .ok backlog)
    {es : List BufferEvent} {s : BufferThread}
    (hr : run (bufferStep c backlog) initBufferThread es = some s) :
    BufferSafe c backlog es ↔ c.fileIoMode ≠ .async ∨ backlog = 1 ∨ OneOperation es := by
  have hcap : bufferCapacity c < 2 ^ 32 := by
    have := (parseArguments_ok hp).maxRequestSize_range
    unfold bufferCapacity
    omega
  constructor
  · intro hsafe
    by_cases hio : c.fileIoMode = .async
    · refine .inr (or_iff_not_imp_left.mpr fun hne => ?_)
      have hback : 1 < backlog := by
        have := (fileAsyncInit_ok (hinit hio)).1
        omega
      refine ⟨(hsafe.used hcap hval hio hback List.prefix_rfl hr).overwrites_le, ?_⟩
      intro pre f size pos batch ok size' pos' hpre
      obtain ⟨rest, hes⟩ := id hpre
      obtain ⟨v, hv, -⟩ := run_append_iff.mp (hes ▸ hr)
      rw [List.append_cons, List.append_assoc, ← List.append_assoc] at hv
      obtain ⟨u, hu, hvalid⟩ := run_snoc_iff.mp hv
      obtain ⟨w, hw, hread⟩ := run_snoc_iff.mp hu
      have hbefore : pre ++ [.queue (.pread f size pos) true batch ok] <+: es := by
        refine List.IsPrefix.trans ?_ hpre
        exact ⟨[.act (.validateBuffer size' pos')], by simp⟩
      have hfree : w.ops = 0 := hsafe pre _ _ w hbefore rfl hw
      have hused := hsafe.used hcap hval hio hback ((List.prefix_append _ _).trans hbefore) hw
      cases bufferStep_moved hread with
      | queue hworker hasync hoper hsub hle =>
        obtain ⟨-, hz⟩ := hused.first hfree (by rw [hworker]; rfl) (by rw [hworker]; rfl)
        obtain ⟨hb, -, -⟩ := submit_room hsub hz hback
        obtain rfl : batch = [] := List.map_eq_nil_iff.mp hb
        -- the READ is still in flight when the buffer is validated
        have hsafe' := hsafe _ (.act (.validateBuffer size' pos')) _ _ (by simpa using hpre) rfl hu
        exact hsafe' _ (by simp [BufferThread.submit]; exact .inl rfl) rfl
    · exact .inl hio
  · rintro (hio | rfl | hone)
    · intro pre e a u hpre ha hu
      exact free_of_ops (run_noOps hio hu) a
    · intro pre e a u hpre ha hu
      exact free_of_ops (run_alone hcap hval hu).ops a
    · by_cases hio : c.fileIoMode = .async
      · exact hone.safe hval hio hr
      · intro pre e a u hpre ha hu
        exact free_of_ops (run_noOps hio hu) a

/-! ## A queue of two operations -/

def readOptions : Options :=
  { smallOptions with
    fileTestMode := some "seqrd", fileIoMode := some "async", fileFsyncFreq := 0,
    fileBlockSize := 16, fileTotalSize := 32 }

def readConfig : Config :=
  { smallConfig with
    validate := true, fileIoMode := .async, testMode := .read, fileFsyncFreq := 0,
    totalSize := 32, fileSize := 32, fileBlockSize := 16, fileMaxRequestSize := 16 }

/-- The first READ of the file is queued and validated at once. -/
def readEvents : List BufferEvent :=
  [.get (.file ⟨0, 0, 16, .read⟩), .queue (.pread 0 16 0) true [] true, .act (.validateBuffer 16 0)]

theorem readEvents_run : ∃ s, run (bufferStep readConfig 2) initBufferThread readEvents = some s :=
  ⟨_, rfl⟩

theorem bufferSafe_iff_read : BufferSafe readConfig 2 readEvents ↔
    readConfig.fileIoMode ≠ .async ∨ 2 = 1 ∨ OneOperation readEvents := by
  obtain ⟨s, hs⟩ := readEvents_run
  exact bufferSafe_iff (g := { smallGlobals with validate := true }) (o := readOptions) rfl rfl
    (fun _ => show fileAsyncInit 2 = .ok 2 from rfl) hs

/-- With room for a second operation the buffer is validated while the READ is in flight. -/
theorem bufferSafe_read : ∃ g o c v, parseArguments g o = .ok c ∧ c.validate = true ∧
    fileAsyncInit 2 = .ok 2 ∧
    fileGetRequest c (initVars fun _ => ⟨0, 0⟩) 0 [] = some (.file ⟨0, 0, 16, .read⟩, v) ∧
    ∃ es s, run (bufferStep c 2) initBufferThread es = some s ∧ ¬ BufferSafe c 2 es := by
  obtain ⟨s, hs⟩ := readEvents_run
  refine ⟨{ smallGlobals with validate := true }, readOptions, readConfig, _, rfl, rfl, rfl, rfl,
    readEvents, s, hs, fun hsafe => ?_⟩
  have hfree := hsafe (readEvents.take 2) (.act (.validateBuffer 16 0)) _ _ List.prefix_rfl rfl rfl
  exact hfree (0, ⟨.read, 16⟩) (by decide) rfl

end Sysbench.Fileio
