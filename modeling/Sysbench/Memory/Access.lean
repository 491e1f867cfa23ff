import Sysbench.Fileio.Requests
import Sysbench.Machine.Doubles
import Sysbench.Machine.Pool
import Sysbench.Memory.Budget

/-! # The accesses of the memory test

A request goes over the words of a buffer, or takes one word again and again at a place that is
computed in doubles and stored in an `int`. The threads work on their buffers word by word and at
the same time.
-/
namespace Sysbench.Memory

open Checks Doubles Pool Runs Words
open Fileio (Draw sbMaxRnd)

/-- `memory_block_size / sizeof(int)`. -/
def MemoryConfig.words (cfg : MemoryConfig) : ℕ := toUInt 64 cfg.memoryBlockSize / 4

/-- `idx` of the random mode. A double from `2 ^ 31` on has no value as an `int`. -/
def rndIndex (words : ℕ) (rand : Draw) : Option ℕ :=
  let x := nearest (nearest ((rand : ℕ) / (sbMaxRnd : ℕ)) * nearest words)
  if x < 2 ^ 31 then some ⌊x⌋₊ else none

/-- How often the loops of `memory_execute_request` go round. -/
def MemoryConfig.rounds (cfg : MemoryConfig) : ℕ :=
  if cfg.memoryAccessRnd then cfg.memoryBlockSize.toNat else cfg.memoryBlockSize.toNat / 4

/-- Where round `i` is in the buffer. -/
def MemoryConfig.place (cfg : MemoryConfig) (rand : Draw) (i : ℕ) : Option ℕ :=
  if cfg.memoryAccessRnd then rndIndex cfg.words rand else some i

/-- One round on a buffer, with the value of `tmp`; `none` is an access beyond the buffer. Without an
operation `tmp` is the distance to the end. -/
def memoryAccess (type : MemOp) (idx : ℕ) (tmp : ℤ) (buf : List ℤ) : Option (ℤ × List ℤ) :=
  match type with
  | .write => if idx < buf.length then some (tmp, buf.set idx tmp) else none
  | .read => buf[idx]?.map fun word => (word, buf)
  | .none => some (toInt 32 (buf.length - idx), buf)

/-- Where a worker is in the loop of `runner_thread`. -/
inductive Worker where
  | top
  | requested (req : MemRequest)
  | accessing (req : MemRequest) (rand : Draw) (i : ℕ) (tmp : ℤ)
  | left

structure AccessState (n : ℕ) where
  stats : MemoryStats
  buffer : List ℤ
  buffers : Fin n → List ℤ
  workers : Fin n → Worker
  /-- an access without a meaning has been made -/
  undefined : Bool

inductive AccessEvent (n : ℕ) where
  | take (t : Fin n) (req : Option MemRequest)
  /-- `rand` is drawn in the random mode only -/
  | start (t : Fin n) (rand : Draw)
  | access (t : Fin n)
  | stop (t : Fin n) (timeLimit : Bool)
  | report (type : StatType) (printed : List ℤ)

variable {n : ℕ}

/-- The buffers are zeroed when they are allocated. -/
def initAccess (cfg : MemoryConfig) (n : ℕ) : AccessState n where
  stats := ⟨0, 0, 0⟩
  buffer := List.replicate cfg.words 0
  buffers _ := List.replicate cfg.words 0
  workers _ := .top
  undefined := false

def AccessState.move (s : AccessState n) (t : Fin n) (w : Worker) : AccessState n :=
  { s with workers := Function.update s.workers t w }

def AccessState.buf (s : AccessState n) (t : Fin n) : MemScope → List ℤ
  | .global => s.buffer
  | .local => s.buffers t

def AccessState.store (s : AccessState n) (t : Fin n) (buf : List ℤ) : MemScope → AccessState n
  | .global => { s with buffer := buf }
  | .local => { s with buffers := Function.update s.buffers t buf }

def accessRound (cfg : MemoryConfig) (s : AccessState n) (t : Fin n) (req : MemRequest) (rand : Draw)
    (i : ℕ) (tmp : ℤ) : AccessState n :=
  match (cfg.place rand i).bind fun idx => memoryAccess req.type idx tmp (s.buf t req.scope) with
  | some (tmp, buf) => (s.store t buf req.scope).move t (.accessing req rand (i + 1) tmp)
  | none => { s with undefined := true }

def accessStep (cfg : MemoryConfig) (s : AccessState n) : AccessEvent n → Option (AccessState n)
  | .take t req =>
    match s.workers t with
    | .top =>
      if (memoryGetRequest cfg s.stats).1 = req then
        some ({ s with stats := (memoryGetRequest cfg s.stats).2 }.move t
          (req.elim .left .requested))
      else none
    | _ => none
  | .start t rand =>
    match s.workers t with
    | .requested req =>
      if cfg.aborts req.type then some (s.move t .left)
      else some (s.move t (.accessing req rand 0 0))
    | _ => none
  | .access t =>
    match s.workers t with
    | .accessing req rand i tmp =>
      if i < cfg.rounds then some (accessRound cfg s t req rand i tmp) else none
    | _ => none
  | .stop t timeLimit =>
    match s.workers t with
    | .accessing _ _ i _ =>
      if i < cfg.rounds then none else some (s.move t (if timeLimit then .left else .top))
    | _ => none
  | .report type printed =>
    if (memoryPrintStats cfg s.stats type).1 = printed then
      some { s with stats := (memoryPrintStats cfg s.stats type).2 }
    else none

/-- A test that takes requests and goes to random places has no more words than an `int` can
reach. -/
def MemoryConfig.Reachable (cfg : MemoryConfig) : Prop :=
  0 < cfg.memoryTotalSize → cfg.memoryAccessRnd = true → cfg.memoryOper ≠ .none →
    cfg.memoryBlockSize ≤ 2 ^ 33 + 4

instance (cfg : MemoryConfig) : Decidable cfg.Reachable :=
  inferInstanceAs (Decidable (_ → _ → _ → _))

/-! ## Places in doubles -/

theorem draw_le (rand : Draw) : nearest ((rand : ℕ) / (sbMaxRnd : ℕ)) ≤ 1 - 2 ^ (-30 : ℤ) := by
  have hrand : ((rand : ℕ) : ℚ) ≤ 0x3ffffffe := by exact_mod_cast Nat.le_of_lt_succ rand.isLt
  have hle : ((rand : ℕ) : ℚ) / (sbMaxRnd : ℕ) ≤ (0x3fffffff : ℕ) * 2 ^ (-30 : ℤ) := by
    rw [div_le_iff₀ (by norm_num [sbMaxRnd])]
    norm_num [sbMaxRnd]
    linarith
  calc nearest ((rand : ℕ) / (sbMaxRnd : ℕ)) ≤ (0x3fffffff : ℕ) * 2 ^ (-30 : ℤ) :=
        nearest_le (by norm_num) (by positivity) hle
    _ = 1 - 2 ^ (-30 : ℤ) := by norm_num

/-- Before the last rounding a place is at least `words / 2 ^ 30` away from the end. -/
theorem rndIndex_lt {words : ℕ} (hpos : 0 < words) (hle : words ≤ 2 ^ 31 + 1) (rand : Draw) :
    ∃ idx < words, rndIndex words rand = some idx := by
  set x := nearest ((rand : ℕ) / (sbMaxRnd : ℕ)) * nearest words with hx
  have hwords : nearest (words : ℚ) = words := nearest_natCast (by omega)
  have hposq : (0 : ℚ) < words := by exact_mod_cast hpos
  have hleq : (words : ℚ) ≤ 2 ^ 31 + 1 := by exact_mod_cast hle
  have hx0 : 0 ≤ x := by
    rw [hx, hwords]
    exact mul_nonneg (nearest_nonneg (by positivity)) hposq.le
  have hxle : x ≤ (1 - 2 ^ (-30 : ℤ)) * words := by
    rw [hx, hwords]
    exact mul_le_mul_of_nonneg_right (draw_le rand) hposq.le
  have hround : nearest x ≤ (1 - 2 ^ (-30 : ℤ)) * words * (1 + 2 ^ (-53 : ℤ)) :=
    (nearest_le_mul hx0).trans (mul_le_mul_of_nonneg_right hxle (by positivity))
  norm_num at hround
  have hint : nearest x < 2 ^ 31 := by linarith
  refine ⟨⌊nearest x⌋₊, (Nat.floor_lt (nearest_nonneg hx0)).mpr (by linarith), ?_⟩
  exact if_pos hint

theorem lastDraw_lt : sbMaxRnd - 1 < sbMaxRnd := by decide

def lastDraw : Draw := ⟨sbMaxRnd - 1, lastDraw_lt⟩

theorem nearest_lastDraw :
    nearest ((lastDraw : ℕ) / (sbMaxRnd : ℕ)) = 1 - 2 ^ (-30 : ℤ) := by
  rw [nearest_eq_roundEven (k := -1) (by norm_num [lastDraw, sbMaxRnd])
    (by norm_num [lastDraw, sbMaxRnd]), roundEven_eq (m := 2 ^ 53 - 2 ^ 23)]
  · norm_num
  · norm_num [lastDraw, sbMaxRnd, abs_lt]

/-- With more words the largest place rounds to `2 ^ 31`. -/
theorem rndIndex_lastDraw {words : ℕ} (h : 2 ^ 31 + 2 ≤ words) : rndIndex words lastDraw = none := by
  have hwords : ((2 ^ 31 + 2 : ℕ) : ℚ) ≤ nearest words := by
    rw [← nearest_natCast (by norm_num : 2 ^ 31 + 2 ≤ 2 ^ 53)]
    exact nearest_mono (by positivity) (by exact_mod_cast h)
  have hround : nearest (2 ^ 31 - 2 ^ (-29 : ℤ)) = 2 ^ 31 := by
    rw [nearest_eq_roundEven (k := 30) (by norm_num) (by norm_num), roundEven_eq (m := 2 ^ 53)]
    · norm_num
    · norm_num [abs_lt]
  have hle : (2 ^ 31 - 2 ^ (-29 : ℤ) : ℚ) ≤
      nearest ((lastDraw : ℕ) / (sbMaxRnd : ℕ)) * nearest words := by
    rw [nearest_lastDraw]
    norm_num at hwords ⊢
    linarith
  have hlarge := nearest_mono (by norm_num) hle
  rw [hround] at hlarge
  exact if_neg (not_lt.mpr hlarge)

/-! ## Steps -/

variable {cfg : MemoryConfig} {s u : AccessState n} {e : AccessEvent n} {es : List (AccessEvent n)}

@[simp] theorem moveWorker_workers (s : AccessState n) (t : Fin n) (w : Worker) :
    (s.move t w).workers = Function.update s.workers t w := rfl

@[simp] theorem moveWorker_buffer (s : AccessState n) (t : Fin n) (w : Worker) :
    (s.move t w).buffer = s.buffer := rfl

@[simp] theorem moveWorker_buffers (s : AccessState n) (t : Fin n) (w : Worker) :
    (s.move t w).buffers = s.buffers := rfl

@[simp] theorem moveWorker_stats (s : AccessState n) (t : Fin n) (w : Worker) :
    (s.move t w).stats = s.stats := rfl

@[simp] theorem moveWorker_undefined (s : AccessState n) (t : Fin n) (w : Worker) :
    (s.move t w).undefined = s.undefined := rfl

theorem memoryAccess_zeros {type : MemOp} {idx words : ℕ} {tmp tmp' : ℤ} {buf : List ℤ}
    (htmp : type ≠ .none → tmp = 0)
    (h : memoryAccess type idx tmp (List.replicate words 0) = some (tmp', buf)) :
    buf = List.replicate words 0 ∧ (type ≠ .none → tmp' = 0) := by
  cases type with
  | write =>
    obtain ⟨-, ⟨⟩⟩ := Option.ite_none_right_eq_some.mp h
    simp [htmp]
  | read =>
    obtain ⟨word, hword, ⟨⟩⟩ := Option.map_eq_some_iff.mp h
    have hzero := List.eq_of_mem_replicate (List.mem_of_getElem? hword)
    simp [hzero]
  | none =>
    cases h
    simp

theorem memoryAccess_isSome (type : MemOp) (tmp : ℤ) {idx words : ℕ} (h : idx < words) :
    (memoryAccess type idx tmp (List.replicate words 0)).isSome := by
  cases type <;> simp [memoryAccess, h]

def MemoryConfig.request (cfg : MemoryConfig) : MemRequest :=
  ⟨cfg.memoryBlockSize, cfg.memoryScope, cfg.memoryOper⟩

/-- A worker has a request of the configuration, and writes zeros. -/
def Worker.Fits (cfg : MemoryConfig) : Worker → Prop
  | .requested req => req = cfg.request ∧ 0 < cfg.memoryTotalSize
  | .accessing req _ _ tmp =>
    req = cfg.request ∧ 0 < cfg.memoryTotalSize ∧
      (cfg.memoryAccessRnd = true → cfg.memoryOper ≠ .none) ∧ (cfg.memoryOper ≠ .none → tmp = 0)
  | _ => True

structure Zeroed (cfg : MemoryConfig) (s : AccessState n) : Prop where
  buffer : s.buffer = List.replicate cfg.words 0
  buffers : ∀ t, s.buffers t = List.replicate cfg.words 0
  workers : ∀ t, (s.workers t).Fits cfg
  totalBytes : 0 < cfg.memoryTotalSize ∨ s.stats.totalBytes = 0

theorem zeroed_init : Zeroed cfg (initAccess cfg n) where
  buffer := rfl
  buffers _ := rfl
  workers _ := trivial
  totalBytes := .inr rfl

theorem Zeroed.buf (h : Zeroed cfg s) (t : Fin n) (scope : MemScope) :
    s.buf t scope = List.replicate cfg.words 0 := by
  cases scope with
  | global => exact h.buffer
  | «local» => exact h.buffers t

theorem Zeroed.store (h : Zeroed cfg s) (t : Fin n) (scope : MemScope) :
    s.store t (List.replicate cfg.words 0) scope = s := by
  cases scope with
  | global => rw [AccessState.store, ← h.buffer]
  | «local» => rw [AccessState.store, ← h.buffers t, Function.update_eq_self]

theorem Zeroed.move (h : Zeroed cfg s) (t : Fin n) {w : Worker} (hw : w.Fits cfg) :
    Zeroed cfg (s.move t w) where
  buffer := h.buffer
  buffers := h.buffers
  workers i := by
    rw [AccessState.move]
    by_cases hi : i = t
    · subst hi
      simpa using hw
    · simpa [hi] using h.workers i
  totalBytes := h.totalBytes

/-- A round has a meaning and leaves the zeros, or has none. -/
theorem Zeroed.round (h : Zeroed cfg s) {t : Fin n} {rand : Draw} {i : ℕ} {tmp : ℤ}
    (hw : (Worker.accessing cfg.request rand i tmp).Fits cfg) :
    (∃ tmp', accessRound cfg s t cfg.request rand i tmp =
        s.move t (.accessing cfg.request rand (i + 1) tmp') ∧
        (Worker.accessing cfg.request rand (i + 1) tmp').Fits cfg) ∨
      (∀ idx, cfg.place rand i = some idx → cfg.words ≤ idx) ∧
        accessRound cfg s t cfg.request rand i tmp = { s with undefined := true } := by
  obtain ⟨-, htotal, hrnd, htmp⟩ := hw
  rw [accessRound, h.buf]
  cases hplace : (cfg.place rand i).bind fun idx =>
      memoryAccess cfg.request.type idx tmp (List.replicate cfg.words 0) with
  | some result =>
    left
    obtain ⟨idx, -, haccess⟩ := Option.bind_eq_some_iff.mp hplace
    obtain ⟨hbuf, htmp'⟩ := memoryAccess_zeros htmp haccess
    refine ⟨result.1, ?_, rfl, htotal, hrnd, htmp'⟩
    dsimp only
    rw [hbuf, h.store]
  | none =>
    right
    refine ⟨fun idx hidx => ?_, rfl⟩
    by_contra hlt
    rw [hidx, Option.bind_some] at hplace
    have hsome := memoryAccess_isSome cfg.request.type tmp (not_le.mp hlt)
    rw [hplace] at hsome
    cases hsome

theorem memoryGetRequest_some {stats : MemoryStats} {req : MemRequest}
    (hbytes : 0 < cfg.memoryTotalSize ∨ stats.totalBytes = 0)
    (h : (memoryGetRequest cfg stats).1 = some req) :
    req = cfg.request ∧ 0 < cfg.memoryTotalSize := by
  unfold memoryGetRequest at h
  split_ifs at h with hused
  refine ⟨(Option.some.inj h).symm, ?_⟩
  rcases hbytes with htotal | hzero
  · exact htotal
  · simpa [hzero] using hused

theorem Zeroed.take (h : Zeroed cfg s) {t : Fin n} :
    Zeroed cfg ({ s with stats := (memoryGetRequest cfg s.stats).2 }.move t
      ((memoryGetRequest cfg s.stats).1.elim .left .requested)) := by
  have hstats : Zeroed cfg { s with stats := (memoryGetRequest cfg s.stats).2 } := by
    refine ⟨h.buffer, h.buffers, h.workers, ?_⟩
    rcases lt_or_ge 0 cfg.memoryTotalSize with htotal | htotal
    · exact .inl htotal
    · have hzero := h.totalBytes.resolve_left (not_lt.mpr htotal)
      right
      simp [memoryGetRequest, hzero, htotal]
  refine hstats.move t ?_
  cases hreq : (memoryGetRequest cfg s.stats).1 with
  | none => trivial
  | some req => exact memoryGetRequest_some h.totalBytes hreq

theorem Zeroed.step (h : Zeroed cfg s) (he : accessStep cfg s e = some u) : Zeroed cfg u := by
  cases e with
  | take t req =>
    cases hw : s.workers t with
    | requested | accessing | left => simp [accessStep, hw] at he
    | top =>
      simp only [accessStep, hw, Option.ite_none_right_eq_some, Option.some.injEq] at he
      obtain ⟨rfl, rfl⟩ := he
      exact h.take
  | start t rand =>
    cases hw : s.workers t with
    | top | accessing | left => simp [accessStep, hw] at he
    | requested req =>
      have hfits := h.workers t
      rw [hw] at hfits
      obtain ⟨rfl, htotal⟩ := hfits
      simp only [accessStep, hw] at he
      split_ifs at he with hnone
      · cases he
        exact h.move t trivial
      · cases he
        refine h.move t ⟨rfl, htotal, fun hrnd hoper => hnone ⟨hrnd, hoper⟩, fun _ => rfl⟩
  | access t =>
    cases hw : s.workers t with
    | top | requested | left => simp [accessStep, hw] at he
    | accessing req rand i tmp =>
      have hfits := h.workers t
      rw [hw] at hfits
      obtain rfl := hfits.1
      simp only [accessStep, hw, Option.ite_none_right_eq_some, Option.some.injEq] at he
      obtain ⟨-, rfl⟩ := he
      rcases h.round hfits with ⟨tmp', hround, hfits'⟩ | ⟨-, hround⟩
      · rw [hround]
        exact h.move t hfits'
      · rw [hround]
        exact ⟨h.buffer, h.buffers, h.workers, h.totalBytes⟩
  | stop t timeLimit =>
    cases hw : s.workers t with
    | top | requested | left => simp [accessStep, hw] at he
    | accessing req rand i tmp =>
      simp only [accessStep, hw, Option.ite_none_left_eq_some, Option.some.injEq] at he
      obtain ⟨-, rfl⟩ := he
      refine h.move t ?_
      cases timeLimit <;> trivial
  | report type printed =>
    obtain ⟨-, ⟨⟩⟩ := Option.ite_none_right_eq_some.mp he
    refine ⟨h.buffer, h.buffers, h.workers, h.totalBytes.imp_right fun hzero => ?_⟩
    cases type with
    | intermediate => exact hzero
    | cumulative => rfl

/-! ## Requests and reports

The accesses are part of a run of the threads as `memoryStep` has it. -/

def Worker.thread : Worker → MemoryThread
  | .top => .asking
  | .requested req => .executing req
  | .accessing req _ _ _ => .executing req
  | .left => .left

def AccessState.threads (s : AccessState n) : MemoryState n := ⟨s.stats, fun t => (s.workers t).thread⟩

/-- What `memoryStep` has of an event, without the end of a request. -/
def AccessEvent.shown : AccessEvent n → Option (MemoryEvent n)
  | .take t req => some (.getRequest t req)
  | .report type printed => some (.report type printed)
  | _ => none

def MemoryEvent.shown : MemoryEvent n → Option (MemoryEvent n)
  | .executeRequest _ => none
  | e => some e

theorem threads_move (s : AccessState n) (t : Fin n) (w : Worker) :
    (s.move t w).threads = s.threads.move t w.thread := by
  have hworkers : (fun i => (Function.update s.workers t w i).thread) =
      Function.update (fun i => (s.workers i).thread) t w.thread :=
    funext fun i => Function.apply_update (fun _ => Worker.thread) s.workers t w i
  simp only [AccessState.threads, MemoryState.move, moveWorker_stats, moveWorker_workers, hworkers]

theorem threads_store (s : AccessState n) (t : Fin n) (buf : List ℤ) (scope : MemScope) :
    (s.store t buf scope).threads = s.threads := by
  cases scope <;> rfl

theorem MemoryState.move_self {s : MemoryState n} {t : Fin n} {thread : MemoryThread}
    (h : s.threads t = thread) : s.move t thread = s := by
  rw [MemoryState.move, ← h, Function.update_eq_self]

theorem accessStep_threads (h : Zeroed cfg s) (he : accessStep cfg s e = some u)
    (hlimit : ∀ t, e ≠ .stop t true) :
    ∃ fs, run (memoryStep cfg) s.threads fs = some u.threads ∧
      fs.filterMap MemoryEvent.shown = e.shown.toList := by
  cases e with
  | take t req =>
    cases hw : s.workers t with
    | requested | accessing | left => simp [accessStep, hw] at he
    | top =>
      simp only [accessStep, hw, Option.ite_none_right_eq_some, Option.some.injEq] at he
      obtain ⟨rfl, rfl⟩ := he
      have hasking : s.threads.threads t = .asking := congrArg Worker.thread hw
      refine ⟨[.getRequest t (memoryGetRequest cfg s.stats).1], ?_, rfl⟩
      rw [threads_move, run_cons, memoryStep, if_pos ⟨hasking, rfl⟩, Option.bind_some, run_nil]
      cases (memoryGetRequest cfg s.stats).1 <;> rfl
  | start t rand =>
    cases hw : s.workers t with
    | top | accessing | left => simp [accessStep, hw] at he
    | requested req =>
      have hreq : s.threads.threads t = .executing req := congrArg Worker.thread hw
      simp only [accessStep, hw] at he
      split_ifs at he with haborts
      · cases he
        refine ⟨[.executeRequest t], ?_, rfl⟩
        simp [memoryStep, hreq, haborts, threads_move, Worker.thread]
      · cases he
        refine ⟨[], ?_, rfl⟩
        rw [threads_move, Worker.thread, MemoryState.move_self hreq, run_nil]
  | access t =>
    cases hw : s.workers t with
    | top | requested | left => simp [accessStep, hw] at he
    | accessing req rand i tmp =>
      have hreq : s.threads.threads t = .executing req := congrArg Worker.thread hw
      simp only [accessStep, hw, Option.ite_none_right_eq_some, Option.some.injEq] at he
      obtain ⟨-, rfl⟩ := he
      refine ⟨[], ?_, rfl⟩
      unfold accessRound
      split
      · rw [threads_move, threads_store, Worker.thread, MemoryState.move_self hreq, run_nil]
      · rfl
  | stop t timeLimit =>
    obtain rfl : timeLimit = false := by
      cases timeLimit with
      | false => rfl
      | true => exact absurd rfl (hlimit t)
    cases hw : s.workers t with
    | top | requested | left => simp [accessStep, hw] at he
    | accessing req rand i tmp =>
      have hreq : s.threads.threads t = .executing req := congrArg Worker.thread hw
      have hfits := h.workers t
      rw [hw] at hfits
      obtain ⟨rfl, -, hrnd, -⟩ := hfits
      have haborts : ¬ cfg.aborts cfg.request.type := fun haborts => hrnd haborts.1 haborts.2
      simp only [accessStep, hw, Option.ite_none_left_eq_some, Option.some.injEq] at he
      obtain ⟨-, rfl⟩ := he
      refine ⟨[.executeRequest t], ?_, rfl⟩
      simp [memoryStep, hreq, haborts, threads_move, Worker.thread]
  | report type printed =>
    obtain ⟨hprinted, ⟨⟩⟩ := Option.ite_none_right_eq_some.mp he
    refine ⟨[.report type printed], ?_, rfl⟩
    have hthreads : (memoryPrintStats cfg s.threads.stats type).1 = printed := hprinted
    rw [run_cons, memoryStep, if_pos hthreads, Option.bind_some, run_nil]
    rfl

/-! ## Runs -/

variable {malloc : ℕ → ℕ → Bool} {o : MemoryOptions}

theorem memoryInit_words (hmalloc : MallocBounded malloc) (hn : 0 < n)
    (h : memoryInit malloc n o = .ok cfg) :
    cfg.memoryBlockSize = (4 * cfg.words : ℕ) ∧ cfg.words < 2 ^ 61 := by
  obtain ⟨hblock, hlt⟩ := memoryInit_block hmalloc hn h
  have hsize : toUInt 64 cfg.memoryBlockSize = o.blockSize.toNat := by
    rw [hblock, toUInt_natCast o.blockSize.toNat_lt]
  have hwords : cfg.words = o.blockSize.toNat / 4 := by rw [MemoryConfig.words, hsize]
  have hmod : o.blockSize.toNat % 4 = 0 := by
    have hstored := (memoryInit_ok h).1
    simp only [memoryInit, bind_eq_ok] at h
    obtain ⟨⟨⟩, hcheck, -⟩ := h
    unfold checkBlockSize at hcheck
    split_ifs at hcheck with hzero
    rw [← hstored, hsize] at hzero
    simpa using hzero
  rw [hblock, hwords]
  refine ⟨?_, by omega⟩
  rw [Nat.mul_div_cancel' (Nat.dvd_of_mod_eq_zero hmod)]

theorem run_zeroed (hr : run (accessStep cfg) (initAccess cfg n) es = some s) : Zeroed cfg s :=
  run_invariant (I := fun _ s => Zeroed cfg s) zeroed_init (fun _ _ _ _ _ h he => h.step he) hr

/-- The requests and reports of a run that no time limit ends are those of a run of the threads. -/
theorem run_threads (hr : run (accessStep cfg) (initAccess cfg n) es = some s)
    (hlimit : ∀ t, AccessEvent.stop t true ∉ es) :
    ∃ fs, run (memoryStep cfg) (initMemory n) fs = some s.threads ∧
      fs.filterMap MemoryEvent.shown = es.filterMap AccessEvent.shown := by
  refine run_invariant (I := fun es (s : AccessState n) => (∀ t, AccessEvent.stop t true ∉ es) →
    ∃ fs, run (memoryStep cfg) (initMemory n) fs = some s.threads ∧
      fs.filterMap MemoryEvent.shown = es.filterMap AccessEvent.shown) ?_ ?_ hr hlimit
  · exact fun _ => ⟨[], rfl, rfl⟩
  · intro es s e u hs ih he hlimit
    obtain ⟨fs, hfs, hshown⟩ := ih fun t h => hlimit t (List.mem_append_left _ h)
    obtain ⟨gs, hgs, hstep⟩ := accessStep_threads (run_zeroed hs) he
      fun t heq => hlimit t (List.mem_append_right _ (List.mem_singleton.mpr heq.symm))
    refine ⟨fs ++ gs, run_append_iff.mpr ⟨_, hfs, hgs⟩, ?_⟩
    rw [List.filterMap_append, List.filterMap_append, hshown, hstep]
    cases e <;> rfl

/-- A round that is made and has no meaning is one of a random mode with too many words. -/
theorem place_lt (hwords : cfg.memoryBlockSize = (4 * cfg.words : ℕ)) (hreach : cfg.Reachable)
    {rand : Draw} {i : ℕ} {tmp : ℤ} (hw : (Worker.accessing cfg.request rand i tmp).Fits cfg)
    (hi : i < cfg.rounds) : ∃ idx < cfg.words, cfg.place rand i = some idx := by
  obtain ⟨-, htotal, hrnd, -⟩ := hw
  unfold MemoryConfig.rounds at hi
  unfold MemoryConfig.place
  split_ifs at hi ⊢ with hmode
  · have hle := hreach htotal hmode (hrnd hmode)
    exact rndIndex_lt (by omega) (by omega) rand
  · exact ⟨i, by omega, rfl⟩

theorem step_defined (hwords : cfg.memoryBlockSize = (4 * cfg.words : ℕ)) (hreach : cfg.Reachable)
    (h : Zeroed cfg s) (he : accessStep cfg s e = some u) (hs : s.undefined = false) :
    u.undefined = false := by
  cases e with
  | take t req =>
    cases hw : s.workers t with
    | requested | accessing | left => simp [accessStep, hw] at he
    | top =>
      simp only [accessStep, hw, Option.ite_none_right_eq_some, Option.some.injEq] at he
      obtain ⟨-, rfl⟩ := he
      exact hs
  | start t rand =>
    cases hw : s.workers t with
    | top | accessing | left => simp [accessStep, hw] at he
    | requested req =>
      simp only [accessStep, hw] at he
      split_ifs at he with hnone
      · cases he
        exact hs
      · cases he
        exact hs
  | access t =>
    cases hw : s.workers t with
    | top | requested | left => simp [accessStep, hw] at he
    | accessing req rand i tmp =>
      have hfits := h.workers t
      rw [hw] at hfits
      obtain rfl := hfits.1
      simp only [accessStep, hw, Option.ite_none_right_eq_some, Option.some.injEq] at he
      obtain ⟨hi, rfl⟩ := he
      rcases h.round hfits with ⟨tmp', hround, -⟩ | ⟨houtside, -⟩
      · rw [hround]
        exact hs
      · obtain ⟨idx, hlt, hplace⟩ := place_lt hwords hreach hfits hi
        exact absurd (houtside idx hplace) (not_le.mpr hlt)
  | stop t timeLimit =>
    cases hw : s.workers t with
    | top | requested | left => simp [accessStep, hw] at he
    | accessing req rand i tmp =>
      simp only [accessStep, hw, Option.ite_none_left_eq_some, Option.some.injEq] at he
      obtain ⟨-, rfl⟩ := he
      exact hs
  | report type printed =>
    obtain ⟨-, ⟨⟩⟩ := Option.ite_none_right_eq_some.mp he
    exact hs

def farAccess (cfg : MemoryConfig) (t : Fin n) : List (AccessEvent n) :=
  [.take t (some cfg.request), .start t lastDraw, .access t]

theorem farAccess_undefined (hwords : cfg.memoryBlockSize = (4 * cfg.words : ℕ))
    (hreach : ¬ cfg.Reachable) (t : Fin n) :
    ∃ s, run (accessStep cfg) (initAccess cfg n) (farAccess cfg t) = some s ∧
      s.undefined = true := by
  simp only [MemoryConfig.Reachable, Classical.not_imp, not_le] at hreach
  obtain ⟨htotal, hrnd, hoper, hsize⟩ := hreach
  have htake : (memoryGetRequest cfg (initAccess cfg n).stats).1 = some cfg.request := by
    simp [memoryGetRequest, initAccess, not_le.mpr htotal, MemoryConfig.request]
  have hplace : ∀ i, cfg.place lastDraw i = none := by
    intro i
    rw [MemoryConfig.place, if_pos hrnd]
    exact rndIndex_lastDraw (by omega)
  have hrounds : 0 < cfg.rounds := by
    rw [MemoryConfig.rounds, if_pos hrnd]
    omega
  have htop : (initAccess cfg n).workers t = .top := rfl
  have haborts : ¬ cfg.aborts cfg.request.type := fun haborts => hoper haborts.2
  simp [farAccess, accessStep, htop, htake, haborts, hrounds, accessRound, hplace]

/-- Every access of every run is inside its buffer exactly if the random mode has at most
`2 ^ 31 + 1` words to choose from. Whatever the threads do, the buffers hold nothing but zeros. -/
theorem accesses_defined_iff (hmalloc : MallocBounded malloc) (hn : 0 < n)
    (hinit : memoryInit malloc n o = .ok cfg) :
    ((∀ es s, run (accessStep cfg) (initAccess cfg n) es = some s → s.undefined = false) ↔
        cfg.Reachable) ∧
      ∀ es s, run (accessStep cfg) (initAccess cfg n) es = some s →
        s.buffer = List.replicate cfg.words 0 ∧ ∀ t, s.buffers t = List.replicate cfg.words 0 := by
  have hwords := (memoryInit_words hmalloc hn hinit).1
  refine ⟨⟨fun hdefined => ?_, fun hreach es s hr => ?_⟩, fun es s hr => ?_⟩
  · by_contra hreach
    obtain ⟨s, hr, hs⟩ := farAccess_undefined hwords hreach ⟨0, hn⟩
    rw [hdefined _ s hr] at hs
    cases hs
  · refine run_invariant (I := fun _ (s : AccessState n) => s.undefined = false) rfl ?_ hr
    intro es s e u hs h he
    exact step_defined hwords hreach (run_zeroed hs) he h
  · have hzero := run_zeroed hr
    exact ⟨hzero.buffer, hzero.buffers⟩

def largeBlock : MemoryOptions := ⟨2 ^ 33 + 8, 2 ^ 40, "global", "read", "rnd"⟩

def largeBlockConfig : MemoryConfig := ⟨2 ^ 33 + 8, 2 ^ 40, .global, .read, true⟩

def largeSize (_ size : ℕ) : Bool := size < 2 ^ 40

theorem memoryInit_largeBlock : memoryInit largeSize 1 largeBlock = .ok largeBlockConfig := by
  have hblock : toInt 64 (2 ^ 33 + 8 : UInt64).toNat = 2 ^ 33 + 8 := by decide
  have htotal : toInt 64 (2 ^ 40 : UInt64).toNat = 2 ^ 40 := by decide
  have hsize : toUInt 64 (2 ^ 33 + 8) = 2 ^ 33 + 8 := by decide
  simp only [memoryInit, largeBlock, hblock, htotal, checkBlockSize, parseScope, parseOper,
    parseAccessMode, allocateBuffers, largeSize, hsize]
  rfl

theorem accesses_defined_iff_largeBlock :
    ¬ ∀ es s, run (accessStep largeBlockConfig) (initAccess largeBlockConfig 1) es = some s →
      s.undefined = false := by
  intro hdefined
  have hmalloc : MallocBounded largeSize := fun i size h =>
    lt_trans (of_decide_eq_true h) (by decide)
  have hreach := (accesses_defined_iff hmalloc one_pos memoryInit_largeBlock).1.mp hdefined
  exact absurd hreach (by decide)

end Sysbench.Memory
