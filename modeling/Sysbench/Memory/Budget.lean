import Sysbench.Machine.Checks
import Sysbench.Machine.Pool
import Sysbench.Machine.Runs
import Sysbench.Machine.Windows
import Sysbench.Machine.Words

/-! # The budget of the memory test

Threads take blocks until `total_bytes` has come to `memory_total_size`. The reports print the
same counter, and a cumulative one sets it back to zero.
-/
namespace Sysbench.Memory

open Checks Pool Runs Windows Words

inductive MemScope where
  | global | local
  deriving DecidableEq

inductive MemOp where
  | write | read | none
  deriving DecidableEq

/-- The command-line values, sizes as `sb_get_value_size` gives them. -/
structure MemoryOptions where
  blockSize : UInt64
  totalSize : UInt64
  scope : String
  oper : String
  accessMode : String

structure MemoryConfig where
  /-- a `ssize_t` -/
  memoryBlockSize : ℤ
  /-- a `long long` -/
  memoryTotalSize : ℤ
  memoryScope : MemScope
  memoryOper : MemOp
  memoryAccessRnd : Bool

def checkBlockSize (blockSize : ℤ) : Except String Unit :=
  if toUInt 64 blockSize % 4 ≠ 0 then .error "memory-block-size must be a multiple of 4!" else .ok ()

/-- `malloc i size` is whether the `i`-th allocation, of `size` bytes, succeeds. -/
def allocateBuffers (malloc : ℕ → ℕ → Bool) (numThreads : ℕ) (blockSize : ℤ) :
    MemScope → Except String Unit
  | .global =>
    if malloc 0 (toUInt 64 blockSize) then .ok () else .error "Failed to allocate buffer!"
  | .local =>
    if malloc 0 (numThreads * 8) then
      match (List.range numThreads).find? fun i => !malloc (i + 1) (toUInt 64 blockSize) with
      | some i => .error s!"Failed to allocate buffer for thread #{i}!"
      | none => .ok ()
    else .error "Failed to allocate buffers array!"

def parseScope (s : String) : Except String MemScope :=
  if s = "global" then .ok .global
  else if s = "local" then .ok .local
  else .error s!"Invalid value for memory-scope: {s}"

def parseOper (s : String) : Except String MemOp :=
  if s = "write" then .ok .write
  else if s = "read" then .ok .read
  else if s = "none" then .ok .none
  else .error s!"Invalid value for memory-oper: {s}"

def parseAccessMode (s : String) : Except String Bool :=
  if s = "seq" then .ok false
  else if s = "rnd" then .ok true
  else .error s!"Invalid value for memory-access-mode: {s}"

def memoryInit (malloc : ℕ → ℕ → Bool) (numThreads : ℕ) (o : MemoryOptions) :
    Except String MemoryConfig := do
  let memoryBlockSize := toInt 64 o.blockSize.toNat
  checkBlockSize memoryBlockSize
  let memoryTotalSize := toInt 64 o.totalSize.toNat
  let memoryScope ← parseScope o.scope
  let memoryOper ← parseOper o.oper
  let memoryAccessRnd ← parseAccessMode o.accessMode
  allocateBuffers malloc numThreads memoryBlockSize memoryScope
  return { memoryBlockSize, memoryTotalSize, memoryScope, memoryOper, memoryAccessRnd }

structure MemRequest where
  blockSize : ℤ
  scope : MemScope
  type : MemOp
  deriving DecidableEq

structure MemoryStats where
  /-- an `unsigned int` -/
  totalOps : ℕ
  /-- two `long long` -/
  totalBytes : ℤ
  lastBytes : ℤ

/-- `none` is a request of type `SB_REQ_TYPE_NULL`. -/
def memoryGetRequest (cfg : MemoryConfig) (s : MemoryStats) : Option MemRequest × MemoryStats :=
  if s.totalBytes ≥ cfg.memoryTotalSize then (none, s)
  else
    (some ⟨cfg.memoryBlockSize, cfg.memoryScope, cfg.memoryOper⟩,
      { s with
        totalOps := toUInt 32 (s.totalOps + 1 : ℕ)
        totalBytes := toInt 64 (s.totalBytes + cfg.memoryBlockSize) })

/-- `memory_execute_request` returns 1: the random mode has no case for requests without an
operation. -/
def MemoryConfig.aborts (cfg : MemoryConfig) (type : MemOp) : Prop :=
  cfg.memoryAccessRnd = true ∧ type = .none

instance (cfg : MemoryConfig) (type : MemOp) : Decidable (cfg.aborts type) :=
  inferInstanceAs (Decidable (_ ∧ _))

inductive StatType where
  | intermediate | cumulative
  deriving DecidableEq

/-- The numbers that a report prints: bytes for an intermediate one, operations (by `%d`) and, if
there were any, bytes for a cumulative one. -/
def memoryPrintStats (cfg : MemoryConfig) (s : MemoryStats) : StatType → List ℤ × MemoryStats
  | .intermediate =>
    ([toInt 64 (s.totalBytes - s.lastBytes)], { s with lastBytes := s.totalBytes })
  | .cumulative =>
    (toInt 32 s.totalOps :: if cfg.memoryOper ≠ .none then [s.totalBytes] else [],
      { s with totalOps := 0, totalBytes := 0 })

/-- Where a thread is in its loop. -/
inductive MemoryThread where
  | asking
  | executing (req : MemRequest)
  | left
  deriving DecidableEq

structure MemoryState (n : ℕ) where
  stats : MemoryStats
  threads : Fin n → MemoryThread

/-- `memory_get_request` and the reports work under `exec_mutex`, a cumulative report with the mutex
taken by the checkpoint thread, or when all threads are joined. -/
inductive MemoryEvent (n : ℕ) where
  | getRequest (t : Fin n) (req : Option MemRequest)
  | executeRequest (t : Fin n)
  | report (type : StatType) (printed : List ℤ)
  deriving DecidableEq

variable {n : ℕ}

def initMemory (n : ℕ) : MemoryState n where
  stats := ⟨0, 0, 0⟩
  threads _ := .asking

def MemoryState.move (s : MemoryState n) (t : Fin n) (thread : MemoryThread) : MemoryState n :=
  { s with threads := Function.update s.threads t thread }

def memoryStep (cfg : MemoryConfig) (s : MemoryState n) : MemoryEvent n → Option (MemoryState n)
  | .getRequest t req =>
    if s.threads t = .asking ∧ (memoryGetRequest cfg s.stats).1 = req then
      some ({ s with stats := (memoryGetRequest cfg s.stats).2 }.move t
        (req.elim .left .executing))
    else none
  | .executeRequest t =>
    match s.threads t with
    | .executing req => some (s.move t (if cfg.aborts req.type then .left else .asking))
    | _ => none
  | .report type printed =>
    if (memoryPrintStats cfg s.stats type).1 = printed then
      some { s with stats := (memoryPrintStats cfg s.stats type).2 }
    else none

def MemoryEvent.handsOut : MemoryEvent n → Bool
  | .getRequest _ req => req.isSome
  | _ => false

def MemoryEvent.resets : MemoryEvent n → Bool
  | .report .cumulative _ => true
  | _ => false

def handedOut (es : List (MemoryEvent n)) : ℕ := es.countP MemoryEvent.handsOut

def MemoryState.allFinished (s : MemoryState n) : Prop := ∀ t, s.threads t = .left

instance (s : MemoryState n) : Decidable s.allFinished := Nat.decidableForallFin _

/-- The threads that are about to take a request. -/
def MemoryState.asking (s : MemoryState n) : ℕ :=
  total (fun thread => if thread = .asking then 1 else 0) s.threads

/-- A cumulative report comes before the first request is taken, or after the last. Where every
request aborts its thread, it may also come when there are blocks left for all threads that have
not asked. -/
def KeepsBytes (cfg : MemoryConfig) (s : MemoryState n) : MemoryEvent n → Prop
  | .report .cumulative _ =>
    s.stats.totalBytes = 0 ∨
      if cfg.aborts cfg.memoryOper then
        s.stats.totalBytes + cfg.memoryBlockSize * (s.asking - 1) < cfg.memoryTotalSize
      else s.allFinished
  | _ => True

/-- The bytes add up to the total size at some time. -/
def MemoryOptions.Ends (o : MemoryOptions) : Prop := o.blockSize.toNat ≠ 0 ∨ o.totalSize.toNat = 0

def MemoryOptions.budget (o : MemoryOptions) : ℕ :=
  o.totalSize.toNat ⌈/⌉ o.blockSize.toNat

/-! ## Sizes -/

variable {malloc : ℕ → ℕ → Bool} {numThreads : ℕ} {o : MemoryOptions} {cfg : MemoryConfig}

/-- No allocation exceeds the largest object size. -/
def MallocBounded (malloc : ℕ → ℕ → Bool) : Prop := ∀ i size, malloc i size = true → size < 2 ^ 63

theorem allocateBuffers_ok {scope : MemScope} {blockSize : ℤ} (hn : 0 < numThreads)
    (h : allocateBuffers malloc numThreads blockSize scope = .ok ()) :
    ∃ i, malloc i (toUInt 64 blockSize) = true := by
  cases scope with
  | global =>
    simp only [allocateBuffers] at h
    split_ifs at h with hmalloc
    exact ⟨0, hmalloc⟩
  | «local» =>
    simp only [allocateBuffers] at h
    split_ifs at h with harray
    split at h
    · cases h
    · next hfind =>
      have h0 := List.find?_eq_none.mp hfind 0 (List.mem_range.mpr hn)
      exact ⟨1, by simpa using h0⟩

theorem memoryInit_ok (h : memoryInit malloc numThreads o = .ok cfg) :
    cfg.memoryBlockSize = toInt 64 o.blockSize.toNat ∧
      cfg.memoryTotalSize = toInt 64 o.totalSize.toNat ∧
      allocateBuffers malloc numThreads cfg.memoryBlockSize cfg.memoryScope = .ok () := by
  simp only [memoryInit, bind_eq_ok] at h
  obtain ⟨_, -, scope, -, oper, -, rnd, -, ⟨⟩, hmalloc, h⟩ := h
  obtain rfl := Except.ok.inj h
  dsimp only
  exact ⟨rfl, rfl, hmalloc⟩

/-- What the threads work with: no size is negative, and a block fits into a `long long`. -/
structure Accepted (o : MemoryOptions) (cfg : MemoryConfig) : Prop where
  block : cfg.memoryBlockSize = (o.blockSize.toNat : ℤ)
  block_lt : o.blockSize.toNat < 2 ^ 63
  total : cfg.memoryTotalSize = (o.totalSize.toNat : ℤ)
  total_lt : o.totalSize.toNat < 2 ^ 62

/-- A negative block size is an allocation of more than half of the address space. -/
theorem memoryInit_block (hmalloc : MallocBounded malloc) (hn : 0 < numThreads)
    (h : memoryInit malloc numThreads o = .ok cfg) :
    cfg.memoryBlockSize = (o.blockSize.toNat : ℤ) ∧ o.blockSize.toNat < 2 ^ 63 := by
  obtain ⟨hblock, -, halloc⟩ := memoryInit_ok h
  obtain ⟨i, hi⟩ := allocateBuffers_ok hn halloc
  have hlt : o.blockSize.toNat < 2 ^ 63 := by
    have hsize := hmalloc i _ hi
    have hword : toUInt 64 cfg.memoryBlockSize = o.blockSize.toNat := by
      rw [hblock, toUInt_toInt]
      exact toUInt_natCast o.blockSize.toNat_lt
    rwa [hword] at hsize
  exact ⟨hblock.trans (toInt_natCast (by decide) hlt), hlt⟩

theorem memoryInit_accepted (hmalloc : MallocBounded malloc) (hn : 0 < numThreads)
    (h : memoryInit malloc numThreads o = .ok cfg) (htotal : o.totalSize.toNat < 2 ^ 62) :
    Accepted o cfg := by
  obtain ⟨hblock, hlt⟩ := memoryInit_block hmalloc hn h
  obtain ⟨-, htotalSize, -⟩ := memoryInit_ok h
  exact
    { block := hblock
      block_lt := hlt
      total := htotalSize.trans (toInt_natCast (by decide) (by omega))
      total_lt := htotal }

theorem MemoryOptions.budget_le_iff (hends : o.Ends) {k : ℕ} :
    o.budget ≤ k ↔ o.totalSize.toNat ≤ o.blockSize.toNat * k := by
  unfold budget
  rcases Nat.eq_zero_or_pos o.blockSize.toNat with hzero | hpos
  · have htotal : o.totalSize.toNat = 0 := hends.resolve_left (not_not.mpr hzero)
    simp [htotal]
  · exact ceilDiv_le_iff_le_mul hpos

/-! ## Steps -/

def handedSince (es : List (MemoryEvent n)) : ℕ := handedOut (since MemoryEvent.resets es)

variable {es : List (MemoryEvent n)} {e : MemoryEvent n} {s u : MemoryState n}

theorem handedOut_snoc : handedOut (es ++ [e]) = handedOut es + e.handsOut.toNat := by
  rw [handedOut, List.countP_append, List.countP_singleton]
  cases e.handsOut <;> rfl

theorem handedSince_snoc :
    handedSince (es ++ [e]) = if e.resets then 0 else handedSince es + e.handsOut.toNat := by
  rw [handedSince, since_snoc]
  split
  · rfl
  · exact handedOut_snoc

/-- A block that is added to less than the total size does not overflow the counter. -/
theorem next_lt {b t k : ℕ} (hb : b < 2 ^ 63) (ht : t < 2 ^ 62) (hk : b * k < t) :
    b * (k + 1) < 2 ^ 63 := by
  rcases Nat.eq_zero_or_pos k with rfl | hpos
  · simpa using hb
  · have hle : b ≤ b * k := Nat.le_mul_of_pos_right b hpos
    rw [Nat.mul_succ]
    omega

/-- Without a request the counter has come to the total size; with one it had not. -/
theorem memoryGetRequest_bytes (hcfg : Accepted o cfg) {stats : MemoryStats} {k : ℕ}
    (hk : stats.totalBytes = (o.blockSize.toNat * k : ℕ)) :
    (o.totalSize.toNat ≤ o.blockSize.toNat * k ∧ memoryGetRequest cfg stats = (none, stats)) ∨
      o.blockSize.toNat * k < o.totalSize.toNat ∧
        ∃ req stats', memoryGetRequest cfg stats = (some req, stats') ∧
          stats'.totalBytes = (o.blockSize.toNat * (k + 1) : ℕ) := by
  rcases le_or_gt o.totalSize.toNat (o.blockSize.toNat * k) with hle | hlt
  · left
    refine ⟨hle, ?_⟩
    rw [memoryGetRequest, if_pos]
    rw [hk, hcfg.total]
    exact_mod_cast hle
  · right
    have hnot : ¬ stats.totalBytes ≥ cfg.memoryTotalSize := by
      rw [hk, hcfg.total]
      exact_mod_cast not_le.mpr hlt
    have hnext := next_lt hcfg.block_lt hcfg.total_lt hlt
    refine ⟨hlt, _, _, if_neg hnot, ?_⟩
    dsimp only
    rw [hk, hcfg.block, ← toInt_natCast (w := 64) (by decide) hnext, Nat.mul_succ]
    push_cast
    rfl

@[simp] theorem move_stats (s : MemoryState n) (t : Fin n) (thread : MemoryThread) :
    (s.move t thread).stats = s.stats := rfl

@[simp] theorem move_threads (s : MemoryState n) (t : Fin n) (thread : MemoryThread) :
    (s.move t thread).threads = Function.update s.threads t thread := rfl

theorem memoryStep_executeRequest {t : Fin n} (he : memoryStep cfg s (.executeRequest t) = some u) :
    ∃ req, s.threads t = .executing req ∧
      u = s.move t (if cfg.aborts req.type then .left else .asking) := by
  simp only [memoryStep] at he
  split at he
  · next req hreq => exact ⟨req, hreq, (Option.some.inj he).symm⟩
  · cases he

theorem memoryStep_report {type : StatType} {printed : List ℤ}
    (he : memoryStep cfg s (.report type printed) = some u) :
    printed = (memoryPrintStats cfg s.stats type).1 ∧
      u = { s with stats := (memoryPrintStats cfg s.stats type).2 } := by
  obtain ⟨hprinted, heq⟩ := Option.ite_none_right_eq_some.mp he
  exact ⟨hprinted.symm, (Option.some.inj heq).symm⟩

/-- The counter holds the blocks of the requests since the last cumulative report. -/
theorem memoryStep_bytes (hcfg : Accepted o cfg)
    (hs : s.stats.totalBytes = (o.blockSize.toNat * handedSince es : ℕ))
    (he : memoryStep cfg s e = some u) :
    u.stats.totalBytes = (o.blockSize.toNat * handedSince (es ++ [e]) : ℕ) := by
  rw [handedSince_snoc]
  cases e with
  | getRequest t req =>
    obtain ⟨⟨-, hreq⟩, heq⟩ := Option.ite_none_right_eq_some.mp he
    cases heq
    rcases memoryGetRequest_bytes hcfg hs with ⟨-, hnull⟩ | ⟨-, r, stats', hsome, hbytes⟩
    · rw [hnull] at hreq ⊢
      subst hreq
      simpa [MemoryEvent.resets, MemoryEvent.handsOut] using hs
    · rw [hsome] at hreq ⊢
      subst hreq
      simpa [MemoryEvent.resets, MemoryEvent.handsOut] using hbytes
  | executeRequest t =>
    obtain ⟨req, -, rfl⟩ := memoryStep_executeRequest he
    simpa [MemoryEvent.resets, MemoryEvent.handsOut] using hs
  | report type printed =>
    obtain ⟨-, rfl⟩ := memoryStep_report he
    cases type with
    | intermediate => simpa [MemoryEvent.resets, MemoryEvent.handsOut, memoryPrintStats] using hs
    | cumulative => simp [MemoryEvent.resets, memoryPrintStats]

theorem run_bytes (hcfg : Accepted o cfg) (hr : run (memoryStep cfg) (initMemory n) es = some s) :
    s.stats.totalBytes = (o.blockSize.toNat * handedSince es : ℕ) := by
  refine run_invariant (I := fun es (s : MemoryState n) =>
    s.stats.totalBytes = (o.blockSize.toNat * handedSince es : ℕ)) ?_ ?_ hr
  · simp [initMemory, handedSince, handedOut]
  · intro es s e u _ hs he
    exact memoryStep_bytes hcfg hs he

theorem memoryGetRequest_type {stats stats' : MemoryStats} {req : MemRequest}
    (h : memoryGetRequest cfg stats = (some req, stats')) : req.type = cfg.memoryOper := by
  unfold memoryGetRequest at h
  split_ifs at h
  · cases h
  · rw [← Option.some.inj (Prod.mk.inj h).1]

/-- A request is handed out exactly while the budget is not used up. -/
theorem memoryStep_request (hcfg : Accepted o cfg)
    (hr : run (memoryStep cfg) (initMemory n) es = some s) {t : Fin n} {req : Option MemRequest}
    (he : memoryStep cfg s (.getRequest t req) = some u) :
    s.threads t = .asking ∧
      (req = none ∧ o.totalSize.toNat ≤ o.blockSize.toNat * handedSince es ∧
          u.threads = Function.update s.threads t .left ∨
        ∃ r, req = some r ∧ r.type = cfg.memoryOper ∧
          o.blockSize.toNat * handedSince es < o.totalSize.toNat ∧
            u.threads = Function.update s.threads t (.executing r)) := by
  obtain ⟨⟨hasking, hreq⟩, heq⟩ := Option.ite_none_right_eq_some.mp he
  cases heq
  refine ⟨hasking, ?_⟩
  rcases memoryGetRequest_bytes hcfg (run_bytes hcfg hr) with ⟨hle, hnull⟩ | ⟨hlt, r, _, hsome, -⟩
  · rw [hnull] at hreq
    subst hreq
    exact .inl ⟨rfl, hle, rfl⟩
  · rw [hsome] at hreq
    subst hreq
    exact .inr ⟨r, rfl, memoryGetRequest_type hsome, hlt, rfl⟩

theorem handedSince_le_budget (hcfg : Accepted o cfg) (hends : o.Ends)
    (hr : run (memoryStep cfg) (initMemory n) es = some s) : handedSince es ≤ o.budget := by
  refine run_invariant (I := fun es (_ : MemoryState n) => handedSince es ≤ o.budget) ?_ ?_ hr
  · exact Nat.zero_le _
  · intro es s e u hs hle he
    rw [handedSince_snoc]
    cases e with
    | getRequest t req =>
      rcases memoryStep_request hcfg hs he with ⟨-, ⟨rfl, -⟩ | ⟨r, rfl, -, hlt, -⟩⟩
      · simpa [MemoryEvent.resets, MemoryEvent.handsOut] using hle
      · have hleft : handedSince es < o.budget := by
          rw [← not_le, MemoryOptions.budget_le_iff hends]
          exact not_le.mpr hlt
        simpa [MemoryEvent.resets, MemoryEvent.handsOut] using hleft
    | executeRequest t => simpa [MemoryEvent.resets, MemoryEvent.handsOut] using hle
    | report type printed =>
      cases type with
      | intermediate => simpa [MemoryEvent.resets, MemoryEvent.handsOut] using hle
      | cumulative => simp [MemoryEvent.resets]

theorem totalBytes_eq_zero_iff (hcfg : Accepted o cfg) (hends : o.Ends)
    (hr : run (memoryStep cfg) (initMemory n) es = some s) :
    s.stats.totalBytes = 0 ↔ handedSince es = 0 := by
  rw [run_bytes hcfg hr, Nat.cast_eq_zero, Nat.mul_eq_zero, or_iff_right_iff_imp]
  intro hblock
  have htotal : o.totalSize.toNat = 0 := hends.resolve_left (not_not.mpr hblock)
  have hbudget : o.budget = 0 := by simp [MemoryOptions.budget, htotal]
  exact Nat.le_zero.mp (hbudget ▸ handedSince_le_budget hcfg hends hr)

theorem run_executing (hcfg : Accepted o cfg)
    (hr : run (memoryStep cfg) (initMemory n) es = some s) {t : Fin n} {req : MemRequest}
    (h : s.threads t = .executing req) : req.type = cfg.memoryOper := by
  have hall : ∀ t req, s.threads t = .executing req → req.type = cfg.memoryOper := by
    refine run_invariant (I := fun _ (s : MemoryState n) =>
      ∀ t req, s.threads t = .executing req → req.type = cfg.memoryOper) ?_ ?_ hr
    · intro t req h
      cases h
    · intro es s e u hs h he i req hi
      cases e with
      | getRequest t req' =>
        rcases memoryStep_request hcfg hs he with ⟨-, ⟨-, -, hu⟩ | ⟨r, -, htype, -, hu⟩⟩
        · rw [hu, update_eq_iff] at hi
          rcases hi with ⟨-, hleft⟩ | ⟨-, hi⟩
          · cases hleft
          · exact h i req hi
        · rw [hu, update_eq_iff] at hi
          rcases hi with ⟨-, hreq⟩ | ⟨-, hi⟩
          · cases hreq
            exact htype
          · exact h i req hi
      | executeRequest t =>
        obtain ⟨req', -, rfl⟩ := memoryStep_executeRequest he
        rw [move_threads, update_eq_iff] at hi
        rcases hi with ⟨-, hreq⟩ | ⟨-, hi⟩
        · split_ifs at hreq
        · exact h i req hi
      | report type printed =>
        obtain ⟨-, rfl⟩ := memoryStep_report he
        exact h i req hi
  exact hall t req h

/-! ## The budget -/

/-- What the threads would still take of `k` requests without a report. -/
def MemoryState.willTake (cfg : MemoryConfig) (s : MemoryState n) (k : ℕ) : ℕ :=
  if cfg.aborts cfg.memoryOper then min s.asking k else if s.allFinished then 0 else k

/-- The requests handed out, and those that the threads will still get without a report. -/
def promised (o : MemoryOptions) (cfg : MemoryConfig) (es : List (MemoryEvent n))
    (s : MemoryState n) : ℕ :=
  handedOut es + s.willTake cfg (o.budget - handedSince es)

theorem asking_of_update {t : Fin n} {thread : MemoryThread} (ht : s.threads t = .asking)
    (hu : u.threads = Function.update s.threads t thread) (hthread : thread ≠ .asking) :
    u.asking + 1 = s.asking := by
  have hsum := total_update (fun thread => if thread = .asking then 1 else 0) s.threads t thread
  simpa [ht, hthread, MemoryState.asking, hu] using hsum

theorem asking_of_executing {t : Fin n} {req : MemRequest} (ht : s.threads t = .executing req)
    (hu : u.threads = Function.update s.threads t .left) : u.asking = s.asking := by
  have hsum := total_update (fun thread => if thread = .asking then 1 else 0) s.threads t .left
  simpa [ht, MemoryState.asking, hu] using hsum

theorem not_allFinished {t : Fin n} (h : s.threads t ≠ .left) : ¬ s.allFinished :=
  fun hall => h (hall t)

theorem willTake_congr (hthreads : u.threads = s.threads) (k : ℕ) :
    u.willTake cfg k = s.willTake cfg k := by
  simp only [MemoryState.willTake, MemoryState.asking, MemoryState.allFinished, hthreads]

theorem willTake_zero (cfg : MemoryConfig) (s : MemoryState n) : s.willTake cfg 0 = 0 := by
  simp [MemoryState.willTake]

/-- A cumulative report promises the whole budget once more, no other step promises anything. -/
theorem memoryStep_promised (hcfg : Accepted o cfg) (hends : o.Ends)
    (hr : run (memoryStep cfg) (initMemory n) es = some s) (he : memoryStep cfg s e = some u) :
    promised o cfg (es ++ [e]) u =
      if e.resets then handedOut es + s.willTake cfg o.budget else promised o cfg es s := by
  have hle := handedSince_le_budget hcfg hends hr
  unfold promised
  rw [handedOut_snoc, handedSince_snoc]
  cases e with
  | getRequest t req =>
    obtain ⟨hasking, hcases⟩ := memoryStep_request hcfg hr he
    have hs : ¬ s.allFinished := not_allFinished (t := t) (by simp [hasking])
    rcases hcases with ⟨rfl, hused, -⟩ | ⟨r, rfl, -, hlt, hu⟩
    · have hzero : o.budget - handedSince es = 0 :=
        Nat.sub_eq_zero_of_le ((MemoryOptions.budget_le_iff hends).mpr hused)
      simp [MemoryEvent.resets, MemoryEvent.handsOut, hzero, willTake_zero]
    · have hleft : handedSince es < o.budget := by
        rw [← not_le, MemoryOptions.budget_le_iff hends]
        exact not_le.mpr hlt
      have hnot : ¬ u.allFinished := not_allFinished (t := t) (by simp [hu])
      have hcount := asking_of_update hasking hu (by simp)
      simp only [MemoryEvent.resets, MemoryEvent.handsOut, Option.isSome_some, Bool.toNat_true,
        Bool.false_eq_true, if_false, MemoryState.willTake, hs, hnot]
      split <;> omega
  | executeRequest t =>
    obtain ⟨req, hreq, rfl⟩ := memoryStep_executeRequest he
    have htype := run_executing hcfg hr hreq
    have hs : ¬ s.allFinished := not_allFinished (t := t) (by simp [hreq])
    simp only [MemoryEvent.resets, MemoryEvent.handsOut, Bool.toNat_false, Bool.false_eq_true,
      if_false, add_zero, MemoryState.willTake, hs, htype]
    by_cases haborts : cfg.aborts cfg.memoryOper
    · rw [if_pos haborts, if_pos haborts, if_pos haborts, asking_of_executing hreq rfl]
    · rw [if_neg haborts, if_neg haborts, if_neg haborts, if_neg]
      exact not_allFinished (t := t) (by simp)
  | report type printed =>
    obtain ⟨-, rfl⟩ := memoryStep_report he
    cases type with
    | intermediate =>
      simp only [MemoryEvent.resets, MemoryEvent.handsOut, Bool.toNat_false, Bool.false_eq_true,
        if_false, add_zero]
      exact congrArg (handedOut es + ·) (willTake_congr rfl _)
    | cumulative =>
      simp only [MemoryEvent.resets, MemoryEvent.handsOut, Bool.toNat_false, if_true, add_zero,
        Nat.sub_zero]
      exact congrArg (handedOut es + ·) (willTake_congr rfl _)

/-- A cumulative report keeps the bytes exactly if it changes nothing in what will be taken. -/
theorem keepsBytes_iff (hcfg : Accepted o cfg) (hends : o.Ends)
    (hr : run (memoryStep cfg) (initMemory n) es = some s) {printed : List ℤ} :
    KeepsBytes cfg s (.report .cumulative printed) ↔
      s.willTake cfg o.budget = s.willTake cfg (o.budget - handedSince es) := by
  have hle := handedSince_le_budget hcfg hends hr
  have hzero := totalBytes_eq_zero_iff hcfg hends hr
  unfold KeepsBytes MemoryState.willTake
  by_cases haborts : cfg.aborts cfg.memoryOper
  · have hroom : s.stats.totalBytes ≠ 0 → (s.stats.totalBytes +
        cfg.memoryBlockSize * (s.asking - 1) < cfg.memoryTotalSize ↔
          handedSince es + s.asking ≤ o.budget) := by
      intro hbytes
      have hpos : 0 < handedSince es := Nat.pos_of_ne_zero (hzero.not.mp hbytes)
      obtain ⟨k, hk⟩ := Nat.exists_eq_add_of_le hpos
      have hnext : handedSince es + s.asking = k + s.asking + 1 := by omega
      rw [run_bytes hcfg hr, hcfg.block, hcfg.total, hnext, Nat.succ_le_iff, ← not_le,
        ← not_le (b := k + s.asking), MemoryOptions.budget_le_iff hends, hk]
      push_cast
      rw [show (o.blockSize.toNat : ℤ) * (1 + k) + o.blockSize.toNat * (s.asking - 1) =
        o.blockSize.toNat * (k + s.asking) by ring]
      norm_cast
    rw [if_pos haborts, if_pos haborts, if_pos haborts]
    by_cases hbytes : s.stats.totalBytes = 0
    · simp [hbytes, hzero.mp hbytes]
    · have hpos : handedSince es ≠ 0 := hzero.not.mp hbytes
      rw [or_iff_right hbytes, hroom hbytes]
      omega
  · rw [if_neg haborts, if_neg haborts, if_neg haborts, hzero]
    by_cases hfin : s.allFinished
    · simp [hfin]
    · simp only [hfin, if_false, or_false]
      omega

theorem willTake_mono (cfg : MemoryConfig) (s : MemoryState n) {j k : ℕ} (h : j ≤ k) :
    s.willTake cfg j ≤ s.willTake cfg k := by
  unfold MemoryState.willTake
  split
  · exact min_le_min le_rfl h
  · split
    · exact le_rfl
    · exact h

theorem promised_init (o : MemoryOptions) (hn : 0 < n) :
    promised o cfg [] (initMemory n) =
      if cfg.aborts cfg.memoryOper then min n o.budget else o.budget := by
  have hrunning : ¬ (initMemory n).allFinished := not_allFinished (t := ⟨0, hn⟩) (by simp [initMemory])
  have hall : (initMemory n).asking = n := by simp [MemoryState.asking, initMemory, total]
  have hsince : handedSince ([] : List (MemoryEvent n)) = 0 := rfl
  have hhanded : handedOut ([] : List (MemoryEvent n)) = 0 := rfl
  simp [promised, MemoryState.willTake, hrunning, hall, hsince, hhanded]

/-- There are enough threads, where each takes one request only. -/
def Enough (o : MemoryOptions) (cfg : MemoryConfig) (n : ℕ) : Prop :=
  cfg.aborts cfg.memoryOper → o.budget ≤ n

theorem budget_le_promised (hcfg : Accepted o cfg) (hends : o.Ends) (hn : 0 < n)
    (henough : Enough o cfg n) (hr : run (memoryStep cfg) (initMemory n) es = some s) :
    o.budget ≤ promised o cfg es s := by
  refine run_invariant (I := fun es (s : MemoryState n) => o.budget ≤ promised o cfg es s) ?_ ?_ hr
  · rw [promised_init o hn]
    split
    · next haborts => exact le_min (henough haborts) le_rfl
    · exact le_rfl
  · intro es s e u hs hle he
    rw [memoryStep_promised hcfg hends hs he]
    split
    · exact hle.trans (Nat.add_le_add_left (willTake_mono cfg s (Nat.sub_le _ _)) _)
    · exact hle

theorem keepsBytes_of_not_resets (h : e.resets = false) : KeepsBytes cfg s e := by
  match e with
  | .getRequest _ _ => trivial
  | .executeRequest _ => trivial
  | .report .intermediate _ => trivial
  | .report .cumulative _ => cases h

theorem MemoryEvent.eq_of_resets (h : e.resets = true) : ∃ printed, e = .report .cumulative printed := by
  match e with
  | .getRequest _ _ => cases h
  | .executeRequest _ => cases h
  | .report .intermediate _ => cases h
  | .report .cumulative printed => exact ⟨printed, rfl⟩

/-- With enough threads a step keeps the promise exactly if it keeps the bytes. -/
theorem promised_step_iff (hcfg : Accepted o cfg) (hends : o.Ends) (hn : 0 < n)
    (henough : Enough o cfg n) (hr : run (memoryStep cfg) (initMemory n) es = some s)
    (he : memoryStep cfg s e = some u) :
    promised o cfg (es ++ [e]) u = o.budget ↔
      promised o cfg es s = o.budget ∧ KeepsBytes cfg s e := by
  have hle := budget_le_promised hcfg hends hn henough hr
  rw [memoryStep_promised hcfg hends hr he]
  by_cases hresets : e.resets
  · obtain ⟨printed, rfl⟩ := MemoryEvent.eq_of_resets hresets
    have hmono := willTake_mono cfg s (Nat.sub_le o.budget (handedSince es))
    rw [if_pos hresets, keepsBytes_iff hcfg hends hr]
    unfold promised at hle ⊢
    omega
  · rw [if_neg hresets, and_iff_left (keepsBytes_of_not_resets (Bool.eq_false_iff.mpr hresets))]

theorem promised_eq_iff (hcfg : Accepted o cfg) (hends : o.Ends) (hn : 0 < n)
    (henough : Enough o cfg n) (hr : run (memoryStep cfg) (initMemory n) es = some s) :
    promised o cfg es s = o.budget ↔
      Guarded (memoryStep cfg) (KeepsBytes cfg) (initMemory n) es := by
  refine guarded_iff (P := fun es (s : MemoryState n) => promised o cfg es s = o.budget) ?_
    (fun es s e u hs he => promised_step_iff hcfg hends hn henough hs he) hr
  rw [promised_init o hn]
  split
  · next haborts => exact min_eq_right (henough haborts)
  · rfl

/-- Each thread takes one request at most where requests abort. -/
theorem handedOut_add_asking_le (hcfg : Accepted o cfg) (haborts : cfg.aborts cfg.memoryOper)
    (hr : run (memoryStep cfg) (initMemory n) es = some s) : handedOut es + s.asking ≤ n := by
  refine run_invariant (I := fun es (s : MemoryState n) => handedOut es + s.asking ≤ n) ?_ ?_ hr
  · simp [handedOut, MemoryState.asking, initMemory, total]
  · intro es s e u hs hle he
    rw [handedOut_snoc]
    cases e with
    | getRequest t req =>
      obtain ⟨hasking, hcases⟩ := memoryStep_request hcfg hs he
      rcases hcases with ⟨rfl, -, hu⟩ | ⟨r, rfl, -, -, hu⟩
      · have hcount := asking_of_update hasking hu (by simp)
        simp only [MemoryEvent.handsOut, Option.isSome_none, Bool.toNat_false]
        omega
      · have hcount := asking_of_update hasking hu (by simp)
        simp only [MemoryEvent.handsOut, Option.isSome_some, Bool.toNat_true]
        omega
    | executeRequest t =>
      obtain ⟨req, hreq, rfl⟩ := memoryStep_executeRequest he
      rw [run_executing hcfg hs hreq, if_pos haborts, asking_of_executing hreq rfl]
      exact hle
    | report type printed =>
      obtain ⟨-, rfl⟩ := memoryStep_report he
      exact hle

/-- With blocks of no bytes and a positive total size no thread is refused a request. -/
theorem handedOut_pos (hcfg : Accepted o cfg) (hends : ¬ o.Ends)
    (hr : run (memoryStep cfg) (initMemory n) es = some s) {t : Fin n}
    (ht : s.threads t = .left) : cfg.aborts cfg.memoryOper ∧ 0 < handedOut es := by
  obtain ⟨hblock, htotal⟩ := not_or.mp hends
  have hall : ∀ t, (s.threads t ≠ .asking → 0 < handedOut es) ∧
      (s.threads t = .left → cfg.aborts cfg.memoryOper) := by
    refine run_invariant (I := fun es (s : MemoryState n) => ∀ t,
      (s.threads t ≠ .asking → 0 < handedOut es) ∧
        (s.threads t = .left → cfg.aborts cfg.memoryOper)) ?_ ?_ hr
    · exact fun t => ⟨fun h => absurd rfl h, fun h => by cases h⟩
    · intro es s e u hs h he i
      rw [handedOut_snoc]
      cases e with
      | getRequest t req =>
        rcases memoryStep_request hcfg hs he with ⟨-, ⟨-, hle, -⟩ | ⟨r, rfl, -, -, hu⟩⟩
        · rw [not_not.mp hblock, zero_mul] at hle
          exact absurd (Nat.le_zero.mp hle) htotal
        · refine ⟨fun _ => Nat.succ_pos _, fun hi => ?_⟩
          rw [hu, update_eq_iff] at hi
          rcases hi with ⟨-, hleft⟩ | ⟨-, hi⟩
          · cases hleft
          · exact (h i).2 hi
      | executeRequest t =>
        obtain ⟨req, hreq, rfl⟩ := memoryStep_executeRequest he
        have hpos := (h t).1 (by simp [hreq])
        refine ⟨fun _ => hpos, fun hi => ?_⟩
        rw [move_threads, update_eq_iff, run_executing hcfg hs hreq] at hi
        rcases hi with ⟨-, hleft⟩ | ⟨-, hi⟩
        · by_contra haborts
          rw [if_neg haborts] at hleft
          cases hleft
        · exact (h i).2 hi
      | report type printed =>
        obtain ⟨-, rfl⟩ := memoryStep_report he
        exact h i
  exact ⟨(hall t).2 ht, (hall t).1 (by simp [ht])⟩

theorem promised_of_allFinished (h : s.allFinished) : promised o cfg es s = handedOut es := by
  have hasking : s.asking = 0 := total_eq_zero fun t => by simp [h t]
  simp [promised, MemoryState.willTake, h, hasking]

/-- The budget is kept by the runs whose sizes end and whose cumulative reports keep the bytes. Of
the runs that end no others use it up, and where every request aborts its thread there must be a
thread for each block. With sizes that do not end no run does, unless requests abort. -/
theorem handedOut_eq_budget_iff {malloc : ℕ → ℕ → Bool} (hmalloc : MallocBounded malloc)
    {o : MemoryOptions} {cfg : MemoryConfig} (hn : 0 < n) (hinit : memoryInit malloc n o = .ok cfg)
    (htotal : o.totalSize.toNat < 2 ^ 62) {es : List (MemoryEvent n)} {s : MemoryState n}
    (hr : run (memoryStep cfg) (initMemory n) es = some s) :
    (o.Ends ∧ Guarded (memoryStep cfg) (KeepsBytes cfg) (initMemory n) es →
        handedOut es ≤ o.budget) ∧
      (s.allFinished → (handedOut es = o.budget ↔ o.Ends ∧ Enough o cfg n ∧
        Guarded (memoryStep cfg) (KeepsBytes cfg) (initMemory n) es)) ∧
      (¬ o.Ends → s.allFinished → cfg.aborts cfg.memoryOper) := by
  have hcfg := memoryInit_accepted hmalloc hn hinit htotal
  refine ⟨?_, ?_, fun hends hfin => (handedOut_pos hcfg hends hr (hfin ⟨0, hn⟩)).1⟩
  · rintro ⟨hends, hguarded⟩
    by_cases henough : Enough o cfg n
    · exact le_of_add_le_left ((promised_eq_iff hcfg hends hn henough hr).mpr hguarded).le
    · obtain ⟨haborts, hlt⟩ := Classical.not_imp.mp henough
      have hle := handedOut_add_asking_le hcfg haborts hr
      omega
  · intro hfin
    have hpaid : promised o cfg es s = handedOut es := promised_of_allFinished hfin
    rw [← hpaid]
    constructor
    · intro hpromised
      rw [hpaid] at hpromised
      have hends : o.Ends := by
        by_contra hends
        have hpos := (handedOut_pos hcfg hends hr (hfin ⟨0, hn⟩)).2
        have hzero : o.budget = 0 := by
          simp [MemoryOptions.budget, not_not.mp (not_or.mp hends).1]
        omega
      have henough : Enough o cfg n := by
        intro haborts
        have hle := handedOut_add_asking_le hcfg haborts hr
        omega
      refine ⟨hends, henough, (promised_eq_iff hcfg hends hn henough hr).mp ?_⟩
      rwa [hpaid]
    · rintro ⟨hends, henough, hguarded⟩
      exact (promised_eq_iff hcfg hends hn henough hr).mpr hguarded

def oneBlock : MemoryOptions := ⟨4, 4, "global", "write", "seq"⟩

def oneBlockConfig : MemoryConfig := ⟨4, 4, .global, .write, false⟩

def anySize (_ size : ℕ) : Bool := size < 2 ^ 32

/-- A checkpoint comes between the only request and the end. -/
def checkpointEvents : List (MemoryEvent 1) :=
  [.getRequest 0 (some ⟨4, .global, .write⟩), .executeRequest 0, .report .cumulative [1, 4],
    .getRequest 0 (some ⟨4, .global, .write⟩), .executeRequest 0, .getRequest 0 none]

theorem checkpointEvents_run :
    ∃ s, run (memoryStep oneBlockConfig) (initMemory 1) checkpointEvents = some s ∧ s.allFinished :=
  ⟨_, rfl, by decide⟩

theorem memoryInit_oneBlock : memoryInit anySize 1 oneBlock = .ok oneBlockConfig := by
  have hblock : toInt 64 (4 : UInt64).toNat = 4 := by decide
  have hsize : toUInt 64 4 = 4 := by decide
  simp only [memoryInit, oneBlock, hblock, checkBlockSize, parseScope, parseOper, parseAccessMode,
    allocateBuffers, anySize, hsize]
  rfl

/-- The block is handed out twice. -/
theorem handedOut_checkpoint : memoryInit anySize 1 oneBlock = .ok oneBlockConfig ∧
    (∃ s, run (memoryStep oneBlockConfig) (initMemory 1) checkpointEvents = some s ∧
      s.allFinished) ∧ oneBlock.budget = 1 ∧ handedOut checkpointEvents = 2 :=
  ⟨memoryInit_oneBlock, checkpointEvents_run, rfl, rfl⟩

theorem handedOut_eq_budget_iff_checkpoint :
    ¬ Guarded (memoryStep oneBlockConfig) (KeepsBytes oneBlockConfig) (initMemory 1)
      checkpointEvents := by
  obtain ⟨s, hs, hfin⟩ := checkpointEvents_run
  have hmalloc : MallocBounded anySize := fun _ size h =>
    (of_decide_eq_true h).trans (by norm_num)
  have hiff := (handedOut_eq_budget_iff hmalloc (by decide) memoryInit_oneBlock (by decide) hs).2.1
  have hseq : ¬ oneBlockConfig.aborts oneBlockConfig.memoryOper := by decide
  intro hguarded
  have heq := (hiff hfin).mpr ⟨Or.inl (by decide), fun haborts => absurd haborts hseq, hguarded⟩
  exact absurd heq (by decide)

end Sysbench.Memory
