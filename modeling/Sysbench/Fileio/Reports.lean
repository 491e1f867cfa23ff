import Sysbench.Fileio.Async
import Sysbench.Fileio.Workers
import Sysbench.Machine.Windows

/-! # Reports of the fileio test

The worker machine with the operations that are in flight in async mode. Every counter
update is a locked section, and so is every report, so a run is an interleaving of both.
An operation counts as completed when its counter is updated. Only FSYNC requests in async
mode have no update: `file_fsync` syncs at once there and queues nothing, while
`file_execute_request` leaves the counter to the completion of a queued request. The counters
of operations are `int`, so a report of more than they hold is wrong as well.
-/
namespace Sysbench.Fileio

open Runs Windows Words

structure IoSystem (n : ℕ) where
  sys : System n
  inflight : Fin n → Multiset AioOper

def initIoSystem (n : ℕ) (perThread : ℕ → PerThread) : IoSystem n :=
  ⟨initSystem n perThread, fun _ => 0⟩

inductive IoEvent (n : ℕ) where
  | worker (e : Event n)
  /-- `file_wait` in thread `t` counts an operation the kernel delivered -/
  | completed (t : Fin n) (oper : AioOper)
  deriving DecidableEq

variable {n : ℕ}

def IoSystem.submit (s : IoSystem n) (t : Fin n) (oper : AioOper) : Fin n → Multiset AioOper :=
  Function.update s.inflight t (oper ::ₘ s.inflight t)

def IoSystem.afterEvent (s : IoSystem n) : Event n → Fin n → Multiset AioOper
  | .act t a => a.queues.elim s.inflight (s.submit t)
  | _ => s.inflight

variable (c : Config)

def ioStep (s : IoSystem c.numThreads) : IoEvent c.numThreads → Option (IoSystem c.numThreads)
  | .worker e => (workerStep c s.sys e).map fun sys =>
      ⟨sys, if c.fileIoMode = .async then s.afterEvent e else s.inflight⟩
  | .completed t oper =>
    if oper ∈ s.inflight t then
      some ⟨s.sys.setStats (oper.count s.sys.vars.stats),
        Function.update s.inflight t ((s.inflight t).erase oper)⟩
    else none

/-! ## What the reports print -/

/-- The three differences of an intermediate report. -/
@[ext] structure IntermediateReport where
  diffRead : ℤ
  diffWritten : ℤ
  diffOtherOps : ℤ
  deriving DecidableEq, Repr

/-- The amounts of a cumulative report: operations by kind and in total, bytes likewise. -/
@[ext] structure CumulativeReport where
  readOps : ℤ
  writeOps : ℤ
  otherOps : ℤ
  totalOps : ℤ
  bytesRead : ℤ
  bytesWritten : ℤ
  totalBytes : ℤ
  deriving DecidableEq, Repr

/-- `file_print_stats(SB_STAT_INTERMEDIATE)`. The difference of the `int` counters is stored
as `unsigned long long`. -/
def printIntermediate (st : Stats) : IntermediateReport where
  diffRead := toUInt 64 (st.bytesRead - st.lastBytesRead)
  diffWritten := toUInt 64 (st.bytesWritten - st.lastBytesWritten)
  diffOtherOps := toUInt 64 (toInt 32 (st.otherOps - st.lastOtherOps))

def printCumulative (st : Stats) : CumulativeReport where
  readOps := st.readOps
  writeOps := st.writeOps
  otherOps := st.otherOps
  totalOps := toInt 32 (toInt 32 (st.readOps + st.writeOps) + st.otherOps)
  bytesRead := st.bytesRead
  bytesWritten := st.bytesWritten
  totalBytes := toUInt 64 (st.bytesRead + st.bytesWritten)

/-! ## What was completed -/

def IoEvent.completes : IoEvent n → Option AioOper
  | .worker (.act _ (.countRead size)) => some ⟨.read, size⟩
  | .worker (.act _ (.countWrite size)) => some ⟨.write, size⟩
  | .worker (.act _ .countOther) => some ⟨.fsync, 0⟩
  -- in async mode only a WRITE with file-fsync-all goes on to count its fsync
  | .worker (.act _ (.fsync _)) =>
    if c.fileIoMode = .async ∧ c.fileFsyncAll = false then some ⟨.fsync, 0⟩ else none
  | .completed _ oper => some oper
  | _ => none

/-- An FSYNC that completes without a counter update. -/
def IoEvent.uncounted : IoEvent n → Bool
  | .worker (.act _ (.fsync _)) => c.fileIoMode = .async ∧ c.fileFsyncAll = false
  | _ => false

def IoEvent.isCumulative : IoEvent n → Bool
  | .worker .cumulativeReport => true
  | _ => false

def IoEvent.isReport : IoEvent n → Bool
  | .worker .intermediateReport => true
  | e => e.isCumulative

def completedOps (es : List (IoEvent n)) : List AioOper := es.filterMap (IoEvent.completes c)

def opCount (op : FileOp) (opers : List AioOper) : ℕ := opers.countP fun oper => oper.type = op

def opBytes (op : FileOp) (opers : List AioOper) : ℤ :=
  ((opers.filter fun oper => oper.type = op).map AioOper.len).sum

def intermediateOf (opers : List AioOper) : IntermediateReport where
  diffRead := opBytes .read opers
  diffWritten := opBytes .write opers
  diffOtherOps := opCount .fsync opers

def cumulativeOf (opers : List AioOper) : CumulativeReport where
  readOps := opCount .read opers
  writeOps := opCount .write opers
  otherOps := opCount .fsync opers
  totalOps := opCount .read opers + opCount .write opers + opCount .fsync opers
  bytesRead := opBytes .read opers
  bytesWritten := opBytes .write opers
  totalBytes := opBytes .read opers + opBytes .write opers

/-- Every report of the run prints what was completed since the report before it. -/
structure ReportsExact (perThread : ℕ → PerThread) (es : List (IoEvent c.numThreads)) : Prop where
  intermediate : ∀ pre s, pre ++ [.worker .intermediateReport] <+: es →
    run (ioStep c) (initIoSystem _ perThread) pre = some s →
    printIntermediate s.sys.vars.stats = intermediateOf (completedOps c (since IoEvent.isReport pre))
  cumulative : ∀ pre s, pre ++ [.worker .cumulativeReport] <+: es →
    run (ioStep c) (initIoSystem _ perThread) pre = some s →
    printCumulative s.sys.vars.stats = cumulativeOf (completedOps c (since IoEvent.isCumulative pre))

def uncountedIn (es : List (IoEvent n)) : ℕ := es.countP (IoEvent.uncounted c)

/-- The `unsigned long long` from an `int` holds the FSYNCs of a stretch. By chance it does so
again just below `2 ^ 64`. -/
def FsyncsFit (es : List (IoEvent n)) : Prop :=
  uncountedIn c es = 0 ∧ opCount .fsync (completedOps c es) < 2 ^ 31 ∨
    2 ^ 32 ∣ uncountedIn c es ∧ 2 ^ 64 - 2 ^ 31 ≤ opCount .fsync (completedOps c es) ∧
      opCount .fsync (completedOps c es) < 2 ^ 64

instance (es : List (IoEvent n)) : Decidable (FsyncsFit c es) := inferInstanceAs (Decidable (_ ∨ _))

/-- What an intermediate report can print of the stretch since the report before. -/
structure DifferencesFit (es : List (IoEvent n)) : Prop where
  fsyncs : FsyncsFit c es
  read : 0 ≤ opBytes .read (completedOps c es) ∧ opBytes .read (completedOps c es) < 2 ^ 64
  written : 0 ≤ opBytes .write (completedOps c es) ∧ opBytes .write (completedOps c es) < 2 ^ 64

/-- What a cumulative report can print of the stretch since the one before: every FSYNC is
counted, and the totals are in range. -/
@[mk_iff] structure TotalsFit (es : List (IoEvent n)) : Prop where
  counted : uncountedIn c es = 0
  ops : opCount .read (completedOps c es) + opCount .write (completedOps c es) +
    opCount .fsync (completedOps c es) < 2 ^ 31
  read : 0 ≤ opBytes .read (completedOps c es)
  written : 0 ≤ opBytes .write (completedOps c es)
  bytes : opBytes .read (completedOps c es) + opBytes .write (completedOps c es) < 2 ^ 64

/-- Every report covers a stretch that it can print. -/
structure ReportsFit (es : List (IoEvent c.numThreads)) : Prop where
  intermediate : ∀ pre, pre ++ [.worker .intermediateReport] <+: es →
    DifferencesFit c (since IoEvent.isReport pre)
  cumulative : ∀ pre, pre ++ [.worker .cumulativeReport] <+: es →
    TotalsFit c (since IoEvent.isCumulative pre)

/-! ## The counters along a run -/

def IoEvent.tally : IoEvent n → Stats → Stats
  | .worker (.act _ a), st => a.count st
  | .worker .intermediateReport, st => st.intermediate
  | .worker .cumulativeReport, _ => clearStats
  | .completed _ oper, st => oper.count st
  | _, st => st

def fsyncsCounted (es : List (IoEvent n)) : ℤ :=
  opCount .fsync (completedOps c es) - uncountedIn c es

variable {c}

theorem ioStep_stats {s u : IoSystem c.numThreads} {e : IoEvent c.numThreads}
    (hs : s.sys.vars.isDirty → CanWrite c) (h : ioStep c s e = some u) :
    u.sys.vars.stats = e.tally s.sys.vars.stats ∧ (u.sys.vars.isDirty → CanWrite c) := by
  cases e with
  | completed t oper =>
    simp only [ioStep] at h
    split_ifs at h
    cases h
    exact ⟨rfl, hs⟩
  | worker e =>
    obtain ⟨sys, hstep, rfl⟩ := Option.map_eq_some_iff.mp h
    cases workerStep_moved hstep with
    | get hw hget =>
      have hserved := fileGetRequest_served hs hget
      exact ⟨hserved.stats, hserved.isDirty hs⟩
    | act hw => exact ⟨rfl, hs⟩
    | fail hw => exact ⟨rfl, hs⟩
    | ret hw => exact ⟨rfl, hs⟩
    | refused hw => exact ⟨rfl, hs⟩
    | stop hw => exact ⟨rfl, hs⟩
    | intermediateReport => exact ⟨rfl, hs⟩
    | cumulativeReport => exact ⟨rfl, hs⟩

@[simp] theorem opCount_append (op : FileOp) (xs ys : List AioOper) :
    opCount op (xs ++ ys) = opCount op xs + opCount op ys := List.countP_append

@[simp] theorem opBytes_append (op : FileOp) (xs ys : List AioOper) :
    opBytes op (xs ++ ys) = opBytes op xs + opBytes op ys := by
  simp [opBytes]

@[simp] theorem completedOps_snoc (es : List (IoEvent n)) (e : IoEvent n) :
    completedOps c (es ++ [e]) = completedOps c es ++ (e.completes c).toList := by
  simp only [completedOps, List.filterMap_append, List.filterMap_cons]
  cases e.completes c <;> rfl

@[simp] theorem uncountedIn_snoc (es : List (IoEvent n)) (e : IoEvent n) :
    uncountedIn c (es ++ [e]) = uncountedIn c es + uncountedIn c [e] := List.countP_append

@[simp] theorem fsyncsCounted_snoc (es : List (IoEvent n)) (e : IoEvent n) :
    fsyncsCounted c (es ++ [e]) =
      fsyncsCounted c es + (opCount .fsync (e.completes c).toList - uncountedIn c [e]) := by
  simp only [fsyncsCounted, completedOps_snoc, uncountedIn_snoc, opCount_append]
  push_cast
  ring

theorem uncountedIn_le (es : List (IoEvent n)) :
    uncountedIn c es ≤ opCount .fsync (completedOps c es) := by
  induction es using List.reverseRecOn with
  | nil => rfl
  | append_singleton es e ih =>
    have hone : uncountedIn c [e] ≤ opCount .fsync (e.completes c).toList := by
      cases he : e.uncounted c with
      | false => simp [uncountedIn, he]
      | true =>
        unfold IoEvent.uncounted at he
        split at he
        · simp only [IoEvent.completes, if_pos (decide_eq_true_eq.mp he)]
          simp [uncountedIn, IoEvent.uncounted, opCount, he]
        · cases he
    simp only [uncountedIn_snoc, completedOps_snoc, opCount_append]
    exact Nat.add_le_add ih hone

variable (c)

/-- Each counter is advanced, in its own type, by what `e` completes, up to an FSYNC that has no
counter update. -/
structure Adds (e : IoEvent n) (st : Stats) : Prop where
  readOps : ∀ k, st.readOps = toInt 32 k →
    (e.tally st).readOps = toInt 32 (k + opCount .read (e.completes c).toList)
  writeOps : ∀ k, st.writeOps = toInt 32 k →
    (e.tally st).writeOps = toInt 32 (k + opCount .write (e.completes c).toList)
  otherOps : ∀ k, st.otherOps = toInt 32 k → (e.tally st).otherOps =
    toInt 32 (k + (opCount .fsync (e.completes c).toList - uncountedIn c [e]))
  bytesRead : ∀ k, st.bytesRead = toUInt 64 k →
    (e.tally st).bytesRead = toUInt 64 (k + opBytes .read (e.completes c).toList)
  bytesWritten : ∀ k, st.bytesWritten = toUInt 64 k →
    (e.tally st).bytesWritten = toUInt 64 (k + opBytes .write (e.completes c).toList)
  lastOtherOps : (e.tally st).lastOtherOps = st.lastOtherOps
  lastBytesRead : (e.tally st).lastBytesRead = st.lastBytesRead
  lastBytesWritten : (e.tally st).lastBytesWritten = st.lastBytesWritten

/-- The counters after the events `es`. The shadows hold what was completed between the last
cumulative report and the last report. -/
structure Tallied (es : List (IoEvent n)) (st : Stats) : Prop where
  readOps : st.readOps = toInt 32 (opCount .read (completedOps c (since IoEvent.isCumulative es)))
  writeOps :
    st.writeOps = toInt 32 (opCount .write (completedOps c (since IoEvent.isCumulative es)))
  otherOps : st.otherOps = toInt 32 (fsyncsCounted c (since IoEvent.isCumulative es))
  bytesRead :
    st.bytesRead = toUInt 64 (opBytes .read (completedOps c (since IoEvent.isCumulative es)))
  bytesWritten :
    st.bytesWritten = toUInt 64 (opBytes .write (completedOps c (since IoEvent.isCumulative es)))
  lastOtherOps : st.lastOtherOps = toInt 32
    (fsyncsCounted c (since IoEvent.isCumulative es) - fsyncsCounted c (since IoEvent.isReport es))
  lastBytesRead : st.lastBytesRead = toUInt 64
    (opBytes .read (completedOps c (since IoEvent.isCumulative es)) -
      opBytes .read (completedOps c (since IoEvent.isReport es)))
  lastBytesWritten : st.lastBytesWritten = toUInt 64
    (opBytes .write (completedOps c (since IoEvent.isCumulative es)) -
      opBytes .write (completedOps c (since IoEvent.isReport es)))

variable {c}

theorem adds_of_not_isReport {e : IoEvent n} (he : e.isReport = false) (st : Stats) :
    Adds c e st := by
  cases e with
  | completed t oper =>
    obtain ⟨type, len⟩ := oper
    cases type <;> constructor <;>
      simp +contextual [IoEvent.tally, IoEvent.completes, AioOper.count, Action.count, opCount,
        opBytes, uncountedIn, IoEvent.uncounted, toInt_toInt_add, toUInt_toUInt_add_int]
  | worker e =>
    cases e with
    | act t a =>
      cases a with
      | fsync f =>
        by_cases hf : c.fileIoMode = .async ∧ c.fileFsyncAll = false <;> constructor <;>
          simp +contextual [IoEvent.tally, IoEvent.completes, Action.count, opCount, opBytes,
            uncountedIn, IoEvent.uncounted, hf]
      | _ =>
        constructor <;>
          simp +contextual [IoEvent.tally, IoEvent.completes, Action.count, opCount, opBytes,
            uncountedIn, IoEvent.uncounted, toInt_toInt_add, toUInt_toUInt_add_int]
    | intermediateReport => cases he
    | cumulativeReport => cases he
    | _ =>
      constructor <;>
        simp +contextual [IoEvent.tally, IoEvent.completes, opCount, opBytes, uncountedIn,
          IoEvent.uncounted]

theorem Adds.tallied {e : IoEvent n} {es : List (IoEvent n)} {st : Stats} (hadd : Adds c e st)
    (he : e.isReport = false) (h : Tallied c es st) : Tallied c (es ++ [e]) (e.tally st) := by
  have hcum : e.isCumulative = false := by
    cases e with
    | completed t oper => rfl
    | worker e =>
      cases e with
      | cumulativeReport => cases he
      | _ => rfl
  have hsince : since IoEvent.isReport (es ++ [e]) = since IoEvent.isReport es ++ [e] := by
    simp [since_snoc, he]
  have hsinceCum : since IoEvent.isCumulative (es ++ [e]) = since IoEvent.isCumulative es ++ [e] := by
    simp [since_snoc, hcum]
  constructor <;>
    simp only [hsince, hsinceCum, completedOps_snoc, fsyncsCounted_snoc, opCount_append,
      opBytes_append, Nat.cast_add, add_sub_add_right_eq_sub]
  · exact hadd.readOps _ h.readOps
  · exact hadd.writeOps _ h.writeOps
  · exact hadd.otherOps _ h.otherOps
  · exact hadd.bytesRead _ h.bytesRead
  · exact hadd.bytesWritten _ h.bytesWritten
  · exact hadd.lastOtherOps.trans h.lastOtherOps
  · exact hadd.lastBytesRead.trans h.lastBytesRead
  · exact hadd.lastBytesWritten.trans h.lastBytesWritten

/-- Right after a cumulative report nothing is completed, and nothing before the first one. -/
theorem tallied_clearStats {es : List (IoEvent n)} (hcum : since IoEvent.isCumulative es = [])
    (hrep : since IoEvent.isReport es = []) : Tallied c es clearStats := by
  have hint : toInt 32 0 = 0 := rfl
  have huint : toUInt 64 0 = 0 := rfl
  constructor <;>
    simp [hcum, hrep, clearStats, completedOps, opCount, opBytes, fsyncsCounted, uncountedIn, hint,
      huint]

/-- The counters are right after every step, whichever report came last. -/
theorem Tallied.step {e : IoEvent n} {es : List (IoEvent n)} {st : Stats} (h : Tallied c es st) :
    Tallied c (es ++ [e]) (e.tally st) := by
  cases hrep : e.isReport with
  | false => exact (adds_of_not_isReport hrep st).tallied hrep h
  | true =>
    have hsince : since IoEvent.isReport (es ++ [e]) = [] := by simp [since_snoc, hrep]
    cases e with
    | completed t oper => cases hrep
    | worker e =>
      cases e with
      | intermediateReport =>
        have hsinceCum : since IoEvent.isCumulative
            (es ++ [(IoEvent.worker .intermediateReport : IoEvent n)]) =
              since IoEvent.isCumulative es ++ [.worker .intermediateReport] := by
          simp [since_snoc, IoEvent.isCumulative]
        have hcompleted : completedOps c
            (since IoEvent.isCumulative es ++ [(.worker .intermediateReport : IoEvent n)]) =
              completedOps c (since IoEvent.isCumulative es) :=
          (completedOps_snoc _ _).trans (List.append_nil _)
        have hfsyncs : fsyncsCounted c
            (since IoEvent.isCumulative es ++ [(.worker .intermediateReport : IoEvent n)]) =
              fsyncsCounted c (since IoEvent.isCumulative es) :=
          (fsyncsCounted_snoc _ _).trans (add_zero _)
        constructor <;> simp only [hsince, hsinceCum, hcompleted, hfsyncs]
        · exact h.readOps
        · exact h.writeOps
        · exact h.otherOps
        · exact h.bytesRead
        · exact h.bytesWritten
        -- the shadows become the counters
        · exact h.otherOps.trans (congrArg _ (sub_zero _).symm)
        · exact h.bytesRead.trans (congrArg _ (sub_zero _).symm)
        · exact h.bytesWritten.trans (congrArg _ (sub_zero _).symm)
      | cumulativeReport =>
        have hsinceCum : since IoEvent.isCumulative
            (es ++ [(IoEvent.worker .cumulativeReport : IoEvent n)]) = [] := by
          simp [since_snoc, IoEvent.isCumulative]
        exact tallied_clearStats hsinceCum hsince
      | _ => cases hrep

theorem run_tallied {perThread : ℕ → PerThread} {es : List (IoEvent c.numThreads)}
    {s : IoSystem c.numThreads} (hr : run (ioStep c) (initIoSystem _ perThread) es = some s) :
    Tallied c es s.sys.vars.stats := by
  refine (run_invariant (I := fun es (s : IoSystem c.numThreads) =>
    Tallied c es s.sys.vars.stats ∧ (s.sys.vars.isDirty → CanWrite c)) ?_ ?_ hr).1
  · exact ⟨tallied_clearStats (since_nil _) (since_nil _), fun h => by cases h⟩
  · intro es s e u _ ⟨hinv, hdirty⟩ hstep
    obtain ⟨hstats, hdirty'⟩ := ioStep_stats hdirty hstep
    rw [hstats]
    exact ⟨hinv.step, hdirty'⟩

/-! ## When the reports are exact -/

/-- The difference that is printed for the FSYNCs of a stretch. -/
theorem toUInt_fsyncsCounted_eq_iff (es : List (IoEvent n)) :
    (toUInt 64 (toInt 32 (fsyncsCounted c es)) : ℤ) = opCount .fsync (completedOps c es) ↔
      FsyncsFit c es := by
  have hle := uncountedIn_le (c := c) es
  unfold fsyncsCounted FsyncsFit
  generalize uncountedIn c es = u at *
  generalize opCount .fsync (completedOps c es) = k at *
  have hlow := le_toInt (w := 32) (by decide) ((k : ℤ) - u)
  have hhigh := toInt_lt (w := 32) (by decide) ((k : ℤ) - u)
  obtain ⟨q, hq⟩ := exists_toInt_eq 32 ((k : ℤ) - u)
  generalize toInt 32 ((k : ℤ) - u) = v at *
  rcases le_or_gt 0 v with hv | hv
  · rw [toUInt_of_range hv (by norm_num at hhigh ⊢; omega), Int.toNat_of_nonneg hv]
    norm_num at hlow hhigh hq ⊢
    omega
  · have hwrap : (toUInt 64 v : ℤ) = v + 2 ^ 64 := by
      rw [← toUInt_add_mul 64 v 1, one_mul,
        toUInt_of_range (by norm_num at hlow ⊢; omega) (by norm_num; omega),
        Int.toNat_of_nonneg (by norm_num at hlow ⊢; omega)]
    rw [hwrap]
    norm_num at hlow hhigh hq ⊢
    omega

theorem Tallied.intermediate_iff {es : List (IoEvent n)} {st : Stats} (h : Tallied c es st) :
    printIntermediate st = intermediateOf (completedOps c (since IoEvent.isReport es)) ↔
      DifferencesFit c (since IoEvent.isReport es) := by
  have hread : (toUInt 64 (st.bytesRead - st.lastBytesRead) : ℤ) =
      toUInt 64 (opBytes .read (completedOps c (since IoEvent.isReport es))) := by
    rw [h.bytesRead, h.lastBytesRead, toUInt_toUInt_sub, sub_sub_cancel]
  have hwritten : (toUInt 64 (st.bytesWritten - st.lastBytesWritten) : ℤ) =
      toUInt 64 (opBytes .write (completedOps c (since IoEvent.isReport es))) := by
    rw [h.bytesWritten, h.lastBytesWritten, toUInt_toUInt_sub, sub_sub_cancel]
  have hother : toInt 32 (st.otherOps - st.lastOtherOps) =
      toInt 32 (fsyncsCounted c (since IoEvent.isReport es)) := by
    rw [h.otherOps, h.lastOtherOps, toInt_sub_toInt, sub_sub_cancel]
  rw [IntermediateReport.ext_iff]
  simp only [printIntermediate, intermediateOf, hread, hwritten, hother, toUInt_eq_iff,
    toUInt_fsyncsCounted_eq_iff]
  exact ⟨fun ⟨hr, hw, hf⟩ => ⟨hf, hr, hw⟩, fun ⟨hf, hr, hw⟩ => ⟨hr, hw, hf⟩⟩

theorem Tallied.cumulative_iff {es : List (IoEvent n)} {st : Stats} (h : Tallied c es st) :
    printCumulative st = cumulativeOf (completedOps c (since IoEvent.isCumulative es)) ↔
      TotalsFit c (since IoEvent.isCumulative es) := by
  have hle := uncountedIn_le (c := c) (since IoEvent.isCumulative es)
  have hreads := h.readOps
  have hwrites := h.writeOps
  have hothers := h.otherOps
  have hbytes := h.bytesRead
  have hbytes' := h.bytesWritten
  rw [totalsFit_iff, CumulativeReport.ext_iff]
  simp only [printCumulative, cumulativeOf, fsyncsCounted] at hothers ⊢
  generalize uncountedIn c (since IoEvent.isCumulative es) = u at *
  generalize completedOps c (since IoEvent.isCumulative es) = opers at *
  generalize opCount .read opers = r at *
  generalize opCount .write opers = w at *
  generalize opCount .fsync opers = f at *
  have htotal : toInt 32 (toInt 32 (st.readOps + st.writeOps) + st.otherOps) =
      toInt 32 ((r + w : ℕ) + ((f : ℤ) - u)) := by
    rw [hreads, hwrites, hothers, toInt_add_toInt 32 (r : ℤ), toInt_add_toInt, Nat.cast_add]
  rw [htotal, hreads, hwrites, hothers, hbytes, hbytes', toUInt_toUInt_add_toUInt]
  simp only [toUInt_eq_iff]
  constructor
  · rintro ⟨-, -, hother, hops, hbytesRead, hbytesWritten, hsum⟩
    -- what is stored for the FSYNCs is in range, and leaves out none of them
    have hf : f < 2 ^ 31 := by
      have hlt := toInt_lt (w := 32) (by decide) ((f : ℤ) - u)
      rw [hother] at hlt
      exact_mod_cast hlt
    have hu : u = 0 := by
      rw [toInt_of_range (by decide) (by norm_num; omega) (by norm_num; omega)] at hother
      omega
    rw [hu, Nat.cast_zero, sub_zero] at hops
    refine ⟨hu, ?_, hbytesRead.1, hbytesWritten.1, hsum.2⟩
    exact (toInt_natCast_eq_iff (w := 32) (by decide)).mp (by exact_mod_cast hops)
  · rintro ⟨rfl, hops, hread, hwritten, hsum⟩
    have hstored : ∀ k : ℕ, k ≤ r + w + f → toInt 32 k = k := fun k hk =>
      toInt_natCast (by decide) (by norm_num; omega)
    refine ⟨hstored r (by omega), hstored w (by omega), ?_, ?_, ⟨hread, by omega⟩,
      ⟨hwritten, by omega⟩, by omega, hsum⟩
    · rw [Nat.cast_zero, sub_zero]
      exact hstored f (by omega)
    · rw [Nat.cast_zero, sub_zero]
      exact_mod_cast hstored (r + w + f) le_rfl

/-- In every run the reports are exact exactly when each covers a stretch that it can print. -/
theorem reportsExact_iff {perThread : ℕ → PerThread} {es : List (IoEvent c.numThreads)}
    {s : IoSystem c.numThreads} (hr : run (ioStep c) (initIoSystem _ perThread) es = some s) :
    ReportsExact c perThread es ↔ ReportsFit c es := by
  have hreach : ∀ {pre e}, pre ++ [e] <+: es →
      ∃ u, run (ioStep c) (initIoSystem _ perThread) pre = some u := by
    rintro pre e ⟨post, rfl⟩
    obtain ⟨u, hu, -⟩ := run_append_iff.mp hr
    obtain ⟨v, hv, -⟩ := run_append_iff.mp hu
    exact ⟨v, hv⟩
  constructor
  · intro h
    constructor
    · intro pre hpre
      obtain ⟨u, hu⟩ := hreach hpre
      exact (run_tallied hu).intermediate_iff.mp (h.intermediate pre u hpre hu)
    · intro pre hpre
      obtain ⟨u, hu⟩ := hreach hpre
      exact (run_tallied hu).cumulative_iff.mp (h.cumulative pre u hpre hu)
  · intro h
    constructor
    · intro pre u hpre hu
      exact (run_tallied hu).intermediate_iff.mpr (h.intermediate pre hpre)
    · intro pre u hpre hu
      exact (run_tallied hu).cumulative_iff.mpr (h.cumulative pre hpre)

/-- Outside async mode, and where each WRITE counts its own fsync, every FSYNC is counted. -/
theorem uncountedIn_of_mode (h : c.fileIoMode = .async → c.fileFsyncAll = true)
    (es : List (IoEvent n)) : uncountedIn c es = 0 := by
  rw [uncountedIn, List.countP_eq_zero]
  intro e _ hun
  unfold IoEvent.uncounted at hun
  split at hun <;> simp_all

def asyncOptions : Options := { smallOptions with fileIoMode := some "async" }

def asyncConfig : Config := { smallConfig with fileIoMode := .async }

/-- Worker 0 writes a block and syncs the file before the report. -/
def asyncEvents : List (IoEvent 2) :=
  [.worker (.get 0 [] (.file ⟨0, 0, 4, .write⟩)), .worker (.act 0 (.pwrite 0 4 0)),
    .completed 0 ⟨.write, 4⟩, .worker (.ret 0), .worker (.get 0 [] (.file ⟨0, 0, 0, .fsync⟩)),
    .worker (.act 0 (.fsync 0)), .worker (.ret 0), .worker .intermediateReport]

theorem asyncEvents_run : ∃ s, run (ioStep asyncConfig)
    (initIoSystem asyncConfig.numThreads fun _ => ⟨0, 0⟩) asyncEvents = some s := ⟨_, rfl⟩

theorem reportsExact_iff_async : ReportsExact asyncConfig (fun _ => ⟨0, 0⟩) asyncEvents ↔
    ReportsFit asyncConfig asyncEvents := by
  obtain ⟨s, hs⟩ := asyncEvents_run
  exact reportsExact_iff hs

/-- In async mode a report leaves out the FSYNC that was executed before it. -/
theorem reportsExact_uncounted : ∃ g o c, parseArguments g o = .ok c ∧
    ∃ es s, run (ioStep c) (initIoSystem c.numThreads fun _ => ⟨0, 0⟩) es = some s ∧
      ¬ ReportsExact c (fun _ => ⟨0, 0⟩) es := by
  obtain ⟨s, hs⟩ := asyncEvents_run
  refine ⟨smallGlobals, asyncOptions, asyncConfig, rfl, asyncEvents, s, hs, fun hexact => ?_⟩
  have hprint := hexact.intermediate (asyncEvents.take 7) _ (List.prefix_refl _) rfl
  exact absurd hprint (by decide)

end Sysbench.Fileio
