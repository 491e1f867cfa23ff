import Sysbench.Fileio.Calls
import Sysbench.Machine.Segments

/-! # The fsync schedule

The requests handed out by any sequence of calls, cut after each data request. Before
the limit a block between two data requests is empty or one whole periodic series;
after the last data request come the final series and NULL requests. The invariant
ties the block in progress to `fsyncedFile`, `fsyncedFile2` and the dirty flag.
-/
namespace Sysbench.Fileio

open Runs Segments

def dataCount (tr : List Request) : ℕ := tr.countP Request.isData

/-- Some WRITE was handed out after the last FSYNC. -/
def writeSinceFsync (tr : List Request) : Bool :=
  (tr.reverse.takeWhile fun q => !q.isFsync).any Request.isWrite

def fsyncSeries (n : ℕ) : List Request := (List.range n).map fsyncRequest

@[simp] theorem length_fsyncSeries (n : ℕ) : (fsyncSeries n).length = n := by
  simp [fsyncSeries]

@[simp] theorem fsyncSeries_zero : fsyncSeries 0 = [] := rfl

theorem fsyncSeries_succ (n : ℕ) : fsyncSeries (n + 1) = fsyncSeries n ++ [fsyncRequest n] := by
  simp [fsyncSeries, List.range_succ]

theorem dataCount_append (a b : List Request) : dataCount (a ++ b) = dataCount a + dataCount b :=
  List.countP_append

theorem dataCount_eq_zero {tr : List Request} (h : ∀ x ∈ tr, x.isData = false) :
    dataCount tr = 0 := by
  rw [dataCount, List.countP_eq_zero]
  intro x hx
  simp [h x hx]

@[simp] theorem writeSinceFsync_nil : writeSinceFsync [] = false := rfl

theorem writeSinceFsync_fsync (tr : List Request) (f : ℕ) :
    writeSinceFsync (tr ++ [fsyncRequest f]) = false := by
  simp [writeSinceFsync]

theorem writeSinceFsync_file (tr : List Request) {r : FileRequest} (hr : r.operation ≠ .fsync) :
    writeSinceFsync (tr ++ [.file r]) = (writeSinceFsync tr || r.operation = .write) := by
  simp [writeSinceFsync, Request.isFsync, Request.isWrite, hr, Bool.or_comm]

theorem writeSinceFsync_series {n : ℕ} (hn : 0 < n) (tr : List Request) :
    writeSinceFsync (tr ++ fsyncSeries n) = false := by
  obtain ⟨m, rfl⟩ := Nat.exists_eq_succ_of_ne_zero hn.ne'
  rw [Nat.succ_eq_add_one, fsyncSeries_succ, ← List.append_assoc]
  exact writeSinceFsync_fsync _ m

variable (c : Config)

abbrev SeriesDue (pre : List Request) : Prop :=
  0 < c.fileFsyncFreq ∧ c.fileFsyncFreq ∣ dataCount pre ∧ writeSinceFsync pre

/-- What is handed out between `pre` and the next data request. -/
def dueSeries (pre : List Request) : List Request :=
  if SeriesDue c pre then fsyncSeries c.numFiles else []

/-- What is handed out after the last data request, before the NULL requests. -/
def lastSeries : List Request :=
  if c.fileFsyncEnd ∧ CanWrite c then fsyncSeries c.numFiles else []

structure FsyncSchedule (tr : List Request) : Prop where
  /-- no more data requests than the limit -/
  limit : dataCount tr ≤ c.maxRequests
  /-- the requests between two data requests, and before the first -/
  periodic : ∀ pre mid q post, tr = pre ++ mid ++ q :: post → EndsAt Request.isData pre →
    (∀ x ∈ mid, x.isData = false) → q.isData = true → mid = dueSeries c pre
  /-- the requests after the last data request -/
  final : ∀ pre rest, tr = pre ++ rest → EndsAt Request.isData pre →
    dataCount pre = c.maxRequests → rest = padded (lastSeries c) .null rest.length

/-- The block in progress before the limit: part of a periodic series, or all of it. -/
inductive Pending (pre mid : List Request) (s : Vars) : Prop
  | part (hf2 : s.fsyncedFile2 = 0) (hlt : s.fsyncedFile < c.numFiles)
      (hmid : mid = fsyncSeries s.fsyncedFile) (hdirty : s.isDirty = writeSinceFsync pre)
      (hdue : 0 < s.fsyncedFile → SeriesDue c pre)
  | whole (hf2 : s.fsyncedFile2 = 0) (hf : s.fsyncedFile = 0)
      (hmid : mid = fsyncSeries c.numFiles) (hdirty : s.isDirty = false) (hdue : SeriesDue c pre)

/-- The invariant: the trace so far obeys the block law, and its last block belongs to
the values of the variables. -/
structure ScheduleInv (tr : List Request) (s : Vars) : Prop where
  law : BlocksLaw Request.isData (dueSeries c) tr
  split : ∃ pre mid, tr = pre ++ mid ∧ EndsAt Request.isData pre ∧
    (∀ x ∈ mid, x.isData = false) ∧ s.reqPerformed = dataCount pre ∧
    (s.reqPerformed < c.maxRequests ∧ Pending c pre mid s ∨
      s.reqPerformed = c.maxRequests ∧ mid = padded (lastSeries c) .null mid.length ∧
        s.fsyncedFile2 = min mid.length (lastSeries c).length)

variable {c}

theorem Pending.eq_dueSeries {pre mid : List Request} {s : Vars}
    (hk : s.reqPerformed = dataCount pre) (h : Pending c pre mid s) (hquiet : ¬ PeriodicDue c s) :
    mid = dueSeries c pre ∧ s.fsyncedFile = 0 ∧ s.fsyncedFile2 = 0 := by
  cases h with
  | part hf2 hlt hmid hdirty hdue =>
    have hnot : ¬ SeriesDue c pre := by
      intro hd
      apply hquiet
      refine ⟨hd.1.ne', by rw [hdirty]; exact hd.2.2, ?_⟩
      rw [hk]
      exact Nat.mod_eq_zero_of_dvd hd.2.1
    have hf : s.fsyncedFile = 0 := by
      by_contra hne
      exact hnot (hdue (Nat.pos_of_ne_zero hne))
    refine ⟨?_, hf, hf2⟩
    rw [hmid, hf, dueSeries, if_neg hnot, fsyncSeries_zero]
  | whole hf2 hf hmid hdirty hdue =>
    refine ⟨?_, hf, hf2⟩
    rw [hmid, dueSeries, if_pos hdue]

theorem Pending.isDirty {pre mid : List Request} {s : Vars} (hn : 0 < c.numFiles)
    (h : Pending c pre mid s) (hf : s.fsyncedFile = 0) :
    s.isDirty = writeSinceFsync (pre ++ mid) := by
  cases h with
  | part hf2 hlt hmid hdirty hdue =>
    rw [hmid, hf, fsyncSeries_zero, List.append_nil, hdirty]
  | whole hf2 hf' hmid hdirty hdue =>
    rw [hmid, hdirty, writeSinceFsync_series hn]

theorem Pending.periodic {pre mid : List Request} {s : Vars}
    (hk : s.reqPerformed = dataCount pre) (h : Pending c pre mid s) (hdue : PeriodicDue c s) :
    Pending c pre (mid ++ [(s.periodicFsync c).1]) (s.periodicFsync c).2 := by
  cases h with
  | whole hf2 hf hmid hdirty hdue' =>
    have hset := hdue.2.1
    rw [hdirty] at hset
    cases hset
  | part hf2 hlt hmid hdirty hdue' =>
    have hseries : SeriesDue c pre := by
      refine ⟨Nat.pos_of_ne_zero hdue.1, ?_, by rw [← hdirty]; exact hdue.2.1⟩
      rw [← hk]
      exact Nat.dvd_of_mod_eq_zero hdue.2.2
    have hmid' : mid ++ [fsyncRequest s.fsyncedFile] = fsyncSeries (s.fsyncedFile + 1) := by
      rw [hmid, fsyncSeries_succ]
    unfold Vars.periodicFsync
    by_cases hlast : s.fsyncedFile + 1 = c.numFiles
    · simp only [if_pos hlast]
      exact .whole hf2 rfl (hmid'.trans (by rw [hlast])) rfl hseries
    · simp only [if_neg hlast]
      exact .part hf2 (by dsimp only; omega) hmid' hdirty (fun _ => hseries)

theorem scheduleInv_init (hmax : 0 < c.maxRequests) (hn : 0 < c.numFiles)
    (perThread : ℕ → PerThread) : ScheduleInv c [] (initVars perThread) where
  law := blocksLaw_nil _
  split := ⟨[], [], rfl, endsAt_nil, by simp, rfl,
    .inl ⟨hmax, .part rfl hn rfl rfl (fun h => absurd h (lt_irrefl 0))⟩⟩

theorem length_lastSeries_le {s : Vars} {mid : List Request} (hdue : ¬ FinalDue c s)
    (hf2 : s.fsyncedFile2 = min mid.length (lastSeries c).length) :
    (lastSeries c).length ≤ mid.length := by
  unfold lastSeries at hf2 ⊢
  split_ifs at hf2 ⊢ with hend
  · rw [length_fsyncSeries] at hf2 ⊢
    have hge : ¬ s.fsyncedFile2 < c.numFiles := fun hlt => hdue ⟨hend.1, hend.2, hlt⟩
    omega
  · simp

theorem ScheduleInv.final {tr : List Request} {s : Vars} (h : ScheduleInv c tr s)
    (hd : s.Done c) (hdue : FinalDue c s) :
    ScheduleInv c (tr ++ [s.finalFsync.1]) s.finalFsync.2 := by
  obtain ⟨hlaw, pre, mid, rfl, hpre, hmid, hk, ⟨hlt, -⟩ | ⟨heq, hpad, hf2⟩⟩ := h
  · have hge : c.maxRequests ≤ s.reqPerformed := hd.2
    omega
  · have hser : lastSeries c = fsyncSeries c.numFiles := if_pos ⟨hdue.1, hdue.2.1⟩
    rw [hser, length_fsyncSeries] at hf2
    have hlt := hdue.2.2
    have hlen : mid.length = s.fsyncedFile2 := by omega
    have hget : (fsyncSeries c.numFiles).getD mid.length .null = fsyncRequest s.fsyncedFile2 := by
      rw [hlen]
      simp [fsyncSeries, List.getD_eq_getElem?_getD, hlt]
    refine ⟨hlaw.snoc hpre hmid (by simp [Vars.finalFsync]), pre,
      mid ++ [fsyncRequest s.fsyncedFile2], by simp [Vars.finalFsync], hpre, ?_, hk,
      .inr ⟨heq, ?_, ?_⟩⟩
    · simpa [or_imp, forall_and] using hmid
    · rw [List.length_append, List.length_singleton, padded_succ, ← hpad, hser, hget]
    · simp only [Vars.finalFsync, hser, length_fsyncSeries, List.length_append,
        List.length_singleton]
      omega

theorem ScheduleInv.null {tr : List Request} {s : Vars} (h : ScheduleInv c tr s)
    (hd : s.Done c) (hdue : ¬ FinalDue c s) : ScheduleInv c (tr ++ [.null]) s := by
  obtain ⟨hlaw, pre, mid, rfl, hpre, hmid, hk, ⟨hlt, -⟩ | ⟨heq, hpad, hf2⟩⟩ := h
  · have hge : c.maxRequests ≤ s.reqPerformed := hd.2
    omega
  · have hlen := length_lastSeries_le hdue hf2
    have hget : (lastSeries c).getD mid.length .null = .null := by
      rw [List.getD_eq_getElem?_getD, List.getElem?_eq_none hlen, Option.getD_none]
    refine ⟨hlaw.snoc hpre hmid (by simp), pre, mid ++ [.null], by simp, hpre, ?_, hk,
      .inr ⟨heq, ?_, ?_⟩⟩
    · simpa [or_imp, forall_and] using hmid
    · rw [List.length_append, List.length_singleton, padded_succ, ← hpad, hget]
    · rw [hf2, List.length_append, List.length_singleton]
      omega

theorem ScheduleInv.periodic (hmax : 0 < c.maxRequests) {tr : List Request} {s : Vars}
    (h : ScheduleInv c tr s) (hd : ¬ s.Done c) (hdue : PeriodicDue c s) :
    ScheduleInv c (tr ++ [(s.periodicFsync c).1]) (s.periodicFsync c).2 := by
  obtain ⟨hlaw, pre, mid, rfl, hpre, hmid, hk, ⟨hlt, hpend⟩ | ⟨heq, -⟩⟩ := h
  · have hquiet : ∀ x ∈ mid ++ [(s.periodicFsync c).1], x.isData = false := by
      simpa [or_imp, forall_and, Vars.periodicFsync] using hmid
    have hcount : (s.periodicFsync c).2.reqPerformed = s.reqPerformed := by
      unfold Vars.periodicFsync
      dsimp only
      split_ifs <;> rfl
    refine ⟨hlaw.snoc hpre hmid (by simp [Vars.periodicFsync]), pre,
      mid ++ [(s.periodicFsync c).1], by simp, hpre, hquiet, hcount.trans hk, .inl ⟨?_, ?_⟩⟩
    · omega
    · exact hpend.periodic hk hdue
  · exact absurd ⟨hmax, heq.ge⟩ hd

theorem ScheduleInv.data (hmax : 0 < c.maxRequests) (hn : 0 < c.numFiles) {tr : List Request}
    {s t : Vars} {r : FileRequest} (h : ScheduleInv c tr s) (hd : ¬ s.Done c)
    (hdue : ¬ PeriodicDue c s) (hop : r.operation = .read ∨ r.operation = .write)
    (ht : DataStep s r t) : ScheduleInv c (tr ++ [.file r]) t := by
  obtain ⟨hlaw, pre, mid, rfl, hpre, hmid, hk, ⟨hlt, hpend⟩ | ⟨heq, -⟩⟩ := h
  · have hdata : Request.isData (.file r) = true := by
      rcases hop with hop | hop <;> simp [Request.isData, Request.isRead, Request.isWrite, hop]
    have hne : r.operation ≠ .fsync := by
      rcases hop with hop | hop <;> simp [hop]
    obtain ⟨hblock, hf, hf2⟩ := hpend.eq_dueSeries hk hdue
    have hcount : t.reqPerformed = dataCount (pre ++ mid ++ [.file r]) := by
      rw [ht.reqPerformed, hk, dataCount_append, dataCount_append, dataCount_eq_zero hmid]
      simp [dataCount, hdata]
    refine ⟨hlaw.snoc hpre hmid (fun _ => hblock), pre ++ mid ++ [.file r], [], by simp,
      endsAt_snoc hdata, by simp, hcount, ?_⟩
    by_cases hlast : s.reqPerformed + 1 < c.maxRequests
    · refine .inl ⟨by rw [ht.reqPerformed]; exact hlast, .part ?_ ?_ ?_ ?_ ?_⟩
      · rw [ht.fsyncedFile2, hf2]
      · rw [ht.fsyncedFile, hf]
        exact hn
      · rw [ht.fsyncedFile, hf, fsyncSeries_zero]
      · rw [ht.isDirty, writeSinceFsync_file _ hne, hpend.isDirty hn hf]
      · intro hpos
        rw [ht.fsyncedFile, hf] at hpos
        cases hpos
    · refine .inr ⟨by rw [ht.reqPerformed]; omega, rfl, ?_⟩
      rw [ht.fsyncedFile2, hf2]
      simp
  · exact absurd ⟨hmax, heq.ge⟩ hd

/-- Serving a request keeps the invariant; one case for each kind of answer. -/
theorem ScheduleInv.served (hmax : 0 < c.maxRequests) (hn : 0 < c.numFiles) {tr : List Request}
    {s t : Vars} {q : Request} (h : ScheduleInv c tr s) (hq : Served c s q t) :
    ScheduleInv c (tr ++ [q]) t := by
  cases hq with
  | final hd hdue => exact h.final hd hdue
  | null hd hdue => exact h.null hd hdue
  | periodic hd hdue => exact h.periodic hmax hd hdue
  | data hd hdue hop _ ht => exact h.data hmax hn hd hdue hop ht

theorem Pending.stats {pre mid : List Request} {s : Vars} (h : Pending c pre mid s) (v : Stats) :
    Pending c pre mid { s with stats := v } := by
  cases h with
  | part hf2 hlt hmid hdirty hdue => exact .part hf2 hlt hmid hdirty hdue
  | whole hf2 hf hmid hdirty hdue => exact .whole hf2 hf hmid hdirty hdue

theorem ScheduleInv.stats {tr : List Request} {s : Vars} (h : ScheduleInv c tr s) (v : Stats) :
    ScheduleInv c tr { s with stats := v } := by
  obtain ⟨hlaw, pre, mid, htr, hpre, hmid, hk, hphase⟩ := h
  exact ⟨hlaw, pre, mid, htr, hpre, hmid, hk, hphase.imp (fun h => ⟨h.1, h.2.stats v⟩) id⟩

theorem run_scheduleInv (hmax : 0 < c.maxRequests) (hn : 0 < c.numFiles)
    {perThread : ℕ → PerThread} {calls : List Call} {s : Vars}
    (hr : run (callStep c) (initVars perThread) calls = some s) :
    ScheduleInv c (requests calls) s :=
  (calls_invariant (scheduleInv_init hmax hn perThread)
    (fun _ _ _ _ h hq => h.served hmax hn hq) (fun _ _ v h => h.stats v) hr).1

/-- The schedule is exact: for every sequence of calls of either generator by any threads. -/
theorem calls_fsyncSchedule (hmax : 0 < c.maxRequests) (hn : 0 < c.numFiles)
    {perThread : ℕ → PerThread} {calls : List Call} {s : Vars}
    (hr : run (callStep c) (initVars perThread) calls = some s) :
    FsyncSchedule c (requests calls) := by
  obtain ⟨hlaw, pre, mid, htr, hpre, hmid, hk, hphase⟩ := run_scheduleInv hmax hn hr
  have hcount : dataCount (requests calls) = s.reqPerformed := by
    rw [htr, dataCount_append, dataCount_eq_zero hmid, hk, Nat.add_zero]
  refine ⟨?_, hlaw, ?_⟩
  · rcases hphase with ⟨hlt, -⟩ | ⟨heq, -⟩ <;> omega
  · intro pre' rest htr' hpre' hfull
    have hle : dataCount (requests calls) ≤ c.maxRequests := by
      rcases hphase with ⟨hlt, -⟩ | ⟨heq, -⟩ <;> omega
    -- no data request is left for `rest`, so the cut is the one of the invariant
    have hrest : ∀ x ∈ rest, x.isData = false := by
      rw [htr', dataCount_append, hfull] at hle
      have hzero : dataCount rest = 0 := by omega
      rw [dataCount, List.countP_eq_zero] at hzero
      intro x hx
      simpa using hzero x hx
    obtain ⟨rfl, rfl⟩ := split_unique hpre' hrest hpre hmid (htr'.symm.trans htr)
    rcases hphase with ⟨hlt, -⟩ | ⟨-, hpad, -⟩
    · omega
    · exact hpad

theorem calls_fsyncSchedule_small : FsyncSchedule smallConfig (requests
    [.request 0 [] (.file ⟨0, 0, 4, .write⟩), .request 1 [] (.file ⟨0, 0, 0, .fsync⟩),
      .request 1 [] (.file ⟨0, 4, 4, .write⟩), .request 0 [] (.file ⟨0, 0, 0, .fsync⟩),
      .request 1 [] .null]) := by
  have hr : ∃ s, run (callStep smallConfig) (initVars fun _ => ⟨0, 0⟩)
      [.request 0 [] (.file ⟨0, 0, 4, .write⟩), .request 1 [] (.file ⟨0, 0, 0, .fsync⟩),
        .request 1 [] (.file ⟨0, 4, 4, .write⟩), .request 0 [] (.file ⟨0, 0, 0, .fsync⟩),
        .request 1 [] .null] = some s := ⟨_, rfl⟩
  obtain ⟨s, hs⟩ := hr
  exact calls_fsyncSchedule (by decide) (by decide) hs

end Sysbench.Fileio
