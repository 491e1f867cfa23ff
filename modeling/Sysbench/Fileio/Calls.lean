import Sysbench.Fileio.Requests
import Sysbench.Machine.Runs

/-! # Sequences of generator calls

A run is any sequence of calls by any threads. Between two calls the other threads
may complete requests or a report may reset the counters, so the statistics may
change arbitrarily. Every law about the requests handed out is stated on such runs.
-/
namespace Sysbench.Fileio

open Doubles Runs

variable (c : Config)

/-- Modes in which requests write, and in which the final series is due. -/
def CanWrite : Prop := c.testMode ≠ .read ∧ c.testMode ≠ .rndRead

instance : Decidable (CanWrite c) := inferInstanceAs (Decidable (_ ∧ _))

abbrev FinalDue (s : Vars) : Prop := c.fileFsyncEnd ∧ CanWrite c ∧ s.fsyncedFile2 < c.numFiles

abbrev PeriodicDue (s : Vars) : Prop :=
  c.fileFsyncFreq ≠ 0 ∧ s.isDirty ∧ s.reqPerformed % c.fileFsyncFreq = 0

/-- What handing out a data request does to the variables of the schedule. -/
structure DataStep (s : Vars) (r : FileRequest) (t : Vars) : Prop where
  reqPerformed : t.reqPerformed = s.reqPerformed + 1
  isDirty : t.isDirty = (s.isDirty || r.operation = .write)
  fsyncedFile : t.fsyncedFile = s.fsyncedFile
  fsyncedFile2 : t.fsyncedFile2 = s.fsyncedFile2
  stats : t.stats = s.stats

/-- Everything a call of either generator can do, as far as the schedule goes. -/
inductive Served (s : Vars) : Request → Vars → Prop
  | final (hdone : s.Done c) (hdue : FinalDue c s) :
      Served s s.finalFsync.1 s.finalFsync.2
  | null (hdone : s.Done c) (hdue : ¬ FinalDue c s) : Served s .null s
  | periodic (hdone : ¬ s.Done c) (hdue : PeriodicDue c s) :
      Served s (s.periodicFsync c).1 (s.periodicFsync c).2
  | data (hdone : ¬ s.Done c) (hdue : ¬ PeriodicDue c s) {r : FileRequest} {t : Vars}
      (hop : r.operation = .read ∨ r.operation = .write)
      (hwrite : r.operation = .write → CanWrite c) (ht : DataStep s r t) : Served s (.file r) t

variable {c} {scale : ℤ → Draw → ℤ}

theorem seqOperation_eq_write_iff (hm : SeqMode c) : seqOperation c = .write ↔ CanWrite c := by
  unfold seqOperation CanWrite
  rcases hm with hm | hm | hm <;> simp [hm]

theorem seqOperation_read_or_write : seqOperation c = .read ∨ seqOperation c = .write := by
  unfold seqOperation
  split_ifs <;> simp

theorem fileGetSeqRequest_served (hm : SeqMode c) {s : Vars} (hs : s.isDirty → CanWrite c) :
    Served c s (fileGetSeqRequest c s).1 (fileGetSeqRequest c s).2 := by
  have hw := seqOperation_eq_write_iff hm
  unfold fileGetSeqRequest
  by_cases hd : s.Done c
  · rw [if_pos hd]
    simp only [hw]
    by_cases hf : FinalDue c s
    · rw [if_pos hf]
      exact .final hd hf
    · rw [if_neg hf]
      exact .null hd hf
  · rw [if_neg hd]
    by_cases hp : PeriodicDue c s
    · rw [if_pos ⟨hp.1, hw.mpr (hs hp.2.1), hp.2⟩]
      exact .periodic hd hp
    · rw [if_neg (fun h => hp ⟨h.1, h.2.2⟩)]
      exact .data hd hp seqOperation_read_or_write hw.mp ⟨rfl, rfl, rfl, rfl, rfl⟩

theorem retryLoop_mem {s : Vars} {threadId : ℕ} {operation : FileOp} {draws : List Draw}
    {r : FileRequest} (h : retryLoop c scale s threadId operation draws = some r) :
    c.fileSize ≠ 0 ∧ (∃ d ∈ draws, r = rndRequest c operation (scale c.totalSize d)) ∧
      (c.validate = true → blockInUse c s threadId r = false) := by
  induction draws with
  | nil => cases h
  | cons d draws ih =>
    unfold retryLoop at h
    by_cases hz : c.fileSize = 0
    · rw [if_pos hz] at h
      cases h
    rw [if_neg hz] at h
    cases hb : (c.validate &&
      blockInUse c s threadId (rndRequest c operation (scale c.totalSize d))) with
    | true =>
      simp only [hb, if_true] at h
      obtain ⟨h0, ⟨d', hd', hr⟩, hfree⟩ := ih h
      exact ⟨h0, ⟨d', List.mem_cons_of_mem _ hd', hr⟩, hfree⟩
    | false =>
      simp only [hb, Bool.false_eq_true, if_false, Option.some.injEq] at h
      subst h
      refine ⟨hz, ⟨d, List.mem_cons_self, rfl⟩, ?_⟩
      intro hv
      simpa [hv] using hb

/-- A data request is built from one of the draws. -/
theorem fileGetRndRequestBy_data {s t : Vars} {threadId : ℕ} {draws : List Draw} {r : FileRequest}
    (h : fileGetRndRequestBy c scale s threadId draws = some (.file r, t))
    (hop : r.operation = .read ∨ r.operation = .write) :
    retryLoop c scale s threadId (rndOperation c s) draws = some r ∧
      t.perThread = Function.update s.perThread threadId ⟨r.fileId, r.pos⟩ := by
  have hfsync : ∀ f, Request.file r ≠ fsyncRequest f := by
    rintro f heq
    cases heq
    rcases hop with hop | hop <;> cases hop
  unfold fileGetRndRequestBy at h
  by_cases hd : s.Done c
  · rw [if_pos hd] at h
    split_ifs at h
    · cases h
      exact absurd rfl (hfsync _)
    · cases h
  · rw [if_neg hd] at h
    by_cases hp : PeriodicDue c s
    · rw [if_pos hp] at h
      exact absurd (congrArg Prod.fst (Option.some.inj h)).symm (hfsync _)
    · rw [if_neg hp] at h
      obtain ⟨r', hr', heq⟩ := Option.map_eq_some_iff.mp h
      cases heq
      exact ⟨hr', rfl⟩

theorem rndOperation_read_or_write (s : Vars) :
    rndOperation c s = .read ∨ rndOperation c s = .write := by
  unfold rndOperation
  split_ifs <;> simp

theorem rndOperation_write (s : Vars) (h : rndOperation c s = .write) : CanWrite c := by
  unfold rndOperation rndMode at h
  unfold CanWrite
  constructor <;> intro hm <;> simp [hm] at h

@[simp] theorem scaleDraw_zero (totalSize : ℤ) : scaleDraw totalSize ⟨0, sbMaxRnd_pos⟩ = 0 := by
  simp [scaleDraw]

/-- When nothing of the schedule is due, the request the loop ends with is handed out. -/
theorem fileGetRndRequestBy_of_retry {s : Vars} {threadId : ℕ} {draws : List Draw} {r : FileRequest}
    (hd : ¬ s.Done c) (hp : ¬ PeriodicDue c s)
    (h : retryLoop c scale s threadId (rndOperation c s) draws = some r) :
    fileGetRndRequestBy c scale s threadId draws = some (.file r,
      { s with
        perThread := Function.update s.perThread threadId ⟨r.fileId, r.pos⟩
        reqPerformed := s.reqPerformed + 1
        isDirty := s.isDirty || r.operation = .write }) := by
  unfold fileGetRndRequestBy
  rw [if_neg hd, if_neg hp, h]
  rfl

theorem fileGetRequest_of_retry (hm : ¬ SeqMode c) {s : Vars} {threadId : ℕ} {draws : List Draw}
    {r : FileRequest} (hd : ¬ s.Done c) (hp : ¬ PeriodicDue c s)
    (h : retryLoop c scaleDraw s threadId (rndOperation c s) draws = some r) :
    fileGetRequest c s threadId draws = some (.file r,
      { s with
        perThread := Function.update s.perThread threadId ⟨r.fileId, r.pos⟩
        reqPerformed := s.reqPerformed + 1
        isDirty := s.isDirty || r.operation = .write }) := by
  rw [fileGetRequest, if_neg hm]
  exact fileGetRndRequestBy_of_retry hd hp h

theorem fileGetRndRequest_served (hm : ¬ SeqMode c) {s t : Vars} {threadId : ℕ}
    {draws : List Draw} {q : Request}
    (h : fileGetRndRequest c s threadId draws = some (q, t)) : Served c s q t := by
  have hw : c.testMode = .rndWrite ∨ c.testMode = .rndRw ∨ c.testMode = .mixed ↔ CanWrite c := by
    unfold SeqMode at hm
    unfold CanWrite
    cases hmode : c.testMode <;> simp_all
  unfold fileGetRndRequest fileGetRndRequestBy at h
  by_cases hd : s.Done c
  · rw [if_pos hd] at h
    simp only [hw] at h
    by_cases hf : FinalDue c s
    · rw [if_pos hf] at h
      cases h
      exact .final hd hf
    · rw [if_neg hf] at h
      cases h
      exact .null hd hf
  · rw [if_neg hd] at h
    by_cases hp : PeriodicDue c s
    · rw [if_pos hp] at h
      cases h
      exact .periodic hd hp
    · rw [if_neg hp] at h
      obtain ⟨r, hr, heq⟩ := Option.map_eq_some_iff.mp h
      cases heq
      obtain ⟨-, ⟨d, -, rfl⟩, -⟩ := retryLoop_mem hr
      exact .data hd hp (rndOperation_read_or_write s) (rndOperation_write s)
        ⟨rfl, rfl, rfl, rfl, rfl⟩

theorem fileGetRequest_served {s t : Vars} (hs : s.isDirty → CanWrite c) {threadId : ℕ}
    {draws : List Draw} {q : Request}
    (h : fileGetRequest c s threadId draws = some (q, t)) : Served c s q t := by
  unfold fileGetRequest at h
  by_cases hm : SeqMode c
  · rw [if_pos hm] at h
    have hserved := fileGetSeqRequest_served hm hs
    rw [Option.some.inj h] at hserved
    exact hserved
  · rw [if_neg hm] at h
    exact fileGetRndRequest_served hm h

theorem Served.stats {s t : Vars} {q : Request} (h : Served c s q t) : t.stats = s.stats := by
  cases h with
  | final hdone hdue => rfl
  | null hdone hdue => rfl
  | periodic hdone hdue =>
    unfold Vars.periodicFsync
    split_ifs <;> rfl
  | data hdone hdue hop hwrite ht => exact ht.stats

theorem Served.isDirty {s t : Vars} {q : Request} (hs : s.isDirty → CanWrite c)
    (h : Served c s q t) : t.isDirty → CanWrite c := by
  cases h with
  | final hdone hdue => exact hs
  | null hdone hdue => exact hs
  | periodic hdone hdue =>
    intro _
    exact hs hdue.2.1
  | data hdone hdue hop hwrite ht =>
    intro hd
    rw [ht.isDirty, Bool.or_eq_true, decide_eq_true_eq] at hd
    exact hd.elim hs hwrite

variable (c)

/-! ## Runs -/

inductive Call where
  /-- a thread calls the generator, `sb_rnd` returns the draws, and `q` is handed out -/
  | request (threadId : ℕ) (draws : List Draw) (q : Request)
  /-- completed requests and reports change the counters -/
  | stats (v : Stats)
  deriving DecidableEq, Repr

def callStep (s : Vars) : Call → Option Vars
  | .request threadId draws q =>
    (fileGetRequest c s threadId draws).bind fun p => if p.1 = q then some p.2 else none
  | .stats v => some { s with stats := v }

def Call.handedOut : Call → Option Request
  | .request _ _ q => some q
  | .stats _ => none

def requests (calls : List Call) : List Request := calls.filterMap Call.handedOut

@[simp] theorem requests_nil : requests [] = [] := rfl

@[simp] theorem requests_append_request (calls : List Call) (threadId : ℕ) (draws : List Draw)
    (q : Request) : requests (calls ++ [.request threadId draws q]) = requests calls ++ [q] := by
  simp [requests, Call.handedOut]

@[simp] theorem requests_append_stats (calls : List Call) (v : Stats) :
    requests (calls ++ [.stats v]) = requests calls := by
  simp [requests, Call.handedOut]

variable {c}

theorem callStep_request_iff {s t : Vars} {threadId : ℕ} {draws : List Draw} {q : Request} :
    callStep c s (.request threadId draws q) = some t ↔
      fileGetRequest c s threadId draws = some (q, t) := by
  simp only [callStep, Option.bind_eq_some_iff]
  constructor
  · rintro ⟨⟨q', t'⟩, hget, heq⟩
    by_cases hq : q' = q
    · subst hq
      simp only [if_true, Option.some.injEq] at heq
      rw [hget, heq]
    · simp [hq] at heq
  · intro hget
    exact ⟨(q, t), hget, by simp⟩

/-- An invariant of the requests so far and of the variables of the schedule holds
after every run, if serving a request preserves it and the counters do not matter. -/
theorem calls_invariant {perThread : ℕ → PerThread} {I : List Request → Vars → Prop}
    (hinit : I [] (initVars perThread))
    (hserve : ∀ tr s q t, I tr s → Served c s q t → I (tr ++ [q]) t)
    (hstats : ∀ tr s v, I tr s → I tr { s with stats := v })
    {calls : List Call} {s : Vars} (hr : run (callStep c) (initVars perThread) calls = some s) :
    I (requests calls) s ∧ (s.isDirty → CanWrite c) := by
  refine run_invariant (I := fun calls s => I (requests calls) s ∧ (s.isDirty → CanWrite c))
    ⟨hinit, fun h => by cases h⟩ ?_ hr
  intro calls s call t _ ⟨hinv, hdirty⟩ hstep
  cases call with
  | request threadId draws q =>
    have hserved := fileGetRequest_served hdirty (callStep_request_iff.mp hstep)
    rw [requests_append_request]
    exact ⟨hserve _ _ _ _ hinv hserved, hserved.isDirty hdirty⟩
  | stats v =>
    cases hstep
    rw [requests_append_stats]
    exact ⟨hstats _ _ _ hinv, hdirty⟩

end Sysbench.Fileio
