import Sysbench.Fileio.Workers
import Sysbench.Machine.Pool

/-! # Writes and the final fsync

The final series is handed out when the last data request has been handed out, not when
it has been executed. `FsyncAhead` says of a state that an FSYNC of a file is still to be
executed; in a run that every worker completes, that is known from the state alone.
-/
namespace Sysbench.Fileio

open Runs Pool

variable {c : Config}

/-- Every executed WRITE is followed by an executed FSYNC of its file. -/
def WritesCovered {n : ℕ} (es : List (Event n)) : Prop :=
  ∀ pre t f size pos post, es = pre ++ .act t (.pwrite f size pos) :: post →
    ∃ t', Event.act t' (.fsync f) ∈ post

/-- The final series has not handed out file `f` yet, or some worker holds an FSYNC of
`f` that it has not executed. -/
def FsyncAhead (c : Config) (s : System c.numThreads) (f : ℕ) : Prop :=
  (s.vars.fsyncedFile2 ≤ f ∧ f < c.numFiles) ∨
    ∃ t r todo, s.worker t = .busy r (.ok todo) ∧ Action.fsync f ∈ todo

/-- The series in progress, and what a finished worker has seen. -/
structure SeriesInv (c : Config) (s : System c.numThreads) : Prop where
  periodic : s.vars.fsyncedFile < c.numFiles
  final : 0 < s.vars.fsyncedFile2 → s.vars.Done c
  finished : ∀ t, s.worker t = .finished → c.numFiles ≤ s.vars.fsyncedFile2

theorem Served.fsyncedFile2_le {s t : Vars} {q : Request} (h : Served c s q t) :
    s.fsyncedFile2 ≤ t.fsyncedFile2 := by
  cases h with
  | final hdone hdue => exact Nat.le_succ _
  | null hdone hdue => exact le_rfl
  | periodic hdone hdue =>
    unfold Vars.periodicFsync
    split_ifs <;> exact le_rfl
  | data hdone hdue hop hwrite ht => exact ht.fsyncedFile2.ge

theorem Served.fsyncedFile_lt (hn : 0 < c.numFiles) {s t : Vars} {q : Request}
    (h : Served c s q t) (hs : s.fsyncedFile < c.numFiles) : t.fsyncedFile < c.numFiles := by
  cases h with
  | final hdone hdue => exact hs
  | null hdone hdue => exact hs
  | periodic hdone hdue =>
    unfold Vars.periodicFsync
    split_ifs with hlast
    · exact hn
    · simp only
      omega
  | data hdone hdue hop hwrite ht => exact ht.fsyncedFile.trans_lt hs

theorem Served.done {s t : Vars} {q : Request} (h : Served c s q t)
    (hs : 0 < s.fsyncedFile2 → s.Done c) : 0 < t.fsyncedFile2 → t.Done c := by
  intro ht
  cases h with
  | final hdone hdue => exact hdone
  | null hdone hdue => exact hdone
  | periodic hdone hdue =>
    unfold Vars.periodicFsync at ht
    split_ifs at ht <;> exact absurd (hs ht) hdone
  | data hdone hdue hop hwrite hstep =>
    rw [hstep.fsyncedFile2] at ht
    exact absurd (hs ht) hdone

/-- A NULL request means that the final series is over. -/
theorem Served.null_series (hend : c.fileFsyncEnd = true) (hw : CanWrite c) {s t : Vars}
    (h : Served c s .null t) : c.numFiles ≤ t.fsyncedFile2 := by
  cases h with
  | null hdone hdue =>
    by_contra hlt
    exact hdue ⟨hend, hw, by omega⟩

theorem Served.fsync_file {s t : Vars} {r : FileRequest} (h : Served c s (.file r) t)
    (hop : r.operation = .fsync) :
    s.Done c ∧ r.fileId = s.fsyncedFile2 ∧ r.fileId < c.numFiles ∨
      ¬ s.Done c ∧ r.fileId = s.fsyncedFile := by
  cases h with
  | final hdone hdue => exact .inl ⟨hdone, rfl, hdue.2.2⟩
  | periodic hdone hdue => exact .inr ⟨hdone, rfl⟩
  | data hdone hdue hdata hwrite ht =>
    rw [hop] at hdata
    rcases hdata with hdata | hdata <;> cases hdata

theorem taken_fsync {g : Globals} {o : Options} (h : Accepted g o c)
    (hall : c.fileFsyncAll = false) {f : ℕ} (hf : f < c.numFiles) :
    ∃ r todo, taken c (fsyncRequest f) = .busy r (.ok todo) ∧ Action.fsync f ∈ todo := by
  have hcheck : checkRequest c ⟨f, 0, 0, .fsync⟩ = .ok () :=
    checkRequest_eq_ok.mpr ⟨hf.le, h.fileSize_nonneg⟩
  refine ⟨⟨f, 0, 0, .fsync⟩, fsyncActions c ⟨f, 0, 0, .fsync⟩, ?_, by simp [fsyncActions, hall]⟩
  simp only [taken, fsyncRequest, fileExecuteRequest, hcheck]
  rfl

theorem fsync_of_mem_taken (hall : c.fileFsyncAll = false) {q : Request} {r : FileRequest}
    {todo : List Action} {f : ℕ} (h : taken c q = .busy r (.ok todo))
    (hf : Action.fsync f ∈ todo) : q = .file r ∧ r.operation = .fsync ∧ r.fileId = f := by
  cases q with
  | null => cases h
  | file r' =>
    simp only [taken, Worker.busy.injEq] at h
    obtain ⟨rfl, hacts⟩ := h
    rcases (fileExecuteRequest_ok hacts).2 with ⟨-, rfl⟩ | ⟨-, rfl⟩ | ⟨hop, rfl⟩
    · unfold writeActions at hf
      split_ifs at hf <;> simp_all
    · unfold readActions at hf
      split_ifs at hf <;> simp_all
    · refine ⟨rfl, hop, ?_⟩
      unfold fsyncActions at hf
      split_ifs at hf <;> simp_all

/-! ## One step -/

theorem SeriesInv.step (hn : 0 < c.numFiles) (hend : c.fileFsyncEnd = true) (hw : CanWrite c)
    {s u : System c.numThreads} (h : SeriesInv c s) {e : Event c.numThreads}
    (hmv : Moved c s e u) : SeriesInv c u := by
  -- a step that is no call leaves the series alone and finishes no worker
  have hquiet : u.vars.fsyncedFile = s.vars.fsyncedFile →
      u.vars.fsyncedFile2 = s.vars.fsyncedFile2 → u.vars.reqPerformed = s.vars.reqPerformed →
      (∀ t, u.worker t = .finished → s.worker t = .finished) → SeriesInv c u := by
    intro h1 h2 h3 hfin
    refine ⟨h1.trans_lt h.periodic, ?_, fun t ht => h2 ▸ h.finished t (hfin t ht)⟩
    intro hpos
    have hdone := h.final (h2 ▸ hpos)
    exact ⟨hdone.1, h3 ▸ hdone.2⟩
  have hset : ∀ {t : Fin c.numThreads} {w : Worker}, w ≠ .finished →
      ∀ t', Function.update s.worker t w t' = .finished → s.worker t' = .finished := by
    intro t w hne t' ht'
    rcases update_eq_iff.mp ht' with ⟨-, hw⟩ | ⟨-, hold⟩
    · exact absurd hw hne
    · exact hold
  cases hmv with
  | @get t draws q v hidle hget =>
    have hserved := fileGetRequest_served (fun _ => hw) hget
    refine ⟨hserved.fsyncedFile_lt hn h.periodic, hserved.done h.final, ?_⟩
    intro t' ht'
    rcases update_eq_iff.mp ht' with ⟨rfl, htaken⟩ | ⟨-, hold⟩
    · cases q with
      | null => exact hserved.null_series hend hw
      | file r => cases htaken
    · exact (h.finished t' hold).trans hserved.fsyncedFile2_le
  | act _ => exact hquiet rfl rfl rfl (hset (by simp))
  | fail _ => exact hquiet rfl rfl rfl (hset (by simp))
  | ret _ => exact hquiet rfl rfl rfl (hset (by simp))
  | refused _ => exact hquiet rfl rfl rfl (hset (by simp))
  | stop _ => exact hquiet rfl rfl rfl (hset (by simp))
  | intermediateReport => exact hquiet rfl rfl rfl fun _ h => h
  | cumulativeReport => exact hquiet rfl rfl rfl fun _ h => h

/-- Once no FSYNC of a file is ahead, none ever is. -/
theorem FsyncAhead.of_step (hall : c.fileFsyncAll = false) (hw : CanWrite c)
    {s u : System c.numThreads} (h : SeriesInv c s) {e : Event c.numThreads}
    (hmv : Moved c s e u) {f : ℕ} (hu : FsyncAhead c u f) : FsyncAhead c s f := by
  -- the worker that moved to `w` holds no FSYNC of `f` unless it did before
  have hset : ∀ {t : Fin c.numThreads} {w : Worker},
      (∀ r todo, w = .busy r (.ok todo) → Action.fsync f ∈ todo → FsyncAhead c s f) →
      ∀ t' r todo, Function.update s.worker t w t' = .busy r (.ok todo) →
        Action.fsync f ∈ todo → FsyncAhead c s f := by
    intro t w hown t' r todo hbusy hmem
    rcases update_eq_iff.mp hbusy with ⟨-, hw⟩ | ⟨-, hold⟩
    · exact hown r todo hw hmem
    · exact .inr ⟨t', r, todo, hold, hmem⟩
  have hnone : ∀ {w : Worker}, (∀ r todo, w ≠ .busy r (.ok todo)) →
      ∀ r todo, w = .busy r (.ok todo) → Action.fsync f ∈ todo → FsyncAhead c s f :=
    fun hne r todo heq => absurd heq (hne r todo)
  cases hmv with
  | @get t draws q v hidle hget =>
    have hserved := fileGetRequest_served (fun _ => hw) hget
    rcases hu with ⟨hle, hlt⟩ | ⟨t', r, todo, hbusy, hmem⟩
    · exact .inl ⟨hserved.fsyncedFile2_le.trans hle, hlt⟩
    · refine hset ?_ t' r todo hbusy hmem
      intro r todo htaken hmem
      obtain ⟨rfl, hop, rfl⟩ := fsync_of_mem_taken hall htaken hmem
      rcases hserved.fsync_file hop with ⟨-, hfile, hlt⟩ | ⟨hdone, hfile⟩
      · exact .inl ⟨hfile.ge, hlt⟩
      · -- a periodic FSYNC: the final series has not begun
        have hzero : s.vars.fsyncedFile2 = 0 := by
          by_contra hpos
          exact hdone (h.final (Nat.pos_of_ne_zero hpos))
        rw [hfile]
        exact .inl ⟨by omega, h.periodic⟩
  | @act t a r rest hbusy =>
    rcases hu with hseries | ⟨t', r', todo, hbusy', hmem⟩
    · exact .inl hseries
    · refine hset ?_ t' r' todo hbusy' hmem
      intro r' todo heq hmem
      cases heq
      exact .inr ⟨t, r, _, hbusy, List.mem_cons_of_mem _ hmem⟩
  | fail _ =>
    rcases hu with hseries | ⟨t', r', todo, hbusy', hmem⟩
    · exact .inl hseries
    · exact hset (hnone (by simp)) t' r' todo hbusy' hmem
  | ret _ =>
    rcases hu with hseries | ⟨t', r', todo, hbusy', hmem⟩
    · exact .inl hseries
    · exact hset (hnone (by simp)) t' r' todo hbusy' hmem
  | refused _ =>
    rcases hu with hseries | ⟨t', r', todo, hbusy', hmem⟩
    · exact .inl hseries
    · exact hset (hnone (by simp)) t' r' todo hbusy' hmem
  | stop _ =>
    rcases hu with hseries | ⟨t', r', todo, hbusy', hmem⟩
    · exact .inl hseries
    · exact hset (hnone (by simp)) t' r' todo hbusy' hmem
  | intermediateReport => exact hu
  | cumulativeReport => exact hu

/-- An FSYNC that is ahead stays ahead until it is executed, unless a worker fails. -/
theorem FsyncAhead.step {g : Globals} {o : Options} (hp : Accepted g o c)
    (hall : c.fileFsyncAll = false) (hw : CanWrite c)
    {s u : System c.numThreads} {e : Event c.numThreads}
    (hmv : Moved c s e u) {f : ℕ} (hs : FsyncAhead c s f) (hne : ∀ t, e ≠ .act t (.fsync f))
    (hfail : ∀ t r todo, u.worker t ≠ .failed r todo) : FsyncAhead c u f := by
  -- a worker that did not move still holds its FSYNC
  have hset : ∀ {t : Fin c.numThreads} {w : Worker} {t' r todo},
      s.worker t' = .busy r (.ok todo) → t' ≠ t →
      Function.update s.worker t w t' = .busy r (.ok todo) :=
    fun hbusy hne => update_eq_iff.mpr (.inr ⟨hne, hbusy⟩)
  cases hmv with
  | @get t draws q v hidle hget =>
    have hserved := fileGetRequest_served (fun _ => hw) hget
    rcases hs with ⟨hle, hlt⟩ | ⟨t', r, todo, hbusy, hmem⟩
    · by_cases hq : v.fsyncedFile2 ≤ f
      · exact .inl ⟨hq, hlt⟩
      · -- this call handed out the FSYNC of `f`
        cases hserved with
        | final hdone hdue =>
          have hf : s.vars.fsyncedFile2 = f := by
            simp only [Vars.finalFsync] at hq
            omega
          obtain ⟨r, todo, htaken, hmem⟩ := taken_fsync hp hall (hf ▸ hlt : f < c.numFiles)
          refine .inr ⟨t, r, todo, ?_, hmem⟩
          simp only [Vars.finalFsync, hf, Function.update_self]
          exact htaken
        | null hdone hdue => exact absurd hle hq
        | periodic hdone hdue =>
          unfold Vars.periodicFsync at hq
          split_ifs at hq <;> exact absurd hle hq
        | data hdone hdue hop hwrite ht =>
          rw [ht.fsyncedFile2] at hq
          exact absurd hle hq
    · have hne' : t' ≠ t := by
        rintro rfl
        rw [hidle] at hbusy
        cases hbusy
      exact .inr ⟨t', r, todo, hset hbusy hne', hmem⟩
  | @act t a r rest hw' =>
    rcases hs with hseries | ⟨t', r', todo, hbusy, hmem⟩
    · exact .inl hseries
    · by_cases heq : t' = t
      · subst heq
        rw [hw'] at hbusy
        cases hbusy
        rcases List.mem_cons.mp hmem with rfl | hmem
        · exact absurd rfl (hne t')
        · exact .inr ⟨t', r, rest, Function.update_self .., hmem⟩
      · exact .inr ⟨t', r', todo, hset hbusy heq, hmem⟩
  | @fail t a r rest hw' => exact absurd (Function.update_self ..) (hfail t _ _)
  | @ret t r hw' =>
    rcases hs with hseries | ⟨t', r', todo, hbusy, hmem⟩
    · exact .inl hseries
    · have hne' : t' ≠ t := by
        rintro rfl
        rw [hw'] at hbusy
        cases hbusy
        cases hmem
      exact .inr ⟨t', r', todo, hset hbusy hne', hmem⟩
  | @refused t r m hw' => exact absurd (Function.update_self ..) (hfail t _ _)
  | @stop t hw' =>
    rcases hs with hseries | ⟨t', r', todo, hbusy, hmem⟩
    · exact .inl hseries
    · have hne' : t' ≠ t := by
        rintro rfl
        rw [hw'] at hbusy
        cases hbusy
      exact .inr ⟨t', r', todo, hset hbusy hne', hmem⟩
  | intermediateReport => exact hs
  | cumulativeReport => exact hs

/-! ## Complete runs -/

theorem Moved.failed {s u : System c.numThreads} {e : Event c.numThreads} (h : Moved c s e u)
    {t : Fin c.numThreads} {r : FileRequest} {todo : Except String (List Action)}
    (ht : s.worker t = .failed r todo) : u.worker t = .failed r todo := by
  have hset : ∀ {t' : Fin c.numThreads} {w : Worker}, (s.worker t' ≠ .failed r todo) →
      Function.update s.worker t' w t = .failed r todo := by
    intro t' w hne
    exact update_eq_iff.mpr (.inr ⟨fun heq => hne (heq ▸ ht), ht⟩)
  cases h with
  | get hw hget => exact hset (by simp [hw])
  | act hw => exact hset (by simp [hw])
  | fail hw => exact hset (by simp [hw])
  | ret hw => exact hset (by simp [hw])
  | refused hw => exact hset (by simp [hw])
  | stop hw => exact hset (by simp [hw])
  | intermediateReport => exact ht
  | cumulativeReport => exact ht

theorem run_failed {s u : System c.numThreads} {es : List (Event c.numThreads)}
    (hr : run (workerStep c) s es = some u) {t : Fin c.numThreads} {r : FileRequest}
    {todo : Except String (List Action)} (ht : s.worker t = .failed r todo) :
    u.worker t = .failed r todo :=
  run_preserves (I := fun s => s.worker t = .failed r todo)
    (fun _ _ _ hs he => (workerStep_moved he).failed hs) ht hr

/-- In what is left of a run that every worker completes, a file is synced exactly when
an FSYNC of it is ahead. -/
theorem fsyncAhead_iff {g : Globals} {o : Options} (hp : Accepted g o c)
    (hend : c.fileFsyncEnd = true) (hall : c.fileFsyncAll = false) (hw : CanWrite c)
    {s u : System c.numThreads} (h : SeriesInv c s) {es : List (Event c.numThreads)}
    (hr : run (workerStep c) s es = some u) (hfin : ∀ t, u.worker t = .finished)
    (t₀ : Fin c.numThreads) (f : ℕ) :
    FsyncAhead c s f ↔ ∃ t, Event.act t (.fsync f) ∈ es := by
  induction es generalizing s with
  | nil =>
    cases hr
    simp only [List.not_mem_nil, exists_false, iff_false]
    rintro (⟨hle, hlt⟩ | ⟨t, r, todo, hbusy, -⟩)
    · have := h.finished t₀ (hfin t₀)
      omega
    · rw [hfin t] at hbusy
      cases hbusy
  | cons e es ih =>
    obtain ⟨v, hv, hr⟩ := Option.bind_eq_some_iff.mp (run_cons .. ▸ hr)
    have hmv := workerStep_moved hv
    have hrest := ih (h.step hp.numFiles_pos hend hw hmv) hr
    have hfail : ∀ t r todo, v.worker t ≠ .failed r todo := by
      intro t r todo ht
      have hu := run_failed hr ht
      rw [hfin t] at hu
      cases hu
    by_cases hact : ∃ t, e = .act t (.fsync f)
    · obtain ⟨t, rfl⟩ := hact
      refine iff_of_true ?_ ⟨t, List.mem_cons_self⟩
      cases hmv with
      | @act _ _ r todo hbusy => exact .inr ⟨t, r, _, hbusy, List.mem_cons_self⟩
    · rw [not_exists] at hact
      calc FsyncAhead c s f ↔ FsyncAhead c v f :=
            ⟨fun hs => hs.step hp hall hw hmv hact hfail, fun hs => hs.of_step hall hw h hmv⟩
        _ ↔ ∃ t, Event.act t (.fsync f) ∈ es := hrest
        _ ↔ ∃ t, Event.act t (.fsync f) ∈ e :: es := by
            refine exists_congr fun t => ?_
            rw [List.mem_cons, or_iff_right fun heq => hact t heq.symm]

/-- In a run that every worker completes, each executed WRITE is followed by an FSYNC of
its file exactly when at each executed WRITE such an FSYNC is still ahead. -/
theorem writesCovered_iff {g : Globals} {o : Options} (hp : parseArguments g o = .ok c)
    (hend : c.fileFsyncEnd = true) (hall : c.fileFsyncAll = false) (hw : CanWrite c)
    {perThread : ℕ → PerThread} {es : List (Event c.numThreads)} {s : System c.numThreads}
    (hr : run (workerStep c) (initSystem _ perThread) es = some s)
    (hfin : ∀ t, s.worker t = .finished) :
    WritesCovered es ↔ ∀ pre t f size pos post u,
      es = pre ++ .act t (.pwrite f size pos) :: post →
      run (workerStep c) (initSystem _ perThread) pre = some u → FsyncAhead c u f := by
  have h := parseArguments_ok hp
  have hinit : SeriesInv c (initSystem _ perThread) :=
    ⟨h.numFiles_pos, fun hpos => absurd hpos (lt_irrefl 0), fun t ht => by cases ht⟩
  have hcut : ∀ {pre t f size pos post u}, es = pre ++ .act t (.pwrite f size pos) :: post →
      run (workerStep c) (initSystem _ perThread) pre = some u →
      (FsyncAhead c u f ↔ ∃ t', Event.act t' (.fsync f) ∈ post) := by
    intro pre t f size pos post u hes hu
    obtain ⟨u', hu', hrest⟩ := run_append_iff.mp (hes ▸ hr)
    obtain rfl : u = u' := by
      rw [hu] at hu'
      exact Option.some.inj hu'
    have hinv : SeriesInv c u := run_preserves (I := SeriesInv c)
      (fun _ _ _ hs he => hs.step h.numFiles_pos hend hw (workerStep_moved he)) hinit hu
    rw [fsyncAhead_iff h hend hall hw hinv hrest hfin t]
    simp
  constructor
  · intro hcov pre t f size pos post u hes hu
    exact (hcut hes hu).mpr (hcov pre t f size pos post hes)
  · intro hahead pre t f size pos post hes
    obtain ⟨u, hu, -⟩ := run_append_iff.mp (hes ▸ hr)
    exact (hcut hes hu).mp (hahead pre t f size pos post u hes hu)

def lateConfig : Config := { smallConfig with maxRequests := 1, fileFsyncFreq := 0 }

/-- Worker 1 gets and performs the final FSYNC before worker 0 performs its WRITE. -/
def lateEvents : List (Event 2) :=
  [.get 0 [] (.file ⟨0, 0, 4, .write⟩), .get 1 [] (.file ⟨0, 0, 0, .fsync⟩),
    .act 1 (.fsync 0), .act 1 .countOther, .ret 1, .get 1 [] .null,
    .act 0 (.pwrite 0 4 0), .act 0 (.countWrite 4), .ret 0, .get 0 [] .null]

theorem lateEvents_run : ∃ s, run (workerStep lateConfig) (initSystem _ fun _ => ⟨0, 0⟩)
    lateEvents = some s ∧ ∀ t, s.worker t = .finished := by
  refine ⟨_, rfl, ?_⟩
  have hall : ∀ t : Fin 2, t = 0 ∨ t = 1 := by decide
  intro t
  rcases hall t with rfl | rfl <;> rfl

theorem lateEvents_uncovered : ¬ WritesCovered lateEvents ∧ ∀ t, .fail t ∉ lateEvents := by
  constructor
  · intro hcov
    obtain ⟨t, ht⟩ := hcov (lateEvents.take 6) 0 0 4 0 [.act 0 (.countWrite 4),
      .ret 0, .get 0 [] .null] rfl
    simp at ht
  · intro t ht
    simp [lateEvents] at ht

/-- The final series can be handed out and performed while a WRITE is still being executed. -/
theorem writesCovered_late : ∃ g o c, parseArguments g o = .ok c ∧ 0 < c.maxRequests ∧
    c.fileFsyncEnd = true ∧ c.fileFsyncAll = false ∧ c.fileIoMode = .sync ∧ CanWrite c ∧
    ∃ es s, run (workerStep c) (initSystem c.numThreads fun _ => ⟨0, 0⟩) es = some s ∧
      (∀ t, s.worker t = .finished) ∧ (∀ t, .fail t ∉ es) ∧ ¬ WritesCovered es := by
  obtain ⟨s, hs, hfin⟩ := lateEvents_run
  exact ⟨{ smallGlobals with maxRequests := 1 }, { smallOptions with fileFsyncFreq := 0 },
    lateConfig, rfl, by decide, rfl, rfl, rfl, by decide, lateEvents, s, hs, hfin,
    lateEvents_uncovered.2, lateEvents_uncovered.1⟩

theorem writesCovered_iff_late : WritesCovered lateEvents ↔ ∀ pre t f size pos post u,
    lateEvents = pre ++ .act t (.pwrite f size pos) :: post →
      run (workerStep lateConfig) (initSystem _ fun _ => ⟨0, 0⟩) pre = some u →
        FsyncAhead lateConfig u f := by
  obtain ⟨s, hs, hfin⟩ := lateEvents_run
  exact writesCovered_iff (g := { smallGlobals with maxRequests := 1 })
    (o := { smallOptions with fileFsyncFreq := 0 }) (c := lateConfig) rfl rfl rfl (by decide) hs hfin

end Sysbench.Fileio
