import Sysbench.Fileio.Workers
import Sysbench.Machine.Pool

/-! # The read/write mix of combined tests

A request is counted when it completes, so the quotient that chooses the next
operation lags behind by the requests in flight. The invariant splits the requests
handed out into counted ones and ones a worker still owes; the caller owes none.
The counters are `int` and the quotient is rounded, so the bounds end where a counter
overflows, or where rounding changes the comparison with the ratio.
-/
namespace Sysbench.Fileio

open Doubles Pool Runs Words

def Request.has (op : FileOp) : Request → Bool
  | .null => false
  | .file r => r.operation = op

def outCount {n : ℕ} (op : FileOp) (es : List (Event n)) : ℕ :=
  (handedOut es).countP (Request.has op)

@[simp] theorem outCount_nil {n : ℕ} (op : FileOp) : outCount op ([] : List (Event n)) = 0 := rfl

theorem outCount_append {n : ℕ} (op : FileOp) (es fs : List (Event n)) :
    outCount op (es ++ fs) = outCount op es + outCount op fs := by
  simp [outCount, handedOut, List.filterMap_append]

theorem outCount_get {n : ℕ} (op : FileOp) (es : List (Event n)) (t : Fin n) (draws : List Draw)
    (q : Request) :
    outCount op (es ++ [.get t draws q]) = outCount op es + if q.has op then 1 else 0 := by
  rw [outCount, handedOut_snoc, List.countP_append]
  simp [outCount, Event.handedOut, List.countP_cons]

theorem outCount_other {n : ℕ} (op : FileOp) (es : List (Event n)) {e : Event n}
    (he : e.handedOut = none) : outCount op (es ++ [e]) = outCount op es := by
  simp [outCount, handedOut_snoc, he]

/-! ## Who owes a count -/

def Action.counts : Action → FileOp
  | .countRead _ => .read
  | .countWrite _ => .write
  | _ => .null

/-- What is left to do owes a count of operation `op`. A refused request is never counted. -/
def owed (op : FileOp) (r : FileRequest) : Except String (List Action) → ℕ
  | .ok todo => todo.countP fun a => a.counts = op
  | .error _ => if r.operation = op then 1 else 0

def Worker.owes (op : FileOp) : Worker → ℕ
  | .busy r todo => owed op r todo
  | .failed r todo => owed op r todo
  | _ => 0

def Stats.counted (op : FileOp) (st : Stats) : ℤ :=
  match op with
  | .read => st.readOps
  | .write => st.writeOps
  | _ => 0

/-- Before a step, one more request of each kind can be counted. A call of the generator finds
counters whose rounded quotient compares with the ratio as the quotient does. -/
structure MixGuard (c : Config) (s : System c.numThreads) (e : Event c.numThreads) : Prop where
  reads : s.vars.stats.readOps + 1 < 2 ^ 31
  writes : s.vars.stats.writeOps + 1 < 2 ^ 31
  compares : e.handedOut ≠ none →
    (quotientLt (s.vars.stats.readOps + 1) (s.vars.stats.writeOps + 1) c.fileRwRatio ↔
      (s.vars.stats.readOps + 1 : ℚ) < c.fileRwRatio * (s.vars.stats.writeOps + 1))

variable {c : Config} {op : FileOp} (hop : op = .read ∨ op = .write)

include hop

theorem MixGuard.counted_lt {s : System c.numThreads} {e : Event c.numThreads} (h : MixGuard c s e) :
    s.vars.stats.counted op + 1 < 2 ^ 31 := by
  rcases hop with rfl | rfl
  · exact h.reads
  · exact h.writes

theorem counted_count (a : Action) {st : Stats} (h0 : 0 ≤ st.counted op)
    (hlt : st.counted op + 1 < 2 ^ 31) :
    (a.count st).counted op = st.counted op + if a.counts = op then 1 else 0 := by
  have hstored : toInt 32 (st.counted op + 1) = st.counted op + 1 :=
    toInt_of_range (by decide) (by norm_num; omega) hlt
  rcases hop with rfl | rfl <;> cases a <;>
    simp_all [Action.count, Action.counts, Stats.counted]

/-- A request owes one count for its own operation and none for another. -/
theorem owed_fileExecuteRequest (hio : c.fileIoMode ≠ .async) (r : FileRequest) :
    owed op r (fileExecuteRequest c r) = if r.operation = op then 1 else 0 := by
  cases hacts : fileExecuteRequest c r with
  | error e => rfl
  | ok todo =>
    have hnull : FileOp.null ≠ op := by rcases hop with rfl | rfl <;> decide
    rcases (fileExecuteRequest_ok hacts).2 with ⟨hr, rfl⟩ | ⟨hr, rfl⟩ | ⟨hr, rfl⟩
    · unfold owed writeActions
      split_ifs <;> simp_all [Action.counts]
    · unfold owed readActions
      split_ifs <;> simp_all [Action.counts]
    · have hfsync : FileOp.fsync ≠ op := by rcases hop with rfl | rfl <;> decide
      unfold owed fsyncActions
      split_ifs <;> simp_all [Action.counts]

theorem owes_taken (hio : c.fileIoMode ≠ .async) (q : Request) :
    (taken c q).owes op = if q.has op then 1 else 0 := by
  cases q with
  | null => rfl
  | file r => simp [taken, Worker.owes, Request.has, owed_fileExecuteRequest hop hio]

omit hop

/-- Every request of operation `op` is counted or owed by one worker. -/
structure Accounted (op : FileOp) (es : List (Event c.numThreads)) (s : System c.numThreads) :
    Prop where
  split : (outCount op es : ℤ) = s.vars.stats.counted op + total (Worker.owes op) s.worker
  single : ∀ t, (s.worker t).owes op ≤ 1
  nonneg : 0 ≤ s.vars.stats.counted op

/-- One worker's share is exchanged against the counter or the requests handed out. -/
theorem Accounted.exchange {es es' : List (Event c.numThreads)} {s u : System c.numThreads}
    (h : Accounted op es s) {t : Fin c.numThreads} {w : Worker}
    (hu : u.worker = Function.update s.worker t w)
    (hbal : outCount op es' + s.vars.stats.counted op + (s.worker t).owes op =
      outCount op es + u.vars.stats.counted op + w.owes op)
    (hone : w.owes op ≤ 1) (hle : s.vars.stats.counted op ≤ u.vars.stats.counted op) :
    Accounted op es' u := by
  refine ⟨?_, ?_, h.nonneg.trans hle⟩
  · have htotal := total_update (Worker.owes op) s.worker t w
    have hsplit := h.split
    rw [hu]
    omega
  · intro i
    rw [hu]
    by_cases hi : i = t
    · subst hi
      simpa using hone
    · simpa [hi] using h.single i

include hop

theorem Accounted.step (hio : c.fileIoMode ≠ .async) {es : List (Event c.numThreads)}
    {s u : System c.numThreads} (h : Accounted op es s) (hdirty : s.vars.isDirty → CanWrite c)
    {e : Event c.numThreads} (hg : MixGuard c s e) (hrep : e ≠ .cumulativeReport)
    (hmv : Moved c s e u) : Accounted op (es ++ [e]) u := by
  cases hmv with
  | @get t draws q v hw hget =>
    have hstats := (fileGetRequest_served hdirty hget).stats
    refine h.exchange rfl ?_ ?_ (by rw [hstats])
    · rw [outCount_get, owes_taken hop hio, hw, hstats]
      simp only [Worker.owes]
      push_cast
      ring
    · rw [owes_taken hop hio]
      split_ifs <;> omega
  | @act t a r todo hw =>
    have hone := h.single t
    rw [hw] at hone
    simp only [Worker.owes, owed, List.countP_cons, decide_eq_true_eq] at hone
    have hcount := counted_count hop a h.nonneg (hg.counted_lt hop)
    refine h.exchange rfl ?_ ?_ ?_
    · rw [outCount_other _ _ rfl, hw]
      simp only [System.setWorker, System.setStats, hcount, Worker.owes, owed,
        List.countP_cons, decide_eq_true_eq]
      push_cast
      ring
    · simp only [Worker.owes, owed]
      omega
    · simp only [System.setWorker, System.setStats, hcount]
      split_ifs <;> omega
  | @fail t a r todo hw =>
    have hone := h.single t
    rw [hw] at hone
    refine h.exchange rfl ?_ hone le_rfl
    rw [outCount_other _ _ rfl, hw]
    rfl
  | @ret t r hw =>
    refine h.exchange rfl ?_ (Nat.zero_le 1) le_rfl
    rw [outCount_other _ _ rfl, hw]
    rfl
  | @refused t r m hw =>
    have hone := h.single t
    rw [hw] at hone
    refine h.exchange rfl ?_ hone le_rfl
    rw [outCount_other _ _ rfl, hw]
    rfl
  | @stop t hw =>
    refine h.exchange rfl ?_ (Nat.zero_le 1) le_rfl
    rw [outCount_other _ _ rfl, hw]
    rfl
  | intermediateReport =>
    refine ⟨?_, h.single, ?_⟩
    · rw [outCount_other _ _ rfl, h.split]
      rcases hop with rfl | rfl <;> rfl
    · have hnonneg := h.nonneg
      rcases hop with rfl | rfl <;> exact hnonneg
  | cumulativeReport => exact absurd rfl hrep

omit hop

/-! ## The mix -/

/-- A ratio is a `float`. Rounding the quotient does not move it to the ratio before the counter
of writes has more bits than the `double` leaves beside those of the ratio. -/
theorem quotientLt_iff_of_float {a b : ℤ} {m : ℕ} {e : ℤ} (ha : 0 ≤ a) (ha' : a < 2 ^ 53)
    (hb : 0 < b) (hb' : b ≤ 2 ^ 29) (hm : m < 2 ^ 24) :
    quotientLt a b (m * 2 ^ e) ↔ (a : ℚ) < m * 2 ^ e * b := by
  have hbq : (0 : ℚ) < b := by exact_mod_cast hb
  have haq : (0 : ℚ) ≤ a := by exact_mod_cast ha
  have hquot : (0 : ℚ) ≤ a / b := by positivity
  have hround : quotientLt a b (m * 2 ^ e) ↔ nearest (a / b) < m * 2 ^ e := by
    simp [quotientLt, hb.ne', signedNearest_of_nonneg hquot]
  rw [hround]
  constructor
  · intro h
    by_contra hle
    rw [not_lt, ← le_div_iff₀ hbq] at hle
    exact absurd h (not_lt.mpr (le_nearest (by omega) hle))
  · intro h
    refine (nearest_le_mul hquot).trans_lt ?_
    rw [div_mul_eq_mul_div, div_lt_iff₀ hbq]
    have heps : (2 : ℚ) ^ (-53 : ℤ) = 1 / 2 ^ 53 := by norm_num
    rw [heps]
    -- the two sides differ by at least the last place of the ratio, or by one
    cases e with
    | ofNat k =>
      rw [Int.ofNat_eq_natCast, zpow_natCast] at h ⊢
      have hstep : (a : ℚ) + 1 ≤ m * 2 ^ k * b := by exact_mod_cast h
      have ha53 : (a : ℚ) < 2 ^ 53 := by exact_mod_cast ha'
      linarith
    | negSucc k =>
      have hpow : (0 : ℚ) < 2 ^ (k + 1) := by positivity
      rw [zpow_negSucc, ← div_eq_mul_inv, div_mul_eq_mul_div, lt_div_iff₀ hpow] at h ⊢
      have hstep : (a : ℚ) * 2 ^ (k + 1) + 1 ≤ m * b := by exact_mod_cast h
      have hmb : (m : ℚ) * b ≤ 2 ^ 53 := by
        calc (m : ℚ) * b ≤ 2 ^ 24 * 2 ^ 29 :=
              mul_le_mul (by exact_mod_cast hm.le) (by exact_mod_cast hb') hbq.le (by norm_num)
          _ = 2 ^ 53 := by norm_num
      calc (a : ℚ) * (1 + 1 / 2 ^ 53) * 2 ^ (k + 1)
          = (a : ℚ) * 2 ^ (k + 1) * (1 + 1 / 2 ^ 53) := mul_right_comm _ _ _
        _ ≤ ((m : ℚ) * b - 1) * (1 + 1 / 2 ^ 53) :=
          mul_le_mul_of_nonneg_right (by linarith) (by norm_num)
        _ < (m : ℚ) * b := by linarith

-- the quotient of one read and five writes is rounded up to the `double` next to 0.2
example : ¬ quotientLt 1 5 (nearest (1 / 5)) ∧ (1 : ℚ) < nearest (1 / 5) * 5 := by
  decide +kernel

/-- The operation of a data request is the one the counters call for. -/
theorem operation_of_get (hm : c.testMode = .rndRw) {s v : Vars} {t : ℕ} {draws : List Draw}
    {r : FileRequest} (hget : fileGetRequest c s t draws = some (.file r, v))
    (hr : r.operation = .read ∨ r.operation = .write) :
    r.operation = .read ∧ quotientLt (toInt 32 (s.stats.readOps + 1))
        (toInt 32 (s.stats.writeOps + 1)) c.fileRwRatio ∨
      r.operation = .write ∧ ¬ quotientLt (toInt 32 (s.stats.readOps + 1))
        (toInt 32 (s.stats.writeOps + 1)) c.fileRwRatio := by
  have hseq : ¬ SeqMode c := by
    unfold SeqMode
    simp [hm]
  rw [fileGetRequest, if_neg hseq] at hget
  obtain ⟨-, ⟨d, -, rfl⟩, -⟩ := retryLoop_mem (fileGetRndRequestBy_data hget hr).1
  simp only [rndRequest, rndOperation, rndMode, hm, if_true]
  by_cases hlt : quotientLt (toInt 32 (s.stats.readOps + 1)) (toInt 32 (s.stats.writeOps + 1))
      c.fileRwRatio
  · rw [if_pos hlt]
    exact .inl ⟨by simp, hlt⟩
  · rw [if_neg hlt]
    exact .inr ⟨by simp, hlt⟩

theorem MixGuard.operation (hm : c.testMode = .rndRw) {es : List (Event c.numThreads)}
    {s : System c.numThreads} (hread : Accounted .read es s) (hwrite : Accounted .write es s)
    {t : Fin c.numThreads} {draws : List Draw} {r : FileRequest} {v : Vars}
    (hg : MixGuard c s (.get t draws (.file r)))
    (hget : fileGetRequest c s.vars t draws = some (.file r, v))
    (hr : r.operation = .read ∨ r.operation = .write) :
    r.operation = .read ∧ (s.vars.stats.counted .read + 1 : ℚ) <
        c.fileRwRatio * (s.vars.stats.counted .write + 1) ∨
      r.operation = .write ∧ c.fileRwRatio * (s.vars.stats.counted .write + 1 : ℚ) ≤
        s.vars.stats.counted .read + 1 := by
  have hstored : ∀ k : ℤ, 0 ≤ k → k + 1 < 2 ^ 31 → toInt 32 (k + 1) = k + 1 := fun k hk hlt =>
    toInt_of_range (by decide) (by norm_num; omega) hlt
  have hop := operation_of_get hm hget hr
  rw [hstored s.vars.stats.readOps hread.nonneg hg.reads,
    hstored s.vars.stats.writeOps hwrite.nonneg hg.writes, hg.compares (Option.some_ne_none _),
    not_lt] at hop
  exact hop

/-- The bounds on the requests handed out. -/
structure Mixed (c : Config) (es : List (Event c.numThreads)) : Prop where
  upper : (outCount .read es : ℚ) <
    c.fileRwRatio * (outCount .write es + 1) + (c.numThreads - 1)
  lower : c.fileRwRatio * outCount .write es ≤
    outCount .read es + 1 + c.fileRwRatio * (c.numThreads - 1)

theorem Accounted.counted_le {es : List (Event c.numThreads)} {s : System c.numThreads} {op : FileOp}
    (h : Accounted op es s) : (s.vars.stats.counted op : ℚ) ≤ outCount op es := by
  have hle : s.vars.stats.counted op ≤ outCount op es := by
    rw [h.split]
    omega
  exact_mod_cast hle

/-- A caller owes nothing, so at most `numThreads - 1` requests are not counted yet. -/
theorem Accounted.outCount_le {es : List (Event c.numThreads)} {s : System c.numThreads} {op : FileOp}
    (h : Accounted op es s) {t : Fin c.numThreads} (hw : s.worker t = .idle) :
    (outCount op es : ℚ) ≤ s.vars.stats.counted op + (c.numThreads - 1) := by
  have hlt := total_lt_card h.single (t := t) (by rw [hw]; rfl)
  rw [Fintype.card_fin] at hlt
  have hle : (outCount op es : ℤ) + 1 ≤ s.vars.stats.counted op + c.numThreads := by
    rw [h.split]
    omega
  have hle' : (outCount op es : ℚ) + 1 ≤ s.vars.stats.counted op + c.numThreads := by
    exact_mod_cast hle
  linarith

section Request

variable {es : List (Event c.numThreads)} {t : Fin c.numThreads} {draws : List Draw}
  {r : FileRequest} {reads writes : ℤ}

theorem Mixed.read (h : Mixed c es) (hrho : 0 < c.fileRwRatio) (hop : r.operation = .read)
    (hread : (outCount .read es : ℚ) ≤ reads + (c.numThreads - 1))
    (hwrite : (writes : ℚ) ≤ outCount .write es)
    (hlt : (reads : ℚ) + 1 < c.fileRwRatio * (writes + 1)) :
    Mixed c (es ++ [.get t draws (.file r)]) := by
  have hreads : outCount .read (es ++ [.get t draws (.file r)]) = outCount .read es + 1 := by
    simp [outCount_get, Request.has, hop]
  have hwrites : outCount .write (es ++ [.get t draws (.file r)]) = outCount .write es := by
    simp [outCount_get, Request.has, hop]
  have hmono : c.fileRwRatio * ((writes : ℚ) + 1) ≤ c.fileRwRatio * (outCount .write es + 1) :=
    mul_le_mul_of_nonneg_left (by linarith) hrho.le
  obtain ⟨hupper, hlower⟩ := h
  constructor
  · rw [hreads, hwrites]
    push_cast
    linarith
  · rw [hreads, hwrites]
    push_cast
    linarith

theorem Mixed.write (h : Mixed c es) (hrho : 0 < c.fileRwRatio) (hop : r.operation = .write)
    (hread : (reads : ℚ) ≤ outCount .read es)
    (hwrite : (outCount .write es : ℚ) ≤ writes + (c.numThreads - 1))
    (hge : c.fileRwRatio * ((writes : ℚ) + 1) ≤ reads + 1) :
    Mixed c (es ++ [.get t draws (.file r)]) := by
  have hreads : outCount .read (es ++ [.get t draws (.file r)]) = outCount .read es := by
    simp [outCount_get, Request.has, hop]
  have hwrites : outCount .write (es ++ [.get t draws (.file r)]) = outCount .write es + 1 := by
    simp [outCount_get, Request.has, hop]
  have hmono : c.fileRwRatio * ((outCount .write es : ℚ) + 1) ≤
      c.fileRwRatio * (writes + 1 + (c.numThreads - 1)) :=
    mul_le_mul_of_nonneg_left (by linarith) hrho.le
  obtain ⟨hupper, hlower⟩ := h
  constructor
  · rw [hreads, hwrites]
    push_cast
    linarith
  · rw [hreads, hwrites]
    push_cast
    linarith

end Request

theorem Mixed.step (hm : c.testMode = .rndRw) (hrho : 0 < c.fileRwRatio)
    {es : List (Event c.numThreads)} {s u : System c.numThreads} (h : Mixed c es)
    (hread : Accounted .read es s) (hwrite : Accounted .write es s) {e : Event c.numThreads}
    (hg : MixGuard c s e) (hmv : Moved c s e u) : Mixed c (es ++ [e]) := by
  have hquiet : e.handedOut = none → Mixed c (es ++ [e]) := by
    intro he
    constructor
    · rw [outCount_other _ _ he, outCount_other _ _ he]
      exact h.upper
    · rw [outCount_other _ _ he, outCount_other _ _ he]
      exact h.lower
  cases hmv with
  | @get t draws q v hw hget =>
    by_cases hdata : q.has .read = true ∨ q.has .write = true
    · cases q with
      | null => simp [Request.has] at hdata
      | file r =>
        simp only [Request.has, decide_eq_true_eq] at hdata
        rcases hg.operation hm hread hwrite hget hdata with ⟨hop, hlt⟩ | ⟨hop, hge⟩
        · exact h.read hrho hop (hread.outCount_le hw) hwrite.counted_le hlt
        · exact h.write hrho hop hread.counted_le (hwrite.outCount_le hw) hge
    · simp only [not_or, Bool.not_eq_true] at hdata
      constructor
      · simpa [outCount_get, hdata.1, hdata.2] using h.upper
      · simpa [outCount_get, hdata.1, hdata.2] using h.lower
  | act hw => exact hquiet rfl
  | fail hw => exact hquiet rfl
  | ret hw => exact hquiet rfl
  | refused hw => exact hquiet rfl
  | stop hw => exact hquiet rfl
  | intermediateReport => exact hquiet rfl
  | cumulativeReport => exact hquiet rfl

/-- The read/write mix follows the ratio up to the requests in flight, for any interleaving of the
workers, as long as the counters are in range. -/
theorem workers_mixed (hm : c.testMode = .rndRw) (hrho : 0 < c.fileRwRatio)
    (hN : 0 < c.numThreads) (hio : c.fileIoMode ≠ .async) {perThread : ℕ → PerThread}
    {es : List (Event c.numThreads)} {s : System c.numThreads}
    (hr : run (workerStep c) (initSystem _ perThread) es = some s)
    (hg : Guarded (workerStep c) (MixGuard c) (initSystem _ perThread) es)
    (hrep : Event.cumulativeReport ∉ es) :
    (outCount .read es : ℚ) < c.fileRwRatio * (outCount .write es + 1) + (c.numThreads - 1) ∧
      c.fileRwRatio * outCount .write es ≤
        outCount .read es + 1 + c.fileRwRatio * (c.numThreads - 1) := by
  have hwrite : CanWrite c := by
    unfold CanWrite
    simp [hm]
  have hN' : (1 : ℚ) ≤ c.numThreads := by exact_mod_cast hN
  suffices hinv : Accounted .read es s ∧ Accounted .write es s ∧ Mixed c es from
    ⟨hinv.2.2.upper, hinv.2.2.lower⟩
  induction es using List.reverseRecOn generalizing s with
  | nil =>
    cases hr
    have hinit : ∀ op, Accounted op [] (initSystem c.numThreads perThread) := by
      intro op
      have hzero : total (Worker.owes op) (initSystem c.numThreads perThread).worker = 0 :=
        total_eq_zero fun _ => rfl
      refine ⟨?_, fun t => Nat.zero_le 1, ?_⟩
      · rw [hzero]
        cases op <;> rfl
      · cases op <;> exact le_rfl
    refine ⟨hinit _, hinit _, ?_, ?_⟩
    · simp only [outCount_nil]
      push_cast
      linarith
    · simp only [outCount_nil]
      push_cast
      nlinarith
  | append_singleton es e ih =>
    obtain ⟨u, hu, he⟩ := run_snoc_iff.mp hr
    obtain ⟨hes, hge⟩ := (guarded_snoc_iff hu).mp hg
    rw [List.mem_append, not_or, List.mem_singleton] at hrep
    obtain ⟨hread, hwr, hmix⟩ := ih hu hes hrep.1
    have hmv := workerStep_moved he
    have hne : e ≠ .cumulativeReport := fun heq => hrep.2 heq.symm
    exact ⟨hread.step (.inl rfl) hio (fun _ => hwrite) hge hne hmv,
      hwr.step (.inr rfl) hio (fun _ => hwrite) hge hne hmv, hmix.step hm hrho hread hwr hge hmv⟩

/-! ## Short runs -/

/-- The counters are no larger than the number of steps. -/
theorem counted_le_length (hop : op = .read ∨ op = .write) {perThread : ℕ → PerThread}
    {es : List (Event c.numThreads)} {s : System c.numThreads}
    (hr : run (workerStep c) (initSystem _ perThread) es = some s) (hlen : es.length < 2 ^ 29) :
    0 ≤ s.vars.stats.counted op ∧ s.vars.stats.counted op ≤ es.length := by
  refine run_invariant (I := fun es (s : System c.numThreads) => es.length < 2 ^ 29 →
    0 ≤ s.vars.stats.counted op ∧ s.vars.stats.counted op ≤ es.length) ?_ ?_ hr hlen
  · rcases hop with rfl | rfl <;> exact fun _ => ⟨le_rfl, le_rfl⟩
  · intro es s e u hs hle he hlen
    rw [List.length_append, List.length_singleton] at hlen ⊢
    obtain ⟨h0, hle⟩ := hle (by omega)
    have hsame : u.vars.stats.counted op = s.vars.stats.counted op →
        0 ≤ u.vars.stats.counted op ∧ u.vars.stats.counted op ≤ (es.length + 1 : ℕ) := by
      intro heq
      rw [heq]
      omega
    cases workerStep_moved he with
    | get hw hget =>
      exact hsame (congrArg _ (fileGetRequest_served (workers_isDirty hs) hget).stats)
    | @act t a r todo hw =>
      have hcount := counted_count hop a h0 (by norm_num; omega)
      simp only [System.setWorker, System.setStats, hcount]
      split_ifs <;> omega
    | fail hw => exact hsame rfl
    | ret hw => exact hsame rfl
    | refused hw => exact hsame rfl
    | stop hw => exact hsame rfl
    | intermediateReport =>
      refine hsame ?_
      rcases hop with rfl | rfl <;> rfl
    | cumulativeReport =>
      have hzero : clearStats.counted op = 0 := by rcases hop with rfl | rfl <;> rfl
      simp only [System.setStats, hzero]
      omega

/-- For a ratio that is a `float`, every run of fewer than `2 ^ 29` steps is in range. -/
theorem guarded_of_length_lt {m : ℕ} {k : ℤ} (hm : m < 2 ^ 24) (hrho : c.fileRwRatio = m * 2 ^ k)
    {perThread : ℕ → PerThread} {es : List (Event c.numThreads)} (hlen : es.length < 2 ^ 29) :
    Guarded (workerStep c) (MixGuard c) (initSystem _ perThread) es := by
  intro pre e s hpre hs
  have hpre := hpre.length_le
  rw [List.length_append, List.length_singleton] at hpre
  obtain ⟨hread0, hread⟩ := counted_le_length (.inl rfl) hs (by omega)
  obtain ⟨hwrite0, hwrite⟩ := counted_le_length (.inr rfl) hs (by omega)
  simp only [Stats.counted] at hread0 hread hwrite0 hwrite
  refine ⟨by norm_num; omega, by norm_num; omega, fun _ => ?_⟩
  rw [hrho, quotientLt_iff_of_float (by omega) (by norm_num; omega) (by omega) (by norm_num; omega) hm]
  push_cast
  rfl

/-! ## Where the bounds end -/

def mixConfig (numThreads : ℕ) : Config :=
  { smallConfig with
    toGlobals := ⟨.run, numThreads, 0, false⟩, fileFsyncFreq := 0, testMode := .rndRw }

theorem rndOperation_mixConfig (n : ℕ) (s : Vars) : rndOperation (mixConfig n) s =
    if quotientLt (toInt 32 (s.stats.readOps + 1)) (toInt 32 (s.stats.writeOps + 1)) 1 then .read
    else .write := by
  simp only [rndOperation, rndMode, mixConfig, smallConfig, if_true]
  split_ifs <;> simp_all

theorem mixConfig_get {n : ℕ} (s : Vars) (threadId : ℕ) :
    fileGetRequest (mixConfig n) s threadId [⟨0, sbMaxRnd_pos⟩] =
      some (.file ⟨0, 0, 4, rndOperation (mixConfig n) s⟩,
        { s with
          perThread := Function.update s.perThread threadId ⟨0, 0⟩
          reqPerformed := s.reqPerformed + 1
          isDirty := s.isDirty || rndOperation (mixConfig n) s = .write }) := by
  have hseq : ¬ SeqMode (mixConfig n) := by simp [SeqMode, mixConfig]
  have hloop : retryLoop (mixConfig n) scaleDraw s threadId (rndOperation (mixConfig n) s)
      [⟨0, sbMaxRnd_pos⟩] = some ⟨0, 0, 4, rndOperation (mixConfig n) s⟩ := by
    generalize rndOperation (mixConfig n) s = op
    simp only [retryLoop, scaleDraw_zero]
    rfl
  exact fileGetRequest_of_retry hseq (fun h => absurd h.1 (lt_irrefl 0)) (fun h => h.1 rfl) hloop

theorem run_round {s : System c.numThreads} {t : Fin c.numThreads} {draws : List Draw}
    {r : FileRequest} {a b : Action} {v : Vars} (hw : s.worker t = .idle)
    (hget : fileGetRequest c s.vars t draws = some (.file r, v))
    (hexec : fileExecuteRequest c r = .ok [a, b]) :
    ∃ u, run (workerStep c) s [.get t draws (.file r), .act t a, .act t b, .ret t] = some u ∧
      u.worker = s.worker ∧ u.vars.stats = b.count (a.count v.stats) := by
  refine ⟨⟨{ v with stats := b.count (a.count v.stats) }, s.worker⟩, ?_, rfl, rfl⟩
  rw [run_cons, workerStep_get hw hget]
  simp [workerStep, taken, hexec, System.setWorker, System.setStats, ← hw]

def mixRound (op : FileOp) (a b : Action) : List (Event (mixConfig 1).numThreads) :=
  [.get (0 : Fin 1) [⟨0, sbMaxRnd_pos⟩] (.file ⟨0, 0, 4, op⟩), .act (0 : Fin 1) a,
    .act (0 : Fin 1) b, .ret (0 : Fin 1)]

/-- Between two requests of the worker, after `R` reads and `W` writes. -/
structure SingleRun (R W : ℕ) (es : List (Event (mixConfig 1).numThreads))
    (s : System (mixConfig 1).numThreads) : Prop where
  run : run (workerStep (mixConfig 1)) (initSystem _ fun _ => ⟨0, 0⟩) es = some s
  idle : ∀ t, s.worker t = .idle
  readOps : s.vars.stats.readOps = toInt 32 R
  writeOps : s.vars.stats.writeOps = toInt 32 W
  reads : outCount .read es = R
  writes : outCount .write es = W
  noReport : Event.cumulativeReport ∉ es

def Reaches (R W : ℕ) : Prop := ∃ es s, SingleRun R W es s

theorem reaches_zero : Reaches 0 0 :=
  ⟨[], _, ⟨rfl, fun _ => rfl, rfl, rfl, rfl, rfl, List.not_mem_nil⟩⟩

theorem Reaches.round {R W R' W' : ℕ} (h : Reaches R W) {op : FileOp}
    (hop : (if quotientLt (toInt 32 (R + 1)) (toInt 32 (W + 1)) 1 then .read else .write) = op)
    {a b : Action} (hexec : fileExecuteRequest (mixConfig 1) ⟨0, 0, 4, op⟩ = .ok [a, b])
    (hR : R + outCount .read (mixRound op a b) = R') (hW : W + outCount .write (mixRound op a b) = W')
    (hreads : ∀ st : Stats, st.readOps = toInt 32 R → (b.count (a.count st)).readOps = toInt 32 R')
    (hwrites : ∀ st : Stats, st.writeOps = toInt 32 W →
      (b.count (a.count st)).writeOps = toInt 32 W') : Reaches R' W' := by
  obtain ⟨es, s, h⟩ := h
  have hget := mixConfig_get (n := 1) s.vars 0
  rw [rndOperation_mixConfig, h.readOps, h.writeOps, toInt_toInt_add, toInt_toInt_add, hop] at hget
  obtain ⟨u, hu, hworker, hstats⟩ := run_round (c := mixConfig 1) (t := (0 : Fin 1)) (h.idle _) hget
    hexec
  refine ⟨es ++ mixRound op a b, u, run_append_iff.mpr ⟨s, h.run, hu⟩, ?_, ?_, ?_, ?_, ?_, ?_⟩
  · rw [hworker]
    exact h.idle
  · rw [hstats]
    exact hreads _ h.readOps
  · rw [hstats]
    exact hwrites _ h.writeOps
  · rw [outCount_append, h.reads, hR]
  · rw [outCount_append, h.writes, hW]
  · simp [mixRound, h.noReport]

theorem Reaches.read {R W : ℕ} (h : Reaches R W)
    (hlt : quotientLt (toInt 32 (R + 1)) (toInt 32 (W + 1)) 1) : Reaches (R + 1) W := by
  refine h.round (a := .pread 0 4 0) (b := .countRead 4) (if_pos hlt) rfl rfl rfl ?_ fun st hst => hst
  intro st hst
  simp only [Action.count, hst, toInt_toInt_add, Nat.cast_add, Nat.cast_one]

theorem Reaches.write {R W : ℕ} (h : Reaches R W)
    (hge : ¬ quotientLt (toInt 32 (R + 1)) (toInt 32 (W + 1)) 1) : Reaches R (W + 1) := by
  refine h.round (a := .pwrite 0 4 0) (b := .countWrite 4) (if_neg hge) rfl rfl rfl
    (fun st hst => hst) ?_
  intro st hst
  simp only [Action.count, hst, toInt_toInt_add, Nat.cast_add, Nat.cast_one]

/-! Comparisons with the ratio one. -/

theorem quotientLt_one_of_lt {a b : ℤ} (ha : 0 < a) (hlt : a < b) (hb : b < 2 ^ 31) :
    quotientLt a b 1 := by
  have hbq : (0 : ℚ) < b := by exact_mod_cast ha.trans hlt
  have haq : (0 : ℚ) < a := by exact_mod_cast ha
  have hstep : (a : ℚ) + 1 ≤ b := by exact_mod_cast hlt
  have hb' : (b : ℚ) < 2 ^ 31 := by exact_mod_cast hb
  refine .inr ⟨(ha.trans hlt).ne', ?_⟩
  rw [signedNearest_of_nonneg (by positivity)]
  have hle : (a : ℚ) / b ≤ (2 ^ 31 - 1 : ℕ) * 2 ^ (-31 : ℤ) := by
    rw [div_le_iff₀ hbq]
    norm_num
    linarith
  refine (nearest_le (by norm_num) (by positivity) hle).trans_lt ?_
  norm_num

theorem quotientLt_one_of_neg {a b : ℤ} (ha : 0 < a) (hb : b < 0) : quotientLt a b 1 := by
  have hneg : (a : ℚ) / b < 0 := div_neg_of_pos_of_neg (by exact_mod_cast ha) (by exact_mod_cast hb)
  exact .inr ⟨hb.ne, (signedNearest_nonpos hneg).trans_lt one_pos⟩

theorem not_quotientLt_one {a b : ℤ} (hb : b ≠ 0) (h : 1 ≤ (a : ℚ) / b) : ¬ quotientLt a b 1 := by
  have hle : ((1 : ℕ) * 2 ^ (0 : ℤ) : ℚ) ≤ nearest (a / b) := le_nearest (by norm_num) (by simpa using h)
  rintro (⟨hz, -⟩ | ⟨-, hlt⟩)
  · exact hb hz
  · rw [signedNearest_of_nonneg (zero_le_one.trans h)] at hlt
    simp at hle
    linarith

theorem reaches_turns {k : ℕ} (hk : k ≤ 2 ^ 31 - 2) : Reaches k k := by
  induction k with
  | zero => exact reaches_zero
  | succ k ih =>
    have hone : toInt 32 ((k : ℤ) + 1) = (k : ℤ) + 1 :=
      toInt_of_range (by decide) (by norm_num; omega) (by norm_num; omega)
    have htwo : toInt 32 (((k + 1 : ℕ) : ℤ) + 1) = (k : ℤ) + 2 := by
      rw [toInt_of_range (by decide) (by norm_num; omega) (by norm_num; omega)]
      push_cast
      ring
    have hwrite : Reaches k (k + 1) := by
      refine (ih (by omega)).write ?_
      rw [hone]
      have hne : (((k : ℤ) + 1 : ℤ) : ℚ) ≠ 0 := by exact_mod_cast Nat.succ_ne_zero k
      exact not_quotientLt_one (by omega) (div_self hne).ge
    refine hwrite.read ?_
    rw [hone, htwo]
    exact quotientLt_one_of_lt (by omega) (by omega) (by norm_num; omega)

/-- After as many of both as the counters hold, two writes in a row are handed out. -/
theorem reaches_overflow : Reaches (2 ^ 31 - 1) (2 ^ 31 + 1) := by
  have hmax : toInt 32 (((2 ^ 31 - 2 : ℕ) : ℤ) + 1) = 2 ^ 31 - 1 := by decide
  have hmin : toInt 32 (((2 ^ 31 - 1 : ℕ) : ℤ) + 1) = -2 ^ 31 := by decide
  have hnext : toInt 32 (((2 ^ 31 : ℕ) : ℤ) + 1) = -2 ^ 31 + 1 := by decide
  have h1 : Reaches (2 ^ 31 - 2) (2 ^ 31 - 1) := by
    refine (reaches_turns le_rfl).write ?_
    rw [hmax]
    exact not_quotientLt_one (by decide) (by norm_num)
  have h2 : Reaches (2 ^ 31 - 1) (2 ^ 31 - 1) := by
    refine h1.read ?_
    rw [hmax, hmin]
    exact quotientLt_one_of_neg (by decide) (by decide)
  have h3 : Reaches (2 ^ 31 - 1) (2 ^ 31) := by
    refine h2.write ?_
    rw [hmin]
    exact not_quotientLt_one (by decide) (by norm_num)
  refine h3.write ?_
  rw [hmin, hnext]
  exact not_quotientLt_one (by decide) (by norm_num)

/-- With the ratio one, a write too many is handed out when the counters overflow. -/
theorem not_workers_mixed : ∃ g o c, parseArguments g o = .ok c ∧ c.testMode = .rndRw ∧
    0 < c.fileRwRatio ∧ 0 < c.numThreads ∧ c.fileIoMode ≠ .async ∧
    ∃ (es : List (Event c.numThreads)) (s : System c.numThreads),
      run (workerStep c) (initSystem _ fun _ => ⟨0, 0⟩) es = some s ∧ Event.cumulativeReport ∉ es ∧
      ¬ c.fileRwRatio * outCount .write es ≤
        outCount .read es + 1 + c.fileRwRatio * (c.numThreads - 1) := by
  obtain ⟨es, s, h⟩ := reaches_overflow
  refine ⟨⟨.run, 1, 0, false⟩, { smallOptions with
      fileFsyncFreq := 0, fileTestMode := some "rndrw" }, mixConfig 1, rfl, rfl, by decide, by decide,
    by decide, es, s, h.run, h.noReport, ?_⟩
  rw [h.reads, h.writes]
  norm_num [mixConfig, smallConfig]

/-- The second worker's request is counted before the first one asks. -/
def mixEvents : List (Event (mixConfig 2).numThreads) :=
  [.get (1 : Fin 2) [⟨0, sbMaxRnd_pos⟩] (.file ⟨0, 0, 4, .write⟩),
    .act (1 : Fin 2) (.pwrite 0 4 0), .act (1 : Fin 2) (.countWrite 4),
    .get (0 : Fin 2) [⟨0, sbMaxRnd_pos⟩] (.file ⟨0, 0, 4, .read⟩)]

theorem workers_mixed_small :
    (outCount .read mixEvents : ℚ) < 1 * (outCount .write mixEvents + 1) + ((2 : ℕ) - 1) ∧
      (1 : ℚ) * outCount .write mixEvents ≤ outCount .read mixEvents + 1 + 1 * ((2 : ℕ) - 1) := by
  have hrun : (run (workerStep (mixConfig 2)) (initSystem _ fun _ => ⟨0, 0⟩) mixEvents).isSome := by
    decide +kernel
  obtain ⟨s, hs⟩ := Option.isSome_iff_exists.mp hrun
  exact workers_mixed (c := mixConfig 2) rfl (by decide) (by decide) (by decide) hs
    (guarded_of_length_lt (m := 1) (k := 0) (by decide) (by norm_num [mixConfig, smallConfig])
      (by decide)) (by decide)

end Sysbench.Fileio
