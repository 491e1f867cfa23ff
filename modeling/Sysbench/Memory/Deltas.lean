import Sysbench.Memory.Budget

/-! # The reports of the memory test

An intermediate report prints what has come since the last one, a cumulative report prints the
counters and sets them back. It leaves `last_bytes` as it is.
-/
namespace Sysbench.Memory

open Runs Windows Words

variable {n : ℕ}

def MemoryEvent.reports : MemoryEvent n → Bool
  | .report _ _ => true
  | _ => false

def MemoryEvent.reportType : MemoryEvent n → Option StatType
  | .report type _ => some type
  | _ => none

def MemoryEvent.opsPrinted : MemoryEvent n → ℤ
  | .report .cumulative (ops :: _) => ops
  | _ => 0

def MemoryEvent.bytesPrinted : MemoryEvent n → ℤ
  | .report .cumulative [_, bytes] => bytes
  | _ => 0

def lastReport (es : List (MemoryEvent n)) : Option StatType :=
  es.reverse.findSome? MemoryEvent.reportType

def handedSinceReport (es : List (MemoryEvent n)) : ℕ := handedOut (since MemoryEvent.reports es)

def MemoryOptions.bytes (o : MemoryOptions) (requests : ℕ) : ℕ := o.blockSize.toNat * requests

/-- An intermediate report prints the bytes since the latest report before it. -/
def DeltaRight (o : MemoryOptions) (pre : List (MemoryEvent n)) : MemoryEvent n → Prop
  | .report .intermediate printed =>
    printed = [(o.bytes (handedSinceReport pre) : ℤ)] ∧ ∀ x ∈ printed, 0 ≤ x
  | _ => True

/-- The differences are right, and the cumulative reports and the counters account for all
requests. -/
structure ReportsRight (o : MemoryOptions) (es : List (MemoryEvent n)) (s : MemoryState n) :
    Prop where
  deltas : Throughout (DeltaRight o) es
  ops : (es.map MemoryEvent.opsPrinted).sum + s.stats.totalOps = handedOut es
  bytes : (es.map MemoryEvent.bytesPrinted).sum + s.stats.totalBytes = o.bytes (handedOut es)

/-- What a report counts fits into what it is printed as, an intermediate report does not find
`last_bytes` from before a cumulative one, and bytes are not dropped unprinted. -/
def ReportFits (o : MemoryOptions) (cfg : MemoryConfig) (pre : List (MemoryEvent n)) :
    MemoryEvent n → Prop
  | .report .intermediate _ =>
    o.bytes (handedSinceReport pre) < 2 ^ 63 ∧
      (lastReport pre = some .cumulative →
        ∀ s, run (memoryStep cfg) (initMemory n) pre = some s → s.stats.lastBytes = 0)
  | .report .cumulative _ =>
    handedSince pre < 2 ^ 31 ∧
      if cfg.memoryOper = .none then o.bytes (handedSince pre) = 0
      else o.bytes (handedSince pre) < 2 ^ 63
  | _ => True

/-- Every report fits, and so do the counters. -/
structure ReportsFit (o : MemoryOptions) (cfg : MemoryConfig) (es : List (MemoryEvent n)) :
    Prop where
  reports : Throughout (ReportFits o cfg) es
  ops : handedSince es < 2 ^ 32
  bytes : o.bytes (handedSince es) < 2 ^ 63

/-! ## The counters -/

variable {o : MemoryOptions} {cfg : MemoryConfig} {es : List (MemoryEvent n)} {e : MemoryEvent n}
  {s u : MemoryState n}

theorem handedSinceReport_snoc : handedSinceReport (es ++ [e]) =
    if e.reports then 0 else handedSinceReport es + e.handsOut.toNat := by
  rw [handedSinceReport, since_snoc]
  split
  · rfl
  · exact handedOut_snoc

theorem lastReport_snoc : lastReport (es ++ [e]) = e.reportType.or (lastReport es) := by
  rw [lastReport, List.reverse_append, List.reverse_singleton, List.singleton_append,
    List.findSome?_cons]
  cases e.reportType <;> rfl

/-- What the counters hold: all modulo the width of the words. `last_bytes` is the count at the
latest report unless that was cumulative. -/
structure Counted (o : MemoryOptions) (es : List (MemoryEvent n)) (stats : MemoryStats) : Prop where
  ops : stats.totalOps = toUInt 32 (handedSince es : ℕ)
  bytes : stats.totalBytes = toInt 64 (o.bytes (handedSince es) : ℕ)
  last : ∃ j : ℕ, stats.lastBytes = toInt 64 (o.bytes j : ℕ) ∧
    (lastReport es ≠ some .cumulative → handedSince es = j + handedSinceReport es)
  since : lastReport es = some .cumulative → handedSince es = handedSinceReport es

theorem memoryStep_getRequest {t : Fin n} {req : Option MemRequest}
    (he : memoryStep cfg s (.getRequest t req) = some u) :
    req = none ∧ u.stats = s.stats ∨
      req.isSome ∧ u.stats = { s.stats with
        totalOps := toUInt 32 (s.stats.totalOps + 1 : ℕ)
        totalBytes := toInt 64 (s.stats.totalBytes + cfg.memoryBlockSize) } := by
  obtain ⟨⟨-, hreq⟩, heq⟩ := Option.ite_none_right_eq_some.mp he
  cases heq
  subst hreq
  unfold memoryGetRequest
  split
  · exact Or.inl ⟨rfl, rfl⟩
  · exact Or.inr ⟨rfl, rfl⟩

theorem toInt_bytes_zero (o : MemoryOptions) : toInt 64 (o.bytes 0 : ℕ) = 0 :=
  toInt_natCast (by decide) (Nat.two_pow_pos _)

theorem toUInt_zero : toUInt 32 (0 : ℕ) = 0 := toUInt_natCast (Nat.two_pow_pos _)

theorem Counted.init (o : MemoryOptions) : Counted o ([] : List (MemoryEvent n)) ⟨0, 0, 0⟩ where
  ops := toUInt_zero.symm
  bytes := (toInt_bytes_zero o).symm
  last := ⟨0, (toInt_bytes_zero o).symm, fun _ => rfl⟩
  since h := by cases h

theorem Counted.step (hblock : cfg.memoryBlockSize = (o.blockSize.toNat : ℤ))
    (h : Counted o es s.stats) (he : memoryStep cfg s e = some u) :
    Counted o (es ++ [e]) u.stats := by
  obtain ⟨j, hlast, hj⟩ := h.last
  cases e with
  | getRequest t req =>
    have hsince : handedSince (es ++ [.getRequest t req]) = handedSince es + req.isSome.toNat :=
      handedSince_snoc
    have hreport : handedSinceReport (es ++ [.getRequest t req]) =
        handedSinceReport es + req.isSome.toNat := handedSinceReport_snoc
    have hlastReport : lastReport (es ++ [.getRequest t req]) = lastReport es := lastReport_snoc
    rcases memoryStep_getRequest he with ⟨rfl, hu⟩ | ⟨hsome, hu⟩
    · rw [hu]
      exact
        { ops := by rw [hsince]; exact h.ops
          bytes := by rw [hsince]; exact h.bytes
          last := ⟨j, hlast, fun hne => by rw [hsince, hreport]; exact hj (hlastReport ▸ hne)⟩
          since := fun heq => by rw [hsince, hreport]; exact h.since (hlastReport ▸ heq) }
    · rw [hsome, Bool.toNat_true] at hsince hreport
      rw [hu]
      refine ⟨?_, ?_, ⟨j, hlast, fun hne => ?_⟩, fun heq => ?_⟩
      · rw [hsince, h.ops, toUInt_toUInt_add]
      · rw [hsince, h.bytes, hblock, toInt_toInt_add, MemoryOptions.bytes, MemoryOptions.bytes,
          Nat.mul_succ]
        push_cast
        rfl
      · rw [hsince, hreport, hj (hlastReport ▸ hne), Nat.add_assoc]
      · rw [hsince, hreport, h.since (hlastReport ▸ heq)]
  | executeRequest t =>
    obtain ⟨req, -, rfl⟩ := memoryStep_executeRequest he
    have hsince : handedSince (es ++ [.executeRequest t]) = handedSince es := handedSince_snoc
    have hreport : handedSinceReport (es ++ [.executeRequest t]) = handedSinceReport es :=
      handedSinceReport_snoc
    have hlastReport : lastReport (es ++ [.executeRequest t]) = lastReport es := lastReport_snoc
    exact
      { ops := by rw [hsince]; exact h.ops
        bytes := by rw [hsince]; exact h.bytes
        last := ⟨j, hlast, fun hne => by rw [hsince, hreport]; exact hj (hlastReport ▸ hne)⟩
        since := fun heq => by rw [hsince, hreport]; exact h.since (hlastReport ▸ heq) }
  | report type printed =>
    obtain ⟨-, rfl⟩ := memoryStep_report he
    have hreport : handedSinceReport (es ++ [.report type printed]) = 0 := handedSinceReport_snoc
    have hlastReport : lastReport (es ++ [.report type printed]) = some type := lastReport_snoc
    cases type with
    | intermediate =>
      have hsince : handedSince (es ++ [.report .intermediate printed]) = handedSince es :=
        handedSince_snoc
      refine ⟨?_, ?_, ⟨handedSince es, h.bytes, fun _ => ?_⟩, fun heq => ?_⟩
      · rw [hsince]
        exact h.ops
      · rw [hsince]
        exact h.bytes
      · rw [hsince, hreport, Nat.add_zero]
      · rw [hlastReport] at heq
        cases heq
    | cumulative =>
      have hsince : handedSince (es ++ [.report .cumulative printed]) = 0 := handedSince_snoc
      refine ⟨?_, ?_, ⟨j, hlast, fun hne => ?_⟩, fun _ => ?_⟩
      · rw [hsince]
        exact toUInt_zero.symm
      · rw [hsince]
        exact (toInt_bytes_zero o).symm
      · exact absurd hlastReport hne
      · rw [hsince, hreport]

theorem run_counted (hblock : cfg.memoryBlockSize = (o.blockSize.toNat : ℤ))
    (hr : run (memoryStep cfg) (initMemory n) es = some s) : Counted o es s.stats :=
  run_invariant (I := fun es (s : MemoryState n) => Counted o es s.stats) (.init o)
    (fun _ _ _ _ _ hs he => hs.step hblock he) hr

/-! ## Intermediate reports -/

/-- A difference is right exactly if it fits and `last_bytes` is not from before a cumulative
report. -/
theorem deltaRight_iff (h : Counted o es s.stats) {printed : List ℤ}
    (hs : run (memoryStep cfg) (initMemory n) es = some s)
    (he : memoryStep cfg s (.report .intermediate printed) = some u) :
    DeltaRight o es (.report .intermediate printed) ↔
      ReportFits o cfg es (.report .intermediate printed) := by
  obtain ⟨rfl, -⟩ := memoryStep_report he
  have hlastBytes : (∀ t, run (memoryStep cfg) (initMemory n) es = some t → t.stats.lastBytes = 0) ↔
      s.stats.lastBytes = 0 :=
    ⟨fun hall => hall s hs, fun hzero t ht => by rwa [← Option.some.inj (hs.symm.trans ht)]⟩
  have hpositive : ∀ x ∈ [(o.bytes (handedSinceReport es) : ℤ)], 0 ≤ x := fun x hx => by
    rw [List.mem_singleton.mp hx]
    exact Int.natCast_nonneg _
  have hright : DeltaRight o es (.report .intermediate (memoryPrintStats cfg s.stats .intermediate).1) ↔
      toInt 64 (s.stats.totalBytes - s.stats.lastBytes) = o.bytes (handedSinceReport es) := by
    constructor
    · exact fun hdelta => List.head_eq_of_cons_eq hdelta.1
    · intro heq
      have hlist : (memoryPrintStats cfg s.stats .intermediate).1 =
          [(o.bytes (handedSinceReport es) : ℤ)] := congrArg (fun x => [x]) heq
      exact ⟨hlist, fun x hx => hpositive x (hlist ▸ hx)⟩
  obtain ⟨j, hlast, hj⟩ := h.last
  rw [hright, ReportFits, hlastBytes, h.bytes, hlast]
  by_cases hcum : lastReport es = some .cumulative
  · rw [h.since hcum, imp_iff_right hcum]
    exact toInt_sub_eq_iff (by decide) _
  · have hsplit : (o.bytes (handedSince es) : ℤ) - o.bytes j = o.bytes (handedSinceReport es) := by
      rw [hj hcum, MemoryOptions.bytes, MemoryOptions.bytes, MemoryOptions.bytes, Nat.mul_add]
      push_cast
      ring
    rw [toInt_sub_toInt, hsplit, and_iff_left fun h => absurd h hcum]
    exact toInt_natCast_eq_iff (by decide)

/-! ## Cumulative reports -/

theorem MemoryEvent.opsPrinted_of_not_resets (h : e.resets = false) : e.opsPrinted = 0 := by
  cases e with
  | getRequest t req => rfl
  | executeRequest t => rfl
  | report type printed =>
    cases type with
    | intermediate => rfl
    | cumulative => cases h

theorem MemoryEvent.bytesPrinted_of_not_resets (h : e.resets = false) : e.bytesPrinted = 0 := by
  cases e with
  | getRequest t req => rfl
  | executeRequest t => rfl
  | report type printed =>
    cases type with
    | intermediate => rfl
    | cumulative => cases h

/-- What the reports print never exceeds what they count, and what they count and what has come
since is what was handed out. -/
theorem sums_eq_iff (printed : MemoryEvent n → ℤ) (c : ℕ) (Fits : ℕ → Prop)
    (hother : ∀ e : MemoryEvent n, e.resets = false → printed e = 0)
    (hreset : ∀ es s e u, run (memoryStep cfg) (initMemory n) es = some s →
      memoryStep cfg s e = some u → e.resets = true →
        printed e ≤ (c * handedSince es : ℕ) ∧
          (printed e = (c * handedSince es : ℕ) ↔ Fits (handedSince es)))
    (hr : run (memoryStep cfg) (initMemory n) es = some s) :
    (es.map printed).sum + (c * handedSince es : ℕ) ≤ (c * handedOut es : ℕ) ∧
      ((es.map printed).sum + (c * handedSince es : ℕ) = (c * handedOut es : ℕ) ↔
        Throughout (fun pre e => e.resets = true → Fits (handedSince pre)) es) := by
  refine run_invariant (I := fun es (_ : MemoryState n) =>
    (es.map printed).sum + (c * handedSince es : ℕ) ≤ (c * handedOut es : ℕ) ∧
      ((es.map printed).sum + (c * handedSince es : ℕ) = (c * handedOut es : ℕ) ↔
        Throughout (fun pre e => e.resets = true → Fits (handedSince pre)) es)) ?_ ?_ hr
  · exact ⟨le_rfl, iff_of_true rfl throughout_nil⟩
  · rintro es s e u hs ⟨hle, hiff⟩ he
    rw [throughout_snoc_iff, ← hiff, List.map_append, List.sum_append, List.map_singleton,
      List.sum_singleton, handedSince_snoc, handedOut_snoc]
    cases hres : e.resets with
    | false =>
      rw [hother e hres, if_neg Bool.false_ne_true, Nat.mul_add, Nat.mul_add]
      push_cast at hle ⊢
      constructor
      · linarith
      · constructor
        · intro heq
          exact ⟨by linarith, nofun⟩
        · rintro ⟨heq, -⟩
          linarith
    | true =>
      obtain ⟨hprinted, hfits⟩ := hreset es s e u hs he hres
      have hnone : e.handsOut = false := by
        cases e with
        | getRequest t req => cases hres
        | executeRequest t => rfl
        | report type printed => rfl
      rw [if_pos rfl, hnone, Bool.toNat_false, Nat.mul_zero, Nat.add_zero, imp_iff_right rfl,
        ← hfits]
      push_cast at hle hprinted ⊢
      constructor
      · linarith
      · constructor
        · intro heq
          exact ⟨by linarith, by linarith⟩
        · rintro ⟨hsum, heq⟩
          linarith

theorem opsPrinted_cons (ops : ℤ) (bytes : List ℤ) :
    MemoryEvent.opsPrinted (n := n) (.report .cumulative (ops :: bytes)) = ops := rfl

theorem opsPrinted_spec (h : Counted o es s.stats) (he : memoryStep cfg s e = some u)
    (hres : e.resets = true) :
    e.opsPrinted ≤ (1 * handedSince es : ℕ) ∧
      (e.opsPrinted = (1 * handedSince es : ℕ) ↔ handedSince es < 2 ^ 31) := by
  cases e with
  | getRequest t req => cases hres
  | executeRequest t => cases hres
  | report type printed =>
    cases type with
    | intermediate => cases hres
    | cumulative =>
      obtain ⟨rfl, -⟩ := memoryStep_report he
      rw [memoryPrintStats, opsPrinted_cons, h.ops, toInt_toUInt, Nat.one_mul]
      exact ⟨toInt_natCast_le 32 _, toInt_natCast_eq_iff (by decide)⟩

theorem bytesPrinted_spec (h : Counted o es s.stats) (he : memoryStep cfg s e = some u)
    (hres : e.resets = true) :
    e.bytesPrinted ≤ (o.blockSize.toNat * handedSince es : ℕ) ∧
      (e.bytesPrinted = (o.blockSize.toNat * handedSince es : ℕ) ↔
        if cfg.memoryOper = .none then o.bytes (handedSince es) = 0
        else o.bytes (handedSince es) < 2 ^ 63) := by
  cases e with
  | getRequest t req => cases hres
  | executeRequest t => cases hres
  | report type printed =>
    cases type with
    | intermediate => cases hres
    | cumulative =>
      obtain ⟨rfl, -⟩ := memoryStep_report he
      by_cases hoper : cfg.memoryOper = .none
      · have hprinted : MemoryEvent.bytesPrinted (n := n)
            (.report .cumulative (memoryPrintStats cfg s.stats .cumulative).1) = 0 := by
          simp [memoryPrintStats, hoper, MemoryEvent.bytesPrinted]
        rw [hprinted, if_pos hoper]
        refine ⟨Int.natCast_nonneg _, ?_⟩
        rw [eq_comm, Int.natCast_eq_zero]
        rfl
      · have hprinted : MemoryEvent.bytesPrinted (n := n)
            (.report .cumulative (memoryPrintStats cfg s.stats .cumulative).1) =
              toInt 64 (o.bytes (handedSince es) : ℕ) := by
          rw [← h.bytes]
          simp [memoryPrintStats, hoper, MemoryEvent.bytesPrinted]
        rw [hprinted, if_neg hoper]
        exact ⟨toInt_natCast_le 64 _, toInt_natCast_eq_iff (by decide)⟩

/-! ## All reports -/

/-- The reports of a run are right exactly if every report finds what fits. -/
theorem reportsRight_iff {malloc : ℕ → ℕ → Bool} (hmalloc : MallocBounded malloc) (hn : 0 < n)
    (hinit : memoryInit malloc n o = .ok cfg)
    (hr : run (memoryStep cfg) (initMemory n) es = some s) :
    ReportsRight o es s ↔ ReportsFit o cfg es := by
  obtain ⟨hblock, -⟩ := memoryInit_block hmalloc hn hinit
  have hcounted := run_counted hblock hr
  have hops := sums_eq_iff MemoryEvent.opsPrinted 1 (fun k => k < 2 ^ 31)
    (fun _ => MemoryEvent.opsPrinted_of_not_resets)
    (fun _ _ _ _ hs he => opsPrinted_spec (run_counted hblock hs) he) hr
  have hbytes := sums_eq_iff MemoryEvent.bytesPrinted o.blockSize.toNat
    (fun k => if cfg.memoryOper = .none then o.bytes k = 0 else o.bytes k < 2 ^ 63)
    (fun _ => MemoryEvent.bytesPrinted_of_not_resets)
    (fun _ _ _ _ hs he => bytesPrinted_spec (run_counted hblock hs) he) hr
  simp only [Nat.one_mul] at hops
  have hcurrentOps : s.stats.totalOps ≤ handedSince es ∧
      (s.stats.totalOps = handedSince es ↔ handedSince es < 2 ^ 32) := by
    rw [hcounted.ops, toUInt_eq_mod]
    exact ⟨Nat.mod_le _ _, Nat.mod_eq_iff_lt (by decide)⟩
  have hcurrentBytes : s.stats.totalBytes ≤ (o.bytes (handedSince es) : ℕ) ∧
      (s.stats.totalBytes = (o.bytes (handedSince es) : ℕ) ↔ o.bytes (handedSince es) < 2 ^ 63) := by
    rw [hcounted.bytes]
    exact ⟨toInt_natCast_le 64 _, toInt_natCast_eq_iff (by decide)⟩
  have hreports : Throughout (ReportFits o cfg) es ↔ Throughout (DeltaRight o) es ∧
      Throughout (fun pre e => e.resets = true → handedSince pre < 2 ^ 31) es ∧
      Throughout (fun pre e => e.resets = true →
        if cfg.memoryOper = .none then o.bytes (handedSince pre) = 0
        else o.bytes (handedSince pre) < 2 ^ 63) es := by
    simp only [Throughout, ← forall_and]
    refine forall₃_congr fun pre e hpre => ?_
    obtain ⟨rest, rfl⟩ := hpre
    obtain ⟨t, ht, -⟩ := run_append_iff.mp hr
    obtain ⟨v, hv, he⟩ := run_snoc_iff.mp ht
    cases e with
    | getRequest t req => simp [ReportFits, DeltaRight, MemoryEvent.resets]
    | executeRequest t => simp [ReportFits, DeltaRight, MemoryEvent.resets]
    | report type printed =>
      cases type with
      | intermediate =>
        rw [deltaRight_iff (run_counted hblock hv) hv he]
        simp [MemoryEvent.resets]
      | cumulative => simp [ReportFits, DeltaRight, MemoryEvent.resets]
  constructor
  · rintro ⟨hdeltas, hsumOps, hsumBytes⟩
    have hcast : (s.stats.totalOps : ℤ) ≤ handedSince es := by exact_mod_cast hcurrentOps.1
    unfold MemoryOptions.bytes at hcurrentBytes hsumBytes
    refine ⟨hreports.mpr ⟨hdeltas, hops.2.mp ?_, hbytes.2.mp ?_⟩, hcurrentOps.2.mp ?_,
      hcurrentBytes.2.mp ?_⟩
    · linarith
    · linarith
    · have heq : (s.stats.totalOps : ℤ) = handedSince es := by linarith
      exact_mod_cast heq
    · linarith
  · rintro ⟨hfit, hsmallOps, hsmallBytes⟩
    obtain ⟨hdeltas, hallOps, hallBytes⟩ := hreports.mp hfit
    refine ⟨hdeltas, ?_, ?_⟩
    · rw [hcurrentOps.2.mpr hsmallOps]
      exact hops.2.mpr hallOps
    · rw [hcurrentBytes.2.mpr hsmallBytes]
      exact hbytes.2.mpr hallBytes

/-- The only block is reported, the counters are set back, and the next difference is taken from
`last_bytes`. -/
def resetEvents : List (MemoryEvent 1) :=
  [.getRequest (Fin.last 0) (some ⟨4, .global, .write⟩), .executeRequest (Fin.last 0),
    .report .intermediate [4], .report .cumulative [1, 4], .report .intermediate [-4]]

theorem resetEvents_run :
    run (memoryStep oneBlockConfig) (initMemory 1) resetEvents =
      some ⟨⟨0, 0, 0⟩, fun _ => .asking⟩ := by
  refine congrArg (fun threads => some (⟨⟨0, 0, 0⟩, threads⟩ : MemoryState 1)) (funext fun t => ?_)
  rw [Subsingleton.elim t (Fin.last 0)]
  rfl

theorem reportsRight_iff_reset :
    ReportsRight oneBlock resetEvents ⟨⟨0, 0, 0⟩, fun _ => .asking⟩ ↔
      ReportsFit oneBlock oneBlockConfig resetEvents :=
  reportsRight_iff (fun _ _ h => (of_decide_eq_true h).trans (by norm_num)) (by decide)
    memoryInit_oneBlock resetEvents_run

/-- No byte comes after the checkpoint, and the difference is printed as minus four bytes. -/
theorem not_reportsRight :
    memoryInit anySize 1 oneBlock = .ok oneBlockConfig ∧
      run (memoryStep oneBlockConfig) (initMemory 1) resetEvents =
        some ⟨⟨0, 0, 0⟩, fun _ => .asking⟩ ∧
      ¬ ReportsRight oneBlock resetEvents ⟨⟨0, 0, 0⟩, fun _ => .asking⟩ := by
  refine ⟨memoryInit_oneBlock, resetEvents_run, fun h => ?_⟩
  have hdelta := h.deltas (resetEvents.take 4) (.report .intermediate [-4]) List.prefix_rfl
  exact absurd (hdelta.2 (-4) List.mem_cons_self) (by decide)

end Sysbench.Memory
