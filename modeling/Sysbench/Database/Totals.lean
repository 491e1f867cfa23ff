import Sysbench.Database.Stats
import Sysbench.Machine.Runs
import Sysbench.Machine.Words

/-! # The totals of the database tests

A report sums up the counters of one thread after the other, each under the thread's mutex. A
cumulative report prints the sums and sets the counters to zero, one store after the other and
without the mutexes. Any number of reports may be under way. The counters and the sums are
`unsigned long`, but the sums are printed with `%d`.
-/
namespace Sysbench.Database.Totals

open Runs Pool Words

variable {m n : ℕ}

/-- Where a call of `db_print_stats` is, with what it has read of each thread's counters. -/
inductive Report (n : ℕ) where
  | idle
  | summing (type : StatType) (todo : List (Fin n)) (read : ThreadStats n)
  /-- the sums are printed -/
  | resetting (todo : List (Fin n × Counter)) (read : ThreadStats n)

structure TotalsState (m n : ℕ) where
  threadStats : ThreadStats n
  reports : Fin m → Report n
  /-- the sums that cumulative reports have given to `log_text` -/
  printed : List (Counter → ℕ)

inductive TotalsEvent (m n : ℕ) where
  /-- `db_update_thread_stats` -/
  | update (t : Fin n) (type : DbQueryType)
  | start (r : Fin m) (type : StatType)
  /-- the next section of report `r` -/
  | report (r : Fin m)
  deriving DecidableEq

def initTotals (m n : ℕ) : TotalsState m n := ⟨initStats, fun _ => .idle, []⟩

def stores (n : ℕ) : List (Fin n × Counter) :=
  List.finRange n ×ˢ [.readOps, .writeOps, .otherOps, .transactions, .errors, .reconnects]

def TotalsState.move (s : TotalsState m n) (r : Fin m) (report : Report n) : TotalsState m n :=
  { s with reports := Function.update s.reports r report }

def reportStep (s : TotalsState m n) (r : Fin m) : Option (TotalsState m n) :=
  match s.reports r with
  | .idle => none
  | .summing type (i :: todo) read =>
    some (s.move r (.summing type todo (Function.update read i (s.threadStats i))))
  | .summing .intermediate [] _ => some (s.move r .idle)
  | .summing .cumulative [] read =>
    some { s.move r (.resetting (stores n) read) with printed := s.printed ++ [read.sum] }
  | .resetting ((i, c) :: todo) read =>
    some { s.move r (.resetting todo read) with threadStats := s.threadStats.clear i c }
  | .resetting [] _ => some (s.move r .idle)

def totalsStep (s : TotalsState m n) : TotalsEvent m n → Option (TotalsState m n)
  | .update t type => some { s with threadStats := dbUpdateThreadStats t type s.threadStats }
  | .start r type =>
    match s.reports r with
    | .idle => some (s.move r (.summing type (List.finRange n) initStats))
    | _ => none
  | .report r => reportStep s r

def TotalsEvent.counters : TotalsEvent m n → List Counter
  | .update _ type => type.counters
  | _ => []

def performed (c : Counter) (es : List (TotalsEvent m n)) : ℕ :=
  es.countP fun e => c ∈ e.counters

/-- The sums for a counter in the cumulative reports, added up. -/
def TotalsState.summedTotal (s : TotalsState m n) (c : Counter) : ℕ :=
  (s.printed.map fun totals => totals c).sum

/-- What `%d` makes of an `unsigned long`. -/
def shown (v : ℕ) : ℤ := toInt 32 (toUInt 64 v)

/-- What the cumulative reports have printed for a counter, added up. -/
def TotalsState.printedTotal (s : TotalsState m n) (c : Counter) : ℤ :=
  (s.printed.map fun totals => shown (totals c)).sum

def TotalsState.contents (s : TotalsState m n) (c : Counter) : ℕ :=
  ∑ i, toUInt 64 (s.threadStats i c)

def Report.resets : Report n → Bool
  | .resetting _ _ => true
  | _ => false

/-- What a report has printed for a counter and not yet set to zero. -/
def Report.owed (c : Counter) : Report n → ℕ
  | .resetting todo read => (todo.map fun p => if p.2 = c then read p.1 c else 0).sum
  | _ => 0

def TotalsState.owed (s : TotalsState m n) (c : Counter) : ℕ := ∑ r, (s.reports r).owed c

/-- The counter that the step sets to zero, with what its report has read there. -/
def TotalsEvent.store (s : TotalsState m n) : TotalsEvent m n → Option (Fin n × Counter × ℕ)
  | .report r =>
    match s.reports r with
    | .resetting ((i, c) :: _) read => some (i, c, read i c)
    | _ => none
  | _ => none

def TotalsEvent.prints (s : TotalsState m n) : TotalsEvent m n → Option (Counter → ℕ)
  | .report r =>
    match s.reports r with
    | .summing .cumulative [] read => some read.sum
    | _ => none
  | _ => none

/-- A counter is set to zero as the report has read it. -/
def ClearsRead (s : TotalsState m n) (e : TotalsEvent m n) : Prop :=
  ∀ i c v, e.store s = some (i, c, v) → s.threadStats i c = v

/-- The sums that are printed and the counters after an update fit. -/
def Fits (s : TotalsState m n) (e : TotalsEvent m n) : Prop :=
  (∀ totals, e.prints s = some totals → ∀ c, totals c < 2 ^ 31) ∧
    ∀ t type, e = .update t type → ∀ c ∈ type.counters, s.threadStats t c + 1 < 2 ^ 64

def CountsWhole (s : TotalsState m n) (e : TotalsEvent m n) : Prop := ClearsRead s e ∧ Fits s e

/-- Every printed sum is shown as it is, and every counter holds its value. -/
def Whole (s : TotalsState m n) : Prop :=
  (∀ totals ∈ s.printed, ∀ c, totals c < 2 ^ 31) ∧ ∀ i c, s.threadStats i c < 2 ^ 64

/-- What a report is about to set to zero it has printed. -/
def Announced (s : TotalsState m n) : Prop :=
  ∀ r todo read, s.reports r = .resetting todo read → read.sum ∈ s.printed

/-- What is counted is printed or in the counters, and what is in both is owed. -/
def Balanced (es : List (TotalsEvent m n)) (s : TotalsState m n) : Prop :=
  ∀ c, s.summedTotal c + s.threadStats.sum c = performed c es + s.owed c

variable {es : List (TotalsEvent m n)} {e : TotalsEvent m n} {s u : TotalsState m n}

theorem performed_snoc (c : Counter) :
    performed c (es ++ [e]) = performed c es + if c ∈ e.counters then 1 else 0 := by
  rw [performed, List.countP_append, List.countP_singleton]
  simp [performed]

theorem nodup_stores : (stores n).Nodup := (List.nodup_finRange n).product (by decide)

/-- At the start of the reset everything that is printed is owed. -/
theorem owed_stores (read : ThreadStats n) (c : Counter) :
    Report.owed c (.resetting (stores n) read) = read.sum c := by
  have hlist : ∀ l : List (Fin n),
      ((l ×ˢ [Counter.readOps, .writeOps, .otherOps, .transactions, .errors, .reconnects]).map
        fun p => if p.2 = c then read p.1 c else 0).sum = (l.map fun i => read i c).sum := by
    intro l
    induction l with
    | nil => rfl
    | cons i l ih =>
      rw [List.product_cons, List.map_append, List.sum_append, ih]
      cases c <;> simp
  unfold ThreadStats.sum
  rw [Fin.sum_univ_def]
  exact hlist (List.finRange n)

theorem TotalsState.owed_move (s : TotalsState m n) (r : Fin m) (report : Report n) (c : Counter) :
    (s.move r report).owed c + (s.reports r).owed c = s.owed c + report.owed c :=
  sum_update (Report.owed c) s.reports r report

/-- What the step takes out of the counters. -/
def cleared (s : TotalsState m n) (e : TotalsEvent m n) (c : Counter) : ℕ :=
  match e.store s with
  | some (i, c', _) => if c' = c then s.threadStats i c else 0
  | none => 0

/-- What the step takes off what is owed. -/
def paid (s : TotalsState m n) (e : TotalsEvent m n) (c : Counter) : ℕ :=
  match e.store s with
  | some (_, c', v) => if c' = c then v else 0
  | none => 0

theorem clearsRead_iff : ClearsRead s e ↔ ∀ c, cleared s e c = paid s e c := by
  unfold ClearsRead cleared paid
  match e.store s with
  | none => simp
  | some (i, c', v) =>
    constructor
    · intro h c
      by_cases hc : c' = c
      · subst hc
        simpa using h i c' v rfl
      · simp [hc]
    · intro h i c v heq
      cases heq
      simpa using h c'

/-- A step moves both sides of the balance by the same amount, but for what it clears. -/
theorem totalsStep_sides (es : List (TotalsEvent m n)) (he : totalsStep s e = some u) (c : Counter) :
    ∃ d, u.summedTotal c + u.threadStats.sum c + cleared s e c =
        s.summedTotal c + s.threadStats.sum c + d ∧
      performed c (es ++ [e]) + u.owed c + paid s e c = performed c es + s.owed c + d := by
  rw [performed_snoc]
  cases e with
  | update t type =>
    cases he
    refine ⟨if c ∈ type.counters then 1 else 0, ?_, ?_⟩
    · have hsum := ThreadStats.sum_raise s.threadStats t type.counters c
      simp only [TotalsState.summedTotal, dbUpdateThreadStats, hsum, cleared, TotalsEvent.store]
      omega
    · change performed c es + (if c ∈ type.counters then 1 else 0) + s.owed c + 0 = _
      omega
  | start r type =>
    simp only [totalsStep] at he
    split at he <;> cases he
    next hidle =>
      have hmove := s.owed_move r (.summing type (List.finRange n) initStats) c
      rw [hidle] at hmove
      exact ⟨0, rfl, congrArg (performed c es + ·) hmove⟩
  | report r =>
    simp only [totalsStep, reportStep] at he
    split at he <;> cases he
    next type i todo read hphase =>
      have hmove := s.owed_move r
        (.summing type todo (Function.update read i (s.threadStats i))) c
      rw [hphase] at hmove
      simp only [cleared, paid, TotalsEvent.store, hphase]
      exact ⟨0, rfl, congrArg (performed c es + ·) hmove⟩
    next read hphase =>
      have hmove := s.owed_move r .idle c
      rw [hphase] at hmove
      simp only [cleared, paid, TotalsEvent.store, hphase]
      exact ⟨0, rfl, congrArg (performed c es + ·) hmove⟩
    next read hphase =>
      have hmove := s.owed_move r (.resetting (stores n) read) c
      rw [hphase, owed_stores] at hmove
      simp only [cleared, paid, TotalsEvent.store, hphase]
      refine ⟨read.sum c, ?_, ?_⟩
      · simp only [TotalsState.summedTotal, TotalsState.move, List.map_append, List.sum_append,
          List.map_singleton, List.sum_singleton]
        omega
      · exact (congrArg (performed c es + ·) hmove).trans (Nat.add_assoc _ _ _).symm
    next i c' todo read hphase =>
      have hmove := s.owed_move r (.resetting todo read) c
      have hclear := ThreadStats.sum_clear s.threadStats i c' c
      rw [hphase] at hmove
      simp only [Report.owed, List.map_cons, List.sum_cons] at hmove
      simp only [cleared, paid, TotalsEvent.store, hphase]
      refine ⟨0, ?_, ?_⟩
      · simp only [TotalsState.summedTotal, TotalsState.move]
        by_cases hc : c' = c
        · subst hc
          simp only [if_true] at hclear ⊢
          omega
        · simp only [if_neg hc] at hclear ⊢
          omega
      · change performed c es + 0 + (s.move r (.resetting todo read)).owed c + _ = _
        by_cases hc : c' = c
        · subst hc
          simp only [if_true] at hmove ⊢
          omega
        · simp only [if_neg hc] at hmove ⊢
          omega
    next read hphase =>
      have hmove := s.owed_move r .idle c
      rw [hphase] at hmove
      simp only [cleared, paid, TotalsEvent.store, hphase]
      exact ⟨0, rfl, congrArg (performed c es + ·) hmove⟩

theorem balanced_init : Balanced ([] : List (TotalsEvent m n)) (initTotals m n) := by
  intro c
  simp [initTotals, TotalsState.summedTotal, TotalsState.owed, Report.owed, performed,
    ThreadStats.sum_zero]

/-! ## Widths -/

theorem shown_le (v : ℕ) : shown v ≤ v := by
  rw [shown, toInt_toUInt_of_le (by decide)]
  exact toInt_natCast_le 32 v

theorem shown_eq_iff {v : ℕ} : shown v = v ↔ v < 2 ^ 31 := by
  rw [shown, toInt_toUInt_of_le (by decide)]
  exact toInt_natCast_eq_iff (by decide)

theorem stored_le (v : ℕ) : toUInt 64 v ≤ v := by
  rw [toUInt_eq_mod]
  exact Nat.mod_le _ _

theorem stored_eq_iff {v : ℕ} : toUInt 64 v = v ↔ v < 2 ^ 64 :=
  ⟨fun h => h ▸ toUInt_lt 64 v, toUInt_natCast⟩

theorem printedTotal_le (s : TotalsState m n) (c : Counter) : s.printedTotal c ≤ s.summedTotal c :=
  sum_map_le_cast (fun totals : Counter → ℕ => shown_le (totals c)) s.printed

theorem printedTotal_eq_iff (s : TotalsState m n) (c : Counter) :
    s.printedTotal c = s.summedTotal c ↔ ∀ totals ∈ s.printed, totals c < 2 ^ 31 := by
  simp only [← shown_eq_iff]
  exact sum_map_eq_cast_iff (fun totals : Counter → ℕ => shown_le (totals c)) s.printed

theorem contents_le (s : TotalsState m n) (c : Counter) : s.contents c ≤ s.threadStats.sum c :=
  Finset.sum_le_sum fun i _ => stored_le (s.threadStats i c)

theorem contents_eq_iff (s : TotalsState m n) (c : Counter) :
    s.contents c = s.threadStats.sum c ↔ ∀ i, s.threadStats i c < 2 ^ 64 := by
  unfold TotalsState.contents ThreadStats.sum
  rw [Finset.sum_eq_sum_iff_of_le fun i _ => stored_le (s.threadStats i c)]
  simp only [Finset.mem_univ, true_imp_iff, stored_eq_iff]

/-- Exactly if every width is kept, what can be seen is what the sums say. -/
theorem whole_iff (s : TotalsState m n) :
    Whole s ↔ ∀ c, s.printedTotal c = s.summedTotal c ∧ s.contents c = s.threadStats.sum c := by
  simp only [printedTotal_eq_iff, contents_eq_iff, Whole]
  constructor
  · rintro ⟨hprinted, hstats⟩ c
    exact ⟨fun totals htotals => hprinted totals htotals c, fun i => hstats i c⟩
  · intro h
    exact ⟨fun totals htotals c => (h c).1 totals htotals, fun i c => (h c).2 i⟩

theorem announced_init : Announced (initTotals m n) := by
  intro r todo read hphase
  cases hphase

theorem Announced.move {v : TotalsState m n} {report : Report n} {r : Fin m} (h : Announced s)
    (hprinted : ∀ totals ∈ s.printed, totals ∈ v.printed)
    (hreports : v.reports = (s.move r report).reports)
    (hreport : ∀ todo read, report = .resetting todo read → read.sum ∈ v.printed) :
    Announced v := by
  intro r' todo read hphase
  rw [hreports] at hphase
  by_cases hr : r' = r
  · subst hr
    simp only [TotalsState.move, Function.update_self] at hphase
    exact hreport todo read hphase
  · simp only [TotalsState.move, Function.update_of_ne hr] at hphase
    exact hprinted _ (h r' todo read hphase)

theorem totalsStep_announced (h : Announced s) (he : totalsStep s e = some u) : Announced u := by
  cases e with
  | update t type =>
    cases he
    exact h
  | start r type =>
    simp only [totalsStep] at he
    split at he <;> cases he
    exact h.move (fun _ h => h) rfl (by rintro todo read ⟨⟩)
  | report r =>
    simp only [totalsStep, reportStep] at he
    split at he <;> cases he
    next => exact h.move (fun _ h => h) rfl (by rintro todo read ⟨⟩)
    next => exact h.move (fun _ h => h) rfl (by rintro todo read ⟨⟩)
    next read hphase =>
      refine h.move (fun _ h => List.mem_append_left _ h) rfl ?_
      rintro todo read' ⟨⟩
      exact List.mem_append_right _ (List.mem_singleton.mpr rfl)
    next i c todo read hphase =>
      have hmem := h r _ read hphase
      refine h.move (fun _ h => h) rfl ?_
      rintro todo' read' ⟨⟩
      exact hmem
    next => exact h.move (fun _ h => h) rfl (by rintro todo read ⟨⟩)

theorem le_sum (stats : ThreadStats n) (i : Fin n) (c : Counter) : stats i c ≤ stats.sum c :=
  Finset.single_le_sum (f := fun i => stats i c) (fun _ _ => Nat.zero_le _) (Finset.mem_univ i)

theorem raise_lt_iff {stats : ThreadStats n} {t : Fin n} {cs : List Counter}
    (h : ∀ i c, stats i c < 2 ^ 64) :
    (∀ i c, stats.raise t cs i c < 2 ^ 64) ↔ ∀ c ∈ cs, stats t c + 1 < 2 ^ 64 := by
  unfold ThreadStats.raise
  constructor
  · intro hraise c hc
    simpa [hc] using hraise t c
  · intro hfit i c
    by_cases hi : i = t
    · subst hi
      rw [Function.update_self]
      split
      · next hc => exact hfit c hc
      · exact h i c
    · rw [Function.update_of_ne hi]
      exact h i c

theorem le_raise (stats : ThreadStats n) (t : Fin n) (cs : List Counter) (i : Fin n)
    (c : Counter) : stats i c ≤ stats.raise t cs i c := by
  unfold ThreadStats.raise
  by_cases hi : i = t
  · subst hi
    rw [Function.update_self]
    split <;> omega
  · rw [Function.update_of_ne hi]

/-- A store that finds what was read neither breaks a width nor repairs one, because what was
read has been printed. -/
theorem clear_lt_iff {stats : ThreadStats n} {i : Fin n} {c : Counter}
    (h : stats i c < 2 ^ 64) :
    (∀ j d, stats.clear i c j d < 2 ^ 64) ↔ ∀ j d, stats j d < 2 ^ 64 := by
  have hcell : ∀ j d, stats.clear i c j d = if j = i ∧ d = c then 0 else stats j d := by
    intro j d
    unfold ThreadStats.clear
    by_cases hj : j = i
    · subst hj
      rw [Function.update_self, Function.update_apply]
      simp
    · rw [Function.update_of_ne hj, if_neg fun heq => hj heq.1]
  simp only [hcell]
  constructor
  · intro hall j d
    by_cases heq : j = i ∧ d = c
    · obtain ⟨rfl, rfl⟩ := heq
      exact h
    · simpa only [if_neg heq] using hall j d
  · intro hall j d
    split
    · positivity
    · exact hall j d

/-- No step repairs a width, and those that fit break none. -/
theorem whole_step (hann : Announced s) (hread : ClearsRead s e) (he : totalsStep s e = some u) :
    Whole u ↔ Whole s ∧ Fits s e := by
  cases e with
  | update t type =>
    cases he
    have hfits : Fits s (.update t type) ↔ ∀ c ∈ type.counters, s.threadStats t c + 1 < 2 ^ 64 := by
      simp [Fits, TotalsEvent.prints]
    rw [hfits]
    constructor
    · rintro ⟨hprinted, hstats⟩
      have hall := fun i c => (le_raise s.threadStats t type.counters i c).trans_lt (hstats i c)
      exact ⟨⟨hprinted, hall⟩, (raise_lt_iff hall).mp hstats⟩
    · rintro ⟨⟨hprinted, hstats⟩, hfit⟩
      exact ⟨hprinted, (raise_lt_iff hstats).mpr hfit⟩
  | start r type =>
    have hfits : Fits s (.start r type) := by simp [Fits, TotalsEvent.prints]
    simp only [totalsStep] at he
    split at he <;> cases he
    exact (and_iff_left hfits).symm
  | report r =>
    simp only [totalsStep, reportStep] at he
    split at he <;> cases he
    next type i todo read hphase =>
      have hfits : Fits s (.report r) := by simp [Fits, TotalsEvent.prints, hphase]
      exact (and_iff_left hfits).symm
    next read hphase =>
      have hfits : Fits s (.report r) := by simp [Fits, TotalsEvent.prints, hphase]
      exact (and_iff_left hfits).symm
    next read hphase =>
      have hfits : Fits s (.report r) ↔ ∀ c, read.sum c < 2 ^ 31 := by
        simp [Fits, TotalsEvent.prints, hphase]
      rw [hfits]
      simp only [Whole, List.forall_mem_append, List.forall_mem_singleton, TotalsState.move]
      exact and_right_comm
    next i c todo read hphase =>
      have hfits : Fits s (.report r) := by simp [Fits, TotalsEvent.prints, hphase]
      have hcell : s.threadStats i c = read i c :=
        hread i c (read i c) (by simp [TotalsEvent.store, hphase])
      rw [and_iff_left hfits]
      refine and_congr_right fun hprinted => clear_lt_iff ?_
      have hsum := hprinted read.sum (hann r _ read hphase) c
      have hle := le_sum read i c
      rw [hcell]
      exact (hle.trans_lt hsum).trans (by norm_num)
    next read hphase =>
      have hfits : Fits s (.report r) := by simp [Fits, TotalsEvent.prints, hphase]
      exact (and_iff_left hfits).symm

/-- Any number of reports: if every store finds what its report has read and every width is kept,
nothing is lost and nothing is printed twice. -/
theorem Balanced.of_guarded
    (hg : Guarded totalsStep CountsWhole (initTotals m n) es)
    (hr : run totalsStep (initTotals m n) es = some s) : Balanced es s ∧ Whole s := by
  refine (hg.invariant (I := fun es s => Announced s ∧ Balanced es s ∧ Whole s)
    ⟨announced_init, balanced_init, ?_⟩ ?_ hr).2
  · exact ⟨fun totals h => absurd h List.not_mem_nil, fun i c => by simp [initTotals, initStats]⟩
  · rintro es s e u - ⟨hann, hbal, hwhole⟩ ⟨hread, hfits⟩ he
    refine ⟨totalsStep_announced hann he, fun c => ?_, (whole_step hann hread he).mpr ⟨hwhole, hfits⟩⟩
    obtain ⟨d, hleft, hright⟩ := totalsStep_sides es he c
    have hb := hbal c
    have hc := clearsRead_iff.mp hread c
    omega

/-! ## One report at a time -/

/-- The counters have not fallen below what a report has read and not yet set to zero. -/
def Report.Behind (stats : ThreadStats n) : Report n → Prop
  | .idle => True
  | .summing _ _ read => ∀ i c, read i c ≤ stats i c
  | .resetting todo read => todo.Nodup ∧ ∀ p ∈ todo, read p.1 p.2 ≤ stats p.1 p.2

theorem Report.Behind.mono {stats stats' : ThreadStats n} {report : Report n}
    (h : report.Behind stats) (hle : ∀ i c, stats i c ≤ stats' i c) : report.Behind stats' := by
  cases report with
  | idle => trivial
  | summing type todo read => exact fun i c => (h i c).trans (hle i c)
  | resetting todo read => exact ⟨h.1, fun p hp => (h.2 p hp).trans (hle _ _)⟩

theorem ThreadStats.clear_of_ne {stats : ThreadStats n} {t i : Fin n} {c c' : Counter}
    (h : (i, c') ≠ (t, c)) : stats.clear t c i c' = stats i c' := by
  unfold ThreadStats.clear
  by_cases hi : i = t
  · subst hi
    rw [Function.update_self]
    exact Function.update_of_ne (fun hc => h (by rw [hc])) _ _
  · rw [Function.update_of_ne hi]

theorem behind_init (r : Fin 1) :
    ((initTotals 1 n).reports r).Behind (initTotals 1 n).threadStats := trivial

theorem totalsStep_behind {s u : TotalsState 1 n} {e : TotalsEvent 1 n}
    (h : ∀ r, (s.reports r).Behind s.threadStats) (he : totalsStep s e = some u) (r : Fin 1) :
    (u.reports r).Behind u.threadStats := by
  have hmove : ∀ (r' : Fin 1) (report : Report n), (s.move r' report).reports r = report := by
    intro r' report
    obtain rfl : r' = r := Subsingleton.elim _ _
    exact Function.update_self _ _ _
  cases e with
  | update t type =>
    cases he
    exact (h r).mono (le_raise _ t _)
  | start r' type =>
    simp only [totalsStep] at he
    split at he <;> cases he
    rw [hmove]
    exact fun i c => Nat.zero_le _
  | report r' =>
    have hr' := h r'
    simp only [totalsStep, reportStep] at he
    split at he <;> cases he
    next type i todo read hphase =>
      rw [hphase] at hr'
      rw [hmove]
      intro j c
      by_cases hj : j = i
      · subst hj
        rw [Function.update_self]
        exact le_rfl
      · rw [Function.update_of_ne hj]
        exact hr' j c
    next read hphase =>
      rw [hmove]
      trivial
    next read hphase =>
      rw [hphase] at hr'
      change ((s.move r' _).reports r).Behind s.threadStats
      rw [hmove]
      exact ⟨nodup_stores, fun p _ => hr' p.1 p.2⟩
    next i c todo read hphase =>
      rw [hphase] at hr'
      change ((s.move r' _).reports r).Behind (s.threadStats.clear i c)
      rw [hmove]
      obtain ⟨hnodup, hle⟩ := hr'
      obtain ⟨hnot, hnodup⟩ := List.nodup_cons.mp hnodup
      refine ⟨hnodup, fun p hp => ?_⟩
      rw [ThreadStats.clear_of_ne (fun heq => hnot (heq ▸ hp))]
      exact hle p (List.mem_cons_of_mem _ hp)
    next read hphase =>
      rw [hmove]
      trivial

theorem paid_le_cleared {s : TotalsState 1 n} {e : TotalsEvent 1 n}
    (h : ∀ r, (s.reports r).Behind s.threadStats) (c : Counter) : paid s e c ≤ cleared s e c := by
  unfold paid cleared
  cases e with
  | report r =>
    have hr := h r
    match hphase : s.reports r with
    | .resetting ((i, c') :: todo) read =>
      rw [hphase] at hr
      simp only [TotalsEvent.store, hphase]
      split
      · next hc =>
        subst hc
        exact hr.2 (i, c') List.mem_cons_self
      · exact le_rfl
    | .resetting [] read => simp [TotalsEvent.store, hphase]
    | .idle => simp [TotalsEvent.store, hphase]
    | .summing type todo read => simp [TotalsEvent.store, hphase]
  | _ => exact le_rfl

theorem short_run {es : List (TotalsEvent 1 n)} {s : TotalsState 1 n}
    (hr : run totalsStep (initTotals 1 n) es = some s) :
    (∀ r, (s.reports r).Behind s.threadStats) ∧
      ∀ c, s.summedTotal c + s.threadStats.sum c ≤ performed c es + s.owed c := by
  refine run_invariant (I := fun es (s : TotalsState 1 n) => (∀ r,
    (s.reports r).Behind s.threadStats) ∧
    ∀ c, s.summedTotal c + s.threadStats.sum c ≤ performed c es + s.owed c)
    ⟨behind_init, fun c => (balanced_init c).le⟩ ?_ hr
  rintro es s e u - ⟨hbehind, hle⟩ he
  refine ⟨totalsStep_behind hbehind he, fun c => ?_⟩
  obtain ⟨d, hleft, hright⟩ := totalsStep_sides es he c
  have hpaid := paid_le_cleared (e := e) hbehind c
  have hc := hle c
  omega

theorem balanced_step {es : List (TotalsEvent 1 n)} {s u : TotalsState 1 n} {e : TotalsEvent 1 n}
    (hs : run totalsStep (initTotals 1 n) es = some s) (he : totalsStep s e = some u) :
    Balanced (es ++ [e]) u ↔ Balanced es s ∧ ClearsRead s e := by
  obtain ⟨hbehind, hshort⟩ := short_run hs
  rw [clearsRead_iff]
  constructor
  · intro hbal
    have hboth : ∀ c, s.summedTotal c + s.threadStats.sum c = performed c es + s.owed c ∧
        cleared s e c = paid s e c := by
      intro c
      obtain ⟨d, hleft, hright⟩ := totalsStep_sides es he c
      have hpaid := paid_le_cleared (e := e) hbehind c
      have hle := hshort c
      have hb := hbal c
      omega
    exact ⟨fun c => (hboth c).1, fun c => (hboth c).2⟩
  · rintro ⟨hbal, hclear⟩ c
    obtain ⟨d, hleft, hright⟩ := totalsStep_sides es he c
    have hb := hbal c
    have hc := hclear c
    omega

/-- With one report at a time the balance holds after no other runs. -/
theorem balanced_guarded {es : List (TotalsEvent 1 n)} {s : TotalsState 1 n}
    (hr : run totalsStep (initTotals 1 n) es = some s) :
    Balanced es s ∧ Whole s ↔ Guarded totalsStep CountsWhole (initTotals 1 n) es := by
  refine guarded_iff (P := fun es s => Balanced es s ∧ Whole s) ⟨balanced_init, ?_⟩ ?_ hr
  · exact ⟨fun totals h => absurd h List.not_mem_nil, fun i c => by simp [initTotals, initStats]⟩
  · intro es s e u hs he
    have hann : Announced s :=
      run_invariant (I := fun _ s => Announced s) announced_init
        (fun _ _ _ _ _ h he => totalsStep_announced h he) hs
    rw [balanced_step hs he, CountsWhole]
    constructor
    · rintro ⟨⟨hbal, hread⟩, hwhole⟩
      obtain ⟨hwhole, hfits⟩ := (whole_step hann hread he).mp hwhole
      exact ⟨⟨hbal, hwhole⟩, hread, hfits⟩
    · rintro ⟨⟨hbal, hwhole⟩, hread, hfits⟩
      exact ⟨⟨hbal, hread⟩, (whole_step hann hread he).mpr ⟨hwhole, hfits⟩⟩

theorem owed_eq_zero (hquiet : ∀ r, (s.reports r).resets = false) (c : Counter) : s.owed c = 0 := by
  refine Finset.sum_eq_zero fun r _ => ?_
  have hr := hquiet r
  cases hphase : s.reports r with
  | idle => rfl
  | summing type todo read => rfl
  | resetting todo read => simp [hphase, Report.resets] at hr

/-- Whenever no reset is under way, the printed totals and the counters add up to the updates, if
every store has found what its report had read and every printed sum and every counter has fitted.
With one report at a time they do so in no other run. -/
theorem totals_iff {es : List (TotalsEvent m n)} {s : TotalsState m n}
    (hr : run totalsStep (initTotals m n) es = some s)
    (hquiet : ∀ r, (s.reports r).resets = false) :
    (Guarded totalsStep CountsWhole (initTotals m n) es →
        ∀ c, s.printedTotal c + s.contents c = performed c es) ∧
      (m = 1 → (∀ c, s.printedTotal c + s.contents c = performed c es) →
        Guarded totalsStep CountsWhole (initTotals m n) es) := by
  have howed := owed_eq_zero hquiet
  constructor
  · intro hg c
    obtain ⟨hbal, hwhole⟩ := Balanced.of_guarded hg hr
    obtain ⟨hprinted, hcontents⟩ := (whole_iff s).mp hwhole c
    have hb := hbal c
    rw [howed, add_zero] at hb
    rw [hprinted, hcontents]
    exact_mod_cast hb
  · rintro rfl htotal
    refine (balanced_guarded hr).mp ?_
    have hparts : ∀ c, s.summedTotal c + s.threadStats.sum c = performed c es ∧
        s.printedTotal c = s.summedTotal c ∧ s.contents c = s.threadStats.sum c := by
      intro c
      have hshort := (short_run hr).2 c
      have hprinted := printedTotal_le s c
      have hcontents := contents_le s c
      have htotal := htotal c
      rw [howed] at hshort
      omega
    refine ⟨fun c => ?_, (whole_iff s).mpr fun c => (hparts c).2⟩
    rw [howed, add_zero]
    exact (hparts c).1

/-- A query succeeds between the summing and the reset. -/
def gapEvents : List (TotalsEvent 1 1) :=
  [.start 0 .cumulative, .report 0, .update 0 .read] ++ List.replicate 8 (.report 0)

theorem gapEvents_run : ∃ s, run totalsStep (initTotals 1 1) gapEvents = some s ∧
    (∀ r, (s.reports r).resets = false) ∧
      s.printedTotal .readOps + s.contents .readOps < performed .readOps gapEvents := by
  obtain ⟨s, hs, hquiet, hsummed, hstats⟩ :
      ∃ s, run totalsStep (initTotals 1 1) gapEvents = some s ∧
        (∀ r, (s.reports r).resets = false) ∧ s.summedTotal .readOps = 0 ∧
          s.threadStats.sum .readOps = 0 :=
    ⟨_, rfl, by decide, rfl, rfl⟩
  have hprinted := printedTotal_le s .readOps
  have hcontents := contents_le s .readOps
  have hperformed : performed .readOps gapEvents = 1 := by decide
  refine ⟨s, hs, hquiet, ?_⟩
  omega

theorem totals_gap : ∃ (es : List (TotalsEvent 1 1)) (s : TotalsState 1 1),
    run totalsStep (initTotals 1 1) es = some s ∧ (∀ r, (s.reports r).resets = false) ∧
      s.printedTotal .readOps + s.contents .readOps ≠ performed .readOps es := by
  obtain ⟨s, hs, hquiet, hlt⟩ := gapEvents_run
  exact ⟨gapEvents, s, hs, hquiet, hlt.ne⟩

theorem totals_iff_gap : ¬ Guarded totalsStep CountsWhole (initTotals 1 1) gapEvents := by
  obtain ⟨s, hs, hquiet, hlt⟩ := gapEvents_run
  exact fun hg => hlt.ne ((totals_iff hs hquiet).1 hg .readOps)

end Sysbench.Database.Totals
