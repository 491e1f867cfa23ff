import Sysbench.Machine.Words

/-! # Timers

The timers of `sb_timer.c`. Times and totals are 64-bit unsigned words. A call on an
uninitialized timer aborts the program, so it has no result; the warnings that the calls log
about odd orders of start and stop are left out.
-/
namespace Sysbench.Core

open Words

/-- `struct timespec`, as `clock_gettime` fills it. -/
structure Timespec where
  sec : ℤ
  nsec : ℤ
  deriving DecidableEq, Repr

def timespecDiff (a b : Timespec) : ℕ :=
  toUInt 64 ((a.sec - b.sec) * 1000000000 + (a.nsec - b.nsec))

inductive TimerState where
  | uninitialized | initialized | stopped | running
  deriving DecidableEq, Repr

structure SbTimer where
  timeStart : Timespec
  timeEnd : Timespec
  timeSplit : Timespec
  elapsed : ℕ
  minTime : ℕ
  maxTime : ℕ
  sumTime : ℕ
  events : ℕ
  queueTime : ℕ
  state : TimerState
  deriving DecidableEq, Repr

def uint64Max : ℕ := 2 ^ 64 - 1

def sbTimerUpdate (now : Timespec) (t : SbTimer) : SbTimer :=
  { t with
    timeEnd := now
    elapsed := toUInt 64 (timespecDiff now t.timeStart + t.queueTime : ℕ) }

/-- Reset the counters, but leave the current state intact. -/
def sbTimerReset (t : SbTimer) : SbTimer :=
  { t with minTime := uint64Max, maxTime := 0, sumTime := 0, events := 0, elapsed := 0, queueTime := 0 }

def sbTimerInit : SbTimer where
  timeStart := ⟨0, 0⟩
  timeEnd := ⟨0, 0⟩
  timeSplit := ⟨0, 0⟩
  elapsed := 0
  minTime := uint64Max
  maxTime := 0
  sumTime := 0
  events := 0
  queueTime := 0
  state := .initialized

def sbTimerStart (now : Timespec) (t : SbTimer) : Option SbTimer :=
  if t.state = .uninitialized then none
  else some { t with timeStart := now, timeSplit := now, state := .running }

def sbTimerStop (now : Timespec) (t : SbTimer) : Option SbTimer :=
  if t.state = .uninitialized then none
  else
    let t := sbTimerUpdate now t
    some
      { t with
        events := toUInt 64 (t.events + 1 : ℕ)
        sumTime := toUInt 64 (t.sumTime + t.elapsed : ℕ)
        minTime := if t.elapsed < t.minTime then t.elapsed else t.minTime
        maxTime := if t.maxTime < t.elapsed then t.elapsed else t.maxTime
        state := .stopped }

/-- `sb_timer_value`: the value, and the timer it leaves. -/
def sbTimerValue (now : Timespec) (t : SbTimer) : Option (ℕ × SbTimer) :=
  match t.state with
  | .initialized => some (0, t)
  | .stopped => some (t.elapsed, t)
  | .running => some ((sbTimerUpdate now t).elapsed, sbTimerUpdate now t)
  | .uninitialized => none

/-- `sb_timer_split`: the time since the last split, and the timer it leaves. A stopped timer
splits at its end. -/
def sbTimerSplit (now : Timespec) (t : SbTimer) : Option (ℕ × SbTimer) :=
  match t.state with
  | .initialized => some (0, t)
  | .stopped => some (timespecDiff t.timeEnd t.timeSplit, { t with timeSplit := t.timeEnd })
  | .running =>
    some (timespecDiff now t.timeSplit,
      { t with elapsed := timespecDiff now t.timeStart, timeSplit := now })
  | .uninitialized => none

def getAvgTime (t : SbTimer) : ℕ := if t.events = 0 then 0 else t.sumTime / t.events

/-- `merge_timers`. The fields that it does not sum are zeroed. -/
def mergeTimers (t1 t2 : SbTimer) : SbTimer where
  timeStart := ⟨0, 0⟩
  timeEnd := ⟨0, 0⟩
  timeSplit := ⟨0, 0⟩
  elapsed := toUInt 64 (t1.elapsed + t2.elapsed : ℕ)
  sumTime := toUInt 64 (t1.sumTime + t2.sumTime : ℕ)
  events := toUInt 64 (t1.events + t2.events : ℕ)
  maxTime := if t2.maxTime < t1.maxTime then t1.maxTime else t2.maxTime
  minTime := if t1.minTime < t2.minTime then t1.minTime else t2.minTime
  queueTime := 0
  state := .uninitialized

/-! ## What the totals say -/

/-- The totals of a timer are those of the elapsed times `xs`. -/
structure SbTimer.Records (t : SbTimer) (xs : Multiset ℕ) : Prop where
  events : t.events = toUInt 64 xs.card
  sumTime : t.sumTime = toUInt 64 xs.sum
  minTime : t.minTime = xs.fold min uint64Max
  maxTime : t.maxTime = xs.fold max 0

theorem sbTimerInit_records : sbTimerInit.Records 0 := ⟨rfl, rfl, rfl, rfl⟩

theorem sbTimerReset_records (t : SbTimer) : (sbTimerReset t).Records 0 := ⟨rfl, rfl, rfl, rfl⟩

variable {t t' : SbTimer} {xs ys : Multiset ℕ} {now : Timespec}

theorem sbTimerStart_records (h : t.Records xs) (hstart : sbTimerStart now t = some t') :
    t'.Records xs := by
  unfold sbTimerStart at hstart
  split_ifs at hstart
  cases hstart
  exact ⟨h.events, h.sumTime, h.minTime, h.maxTime⟩

theorem sbTimerStop_eq (hstop : sbTimerStop now t = some t') :
    t'.elapsed = toUInt 64 (timespecDiff now t.timeStart + t.queueTime : ℕ) ∧ t'.state = .stopped := by
  unfold sbTimerStop at hstop
  split_ifs at hstop
  cases hstop
  exact ⟨rfl, rfl⟩

theorem sbTimerStop_records (h : t.Records xs) (hstop : sbTimerStop now t = some t') :
    t'.Records (t'.elapsed ::ₘ xs) := by
  unfold sbTimerStop at hstop
  split_ifs at hstop
  cases hstop
  constructor
  · simp only [sbTimerUpdate, h.events, Multiset.card_cons, toUInt_toUInt_add]
  · have hsum : (sbTimerUpdate now t).sumTime = toUInt 64 xs.sum := h.sumTime
    rw [hsum, toUInt_toUInt_add, Multiset.sum_cons, add_comm]
  · simp only [sbTimerUpdate, h.minTime, Multiset.fold_cons_left, min_def]
    split_ifs <;> omega
  · simp only [sbTimerUpdate, h.maxTime, Multiset.fold_cons_left, max_def]
    split_ifs <;> omega

/-- Merging adds up, also when one of the timers has no events. -/
theorem mergeTimers_records (h : t.Records xs) (h' : t'.Records ys) :
    (mergeTimers t t').Records (xs + ys) := by
  have hmin : min uint64Max uint64Max = uint64Max := min_self _
  have hmax : max 0 0 = 0 := rfl
  constructor
  · simp only [mergeTimers, h.events, h'.events, Multiset.card_add, toUInt_add_toUInt]
  · simp only [mergeTimers, h.sumTime, h'.sumTime, Multiset.sum_add, toUInt_add_toUInt]
  · have hfold := Multiset.fold_add min uint64Max uint64Max xs ys
    simp only [min_self] at hfold
    rw [hfold, mergeTimers, h.minTime, h'.minTime, min_def]
    dsimp only
    split_ifs <;> omega
  · have hfold := Multiset.fold_add max 0 0 xs ys
    simp only [max_self] at hfold
    rw [hfold, mergeTimers, h.maxTime, h'.maxTime, max_def]
    dsimp only
    split_ifs <;> omega

theorem foldl_mergeTimers_records {ι : Type*} {timers : ι → SbTimer} {recorded : ι → Multiset ℕ}
    {l : List ι} (h : ∀ i ∈ l, (timers i).Records (recorded i)) (ht : t.Records xs) :
    (l.foldl (fun t i => mergeTimers t (timers i)) t).Records (xs + (l.map recorded).sum) := by
  induction l generalizing t xs with
  | nil => simpa using ht
  | cons i l ih =>
    rw [List.foldl_cons, List.map_cons, List.sum_cons, ← add_assoc]
    exact ih (fun j hj => h j (List.mem_cons_of_mem i hj))
      (mergeTimers_records ht (h i List.mem_cons_self))

/-- An operation that chooses one of its arguments finds the first element in an order. -/
theorem fold_mem {op : ℕ → ℕ → ℕ} [Std.Commutative op] [Std.Associative op] {r : ℕ → ℕ → Prop}
    [IsTrans ℕ r] (hchoice : ∀ a b, op a b = a ∨ op a b = b)
    (hop : ∀ a b, r (op a b) a ∧ r (op a b) b) {m : ℕ} {xs : Multiset ℕ} (hne : xs ≠ 0)
    (hm : ∀ x ∈ xs, op x m = x ∧ r x x) :
    xs.fold op m ∈ xs ∧ ∀ x ∈ xs, r (xs.fold op m) x := by
  induction xs using Multiset.induction with
  | empty => exact absurd rfl hne
  | cons a xs ih =>
    rw [Multiset.fold_cons_left]
    by_cases hxs : xs = 0
    · subst hxs
      obtain ⟨ha, hrefl⟩ := hm a (Multiset.mem_cons_self a 0)
      simp [ha, hrefl]
    · obtain ⟨hmem, hfirst⟩ := ih hxs fun x hx => hm x (Multiset.mem_cons_of_mem hx)
      constructor
      · rcases hchoice a (xs.fold op m) with h | h
        · exact Multiset.mem_cons.mpr (.inl h)
        · rw [h]
          exact Multiset.mem_cons.mpr (.inr hmem)
      · intro x hx
        rcases Multiset.mem_cons.mp hx with rfl | hx
        · exact (hop _ _).1
        · exact IsTrans.trans _ _ _ (hop _ _).2 (hfirst x hx)

theorem fold_min_mem {m : ℕ} {xs : Multiset ℕ} (hne : xs ≠ 0) (hle : ∀ x ∈ xs, x ≤ m) :
    xs.fold min m ∈ xs ∧ ∀ x ∈ xs, xs.fold min m ≤ x :=
  fold_mem min_choice (fun a b => ⟨min_le_left a b, min_le_right a b⟩) hne
    fun x hx => ⟨min_eq_left (hle x hx), le_rfl⟩

theorem fold_max_mem {xs : Multiset ℕ} (hne : xs ≠ 0) :
    xs.fold max 0 ∈ xs ∧ ∀ x ∈ xs, x ≤ xs.fold max 0 :=
  fold_mem (r := (· ≥ ·)) max_choice (fun a b => ⟨le_max_left a b, le_max_right a b⟩) hne
    fun x _ => ⟨max_eq_left (Nat.zero_le x), le_rfl⟩

theorem SbTimer.Records.bounds (h : t.Records xs) (hne : xs ≠ 0) (hle : ∀ x ∈ xs, x < 2 ^ 64) :
    IsLeast {x | x ∈ xs} t.minTime ∧ IsGreatest {x | x ∈ xs} t.maxTime := by
  obtain ⟨hmin, hlow⟩ := fold_min_mem hne fun x hx => Nat.le_sub_one_of_lt (hle x hx)
  obtain ⟨hmax, hhigh⟩ := fold_max_mem hne
  rw [h.minTime, h.maxTime]
  exact ⟨⟨hmin, fun x hx => hlow x hx⟩, ⟨hmax, fun x hx => hhigh x hx⟩⟩

end Sysbench.Core
