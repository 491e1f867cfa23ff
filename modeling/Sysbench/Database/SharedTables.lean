import Sysbench.Database.Oltp
import Sysbench.Machine.SharedStore

/-! # The rows under many connections

The threads of the OLTP workload delete and insert rows of the same tables. With
`--oltp-skip-trx` every statement is committed at once, so two threads may have deleted the same
row, and the second insertion of it fails where the id is the primary key.
-/
namespace Sysbench.Database.Oltp

open CStrings Runs Transactions

variable {T : Type*} [DecidableEq T]

structure SharedState (T : Type*) where
  store : Shared T Tables
  phase : T → Phase

structure ThreadLabel (T : Type*) where
  t : T
  label : Label

/-! ## The server

Assumed of the server: a statement that reports an error has taken no effect, a failure may undo
the open transaction of its connection, and closing a connection undoes it. Outside of a
transaction a statement is committed when it succeeds.
-/

def Statement.performFor (q : Statement) (chosen : ℤ) (t : T) (s : Shared T Tables) :
    Shared T Tables :=
  match q with
  | .begin => s.begin t
  | .delete table id => s.change t (deleteRow table id)
  | .insert table id _ => s.change t (insertRow table (if 0 < id then id else chosen))
  | .commit => s.commit t
  | _ => s

/-- The driver closes a lost connection if its error is an ignored one. -/
def dropConnection (ignoredErrors : List CString) (f : Failure) (t : T) (s : Shared T Tables) :
    Shared T Tables :=
  if ignores ignoredErrors f.code ∧ f.code ∈ lostConnection then s.rollback t else s

def failFor (ignoredErrors : List CString) (f : Failure) (t : T) (s : Shared T Tables) :
    Shared T Tables :=
  dropConnection ignoredErrors f t (s.fail t f.whole)

/-- What is left of the store after the reply to a query of thread `t`. -/
def replyFor (ignoredErrors : List CString) (q : Statement) (t : T) (s : Shared T Tables) :
    Reply → Shared T Tables
  | .ok chosen none => q.performFor chosen t s
  | .ok chosen (some f) =>
    if q.hasResult then failFor ignoredErrors f t (q.performFor chosen t s)
    else q.performFor chosen t s
  | .error f => failFor ignoredErrors f t s

/-- With a primary key the server takes no id that is there. -/
def SharedState.admits (s : SharedState T) (unique : Bool) (l : ThreadLabel T) : Bool :=
  match l.label, s.phase l.t with
  | .reply (.ok chosen _), .running (.insert table id _ :: _) =>
    !unique || (s.store.session l.t).view table (if 0 < id then id else chosen) == 0
  | _, _ => true

def SharedState.answered (s : SharedState T) (ignoredErrors : List CString) (l : ThreadLabel T) :
    Shared T Tables :=
  match l.label, s.phase l.t with
  | .reply r, .running (q :: _) => replyFor ignoredErrors q l.t s.store r
  | _, _ => s.store

/-- `unique` is the opposite of `--oltp-secondary`. -/
def sharedStep (vars : Vars) (ignoredErrors : List CString) (unique : Bool) (s : SharedState T)
    (l : ThreadLabel T) : Option (SharedState T) :=
  if s.admits unique l then
    (step vars ignoredErrors ⟨s.store.session l.t, s.phase l.t⟩ l.label).map fun w =>
      ⟨s.answered ignoredErrors l, Function.update s.phase l.t w.phase⟩
  else none

def initShared (T : Type*) (tables : Tables) : SharedState T :=
  ⟨⟨tables, fun _ => none⟩, fun _ => .idle⟩

/-! ## One connection -/

section Connection

variable (ignoredErrors : List CString) (q : Statement) (t : T) (s : Shared T Tables)

@[simp] theorem session_performFor (chosen : ℤ) :
    (q.performFor chosen t s).session t = q.perform chosen (s.session t) := by
  cases q <;> simp [Statement.performFor, Statement.perform]

@[simp] theorem session_failFor (f : Failure) :
    (failFor ignoredErrors f t s).session t =
      (checkError ignoredErrors f ((s.session t).fail f.whole)).2 := by
  unfold failFor dropConnection checkError mysqlDrvReconnect
  by_cases hignored : ignores ignoredErrors f.code
  · by_cases hlost : f.code ∈ lostConnection
    · simp [hignored, hlost]
    · simp [hignored, hlost]
  · simp [hignored]

theorem session_replyFor (rest : List Statement) (r : Reply) :
    (replyFor ignoredErrors q t s r).session t =
      (replied ignoredErrors (s.session t) q rest r).session := by
  have hreplied : (replied ignoredErrors (s.session t) q rest r).session =
      (sbLuaDbQuery ignoredErrors q (s.session t) r).2 := by
    unfold replied
    split <;> simp_all
  rw [hreplied]
  cases r with
  | error f => rw [sbLuaDbQuery_error, replyFor, session_failFor]
  | ok chosen store =>
    cases store with
    | none => exact session_performFor q t s chosen
    | some f =>
      cases hresult : q.hasResult with
      | false => simp [replyFor, sbLuaDbQuery, mysqlDrvQuery, mysqlDrvStoreResults, hresult]
      | true => simp [replyFor, sbLuaDbQuery, mysqlDrvQuery, mysqlDrvStoreResults, hresult]

theorem opened_performFor {i : T} (h : i ≠ t) (chosen : ℤ) :
    (q.performFor chosen t s).opened i = s.opened i := by
  have hupdate : ∀ o, Function.update s.opened t o i = s.opened i :=
    fun o => Function.update_of_ne h _ _
  have hchange : ∀ f, (s.change t f).opened i = s.opened i := fun f => by
    unfold Shared.change
    split
    · exact hupdate _
    · rfl
  cases q with
  | begin => exact hupdate _
  | delete => exact hchange _
  | insert => exact hchange _
  | commit => exact hupdate _
  | _ => rfl

theorem opened_failFor {i : T} (h : i ≠ t) (f : Failure) :
    (failFor ignoredErrors f t s).opened i = s.opened i := by
  have hrollback : ∀ s : Shared T Tables, (s.rollback t).opened i = s.opened i :=
    fun s => Function.update_of_ne h _ _
  have hfail : (s.fail t f.whole).opened i = s.opened i := by
    unfold Shared.fail
    split
    · exact hrollback s
    · rfl
  unfold failFor dropConnection
  split
  · rw [hrollback, hfail]
  · exact hfail

theorem committed_failFor (f : Failure) :
    (failFor ignoredErrors f t s).committed = s.committed := by
  unfold failFor dropConnection Shared.fail
  split <;> split <;> rfl

theorem opened_replyFor {i : T} (h : i ≠ t) (r : Reply) :
    (replyFor ignoredErrors q t s r).opened i = s.opened i := by
  unfold replyFor
  split
  · exact opened_performFor q t s h _
  · split
    · rw [opened_failFor ignoredErrors t _ h, opened_performFor q t s h]
    · exact opened_performFor q t s h _
  · exact opened_failFor ignoredErrors t s h _

end Connection

def MovesOnly (t : T) (s u : SharedState T) : Prop :=
  ∀ i ≠ t, u.phase i = s.phase i ∧ u.store.opened i = s.store.opened i

section Cases

variable {vars : Vars} {ignoredErrors : List CString} {unique : Bool} {s u : SharedState T}
  {l : ThreadLabel T}

theorem sharedStep_cases (hu : sharedStep vars ignoredErrors unique s l = some u) :
    (∃ d, l.label = .attempt d ∧ (s.phase l.t = .idle ∨ s.phase l.t = .restarting) ∧
        u.store = s.store ∧ u.phase l.t = .before (vars.event d)) ∨
      ∃ r q rest, l.label = .reply r ∧ s.phase l.t = .running (q :: rest) ∧
        s.admits unique l = true ∧ u.store = replyFor ignoredErrors q l.t s.store r ∧
        u.phase l.t = (replied ignoredErrors (s.store.session l.t) q rest r).phase := by
  unfold sharedStep at hu
  split at hu
  · next hadmits =>
    obtain ⟨w, hw, rfl⟩ := Option.map_eq_some_iff.mp hu
    have hself := Function.update_self l.t w.phase s.phase
    obtain ⟨t, label⟩ := l
    cases label with
    | attempt d =>
      rw [step] at hw
      split at hw
      · next hphase =>
        cases hw
        exact .inl ⟨d, rfl, .inl hphase, rfl, hself⟩
      · next hphase =>
        cases hw
        exact .inl ⟨d, rfl, .inr hphase, rfl, hself⟩
      · cases hw
    | reply r =>
      rw [step] at hw
      split at hw
      · next q rest hphase =>
        have hrunning : s.phase t = .running (q :: rest) := hphase
        obtain rfl := Option.some.inj hw
        have hanswered : s.answered ignoredErrors ⟨t, .reply r⟩ =
            replyFor ignoredErrors q t s.store r := by
          simp [SharedState.answered, hrunning]
        exact .inr ⟨r, q, rest, rfl, hphase, hadmits, hanswered, hself⟩
      · cases hw
  · cases hu

theorem sharedStep_movesOnly (hu : sharedStep vars ignoredErrors unique s l = some u) :
    MovesOnly l.t s u := by
  intro i hi
  have hphase : u.phase i = s.phase i := by
    unfold sharedStep at hu
    split at hu
    · obtain ⟨w, -, rfl⟩ := Option.map_eq_some_iff.mp hu
      exact Function.update_of_ne hi _ _
    · cases hu
  rcases sharedStep_cases hu with ⟨d, -, -, hstore, -⟩ | ⟨r, q, rest, -, -, -, hstore, -⟩
  · exact ⟨hphase, by rw [hstore]⟩
  · exact ⟨hphase, by rw [hstore, opened_replyFor ignoredErrors q l.t s.store hi r]⟩

/-- A thread takes the steps of a connection of its own, on what the others have committed. -/
theorem sharedStep_session (hu : sharedStep vars ignoredErrors unique s l = some u) :
    step vars ignoredErrors ⟨s.store.session l.t, s.phase l.t⟩ l.label =
      some ⟨u.store.session l.t, u.phase l.t⟩ := by
  rcases sharedStep_cases hu with
    ⟨d, hlabel, hphase, hstore, hnext⟩ | ⟨r, q, rest, hlabel, hphase, -, hstore, hnext⟩
  · rw [hlabel, hstore, hnext]
    rcases hphase with hphase | hphase
    · simp [step, hphase]
    · simp [step, hphase]
  · rw [hlabel, hphase, hstore, hnext, session_replyFor ignoredErrors q l.t s.store rest r]
    simp [step]

end Cases

/-! ## The rows -/

/-- The change leaves a row as it is, or leaves it there exactly if its id is one of the table. -/
def Vars.SettlesRow (vars : Vars) (f : Tables → Tables) (table : ℕ) (id : ℤ) : Prop :=
  (∀ v, f v table id = v table id) ∨ ∀ v, f v table id = if vars.HasId id then 1 else 0

def Vars.Settles (vars : Vars) (f : Tables → Tables) : Prop :=
  ∀ table id, vars.SettlesRow f table id

/-- The change removes one row and settles the others. -/
def Vars.Removes (vars : Vars) (f : Tables → Tables) (table : ℕ) (id : ℤ) : Prop :=
  (∀ v, f v table id = 0) ∧ ∀ t i, ¬(t = table ∧ i = id) → vars.SettlesRow f t i

/-- The phase of a thread and the transaction that it has opened. -/
inductive Sits (vars : Vars) : Phase → Option (Tables → Tables) → Prop
  | idle {o : Option (Tables → Tables)} : (∀ f ∈ o, vars.Settles f) → Sits vars .idle o
  | restarting {o : Option (Tables → Tables)} :
      (∀ f ∈ o, vars.Settles f) → Sits vars .restarting o
  | running {o : Option (Tables → Tables)} {rest : List Statement} :
      (∀ f ∈ o, vars.Settles f) → Paired rest → Sits vars (.running rest) o
  | deleted {o : Option (Tables → Tables)} {table : ℕ} {id k : ℤ} {rest : List Statement} :
      (∀ f ∈ o, vars.Removes f table id) → Paired rest →
        Sits vars (.running (.insert table id k :: rest)) o
  | fatal (o : Option (Tables → Tables)) : Sits vars .fatal o

def SharedState.Between (s : SharedState T) (t : T) (table : ℕ) (id : ℤ) : Prop :=
  s.store.opened t = none ∧ ∃ k rest, s.phase t = .running (.insert table id k :: rest)

/-- How many rows may have an id. -/
def Vars.Here (vars : Vars) (unique : Bool) (count : ℕ) (id : ℤ) : Prop :=
  if vars.HasId id then 1 ≤ count ∧ (unique = true → count = 1) else count = 0

/-- A row of the tables is there, or a thread is about to insert it again. -/
def RowKept (vars : Vars) (unique : Bool) (s : SharedState T) (table : ℕ) (id : ℤ) : Prop :=
  vars.Here unique (s.store.committed table id) id ∨
    s.store.committed table id = 0 ∧ ∃ t, s.Between t table id

structure RowsKept (vars : Vars) (unique : Bool) (s : SharedState T) : Prop where
  sits : ∀ t, Sits vars (s.phase t) (s.store.opened t)
  rows : ∀ table, 1 ≤ table → table ≤ vars.tablesCount → ∀ id, RowKept vars unique s table id

/-- A row is inserted again only under an id of the table. If its insertion fails, then the row is
there or the transaction with its deletion is undone. -/
def RowReturnsFor (vars : Vars) (ignoredErrors : List CString) (s : SharedState T)
    (l : ThreadLabel T) : Prop :=
  match l.label with
  | .attempt _ => True
  | .reply r => ∀ table id k rest, s.phase l.t = .running (.insert table id k :: rest) →
    match r with
    | .ok _ _ => vars.HasId id
    | .error f => vars.HasId id →
      match s.store.opened l.t with
      | none => s.store.committed table id ≠ 0
      | some _ => ignores ignoredErrors f.code → f.whole = true ∨ f.code ∈ lostConnection

theorem Vars.settles_id (vars : Vars) : vars.Settles id := fun _ _ => .inl fun _ => rfl

section Changes

variable {vars : Vars} {f : Tables → Tables} {table : ℕ} {id : ℤ}

theorem Vars.SettlesRow.view (h : vars.SettlesRow f table id) (v : Tables) :
    f v table id = v table id ∨ f v table id = if vars.HasId id then 1 else 0 := by
  rcases h with h | h
  · exact .inl (h v)
  · exact .inr (h v)

theorem Vars.Settles.deleteRow (h : vars.Settles f) :
    vars.Removes (deleteRow table id ∘ f) table id := by
  refine ⟨fun v => ?_, fun t i hne => ?_⟩
  · simp [Oltp.deleteRow]
  · simpa only [SettlesRow, Function.comp_apply, Oltp.deleteRow, if_neg hne] using h t i

theorem Vars.Removes.insertRow (h : vars.Removes f table id) (hid : vars.HasId id) :
    vars.Settles (insertRow table id ∘ f) := by
  intro t i
  by_cases hrow : t = table ∧ i = id
  · obtain ⟨rfl, rfl⟩ := hrow
    exact .inr fun v => by simp [Oltp.insertRow, h.1, hid]
  · simpa only [SettlesRow, Function.comp_apply, Oltp.insertRow, if_neg hrow] using h.2 t i hrow

theorem Vars.Removes.settles (h : vars.Removes f table id) (hid : ¬vars.HasId id) :
    vars.Settles f := by
  intro t i
  by_cases hrow : t = table ∧ i = id
  · obtain ⟨rfl, rfl⟩ := hrow
    exact .inr fun v => by simp [h.1, hid]
  · exact h.2 t i hrow

end Changes

/-! ## Replies -/

/-- A step of thread `t` puts every row that it changes in its place. -/
structure Quiet (vars : Vars) (t : T) (s u : Shared T Tables) : Prop where
  committed : ∀ table id, u.committed table id = s.committed table id ∨
    u.committed table id = if vars.HasId id then 1 else 0
  settles : ∀ f ∈ u.opened t, vars.Settles f

section Replies

variable {vars : Vars} {ignoredErrors : List CString} {t : T} {s u w : Shared T Tables}

omit [DecidableEq T] in
theorem Quiet.trans (h : Quiet vars t s u) (h' : Quiet vars t u w) : Quiet vars t s w := by
  refine ⟨fun table id => ?_, h'.settles⟩
  rcases h'.committed table id with hsame | hset
  · rw [hsame]
    exact h.committed table id
  · exact .inr hset

omit [DecidableEq T] in
theorem quiet_self (h : ∀ f ∈ s.opened t, vars.Settles f) : Quiet vars t s s :=
  ⟨fun _ _ => .inl rfl, h⟩

theorem quiet_rollback (vars : Vars) (t : T) (s : Shared T Tables) :
    Quiet vars t s (s.rollback t) :=
  ⟨fun _ _ => .inl rfl, by simp [Shared.rollback]⟩

omit [DecidableEq T] in
/-- What the thread sees is what is committed, but for rows in their place. -/
theorem view_cases (h : ∀ f ∈ s.opened t, vars.Settles f) (table : ℕ) (id : ℤ) :
    (s.session t).view table id = s.committed table id ∨
      (s.session t).view table id = if vars.HasId id then 1 else 0 := by
  cases hopened : s.opened t with
  | none => exact .inl (congrFun₂ (Shared.view_of_none hopened) table id)
  | some f =>
    rw [Shared.view_of_some hopened]
    exact (h f hopened table id).view s.committed

theorem quiet_begin (h : ∀ f ∈ s.opened t, vars.Settles f) : Quiet vars t s (s.begin t) := by
  refine ⟨view_cases h, fun f hf => ?_⟩
  simp only [Shared.begin, Function.update_self, Option.mem_some_iff] at hf
  rw [← hf]
  exact vars.settles_id

theorem quiet_commit (h : ∀ f ∈ s.opened t, vars.Settles f) : Quiet vars t s (s.commit t) :=
  ⟨view_cases h, by simp [Shared.commit]⟩

theorem quiet_failFor (h : ∀ f ∈ s.opened t, vars.Settles f) (f : Failure) :
    Quiet vars t s (failFor ignoredErrors f t s) := by
  have hfail : Quiet vars t s (s.fail t f.whole) := by
    unfold Shared.fail
    split
    · exact quiet_rollback vars t s
    · exact quiet_self h
  unfold failFor dropConnection
  split
  · exact hfail.trans (quiet_rollback vars t _)
  · exact hfail

theorem quiet_performFor (h : ∀ f ∈ s.opened t, vars.Settles f) {q : Statement} (hq : q.Plain)
    (chosen : ℤ) : Quiet vars t s (q.performFor chosen t s) := by
  cases q with
  | begin => exact quiet_begin h
  | pointSelect => exact quiet_self h
  | rangeSelect => exact quiet_self h
  | indexUpdate => exact quiet_self h
  | nonIndexUpdate => exact quiet_self h
  | delete => exact hq.elim
  | insert => exact hq.elim
  | commit => exact quiet_commit h

theorem quiet_replyFor (h : ∀ f ∈ s.opened t, vars.Settles f) {q : Statement} (hq : q.Plain)
    (r : Reply) : Quiet vars t s (replyFor ignoredErrors q t s r) := by
  unfold replyFor
  split
  · exact quiet_performFor h hq _
  · have hperform := quiet_performFor h hq ‹ℤ›
    split
    · exact hperform.trans (quiet_failFor hperform.settles _)
    · exact hperform
  · exact quiet_failFor h _

theorem sits_before {o : Option (Tables → Tables)} (h : ∀ f ∈ o, vars.Settles f)
    {rest : List Statement} (hrest : Paired rest) : Sits vars (.before rest) o := by
  cases rest with
  | nil => exact .idle h
  | cons q rest => exact .running h hrest

theorem sits_error {o : Option (Tables → Tables)} (h : ∀ f ∈ o, vars.Settles f)
    (v : Session Tables) (q : Statement) (rest : List Statement) (f : Failure) :
    Sits vars (replied ignoredErrors v q rest (.error f)).phase o := by
  rcases replied_error_cases ignoredErrors v q rest f with
    hfatal | ⟨-, ⟨-, hreplied⟩ | ⟨-, hreplied⟩⟩
  · rw [hfatal]
    exact .fatal o
  · rw [hreplied]
    exact .restarting h
  · rw [hreplied]
    exact .restarting h

end Replies

/-! ## Steps -/

section Steps

variable {vars : Vars} {ignoredErrors : List CString} {unique : Bool} {s u : SharedState T} {t : T}
  {table : ℕ} {id : ℤ}

theorem Vars.here_set (vars : Vars) (unique : Bool) (id : ℤ) :
    vars.Here unique (if vars.HasId id then 1 else 0) id := by
  unfold Here
  split <;> simp

omit [DecidableEq T] in
/-- The other threads do not mind what a thread does to a row, if it puts it in its place. -/
theorem RowKept.of_thread (h : RowKept vars unique s table id)
    (hothers : MovesOnly t s u)
    (hnot : ¬s.Between t table id)
    (hcommitted : u.store.committed table id = s.store.committed table id ∨
      u.store.committed table id = if vars.HasId id then 1 else 0) :
    RowKept vars unique u table id := by
  rcases hcommitted with hsame | hset
  · rcases h with hhere | ⟨hzero, i, hopened, k, rest, hphase⟩
    · exact .inl (hsame ▸ hhere)
    · have hne : i ≠ t := by
        rintro rfl
        exact hnot ⟨hopened, k, rest, hphase⟩
      obtain ⟨hphase', hopened'⟩ := hothers i hne
      exact .inr ⟨hsame.trans hzero, i, hopened'.trans hopened, k, rest, hphase'.trans hphase⟩
  · exact .inl (hset ▸ vars.here_set unique id)

theorem RowsKept.of_thread (h : RowsKept vars unique s)
    (hothers : MovesOnly t s u)
    (hsits : Sits vars (u.phase t) (u.store.opened t))
    (hrows : ∀ table id, RowKept vars unique s table id → RowKept vars unique u table id) :
    RowsKept vars unique u := by
  refine ⟨fun i => ?_, fun table hpos hcount id => hrows table id (h.rows table hpos hcount id)⟩
  by_cases hi : i = t
  · exact hi ▸ hsits
  · obtain ⟨hphase, hopened⟩ := hothers i hi
    rw [hphase, hopened]
    exact h.sits i

omit [DecidableEq T] in
theorem not_between (h : ∀ table id k rest, s.phase t ≠ .running (.insert table id k :: rest)) :
    ¬s.Between t table id := fun ⟨_, k, rest, hphase⟩ => h table id k rest hphase

theorem RowsKept.of_quiet (h : RowsKept vars unique s)
    (hothers : MovesOnly t s u)
    (hphase : ∀ table id k rest, s.phase t ≠ .running (.insert table id k :: rest))
    (hquiet : Quiet vars t s.store u.store) (hsits : Sits vars (u.phase t) (u.store.opened t)) :
    RowsKept vars unique u :=
  h.of_thread hothers hsits fun table id hrow =>
    hrow.of_thread hothers (not_between hphase) (hquiet.committed table id)

omit [DecidableEq T] in
theorem rowsKept_start {tables : Tables} (hcomplete : vars.Complete tables) :
    RowsKept vars unique (initShared T tables) := by
  refine ⟨fun t => .idle (by simp [initShared]), fun table hpos hcount id => .inl ?_⟩
  have hrow : (initShared T tables).store.committed table id = _ := hcomplete table hpos hcount id
  rw [hrow]
  exact vars.here_set unique id

/-- Inside of a transaction a change is not seen by the others. -/
theorem RowsKept.of_change (h : RowsKept vars unique s) {f : Tables → Tables}
    (hothers : MovesOnly t s u)
    (hstore : u.store = s.store.change t f)
    (hopen : ∀ g, s.store.opened t = some g → Sits vars (u.phase t) (some (f ∘ g)))
    (hclosed : s.store.opened t = none → u.store.committed = f s.store.committed →
      u.store.opened t = none → Sits vars (u.phase t) none ∧
        ∀ table id, RowKept vars unique s table id → RowKept vars unique u table id) :
    RowsKept vars unique u := by
  cases hopened : s.store.opened t with
  | none =>
    rw [Shared.change_of_none hopened] at hstore
    have hnone : u.store.opened t = none := by rw [hstore]; exact hopened
    obtain ⟨hsits, hrows⟩ := hclosed hopened (by rw [hstore]) hnone
    exact h.of_thread hothers (hnone ▸ hsits) hrows
  | some g =>
    rw [Shared.change_of_some hopened] at hstore
    refine h.of_thread hothers ?_ fun table id hrow =>
      hrow.of_thread hothers (fun hbetween => ?_) (.inl (by rw [hstore]))
    · have hsome : u.store.opened t = some (f ∘ g) := by
        rw [hstore]
        exact Function.update_self _ _ _
      exact hsome ▸ hopen g hopened
    · rw [hbetween.1] at hopened
      cases hopened

theorem rowsKept_delete (h : RowsKept vars unique s) {k : ℤ} {rest : List Statement}
    (hphase : s.phase t = .running (.delete table id :: .insert table id k :: rest))
    (hsettles : ∀ f ∈ s.store.opened t, vars.Settles f) (hrest : Paired rest)
    (hothers : MovesOnly t s u)
    (hstore : u.store = s.store.change t (deleteRow table id))
    (hnext : u.phase t = .running (.insert table id k :: rest)) : RowsKept vars unique u := by
  refine h.of_change hothers hstore (fun g hg => ?_) fun _ hcommitted hnone => ⟨?_, ?_⟩
  · rw [hnext]
    refine .deleted (fun f hf => ?_) hrest
    rw [← Option.mem_some_iff.mp hf]
    exact (hsettles g hg).deleteRow
  · rw [hnext]
    exact .deleted (by simp) hrest
  · intro t' i hrow
    by_cases hsame : t' = table ∧ i = id
    · obtain ⟨rfl, rfl⟩ := hsame
      exact .inr ⟨by simp [hcommitted, deleteRow], t, hnone, k, rest, hnext⟩
    · refine hrow.of_thread hothers (not_between (by simp [hphase])) (.inl ?_)
      rw [hcommitted]
      exact if_neg hsame

theorem rowsKept_insert (h : RowsKept vars unique s) {k : ℤ} {rest : List Statement}
    (hphase : s.phase t = .running (.insert table id k :: rest))
    (hremoves : ∀ f ∈ s.store.opened t, vars.Removes f table id) (hrest : Paired rest)
    (hid : vars.HasId id)
    (hadmits : unique = true → (s.store.session t).view table id = 0)
    (hothers : MovesOnly t s u)
    (hstore : u.store = s.store.change t (insertRow table id))
    (hnext : u.phase t = .before rest) : RowsKept vars unique u := by
  refine h.of_change hothers hstore (fun g hg => ?_) fun hopened hcommitted hnone => ⟨?_, ?_⟩
  · rw [hnext]
    refine sits_before (fun f hf => ?_) hrest
    rw [← Option.mem_some_iff.mp hf]
    exact (hremoves g hg).insertRow hid
  · rw [hnext]
    exact sits_before (by simp) hrest
  · intro t' i hrow
    by_cases hsame : t' = table ∧ i = id
    · obtain ⟨rfl, rfl⟩ := hsame
      have hcount : u.store.committed t' i = s.store.committed t' i + 1 := by
        simp [hcommitted, insertRow]
      refine .inl ?_
      rw [hcount, Vars.Here, if_pos hid]
      refine ⟨Nat.le_add_left 1 _, fun hunique => ?_⟩
      have hzero := hadmits hunique
      rw [Shared.view_of_none hopened] at hzero
      rw [hzero]
    · refine hrow.of_thread hothers ?_ (.inl ?_)
      · rintro ⟨-, k', rest', hphase'⟩
        rw [hphase] at hphase'
        cases hphase'
        exact hsame ⟨rfl, rfl⟩
      · rw [hcommitted]
        exact if_neg hsame

theorem rowsKept_error (h : RowsKept vars unique s) {k : ℤ} {rest : List Statement} {f : Failure}
    (hphase : s.phase t = .running (.insert table id k :: rest))
    (hremoves : ∀ f ∈ s.store.opened t, vars.Removes f table id)
    (hsafe : RowReturnsFor vars ignoredErrors s ⟨t, .reply (.error f)⟩)
    (hothers : MovesOnly t s u)
    (hstore : u.store = failFor ignoredErrors f t s.store)
    (hnext : u.phase t =
      (replied ignoredErrors (s.store.session t) (.insert table id k) rest (.error f)).phase) :
    RowsKept vars unique u := by
  have hsafe := hsafe table id k rest hphase
  have hcommitted : u.store.committed = s.store.committed := by
    rw [hstore, committed_failFor]
  refine h.of_thread hothers ?_ fun t' i hrow => ?_
  · rw [hnext, hstore]
    rcases replied_error_cases ignoredErrors (s.store.session t) (.insert table id k) rest f with
      hfatal | ⟨hignored, ⟨hlost, hreplied⟩ | ⟨hlost, hreplied⟩⟩
    · rw [hfatal]
      exact .fatal _
    · rw [hreplied]
      have hnone : (failFor ignoredErrors f t s.store).opened t = none := by
        simp [failFor, dropConnection, hignored, hlost, Shared.rollback]
      rw [hnone]
      exact .restarting (by simp)
    · rw [hreplied]
      have hfail : failFor ignoredErrors f t s.store = s.store.fail t f.whole := by
        simp [failFor, dropConnection, hlost]
      rw [hfail]
      refine .restarting fun g hg => ?_
      cases hwhole : f.whole with
      | true => simp [hwhole, Shared.fail, Shared.rollback] at hg
      | false =>
        have hopened : s.store.opened t = some g := by simpa [hwhole, Shared.fail] using hg
        refine (hremoves g hopened).settles fun hid => ?_
        have hundone := hsafe hid
        simp [hopened, hignored, hwhole, hlost] at hundone
  · by_cases hbetween : s.Between t t' i
    · obtain ⟨hopened, k', rest', hphase'⟩ := hbetween
      obtain ⟨rfl, rfl⟩ : t' = table ∧ i = id := by
        rw [hphase] at hphase'
        cases hphase'
        exact ⟨rfl, rfl⟩
      refine .inl ?_
      rw [hcommitted]
      rcases hrow with hhere | ⟨hzero, -⟩
      · exact hhere
      · have hid : ¬vars.HasId i := fun hid => by
          have hthere := hsafe hid
          rw [hopened] at hthere
          exact hthere hzero
        rwa [Vars.Here, if_neg hid]
    · exact hrow.of_thread hothers hbetween (.inl (by rw [hcommitted]))

theorem pos_of_hasId (hid : vars.HasId id) : 0 < id := hid.1

theorem replyFor_insert {k chosen : ℤ} {store : Option Failure} (v : Shared T Tables)
    (hid : 0 < id) : replyFor ignoredErrors (.insert table id k) t v (.ok chosen store) =
      v.change t (insertRow table id) := by
  cases store <;> simp [replyFor, Statement.performFor, Statement.hasResult, hid]

theorem rowsKept_attempt (h : RowsKept vars unique s) {d : Draws}
    (hphase : s.phase t = .idle ∨ s.phase t = .restarting)
    (hothers : MovesOnly t s u)
    (hstore : u.store = s.store) (hnext : u.phase t = .before (vars.event d)) :
    RowsKept vars unique u := by
  have hsits := h.sits t
  have hsettles : ∀ f ∈ s.store.opened t, vars.Settles f := by
    rcases hphase with hphase | hphase
    · rw [hphase] at hsits
      cases hsits with
      | idle hsettles => exact hsettles
    · rw [hphase] at hsits
      cases hsits with
      | restarting hsettles => exact hsettles
  have hquiet : Quiet vars t s.store u.store := by
    rw [hstore]
    exact quiet_self hsettles
  refine h.of_quiet hothers ?_ hquiet ?_
  · rcases hphase with hphase | hphase <;> simp [hphase]
  · rw [hnext, hstore]
    exact sits_before hsettles (paired_event vars d)

theorem rowsKept_plain (h : RowsKept vars unique s) {q : Statement} {rest : List Statement}
    {r : Reply} (hphase : s.phase t = .running (q :: rest)) (hq : q.Plain) (hrest : Paired rest)
    (hsettles : ∀ f ∈ s.store.opened t, vars.Settles f)
    (hothers : MovesOnly t s u)
    (hstore : u.store = replyFor ignoredErrors q t s.store r)
    (hnext : u.phase t = (replied ignoredErrors (s.store.session t) q rest r).phase) :
    RowsKept vars unique u := by
  have hquiet : Quiet vars t s.store u.store := hstore ▸ quiet_replyFor hsettles hq r
  refine h.of_quiet hothers ?_ hquiet ?_
  · rintro table id k rest' hphase'
    rw [hphase] at hphase'
    cases hphase'
    exact hq
  · rw [hnext]
    cases r with
    | error f => exact sits_error hquiet.settles _ q rest f
    | ok chosen store => exact sits_before hquiet.settles hrest

theorem rowsKept_step {l : ThreadLabel T} (h : RowsKept vars unique s)
    (hsafe : RowReturnsFor vars ignoredErrors s l)
    (hu : sharedStep vars ignoredErrors unique s l = some u) : RowsKept vars unique u := by
  have hothers := sharedStep_movesOnly hu
  have hsits := h.sits l.t
  obtain ⟨t, label⟩ := l
  rcases sharedStep_cases hu with
    ⟨d, -, hphase, hstore, hnext⟩ | ⟨r, q, rest, rfl, hphase, hadmits, hstore, hnext⟩
  · exact rowsKept_attempt h hphase hothers hstore hnext
  · rw [hphase] at hsits
    cases hsits with
    | running hsettles hrest =>
      cases hrest with
      | plain hq hrest => exact rowsKept_plain h hphase hq hrest hsettles hothers hstore hnext
      | row hrest =>
        cases r with
        | error f =>
          have hquiet : Quiet vars t s.store u.store := hstore ▸ quiet_failFor hsettles f
          refine h.of_quiet hothers (by simp [hphase]) hquiet ?_
          rw [hnext]
          exact sits_error hquiet.settles _ _ _ f
        | ok chosen store =>
          refine rowsKept_delete h hphase hsettles hrest hothers ?_ hnext
          cases store <;> exact hstore
    | deleted hremoves hrest =>
      cases r with
      | error f => exact rowsKept_error h hphase hremoves hsafe hothers hstore hnext
      | ok chosen store =>
        have hid : vars.HasId _ := hsafe _ _ _ _ hphase
        refine rowsKept_insert h hphase hremoves hrest hid ?_ hothers (hstore.trans ?_) hnext
        · intro hunique
          have hfree := hadmits
          simp only [SharedState.admits] at hfree
          rw [hphase] at hfree
          simpa [hunique, pos_of_hasId hid] using hfree
        · rw [replyFor_insert _ (pos_of_hasId hid)]

end Steps

/-! ## Runs -/

section Runs

variable {vars : Vars} {ignoredErrors : List CString} {unique : Bool} {tables : Tables}
  {es : List (ThreadLabel T)} {s : SharedState T}

theorem rowsKept_run (hcomplete : vars.Complete tables)
    (hr : run (sharedStep vars ignoredErrors unique) (initShared T tables) es = some s)
    (hreturns : Guarded (sharedStep vars ignoredErrors unique) (RowReturnsFor vars ignoredErrors)
      (initShared T tables) es) : RowsKept vars unique s :=
  hreturns.invariant (I := fun _ s => RowsKept vars unique s) (rowsKept_start hcomplete)
    (fun _ _ _ _ _ hs hsafe hu => rowsKept_step hs hsafe hu) hr

end Runs

def singleVars : Vars := { rowVars with skipTrx := true }

def sameRow (i j : T) (r : Reply) : List (ThreadLabel T) :=
  [⟨i, drawRow 1⟩, ⟨j, drawRow 1⟩, ⟨i, accepted⟩, ⟨j, accepted⟩, ⟨i, accepted⟩, ⟨j, .reply r⟩]

/-- Under a plain index the row is there twice. -/
example : ∃ s, run (sharedStep singleVars lockErrors false) (initShared (Fin 2) threeRows)
    (sameRow 0 1 (.ok 0 none)) = some s ∧ s.store.committed 1 1 = 2 := ⟨_, rfl, rfl⟩

end Sysbench.Database.Oltp
