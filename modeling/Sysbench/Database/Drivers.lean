import Sysbench.Machine.Ring

/-! # Choosing a database driver

The registered drivers are a ring whose head is the node `none`. `db_init` goes round it with the
variable that it returns.
-/
namespace Sysbench.Database

open Rings

variable {D : Type*}

/-- The registered drivers, and what the options say. -/
structure DriverArgs (D : Type*) where
  drivers : Links (Option D)
  sname : D → String
  dbPsMode : String
  dbDriver : Option String

structure DriverEnv (D : Type*) where
  init : D → Bool
  malloc : Bool
  percentileInit : Bool

/-- What a call does: the drivers it initializes, its result and its messages. -/
structure DriverInit (D : Type*) where
  initialized : List D
  result : Option D
  log : List String

/-- The `SB_LIST_FOR_EACH` loop, and what is left in `drv`. There is no result while the loop goes
on. -/
def forEachDriver (drivers : Links (Option D)) (sname : D → String) (name : String) :
    ℕ → Option D → Option D → Option (Option D)
  | 0, _, _ => none
  | _ + 1, none, drv => some drv
  | rounds + 1, some item, _ =>
    if sname item = name then some (some item)
    else forEachDriver drivers sname name rounds (drivers.next (some item)) (some item)

section Init

variable (args : DriverArgs D) (env : DriverEnv D)

/-- `db_init` from the test of `drv` on. -/
def initDriver (log : List String) (name : String) : Option D → DriverInit D
  | none => ⟨[], none, log ++ [s!"invalid database driver name: '{name}'"]⟩
  | some drv =>
    ⟨[drv], if env.init drv && env.malloc && env.percentileInit then some drv else none, log⟩

def dbInit [DecidableEq D] (rounds : ℕ) (name : Option String) : Option (DriverInit D) :=
  if args.drivers.next none = none then some ⟨[], none, ["No DB drivers available"]⟩
  else if args.dbPsMode ≠ "auto" ∧ args.dbPsMode ≠ "disable" then
    some ⟨[], none, [s!"Invalid value for db-ps-mode: {args.dbPsMode}"]⟩
  else
    match name.or args.dbDriver with
    | none =>
      let drv := args.drivers.next none
      let sname := (drv.map args.sname).getD ""
      -- Is it the only driver available?
      if args.drivers.next drv = args.drivers.prev drv then
        some (initDriver env [s!"No DB drivers specified, using {sname}"] sname drv)
      else some ⟨[], none, ["no database driver specified"]⟩
    | some name =>
      (forEachDriver args.drivers args.sname name rounds (args.drivers.next none) none).map
        (initDriver env [] name)

def lookupDriver (drivers : List D) (name : Option String) : Option D :=
  if args.dbPsMode ≠ "auto" ∧ args.dbPsMode ≠ "disable" then none
  else
    match name.or args.dbDriver with
    | none => if drivers.length = 1 then drivers.head? else none
    | some name => drivers.find? fun d => args.sname d = name

/-- The driver that is asked for, and no other, is initialized and returned. -/
def LookupExact [DecidableEq D] (drivers : List D) (name : Option String) : Prop :=
  ∀ rounds, drivers.length < rounds →
    ∃ log, dbInit args env rounds name =
      some ⟨(lookupDriver args drivers name).toList,
        (lookupDriver args drivers name).filter
          fun d => env.init d && env.malloc && env.percentileInit, log⟩

end Init

/-! ## The walk -/

/-- Without a driver of the name the last one is left. -/
theorem forEachDriver_eq {l : Links (Option D)} {sname : D → String} {name : String}
    {a : Option D} {xs : List D} (h : Segment l a (xs.map some) none) {rounds : ℕ}
    (hrounds : xs.length < rounds) (drv : Option D) :
    forEachDriver l sname name rounds (l.next a) drv =
      some ((xs.find? fun d => sname d = name).or (xs.getLast?.or drv)) := by
  induction xs generalizing a rounds drv with
  | nil =>
    obtain ⟨rounds, rfl⟩ := Nat.exists_eq_succ_of_ne_zero (Nat.ne_of_gt hrounds)
    rw [h.1]
    rfl
  | cons x xs ih =>
    obtain ⟨rounds, rfl⟩ := Nat.exists_eq_succ_of_ne_zero (Nat.ne_zero_of_lt hrounds)
    obtain ⟨hnext, -, hrest⟩ := h
    rw [hnext, forEachDriver]
    by_cases hname : sname x = name
    · rw [if_pos hname, List.find?_cons_of_pos (by simpa using hname)]
      rfl
    · rw [if_neg hname, ih hrest (Nat.lt_of_succ_lt_succ hrounds),
        List.find?_cons_of_neg (by simpa using hname), List.getLast?_cons]
      cases xs.getLast? <;> simp

/-- The neighbours of the first driver are the same node exactly if there is no other driver. -/
theorem next_eq_prev_iff {l : Links (Option D)} {x : D} {xs : List D}
    (h : Linked l none ((x :: xs).map some)) :
    l.next (some x) = l.prev (some x) ↔ (x :: xs).length = 1 := by
  obtain ⟨-, hprev, hrest⟩ := h.ring
  rw [hprev]
  cases xs with
  | nil => exact iff_of_true hrest.1 rfl
  | cons y xs =>
    have hnext : l.next (some x) = some y := hrest.1
    rw [hnext]
    exact iff_of_false (Option.some_ne_none y) (by simp)

section Lookup

variable [DecidableEq D] {args : DriverArgs D} {env : DriverEnv D} {drivers : List D}
  {name : Option String}

section Cases

variable {x : D} {xs : List D} (hlinked : Linked args.drivers none ((x :: xs).map some))

include hlinked

omit [DecidableEq D] in
theorem ne_none_of_linked : ¬args.drivers.next none = none := by
  have hhead : args.drivers.next none = some x := hlinked.ring.1
  rw [hhead]
  exact Option.some_ne_none x

theorem lookupExact_of_psMode (hmode : args.dbPsMode ≠ "auto" ∧ args.dbPsMode ≠ "disable") :
    LookupExact args env (x :: xs) name := by
  intro rounds _
  rw [dbInit, if_neg (ne_none_of_linked hlinked), if_pos hmode, lookupDriver, if_pos hmode]
  exact ⟨_, rfl⟩

variable (hmode : ¬(args.dbPsMode ≠ "auto" ∧ args.dbPsMode ≠ "disable"))

include hmode

/-- Without a name the neighbours of the first driver tell whether it is the only one. -/
theorem lookupExact_of_noName (hname : name.or args.dbDriver = none) :
    LookupExact args env (x :: xs) name := by
  intro rounds _
  have hhead : args.drivers.next none = some x := hlinked.ring.1
  simp only [dbInit, if_neg (ne_none_of_linked hlinked), lookupDriver, if_neg hmode, hname]
  rw [hhead]
  by_cases hone : (x :: xs).length = 1
  · rw [if_pos hone, if_pos ((next_eq_prev_iff hlinked).mpr hone)]
    simp only [initDriver, List.head?_cons, Option.filter_some]
    exact ⟨_, rfl⟩
  · rw [if_neg hone, if_neg fun heq => hone ((next_eq_prev_iff hlinked).mp heq)]
    exact ⟨_, rfl⟩

/-- What the walk leaves is initialized: the driver found, or the last one. -/
theorem dbInit_of_name {n : String} (hname : name.or args.dbDriver = some n) {rounds : ℕ}
    (hrounds : (x :: xs).length < rounds) :
    dbInit args env rounds name =
      some (initDriver env [] n
        (((x :: xs).find? fun d => args.sname d = n).or (x :: xs).getLast?)) := by
  simp only [dbInit, if_neg (ne_none_of_linked hlinked), if_neg hmode, hname]
  rw [forEachDriver_eq hlinked.ring hrounds, Option.or_none]
  rfl

theorem lookupExact_name_iff {n : String} (hname : name.or args.dbDriver = some n) :
    LookupExact args env (x :: xs) name ↔ ∃ d ∈ x :: xs, args.sname d = n := by
  have hlookup : lookupDriver args (x :: xs) name =
      (x :: xs).find? fun d => args.sname d = n := by
    simp only [lookupDriver, if_neg hmode, hname]
  unfold LookupExact
  rw [hlookup]
  cases hfind : (x :: xs).find? fun d => args.sname d = n with
  | some d =>
    refine iff_of_true (fun rounds hrounds => ?_)
      ⟨d, List.mem_of_find?_eq_some hfind, by simpa using List.find?_some hfind⟩
    rw [dbInit_of_name hlinked hmode hname hrounds, hfind]
    simp only [Option.some_or, initDriver, Option.filter_some]
    exact ⟨_, rfl⟩
  | none =>
    have hnone := List.find?_eq_none.mp hfind
    refine iff_of_false (fun hall => ?_) fun ⟨d, hd, heq⟩ => hnone d hd (by simpa using heq)
    -- the last driver is initialized
    obtain ⟨log, hlog⟩ := hall ((x :: xs).length + 1) (Nat.lt_succ_self _)
    rw [dbInit_of_name hlinked hmode hname (Nat.lt_succ_self _), hfind,
      List.getLast?_eq_some_getLast (List.cons_ne_nil x xs)] at hlog
    have hinit := congrArg DriverInit.initialized (Option.some.inj hlog)
    exact absurd hinit (List.cons_ne_nil _ _)

end Cases

/-- A lookup fails to be exact only where it is for a name that no driver has. -/
theorem lookupExact_iff (hlinked : Linked args.drivers none (drivers.map some))
    (hne : drivers ≠ []) :
    LookupExact args env drivers name ↔
      (args.dbPsMode = "auto" ∨ args.dbPsMode = "disable" →
        ∀ n, name.or args.dbDriver = some n → ∃ d ∈ drivers, args.sname d = n) := by
  obtain ⟨x, xs, rfl⟩ := List.exists_cons_of_ne_nil hne
  by_cases hmode : args.dbPsMode ≠ "auto" ∧ args.dbPsMode ≠ "disable"
  · exact iff_of_true (lookupExact_of_psMode hlinked hmode) fun hvalid => absurd hvalid (by tauto)
  · have hvalid : args.dbPsMode = "auto" ∨ args.dbPsMode = "disable" := by tauto
    rw [imp_iff_right hvalid]
    cases hname : name.or args.dbDriver with
    | none => exact iff_of_true (lookupExact_of_noName hlinked hmode hname) nofun
    | some n =>
      rw [lookupExact_name_iff hlinked hmode hname]
      exact ⟨fun h n' hn' => Option.some.inj hn' ▸ h, fun h => h n rfl⟩

end Lookup

/-! ## Two drivers -/

def twoDrivers : Links (Option Bool) :=
  ((Links.mk id id).init none).addTail (some false) none |>.addTail (some true) none

def twoArgs (dbDriver : Option String) : DriverArgs Bool where
  drivers := twoDrivers
  sname d := if d then "pgsql" else "mysql"
  dbPsMode := "auto"
  dbDriver := dbDriver

def allGood : DriverEnv Bool := ⟨fun _ => true, true, true⟩

theorem linked_twoDrivers : Linked twoDrivers none ([false, true].map some) := by
  have hone : Linked (((Links.mk id id).init none).addTail (some false) none) none
      [some false] := (linked_init _).addTail (by decide)
  exact hone.addTail (by decide)

theorem lookupExact_iff_twoDrivers :
    LookupExact (twoArgs none) allGood [false, true] (some "mysql") ↔
      ((twoArgs none).dbPsMode = "auto" ∨ (twoArgs none).dbPsMode = "disable" →
        ∀ n, (some "mysql").or (twoArgs none).dbDriver = some n →
          ∃ d ∈ [false, true], (twoArgs none).sname d = n) :=
  lookupExact_iff linked_twoDrivers (by decide)

/-- Whoever asks for a driver that does not exist gets the last one. -/
theorem not_lookupExact :
    lookupDriver (twoArgs (some "mysq")) [false, true] none = none ∧
      (∃ log, dbInit (twoArgs (some "mysq")) allGood 3 none = some ⟨[true], some true, log⟩) ∧
      ¬ LookupExact (twoArgs (some "mysq")) allGood [false, true] none := by
  refine ⟨rfl, ⟨[], rfl⟩, fun h => ?_⟩
  obtain ⟨log, hlog⟩ := h 3 (by decide)
  exact List.cons_ne_nil true [] (congrArg DriverInit.initialized (Option.some.inj hlog))

end Sysbench.Database
