import Sysbench.Machine.RoundRobin
import Sysbench.Machine.Runs

/-! # Choosing the host of a connection

The MySQL driver goes round its list of sockets or, if there are none, round its list of hosts.
The two cursors are shared by all threads and moved under `hosts_mutex`; a connection is opened
after the mutex has been released, and may fail. The head of a list is the node `none`.
-/
namespace Sysbench.Database

open Rings Runs

/-- `args.hosts` and `args.sockets`, with the `data` of their entries. -/
structure HostArgs where
  hosts : Links (Option ℕ)
  hostData : ℕ → String
  sockets : Links (Option ℕ)
  socketData : ℕ → String

/-- What the locked section leaves in the connection; `entry` is the node it comes from. -/
structure HostChoice where
  entry : ℕ
  host : String
  socket : Option String
  deriving DecidableEq, Repr

structure HostCursors where
  hostsPos : Option ℕ
  socketsPos : Option ℕ
  deriving DecidableEq, Repr

def mysqlDrvInit (args : HostArgs) : Option HostCursors :=
  if args.hosts.next none = none then none else some ⟨none, none⟩

/-- The locked section of `mysql_drv_connect`. The head of a list is no entry, so that reading its
`data` has no result. -/
def chooseHost (args : HostArgs) (s : HostCursors) : Option (HostChoice × HostCursors) :=
  if args.sockets.next none = none then
    let pos := args.hosts.advance none s.hostsPos
    pos.map fun i => (⟨i, args.hostData i, none⟩, { s with hostsPos := pos })
  else
    let pos := args.sockets.advance none s.socketsPos
    pos.map fun i => (⟨i, "localhost", some (args.socketData i)⟩, { s with socketsPos := pos })

structure ConnectState (T : Type*) where
  cursors : HostCursors
  pending : T → Option HostChoice

inductive ConnectEvent (T : Type*) where
  /-- an allocation fails, and the function returns before the locked section -/
  | noMemory (t : T)
  /-- the locked section -/
  | choose (t : T) (choice : HostChoice)
  /-- `mysql_drv_real_connect` succeeds, or the function returns an error -/
  | connect (t : T) (connected : Bool)
  deriving DecidableEq

variable {T : Type*}

def connectStep [DecidableEq T] (args : HostArgs) (s : ConnectState T) :
    ConnectEvent T → Option (ConnectState T)
  | .noMemory t => if s.pending t = none then some s else none
  | .choose t choice =>
    match s.pending t, chooseHost args s.cursors with
    | none, some (choice', cursors) =>
      if choice' = choice then some ⟨cursors, Function.update s.pending t (some choice)⟩ else none
    | _, _ => none
  | .connect t _ =>
    if s.pending t = none then none
    else some { s with pending := Function.update s.pending t none }

def ConnectState.start (cursors : HostCursors) : ConnectState T := ⟨cursors, fun _ => none⟩

def ConnectEvent.choice : ConnectEvent T → Option HostChoice
  | .choose _ choice => some choice
  | _ => none

def choices (es : List (ConnectEvent T)) : List HostChoice := es.filterMap ConnectEvent.choice

/-! ## The lists -/

structure HostArgs.Lists (args : HostArgs) (hosts sockets : List ℕ) : Prop where
  hosts : Linked args.hosts none (hosts.map some)
  sockets : Linked args.sockets none (sockets.map some)

def entries (hosts sockets : List ℕ) : List ℕ := if sockets = [] then hosts else sockets

/-- What a connection to an entry of that list uses. -/
def HostArgs.use (args : HostArgs) (sockets : List ℕ) (i : ℕ) : HostChoice :=
  if sockets = [] then ⟨i, args.hostData i, none⟩ else ⟨i, "localhost", some (args.socketData i)⟩

def HostArgs.ring (args : HostArgs) (sockets : List ℕ) : Links (Option ℕ) :=
  if sockets = [] then args.hosts else args.sockets

/-- The cursor of the list that the driver goes round. -/
def HostCursors.pos (s : HostCursors) (sockets : List ℕ) : Option ℕ :=
  if sockets = [] then s.hostsPos else s.socketsPos

variable {args : HostArgs} {hosts sockets : List ℕ} {s u : ConnectState T}
  {es : List (ConnectEvent T)}

theorem HostArgs.Lists.ring (h : args.Lists hosts sockets) :
    Linked (args.ring sockets) none ((entries hosts sockets).map some) := by
  unfold HostArgs.ring entries
  split_ifs
  · exact h.hosts
  · exact h.sockets

theorem next_head_eq_none {l : Links (Option ℕ)} {xs : List ℕ} (h : Linked l none (xs.map some)) :
    l.next none = none ↔ xs = [] := by
  cases xs with
  | nil => exact iff_of_true h.ring.1 rfl
  | cons x xs =>
    exact iff_of_false (fun hn => by cases h.ring.1.symm.trans hn) (List.cons_ne_nil x xs)

/-- The locked section moves one cursor and uses the entry that it reaches. -/
theorem chooseHost_eq (h : args.Lists hosts sockets) (s : HostCursors) :
    (chooseHost args s).map (fun r => (r.1, r.2.pos sockets)) =
      ((args.ring sockets).advance none (s.pos sockets)).map fun i =>
        (args.use sockets i, (args.ring sockets).advance none (s.pos sockets)) := by
  unfold chooseHost HostArgs.ring HostCursors.pos HostArgs.use
  by_cases hempty : sockets = []
  · rw [if_pos ((next_head_eq_none h.sockets).mpr hempty), Option.map_map]
    simp only [hempty, if_true, Function.comp_def]
  · rw [if_neg (mt (next_head_eq_none h.sockets).mp hempty), Option.map_map]
    simp only [hempty, if_false, Function.comp_def]

theorem entries_pos {cursors : HostCursors} (h : args.Lists hosts sockets)
    (hinit : mysqlDrvInit args = some cursors) :
    0 < (entries hosts sockets).length ∧ cursors.pos sockets = none := by
  unfold mysqlDrvInit at hinit
  split_ifs at hinit with hempty
  cases hinit
  have hhosts : hosts ≠ [] := mt (next_head_eq_none h.hosts).mpr hempty
  constructor
  · unfold entries
    split_ifs with hsockets
    · exact List.length_pos_of_ne_nil hhosts
    · exact List.length_pos_of_ne_nil hsockets
  · exact ite_self none

/-! ## Runs -/

/-- The cursor is the head or the entry used last, and the uses go round the list. -/
structure Walked (args : HostArgs) (hosts sockets : List ℕ) (es : List (ConnectEvent T))
    (s : ConnectState T) : Prop where
  cursor : s.cursors.pos sockets =
    ((args.ring sockets).advance none)^[(choices es).length] none
  uses : ∀ k < (choices es).length, (choices es)[k]? =
    (entries hosts sockets)[k % (entries hosts sockets).length]?.map (args.use sockets)

theorem choices_snoc (es : List (ConnectEvent T)) (e : ConnectEvent T) :
    choices (es ++ [e]) = choices es ++ e.choice.toList := by
  unfold choices
  rw [List.filterMap_append]
  cases h : e.choice <;> simp [h]

theorem Walked.keep (hs : Walked args hosts sockets es s) {e : ConnectEvent T} (he : e.choice = none)
    (hu : u.cursors = s.cursors) : Walked args hosts sockets (es ++ [e]) u := by
  have hchoices : choices (es ++ [e]) = choices es := by rw [choices_snoc, he]; exact List.append_nil _
  constructor
  · rw [hu, hchoices]
    exact hs.cursor
  · rw [hchoices]
    exact hs.uses

variable (h : args.Lists hosts sockets) (hpos : 0 < (entries hosts sockets).length)

include h hpos

/-- The next locked section uses the next entry; it does not read the head of the list. -/
theorem Walked.next (hs : Walked args hosts sockets es s) :
    ∃ cursors,
      chooseHost args s.cursors = some (args.use sockets ((entries hosts sockets).get
        ⟨(choices es).length % (entries hosts sockets).length, Nat.mod_lt _ hpos⟩), cursors) ∧
      cursors.pos sockets = ((args.ring sockets).advance none)^[(choices es).length + 1] none := by
  have hpos' : 0 < ((entries hosts sockets).map some).length := by rwa [List.length_map]
  have hreach := h.ring.iterate_advance hpos' (choices es).length
  have heq := chooseHost_eq h s.cursors
  rw [hs.cursor, ← Function.iterate_succ_apply' ((args.ring sockets).advance none), hreach] at heq
  simp only [List.get_eq_getElem, List.getElem_map, List.length_map, Option.map_some] at heq
  obtain ⟨⟨choice, cursors⟩, hchoose, hout⟩ := Option.map_eq_some_iff.mp heq
  obtain ⟨rfl, hcursor⟩ := Prod.mk.inj hout
  refine ⟨cursors, hchoose, ?_⟩
  rw [hreach]
  simpa only [List.get_eq_getElem, List.getElem_map, List.length_map] using hcursor

variable [DecidableEq T]

theorem Walked.step {e : ConnectEvent T} (hs : Walked args hosts sockets es s)
    (he : connectStep args s e = some u) : Walked args hosts sockets (es ++ [e]) u := by
  cases e with
  | noMemory t =>
    rw [connectStep, Option.ite_none_right_eq_some] at he
    exact hs.keep rfl (by rw [Option.some_inj.mp he.2])
  | connect t connected =>
    rw [connectStep, Option.ite_none_left_eq_some] at he
    exact hs.keep rfl (by rw [← Option.some_inj.mp he.2])
  | choose t choice =>
    obtain ⟨cursors, hchoose, hcursor⟩ := hs.next h hpos
    have hchoices : choices (es ++ [.choose t choice]) = choices es ++ [choice] :=
      choices_snoc es (.choose t choice)
    rw [connectStep, hchoose] at he
    split at he
    · next choice' cursors' _ hsome =>
      cases hsome
      rw [Option.ite_none_right_eq_some] at he
      obtain ⟨rfl, hu⟩ := he
      cases hu
      refine ⟨by rwa [hchoices, List.length_append], fun k hk => ?_⟩
      rw [hchoices, List.length_append, List.length_singleton] at hk
      rw [hchoices]
      rcases Nat.lt_succ_iff_lt_or_eq.mp hk with hk | rfl
      · rw [List.getElem?_append_left hk]
        exact hs.uses k hk
      · rw [List.getElem?_concat_length, List.getElem?_eq_getElem (Nat.mod_lt _ hpos),
          Option.map_some, List.get_eq_getElem]
    · cases he

omit h hpos

/-- Every run goes round the list: the `k`-th locked section uses the entry at `k mod n`, all
entries are used equally often up to the last round, and no thread ever finds the cursor at the head
of the list when it reads an entry. -/
theorem round_robin {cursors : HostCursors} (h : args.Lists hosts sockets)
    (hinit : mysqlDrvInit args = some cursors)
    (hr : run (connectStep args) (.start cursors) es = some s) :
    (∀ k < (choices es).length, (choices es)[k]? =
      (entries hosts sockets)[k % (entries hosts sockets).length]?.map (args.use sockets)) ∧
    (∀ i ∈ entries hosts sockets,
      ((choices es).map HostChoice.entry).count i =
          (choices es).length / (entries hosts sockets).length ∨
        ((choices es).map HostChoice.entry).count i =
          (choices es).length ⌈/⌉ (entries hosts sockets).length) ∧
    ∀ t, s.pending t = none → ∃ choice u, connectStep args s (.choose t choice) = some u := by
  obtain ⟨hpos, hstart⟩ := entries_pos h hinit
  have hwalked : Walked args hosts sockets es s :=
    run_invariant (I := Walked args hosts sockets)
      ⟨hstart, fun k hk => absurd hk (Nat.not_lt_zero k)⟩
      (fun _ _ _ _ _ hs he => hs.step h hpos he) hr
  refine ⟨hwalked.uses, fun i hi => ?_, fun t ht => ?_⟩
  · have hnodup : (entries hosts sockets).Nodup :=
      List.Nodup.of_map some (List.nodup_cons.mp h.ring.nodup).2
    have hcyclic : Cyclic (entries hosts sockets) ((choices es).map HostChoice.entry) := by
      intro k hk
      rw [List.length_map] at hk
      have huse : ∀ i, (args.use sockets i).entry = i := by
        intro i
        unfold HostArgs.use
        split_ifs <;> rfl
      rw [List.getElem?_map, hwalked.uses k hk, Option.map_map]
      simp only [Function.comp_def, huse, Option.map_id']
    have hcount := hcyclic.count_floor_or_ceil hnodup hi
    rwa [List.length_map] at hcount
  · obtain ⟨cursors, hchoose, -⟩ := hwalked.next h hpos
    exact ⟨_, _, by rw [connectStep, ht, hchoose]; exact if_pos rfl⟩

def twoHosts : HostArgs where
  hosts := ((Links.init none ⟨id, id⟩).addTail (some 0) none).addTail (some 1) none
  hostData i := if i = 0 then "a" else "b"
  sockets := Links.init none ⟨id, id⟩
  socketData _ := ""

theorem twoHosts_lists : twoHosts.Lists [0, 1] [] where
  hosts := ((linked_init _).addTail (by decide)).addTail (by decide)
  sockets := linked_init _

/-- Two threads choose a host, and one of them cannot connect. -/
def failedConnection : List (ConnectEvent ℕ) :=
  [.choose 0 ⟨0, "a", none⟩, .choose 1 ⟨1, "b", none⟩, .connect 1 false]

def afterFailure : ConnectState ℕ where
  cursors := ⟨some 1, none⟩
  pending := Function.update (Function.update (Function.update (fun _ => none) 0
    (some ⟨0, "a", none⟩)) 1 (some ⟨1, "b", none⟩)) 1 none

theorem round_robin_two :
    (∀ k < (choices failedConnection).length, (choices failedConnection)[k]? =
      (entries [0, 1] [])[k % (entries [0, 1] []).length]?.map (twoHosts.use [])) ∧
    (∀ i ∈ entries [0, 1] [],
      ((choices failedConnection).map HostChoice.entry).count i =
          (choices failedConnection).length / (entries [0, 1] []).length ∨
        ((choices failedConnection).map HostChoice.entry).count i =
          (choices failedConnection).length ⌈/⌉ (entries [0, 1] []).length) ∧
    ∀ t, afterFailure.pending t = none →
      ∃ choice u, connectStep twoHosts afterFailure (.choose t choice) = some u :=
  round_robin twoHosts_lists rfl
    (show run (connectStep twoHosts) (.start ⟨none, none⟩) failedConnection = some afterFailure from rfl)

end Sysbench.Database
