import Sysbench.Machine.Runs

/-! # One-time initialization on Windows

`pthread_once` elects the thread that runs the routine by an interlocked operation on the control,
and the others poll the control until the routine is done. The callers go on with what the
routine has left in shared memory.
-/
namespace Sysbench.Core

open Runs

inductive OnceControl where
  | init | inprogress | done
  deriving DecidableEq, Repr

/-- The old value, and the new one. -/
def interlockedCompareExchange (destination exchange comparand : OnceControl) :
    OnceControl × OnceControl :=
  (destination, if destination = comparand then exchange else destination)

inductive OncePlace where
  | outside
  /-- about to exchange -/
  | exchange
  /-- about to call `init_routine` -/
  | elected
  | running
  /-- about to store `PTHREAD_ONCE_DONE` -/
  | store
  | polling
  | returning
  /-- back in the caller -/
  | passed
  deriving DecidableEq, Repr

/-- The threads `T` and the shared memory `M`. -/
structure OnceState (T M : Type*) where
  control : OnceControl
  place : T → OncePlace
  memory : M

def initOnce (T : Type*) {M : Type*} (memory : M) : OnceState T M where
  control := .init
  place _ := .outside
  memory := memory

inductive OnceEvent (T M R : Type*) where
  | call (t : T)
  | exchange (t : T)
  | start (t : T)
  /-- the routine ends, with what it was given from outside -/
  | finish (t : T) (result : R)
  | store (t : T)
  | poll (t : T)
  | ret (t : T)
  /-- the caller reads the shared memory -/
  | look (t : T) (seen : M)
  | leave (t : T)
  deriving DecidableEq

variable {T M R : Type*}

def OnceState.walk [DecidableEq T] (s : OnceState T M) (t : T) (p : OncePlace) : OnceState T M :=
  { s with place := Function.update s.place t p }

@[simp] theorem OnceState.walk_self [DecidableEq T] (s : OnceState T M) (t : T) (p : OncePlace) :
    (s.walk t p).place t = p := Function.update_self _ _ _

theorem OnceState.walk_other [DecidableEq T] (s : OnceState T M) {t i : T} (p : OncePlace)
    (h : i ≠ t) : (s.walk t p).place i = s.place i := Function.update_of_ne h _ _

/-- `switch(state)`. -/
def OnceControl.next : OnceControl → OncePlace
  | .init => .elected
  | .inprogress => .polling
  | .done => .returning

/-- `initRoutine` is what the routine does to the shared memory. -/
def onceStep [DecidableEq T] [DecidableEq M] (initRoutine : M → R → M) (s : OnceState T M) :
    OnceEvent T M R → Option (OnceState T M)
  | .call t => if s.place t = .outside then some (s.walk t .exchange) else none
  | .exchange t =>
    if s.place t = .exchange then
      let (state, control) := interlockedCompareExchange s.control .inprogress .init
      some { s.walk t state.next with control }
    else none
  | .start t => if s.place t = .elected then some (s.walk t .running) else none
  | .finish t result =>
    if s.place t = .running then
      some { s.walk t .store with memory := initRoutine s.memory result }
    else none
  | .store t =>
    if s.place t = .store then some { s.walk t .returning with control := .done } else none
  | .poll t =>
    if s.place t = .polling then
      -- `while (*once_control == PTHREAD_ONCE_INPROGRESS) Sleep(1)`
      some (s.walk t (if s.control = .inprogress then .polling else .returning))
    else none
  | .ret t => if s.place t = .returning then some (s.walk t .passed) else none
  | .look t seen => if s.place t = .passed ∧ s.memory = seen then some s else none
  | .leave t => if s.place t = .passed then some (s.walk t .outside) else none

def OnceEvent.isStart : OnceEvent T M R → Bool
  | .start _ => true
  | _ => false

def OnceEvent.isFinish : OnceEvent T M R → Bool
  | .finish _ _ => true
  | _ => false

def starts (es : List (OnceEvent T M R)) : ℕ := es.countP OnceEvent.isStart

def finishes (es : List (OnceEvent T M R)) : ℕ := es.countP OnceEvent.isFinish

def OnceEvent.isInside : OnceEvent T M R → Bool
  | .exchange _ | .start _ | .finish _ _ | .store _ | .poll _ | .ret _ => true
  | _ => false

/-- No call in progress can do more than read the control in vain. -/
def OnceState.Settled [DecidableEq T] [DecidableEq M] (initRoutine : M → R → M) (s : OnceState T M) : Prop :=
  ∀ (e : OnceEvent T M R) (u : OnceState T M), e.isInside → onceStep initRoutine s e = some u → u = s

/-- What `pthread_once` promises about a run. -/
structure OnceLaw [DecidableEq T] [DecidableEq M] (initRoutine : M → R → M) (memory : M)
    (es : List (OnceEvent T M R)) (s : OnceState T M) : Prop where
  /-- the routine is not run twice -/
  once : finishes es ≤ starts es ∧ starts es ≤ 1
  /-- after the first exchange it has been run, or one thread is about to run it -/
  elected : (∃ t, .exchange t ∈ es) → starts es = 1 ∨ starts es = 0 ∧ ∃! t, s.place t = .elected
  /-- it has been run when nothing more can happen -/
  settled : s.Settled initRoutine → (∃ t, .call t ∈ es) → finishes es = 1
  /-- no call returns before its end -/
  returns : ∀ pre t, pre ++ [.ret t] <+: es → finishes pre = 1
  /-- whoever has passed sees what it has left -/
  sees : ∃ left, ∀ t seen, .look t seen ∈ es →
    seen = left ∧ ∃ i result, .finish i result ∈ es ∧ left = initRoutine memory result

/-! ## Phases -/

/-- May be left of the thread that runs the routine. -/
def OncePlace.isElected : OncePlace → Bool
  | .elected | .running | .store => true
  | _ => false

def OncePlace.isPast : OncePlace → Bool
  | .returning | .passed => true
  | _ => false

structure Fresh (memory : M) (es : List (OnceEvent T M R)) (s : OnceState T M) : Prop where
  control : s.control = .init
  places : ∀ t, s.place t = .outside ∨ s.place t = .exchange
  starts : starts es = 0
  finishes : finishes es = 0
  exchanged : ∀ t, .exchange t ∉ es
  called : ∀ t, .call t ∈ es → s.place t = .exchange
  memory : s.memory = memory

/-- What has happened when the elected thread is at a place. -/
def Progress (initRoutine : M → R → M) (memory : M) (es : List (OnceEvent T M R))
    (s : OnceState T M) : OncePlace → Prop
  | .elected => starts es = 0 ∧ finishes es = 0 ∧ s.memory = memory
  | .running => starts es = 1 ∧ finishes es = 0 ∧ s.memory = memory
  | _ => starts es = 1 ∧ finishes es = 1 ∧
    ∃ i result, .finish i result ∈ es ∧ s.memory = initRoutine memory result

structure Running (initRoutine : M → R → M) (memory : M) (es : List (OnceEvent T M R))
    (s : OnceState T M) (t : T) : Prop where
  control : s.control = .inprogress
  elected : (s.place t).isElected
  others : ∀ i, i ≠ t → (s.place i).isElected = false ∧ (s.place i).isPast = false
  progress : Progress initRoutine memory es s (s.place t)

structure Done (initRoutine : M → R → M) (memory : M) (es : List (OnceEvent T M R))
    (s : OnceState T M) : Prop where
  control : s.control = .done
  places : ∀ t, (s.place t).isElected = false
  progress : Progress initRoutine memory es s .store

def OncePhase (initRoutine : M → R → M) (memory : M) (es : List (OnceEvent T M R))
    (s : OnceState T M) : Prop :=
  Fresh memory es s ∨ (∃ t, Running initRoutine memory es s t) ∨ Done initRoutine memory es s

section Phases

variable {initRoutine : M → R → M} {memory : M} {es : List (OnceEvent T M R)}
  {s u : OnceState T M} {e : OnceEvent T M R} {t : T}

theorem starts_snoc : starts (es ++ [e]) = starts es + e.isStart.toNat := by
  rw [starts, List.countP_append, List.countP_singleton]
  cases e.isStart <;> rfl

theorem finishes_snoc : finishes (es ++ [e]) = finishes es + e.isFinish.toNat := by
  rw [finishes, List.countP_append, List.countP_singleton]
  cases e.isFinish <;> rfl

theorem OncePhase.running (h : OncePhase initRoutine memory es s) (hp : (s.place t).isElected) :
    Running initRoutine memory es s t := by
  rcases h with h | ⟨i, h⟩ | h
  · rcases h.places t with hat | hat
    · rw [hat] at hp
      cases hp
    · rw [hat] at hp
      cases hp
  · by_cases hi : t = i
    · rwa [hi]
    · rw [(h.others t hi).1] at hp
      cases hp
  · rw [h.places t] at hp
    cases hp

theorem OncePlace.isPast_of_isElected {p : OncePlace} (h : p.isElected) : p.isPast = false := by
  cases p with
  | elected | running | store => rfl
  | _ => cases h

theorem OncePhase.done (h : OncePhase initRoutine memory es s) (hp : (s.place t).isPast) :
    Done initRoutine memory es s := by
  rcases h with h | ⟨i, h⟩ | h
  · rcases h.places t with hat | hat
    · rw [hat] at hp
      cases hp
    · rw [hat] at hp
      cases hp
  · by_cases hi : t = i
    · rw [hi, OncePlace.isPast_of_isElected h.elected] at hp
      cases hp
    · rw [(h.others t hi).2] at hp
      cases hp
  · exact h

theorem Progress.snoc {p : OncePlace} (h : Progress initRoutine memory es s p)
    (hs : e.isStart = false) (hf : e.isFinish = false) (hu : u.memory = s.memory) :
    Progress initRoutine memory (es ++ [e]) u p := by
  have hstarts : starts (es ++ [e]) = starts es := by rw [starts_snoc, hs]; rfl
  have hfinishes : finishes (es ++ [e]) = finishes es := by rw [finishes_snoc, hf]; rfl
  unfold Progress at h ⊢
  rw [hstarts, hfinishes, hu]
  cases p with
  | elected | running => exact h
  | _ =>
    obtain ⟨hone, hone', i, result, hmem, hmemory⟩ := h
    exact ⟨hone, hone', i, result, List.mem_append_left _ hmem, hmemory⟩

theorem OncePhase.once (h : OncePhase initRoutine memory es s) :
    finishes es ≤ starts es ∧ starts es ≤ 1 := by
  rcases h with h | ⟨t, h⟩ | h
  · rw [h.starts, h.finishes]
    exact ⟨le_rfl, Nat.zero_le 1⟩
  · have hprogress := h.progress
    cases hp : s.place t <;> rw [hp] at hprogress <;> rw [hprogress.1, hprogress.2.1] <;> decide
  · rw [h.progress.1, h.progress.2.1]
    exact ⟨le_rfl, le_rfl⟩

theorem OncePhase.elected (h : OncePhase initRoutine memory es s) (hmem : .exchange t ∈ es) :
    starts es = 1 ∨ starts es = 0 ∧ ∃! t, s.place t = .elected := by
  rcases h with h | ⟨i, h⟩ | h
  · exact absurd hmem (h.exchanged t)
  · have hprogress := h.progress
    cases hp : s.place i with
    | elected =>
      rw [hp] at hprogress
      refine .inr ⟨hprogress.1, i, hp, fun j hj => ?_⟩
      by_contra hne
      have hother := (h.others j hne).1
      rw [hj] at hother
      cases hother
    | _ =>
      rw [hp] at hprogress
      exact .inl hprogress.1
  · exact .inl h.progress.1

theorem Running.ne {i : T} (h : Running initRoutine memory es s i)
    (hp : (s.place t).isElected = false) : t ≠ i := by
  rintro rfl
  rw [h.elected] at hp
  cases hp

variable [DecidableEq T]

theorem Running.walk {i : T} {q : OncePlace} (h : Running initRoutine memory es s i) (ht : t ≠ i)
    (hq : q.isElected = false ∧ q.isPast = false) (hs : e.isStart = false) (hf : e.isFinish = false) :
    Running initRoutine memory (es ++ [e]) (s.walk t q) i := by
  have hat : (s.walk t q).place i = s.place i := s.walk_other q (Ne.symm ht)
  refine ⟨h.control, by rw [hat]; exact h.elected, ?_, ?_⟩
  · refine fun j hj => ?_
    by_cases hjt : j = t
    · rw [hjt, OnceState.walk_self]
      exact hq
    · rw [s.walk_other q hjt]
      exact h.others j hj
  · rw [hat]
    exact h.progress.snoc hs hf rfl

theorem Done.walk {q : OncePlace} (h : Done initRoutine memory es s) (hq : q.isElected = false)
    (hs : e.isStart = false) (hf : e.isFinish = false) :
    Done initRoutine memory (es ++ [e]) (s.walk t q) := by
  refine ⟨h.control, fun j => ?_, h.progress.snoc hs hf rfl⟩
  by_cases hjt : j = t
  · rw [hjt, OnceState.walk_self]
    exact hq
  · rw [s.walk_other q hjt]
    exact h.places j

theorem Running.advance (h : Running initRoutine memory es s t) {q : OncePlace}
    (hq : q.isElected) {v : OnceState T M} (hplace : v.place = (s.walk t q).place)
    (hcontrol : v.control = s.control) (hprogress : Progress initRoutine memory (es ++ [e]) v q) :
    Running initRoutine memory (es ++ [e]) v t := by
  have hat : v.place t = q := by rw [hplace, s.walk_self]
  refine ⟨hcontrol.trans h.control, by rwa [hat], fun i hi => ?_, by rwa [hat]⟩
  rw [hplace, s.walk_other q hi]
  exact h.others i hi

theorem Fresh.call (h : Fresh memory es s) (t : T) :
    Fresh memory (es ++ [.call t]) (s.walk t .exchange) where
  control := h.control
  places i := by
    by_cases hi : i = t
    · rw [hi, s.walk_self]
      exact .inr rfl
    · rw [s.walk_other .exchange hi]
      exact h.places i
  starts := by rw [starts_snoc, h.starts]; rfl
  finishes := by rw [finishes_snoc, h.finishes]; rfl
  exchanged i hmem := by
    rcases List.mem_append.mp hmem with hmem | hmem
    · exact h.exchanged i hmem
    · cases List.mem_singleton.mp hmem
  called i hmem := by
    by_cases hi : i = t
    · rw [hi, s.walk_self]
    · rw [s.walk_other .exchange hi]
      rcases List.mem_append.mp hmem with hmem | hmem
      · exact h.called i hmem
      · exact absurd (OnceEvent.call.inj (List.mem_singleton.mp hmem)) hi
  memory := h.memory

theorem Fresh.exchange (h : Fresh memory es s) (t : T) :
    Running initRoutine memory (es ++ [.exchange t])
      { s.walk t .elected with control := .inprogress } t := by
  have hat : (s.walk t .elected).place t = .elected := s.walk_self t .elected
  refine ⟨rfl, by rw [hat]; rfl, fun i hi => ?_, ?_⟩
  · dsimp only
    rw [s.walk_other .elected hi]
    rcases h.places i with hi | hi <;> rw [hi] <;> exact ⟨rfl, rfl⟩
  · dsimp only
    rw [hat]
    refine ⟨?_, ?_, h.memory⟩
    · rw [starts_snoc, h.starts]
      rfl
    · rw [finishes_snoc, h.finishes]
      rfl

theorem Running.store (h : Running initRoutine memory es s t) (hp : s.place t = .store) :
    Done initRoutine memory (es ++ [.store t]) { s.walk t .returning with control := .done } := by
  have hprogress := h.progress
  rw [hp] at hprogress
  refine ⟨rfl, fun i => ?_, hprogress.snoc rfl rfl rfl⟩
  by_cases hi : i = t
  · rw [hi]
    dsimp only
    rw [s.walk_self]
    rfl
  · dsimp only
    rw [s.walk_other .returning hi]
    exact (h.others i hi).1

theorem Running.start (h : Running initRoutine memory es s t) (hp : s.place t = .elected) :
    Running initRoutine memory (es ++ [.start t]) (s.walk t .running) t := by
  have hprogress := h.progress
  rw [hp] at hprogress
  obtain ⟨hstarts, hfinishes, hmemory⟩ := hprogress
  refine h.advance (q := .running) rfl rfl rfl ⟨?_, ?_, hmemory⟩
  · rw [starts_snoc, hstarts]
    rfl
  · rw [finishes_snoc, hfinishes]
    rfl

theorem Running.finish (h : Running initRoutine memory es s t) (hp : s.place t = .running)
    (result : R) :
    Running initRoutine memory (es ++ [.finish t result])
      { s.walk t .store with memory := initRoutine s.memory result } t := by
  have hprogress := h.progress
  rw [hp] at hprogress
  obtain ⟨hstarts, hfinishes, hmemory⟩ := hprogress
  refine h.advance (q := .store) rfl rfl rfl ⟨?_, ?_, t, result, ?_, ?_⟩
  · rw [starts_snoc, hstarts]
    rfl
  · rw [finishes_snoc, hfinishes]
    rfl
  · exact List.mem_append_right _ List.mem_cons_self
  · dsimp only
    rw [hmemory]

theorem OncePhase.exchange (h : OncePhase initRoutine memory es s) (hp : s.place t = .exchange)
    (hu : u = { s.walk t s.control.next with
      control := if s.control = .init then .inprogress else s.control }) :
    OncePhase initRoutine memory (es ++ [.exchange t]) u := by
  have hlost : s.control ≠ .init → u = s.walk t s.control.next := by
    intro hne
    rw [hu, if_neg hne]
    rfl
  rcases h with h | ⟨i, h⟩ | h
  · rw [h.control] at hu
    subst hu
    exact .inr (.inl ⟨t, h.exchange t⟩)
  · rw [hlost (by rw [h.control]; nofun), h.control]
    exact .inr (.inl ⟨i, h.walk (h.ne (by rw [hp]; rfl)) ⟨rfl, rfl⟩ rfl rfl⟩)
  · rw [hlost (by rw [h.control]; nofun), h.control]
    exact .inr (.inr (h.walk rfl rfl rfl))

theorem OncePhase.poll (h : OncePhase initRoutine memory es s) (hp : s.place t = .polling) :
    OncePhase initRoutine memory (es ++ [.poll t])
      (s.walk t (if s.control = .inprogress then .polling else .returning)) := by
  rcases h with h | ⟨i, h⟩ | h
  · rcases h.places t with hat | hat
    · rw [hp] at hat
      cases hat
    · rw [hp] at hat
      cases hat
  · rw [if_pos h.control]
    exact .inr (.inl ⟨i, h.walk (h.ne (by rw [hp]; rfl)) ⟨rfl, rfl⟩ rfl rfl⟩)
  · rw [if_neg (by rw [h.control]; nofun)]
    exact .inr (.inr (h.walk rfl rfl rfl))

variable [DecidableEq M]

theorem OncePhase.step (h : OncePhase initRoutine memory es s)
    (he : onceStep initRoutine s e = some u) : OncePhase initRoutine memory (es ++ [e]) u := by
  cases e with
  | call t =>
    obtain ⟨hp, heq⟩ := Option.ite_none_right_eq_some.mp he
    cases heq
    rcases h with h | ⟨i, h⟩ | h
    · exact .inl (h.call t)
    · exact .inr (.inl ⟨i, h.walk (h.ne (by rw [hp]; rfl)) ⟨rfl, rfl⟩ rfl rfl⟩)
    · exact .inr (.inr (h.walk rfl rfl rfl))
  | exchange t =>
    obtain ⟨hp, heq⟩ := Option.ite_none_right_eq_some.mp he
    exact h.exchange hp (Option.some.inj heq).symm
  | start t =>
    obtain ⟨hp, heq⟩ := Option.ite_none_right_eq_some.mp he
    cases heq
    exact .inr (.inl ⟨t, (h.running (by rw [hp]; rfl)).start hp⟩)
  | finish t result =>
    obtain ⟨hp, heq⟩ := Option.ite_none_right_eq_some.mp he
    cases heq
    exact .inr (.inl ⟨t, (h.running (by rw [hp]; rfl)).finish hp result⟩)
  | store t =>
    obtain ⟨hp, heq⟩ := Option.ite_none_right_eq_some.mp he
    cases heq
    exact .inr (.inr ((h.running (by rw [hp]; rfl)).store hp))
  | poll t =>
    obtain ⟨hp, heq⟩ := Option.ite_none_right_eq_some.mp he
    cases heq
    exact h.poll hp
  | ret t =>
    obtain ⟨hp, heq⟩ := Option.ite_none_right_eq_some.mp he
    cases heq
    exact .inr (.inr ((h.done (by rw [hp]; rfl)).walk rfl rfl rfl))
  | look t seen =>
    obtain ⟨⟨hp, hseen⟩, heq⟩ := Option.ite_none_right_eq_some.mp he
    cases heq
    have hdone := h.done (t := t) (by rw [hp]; rfl)
    exact .inr (.inr ⟨hdone.control, hdone.places, hdone.progress.snoc rfl rfl rfl⟩)
  | leave t =>
    obtain ⟨hp, heq⟩ := Option.ite_none_right_eq_some.mp he
    cases heq
    exact .inr (.inr ((h.done (by rw [hp]; rfl)).walk rfl rfl rfl))

theorem phase_of_run (hr : run (onceStep initRoutine) (initOnce T memory) es = some s) :
    OncePhase initRoutine memory es s :=
  run_invariant (I := OncePhase initRoutine memory)
    (.inl ⟨rfl, fun _ => .inl rfl, rfl, rfl, fun _ => List.not_mem_nil,
      fun _ h => absurd h List.not_mem_nil, rfl⟩)
    (fun _ _ _ _ _ h he => h.step he) hr

/-- What the routine has left stays. -/
theorem Done.step (h : Done initRoutine memory es s) (he : onceStep initRoutine s e = some u) :
    u.control = .done ∧ u.memory = s.memory := by
  cases e with
  | exchange t =>
    obtain ⟨-, heq⟩ := Option.ite_none_right_eq_some.mp he
    have hcontrol : u.control = if s.control = .init then .inprogress else s.control :=
      congrArg OnceState.control (Option.some.inj heq).symm
    rw [h.control] at hcontrol
    have hmemory : u.memory = s.memory := by
      cases heq
      rfl
    exact ⟨hcontrol, hmemory⟩
  | finish t result =>
    obtain ⟨hp, -⟩ := Option.ite_none_right_eq_some.mp he
    have hplace := h.places t
    rw [hp] at hplace
    cases hplace
  | store t =>
    obtain ⟨-, heq⟩ := Option.ite_none_right_eq_some.mp he
    cases heq
    exact ⟨rfl, rfl⟩
  | _ =>
    obtain ⟨-, heq⟩ := Option.ite_none_right_eq_some.mp he
    cases heq
    exact ⟨h.control, rfl⟩

theorem seen_of_run (hr : run (onceStep initRoutine) (initOnce T memory) es = some s)
    {seen : M} (hmem : .look t seen ∈ es) : Done initRoutine memory es s ∧ seen = s.memory := by
  induction es using List.reverseRecOn generalizing s with
  | nil => cases hmem
  | append_singleton es e ih =>
    have hphase := phase_of_run hr
    obtain ⟨v, hv, he⟩ := run_snoc_iff.mp hr
    have hlast : s.control = .done ∧ seen = s.memory := by
      rcases List.mem_append.mp hmem with hmem | hmem
      · obtain ⟨hdone, hseen⟩ := ih hv hmem
        obtain ⟨hcontrol, hmemory⟩ := hdone.step he
        exact ⟨hcontrol, hseen.trans hmemory.symm⟩
      · rw [← List.mem_singleton.mp hmem] at he
        obtain ⟨⟨hp, hseen⟩, heq⟩ := Option.ite_none_right_eq_some.mp he
        cases heq
        exact ⟨((phase_of_run hv).done (t := t) (by rw [hp]; rfl)).control, hseen.symm⟩
    refine ⟨?_, hlast.2⟩
    rcases hphase with h | ⟨i, h⟩ | h
    · rw [h.control] at hlast
      cases hlast.1
    · rw [h.control] at hlast
      cases hlast.1
    · exact h

/-- In a settled state no step takes a thread to another place. -/
theorem OnceState.Settled.place_eq (hs : s.Settled initRoutine) (he : e.isInside)
    (hstep : onceStep initRoutine s e = some u) : u.place t = s.place t := by
  rw [hs e u he hstep]

theorem Running.not_settled [Inhabited R] (h : Running initRoutine memory es s t) :
    ¬ s.Settled initRoutine := by
  intro hs
  have helected := h.elected
  cases hp : s.place t with
  | elected =>
    have hplace := hs.place_eq (t := t) (e := .start t) rfl (if_pos hp)
    rw [hp, s.walk_self] at hplace
    cases hplace
  | running =>
    have hplace := hs.place_eq (t := t) (e := .finish t default) rfl (if_pos hp)
    have hat : (s.walk t .store).place t = .store := s.walk_self t .store
    rw [hp] at hplace
    cases hat.symm.trans hplace
  | store =>
    have hplace := hs.place_eq (t := t) (e := .store t) rfl (if_pos hp)
    have hat : (s.walk t .returning).place t = .returning := s.walk_self t .returning
    rw [hp] at hplace
    cases hat.symm.trans hplace
  | _ =>
    rw [hp] at helected
    cases helected

theorem Fresh.not_settled (h : Fresh memory es s) (hcall : .call t ∈ es) :
    ¬ s.Settled initRoutine := by
  intro hs
  have hp := h.called t hcall
  have hplace := hs.place_eq (t := t) (e := .exchange t) rfl (if_pos hp)
  have hat : (s.walk t s.control.next).place t = s.control.next := s.walk_self t _
  rw [hp] at hplace
  have hnext := hat.symm.trans hplace
  rw [h.control] at hnext
  cases hnext

theorem onceLaw_of_run [Inhabited R]
    (hr : run (onceStep initRoutine) (initOnce T memory) es = some s) :
    OnceLaw initRoutine memory es s := by
  have hphase := phase_of_run hr
  refine ⟨hphase.once, fun ⟨t, hmem⟩ => hphase.elected hmem, fun hs ⟨t, hcall⟩ => ?_, ?_,
    s.memory, ?_⟩
  · rcases hphase with h | ⟨i, h⟩ | h
    · exact absurd hs (h.not_settled hcall)
    · exact absurd hs h.not_settled
    · exact h.progress.2.1
  · rintro pre t ⟨rest, rfl⟩
    obtain ⟨v, hv, -⟩ := run_append_iff.mp hr
    obtain ⟨w, hw, he⟩ := run_snoc_iff.mp hv
    obtain ⟨hp, -⟩ := Option.ite_none_right_eq_some.mp he
    exact ((phase_of_run hw).done (t := t) (by rw [hp]; rfl)).progress.2.1
  · intro t seen hmem
    obtain ⟨hdone, hseen⟩ := seen_of_run hr hmem
    exact ⟨hseen, hdone.progress.2.2⟩

end Phases

/-! ## The database driver of a script -/

def sbLuaDbInitOnce {D : Type*} (dbDriver drv : Option D) : Option D :=
  match dbDriver with
  | none => drv
  | some d => some d

/-- In every run the routine is run once before any call returns, and every thread that has passed
`pthread_once` in `sb_lua_db_connect` sees the driver that the only `db_init` returned. -/
theorem pthreadOnce_law (T : Type*) {M R D : Type*} [DecidableEq T] [DecidableEq M] [Inhabited R]
    [DecidableEq D] (initRoutine : M → R → M) (memory : M) :
    (∀ (es : List (OnceEvent T M R)) (s : OnceState T M),
      run (onceStep initRoutine) (initOnce T memory) es = some s →
      OnceLaw initRoutine memory es s) ∧
    ∀ (es : List (OnceEvent T (Option D) (Option D))) (s : OnceState T (Option D)),
      run (onceStep sbLuaDbInitOnce) (initOnce T none) es = some s →
      ∃ drv, ∀ t seen, .look t seen ∈ es → seen = drv ∧ ∃ i, .finish i drv ∈ es := by
  refine ⟨fun es s hr => onceLaw_of_run hr, fun es s hr => ?_⟩
  obtain ⟨left, hleft⟩ := (onceLaw_of_run hr).sees
  refine ⟨left, fun t seen hmem => ?_⟩
  obtain ⟨hseen, i, result, hfinish, rfl⟩ := hleft t seen hmem
  exact ⟨hseen, i, hfinish⟩

/-- Two threads connect; the second one polls the control while the first one initializes. -/
def twoConnect : List (OnceEvent Bool (Option ℕ) (Option ℕ)) :=
  [.call false, .call true, .exchange false, .exchange true, .start false, .poll true,
    .finish false (some 7), .store false, .poll true, .ret true, .look true (some 7), .ret false,
    .look false (some 7)]

theorem pthreadOnce_law_two : ∃ s,
    run (onceStep sbLuaDbInitOnce) (initOnce Bool none) twoConnect = some s ∧
      OnceLaw sbLuaDbInitOnce none twoConnect s ∧
      ∃ drv, ∀ t seen, .look t seen ∈ twoConnect → seen = drv ∧ ∃ i, .finish i drv ∈ twoConnect := by
  obtain ⟨s, hs⟩ : ∃ s, run (onceStep sbLuaDbInitOnce) (initOnce Bool none) twoConnect = some s :=
    Option.isSome_iff_exists.mp (by decide)
  have hlaw := pthreadOnce_law Bool (D := ℕ) (sbLuaDbInitOnce (D := ℕ)) none
  exact ⟨s, hs, hlaw.1 twoConnect s hs, hlaw.2 twoConnect s hs⟩

end Sysbench.Core
