import Sysbench.Machine.Runs

/-! # Runs over a store with keys

Every operation concerns one key, so a run over the store is one run for each key. Logs that are
interleaved are put together again for a key if the operations of the key stand in one log.
-/
namespace Sysbench.KeyedRuns

open Runs

variable {κ V A : Type*} [DecidableEq κ]

def project (k : κ) (ops : List (κ × A)) : List A :=
  ops.filterMap fun op => if op.1 = k then some op.2 else none

@[simp] theorem project_nil (k : κ) : project k ([] : List (κ × A)) = [] := rfl

theorem project_append (k : κ) (ops ops' : List (κ × A)) :
    project k (ops ++ ops') = project k ops ++ project k ops' := List.filterMap_append

theorem project_cons_self (k : κ) (a : A) (ops : List (κ × A)) :
    project k ((k, a) :: ops) = a :: project k ops := by
  simp [project]

theorem project_cons_of_ne {k k' : κ} (h : k' ≠ k) (a : A) (ops : List (κ × A)) :
    project k ((k', a) :: ops) = project k ops := by
  simp [project, h]

theorem mem_project {k : κ} {a : A} {ops : List (κ × A)} : a ∈ project k ops ↔ (k, a) ∈ ops := by
  simp only [project, List.mem_filterMap, Option.ite_none_right_eq_some, Option.some_inj]
  constructor
  · rintro ⟨⟨k', a'⟩, hmem, rfl, rfl⟩
    exact hmem
  · exact fun h => ⟨(k, a), h, rfl, rfl⟩

theorem project_flatMap_eq_nil {ι : Type*} {k : κ} {is : List ι} {f : ι → List (κ × A)}
    (h : ∀ i ∈ is, project k (f i) = []) : project k (is.flatMap f) = [] := by
  induction is with
  | nil => rfl
  | cons i is ih =>
    rw [List.flatMap_cons, project_append, h i List.mem_cons_self,
      ih fun j hj => h j (List.mem_cons_of_mem i hj), List.append_nil]

/-- One part of a log has all the operations of a key. -/
theorem project_flatMap {ι : Type*} {k : κ} {is : List ι} {i : ι} {f : ι → List (κ × A)}
    (hnodup : is.Nodup) (hi : i ∈ is) (h : ∀ j, j ≠ i → project k (f j) = []) :
    project k (is.flatMap f) = project k (f i) := by
  obtain ⟨before, after, rfl⟩ := List.append_of_mem hi
  have hnot : i ∉ before ++ after := (List.nodup_middle.mp hnodup).notMem
  have hbefore : ∀ j ∈ before, project k (f j) = [] := fun j hj =>
    h j fun heq => hnot (List.mem_append_left _ (heq ▸ hj))
  have hafter : ∀ j ∈ after, project k (f j) = [] := fun j hj =>
    h j fun heq => hnot (List.mem_append_right _ (heq ▸ hj))
  rw [List.flatMap_append, List.flatMap_cons, project_append, project_append,
    project_flatMap_eq_nil hbefore, project_flatMap_eq_nil hafter, List.nil_append,
    List.append_nil]

/-! ## Stores -/

def keyedStep (step : V → A → Option V) (m : κ → V) (op : κ × A) : Option (κ → V) :=
  (step (m op.1) op.2).map (Function.update m op.1)

/-- A run over the store is one run for each key. -/
theorem run_keyedStep_iff {step : V → A → Option V} {m m' : κ → V} {ops : List (κ × A)} :
    run (keyedStep step) m ops = some m' ↔ ∀ k, run step (m k) (project k ops) = some (m' k) := by
  induction ops generalizing m with
  | nil =>
    simp only [run_nil, project_nil, Option.some_inj]
    exact ⟨fun h k => congrFun h k, fun h => funext h⟩
  | cons op ops ih =>
    obtain ⟨k, a⟩ := op
    rw [run_cons, keyedStep]
    cases hstep : step (m k) a with
    | none =>
      refine iff_of_false (fun h => by cases h) fun h => ?_
      have hk := h k
      rw [project_cons_self, run_cons, hstep] at hk
      cases hk
    | some v =>
      rw [Option.map_some, Option.bind_some, ih]
      refine forall_congr' fun k' => ?_
      by_cases hk : k = k'
      · subst hk
        rw [Function.update_self, project_cons_self, run_cons, hstep, Option.bind_some]
      · rw [Function.update_of_ne (Ne.symm hk), project_cons_of_ne hk]

/-! ## Interleavings -/

variable {T : Type*} [DecidableEq T]

/-- The logs happen in some order that keeps the order of each of them. -/
def Interleaves (events : List (T × A)) (logs : T → List A) : Prop :=
  ∀ t, project t events = logs t

theorem interleaves_single {t : T} {log : List A} {logs : T → List A} (ht : logs t = log)
    (hother : ∀ t', t' ≠ t → logs t' = []) : Interleaves (log.map fun a => (t, a)) logs := by
  intro t'
  by_cases h : t' = t
  · subst h
    rw [ht]
    clear ht
    induction log with
    | nil => rfl
    | cons a log ih => rw [List.map_cons, project_cons_self, ih]
  · rw [hother t' h]
    clear ht
    induction log with
    | nil => rfl
    | cons a log ih => rw [List.map_cons, project_cons_of_ne (Ne.symm h), ih]

/-- The operations of a key are in the order of the only log that has any. -/
theorem Interleaves.project_eq {events : List (T × (κ × A))} {logs : T → List (κ × A)}
    (h : Interleaves events logs) {k : κ} {t : T}
    (howner : ∀ t' a, (k, a) ∈ logs t' → t' = t) :
    project k (events.map Prod.snd) = project k (logs t) := by
  rw [← h t]
  have hevents : ∀ t' a, (t', (k, a)) ∈ events → t' = t := fun t' a hmem =>
    howner t' a ((h t') ▸ mem_project.mpr hmem)
  clear h howner
  induction events with
  | nil => rfl
  | cons e events ih =>
    obtain ⟨t', k', a⟩ := e
    have ih' := ih fun t' a hmem => hevents t' a (List.mem_cons_of_mem _ hmem)
    rw [List.map_cons]
    by_cases hk : k' = k
    · subst hk
      obtain rfl := hevents t' a List.mem_cons_self
      rw [project_cons_self, project_cons_self, project_cons_self, ih']
    · rw [project_cons_of_ne hk, ih']
      by_cases ht : t' = t
      · subst ht
        rw [project_cons_self, project_cons_of_ne hk]
      · rw [project_cons_of_ne ht]

/-- A key that no log mentions is not mentioned at all. -/
theorem Interleaves.project_eq_nil {events : List (T × (κ × A))} {logs : T → List (κ × A)}
    (h : Interleaves events logs) {k : κ} (hnone : ∀ t a, (k, a) ∉ logs t) :
    project k (events.map Prod.snd) = [] := by
  rw [List.eq_nil_iff_forall_not_mem]
  intro a ha
  obtain ⟨⟨t, op⟩, hmem, rfl⟩ := List.mem_map.mp (mem_project.mp ha)
  exact hnone t a ((h t) ▸ mem_project.mpr hmem)

end Sysbench.KeyedRuns
