import Mathlib

/-! # Runs of a guarded step function

A machine is a partial function from a state and an event to the next state. The
event carries what the step reads from outside and what it hands back, so that a
run is the list of its events. Nothing in this file knows about a program.
-/
namespace Sysbench.Runs

variable {S T E F : Type*}

/-- Perform the events in order. A run exists only if every step was possible. -/
def run (step : S → E → Option S) (s : S) (es : List E) : Option S := es.foldlM step s

@[simp] theorem run_nil (step : S → E → Option S) (s : S) : run step s [] = some s := rfl

@[simp] theorem run_cons (step : S → E → Option S) (s : S) (e : E) (es : List E) :
    run step s (e :: es) = (step s e).bind (fun t => run step t es) := by
  simp [run, List.foldlM_cons]

theorem run_append (step : S → E → Option S) (s : S) (es fs : List E) :
    run step s (es ++ fs) = (run step s es).bind (fun t => run step t fs) := by
  simp [run, List.foldlM_append]

/-- A run can be cut after any prefix of its events. -/
theorem run_append_iff {step : S → E → Option S} {s u : S} {es fs : List E} :
    run step s (es ++ fs) = some u ↔ ∃ t, run step s es = some t ∧ run step t fs = some u := by
  rw [run_append, Option.bind_eq_some_iff]

theorem run_snoc_iff {step : S → E → Option S} {s u : S} {es : List E} {e : E} :
    run step s (es ++ [e]) = some u ↔ ∃ t, run step s es = some t ∧ step t e = some u := by
  rw [run_append_iff]
  simp

theorem run_snoc {step : S → E → Option S} {s t u : S} {es : List E} {e : E}
    (hr : run step s es = some t) (he : step t e = some u) : run step s (es ++ [e]) = some u :=
  run_snoc_iff.mpr ⟨t, hr, he⟩

/-- What holds at the start and survives one step holds after every run. The property
may speak about the events so far as well as about the state they lead to. -/
theorem run_invariant {step : S → E → Option S} {s : S} {I : List E → S → Prop}
    (hinit : I [] s)
    (hstep : ∀ es t e u, run step s es = some t → I es t → step t e = some u →
      I (es ++ [e]) u)
    {es : List E} {t : S} (hr : run step s es = some t) : I es t := by
  induction es using List.reverseRecOn generalizing t with
  | nil =>
    cases hr
    exact hinit
  | append_singleton es e ih =>
    obtain ⟨u, hu, he⟩ := run_snoc_iff.mp hr
    exact hstep es u e t hu (ih hu) he

theorem run_preserves {step : S → E → Option S} {I : S → Prop}
    (hstep : ∀ s e t, I s → step s e = some t → I t)
    {s t : S} {es : List E} (hs : I s) (hr : run step s es = some t) : I t :=
  run_invariant (I := fun _ t => I t) hs (fun _ u e v _ hu he => hstep u e v hu he) hr

/-- Forward simulation. Every step of the concrete machine is matched by a run of the
abstract one that shows the same observations. -/
theorem run_simulation {O : Type*} {step : S → E → Option S} {step' : T → F → Option T}
    {obs : E → Option O} {obs' : F → Option O} {R : S → T → Prop}
    (hsim : ∀ s t e s', R s t → step s e = some s' →
      ∃ fs t', run step' t fs = some t' ∧ R s' t' ∧ fs.filterMap obs' = (obs e).toList)
    {s : S} {t : T} (hR : R s t) {es : List E} {s' : S} (hr : run step s es = some s') :
    ∃ fs t', run step' t fs = some t' ∧ R s' t' ∧ fs.filterMap obs' = es.filterMap obs := by
  induction es generalizing s t with
  | nil =>
    cases hr
    exact ⟨[], t, rfl, hR, rfl⟩
  | cons e es ih =>
    rw [run_cons, Option.bind_eq_some_iff] at hr
    obtain ⟨u, hu, hr⟩ := hr
    obtain ⟨fs, v, hv, hR', hobs⟩ := hsim s t e u hR hu
    obtain ⟨fs', t', ht', hR'', hobs'⟩ := ih hR' hr
    refine ⟨fs ++ fs', t', run_append_iff.mpr ⟨v, hv, ht'⟩, hR'', ?_⟩
    rw [List.filterMap_append, hobs, hobs', List.filterMap_cons]
    cases obs e <;> rfl

/-! ## Guards

A guard is a condition on the state before a step and the event. -/

/-- Every step of the run meets the guard. -/
def Guarded (step : S → E → Option S) (G : S → E → Prop) (s : S) (es : List E) : Prop :=
  ∀ pre e t, pre ++ [e] <+: es → run step s pre = some t → G t e

variable {step : S → E → Option S} {G : S → E → Prop} {s t : S} {es : List E}

theorem guarded_nil : Guarded step G s [] := by
  intro pre e t hpre
  simp at hpre

theorem Guarded.of_prefix {pre : List E} (h : Guarded step G s es) (hpre : pre <+: es) :
    Guarded step G s pre :=
  fun pre' e t hpre' => h pre' e t (hpre'.trans hpre)

theorem guarded_snoc_iff {e : E} (hr : run step s es = some t) :
    Guarded step G s (es ++ [e]) ↔ Guarded step G s es ∧ G t e := by
  constructor
  · intro h
    exact ⟨fun pre e' u hpre => h pre e' u (hpre.trans (List.prefix_append _ _)),
      h es e t List.prefix_rfl hr⟩
  · rintro ⟨h, he⟩ pre e' u hpre hu
    rcases List.prefix_concat_iff.mp hpre with heq | hpre
    · obtain ⟨rfl, rfl⟩ := List.concat_inj.mp (by simpa using heq)
      obtain rfl : t = u := Option.some.inj (hr.symm.trans hu)
      exact he
    · exact h pre e' u hpre hu

theorem guarded_cons_iff {e : E} (he : step s e = some t) :
    Guarded step G s (e :: es) ↔ G s e ∧ Guarded step G t es := by
  constructor
  · intro h
    refine ⟨h [] e s (List.prefix_append [e] es) rfl, fun pre e' u hpre hu => ?_⟩
    refine h (e :: pre) e' u (List.prefix_cons_inj e |>.mpr hpre) ?_
    rw [run_cons, he]
    exact hu
  · rintro ⟨hge, h⟩ pre e' u hpre hu
    cases pre with
    | nil =>
      obtain rfl := (List.cons_prefix_cons.mp hpre).1
      obtain rfl := Option.some.inj hu
      exact hge
    | cons d pre =>
      obtain ⟨rfl, htail⟩ := List.cons_prefix_cons.mp hpre
      rw [run_cons, he] at hu
      exact h pre e' u htail hu

theorem guarded_stuck_iff {e : E} (he : step s e = none) :
    Guarded step G s (e :: es) ↔ G s e := by
  refine ⟨fun h => h [] e s (List.prefix_append [e] es) rfl, fun hge pre e' u hpre hu => ?_⟩
  cases pre with
  | nil =>
    obtain rfl := (List.cons_prefix_cons.mp hpre).1
    obtain rfl := Option.some.inj hu
    exact hge
  | cons d pre =>
    obtain ⟨rfl, -⟩ := List.cons_prefix_cons.mp hpre
    rw [run_cons, he] at hu
    cases hu

/-- The guard is looked at before each step. -/
def checkGuard (step : S → E → Option S) (G : S → E → Prop) [∀ s e, Decidable (G s e)] :
    S → List E → Bool
  | _, [] => true
  | s, e :: es => decide (G s e) && (step s e).elim true fun t => checkGuard step G t es

theorem checkGuard_iff [∀ s e, Decidable (G s e)] :
    checkGuard step G s es = true ↔ Guarded step G s es := by
  induction es generalizing s with
  | nil => exact iff_of_true rfl guarded_nil
  | cons e es ih =>
    rw [checkGuard, Bool.and_eq_true, decide_eq_true_iff]
    cases he : step s e with
    | none => rw [guarded_stuck_iff he, Option.elim_none, and_iff_left rfl]
    | some t => rw [guarded_cons_iff he, Option.elim_some, ih]

instance [∀ s e, Decidable (G s e)] : Decidable (Guarded step G s es) :=
  decidable_of_iff _ checkGuard_iff

/-- A property that exactly the steps outside the guard break, and no step repairs, holds after
exactly the guarded runs. -/
theorem guarded_iff {P : List E → S → Prop} (hinit : P [] s)
    (hstep : ∀ es t e u, run step s es = some t → step t e = some u →
      (P (es ++ [e]) u ↔ P es t ∧ G t e))
    (hr : run step s es = some t) : P es t ↔ Guarded step G s es := by
  induction es using List.reverseRecOn generalizing t with
  | nil =>
    cases hr
    exact iff_of_true hinit guarded_nil
  | append_singleton es e ih =>
    obtain ⟨u, hu, he⟩ := run_snoc_iff.mp hr
    rw [hstep es u e t hu he, guarded_snoc_iff hu, ih hu]

/-- What guarded steps keep holds after a guarded run. -/
theorem Guarded.invariant {I : List E → S → Prop} (hinit : I [] s)
    (hstep : ∀ es t e u, run step s es = some t → I es t → G t e → step t e = some u →
      I (es ++ [e]) u)
    (hg : Guarded step G s es) (hr : run step s es = some t) : I es t := by
  induction es using List.reverseRecOn generalizing t with
  | nil =>
    cases hr
    exact hinit
  | append_singleton es e ih =>
    obtain ⟨u, hu, he⟩ := run_snoc_iff.mp hr
    obtain ⟨hes, hge⟩ := (guarded_snoc_iff hu).mp hg
    exact hstep es u e t hu (ih hes hu) hge he

theorem guarded_congr {D : S → E → Prop} {I : S → Prop} (hinit : I s)
    (hstep : ∀ t e u, I t → step t e = some u → I u)
    (hD : ∀ t e u, I t → step t e = some u → (D t e ↔ G t e))
    (hr : run step s es = some t) : Guarded step D s es ↔ Guarded step G s es := by
  have hagree : ∀ pre e u, pre ++ [e] <+: es → run step s pre = some u → (D u e ↔ G u e) := by
    rintro pre e u ⟨rest, rfl⟩ hu
    obtain ⟨v, hv, -⟩ := run_append_iff.mp hr
    obtain ⟨w, hw, he⟩ := run_snoc_iff.mp hv
    cases hw.symm.trans hu
    exact hD u e v (run_preserves hstep hinit hu) he
  constructor
  · intro h pre e u hpre hu
    exact (hagree pre e u hpre hu).mp (h pre e u hpre hu)
  · intro h pre e u hpre hu
    exact (hagree pre e u hpre hu).mpr (h pre e u hpre hu)

/-- Where the invariant holds, a demand on a step that asks for the step to be possible is the
guard. Then it is met by every step asked for exactly if the run is guarded. -/
theorem demanded_iff_guarded {D : S → E → Prop} {I : S → Prop} (hinit : I s)
    (hD : ∀ t, ∀ e ∈ es, I t → (D t e ↔ G t e))
    (hdef : ∀ t, ∀ e ∈ es, I t → D t e → ∃ u, step t e = some u ∧ I u) :
    (∀ pre e, pre ++ [e] <+: es → ∃ t, run step s pre = some t ∧ D t e) ↔
      Guarded step G s es := by
  have hmem : ∀ {pre : List E} {e : E}, pre ++ [e] <+: es → e ∈ es := fun hpre =>
    hpre.subset (List.mem_append_right _ List.mem_cons_self)
  -- Either side makes every part of the run possible, by induction on the part.
  have hreach : ∀ pre, pre <+: es →
      (∀ pre' e t, pre' ++ [e] <+: pre → run step s pre' = some t → I t → D t e) →
        ∃ t, run step s pre = some t ∧ I t := by
    intro pre
    induction pre using List.reverseRecOn with
    | nil => exact fun _ _ => ⟨s, rfl, hinit⟩
    | append_singleton pre e ih =>
      intro hpre hstep
      obtain ⟨t, hrun, hI⟩ := ih ((List.prefix_append _ _).trans hpre)
        fun pre' e' t hpre' => hstep pre' e' t (hpre'.trans (List.prefix_append _ _))
      obtain ⟨u, he, hu⟩ := hdef t e (hmem hpre) hI (hstep pre e t List.prefix_rfl hrun hI)
      exact ⟨u, run_snoc hrun he, hu⟩
  constructor
  · intro hdem pre e t hpre hrun
    have hstep : ∀ pre' e' t', pre' ++ [e'] <+: pre → run step s pre' = some t' → I t' →
        D t' e' := by
      intro pre' e' t' hpre' hrun' _
      obtain ⟨t₁, hrun₁, hd⟩ := hdem pre' e'
        (hpre'.trans ((List.prefix_append _ _).trans hpre))
      obtain rfl := Option.some.inj (hrun₁.symm.trans hrun')
      exact hd
    obtain ⟨t₁, hrun₁, hd⟩ := hdem pre e hpre
    obtain ⟨t₂, hrun₂, hI⟩ := hreach pre ((List.prefix_append _ _).trans hpre) hstep
    cases hrun₁.symm.trans hrun
    cases hrun₂.symm.trans hrun
    exact (hD t e (hmem hpre) hI).mp hd
  · intro hg pre e hpre
    have hstep : ∀ pre' e' t', pre' ++ [e'] <+: pre → run step s pre' = some t' → I t' →
        D t' e' := by
      intro pre' e' t' hpre' hrun' hI
      have hpre'' := hpre'.trans ((List.prefix_append _ _).trans hpre)
      exact (hD t' e' (hmem hpre'') hI).mpr (hg pre' e' t' hpre'' hrun')
    obtain ⟨t, hrun, hI⟩ := hreach pre ((List.prefix_append _ _).trans hpre) hstep
    exact ⟨t, hrun, (hD t e (hmem hpre) hI).mpr (hg pre e t hpre hrun)⟩

/-! ## Numerals for the parts of small runs -/

scoped instance onePart : NeZero 1 := ⟨one_ne_zero⟩

scoped instance twoParts : NeZero 2 := ⟨two_ne_zero⟩

end Sysbench.Runs
