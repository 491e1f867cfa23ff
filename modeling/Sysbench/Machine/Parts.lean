import Sysbench.Machine.Runs

/-! # Machines with parts

A part of a machine takes a step of its own with some of the machine's events and stays as it is
with the others. What is known of the runs of the part then holds of the events that concern it.
-/
namespace Sysbench.Parts

open Runs

variable {S T E F : Type*} {step : S → E → Option S} {step' : T → F → Option T} {part : S → T}
  {event : E → Option F} {s u : S} {es : List E}

/-- `part` moves by `step'` with the events that concern it. -/
def IsPart (step : S → E → Option S) (step' : T → F → Option T) (part : S → T)
    (event : E → Option F) : Prop :=
  ∀ s e u, step s e = some u →
    match event e with
    | some f => step' (part s) f = some (part u)
    | none => part u = part s

theorem IsPart.run (h : IsPart step step' part event) (hr : run step s es = some u) :
    run step' (part s) (es.filterMap event) = some (part u) := by
  induction es using List.reverseRecOn generalizing u with
  | nil =>
    cases hr
    rfl
  | append_singleton es e ih =>
    obtain ⟨t, ht, he⟩ := run_snoc_iff.mp hr
    have hone := h t e u he
    rw [List.filterMap_append]
    cases hevent : event e with
    | none =>
      rw [hevent] at hone
      dsimp only at hone
      rw [List.filterMap_cons_none hevent, List.filterMap_nil, List.append_nil, ih ht, hone]
    | some f =>
      rw [hevent] at hone
      rw [List.filterMap_cons_some hevent, List.filterMap_nil]
      exact run_snoc (ih ht) hone

end Sysbench.Parts
