import Mathlib

/-! # Windows between marks of a trace

A mark is an event that ends a window and starts the next one. `since` is the window that
is still open, `lastWindow` the one that the latest mark closed.
-/
namespace Sysbench.Windows

variable {E : Type*} (p : E → Bool)

/-- The events since the last mark. -/
def since (es : List E) : List E := es.rtakeWhile fun e => !p e

def beforeMark (es : List E) : List E := (es.rdropWhile fun e => !p e).dropLast

def lastWindow (es : List E) : List E := since p (beforeMark p es)

@[simp] theorem since_nil : since p ([] : List E) = [] := List.rtakeWhile_nil _

@[simp] theorem lastWindow_nil : lastWindow p ([] : List E) = [] := by
  simp [lastWindow, beforeMark]

variable {p} {e : E} (es : List E)

theorem since_snoc : since p (es ++ [e]) = if p e then [] else since p es ++ [e] := by
  simp only [since, List.rtakeWhile_concat]
  cases p e <;> simp

theorem since_mark (h : p e = true) : since p (es ++ [e]) = [] := by
  simp [since_snoc, h]

theorem since_other (h : p e = false) : since p (es ++ [e]) = since p es ++ [e] := by
  simp [since_snoc, h]

theorem lastWindow_mark (h : p e = true) : lastWindow p (es ++ [e]) = since p es := by
  simp [lastWindow, beforeMark, h]

theorem lastWindow_other (h : p e = false) : lastWindow p (es ++ [e]) = lastWindow p es := by
  simp [lastWindow, beforeMark, h]

/-- The open window and the closed one are parts of the trace, one after the other. -/
theorem lastWindow_since_sublist : (lastWindow p es ++ since p es).Sublist es := by
  have hsplit : (es.rdropWhile fun e => !p e) ++ since p es = es := List.rdropWhile_append_rtakeWhile
  have hlast : (lastWindow p es).Sublist (es.rdropWhile fun e => !p e) :=
    (List.rtakeWhile_suffix _ _).sublist.trans (List.dropLast_sublist _)
  calc (lastWindow p es ++ since p es).Sublist _ := hlast.append (List.Sublist.refl _)
    _ = es := hsplit

/-! ## Conditions on a trace -/

/-- Every event meets the condition, which may speak of the events before it. -/
def Throughout (Q : List E → E → Prop) (es : List E) : Prop :=
  ∀ pre e, pre ++ [e] <+: es → Q pre e

variable {Q R : List E → E → Prop} {es}

theorem throughout_nil : Throughout Q [] := by
  intro pre e hpre
  simp at hpre

theorem throughout_snoc_iff : Throughout Q (es ++ [e]) ↔ Throughout Q es ∧ Q es e := by
  constructor
  · intro h
    exact ⟨fun pre e' hpre => h pre e' (hpre.trans (List.prefix_append _ _)),
      h es e List.prefix_rfl⟩
  · rintro ⟨h, he⟩ pre e' hpre
    rcases List.prefix_concat_iff.mp hpre with heq | hpre
    · obtain ⟨rfl, rfl⟩ := List.concat_inj.mp (by simpa using heq)
      exact he
    · exact h pre e' hpre

end Sysbench.Windows
