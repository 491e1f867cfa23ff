import Mathlib

/-! # Traces cut at marked elements

A trace is cut after each element that satisfies `p`. Between two marked elements
lies a block of unmarked ones, and a law says which block is expected after the part
of the trace before it.
-/
namespace Sysbench.Segments

variable {α : Type*} {p : α → Bool}

/-- The list is empty or ends with a marked element. -/
def EndsAt (p : α → Bool) (xs : List α) : Prop := ∀ x ∈ xs.getLast?, p x = true

theorem endsAt_nil : EndsAt p [] := by simp [EndsAt]

theorem endsAt_snoc {xs : List α} {x : α} (hx : p x = true) : EndsAt p (xs ++ [x]) := by
  intro y hy
  rw [List.getLast?_concat, Option.mem_some_iff] at hy
  exact hy ▸ hx

theorem EndsAt.eq_nil {xs es : List α} (h : EndsAt p (xs ++ es))
    (hes : ∀ x ∈ es, p x = false) : es = [] := by
  induction es using List.reverseRecOn with
  | nil => rfl
  | append_singleton es e _ =>
    have htrue := h e (by simp [← List.append_assoc])
    have hfalse := hes e (by simp)
    rw [htrue] at hfalse
    cases hfalse

/-- There is only one way to cut a trace after its last marked element. -/
theorem split_unique {a b c d : List α} (ha : EndsAt p a) (hb : ∀ x ∈ b, p x = false)
    (hc : EndsAt p c) (hd : ∀ x ∈ d, p x = false) (h : a ++ b = c ++ d) : a = c ∧ b = d := by
  rcases List.append_eq_append_iff.mp h with ⟨e, rfl, rfl⟩ | ⟨e, rfl, rfl⟩
  · have he := hc.eq_nil (fun x hx => hb x (List.mem_append_left d hx))
    subst he
    simp
  · have he := ha.eq_nil (fun x hx => hd x (List.mem_append_left b hx))
    subst he
    simp

/-- Every block that a marked element closes is the one expected after the part of the
trace before it. -/
def BlocksLaw (p : α → Bool) (expected : List α → List α) (xs : List α) : Prop :=
  ∀ pre mid q post, xs = pre ++ mid ++ q :: post → EndsAt p pre → (∀ x ∈ mid, p x = false) →
    p q = true → mid = expected pre

theorem blocksLaw_nil (expected : List α → List α) : BlocksLaw p expected [] := by
  intro pre mid q post h
  simp at h

/-- Appending one element: only the last block can be closed by it. -/
theorem BlocksLaw.snoc {expected : List α → List α} {pre mid : List α}
    (h : BlocksLaw p expected (pre ++ mid)) (hpre : EndsAt p pre) (hmid : ∀ x ∈ mid, p x = false)
    {q : α} (hq : p q = true → mid = expected pre) :
    BlocksLaw p expected (pre ++ mid ++ [q]) := by
  intro pre' mid' q' post heq hpre' hmid' hq'
  rcases List.eq_nil_or_concat' post with rfl | ⟨post', e, rfl⟩
  · obtain ⟨hxs, heq'⟩ := List.append_inj' heq rfl
    obtain rfl : q = q' := by simpa using heq'
    obtain ⟨rfl, rfl⟩ := split_unique hpre hmid hpre' hmid' hxs
    exact hq hq'
  · have heq' : pre ++ mid ++ [q] = (pre' ++ mid' ++ q' :: post') ++ [e] := by
      rw [heq]
      simp
    exact h pre' mid' q' post' (List.append_inj' heq' rfl).1 hpre' hmid' hq'

/-- The first `n` elements of `xs` followed by copies of `x` without end. -/
def padded (xs : List α) (x : α) (n : ℕ) : List α := (List.range n).map fun i => xs.getD i x

@[simp] theorem padded_zero (xs : List α) (x : α) : padded xs x 0 = [] := rfl

@[simp] theorem length_padded (xs : List α) (x : α) (n : ℕ) : (padded xs x n).length = n := by
  simp [padded]

theorem padded_succ (xs : List α) (x : α) (n : ℕ) :
    padded xs x (n + 1) = padded xs x n ++ [xs.getD n x] := by
  simp [padded, List.range_succ]

end Sysbench.Segments
