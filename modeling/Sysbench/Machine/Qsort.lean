import Mathlib

/-! # Sorting by a comparison function

`qsort` of the C library gets a comparison whose sign is the order of two elements. Nothing is said
about the result unless the comparison is consistent on the elements of the array.
-/
namespace Sysbench.Qsort

variable {α : Type*} {cmp : α → α → ℤ} {l l' : List α}

structure Consistent (cmp : α → α → ℤ) (l : List α) : Prop where
  swap : ∀ a ∈ l, ∀ b ∈ l, 0 < cmp a b ↔ cmp b a < 0
  trans : ∀ a ∈ l, ∀ b ∈ l, ∀ c ∈ l, cmp a b ≤ 0 → cmp b c ≤ 0 → cmp a c ≤ 0

/-- `l'` may be in the array after a call with `l` in it. -/
def Sorts (cmp : α → α → ℤ) (l l' : List α) : Prop :=
  Consistent cmp l → l'.Perm l ∧ l'.Pairwise fun a b => cmp a b ≤ 0

theorem Consistent.total (h : Consistent cmp l) {a b : α} (ha : a ∈ l) (hb : b ∈ l) :
    cmp a b ≤ 0 ∨ cmp b a ≤ 0 := by
  have hswap := h.swap a ha b hb
  omega

theorem exists_sorts (cmp : α → α → ℤ) (l : List α) : ∃ l', Sorts cmp l l' := by
  classical
  by_cases h : Consistent cmp l
  swap
  · exact ⟨l, fun h' => absurd h' h⟩
  -- the elements of the array come before all others
  let le : α → α → Bool := fun a b => if a ∈ l then b ∈ l → cmp a b ≤ 0 else b ∉ l
  have htrans : ∀ a b c, le a b → le b c → le a c := by
    intro a b c hab hbc
    by_cases ha : a ∈ l <;> by_cases hb : b ∈ l <;> by_cases hc : c ∈ l <;>
      simp only [le, ha, hb, hc, if_true, if_false, forall_true_left, not_true, not_false_eq_true,
        decide_true, decide_false, decide_eq_true_eq, Bool.false_eq_true, false_implies] at hab hbc ⊢
    exact h.trans a ha b hb c hc hab hbc
  have htotal : ∀ a b, le a b || le b a := by
    intro a b
    by_cases ha : a ∈ l <;> by_cases hb : b ∈ l <;> simp [le, ha, hb]
    exact h.total ha hb
  refine ⟨l.mergeSort le, fun _ => ⟨List.mergeSort_perm l le, ?_⟩⟩
  refine (List.pairwise_mergeSort htrans htotal l).imp_of_mem fun {a b} ha hb hle => ?_
  rw [List.mem_mergeSort] at ha hb
  simpa [le, ha, hb] using hle

/-! ## Comparisons that agree with an order -/

variable [LinearOrder α]

structure Agrees (cmp : α → α → ℤ) (l : List α) : Prop where
  neg : ∀ a ∈ l, ∀ b ∈ l, cmp a b < 0 ↔ a < b
  pos : ∀ a ∈ l, ∀ b ∈ l, 0 < cmp a b ↔ b < a

theorem Agrees.nonpos (h : Agrees cmp l) {a b : α} (ha : a ∈ l) (hb : b ∈ l) :
    cmp a b ≤ 0 ↔ a ≤ b := by
  rw [← not_lt, h.pos a ha b hb, not_lt]

theorem Agrees.consistent (h : Agrees cmp l) : Consistent cmp l where
  swap a ha b hb := by rw [h.pos a ha b hb, h.neg b hb a ha]
  trans a ha b hb c hc hab hbc := by
    rw [h.nonpos ha hc]
    exact ((h.nonpos ha hb).mp hab).trans ((h.nonpos hb hc).mp hbc)

/-- The result is the array in the order of its elements. -/
theorem Agrees.sorts_iff (h : Agrees cmp l) : Sorts cmp l l' ↔ l' = l.mergeSort := by
  have hsorted : l.mergeSort.Pairwise (· ≤ ·) := List.pairwise_mergeSort' (· ≤ ·) l
  constructor
  · intro hsorts
    obtain ⟨hperm, hcmp⟩ := hsorts h.consistent
    have hle : l'.Pairwise (· ≤ ·) := hcmp.imp_of_mem fun ha hb hab =>
      (h.nonpos (hperm.mem_iff.mp ha) (hperm.mem_iff.mp hb)).mp hab
    exact (hperm.trans (List.mergeSort_perm l _).symm).eq_of_pairwise' hle hsorted
  · rintro rfl -
    refine ⟨List.mergeSort_perm l _, hsorted.imp_of_mem fun {a b} ha hb hab => ?_⟩
    rw [List.mem_mergeSort] at ha hb
    exact (h.nonpos ha hb).mpr hab

/-- Two elements that the comparison has the wrong way round stand the wrong way round in the
result. -/
theorem Sorts.not_sorted (hl : Consistent cmp l) (h : Sorts cmp l l') {a b : α} (ha : a ∈ l)
    (hb : b ∈ l) (hab : a < b) (hcmp : 0 < cmp a b) : ¬ l'.Pairwise (· ≤ ·) := by
  intro hle
  obtain ⟨hperm, hnonpos⟩ := h hl
  have hboth : l'.Pairwise fun x y => cmp x y ≤ 0 ∧ x ≤ y ∨ cmp y x ≤ 0 ∧ y ≤ x :=
    (hnonpos.and hle).imp Or.inl
  have hsymm : Std.Symm fun x y : α => cmp x y ≤ 0 ∧ x ≤ y ∨ cmp y x ≤ 0 ∧ y ≤ x :=
    ⟨fun _ _ => Or.symm⟩
  rcases hboth.forall (hperm.mem_iff.mpr ha) (hperm.mem_iff.mpr hb) hab.ne with
    ⟨hneg, -⟩ | ⟨-, hba⟩
  · exact absurd hcmp (not_lt.mpr hneg)
  · exact absurd hab (not_lt.mpr hba)

end Sysbench.Qsort
