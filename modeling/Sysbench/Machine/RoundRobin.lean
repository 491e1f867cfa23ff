import Sysbench.Machine.Ring

/-! # Round robin on an intrusive ring

A cursor goes round a ring whose head is a node but no entry. It starts at the head, and each
time it moves to the next node it skips the head.
-/
namespace Sysbench.Rings

variable {ι : Type*} {l : Links ι} {head a b : ι} {xs : List ι}

theorem Segment.next_getElem (h : Segment l a xs b) {i : ℕ} (hi : i < xs.length) :
    l.next xs[i] = (xs ++ [b]).get ⟨i + 1, by simp; omega⟩ := by
  induction xs generalizing a i with
  | nil => exact absurd hi (Nat.not_lt_zero i)
  | cons x xs ih =>
    cases i with
    | zero =>
      cases xs with
      | nil => exact h.2.2.1
      | cons y xs => exact h.2.2.1
    | succ i => exact ih h.2.2 (Nat.lt_of_succ_lt_succ hi)

variable [DecidableEq ι]

/-- Move the cursor to the next entry. -/
def Links.advance (l : Links ι) (head pos : ι) : ι :=
  if l.next pos = head then l.next head else l.next pos

theorem Linked.advance_head (h : Linked l head xs) (hne : 0 < xs.length) :
    l.advance head head = xs[0] := by
  cases xs with
  | nil => exact absurd hne (Nat.lt_irrefl 0)
  | cons x xs =>
    rw [Links.advance, h.next_head]
    exact ite_self x

theorem Linked.advance_getElem (h : Linked l head xs) {i : ℕ} (hi : i < xs.length) :
    l.advance head xs[i] =
      xs.get ⟨(i + 1) % xs.length, Nat.mod_lt _ (Nat.zero_lt_of_lt hi)⟩ := by
  have hhead : head ∉ xs := (List.nodup_cons.mp h.nodup).1
  have hnext := h.ring.next_getElem hi
  rw [List.get_eq_getElem] at hnext ⊢
  rw [Links.advance]
  by_cases hlast : i + 1 < xs.length
  · rw [List.getElem_append_left hlast] at hnext
    have hne : xs[i + 1] ≠ head := fun heq => hhead (heq ▸ List.getElem_mem hlast)
    simp only [hnext, if_neg hne, Nat.mod_eq_of_lt hlast]
  · have hlen : i + 1 = xs.length := by omega
    have hback : l.next xs[i] = head := by simpa [hlen] using hnext
    have hfirst := h.advance_head (Nat.zero_lt_of_lt hi)
    rw [Links.advance, ite_self] at hfirst
    simp only [hback, if_true, hfirst, hlen, Nat.mod_self]

/-- The `k`-th entry that the cursor meets, counted from 0. -/
theorem Linked.iterate_advance (h : Linked l head xs) (hne : 0 < xs.length) (k : ℕ) :
    (l.advance head)^[k + 1] head = xs.get ⟨k % xs.length, Nat.mod_lt k hne⟩ := by
  induction k with
  | zero => simpa using h.advance_head hne
  | succ k ih =>
    rw [Function.iterate_succ_apply', ih, List.get_eq_getElem, h.advance_getElem]
    simp only [Nat.mod_add_mod]

/-! ## How often an entry is met -/

/-- The elements of `ys` are those of `xs`, over and over. -/
def Cyclic (xs ys : List ι) : Prop := ∀ k < ys.length, ys[k]? = xs[k % xs.length]?

omit [DecidableEq ι] in
theorem Cyclic.of_snoc {ys : List ι} {y : ι} (h : Cyclic xs (ys ++ [y])) :
    Cyclic xs ys ∧ xs[ys.length % xs.length]? = some y := by
  constructor
  · intro k hk
    rw [← h k (by simp; omega), List.getElem?_append_left hk]
  · rw [← h ys.length (by simp), List.getElem?_concat_length]

theorem Cyclic.count_eq {ys : List ι} (h : Cyclic xs ys) (hnodup : xs.Nodup) {j : ℕ}
    (hj : j < xs.length) : ys.count xs[j] = ys.length.count (· ≡ j [MOD xs.length]) := by
  induction ys using List.reverseRecOn with
  | nil => rfl
  | append_singleton ys y ih =>
    obtain ⟨hys, hy⟩ := h.of_snoc
    obtain ⟨hlt, rfl⟩ := List.getElem?_eq_some_iff.mp hy
    have hsame : xs[ys.length % xs.length] = xs[j] ↔ ys.length ≡ j [MOD xs.length] := by
      rw [hnodup.getElem_inj_iff, Nat.ModEq, Nat.mod_eq_of_lt hj]
    rw [List.count_append, ih hys, List.length_append, List.length_singleton, Nat.count_succ,
      List.count_singleton]
    simp only [beq_iff_eq, hsame]

/-- Going round a list meets every entry equally often, up to the last round. -/
theorem Cyclic.count_eq_div {ys : List ι} (h : Cyclic xs ys) (hnodup : xs.Nodup) {j : ℕ}
    (hj : j < xs.length) :
    ys.count xs[j] = ys.length / xs.length + if j < ys.length % xs.length then 1 else 0 := by
  rw [h.count_eq hnodup hj, Nat.count_modEq_card _ (Nat.zero_lt_of_lt hj), Nat.mod_eq_of_lt hj]

theorem Cyclic.count_floor_or_ceil {ys : List ι} (h : Cyclic xs ys) (hnodup : xs.Nodup) {x : ι}
    (hx : x ∈ xs) :
    ys.count x = ys.length / xs.length ∨ ys.count x = ys.length ⌈/⌉ xs.length := by
  obtain ⟨j, hj, rfl⟩ := List.getElem_of_mem hx
  rw [h.count_eq_div hnodup hj]
  split_ifs with hround
  · right
    have hpos := Nat.zero_lt_of_lt hj
    have hdiv := Nat.div_add_mod ys.length xs.length
    have hmod := Nat.mod_lt ys.length hpos
    rw [Nat.ceilDiv_eq_add_pred_div]
    refine (Nat.div_eq_of_lt_le ?_ ?_).symm
    · rw [Nat.succ_mul, mul_comm]
      omega
    · rw [Nat.succ_mul, Nat.succ_mul, mul_comm]
      omega
  · exact .inl rfl

end Sysbench.Rings
