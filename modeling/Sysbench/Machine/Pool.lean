import Mathlib

/-! # Totals over a pool of workers

A pool gives every worker a local state. One step replaces the state of one worker,
so a sum over the pool changes by what that worker's share changes.
-/
namespace Sysbench.Pool

variable {ι W : Type*}

/-- After a step of worker `t`, the state of worker `i`. -/
theorem update_eq_iff [DecidableEq ι] {pool : ι → W} {t i : ι} {w x : W} :
    Function.update pool t w i = x ↔ i = t ∧ w = x ∨ i ≠ t ∧ pool i = x := by
  by_cases hi : i = t
  · subst hi
    simp
  · simp [hi]

variable [Fintype ι]

def total (cost : W → ℕ) (pool : ι → W) : ℕ := ∑ i, cost (pool i)

theorem sum_update {M : Type*} [AddCommMonoid M] [DecidableEq ι] (share : W → M) (pool : ι → W)
    (t : ι) (x : W) :
    ∑ i, share (Function.update pool t x i) + share (pool t) = ∑ i, share (pool i) + share x := by
  have hmem : t ∈ (Finset.univ : Finset ι) := Finset.mem_univ t
  have hrest : ∑ i ∈ Finset.univ.erase t, share (Function.update pool t x i) =
      ∑ i ∈ Finset.univ.erase t, share (pool i) := by
    refine Finset.sum_congr rfl fun i hi => ?_
    rw [Function.update_of_ne (Finset.ne_of_mem_erase hi)]
  rw [← Finset.add_sum_erase _ _ hmem, ← Finset.add_sum_erase (s := Finset.univ)
    (fun i => share (pool i)) hmem, hrest, Function.update_self]
  rw [add_right_comm, add_comm (share x), ← add_right_comm]

theorem total_update [DecidableEq ι] (cost : W → ℕ) (pool : ι → W) (t : ι) (x : W) :
    total cost (Function.update pool t x) + cost (pool t) = total cost pool + cost x :=
  sum_update cost pool t x

theorem total_eq_zero {cost : W → ℕ} {pool : ι → W} (hz : ∀ i, cost (pool i) = 0) :
    total cost pool = 0 := by
  simp [total, hz]

/-- If nobody holds more than one and one worker holds none, the total is below the number
of workers. -/
theorem total_lt_card {cost : W → ℕ} {pool : ι → W} {t : ι} (hone : ∀ i, cost (pool i) ≤ 1)
    (hz : cost (pool t) = 0) : total cost pool < Fintype.card ι := by
  calc total cost pool < ∑ _i : ι, 1 :=
        Finset.sum_lt_sum (fun i _ => hone i) ⟨t, Finset.mem_univ t, by omega⟩
    _ = Fintype.card ι := by simp

/-! ## Totals that are stored in fewer bits -/

theorem sum_map_le_cast {f : W → ℤ} {g : W → ℕ} (hle : ∀ w, f w ≤ g w) (ws : List W) :
    (ws.map f).sum ≤ ((ws.map g).sum : ℕ) := by
  induction ws with
  | nil => simp
  | cons w ws ih =>
    have hw := hle w
    simp only [List.map_cons, List.sum_cons, Nat.cast_add]
    omega

/-- Nothing is lost from the total exactly if nothing is lost from any part. -/
theorem sum_map_eq_cast_iff {f : W → ℤ} {g : W → ℕ} (hle : ∀ w, f w ≤ g w) (ws : List W) :
    (ws.map f).sum = ((ws.map g).sum : ℕ) ↔ ∀ w ∈ ws, f w = g w := by
  induction ws with
  | nil => simp
  | cons w ws ih =>
    have hw := hle w
    have hws := sum_map_le_cast hle ws
    simp only [List.map_cons, List.sum_cons, List.forall_mem_cons, Nat.cast_add, ← ih]
    omega

end Sysbench.Pool
