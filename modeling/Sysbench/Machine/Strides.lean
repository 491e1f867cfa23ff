import Mathlib

/-! # Walking round a ring in equal strides

The residues of an arithmetic progression whose step is coprime to the modulus. Nothing in this
file knows about a program.
-/
namespace Sysbench.Strides

/-- Where a walk from `s` in strides of `p` stands after each of its first `k` strides. -/
def strides (s p n k : ℕ) : List ℕ := (List.range k).map fun i => (s + p * i) % n

variable {s p n k : ℕ}

theorem length_strides : (strides s p n k).length = k := by simp [strides]

theorem strides_succ : strides s p n (k + 1) = s % n :: strides (s + p) p n k := by
  have hshift : (fun i => (s + p * i) % n) ∘ Nat.succ = fun i => (s + p + p * i) % n := by
    funext i
    rw [Function.comp_apply, Nat.mul_succ, Nat.add_right_comm, Nat.add_assoc s, Nat.add_comm _ p,
      ← Nat.add_assoc]
  simp only [strides, List.range_succ_eq_map, List.map_cons, List.map_map, hshift, Nat.mul_zero,
    Nat.add_zero]

theorem stride_injOn (h : p.Coprime n) : Set.InjOn (fun i => (s + p * i) % n) (Set.Iio n) := by
  intro i hi j hj hij
  have hmod : p * i ≡ p * j [MOD n] := Nat.ModEq.add_left_cancel' s hij
  have hcancel : i ≡ j [MOD n] := Nat.ModEq.cancel_left_of_coprime (Nat.gcd_comm n p ▸ h) hmod
  rwa [Nat.ModEq, Nat.mod_eq_of_lt hi, Nat.mod_eq_of_lt hj] at hcancel

/-- One round of the walk stands on every point once. -/
theorem strides_perm_range (h : p.Coprime n) (hn : 0 < n) :
    (strides s p n n).Perm (List.range n) := by
  have hnodup : (strides s p n n).Nodup := by
    refine List.Nodup.map_on (fun i hi j hj => ?_) List.nodup_range
    exact stride_injOn h (List.mem_range.mp hi) (List.mem_range.mp hj)
  have hsub : strides s p n n ⊆ List.range n := by
    intro x hx
    obtain ⟨i, -, rfl⟩ := List.mem_map.mp hx
    exact List.mem_range.mpr (Nat.mod_lt _ hn)
  apply (List.subperm_of_subset hnodup hsub).perm_of_length_le
  rw [length_strides, List.length_range]

end Sysbench.Strides
