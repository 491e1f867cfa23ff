import Mathlib

/-! # Cyclic tiling of equal segments by chunks

`n` segments of length `L` are read in chunks of at most `m`, segment after segment,
and again from the first after the last. Tile number `i` is given in closed form; the
lemmas say where it starts, where the next one starts, and that each cycle covers
every position exactly once.
-/
namespace Sysbench.Tiling

structure Tile where
  segment : ℕ
  offset : ℕ
  length : ℕ
  deriving DecidableEq, Repr

def chunks (L m : ℕ) : ℕ := (L + m - 1) / m

def tile (n L m i : ℕ) : Tile where
  segment := i / chunks L m % n
  offset := i % chunks L m * m
  length := min m (L - i % chunks L m * m)

variable {n L m : ℕ}

theorem lt_chunks_iff (hm : 0 < m) (j : ℕ) : j < chunks L m ↔ j * m < L := by
  rw [chunks, ← Nat.succ_le_iff, Nat.le_div_iff_mul_le hm, Nat.succ_mul]
  omega

theorem chunks_pos (hL : 0 < L) (hm : 0 < m) : 0 < chunks L m := by
  rw [lt_chunks_iff hm]
  simpa using hL

theorem succ_div_mod {p : ℕ} (hp : 0 < p) (i : ℕ) :
    (i % p + 1 = p → (i + 1) / p = i / p + 1 ∧ (i + 1) % p = 0) ∧
    (i % p + 1 ≠ p → (i + 1) / p = i / p ∧ (i + 1) % p = i % p + 1) := by
  have hlt := Nat.mod_lt i hp
  have hdm := Nat.div_add_mod i p
  constructor
  · intro hlast
    have hi : i + 1 = p * (i / p + 1) := by rw [Nat.mul_add, Nat.mul_one]; omega
    exact ⟨by rw [hi, Nat.mul_div_cancel_left _ hp], by rw [hi, Nat.mul_mod_right]⟩
  · intro hinner
    have hi : i + 1 = i % p + 1 + p * (i / p) := by omega
    have hsmall : i % p + 1 < p := by omega
    constructor
    · conv_lhs => rw [hi]
      rw [Nat.add_mul_div_left _ _ hp, Nat.div_eq_of_lt hsmall, Nat.zero_add]
    · conv_lhs => rw [hi]
      rw [Nat.add_mul_mod_self_left, Nat.mod_eq_of_lt hsmall]

theorem offset_lt (hL : 0 < L) (hm : 0 < m) (i : ℕ) : (tile n L m i).offset < L :=
  (lt_chunks_iff hm _).mp (Nat.mod_lt i (chunks_pos hL hm))

theorem segment_lt (hn : 0 < n) (i : ℕ) : (tile n L m i).segment < n := Nat.mod_lt _ hn

theorem length_pos (hL : 0 < L) (hm : 0 < m) (i : ℕ) : 0 < (tile n L m i).length := by
  have hlt := offset_lt (n := n) hL hm i
  simp only [tile] at hlt ⊢
  omega

theorem offset_add_length_le (hL : 0 < L) (hm : 0 < m) (i : ℕ) :
    (tile n L m i).offset + (tile n L m i).length ≤ L := by
  have hlt := offset_lt (n := n) hL hm i
  simp only [tile] at hlt ⊢
  omega

/-- Only the last chunk of a segment may be shorter than `m`. -/
theorem length_eq {i : ℕ} (h : (tile n L m i).offset + (tile n L m i).length ≠ L)
    (hL : 0 < L) (hm : 0 < m) : (tile n L m i).length = m := by
  have hle := offset_add_length_le (n := n) hL hm i
  simp only [tile] at h hle ⊢
  omega

/-- If the chunk size divides the segments, all chunks are of one size. -/
theorem length_of_dvd (hL : 0 < L) (hm : 0 < m) (hdvd : m ∣ L) (i : ℕ) :
    (tile n L m i).length = m := by
  have hlt := offset_lt (n := n) hL hm i
  simp only [tile] at hlt ⊢
  have hleft : m ∣ L - i % chunks L m * m := Nat.dvd_sub hdvd (Dvd.intro_left _ rfl)
  have hle := Nat.le_of_dvd (by omega) hleft
  omega

theorem tile_first {i : ℕ} (hm : 0 < m) (hi : i * m < L) :
    tile n L m i = ⟨0, i * m, min m (L - i * m)⟩ := by
  have hlt := (lt_chunks_iff hm i).mpr hi
  simp [tile, Nat.div_eq_of_lt hlt, Nat.mod_eq_of_lt hlt]

/-- A tile ends its segment exactly when it is the last chunk of it. -/
theorem ends_iff (hL : 0 < L) (hm : 0 < m) (i : ℕ) :
    (tile n L m i).offset + (tile n L m i).length = L ↔ i % chunks L m + 1 = chunks L m := by
  have hp := chunks_pos hL hm
  have hlt := offset_lt (n := n) hL hm i
  have hmod := Nat.mod_lt i hp
  have hnext := lt_chunks_iff (L := L) hm (i % chunks L m + 1)
  rw [Nat.add_mul, Nat.one_mul] at hnext
  simp only [tile] at hlt ⊢
  omega

theorem tile_zero : (tile n L m 0).segment = 0 ∧ (tile n L m 0).offset = 0 := by
  simp [tile]

/-- The tile after one that ends its segment starts the next segment, cyclically. -/
theorem tile_succ_of_ends (hL : 0 < L) (hm : 0 < m) {i : ℕ}
    (h : (tile n L m i).offset + (tile n L m i).length = L) :
    (tile n L m (i + 1)).segment = ((tile n L m i).segment + 1) % n ∧
      (tile n L m (i + 1)).offset = 0 := by
  have hs := (succ_div_mod (chunks_pos hL hm) i).1 ((ends_iff hL hm i).mp h)
  simp [tile, hs.1, hs.2, Nat.add_mod]

/-- Any other tile is followed by the chunk that starts where it ended. -/
theorem tile_succ_of_not_ends (hL : 0 < L) (hm : 0 < m) {i : ℕ}
    (h : (tile n L m i).offset + (tile n L m i).length ≠ L) :
    (tile n L m (i + 1)).segment = (tile n L m i).segment ∧
      (tile n L m (i + 1)).offset = (tile n L m i).offset + (tile n L m i).length := by
  have hs := (succ_div_mod (chunks_pos hL hm) i).2 (fun hp => h ((ends_iff hL hm i).mpr hp))
  have hlen := length_eq h hL hm
  constructor
  · simp [tile, hs.1]
  · rw [hlen]
    simp only [tile, hs.2]
    rw [Nat.add_mul, Nat.one_mul]

/-- Tiles start a cycle exactly at the multiples of the cycle length. -/
theorem starts_cycle_iff (hL : 0 < L) (hm : 0 < m) (i : ℕ) :
    (tile n L m i).segment = 0 ∧ (tile n L m i).offset = 0 ↔ n * chunks L m ∣ i := by
  have hp := chunks_pos hL hm
  simp only [tile, Nat.mul_eq_zero, hm.ne', or_false]
  constructor
  · rintro ⟨hseg, hoff⟩
    obtain ⟨j, rfl⟩ := Nat.dvd_of_mod_eq_zero hoff
    rw [Nat.mul_div_cancel_left _ hp] at hseg
    obtain ⟨k, rfl⟩ := Nat.dvd_of_mod_eq_zero hseg
    exact ⟨k, by ring⟩
  · rintro ⟨k, rfl⟩
    rw [Nat.mul_assoc, Nat.mul_left_comm, Nat.mul_div_cancel_left _ hp, Nat.mul_mod_right,
      Nat.mul_mod_right]
    exact ⟨rfl, rfl⟩

/-- Position `b` of segment `f` lies in the tile. -/
def Tile.Covers (t : Tile) (f b : ℕ) : Prop :=
  t.segment = f ∧ t.offset ≤ b ∧ b < t.offset + t.length

/-- Each cycle covers every position of every segment exactly once. -/
theorem existsUnique_covers (hm : 0 < m) (cycle : ℕ) {f b : ℕ} (hf : f < n) (hb : b < L) :
    ∃! i, cycle * (n * chunks L m) ≤ i ∧ i < (cycle + 1) * (n * chunks L m) ∧
      (tile n L m i).Covers f b := by
  have hL : 0 < L := by omega
  have hp := chunks_pos hL hm
  have hchunk : b / m < chunks L m :=
    (lt_chunks_iff hm _).mpr ((Nat.div_mul_le_self b m).trans_lt hb)
  have hdiv : ((cycle * n + f) * chunks L m + b / m) / chunks L m = cycle * n + f := by
    rw [Nat.add_comm, Nat.add_mul_div_right _ _ hp, Nat.div_eq_of_lt hchunk, Nat.zero_add]
  have hmod : ((cycle * n + f) * chunks L m + b / m) % chunks L m = b / m := by
    rw [Nat.add_comm, Nat.add_mul_mod_self_right, Nat.mod_eq_of_lt hchunk]
  refine ⟨(cycle * n + f) * chunks L m + b / m, ⟨?_, ?_, ?_, ?_⟩, ?_⟩
  · calc cycle * (n * chunks L m) = cycle * n * chunks L m := by ring
      _ ≤ (cycle * n + f) * chunks L m := Nat.mul_le_mul_right _ (by omega)
      _ ≤ _ := Nat.le_add_right _ _
  · calc (cycle * n + f) * chunks L m + b / m
        < (cycle * n + f) * chunks L m + chunks L m := by omega
      _ = (cycle * n + (f + 1)) * chunks L m := by ring
      _ ≤ (cycle * n + n) * chunks L m := Nat.mul_le_mul_right _ (by omega)
      _ = (cycle + 1) * (n * chunks L m) := by ring
  · simp only [tile, hdiv]
    rw [Nat.mul_comm, Nat.mul_add_mod, Nat.mod_eq_of_lt hf]
  · have hlo := Nat.div_mul_le_self b m
    have hhi := Nat.lt_div_mul_add (a := b) hm
    simp only [tile, hmod]
    omega
  · rintro i ⟨hlo, hhi, hseg, hoff, hlen⟩
    have hdm := Nat.div_add_mod i (chunks L m)
    have hquot : i / chunks L m = cycle * n + f := by
      have hge : cycle * n ≤ i / chunks L m := by
        rw [Nat.le_div_iff_mul_le hp]
        exact (by ring : cycle * n * chunks L m = cycle * (n * chunks L m)).trans_le hlo
      have hlt : i / chunks L m < cycle * n + n := by
        rw [Nat.div_lt_iff_lt_mul hp]
        exact hhi.trans_eq (by ring)
      simp only [tile] at hseg
      obtain ⟨d, hd⟩ := Nat.exists_eq_add_of_le hge
      rw [hd, Nat.mul_comm, Nat.mul_add_mod, Nat.mod_eq_of_lt (by omega)] at hseg
      omega
    have hrem : i % chunks L m = b / m := by
      simp only [tile] at hoff hlen
      symm
      apply Nat.div_eq_of_lt_le
      · exact hoff
      · rw [Nat.succ_mul]
        omega
    rw [hquot, hrem] at hdm
    rw [← hdm]
    ring

end Sysbench.Tiling
