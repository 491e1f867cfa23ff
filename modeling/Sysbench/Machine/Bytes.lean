import Mathlib

/-! # Bytes

Numbers stored in little-endian order, and byte strings made of blocks of one length.
-/
namespace Sysbench.Bytes

abbrev Byte := BitVec 8

def leBytes : ℕ → ℕ → List Byte
  | 0, _ => []
  | n + 1, x => BitVec.ofNat 8 x :: leBytes n (x / 256)

/-- The number that the bytes store. -/
def leValue : List Byte → ℕ
  | [] => 0
  | b :: bs => b.toNat + 256 * leValue bs

@[simp] theorem length_leBytes (n x : ℕ) : (leBytes n x).length = n := by
  induction n generalizing x with
  | zero => rfl
  | succ n ih => simp [leBytes, ih]

theorem leValue_leBytes {n x : ℕ} (hx : x < 256 ^ n) : leValue (leBytes n x) = x := by
  induction n generalizing x with
  | zero =>
    rw [pow_zero, Nat.lt_one_iff] at hx
    simp [leBytes, leValue, hx]
  | succ n ih =>
    rw [pow_succ] at hx
    rw [leBytes, leValue, ih (Nat.div_lt_of_lt_mul (by omega)), BitVec.toNat_ofNat]
    omega

/-- Two byte strings of one length that store the same number are equal. -/
theorem leValue_injective {bs cs : List Byte} (hlen : bs.length = cs.length)
    (h : leValue bs = leValue cs) : bs = cs := by
  induction bs generalizing cs with
  | nil => exact (List.length_eq_zero_iff.mp hlen.symm).symm
  | cons b bs ih =>
    cases cs with
    | nil => cases hlen
    | cons c cs =>
      have hb := b.isLt
      have hc := c.isLt
      rw [leValue, leValue] at h
      rw [List.length_cons, List.length_cons] at hlen
      have hhead : b = c := BitVec.eq_of_toNat_eq (by omega)
      have htail : bs = cs := ih (by omega) (by omega)
      rw [hhead, htail]

/-! ## Blocks of one length -/

variable {α : Type*} {block : ℕ → List α} {b : ℕ}

def blocks (block : ℕ → List α) (k : ℕ) : List α := (List.range k).flatMap block

@[simp] theorem blocks_zero (block : ℕ → List α) : blocks block 0 = [] := rfl

theorem blocks_succ (block : ℕ → List α) (k : ℕ) :
    blocks block (k + 1) = blocks block k ++ block k := by
  simp [blocks, List.range_succ]

theorem length_blocks {k : ℕ} (hb : ∀ j < k, (block j).length = b) :
    (blocks block k).length = k * b := by
  induction k with
  | zero => simp
  | succ k ih =>
    rw [blocks_succ, List.length_append, ih fun j hj => hb j (by omega), hb k (by omega)]
    ring

theorem getElem?_blocks {k : ℕ} (hb : ∀ j < k, (block j).length = b) {j e : ℕ} (hj : j < k)
    (he : e < b) : (blocks block k)[j * b + e]? = (block j)[e]? := by
  induction k with
  | zero => omega
  | succ k ih =>
    have hlen : (blocks block k).length = k * b := length_blocks fun i hi => hb i (by omega)
    rw [blocks_succ]
    rcases Nat.lt_succ_iff_lt_or_eq.mp hj with hlt | rfl
    · have hin : j * b + e < (blocks block k).length := by
        rw [hlen]
        have := Nat.mul_le_mul_right b (show j + 1 ≤ k by omega)
        rw [Nat.succ_mul] at this
        omega
      rw [List.getElem?_append_left hin]
      exact ih (fun i hi => hb i (by omega)) hlt
    · rw [List.getElem?_append_right (by omega), hlen, Nat.add_sub_cancel_left]

theorem getElem?_slice (l : List α) (start size i : ℕ) :
    ((l.drop start).take size)[i]? = if i < size then l[start + i]? else none := by
  rw [List.getElem?_take]
  split_ifs
  · rw [List.getElem?_drop]
  · rfl

theorem slice_blocks {k : ℕ} (hb : ∀ j < k, (block j).length = b) {j : ℕ} (hj : j < k)
    {start n : ℕ} (hn : start + n ≤ b) :
    ((blocks block k).drop (j * b + start)).take n = ((block j).drop start).take n := by
  apply List.ext_getElem?
  intro i
  rw [getElem?_slice, getElem?_slice]
  split_ifs with hi
  · rw [add_assoc]
    exact getElem?_blocks hb hj (by omega)
  · rfl

/-- A whole block is read back as it was written. -/
theorem whole_block {k : ℕ} (hb : ∀ j < k, (block j).length = b) {j : ℕ} (hj : j < k) :
    ((blocks block k).drop (j * b)).take b = block j := by
  have h := slice_blocks hb hj (show 0 + b ≤ b by omega)
  rwa [add_zero, List.drop_zero, List.take_of_length_le (hb j hj).le] at h

end Sysbench.Bytes
