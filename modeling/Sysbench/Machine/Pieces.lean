import Mathlib

/-! # Beginnings of blocks

Blocks of `b` symbols are offered at offsets that grow by `b`, and some beginning of each of them is
stored behind what is there. Nothing in this file knows about a program.
-/
namespace Sysbench.Pieces

variable {α : Type*} {b : ℕ}

/-- What is stored of the blocks from an offset on, given the sizes. -/
def pieces (b : ℕ) (block : ℕ → List α) : List ℕ → ℕ → List α
  | [], _ => []
  | n :: ns, offset => (block offset).take n ++ pieces b block ns (offset + b)

/-- One whole block is stored at `s`, and it was offered there. -/
def WholeAt (b : ℕ) (ns : List ℕ) (start s : ℕ) : Prop :=
  ∃ ns₁ ns₂, ns = ns₁ ++ b :: ns₂ ∧ start + ns₁.sum = s ∧ start + ns₁.length * b = s

variable {block block' : ℕ → List α} {ns ns₁ ns₂ : List ℕ} {start offset : ℕ}

theorem pieces_append (block : ℕ → List α) (ns₁ ns₂ : List ℕ) (offset : ℕ) :
    pieces b block (ns₁ ++ ns₂) offset =
      pieces b block ns₁ offset ++ pieces b block ns₂ (offset + ns₁.length * b) := by
  induction ns₁ generalizing offset with
  | nil => simp [pieces]
  | cons n ns₁ ih =>
    have hoffset : offset + b + ns₁.length * b = offset + (n :: ns₁).length * b := by
      rw [List.length_cons, Nat.succ_mul]
      omega
    rw [List.cons_append, pieces, pieces, ih, hoffset, List.append_assoc]

theorem length_pieces (hlen : ∀ offset, (block offset).length = b) (hle : ∀ n ∈ ns, n ≤ b) :
    (pieces b block ns offset).length = ns.sum := by
  induction ns generalizing offset with
  | nil => rfl
  | cons n ns ih =>
    rw [pieces, List.length_append, List.length_take, hlen, List.sum_cons,
      ih fun n' hn' => hle n' (List.mem_cons_of_mem _ hn'),
      Nat.min_eq_left (hle n List.mem_cons_self)]

/-- Blocks at later offsets do not matter. -/
theorem pieces_congr (h : ∀ j < ns.length, block (offset + j * b) = block' (offset + j * b)) :
    pieces b block ns offset = pieces b block' ns offset := by
  induction ns generalizing offset with
  | nil => rfl
  | cons n ns ih =>
    rw [pieces, pieces]
    congr 1
    · rw [show block offset = block' offset by simpa using h 0 (Nat.succ_pos _)]
    · refine ih fun j hj => ?_
      have hnext := h (j + 1) (Nat.succ_lt_succ hj)
      rwa [Nat.succ_mul, add_comm (j * b), ← add_assoc] at hnext

/-- The piece with the symbol number `x`. -/
theorem exists_piece {x : ℕ} (hx : x < ns.sum) :
    ∃ ns₁ n ns₂, ns = ns₁ ++ n :: ns₂ ∧ ns₁.sum ≤ x ∧ x < ns₁.sum + n := by
  induction ns generalizing x with
  | nil => exact absurd hx (Nat.not_lt_zero x)
  | cons n ns ih =>
    by_cases hin : x < n
    · exact ⟨[], n, ns, rfl, Nat.zero_le x, by simpa using hin⟩
    · rw [List.sum_cons] at hx
      obtain ⟨ns₁, n', ns₂, rfl, hlo, hhi⟩ := ih (x := x - n) (by omega)
      refine ⟨n :: ns₁, n', ns₂, rfl, ?_, ?_⟩ <;> rw [List.sum_cons] <;> omega

theorem sum_le (hle : ∀ n ∈ ns, n ≤ b) : ns.sum ≤ ns.length * b := by
  simpa using List.sum_le_card_nsmul ns b hle

/-- One block at its offset puts the start and all blocks up to it in place. -/
theorem full_of_wholeAt (hb : 0 < b)
    (h : ∀ m, start ≤ m * b → (m + 1) * b ≤ start + ns.sum → WholeAt b ns start (m * b)) {m : ℕ}
    (hlo : start ≤ m * b) (hhi : (m + 1) * b ≤ start + ns.sum) :
    b ∣ start ∧ ∀ n ∈ ns.take (ns.sum / b), n = b := by
  obtain ⟨ns₁, ns₂, -, -, hoffset⟩ := h m hlo hhi
  have hdvd : b ∣ start :=
    (Nat.dvd_add_left (Dvd.intro_left ns₁.length rfl)).mp (hoffset ▸ Dvd.intro_left m rfl)
  obtain ⟨a, rfl⟩ := hdvd
  refine ⟨Dvd.intro a rfl, fun n hn => ?_⟩
  obtain ⟨t, ht, rfl⟩ := List.mem_take_iff_getElem.mp hn
  have hin : (t + 1) * b ≤ ns.sum :=
    (Nat.le_div_iff_mul_le hb).mp (show t + 1 ≤ ns.sum / b by omega)
  have hat : (a + t) * b = b * a + t * b := by ring
  have hend : (a + t + 1) * b = b * a + (t + 1) * b := by ring
  obtain ⟨ns₁, ns₂, hns, -, hoffset⟩ := h (a + t) (by omega) (by omega)
  have hlen : ns₁.length = t := Nat.eq_of_mul_eq_mul_right hb (by omega)
  subst hns hlen
  simp

/-- The block number `t` behind the start is whole when the pieces up to it are. -/
theorem wholeAt_of_full (hb : 0 < b) (hle : ∀ n ∈ ns, n ≤ b) {t : ℕ} (hin : (t + 1) * b ≤ ns.sum)
    (hfull : ∀ n ∈ ns.take (t + 1), n = b) : WholeAt b ns start (start + t * b) := by
  have hcount : t < ns.length :=
    Nat.lt_of_succ_le (Nat.le_of_mul_le_mul_right (hin.trans (sum_le hle)) hb)
  have htake : ns.take t = List.replicate t b := by
    rw [List.eq_replicate_iff]
    refine ⟨by rw [List.length_take]; omega, fun n hn => hfull n ?_⟩
    exact (List.take_prefix_take_left (Nat.le_succ t)).subset hn
  have hget : ns[t] = b := hfull _ (List.mem_take_iff_getElem.mpr ⟨t, by omega, rfl⟩)
  refine ⟨ns.take t, ns.drop (t + 1), ?_, ?_, ?_⟩
  · rw [← hget, ← List.drop_eq_getElem_cons hcount, List.take_append_drop]
  · rw [htake, List.sum_replicate, smul_eq_mul]
  · rw [List.length_take, Nat.min_eq_left hcount.le]

/-- When every stored block at a multiple of `b` is a whole one. -/
theorem forall_wholeAt_iff (hb : 0 < b) (hle : ∀ n ∈ ns, n ≤ b) :
    (∀ m, start ≤ m * b → (m + 1) * b ≤ start + ns.sum → WholeAt b ns start (m * b)) ↔
      (∀ m, start ≤ m * b → start + ns.sum < (m + 1) * b) ∨
        b ∣ start ∧ ∀ n ∈ ns.take (ns.sum / b), n = b := by
  constructor
  · intro h
    by_cases hsome : ∃ m, start ≤ m * b ∧ (m + 1) * b ≤ start + ns.sum
    · obtain ⟨m, hlo, hhi⟩ := hsome
      exact Or.inr (full_of_wholeAt hb h hlo hhi)
    · refine Or.inl fun m hlo => ?_
      by_contra hhi
      exact hsome ⟨m, hlo, Nat.not_lt.mp hhi⟩
  · rintro (hnone | ⟨⟨a, rfl⟩, hfull⟩) m hlo hhi
    · exact absurd (hnone m hlo) (Nat.not_lt.mpr hhi)
    · obtain ⟨t, rfl⟩ : ∃ t, m = a + t :=
        Nat.exists_eq_add_of_le (Nat.le_of_mul_le_mul_right (by rwa [mul_comm a]) hb)
      have hend : (a + t + 1) * b = b * a + (t + 1) * b := by ring
      have hin : (t + 1) * b ≤ ns.sum := by omega
      have hquot : t + 1 ≤ ns.sum / b := (Nat.le_div_iff_mul_le hb).mpr hin
      rw [show (a + t) * b = b * a + t * b by ring]
      exact wholeAt_of_full hb hle hin fun n hn =>
        hfull n ((List.take_prefix_take_left hquot).subset hn)

end Sysbench.Pieces
