import Mathlib

/-! # Unrolled loops

A loop over a list that takes several elements in one turn, for a step that takes one. Whatever
the sizes of the turns are, the steps are taken in the order of the list.
-/
namespace Sysbench.Unrolling

variable {σ α : Type*} {f : σ → α → σ} {size : ℕ} {body : σ → List α → σ}

/-- The steps that are left lead where all of them lead from `s`. -/
def Resumes (f : σ → α → σ) (s : σ) (xs : List α) (r : σ × List α) : Prop :=
  r.2.foldl f r.1 = xs.foldl f s

/-- One turn takes the steps of `size` elements. -/
def Unrolls (f : σ → α → σ) (size : ℕ) (body : σ → List α → σ) : Prop :=
  ∀ s block, block.length = size → body s block = block.foldl f s

/-- `while (len >= size) { body; len -= size; }`. -/
def whileLen (size : ℕ) (body : σ → List α → σ) (s : σ) (xs : List α) : σ × List α :=
  if 0 < size ∧ size ≤ xs.length then whileLen size body (body s (xs.take size)) (xs.drop size)
  else (s, xs)
termination_by xs.length
decreasing_by simp only [List.length_drop]; omega

theorem whileLen_resumes (hbody : Unrolls f size body) (s : σ) (xs : List α) :
    Resumes f s xs (whileLen size body s xs) := by
  fun_induction whileLen size body s xs with
  | case1 s xs h ih =>
    have htake : (xs.take size).length = size := List.length_take_of_le h.2
    unfold Resumes at ih ⊢
    rw [ih, hbody s _ htake, ← List.foldl_append, List.take_append_drop]
  | case2 => rfl

/-- `body` for `n` blocks in a row, written out in one turn. -/
def times (n size : ℕ) (body : σ → List α → σ) (s : σ) (xs : List α) : σ :=
  (List.range n).foldl (fun s k => body s ((xs.drop (k * size)).take size)) s

theorem times_unrolls (hbody : Unrolls f size body) (n : ℕ) :
    Unrolls f (n * size) (times n size body) := by
  intro s xs hlen
  have hblocks : ∀ m ≤ n, times m size body s xs = (xs.take (m * size)).foldl f s := by
    intro m hm
    induction m with
    | zero => simp [times]
    | succ m ih =>
      have hroom : m * size + size ≤ xs.length := by
        rw [hlen, ← Nat.succ_mul]
        exact Nat.mul_le_mul_right size hm
      have hturn : times (m + 1) size body s xs =
          body (times m size body s xs) ((xs.drop (m * size)).take size) := by
        simp [times, List.range_succ]
      have hblock : ((xs.drop (m * size)).take size).length = size := by
        rw [List.length_take, List.length_drop]
        omega
      rw [hturn, ih (by omega), hbody _ _ hblock, ← List.foldl_append, Nat.succ_mul, List.take_add]
  rw [hblocks n le_rfl, ← hlen, List.take_length]

/-- `while (len && (addr & (align - 1))) { body; len--; }`: single steps up to an address that is
aligned. -/
def toBoundary (align : ℕ) (f : σ → α → σ) : ℕ → σ → List α → σ × List α
  | _, s, [] => (s, [])
  | addr, s, x :: xs =>
    if addr % align = 0 then (s, x :: xs) else toBoundary align f (addr + 1) (f s x) xs

theorem toBoundary_resumes (align : ℕ) (f : σ → α → σ) (addr : ℕ) (s : σ) (xs : List α) :
    Resumes f s xs (toBoundary align f addr s xs) := by
  fun_induction toBoundary align f addr s xs with
  | case1 => rfl
  | case2 => rfl
  | case3 addr s x xs h ih => exact ih

theorem Resumes.trans {s : σ} {xs : List α} {r r' : σ × List α} (h : Resumes f s xs r)
    (h' : Resumes f r.1 r.2 r') : Resumes f s xs r' :=
  Eq.trans h' h

end Sysbench.Unrolling
