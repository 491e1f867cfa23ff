import Mathlib

/-! # Collecting items into groups

Items arrive one by one and leave in groups. A group is sent when the next item does not
fit into it any more, and what is left is sent at the end. Items sent are counted until a
settlement, which follows a send when the count has reached `limit` and the last send. The
limit zero means that nothing is ever settled.
-/
namespace Sysbench.Batches

variable {α : Type*}

inductive Action (α : Type*)
  | send (group : List α)
  | settle
deriving DecidableEq

def groups (acts : List (Action α)) : List (List α) :=
  acts.filterMap fun
    | .send g => some g
    | .settle => none

def count (n : ℕ) : Action α → ℕ
  | .send g => n + g.length
  | .settle => 0

def unsettled (n : ℕ) (acts : List (Action α)) : ℕ := acts.foldl count n

@[simp] theorem groups_append (as bs : List (Action α)) :
    groups (as ++ bs) = groups as ++ groups bs := List.filterMap_append

theorem unsettled_append (n : ℕ) (as bs : List (Action α)) :
    unsettled n (as ++ bs) = unsettled (unsettled n as) bs := List.foldl_append

structure Batcher (α : Type*) where
  pending : List α
  unsettled : ℕ

variable (fits : List α → Prop) [DecidablePred fits] (limit : ℕ)

def flush (last : Bool) (b : Batcher α) : List (Action α) × Batcher α :=
  if b.pending = [] then ([], b)
  else if limit ≠ 0 ∧ (last ∨ limit ≤ b.unsettled + b.pending.length) then
    ([.send b.pending, .settle], ⟨[], 0⟩)
  else ([.send b.pending], ⟨[], b.unsettled + b.pending.length⟩)

def add (b : Batcher α) (a : α) : List (Action α) × Batcher α :=
  if b.pending ≠ [] ∧ ¬ fits (b.pending ++ [a]) then
    let r := flush limit false b
    (r.1, ⟨[a], r.2.unsettled⟩)
  else ([], ⟨b.pending ++ [a], b.unsettled⟩)

/-- What is done for each item, and at the end. -/
def calls (b : Batcher α) : List α → List (List (Action α))
  | [] => [(flush limit true b).1]
  | a :: as => (add fits limit b a).1 :: calls (add fits limit b a).2 as

section Flush

variable {limit : ℕ} {last : Bool} {b : Batcher α}

theorem flush_nil (hp : b.pending = []) : flush limit last b = ([], b) := if_pos hp

/-- A group is sent exactly if there is one, and it is the pending one. -/
theorem groups_flush :
    groups (flush limit last b).1 = if b.pending = [] then [] else [b.pending] := by
  unfold flush
  split
  · rfl
  · split <;> rfl

theorem unsettled_flush :
    unsettled b.unsettled (flush limit last b).1 = (flush limit last b).2.unsettled := by
  unfold flush
  split
  · rfl
  · split <;> rfl

theorem flush_lt (hlim : limit ≠ 0) (hb : b.unsettled < limit) :
    (flush limit last b).2.unsettled < limit := by
  unfold flush
  split_ifs with hp hs
  · exact hb
  · exact Nat.pos_of_ne_zero hlim
  · by_contra hge
    exact hs ⟨hlim, Or.inr (not_lt.mp hge)⟩

theorem flush_last (hlim : limit ≠ 0) (hz : b.pending = [] → b.unsettled = 0) :
    (flush limit true b).2.unsettled = 0 := by
  unfold flush
  split_ifs with hp hs
  · exact hz hp
  · rfl
  · exact absurd ⟨hlim, Or.inl rfl⟩ hs

end Flush

section Add

/-- Either the item joins the pending group, or that group is sent because the item does
not fit and the item starts a new one. -/
theorem add_cases (b : Batcher α) (a : α) :
    add fits limit b a = ([], ⟨b.pending ++ [a], b.unsettled⟩) ∧
        (b.pending = [] ∨ fits (b.pending ++ [a])) ∨
      add fits limit b a = ((flush limit false b).1, ⟨[a], (flush limit false b).2.unsettled⟩) ∧
        b.pending ≠ [] ∧ ¬ fits (b.pending ++ [a]) := by
  by_cases h : b.pending ≠ [] ∧ ¬ fits (b.pending ++ [a])
  · exact Or.inr ⟨if_pos h, h⟩
  · refine Or.inl ⟨if_neg h, ?_⟩
    rwa [not_and_or, not_not, not_not] at h

variable {fits} {limit} {b : Batcher α} {a : α}

theorem add_pending_ne_nil : (add fits limit b a).2.pending ≠ [] := by
  rcases add_cases fits limit b a with ⟨h, _⟩ | ⟨h, _⟩ <;>
    simp [h]

theorem add_flatten :
    (groups (add fits limit b a).1).flatten ++ (add fits limit b a).2.pending =
      b.pending ++ [a] := by
  rcases add_cases fits limit b a with ⟨h, _⟩ | ⟨h, hne, _⟩
  · rw [h]
    rfl
  · rw [h, groups_flush, if_neg hne]
    simp

theorem mem_groups_add {g : List α} (hg : g ∈ groups (add fits limit b a).1) :
    g = b.pending ∧ g ≠ [] ∧ ¬ fits (g ++ [a]) := by
  rcases add_cases fits limit b a with ⟨h, _⟩ | ⟨h, hne, hfit⟩
  · rw [h] at hg
    cases hg
  · rw [h, groups_flush, if_neg hne, List.mem_singleton] at hg
    subst hg
    exact ⟨rfl, hne, hfit⟩

theorem unsettled_add :
    unsettled b.unsettled (add fits limit b a).1 = (add fits limit b a).2.unsettled := by
  rcases add_cases fits limit b a with ⟨h, _⟩ | ⟨h, _⟩
  · rw [h]
    rfl
  · rw [h]
    exact unsettled_flush

theorem add_lt (hlim : limit ≠ 0) (hb : b.unsettled < limit) :
    (add fits limit b a).2.unsettled < limit := by
  rcases add_cases fits limit b a with ⟨h, _⟩ | ⟨h, _⟩
  · rw [h]
    exact hb
  · rw [h]
    exact flush_lt hlim hb

/-- The pending group always fits, if each item alone does. -/
theorem add_fits (ha : fits [a]) : fits (add fits limit b a).2.pending := by
  rcases add_cases fits limit b a with ⟨h, hp | hfit⟩ | ⟨h, _⟩
  · rw [h, hp]
    exact ha
  · rw [h]
    exact hfit
  · rw [h]
    exact ha

end Add

section Calls

variable {fits} {limit}

theorem length_calls (b : Batcher α) (as : List α) :
    (calls fits limit b as).length = as.length + 1 := by
  induction as generalizing b with
  | nil => rfl
  | cons a as ih => simp [calls, ih]

theorem flatten_groups_calls (b : Batcher α) (as : List α) :
    (groups (calls fits limit b as).flatten).flatten = b.pending ++ as := by
  induction as generalizing b with
  | nil =>
    rw [calls, List.flatten_singleton, groups_flush, List.append_nil]
    split_ifs with hp
    · exact hp.symm
    · exact List.flatten_singleton
  | cons a as ih =>
    rw [calls, List.flatten_cons, groups_append, List.flatten_append, ih, ← List.append_assoc,
      add_flatten, List.append_assoc, List.singleton_append]

theorem groups_calls (b : Batcher α) (as : List α) (hb : b.pending ≠ [] → fits b.pending)
    (has : ∀ a ∈ as, fits [a]) {g : List α} (hg : g ∈ groups (calls fits limit b as).flatten) :
    g ≠ [] ∧ fits g := by
  induction as generalizing b with
  | nil =>
    rw [calls, List.flatten_singleton, groups_flush] at hg
    split_ifs at hg with hp
    · cases hg
    · rw [List.mem_singleton] at hg
      subst hg
      exact ⟨hp, hb hp⟩
  | cons a as ih =>
    rw [calls, List.flatten_cons, groups_append, List.mem_append] at hg
    rcases hg with hg | hg
    · obtain ⟨rfl, hne, _⟩ := mem_groups_add hg
      exact ⟨hne, hb hne⟩
    · refine ih _ (fun _ => add_fits (has a List.mem_cons_self)) (fun c hc => ?_) hg
      exact has c (List.mem_cons_of_mem a hc)

theorem calls_full (b : Batcher α) (as : List α) {k : ℕ} {c : List (Action α)} {a : α}
    {g : List α} (hc : (calls fits limit b as)[k]? = some c) (ha : as[k]? = some a)
    (hg : g ∈ groups c) : ¬ fits (g ++ [a]) := by
  induction as generalizing b k with
  | nil => cases ha
  | cons d as ih =>
    cases k with
    | zero =>
      rw [calls, List.getElem?_cons_zero, Option.some.injEq] at hc
      rw [List.getElem?_cons_zero, Option.some.injEq] at ha
      subst hc ha
      exact (mem_groups_add hg).2.2
    | succ k => exact ih _ hc ha

/-- After each item, fewer than `limit` items are sent and not settled. -/
theorem unsettled_calls_lt (hlim : limit ≠ 0) (b : Batcher α) (as : List α)
    (hb : b.unsettled < limit) {k : ℕ} (hk : k ≤ as.length) :
    unsettled b.unsettled ((calls fits limit b as).take k).flatten < limit := by
  induction as generalizing b k with
  | nil =>
    rw [Nat.le_zero.mp hk]
    exact hb
  | cons a as ih =>
    cases k with
    | zero => exact hb
    | succ k =>
      rw [calls, List.take_succ_cons, List.flatten_cons, unsettled_append, unsettled_add]
      exact ih _ (add_lt hlim hb) (Nat.le_of_succ_le_succ hk)

theorem unsettled_calls (hlim : limit ≠ 0) (b : Batcher α) (as : List α)
    (hb : b.pending = [] → b.unsettled = 0) :
    unsettled b.unsettled (calls fits limit b as).flatten = 0 := by
  induction as generalizing b with
  | nil =>
    rw [calls, List.flatten_singleton, unsettled_flush]
    exact flush_last hlim hb
  | cons a as ih =>
    rw [calls, List.flatten_cons, unsettled_append, unsettled_add]
    exact ih _ fun hp => absurd hp add_pending_ne_nil

end Calls

end Sysbench.Batches
