import Mathlib

/-! # Intrusive doubly linked rings

Nodes carry a pointer to the next and to the previous node, and the head of a list is a node
of its own. `Linked` says which nodes a traversal from the head meets.
-/
namespace Sysbench.Rings

variable {ι : Type*}

structure Links (ι : Type*) where
  next : ι → ι
  prev : ι → ι

/-- The nodes `xs` lie between `a` and `b`, linked in both directions. -/
def Segment (l : Links ι) : ι → List ι → ι → Prop
  | a, [], b => l.next a = b ∧ l.prev b = a
  | a, x :: xs, b => l.next a = x ∧ l.prev x = a ∧ Segment l x xs b

/-- The list of `head` consists of the nodes `xs`. -/
structure Linked (l : Links ι) (head : ι) (xs : List ι) : Prop where
  nodup : (head :: xs).Nodup
  ring : Segment l head xs head

section Operations

variable [DecidableEq ι]

def Links.init (head : ι) (l : Links ι) : Links ι where
  next := Function.update l.next head head
  prev := Function.update l.prev head head

/-- Insert `item` before the head. The last assignment follows the pointer just set. -/
def Links.addTail (item head : ι) (l : Links ι) : Links ι :=
  let prev := Function.update l.prev item (l.prev head)
  let next := Function.update l.next item head
  let prev := Function.update prev head item
  { next := Function.update next (prev item) item, prev }

/-- Insert `item` behind the head. -/
def Links.add (item head : ι) (l : Links ι) : Links ι :=
  let next := Function.update l.next item (l.next head)
  let prev := Function.update l.prev item head
  let next := Function.update next head item
  { next, prev := Function.update prev (next item) item }

/-- Let the neighbours of `old` point to `item`. -/
def Links.replace (item old : ι) (l : Links ι) : Links ι :=
  let next := Function.update l.next item (l.next old)
  let prev := Function.update l.prev item (l.prev old)
  let prev := Function.update prev (next item) item
  { next := Function.update next (prev item) item, prev }

/-- Let the neighbours of `item` point to each other. -/
def Links.delete (item : ι) (l : Links ι) : Links ι :=
  let prev := Function.update l.prev (l.next item) (l.prev item)
  { next := Function.update l.next (prev item) (l.next item), prev }

end Operations

/-- The ring the other way round. -/
def Links.flip (l : Links ι) : Links ι := ⟨l.prev, l.next⟩

variable {l l' : Links ι} {a b x y : ι} {xs ys : List ι}

theorem Segment.append (h : Segment l a xs x) (h' : Segment l x ys b) :
    Segment l a (xs ++ x :: ys) b := by
  induction xs generalizing a with
  | nil => exact ⟨h.1, h.2, h'⟩
  | cons z xs ih => exact ⟨h.1, h.2.1, ih h.2.2⟩

theorem Segment.split (h : Segment l a (xs ++ x :: ys) b) :
    Segment l a xs x ∧ Segment l x ys b := by
  induction xs generalizing a with
  | nil => exact ⟨⟨h.1, h.2.1⟩, h.2.2⟩
  | cons z xs ih =>
    obtain ⟨hleft, hright⟩ := ih h.2.2
    exact ⟨⟨h.1, h.2.1, hleft⟩, hright⟩

theorem Segment.flip (h : Segment l a xs b) : Segment l.flip b xs.reverse a := by
  induction xs generalizing a with
  | nil => exact ⟨h.2, h.1⟩
  | cons z xs ih =>
    rw [List.reverse_cons]
    exact (ih h.2.2).append ⟨h.2.1, h.1⟩

/-- In a segment the pointers of neighbours are inverse to each other. -/
theorem Segment.prev_next (h : Segment l a xs b) {z : ι} (hz : z ∈ a :: xs) :
    l.prev (l.next z) = z := by
  induction xs generalizing a with
  | nil => rw [List.mem_singleton.mp hz, h.1, h.2]
  | cons w xs ih =>
    rcases List.mem_cons.mp hz with rfl | hz
    · rw [h.1, h.2.1]
    · exact ih h.2.2 hz

/-- The node before the end of a segment. -/
theorem Segment.prev_eq (h : Segment l a xs b) : l.prev b = (a :: xs).getLast (List.cons_ne_nil a xs) := by
  induction xs generalizing a with
  | nil => exact h.2
  | cons z xs ih =>
    rw [List.getLast_cons (List.cons_ne_nil z xs)]
    exact ih h.2.2

/-- A segment depends on the pointers between its nodes only. -/
theorem Segment.frame (h : Segment l a xs b) (hnext : ∀ z ∈ a :: xs, l'.next z = l.next z)
    (hprev : ∀ z ∈ xs ++ [b], l'.prev z = l.prev z) : Segment l' a xs b := by
  induction xs generalizing a with
  | nil =>
    exact ⟨(hnext a List.mem_cons_self).trans h.1, (hprev b List.mem_cons_self).trans h.2⟩
  | cons z xs ih =>
    refine ⟨(hnext a List.mem_cons_self).trans h.1, (hprev z List.mem_cons_self).trans h.2.1, ?_⟩
    exact ih h.2.2 (fun w hw => hnext w (List.mem_cons_of_mem _ hw))
      fun w hw => hprev w (List.mem_cons_of_mem _ hw)

/-- The last node of a segment is made to point to another end. -/
theorem Segment.redirect (h : Segment l a xs b) (hnodup : (a :: xs).Nodup)
    (hnext : ∀ z ∈ a :: xs, z ≠ l.prev b → l'.next z = l.next z)
    (hprev : ∀ z ∈ xs, l'.prev z = l.prev z) (hlast : l'.next (l.prev b) = y)
    (hend : l'.prev y = l.prev b) : Segment l' a xs y := by
  induction xs generalizing a with
  | nil =>
    rw [h.2] at hlast hend
    exact ⟨hlast, hend⟩
  | cons z xs ih =>
    have hne : a ≠ l.prev b := by
      rw [h.2.2.prev_eq]
      rintro rfl
      exact (List.nodup_cons.mp hnodup).1 (List.getLast_mem _)
    refine ⟨(hnext a List.mem_cons_self hne).trans h.1,
      (hprev z List.mem_cons_self).trans h.2.1, ?_⟩
    exact ih h.2.2 (List.nodup_cons.mp hnodup).2
      (fun w hw => hnext w (List.mem_cons_of_mem _ hw))
      fun w hw => hprev w (List.mem_cons_of_mem _ hw)

/-- A segment is made to start with another node. -/
theorem Segment.restart (h : Segment l a xs b) (hnodup : (xs ++ [b]).Nodup)
    (hnext : ∀ z ∈ xs, l'.next z = l.next z)
    (hprev : ∀ z ∈ xs ++ [b], z ≠ l.next a → l'.prev z = l.prev z)
    (hfirst : l'.next y = l.next a) (hback : l'.prev (l.next a) = y) : Segment l' y xs b := by
  cases xs with
  | nil =>
    rw [h.1] at hfirst hback
    exact ⟨hfirst, hback⟩
  | cons z xs =>
    obtain ⟨hz, -, hrest⟩ := h
    rw [hz] at hfirst hback hprev
    refine ⟨hfirst, hback, hrest.frame hnext fun w hw => hprev w (List.mem_cons_of_mem _ hw) ?_⟩
    rintro rfl
    exact (List.nodup_cons.mp hnodup).1 hw

theorem Linked.next_head {head : ι} (h : Linked l head (x :: xs)) : l.next head = x := h.ring.1

theorem Linked.next_head_mem {head : ι} (h : Linked l head xs) : l.next head ∈ head :: xs := by
  cases xs with
  | nil => exact List.mem_singleton.mpr h.ring.1
  | cons x xs => exact List.mem_cons_of_mem _ (List.mem_cons.mpr (.inl h.next_head))

variable [DecidableEq ι] {head : ι}

theorem linked_init (l : Links ι) : Linked (l.init head) head [] := by
  constructor
  · exact List.nodup_singleton head
  · exact ⟨Function.update_self _ _ _, Function.update_self _ _ _⟩

theorem Linked.addTail (h : Linked l head xs) (hx : x ∉ head :: xs) :
    Linked (l.addTail x head) head (xs ++ [x]) := by
  have hxh : x ≠ head := fun heq => hx (List.mem_cons.mpr (.inl heq))
  have hlast : l.prev head ∈ head :: xs := by
    rw [h.ring.prev_eq]
    exact List.getLast_mem _
  have hne : x ≠ l.prev head := by
    rintro rfl
    exact hx hlast
  constructor
  · rw [← List.cons_append]
    refine List.nodup_append.mpr ⟨h.nodup, List.nodup_singleton x, ?_⟩
    intro a ha b hb hab
    rw [List.mem_singleton.mp hb] at hab
    exact hx (hab ▸ ha)
  · refine Segment.append (h.ring.redirect h.nodup ?_ ?_ ?_ ?_) ⟨?_, ?_⟩
    · intro z hz hzl
      have hzx : z ≠ x := fun heq => hx (heq ▸ hz)
      simp [Links.addTail, hxh, hzl, hzx]
    · intro z hz
      have hzx : z ≠ x := fun heq => hx (heq ▸ List.mem_cons_of_mem _ hz)
      have hzh : z ≠ head := fun heq => (List.nodup_cons.mp h.nodup).1 (heq ▸ hz)
      simp [Links.addTail, hzx, hzh]
    · simp [Links.addTail, hxh]
    · simp [Links.addTail, hxh]
    · simp [Links.addTail, hxh, hne]
    · simp [Links.addTail]

omit [DecidableEq ι] in
theorem Linked.flip (h : Linked l head xs) : Linked l.flip head xs.reverse where
  nodup := (((List.reverse_perm xs).cons head).nodup_iff).mpr h.nodup
  ring := h.ring.flip

omit [DecidableEq ι] in
theorem Linked.prev_next (h : Linked l head xs) {z : ι} (hz : z ∈ head :: xs) :
    l.prev (l.next z) = z := h.ring.prev_next hz

omit [DecidableEq ι] in
theorem Linked.next_prev (h : Linked l head xs) {z : ι} (hz : z ∈ head :: xs) :
    l.next (l.prev z) = z := by
  refine h.flip.prev_next ?_
  rwa [List.mem_cons, List.mem_reverse, ← List.mem_cons]

theorem Linked.add (h : Linked l head xs) (hx : x ∉ head :: xs) :
    Linked (l.add x head) head (x :: xs) := by
  have hxh : x ≠ head := fun heq => hx (List.mem_cons.mpr (.inl heq))
  have hxs : x ∉ xs := fun hm => hx (List.mem_cons_of_mem _ hm)
  obtain ⟨hhead, hnodup⟩ := List.nodup_cons.mp h.nodup
  constructor
  · refine List.nodup_cons.mpr ⟨fun hm => ?_, List.nodup_cons.mpr ⟨hxs, hnodup⟩⟩
    exact (List.mem_cons.mp hm).elim (fun heq => hxh heq.symm) hhead
  · have hfirst : l.next head ≠ x := by
      rintro rfl
      exact hx h.next_head_mem
    have hring : (xs ++ [head]).Nodup := by
      rw [List.nodup_append_comm]
      exact h.nodup
    refine ⟨?_, ?_, h.ring.restart hring ?_ ?_ ?_ ?_⟩
    · simp [Links.add]
    · simp [Links.add, hxh, hfirst.symm]
    · intro z hz
      have hzx : z ≠ x := fun heq => hxs (heq ▸ hz)
      have hzh : z ≠ head := fun heq => hhead (heq ▸ hz)
      simp [Links.add, hzx, hzh]
    · intro z hz hzf
      have hzx : z ≠ x := by
        rintro rfl
        rcases List.mem_append.mp hz with hz | hz
        · exact hxs hz
        · exact hxh (List.mem_singleton.mp hz)
      simp [Links.add, hxh, hzx, hzf]
    · simp [Links.add, hxh]
    · simp [Links.add, hxh]

omit [DecidableEq ι] in
/-- The parts of the ring before and behind `x`. -/
theorem Linked.around (h : Linked l head (xs ++ x :: ys)) :
    (head :: xs).Nodup ∧ x ∉ head :: xs ∧ x ∉ ys ∧ (∀ z ∈ ys, z ∉ head :: xs) ∧ ys.Nodup := by
  have hnodup := h.nodup
  rw [← List.cons_append, List.nodup_append] at hnodup
  obtain ⟨hleft, hright, hdisjoint⟩ := hnodup
  refine ⟨hleft, fun hx => hdisjoint x hx x List.mem_cons_self rfl,
    (List.nodup_cons.mp hright).1, fun z hz hz' => hdisjoint z hz' z (List.mem_cons_of_mem _ hz) rfl,
    (List.nodup_cons.mp hright).2⟩

omit [DecidableEq ι] in
theorem Linked.prev_mem (h : Linked l head (xs ++ x :: ys)) : l.prev x ∈ head :: xs := by
  rw [h.ring.split.1.prev_eq]
  exact List.getLast_mem _

omit [DecidableEq ι] in
theorem Linked.next_mem (h : Linked l head (xs ++ x :: ys)) : l.next x ∈ ys ++ [head] := by
  have hright := h.ring.split.2
  cases ys with
  | nil => exact List.mem_singleton.mpr hright.1
  | cons y ys => exact List.mem_cons.mpr (.inl hright.1)

theorem Linked.delete_mid (h : Linked l head (xs ++ x :: ys)) :
    Linked (l.delete x) head (xs ++ ys) := by
  obtain ⟨hleft, hxleft, hxright, hdisjoint, hright⟩ := h.around
  have hprev := h.prev_mem
  have hnext := h.next_mem
  obtain ⟨hbefore, hbehind⟩ := h.ring.split
  have hnextx : l.next x ≠ x := by
    intro heq
    rw [heq] at hnext
    rcases List.mem_append.mp hnext with hm | hm
    · exact hxright hm
    · exact hxleft (List.mem_singleton.mp hm ▸ List.mem_cons_self)
  have hlast : (l.delete x).next (l.prev x) = l.next x := by simp [Links.delete, hnextx.symm]
  have hend : (l.delete x).prev (l.next x) = l.prev x := by simp [Links.delete]
  constructor
  · rw [← List.cons_append, List.nodup_append]
    exact ⟨hleft, hright, fun z hz w hw heq => hdisjoint w hw (heq ▸ hz)⟩
  · have hredirect : l.next x ∉ xs → Segment (l.delete x) head xs (l.next x) := by
      intro hnew
      refine hbefore.redirect hleft ?_ ?_ hlast hend
      · intro z _ hz
        simp [Links.delete, hnextx.symm, hz]
      · intro z hz
        have hzn : z ≠ l.next x := fun heq => hnew (heq ▸ hz)
        simp [Links.delete, hzn]
    cases ys with
    | nil =>
      have hnx : l.next x = head := hbehind.1
      rw [List.append_nil, ← hnx]
      rw [hnx] at hredirect ⊢
      exact hredirect (List.nodup_cons.mp hleft).1
    | cons y ys =>
      obtain ⟨hny, -, hrest⟩ := hbehind
      rw [hny] at hredirect hnextx
      have hy := hdisjoint y List.mem_cons_self
      refine (hredirect fun hm => hy (List.mem_cons_of_mem _ hm)).append (hrest.frame ?_ ?_)
      · intro z hz
        have hzp : z ≠ l.prev x := fun heq => hdisjoint z hz (heq ▸ hprev)
        simp [Links.delete, hny, hnextx.symm, hzp]
      · intro z hz
        have hzy : z ≠ y := by
          rintro rfl
          rcases List.mem_append.mp hz with hz | hz
          · exact (List.nodup_cons.mp hright).1 hz
          · exact hy (List.mem_singleton.mp hz ▸ List.mem_cons_self)
        simp [Links.delete, hny, hzy]

theorem Linked.delete (h : Linked l head (x :: xs)) : Linked (l.delete x) head xs :=
  Linked.delete_mid (show Linked l head ([] ++ x :: xs) from h)

theorem Linked.replace (h : Linked l head (xs ++ x :: ys)) (hy : y ∉ head :: (xs ++ x :: ys)) :
    Linked (l.replace y x) head (xs ++ y :: ys) := by
  obtain ⟨hleft, hxleft, hxright, hdisjoint, hright⟩ := h.around
  have hprev := h.prev_mem
  have hnext := h.next_mem
  obtain ⟨hbefore, hbehind⟩ := h.ring.split
  have hyh : y ≠ head := fun heq => hy (heq ▸ List.mem_cons_self)
  have hyleft : y ∉ head :: xs := by
    intro hm
    exact hy (by simpa [or_assoc] using Or.inl (List.mem_cons.mp hm))
  have hyright : y ∉ ys := fun hm =>
    hy (List.mem_cons_of_mem _ (List.mem_append_right _ (List.mem_cons_of_mem _ hm)))
  have hyn : y ≠ l.next x := by
    intro heq
    rcases List.mem_append.mp (heq ▸ hnext) with hm | hm
    · exact hyright hm
    · exact hyh (List.mem_singleton.mp hm)
  have hyp : y ≠ l.prev x := fun heq => hyleft (heq ▸ hprev)
  have hring : (ys ++ [head]).Nodup := by
    refine List.nodup_append.mpr ⟨hright, List.nodup_singleton head, fun z hz w hw heq => ?_⟩
    exact hdisjoint z hz (heq.trans (List.mem_singleton.mp hw) ▸ List.mem_cons_self)
  constructor
  · rw [← List.cons_append, List.nodup_append]
    refine ⟨hleft, List.nodup_cons.mpr ⟨hyright, hright⟩, fun z hz w hw heq => ?_⟩
    rcases List.mem_cons.mp hw with rfl | hw
    · exact hyleft (heq ▸ hz)
    · exact hdisjoint w hw (heq ▸ hz)
  · refine (hbefore.redirect hleft ?_ ?_ ?_ ?_).append (hbehind.restart hring ?_ ?_ ?_ ?_)
    · intro z hz hzp
      have hzy : z ≠ y := fun heq => hyleft (heq ▸ hz)
      simp [Links.replace, hyn, hzp, hzy]
    · intro z hz
      have hzy : z ≠ y := fun heq => hyleft (heq ▸ List.mem_cons_of_mem _ hz)
      have hzn : z ≠ l.next x := by
        rintro rfl
        rcases List.mem_append.mp hnext with hm | hm
        · exact hdisjoint _ hm (List.mem_cons_of_mem _ hz)
        · exact (List.nodup_cons.mp hleft).1 (List.mem_singleton.mp hm ▸ hz)
      simp [Links.replace, hzy, hzn]
    · simp [Links.replace, hyn]
    · simp [Links.replace, hyn]
    · intro z hz
      have hzy : z ≠ y := fun heq => hyright (heq ▸ hz)
      have hzp : z ≠ l.prev x := fun heq => hdisjoint z hz (heq ▸ hprev)
      simp [Links.replace, hyn, hzy, hzp]
    · intro z hz hzn
      have hzy : z ≠ y := by
        rintro rfl
        rcases List.mem_append.mp hz with hz | hz
        · exact hyright hz
        · exact hyh (List.mem_singleton.mp hz)
      simp [Links.replace, hzy, hzn]
    · simp [Links.replace, hyn, hyp]
    · simp [Links.replace]

end Sysbench.Rings
