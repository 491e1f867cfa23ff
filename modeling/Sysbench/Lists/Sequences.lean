import Sysbench.Machine.Ring
import Sysbench.Machine.Runs

/-! # Intrusive lists in memory

The macros of `sb_list.h`, assignment by assignment, on memory of which a part may have been freed.
An access to a node that is not allocated has no result. Every macro is the operation of the same
name on the pointers, and the rings make a list of any sequence of them.
-/
namespace Sysbench.Lists

open Rings Runs

variable {ι : Type*}

structure SbListItem (ι : Type*) where
  nextP : ι
  prevP : ι
  deriving DecidableEq

abbrev Memory (ι : Type*) := ι → Option (SbListItem ι)

/-- The pointers. A node that is not allocated points to itself. -/
def links (m : Memory ι) : Links ι where
  next p := (m p).elim p SbListItem.nextP
  prev p := (m p).elim p SbListItem.prevP

section Macros

variable [DecidableEq ι]

def setNext (m : Memory ι) (p q : ι) : Option (Memory ι) :=
  (m p).map fun c => Function.update m p (some { c with nextP := q })

def setPrev (m : Memory ι) (p q : ι) : Option (Memory ι) :=
  (m p).map fun c => Function.update m p (some { c with prevP := q })

def sbListInit (head : ι) (m : Memory ι) : Option (Memory ι) := do
  let m ← setNext m head head
  setPrev m head head

def sbListAdd (item head : ι) (m : Memory ι) : Option (Memory ι) := do
  let m ← setNext m item (← m head).nextP
  let m ← setPrev m item head
  let m ← setNext m head item
  setPrev m (← m item).nextP item

def sbListAddTail (item head : ι) (m : Memory ι) : Option (Memory ι) := do
  let m ← setPrev m item (← m head).prevP
  let m ← setNext m item head
  let m ← setPrev m head item
  setNext m (← m item).prevP item

def sbListDelete (oldItem : ι) (m : Memory ι) : Option (Memory ι) := do
  let m ← setPrev m (← m oldItem).nextP (← m oldItem).prevP
  setNext m (← m oldItem).prevP (← m oldItem).nextP

def sbListReplace (item oldItem : ι) (m : Memory ι) : Option (Memory ι) := do
  let m ← setNext m item (← m oldItem).nextP
  let m ← setPrev m item (← m oldItem).prevP
  let m ← setPrev m (← m item).nextP item
  setNext m (← m item).prevP item

/-- `SB_LIST_FOR_EACH` along `step` from `pos` on. The result is missing if the loop needs more
rounds. -/
def forEachFrom (step : SbListItem ι → ι) (m : Memory ι) (head : ι) : ℕ → ι → Option (List ι)
  | 0, _ => none
  | rounds + 1, pos =>
    if pos = head then some []
    else do
      let items ← forEachFrom step m head rounds (step (← m pos))
      some (pos :: items)

def sbListForEach (m : Memory ι) (head : ι) (rounds : ℕ) : Option (List ι) := do
  forEachFrom SbListItem.nextP m head rounds (← m head).nextP

def sbListForEachRev (m : Memory ι) (head : ι) (rounds : ℕ) : Option (List ι) := do
  forEachFrom SbListItem.prevP m head rounds (← m head).prevP

/-- `SB_LIST_FOR_EACH_SAFE` from `pos` and `temp` on. -/
def forEachSafeFrom (body : ι → Memory ι → Option (Memory ι)) (head : ι) :
    ℕ → ι → ι → Memory ι → Option (List ι × Memory ι)
  | 0, _, _, _ => none
  | rounds + 1, pos, temp, m =>
    if pos = head then some ([], m)
    else do
      let m ← body pos m
      let (items, m) ← forEachSafeFrom body head rounds temp (← m temp).nextP m
      some (pos :: items, m)

/-- The items visited, and what the memory has become. -/
def sbListForEachSafe (body : ι → Memory ι → Option (Memory ι)) (head : ι) (rounds : ℕ)
    (m : Memory ι) : Option (List ι × Memory ι) := do
  let pos := (← m head).nextP
  forEachSafeFrom body head rounds pos (← m pos).nextP m

def free (p : ι) (m : Memory ι) : Memory ι := Function.update m p none

/-- The body of the loop in `free_values`: `val->data` is read and freed, the item deleted, and the
memory of the value freed. -/
def freeValue (cur : ι) (m : Memory ι) : Option (Memory ι) := do
  let _ ← m cur
  let m ← sbListDelete cur m
  some (free cur m)

def freeValues (values : ι) (rounds : ℕ) (m : Memory ι) : Option (List ι × Memory ι) :=
  sbListForEachSafe freeValue values rounds m

end Macros

inductive ListOp (ι : Type*) where
  | add (item : ι)
  | addTail (item : ι)
  | delete (oldItem : ι)
  | replace (item oldItem : ι)
  deriving DecidableEq

def ListOp.item? : ListOp ι → Option ι
  | .add item | .addTail item | .replace item _ => some item
  | .delete _ => none

section Runs

variable [DecidableEq ι] (head : ι)

/-- The operations on a sequence, if the items are not in the list, and are in the list, as they
have to. -/
def seqStep (xs : List ι) : ListOp ι → Option (List ι)
  | .add item => if item ∈ head :: xs then none else some (item :: xs)
  | .addTail item => if item ∈ head :: xs then none else some (xs ++ [item])
  | .delete oldItem => if oldItem ∈ xs then some (xs.erase oldItem) else none
  | .replace item oldItem =>
    if item ∉ head :: xs ∧ oldItem ∈ xs then some (xs.map fun x => if x = oldItem then item else x)
    else none

def memStep (m : Memory ι) : ListOp ι → Option (Memory ι)
  | .add item => sbListAdd item head m
  | .addTail item => sbListAddTail item head m
  | .delete oldItem => sbListDelete oldItem m
  | .replace item oldItem => sbListReplace item oldItem m

end Runs

/-- The ring of `head` consists of allocated nodes and holds the items `xs`. -/
structure Holds (m : Memory ι) (head : ι) (xs : List ι) : Prop where
  linked : Linked (links m) head xs
  allocated : ∀ p ∈ head :: xs, (m p).isSome

/-! ## Assignments -/

section Store

variable [DecidableEq ι]

def store (a : ι → Bool) (l : Links ι) : Memory ι :=
  fun p => if a p then some ⟨l.next p, l.prev p⟩ else none

omit [DecidableEq ι] in
theorem store_links (m : Memory ι) : store (fun p => (m p).isSome) (links m) = m := by
  funext p
  unfold store links
  cases h : m p <;> simp [h]

variable {a : ι → Bool} {l : Links ι} {p q item head oldItem : ι}

omit [DecidableEq ι] in
theorem store_apply (h : a p) : store a l p = some ⟨l.next p, l.prev p⟩ := if_pos h

omit [DecidableEq ι] in
@[simp] theorem isSome_store (p : ι) : (store a l p).isSome = a p := by
  unfold store
  cases h : a p <;> simp

theorem setNext_store (h : a p) :
    setNext (store a l) p q = some (store a { l with next := Function.update l.next p q }) := by
  rw [setNext, store_apply h, Option.map_some]
  congr 1
  funext r
  rcases eq_or_ne r p with rfl | hne
  · simp [store, h]
  · simp [store, hne]

theorem setPrev_store (h : a p) :
    setPrev (store a l) p q = some (store a { l with prev := Function.update l.prev p q }) := by
  rw [setPrev, store_apply h, Option.map_some]
  congr 1
  funext r
  rcases eq_or_ne r p with rfl | hne
  · simp [store, h]
  · simp [store, hne]

theorem sbListInit_store (hhead : a head) :
    sbListInit head (store a l) = some (store a (l.init head)) := by
  simp only [sbListInit, setNext_store hhead, setPrev_store hhead, Option.bind_eq_bind,
    Option.bind_some, Links.init]

theorem sbListAdd_store (hitem : a item) (hhead : a head)
    (hnext : a ((l.add item head).next item)) :
    sbListAdd item head (store a l) = some (store a (l.add item head)) := by
  unfold Links.add at hnext
  simp only [sbListAdd, store_apply hhead, setNext_store hitem, setPrev_store hitem,
    setNext_store hhead, store_apply hitem, setPrev_store hnext, Option.bind_eq_bind,
    Option.bind_some, Links.add]

theorem sbListAddTail_store (hitem : a item) (hhead : a head)
    (hprev : a ((l.addTail item head).prev item)) :
    sbListAddTail item head (store a l) = some (store a (l.addTail item head)) := by
  unfold Links.addTail at hprev
  simp only [sbListAddTail, store_apply hhead, setPrev_store hitem, setNext_store hitem,
    setPrev_store hhead, store_apply hitem, setNext_store hprev, Option.bind_eq_bind,
    Option.bind_some, Links.addTail]

theorem sbListDelete_store (hold : a oldItem) (hnext : a (l.next oldItem))
    (hprev : a ((l.delete oldItem).prev oldItem)) :
    sbListDelete oldItem (store a l) = some (store a (l.delete oldItem)) := by
  unfold Links.delete at hprev
  simp only [sbListDelete, store_apply hold, setPrev_store hnext, setNext_store hprev,
    Option.bind_eq_bind, Option.bind_some, Links.delete]

theorem sbListReplace_store (hitem : a item) (hold : a oldItem)
    (hnext : a (Function.update l.next item (l.next oldItem) item))
    (hprev : a ((l.replace item oldItem).prev item)) :
    sbListReplace item oldItem (store a l) = some (store a (l.replace item oldItem)) := by
  unfold Links.replace at hprev
  simp only [sbListReplace, store_apply hold, setNext_store hitem, setPrev_store hitem,
    store_apply hitem, setPrev_store hnext, setNext_store hprev, Option.bind_eq_bind,
    Option.bind_some, Links.replace]

end Store

/-! ## Rings in memory -/

section Rings

variable {m : Memory ι} {a : ι → Bool} {l : Links ι} {head : ι} {xs ys : List ι}

theorem holds_store (h : Linked l head xs) (ha : ∀ p ∈ head :: xs, a p) :
    Holds (store a l) head xs where
  linked := by
    refine ⟨h.nodup, h.ring.frame (fun p hp => ?_) fun p hp => ?_⟩
    · simp [links, store_apply (ha p hp)]
    · have hmem : p ∈ head :: xs := by simpa [or_comm] using hp
      simp [links, store_apply (ha p hmem)]
  allocated p hp := by rw [isSome_store, ha p hp]

theorem Holds.store_eq (m : Memory ι) : m = store (fun p => (m p).isSome) (links m) :=
  (store_links m).symm

theorem Holds.load (h : Holds m head xs) {p : ι} (hp : p ∈ head :: xs) :
    m p = some ⟨(links m).next p, (links m).prev p⟩ := by
  conv_lhs => rw [Holds.store_eq m]
  exact store_apply (h.allocated p hp)

variable [DecidableEq ι]

theorem sbListInit_holds (hhead : (m head).isSome) :
    ∃ l', sbListInit head m = some (store (fun p => (m p).isSome) l') ∧ Linked l' head [] := by
  refine ⟨_, ?_, linked_init (links m)⟩
  conv_lhs => rw [Holds.store_eq m]
  exact sbListInit_store (a := fun p => (m p).isSome) hhead

theorem sbListAdd_holds {item : ι} (h : Holds m head xs) (hitem : (m item).isSome)
    (hnew : item ∉ head :: xs) :
    ∃ l', sbListAdd item head m = some (store (fun p => (m p).isSome) l') ∧
      Linked l' head (item :: xs) := by
  have hne : head ≠ item := fun heq => hnew (heq ▸ List.mem_cons_self)
  have hfirst : (m ((links m).next head)).isSome := h.allocated _ h.linked.next_head_mem
  have hnext : (m (((links m).add item head).next item)).isSome := by
    simpa [Links.add, hne.symm] using hfirst
  refine ⟨_, ?_, h.linked.add hnew⟩
  conv_lhs => rw [Holds.store_eq m]
  exact sbListAdd_store (a := fun p => (m p).isSome) hitem (h.allocated head List.mem_cons_self)
    hnext

theorem sbListAddTail_holds {item : ι} (h : Holds m head xs) (hitem : (m item).isSome)
    (hnew : item ∉ head :: xs) :
    ∃ l', sbListAddTail item head m = some (store (fun p => (m p).isSome) l') ∧
      Linked l' head (xs ++ [item]) := by
  have hne : head ≠ item := fun heq => hnew (heq ▸ List.mem_cons_self)
  have hlast : (m ((links m).prev head)).isSome := by
    refine h.allocated _ ?_
    rw [h.linked.ring.prev_eq]
    exact List.getLast_mem _
  have hprev : (m (((links m).addTail item head).prev item)).isSome := by
    simpa [Links.addTail, hne.symm] using hlast
  refine ⟨_, ?_, h.linked.addTail hnew⟩
  conv_lhs => rw [Holds.store_eq m]
  exact sbListAddTail_store (a := fun p => (m p).isSome) hitem
    (h.allocated head List.mem_cons_self) hprev

omit [DecidableEq ι] in
theorem Holds.around {x : ι} (h : Holds m head (xs ++ x :: ys)) :
    (m x).isSome ∧ (m ((links m).next x)).isSome ∧ (m ((links m).prev x)).isSome := by
  have hmem : ∀ p, p ∈ head :: xs ∨ p ∈ ys ++ [head] → (m p).isSome := by
    intro p hp
    refine h.allocated p ?_
    simp only [List.mem_cons, List.mem_append, List.not_mem_nil, or_false] at hp ⊢
    tauto
  exact ⟨h.allocated x (by simp), hmem _ (.inr h.linked.next_mem), hmem _ (.inl h.linked.prev_mem)⟩

theorem sbListDelete_holds {x : ι} (h : Holds m head (xs ++ x :: ys)) :
    ∃ l', sbListDelete x m = some (store (fun p => (m p).isSome) l') ∧
      Linked l' head (xs ++ ys) := by
  obtain ⟨hx, hnext, hold⟩ := h.around
  have hprev : (m (((links m).delete x).prev x)).isSome := by
    simp only [Links.delete, Function.update_apply]
    split <;> exact hold
  refine ⟨_, ?_, h.linked.delete_mid⟩
  conv_lhs => rw [Holds.store_eq m]
  exact sbListDelete_store (a := fun p => (m p).isSome) hx hnext hprev

theorem sbListReplace_holds {item x : ι} (h : Holds m head (xs ++ x :: ys))
    (hitem : (m item).isSome) (hnew : item ∉ head :: (xs ++ x :: ys)) :
    ∃ l', sbListReplace item x m = some (store (fun p => (m p).isSome) l') ∧
      Linked l' head (xs ++ item :: ys) := by
  obtain ⟨hx, hold, hprev⟩ := h.around
  have hnext : (m (Function.update (links m).next item ((links m).next x) item)).isSome := by
    rwa [Function.update_self]
  have hback : (m (((links m).replace item x).prev item)).isSome := by
    simp only [Links.replace, Function.update_apply]
    split_ifs <;> assumption
  refine ⟨_, ?_, h.linked.replace hnew⟩
  conv_lhs => rw [Holds.store_eq m]
  exact sbListReplace_store (a := fun p => (m p).isSome) hitem hx hnext hback

end Rings

/-! ## Operations -/

section Operations

variable [DecidableEq ι] {m : Memory ι} {head : ι} {xs ys : List ι} {op : ListOp ι}

omit [DecidableEq ι] in
/-- The ring stays allocated if what it contains besides is. -/
theorem Holds.allocated_of_subset (h : Holds m head xs) {item : ι} (hitem : (m item).isSome)
    (hsub : ∀ p ∈ ys, p = item ∨ p ∈ xs) : ∀ p ∈ head :: ys, (m p).isSome := by
  intro p hp
  rcases List.mem_cons.mp hp with rfl | hp
  · exact h.allocated p List.mem_cons_self
  · rcases hsub p hp with rfl | hp
    · exact hitem
    · exact h.allocated p (List.mem_cons_of_mem _ hp)

/-- Every macro does to the ring what the operation does to the sequence. -/
theorem memStep_spec (h : Holds m head xs) (hitem : ∀ item ∈ op.item?, (m item).isSome)
    (hseq : seqStep head xs op = some ys) :
    ∃ l', memStep head m op = some (store (fun p => (m p).isSome) l') ∧ Linked l' head ys ∧
      ∀ p ∈ head :: ys, (m p).isSome := by
  cases op with
  | add item =>
    obtain ⟨hnew, heq⟩ := Option.ite_none_left_eq_some.mp hseq
    cases heq
    obtain ⟨l', hmem, hlinked⟩ := sbListAdd_holds h (hitem item rfl) hnew
    refine ⟨l', hmem, hlinked, h.allocated_of_subset (hitem item rfl) fun p hp => ?_⟩
    exact List.mem_cons.mp hp
  | addTail item =>
    obtain ⟨hnew, heq⟩ := Option.ite_none_left_eq_some.mp hseq
    cases heq
    obtain ⟨l', hmem, hlinked⟩ := sbListAddTail_holds h (hitem item rfl) hnew
    refine ⟨l', hmem, hlinked, h.allocated_of_subset (hitem item rfl) fun p hp => ?_⟩
    rwa [List.mem_append, List.mem_singleton, or_comm] at hp
  | delete oldItem =>
    obtain ⟨hold, heq⟩ := Option.ite_none_right_eq_some.mp hseq
    cases heq
    obtain ⟨us, vs, rfl, hus⟩ := List.eq_append_cons_of_mem hold
    obtain ⟨l', hmem, hlinked⟩ := sbListDelete_holds h
    rw [List.erase_append_right _ hus, List.erase_cons_head]
    refine ⟨l', hmem, hlinked, h.allocated_of_subset h.around.1 fun p hp => ?_⟩
    exact .inr (((List.sublist_cons_self oldItem vs).append_left us).subset hp)
  | replace item oldItem =>
    obtain ⟨⟨hnew, hold⟩, heq⟩ := Option.ite_none_right_eq_some.mp hseq
    cases heq
    obtain ⟨us, vs, rfl, hus⟩ := List.eq_append_cons_of_mem hold
    obtain ⟨-, -, hvs, -, -⟩ := h.linked.around
    have hsame : ∀ zs : List ι, oldItem ∉ zs →
        (zs.map fun x => if x = oldItem then item else x) = zs := by
      intro zs hzs
      refine (List.map_congr_left fun x hx => ?_).trans (List.map_id zs)
      exact if_neg (ne_of_mem_of_not_mem hx hzs)
    obtain ⟨l', hmem, hlinked⟩ := sbListReplace_holds h (hitem item rfl) hnew
    rw [List.map_append, List.map_cons, hsame us hus, hsame vs hvs, if_pos rfl]
    refine ⟨l', hmem, hlinked, h.allocated_of_subset (hitem item rfl) fun p hp => ?_⟩
    simp only [List.mem_append, List.mem_cons] at hp ⊢
    tauto

/-- A run on the sequence is a run on the ring, and no node is allocated or freed. -/
theorem memRun_spec {ops : List (ListOp ι)} (h : Holds m head xs)
    (hitems : ∀ op ∈ ops, ∀ item ∈ op.item?, (m item).isSome)
    (hseq : run (seqStep head) xs ops = some ys) :
    ∃ m', run (memStep head) m ops = some m' ∧ Holds m' head ys ∧
      ∀ p, (m' p).isSome = (m p).isSome := by
  induction ops generalizing m xs with
  | nil =>
    cases hseq
    exact ⟨m, rfl, h, fun _ => rfl⟩
  | cons op ops ih =>
    rw [run_cons, Option.bind_eq_some_iff] at hseq
    obtain ⟨zs, hstep, hrest⟩ := hseq
    obtain ⟨l', hmem, hlinked, hall⟩ := memStep_spec h (hitems op List.mem_cons_self) hstep
    have hholds : Holds (store (fun p => (m p).isSome) l') head zs := holds_store hlinked hall
    obtain ⟨m', hrun, hm', hsame⟩ := ih hholds (fun op' hop item hi => by
      rw [isSome_store]
      exact hitems op' (List.mem_cons_of_mem _ hop) item hi) hrest
    refine ⟨m', ?_, hm', fun p => (hsame p).trans (isSome_store p)⟩
    rw [run_cons, hmem]
    exact hrun

/-! ## Walks -/

omit [DecidableEq ι] in
theorem Holds.of_cons_mem (h : Holds m head xs) {p : ι} (hp : p ∈ xs) :
    m p = some ⟨(links m).next p, (links m).prev p⟩ := h.load (List.mem_cons_of_mem _ hp)

theorem forEachFrom_eq {step : SbListItem ι → ι} {l : Links ι} {b : ι} {rounds : ℕ}
    (h : Segment l b xs head) (hhead : head ∉ xs) (hrounds : xs.length < rounds)
    (hload : ∀ p ∈ xs, ∃ c, m p = some c ∧ step c = l.next p) :
    forEachFrom step m head rounds (l.next b) = some xs := by
  induction xs generalizing b rounds with
  | nil =>
    obtain ⟨rounds, rfl⟩ := Nat.exists_eq_succ_of_ne_zero (Nat.ne_of_gt hrounds)
    exact if_pos h.1
  | cons x xs ih =>
    obtain ⟨rounds, rfl⟩ := Nat.exists_eq_succ_of_ne_zero (Nat.ne_zero_of_lt hrounds)
    obtain ⟨hnext, -, hrest⟩ := h
    obtain ⟨c, hc, hstep⟩ := hload x List.mem_cons_self
    have hwalk := ih hrest (fun hm => hhead (List.mem_cons_of_mem _ hm))
      (Nat.lt_of_succ_lt_succ hrounds) fun p hp => hload p (List.mem_cons_of_mem _ hp)
    have hne : x ≠ head := fun heq => hhead (heq ▸ List.mem_cons_self)
    rw [hnext, forEachFrom, if_neg hne, hc]
    simp only [Option.bind_eq_bind, Option.bind_some, hstep, hwalk]

theorem sbListForEach_eq (h : Holds m head xs) {rounds : ℕ} (hrounds : xs.length < rounds) :
    sbListForEach m head rounds = some xs := by
  rw [sbListForEach, h.load List.mem_cons_self, Option.bind_eq_bind, Option.bind_some]
  exact forEachFrom_eq h.linked.ring (List.nodup_cons.mp h.linked.nodup).1 hrounds
    fun p hp => ⟨_, h.of_cons_mem hp, rfl⟩

theorem sbListForEachRev_eq (h : Holds m head xs) {rounds : ℕ} (hrounds : xs.length < rounds) :
    sbListForEachRev m head rounds = some xs.reverse := by
  have hflip := h.linked.flip
  rw [sbListForEachRev, h.load List.mem_cons_self, Option.bind_eq_bind, Option.bind_some]
  refine forEachFrom_eq hflip.ring (List.nodup_cons.mp hflip.nodup).1 ?_ fun p hp => ?_
  · rwa [List.length_reverse]
  · exact ⟨_, h.of_cons_mem (List.mem_reverse.mp hp), rfl⟩

/-- One item is freed. The ring of the others stays. -/
theorem freeValue_spec {x : ι} (h : Holds m head (x :: xs)) :
    ∃ m', freeValue x m = some m' ∧ Holds m' head xs ∧
      ∀ p, (m' p).isSome ↔ p ≠ x ∧ (m p).isSome := by
  have hx := h.load (List.mem_cons_of_mem head List.mem_cons_self)
  obtain ⟨l', hdelete, hlinked⟩ := sbListDelete_holds (show Holds m head ([] ++ x :: xs) from h)
  have hnodup := h.linked.nodup
  have hfree : free x (store (fun p => (m p).isSome) l') =
      store (fun p => (m p).isSome && p ≠ x) l' := by
    funext p
    rcases eq_or_ne p x with rfl | hne
    · simp [free, store]
    · simp [free, store, hne]
  refine ⟨store (fun p => (m p).isSome && p ≠ x) l', ?_, holds_store hlinked fun p hp => ?_,
    fun p => ?_⟩
  · simp only [freeValue, hx, hdelete, Option.bind_eq_bind, Option.bind_some, hfree]
  · have hne : p ≠ x := by
      rintro rfl
      simp only [List.nodup_cons, List.mem_cons, not_or] at hnodup
      rcases List.mem_cons.mp hp with rfl | hp
      · exact hnodup.1.1 rfl
      · exact hnodup.2.1 hp
    have halloc : (m p).isSome := h.allocated p (by
      rcases List.mem_cons.mp hp with rfl | hp
      · exact List.mem_cons_self
      · exact List.mem_cons_of_mem _ (List.mem_cons_of_mem _ hp))
    simp [hne, halloc]
  · rw [isSome_store, Bool.and_eq_true, decide_eq_true_eq, and_comm]

/-- The loop visits every item once and leaves an empty ring. -/
theorem forEachSafeFrom_freeValue {rounds : ℕ} (h : Holds m head xs) (hrounds : xs.length < rounds) :
    ∃ m', forEachSafeFrom freeValue head rounds ((links m).next head)
        ((links m).next ((links m).next head)) m = some (xs, m') ∧
      Holds m' head [] ∧ ∀ p, (m' p).isSome ↔ p ∉ xs ∧ (m p).isSome := by
  induction xs generalizing m rounds with
  | nil =>
    obtain ⟨rounds, rfl⟩ := Nat.exists_eq_succ_of_ne_zero (Nat.ne_of_gt hrounds)
    exact ⟨m, if_pos h.linked.ring.1, h, fun p => by simp⟩
  | cons x xs ih =>
    obtain ⟨rounds, rfl⟩ := Nat.exists_eq_succ_of_ne_zero (Nat.ne_zero_of_lt hrounds)
    obtain ⟨m₁, hfree, hholds, halloc⟩ := freeValue_spec h
    obtain ⟨m', hloop, hempty, hfreed⟩ := ih hholds (Nat.lt_of_succ_lt_succ hrounds)
    have hfirst : (links m).next head = x := h.linked.next_head
    have hne : x ≠ head := fun heq =>
      (List.nodup_cons.mp h.linked.nodup).1 (heq ▸ List.mem_cons_self)
    -- `temp` is the first item of the ring that is left
    have htemp : (links m).next x = (links m₁).next head := by
      have hsecond := h.linked.ring.2.2
      cases xs with
      | nil => exact hsecond.1.trans hholds.linked.ring.1.symm
      | cons y ys => exact hsecond.1.trans hholds.linked.next_head.symm
    have hload := hholds.load hholds.linked.next_head_mem
    refine ⟨m', ?_, hempty, fun p => ?_⟩
    · rw [hfirst, htemp, forEachSafeFrom, if_neg hne]
      simp only [hfree, hload, Option.bind_eq_bind, Option.bind_some, hloop]
    · rw [hfreed, halloc, List.mem_cons, not_or]
      tauto

theorem freeValues_spec {rounds : ℕ} (h : Holds m head xs) (hrounds : xs.length < rounds) :
    ∃ m', freeValues head rounds m = some (xs, m') ∧ Holds m' head [] ∧
      ∀ p, (m' p).isSome ↔ p ∉ xs ∧ (m p).isSome := by
  obtain ⟨m', hloop, hspec⟩ := forEachSafeFrom_freeValue h hrounds
  refine ⟨m', ?_, hspec⟩
  rw [freeValues, sbListForEachSafe, h.load List.mem_cons_self]
  simp only [Option.bind_eq_bind, Option.bind_some, h.load h.linked.next_head_mem]
  exact hloop

/-- After any operations on an initialised head the ring holds the sequence that the operations
make, both walks go along it, and `free_values` visits and frees every item once. -/
theorem lists_are_sequences {ops : List (ListOp ι)} (hhead : (m head).isSome)
    (hitems : ∀ op ∈ ops, ∀ item ∈ op.item?, (m item).isSome)
    (hseq : run (seqStep head) [] ops = some xs) :
    ∃ m', (sbListInit head m).bind (fun m => run (memStep head) m ops) = some m' ∧
      Holds m' head xs ∧
      (∀ p ∈ head :: xs, (links m').prev ((links m').next p) = p ∧
        (links m').next ((links m').prev p) = p) ∧
      ∀ rounds, xs.length < rounds →
        sbListForEach m' head rounds = some xs ∧
        sbListForEachRev m' head rounds = some xs.reverse ∧
        ∃ m'', freeValues head rounds m' = some (xs, m'') ∧ Holds m'' head [] ∧
          ∀ p, (m'' p).isSome ↔ p ∉ xs ∧ (m' p).isSome := by
  obtain ⟨l, hinit, hlinked⟩ := sbListInit_holds hhead
  have hempty : Holds (store (fun p => (m p).isSome) l) head [] :=
    holds_store hlinked fun p hp => by rwa [List.mem_singleton.mp hp]
  obtain ⟨m', hrun, hholds, -⟩ := memRun_spec hempty (fun op hop item hi => by
    rw [isSome_store]
    exact hitems op hop item hi) hseq
  refine ⟨m', ?_, hholds, fun p hp => ?_, fun rounds hrounds => ?_⟩
  · rw [hinit]
    exact hrun
  · exact ⟨hholds.linked.prev_next hp, hholds.linked.next_prev hp⟩
  · exact ⟨sbListForEach_eq hholds hrounds, sbListForEachRev_eq hholds hrounds,
      freeValues_spec hholds hrounds⟩

end Operations

theorem lists_are_sequences_replaced :
    ∃ m', (sbListInit 0 fun _ => some ⟨7, 7⟩).bind
        (fun m => run (memStep 0) m [.add 1, .addTail 2, .replace 3 1, .delete 2]) = some m' ∧
      Holds m' 0 [3] ∧
      (∀ p ∈ [0, 3], (links m').prev ((links m').next p) = p ∧
        (links m').next ((links m').prev p) = p) ∧
      ∀ rounds, [3].length < rounds →
        sbListForEach m' 0 rounds = some [3] ∧
        sbListForEachRev m' 0 rounds = some [3].reverse ∧
        ∃ m'', freeValues 0 rounds m' = some ([3], m'') ∧ Holds m'' 0 [] ∧
          ∀ p, (m'' p).isSome ↔ p ∉ [3] ∧ (m' p).isSome :=
  lists_are_sequences (m := fun _ => some ⟨7, 7⟩) rfl (fun _ _ _ _ => rfl) (by decide)

end Sysbench.Lists
