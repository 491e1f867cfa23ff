import Mathlib

/-! # Lists with keys

A list of records is searched by a key that is computed from a record. Records are changed
in place at the position where the search ends, or appended when it fails. Read through
the search, the list is a partial function of keys. Nothing in this file knows about a
program.
-/
namespace Sysbench.Keyed

variable {α κ : Type*} [DecidableEq κ] (key : α → κ)

def lookup (l : List α) (k : κ) : Option α := l.find? fun a => key a = k

/-- The position of the key, where `new` has been put if there was no such key. -/
def locate (l : List α) (k : κ) (new : α) : List α × ℕ :=
  match l.findIdx? fun a => key a = k with
  | some i => (l, i)
  | none => (l ++ [new], l.length)

def remove (l : List α) (k : κ) : List α :=
  match l.findIdx? fun a => key a = k with
  | some i => l.eraseIdx i
  | none => l

def Unique (l : List α) : Prop := (l.map key).Nodup

section Search

variable {key} {l : List α} {k : κ} {i : ℕ}

/-- Where the search ends, the list is cut into the records before, the record found and the rest. -/
theorem findIdx_cases (key : α → κ) (l : List α) (k : κ) :
    (∃ before a after, l = before ++ a :: after ∧ key a = k ∧ (∀ b ∈ before, key b ≠ k) ∧
        (l.findIdx? fun a => key a = k) = some before.length) ∨
      (∀ b ∈ l, key b ≠ k) ∧ (l.findIdx? fun a => key a = k) = none := by
  induction l with
  | nil => exact Or.inr ⟨fun b hb => absurd hb List.not_mem_nil, rfl⟩
  | cons c l ih =>
    rw [List.findIdx?_cons]
    by_cases hc : key c = k
    · rw [if_pos (decide_eq_true hc)]
      exact Or.inl ⟨[], c, l, rfl, hc, fun b hb => absurd hb List.not_mem_nil, rfl⟩
    rw [if_neg (by simpa using hc)]
    rcases ih with ⟨before, a, after, rfl, ha, hbefore, hidx⟩ | ⟨hnone, hidx⟩
    · refine Or.inl ⟨c :: before, a, after, rfl, ha, ?_, by rw [hidx]; rfl⟩
      exact List.forall_mem_cons.mpr ⟨hc, hbefore⟩
    · exact Or.inr ⟨List.forall_mem_cons.mpr ⟨hc, hnone⟩, by rw [hidx]; rfl⟩

theorem lookup_append (before after : List α) (k : κ) :
    lookup key (before ++ after) k = (lookup key before k).or (lookup key after k) :=
  List.find?_append

theorem lookup_cons (a : α) (l : List α) (k : κ) :
    lookup key (a :: l) k = if key a = k then some a else lookup key l k := by
  rw [lookup, List.find?_cons]
  by_cases ha : key a = k <;> simp [ha, lookup]

theorem lookup_eq_none : lookup key l k = none ↔ ∀ b ∈ l, key b ≠ k := by
  simp [lookup]

end Search

section Update

variable {key} {l : List α} {k : κ}

theorem modify_append_length (before : List α) (a : α) (after : List α) (f : α → α) :
    (before ++ a :: after).modify before.length f = before ++ f a :: after := by
  induction before with
  | nil => rfl
  | cons b before ih => simpa using ih

theorem eraseIdx_append_length (before : List α) (a : α) (after : List α) :
    (before ++ a :: after).eraseIdx before.length = before ++ after := by
  induction before with
  | nil => rfl
  | cons b before ih => simpa using ih

/-- Changing the located record changes the partial function at its key only. -/
theorem lookup_modify_locate (l : List α) {new : α} (hnew : key new = k) {f : α → α}
    (hf : ∀ a, key (f a) = key a) :
    lookup key ((locate key l k new).1.modify (locate key l k new).2 f) =
      Function.update (lookup key l) k (some (f ((lookup key l k).getD new))) := by
  funext m
  rcases findIdx_cases key l k with
    ⟨before, a, after, rfl, ha, hbefore, hidx⟩ | ⟨hnone, hidx⟩
  · have hfound : lookup key (before ++ a :: after) k = some a := by
      rw [lookup_append, lookup_eq_none.mpr hbefore, lookup_cons, if_pos ha, Option.none_or]
    rw [locate, hidx, hfound, Option.getD_some]
    dsimp only
    rw [modify_append_length, lookup_append, lookup_cons, hf, ha]
    by_cases hm : m = k
    · subst hm
      rw [Function.update_self, lookup_eq_none.mpr hbefore, if_pos rfl, Option.none_or]
    · rw [Function.update_of_ne hm, if_neg (Ne.symm hm), lookup_append, lookup_cons, ha,
        if_neg (Ne.symm hm)]
  · rw [locate, hidx, lookup_eq_none.mpr hnone, Option.getD_none]
    dsimp only
    rw [modify_append_length, lookup_append, lookup_cons, hf, hnew]
    by_cases hm : m = k
    · subst hm
      rw [Function.update_self, lookup_eq_none.mpr hnone, if_pos rfl, Option.none_or]
    · rw [Function.update_of_ne hm, if_neg (Ne.symm hm)]
      exact Option.or_none

theorem modify_locate_locate (l : List α) {new : α} (hnew : key new = k) {f g : α → α}
    (hf : ∀ a, key (f a) = key a) (hg : ∀ a, g (f a) = g a) :
    (locate key ((locate key l k new).1.modify (locate key l k new).2 f) k new).1.modify
        (locate key ((locate key l k new).1.modify (locate key l k new).2 f) k new).2 g =
      (locate key l k new).1.modify (locate key l k new).2 g := by
  obtain ⟨before, a, after, hlocate, ha, hbefore⟩ : ∃ before a after,
      locate key l k new = (before ++ a :: after, before.length) ∧ key a = k ∧
        ∀ b ∈ before, key b ≠ k := by
    rcases findIdx_cases key l k with ⟨before, a, after, rfl, ha, hbefore, hidx⟩ | ⟨hnone, hidx⟩
    · exact ⟨before, a, after, by rw [locate, hidx], ha, hbefore⟩
    · exact ⟨l, new, [], by rw [locate, hidx], hnew, hnone⟩
  have hagain : locate key (before ++ f a :: after) k new =
      (before ++ f a :: after, before.length) := by
    have hidx : ((before ++ f a :: after).findIdx? fun b => key b = k) = some before.length := by
      rw [List.findIdx?_append, List.findIdx?_eq_none_iff.mpr (by simpa using hbefore),
        List.findIdx?_cons, if_pos (decide_eq_true ((hf a).trans ha))]
      simp
    rw [locate, hidx]
  rw [hlocate]
  dsimp only
  rw [modify_append_length, hagain]
  dsimp only
  rw [modify_append_length, modify_append_length, hg]

theorem unique_locate (hl : Unique key l) {new : α} (hnew : key new = k) :
    Unique key (locate key l k new).1 := by
  rcases findIdx_cases key l k with ⟨_, _, _, _, _, _, hidx⟩ | ⟨hnone, hidx⟩
  · rw [locate, hidx]
    exact hl
  · rw [locate, hidx]
    dsimp only
    rw [Unique, List.map_append, List.map_singleton, hnew, ← List.concat_eq_append,
      List.nodup_concat]
    refine ⟨fun hmem => ?_, hl⟩
    obtain ⟨b, hb, hkey⟩ := List.mem_map.mp hmem
    exact hnone b hb hkey

theorem mem_modify {i : ℕ} {f : α → α} {b : α} (h : b ∈ l.modify i f) :
    b ∈ l ∨ ∃ a ∈ l, b = f a := by
  obtain ⟨j, hj⟩ := List.mem_iff_getElem?.mp h
  rw [List.getElem?_modify, Option.map_eq_map, Option.map_eq_some_iff] at hj
  obtain ⟨a, ha, hab⟩ := hj
  have hmem := List.mem_of_getElem? ha
  split at hab
  · exact Or.inr ⟨a, hmem, hab.symm⟩
  · exact Or.inl (hab ▸ hmem)

omit [DecidableEq κ] in
theorem unique_modify (hl : Unique key l) (i : ℕ) {f : α → α} (hf : ∀ a, key (f a) = key a) :
    Unique key (l.modify i f) := by
  have hkeys : (l.modify i f).map key = l.map key := by
    apply List.ext_getElem?
    intro j
    rw [List.getElem?_map, List.getElem?_map, List.getElem?_modify, Option.map_eq_map,
      Option.map_map]
    congr 1
    funext a
    rw [Function.comp_apply]
    split
    · exact hf a
    · rfl
  rwa [Unique, hkeys]

theorem unique_modify_locate (hl : Unique key l) {new : α} (hnew : key new = k) {f : α → α}
    (hf : ∀ a, key (f a) = key a) :
    Unique key ((locate key l k new).1.modify (locate key l k new).2 f) :=
  unique_modify (unique_locate hl hnew) _ hf

theorem lookup_remove (hl : Unique key l) :
    lookup key (remove key l k) = Function.update (lookup key l) k none := by
  funext m
  rcases findIdx_cases key l k with
    ⟨before, a, after, rfl, ha, hbefore, hidx⟩ | ⟨hnone, hidx⟩
  · rw [remove, hidx]
    dsimp only
    rw [eraseIdx_append_length, lookup_append]
    by_cases hm : m = k
    · subst hm
      have hafter : ∀ b ∈ after, key b ≠ m := by
        intro b hb hkey
        rw [Unique, List.map_append, List.map_cons, List.nodup_append, List.nodup_cons] at hl
        exact hl.2.1.1 (List.mem_map.mpr ⟨b, hb, hkey.trans ha.symm⟩)
      rw [Function.update_self, lookup_eq_none.mpr hbefore, lookup_eq_none.mpr hafter]
      rfl
    · rw [Function.update_of_ne hm, lookup_append, lookup_cons, ha, if_neg (Ne.symm hm)]
  · rw [remove, hidx]
    dsimp only
    rw [← lookup_eq_none.mpr hnone, Function.update_eq_self]

theorem unique_remove (hl : Unique key l) : Unique key (remove key l k) := by
  unfold Unique at *
  rw [remove]
  split
  · exact hl.sublist ((List.eraseIdx_sublist _ _).map key)
  · exact hl

end Update

/-- After a sequence of updates a key has the value of the last update at it. -/
theorem foldl_update {β γ : Type*} (at_ : β → κ) (value : β → γ) (m : κ → γ) (updates : List β)
    (k : κ) : updates.foldl (fun m u => Function.update m (at_ u) (value u)) m k =
      ((updates.reverse.find? fun u => at_ u = k).map value).getD (m k) := by
  induction updates using List.reverseRecOn with
  | nil => rfl
  | append_singleton updates u ih =>
    rw [List.foldl_concat, List.reverse_concat, List.find?_cons]
    by_cases hu : at_ u = k
    · rw [decide_eq_true hu, ← hu, Function.update_self]
      rfl
    · rw [decide_eq_false hu, Function.update_of_ne (Ne.symm hu), ih]

end Sysbench.Keyed
