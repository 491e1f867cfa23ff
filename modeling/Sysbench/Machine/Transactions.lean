import Mathlib

/-! # Transactions of one session

A session changes a store in transactions. What an open transaction has changed is seen by the
session only, until the transaction is committed. Nothing in this file knows about a program.
-/
namespace Sysbench.Transactions

variable {S : Type*}

structure Session (S : Type*) where
  committed : S
  pending : Option S

namespace Session

def view (s : Session S) : S := s.pending.getD s.committed

def commit (s : Session S) : Session S := ⟨s.view, none⟩

def rollback (s : Session S) : Session S := ⟨s.committed, none⟩

/-- A new transaction, which commits the open one. -/
def begin (s : Session S) : Session S := ⟨s.view, some s.view⟩

/-- A change outside of transactions is committed at once. -/
def change (s : Session S) (f : S → S) : Session S :=
  match s.pending with
  | some v => ⟨s.committed, some (f v)⟩
  | none => ⟨f s.committed, none⟩

/-- A statement fails, and undoes either itself only or the whole open transaction. -/
def fail (s : Session S) (whole : Bool) : Session S := if whole then s.rollback else s

/-- The session sees a store with the property `Q`. If a transaction is open, the session goes
back to one with the property `P` when it rolls back. -/
structure Departs (P Q : S → Prop) (s : Session S) : Prop where
  view : Q s.view
  committed : s.pending ≠ none → P s.committed

abbrev Keeps (P : S → Prop) (s : Session S) : Prop := Departs P P s

variable {P Q R : S → Prop} {s : Session S} {f : S → S}

theorem view_change (s : Session S) (f : S → S) : (s.change f).view = f s.view := by
  rcases s with ⟨committed, pending⟩
  cases pending with
  | none => rfl
  | some v => rfl

/-- A rollback leaves nothing for a failure to undo. -/
theorem rollback_fail (s : Session S) (whole : Bool) : (s.fail whole).rollback = s.rollback := by
  cases whole <;> rfl

theorem Departs.imp (h : Departs P Q s) (hQR : ∀ v, Q v → R v) : Departs P R s :=
  ⟨hQR _ h.view, h.committed⟩

theorem Departs.change (h : Departs P Q s) (hf : ∀ v, Q v → R (f v)) :
    Departs P R (s.change f) := by
  constructor
  · rw [view_change]
    exact hf _ h.view
  · rcases s with ⟨committed, pending⟩
    cases pending with
    | none => exact fun hopen => absurd rfl hopen
    | some v => exact fun _ => h.committed nofun

/-- Whatever an open transaction has done is gone. -/
theorem Departs.rollback (h : Departs P Q s) (hopen : s.pending ≠ none) : Keeps P s.rollback :=
  ⟨h.committed hopen, fun hnone => absurd rfl hnone⟩

theorem Keeps.committed (h : Keeps P s) : P s.committed := by
  rcases s with ⟨committed, pending⟩
  cases pending with
  | none => exact h.view
  | some v => exact Departs.committed h nofun

theorem Keeps.rollback (h : Keeps P s) : Keeps P s.rollback :=
  ⟨h.committed, fun hnone => absurd rfl hnone⟩

theorem Keeps.fail (h : Keeps P s) (whole : Bool) : Keeps P (s.fail whole) := by
  cases whole with
  | false => exact h
  | true => exact h.rollback

theorem Keeps.begin (h : Keeps P s) : Keeps P s.begin := ⟨h.view, fun _ => h.view⟩

theorem Keeps.commit (h : Keeps P s) : Keeps P s.commit :=
  ⟨h.view, fun hnone => absurd rfl hnone⟩

end Session

end Sysbench.Transactions
