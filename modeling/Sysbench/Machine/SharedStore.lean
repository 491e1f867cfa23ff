import Sysbench.Machine.Transactions

/-! # Transactions of many sessions

The sessions change one store. An open transaction is the change that its session has made so far,
and its commit makes this change on the store as it is by then. Nothing in this file knows about a
program.
-/
namespace Sysbench.Transactions

structure Shared (T S : Type*) where
  committed : S
  opened : T → Option (S → S)

namespace Shared

variable {T S : Type*}

/-- The transactions of one session. -/
def session (s : Shared T S) (t : T) : Session S :=
  ⟨s.committed, (s.opened t).map fun f => f s.committed⟩

section Views

variable {s : Shared T S} {t : T}

theorem view_of_none (h : s.opened t = none) : (s.session t).view = s.committed := by
  simp [session, Session.view, h]

theorem view_of_some {f : S → S} (h : s.opened t = some f) :
    (s.session t).view = f s.committed := by
  simp [session, Session.view, h]

end Views

variable [DecidableEq T]

def commit (s : Shared T S) (t : T) : Shared T S :=
  ⟨(s.session t).view, Function.update s.opened t none⟩

def rollback (s : Shared T S) (t : T) : Shared T S :=
  ⟨s.committed, Function.update s.opened t none⟩

def begin (s : Shared T S) (t : T) : Shared T S :=
  ⟨(s.session t).view, Function.update s.opened t (some id)⟩

def change (s : Shared T S) (t : T) (f : S → S) : Shared T S :=
  match s.opened t with
  | some g => ⟨s.committed, Function.update s.opened t (some (f ∘ g))⟩
  | none => ⟨f s.committed, s.opened⟩

def fail (s : Shared T S) (t : T) (whole : Bool) : Shared T S := if whole then s.rollback t else s

variable (s : Shared T S) (t : T)

/-! ## What the session sees of its own steps -/

@[simp] theorem session_commit : (s.commit t).session t = (s.session t).commit := by
  simp [session, commit, Session.commit]

@[simp] theorem session_rollback : (s.rollback t).session t = (s.session t).rollback := by
  simp [session, rollback, Session.rollback]

@[simp] theorem session_begin : (s.begin t).session t = (s.session t).begin := by
  simp [session, begin, Session.begin]

@[simp] theorem session_change (f : S → S) :
    (s.change t f).session t = (s.session t).change f := by
  cases hopened : s.opened t with
  | none => simp [session, change, Session.change, hopened]
  | some g => simp [session, change, Session.change, hopened]

@[simp] theorem session_fail (whole : Bool) :
    (s.fail t whole).session t = (s.session t).fail whole := by
  cases whole with
  | false => rfl
  | true => exact session_rollback s t

/-! ## The open transactions -/

variable {s t}

theorem change_of_none (h : s.opened t = none) (f : S → S) :
    s.change t f = ⟨f s.committed, s.opened⟩ := by
  simp [change, h]

theorem change_of_some {g : S → S} (h : s.opened t = some g) (f : S → S) :
    s.change t f = ⟨s.committed, Function.update s.opened t (some (f ∘ g))⟩ := by
  simp [change, h]

end Shared

end Sysbench.Transactions
