import Mathlib

/-! # Lines with repetitions

A text of lines in which some lines stand for copies of the line before. The reader takes the text
letter by letter, so that what is appended to a text is read from the state behind it. A last line
may lack its newline. Nothing in this file knows about a program.
-/
namespace Sysbench.Repeats

variable {α : Type*}

/-- The lines read, with their copies, the line before and the begun line. -/
structure Reader (α : Type*) where
  lines : List (List α)
  before : List α
  rest : List α

def Reader.start : Reader α := ⟨[], [], []⟩

section Read

variable (count : List α → Option ℕ)

/-- The begun line is complete. It is itself a line, or stands for some copies. -/
def Reader.close (r : Reader α) : Reader α where
  lines := r.lines ++ (count r.rest).elim [r.rest] (List.replicate · r.before)
  before := r.rest
  rest := []

def Reader.final (r : Reader α) : List (List α) :=
  if r.rest = [] then r.lines else (r.close count).lines

variable [DecidableEq α] (nl : α)

def Reader.step (r : Reader α) (a : α) : Reader α :=
  if a = nl then r.close count else { r with rest := r.rest ++ [a] }

def Reader.read (r : Reader α) (text : List α) : Reader α := text.foldl (Reader.step count nl) r

def expand (text : List α) : List (List α) := (Reader.start.read count nl text).final count

end Read

section Lemmas

variable {count : List α → Option ℕ} {r : Reader α}

theorem Reader.close_of_none (h : count r.rest = none) :
    r.close count = ⟨r.lines ++ [r.rest], r.rest, []⟩ := by
  rw [Reader.close, h]
  rfl

theorem Reader.close_of_some {n : ℕ} (h : count r.rest = some n) :
    r.close count = ⟨r.lines ++ List.replicate n r.before, r.rest, []⟩ := by
  rw [Reader.close, h]
  rfl

theorem Reader.final_of_rest (h : r.rest = []) : r.final count = r.lines := if_pos h

theorem Reader.final_of_none (hne : r.rest ≠ []) (h : count r.rest = none) :
    r.final count = r.lines ++ [r.rest] := by
  rw [Reader.final, if_neg hne, Reader.close_of_none h]

variable [DecidableEq α] {nl : α}

theorem Reader.read_append (s t : List α) :
    r.read count nl (s ++ t) = (r.read count nl s).read count nl t :=
  List.foldl_append

theorem Reader.read_of_notMem {t : List α} (ht : nl ∉ t) :
    r.read count nl t = { r with rest := r.rest ++ t } := by
  induction t generalizing r with
  | nil => simp [Reader.read]
  | cons a t ih =>
    rw [List.mem_cons, not_or] at ht
    rw [Reader.read, List.foldl_cons, Reader.step, if_neg (Ne.symm ht.1)]
    exact (ih ht.2).trans (by rw [List.append_assoc, List.singleton_append])

theorem Reader.read_line {t : List α} (ht : nl ∉ t) :
    r.read count nl (t ++ [nl]) = Reader.close count { r with rest := r.rest ++ t } := by
  rw [Reader.read_append, Reader.read_of_notMem ht]
  exact if_pos rfl

end Lemmas

end Sysbench.Repeats
