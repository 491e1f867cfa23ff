import Sysbench.Machine.CStrings
import Sysbench.Machine.Keyed

/-! # The list of options

Options are stored in the order of their first mention under a name in which dashes have
become underscores. A name is looked up as it is written, by a comparison that takes the two
characters for the same one.
-/
namespace Sysbench.Options

open Bytes CStrings Keyed

inductive SbArgType
  | null | flag | int | size | float | string | list | file
deriving DecidableEq

structure Value where
  data : CString
  ignore : Bool
deriving DecidableEq

structure Opt where
  name : CString
  type : SbArgType
  values : List Value
  ignore : Bool
deriving DecidableEq

def convertDash (c : Byte) : Byte := if c = charByte '-' then charByte '_' else c

def convertDashes (s : CString) : CString := CString.ofBytes (s.chars.map convertDash)

/-- The loop of `opt_name_cmp`. The end of a list stands for the terminating zero. -/
def nameCmp : List Byte → List Byte → ℤ
  | [], s2 => - (s2.headD 0).toInt
  | c1 :: s1, s2 =>
    let c2 := s2.headD 0
    if c1 = c2 then nameCmp s1 s2.tail
    else if (c1 ≠ charByte '-' ∧ c1 ≠ charByte '_') ∨ (c2 ≠ charByte '-' ∧ c2 ≠ charByte '_') then
      c1.toInt - c2.toInt
    else nameCmp s1 s2.tail

def optNameCmp (s1 s2 : CString) : ℤ := nameCmp s1.chars s2.chars

def findOption (options : List Opt) (name : CString) : Option Opt :=
  options.find? fun opt => optNameCmp opt.name name = 0

def newOption (name : CString) : Opt := ⟨convertDashes name, .null, [], false⟩

/-- The result is the position of the option that the function returns. -/
def addOption (options : List Opt) (name : CString) : List Opt × ℕ :=
  match options.findIdx? fun opt => optNameCmp opt.name name = 0 with
  | some opt => (options, opt)
  | none => (options ++ [newOption name], options.length)

def freeValues (options : List Opt) (opt : ℕ) : List Opt :=
  options.modify opt fun o => { o with values := [] }

def addValue (options : List Opt) (opt : ℕ) (data : CString) : List Opt :=
  options.modify opt fun o => { o with values := o.values ++ [⟨data, false⟩] }

/-- The result is `false` where the function returns 1. -/
def removeOption (options : List Opt) (optname : CString) : Bool × List Opt :=
  match options.findIdx? fun opt => optNameCmp opt.name optname = 0 with
  | none => (false, options)
  | some option => (true, options.eraseIdx option)

/-! ## Names -/

def SameName (s t : CString) : Prop := convertDashes s = convertDashes t

instance (s t : CString) : Decidable (SameName s t) := inferInstanceAs (Decidable (_ = _))

theorem convertDash_ne_zero {c : Byte} (h : c ≠ 0) : convertDash c ≠ 0 := by
  unfold convertDash
  split
  · decide
  · exact h

theorem chars_convertDashes (s : CString) :
    (convertDashes s).chars = s.chars.map convertDash := by
  refine CString.chars_ofBytes fun hmem => ?_
  obtain ⟨c, hc, hzero⟩ := List.mem_map.mp hmem
  exact convertDash_ne_zero (ne_of_mem_of_not_mem hc s.noNul) hzero

theorem convertDash_convertDash (c : Byte) : convertDash (convertDash c) = convertDash c := by
  by_cases h : c = charByte '-'
  · rw [h]
    decide
  · rw [convertDash, convertDash, if_neg h, if_neg h]

@[simp] theorem convertDashes_convertDashes (s : CString) :
    convertDashes (convertDashes s) = convertDashes s := by
  ext1
  rw [chars_convertDashes, chars_convertDashes, List.map_map]
  exact List.map_congr_left fun c _ => convertDash_convertDash c

theorem sameName_iff {s t : CString} :
    SameName s t ↔ s.chars.map convertDash = t.chars.map convertDash := by
  rw [SameName, CString.ext_iff, chars_convertDashes, chars_convertDashes]

/-- The characters that pass as equal are those that become equal. -/
theorem convertDash_eq_iff {c d : Byte} : convertDash c = convertDash d ↔
    c = d ∨ ¬ ((c ≠ charByte '-' ∧ c ≠ charByte '_') ∨ (d ≠ charByte '-' ∧ d ≠ charByte '_')) := by
  unfold convertDash
  have hne : charByte '-' ≠ charByte '_' := by decide
  grind

theorem nameCmp_eq_zero_iff {s1 s2 : List Byte} (h1 : (0 : Byte) ∉ s1) (h2 : (0 : Byte) ∉ s2) :
    nameCmp s1 s2 = 0 ↔ s1.map convertDash = s2.map convertDash := by
  induction s1 generalizing s2 with
  | nil =>
    cases s2 with
    | nil => exact iff_of_true rfl rfl
    | cons c2 s2 =>
      refine iff_of_false (fun hz => h2 ?_) (List.cons_ne_nil _ _).symm
      have hc : c2.toInt = (0 : Byte).toInt := neg_eq_zero.mp hz
      rw [← BitVec.toInt_inj.mp hc]
      exact List.mem_cons_self
  | cons c1 s1 ih =>
    have hc1 : c1 ≠ 0 := ne_of_mem_of_not_mem List.mem_cons_self h1
    have h1' : (0 : Byte) ∉ s1 := fun hmem => h1 (List.mem_cons_of_mem _ hmem)
    cases s2 with
    | nil =>
      refine iff_of_false ?_ (List.cons_ne_nil _ _)
      have hdash : ¬ ((0 : Byte) = charByte '-' ∨ (0 : Byte) = charByte '_') := by decide
      rw [nameCmp, List.headD_nil]
      simp only [hc1, if_false]
      rw [if_pos (Or.inr (not_or.mp hdash)), sub_eq_zero]
      exact fun heq => hc1 (BitVec.toInt_inj.mp heq)
    | cons c2 s2 =>
      have h2' : (0 : Byte) ∉ s2 := fun hmem => h2 (List.mem_cons_of_mem _ hmem)
      rw [nameCmp, List.headD_cons, List.tail_cons, List.map_cons, List.map_cons, List.cons.injEq,
        convertDash_eq_iff, ← ih h1' h2']
      by_cases heq : c1 = c2
      · rw [if_pos heq, and_iff_right (Or.inl heq)]
      rw [if_neg heq, or_iff_right heq]
      split
      · rename_i hbreak
        refine iff_of_false (fun hz => heq ?_) fun hand => hand.1 hbreak
        exact BitVec.toInt_inj.mp (sub_eq_zero.mp hz)
      · rename_i hpass
        rw [and_iff_right hpass]

/-- `opt_name_cmp` decides whether two names are the same. -/
theorem optNameCmp_eq_zero {s t : CString} : optNameCmp s t = 0 ↔ SameName s t := by
  rw [optNameCmp, nameCmp_eq_zero_iff s.noNul t.noNul, sameName_iff]

/-! ## The list as a map -/

/-- The key under which an option is found. -/
def Opt.key (opt : Opt) : CString := convertDashes opt.name

theorem search_eq (name : CString) : (fun opt : Opt => decide (optNameCmp opt.name name = 0)) =
    fun opt => decide (opt.key = convertDashes name) := by
  funext opt
  rw [decide_eq_decide, optNameCmp_eq_zero]
  rfl

theorem findOption_eq (options : List Opt) (name : CString) :
    findOption options name = lookup Opt.key options (convertDashes name) := by
  rw [findOption, search_eq]
  rfl

theorem addOption_eq (options : List Opt) (name : CString) :
    addOption options name = locate Opt.key options (convertDashes name) (newOption name) := by
  rw [addOption, search_eq]
  rfl

theorem removeOption_eq (options : List Opt) (name : CString) :
    (removeOption options name).2 = remove Opt.key options (convertDashes name) := by
  rw [removeOption, remove, search_eq]
  split <;> rename_i heq <;> rw [heq]

theorem key_newOption (name : CString) : (newOption name).key = convertDashes name :=
  convertDashes_convertDashes name

end Sysbench.Options
