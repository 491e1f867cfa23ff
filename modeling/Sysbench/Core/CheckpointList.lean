import Sysbench.Core.TextLog
import Sysbench.Machine.Qsort
import Sysbench.Options.Getters

/-! # The list of checkpoints

`init` reads the checkpoints from the values of an option and sorts them, and `print_run_mode`
prints them. The comparison of the sort subtracts, and its result is an `int`.
-/
namespace Sysbench.Core

open Bytes CStrings Options Qsort Words

def maxCheckpoints : ℕ := 256

def uintMax : ℤ := 2 ^ 32 - 1

inductive CheckpointError where
  | invalid (value : CString)
  | tooMany
  deriving DecidableEq

def CheckpointError.message : CheckpointError → List Byte
  | .invalid value =>
    bytesOf "Invalid value for --report-checkpoints: '" ++ value.chars ++ bytesOf "'"
  | .tooMany =>
    bytesOf "Too many checkpoints in --report-checkpoints (up to " ++ unsignedText maxCheckpoints ++
      bytesOf " can be defined)"

/-- The loop of `init` over the values, with the checkpoints so far. -/
def readCheckpoints (checkpoints : List ℕ) : List CString → Except CheckpointError (List ℕ)
  | [] => .ok checkpoints
  | val :: vals =>
    let (res, endptr) := strtol val.chars
    if endptr ≠ [] ∨ res < 0 ∨ uintMax < res then .error (.invalid val)
    else if maxCheckpoints < checkpoints.length + 1 then .error .tooMany
    else readCheckpoints (checkpoints ++ [toUInt 32 res]) vals

def checkpointCmp (a b : ℕ) : ℤ := toInt 32 ((a : ℤ) - b)

def InitCheckpoints (vals : List CString) (array : List ℕ) : Prop :=
  ∃ checkpoints, readCheckpoints [] vals = .ok checkpoints ∧
    if checkpoints = [] then array = [] else Sorts checkpointCmp checkpoints array

def checkpointText (checkpoint : ℕ) : CString := .ofBytes (unsignedText checkpoint)

def listSeparator : CString := .ofBytes (bytesOf ", ")

/-- The loop of `print_run_mode` that fills `list_str`, and the call for the last checkpoint. -/
def printList (listStr : List Byte) (tmp size : ℕ) : List ℕ → Option (List Byte)
  | [] => some listStr
  | [last] => (snprintf listStr tmp size (checkpointText last)).map Prod.fst
  | checkpoint :: checkpoints => do
    let (listStr, n) ← snprintf listStr tmp size (checkpointText checkpoint ++ listSeparator)
    if size ≤ n then some listStr else printList listStr (tmp + n) (size - n) checkpoints

def listSize : ℕ := maxCheckpoints * 12

def checkpointsNotice (listStr : List Byte) (checkpoints : List ℕ) : Option (List Byte) := do
  let listStr ← printList listStr 0 listSize checkpoints
  let text ← readString listStr
  some (bytesOf "Report checkpoint(s) at " ++ text.chars ++ bytesOf " seconds")

/-! ## Reading -/

section Read

variable {vals : List CString} {checkpoints cs array : List ℕ}

theorem readCheckpoints_ok (h : readCheckpoints checkpoints vals = .ok cs)
    (hlen : checkpoints.length ≤ maxCheckpoints) (hword : ∀ c ∈ checkpoints, c < 2 ^ 32) :
    cs.length ≤ maxCheckpoints ∧ ∀ c ∈ cs, c < 2 ^ 32 := by
  induction vals generalizing checkpoints with
  | nil =>
    cases h
    exact ⟨hlen, hword⟩
  | cons val vals ih =>
    simp only [readCheckpoints] at h
    split_ifs at h with hinvalid hmany
    refine ih h (by simpa using hmany) fun c hc => ?_
    rcases List.mem_append.mp hc with hc | hc
    · exact hword c hc
    · rw [List.mem_singleton.mp hc]
      exact toUInt_lt 32 _

theorem checkpointCmp_of_near {a b : ℕ} (hab : a < b + 2 ^ 31) (hba : b ≤ a + 2 ^ 31) :
    checkpointCmp a b = (a : ℤ) - b := by
  unfold checkpointCmp toInt
  apply Int.bmod_eq_of_le <;> omega

theorem checkpointCmp_of_above {a b : ℕ} (ha : a < 2 ^ 32) (hab : b + 2 ^ 31 ≤ a) :
    checkpointCmp a b = (a : ℤ) - b - 2 ^ 32 := by
  unfold checkpointCmp toInt Int.bmod
  dsimp only
  split <;> omega

theorem checkpointCmp_of_below {a b : ℕ} (hb : b < 2 ^ 32) (hab : a + 2 ^ 31 < b) :
    checkpointCmp a b = (a : ℤ) - b + 2 ^ 32 := by
  unfold checkpointCmp toInt Int.bmod
  dsimp only
  split <;> omega

theorem checkpointCmp_agrees (h : ∀ a ∈ cs, ∀ b ∈ cs, a < b + 2 ^ 31) : Agrees checkpointCmp cs where
  neg a ha b hb := by
    rw [checkpointCmp_of_near (h a ha b hb) (h b hb a ha).le]
    omega
  pos a ha b hb := by
    rw [checkpointCmp_of_near (h a ha b hb) (h b hb a ha).le]
    omega

/-- The comparison sorts the checkpoints if no two of them are `2 ^ 31` apart, and only then. -/
theorem sorted_iff (hword : ∀ c ∈ cs, c < 2 ^ 32) :
    (∀ array, Sorts checkpointCmp cs array → array.Pairwise (· ≤ ·)) ↔
      ∀ a ∈ cs, ∀ b ∈ cs, a < b + 2 ^ 31 := by
  constructor
  · intro hsorted a ha b hb
    by_contra hfar
    rw [not_lt] at hfar
    by_cases hcons : Consistent checkpointCmp cs
    · have habove := checkpointCmp_of_above (hword a ha) hfar
      rcases hfar.eq_or_lt with heq | hlt
      · -- each of the two is below the other
        have hbelow := checkpointCmp_of_near (a := b) (b := a) (by omega) (by omega)
        have hswap := hcons.swap a ha b hb
        omega
      · have hbelow := checkpointCmp_of_below (hword a ha) hlt
        have hpos : 0 < checkpointCmp b a := by
          have hlt' := hword a ha
          omega
        obtain ⟨array, harray⟩ := exists_sorts checkpointCmp cs
        exact harray.not_sorted hcons hb ha (by omega) hpos (hsorted array harray)
    · have hany := hsorted [1, 0] fun h => absurd h hcons
      revert hany
      decide
  · intro hnear array harray
    rw [(checkpointCmp_agrees hnear).sorts_iff] at harray
    rw [harray]
    exact List.pairwise_mergeSort' (· ≤ ·) cs

end Read

/-! ## Numbers -/

theorem isdigit_iff (b : Byte) : isdigit b ↔ 48 ≤ b.toNat ∧ b.toNat ≤ 57 := by
  simp [isdigit, charByte, BitVec.le_def]

theorem isdigit_charByte {c : Char} (h : c.isDigit) :
    isdigit (charByte c) ∧ digit (charByte c) = c.toNat - '0'.toNat := by
  simp only [Char.isDigit, Bool.and_eq_true, decide_eq_true_eq, UInt32.le_iff_toNat_le] at h
  have hlow : '0'.val.toNat = 48 := rfl
  have hhigh : '9'.val.toNat = 57 := rfl
  have hchar : (charByte c).toNat = c.toNat := by
    simp only [charByte, BitVec.toNat_ofNat, Char.toNat]
    omega
  rw [isdigit_iff, digit, hchar]
  exact ⟨⟨by simp only [Char.toNat]; omega, by simp only [Char.toNat]; omega⟩, rfl⟩

theorem isdigit_unsignedText {n : ℕ} {b : Byte} (hb : b ∈ unsignedText n) : isdigit b := by
  obtain ⟨c, hc, rfl⟩ := List.mem_map.mp hb
  exact (isdigit_charByte (Nat.isDigit_of_mem_toDigits (by decide) (by decide) hc)).1

theorem decimal_unsignedText (n : ℕ) : decimal (unsignedText n) = n := by
  have hfold : decimal (unsignedText n) = Nat.ofDigitChars 10 (Nat.toDigits 10 n) 0 := by
    rw [decimal, unsignedText, List.foldl_map, Nat.ofDigitChars_eq_foldl]
    refine List.foldl_ext _ _ _ fun m c hc => ?_
    have hdigit := isdigit_charByte (Nat.isDigit_of_mem_toDigits (by decide) (by decide) hc)
    rw [hdigit.2, Nat.mul_comm]
  rw [hfold, Nat.ofDigitChars_ten_toDigits]

theorem strtol_digits {p s : List Byte} (hp : ∀ b ∈ p, isspace b) (hs : ∀ b ∈ s, isdigit b)
    (hne : s ≠ []) : strtol (p ++ s) = (max longMin (min longMax (decimal s)), []) := by
  obtain ⟨b, s, rfl⟩ := List.exists_cons_of_ne_nil hne
  have hb := (isdigit_iff b).mp (hs b List.mem_cons_self)
  have hspace : isspace b = false := by
    simp [isspace, BitVec.le_def, ← BitVec.toNat_inj]
    omega
  have hdrop : (p ++ b :: s).dropWhile isspace = b :: s := by
    rw [List.dropWhile_append_of_pos hp, List.dropWhile_cons_of_neg (by simp [hspace])]
  have hsign : splitSign (b :: s) = (false, b :: s) := by
    have hminus : b ≠ charByte '-' := by
      rintro rfl
      simp [charByte] at hb
    have hplus : b ≠ charByte '+' := by
      rintro rfl
      simp [charByte] at hb
    rw [splitSign, if_neg hminus, if_neg hplus]
  have htake : (b :: s).takeWhile isdigit = b :: s := List.takeWhile_eq_self_iff.mpr hs
  have hrest : (b :: s).dropWhile isdigit = [] := List.dropWhile_eq_nil_iff.mpr hs
  simp [strtol, hdrop, hsign, htake, hrest]

/-! ## Printing -/

/-- The text between the brackets of the notice, if nothing is cut off. -/
def listText (checkpoints : List ℕ) : CString :=
  CString.join listSeparator (checkpoints.map checkpointText)

theorem zero_notMem_unsignedText (n : ℕ) : (0 : Byte) ∉ unsignedText n := by
  intro h
  have hdigit := (isdigit_iff 0).mp (isdigit_unsignedText h)
  simp at hdigit

@[simp] theorem chars_checkpointText (n : ℕ) : (checkpointText n).chars = unsignedText n :=
  CString.chars_ofBytes (zero_notMem_unsignedText n)

@[simp] theorem chars_listSeparator : listSeparator.chars = [charByte ',', charByte ' '] := by
  decide

theorem length_checkpointText {c : ℕ} (h : c < 2 ^ 32) : (checkpointText c).length ≤ 10 := by
  rw [CString.length, chars_checkpointText, unsignedText, List.length_map,
    Nat.length_toDigits_le_iff (by decide) (by decide)]
  omega

theorem listText_cons (c : ℕ) {cs : List ℕ} (hne : cs ≠ []) :
    listText (c :: cs) = checkpointText c ++ (listSeparator ++ listText cs) := by
  obtain ⟨d, cs, rfl⟩ := List.exists_cons_of_ne_nil hne
  rfl

/-- Twelve bytes are enough for each checkpoint. -/
theorem printList_spec {cs : List ℕ} (hne : cs ≠ []) (hword : ∀ c ∈ cs, c < 2 ^ 32)
    {buf p : List Byte} {size : ℕ} (hp : p <+: buf) (hroom : p.length + size ≤ buf.length)
    (hsize : cs.length * 12 ≤ size) :
    ∃ buf', printList buf p.length size cs = some buf' ∧
      p ++ (listText cs).chars ++ [0] <+: buf' := by
  induction cs generalizing buf p size with
  | nil => exact absurd rfl hne
  | cons c cs ih =>
    have hlen := length_checkpointText (hword c List.mem_cons_self)
    simp only [List.length_cons] at hsize
    cases cs with
    | nil =>
      obtain ⟨buf', hprint, -, hpre⟩ :=
        snprintf_spec (checkpointText c) hp (by omega : 0 < size) hroom
      rw [CString.cut_eq_self (by omega)] at hpre
      exact ⟨buf', by simp [printList, hprint], hpre⟩
    | cons d cs =>
      simp only [List.length_cons] at hsize
      have hitem : (checkpointText c ++ listSeparator).length ≤ 12 := by
        have hsep : listSeparator.length = 2 := by rw [CString.length, chars_listSeparator]; rfl
        rw [CString.length_append, hsep]
        omega
      obtain ⟨buf₁, hprint, hbuf₁, hpre⟩ :=
        snprintf_spec (checkpointText c ++ listSeparator) hp (by omega : 0 < size) hroom
      have hpre₁ := (prefix_of_cut hpre).2 (by omega)
      have hlength : (p ++ (checkpointText c ++ listSeparator).chars).length =
          p.length + (checkpointText c ++ listSeparator).length := List.length_append
      obtain ⟨buf', hprint', hpre'⟩ := ih (List.cons_ne_nil d cs)
        (fun e he => hword e (List.mem_cons_of_mem c he)) hpre₁
        (show _ + (size - (checkpointText c ++ listSeparator).length) ≤ _ by rw [hlength]; omega)
        (by simp only [List.length_cons]; omega)
      rw [hlength] at hprint'
      refine ⟨buf', ?_, ?_⟩
      · rw [printList, hprint]
        · simp only [Option.bind_eq_bind, Option.bind_some]
          rw [if_neg (by omega), hprint']
        · exact List.cons_ne_nil d cs
      · rw [listText_cons c (List.cons_ne_nil d cs)]
        simpa using hpre'

theorem checkpointsNotice_eq {cs : List ℕ} (hne : cs ≠ []) (hword : ∀ c ∈ cs, c < 2 ^ 32)
    (hlen : cs.length ≤ maxCheckpoints) {listStr : List Byte} (hstr : listStr.length = listSize) :
    checkpointsNotice listStr cs = some (bytesOf "Report checkpoint(s) at " ++
      (listText cs).chars ++ bytesOf " seconds") := by
  obtain ⟨buf, hprint, hpre⟩ := printList_spec hne hword (List.nil_prefix (l := listStr))
    (show _ + listSize ≤ _ by simp [hstr]) (Nat.mul_le_mul_right 12 hlen)
  rw [List.nil_append] at hpre
  rw [List.length_nil] at hprint
  simp [checkpointsNotice, hprint, readString_of_startsWith hpre]

/-! ## Reading what is printed -/

theorem separator_notMem_unsignedText (n : ℕ) : valueSeparator ∉ unsignedText n := by
  intro h
  have hdigit := (isdigit_iff valueSeparator).mp (isdigit_unsignedText h)
  simp [valueSeparator, charByte] at hdigit

/-- The parts between the commas, with what stands before the first number. -/
theorem splitOn_listText (cs : List ℕ) (c : ℕ) {p : List Byte} (hp : valueSeparator ∉ p) :
    (p ++ (listText (c :: cs)).chars).splitOn valueSeparator =
      (p ++ unsignedText c) :: cs.map fun d => charByte ' ' :: unsignedText d := by
  have hitem : ∀ d {q : List Byte}, valueSeparator ∉ q → valueSeparator ∉ q ++ unsignedText d :=
    fun d q hq h => (List.mem_append.mp h).elim hq (separator_notMem_unsignedText d)
  induction cs generalizing c p with
  | nil =>
    have htext : (listText [c]).chars = unsignedText c := chars_checkpointText c
    rw [htext, List.splitOn_eq_singleton (hitem c hp)]
    rfl
  | cons d cs ih =>
    rw [listText_cons c (List.cons_ne_nil d cs)]
    have hsplit : p ++ (checkpointText c ++ (listSeparator ++ listText (d :: cs))).chars =
        (p ++ unsignedText c) ++ valueSeparator :: ([charByte ' '] ++ (listText (d :: cs)).chars) := by
      simp [valueSeparator]
    rw [hsplit, List.splitOn_append_cons_self_of_not_mem (hitem c hp),
      ih d (p := [charByte ' ']) (by decide)]
    rfl

theorem unsignedText_ne_nil (n : ℕ) : unsignedText n ≠ [] := by
  rw [unsignedText, ne_eq, List.map_eq_nil_iff]
  exact Nat.toDigits_ne_nil

theorem strtol_unsignedText {p : List Byte} (hp : ∀ b ∈ p, isspace b) {c : ℕ} (h : c < 2 ^ 32) :
    strtol (p ++ unsignedText c) = ((c : ℤ), []) := by
  rw [strtol_digits hp (fun b hb => isdigit_unsignedText hb) (unsignedText_ne_nil c),
    decimal_unsignedText]
  have hmax : (c : ℤ) ≤ longMax := by
    unfold longMax
    omega
  have hmin : longMin ≤ c := by
    unfold longMin
    omega
  rw [min_eq_right hmax, max_eq_right hmin]

theorem readCheckpoints_eq {vals : List CString} {cs acc : List ℕ}
    (hvals : vals.map (fun val => strtol val.chars) = cs.map fun c : ℕ => ((c : ℤ), []))
    (hword : ∀ c ∈ cs, c < 2 ^ 32) (hlen : acc.length + cs.length ≤ maxCheckpoints) :
    readCheckpoints acc vals = .ok (acc ++ cs) := by
  induction cs generalizing vals acc with
  | nil =>
    obtain rfl := List.map_eq_nil_iff.mp hvals
    simp [readCheckpoints]
  | cons c cs ih =>
    obtain ⟨val, vals, rfl, hval, hvals⟩ := List.map_eq_cons_iff.mp hvals
    have hc := hword c List.mem_cons_self
    simp only [List.length_cons] at hlen
    have hstored : toUInt 32 (c : ℤ) = c := toUInt_natCast hc
    have hmax : ¬ uintMax < (c : ℤ) := by
      unfold uintMax
      omega
    have hrest := ih hvals (fun d hd => hword d (List.mem_cons_of_mem c hd))
      (show (acc ++ [c]).length + _ ≤ _ by rw [List.length_append, List.length_singleton]; omega)
    simp [readCheckpoints, hval, hmax, hstored, hrest, show ¬ maxCheckpoints < acc.length + 1 by omega]

/-- The printed list is a value of the option that stands for the same checkpoints. -/
theorem readCheckpoints_listText {cs : List ℕ} (hword : ∀ c ∈ cs, c < 2 ^ 32)
    (hlen : cs.length ≤ maxCheckpoints) (hne : cs ≠ []) :
    readCheckpoints [] (valuesOf .list (some (listText cs))) = .ok cs := by
  obtain ⟨c, cs, rfl⟩ := List.exists_cons_of_ne_nil hne
  have hsplit := splitOn_listText cs c (p := []) List.not_mem_nil
  rw [List.nil_append, List.nil_append] at hsplit
  have htext : listText (c :: cs) ≠ .empty := by
    intro hempty
    rw [hempty, CString.empty, List.splitOn_nil] at hsplit
    exact unsignedText_ne_nil c (List.cons.inj hsplit).1.symm
  have hvalues : valuesOf .list (some (listText (c :: cs))) = strtok (listText (c :: cs)) := by
    simp [valuesOf, htext]
  have hitems : strtok (listText (c :: cs)) =
      checkpointText c :: cs.map fun d => .ofBytes (charByte ' ' :: unsignedText d) := by
    rw [strtok, hsplit, List.filter_eq_self.mpr]
    · simp [checkpointText]
    · simp [unsignedText_ne_nil]
  rw [hvalues, hitems]
  refine readCheckpoints_eq ?_ hword (by simpa using hlen)
  rw [List.map_cons, List.map_cons, List.map_map]
  congr 1
  · rw [chars_checkpointText, ← List.nil_append (unsignedText c)]
    exact strtol_unsignedText (by simp) (hword c List.mem_cons_self)
  · refine List.map_congr_left fun d hd => ?_
    have hzero : (0 : Byte) ∉ charByte ' ' :: unsignedText d := by
      rw [List.mem_cons, not_or]
      exact ⟨by decide, zero_notMem_unsignedText d⟩
    rw [Function.comp_apply, CString.chars_ofBytes hzero]
    exact strtol_unsignedText (p := [charByte ' ']) (by decide) (hword d (List.mem_cons_of_mem c hd))

/-! ## The whole list -/

theorem initCheckpoints_iff {vals : List CString} {cs array : List ℕ}
    (h : readCheckpoints [] vals = .ok cs) :
    InitCheckpoints vals array ↔ Sorts checkpointCmp cs array := by
  have hsorts : InitCheckpoints vals array ↔
      if cs = [] then array = [] else Sorts checkpointCmp cs array := by
    simp [InitCheckpoints, h]
  rw [hsorts]
  split_ifs with hnil
  · subst hnil
    have hagrees : Agrees checkpointCmp [] := checkpointCmp_agrees (by simp)
    simpa using hagrees.sorts_iff.symm
  · rfl

/-- A list of checkpoints that is accepted is sorted, whatever `qsort` may do, exactly if no two of
its elements are `2 ^ 31` apart. Then `init` leaves one array only. The notice shows it in full, and
what it shows is a value of the option that leaves the same array. -/
theorem checkpoints_read_back {vals : List CString} {cs : List ℕ}
    (h : readCheckpoints [] vals = .ok cs) :
    ((∀ array, InitCheckpoints vals array → array.Pairwise (· ≤ ·)) ↔
        ∀ a ∈ cs, ∀ b ∈ cs, a < b + 2 ^ 31) ∧
      ((∀ a ∈ cs, ∀ b ∈ cs, a < b + 2 ^ 31) →
        (∀ array, InitCheckpoints vals array ↔ array = cs.mergeSort) ∧
          (cs ≠ [] → ∀ listStr, listStr.length = listSize →
            checkpointsNotice listStr cs.mergeSort = some (bytesOf "Report checkpoint(s) at " ++
              (listText cs.mergeSort).chars ++ bytesOf " seconds") ∧
            ∀ array, InitCheckpoints (valuesOf .list (some (listText cs.mergeSort))) array ↔
              array = cs.mergeSort)) := by
  obtain ⟨hlen, hword⟩ := readCheckpoints_ok h (Nat.zero_le _) (by simp)
  refine ⟨?_, fun hnear => ⟨fun array => ?_, fun hne listStr hstr => ?_⟩⟩
  · simp only [initCheckpoints_iff h]
    exact sorted_iff hword
  · rw [initCheckpoints_iff h, (checkpointCmp_agrees hnear).sorts_iff]
  · have hmem : ∀ {c}, c ∈ cs.mergeSort ↔ c ∈ cs := List.mem_mergeSort
    have hsorted : cs.mergeSort.Pairwise (· ≤ ·) := List.pairwise_mergeSort' (· ≤ ·) cs
    have hword' : ∀ c ∈ cs.mergeSort, c < 2 ^ 32 := fun c hc => hword c (hmem.mp hc)
    have hlen' : cs.mergeSort.length ≤ maxCheckpoints := by rwa [List.length_mergeSort]
    have hne' : cs.mergeSort ≠ [] := by
      rwa [ne_eq, ← List.length_eq_zero_iff, List.length_mergeSort, List.length_eq_zero_iff]
    have hagrees : Agrees checkpointCmp cs.mergeSort :=
      checkpointCmp_agrees fun a ha b hb => hnear a (hmem.mp ha) b (hmem.mp hb)
    refine ⟨checkpointsNotice_eq hne' hword' hlen' hstr, fun array => ?_⟩
    rw [initCheckpoints_iff (readCheckpoints_listText hword' hlen' hne'), hagrees.sorts_iff,
      List.mergeSort_eq_self (· ≤ ·) hsorted]

def twoCheckpoints : List CString := [.ofBytes (bytesOf "20"), .ofBytes (bytesOf "10")]

theorem checkpoints_read_back_two :
    InitCheckpoints twoCheckpoints [10, 20] ∧ ¬ InitCheckpoints twoCheckpoints [20, 10] := by
  have hread : readCheckpoints [] twoCheckpoints = .ok [20, 10] := by decide
  have hsort : [20, 10].mergeSort = [10, 20] := by
    rw [List.mergeSort_eq_insertionSort (· ≤ ·)]
    decide
  have harray := ((checkpoints_read_back hread).2 (by decide)).1
  rw [hsort] at harray
  exact ⟨(harray _).mpr rfl, fun h => absurd ((harray _).mp h) (by decide)⟩

end Sysbench.Core
