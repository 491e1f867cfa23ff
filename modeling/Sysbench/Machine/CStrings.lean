import Sysbench.Machine.Bytes

/-! # C strings in a buffer

A C string is its bytes without the terminating zero, so it contains none. A buffer is a
list of bytes of which nothing is known but its length. Writing or reading outside the
buffer has no result.
-/
namespace Sysbench.CStrings

open Bytes

def charByte (c : Char) : Byte := BitVec.ofNat 8 c.toNat

def newline : Byte := charByte '\n'

def isspace (b : Byte) : Bool := b = 0x20#8 || (0x09#8 ≤ b && b ≤ 0x0d#8)

def tolower (b : Byte) : Byte := if 0x41#8 ≤ b && b ≤ 0x5a#8 then b + 0x20#8 else b

@[ext] structure CString where
  chars : List Byte
  noNul : (0 : Byte) ∉ chars
deriving DecidableEq

namespace CString

def length (s : CString) : ℕ := s.chars.length

def append (s t : CString) : CString :=
  ⟨s.chars ++ t.chars, fun h => (List.mem_append.mp h).elim s.noNul t.noNul⟩

instance : Append CString := ⟨append⟩

@[simp] theorem chars_append (s t : CString) : (s ++ t).chars = s.chars ++ t.chars := rfl

@[simp] theorem length_append (s t : CString) : (s ++ t).length = s.length + t.length :=
  List.length_append

def empty : CString := ⟨[], List.not_mem_nil⟩

@[simp] theorem append_empty (s : CString) : s ++ empty = s := by
  ext1
  simp [empty]

theorem append_assoc (s t u : CString) : s ++ t ++ u = s ++ (t ++ u) := by
  ext1
  simp

def cut (s : CString) (n : ℕ) : CString :=
  ⟨s.chars.take n, fun h => s.noNul (List.mem_of_mem_take h)⟩

theorem cut_eq_self {s : CString} {n : ℕ} (h : s.length ≤ n) : s.cut n = s :=
  CString.ext (List.take_of_length_le h)

/-- The string that starts a piece of memory with a zero behind it. -/
def ofBytes (bytes : List Byte) : CString :=
  ⟨bytes.takeWhile (· ≠ 0), fun h => by simpa using List.mem_takeWhile_imp h⟩

theorem chars_ofBytes {bytes : List Byte} (h : (0 : Byte) ∉ bytes) :
    (ofBytes bytes).chars = bytes := by
  refine List.takeWhile_eq_self_iff.mpr fun b hb => ?_
  rw [decide_eq_true_eq]
  exact ne_of_mem_of_not_mem hb h

@[simp] theorem ofBytes_chars (s : CString) : ofBytes s.chars = s :=
  CString.ext (chars_ofBytes s.noNul)

/-- Parts of one string without zeros are told apart as strings. -/
theorem map_ofBytes_inj {items items' : List (List Byte)} (h : ∀ item ∈ items, (0 : Byte) ∉ item)
    (h' : ∀ item ∈ items', (0 : Byte) ∉ item) :
    items.map ofBytes = items'.map ofBytes ↔ items = items' := by
  have hback : ∀ {L : List (List Byte)}, (∀ item ∈ L, (0 : Byte) ∉ item) →
      (L.map ofBytes).map chars = L := by
    intro L hL
    rw [List.map_map]
    exact (List.map_congr_left fun item hitem => chars_ofBytes (hL item hitem)).trans
      (List.map_id L)
  constructor
  · intro heq
    rw [← hback h, heq, hback h']
  · exact fun heq => by rw [heq]

def join (sep : CString) : List CString → CString
  | [] => empty
  | [s] => s
  | s :: t :: ss => s ++ (sep ++ join sep (t :: ss))

/-- The separator stands before a new last string unless it is the first. -/
theorem join_snoc (sep : CString) {ss : List CString} (hne : ss ≠ []) (t : CString) :
    join sep (ss ++ [t]) = join sep ss ++ (sep ++ t) := by
  induction ss with
  | nil => exact absurd rfl hne
  | cons s ss ih =>
    cases ss with
    | nil => rfl
    | cons u ss =>
      have hrest := ih (List.cons_ne_nil u ss)
      rw [List.cons_append, List.cons_append, join, ← List.cons_append, hrest, join]
      simp only [append_assoc]

end CString

/-- `s` stands at the start of the buffer, the zero behind it included. -/
def StartsWith (buf : List Byte) (s : CString) : Prop := s.chars ++ [0] <+: buf

/-- What a function sees that is given the address of the buffer. -/
def readString (buf : List Byte) : Option CString :=
  if 0 ∈ buf then some ⟨buf.takeWhile (· ≠ 0), fun h => by simpa using List.mem_takeWhile_imp h⟩
  else none

theorem length_of_readString {buf : List Byte} {s : CString} (h : readString buf = some s) :
    s.length < buf.length := by
  unfold readString at h
  split at h
  · next hmem =>
    obtain rfl := Option.some.inj h
    have hsub : List.Sublist (buf.takeWhile (· ≠ 0)) buf := List.takeWhile_sublist _
    apply lt_of_le_of_ne hsub.length_le
    intro heq
    have hwhole := hsub.eq_of_length heq
    have hzero := List.mem_takeWhile_imp (hwhole ▸ hmem)
    simp at hzero
  · cases h

theorem readString_of_startsWith {buf : List Byte} {s : CString} (h : StartsWith buf s) :
    readString buf = some s := by
  obtain ⟨rest, rfl⟩ := h
  have hall : ∀ b ∈ s.chars, (decide (b ≠ 0)) = true := by
    intro b hb
    rw [decide_eq_true_eq]
    rintro rfl
    exact s.noNul hb
  have hmem : (0 : Byte) ∈ s.chars ++ [0] ++ rest := by simp
  have htake : (s.chars ++ [0] ++ rest).takeWhile (· ≠ 0) = s.chars := by
    rw [List.append_assoc, List.takeWhile_append_of_pos hall]
    simp
  rw [readString, if_pos hmem, Option.some.injEq]
  ext1
  exact htake

def storeByte (buf : List Byte) (pos : ℕ) (b : Byte) : Option (List Byte) :=
  if pos < buf.length then some (buf.set pos b) else none

def strcpy (buf : List Byte) (pos : ℕ) (s : CString) : Option (List Byte) :=
  if pos + s.length + 1 ≤ buf.length then
    some (buf.take pos ++ (s.chars ++ [0]) ++ buf.drop (pos + s.length + 1))
  else none

/-- `snprintf(buf + pos, size, ...)` for the given output: what fits is stored with a zero behind
it, the length of the whole output is returned. -/
def snprintf (buf : List Byte) (pos size : ℕ) (text : CString) : Option (List Byte × ℕ) :=
  if size = 0 then some (buf, text.length)
  else
    let stored := text.chars.take (size - 1) ++ [0]
    if pos + stored.length ≤ buf.length then
      some (buf.take pos ++ stored ++ buf.drop (pos + stored.length), text.length)
    else none

/-- What `strncpy(buf, src, n)` stores: `n` bytes, zeros from the end of the string on. -/
def strncpy (src : List Byte) (n : ℕ) : List Byte :=
  let chars := (src.takeWhile (· ≠ 0)).take n
  chars ++ List.replicate (n - chars.length) 0

@[simp] theorem length_strncpy (src : List Byte) (n : ℕ) : (strncpy src n).length = n := by
  simp only [strncpy, List.length_append, List.length_replicate, List.length_take]
  omega

/-- A byte stored behind a known prefix extends it. -/
theorem storeByte_spec {buf p : List Byte} (hp : p <+: buf) (hroom : p.length < buf.length)
    (b : Byte) : ∃ buf', storeByte buf p.length b = some buf' ∧ buf'.length = buf.length ∧
      p ++ [b] <+: buf' := by
  obtain ⟨rest, rfl⟩ := hp
  cases rest with
  | nil => simp at hroom
  | cons c rest =>
    refine ⟨p ++ b :: rest, ?_, by simp, rest, by simp⟩
    rw [storeByte, if_pos hroom, List.set_append_right _ _ le_rfl, Nat.sub_self, List.set_cons_zero]

theorem strcpy_spec {buf p : List Byte} {s : CString} (hp : p <+: buf)
    (hroom : p.length + s.length + 1 ≤ buf.length) :
    ∃ buf', strcpy buf p.length s = some buf' ∧ buf'.length = buf.length ∧
      p ++ s.chars ++ [0] <+: buf' := by
  have htake : buf.take p.length = p := (List.prefix_iff_eq_take.mp hp).symm
  have hchars : s.chars.length = s.length := rfl
  refine ⟨_, if_pos hroom, ?_, buf.drop (p.length + s.length + 1), ?_⟩
  · simp only [List.length_append, List.length_take, List.length_drop, List.length_singleton]
    omega
  · rw [htake, List.append_assoc p]

/-- As much of an output as fits is stored behind a known prefix, terminated. -/
theorem snprintf_spec {buf p : List Byte} {size : ℕ} (text : CString) (hp : p <+: buf)
    (hsize : 0 < size) (hroom : p.length + size ≤ buf.length) :
    ∃ buf', snprintf buf p.length size text = some (buf', text.length) ∧
      buf'.length = buf.length ∧ p ++ (text.cut (size - 1)).chars ++ [0] <+: buf' := by
  have htake : buf.take p.length = p := (List.prefix_iff_eq_take.mp hp).symm
  have hstored : (text.chars.take (size - 1) ++ [0]).length ≤ size := by
    rw [List.length_append, List.length_take, List.length_singleton]
    omega
  have hprint : snprintf buf p.length size text = some (buf.take p.length ++
      (text.chars.take (size - 1) ++ [0]) ++
      buf.drop (p.length + (text.chars.take (size - 1) ++ [0]).length), text.length) := by
    simp only [snprintf, if_neg hsize.ne']
    exact if_pos (by omega)
  refine ⟨_, hprint, ?_, ?_⟩
  · simp only [List.length_append, List.length_take, List.length_drop,
      List.length_singleton] at hstored ⊢
    omega
  · rw [htake, ← List.append_assoc]
    exact List.prefix_append _ _

/-- What is written behind a prefix extends it. -/
theorem prefix_of_cut {buf p : List Byte} {text : CString} {n : ℕ}
    (h : p ++ (text.cut n).chars ++ [0] <+: buf) :
    p <+: buf ∧ (text.length ≤ n → p ++ text.chars <+: buf) := by
  constructor
  · rw [List.append_assoc] at h
    exact (List.prefix_append _ _).trans h
  · intro hle
    rw [CString.cut_eq_self hle] at h
    exact (List.prefix_append _ _).trans h

end Sysbench.CStrings
