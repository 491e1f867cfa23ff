import Sysbench.Machine.Bytes

/-! # Mapped files on 32-bit platforms

Each operation maps the pages that hold its bytes. The page address comes from a 64-bit offset and
a 32-bit mask; the mask is widened with zeros.
-/
namespace Sysbench.Fileio

open Bytes

abbrev Word := BitVec 32

abbrev Offset := BitVec 64

def filePageMask (granularity : Word) : Word := ~~~(granularity - 1)

inductive MmapError
  /-- `mmap` returned `MAP_FAILED`. -/
  | mapFailed
  /-- An access outside the mapping. -/
  | fault
deriving DecidableEq

/-- Where `mmap` puts a mapping of a length and a file offset. -/
abbrev Mmap := Word → Offset → Option Word

/-- A mapping lies in the address space. -/
def MmapSpec (mmap : Mmap) : Prop :=
  ∀ len off start, mmap len off = some start → start.toNat + len.toNat ≤ 2 ^ 32

def window (file : List Byte) (len : Word) (off : Offset) : List Byte :=
  (file.drop off.toNat).take len.toNat

/-- `memcpy` out of a mapping at `start`. -/
def copyOut (start : Word) (window : List Byte) (src count : Word) :
    Except MmapError (List Byte) :=
  if start.toNat ≤ src.toNat ∧ src.toNat + count.toNat ≤ start.toNat + window.length then
    .ok ((window.drop (src.toNat - start.toNat)).take count.toNat)
  else .error .fault

/-- What the mapping holds after a `memcpy` into it. -/
def copyIn (start : Word) (window : List Byte) (dest : Word) (buf : List Byte) :
    Except MmapError (List Byte) :=
  if start.toNat ≤ dest.toNat ∧ dest.toNat + buf.length ≤ start.toNat + window.length then
    .ok (window.take (dest.toNat - start.toNat) ++ buf ++
      window.drop (dest.toNat - start.toNat + buf.length))
  else .error .fault

/-- A shared mapping is the file itself. -/
def store (file : List Byte) (off : Offset) (window : List Byte) : List Byte :=
  file.take off.toNat ++ window ++ file.drop (off.toNat + window.length)

section Access

variable (mmap : Mmap) (granularity : Word) (file : List Byte)

def filePreadMmap (count : Word) (offset : Offset) : Except MmapError (List Byte) :=
  let pageAddr : Offset := offset &&& (filePageMask granularity).setWidth 64
  let pageOffset : Offset := offset - pageAddr
  let len : Word := (count.signExtend 64 + pageOffset).setWidth 32
  match mmap len pageAddr with
  | none => .error .mapFailed
  | some start =>
    copyOut start (window file len pageAddr) (start + pageOffset.setWidth 32) count

/-- `file_pwrite` in the mmap mode, where the page address is a `size_t`. -/
def filePwriteMmap (buf : List Byte) (count : Word) (offset : Offset) :
    Except MmapError (List Byte) :=
  let pageAddr : Word := (offset &&& (filePageMask granularity).setWidth 64).setWidth 32
  let pageOffset : Word := (offset - pageAddr.setWidth 64).setWidth 32
  let len : Word := count + pageOffset
  match mmap len (pageAddr.setWidth 64) with
  | none => .error .mapFailed
  | some start =>
    (copyIn start (window file len (pageAddr.setWidth 64)) (start + pageOffset) buf).map
      (store file (pageAddr.setWidth 64))

end Access

def pread (file : List Byte) (count offset : ℕ) : List Byte := (file.drop offset).take count

def pwrite (file buf : List Byte) (offset : ℕ) : List Byte :=
  file.take offset ++ buf ++ file.drop (offset + buf.length)

/-- A successful `mmap` gives the result of `pread`, for all contents of a file of `size` bytes. -/
def ReadsPlain (granularity count offset size : ℕ) : Prop :=
  ∀ mmap, MmapSpec mmap → ∀ file, file.length = size →
    filePreadMmap mmap (.ofNat 32 granularity) file (.ofNat 32 count) (.ofNat 64 offset) ≠
        .error .mapFailed →
      filePreadMmap mmap (.ofNat 32 granularity) file (.ofNat 32 count) (.ofNat 64 offset) =
        .ok (pread file count offset)

def WritesPlain (granularity count offset size : ℕ) : Prop :=
  ∀ mmap, MmapSpec mmap → ∀ file, file.length = size → ∀ buf, buf.length = count →
    filePwriteMmap mmap (.ofNat 32 granularity) file buf (.ofNat 32 count) (.ofNat 64 offset) ≠
        .error .mapFailed →
      filePwriteMmap mmap (.ofNat 32 granularity) file buf (.ofNat 32 count) (.ofNat 64 offset) =
        .ok (pwrite file buf offset)

/-! ## The page address -/

/-- The mask clears the bits above the 32nd with those below the granularity. -/
theorem toNat_pageAddr {k : ℕ} (hk : k < 32) (offset : Offset) :
    (offset &&& (filePageMask (.ofNat 32 (2 ^ k))).setWidth 64).toNat =
      offset.toNat % 2 ^ 32 / 2 ^ k * 2 ^ k := by
  have hone : BitVec.ofNat 32 (2 ^ k) - 1 = BitVec.ofNat 32 (2 ^ k - 1) := by
    have hpow : 2 ^ k < 2 ^ 32 := Nat.pow_lt_pow_right (by decide) hk
    have hpos : 0 < 2 ^ k := by positivity
    have htoNat : (1 : Word).toNat = 1 := rfl
    apply BitVec.eq_of_toNat_eq
    rw [BitVec.toNat_sub, BitVec.toNat_ofNat, BitVec.toNat_ofNat, htoNat]
    omega
  apply Nat.eq_of_testBit_eq
  intro i
  rw [filePageMask, hone, BitVec.testBit_toNat, BitVec.getLsbD_and, BitVec.getLsbD_setWidth,
    BitVec.getLsbD_not, BitVec.getLsbD_ofNat, Nat.testBit_two_pow_sub_one, Nat.testBit_mul_two_pow,
    Nat.testBit_div_two_pow, Nat.testBit_mod_two_pow, BitVec.testBit_toNat]
  by_cases hki : k ≤ i
  · rw [Nat.sub_add_cancel hki]
    by_cases hi : i < 32
    · have hi' : i < 64 := by omega
      simp [hki, hi, hi']
    · simp [hki, hi]
  · simp [hki]
    omega

/-- Page address and offset in the page, with 64 bits and with 32. -/
structure PageSplit (k offset p i : ℕ) : Prop where
  pageAddr : (BitVec.ofNat 64 offset &&& (filePageMask (.ofNat 32 (2 ^ k))).setWidth 64) =
    BitVec.ofNat 64 p
  pageAddr_lt : p < 2 ^ 32
  offset_lt : i < 2 ^ k
  offset_le : p ≤ offset
  inPage : (offset - p) % 2 ^ 32 = i
  low : p + i = offset % 2 ^ 32

theorem exists_pageSplit {k offset : ℕ} (hk : k < 32) (hoffset : offset < 2 ^ 64) :
    ∃ p i, PageSplit k offset p i := by
  have haddr := toNat_pageAddr hk (BitVec.ofNat 64 offset)
  rw [BitVec.toNat_ofNat, Nat.mod_eq_of_lt hoffset] at haddr
  have hpow : 2 ^ k < 2 ^ 32 := Nat.pow_lt_pow_right (by decide) hk
  have hpos : 0 < 2 ^ k := by positivity
  have hdm := Nat.div_add_mod' (offset % 2 ^ 32) (2 ^ k)
  have hmod := Nat.mod_lt (offset % 2 ^ 32) hpos
  have hlow := Nat.mod_lt offset (show 0 < 2 ^ 32 by decide)
  generalize offset % 2 ^ 32 / 2 ^ k * 2 ^ k = p at *
  generalize hi : offset % 2 ^ 32 % 2 ^ k = i at *
  refine ⟨p, i, ?_, by omega, hmod, ?_, ?_, hdm⟩
  · apply BitVec.eq_of_toNat_eq
    rw [haddr, BitVec.toNat_ofNat, Nat.mod_eq_of_lt (by omega)]
  · have hle := Nat.mod_le offset (2 ^ 32)
    omega
  · omega

section Access

variable {mmap : Mmap} {file buf : List Byte} {k count offset : ℕ}

theorem signExtend_ofNat (h : count < 2 ^ 31) :
    (BitVec.ofNat 32 count).signExtend 64 = BitVec.ofNat 64 count := by
  have hmsb : (BitVec.ofNat 32 count).msb = false := by
    rw [BitVec.msb_eq_false_iff_two_mul_lt, BitVec.toNat_ofNat]
    omega
  rw [BitVec.signExtend_eq_setWidth_of_msb_false hmsb]
  apply BitVec.eq_of_toNat_eq
  simp only [BitVec.toNat_setWidth, BitVec.toNat_ofNat]
  omega

/-- In either width a mapping of `count + i` bytes from `p` on is asked for. -/
theorem PageSplit.widths {p i : ℕ} (h : PageSplit k offset p i)
    (hcount : count + 2 ^ k < 2 ^ 31) (hoffset : offset + count < 2 ^ 63) :
    ((BitVec.ofNat 64 offset - BitVec.ofNat 64 p).setWidth 32 = BitVec.ofNat 32 i ∧
      ((BitVec.ofNat 32 count).signExtend 64 + (BitVec.ofNat 64 offset - BitVec.ofNat 64 p)).setWidth
        32 = BitVec.ofNat 32 (count + i)) ∧
    ((BitVec.ofNat 64 p).setWidth 32 : Word).setWidth 64 = BitVec.ofNat 64 p ∧
      BitVec.ofNat 32 count + BitVec.ofNat 32 i = BitVec.ofNat 32 (count + i) := by
  have hp := h.pageAddr_lt
  have hi := h.offset_lt
  have hle := h.offset_le
  have hin := h.inPage
  have hsub : BitVec.ofNat 64 offset - BitVec.ofNat 64 p = BitVec.ofNat 64 (offset - p) := by
    apply BitVec.eq_of_toNat_eq
    simp only [BitVec.toNat_sub, BitVec.toNat_ofNat]
    omega
  rw [hsub, signExtend_ofNat (by omega)]
  refine ⟨⟨?_, ?_⟩, ?_, ?_⟩ <;> apply BitVec.eq_of_toNat_eq <;>
    simp only [BitVec.toNat_setWidth, BitVec.toNat_add, BitVec.toNat_ofNat] <;> omega

theorem length_window {len p : ℕ} (hlen : len < 2 ^ 32) (hp : p < 2 ^ 64)
    (hfile : p + len ≤ file.length) :
    window file (.ofNat 32 len) (.ofNat 64 p) = (file.drop p).take len ∧
      (window file (.ofNat 32 len) (.ofNat 64 p)).length = len := by
  have hwindow : window file (.ofNat 32 len) (.ofNat 64 p) = (file.drop p).take len := by
    rw [window, BitVec.toNat_ofNat, BitVec.toNat_ofNat, Nat.mod_eq_of_lt hlen, Nat.mod_eq_of_lt hp]
  refine ⟨hwindow, ?_⟩
  rw [hwindow, List.length_take, List.length_drop]
  omega

/-- The pointer behind the first `i` bytes of a mapping. -/
theorem toNat_pointer {start : Word} {i : ℕ} (h : start.toNat + (count + i) ≤ 2 ^ 32)
    (hcount : 0 < count) : (start + BitVec.ofNat 32 i).toNat = start.toNat + i := by
  rw [BitVec.toNat_add, BitVec.toNat_ofNat]
  omega

/-- The mapping lies in the address space and shows the pages of the offset modulo `2 ^ 32`. -/
theorem PageSplit.mapped {p i : ℕ} (h : PageSplit k offset p i) (hmmap : MmapSpec mmap)
    (hcount : count + 2 ^ k < 2 ^ 31) (hfile : offset + count ≤ file.length) {start : Word}
    (hstart : mmap (.ofNat 32 (count + i)) (.ofNat 64 p) = some start) :
    start.toNat + (count + i) ≤ 2 ^ 32 ∧
      window file (.ofNat 32 (count + i)) (.ofNat 64 p) = (file.drop p).take (count + i) ∧
      (window file (.ofNat 32 (count + i)) (.ofNat 64 p)).length = count + i := by
  have hi := h.offset_lt
  have hp := h.pageAddr_lt
  have hlow := h.low
  have hmod := Nat.mod_le offset (2 ^ 32)
  have hspace := hmmap _ _ _ hstart
  rw [BitVec.toNat_ofNat, Nat.mod_eq_of_lt (by omega)] at hspace
  exact ⟨hspace, length_window (by omega) (by omega) (by omega)⟩

/-- The mapping is read at the offset modulo `2 ^ 32`. -/
theorem filePreadMmap_eq {p i : ℕ} (h : PageSplit k offset p i) (hmmap : MmapSpec mmap)
    (hpos : 0 < count) (hcount : count + 2 ^ k < 2 ^ 31) (hoffset : offset + count < 2 ^ 63)
    (hfile : offset + count ≤ file.length) :
    filePreadMmap mmap (.ofNat 32 (2 ^ k)) file (.ofNat 32 count) (.ofNat 64 offset) =
      (mmap (.ofNat 32 (count + i)) (.ofNat 64 p)).elim (.error .mapFailed)
        fun _ => .ok (pread file count (offset % 2 ^ 32)) := by
  have hi := h.offset_lt
  have hp := h.pageAddr_lt
  have hlow := h.low
  have hmod := Nat.mod_le offset (2 ^ 32)
  obtain ⟨⟨hin, hlen⟩, -, -⟩ := h.widths hcount hoffset
  simp only [filePreadMmap, h.pageAddr, hlen, hin]
  cases hstart : mmap (.ofNat 32 (count + i)) (.ofNat 64 p) with
  | none => rfl
  | some start =>
    obtain ⟨hspace, hwindow, hlength⟩ := h.mapped hmmap hcount hfile hstart
    dsimp only [Option.elim_some]
    rw [copyOut, toNat_pointer hspace hpos, hlength, BitVec.toNat_ofNat,
      Nat.mod_eq_of_lt (show count < 2 ^ 32 by omega), if_pos (by omega), hwindow,
      Nat.add_sub_cancel_left, pread, ← hlow, List.drop_take, List.drop_drop,
      Nat.add_sub_cancel, List.take_take, min_self]

theorem filePwriteMmap_eq {p i : ℕ} (h : PageSplit k offset p i) (hmmap : MmapSpec mmap)
    (hpos : 0 < count) (hcount : count + 2 ^ k < 2 ^ 31) (hoffset : offset + count < 2 ^ 63)
    (hfile : offset + count ≤ file.length) (hbuf : buf.length = count) :
    filePwriteMmap mmap (.ofNat 32 (2 ^ k)) file buf (.ofNat 32 count) (.ofNat 64 offset) =
      (mmap (.ofNat 32 (count + i)) (.ofNat 64 p)).elim (.error .mapFailed)
        fun _ => .ok (pwrite file buf (offset % 2 ^ 32)) := by
  have hi := h.offset_lt
  have hp := h.pageAddr_lt
  have hlow := h.low
  have hmod := Nat.mod_le offset (2 ^ 32)
  obtain ⟨⟨hin, -⟩, hwide, hlen⟩ := h.widths hcount hoffset
  simp only [filePwriteMmap, h.pageAddr, hwide, hin, hlen]
  cases hstart : mmap (.ofNat 32 (count + i)) (.ofNat 64 p) with
  | none => rfl
  | some start =>
    obtain ⟨hspace, hwindow, hlength⟩ := h.mapped hmmap hcount hfile hstart
    have hrest : (window file (.ofNat 32 (count + i)) (.ofNat 64 p)).drop (i + count) = [] := by
      rw [List.drop_eq_nil_iff, hlength, Nat.add_comm]
    have hfirst : (window file (.ofNat 32 (count + i)) (.ofNat 64 p)).take i =
        (file.drop p).take i := by
      rw [hwindow, List.take_take, min_eq_left (by omega)]
    have hlength' : ((file.drop p).take i ++ buf).length = i + count := by
      rw [List.length_append, List.length_take, List.length_drop, hbuf]
      omega
    dsimp only [Option.elim_some]
    rw [copyIn, toNat_pointer hspace hpos, hlength, hbuf, if_pos (by omega),
      Nat.add_sub_cancel_left, hrest, hfirst, List.append_nil]
    simp only [Except.map, store, BitVec.toNat_ofNat, Nat.mod_eq_of_lt (show p < 2 ^ 64 by omega),
      hlength']
    rw [pwrite, ← hlow, List.take_add, hbuf, Nat.add_assoc]
    simp only [List.append_assoc]

end Access

/-! ## Offsets beyond 4G -/

def bottomMmap : Mmap := fun _ _ => some 0

theorem mmapSpec_bottom : MmapSpec bottomMmap := by
  rintro len off start hstart
  cases hstart
  have hlt := len.isLt
  change 0 + len.toNat ≤ 2 ^ 32
  omega

section Plain

variable {k count offset size : ℕ}

theorem readsPlain_iff (hpos : 0 < count) (hcount : count + 2 ^ k < 2 ^ 31)
    (hoffset : offset + count < 2 ^ 63) (hsize : offset + count ≤ size) :
    ReadsPlain (2 ^ k) count offset size ↔ offset < 2 ^ 32 := by
  have hk : k < 32 := (Nat.pow_lt_pow_iff_right (by decide)).mp (show 2 ^ k < 2 ^ 32 by omega)
  obtain ⟨p, i, h⟩ := exists_pageSplit hk (show offset < 2 ^ 64 by omega)
  constructor
  · -- a file whose only byte that is not zero is the one at the offset
    intro hall
    by_contra hge
    have hne : offset % 2 ^ 32 ≠ offset := by
      have hlt := Nat.mod_lt offset (show 0 < 2 ^ 32 by decide)
      omega
    have hlen : ((List.replicate size (0 : Byte)).set offset 1).length = size := by simp
    have hread := hall bottomMmap mmapSpec_bottom _ hlen
    rw [filePreadMmap_eq h mmapSpec_bottom hpos hcount hoffset (by rw [hlen]; exact hsize)] at hread
    have heq := Except.ok.inj (hread (by simp [bottomMmap]))
    have hhead := congrArg (·[0]?) heq
    simp only [pread, List.getElem?_take, hpos, if_true, List.getElem?_drop, Nat.add_zero,
      List.getElem?_set_self', List.getElem?_set_ne hne.symm] at hhead
    rw [List.getElem?_replicate_of_lt (by omega), List.getElem?_replicate_of_lt (by omega)] at hhead
    exact absurd hhead (by decide)
  · intro hlt mmap hmmap file hlen
    rw [filePreadMmap_eq h hmmap hpos hcount hoffset (by rw [hlen]; exact hsize),
      Nat.mod_eq_of_lt hlt]
    cases mmap (.ofNat 32 (count + i)) (.ofNat 64 p) with
    | none => exact fun hne => absurd rfl hne
    | some start => exact fun _ => rfl

theorem writesPlain_iff (hpos : 0 < count) (hcount : count + 2 ^ k < 2 ^ 31)
    (hoffset : offset + count < 2 ^ 63) (hsize : offset + count ≤ size) :
    WritesPlain (2 ^ k) count offset size ↔ offset < 2 ^ 32 := by
  have hk : k < 32 := (Nat.pow_lt_pow_iff_right (by decide)).mp (show 2 ^ k < 2 ^ 32 by omega)
  obtain ⟨p, i, h⟩ := exists_pageSplit hk (show offset < 2 ^ 64 by omega)
  constructor
  · -- ones are written into a file of zeros
    intro hall
    by_contra hge
    have hlow : offset % 2 ^ 32 < offset := by
      have hlt := Nat.mod_lt offset (show 0 < 2 ^ 32 by decide)
      omega
    have hlen : (List.replicate size (0 : Byte)).length = size := List.length_replicate
    have hbuf : (List.replicate count (1 : Byte)).length = count := List.length_replicate
    have hwrite := hall bottomMmap mmapSpec_bottom _ hlen _ hbuf
    rw [filePwriteMmap_eq h mmapSpec_bottom hpos hcount hoffset (by rw [hlen]; exact hsize) hbuf]
      at hwrite
    have heq := Except.ok.inj (hwrite (by simp [bottomMmap]))
    have hhead := congrArg (·[offset % 2 ^ 32]?) heq
    have hbefore : ((List.replicate size (0 : Byte)).take (offset % 2 ^ 32)).length =
        offset % 2 ^ 32 := by
      rw [List.length_take, List.length_replicate]
      omega
    have hplain : ((List.replicate size (0 : Byte)).take offset).length = offset := by
      rw [List.length_take, List.length_replicate]
      omega
    simp only [pwrite, List.append_assoc] at hhead
    rw [List.getElem?_append_right hbefore.le, hbefore, Nat.sub_self,
      List.getElem?_append_left (by rw [hbuf]; exact hpos),
      List.getElem?_append_left (by rw [hplain]; exact hlow), List.getElem?_take_of_lt hlow,
      List.getElem?_replicate_of_lt hpos, List.getElem?_replicate_of_lt (by omega)] at hhead
    exact absurd hhead (by decide)
  · intro hlt mmap hmmap file hlen buf hbuf
    rw [filePwriteMmap_eq h hmmap hpos hcount hoffset (by rw [hlen]; exact hsize) hbuf,
      Nat.mod_eq_of_lt hlt]
    cases mmap (.ofNat 32 (count + i)) (.ofNat 64 p) with
    | none => exact fun hne => absurd rfl hne
    | some start => exact fun _ => rfl

/-- Reading and writing through a mapping are those through the file for all contents exactly
below an offset of `2 ^ 32`. -/
theorem mmap_plain_iff (hpos : 0 < count) (hcount : count + 2 ^ k < 2 ^ 31)
    (hoffset : offset + count < 2 ^ 63) (hsize : offset + count ≤ size) :
    ReadsPlain (2 ^ k) count offset size ∧ WritesPlain (2 ^ k) count offset size ↔
      offset < 2 ^ 32 := by
  rw [readsPlain_iff hpos hcount hoffset hsize, writesPlain_iff hpos hcount hoffset hsize, and_self]

end Plain

theorem mmap_plain_iff_page :
    ReadsPlain (2 ^ 12) 16384 8192 65536 ∧ WritesPlain (2 ^ 12) 16384 8192 65536 ↔
      8192 < 2 ^ 32 :=
  mmap_plain_iff (by decide) (by decide) (by decide) (by decide)

/-- A block at 4G of a file of 8G. -/
theorem not_readsPlain : ¬ ReadsPlain (2 ^ 12) 16384 (2 ^ 32) (2 ^ 33) := by
  rw [readsPlain_iff (by decide) (by decide) (by decide) (by decide)]
  decide

end Sysbench.Fileio
