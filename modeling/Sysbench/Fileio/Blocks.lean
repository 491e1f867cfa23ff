import Sysbench.Fileio.Crc32
import Sysbench.Fileio.Requests

/-! # Checksummed blocks

In validation mode a block is filled with random bytes, the checksum of these bytes
and its offset in the file. The lengths are unsigned, so a block too short for the
two fields makes the payload length wrap around: `file_validate_buffer` then leaves the
buffer, and the loop of `file_fill_buffer` does not end.
-/
namespace Sysbench.Fileio

open Bytes Words

def fileChecksumLength : ℕ := 4
def fileOffsetLength : ℕ := 8

/-- The bound of the loop that fills a block. The two lengths are of type `size_t`. -/
def fillBound (len : ℕ) : ℕ := toUInt 64 ((len : ℤ) - (fileChecksumLength + fileOffsetLength : ℕ))

/-- `len - (FILE_CHECKSUM_LENGTH + FILE_OFFSET_LENGTH)` as an `unsigned int`. -/
def payloadLength (len : ℕ) : ℕ :=
  toUInt 32 ((len : ℤ) - (fileChecksumLength + fileOffsetLength : ℕ))

/-- The random bytes: the low byte of each value `sb_rnd()` returns. -/
def payload (rnd : ℕ → Draw) (n : ℕ) : List Byte :=
  (List.range n).map fun i => BitVec.ofNat 8 (rnd i)

/-- `file_fill_buffer`: what the buffer starts with afterwards. There is no result when
the counter of the loop, an `unsigned int`, cannot get to its bound, or when the writes pass
the `capacity` bytes of the buffer. -/
def fileFillBuffer (capacity : ℕ) (rnd : ℕ → Draw) (len offset : ℕ) : Option (List Byte) :=
  let i := fillBound len
  if i < 2 ^ 32 ∧ i + (fileChecksumLength + fileOffsetLength) ≤ capacity then
    some (payload rnd i ++ (leBytes fileChecksumLength (crc32 0 (payload rnd i)).toNat ++
      leBytes fileOffsetLength offset))
  else none

def storedChecksum (buf : List Byte) (csOffset : ℕ) : ℕ :=
  leValue ((buf.drop csOffset).take fileChecksumLength)

def storedOffset (buf : List Byte) (csOffset : ℕ) : ℕ :=
  leValue ((buf.drop (csOffset + fileChecksumLength)).take fileOffsetLength)

/-- `file_validate_buffer`. There is no result when it reads past the buffer. -/
def fileValidateBuffer (buf : List Byte) (len offset : ℕ) : Option (Except String Unit) :=
  let csOffset := payloadLength len
  if csOffset + (fileChecksumLength + fileOffsetLength) ≤ buf.length then
    if (crc32 0 (buf.take csOffset)).toNat ≠ storedChecksum buf csOffset then
      some (.error "Checksum mismatch in block: ")
    else if offset ≠ storedOffset buf csOffset then some (.error "Offset mismatch in block:")
    else some (.ok ())
  else none

theorem payloadLength_eq {len : ℕ} (hlo : 12 ≤ len) (hhi : len < 2 ^ 32) :
    payloadLength len = len - 12 := by
  unfold payloadLength fileChecksumLength fileOffsetLength
  rw [toUInt_of_range (by omega) (by omega)]
  omega

theorem payloadLength_of_lt {len : ℕ} (h : len < 12) : payloadLength len = 2 ^ 32 + len - 12 := by
  unfold payloadLength fileChecksumLength fileOffsetLength toUInt
  omega

/-- A bound that the counter can get to is the length of the payload. -/
theorem fillBound_eq {len : ℕ} (h : fillBound len < 2 ^ 32) : fillBound len = payloadLength len := by
  unfold fillBound payloadLength toUInt at *
  omega

theorem fillBound_lt_iff {len : ℕ} (hhi : len < 2 ^ 32) : fillBound len < 2 ^ 32 ↔ 12 ≤ len := by
  unfold fillBound fileChecksumLength fileOffsetLength toUInt
  omega

@[simp] theorem length_payload (rnd : ℕ → Draw) (n : ℕ) : (payload rnd n).length = n := by
  simp [payload]

theorem getElem?_payload (rnd : ℕ → Draw) {n i : ℕ} (hi : i < n) :
    (payload rnd n)[i]? = some (BitVec.ofNat 8 (rnd i)) := by
  simp [payload, hi]

theorem fileValidateBuffer_eq_ok {buf : List Byte} {len offset : ℕ} :
    fileValidateBuffer buf len offset = some (.ok ()) ↔
      payloadLength len + 12 ≤ buf.length ∧
        (crc32 0 (buf.take (payloadLength len))).toNat = storedChecksum buf (payloadLength len) ∧
        offset = storedOffset buf (payloadLength len) := by
  have h12 : fileChecksumLength + fileOffsetLength = 12 := rfl
  simp only [fileValidateBuffer, h12]
  split_ifs with h1 h2 h3 <;> simp_all

theorem fileFillBuffer_eq_some {capacity len offset : ℕ} {rnd : ℕ → Draw} {block : List Byte} :
    fileFillBuffer capacity rnd len offset = some block ↔
      (fillBound len < 2 ^ 32 ∧ payloadLength len + 12 ≤ capacity) ∧
        block = payload rnd (payloadLength len) ++
          (leBytes 4 (crc32 0 (payload rnd (payloadLength len))).toNat ++ leBytes 8 offset) := by
  have h12 : fileChecksumLength + fileOffsetLength = 12 := rfl
  simp only [fileFillBuffer, h12]
  by_cases hend : fillBound len < 2 ^ 32
  · have heq := fillBound_eq hend
    rw [heq] at hend ⊢
    by_cases hfit : payloadLength len + 12 ≤ capacity
    · rw [if_pos ⟨hend, hfit⟩, Option.some.injEq, and_iff_right (⟨hend, hfit⟩ : _ ∧ _)]
      exact eq_comm
    · rw [if_neg fun h => hfit h.2]
      exact iff_of_false (Option.some_ne_none _).symm fun h => hfit h.1.2
  · rw [if_neg fun h => hend h.1]
    exact iff_of_false (Option.some_ne_none _).symm fun h => hend h.1.1

section Layout

variable {n : ℕ} {bytes check off rest : List Byte} (hn : bytes.length = n)

include hn

theorem take_layout : (bytes ++ (check ++ off) ++ rest).take n = bytes := by
  rw [List.append_assoc, List.take_left' hn]

theorem storedChecksum_layout (hc : check.length = 4) :
    storedChecksum (bytes ++ (check ++ off) ++ rest) n = leValue check := by
  rw [storedChecksum, List.append_assoc, List.drop_left' hn, List.append_assoc,
    List.take_left' (show check.length = fileChecksumLength from hc)]

theorem storedOffset_layout (hc : check.length = 4) (ho : off.length = 8) :
    storedOffset (bytes ++ (check ++ off) ++ rest) n = leValue off := by
  have hlen : (bytes ++ check).length = n + fileChecksumLength := by
    rw [List.length_append, hn, hc]
    rfl
  rw [storedOffset, ← List.append_assoc, List.append_assoc, List.drop_left' hlen,
    List.take_left' (show off.length = fileOffsetLength from ho)]

end Layout

theorem fileValidateBuffer_fill {capacity len offset : ℕ} {rnd : ℕ → Draw}
    {block rest : List Byte} (hoff : offset < 2 ^ 64)
    (h : fileFillBuffer capacity rnd len offset = some block) :
    fileValidateBuffer (block ++ rest) len offset = some (.ok ()) := by
  obtain ⟨-, rfl⟩ := fileFillBuffer_eq_some.mp h
  have hp := length_payload rnd (payloadLength len)
  rw [fileValidateBuffer_eq_ok, take_layout hp, storedChecksum_layout hp (length_leBytes _ _),
    storedOffset_layout hp (length_leBytes _ _) (length_leBytes _ _)]
  refine ⟨?_, (leValue_leBytes ?_).symm, (leValue_leBytes ?_).symm⟩
  · simp only [List.length_append, hp, length_leBytes]
    omega
  · have := (crc32 0 (payload rnd (payloadLength len))).isLt
    omega
  · omega

end Sysbench.Fileio
