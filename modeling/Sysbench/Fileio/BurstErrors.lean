import Sysbench.Fileio.Crc32Remainder

/-! # Damaged blocks

Which changes of a block `file_validate_buffer` finds. The payload and the checksum behind it are
one message that leaves the register at a fixed value, so a change inside them is a question about
the generator; the offset is compared as it is.
-/
namespace Sysbench.Fileio

open Bytes ShiftRegister

/-- The payload and the checksum leave the residue, and the offset is the expected one. -/
theorem fileValidateBuffer_iff_residue {buf rest : List Byte} {len offset : ℕ}
    (hbuf : buf.length = len) (hlo : 12 ≤ len) (hhi : len < 2 ^ 32) :
    fileValidateBuffer (buf ++ rest) len offset = some (.ok ()) ↔
      (buf.take (len - 8)).foldl (feed crcPoly) (~~~ 0#32) = crcResidue ∧
        offset = leValue (buf.drop (len - 8)) := by
  have hbytes : (buf.take (len - 12)).length = payloadLength len := by
    rw [payloadLength_eq hlo hhi, List.length_take]
    omega
  have hcheck : ((buf.drop (len - 12)).take 4).length = 4 := by
    rw [List.length_take, List.length_drop]
    omega
  have hoff : (buf.drop (len - 8)).length = 8 := by
    rw [List.length_drop]
    omega
  have hword : buf.take (len - 8) = buf.take (len - 12) ++ (buf.drop (len - 12)).take 4 := by
    rw [show len - 8 = len - 12 + 4 by omega, List.take_add]
  have hsplit : buf = buf.take (len - 12) ++
      ((buf.drop (len - 12)).take 4 ++ buf.drop (len - 8)) := by
    rw [← List.append_assoc, ← hword, List.take_append_drop]
  have hfields := @fileValidateBuffer_fields len offset _ _ _ rest hbytes hcheck hoff
  rw [← hsplit, checksum_iff_residue hcheck, ← hword] at hfields
  exact hfields

theorem rejected_iff {buf : List Byte} {len offset : ℕ}
    (hlen : payloadLength len + 12 ≤ buf.length) :
    Rejected buf len offset ↔ fileValidateBuffer buf len offset ≠ some (.ok ()) := by
  refine ⟨?_, rejected_of_not_ok hlen⟩
  rintro ⟨message, h⟩ hok
  rw [h] at hok
  cases hok

/-- A damaged block passes if its offset is the one it had and the message in front of it leaves
the register where it did. -/
theorem damaged_passes_iff {block bad rest : List Byte} {len offset : ℕ}
    (hblock : block.length = len) (hbad : bad.length = len) (hlo : 12 ≤ len) (hhi : len < 2 ^ 32)
    (hpass : fileValidateBuffer block len offset = some (.ok ())) :
    fileValidateBuffer (bad ++ rest) len offset = some (.ok ()) ↔
      (bad.take (len - 8)).foldl (feed crcPoly) (~~~ 0#32) =
          (block.take (len - 8)).foldl (feed crcPoly) (~~~ 0#32) ∧
        bad.drop (len - 8) = block.drop (len - 8) := by
  rw [← List.append_nil block, fileValidateBuffer_iff_residue hblock hlo hhi] at hpass
  rw [fileValidateBuffer_iff_residue hbad hlo hhi, hpass.1, hpass.2]
  refine and_congr_right fun _ => ⟨fun h => ?_, fun h => by rw [h]⟩
  refine (leValue_injective ?_ h).symm
  rw [List.length_drop, List.length_drop, hblock, hbad]

section Bits

variable {bad : List Byte} {len : ℕ} (hbad : bad.length = len) (hlo : 8 ≤ len)

include hbad hlo

theorem bitAt_take {i : ℕ} (hi : i < 8 * (len - 8)) :
    bitAt (bad.take (len - 8)) i = bitAt bad i := by
  have hlen : (bad.take (len - 8)).length = len - 8 := by
    rw [List.length_take]
    omega
  have h := bitAt_append_left (show i < 8 * (bad.take (len - 8)).length by omega)
    (bad.drop (len - 8))
  rwa [List.take_append_drop, eq_comm] at h

theorem bitAt_drop (i : ℕ) :
    bitAt (bad.drop (len - 8)) i = bitAt bad (8 * (len - 8) + i) := by
  have hlen : (bad.take (len - 8)).length = len - 8 := by
    rw [List.length_take]
    omega
  have h := bitAt_append_right (bad.take (len - 8)) (bad.drop (len - 8)) i
  rw [List.take_append_drop, hlen] at h
  exact h.symm

end Bits

/-- The message in front of the offset is the same outside the places where the block is. -/
theorem bitAt_take_eq {block bad : List Byte} {len : ℕ} (hblock : block.length = len)
    (hbad : bad.length = len) (hlo : 8 ≤ len) {i : ℕ} (h : bitAt bad i = bitAt block i) :
    bitAt (bad.take (len - 8)) i = bitAt (block.take (len - 8)) i := by
  by_cases hi : i < 8 * (len - 8)
  · rw [bitAt_take hbad hlo hi, bitAt_take hblock hlo hi, h]
  · have hout : ∀ l : List Byte, l.length = len → bitAt (l.take (len - 8)) i = false := by
      intro l hl
      refine bitAt_of_ge (by omega) ?_
      rw [List.length_take]
      omega
    rw [hout bad hbad, hout block hblock]

/-- Two changed bits leave the message and the offset as they were for a distance of whole
periods in the message. -/
theorem two_bits_iff {block bad : List Byte} {len : ℕ} (hblock : block.length = len)
    (hbad : bad.length = len) (hlo : 8 ≤ len) {i j : ℕ} (hij : i < j)
    (htwo : ∀ b, bitAt bad b ≠ bitAt block b ↔ b = i ∨ b = j) :
    ((bad.take (len - 8)).foldl (feed crcPoly) (~~~ 0#32) =
          (block.take (len - 8)).foldl (feed crcPoly) (~~~ 0#32) ∧
        bad.drop (len - 8) = block.drop (len - 8)) ↔
      j < 8 * (len - 8) ∧ 2 ^ 32 - 1 ∣ j - i := by
  have htake : ∀ l : List Byte, l.length = len → (l.take (len - 8)).length = len - 8 := by
    intro l hl
    rw [List.length_take]
    omega
  have hsame : ∀ b, b ≠ i → b ≠ j → bitAt bad b = bitAt block b := by
    intro b hi hj
    by_contra hne
    exact ((htwo b).mp hne).elim hi hj
  have hdrop : bad.drop (len - 8) = block.drop (len - 8) ↔ j < 8 * (len - 8) := by
    constructor
    · intro heq
      by_contra hj
      refine (htwo j).mpr (Or.inr rfl) ?_
      rw [show j = 8 * (len - 8) + (j - 8 * (len - 8)) by omega, ← bitAt_drop hbad hlo, heq,
        bitAt_drop hblock hlo]
    · intro hj
      refine eq_of_bitAt (by rw [List.length_drop, List.length_drop, hbad, hblock]) fun b => ?_
      rw [bitAt_drop hbad hlo, bitAt_drop hblock hlo, hsame _ (by omega) (by omega)]
  rw [hdrop, and_comm]
  refine and_congr_right fun hj => ?_
  rw [← minimalPeriod_crcPoly]
  refine foldl_feed_eq_iff_of_two (by omega) (by omega) (by decide)
    (by rw [htake bad hbad, htake block hblock]) hij (by rwa [htake block hblock]) fun b => ?_
  by_cases hb : b < 8 * (len - 8)
  · rw [bitAt_take hbad hlo hb, bitAt_take hblock hlo hb, htwo]
  · rw [bitAt_of_ge (by omega) (by rw [htake bad hbad]; omega),
      bitAt_of_ge (by omega) (by rw [htake block hblock]; omega)]
    constructor
    · exact fun h => absurd rfl h
    · omega

theorem exists_block {capacity len offset : ℕ} (hlo : 12 ≤ len) (hhi : len < 2 ^ 32)
    (hcapacity : len ≤ capacity) (hoffset : offset < 2 ^ 64) (rnd : ℕ → Draw) :
    ∃ block, fileFillBuffer capacity rnd len offset = some block ∧ block.length = len ∧
      fileValidateBuffer block len offset = some (.ok ()) := by
  have hpayload := payloadLength_eq hlo hhi
  obtain ⟨block, hblock⟩ : ∃ block, fileFillBuffer capacity rnd len offset = some block :=
    ⟨_, fileFillBuffer_eq_some.mpr ⟨⟨(fillBound_lt_iff hhi).mpr hlo, by omega⟩, rfl⟩⟩
  refine ⟨block, hblock, ?_, ?_⟩
  · rw [(fileFillBuffer_eq_some.mp hblock).2]
    simp only [List.length_append, length_payload, length_leBytes]
    omega
  · have h := @fileValidateBuffer_fill _ _ _ _ _ [] hoffset hblock
    rwa [List.append_nil] at h

/-- Every damage that lies inside 32 consecutive bits is found, wherever it lies in the block, and
two changed bits are found unless both lie in front of the offset at a distance that is a multiple
of `2 ^ 32 - 1`. -/
theorem block_detects_bursts {capacity len offset : ℕ} (hlo : 12 ≤ len) (hhi : len < 2 ^ 32)
    (hcapacity : len ≤ capacity) (hoffset : offset < 2 ^ 64) (rnd : ℕ → Draw) :
    ∃ block, fileFillBuffer capacity rnd len offset = some block ∧ block.length = len ∧
      ∀ bad rest : List Byte, bad.length = len →
        (∀ s, bad ≠ block → (∀ i, i < s ∨ s + 32 ≤ i → bitAt bad i = bitAt block i) →
          Rejected (bad ++ rest) len offset) ∧
        ∀ i j, i < j → (∀ b, bitAt bad b ≠ bitAt block b ↔ b = i ∨ b = j) →
          (Rejected (bad ++ rest) len offset ↔ ¬(j < 8 * (len - 8) ∧ 2 ^ 32 - 1 ∣ j - i)) := by
  have hpayload := payloadLength_eq hlo hhi
  obtain ⟨block, hfill, hblock, hpass⟩ := exists_block hlo hhi hcapacity hoffset rnd
  refine ⟨block, hfill, hblock, fun bad rest hbad => ?_⟩
  have hroom : payloadLength len + 12 ≤ (bad ++ rest).length := by
    rw [List.length_append]
    omega
  have hlen : (bad.take (len - 8)).length = (block.take (len - 8)).length := by
    rw [List.length_take, List.length_take, hblock, hbad]
  rw [(rejected_iff hroom).trans (not_congr (damaged_passes_iff hblock hbad hlo hhi hpass))]
  refine ⟨fun s hne hburst => ?_, fun i j hij htwo => not_congr ?_⟩
  · rintro ⟨hregister, hdrop⟩
    have htake : bad.take (len - 8) ≠ block.take (len - 8) := by
      intro htake
      apply hne
      rw [← List.take_append_drop (len - 8) bad, htake, hdrop, List.take_append_drop]
    exact foldl_feed_ne_of_burst (by omega) (by omega) (by decide) hlen htake
      (fun i hi => bitAt_take_eq hblock hbad (by omega) (hburst i hi)) hregister
  · exact two_bits_iff hblock hbad (by omega) hij htwo

theorem short_block_detects_bursts :
    ∃ block, fileFillBuffer 4096 (fun _ => ⟨7, by decide⟩) 16 4096 = some block ∧
      block.length = 16 ∧ ∀ bad rest : List Byte, bad.length = 16 →
        (∀ s, bad ≠ block → (∀ i, i < s ∨ s + 32 ≤ i → bitAt bad i = bitAt block i) →
          Rejected (bad ++ rest) 16 4096) ∧
        ∀ i j, i < j → (∀ b, bitAt bad b ≠ bitAt block b ↔ b = i ∨ b = j) →
          (Rejected (bad ++ rest) 16 4096 ↔ ¬(j < 8 * (16 - 8) ∧ 2 ^ 32 - 1 ∣ j - i)) :=
  block_detects_bursts (by decide) (by decide) (by decide) (by decide) _

end Sysbench.Fileio
