import Sysbench.Fileio.Blocks

/-! # What a checksum detects

The register of the CRC is updated by an injective linear map for each bit, so two payloads that
differ in one byte have different checksums. The other two fields of a block are compared as
they are.
-/
namespace Sysbench.Fileio

open Bytes

/-! ## One bit -/

/-- What the bit that leaves the register adds. -/
def crcFeedback (low : Bool) : BitVec 32 := if low then crcPoly else 0#32

theorem crcFeedback_xor (a b : Bool) : crcFeedback (a ^^ b) = crcFeedback a ^^^ crcFeedback b := by
  cases a <;> cases b <;> simp [crcFeedback]

theorem crcBit_eq (c : BitVec 32) : crcBit c = crcFeedback (c.getLsbD 0) ^^^ c >>> 1 := by
  unfold crcBit crcFeedback
  split
  · rfl
  · exact (BitVec.zero_xor).symm

theorem crcBit_xor (c d : BitVec 32) : crcBit (c ^^^ d) = crcBit c ^^^ crcBit d := by
  rw [crcBit_eq, crcBit_eq, crcBit_eq, BitVec.getLsbD_xor, BitVec.ushiftRight_xor_distrib,
    crcFeedback_xor]
  ac_rfl

/-- The polynomial has the term x^0, which stands in the highest bit. -/
theorem crcFeedback_top (low : Bool) : (crcFeedback low).getLsbD 31 = low := by
  cases low <;> decide

theorem crcBit_injective : Function.Injective crcBit := by
  intro c d h
  have hlow : c.getLsbD 0 = d.getLsbD 0 := by
    have htop := congrArg (BitVec.getLsbD · 31) h
    simp only [crcBit_eq, BitVec.getLsbD_xor, crcFeedback_top, BitVec.getLsbD_ushiftRight] at htop
    simpa using htop
  rw [crcBit_eq, crcBit_eq, hlow, BitVec.xor_right_inj] at h
  apply BitVec.eq_of_getLsbD_eq
  intro i _
  cases i with
  | zero => exact hlow
  | succ i =>
    have hshift := congrArg (BitVec.getLsbD · i) h
    simpa [Nat.add_comm] using hshift

theorem crcBit_iterate_xor (k : ℕ) (c d : BitVec 32) :
    crcBit^[k] (c ^^^ d) = crcBit^[k] c ^^^ crcBit^[k] d := by
  induction k generalizing c d with
  | zero => rfl
  | succ k ih => rw [Function.iterate_succ_apply, crcBit_xor, ih]; rfl

theorem crcBit_iterate_of_zeros {k : ℕ} {c : BitVec 32} (hc : ∀ i < k, c.getLsbD i = false) :
    crcBit^[k] c = c >>> k := by
  induction k with
  | zero => exact (BitVec.ushiftRight_zero c).symm
  | succ k ih =>
    have hlow : (c >>> k).getLsbD 0 = false := by simpa using hc k (Nat.lt_succ_self k)
    rw [Function.iterate_succ_apply', ih fun i hi => hc i (by omega), crcBit_eq, hlow,
      BitVec.shiftRight_add]
    exact BitVec.zero_xor

/-! ## One byte -/

/-- Eight bits at once: the low byte goes through the table, and the bits above it move down. -/
theorem crcBit_eight (x w : BitVec 32) (hw : ∀ i, 24 ≤ i → w.getLsbD i = false) :
    crcBit^[8] (x ^^^ w <<< 8) = crcTable 0 (x.setWidth 8) ^^^ (x >>> 8 ^^^ w) := by
  let low := (x.setWidth 8).setWidth 32
  have hsplit : x ^^^ w <<< 8 = low ^^^ (x ^^^ low ^^^ w <<< 8) := by
    rw [← BitVec.xor_assoc, BitVec.xor_comm x low, ← BitVec.xor_assoc, BitVec.xor_self,
      BitVec.zero_xor]
  have hzeros : ∀ i < 8, (x ^^^ low ^^^ w <<< 8).getLsbD i = false := by
    intro i hi
    simp [low, hi, show i < 32 by omega]
  have hhigh : (x ^^^ low ^^^ w <<< 8) >>> 8 = x >>> 8 ^^^ w := by
    apply BitVec.eq_of_getLsbD_eq
    intro i hi
    have hlow : low.getLsbD (8 + i) = false := by simp [low]
    have hup : (w <<< 8).getLsbD (8 + i) = w.getLsbD i := by
      by_cases h24 : 24 ≤ i
      · rw [hw i h24, BitVec.getLsbD_of_ge _ _ (by omega)]
      · simp [show 8 + i < 32 by omega, hi]
    rw [BitVec.getLsbD_ushiftRight, BitVec.getLsbD_xor, BitVec.getLsbD_xor, hlow, hup,
      BitVec.getLsbD_xor, BitVec.getLsbD_ushiftRight, Bool.xor_false]
  rw [hsplit, crcBit_iterate_xor, crcBit_iterate_of_zeros hzeros, hhigh]
  rfl

theorem crcBit_eight_zero (x : BitVec 32) :
    crcBit^[8] x = crcTable 0 (x.setWidth 8) ^^^ x >>> 8 := by
  have h := crcBit_eight x 0#32 fun i _ => BitVec.getLsbD_zero
  rwa [BitVec.zero_shiftLeft, BitVec.xor_zero, BitVec.xor_zero] at h

theorem crcByte_eq (c : BitVec 32) (b : Byte) :
    crcByte c b = crcBit^[8] (c ^^^ b.setWidth 32) := by
  have hlow : (c ^^^ b.setWidth 32).setWidth 8 = c.setWidth 8 ^^^ b := by
    rw [BitVec.setWidth_xor, BitVec.setWidth_setWidth_of_le b (by omega), BitVec.setWidth_eq]
  have hhigh : (c ^^^ b.setWidth 32) >>> 8 = c >>> 8 := by
    apply BitVec.eq_of_getLsbD_eq
    intro i _
    simp
  rw [crcBit_eight_zero, hlow, hhigh]
  rfl

/-! ## One word -/

theorem crcTable_eq (k : ℕ) (n : Byte) : crcTable k n = crcBit^[8 * (k + 1)] (n.setWidth 32) := by
  induction k with
  | zero => rfl
  | succ k ih =>
    have hstep : crcTable (k + 1) n = crcBit^[8] (crcTable k n) :=
      (crcBit_eight_zero (crcTable k n)).symm
    rw [hstep, ih, ← Function.iterate_add_apply, show 8 + 8 * (k + 1) = 8 * (k + 1 + 1) by ring]

theorem crcBit_bytes (k : ℕ) (x : BitVec 32) :
    crcBit^[8 * (k + 1)] x = crcTable k (x.setWidth 8) ^^^ crcBit^[8 * k] (x >>> 8) := by
  rw [Nat.mul_succ, Function.iterate_add_apply, crcBit_eight_zero, crcBit_iterate_xor, crcTable_eq,
    crcTable_eq, ← Function.iterate_add_apply]
  rfl

theorem crcBit_append {n : ℕ} (hn : n ≤ 24) (c : BitVec 32) (v : BitVec n) (b : Byte) :
    crcBit^[8] (c ^^^ (v ++ b).setWidth 32) = crcByte c b ^^^ v.setWidth 32 := by
  have hzeros : ∀ i, 24 ≤ i → (v.setWidth 32).getLsbD i = false := by
    intro i hi
    rw [BitVec.getLsbD_setWidth, BitVec.getLsbD_of_ge v i (by omega), Bool.and_false]
  have happend : (v ++ b).setWidth 32 = b.setWidth 32 ^^^ v.setWidth 32 <<< 8 := by
    apply BitVec.eq_of_getLsbD_eq
    intro i hi
    simp only [BitVec.getLsbD_setWidth, BitVec.getLsbD_append, BitVec.getLsbD_xor,
      BitVec.getLsbD_shiftLeft]
    by_cases h8 : i < 8
    · simp [h8]
    · simp [h8, hi, BitVec.getLsbD_of_ge b i (by omega), show i - 8 < 32 by omega]
  rw [happend, ← BitVec.xor_assoc, crcBit_eight _ _ hzeros, crcByte_eq, crcBit_eight_zero,
    BitVec.xor_assoc]

/-- `DOLIT4` is the register update of four bytes in order. -/
theorem doLit4_eq (c : BitVec 32) (b0 b1 b2 b3 : Byte) :
    doLit4 c b0 b1 b2 b3 = crcByte (crcByte (crcByte (crcByte c b0) b1) b2) b3 := by
  have htable : ∀ x : BitVec 32, crcBit^[8 * 4] x =
      crcTable 3 (x.setWidth 8) ^^^ crcTable 2 ((x >>> 8).setWidth 8) ^^^
        crcTable 1 ((x >>> 16).setWidth 8) ^^^ crcTable 0 ((x >>> 24).setWidth 8) := by
    intro x
    have hout : x >>> 32 = 0#32 := BitVec.ushiftRight_eq_zero le_rfl
    rw [crcBit_bytes 3, crcBit_bytes 2, crcBit_bytes 1, crcBit_bytes 0, ← BitVec.shiftRight_add,
      ← BitVec.shiftRight_add, ← BitVec.shiftRight_add, hout]
    simp only [Nat.mul_zero, Function.iterate_zero_apply, BitVec.xor_zero, BitVec.xor_assoc]
  have hword : doLit4 c b0 b1 b2 b3 = crcBit^[8 * 4] (c ^^^ (b3 ++ b2 ++ b1 ++ b0)) :=
    (htable _).symm
  have height : ∀ x : BitVec 32,
      crcBit^[8 * 4] x = crcBit^[8] (crcBit^[8] (crcBit^[8] (crcBit^[8] x))) := fun x => rfl
  rw [hword, height, ← BitVec.setWidth_eq (b3 ++ b2 ++ b1 ++ b0), crcBit_append (by omega),
    crcBit_append (by omega), crcBit_append (by omega), crcByte_eq _ b3]

theorem crcWords_eq (c : BitVec 32) (buf : List Byte) : crcWords c buf = buf.foldl crcByte c := by
  fun_induction crcWords c buf with
  | case1 c b0 b1 b2 b3 buf ih => rw [ih, doLit4_eq]; rfl
  | case2 => rfl

/-! ## One changed byte -/

theorem crcByte_injective_register (b : Byte) : Function.Injective (crcByte · b) := by
  intro c d h
  dsimp only at h
  rw [crcByte_eq, crcByte_eq] at h
  exact (BitVec.xor_left_inj _).mp (crcBit_injective.iterate 8 h)

theorem crcByte_injective_byte (c : BitVec 32) : Function.Injective (crcByte c) := by
  intro a b h
  rw [crcByte_eq, crcByte_eq] at h
  have hwide : a.setWidth 32 = b.setWidth 32 :=
    (BitVec.xor_right_inj _).mp (crcBit_injective.iterate 8 h)
  have hback := congrArg (BitVec.setWidth 8) hwide
  rwa [BitVec.setWidth_setWidth_of_le a (by omega), BitVec.setWidth_setWidth_of_le b (by omega),
    BitVec.setWidth_eq, BitVec.setWidth_eq] at hback

theorem foldl_crcByte_injective (buf : List Byte) :
    Function.Injective fun c => buf.foldl crcByte c := by
  induction buf with
  | nil => exact Function.injective_id
  | cons b buf ih => exact ih.comp (crcByte_injective_register b)

/-- Payloads of one length that differ in exactly one byte have different checksums. -/
theorem crc32_set_ne {crc : BitVec 32} {buf : List Byte} {i : ℕ} {b : Byte} (hi : i < buf.length)
    (hb : b ≠ buf[i]) : crc32 crc (buf.set i b) ≠ crc32 crc buf := by
  intro h
  have hregister : crcWords (~~~ crc) (buf.set i b) = crcWords (~~~ crc) buf :=
    BitVec.not_inj.mp h
  rw [crcWords_eq, crcWords_eq, List.set_eq_take_append_cons_drop, if_pos hi] at hregister
  nth_rewrite 3 [← List.take_append_drop i buf] at hregister
  rw [List.drop_eq_getElem_cons hi, List.foldl_append, List.foldl_append, List.foldl_cons,
    List.foldl_cons] at hregister
  exact hb (crcByte_injective_byte _ (foldl_crcByte_injective _ hregister))

/-! ## Blocks -/

theorem eq_of_set_eq {l : List Byte} {i : ℕ} {b : Byte} (hi : i < l.length) (h : l.set i b = l) :
    b = l[i] := by
  have hset : (l.set i b)[i]? = some b := List.getElem?_set_self hi
  rw [h, List.getElem?_eq_getElem hi] at hset
  exact (Option.some_inj.mp hset).symm

def Rejected (buf : List Byte) (len offset : ℕ) : Prop :=
  ∃ message, fileValidateBuffer buf len offset = some (.error message)

theorem rejected_of_not_ok {buf : List Byte} {len offset : ℕ}
    (hlen : payloadLength len + 12 ≤ buf.length)
    (h : fileValidateBuffer buf len offset ≠ some (.ok ())) : Rejected buf len offset := by
  have hfit : payloadLength len + (fileChecksumLength + fileOffsetLength) ≤ buf.length := hlen
  unfold Rejected
  unfold fileValidateBuffer at h ⊢
  dsimp only at h ⊢
  rw [if_pos hfit] at h ⊢
  split_ifs at h ⊢ with hchecksum hoffset
  · exact ⟨_, rfl⟩
  · exact ⟨_, rfl⟩
  · exact absurd rfl h

section Fields

variable {len offset : ℕ} {bytes check off rest : List Byte}
  (hbytes : bytes.length = payloadLength len) (hcheck : check.length = 4) (hoff : off.length = 8)

include hbytes hcheck hoff

/-- A block passes if its fields hold the checksum of the payload and the offset. -/
theorem fileValidateBuffer_fields :
    fileValidateBuffer (bytes ++ (check ++ off) ++ rest) len offset = some (.ok ()) ↔
      (crc32 0 bytes).toNat = leValue check ∧ offset = leValue off := by
  have hlen : payloadLength len + 12 ≤ (bytes ++ (check ++ off) ++ rest).length := by
    simp only [List.length_append, hbytes, hcheck, hoff]
    omega
  rw [fileValidateBuffer_eq_ok, take_layout hbytes, storedChecksum_layout hbytes hcheck,
    storedOffset_layout hbytes hcheck hoff, and_iff_right hlen]

theorem rejected_fields (h : ¬((crc32 0 bytes).toNat = leValue check ∧ offset = leValue off)) :
    Rejected (bytes ++ (check ++ off) ++ rest) len offset := by
  refine rejected_of_not_ok ?_ (mt (fileValidateBuffer_fields hbytes hcheck hoff).mp h)
  simp only [List.length_append, hbytes, hcheck, hoff]
  omega

/-- A block that passes does not pass after a change of one byte in any of its fields. -/
theorem rejected_set
    (h : (crc32 0 bytes).toNat = leValue check ∧ offset = leValue off) {i : ℕ} {b : Byte}
    (hi : i < (bytes ++ (check ++ off)).length) (hb : b ≠ (bytes ++ (check ++ off))[i]) :
    Rejected ((bytes ++ (check ++ off)).set i b ++ rest) len offset := by
  obtain ⟨hsum, hoffset⟩ := h
  by_cases hpayload : i < bytes.length
  · rw [List.getElem_append_left hpayload] at hb
    rw [List.set_append_left _ _ hpayload]
    refine rejected_fields (by rw [List.length_set, hbytes]) hcheck hoff fun hpass => ?_
    exact crc32_set_ne hpayload hb (BitVec.eq_of_toNat_eq (hpass.1.trans hsum.symm))
  · have hrest := Nat.not_lt.mp hpayload
    rw [List.getElem_append_right hrest] at hb
    rw [List.set_append_right _ _ hrest]
    by_cases hfield : i - bytes.length < check.length
    · rw [List.getElem_append_left hfield] at hb
      rw [List.set_append_left _ _ hfield]
      refine rejected_fields hbytes (by rw [List.length_set, hcheck]) hoff fun hpass => ?_
      have hset := leValue_injective (List.length_set ..) (hpass.1.symm.trans hsum)
      exact hb (eq_of_set_eq hfield hset)
    · have hlast := Nat.not_lt.mp hfield
      rw [List.getElem_append_right hlast] at hb
      rw [List.set_append_right _ _ hlast]
      refine rejected_fields hbytes hcheck (by rw [List.length_set, hoff]) fun hpass => ?_
      have hset := leValue_injective (List.length_set ..) (hpass.2.symm.trans hoffset)
      exact hb (eq_of_set_eq (by simp at hi; omega) hset)

end Fields

/-- A filled block passes for its own offset only, and not after a change of one byte. What
stands in the buffer behind the block does not matter. -/
theorem block_detects_corruption {capacity len offset : ℕ} (hlo : 12 ≤ len) (hhi : len < 2 ^ 32)
    (hcapacity : len ≤ capacity) (hoffset : offset < 2 ^ 64) (rnd : ℕ → Draw) :
    ∃ block, fileFillBuffer capacity rnd len offset = some block ∧ block.length = len ∧
      ∀ rest, fileValidateBuffer (block ++ rest) len offset = some (.ok ()) ∧
        (∀ o, o ≠ offset → Rejected (block ++ rest) len o) ∧
        ∀ (i : ℕ) (hi : i < block.length) (b : Byte), b ≠ block[i] →
          Rejected (block.set i b ++ rest) len offset := by
  have hpayload := payloadLength_eq hlo hhi
  have hbytes := length_payload rnd (payloadLength len)
  have hsum : (crc32 0 (payload rnd (payloadLength len))).toNat =
      leValue (leBytes 4 (crc32 0 (payload rnd (payloadLength len))).toNat) := by
    have := (crc32 0 (payload rnd (payloadLength len))).isLt
    exact (leValue_leBytes (by omega)).symm
  have hoff : offset = leValue (leBytes 8 offset) := (leValue_leBytes (by omega)).symm
  have hbound := (fillBound_lt_iff hhi).mpr hlo
  refine ⟨_, fileFillBuffer_eq_some.mpr ⟨⟨hbound, by omega⟩, rfl⟩, ?_, fun rest => ⟨?_, ?_, ?_⟩⟩
  · simp only [List.length_append, hbytes, length_leBytes]
    omega
  · exact (fileValidateBuffer_fields hbytes (length_leBytes ..) (length_leBytes ..)).mpr ⟨hsum, hoff⟩
  · intro o hne
    refine rejected_fields hbytes (length_leBytes ..) (length_leBytes ..) fun hpass => ?_
    exact hne (hpass.2.trans hoff.symm)
  · intro i hi b hb
    exact rejected_set hbytes (length_leBytes ..) (length_leBytes ..) ⟨hsum, hoff⟩ hi hb

theorem short_block_detects_corruption :
    ∃ block, fileFillBuffer 4096 (fun _ => ⟨0, by decide⟩) 16 4096 = some block ∧
      block.length = 16 ∧
      ∀ rest, fileValidateBuffer (block ++ rest) 16 4096 = some (.ok ()) ∧
        (∀ o, o ≠ 4096 → Rejected (block ++ rest) 16 o) ∧
        ∀ (i : ℕ) (hi : i < block.length) (b : Byte), b ≠ block[i] →
          Rejected (block.set i b ++ rest) 16 4096 :=
  block_detects_corruption (by decide) (by decide) (by decide) (by decide) _

end Sysbench.Fileio
