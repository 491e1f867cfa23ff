import Sysbench.Fileio.Crc32Paths
import Sysbench.Machine.RegisterPowers

/-! # CRC-32 as a remainder

The register holds the remainder of the message, as a polynomial, by the generator. So a checksum
does not depend on the machine or on how the message was cut, and what a changed message shows is
a question about the divisors of the difference.
-/
namespace Sysbench.Fileio

open Bytes Polynomial ShiftRegister

/-- x^32+x^26+x^23+x^22+x^16+x^12+x^11+x^10+x^8+x^7+x^5+x^4+x^2+x+1. -/
noncomputable def generator : (ZMod 2)[X] := X ^ 32 + ∑ n ∈ crcTerms.toFinset, X ^ n

theorem getMsbD_crcPoly : ∀ n < 32, crcPoly.getMsbD n = decide (n ∈ crcTerms) := by decide

theorem modulus_crcPoly : modulus crcPoly = generator := by
  have hterms : crcTerms.toFinset = (Finset.range 32).filter (· ∈ crcTerms) := by decide
  rw [modulus, generator, hterms, Finset.sum_filter, toPoly]
  refine congrArg (X ^ 32 + ·) (Finset.sum_congr rfl fun n hn => ?_)
  rw [getMsbD_crcPoly n (Finset.mem_range.mp hn)]
  split_ifs with h
  · rw [decide_eq_true h, bit_true, monomial_one_right_eq_X_pow]
  · rw [decide_eq_false h, bit_false, monomial_zero_right]

theorem crcByte_eq_feed (c : BitVec 32) (b : Byte) : crcByte c b = feed crcPoly c b :=
  crcByte_eq c b

theorem foldl_crcByte_eq_feed (c : BitVec 32) (buf : List Byte) :
    buf.foldl crcByte c = buf.foldl (feed crcPoly) c := by
  induction buf generalizing c with
  | nil => rfl
  | cons b buf ih => rw [List.foldl_cons, List.foldl_cons, crcByte_eq_feed, ih]

theorem crc32_eq_feed (crc : BitVec 32) (buf : List Byte) :
    crc32 crc buf = ~~~ buf.foldl (feed crcPoly) (~~~ crc) := by
  rw [crc32, crc32Little, crcWords_eq, foldl_crcByte_eq_feed]

theorem crc32_append (crc : BitVec 32) (buf rest : List Byte) :
    crc32 crc (buf ++ rest) = crc32 (crc32 crc buf) rest := by
  rw [crc32_eq_feed, crc32_eq_feed, crc32_eq_feed, BitVec.not_not, List.foldl_append]

theorem toPoly_crc32 (crc : BitVec 32) (buf : List Byte) :
    toPoly (~~~ crc32 crc buf) =
      (X ^ (8 * buf.length) * toPoly (~~~ crc) + X ^ 32 * message buf) %ₘ generator := by
  rw [crc32_eq_feed, BitVec.not_not, ← modulus_crcPoly]
  exact toPoly_foldl_feed (by omega) (toPoly_mod_self crcPoly _) buf

theorem crc32On_eq (m : Machine) (addr : ℕ) (crc : BitVec 32) (buf : List Byte) :
    crc32On m addr (crc.setWidth m.long) (some buf) = (crc32 crc buf).setWidth m.long := by
  have hnarrow : (crc.setWidth m.long).setWidth 32 = crc := by
    rw [BitVec.setWidth_setWidth_of_le crc m.wide, BitVec.setWidth_eq]
  simp only [crc32On]
  split_ifs
  · rw [crc32LittleAt_eq, hnarrow]
  · rw [crc32BigAt_eq, hnarrow]
  · exact crc32Bytes_eq m.wide crc buf

/-- The checksum of a message is one value on every machine, however the message is cut into
buffers and wherever these lie, and its complement is the remainder of the message. -/
theorem crc32_every_machine (crc : BitVec 32) (buf : List Byte) :
    ∃ sum : BitVec 32,
      toPoly (~~~ sum) =
        (X ^ (8 * buf.length) * toPoly (~~~ crc) + X ^ 32 * message buf) %ₘ generator ∧
      ∀ (m : Machine) (pieces : List (ℕ × List Byte)), pieces.flatMap Prod.snd = buf →
        pieces.foldl (fun c piece => crc32On m piece.1 c (some piece.2)) (crc.setWidth m.long) =
          sum.setWidth m.long := by
  refine ⟨crc32 crc buf, toPoly_crc32 crc buf, fun m pieces => ?_⟩
  induction pieces generalizing crc buf with
  | nil =>
    rintro rfl
    rw [List.flatMap_nil, crc32_eq_feed]
    simp
  | cons piece pieces ih =>
    rintro rfl
    rw [List.foldl_cons, crc32On_eq, ih _ _ rfl, List.flatMap_cons, crc32_append]

/-- Little-endian, with 64 bits in an `unsigned long`. -/
def amd64 : Machine := ⟨64, by decide, true, true⟩

/-- Big-endian, with 32 bits. -/
def sparc : Machine := ⟨32, by decide, true, false⟩

/-- Without an integer type of four bytes. -/
def byteMachine : Machine := ⟨32, by decide, false, true⟩

/-- Nine bytes in one buffer, in two at odd addresses, and in two others. -/
theorem crc32_every_machine_nine : ∃ sum : BitVec 32,
    [(0, [1, 2, 3, 4, 5, 6, 7, 8, 9])].foldl
        (fun c piece => crc32On amd64 piece.1 c (some piece.2)) 0#64 = sum.setWidth 64 ∧
      [(3, [1, 2, 3, 4, 5]), (1, [6, 7, 8, 9])].foldl
        (fun c piece => crc32On sparc piece.1 c (some piece.2)) 0#32 = sum ∧
      [(0, [1]), (7, [2, 3, 4, 5, 6, 7, 8, 9])].foldl
        (fun c piece => crc32On byteMachine piece.1 c (some piece.2)) 0#32 = sum := by
  obtain ⟨sum, -, hall⟩ := crc32_every_machine 0#32 [1, 2, 3, 4, 5, 6, 7, 8, 9]
  exact ⟨sum, hall amd64 _ rfl, (hall sparc _ rfl).trans (BitVec.setWidth_eq sum),
    (hall byteMachine _ rfl).trans (BitVec.setWidth_eq sum)⟩

/-! ## The checksum field as a part of the message -/

/-- The register after a message followed by its checksum. -/
def crcResidue : BitVec 32 := feed crcPoly 0#32 (~~~ 0#32)

theorem toNat_append_byte {n : ℕ} (x : BitVec n) (y : Byte) :
    (x ++ y).toNat = y.toNat + 256 * x.toNat := by
  rw [BitVec.toNat_append, ← Nat.shiftLeft_add_eq_or_of_lt y.isLt, Nat.shiftLeft_eq]
  omega

theorem leValue_four (b0 b1 b2 b3 : Byte) :
    leValue [b0, b1, b2, b3] = (b3 ++ b2 ++ b1 ++ b0).toNat := by
  rw [toNat_append_byte, toNat_append_byte, toNat_append_byte]
  rfl

/-- A checksum matches when the register ends at the residue. -/
theorem checksum_iff_residue {bytes check : List Byte} (hcheck : check.length = 4) :
    (crc32 0 bytes).toNat = leValue check ↔
      (bytes ++ check).foldl (feed crcPoly) (~~~ 0#32) = crcResidue := by
  match check, hcheck with
  | [b0, b1, b2, b3], _ =>
    rw [leValue_four, List.foldl_append]
    have hsum := crc32_eq_feed 0 bytes
    generalize bytes.foldl (feed crcPoly) (~~~ 0#32) = c at hsum ⊢
    have hword : [b0, b1, b2, b3].foldl (feed crcPoly) c =
        feed crcPoly c (b3 ++ b2 ++ b1 ++ b0) := by
      have h32 := feed_append (show 24 + 8 ≤ 32 by omega) crcPoly c (b3 ++ b2 ++ b1) b0
      rw [feed_append (show 16 + 8 ≤ 32 by omega), feed_append (show 8 + 8 ≤ 32 by omega)] at h32
      exact h32.symm
    generalize b3 ++ b2 ++ b1 ++ b0 = word at hword ⊢
    rw [hword, hsum, crcResidue, feed_eq_feed_iff crcBit_injective, BitVec.zero_xor]
    have hnot : c ^^^ word = ~~~ 0#32 ↔ ~~~ c = word := by
      have hones : c ^^^ ~~~ c = ~~~ 0#32 := by
        rw [← BitVec.xor_allOnes, ← BitVec.xor_assoc, BitVec.xor_self, BitVec.zero_xor]
        rfl
      rw [← hones, BitVec.xor_right_inj, eq_comm]
    rw [hnot, BitVec.toNat_inj]

/-! ## The period of x -/

theorem power_crcPoly_ne {n : ℕ} (hn : n ∈ [0x55555555, 0x33333333, 0xf0f0f0f, 0xff00ff, 0xffff]) :
    power crcPoly (binary 32 n) ≠ one 32 := by
  revert n
  decide +kernel

theorem power_crcPoly_period : power crcPoly (binary 32 (2 ^ 32 - 1)) = one 32 := by decide +kernel

theorem quotient_mem {p : ℕ} (hp : p.Prime) (hdvd : p ∣ 2 ^ 32 - 1) :
    (2 ^ 32 - 1) / p ∈ [0x55555555, 0x33333333, 0xf0f0f0f, 0xff00ff, 0xffff] := by
  have hfactors : 2 ^ 32 - 1 = 3 * 5 * 17 * 257 * 65537 := by norm_num
  rw [hfactors, hp.dvd_mul, hp.dvd_mul, hp.dvd_mul, hp.dvd_mul] at hdvd
  rcases hdvd with (((h | h) | h) | h) | h
  · rw [(Nat.prime_dvd_prime_iff_eq hp (by norm_num)).mp h]
    decide
  · rw [(Nat.prime_dvd_prime_iff_eq hp (by norm_num)).mp h]
    decide
  · rw [(Nat.prime_dvd_prime_iff_eq hp (by norm_num)).mp h]
    decide
  · rw [(Nat.prime_dvd_prime_iff_eq hp (by norm_num)).mp h]
    decide
  · rw [(Nat.prime_dvd_prime_iff_eq hp (by norm_num)).mp h]
    decide

/-- The generator is primitive. -/
theorem minimalPeriod_crcPoly :
    Function.minimalPeriod (shift crcPoly) (one 32) = 2 ^ 32 - 1 := by
  apply minimalPeriod_eq_of_prime
  · exact (isPeriodicPt_iff_power (by omega) (by omega) crcPoly).mpr power_crcPoly_period
  · intro p hp hdvd
    have hlt : (2 ^ 32 - 1) / p < 2 ^ 32 := (Nat.div_le_self _ _).trans_lt (by omega)
    rw [isPeriodicPt_iff_power (by omega) hlt]
    exact power_crcPoly_ne (quotient_mem hp hdvd)

end Sysbench.Fileio
