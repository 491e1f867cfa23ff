import Sysbench.Fileio.Detection
import Sysbench.Machine.ShiftRegister
import Sysbench.Machine.Unrolling

/-! # The paths of CRC-32

`crc32` chooses one of three routines: by bytes, by words of a little-endian machine and by words
of a big-endian machine, which keeps the register byte-reversed. The word routines begin with
single bytes when the buffer is not aligned. All of them compute one remainder.
-/
namespace Sysbench.Fileio

open Bytes Polynomial ShiftRegister Unrolling

/-! ## The routines -/

/-- `REV`: the bytes of a word in the opposite order. -/
def rev (w : BitVec 32) : BitVec 32 :=
  w >>> 24 + (w >>> 8 &&& 0xff00#32) + (w &&& 0xff00#32) <<< 8 + (w &&& 0xff#32) <<< 24

/-- `crc_table[k + 4]`: the byte reversal of `crc_table[k]`. -/
def crcTableRev (k : ℕ) (n : Byte) : BitVec 32 := rev (crcTable k n)

/-- `DO1`, in a register as wide as `unsigned long`. -/
def doOne {long : ℕ} (crc : BitVec long) (b : Byte) : BitVec long :=
  (crcTable 0 (crc.setWidth 8 ^^^ b)).setWidth long ^^^ crc >>> 8

/-- `DO8`. -/
def doEight {long : ℕ} (crc : BitVec long) (block : List Byte) : BitVec long :=
  times 8 1 (fun crc b => b.foldl doOne crc) crc block

/-- `DOLIT4` on the word that the bytes are for a little-endian machine. -/
def doLitWord (c : BitVec 32) : List Byte → BitVec 32
  | [b0, b1, b2, b3] => doLit4 c b0 b1 b2 b3
  | _ => c

/-- `DOLIT32`. -/
def doLit32 (c : BitVec 32) (block : List Byte) : BitVec 32 := times 8 4 doLitWord c block

/-- One byte into the reversed register. -/
def crcByteRev (c : BitVec 32) (b : Byte) : BitVec 32 :=
  crcTableRev 0 ((c >>> 24).setWidth 8 ^^^ b) ^^^ c <<< 8

/-- `DOBIG4` on the word that the bytes are for a big-endian machine. -/
def doBigWord (c : BitVec 32) : List Byte → BitVec 32
  | [b0, b1, b2, b3] =>
    let c := c ^^^ (b0 ++ b1 ++ b2 ++ b3)
    crcTableRev 0 (c.setWidth 8) ^^^ crcTableRev 1 ((c >>> 8).setWidth 8) ^^^
      crcTableRev 2 ((c >>> 16).setWidth 8) ^^^ crcTableRev 3 ((c >>> 24).setWidth 8)
  | _ => c

/-- `DOBIG32`. -/
def doBig32 (c : BitVec 32) (block : List Byte) : BitVec 32 := times 8 4 doBigWord c block

/-- The loops of both word routines: up to a boundary of words, eight words at a time, single
words and the bytes left over. -/
def wordLoops (byte : BitVec 32 → Byte → BitVec 32) (word block : BitVec 32 → List Byte → BitVec 32)
    (addr : ℕ) (c : BitVec 32) (buf : List Byte) : BitVec 32 :=
  let aligned := toBoundary 4 byte addr c buf
  let blocks := whileLen 32 block aligned.1 aligned.2
  let words := whileLen 4 word blocks.1 blocks.2
  words.2.foldl byte words.1

def crc32LittleAt {long : ℕ} (addr : ℕ) (crc : BitVec long) (buf : List Byte) : BitVec long :=
  (~~~ wordLoops crcByte doLitWord doLit32 addr (~~~ crc.setWidth 32) buf).setWidth long

def crc32BigAt {long : ℕ} (addr : ℕ) (crc : BitVec long) (buf : List Byte) : BitVec long :=
  (rev (~~~ wordLoops crcByteRev doBigWord doBig32 addr (~~~ rev (crc.setWidth 32)) buf)).setWidth
    long

def crc32Bytes {long : ℕ} (crc : BitVec long) (buf : List Byte) : BitVec long :=
  let ones := (0xffffffff#32).setWidth long
  let eights := whileLen 8 doEight (crc ^^^ ones) buf
  eights.2.foldl doOne eights.1 ^^^ ones

/-- What the choice of the routine depends on. -/
structure Machine where
  /-- The bits of an `unsigned long`. -/
  long : ℕ
  wide : 32 ≤ long
  /-- `BYFOUR`, and a pointer is as long as a `ptrdiff_t`. -/
  byFour : Bool
  /-- The first byte of the word 1 is not 0. -/
  little : Bool

/-- `crc32`, on a buffer at the address `addr`. There is no buffer when the pointer is null. -/
def crc32On (m : Machine) (addr : ℕ) (crc : BitVec m.long) : Option (List Byte) → BitVec m.long
  | none => 0#m.long
  | some buf =>
    if m.byFour then
      if m.little then crc32LittleAt addr crc buf else crc32BigAt addr crc buf
    else crc32Bytes crc buf

/-! ## The reversed register -/

section Lanes

variable (w : BitVec 32) {i : ℕ} (hi : i < 32)

include hi

theorem getLsbD_low_mask : (0xff#32).getLsbD i = decide (i < 8) := by
  revert i
  decide

theorem getLsbD_mid_mask : (0xff00#32).getLsbD i = decide (8 ≤ i ∧ i < 16) := by
  revert i
  decide

/-- The four summands of `REV` fill one byte each. -/

theorem getLsbD_lane0 : (w >>> 24).getLsbD i = (decide (i < 8) && w.getLsbD (24 + i)) := by
  rw [BitVec.getLsbD_ushiftRight]
  by_cases h : i < 8
  · simp [h]
  · simp [h, BitVec.getLsbD_of_ge w (24 + i) (by omega)]

theorem getLsbD_lane1 : (w >>> 8 &&& 0xff00#32).getLsbD i =
    (decide (8 ≤ i ∧ i < 16) && w.getLsbD (8 + i)) := by
  rw [BitVec.getLsbD_and, BitVec.getLsbD_ushiftRight, getLsbD_mid_mask hi, Bool.and_comm]

theorem getLsbD_lane2 : ((w &&& 0xff00#32) <<< 8).getLsbD i =
    (decide (16 ≤ i ∧ i < 24) && w.getLsbD (i - 8)) := by
  rw [BitVec.getLsbD_shiftLeft, BitVec.getLsbD_and, getLsbD_mid_mask (by omega)]
  by_cases h : 16 ≤ i ∧ i < 24
  · simp [h, hi, show ¬i < 8 by omega, show 8 ≤ i - 8 ∧ i - 8 < 16 by omega]
  · simp [h, show ¬(8 ≤ i - 8 ∧ i - 8 < 16) by omega]

theorem getLsbD_lane3 : ((w &&& 0xff#32) <<< 24).getLsbD i =
    (decide (24 ≤ i) && w.getLsbD (i - 24)) := by
  rw [BitVec.getLsbD_shiftLeft, BitVec.getLsbD_and, getLsbD_low_mask (by omega)]
  by_cases h : 24 ≤ i
  · simp [h, hi, show ¬i < 24 by omega, show i - 24 < 8 by omega]
  · simp [h, show i < 24 by omega]

end Lanes

theorem add_eq_or {x y : BitVec 32} (h : ∀ i < 32, (x.getLsbD i && y.getLsbD i) = false) :
    x + y = x ||| y := by
  apply BitVec.add_eq_or_of_and_eq_zero
  apply BitVec.eq_of_getLsbD_eq
  intro i hi
  rw [BitVec.getLsbD_and, h i hi, BitVec.getLsbD_zero]

theorem rev_eq_or (w : BitVec 32) : rev w = w >>> 24 ||| (w >>> 8 &&& 0xff00#32) |||
    (w &&& 0xff00#32) <<< 8 ||| (w &&& 0xff#32) <<< 24 := by
  have h01 : w >>> 24 + (w >>> 8 &&& 0xff00#32) = w >>> 24 ||| (w >>> 8 &&& 0xff00#32) := by
    apply add_eq_or
    intro i hi
    rw [getLsbD_lane0 w hi, getLsbD_lane1 w hi]
    grind
  have h012 : (w >>> 24 ||| (w >>> 8 &&& 0xff00#32)) + (w &&& 0xff00#32) <<< 8 =
      w >>> 24 ||| (w >>> 8 &&& 0xff00#32) ||| (w &&& 0xff00#32) <<< 8 := by
    apply add_eq_or
    intro i hi
    rw [BitVec.getLsbD_or, getLsbD_lane0 w hi, getLsbD_lane1 w hi, getLsbD_lane2 w hi]
    grind
  unfold rev
  rw [h01, h012]
  apply add_eq_or
  intro i hi
  rw [BitVec.getLsbD_or, BitVec.getLsbD_or, getLsbD_lane0 w hi, getLsbD_lane1 w hi,
    getLsbD_lane2 w hi, getLsbD_lane3 w hi]
  grind

theorem getLsbD_rev (w : BitVec 32) {i : ℕ} (hi : i < 32) :
    (rev w).getLsbD i = w.getLsbD (24 - 8 * (i / 8) + i % 8) := by
  rw [rev_eq_or, BitVec.getLsbD_or, BitVec.getLsbD_or, BitVec.getLsbD_or, getLsbD_lane0 w hi,
    getLsbD_lane1 w hi, getLsbD_lane2 w hi, getLsbD_lane3 w hi]
  obtain h | h | h | h : i / 8 = 0 ∨ i / 8 = 1 ∨ i / 8 = 2 ∨ i / 8 = 3 := by omega
  · have hi8 : i < 8 := by omega
    simp [hi8, show 24 - 8 * (i / 8) + i % 8 = 24 + i by omega, show ¬8 ≤ i by omega,
      show ¬16 ≤ i by omega, show ¬24 ≤ i by omega]
  · have hi16 : 8 ≤ i ∧ i < 16 := by omega
    simp [hi16, show 24 - 8 * (i / 8) + i % 8 = 8 + i by omega, show ¬i < 8 by omega,
      show ¬16 ≤ i by omega, show ¬24 ≤ i by omega]
  · have hi24 : 16 ≤ i ∧ i < 24 := by omega
    simp [hi24, show 24 - 8 * (i / 8) + i % 8 = i - 8 by omega, show ¬i < 8 by omega,
      show ¬i < 16 by omega, show ¬24 ≤ i by omega]
  · have hi32 : 24 ≤ i := by omega
    simp [hi32, show 24 - 8 * (i / 8) + i % 8 = i - 24 by omega, show ¬i < 8 by omega,
      show ¬i < 16 by omega, show ¬i < 24 by omega]

theorem rev_rev (w : BitVec 32) : rev (rev w) = w := by
  apply BitVec.eq_of_getLsbD_eq
  intro i hi
  rw [getLsbD_rev _ hi, getLsbD_rev _ (by omega),
    show 24 - 8 * ((24 - 8 * (i / 8) + i % 8) / 8) + (24 - 8 * (i / 8) + i % 8) % 8 = i by omega]

theorem rev_xor (v w : BitVec 32) : rev (v ^^^ w) = rev v ^^^ rev w := by
  apply BitVec.eq_of_getLsbD_eq
  intro i hi
  rw [getLsbD_rev _ hi, BitVec.getLsbD_xor, BitVec.getLsbD_xor, getLsbD_rev _ hi,
    getLsbD_rev _ hi]

theorem rev_not (w : BitVec 32) : rev (~~~ w) = ~~~ rev w := by
  apply BitVec.eq_of_getLsbD_eq
  intro i hi
  rw [getLsbD_rev _ hi, BitVec.getLsbD_not, BitVec.getLsbD_not, getLsbD_rev _ hi,
    decide_eq_true hi, decide_eq_true (by omega)]

/-- Byte `k` of the reversed word is byte `3 - k`. -/
theorem byte_rev (w : BitVec 32) {k : ℕ} (hk : k ≤ 3) :
    (rev w >>> (8 * k)).setWidth 8 = (w >>> (8 * (3 - k))).setWidth 8 := by
  apply BitVec.eq_of_getLsbD_eq
  intro i hi
  rw [BitVec.getLsbD_setWidth, BitVec.getLsbD_setWidth, BitVec.getLsbD_ushiftRight,
    BitVec.getLsbD_ushiftRight, getLsbD_rev _ (by omega),
    show 24 - 8 * ((8 * k + i) / 8) + (8 * k + i) % 8 = 8 * (3 - k) + i by omega]

theorem setWidth_rev (w : BitVec 32) : (rev w).setWidth 8 = (w >>> 24).setWidth 8 := by
  have h := byte_rev w (Nat.zero_le 3)
  rwa [Nat.mul_zero, BitVec.ushiftRight_zero] at h

theorem rev_ushiftRight (w : BitVec 32) : rev (rev w >>> 8) = w <<< 8 := by
  apply BitVec.eq_of_getLsbD_eq
  intro i hi
  rw [getLsbD_rev _ hi, BitVec.getLsbD_ushiftRight, BitVec.getLsbD_shiftLeft, decide_eq_true hi,
    Bool.true_and]
  by_cases h : i < 8
  · rw [BitVec.getLsbD_of_ge _ _ (by omega), decide_eq_true h, Bool.not_true, Bool.false_and]
  · rw [getLsbD_rev _ (by omega), decide_eq_false h, Bool.not_false, Bool.true_and]
    congr 1
    omega

/-- The word that four bytes are for the other kind of machine. -/
theorem rev_append (b0 b1 b2 b3 : Byte) : rev (b0 ++ b1 ++ b2 ++ b3) = b3 ++ b2 ++ b1 ++ b0 := by
  apply BitVec.eq_of_getLsbD_eq
  intro i hi
  rw [getLsbD_rev _ hi]
  simp only [BitVec.getLsbD_append]
  split_ifs <;> first | omega | exact congrArg _ (by omega)

theorem crcByteRev_eq (c : BitVec 32) (b : Byte) : crcByteRev c b = rev (crcByte (rev c) b) := by
  rw [crcByte, rev_xor, rev_ushiftRight, crcByteRev, crcTableRev, setWidth_rev]

theorem foldl_crcByteRev (c : BitVec 32) (buf : List Byte) :
    buf.foldl crcByteRev c = rev (buf.foldl crcByte (rev c)) := by
  induction buf generalizing c with
  | nil => exact (rev_rev c).symm
  | cons b buf ih => rw [List.foldl_cons, List.foldl_cons, ih, crcByteRev_eq, rev_rev]

theorem doBigWord_eq (c : BitVec 32) (b0 b1 b2 b3 : Byte) :
    doBigWord c [b0, b1, b2, b3] = rev (doLit4 (rev c) b0 b1 b2 b3) := by
  have hword : rev c ^^^ (b3 ++ b2 ++ b1 ++ b0) = rev (c ^^^ (b0 ++ b1 ++ b2 ++ b3)) := by
    rw [rev_xor, rev_append]
  have h8 := byte_rev (c ^^^ (b0 ++ b1 ++ b2 ++ b3)) (show 1 ≤ 3 by omega)
  have h16 := byte_rev (c ^^^ (b0 ++ b1 ++ b2 ++ b3)) (show 2 ≤ 3 by omega)
  have h24 := byte_rev (c ^^^ (b0 ++ b1 ++ b2 ++ b3)) (show 3 ≤ 3 by omega)
  simp only [Nat.reduceMul, Nat.reduceSub, BitVec.ushiftRight_zero] at h8 h16 h24
  have hfold : ∀ k n, rev (crcTable k n) = crcTableRev k n := fun _ _ => rfl
  simp only [doBigWord, doLit4, hword]
  rw [setWidth_rev, h8, h16, h24, rev_xor, rev_xor, rev_xor, hfold, hfold, hfold, hfold]
  -- The four tables are read in the opposite order.
  generalize crcTableRev 0 _ = t0
  generalize crcTableRev 1 _ = t1
  generalize crcTableRev 2 _ = t2
  generalize crcTableRev 3 _ = t3
  ac_rfl

/-! ## The loops -/

theorem doLitWord_unrolls : Unrolls crcByte 4 doLitWord := by
  intro c block hlen
  match block, hlen with
  | [b0, b1, b2, b3], _ => exact doLit4_eq c b0 b1 b2 b3

theorem doBigWord_unrolls : Unrolls crcByteRev 4 doBigWord := by
  intro c block hlen
  match block, hlen with
  | [b0, b1, b2, b3], _ =>
    rw [doBigWord_eq, doLit4_eq, foldl_crcByteRev]
    rfl

theorem doLit32_unrolls : Unrolls crcByte 32 doLit32 := times_unrolls doLitWord_unrolls 8

theorem doBig32_unrolls : Unrolls crcByteRev 32 doBig32 := times_unrolls doBigWord_unrolls 8

theorem wordLoops_eq {byte : BitVec 32 → Byte → BitVec 32}
    {word block : BitVec 32 → List Byte → BitVec 32} (hword : Unrolls byte 4 word)
    (hblock : Unrolls byte 32 block) (addr : ℕ) (c : BitVec 32) (buf : List Byte) :
    wordLoops byte word block addr c buf = buf.foldl byte c :=
  ((toBoundary_resumes 4 byte addr c buf).trans (whileLen_resumes hblock _ _)).trans
    (whileLen_resumes hword _ _)

theorem crc32LittleAt_eq {long : ℕ} (addr : ℕ) (crc : BitVec long) (buf : List Byte) :
    crc32LittleAt addr crc buf = (crc32 (crc.setWidth 32) buf).setWidth long := by
  rw [crc32LittleAt, wordLoops_eq doLitWord_unrolls doLit32_unrolls, crc32,
    crc32Little, crcWords_eq]

theorem crc32BigAt_eq {long : ℕ} (addr : ℕ) (crc : BitVec long) (buf : List Byte) :
    crc32BigAt addr crc buf = (crc32 (crc.setWidth 32) buf).setWidth long := by
  rw [crc32BigAt, wordLoops_eq doBigWord_unrolls doBig32_unrolls,
    foldl_crcByteRev, rev_not, rev_rev, rev_not, rev_rev, crc32, crc32Little, crcWords_eq]

section Bytes

variable {long : ℕ} (hlong : 32 ≤ long)

include hlong

/-- A wide register holds 32 bits of it and zeros. -/
theorem doOne_setWidth (c : BitVec 32) (b : Byte) :
    doOne (c.setWidth long) b = (crcByte c b).setWidth long := by
  have hshift : c.setWidth long >>> 8 = (c >>> 8).setWidth long :=
    (BitVec.setWidth_ushiftRight hlong).symm
  rw [doOne, BitVec.setWidth_setWidth_of_le c (by omega), hshift, crcByte, BitVec.setWidth_xor]

theorem foldl_doOne (c : BitVec 32) (buf : List Byte) :
    buf.foldl doOne (c.setWidth long) = (buf.foldl crcByte c).setWidth long := by
  induction buf generalizing c with
  | nil => rfl
  | cons b buf ih => rw [List.foldl_cons, List.foldl_cons, doOne_setWidth hlong, ih]

theorem crc32Bytes_eq (crc : BitVec 32) (buf : List Byte) :
    crc32Bytes (crc.setWidth long) buf = (crc32 crc buf).setWidth long := by
  have hone : Unrolls (@doOne long) 1 fun crc b => b.foldl doOne crc := fun _ _ _ => rfl
  have height : Unrolls (@doOne long) 8 doEight := times_unrolls hone 8
  have hnot : ∀ c : BitVec 32, c.setWidth long ^^^ (0xffffffff#32).setWidth long =
      (~~~ c).setWidth long := by
    intro c
    rw [← BitVec.setWidth_xor]
    congr 1
    exact BitVec.xor_allOnes
  have hloops : ∀ c : BitVec long, (whileLen 8 doEight c buf).2.foldl doOne
      (whileLen 8 doEight c buf).1 = buf.foldl doOne c :=
    fun c => whileLen_resumes height c buf
  rw [crc32Bytes, hloops, hnot, foldl_doOne hlong, hnot, crc32, crc32Little, crcWords_eq]

end Bytes

end Sysbench.Fileio
