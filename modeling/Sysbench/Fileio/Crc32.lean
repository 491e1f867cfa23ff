import Sysbench.Machine.Bytes

/-! # CRC-32

The little-endian routine of the vendored `crc32.c`. The tables in `crc32tbl.h` are
the ones `make_crc_table` computes.
-/
namespace Sysbench.Fileio

open Bytes

/-- The terms of the polynomial (except x^32). -/
def crcTerms : List ℕ := [0, 1, 2, 4, 5, 7, 8, 10, 11, 12, 16, 22, 23, 26]

/-- The exclusive-or pattern of the polynomial. -/
def crcPoly : BitVec 32 := crcTerms.foldl (fun poly p => poly ||| 1#32 <<< (31 - p)) 0

def crcBit (c : BitVec 32) : BitVec 32 := if c.getLsbD 0 then crcPoly ^^^ c >>> 1 else c >>> 1

def crcTable0 (n : Byte) : BitVec 32 := crcBit^[8] (n.setWidth 32)

def crcTable : ℕ → Byte → BitVec 32
  | 0, n => crcTable0 n
  | k + 1, n => crcTable0 ((crcTable k n).setWidth 8) ^^^ crcTable k n >>> 8

def crcByte (c : BitVec 32) (b : Byte) : BitVec 32 :=
  crcTable 0 (c.setWidth 8 ^^^ b) ^^^ c >>> 8

/-- `DOLIT4`: four bytes, loaded as one word. -/
def doLit4 (c : BitVec 32) (b0 b1 b2 b3 : Byte) : BitVec 32 :=
  let c := c ^^^ (b3 ++ b2 ++ b1 ++ b0)
  crcTable 3 (c.setWidth 8) ^^^ crcTable 2 ((c >>> 8).setWidth 8) ^^^
    crcTable 1 ((c >>> 16).setWidth 8) ^^^ crcTable 0 ((c >>> 24).setWidth 8)

/-- The loops over words, eight at a time and then one at a time, and the bytes left over. -/
def crcWords (c : BitVec 32) : List Byte → BitVec 32
  | b0 :: b1 :: b2 :: b3 :: buf => crcWords (doLit4 c b0 b1 b2 b3) buf
  | buf => buf.foldl crcByte c

/-- `crc32_little` on a buffer that is aligned to words, as the thread buffers are. -/
def crc32Little (crc : BitVec 32) (buf : List Byte) : BitVec 32 := ~~~ crcWords (~~~ crc) buf

def crc32 (crc : BitVec 32) (buf : List Byte) : BitVec 32 := crc32Little crc buf

end Sysbench.Fileio
