import Sysbench.Fileio.Prepare
import Sysbench.Fileio.Random
import Sysbench.Fileio.SequentialBounds

/-! # Which reads of the prepared files validate

`prepare` puts one checksum and offset into every block of a file, and a READ is
validated as if it were one such block. A READ of exactly one block passes. Any other
READ ends with the offset of a block that starts elsewhere, or in the middle of a
block, where some random byte stands in place of a field.
-/
namespace Sysbench.Fileio

open Bytes Runs Words

/-- `pread` when it delivers all of the bytes asked for. -/
def filePread (file : List Byte) (size pos : ℤ) : Option (List Byte) :=
  if 0 ≤ size ∧ 0 ≤ pos ∧ pos + size ≤ file.length then
    some ((file.drop pos.toNat).take size.toNat)
  else none

/-- Whatever the buffer held before, a READ that delivers its bytes passes. -/
def ReadPasses (c : Config) (file : List Byte) (r : FileRequest) : Prop :=
  ∀ buf bytes : List Byte, buf.length = bufferCapacity c →
    filePread file r.size r.pos = some bytes →
    fileValidateBuffer (bytes ++ buf.drop bytes.length) (toUInt 32 r.size) (toUInt 64 r.pos) =
      some (.ok ())

/-- The files that `prepare` creates from scratch when all bytes are stored. -/
def Created (g : Globals) (o : Options) (c : Config) (files : ℕ → List Byte) : Prop :=
  ∃ buffer env, (∀ i, ∀ w ∈ (env i).writes, w = c.fileBlockSize) ∧
    fileCmdPrepare buffer { g with command := .prepare } o env (fun _ => []) = some (.ok files)

/-- Every READ of a run that lies inside its file passes. -/
def ReadsValidate (g : Globals) (o : Options) (c : Config) : Prop :=
  ∀ files, Created g o c files →
    ∀ perThread calls s, run (callStep c) (initVars perThread) calls = some s →
      ∀ r, .file r ∈ requests calls → r.operation = .read → InFile c r →
        ReadPasses c (files r.fileId) r

variable {c : Config}

/-! ## The bytes that are compared -/

/-- The bytes of the file that a READ puts into the buffer. -/
theorem getElem?_read {file rest : List Byte} {pos size x : ℕ} (hend : pos + size ≤ file.length)
    (hx : x < size) : ((file.drop pos).take size ++ rest)[x]? = file[pos + x]? := by
  have hlen : ((file.drop pos).take size).length = size := by
    rw [List.length_take, List.length_drop]
    omega
  rw [List.getElem?_append_left (by omega), getElem?_slice, if_pos hx]

theorem slice_read {file : List Byte} (rest : List Byte) {pos size : ℕ} (start n : ℕ)
    (hend : pos + size ≤ file.length) (hn : start + n ≤ size) :
    ((((file.drop pos).take size ++ rest).drop start).take n) =
      (file.drop (pos + start)).take n := by
  apply List.ext_getElem?
  intro i
  rw [getElem?_slice, getElem?_slice]
  split_ifs with hi
  · rw [getElem?_read hend (by omega), add_assoc]
  · rfl

/-- A READ of at least twelve bytes passes when the file holds the checksum of the bytes
before the last twelve, and the position, where the fields are looked for. -/
theorem readPasses_iff {file : List Byte} {r : FileRequest} (h12 : 12 ≤ r.size)
    (hsize : r.size < 2 ^ 31) (hpos : 0 ≤ r.pos) (hpos' : r.pos < 2 ^ 63)
    (hend : r.pos + r.size ≤ file.length) :
    ReadPasses c file r ↔
      (crc32 0 ((file.drop r.pos.toNat).take (r.size.toNat - 12))).toNat =
          leValue ((file.drop (r.pos.toNat + (r.size.toNat - 12))).take 4) ∧
        r.pos.toNat = leValue ((file.drop (r.pos.toNat + (r.size.toNat - 8))).take 8) := by
  have hread : filePread file r.size r.pos =
      some ((file.drop r.pos.toNat).take r.size.toNat) := if_pos ⟨by omega, hpos, hend⟩
  have hlen : ((file.drop r.pos.toNat).take r.size.toNat).length = r.size.toNat := by
    rw [List.length_take, List.length_drop]
    omega
  have hend' : r.pos.toNat + r.size.toNat ≤ file.length := by omega
  have hpay : payloadLength (toUInt 32 r.size) = r.size.toNat - 12 := by
    rw [toUInt_of_range (by omega) (by omega)]
    exact payloadLength_eq (by omega) (by omega)
  have hcheck : ∀ buf : List Byte,
      fileValidateBuffer ((file.drop r.pos.toNat).take r.size.toNat ++ buf.drop r.size.toNat)
        (toUInt 32 r.size) (toUInt 64 r.pos) = some (.ok ()) ↔
      (crc32 0 ((file.drop r.pos.toNat).take (r.size.toNat - 12))).toNat =
          leValue ((file.drop (r.pos.toNat + (r.size.toNat - 12))).take 4) ∧
        r.pos.toNat = leValue ((file.drop (r.pos.toNat + (r.size.toNat - 8))).take 8) := by
    intro buf
    have hfront := slice_read (buf.drop r.size.toNat) 0 (r.size.toNat - 12) hend' (by omega)
    rw [List.drop_zero, add_zero] at hfront
    have h8 : r.size.toNat - 12 + fileChecksumLength = r.size.toNat - 8 := by
      simp only [fileChecksumLength]
      omega
    rw [fileValidateBuffer_eq_ok, hpay, storedChecksum, storedOffset, h8, hfront,
      slice_read _ _ _ hend' (by simp only [fileChecksumLength]; omega),
      slice_read _ _ _ hend' (by simp only [fileOffsetLength]; omega),
      toUInt_of_range hpos (by omega), fileChecksumLength, fileOffsetLength]
    refine and_iff_right ?_
    rw [List.length_append, hlen]
    omega
  constructor
  · intro h
    have hok := h (List.replicate (bufferCapacity c) 0) _ List.length_replicate hread
    rw [hlen] at hok
    exact (hcheck _).mp hok
  · intro h buf bytes _ hbytes
    rw [hread, Option.some.injEq] at hbytes
    subst hbytes
    rw [hlen]
    exact (hcheck buf).mpr h

/-- If two files pass for the same READ and agree up to one of the last twelve bytes,
they agree on this byte: what stands there is computed from the bytes before. -/
theorem readPasses_same_byte {file file' : List Byte} {r : FileRequest} (h12 : 12 ≤ r.size)
    (hsize : r.size < 2 ^ 31) (hpos : 0 ≤ r.pos) (hpos' : r.pos < 2 ^ 63)
    (hend : r.pos + r.size ≤ file.length) (hend' : r.pos + r.size ≤ file'.length)
    (h : ReadPasses c file r) (h' : ReadPasses c file' r) {d : ℕ}
    (hbefore : ∀ x < d, file[x]? = file'[x]?) (hlo : r.pos + r.size ≤ d + 12)
    (hhi : d < r.pos + r.size) : file[d]? = file'[d]? := by
  obtain ⟨hcheck, hoff⟩ := (readPasses_iff h12 hsize hpos hpos' hend).mp h
  obtain ⟨hcheck', hoff'⟩ := (readPasses_iff h12 hsize hpos hpos' hend').mp h'
  have hfront : (file.drop r.pos.toNat).take (r.size.toNat - 12) =
      (file'.drop r.pos.toNat).take (r.size.toNat - 12) := by
    apply List.ext_getElem?
    intro i
    rw [getElem?_slice, getElem?_slice]
    split_ifs
    · exact hbefore _ (by omega)
    · rfl
  -- a field that stores the same number in both files agrees byte for byte
  have hfield : ∀ start n : ℕ, start + n ≤ r.pos.toNat + r.size.toNat →
      leValue ((file.drop start).take n) = leValue ((file'.drop start).take n) →
      start ≤ d → d < start + n → file[d]? = file'[d]? := by
    intro start n hn hval hd hd'
    have hlen : ((file.drop start).take n).length = ((file'.drop start).take n).length := by
      rw [List.length_take, List.length_take, List.length_drop, List.length_drop]
      omega
    have hget := congrArg (fun l : List Byte => l[d - start]?) (leValue_injective hlen hval)
    simp only [getElem?_slice, if_pos (show d - start < n by omega)] at hget
    rwa [Nat.add_sub_cancel' hd] at hget
  by_cases hsplit : d < r.pos.toNat + (r.size.toNat - 8)
  · refine hfield (r.pos.toNat + (r.size.toNat - 12)) 4 (by omega) ?_ (by omega) (by omega)
    rw [← hcheck, ← hcheck', hfront]
  · refine hfield (r.pos.toNat + (r.size.toNat - 8)) 8 (by omega) ?_ (by omega) (by omega)
    rw [← hoff, ← hoff']

/-- Where a READ that ends inside a block meets a random byte: `d` is the last one among
the bytes it compares. -/
theorem exists_random_byte {b e : ℕ} (hb : 12 < b) (hdvd : ¬ b ∣ e) :
    ∃ k i, i < b - 12 ∧ k * b + i < e ∧ e ≤ k * b + i + 12 := by
  have hmod := Nat.div_add_mod e b
  rw [mul_comm] at hmod
  have hlt := Nat.mod_lt e (show 0 < b by omega)
  have hpos : 0 < e % b := Nat.pos_of_ne_zero fun h => hdvd (Nat.dvd_of_mod_eq_zero h)
  by_cases hin : e % b ≤ b - 12
  · exact ⟨e / b, e % b - 1, by omega, by omega, by omega⟩
  · exact ⟨e / b, b - 13, by omega, by omega, by omega⟩

/-! ## The prepared files -/

section Prepared

variable {g : Globals} {o : Options} (hp : parseArguments g o = .ok c)
  (hval : c.validate = true) (h12 : 12 ≤ c.fileBlockSize)

include hp

/-- A READ too short for the two fields makes the validation leave the buffer. -/
theorem not_readPasses_short {file : List Byte} {r : FileRequest} (hpos : 0 ≤ r.pos)
    (h0 : 0 ≤ r.size) (hlt : r.size < 12) (hend : r.pos + r.size ≤ file.length) :
    ¬ ReadPasses c file r := by
  intro h
  have hcap : bufferCapacity c < 2 ^ 31 := by
    have := (parseArguments_ok hp).maxRequestSize_range.2
    rw [bufferCapacity]
    omega
  have hread : filePread file r.size r.pos =
      some ((file.drop r.pos.toNat).take r.size.toNat) := if_pos ⟨h0, hpos, hend⟩
  have hok := (fileValidateBuffer_eq_ok.mp
    (h (List.replicate (bufferCapacity c) 0) _ List.length_replicate hread)).1
  have hsize : toUInt 32 r.size = r.size.toNat := toUInt_of_range h0 (by omega)
  rw [hsize, payloadLength_of_lt (by omega), List.length_append, List.length_drop,
    List.length_replicate, List.length_take] at hok
  omega

include hval h12

/-- Every created file is made of whole blocks and holds the whole of its size. -/
theorem Created.blocks {files : ℕ → List Byte} (h : Created g o c files) {i : ℕ}
    (hi : i < c.numFiles) : ∃ rnd n, files i = blocks (fileBlock c rnd) n ∧
      c.fileSize ≤ n * c.fileBlockSize ∧
      (0 < c.fileSize → c.fileBlockSize ≤ c.fileMaxRequestSize) := by
  obtain ⟨buffer, env, hfull, hcreate⟩ := h
  rw [fileCmdPrepare_eq hp, createFiles] at hcreate
  have hfile := (createFilesFrom_ok List.nodup_range hcreate).1 i (List.mem_range.mpr hi)
  rw [createFile] at hfile
  by_cases hopen : (env i).opens = true
  · rw [if_pos hopen] at hfile
    have hwrite : writeBlocks c buffer (env i).rnd (env i).writes ((0 : ℕ) * c.fileBlockSize)
        (Bytes.blocks (fileBlock c (env i).rnd) 0) = some (.ok (files i)) := by
      simpa using hfile
    obtain ⟨hblocks, hend, hfit⟩ :=
      writeBlocks_full hval h12 ((parseArguments_ok hp).fileBlockSize_lt) (hfull i) hwrite
    rw [Nat.zero_add] at hblocks hend
    refine ⟨_, _, hblocks, hend, fun hpos => hfit ?_⟩
    intro hnil
    rw [hnil] at hend
    simp at hend
    omega
  · rw [if_neg hopen] at hfile
    cases hfile

theorem Created.le_length {files : ℕ → List Byte} (h : Created g o c files) {i : ℕ}
    (hi : i < c.numFiles) : c.fileSize ≤ (files i).length := by
  obtain ⟨rnd, n, hfile, hend, -⟩ := h.blocks hp hval h12 hi
  have hlen : ((files i).length : ℤ) = n * c.fileBlockSize := by
    rw [hfile, length_blocks fun k _ => length_fileBlock h12 rnd k]
    push_cast
    rw [Int.toNat_of_nonneg (by omega)]
  omega

/-- Any random bytes can end up in the files. -/
theorem exists_created (hfit : 0 < c.fileSize → c.fileBlockSize ≤ c.fileMaxRequestSize)
    (rnd : ℤ → ℕ → Draw) : ∃ files n, Created g o c files ∧
      c.fileSize ≤ (n : ℕ) * c.fileBlockSize ∧
      ∀ i < c.numFiles, files i = Bytes.blocks (fileBlock c rnd) n := by
  have hfs := (parseArguments_ok hp).fileSize_nonneg
  -- the least number of blocks that holds the file
  obtain ⟨n, hmore, hend⟩ : ∃ n : ℕ, (∀ j < n, (j : ℤ) * c.fileBlockSize < c.fileSize) ∧
      c.fileSize ≤ n * c.fileBlockSize := by
    have hex : ∃ n : ℕ, c.fileSize ≤ n * c.fileBlockSize :=
      ⟨c.fileSize.toNat, by nlinarith [Int.toNat_of_nonneg hfs]⟩
    exact ⟨Nat.find hex, fun j hj => not_le.mp (Nat.find_min hex hj), Nat.find_spec hex⟩
  have hwrite : ∀ i ∈ List.range c.numFiles,
      createFile c [] ⟨true, List.replicate n c.fileBlockSize, rnd⟩ [] =
        some (.ok (Bytes.blocks (fileBlock c rnd) n)) := by
    intro i _
    rw [createFile, if_pos rfl]
    by_cases hz : n = 0
    · subst hz
      rw [List.replicate_zero, writeBlocks, if_neg]
      · rfl
      · simpa using hend
    · have hpos : 0 < c.fileSize := by simpa using hmore 0 (Nat.pos_of_ne_zero hz)
      have hloop : writeBlocks c [] rnd (List.replicate n c.fileBlockSize)
          ((0 : ℕ) * c.fileBlockSize) (Bytes.blocks (fileBlock c rnd) 0) =
            some (.ok (Bytes.blocks (fileBlock c rnd) (0 + n))) :=
        writeBlocks_replicate hval h12 (parseArguments_ok hp).fileBlockSize_lt (hfit hpos)
          (by simpa using hmore) (by simpa using hend)
      simpa using hloop
  obtain ⟨files, hcreate, hall⟩ : ∃ files, createFilesFrom c []
      (fun _ => ⟨true, List.replicate n c.fileBlockSize, rnd⟩) (List.range c.numFiles)
      (fun _ => []) = some (.ok files) ∧
        ∀ i ∈ List.range c.numFiles, files i = Bytes.blocks (fileBlock c rnd) n :=
    createFilesFrom_of_createFile List.nodup_range hwrite
  refine ⟨files, n, ⟨[], fun _ => ⟨true, List.replicate n c.fileBlockSize, rnd⟩, ?_, ?_⟩, hend, ?_⟩
  · intro i w hw
    exact List.eq_of_mem_replicate hw
  · rw [fileCmdPrepare_eq hp]
    exact hcreate
  · exact fun i hi => hall i (List.mem_range.mpr hi)

theorem readPasses_block {files : ℕ → List Byte} (h : Created g o c files) {r : FileRequest}
    (hin : InFile c r) (hsize : r.size = c.fileBlockSize) (hdvd : c.fileBlockSize ∣ r.pos) :
    ReadPasses c (files r.fileId) r := by
  obtain ⟨rnd, n, hfile, hend, -⟩ := h.blocks hp hval h12 hin.fileId
  have hlt := (parseArguments_ok hp).fileBlockSize_lt
  have hpos := hin.pos
  have hfits := hin.fits
  obtain ⟨j, hj⟩ : ∃ j : ℕ, r.pos = j * c.fileBlockSize := by
    obtain ⟨j, hj⟩ := hdvd
    have hj0 : 0 ≤ j := by
      by_contra hneg
      nlinarith
    exact ⟨j.toNat, by rw [hj, Int.toNat_of_nonneg hj0, mul_comm]⟩
  have hjn : j < n := by
    have : (j : ℤ) * c.fileBlockSize < n * c.fileBlockSize := by omega
    exact_mod_cast lt_of_mul_lt_mul_right this (by omega)
  have hlen : ∀ k < n, (fileBlock c rnd k).length = c.fileBlockSize.toNat :=
    fun k _ => length_fileBlock h12 rnd k
  have hstart : r.pos.toNat = j * c.fileBlockSize.toNat := by
    rw [hj, Int.toNat_mul (by omega) (by omega), Int.toNat_natCast]
  have hread : (((files r.fileId).drop r.pos.toNat).take r.size.toNat) = fileBlock c rnd j := by
    rw [hfile, hstart, hsize]
    exact whole_block hlen hjn
  have hsize32 : toUInt 32 r.size = c.fileBlockSize.toNat := by
    rw [hsize]
    exact toUInt_of_range (by omega) (by omega)
  have hpay : payloadLength c.fileBlockSize.toNat = c.fileBlockSize.toNat - 12 :=
    payloadLength_eq (by omega) (by omega)
  intro buf bytes _ hbytes
  unfold filePread at hbytes
  split_ifs at hbytes
  cases hbytes
  rw [hread, hsize32]
  have hfill : fileFillBuffer (payloadLength c.fileBlockSize.toNat + 12)
      (rnd (j * c.fileBlockSize)) c.fileBlockSize.toNat (toUInt 64 r.pos) =
        some (fileBlock c rnd j) := by
    rw [fileFillBuffer_eq_some, hpay, hj]
    exact ⟨⟨(fillBound_lt_iff (by omega)).mpr (by omega), le_rfl⟩, rfl⟩
  exact fileValidateBuffer_fill (toUInt_lt 64 _) hfill

/-- A READ that ends with a block passes only if it is that block. -/
theorem block_of_readPasses_aligned {files : ℕ → List Byte} (h : Created g o c files)
    {r : FileRequest} (hin : InFile c r) (hsize : 12 ≤ r.size) (hsize' : r.size < 2 ^ 31)
    (hpass : ReadPasses c (files r.fileId) r) (hdvd : c.fileBlockSize ∣ r.pos + r.size) :
    r.size = c.fileBlockSize ∧ c.fileBlockSize ∣ r.pos := by
  obtain ⟨rnd, n, hfile, hend, -⟩ := h.blocks hp hval h12 hin.fileId
  have hlt := (parseArguments_ok hp).typed.fileSize_lt
  have hpos := hin.pos
  have hfits := hin.fits
  have hlen := h.le_length hp hval h12 hin.fileId
  obtain ⟨j, hj⟩ : ∃ j : ℕ, r.pos + r.size = (j + 1) * c.fileBlockSize := by
    obtain ⟨q, hq⟩ := hdvd
    have hq1 : 1 ≤ q := by
      by_contra hneg
      nlinarith
    refine ⟨(q - 1).toNat, ?_⟩
    rw [hq, Int.toNat_of_nonneg (by omega)]
    ring
  have hjn : j < n := by
    have hle : ((j : ℤ) + 1) * c.fileBlockSize ≤ n * c.fileBlockSize := by omega
    have := le_of_mul_le_mul_right hle (by omega)
    omega
  have hstart : r.pos.toNat + (r.size.toNat - 8) =
      j * c.fileBlockSize.toNat + (c.fileBlockSize.toNat - 8) := by
    have hb : ((j * c.fileBlockSize.toNat : ℕ) : ℤ) = j * c.fileBlockSize := by
      push_cast
      rw [Int.toNat_of_nonneg (by omega)]
    have hj' : r.pos + r.size = j * c.fileBlockSize + c.fileBlockSize := by
      rw [hj]
      ring
    omega
  have hoff := ((readPasses_iff hsize hsize' hpos (by omega) (by omega)).mp hpass).2
  have hj0 : 0 ≤ (j : ℤ) * c.fileBlockSize := by positivity
  have hjlt : (j : ℤ) * c.fileBlockSize < 2 ^ 63 := by linarith
  rw [hfile, hstart, offset_of_block h12 hjn, leValue_leBytes (toUInt_lt 64 _),
    toUInt_of_range hj0 (by omega)] at hoff
  have hpos' : r.pos = j * c.fileBlockSize := by omega
  exact ⟨by linarith, ⟨j, by rw [hpos', mul_comm]⟩⟩

/-- A READ that ends inside a block fails for some random bytes. -/
theorem exists_not_readPasses_unaligned (hb : 12 < c.fileBlockSize)
    (hfit : 0 < c.fileSize → c.fileBlockSize ≤ c.fileMaxRequestSize)
    {r : FileRequest} (hin : InFile c r) (hsize : 12 ≤ r.size) (hsize' : r.size < 2 ^ 31)
    (hdvd : ¬ c.fileBlockSize ∣ r.pos + r.size) :
    ∃ files, Created g o c files ∧ ¬ ReadPasses c (files r.fileId) r := by
  by_contra hall
  have hpass : ∀ files, Created g o c files → ReadPasses c (files r.fileId) r := by
    intro files hfiles
    by_contra hno
    exact hall ⟨files, hfiles, hno⟩
  have hlt := (parseArguments_ok hp).typed.fileSize_lt
  have hpos := hin.pos
  have hfits := hin.fits
  have hdvd' : ¬ c.fileBlockSize.toNat ∣ (r.pos + r.size).toNat := by
    rw [← Int.natCast_dvd_natCast, Int.toNat_of_nonneg (by omega), Int.toNat_of_nonneg (by omega)]
    exact hdvd
  obtain ⟨k, i, hi, hdlt, hdle⟩ := exists_random_byte (by omega) hdvd'
  -- two fills that differ in one random byte
  let rnd : Draw → ℤ → ℕ → Draw := fun v offset x =>
    if offset = k * c.fileBlockSize ∧ x = i then v else ⟨0, by decide⟩
  have hfile : ∀ v, ∃ file n, ReadPasses c file r ∧ r.pos + r.size ≤ file.length ∧
      k * c.fileBlockSize.toNat + i < file.length ∧
      file = Bytes.blocks (fileBlock c (rnd v)) n ∧ file.length = n * c.fileBlockSize.toNat := by
    intro v
    obtain ⟨files, n, hcreated, hend, hblocks⟩ := exists_created hp hval h12 hfit (rnd v)
    have hlen : (files r.fileId).length = n * c.fileBlockSize.toNat := by
      rw [hblocks _ hin.fileId]
      exact length_blocks fun j _ => length_fileBlock h12 _ j
    have hlen' : ((files r.fileId).length : ℤ) = n * c.fileBlockSize := by
      rw [hlen]
      push_cast
      rw [Int.toNat_of_nonneg (by omega)]
    exact ⟨files r.fileId, n, hpass files hcreated, by omega, by omega, hblocks _ hin.fileId, hlen⟩
  obtain ⟨file, n, hpass₀, hend₀, hd₀, hfile₀, hlen₀⟩ := hfile ⟨0, by decide⟩
  obtain ⟨file', n', hpass₁, hend₁, hd₁, hfile₁, hlen₁⟩ := hfile ⟨1, by decide⟩
  have hbytes : ∀ {n j : ℕ} {v : Draw}, j < n → ∀ {x}, x < c.fileBlockSize.toNat →
      (Bytes.blocks (fileBlock c (rnd v)) n)[j * c.fileBlockSize.toNat + x]? =
        (fileBlock c (rnd v) j)[x]? :=
    fun hj _ hx => getElem?_blocks (fun j _ => length_fileBlock h12 _ j) hj hx
  have hsame := readPasses_same_byte hsize hsize' hpos (by omega) hend₀ hend₁ hpass₀ hpass₁
    (d := k * c.fileBlockSize.toNat + i) ?_ (by omega) (by omega)
  · have hk : ∀ {n}, k * c.fileBlockSize.toNat + i < n * c.fileBlockSize.toNat → k < n := by
      intro n hlt
      by_contra hge
      have := Nat.mul_le_mul_right c.fileBlockSize.toNat (not_lt.mp hge)
      omega
    rw [hfile₀, hfile₁, hbytes (hk (hlen₀ ▸ hd₀)) (by omega), hbytes (hk (hlen₁ ▸ hd₁)) (by omega),
      getElem?_fileBlock hi, getElem?_fileBlock hi] at hsame
    simp [rnd] at hsame
  · -- the bytes before come from the same random values
    intro x hx
    have hB : 0 < c.fileBlockSize.toNat := by omega
    obtain ⟨j, e, he, rfl⟩ : ∃ j e, e < c.fileBlockSize.toNat ∧
        x = j * c.fileBlockSize.toNat + e :=
      ⟨x / c.fileBlockSize.toNat, x % c.fileBlockSize.toNat, Nat.mod_lt _ hB, by
        rw [mul_comm]
        exact (Nat.div_add_mod _ _).symm⟩
    have hjn : ∀ {n}, k * c.fileBlockSize.toNat + i < n * c.fileBlockSize.toNat → j < n := by
      intro n hlt
      by_contra hge
      have := Nat.mul_le_mul_right c.fileBlockSize.toNat (not_lt.mp hge)
      omega
    rw [hfile₀, hfile₁, hbytes (hjn (hlen₀ ▸ hd₀)) he, hbytes (hjn (hlen₁ ▸ hd₁)) he]
    by_cases hjk : j = k
    · subst hjk
      rw [getElem?_fileBlock (by omega), getElem?_fileBlock (by omega)]
      have hei : e ≠ i := by omega
      simp [rnd, hei]
    · have hne : (j : ℤ) * c.fileBlockSize ≠ k * c.fileBlockSize := by
        intro heq
        exact hjk (by exact_mod_cast mul_right_cancel₀ (by omega) heq)
      simp [fileBlock, rnd, hne]

end Prepared

end Sysbench.Fileio
