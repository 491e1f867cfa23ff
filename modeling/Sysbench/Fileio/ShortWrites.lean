import Sysbench.Fileio.Validation
import Sysbench.Machine.Pieces

/-! # Short writes while the files are created

The loop of `create_files` counts the bytes that it wants to write. A call of `write` may store
fewer of them, and a file that is there already may have any length.
-/
namespace Sysbench.Fileio

open Bytes Pieces Words

/-- What is promised of a file: it is long enough, and in the validation mode each block of the part
that has been written passes for its own offset. -/
structure FileCreated (c : Config) (file file' : List Byte) : Prop where
  long : c.fileSize ≤ file'.length
  valid : c.validate = true → ∀ m : ℕ, file.length ≤ m * c.fileBlockSize.toNat →
    (m + 1) * c.fileBlockSize.toNat ≤ file'.length →
    fileValidateBuffer ((file'.drop (m * c.fileBlockSize.toNat)).take c.fileBlockSize.toNat)
      (toUInt 32 c.fileBlockSize) (toUInt 64 (m * c.fileBlockSize.toNat : ℕ)) = some (.ok ())

/-- A block without a random byte: the checksum of nothing, which is zero, and the offset. -/
def twelveBytes (offset : ℕ) : List Byte := leBytes 4 0 ++ leBytes 8 (toUInt 64 offset)

/-- The sizes add up to what the file lacks. In the validation mode no block is complete in the part
that has been written, or the blocks begin where the file ends and as many writes as there are
complete blocks have stored the whole of theirs. Blocks without a random byte can also be put
together from pieces of others. -/
structure EnoughWritten (c : Config) (len : ℕ) (sizes : List ℕ) : Prop where
  long : c.fileSize ≤ (len + sizes.sum : ℕ)
  whole : c.validate = true → c.fileBlockSize ≠ 12 →
    (∀ m, len ≤ m * c.fileBlockSize.toNat →
      len + sizes.sum < (m + 1) * c.fileBlockSize.toNat) ∨
    c.fileBlockSize.toNat ∣ len ∧
      ∀ n ∈ sizes.take (sizes.sum / c.fileBlockSize.toNat), n = c.fileBlockSize.toNat
  joined : c.validate = true → c.fileBlockSize = 12 →
    ∀ m, len ≤ m * 12 → (m + 1) * 12 ≤ len + sizes.sum →
      ((pieces 12 twelveBytes sizes len).drop (m * 12 - len)).take 12 = twelveBytes (m * 12)

def Creation.sizes (e : Creation) : List ℕ := e.writes.map Int.toNat

/-- The same results of the calls with other random numbers. -/
def withRnd (env : ℕ → Creation) (rnd : ℕ → ℤ → ℕ → Draw) : ℕ → Creation :=
  fun i => { env i with rnd := rnd i }

/-- A block can be put into the buffer. -/
def FitsBuffer (c : Config) : Prop :=
  if c.validate then
    fillBound (toUInt 32 c.fileBlockSize) < 2 ^ 32 ∧
      fillBound (toUInt 32 c.fileBlockSize) + (fileChecksumLength + fileOffsetLength) ≤
        bufferCapacity c
  else c.fileBlockSize ≤ bufferCapacity c

def offered (c : Config) (buffer : List Byte) (rnd : ℤ → ℕ → Draw) (offset : ℕ) : List Byte :=
  if c.validate then blockBytes c (rnd offset) offset else buffer.take c.fileBlockSize.toNat

/-- The loop ends without an error after these results of `write`. -/
def LoopsThrough (c : Config) : List ℤ → ℕ → Prop
  | [], offset => c.fileSize ≤ offset
  | written :: writes, offset =>
    offset < c.fileSize ∧ FitsBuffer c ∧ 0 ≤ written ∧
      LoopsThrough c writes (offset + c.fileBlockSize.toNat)

variable {c : Config} {buffer : List Byte} {rnd : ℤ → ℕ → Draw} {offset : ℕ}

/-! ## The loop -/

section Loop

variable {g : Globals} {o : Options} (hp : parseArguments g o = .ok c)

include hp

theorem toNat_fileBlockSize : (c.fileBlockSize.toNat : ℤ) = c.fileBlockSize :=
  Int.toNat_of_nonneg (parseArguments_ok hp).fileBlockSize_pos.le

/-- A block without room for the two fields does not fit. -/
theorem FitsBuffer.twelve_le (hfits : FitsBuffer c) (hval : c.validate = true) :
    12 ≤ c.fileBlockSize := by
  have hpos := (parseArguments_ok hp).fileBlockSize_pos
  have hlt := (parseArguments_ok hp).fileBlockSize_lt
  rw [FitsBuffer, if_pos hval, toUInt_of_range hpos.le (by omega), fillBound_lt_iff (by omega)] at hfits
  omega

theorem FitsBuffer.le_capacity (hfits : FitsBuffer c) : c.fileBlockSize ≤ bufferCapacity c := by
  by_cases hval : c.validate = true
  · have h12 := hfits.twelve_le hp hval
    have hlt := (parseArguments_ok hp).fileBlockSize_lt
    rw [FitsBuffer, if_pos hval, toUInt_of_range (by omega) (by omega)] at hfits
    obtain ⟨hend, hfits⟩ := hfits
    rw [fillBound_eq hend, payloadLength_eq (by omega) (by omega), fileChecksumLength,
      fileOffsetLength] at hfits
    omega
  · rwa [FitsBuffer, if_neg hval] at hfits

theorem blockToWrite_offered (hfits : FitsBuffer c) :
    blockToWrite c buffer (rnd offset) offset = some (offered c buffer rnd offset) := by
  have hle := hfits.le_capacity hp
  by_cases hval : c.validate = true
  · have h12 := hfits.twelve_le hp hval
    rw [bufferCapacity] at hle
    rw [blockToWrite_eq hval h12 (parseArguments_ok hp).fileBlockSize_lt, if_pos (by omega), offered,
      if_pos hval]
  · rw [blockToWrite, if_neg hval, if_pos hle, offered, if_neg hval]

omit hp in
theorem blockToWrite_eq_none (hfits : ¬FitsBuffer c) :
    blockToWrite c buffer (rnd offset) offset = none := by
  by_cases hval : c.validate = true
  · rw [FitsBuffer, if_pos hval] at hfits
    rw [blockToWrite, if_pos hval]
    exact if_neg hfits
  · rw [FitsBuffer, if_neg hval] at hfits
    rw [blockToWrite, if_neg hval, if_neg hfits]

theorem length_offered (hfits : FitsBuffer c) (hbuffer : buffer.length = bufferCapacity c)
    (offset : ℕ) : (offered c buffer rnd offset).length = c.fileBlockSize.toNat := by
  by_cases hval : c.validate = true
  · rw [offered, if_pos hval, length_blockBytes (hfits.twelve_le hp hval)]
  · have hle := hfits.le_capacity hp
    rw [offered, if_neg hval, List.length_take, hbuffer]
    omega

theorem writeBlocks_eq_ok_iff {writes : List ℤ} {file file' : List Byte} :
    writeBlocks c buffer rnd writes offset file = some (.ok file') ↔
      LoopsThrough c writes offset ∧
        file' = file ++ pieces c.fileBlockSize.toNat (offered c buffer rnd)
          (writes.map Int.toNat) offset := by
  induction writes generalizing offset file with
  | nil =>
    rw [writeBlocks, LoopsThrough, List.map_nil, pieces, List.append_nil]
    by_cases hmore : (offset : ℤ) < c.fileSize
    · simp [hmore]
    · simp [hmore, not_lt.mp hmore, eq_comm]
  | cons written writes ih =>
    rw [writeBlocks, LoopsThrough]
    by_cases hmore : (offset : ℤ) < c.fileSize
    · rw [if_pos hmore]
      by_cases hfits : FitsBuffer c
      · rw [blockToWrite_offered hp hfits, Option.bind_some]
        by_cases hneg : written < 0
        · simp [hneg, not_le.mpr hneg]
        · have hnext : (offset : ℤ) + c.fileBlockSize =
              (offset + c.fileBlockSize.toNat : ℕ) := by
            rw [Nat.cast_add, toNat_fileBlockSize hp]
          rw [if_neg hneg, hnext, ih, List.map_cons, pieces, List.append_assoc]
          simp [hmore, hfits, not_lt.mp hneg]
      · rw [blockToWrite_eq_none hfits]
        simp [hfits]
    · simp [hmore]

theorem createFile_eq_ok_iff {e : Creation} {file file' : List Byte} :
    createFile c buffer e file = some (.ok file') ↔
      (e.opens = true ∧ LoopsThrough c e.writes file.length) ∧
        file' = file ++ pieces c.fileBlockSize.toNat (offered c buffer e.rnd) e.sizes
          file.length := by
  rw [createFile]
  by_cases hopens : e.opens = true
  · rw [if_pos hopens, writeBlocks_eq_ok_iff hp, and_iff_right hopens, Creation.sizes]
  · simp [hopens]

end Loop

/-- No call of `write` begins behind the size of the file. -/
theorem LoopsThrough.lt {writes : List ℤ} (h : LoopsThrough c writes offset) {j : ℕ}
    (hj : j < writes.length) : ((offset + j * c.fileBlockSize.toNat : ℕ) : ℤ) < c.fileSize := by
  induction writes generalizing offset j with
  | nil => exact absurd hj (Nat.not_lt_zero j)
  | cons written writes ih =>
    obtain ⟨hmore, -, -, hrest⟩ := h
    cases j with
    | zero => simpa using hmore
    | succ j =>
      have hnext := ih hrest (Nat.lt_of_succ_lt_succ hj)
      have hoffset : offset + c.fileBlockSize.toNat + j * c.fileBlockSize.toNat =
          offset + (j + 1) * c.fileBlockSize.toNat := by
        rw [Nat.succ_mul]
        omega
      rwa [hoffset] at hnext

theorem LoopsThrough.fits {writes : List ℤ} (h : LoopsThrough c writes offset)
    (hne : writes ≠ []) : FitsBuffer c := by
  cases writes with
  | nil => exact absurd rfl hne
  | cons written writes => exact h.2.1

/-! ## One file -/

theorem fileValidateBuffer_append {buf : List Byte} {len off : ℕ}
    (h : fileValidateBuffer buf len off = some (.ok ())) (rest : List Byte) :
    fileValidateBuffer (buf ++ rest) len off = some (.ok ()) := by
  obtain ⟨hlen, hcheck, hoff⟩ := fileValidateBuffer_eq_ok.mp h
  have hslice : ∀ start n, start + n ≤ payloadLength len + 12 →
      ((buf ++ rest).drop start).take n = (buf.drop start).take n := by
    intro start n hn
    rw [List.drop_append_of_le_length (by omega),
      List.take_append_of_le_length (by rw [List.length_drop]; omega)]
  refine fileValidateBuffer_eq_ok.mpr ⟨by rw [List.length_append]; omega, ?_, ?_⟩
  · rw [List.take_append_of_le_length (by omega), storedChecksum,
      hslice _ _ (by simp only [fileChecksumLength]; omega)]
    exact hcheck
  · rw [storedOffset, hslice _ _ (by simp only [fileChecksumLength, fileOffsetLength]; omega)]
    exact hoff

theorem offered_validates (hval : c.validate = true) (hblock :
    blockToWrite c buffer (rnd offset) offset = some (offered c buffer rnd offset)) :
    fileValidateBuffer (offered c buffer rnd offset) (toUInt 32 c.fileBlockSize)
      (toUInt 64 offset) = some (.ok ()) := by
  rw [blockToWrite, if_pos hval] at hblock
  rw [← List.append_nil (offered c buffer rnd offset)]
  exact fileValidateBuffer_fill (toUInt_lt _ _) hblock

theorem readPasses_of_valid {file : List Byte} {s : ℕ}
    (h : fileValidateBuffer ((file.drop s).take c.fileBlockSize.toNat) (toUInt 32 c.fileBlockSize)
      (toUInt 64 s) = some (.ok ())) :
    ReadPasses c file ⟨0, s, c.fileBlockSize, .read⟩ := by
  intro buf bytes _ hread
  unfold filePread at hread
  split_ifs at hread
  obtain rfl := Option.some.inj hread
  exact fileValidateBuffer_append h _

theorem same_byte_of_valid {g : Globals} {o : Options} (hp : parseArguments g o = .ok c)
    (h12 : 12 ≤ c.fileBlockSize) {file file' : List Byte} {s d : ℕ} (hs : s < 2 ^ 63)
    (hend : s + c.fileBlockSize.toNat ≤ file.length)
    (hend' : s + c.fileBlockSize.toNat ≤ file'.length)
    (h : fileValidateBuffer ((file.drop s).take c.fileBlockSize.toNat) (toUInt 32 c.fileBlockSize)
      (toUInt 64 s) = some (.ok ()))
    (h' : fileValidateBuffer ((file'.drop s).take c.fileBlockSize.toNat)
      (toUInt 32 c.fileBlockSize) (toUInt 64 s) = some (.ok ()))
    (hbefore : ∀ x < d, file[x]? = file'[x]?) (hlo : s + c.fileBlockSize.toNat ≤ d + 12)
    (hhi : d < s + c.fileBlockSize.toNat) : file[d]? = file'[d]? := by
  have hb := toNat_fileBlockSize hp
  exact readPasses_same_byte (r := ⟨0, s, c.fileBlockSize, .read⟩) h12
    (parseArguments_ok hp).fileBlockSize_lt (Int.natCast_nonneg s) (show (s : ℤ) < 2 ^ 63 by omega)
    (show (s : ℤ) + c.fileBlockSize ≤ file.length by omega)
    (show (s : ℤ) + c.fileBlockSize ≤ file'.length by omega) (readPasses_of_valid h)
    (readPasses_of_valid h') hbefore (show (s : ℤ) + c.fileBlockSize ≤ d + 12 by omega)
    (show (d : ℤ) < s + c.fileBlockSize by omega)

theorem getElem?_blockBytes {rnd : ℕ → Draw} {offset : ℤ} {i : ℕ}
    (hi : i < c.fileBlockSize.toNat - 12) :
    (blockBytes c rnd offset)[i]? = some (BitVec.ofNat 8 (rnd i)) := by
  simp only [blockBytes]
  rw [List.getElem?_append_left (by simpa using hi)]
  exact getElem?_payload _ hi

/-! ### Blocks of twelve bytes -/

theorem crc32_nil : crc32 0 [] = 0 := rfl

theorem offered_twelve (hval : c.validate = true) (h12 : c.fileBlockSize = 12) (offset : ℕ) :
    offered c buffer rnd offset = twelveBytes offset := by
  have hpayload : payload (rnd offset) ((12 : ℤ).toNat - 12) = [] :=
    List.length_eq_zero_iff.mp (length_payload _ _)
  rw [offered, if_pos hval, blockBytes, h12, hpayload, crc32_nil, List.nil_append]
  rfl

theorem validate_twelve_iff {block : List Byte} (hlen : block.length = 12) (s : ℕ) :
    fileValidateBuffer block (toUInt 32 12) (toUInt 64 s) = some (.ok ()) ↔
      block = twelveBytes s := by
  have hpay : payloadLength (toUInt 32 12) = 0 := rfl
  have hsplit : block = block.take 4 ++ (block.drop 4).take 8 := by
    rw [← List.take_add, List.take_of_length_le hlen.le]
  have hfront4 : (block.take 4).length = 4 := by rw [List.length_take, hlen]; rfl
  have hback8 : ((block.drop 4).take 8).length = 8 := by
    rw [List.length_take, List.length_drop, hlen]
    rfl
  have hoffset : leValue (leBytes 8 (toUInt 64 s)) = toUInt 64 s := leValue_leBytes (toUInt_lt _ _)
  rw [fileValidateBuffer_eq_ok, hpay, List.take_zero, crc32_nil, storedChecksum, storedOffset,
    List.drop_zero, and_iff_right (show 0 + 12 ≤ block.length by omega)]
  constructor
  · rintro ⟨hcheck, hoff⟩
    have hfront : block.take 4 = leBytes 4 0 := leValue_injective hfront4 hcheck.symm
    have hback : (block.drop 4).take 8 = leBytes 8 (toUInt 64 s) :=
      leValue_injective hback8 (hoff.symm.trans hoffset.symm)
    rw [hfront, hback] at hsplit
    exact hsplit
  · rintro rfl
    exact ⟨rfl, hoffset.symm⟩

section File

variable {g : Globals} {o : Options} (hp : parseArguments g o = .ok c)
  (hbuffer : buffer.length = bufferCapacity c) {sizes : List ℕ} {file : List Byte}
  (hfits : FitsBuffer c) (hle : ∀ n ∈ sizes, n ≤ c.fileBlockSize.toNat)

def extended (c : Config) (buffer : List Byte) (rnd : ℤ → ℕ → Draw) (sizes : List ℕ)
    (file : List Byte) : List Byte :=
  file ++ pieces c.fileBlockSize.toNat (offered c buffer rnd) sizes file.length

include hp hbuffer hfits hle

theorem length_extended :
    (extended c buffer rnd sizes file).length = file.length + sizes.sum := by
  rw [extended, List.length_append, length_pieces (length_offered hp hfits hbuffer) hle]

theorem valid_of_wholeAt (hval : c.validate = true) {s : ℕ}
    (h : WholeAt c.fileBlockSize.toNat sizes file.length s) :
    fileValidateBuffer (((extended c buffer rnd sizes file).drop s).take c.fileBlockSize.toNat)
      (toUInt 32 c.fileBlockSize) (toUInt 64 s) = some (.ok ()) := by
  obtain ⟨ns₁, ns₂, rfl, hstart, hoffset⟩ := h
  have hlen : (offered c buffer rnd s).length = c.fileBlockSize.toNat :=
    length_offered hp hfits hbuffer s
  have hbefore : (file ++ pieces c.fileBlockSize.toNat (offered c buffer rnd) ns₁
      file.length).length = s := by
    rw [List.length_append, length_pieces (length_offered hp hfits hbuffer)
      fun n hn => hle n (List.mem_append_left _ hn)]
    exact hstart
  have hblock : ((extended c buffer rnd (ns₁ ++ c.fileBlockSize.toNat :: ns₂) file).drop s).take
      c.fileBlockSize.toNat = offered c buffer rnd s := by
    rw [extended, pieces_append, ← List.append_assoc, List.drop_left' hbefore, pieces, hoffset,
      List.take_of_length_le hlen.le, List.take_left' hlen]
  rw [hblock]
  exact offered_validates hval (blockToWrite_offered hp hfits)

variable (rnd file) in
/-- The bytes before a piece, and those of the piece. -/
theorem getElem?_extended {ns₁ ns₂ : List ℕ} {n : ℕ}
    (hsizes : sizes = ns₁ ++ n :: ns₂) :
    (∀ x < file.length + ns₁.sum, (extended c buffer rnd sizes file)[x]? =
      (file ++ pieces c.fileBlockSize.toNat (offered c buffer rnd) ns₁ file.length)[x]?) ∧
    ∀ i < n, (extended c buffer rnd sizes file)[file.length + ns₁.sum + i]? =
      (offered c buffer rnd (file.length + ns₁.length * c.fileBlockSize.toNat))[i]? := by
  subst hsizes
  have hn : n ≤ c.fileBlockSize.toNat := hle n (by simp)
  have hlen : (offered c buffer rnd (file.length + ns₁.length * c.fileBlockSize.toNat)).length =
      c.fileBlockSize.toNat := length_offered hp hfits hbuffer _
  have hbefore : (file ++ pieces c.fileBlockSize.toNat (offered c buffer rnd) ns₁
      file.length).length = file.length + ns₁.sum := by
    rw [List.length_append, length_pieces (length_offered hp hfits hbuffer)
      fun n hn => hle n (List.mem_append_left _ hn)]
  rw [extended, pieces_append, ← List.append_assoc, pieces]
  constructor
  · intro x hx
    exact List.getElem?_append_left (by omega)
  · intro i hi
    rw [List.getElem?_append_right (by omega), hbefore, Nat.add_sub_cancel_left,
      List.getElem?_append_left (by rw [List.length_take]; omega), List.getElem?_take_of_lt hi]

/-- The offset in a whole block is the one it was filled with. -/
theorem offset_eq_of_valid (hval : c.validate = true) {ns₁ ns₂ : List ℕ} {s : ℕ}
    (hsizes : sizes = ns₁ ++ c.fileBlockSize.toNat :: ns₂) (hat : file.length + ns₁.sum = s)
    (hs : s < 2 ^ 63) (hoffset : file.length + ns₁.length * c.fileBlockSize.toNat < 2 ^ 63)
    (h : ∀ rnd, fileValidateBuffer
      (((extended c buffer rnd sizes file).drop s).take c.fileBlockSize.toNat)
      (toUInt 32 c.fileBlockSize) (toUInt 64 s) = some (.ok ())) :
    file.length + ns₁.length * c.fileBlockSize.toNat = s := by
  let rnd : ℤ → ℕ → Draw := fun _ _ => ⟨0, sbMaxRnd_pos⟩
  have hblock : ((extended c buffer rnd sizes file).drop s).take c.fileBlockSize.toNat =
      offered c buffer rnd (file.length + ns₁.length * c.fileBlockSize.toNat) := by
    apply List.ext_getElem?
    intro i
    rw [getElem?_slice]
    split_ifs with hi
    · rw [← hat]
      exact (getElem?_extended rnd hp hbuffer file hfits hle hsizes).2 i hi
    · rw [List.getElem?_eq_none]
      rw [length_offered hp hfits hbuffer]
      omega
  have hvalid := h rnd
  rw [hblock] at hvalid
  have hown : fileValidateBuffer
      (offered c buffer rnd (file.length + ns₁.length * c.fileBlockSize.toNat))
      (toUInt 32 c.fileBlockSize)
      (toUInt 64 (file.length + ns₁.length * c.fileBlockSize.toNat : ℕ)) = some (.ok ()) :=
    offered_validates hval (blockToWrite_offered hp hfits)
  have hsame := (fileValidateBuffer_eq_ok.mp hown).2.2.trans
    (fileValidateBuffer_eq_ok.mp hvalid).2.2.symm
  rwa [toUInt_natCast (by omega), toUInt_natCast (by omega)] at hsame

/-- Two runs can differ in one random byte of a piece for the first time. -/
theorem differ_at_random (hval : c.validate = true) {ns₁ ns₂ : List ℕ} {n : ℕ}
    (hsizes : sizes = ns₁ ++ n :: ns₂) {q : ℕ} (hq : q < c.fileBlockSize.toNat - 12) (hqn : q < n)
    (h : ∀ rnd rnd' : ℤ → ℕ → Draw,
      (∀ x < file.length + ns₁.sum + q, (extended c buffer rnd sizes file)[x]? =
        (extended c buffer rnd' sizes file)[x]?) →
      (extended c buffer rnd sizes file)[file.length + ns₁.sum + q]? =
        (extended c buffer rnd' sizes file)[file.length + ns₁.sum + q]?) : False := by
  let offset := file.length + ns₁.length * c.fileBlockSize.toNat
  let rnd : ℤ → ℕ → Draw := fun _ _ => ⟨0, sbMaxRnd_pos⟩
  let rnd' : ℤ → ℕ → Draw := fun o i => if o = offset ∧ i = q then ⟨1, by decide⟩ else rnd o i
  have hpos : 0 < c.fileBlockSize.toNat := by omega
  have hbyte : ∀ (r : ℤ → ℕ → Draw) (i : ℕ), i < c.fileBlockSize.toNat - 12 →
      (offered c buffer r offset)[i]? = some (BitVec.ofNat 8 (r offset i)) := by
    intro r i hi
    rw [offered, if_pos hval, getElem?_blockBytes hi]
  have hpieces : pieces c.fileBlockSize.toNat (offered c buffer rnd) ns₁ file.length =
      pieces c.fileBlockSize.toNat (offered c buffer rnd') ns₁ file.length := by
    refine pieces_congr fun j hj => ?_
    have hne : ((file.length + j * c.fileBlockSize.toNat : ℕ) : ℤ) ≠ offset := by
      have := Nat.mul_lt_mul_of_pos_right hj hpos
      simp only [offset]
      omega
    have hrnd : rnd' (file.length + j * c.fileBlockSize.toNat : ℕ) =
        rnd (file.length + j * c.fileBlockSize.toNat : ℕ) :=
      funext fun i => if_neg fun hi => hne hi.1
    rw [offered, offered, hrnd]
  obtain ⟨hfront, hpiece⟩ := getElem?_extended rnd hp hbuffer file hfits hle hsizes
  obtain ⟨hfront', hpiece'⟩ := getElem?_extended rnd' hp hbuffer file hfits hle hsizes
  have hsame := h rnd rnd' fun x hx => by
    by_cases hx' : x < file.length + ns₁.sum
    · rw [hfront x hx', hfront' x hx', hpieces]
    · obtain ⟨i, rfl⟩ := Nat.exists_eq_add_of_le (Nat.not_lt.mp hx')
      rw [hpiece i (by omega), hpiece' i (by omega), hbyte rnd i (by omega),
        hbyte rnd' i (by omega)]
      simp only [rnd', if_neg (show ¬((offset : ℤ) = offset ∧ i = q) by omega)]
  rw [hpiece q hqn, hpiece' q hqn, hbyte rnd q hq, hbyte rnd' q hq] at hsame
  simp [rnd, rnd'] at hsame

omit hp hbuffer hfits hle in
theorem drop_extended {s : ℕ} (hs : file.length ≤ s) :
    (extended c buffer rnd sizes file).drop s =
      (pieces c.fileBlockSize.toNat (offered c buffer rnd) sizes file.length).drop
        (s - file.length) := by
  obtain ⟨t, rfl⟩ := Nat.exists_eq_add_of_le hs
  rw [extended, List.drop_append, List.drop_of_length_le hs, Nat.add_sub_cancel_left]
  rfl

variable (rnd) in
theorem valid_iff_joined (hval : c.validate = true) (h12 : c.fileBlockSize = 12) {s : ℕ}
    (hstart : file.length ≤ s) (hend : s + 12 ≤ file.length + sizes.sum) :
    fileValidateBuffer (((extended c buffer rnd sizes file).drop s).take c.fileBlockSize.toNat)
        (toUInt 32 c.fileBlockSize) (toUInt 64 s) = some (.ok ()) ↔
      ((pieces 12 twelveBytes sizes file.length).drop (s - file.length)).take 12 =
        twelveBytes s := by
  have hb : c.fileBlockSize.toNat = 12 := by rw [h12]; rfl
  have hlen : (extended c buffer rnd sizes file).length = file.length + sizes.sum :=
    length_extended hp hbuffer hfits hle
  have hpieces : pieces 12 (offered c buffer rnd) sizes file.length =
      pieces 12 twelveBytes sizes file.length :=
    pieces_congr fun j _ => offered_twelve hval h12 _
  have hblock : ((extended c buffer rnd sizes file).drop s).take 12 =
      ((pieces 12 twelveBytes sizes file.length).drop (s - file.length)).take 12 := by
    rw [drop_extended hstart, hb, hpieces]
  rw [hb, h12, validate_twelve_iff (by rw [List.length_take, List.length_drop]; omega), hblock]

/-- What stands in the fields is computed from the bytes before and from the offset, so that no
random byte can stand there. Where a piece begins inside of a block, one does. -/
theorem wholeAt_of_valid (hval : c.validate = true) (hne : c.fileBlockSize ≠ 12) {s : ℕ}
    (hstart : file.length ≤ s) (hend : s + c.fileBlockSize.toNat ≤ file.length + sizes.sum)
    (hs : s < 2 ^ 63)
    (hoffset : ∀ j < sizes.length, file.length + j * c.fileBlockSize.toNat < 2 ^ 63)
    (h : ∀ rnd, fileValidateBuffer
      (((extended c buffer rnd sizes file).drop s).take c.fileBlockSize.toNat)
      (toUInt 32 c.fileBlockSize) (toUInt 64 s) = some (.ok ())) :
    WholeAt c.fileBlockSize.toNat sizes file.length s := by
  have h12 := hfits.twelve_le hp hval
  have hlt := (parseArguments_ok hp).fileBlockSize_lt
  have hb := toNat_fileBlockSize hp
  have hlen : ∀ rnd, (extended c buffer rnd sizes file).length = file.length + sizes.sum :=
    fun rnd => length_extended hp hbuffer hfits hle
  -- the piece with the last byte of the block
  obtain ⟨ns₁, n, ns₂, hsizes, hlo, hhi⟩ :=
    exists_piece (show s + c.fileBlockSize.toNat - 1 - file.length < sizes.sum by omega)
  have hn : n ≤ c.fileBlockSize.toNat := hle n (by simp [hsizes])
  by_cases hin : file.length + ns₁.sum ≤ s
  · obtain rfl : n = c.fileBlockSize.toNat := by omega
    have hat : file.length + ns₁.sum = s := by omega
    exact ⟨ns₁, ns₂, hsizes, hat,
      offset_eq_of_valid hp hbuffer hfits hle hval hsizes hat hs (hoffset _ (by simp [hsizes])) h⟩
  · -- the block has `e` bytes of the piece, the one numbered `q` among them is random
    obtain ⟨e, he⟩ := Nat.exists_eq_add_of_le
      (show file.length + ns₁.sum ≤ s + c.fileBlockSize.toNat by omega)
    obtain ⟨q, hq, hqe, hqlo⟩ : ∃ q < c.fileBlockSize.toNat - 12, q < e ∧ e ≤ q + 12 := by
      by_cases hshort : e ≤ c.fileBlockSize.toNat - 12
      · exact ⟨e - 1, by omega, by omega, by omega⟩
      · exact ⟨c.fileBlockSize.toNat - 13, by omega, by omega, by omega⟩
    exact (differ_at_random hp hbuffer hfits hle hval hsizes hq (by omega) fun rnd rnd' hsame =>
      same_byte_of_valid hp h12 hs (by rw [hlen]; omega) (by rw [hlen]; omega) (h rnd) (h rnd')
        hsame (by omega) (by omega)).elim

end File

/-! ## All files -/

section Files

variable {g : Globals} {o : Options} (hp : parseArguments g o = .ok c)
  (hbuffer : buffer.length = bufferCapacity c)

section Results

variable {writes : List ℤ} {file : List Byte} (hloops : LoopsThrough c writes file.length)
  (hwrites : ∀ w ∈ writes, w ≤ c.fileBlockSize)

include hwrites in
theorem sizes_le : ∀ n ∈ writes.map Int.toNat, n ≤ c.fileBlockSize.toNat := by
  intro n hn
  obtain ⟨w, hw, rfl⟩ := List.mem_map.mp hn
  exact Int.toNat_le_toNat (hwrites w hw)

include hp hbuffer hloops hwrites

theorem length_extended_writes (rnd : ℤ → ℕ → Draw) :
    (extended c buffer rnd (writes.map Int.toNat) file).length =
      file.length + (writes.map Int.toNat).sum := by
  by_cases hnil : writes = []
  · subst hnil
    simp [extended, pieces]
  · exact length_extended hp hbuffer (hloops.fits hnil) (sizes_le hwrites)

omit hbuffer in
/-- A complete block begins before the size of the file and has been written from the buffer. -/
theorem complete_block {m : ℕ} (hlo : file.length ≤ m * c.fileBlockSize.toNat)
    (hhi : (m + 1) * c.fileBlockSize.toNat ≤ file.length + (writes.map Int.toNat).sum) :
    FitsBuffer c ∧ m * c.fileBlockSize.toNat < 2 ^ 63 := by
  have hpos := (parseArguments_ok hp).fileBlockSize_pos
  have hsize := (parseArguments_ok hp).typed.fileSize_lt
  have hsum := sum_le (sizes_le hwrites)
  rw [List.length_map] at hsum
  rw [Nat.succ_mul] at hhi
  have hne : writes ≠ [] := by
    rintro rfl
    simp at hhi
    omega
  obtain ⟨k, hk⟩ := Nat.exists_eq_add_of_lt (List.length_pos_of_ne_nil hne)
  have hlast := hloops.lt (show k < writes.length by omega)
  have hlen : writes.length * c.fileBlockSize.toNat =
      k * c.fileBlockSize.toNat + c.fileBlockSize.toNat := by
    rw [hk, Nat.zero_add, Nat.succ_mul]
  exact ⟨hloops.fits hne, by omega⟩

theorem fileCreated_of_enough (h : EnoughWritten c file.length (writes.map Int.toNat))
    (rnd : ℤ → ℕ → Draw) :
    FileCreated c file (extended c buffer rnd (writes.map Int.toNat) file) where
  long := by
    rw [length_extended_writes hp hbuffer hloops hwrites]
    exact h.long
  valid hval m hlo hhi := by
    have hpos := (parseArguments_ok hp).fileBlockSize_pos
    rw [length_extended_writes hp hbuffer hloops hwrites] at hhi
    obtain ⟨hfits, -⟩ := complete_block hp hloops hwrites hlo hhi
    by_cases h12 : c.fileBlockSize = 12
    · have hb : c.fileBlockSize.toNat = 12 := by rw [h12]; rfl
      rw [hb] at hlo hhi
      rw [valid_iff_joined rnd hp hbuffer hfits (sizes_le hwrites) hval h12 (by rwa [hb])
        (by rw [hb]; omega), hb]
      exact h.joined hval h12 m hlo hhi
    · refine valid_of_wholeAt hp hbuffer hfits (sizes_le hwrites) hval ?_
      exact (forall_wholeAt_iff (by omega) (sizes_le hwrites)).mpr (h.whole hval h12) m hlo hhi

theorem enough_of_fileCreated
    (h : ∀ rnd, FileCreated c file (extended c buffer rnd (writes.map Int.toNat) file)) :
    EnoughWritten c file.length (writes.map Int.toNat) where
  long := by
    have hlong := (h fun _ _ => ⟨0, sbMaxRnd_pos⟩).long
    rwa [length_extended_writes hp hbuffer hloops hwrites] at hlong
  whole hval h12 := by
    have hpos := (parseArguments_ok hp).fileBlockSize_pos
    refine (forall_wholeAt_iff (by omega) (sizes_le hwrites)).mp fun m hlo hhi => ?_
    obtain ⟨hfits, hm⟩ := complete_block hp hloops hwrites hlo hhi
    refine wholeAt_of_valid hp hbuffer hfits (sizes_le hwrites) hval h12 hlo
      (by rwa [← Nat.succ_mul]) hm (fun j hj => ?_) fun rnd => ?_
    · have hbefore := hloops.lt (by rwa [List.length_map] at hj)
      have hsize := (parseArguments_ok hp).typed.fileSize_lt
      omega
    · refine (h rnd).valid hval m hlo ?_
      rwa [length_extended_writes hp hbuffer hloops hwrites]
  joined hval h12 m hlo hhi := by
    have hb : c.fileBlockSize.toNat = 12 := by rw [h12]; rfl
    obtain ⟨hfits, -⟩ :=
      complete_block hp hloops hwrites (by rwa [hb]) (show (m + 1) * _ ≤ _ by rwa [hb])
    have hvalid := (h fun _ _ => ⟨0, sbMaxRnd_pos⟩).valid hval m (by rwa [hb])
    rw [length_extended_writes hp hbuffer hloops hwrites, hb] at hvalid
    refine (valid_iff_joined (fun _ _ => ⟨0, sbMaxRnd_pos⟩) hp hbuffer hfits (sizes_le hwrites) hval
      h12 hlo (by omega)).mp ?_
    rw [hb]
    exact hvalid hhi

end Results

/-- Whatever `sb_rnd` returns, if `create_files` succeeds with these results of the calls, then each
file is as promised. -/
def CreatesAll (c : Config) (buffer : List Byte) (env : ℕ → Creation) (files : ℕ → List Byte) :
    Prop :=
  ∀ rnd files', createFiles c buffer (withRnd env rnd) files = some (.ok files') →
    ∀ i < c.numFiles, FileCreated c (files i) (files' i)

include hp in
theorem createFiles_ok {env : ℕ → Creation} {files files' : ℕ → List Byte}
    (h : createFiles c buffer env files = some (.ok files')) {i : ℕ} (hi : i < c.numFiles) :
    ((env i).opens = true ∧ LoopsThrough c (env i).writes (files i).length) ∧
      files' i = extended c buffer (env i).rnd (env i).sizes (files i) :=
  (createFile_eq_ok_iff hp).mp
    ((createFilesFrom_ok List.nodup_range h).1 i (List.mem_range.mpr hi))

include hp in
theorem createFiles_withRnd {env : ℕ → Creation} {files files' : ℕ → List Byte}
    (h : createFiles c buffer env files = some (.ok files')) (rnd : ℕ → ℤ → ℕ → Draw) :
    ∃ files'', createFiles c buffer (withRnd env rnd) files = some (.ok files'') ∧
      ∀ i < c.numFiles, files'' i = extended c buffer (rnd i) (env i).sizes (files i) := by
  have hfiles : ∀ i ∈ List.range c.numFiles, createFile c buffer (withRnd env rnd i) (files i) =
      some (.ok (extended c buffer (rnd i) (env i).sizes (files i))) := fun i hi =>
    (createFile_eq_ok_iff hp).mpr ⟨(createFiles_ok hp h (List.mem_range.mp hi)).1, rfl⟩
  obtain ⟨files'', hcreate, hall⟩ := createFilesFrom_of_createFile List.nodup_range hfiles
  exact ⟨files'', hcreate, fun i hi => hall i (List.mem_range.mpr hi)⟩

include hp hbuffer in
/-- When the files are created as promised, for a call that succeeds. -/
theorem createsAll_iff {env : ℕ → Creation} {files files' : ℕ → List Byte}
    (hwrites : ∀ i < c.numFiles, ∀ w ∈ (env i).writes, w ≤ c.fileBlockSize)
    (hok : createFiles c buffer env files = some (.ok files')) :
    CreatesAll c buffer env files ↔
      ∀ i < c.numFiles, EnoughWritten c (files i).length (env i).sizes := by
  have hloops : ∀ i < c.numFiles, LoopsThrough c (env i).writes (files i).length :=
    fun i hi => (createFiles_ok hp hok hi).1.2
  constructor
  · intro h i hi
    refine enough_of_fileCreated hp hbuffer (hloops i hi) (hwrites i hi) fun rnd => ?_
    obtain ⟨files'', hcreate, hall⟩ := createFiles_withRnd hp hok fun _ => rnd
    have hfile := h _ _ hcreate i hi
    rwa [hall i hi] at hfile
  · intro h rnd files'' hcreate i hi
    rw [(createFiles_ok hp hcreate hi).2]
    exact fileCreated_of_enough hp hbuffer (hloops i hi) (hwrites i hi) (h i hi) (rnd i)

end Files

/-! ## One short write -/

def zeroDraws : ℤ → ℕ → Draw := fun _ _ => ⟨0, sbMaxRnd_pos⟩

theorem createsAll_iff_small :
    CreatesAll smallConfig (List.replicate 4 0) (fun _ => ⟨true, [4, 4], zeroDraws⟩)
      fun _ => [] := by
  obtain ⟨files', hok⟩ : ∃ files', createFiles smallConfig (List.replicate 4 0)
      (fun _ => ⟨true, [4, 4], zeroDraws⟩) (fun _ => []) = some (.ok files') := ⟨_, rfl⟩
  refine (createsAll_iff parseArguments_small rfl (fun i _ w hw => ?_) hok).mpr
    fun i _ => ⟨by decide, nofun, nofun⟩
  have hw : w ∈ [4, 4] := hw
  simp at hw
  exact hw.le

theorem not_createsAll :
    ¬CreatesAll smallConfig (List.replicate 4 0) (fun _ => ⟨true, [4, 3], zeroDraws⟩)
      fun _ => [] := by
  intro h
  have hlong := (h (fun _ => zeroDraws) _ rfl 0 (by decide)).long
  exact absurd hlong (by decide)

end Sysbench.Fileio
