import Sysbench.Fileio.Blocks
import Sysbench.Fileio.Execute
import Sysbench.Fileio.Random
import Sysbench.Fileio.SequentialBounds

/-! # Which bytes the validation of a block touches

The indices that `file_fill_buffer` and `file_validate_buffer` access, in the order of their loops.
The checksum and the offset follow the payload. A block which is too short for them wraps the length:
the filling loop compares a counter of 32 bits with a bound of 64 bits and does not end, and the
validation goes through all of the wrapped length.
-/
namespace Sysbench.Fileio

open Bytes Runs Words Tiling

/-! ## The loops -/

/-- `for (i = 0; i < last; i++) buf[i] = ...`: the indices, and the final `i`. The result is missing if
the loop needs more rounds. -/
def fillLoop (last : ℕ) : ℕ → ℕ → Option (List ℕ × ℕ)
  | 0, _ => none
  | rounds + 1, i =>
    if i < last then
      (fillLoop last rounds (toUInt 32 (i + 1 : ℕ))).map fun (is, j) => (i :: is, j)
    else some ([], i)

/-- `while (len && ((ptrdiff_t)buf & 3)) { ... *buf++ ...; len--; }`, and what follows. -/
def alignReads (addr : ℕ) (next : ℕ → ℕ → List ℕ) (pos : ℕ) : ℕ → List ℕ
  | 0 => next pos 0
  | len + 1 =>
    if (addr + pos) % 4 = 0 then next pos (len + 1) else pos :: alignReads addr next (pos + 1) len

/-- `while (len >= width) { ...; len -= width; }`, where a round reads `width` bytes, and what
follows. -/
def wordReads (width : ℕ) (next : ℕ → ℕ → List ℕ) (pos len : ℕ) : List ℕ :=
  if 0 < width ∧ width ≤ len then
    List.range' pos width ++ wordReads width next (pos + width) (len - width)
  else next pos len
termination_by len

/-- `if (len) do { ... *buf++ ... } while (--len);` -/
def byteReads (pos : ℕ) : ℕ → List ℕ
  | 0 => []
  | len + 1 => pos :: byteReads (pos + 1) len

/-- What `crc32_little` reads of a buffer at the address `addr`. -/
def crcReads (addr len : ℕ) : List ℕ :=
  alignReads addr (wordReads 32 (wordReads 4 byteReads)) 0 len

def checksumField (pos : ℕ) : List ℕ := List.range' pos fileChecksumLength

def offsetField (pos : ℕ) : List ℕ := List.range' (pos + fileChecksumLength) fileOffsetLength

def fillAccesses (addr len rounds : ℕ) : Option (List ℕ) :=
  (fillLoop (fillBound len) rounds 0).map fun (is, i) =>
    is ++ crcReads addr (payloadLength len) ++ checksumField i ++ offsetField i

/-- What `file_validate_buffer` accesses if the bytes from `buf` on are `mem`. A field that does not
match is read again for the message. -/
def validateAccesses (addr : ℕ) (mem : ℕ → Byte) (len offset : ℕ) : List ℕ :=
  let csOffset := payloadLength len
  let checksum := crc32 0 ((List.range csOffset).map mem)
  crcReads addr csOffset ++ checksumField csOffset ++
    if checksum.toNat ≠ leValue ((checksumField csOffset).map mem) then checksumField csOffset
    else if offset ≠ leValue ((offsetField csOffset).map mem) then
      offsetField csOffset ++ offsetField csOffset
    else offsetField csOffset

/-- `file_fill_buffer`, called with a request's size, ends. -/
def FillEnds (size : ℤ) : Prop :=
  ∀ addr, ∃ rounds, fillAccesses addr (toUInt 32 size) rounds ≠ none

/-- Both functions, called with a request's size, end and stay inside the block. -/
def BlockAccess (size : ℤ) : Prop :=
  ∀ addr mem offset,
    (∃ rounds is, fillAccesses addr (toUInt 32 size) rounds = some is ∧ ∀ i ∈ is, (i : ℤ) < size) ∧
      ∀ i ∈ validateAccesses addr mem (toUInt 32 size) offset, (i : ℤ) < size

/-- The size has room for the two fields, also as it is passed. -/
def HasRoom (size : ℤ) : Prop := 0 ≤ size ∧ 12 ≤ toUInt 32 size

instance (size : ℤ) : Decidable (HasRoom size) := inferInstanceAs (Decidable (_ ∧ _))

/-! ## What the loops touch -/

theorem fillLoop_eq {last rounds i : ℕ} (hword : last < 2 ^ 32) (hi : i ≤ last)
    (hrounds : last - i < rounds) :
    fillLoop last rounds i = some (List.range' i (last - i), last) := by
  induction rounds generalizing i with
  | zero => exact absurd hrounds (Nat.not_lt_zero _)
  | succ rounds ih =>
    rw [fillLoop]
    by_cases hlt : i < last
    · rw [if_pos hlt, toUInt_natCast (by omega), ih (by omega) (by omega), Option.map_some,
        show last - i = last - (i + 1) + 1 by omega, List.range'_succ]
    · rw [if_neg hlt, show i = last by omega, Nat.sub_self]
      rfl

/-- The counter starts over at `2 ^ 32` and never gets to a larger bound. -/
theorem fillLoop_eq_none {last rounds i : ℕ} (hword : 2 ^ 32 ≤ last) (hi : i < 2 ^ 32) :
    fillLoop last rounds i = none := by
  induction rounds generalizing i with
  | zero => rfl
  | succ rounds ih =>
    rw [fillLoop, if_pos (by omega), ih (toUInt_lt 32 _)]
    rfl

theorem byteReads_eq (pos len : ℕ) : byteReads pos len = List.range' pos len := by
  induction len generalizing pos with
  | zero => rfl
  | succ len ih => rw [byteReads, ih, List.range'_succ]

theorem wordReads_eq {width : ℕ} {next : ℕ → ℕ → List ℕ}
    (hnext : ∀ pos len, next pos len = List.range' pos len) (pos len : ℕ) :
    wordReads width next pos len = List.range' pos len := by
  fun_induction wordReads width next pos len with
  | case1 pos len h ih => rw [ih, List.range'_append_1, Nat.add_sub_cancel' h.2]
  | case2 pos len h => exact hnext pos len

theorem alignReads_eq {addr : ℕ} {next : ℕ → ℕ → List ℕ}
    (hnext : ∀ pos len, next pos len = List.range' pos len) (pos len : ℕ) :
    alignReads addr next pos len = List.range' pos len := by
  induction len generalizing pos with
  | zero => exact hnext pos 0
  | succ len ih =>
    rw [alignReads]
    split_ifs
    · exact hnext pos (len + 1)
    · rw [ih, List.range'_succ]

/-- Whatever the alignment of the buffer, each byte is read once. -/
theorem crcReads_eq (addr len : ℕ) : crcReads addr len = List.range' 0 len :=
  alignReads_eq (wordReads_eq (wordReads_eq byteReads_eq)) 0 len

theorem fillAccesses_eq (addr : ℕ) {len : ℕ} (hlo : 12 ≤ len) (hhi : len < 2 ^ 32) :
    fillAccesses addr len (payloadLength len + 1) =
      some (List.range' 0 (payloadLength len) ++ List.range' 0 (payloadLength len) ++
        checksumField (payloadLength len) ++ offsetField (payloadLength len)) := by
  have hloop : fillLoop (payloadLength len) (payloadLength len + 1) 0 =
      some (List.range' 0 (payloadLength len - 0), payloadLength len) :=
    fillLoop_eq (toUInt_lt 32 _) (Nat.zero_le _) (by omega)
  rw [fillAccesses, fillBound_eq ((fillBound_lt_iff hhi).mpr hlo), hloop, Option.map_some,
    crcReads_eq, Nat.sub_zero]

/-- A length without room for the fields keeps the loop from ending. -/
theorem fillAccesses_eq_none {addr len rounds : ℕ} (h : len < 12) :
    fillAccesses addr len rounds = none := by
  have hbound : ¬ fillBound len < 2 ^ 32 := by
    rw [fillBound_lt_iff (by omega)]
    omega
  rw [fillAccesses, fillLoop_eq_none (not_lt.mp hbound) (by norm_num)]
  rfl

theorem fillEnds_iff (size : ℤ) : FillEnds size ↔ 12 ≤ toUInt 32 size := by
  constructor
  · intro h
    obtain ⟨rounds, hrounds⟩ := h 0
    by_contra hlt
    exact hrounds (fillAccesses_eq_none (not_le.mp hlt))
  · intro hroom addr
    exact ⟨_, by rw [fillAccesses_eq addr hroom (toUInt_lt 32 size)]; exact Option.some_ne_none _⟩

theorem mem_checksumField {pos i : ℕ} : i ∈ checksumField pos ↔ pos ≤ i ∧ i < pos + 4 :=
  List.mem_range'_1

theorem mem_offsetField {pos i : ℕ} : i ∈ offsetField pos ↔ pos + 4 ≤ i ∧ i < pos + 12 := by
  rw [offsetField, List.mem_range'_1]
  rfl

theorem lt_of_mem_fillAccesses {addr len i : ℕ} {is : List ℕ} (hlo : 12 ≤ len) (hhi : len < 2 ^ 32)
    (h : fillAccesses addr len (payloadLength len + 1) = some is) (hi : i ∈ is) :
    i < payloadLength len + 12 := by
  rw [fillAccesses_eq addr hlo hhi, Option.some_inj] at h
  rw [← h] at hi
  simp only [List.mem_append, List.mem_range'_1, mem_checksumField, mem_offsetField] at hi
  omega

theorem lt_of_mem_validateAccesses {addr len offset i : ℕ} {mem : ℕ → Byte}
    (hi : i ∈ validateAccesses addr mem len offset) : i < payloadLength len + 12 := by
  rw [validateAccesses, crcReads_eq] at hi
  split_ifs at hi <;>
    simp only [List.mem_append, List.mem_range'_1, mem_checksumField, mem_offsetField] at hi <;>
    omega

/-- A request with room for the two fields is used up exactly; any other one is left, or the
filling does not end. -/
theorem blockAccess_iff (size : ℤ) : BlockAccess size ↔ HasRoom size := by
  have hlen := toUInt_lt 32 size
  constructor
  · intro h
    obtain ⟨⟨rounds, is, hfill, hbound⟩, -⟩ := h 0 (fun _ => 0#8) 0
    have hends : 12 ≤ toUInt 32 size := by
      by_contra hlt
      rw [fillAccesses_eq_none (not_le.mp hlt)] at hfill
      cases hfill
    obtain ⟨⟨is', i⟩, -, rfl⟩ := Option.map_eq_some_iff.mp hfill
    -- the last byte of the offset
    have hlast := hbound (i + 11) (List.mem_append_right _ (mem_offsetField.mpr (by omega)))
    exact ⟨by omega, hends⟩
  · rintro ⟨h0, hroom⟩ addr mem offset
    have hle : (toUInt 32 size : ℤ) ≤ size := by
      unfold toUInt
      omega
    have hpayload := payloadLength_eq hroom hlen
    refine ⟨⟨_, _, fillAccesses_eq addr hroom hlen, fun i hi => ?_⟩, fun i hi => ?_⟩
    · have hlt := lt_of_mem_fillAccesses hroom hlen (fillAccesses_eq addr hroom hlen) hi
      omega
    · have hlt := lt_of_mem_validateAccesses hi
      omega

theorem hasRoom_iff {size : ℤ} (hlt : size < 2 ^ 32) : HasRoom size ↔ 12 ≤ size := by
  unfold HasRoom toUInt
  omega

/-! ## The requests of a run -/

variable {c : Config} {g : Globals} {o : Options}

theorem rnd_dataRequests (hm : ¬SeqMode c) (hfs : 0 ≤ c.fileSize) {perThread : ℕ → PerThread}
    {calls : List Call} {s : Vars}
    (hr : run (callStep c) (initVars perThread) calls = some s) :
    ∀ r ∈ dataRequests (requests calls),
      r.size = c.fileBlockSize ∧ 0 ≤ r.pos ∧ r.pos < c.fileSize := by
  refine run_invariant (I := fun calls _ => ∀ r ∈ dataRequests (requests calls),
    r.size = c.fileBlockSize ∧ 0 ≤ r.pos ∧ r.pos < c.fileSize) (fun r hr => by cases hr) ?_ hr
  intro calls s call t _ hinv hstep
  cases call with
  | request threadId draws q =>
    have hget := callStep_request_iff.mp hstep
    rw [fileGetRequest, if_neg hm] at hget
    intro r hr
    rw [requests_append_request, dataRequests_append, List.mem_append] at hr
    rcases hr with hr | hr
    · exact hinv r hr
    · obtain ⟨hmem, hop⟩ := mem_dataRequests.mp hr
      obtain rfl := List.mem_singleton.mp hmem
      obtain ⟨hne, ⟨d, -, rfl⟩, -⟩ := retryLoop_mem (fileGetRndRequestBy_data hget hop).1
      exact ⟨rfl, Int.emod_nonneg _ hne, Int.emod_lt_of_pos _ (by omega)⟩
  | stats v =>
    rw [requests_append_stats]
    exact hinv

/-! ## The settings -/

/-- After `k` merged requests the file has ended, and no sooner. -/
def EndsFile (c : Config) (k : ℕ) : Prop :=
  c.fileSize ≤ seqPos c k ∧ ∀ j < k, seqPos c j < c.fileSize

/-- The setting leaves room for the two fields in every request that passes the range check: in
the merged requests and in the last one of a file, unless the limit on requests stops the run
before it; else in a block, unless no block fits into a file and the positions do not overflow. -/
def ValidationHasRoom (c : Config) : Prop :=
  if SeqMode c ∧ 0 < c.fileMergedRequests then
    12 ≤ min c.fileMaxRequestSize c.fileSize ∧
      ∀ k, EndsFile c k → c.maxRequests = 0 ∨ k ≤ c.maxRequests →
        seqPos c k + 12 ≤ c.fileSize + c.fileMaxRequestSize
  else 12 ≤ c.fileBlockSize ∨ c.fileSize < c.fileBlockSize ∧
    (SeqMode c → 0 < c.maxRequests ∧ c.maxRequests * c.fileBlockSize < 2 ^ 63)

/-- The range check lets the request through only if it has room for the fields. -/
def Roomy (c : Config) (r : FileRequest) : Prop := checkRequest c r = .ok () → HasRoom r.size

theorem seqStream_zero_merged (hn : 0 < c.numFiles) (hc : c.Typed) (hfs : 0 ≤ c.fileSize)
    (hmerge : 0 < c.fileMergedRequests) :
    (seqStream c 0).size = min c.fileMaxRequestSize c.fileSize ∧
      checkRequest c (seqStream c 0) = .ok () := by
  have hmax := hc.le_fileMaxRequestSize
  have hmax' := hc.fileMaxRequestSize_lt
  have hfs' := hc.fileSize_lt
  have hstored : ∀ x : ℤ, -2 ^ 63 ≤ x → x < 2 ^ 63 → toInt 64 (0 + x) = x := by
    intro x hlo hhi
    rw [zero_add]
    exact toInt_of_range (by norm_num) hlo hhi
  have hstream : seqStream c 0 = ⟨0, 0, seqSize c 0, seqOperation c⟩ := by
    change Cursor.request c _ ⟨0, 0⟩ = _
    rw [Cursor.request, Cursor.rewind_of_lt hn]
  have hsize : seqSize c 0 = min c.fileMaxRequestSize c.fileSize := by
    rw [seqSize, if_pos hmerge, hstored _ hmax hmax', sub_zero, ← zero_add c.fileSize,
      hstored _ (by omega) hfs']
    split_ifs <;> omega
  rw [hstream, checkRequest_eq_ok, hsize]
  dsimp only
  rw [hstored _ (by omega) (by omega)]
  exact ⟨rfl, Nat.zero_le _, min_le_right _ _⟩

section Merged

variable (hn : 0 < c.numFiles) (hc : c.Typed) (hfs : 1 ≤ c.fileSize)
  (hmax : 12 ≤ c.fileMaxRequestSize) (hmax' : c.fileMaxRequestSize < 2 ^ 31)
  (hmerge : 0 < c.fileMergedRequests)

include hn hc hfs hmax hmax' hmerge

/-- A merged request is whole, or it is the last one of its file. -/
theorem seqStream_size_cases (i : ℕ) :
    (seqStream c i).size = c.fileMaxRequestSize ∨ ∃ k ≤ i + 1, EndsFile c k ∧
      (seqStream c i).size = c.fileSize + c.fileMaxRequestSize - seqPos c k := by
  obtain ⟨j, hj, hpos, hbefore⟩ := cursorAt_rewind_eq hn hc hfs (by omega) hmerge i
  have hlow : -2 ^ 63 ≤ seqPos c j := le_toInt (w := 64) (by norm_num) _
  rw [seqStream, Cursor.request, hpos]
  rcases seqSize_cases hc hfs (by omega) hmerge hlow (hbefore j le_rfl) with
    ⟨hsize, -⟩ | ⟨hsize, hsum, hgt⟩
  · exact .inl hsize
  · rw [seqPos_succ] at hsum
    exact .inr ⟨j + 1, by omega, ⟨by omega, fun k hk => hbefore k (by omega)⟩,
      by dsimp only; omega⟩

/-- The last request of the first file gets what is left, and passes the range check. -/
theorem EndsFile.lastRequest {k : ℕ} (h : EndsFile c (k + 1))
    (hcut : c.fileSize < seqPos c (k + 1)) :
    (seqStream c k).size = c.fileSize + c.fileMaxRequestSize - seqPos c (k + 1) ∧
      checkRequest c (seqStream c k) = .ok () := by
  have hlow : -2 ^ 63 ≤ seqPos c k := le_toInt (w := 64) (by norm_num) _
  have hcursor := cursorAt_first hn hc hfs (by omega) hmerge
    (j := k) fun j hj => h.2 j (by omega)
  have hfs' := hc.fileSize_lt
  rcases seqSize_cases hc hfs (by omega) hmerge hlow (h.2 k (by omega)) with
    ⟨-, hle⟩ | ⟨hsize, hsum, hgt⟩
  · rw [seqPos_succ] at hle
    omega
  · rw [seqPos_succ] at hsum
    have hstream : seqStream c k = ⟨0, seqPos c k, c.fileSize - seqPos c k, seqOperation c⟩ := by
      rw [seqStream, hcursor, Cursor.request, Cursor.rewind_of_lt hn, hsize]
    rw [hstream, checkRequest_eq_ok]
    dsimp only
    rw [add_sub_cancel, toInt_of_range (by norm_num) (by norm_num; omega) hfs']
    exact ⟨by omega, Nat.zero_le _, le_rfl⟩

theorem roomy_whole_iff :
    (∀ i, (c.maxRequests = 0 ∨ i < c.maxRequests) → Roomy c (seqStream c i)) ↔
      ∀ k, EndsFile c k → c.maxRequests = 0 ∨ k ≤ c.maxRequests →
        seqPos c k + 12 ≤ c.fileSize + c.fileMaxRequestSize := by
  constructor
  · intro hall k hk hlimit
    by_contra hgt
    cases k with
    | zero =>
      have hzero : seqPos c 0 = 0 := by simp [seqPos, toInt]
      omega
    | succ k =>
      obtain ⟨hsize, hcheck⟩ := hk.lastRequest hn hc hfs hmax hmax' hmerge (by omega)
      have hroom := hall k (by omega) hcheck
      rw [hsize, hasRoom_iff (by omega)] at hroom
      omega
  · intro hlast i hi _
    rcases seqStream_size_cases hn hc hfs hmax hmax' hmerge i with hsize | ⟨k, hk, hends, hsize⟩
    · rw [hsize, hasRoom_iff (by omega)]
      exact hmax
    · have hle := hlast k hends (by omega)
      have hge := hends.1
      rw [hsize, hasRoom_iff (by omega)]
      omega

end Merged

theorem roomy_merged_iff (h : Accepted g o c) (hmerge : 0 < c.fileMergedRequests) :
    (∀ i, (c.maxRequests = 0 ∨ i < c.maxRequests) → Roomy c (seqStream c i)) ↔
      12 ≤ min c.fileMaxRequestSize c.fileSize ∧
        ∀ k, EndsFile c k → c.maxRequests = 0 ∨ k ≤ c.maxRequests →
          seqPos c k + 12 ≤ c.fileSize + c.fileMaxRequestSize := by
  have hn := h.numFiles_pos
  have hmax' := h.maxRequestSize_range.2
  obtain ⟨hzero, hcheck⟩ := seqStream_zero_merged hn h.typed h.fileSize_nonneg hmerge
  by_cases hfirst : 12 ≤ min c.fileMaxRequestSize c.fileSize
  · rw [and_iff_right hfirst]
    exact roomy_whole_iff hn h.typed (by omega) (by omega) hmax' hmerge
  · refine iff_of_false (fun hall => hfirst ?_) fun h => hfirst h.1
    have hroom := hall 0 (by omega) hcheck
    rwa [hzero, hasRoom_iff (by omega)] at hroom

/-- Without merging a block starts at a multiple of the block size, in 64 bits. -/
theorem roomy_blocks_iff (h : Accepted g o c) (hmerge : c.fileMergedRequests = 0) :
    (∀ i, (c.maxRequests = 0 ∨ i < c.maxRequests) → Roomy c (seqStream c i)) ↔
      12 ≤ c.fileBlockSize ∨ c.fileSize < c.fileBlockSize ∧
        0 < c.maxRequests ∧ c.maxRequests * c.fileBlockSize < 2 ^ 63 := by
  have hn := h.numFiles_pos
  have hb := h.fileBlockSize_pos
  have hb' := h.fileBlockSize_lt
  have hfs := h.fileSize_nonneg
  have hsize : ∀ i, (seqStream c i).size = c.fileBlockSize := by
    intro i
    simp [seqStream, Cursor.request, seqSize, hmerge]
  have hroomy : ∀ i, Roomy c (seqStream c i) ↔
      (toInt 64 ((seqStream c i).pos + c.fileBlockSize) ≤ c.fileSize →
        (seqStream c i).fileId ≤ c.numFiles → 12 ≤ c.fileBlockSize) := by
    intro i
    rw [Roomy, checkRequest_eq_ok, hsize, hasRoom_iff (by omega)]
    tauto
  by_cases hroom : 12 ≤ c.fileBlockSize
  · exact iff_of_true (fun i _ => (hroomy i).mpr fun _ _ => hroom) (.inl hroom)
  rw [or_iff_right hroom]
  have hstream : ∀ {i : ℕ}, (i = 0 ∨ c.fileSize < c.fileBlockSize) →
      i * c.fileBlockSize < 2 ^ 63 → (seqStream c i).fileId = 0 ∧
        (seqStream c i).pos = i * c.fileBlockSize := by
    intro i hfirst hi
    have hmiss : ∀ j : ℕ, 0 < j → j ≤ i → (j : ℤ) * c.fileBlockSize ≠ c.fileSize := by
      intro j hj hle
      have hmul := le_mul_of_one_le_left hb.le (show (1 : ℤ) ≤ j by omega)
      omega
    rw [seqStream, Cursor.request, cursorAt_blocks_of_lt hn hmerge hb hi hmiss,
      Cursor.rewind_of_lt hn]
    exact ⟨rfl, rfl⟩
  constructor
  · intro hall
    have hlt : c.fileSize < c.fileBlockSize := by
      by_contra hle
      obtain ⟨hid, hpos⟩ := hstream (i := 0) (.inl rfl) (by norm_num)
      refine hroom ((hroomy 0).mp (hall 0 (by omega)) ?_ (by omega))
      rw [hpos, Nat.cast_zero, zero_mul, zero_add,
        toInt_of_range (by norm_num) (by norm_num; omega) (by norm_num; omega)]
      omega
    refine ⟨hlt, ?_⟩
    by_contra hlimit
    -- the first block whose end overflows
    obtain ⟨i, hi⟩ := Int.eq_ofNat_of_zero_le
      (Int.ediv_nonneg (show (0 : ℤ) ≤ 2 ^ 63 - 1 by norm_num) hb.le)
    have hlow := Int.ediv_mul_le (2 ^ 63 - 1) hb.ne'
    have hhigh := Int.lt_ediv_add_one_mul_self (2 ^ 63 - 1) hb
    rw [hi] at hlow hhigh
    have hreached : c.maxRequests = 0 ∨ i < c.maxRequests := by
      by_contra hno
      rw [not_or] at hno
      have hmul := mul_le_mul_of_nonneg_right
        (show (c.maxRequests : ℤ) ≤ i by omega) hb.le
      exact hlimit ⟨by omega, by omega⟩
    obtain ⟨hid, hpos⟩ := hstream (i := i) (.inr hlt) (by omega)
    refine hroom ((hroomy i).mp (hall i hreached) ?_ (by omega))
    rw [add_mul, one_mul] at hhigh
    rw [hpos, toInt_of_le (by norm_num) (by norm_num; omega) (by norm_num; omega)]
    omega
  · rintro ⟨hlt, hlimit, hsum⟩ i hi
    have hmul := mul_le_mul_of_nonneg_right (show (i : ℤ) + 1 ≤ c.maxRequests by omega) hb.le
    rw [add_mul, one_mul] at hmul
    have hpos : 0 ≤ (i : ℤ) * c.fileBlockSize := by positivity
    rw [hroomy, (hstream (.inr hlt) (by omega)).2,
      toInt_of_range (by norm_num) (by norm_num; omega) (by norm_num; omega)]
    omega

theorem exists_first_block (hm : ¬SeqMode c) (hfs : 0 < c.fileSize) :
    ∃ perThread calls s, run (callStep c) (initVars perThread) calls = some s ∧
      ∃ r ∈ dataRequests (requests calls), r.fileId = 0 ∧ r.pos = 0 ∧ r.size = c.fileBlockSize := by
  have hmax := sbMaxRnd_pos
  obtain ⟨t, hget⟩ := fileGetRndRequestBy_first scaleDraw hfs ⟨0, hmax⟩
  have hoffset : rndOffset c (scaleDraw c.totalSize ⟨0, hmax⟩) = 0 := by simp [rndOffset, scaleDraw]
  have hop := rndOperation_read_or_write (c := c) (initVars fun _ => ⟨0, -1⟩)
  generalize rndOperation c (initVars fun _ => ⟨0, -1⟩) = op at hget hop
  generalize scaleDraw c.totalSize ⟨0, hmax⟩ = tmppos at hget hoffset
  refine ⟨fun _ => ⟨0, -1⟩, [.request 0 [⟨0, hmax⟩] (.file (rndRequest c op tmppos))], t, ?_,
    rndRequest c op tmppos, mem_dataRequests.mpr ⟨List.mem_cons_self, hop⟩, ?_, ?_, rfl⟩
  · rw [run_cons, callStep_request_iff.mpr ((if_neg hm).trans hget)]
    rfl
  · simp [rndRequest, hoffset, toUInt]
  · simp [rndRequest, hoffset]

theorem roomy_random_iff (h : Accepted g o c) (hm : ¬SeqMode c) :
    (∀ perThread calls s, run (callStep c) (initVars perThread) calls = some s →
      ∀ r ∈ dataRequests (requests calls), Roomy c r) ↔
      12 ≤ c.fileBlockSize ∨ c.fileSize < c.fileBlockSize := by
  have hb := h.fileBlockSize_pos
  have hb' := h.fileBlockSize_lt
  have hfs := h.fileSize_nonneg
  constructor
  · intro hall
    by_contra hsmall
    push Not at hsmall
    obtain ⟨perThread, calls, s, hr, r, hmem, hid, hpos, hsize⟩ :=
      exists_first_block hm (by omega)
    have hcheck : checkRequest c r = .ok () := by
      rw [checkRequest_eq_ok, hid, hpos, hsize, zero_add,
        toInt_of_range (by norm_num) (by norm_num; omega) (by norm_num; omega)]
      omega
    have hroom := hall perThread calls s hr r hmem hcheck
    rw [hsize, hasRoom_iff (by omega)] at hroom
    omega
  · intro hroom perThread calls s hr r hmem hcheck
    obtain ⟨hsize, hpos, hlt⟩ := rnd_dataRequests hm hfs hr r hmem
    have hfits := (checkRequest_eq_ok.mp hcheck).2
    rw [hsize, hasRoom_iff (by omega)]
    by_contra hsmall
    rw [hsize, toInt_of_range (by norm_num) (by norm_num; omega) (by norm_num; omega)] at hfits
    omega

/-- In every run, the filling ends for each READ or WRITE request exactly if its size, as it is
passed, has room for the fields, and the two functions stay inside the block exactly if besides it
is not negative. That all requests which pass the range check have room is a matter of the
settings. -/
theorem blocks_stay_inside_iff (hp : parseArguments g o = .ok c) :
    (∀ perThread calls s, run (callStep c) (initVars perThread) calls = some s →
      ∀ r ∈ dataRequests (requests calls), (FillEnds r.size ↔ 12 ≤ toUInt 32 r.size) ∧
        (BlockAccess r.size ↔ HasRoom r.size)) ∧
    ((∀ perThread calls s, run (callStep c) (initVars perThread) calls = some s →
      ∀ r ∈ dataRequests (requests calls), checkRequest c r = .ok () → BlockAccess r.size) ↔
        ValidationHasRoom c) := by
  have h := parseArguments_ok hp
  refine ⟨fun _ _ _ _ r _ => ⟨fillEnds_iff r.size, blockAccess_iff r.size⟩, ?_⟩
  have hroomy : (∀ perThread calls s, run (callStep c) (initVars perThread) calls = some s →
      ∀ r ∈ dataRequests (requests calls), checkRequest c r = .ok () → BlockAccess r.size) ↔
      ∀ perThread calls s, run (callStep c) (initVars perThread) calls = some s →
        ∀ r ∈ dataRequests (requests calls), Roomy c r := by
    simp only [Roomy, blockAccess_iff]
  rw [hroomy, ValidationHasRoom]
  by_cases hm : SeqMode c
  · rw [forall_data_iff hm h.numFiles_pos (Roomy c)]
    by_cases hmerge : 0 < c.fileMergedRequests
    · rw [if_pos ⟨hm, hmerge⟩]
      exact roomy_merged_iff h hmerge
    · rw [if_neg fun h => hmerge h.2, imp_iff_right hm]
      exact roomy_blocks_iff h (by omega)
  · rw [if_neg fun h => hm h.1, and_iff_left fun hseq => absurd hseq hm]
    exact roomy_random_iff h hm

/-- Blocks of sixteen bytes, merged in pairs, in files of 64 bytes. -/
def pairedOptions : Options :=
  { smallOptions with fileBlockSize := 16, fileMergedRequests := 2, fileTotalSize := 64 }

def pairedConfig : Config :=
  { smallConfig with
    validate := true
    totalSize := 64
    fileSize := 64
    fileBlockSize := 16
    fileMergedRequests := 2
    fileMaxRequestSize := 32 }

theorem blocks_stay_inside_paired :
    (∀ perThread calls s, run (callStep pairedConfig) (initVars perThread) calls = some s →
      ∀ r ∈ dataRequests (requests calls), (FillEnds r.size ↔ 12 ≤ toUInt 32 r.size) ∧
        (BlockAccess r.size ↔ HasRoom r.size)) ∧
    ((∀ perThread calls s, run (callStep pairedConfig) (initVars perThread) calls = some s →
      ∀ r ∈ dataRequests (requests calls), checkRequest pairedConfig r = .ok () →
        BlockAccess r.size) ↔ ValidationHasRoom pairedConfig) :=
  blocks_stay_inside_iff (g := { smallGlobals with validate := true }) (o := pairedOptions) rfl

theorem small_blocks_left : ∃ c r, parseArguments { smallGlobals with validate := true } smallOptions =
      .ok c ∧ (∃ calls s, run (callStep c) (initVars fun _ => ⟨0, 0⟩) calls = some s ∧
        r ∈ dataRequests (requests calls)) ∧ checkRequest c r = .ok () ∧
      ¬FillEnds r.size ∧ ¬BlockAccess r.size := by
  refine ⟨{ smallConfig with validate := true }, ⟨0, 0, 4, .write⟩, rfl,
    ⟨[.request 0 [] (.file ⟨0, 0, 4, .write⟩)], _, rfl, by decide⟩, rfl, ?_, ?_⟩
  · rw [fillEnds_iff]
    decide
  · rw [blockAccess_iff]
    decide

end Sysbench.Fileio
