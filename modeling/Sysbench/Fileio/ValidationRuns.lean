import Sysbench.Fileio.Validation

/-! # Which settings validate without false alarms

A read-only run over freshly prepared files passes if all its requests are single
blocks. Merged requests, the remainder at the end of a file, and random positions in
a file whose size is no multiple of the block size are not, nor are the positions after
an overflow, unless the block size is a power of two.
-/
namespace Sysbench.Fileio

open Bytes Runs Tiling Words

variable {c : Config} {g : Globals} {o : Options}

/-- The READ passes whatever `prepare` put into the files. -/
def RequestValidates (g : Globals) (o : Options) (c : Config) (r : FileRequest) : Prop :=
  ∀ files, Created g o c files → ReadPasses c (files r.fileId) r

theorem readPasses_of_neg {file : List Byte} {r : FileRequest} (h : r.size < 0) :
    ReadPasses c file r := by
  intro buf bytes _ hbytes
  rw [filePread, if_neg (by omega)] at hbytes
  cases hbytes

section Requests

variable (hp : parseArguments g o = .ok c) (hval : c.validate = true)
  (h12 : 12 ≤ c.fileBlockSize)

include hp hval h12

/-- If the buffers cannot hold a block, no file is created. -/
theorem not_created (hfs : 0 < c.fileSize) (hmax : c.fileMaxRequestSize < c.fileBlockSize)
    (files : ℕ → List Byte) : ¬ Created g o c files := by
  intro h
  obtain ⟨-, -, -, -, hfit⟩ := h.blocks hp hval h12 (parseArguments_ok hp).numFiles_pos
  have := hfit hfs
  omega

/-- A READ inside its file passes for all contents only if it is a single block. -/
theorem requestValidates_iff (hb : 12 < c.fileBlockSize)
    (hmax : c.fileBlockSize ≤ c.fileMaxRequestSize) {r : FileRequest} (hin : InFile c r)
    (h0 : 0 ≤ r.size) (hlt : r.size < 2 ^ 31) :
    RequestValidates g o c r ↔ r.size = c.fileBlockSize ∧ c.fileBlockSize ∣ r.pos := by
  constructor
  · intro h
    obtain ⟨files, -, hcreated, -, -⟩ :=
      exists_created hp hval h12 (fun _ => hmax) (fun _ _ => ⟨0, by decide⟩)
    have hpass := h files hcreated
    have hlen := hcreated.le_length hp hval h12 hin.fileId
    have hfits := hin.fits
    have hsize : 12 ≤ r.size := by
      by_contra hshort
      exact not_readPasses_short hp hin.pos h0 (by omega) (by omega) hpass
    by_cases hdvd : c.fileBlockSize ∣ r.pos + r.size
    · exact block_of_readPasses_aligned hp hval h12 hcreated hin hsize hlt hpass hdvd
    · obtain ⟨files', hcreated', hfail⟩ := exists_not_readPasses_unaligned hp hval h12 hb
        (fun _ => hmax) hin hsize hlt hdvd
      exact absurd (h files' hcreated') hfail
  · rintro ⟨hsize, hdvd⟩ files hcreated
    exact readPasses_block hp hval h12 hcreated hin hsize hdvd

end Requests

/-! ## Sequential reads -/

theorem seqOperation_eq_read (hm : c.testMode = .read) : seqOperation c = .read := by
  simp [seqOperation, hm]

/-- An empty set of files is read by empty requests, or by ones of negative size. -/
theorem seqStream_empty (hn : 0 < c.numFiles) (hc : c.Typed) (hfs : c.fileSize = 0)
    (hmerge : 0 < c.fileMergedRequests) (hmax : 0 ≤ c.fileMaxRequestSize) :
    seqStream c 0 = ⟨0, 0, 0, seqOperation c⟩ := by
  have hmax' := hc.fileMaxRequestSize_lt
  have hsum : toInt 64 (0 + c.fileMaxRequestSize) = c.fileMaxRequestSize := by
    rw [zero_add]
    exact toInt_of_range (by norm_num) (by norm_num; omega) hmax'
  change Cursor.request c _ ⟨0, 0⟩ = _
  have hsize : seqSize c 0 = 0 := by
    rw [seqSize, if_pos hmerge, hsum, hfs]
    split_ifs
    · omega
    · rfl
  rw [Cursor.request, Cursor.rewind_of_lt hn, hsize]

/-- Block number `j` of a file is read before the file and the run end. -/
def BlockReached (c : Config) (j : ℕ) : Prop :=
  (c.maxRequests = 0 ∨ j < c.maxRequests) ∧
    ∀ k : ℕ, 0 < k → k ≤ j → toInt 64 (k * c.fileBlockSize) ≠ c.fileSize

/-- The same of a merged request. -/
def MergedReached (c : Config) (j : ℕ) : Prop :=
  (c.maxRequests = 0 ∨ j < c.maxRequests) ∧ ∀ k ≤ j, seqPos c k < c.fileSize

/-- Every READ of a sequential run that lies inside its file is a single block, or nothing can be
read at all. -/
def SeqValidationFits (c : Config) : Prop :=
  if c.fileMergedRequests = 0 then
    ∀ j, BlockReached c j → 0 ≤ toInt 64 (j * c.fileBlockSize) →
      toInt 64 (j * c.fileBlockSize) + c.fileBlockSize ≤ c.fileSize →
        c.fileBlockSize ∣ toInt 64 (j * c.fileBlockSize)
  else c.fileMaxRequestSize < 0 ∨ 0 < c.fileSize ∧ (c.fileMaxRequestSize < c.fileBlockSize ∨
    ∀ j, MergedReached c j → 0 ≤ seqPos c j → seqPos c j + c.fileMaxRequestSize < 2 ^ 63 →
      min c.fileMaxRequestSize (c.fileSize - seqPos c j) = c.fileBlockSize ∧
        c.fileBlockSize ∣ seqPos c j)

/-- A merged request that starts inside its file ends in it exactly if the sum does not overflow,
and holds then what is left of the file. -/
theorem seqSize_inside (hc : c.Typed) (hfs : 1 ≤ c.fileSize) (hmax : 1 ≤ c.fileMaxRequestSize)
    (hmerge : 0 < c.fileMergedRequests) {position : ℤ} (h0 : 0 ≤ position)
    (hlt : position < c.fileSize) :
    (position + seqSize c position ≤ c.fileSize ↔ position + c.fileMaxRequestSize < 2 ^ 63) ∧
      (position + c.fileMaxRequestSize < 2 ^ 63 →
        seqSize c position = min c.fileMaxRequestSize (c.fileSize - position)) := by
  have hfs' := hc.fileSize_lt
  by_cases hsum : position + c.fileMaxRequestSize < 2 ^ 63
  · have hstored : toInt 64 (position + c.fileMaxRequestSize) = position + c.fileMaxRequestSize :=
      toInt_of_range (by norm_num) (by norm_num; omega) (by norm_num; omega)
    rcases seqSize_cases hc hfs hmax hmerge (by omega) hlt with ⟨hsize, hle⟩ | ⟨hsize, -, hgt⟩
    · rw [hstored] at hle
      rw [hsize, min_eq_left (by omega)]
      exact ⟨iff_of_true hle hsum, fun _ => rfl⟩
    · rw [hsize, min_eq_right (by omega)]
      exact ⟨iff_of_true (by omega) hsum, fun _ => rfl⟩
  · refine ⟨iff_of_false ?_ hsum, fun h => absurd h hsum⟩
    rcases seqSize_cases hc hfs hmax hmerge (by omega) hlt with ⟨hsize, -⟩ | ⟨-, hstored, hgt⟩
    · omega
    · have hrange := toInt_lt (w := 64) (by norm_num) (position + c.fileMaxRequestSize)
      rw [hstored] at hrange
      exact absurd hrange hsum

section Sequential

variable (hp : parseArguments g o = .ok c) (hval : c.validate = true)
  (h12 : 12 ≤ c.fileBlockSize)

include hp hval h12

theorem seqStream_validates (hfit : SeqValidationFits c) {i : ℕ}
    (hi : c.maxRequests = 0 ∨ i < c.maxRequests) (hin : InFile c (seqStream c i)) :
    RequestValidates g o c (seqStream c i) := by
  intro files hcreated
  have h := parseArguments_ok hp
  have hn := h.numFiles_pos
  have hfs := h.fileSize_nonneg
  have hpos0 := hin.pos
  have hfits := hin.fits
  have hblock : (seqStream c i).size = c.fileBlockSize ∧ c.fileBlockSize ∣ (seqStream c i).pos →
      ReadPasses c (files (seqStream c i).fileId) (seqStream c i) :=
    fun h => readPasses_block hp hval h12 hcreated hin h.1 h.2
  rw [SeqValidationFits] at hfit
  by_cases hmerge : c.fileMergedRequests = 0
  · rw [if_pos hmerge] at hfit
    obtain ⟨j, hj, hpos, hbefore⟩ := cursorAt_rewind_blocks hn hmerge i
    have hstream : (seqStream c i).size = c.fileBlockSize ∧
        (seqStream c i).pos = toInt 64 (j * c.fileBlockSize) :=
      ⟨by simp [seqStream, Cursor.request, seqSize, hmerge], hpos⟩
    rw [hstream.1, hstream.2] at hfits
    rw [hstream.2] at hpos0
    refine hblock ⟨hstream.1, ?_⟩
    rw [hstream.2]
    exact hfit j ⟨by omega, hbefore⟩ hpos0 hfits
  have hmerge' : 0 < c.fileMergedRequests := by omega
  rw [if_neg hmerge] at hfit
  rcases hfit with hneg | ⟨hpos, hfit⟩
  · rcases hfs.lt_or_eq with hpos | hzero
    · exact absurd hcreated (not_created hp hval h12 hpos (by omega) files)
    · -- no file has any bytes, and every request is of negative size
      apply readPasses_of_neg
      rw [← hzero] at hfits
      by_cases hstart : (seqStream c i).pos = 0
      · have hlow := h.typed.le_fileMaxRequestSize
        have hsize : (seqStream c i).size = seqSize c (seqStream c i).pos := rfl
        rw [hsize, hstart, seqSize, if_pos hmerge', zero_add,
          toInt_of_range (by norm_num) hlow (by norm_num; omega), if_pos (by omega)]
        exact hneg
      · omega
  · rcases hfit with hlt | hfit
    · exact absurd hcreated (not_created hp hval h12 hpos hlt files)
    · by_cases hlt : c.fileMaxRequestSize < c.fileBlockSize
      · exact absurd hcreated (not_created hp hval h12 hpos hlt files)
      obtain ⟨j, hj, hcursor, hbefore⟩ :=
        cursorAt_rewind_eq hn h.typed hpos (by omega) hmerge' i
      have hstream : (seqStream c i).size = seqSize c (seqPos c j) ∧
          (seqStream c i).pos = seqPos c j := by
        refine ⟨?_, hcursor⟩
        rw [seqStream, Cursor.request, hcursor]
      rw [hstream.1, hstream.2] at hfits
      rw [hstream.2] at hpos0
      obtain ⟨hiff, hsize⟩ := seqSize_inside h.typed hpos (by omega) hmerge' hpos0
        (hbefore j le_rfl)
      obtain ⟨hwhole, hdvd⟩ := hfit j ⟨by omega, hbefore⟩ hpos0 (hiff.mp hfits)
      exact hblock ⟨by rw [hstream.1, hsize (hiff.mp hfits), hwhole], by rw [hstream.2]; exact hdvd⟩

theorem seqValidationFits_of_validates (hb : 12 < c.fileBlockSize)
    (h : ∀ i, (c.maxRequests = 0 ∨ i < c.maxRequests) → InFile c (seqStream c i) →
      RequestValidates g o c (seqStream c i)) : SeqValidationFits c := by
  have hacc := parseArguments_ok hp
  have hn := hacc.numFiles_pos
  have hfs := hacc.fileSize_nonneg
  have hblt := hacc.fileBlockSize_lt
  have hmlt := hacc.maxRequestSize_range.2
  rw [SeqValidationFits]
  by_cases hmerge : c.fileMergedRequests = 0
  · rw [if_pos hmerge]
    intro j hj h0 hend
    have hmax : c.fileMaxRequestSize = c.fileBlockSize := by
      rw [hacc.maxRequestSize, if_neg (by omega)]
    have hstream : seqStream c j =
        ⟨0, toInt 64 (j * c.fileBlockSize), c.fileBlockSize, seqOperation c⟩ := by
      rw [seqStream, cursorAt_blocks hn hmerge hj.2, Cursor.request, Cursor.rewind_of_lt hn,
        seqSize, if_neg (by omega)]
    have hin : InFile c (seqStream c j) := by
      rw [hstream]
      exact ⟨hn, h0, hend⟩
    have hblock := (requestValidates_iff hp hval h12 hb hmax.ge hin
      (by rw [hstream]; dsimp only; omega) (by rw [hstream]; exact hblt)).mp (h j hj.1 hin)
    rw [hstream] at hblock
    exact hblock.2
  have hmerge' : 0 < c.fileMergedRequests := by omega
  rw [if_neg hmerge, or_iff_not_imp_left]
  intro hneg
  rcases hfs.lt_or_eq with hpos | hempty
  · refine ⟨hpos, or_iff_not_imp_left.mpr fun hfit j hj h0 hsum => ?_⟩
    obtain ⟨hiff, hsize⟩ := seqSize_inside hacc.typed hpos (by omega) hmerge' h0 (hj.2 j le_rfl)
    have hstream : seqStream c j = ⟨0, seqPos c j, seqSize c (seqPos c j), seqOperation c⟩ := by
      rw [seqStream, cursorAt_first hn hacc.typed hpos (by omega) hmerge' hj.2, Cursor.request,
        Cursor.rewind_of_lt hn]
    have hin : InFile c (seqStream c j) := by
      rw [hstream]
      exact ⟨hn, h0, hiff.mpr hsum⟩
    have hlt := hj.2 j le_rfl
    rw [hsize hsum] at hstream
    have hblock := (requestValidates_iff hp hval h12 hb (by omega) hin
      (by rw [hstream]; dsimp only; omega) (by rw [hstream]; dsimp only; omega)).mp (h j hj.1 hin)
    rw [hstream] at hblock
    exact hblock
  · have hr := seqStream_empty hn hacc.typed hempty.symm hmerge' (by omega)
    have hin : InFile c (seqStream c 0) := by
      rw [hr]
      exact ⟨hn, le_rfl, by dsimp only; omega⟩
    obtain ⟨files, -, hcreated, -, -⟩ :=
      exists_created hp hval h12 (fun hpos => by omega) (fun _ _ => ⟨0, by decide⟩)
    have hpass := h 0 (by omega) hin files hcreated
    rw [hr] at hpass
    exact absurd hpass (not_readPasses_short hp le_rfl le_rfl (by norm_num) (by simp))

end Sequential

/-! ## The condition without an overflow -/

/-- As long as no position overflows, unmerged reads validate. -/
theorem seqValidationFits_blocks (hb : 0 < c.fileBlockSize) (hmerge : c.fileMergedRequests = 0)
    (hfit : c.fileBlockSize ∣ c.fileSize ∧ c.fileSize < 2 ^ 63 ∧ 0 < c.fileSize ∨
      0 < c.maxRequests ∧ c.maxRequests * c.fileBlockSize ≤ 2 ^ 63) : SeqValidationFits c := by
  rw [SeqValidationFits, if_pos hmerge]
  rintro j ⟨hlimit, hmiss⟩ - -
  suffices hexact : toInt 64 (j * c.fileBlockSize) = j * c.fileBlockSize by
    rw [hexact]
    exact dvd_mul_left _ _
  have hpos : 0 ≤ (j : ℤ) * c.fileBlockSize := by positivity
  suffices hlt : (j : ℤ) * c.fileBlockSize < 2 ^ 63 from
    toInt_of_range (by norm_num) (by norm_num; omega) hlt
  rcases hfit with ⟨⟨q, hq⟩, hlt, hfs⟩ | ⟨hmax, hle⟩
  · by_contra hge
    have hq0 : 0 < q := by
      by_contra hneg
      have := mul_nonpos_of_nonneg_of_nonpos hb.le (not_lt.mp hneg)
      omega
    obtain ⟨k, rfl⟩ := Int.eq_ofNat_of_zero_le hq0.le
    have hkj : k ≤ j := by
      by_contra hgt
      have hmul := mul_le_mul_of_nonneg_right (show (j : ℤ) ≤ k by omega) hb.le
      rw [mul_comm (k : ℤ), ← hq] at hmul
      omega
    refine hmiss k (by omega) hkj ?_
    rw [mul_comm, ← hq]
    exact toInt_of_range (by norm_num) (by norm_num; omega) hlt
  · have hmul := mul_lt_mul_of_pos_right (show (j : ℤ) < c.maxRequests by omega) hb
    omega

/-- Below the overflow the merged requests of a file start at the multiples of their size. -/
theorem seqPos_of_lt (hmax : 0 < c.fileMaxRequestSize) {j : ℕ}
    (hlt : j * c.fileMaxRequestSize < 2 ^ 63) : seqPos c j = j * c.fileMaxRequestSize := by
  have hpos : 0 ≤ (j : ℤ) * c.fileMaxRequestSize := by positivity
  exact toInt_of_range (by norm_num) (by norm_num; omega) hlt

theorem mergedReached_iff (hmax : 0 < c.fileMaxRequestSize)
    (hover : c.fileSize + c.fileMaxRequestSize < 2 ^ 63) (j : ℕ) :
    MergedReached c j ↔ (c.maxRequests = 0 ∨ j < c.maxRequests) ∧
      (j * c.fileMaxRequestSize < c.fileSize) := by
  refine and_congr_right fun hlimit => ?_
  clear hlimit
  refine ⟨fun hall => ?_, fun hlt k hk => ?_⟩
  · induction j with
    | zero => simpa [seqPos, toInt] using hall 0 le_rfl
    | succ j ih =>
      have hprev := ih fun k hk => hall k (by omega)
      have hsum : ((j + 1 : ℕ) : ℤ) * c.fileMaxRequestSize < 2 ^ 63 := by
        rw [Nat.cast_succ, add_mul, one_mul]
        omega
      rw [← seqPos_of_lt hmax hsum]
      exact hall (j + 1) le_rfl
  · have hle := mul_le_mul_of_nonneg_right (show (k : ℤ) ≤ j by omega) hmax.le
    rw [seqPos_of_lt hmax (by omega)]
    omega

/-- As long as no sum overflows, merged reads validate exactly if each file is one block, or all
requests that are reached are. -/
theorem seqValidationFits_merged_iff (hb : 0 < c.fileBlockSize) (hmerge : c.fileMergedRequests ≠ 0)
    (hfs : 0 < c.fileSize) (hmax : c.fileBlockSize ≤ c.fileMaxRequestSize)
    (hover : c.fileSize + c.fileMaxRequestSize < 2 ^ 63) :
    SeqValidationFits c ↔ c.fileSize = c.fileBlockSize ∨
      c.fileMaxRequestSize = c.fileBlockSize ∧ (c.fileBlockSize ∣ c.fileSize ∨
        0 < c.maxRequests ∧ (c.maxRequests : ℤ) ≤ c.fileSize / c.fileBlockSize) := by
  have hpos : 0 < c.fileMaxRequestSize := by omega
  have hcond : SeqValidationFits c ↔ ∀ j : ℕ, (c.maxRequests = 0 ∨ j < c.maxRequests) →
      j * c.fileMaxRequestSize < c.fileSize →
        min c.fileMaxRequestSize (c.fileSize - j * c.fileMaxRequestSize) = c.fileBlockSize ∧
          c.fileBlockSize ∣ j * c.fileMaxRequestSize := by
    rw [SeqValidationFits, if_neg hmerge, or_iff_right (by omega), and_iff_right hfs,
      or_iff_right (by omega)]
    refine forall_congr' fun j => ?_
    rw [mergedReached_iff hpos hover, and_imp]
    refine forall_congr' fun _ => forall_congr' fun hlt => ?_
    have h0 : 0 ≤ (j : ℤ) * c.fileMaxRequestSize := by positivity
    rw [seqPos_of_lt hpos (by omega), imp_iff_right h0, imp_iff_right (by omega)]
  rw [hcond]
  constructor
  · intro hall
    have hfirst := (hall 0 (by omega) (by simpa using hfs)).1
    rw [Nat.cast_zero, zero_mul, sub_zero] at hfirst
    rw [or_iff_not_imp_left]
    intro hne
    have heq : c.fileMaxRequestSize = c.fileBlockSize := by omega
    refine ⟨heq, or_iff_not_imp_left.mpr fun hdvd => ?_⟩
    -- the last request of the first file is shorter than a block
    obtain ⟨q, hq⟩ := Int.eq_ofNat_of_zero_le (Int.ediv_nonneg hfs.le hb.le)
    have hlow := Int.ediv_mul_le c.fileSize hb.ne'
    have hhigh := Int.lt_ediv_add_one_mul_self c.fileSize hb
    rw [hq] at hlow hhigh ⊢
    rw [add_mul, one_mul] at hhigh
    by_contra hlimit
    have hcut : (q : ℤ) * c.fileBlockSize < c.fileSize :=
      lt_of_le_of_ne hlow fun h => hdvd ⟨q, by rw [mul_comm, h]⟩
    have hlast := (hall q (by omega) (by rwa [heq])).1
    rw [heq] at hlast
    omega
  · rintro (hone | ⟨heq, hfit⟩) j hlimit hlt
    · -- the only request of a file
      have hj : j = 0 := by
        by_contra hj
        have hle := le_mul_of_one_le_left hpos.le (show (1 : ℤ) ≤ j by omega)
        omega
      subst hj
      rw [Nat.cast_zero, zero_mul, sub_zero]
      exact ⟨by omega, dvd_zero _⟩
    · rw [heq] at hlt ⊢
      refine ⟨min_eq_left ?_, dvd_mul_left _ _⟩
      have hnext : ((j : ℤ) + 1) * c.fileBlockSize ≤ c.fileSize := by
        rcases hfit with ⟨q, hq⟩ | ⟨hreq, hle⟩
        · rw [hq, mul_comm c.fileBlockSize] at hlt ⊢
          have hjq := lt_of_mul_lt_mul_right hlt hb.le
          exact mul_le_mul_of_nonneg_right (by omega) hb.le
        · exact (Int.le_ediv_iff_mul_le hb).mp (by omega)
      rw [add_mul, one_mul] at hnext
      omega

/-! ## Random reads -/

/-- Every data request of a random run is built from a draw. -/
theorem calls_drawn (hm : ¬ SeqMode c) {perThread : ℕ → PerThread} {calls : List Call} {s : Vars}
    (hr : run (callStep c) (initVars perThread) calls = some s) {r : FileRequest}
    (hmem : .file r ∈ requests calls) (hop : r.operation = .read ∨ r.operation = .write) :
    c.fileSize ≠ 0 ∧ ∃ op d, r = rndRequest c op (scaleDraw c.totalSize d) := by
  refine run_invariant (I := fun calls _ => ∀ r, .file r ∈ requests calls →
    r.operation = .read ∨ r.operation = .write →
      c.fileSize ≠ 0 ∧ ∃ op d, r = rndRequest c op (scaleDraw c.totalSize d))
    (by simp) ?_ hr r hmem hop
  intro calls s call t _ hall hstep r hmem hop
  cases call with
  | request threadId draws q =>
    rw [requests_append_request, List.mem_append, List.mem_singleton] at hmem
    rcases hmem with hmem | rfl
    · exact hall r hmem hop
    · have hget := callStep_request_iff.mp hstep
      rw [fileGetRequest, if_neg hm] at hget
      obtain ⟨hz, ⟨d, -, rfl⟩, -⟩ := retryLoop_mem (fileGetRndRequestBy_data hget hop).1
      exact ⟨hz, _, d, rfl⟩
  | stats v =>
    rw [requests_append_stats] at hmem
    exact hall r hmem hop

/-- Every draw whose block lies in a file reads it at a multiple of the block size, or no
file can be created. -/
def RndValidationFits (c : Config) : Prop :=
  c.fileMaxRequestSize < c.fileBlockSize ∨
    ∀ (d : Draw) (k : ℤ), k * c.fileBlockSize ≤ scaleDraw c.totalSize d →
      scaleDraw c.totalSize d < (k + 1) * c.fileBlockSize →
      BlockFits c.numFiles c.fileSize (k * c.fileBlockSize) c.fileBlockSize →
      c.fileBlockSize ∣ k * c.fileBlockSize % c.fileSize

def ValidationFits (c : Config) : Prop :=
  if c.testMode = .read then SeqValidationFits c else RndValidationFits c

section Random

variable (hp : parseArguments g o = .ok c) (hval : c.validate = true)
  (h12 : 12 ≤ c.fileBlockSize)

include hp hval h12

theorem rndRequest_validates (hfit : RndValidationFits c) (hfs : c.fileSize ≠ 0) (op : FileOp)
    (d : Draw) (hin : InFile c (rndRequest c op (scaleDraw c.totalSize d))) :
    RequestValidates g o c (rndRequest c op (scaleDraw c.totalSize d)) := by
  intro files hcreated
  have h := parseArguments_ok hp
  have hpos : 0 < c.fileSize := h.fileSize_nonneg.lt_of_ne hfs.symm
  obtain ⟨h0, hlt⟩ := scales_draw c.totalSize d h.totalSize_pos
  rcases hfit with hlt | hfit
  · exact absurd hcreated (not_created hp hval h12 hpos hlt files)
  · have hk := rndOffset_eq c (scaleDraw c.totalSize d)
    obtain ⟨hlo, hhi⟩ := (rndOffset_eq_iff h.fileBlockSize_pos _ _).mp hk
    have hblock := (rndRequest_inFile_iff h hpos op h0 hlt).mp hin
    rw [hk] at hblock
    have hdvd := hfit d _ hlo hhi hblock
    rw [← hk] at hdvd
    exact readPasses_block hp hval h12 hcreated hin rfl hdvd

theorem rndValidationFits_of_validates (hm : c.testMode = .rndRead) (hb : 12 < c.fileBlockSize)
    (h : ReadsValidate g o c) : RndValidationFits c := by
  have hacc := parseArguments_ok hp
  by_contra hno
  simp only [RndValidationFits, not_or, not_forall] at hno
  obtain ⟨hmax, d, k, hlo, hhi, hblock, hdvd⟩ := hno
  obtain ⟨h0, hlt⟩ := scales_draw c.totalSize d hacc.totalSize_pos
  have hpos : 0 < c.fileSize := by
    refine hacc.fileSize_nonneg.lt_of_ne fun hz => hdvd ?_
    rw [← hz, Int.emod_zero]
    exact dvd_mul_left _ _
  have hk := (rndOffset_eq_iff hacc.fileBlockSize_pos _ k).mpr ⟨hlo, hhi⟩
  have hseq : ¬ SeqMode c := by
    unfold SeqMode
    simp [hm]
  -- the request of this draw opens a run
  obtain ⟨t, hget⟩ := fileGetRndRequestBy_first scaleDraw hpos d
  have hop : rndOperation c (initVars fun _ => ⟨0, -1⟩) = .read := by
    simp [rndOperation, rndMode, hm]
  rw [hop] at hget
  have hin : InFile c (rndRequest c .read (scaleDraw c.totalSize d)) := by
    rw [rndRequest_inFile_iff hacc hpos _ h0 hlt, hk]
    exact hblock
  have hrun : run (callStep c) (initVars fun _ => ⟨0, -1⟩)
      [.request 0 [d] (.file (rndRequest c .read (scaleDraw c.totalSize d)))] = some t := by
    rw [run_cons, callStep_request_iff.mpr, Option.bind_some, run_nil]
    rw [fileGetRequest, if_neg hseq]
    exact hget
  have hvalid : RequestValidates g o c (rndRequest c .read (scaleDraw c.totalSize d)) := by
    intro files hcreated
    exact h files hcreated _ _ _ hrun _ (by simp [requests, Call.handedOut]) rfl hin
  have hblt := hacc.fileBlockSize_lt
  have hsize : (rndRequest c .read (scaleDraw c.totalSize d)).size = c.fileBlockSize := rfl
  have haligned := ((requestValidates_iff hp hval h12 hb (by omega) hin (by omega)
    (by omega)).mp hvalid).2
  rw [rndRequest, hk] at haligned
  exact hdvd haligned

end Random

theorem seqValidationFits_of_readsValidate (hp : parseArguments g o = .ok c)
    (hval : c.validate = true) (hread : c.testMode = .read) (h12 : 12 ≤ c.fileBlockSize)
    (hb : 12 < c.fileBlockSize) (h : ReadsValidate g o c) : SeqValidationFits c := by
  have hseq : SeqMode c := .inr (.inr hread)
  have hstream := forall_data_iff hseq (parseArguments_ok hp).numFiles_pos
    fun r => InFile c r → RequestValidates g o c r
  refine seqValidationFits_of_validates hp hval h12 hb (hstream.mp ?_)
  intro perThread calls s hr r hmem hin files hcreated
  have hop : r.operation = .read := by
    rw [(run_streamInv hseq hr).data] at hmem
    obtain ⟨i, -, rfl⟩ := List.mem_map.mp hmem
    exact seqOperation_eq_read hread
  exact h files hcreated perThread calls s hr r (mem_dataRequests.mp hmem).1 hop hin

/-- Read-only runs over prepared files raise no false alarm under the settings of
`ValidationFits`, and, as soon as a block holds a random byte, only under them. -/
theorem readsValidate_iff (hp : parseArguments g o = .ok c) (hval : c.validate = true)
    (hm : c.testMode = .read ∨ c.testMode = .rndRead) (h12 : 12 ≤ c.fileBlockSize) :
    (ValidationFits c → ReadsValidate g o c) ∧
      (12 < c.fileBlockSize → ReadsValidate g o c → ValidationFits c) := by
  have hn := (parseArguments_ok hp).numFiles_pos
  by_cases hread : c.testMode = .read
  · rw [ValidationFits, if_pos hread]
    constructor
    · intro hfit files hcreated perThread calls s hr r hmem hop hin
      have hstream := forall_data_iff (.inr (.inr hread)) hn
        fun r => InFile c r → RequestValidates g o c r
      exact hstream.mpr (fun i hi hin => seqStream_validates hp hval h12 hfit hi hin) perThread
        calls s hr r (mem_dataRequests.mpr ⟨hmem, .inl hop⟩) hin files hcreated
    · exact seqValidationFits_of_readsValidate hp hval hread h12
  · have hrnd := hm.resolve_left hread
    have hseq : ¬ SeqMode c := by
      unfold SeqMode
      simp [hrnd]
    rw [ValidationFits, if_neg hread]
    constructor
    · intro hfit files hcreated perThread calls s hr r hmem hop hin
      obtain ⟨hz, op, d, rfl⟩ := calls_drawn hseq hr hmem (.inl hop)
      exact rndRequest_validates hp hval h12 hfit hz op d hin files hcreated
    · intro hb h
      exact rndValidationFits_of_validates hp hval h12 hrnd hb h

def pairOptions : Options :=
  { smallOptions with
    fileBlockSize := 16, fileTotalSize := 64, fileTestMode := some "seqrd"
    fileMergedRequests := 2 }

def pairConfig : Config :=
  { smallConfig with
    validate := true, totalSize := 64, fileSize := 64, fileBlockSize := 16
    fileMergedRequests := 2, fileMaxRequestSize := 32, testMode := .read }

theorem readsValidate_iff_pair : (ValidationFits pairConfig →
      ReadsValidate { smallGlobals with validate := true } pairOptions pairConfig) ∧
    (12 < pairConfig.fileBlockSize →
      ReadsValidate { smallGlobals with validate := true } pairOptions pairConfig →
        ValidationFits pairConfig) :=
  readsValidate_iff rfl rfl (.inl rfl) (by decide)

/-- The checksum and offset of a merged READ are those of its last block. -/
theorem readsValidate_pair : ∃ g o c, parseArguments g o = .ok c ∧ c.validate = true ∧
    c.testMode = .read ∧ 12 ≤ c.fileBlockSize ∧ c.fileIoMode = .sync ∧ ¬ ReadsValidate g o c := by
  refine ⟨{ smallGlobals with validate := true }, pairOptions, pairConfig, rfl, rfl, rfl,
    by decide, rfl, fun h => ?_⟩
  have hfits : ¬ SeqValidationFits pairConfig := by
    rw [SeqValidationFits, if_neg (by decide)]
    rintro (hneg | ⟨-, hlt | hall⟩)
    · exact absurd hneg (by decide)
    · exact absurd hlt (by decide)
    · -- the first request is longer than a block
      have hfirst := hall 0 ⟨.inr (by decide), fun k hk => by rw [Nat.le_zero.mp hk]; decide⟩ (by decide)
        (by decide)
      exact absurd hfirst.1 (by decide)
  exact hfits (seqValidationFits_of_readsValidate rfl rfl rfl (by decide) (by decide) h)

end Sysbench.Fileio
