import Sysbench.Fileio.Random

/-! # Whether the retry loop can end

In the validation mode a random request is refused while another thread has its block on record.
The records stay when a request is finished, so that each of the other threads holds a block for
good.
-/
namespace Sysbench.Fileio

open Doubles Runs Words

def FileRequest.block (r : FileRequest) : ℕ × ℤ := (r.fileId, r.pos)

def reachableBlocks (c : Config) : Finset (ℕ × ℤ) :=
  Finset.univ.image fun d : Draw => (rndRequest c .read (scaleDraw c.totalSize d)).block

def CanReturn (c : Config) (s : Vars) (threadId : ℕ) : Prop :=
  ∃ d : Draw, fileGetRndRequest c s threadId [d] ≠ none

def RetryEnds (c : Config) : Prop :=
  ∀ perThread calls s, run (callStep c) (initVars perThread) calls = some s →
    ∀ threadId < c.numThreads, CanReturn c s threadId

variable {c : Config}

theorem blockInUse_eq_true_iff {s : Vars} {threadId : ℕ} {r : FileRequest} :
    blockInUse c s threadId r = true ↔
      ∃ i < c.numThreads, i ≠ threadId ∧
        ((s.perThread i).bufferFileId, (s.perThread i).bufferPos) = r.block := by
  rw [blockInUse, List.any_eq_true]
  constructor
  · rintro ⟨i, hi, hrec⟩
    obtain ⟨hne, hfile, hpos⟩ := decide_eq_true_eq.mp hrec
    exact ⟨i, List.mem_range.mp hi, hne, Prod.ext hfile hpos⟩
  · rintro ⟨i, hi, hne, hblock⟩
    obtain ⟨hfile, hpos⟩ := Prod.ext_iff.mp hblock
    exact ⟨i, List.mem_range.mpr hi, decide_eq_true ⟨hne, hfile, hpos⟩⟩

theorem retryLoop_single (hv : c.validate = true) {s : Vars} {threadId : ℕ} {op : FileOp}
    {d : Draw} : retryLoop c scaleDraw s threadId op [d] ≠ none ↔
      c.fileSize ≠ 0 ∧
        blockInUse c s threadId (rndRequest c op (scaleDraw c.totalSize d)) = false := by
  rw [retryLoop]
  by_cases hz : c.fileSize = 0
  · simp [hz]
  · rw [if_neg hz]
    dsimp only
    rw [hv, Bool.true_and]
    cases blockInUse c s threadId (rndRequest c op (scaleDraw c.totalSize d)) <;>
      simp [hz, retryLoop]

/-- Some block that can be drawn is on record for no other thread. -/
theorem exists_free_block {s : Vars} {threadId : ℕ} (ht : threadId < c.numThreads)
    (hcard : c.numThreads ≤ (reachableBlocks c).card) :
    ∃ d : Draw, ∀ op,
      blockInUse c s threadId (rndRequest c op (scaleDraw c.totalSize d)) = false := by
  have hothers : (((Finset.range c.numThreads).erase threadId).image fun i =>
      ((s.perThread i).bufferFileId, (s.perThread i).bufferPos)).card <
        (reachableBlocks c).card := by
    have himage := Finset.card_image_le (s := (Finset.range c.numThreads).erase threadId)
      (f := fun i => ((s.perThread i).bufferFileId, (s.perThread i).bufferPos))
    rw [Finset.card_erase_of_mem (Finset.mem_range.mpr ht), Finset.card_range] at himage
    omega
  obtain ⟨b, hb, hfree⟩ := Finset.exists_mem_notMem_of_card_lt_card hothers
  obtain ⟨d, -, rfl⟩ := Finset.mem_image.mp hb
  refine ⟨d, fun op => ?_⟩
  rw [Bool.eq_false_iff, Ne, blockInUse_eq_true_iff]
  rintro ⟨i, hi, hne, hrec⟩
  exact hfree (Finset.mem_image.mpr
    ⟨i, Finset.mem_erase.mpr ⟨hne, Finset.mem_range.mpr hi⟩, hrec⟩)

theorem canReturn (hv : c.validate = true) (hfs : c.fileSize ≠ 0) {s : Vars} {threadId : ℕ}
    (ht : threadId < c.numThreads) (hcard : c.numThreads ≤ (reachableBlocks c).card) :
    CanReturn c s threadId := by
  obtain ⟨d, hfree⟩ := exists_free_block (s := s) ht hcard
  have hloop : retryLoop c scaleDraw s threadId (rndOperation c s) [d] ≠ none :=
    (retryLoop_single hv).mpr ⟨hfs, hfree _⟩
  refine ⟨d, ?_⟩
  unfold fileGetRndRequest fileGetRndRequestBy
  split_ifs
  · exact Option.some_ne_none _
  · exact Option.some_ne_none _
  · exact Option.some_ne_none _
  · rw [Ne, Option.map_eq_none_iff]
    exact hloop

/-- At the start nothing but the loop is left to the generator. -/
theorem canReturn_init {perThread : ℕ → PerThread} {threadId : ℕ}
    (h : CanReturn c (initVars perThread) threadId) :
    ∃ d op, retryLoop c scaleDraw (initVars perThread) threadId op [d] ≠ none := by
  obtain ⟨d, hd⟩ := h
  have hdone : ¬ (initVars perThread).Done c := by
    rintro ⟨hpos, hle⟩
    exact absurd hle (not_le.mpr hpos)
  have hclean : ¬ (c.fileFsyncFreq ≠ 0 ∧ (initVars perThread).isDirty ∧
      (initVars perThread).reqPerformed % c.fileFsyncFreq = 0) := fun hdue => by cases hdue.2.1
  unfold fileGetRndRequest fileGetRndRequestBy at hd
  rw [if_neg hdone, if_neg hclean, Ne, Option.map_eq_none_iff] at hd
  exact ⟨d, _, hd⟩

/-- The threads behind the first one have the blocks of the list on record. -/
def holding (blocks : List (ℕ × ℤ)) (i : ℕ) : PerThread :=
  ((blocks[i - 1]?).map fun b => ⟨b.1, b.2⟩).getD ⟨0, 0⟩

theorem holding_succ {blocks : List (ℕ × ℤ)} {j : ℕ} {b : ℕ × ℤ} (h : blocks[j]? = some b) :
    ((holding blocks (j + 1)).bufferFileId, (holding blocks (j + 1)).bufferPos) = b := by
  rw [holding, Nat.add_sub_cancel, h]
  rfl

theorem RetryEnds.fileSize_ne_zero (hends : RetryEnds c) (hv : c.validate = true)
    (hpos : 0 < c.numThreads) : c.fileSize ≠ 0 := by
  obtain ⟨d, op, hd⟩ := canReturn_init (hends (fun _ => ⟨0, 0⟩) [] _ rfl 0 hpos)
  exact ((retryLoop_single hv).mp hd).1

/-- With more threads all blocks can be on record for threads other than the first. -/
theorem RetryEnds.numThreads_le (hends : RetryEnds c) (hv : c.validate = true)
    (hpos : 0 < c.numThreads) : c.numThreads ≤ (reachableBlocks c).card := by
  by_contra hlt
  obtain ⟨d, op, hd⟩ :=
    canReturn_init (hends (holding (reachableBlocks c).toList) [] _ rfl 0 hpos)
  have hmem : (rndRequest c op (scaleDraw c.totalSize d)).block ∈ (reachableBlocks c).toList :=
    Finset.mem_toList.mpr (Finset.mem_image_of_mem _ (Finset.mem_univ d))
  obtain ⟨j, hj⟩ := List.mem_iff_getElem?.mp hmem
  have hjlt : j < (reachableBlocks c).card := by
    rw [← Finset.length_toList]
    exact (List.getElem?_eq_some_iff.mp hj).1
  have huse : blockInUse c (initVars (holding (reachableBlocks c).toList)) 0
      (rndRequest c op (scaleDraw c.totalSize d)) = true :=
    blockInUse_eq_true_iff.mpr ⟨j + 1, by omega, Nat.succ_ne_zero j, holding_succ hj⟩
  rw [((retryLoop_single hv).mp hd).2] at huse
  cases huse

/-- The loop can always end exactly if no file is empty and there is a block for each thread. -/
theorem retryEnds_iff (hv : c.validate = true) :
    RetryEnds c ↔
      (0 < c.numThreads → c.fileSize ≠ 0 ∧ c.numThreads ≤ (reachableBlocks c).card) := by
  constructor
  · exact fun hends hpos => ⟨hends.fileSize_ne_zero hv hpos, hends.numThreads_le hv hpos⟩
  · intro hcond perThread calls s _ threadId ht
    obtain ⟨hfs, hcard⟩ := hcond (by omega)
    exact canReturn hv hfs ht hcard

/-! ## How many blocks there are -/

/-- Up to `2 ^ 29`, the roundings are too small to leave the byte from an eighth inside it. -/
theorem scaleDraw_eq {totalSize n : ℕ} {d : Draw} (ht : totalSize ≤ 2 ^ 29)
    (hn : n < totalSize) (h : ((n : ℚ) + 1 / 8) / totalSize ≤ (d : ℕ) / sbMaxRnd)
    (h' : ((d : ℕ) : ℚ) / sbMaxRnd ≤ (n + 13 / 16) / totalSize) : scaleDraw totalSize d = n := by
  have hT : (0 : ℚ) < totalSize := by exact_mod_cast (show 0 < totalSize by omega)
  have hT' : (totalSize : ℚ) ≤ 2 ^ 29 := by exact_mod_cast ht
  have hnT : (n : ℚ) + 1 ≤ totalSize := by exact_mod_cast hn
  have hn29 : n < 2 ^ 29 := lt_of_lt_of_le hn ht
  rw [scaleDraw, Int.cast_natCast, nearest_natCast (le_trans ht (by norm_num))]
  generalize ((d : ℕ) : ℚ) / sbMaxRnd = q at *
  have hq : 0 < q := lt_of_lt_of_le (by positivity) h
  have hq1 : q < 2 ^ (0 : ℤ) := by
    refine h'.trans_lt ?_
    rw [zpow_zero, div_lt_one hT]
    linarith
  rw [div_le_iff₀ hT] at h
  rw [le_div_iff₀ hT] at h'
  have hsmall : (2 : ℚ) ^ (0 - 54 : ℤ) * totalSize ≤ 1 / 16 := by
    norm_num
    linarith
  have herr : |nearest q * totalSize - q * totalSize| ≤ 1 / 16 := by
    rw [← sub_mul, abs_mul, abs_of_pos hT]
    exact (mul_le_mul_of_nonneg_right (abs_nearest_sub_le hq hq1) hT.le).trans hsmall
  obtain ⟨herr, herr'⟩ := abs_le.mp herr
  have hlow : ((n : ℕ) * 2 ^ (0 : ℤ) : ℚ) ≤ nearest (nearest q * totalSize) := by
    refine le_nearest (by omega) ?_
    rw [zpow_zero, mul_one]
    linarith
  have hhigh : nearest (nearest q * totalSize) ≤ (8 * n + 7 : ℕ) * 2 ^ (-3 : ℤ) := by
    refine nearest_le (by omega) (mul_nonneg (nearest_nonneg hq.le) hT.le) ?_
    push_cast
    norm_num
    linarith
  rw [Int.floor_eq_iff]
  constructor
  · simpa using hlow
  · push_cast at hhigh ⊢
    norm_num at hhigh
    linarith

/-- Up to `2 ^ 29`, two draws in a row are at most half a byte apart, and every offset is drawn. -/
theorem exists_scaleDraw_eq {totalSize n : ℕ} (ht : totalSize ≤ 2 ^ 29) (hn : n < totalSize) :
    ∃ d : Draw, scaleDraw totalSize d = n := by
  have hT : (0 : ℚ) < totalSize := by exact_mod_cast (show 0 < totalSize by omega)
  have hT' : (totalSize : ℚ) ≤ 2 ^ 29 := by exact_mod_cast ht
  have hnT : (n : ℚ) + 1 ≤ totalSize := by exact_mod_cast hn
  have hM : (sbMaxRnd : ℚ) = 2 ^ 30 - 1 := by norm_num [sbMaxRnd]
  have hM0 : (0 : ℚ) < sbMaxRnd := by norm_num [sbMaxRnd]
  -- the first draw that is scaled to an eighth past the offset or more
  obtain ⟨x, hx⟩ : ∃ x : ℚ, x = ((n : ℚ) + 1 / 8) / totalSize * sbMaxRnd := ⟨_, rfl⟩
  have hx0 : 0 ≤ x := by
    rw [hx]
    positivity
  have hceil : (⌈x⌉₊ : ℚ) < x + 1 := Nat.ceil_lt_add_one hx0
  have hlt : ⌈x⌉₊ < sbMaxRnd := by
    have hbound : x + 1 ≤ sbMaxRnd := by
      rw [hx, ← le_sub_iff_add_le, div_mul_eq_mul_div, div_le_iff₀ hT, hM]
      nlinarith
    exact_mod_cast hceil.trans_le hbound
  refine ⟨⟨⌈x⌉₊, hlt⟩, scaleDraw_eq ht hn ?_ ?_⟩
  · rw [le_div_iff₀ hM0, ← hx]
    exact Nat.le_ceil x
  · rw [div_le_iff₀ hM0]
    refine hceil.le.trans ?_
    have hstep : 1 ≤ 11 / 16 / (totalSize : ℚ) * sbMaxRnd := by
      rw [div_mul_eq_mul_div, le_div_iff₀ hT, hM]
      linarith
    calc x + 1 ≤ x + 11 / 16 / (totalSize : ℚ) * sbMaxRnd := by linarith
      _ = (n + 13 / 16) / totalSize * sbMaxRnd := by
        rw [hx]
        ring

-- a larger total size below `SB_MAX_RND` can lose an offset between two draws
example : scaleDraw 1073741820 ⟨357913951, by decide⟩ = 357913949 ∧
    scaleDraw 1073741820 ⟨357913952, by decide⟩ = 357913951 := by
  decide +kernel

/-- Up to `2 ^ 29` every block of the total size is drawn. -/
theorem exists_rndOffset_eq (hb : 0 < c.fileBlockSize) (ht : c.totalSize ≤ 2 ^ 29) {k : ℕ}
    (hlt : k * c.fileBlockSize < c.totalSize) :
    ∃ d : Draw, rndOffset c (scaleDraw c.totalSize d) = k * c.fileBlockSize := by
  obtain ⟨total, htotal⟩ := Int.eq_ofNat_of_zero_le (show 0 ≤ c.totalSize by nlinarith)
  obtain ⟨block, hblock⟩ := Int.eq_ofNat_of_zero_le hb.le
  rw [htotal] at ht hlt
  rw [hblock] at hlt
  have ht' : total ≤ 2 ^ 29 := by exact_mod_cast ht
  have hlt' : k * block < total := by exact_mod_cast hlt
  obtain ⟨d, hd⟩ := exists_scaleDraw_eq ht' hlt'
  refine ⟨d, (rndOffset_eq_iff hb _ k).mpr ?_⟩
  rw [htotal, hd, hblock]
  push_cast
  constructor
  · exact le_rfl
  · nlinarith

def blockAt (c : Config) (offset : ℤ) : ℕ × ℤ :=
  (toUInt 32 (offset / c.fileSize), offset % c.fileSize)

/-- The file number is not cut off, so that file and position give the offset back. -/
theorem blockAt_injective (hfs : 0 < c.fileSize) {x y : ℤ} (hx : 0 ≤ x) (hx' : x < 2 ^ 32)
    (hy : 0 ≤ y) (hy' : y < 2 ^ 32) (h : blockAt c x = blockAt c y) : x = y := by
  obtain ⟨hfile, hpos⟩ := Prod.ext_iff.mp h
  have hquot : ∀ z : ℤ, 0 ≤ z → z < 2 ^ 32 → toUInt 32 (z / c.fileSize) = z / c.fileSize := by
    intro z hz hz'
    have hdiv : z / c.fileSize ≤ z := Int.ediv_le_self _ hz
    have hdiv0 : 0 ≤ z / c.fileSize := Int.ediv_nonneg hz hfs.le
    rw [toUInt_of_range hdiv0 (by omega), Int.toNat_of_nonneg hdiv0]
  have hfile' : x / c.fileSize = y / c.fileSize := by
    rw [← hquot x hx hx', ← hquot y hy hy']
    exact congrArg Nat.cast hfile
  have hpos' : x % c.fileSize = y % c.fileSize := hpos
  rw [← Int.emod_add_mul_ediv x c.fileSize, ← Int.emod_add_mul_ediv y c.fileSize, hfile', hpos']

theorem lt_blocks_iff (hb : 0 < c.fileBlockSize) (k : ℕ) :
    k < ((c.totalSize + c.fileBlockSize - 1) / c.fileBlockSize).toNat ↔
      k * c.fileBlockSize < c.totalSize := by
  rw [Int.lt_toNat, ← Int.add_one_le_iff, Int.le_ediv_iff_mul_le hb, add_mul, one_mul]
  omega

theorem reachableBlocks_eq (hb : 0 < c.fileBlockSize) (hT : 0 < c.totalSize)
    (ht : c.totalSize ≤ 2 ^ 29) :
    reachableBlocks c =
      (Finset.range ((c.totalSize + c.fileBlockSize - 1) / c.fileBlockSize).toNat).image
        fun k : ℕ => blockAt c (k * c.fileBlockSize) := by
  ext b
  simp only [reachableBlocks, Finset.mem_image, Finset.mem_univ, true_and, Finset.mem_range,
    lt_blocks_iff hb]
  constructor
  · rintro ⟨d, rfl⟩
    obtain ⟨h0, hlt⟩ := scales_draw c.totalSize d hT
    have hq := Int.ediv_nonneg h0 hb.le
    refine ⟨(scaleDraw c.totalSize d / c.fileBlockSize).toNat, ?_, ?_⟩
    · rw [Int.toNat_of_nonneg hq]
      exact (Int.ediv_mul_le _ hb.ne').trans_lt hlt
    · rw [Int.toNat_of_nonneg hq, ← rndOffset_eq]
      rfl
  · rintro ⟨k, hk, rfl⟩
    obtain ⟨d, hd⟩ := exists_rndOffset_eq hb ht hk
    refine ⟨d, ?_⟩
    rw [FileRequest.block, rndRequest, hd, blockAt]

/-- Then there are as many blocks as begin in the total size. -/
theorem card_reachableBlocks (hb : 0 < c.fileBlockSize) (hT : 0 < c.totalSize)
    (hfs : 0 < c.fileSize) (ht : c.totalSize ≤ 2 ^ 29) :
    (reachableBlocks c).card =
      ((c.totalSize + c.fileBlockSize - 1) / c.fileBlockSize).toNat := by
  rw [reachableBlocks_eq hb hT ht, Finset.card_image_of_injOn, Finset.card_range]
  intro k hk l hl heq
  rw [Finset.mem_coe, Finset.mem_range, lt_blocks_iff hb] at hk hl
  have hoffset : (k : ℤ) * c.fileBlockSize = l * c.fileBlockSize :=
    blockAt_injective hfs (mul_nonneg (Int.natCast_nonneg k) hb.le) (by omega)
      (mul_nonneg (Int.natCast_nonneg l) hb.le) (by omega) heq
  exact_mod_cast mul_right_cancel₀ hb.ne' hoffset

/-! ## One block for two threads -/

def singleBlock : Config :=
  { smallConfig with
    toGlobals := ⟨.run, 2, 0, true⟩, totalSize := 4, fileSize := 4, testMode := .rndWrite }

theorem retryEnds_iff_singleBlock :
    RetryEnds singleBlock ↔
      (0 < singleBlock.numThreads →
        singleBlock.fileSize ≠ 0 ∧ singleBlock.numThreads ≤ (reachableBlocks singleBlock).card) :=
  retryEnds_iff rfl

theorem not_retryEnds :
    parseArguments ⟨.run, 2, 0, true⟩
      { smallOptions with fileTotalSize := 4, fileTestMode := some "rndwr" } = .ok singleBlock ∧
      ¬ SeqMode singleBlock ∧ ¬ RetryEnds singleBlock := by
  refine ⟨rfl, by decide, fun hends => ?_⟩
  have hcard : (reachableBlocks singleBlock).card = 1 :=
    card_reachableBlocks (by decide) (by decide) (by decide) (by decide)
  have hle := hends.numThreads_le rfl (by decide)
  rw [hcard] at hle
  exact absurd hle (by decide)

end Sysbench.Fileio
