import Sysbench.Fileio.Sequential

/-! # Which sequential settings stay inside the files

Without merging every request is a whole block, so a file whose size is no multiple
of the block size is passed by a request that crosses its end; the switch to the next
file, an equality test, then never happens. With merging the last request of a file
is cut to fit, unless the sum that shows its end overflows, or the merged size itself
overflowed to a negative number.
-/
namespace Sysbench.Fileio

open Runs Tiling Words

variable {c : Config}

/-! ## Every request of the stream is reached -/

def seqCall (c : Config) (s : Vars) : Call := .request 0 [] (fileGetSeqRequest c s).1

theorem callStep_seqCall (hm : SeqMode c) (s : Vars) :
    callStep c s (seqCall c s) = some (fileGetSeqRequest c s).2 := by
  rw [seqCall, callStep_request_iff, fileGetRequest, if_pos hm]

/-- The condition under which a sequential call continues a periodic series. -/
abbrev SeqPeriodicDue (c : Config) (s : Vars) : Prop :=
  c.fileFsyncFreq ≠ 0 ∧ seqOperation c = .write ∧ s.isDirty ∧ s.reqPerformed % c.fileFsyncFreq = 0

theorem fileGetSeqRequest_data {s : Vars} (hd : ¬ s.Done c) (hp : ¬ SeqPeriodicDue c s) :
    (fileGetSeqRequest c s).2.reqPerformed = s.reqPerformed + 1 ∧
      (fileGetSeqRequest c s).2.fsyncedFile = s.fsyncedFile := by
  rw [fileGetSeqRequest, if_neg hd, if_neg hp]
  exact ⟨rfl, rfl⟩

/-- After the rest of a periodic series, if one is in progress, a data request comes. -/
theorem exists_next_data (hm : SeqMode c) {s : Vars} (hf : s.fsyncedFile < c.numFiles)
    (hd : ¬ s.Done c) : ∃ calls t, run (callStep c) s calls = some t ∧
      t.reqPerformed = s.reqPerformed + 1 ∧ t.fsyncedFile < c.numFiles := by
  -- induction on the files left in the series
  generalize hleft : c.numFiles - s.fsyncedFile = left
  induction left generalizing s with
  | zero => omega
  | succ left ih =>
    have hstep := callStep_seqCall hm s
    by_cases hp : SeqPeriodicDue c s
    · have hnext : (fileGetSeqRequest c s).2 = (s.periodicFsync c).2 := by
        rw [fileGetSeqRequest, if_neg hd, if_pos hp]
      rw [hnext] at hstep
      by_cases hlast : s.fsyncedFile + 1 = c.numFiles
      · -- the series is complete, the flag is clear, and the next call hands out data
        have hclean : (s.periodicFsync c).2 = { s with fsyncedFile := 0, isDirty := false } := by
          rw [Vars.periodicFsync]
          exact if_pos hlast
        generalize hu : ({ s with fsyncedFile := 0, isDirty := false } : Vars) = u at hclean
        have hquiet : ¬ SeqPeriodicDue c u := by
          subst hu
          exact fun h => by cases h.2.2.1
        have hdata := fileGetSeqRequest_data (c := c) (s := u) (by subst hu; exact hd) hquiet
        refine ⟨[seqCall c s, seqCall c u], (fileGetSeqRequest c u).2, ?_, ?_, ?_⟩
        · rw [run_cons, hstep, hclean, Option.bind_some, run_cons, callStep_seqCall hm,
            Option.bind_some, run_nil]
        · rw [hdata.1, ← hu]
        · rw [hdata.2, ← hu]
          dsimp only
          omega
      · have hmore : (s.periodicFsync c).2 = { s with fsyncedFile := s.fsyncedFile + 1 } := by
          rw [Vars.periodicFsync]
          exact if_neg hlast
        rw [hmore] at hstep
        obtain ⟨calls, t, hr, hk, hf'⟩ := ih (s := { s with fsyncedFile := s.fsyncedFile + 1 })
          (by dsimp only; omega) hd (by dsimp only; omega)
        refine ⟨seqCall c s :: calls, t, ?_, hk, hf'⟩
        rw [run_cons, hstep, Option.bind_some, hr]
    · have hdata := fileGetSeqRequest_data hd hp
      refine ⟨[seqCall c s], (fileGetSeqRequest c s).2, ?_, hdata.1, by rw [hdata.2]; exact hf⟩
      rw [run_cons, hstep, Option.bind_some, run_nil]

/-- Some run hands out as many data requests as the limit allows. -/
theorem exists_run_data (hm : SeqMode c) (hn : 0 < c.numFiles) (perThread : ℕ → PerThread)
    (k : ℕ) (hk : c.maxRequests = 0 ∨ k ≤ c.maxRequests) :
    ∃ calls s, run (callStep c) (initVars perThread) calls = some s ∧ s.reqPerformed = k ∧
      s.fsyncedFile < c.numFiles := by
  induction k with
  | zero => exact ⟨[], _, rfl, rfl, hn⟩
  | succ k ih =>
    obtain ⟨calls, s, hr, hk', hf⟩ := ih (hk.imp_right (by omega))
    have hd : ¬ s.Done c := by
      rintro ⟨hpos, hle⟩
      omega
    obtain ⟨calls', t, hr', ht, hf'⟩ := exists_next_data hm hf hd
    exact ⟨calls ++ calls', t, run_append_iff.mpr ⟨s, hr, hr'⟩, by omega, hf'⟩

/-- What holds of the data requests of all runs is what holds of the reachable part of
the stream. -/
theorem forall_data_iff (hm : SeqMode c) (hn : 0 < c.numFiles) (P : FileRequest → Prop) :
    (∀ perThread calls s, run (callStep c) (initVars perThread) calls = some s →
      ∀ r ∈ dataRequests (requests calls), P r) ↔
    ∀ i, (c.maxRequests = 0 ∨ i < c.maxRequests) → P (seqStream c i) := by
  constructor
  · intro h i hi
    obtain ⟨calls, s, hr, hk, -⟩ :=
      exists_run_data hm hn (fun _ => ⟨0, 0⟩) (i + 1) (hi.imp_right (by omega))
    apply h _ calls s hr
    rw [(run_streamInv hm hr).data, hk]
    exact List.mem_map.mpr ⟨i, List.mem_range.mpr (Nat.lt_succ_self i), rfl⟩
  · intro h perThread calls s hr r hrmem
    have hinv := run_streamInv hm hr
    rw [hinv.data] at hrmem
    obtain ⟨i, hi, rfl⟩ := List.mem_map.mp hrmem
    rw [List.mem_range] at hi
    apply h
    by_cases hmax : c.maxRequests = 0
    · exact .inl hmax
    · have hle := hinv.limit (Nat.pos_of_ne_zero hmax)
      omega

theorem Cursor.next_of_lt {u : Cursor} (h : u.currentFile < c.numFiles)
    (hne : toInt 64 (u.position + seqSize c u.position) ≠ c.fileSize) :
    u.next c = ⟨u.currentFile, toInt 64 (u.position + seqSize c u.position)⟩ := by
  rw [Cursor.next, Cursor.rewind_of_lt h, Cursor.advance]
  exact if_neg hne

theorem Cursor.rewind_position (u : Cursor) :
    (u.rewind c).position = 0 ∨ (u.rewind c).position = u.position := by
  unfold Cursor.rewind
  split_ifs
  · exact .inl rfl
  · exact .inr rfl

/-! ## Merged requests -/

/-- Where the merged request number `j` of a file starts, if no request before ended the file. -/
def seqPos (c : Config) (j : ℕ) : ℤ := toInt 64 (j * c.fileMaxRequestSize)

theorem seqPos_succ (j : ℕ) : toInt 64 (seqPos c j + c.fileMaxRequestSize) = seqPos c (j + 1) := by
  rw [seqPos, toInt_toInt_add, seqPos, Nat.cast_succ, add_mul, one_mul]

section Merged

variable (hn : 0 < c.numFiles) (hc : c.Typed) (hfs : 1 ≤ c.fileSize)
  (hmax : 1 ≤ c.fileMaxRequestSize) (hmerge : 0 < c.fileMergedRequests)

include hn hc hfs hmax hmerge

/-- The request at the last chunk of the first file, if its end is no `long long`: the sum is
negative, and the request ends past the file. -/
theorem seqStream_overflow (hdvd : ¬ c.fileMaxRequestSize ∣ c.fileSize)
    (hover : 2 ^ 63 ≤ (c.fileSize / c.fileMaxRequestSize + 1) * c.fileMaxRequestSize) :
    seqStream c (c.fileSize / c.fileMaxRequestSize).toNat =
      ⟨0, c.fileSize / c.fileMaxRequestSize * c.fileMaxRequestSize, c.fileMaxRequestSize,
        seqOperation c⟩ := by
  have hm : 0 < c.fileMaxRequestSize.toNat := by omega
  have hcast : (c.fileMaxRequestSize.toNat : ℤ) = c.fileMaxRequestSize :=
    Int.toNat_of_nonneg (by omega)
  have hquot : 0 ≤ c.fileSize / c.fileMaxRequestSize := Int.ediv_nonneg (by omega) (by omega)
  have hbelow : c.fileSize / c.fileMaxRequestSize * c.fileMaxRequestSize < c.fileSize :=
    lt_of_le_of_ne (Int.ediv_mul_le _ (by omega)) fun heq => hdvd ⟨_, by rw [mul_comm, heq]⟩
  have hmax' := hc.fileMaxRequestSize_lt
  have hfs' := hc.fileSize_lt
  obtain ⟨q, hq⟩ := Int.eq_ofNat_of_zero_le hquot
  rw [hq] at hover hbelow ⊢
  rw [Int.toNat_natCast]
  have hwhole : SizesTile c c.fileMaxRequestSize.toNat q := by
    intro i hi
    have hmod := Nat.mod_le i (chunks c.fileSize.toNat c.fileMaxRequestSize.toNat)
    have hle := offset_add_le_of_lt (c := c) hmax (i := i) (by omega)
    exact seqSize_tile hc hfs hmax hmerge (by omega)
  have hbelow' : q * c.fileMaxRequestSize.toNat < c.fileSize.toNat := by
    have : ((q * c.fileMaxRequestSize.toNat : ℕ) : ℤ) < c.fileSize := by
      rw [Nat.cast_mul, hcast]
      exact hbelow
    omega
  have htile : seqTile c c.fileMaxRequestSize.toNat q = ⟨0, q * c.fileMaxRequestSize.toNat, _⟩ :=
    tile_first hm hbelow'
  have hsum : toInt 64 (q * c.fileMaxRequestSize + c.fileMaxRequestSize) =
      q * c.fileMaxRequestSize + c.fileMaxRequestSize - 2 ^ 64 :=
    toInt_of_le (by norm_num) (by norm_num; linarith) (by norm_num; omega)
  rw [seqStream, Cursor.request, cursorAt_rewind hn hc hfs hm hwhole le_rfl, htile]
  dsimp only
  rw [Nat.cast_mul, hcast, seqSize, if_pos hmerge, hsum, if_pos (by omega)]

theorem mergedFits_iff_inFile :
    (∀ i, (c.maxRequests = 0 ∨ i < c.maxRequests) → InFile c (seqStream c i)) ↔ MergedFits c := by
  constructor
  · intro hall
    by_contra hno
    simp only [MergedFits, ChunksFit, not_or, not_and, not_le, not_lt] at hno
    obtain ⟨hdvd, hover, hlimit⟩ := hno
    have hquot : 0 ≤ c.fileSize / c.fileMaxRequestSize := Int.ediv_nonneg (by omega) (by omega)
    have hin := hall (c.fileSize / c.fileMaxRequestSize).toNat (by omega)
    rw [seqStream_overflow hn hc hfs hmax hmerge hdvd hover] at hin
    have hfits := hin.fits
    have hfs' := hc.fileSize_lt
    dsimp only at hfits
    linarith
  · intro hfit i hi
    exact seqStream_inFile hn hc hfs (by omega)
      (hfit.sizesTile hc hfs hmax hmerge (k := i + 1) (by omega)) (Nat.lt_succ_self i)

omit hn in
/-- A merged request has the whole size unless the sum reaches past its file. -/
theorem seqSize_cases {position : ℤ} (hlow : -2 ^ 63 ≤ position) (hlt : position < c.fileSize) :
    (seqSize c position = c.fileMaxRequestSize ∧
        toInt 64 (position + c.fileMaxRequestSize) ≤ c.fileSize) ∨
      (seqSize c position = c.fileSize - position ∧
        toInt 64 (position + c.fileMaxRequestSize) = position + c.fileMaxRequestSize ∧
          c.fileSize < position + c.fileMaxRequestSize) := by
  have hfs' := hc.fileSize_lt
  have hmax' := hc.fileMaxRequestSize_lt
  rw [seqSize, if_pos hmerge]
  by_cases hsum : position + c.fileMaxRequestSize < 2 ^ 63
  · rw [toInt_of_range (by norm_num) (by norm_num; omega) (by norm_num; omega)]
    split_ifs with hle
    · exact .inl ⟨rfl, hle⟩
    · rw [toInt_of_range (by norm_num) (by norm_num; omega) (by norm_num; omega)]
      exact .inr ⟨rfl, rfl, by omega⟩
  · -- an overflow looks like a request inside the file
    rw [toInt_of_le (by norm_num) (by norm_num; omega) (by norm_num; omega), if_pos (by omega)]
    exact .inl ⟨rfl, by omega⟩

/-- Every cursor is at a multiple of the merged size, and no multiple before it ended the file. -/
theorem cursorAt_rewind_eq (i : ℕ) : ∃ j ≤ i,
    ((cursorAt c i).rewind c).position = seqPos c j ∧ ∀ k ≤ j, seqPos c k < c.fileSize := by
  have hzero : seqPos c 0 = 0 := by simp [seqPos, toInt]
  have hstart : ∀ i, ∃ j ≤ i, 0 = seqPos c j ∧ ∀ k ≤ j, seqPos c k < c.fileSize := by
    refine fun i => ⟨0, Nat.zero_le i, hzero.symm, fun k hk => ?_⟩
    rw [Nat.le_zero.mp hk, hzero]
    omega
  induction i with
  | zero =>
    change ∃ j ≤ 0, ((⟨0, 0⟩ : Cursor).rewind c).position = _ ∧ _
    rw [Cursor.rewind_of_lt hn]
    exact hstart 0
  | succ i ih =>
    obtain ⟨j, hj, hpos, hbefore⟩ := ih
    have hlow : -2 ^ 63 ≤ seqPos c j := le_toInt (w := 64) (by norm_num) _
    rw [cursorAt_succ, Cursor.next, hpos, Cursor.advance, hpos]
    split_ifs with hend
    · rcases Cursor.rewind_position (c := c) ⟨((cursorAt c i).rewind c).currentFile + 1, 0⟩
        with hp | hp
      · rw [hp]
        exact hstart (i + 1)
      · rw [hp]
        exact hstart (i + 1)
    · rcases seqSize_cases hc hfs hmax hmerge hlow (hbefore j le_rfl) with
        ⟨hsize, hle⟩ | ⟨hsize, -, -⟩
      · rw [hsize, seqPos_succ] at hend ⊢
        rw [seqPos_succ] at hle
        rcases Cursor.rewind_position (c := c) ⟨((cursorAt c i).rewind c).currentFile, seqPos c (j + 1)⟩
          with hp | hp
        · rw [hp]
          exact hstart (i + 1)
        · rw [hp]
          refine ⟨j + 1, by omega, rfl, fun k hk => ?_⟩
          rcases Nat.lt_or_ge k (j + 1) with hk' | hk'
          · exact hbefore k (by omega)
          · rw [show k = j + 1 by omega]
            omega
      · rw [hsize, add_sub_cancel] at hend
        exact absurd (toInt_of_range (by norm_num) (by norm_num; omega) hc.fileSize_lt) hend

/-- The first requests of a run, up to the end of the first file. -/
theorem cursorAt_first {j : ℕ} (h : ∀ k ≤ j, seqPos c k < c.fileSize) :
    cursorAt c j = ⟨0, seqPos c j⟩ := by
  induction j with
  | zero => simp [cursorAt, seqPos, toInt]
  | succ j ih =>
    have hlow : -2 ^ 63 ≤ seqPos c j := le_toInt (w := 64) (by norm_num) _
    have hnext := h (j + 1) le_rfl
    rw [cursorAt_succ, ih fun k hk => h k (by omega)]
    rcases seqSize_cases hc hfs hmax hmerge hlow (h j (by omega)) with
      ⟨hsize, -⟩ | ⟨-, hsum, hgt⟩
    · rw [Cursor.next_of_lt hn (by dsimp only; rw [hsize, seqPos_succ]; omega), hsize, seqPos_succ]
    · rw [← seqPos_succ, hsum] at hnext
      omega

end Merged

/-- If every run tiles the files, no sum overflows. -/
theorem mergedFits_of_tilesFiles (hm : SeqMode c) (hn : 1 ≤ c.numFiles) (hc : c.Typed)
    (hfs : 1 ≤ c.fileSize) (hmax : 1 ≤ c.fileMaxRequestSize) (hmerge : 0 < c.fileMergedRequests)
    (h : ∀ perThread calls s, run (callStep c) (initVars perThread) calls = some s →
      TilesFiles c (dataRequests (requests calls))) : MergedFits c := by
  rw [← mergedFits_iff_inFile hn hc hfs hmax hmerge, ← forall_data_iff hm hn (InFile c)]
  intro perThread calls s hr r hmem
  exact ((h perThread calls s hr).size r hmem).1

/-- Merged sequential requests tile the file set, whatever fsync requests come between,
exactly if no sum overflows before the run ends. -/
theorem calls_tilesFiles_iff (hm : SeqMode c) (hn : 1 ≤ c.numFiles) (hc : c.Typed)
    (hfs : 1 ≤ c.fileSize) (hmax : 1 ≤ c.fileMaxRequestSize) (hmerge : 0 < c.fileMergedRequests) :
    (∀ perThread calls s, run (callStep c) (initVars perThread) calls = some s →
      TilesFiles c (dataRequests (requests calls))) ↔ MergedFits c := by
  refine ⟨mergedFits_of_tilesFiles hm hn hc hfs hmax hmerge, ?_⟩
  intro hfit perThread calls s hr
  have hinv := run_streamInv hm hr
  rw [hinv.data]
  exact stream_tilesFiles hn hc hfs hmax (hfit.sizesTile hc hfs hmax hmerge hinv.limit)

theorem parseArguments_typed {g : Globals} {o : Options} (hp : parseArguments g o = .ok c) :
    c.Typed :=
  (parseArguments_ok hp).typed

def mergedOptions : Options :=
  { smallOptions with fileMergedRequests := 1, fileTestMode := some "seqrd" }

def mergedConfig : Config := { smallConfig with fileMergedRequests := 1, testMode := .read }

theorem calls_tilesFiles_iff_small :
    (∀ perThread calls s, run (callStep mergedConfig) (initVars perThread) calls = some s →
      TilesFiles mergedConfig (dataRequests (requests calls))) ↔ MergedFits mergedConfig :=
  calls_tilesFiles_iff (.inr (.inr rfl)) (by decide)
    (parseArguments_typed (g := smallGlobals) (o := mergedOptions) rfl) (by decide) (by decide)
    (by decide)

def hugeOptions : Options :=
  { smallOptions with
    fileTotalSize := 2 ^ 63 - 1, fileBlockSize := 2 ^ 30, fileMergedRequests := 1
    fileTestMode := some "seqrd" }

def hugeConfig : Config :=
  { smallConfig with
    maxRequests := 0, totalSize := 2 ^ 63 - 1, fileSize := 2 ^ 63 - 1, fileBlockSize := 2 ^ 30
    fileMergedRequests := 1, fileMaxRequestSize := 2 ^ 30, testMode := .read }

theorem parseArguments_huge :
    parseArguments { smallGlobals with maxRequests := 0 } hugeOptions = .ok hugeConfig := rfl

/-- Request number 8589934592 ends a byte past the file. -/
theorem not_calls_tilesFiles : SeqMode hugeConfig ∧ 1 ≤ hugeConfig.numFiles ∧
    1 ≤ hugeConfig.fileSize ∧ 1 ≤ hugeConfig.fileMaxRequestSize ∧
    0 < hugeConfig.fileMergedRequests ∧
    ¬ ∀ perThread calls s, run (callStep hugeConfig) (initVars perThread) calls = some s →
      TilesFiles hugeConfig (dataRequests (requests calls)) := by
  refine ⟨.inr (.inr rfl), by decide, by decide, by decide, by decide, fun h => ?_⟩
  have hfit := mergedFits_of_tilesFiles (.inr (.inr rfl)) (by decide)
    (parseArguments_typed parseArguments_huge) (by decide) (by decide) (by decide) h
  exact absurd hfit (by unfold MergedFits; decide)

/-! ## The stream in the other cases -/

section Blocks

variable (hn : 0 < c.numFiles) (hmerge : c.fileMergedRequests = 0)

include hn hmerge

/-- Blocks that never hit the end of the file exactly stay in it. -/
theorem cursorAt_blocks {i : ℕ}
    (hmiss : ∀ j : ℕ, 0 < j → j ≤ i → toInt 64 (j * c.fileBlockSize) ≠ c.fileSize) :
    cursorAt c i = ⟨0, toInt 64 (i * c.fileBlockSize)⟩ := by
  induction i with
  | zero => simp [cursorAt, toInt]
  | succ i ih =>
    have hsize : seqSize c (toInt 64 (i * c.fileBlockSize)) = c.fileBlockSize := by
      simp [seqSize, hmerge]
    have hsum : toInt 64 (toInt 64 (i * c.fileBlockSize) + c.fileBlockSize) =
        toInt 64 ((i + 1 : ℕ) * c.fileBlockSize) := by
      rw [toInt_toInt_add, Nat.cast_succ, add_mul, one_mul]
    have hne := hmiss (i + 1) (Nat.succ_pos i) le_rfl
    rw [cursorAt_succ, ih fun j hj hle => hmiss j hj (by omega),
      Cursor.next_of_lt hn (by rw [hsize, hsum]; exact hne), hsize, hsum]

/-- Every block starts at a multiple of the block size in 64 bits, and no multiple before it ended
the file. -/
theorem cursorAt_rewind_blocks (i : ℕ) : ∃ j ≤ i,
    ((cursorAt c i).rewind c).position = toInt 64 (j * c.fileBlockSize) ∧
      ∀ k : ℕ, 0 < k → k ≤ j → toInt 64 (k * c.fileBlockSize) ≠ c.fileSize := by
  have hstart : ∀ i, ∃ j ≤ i, 0 = toInt 64 ((j : ℕ) * c.fileBlockSize) ∧
      ∀ k : ℕ, 0 < k → k ≤ j → toInt 64 (k * c.fileBlockSize) ≠ c.fileSize :=
    fun i => ⟨0, Nat.zero_le i, by simp [toInt], fun k hk hle => by omega⟩
  induction i with
  | zero =>
    change ∃ j ≤ 0, ((⟨0, 0⟩ : Cursor).rewind c).position = _ ∧ _
    rw [Cursor.rewind_of_lt hn]
    exact hstart 0
  | succ i ih =>
    obtain ⟨j, hj, hpos, hbefore⟩ := ih
    have hsize : seqSize c (toInt 64 (j * c.fileBlockSize)) = c.fileBlockSize := by
      simp [seqSize, hmerge]
    have hsum : toInt 64 (toInt 64 (j * c.fileBlockSize) + c.fileBlockSize) =
        toInt 64 ((j + 1 : ℕ) * c.fileBlockSize) := by
      rw [toInt_toInt_add, Nat.cast_succ, add_mul, one_mul]
    rw [cursorAt_succ, Cursor.next, hpos, hsize, Cursor.advance, hpos, hsum]
    split_ifs with hend
    · rcases Cursor.rewind_position (c := c) ⟨((cursorAt c i).rewind c).currentFile + 1, 0⟩
        with hp | hp
      · rw [hp]
        exact hstart (i + 1)
      · rw [hp]
        exact hstart (i + 1)
    · rcases Cursor.rewind_position (c := c)
        ⟨((cursorAt c i).rewind c).currentFile, toInt 64 ((j + 1 : ℕ) * c.fileBlockSize)⟩
        with hp | hp
      · rw [hp]
        exact hstart (i + 1)
      · rw [hp]
        refine ⟨j + 1, by omega, rfl, fun k hk hle => ?_⟩
        rcases Nat.lt_or_ge k (j + 1) with hk' | hk'
        · exact hbefore k hk (by omega)
        · rw [show k = j + 1 by omega]
          exact hend

/-- Below the overflow the positions are the multiples themselves. -/
theorem cursorAt_blocks_of_lt (hb : 0 < c.fileBlockSize) {i : ℕ}
    (hi : i * c.fileBlockSize < 2 ^ 63)
    (hmiss : ∀ j : ℕ, 0 < j → j ≤ i → j * c.fileBlockSize ≠ c.fileSize) :
    cursorAt c i = ⟨0, i * c.fileBlockSize⟩ := by
  have hexact : ∀ j ≤ i, toInt 64 (j * c.fileBlockSize) = j * c.fileBlockSize := by
    intro j hj
    have hle := mul_le_mul_of_nonneg_right (show (j : ℤ) ≤ i by omega) hb.le
    have hpos : 0 ≤ (j : ℤ) * c.fileBlockSize := by positivity
    exact toInt_of_range (by norm_num) (by norm_num; omega) (by norm_num; omega)
  rw [cursorAt_blocks hn hmerge fun j hj hle => by rw [hexact j hle]; exact hmiss j hj hle,
    hexact i le_rfl]

end Blocks

theorem seqStream_blocks_inFile_iff (hn : 0 < c.numFiles) (hb : 0 < c.fileBlockSize)
    (hmerge : c.fileMergedRequests = 0) (hdvd : ¬ c.fileBlockSize ∣ c.fileSize) {i : ℕ}
    (hi : i * c.fileBlockSize < 2 ^ 63) :
    InFile c (seqStream c i) ↔ (i : ℤ) < c.fileSize / c.fileBlockSize := by
  have hsize : seqSize c (i * c.fileBlockSize) = c.fileBlockSize := by simp [seqSize, hmerge]
  have hmiss : ∀ j : ℕ, 0 < j → j ≤ i → j * c.fileBlockSize ≠ c.fileSize :=
    fun j _ _ heq => hdvd ⟨j, by rw [← heq, mul_comm]⟩
  rw [seqStream, Cursor.request, cursorAt_blocks_of_lt hn hmerge hb hi hmiss,
    Cursor.rewind_of_lt hn, hsize, ← Int.add_one_le_iff, Int.le_ediv_iff_mul_le hb, add_mul, one_mul]
  constructor
  · intro h
    exact h.fits
  · intro h
    exact ⟨hn, by positivity, h⟩

/-- A merged size of zero repeats an empty request for ever. -/
theorem seqSize_zero (hfs : 1 ≤ c.fileSize) (hmerge : 0 < c.fileMergedRequests)
    (hmax : c.fileMaxRequestSize = 0) : seqSize c 0 = 0 := by
  have hsum : toInt 64 (0 + 0) = 0 := rfl
  rw [seqSize, if_pos hmerge, hmax, hsum, if_pos (by omega)]

theorem cursorAt_zero_size (hn : 0 < c.numFiles) (hfs : 1 ≤ c.fileSize)
    (hmerge : 0 < c.fileMergedRequests) (hmax : c.fileMaxRequestSize = 0) (i : ℕ) :
    cursorAt c i = ⟨0, 0⟩ := by
  induction i with
  | zero => rfl
  | succ i ih =>
    have hsize := seqSize_zero hfs hmerge hmax
    have hsum : toInt 64 (0 + 0) = 0 := rfl
    rw [cursorAt_succ, ih, Cursor.next_of_lt hn (by rw [hsize, hsum]; omega), hsize, hsum]

/-- With a negative merged size the second request starts before the file. -/
theorem seqStream_one_of_neg (hn : 0 < c.numFiles) (hc : c.Typed) (hfs : 1 ≤ c.fileSize)
    (hmerge : 0 < c.fileMergedRequests) (hmax : c.fileMaxRequestSize < 0) :
    seqStream c 0 = ⟨0, 0, c.fileMaxRequestSize, seqOperation c⟩ ∧
      (seqStream c 1).pos = c.fileMaxRequestSize := by
  have hlow := hc.le_fileMaxRequestSize
  have hsum : toInt 64 (0 + c.fileMaxRequestSize) = c.fileMaxRequestSize := by
    rw [zero_add]
    exact toInt_of_range (by norm_num) (by norm_num; omega) (by norm_num; omega)
  have hsize : seqSize c 0 = c.fileMaxRequestSize := by
    rw [seqSize, if_pos hmerge, hsum, if_pos (by omega)]
  have hcursor : cursorAt c 1 = ⟨0, c.fileMaxRequestSize⟩ := by
    change Cursor.next c ⟨0, 0⟩ = _
    rw [Cursor.next_of_lt hn (by dsimp only; rw [hsize, hsum]; omega), hsize, hsum]
  constructor
  · change Cursor.request c _ ⟨0, 0⟩ = _
    rw [Cursor.request, Cursor.rewind_of_lt hn, hsize]
  · rw [seqStream, hcursor, Cursor.request, Cursor.rewind_of_lt hn]

theorem seqSize_range (hc : c.Typed) (position : ℤ) :
    -2 ^ 63 ≤ seqSize c position ∧ seqSize c position < 2 ^ 63 := by
  have hlow := hc.le_fileMaxRequestSize
  have hhigh := hc.fileMaxRequestSize_lt
  have hlow' := hc.le_fileBlockSize
  have hhigh' := hc.fileBlockSize_lt
  unfold seqSize
  split_ifs
  · exact ⟨hlow, hhigh⟩
  · exact ⟨le_toInt (by norm_num) _, toInt_lt (by norm_num) _⟩
  · constructor <;> omega

/-! ## The settings -/

/-- The setting keeps every sequential request inside its file. With merging, the merged size
did not overflow to a negative number, and no sum overflows before the run ends. Without, the
block size divides the file size, or the limit on requests stops the run before the end of the
first file. -/
def SeqFits (g : Globals) (o : Options) : Prop :=
  let fileSize := toInt 64 o.fileTotalSize / toUInt 32 o.fileNum
  let fileBlockSize := toInt 32 o.fileBlockSize
  if 0 < o.fileMergedRequests then
    let maxRequestSize := toInt 32 (fileBlockSize * o.fileMergedRequests)
    maxRequestSize = 0 ∨ maxRequestSize < 0 ∧ g.maxRequests = 1 ∨
      0 < maxRequestSize ∧ ChunksFit g.maxRequests fileSize maxRequestSize
  else
    fileBlockSize ∣ fileSize ∨
      (0 < g.maxRequests ∧ (g.maxRequests : ℤ) ≤ fileSize / fileBlockSize)

/-- In every run, every data request lies inside its file, and the executor rejects no
request for its position. -/
def SeqRequestsFit (c : Config) : Prop :=
  ∀ perThread calls s, run (callStep c) (initVars perThread) calls = some s →
    (∀ r ∈ dataRequests (requests calls), InFile c r) ∧
    ∀ r, .file r ∈ requests calls →
      checkRequest c r ≠ .error "Too large position discovered in request!"

/-- Fsync requests, periodic or final, name a file of the set. -/
theorem calls_fsync_inFile (hn : 0 < c.numFiles) (hfs : 1 ≤ c.fileSize)
    {perThread : ℕ → PerThread} {calls : List Call} {s : Vars}
    (hr : run (callStep c) (initVars perThread) calls = some s) {r : FileRequest}
    (hmem : .file r ∈ requests calls) :
    r ∈ dataRequests (requests calls) ∨ InFile c r ∧ r.size = 0 := by
  have hfsync : ∀ f < c.numFiles, InFile c ⟨f, 0, 0, .fsync⟩ :=
    fun f hf => ⟨hf, le_rfl, by dsimp only; omega⟩
  have hinv := calls_invariant
    (I := fun tr s => s.fsyncedFile < c.numFiles ∧
      ∀ r, .file r ∈ tr → r ∈ dataRequests tr ∨ InFile c r ∧ r.size = 0)
    ⟨hn, by simp⟩ ?_ (fun tr s v h => h) hr
  · exact hinv.1.2 r hmem
  · rintro tr s q t ⟨hf, hall⟩ hq
    have hold : ∀ r, .file r ∈ tr → r ∈ dataRequests (tr ++ [q]) ∨ InFile c r ∧ r.size = 0 := by
      intro r hr
      rw [dataRequests_append]
      exact (hall r hr).imp_left (List.mem_append_left _)
    cases hq with
    | final hd hdue =>
      refine ⟨hf, fun r hr => ?_⟩
      rcases List.mem_append.mp hr with hr | hr
      · exact hold r hr
      · cases List.mem_singleton.mp hr
        exact .inr ⟨hfsync _ hdue.2.2, rfl⟩
    | null hd hdue =>
      refine ⟨hf, fun r hr => ?_⟩
      rcases List.mem_append.mp hr with hr | hr
      · exact hold r hr
      · cases List.mem_singleton.mp hr
    | periodic hd hdue =>
      refine ⟨?_, fun r hr => ?_⟩
      · unfold Vars.periodicFsync
        dsimp only
        split_ifs <;> dsimp only <;> omega
      · rcases List.mem_append.mp hr with hr | hr
        · exact hold r hr
        · cases List.mem_singleton.mp hr
          exact .inr ⟨hfsync _ hf, rfl⟩
    | data hd hdue hop hwrite ht =>
      refine ⟨by rw [ht.fsyncedFile]; exact hf, fun r hr => ?_⟩
      rcases List.mem_append.mp hr with hr | hr
      · exact hold r hr
      · cases List.mem_singleton.mp hr
        left
        simp [dataRequests, hop]

/-- The exact condition on the stream: which settings keep it inside the files. -/
theorem stream_inFile_iff {g : Globals} {o : Options} (h : Accepted g o c) (hfs : 1 ≤ c.fileSize) :
    (∀ i, (c.maxRequests = 0 ∨ i < c.maxRequests) → InFile c (seqStream c i)) ↔ SeqFits g o := by
  have hn := h.numFiles_pos
  have hc := h.typed
  have hb := h.fileBlockSize_pos
  have hg : c.maxRequests = g.maxRequests := by rw [← h.globals]
  have hmax := h.maxRequestSize
  have hmerged := h.merged
  simp only [SeqFits, ← h.numFiles, ← h.totalSize, ← h.fileSize, ← h.fileBlockSize, ← hmerged,
    Nat.cast_pos, ← hg]
  by_cases hmerge : 0 < c.fileMergedRequests
  · rw [if_pos hmerge] at hmax ⊢
    rw [← hmax]
    rcases lt_trichotomy c.fileMaxRequestSize 0 with hneg | hzero | hpos
    · obtain ⟨h0, h1⟩ := seqStream_one_of_neg hn hc hfs hmerge hneg
      constructor
      · intro hall
        refine .inr (.inl ⟨hneg, ?_⟩)
        by_contra hone
        have hin := hall 1 (by omega)
        have hbad := hin.pos
        omega
      · rintro (hzero | ⟨-, hone⟩ | ⟨hpos, -⟩) i hi
        · omega
        · obtain rfl : i = 0 := by omega
          rw [h0]
          exact ⟨hn, le_rfl, by dsimp only; omega⟩
        · omega
    · refine iff_of_true (fun i _ => ?_) (.inl hzero)
      rw [seqStream, Cursor.request, cursorAt_zero_size hn hfs hmerge hzero,
        Cursor.rewind_of_lt hn, seqSize_zero hfs hmerge hzero]
      exact ⟨hn, le_rfl, by dsimp only; omega⟩
    · rw [mergedFits_iff_inFile hn hc hfs hpos hmerge, MergedFits]
      constructor
      · exact fun hfit => .inr (.inr ⟨hpos, hfit⟩)
      · rintro (hzero | ⟨hneg, -⟩ | ⟨-, hfit⟩)
        · omega
        · omega
        · exact hfit
  · rw [if_neg hmerge]
    have hmerge0 : c.fileMergedRequests = 0 := by omega
    by_cases hdvd : c.fileBlockSize ∣ c.fileSize
    · refine iff_of_true (fun i _ => ?_) (.inl hdvd)
      exact seqStream_inFile hn hc hfs (by omega)
        (sizesTile_blocks hfs hb hmerge0 hdvd (i + 1)) (Nat.lt_succ_self i)
    · have hquot : 0 ≤ c.fileSize / c.fileBlockSize := Int.ediv_nonneg (by omega) hb.le
      have hmul := Int.ediv_mul_le c.fileSize hb.ne'
      have hfs' := hc.fileSize_lt
      have hiff := fun i => seqStream_blocks_inFile_iff (i := i) hn hb hmerge0 hdvd
      constructor
      · intro hall
        -- the block that the end of the first file cuts
        obtain ⟨q, hq⟩ := Int.eq_ofNat_of_zero_le hquot
        rw [hq] at hmul
        have hcut : ¬ (c.maxRequests = 0 ∨ q < c.maxRequests) := by
          intro hreached
          have hbad := (hiff q (by omega)).mp (hall q hreached)
          omega
        exact .inr ⟨by omega, by omega⟩
      · rintro (hdvd' | ⟨hpos, hle⟩) i hi
        · exact absurd hdvd' hdvd
        · have hi' : (i : ℤ) < c.fileSize / c.fileBlockSize := by omega
          have hbelow := mul_le_mul_of_nonneg_right hi'.le hb.le
          exact (hiff i (by omega)).mpr hi'

/-- Sequential requests stay inside their files, and none is rejected for its position,
exactly under the settings of `SeqFits`. -/
theorem seqRequestsFit_iff {g : Globals} {o : Options} (hp : parseArguments g o = .ok c)
    (hm : SeqMode c) (hfs : 1 ≤ c.fileSize) : SeqRequestsFit c ↔ SeqFits g o := by
  have hacc := parseArguments_ok hp
  have hn := hacc.numFiles_pos
  have hc := hacc.typed
  rw [← stream_inFile_iff hacc hfs, ← forall_data_iff hm hn (InFile c)]
  constructor
  · intro h perThread calls s hr
    exact (h perThread calls s hr).1
  · intro h perThread calls s hr
    refine ⟨h perThread calls s hr, fun r hmem herr => ?_⟩
    have hin : InFile c r ∧ -2 ^ 63 ≤ r.size := by
      rcases calls_fsync_inFile hn hfs hr hmem with hdata | ⟨hin, hsize⟩
      · refine ⟨h perThread calls s hr r hdata, ?_⟩
        rw [(run_streamInv hm hr).data] at hdata
        obtain ⟨i, -, rfl⟩ := List.mem_map.mp hdata
        exact (seqSize_range hc _).1
      · exact ⟨hin, by omega⟩
    rw [hin.1.checkRequest hin.2 hc.fileSize_lt] at herr
    cases herr

theorem seqRequestsFit_iff_small : SeqRequestsFit smallConfig ↔ SeqFits smallGlobals smallOptions :=
  seqRequestsFit_iff parseArguments_small (.inl rfl) (by decide)

/-- A file of ten bytes read in blocks of four: the third request ends past the file. -/
theorem seqRequestsFit_cut : ∃ g o c, parseArguments g o = .ok c ∧ SeqMode c ∧ 1 ≤ c.fileSize ∧
    ¬ SeqRequestsFit c := by
  refine ⟨{ smallGlobals with maxRequests := 0 },
    { smallOptions with fileTotalSize := 10, fileTestMode := some "seqrd" },
    { smallConfig with maxRequests := 0, totalSize := 10, fileSize := 10, testMode := .read },
    rfl, .inr (.inr rfl), by decide, fun hfit => ?_⟩
  refine (hfit (fun _ => ⟨0, 0⟩) [.request 0 [] (.file ⟨0, 0, 4, .read⟩),
    .request 0 [] (.file ⟨0, 4, 4, .read⟩), .request 0 [] (.file ⟨0, 8, 4, .read⟩)] _ rfl).2
    ⟨0, 8, 4, .read⟩ (by decide) rfl

end Sysbench.Fileio
