import Sysbench.Fileio.Calls
import Sysbench.Fileio.Execute

/-! # Where random requests fall

The offset is drawn over `total_size`, rounded down to a block, and only then split
into a file and a position. A request lies in a file of the set when its block starts
before the end of the last file and no end of a file cuts it. Which offsets are drawn
depends on how a draw is scaled; the code scales in `double`.
-/
namespace Sysbench.Fileio

open Doubles Words

variable {c : Config}

/-! ## Scaling -/

def Scales (scale : ℤ → Draw → ℤ) : Prop :=
  ∀ (totalSize : ℤ) (d : Draw), 0 < totalSize → 0 ≤ scale totalSize d ∧ scale totalSize d < totalSize

/-- The scaling without rounding. -/
def scaleExactly (totalSize : ℤ) (randnum : Draw) : ℤ := randnum * totalSize / sbMaxRnd

theorem scales_exactly : Scales scaleExactly := by
  intro totalSize d ht
  have hM : (0 : ℤ) < sbMaxRnd := by decide
  have hd : (d : ℤ) < sbMaxRnd := by exact_mod_cast d.isLt
  refine ⟨Int.ediv_nonneg (mul_nonneg (Int.natCast_nonneg _) ht.le) hM.le, ?_⟩
  rw [scaleExactly, Int.ediv_lt_iff_lt_mul hM]
  nlinarith

/-- Three roundings do not make up for the distance of the largest draw to `SB_MAX_RND`. -/
theorem scales_draw : Scales scaleDraw := by
  intro totalSize d ht
  have hM : (0 : ℚ) < sbMaxRnd := by norm_num [sbMaxRnd]
  have hT : (0 : ℚ) < totalSize := by exact_mod_cast ht
  have hq : 0 ≤ ((d : ℕ) : ℚ) / sbMaxRnd := by positivity
  have hquot := nearest_nonneg hq
  have htotal := nearest_nonneg hT.le
  have hprod := mul_nonneg hquot htotal
  refine ⟨Int.floor_nonneg.mpr (nearest_nonneg hprod), Int.floor_lt.mpr ?_⟩
  have hd : ((d : ℕ) : ℚ) / sbMaxRnd ≤ 1 - 2 ^ (-30 : ℤ) := by
    have hlt : ((d : ℕ) : ℚ) + 1 ≤ sbMaxRnd := by exact_mod_cast d.isLt
    rw [div_le_iff₀ hM]
    norm_num [sbMaxRnd] at hlt ⊢
    linarith
  have hquot' : nearest ((d : ℕ) / sbMaxRnd) ≤ (1 - 2 ^ (-30 : ℤ)) * (1 + 2 ^ (-53 : ℤ)) :=
    (nearest_le_mul hq).trans (mul_le_mul_of_nonneg_right hd (by positivity))
  have hprod' : nearest ((d : ℕ) / sbMaxRnd) * nearest totalSize ≤
      (1 - 2 ^ (-30 : ℤ)) * (1 + 2 ^ (-53 : ℤ)) * (totalSize * (1 + 2 ^ (-53 : ℤ))) :=
    mul_le_mul hquot' (nearest_le_mul hT.le) htotal (hquot.trans hquot')
  calc nearest (nearest ((d : ℕ) / sbMaxRnd) * nearest totalSize)
      ≤ nearest ((d : ℕ) / sbMaxRnd) * nearest totalSize * (1 + 2 ^ (-53 : ℤ)) :=
        nearest_le_mul hprod
    _ ≤ (1 - 2 ^ (-30 : ℤ)) * (1 + 2 ^ (-53 : ℤ)) * (totalSize * (1 + 2 ^ (-53 : ℤ))) *
        (1 + 2 ^ (-53 : ℤ)) := mul_le_mul_of_nonneg_right hprod' (by positivity)
    _ < totalSize := by
        norm_num
        linarith

/-! ## One draw -/

theorem rndOffset_eq (c : Config) (tmppos : ℤ) :
    rndOffset c tmppos = tmppos / c.fileBlockSize * c.fileBlockSize := by
  have h := Int.emod_add_mul_ediv tmppos c.fileBlockSize
  unfold rndOffset
  linarith [mul_comm c.fileBlockSize (tmppos / c.fileBlockSize)]

theorem rndOffset_eq_iff (hb : 0 < c.fileBlockSize) (tmppos k : ℤ) :
    rndOffset c tmppos = k * c.fileBlockSize ↔
      k * c.fileBlockSize ≤ tmppos ∧ tmppos < (k + 1) * c.fileBlockSize := by
  rw [rndOffset_eq, mul_left_inj' hb.ne', ← Int.le_ediv_iff_mul_le hb, ← Int.ediv_lt_iff_lt_mul hb]
  omega

theorem rndOffset_nonneg (hb : 0 < c.fileBlockSize) {tmppos : ℤ} (h0 : 0 ≤ tmppos) :
    0 ≤ rndOffset c tmppos := by
  rw [rndOffset_eq]
  exact mul_nonneg (Int.ediv_nonneg h0 hb.le) hb.le

theorem rndOffset_le (hb : 0 < c.fileBlockSize) (tmppos : ℤ) : rndOffset c tmppos ≤ tmppos := by
  rw [rndOffset_eq]
  exact Int.ediv_mul_le _ hb.ne'

/-- Without rounding, the offsets in a block are a condition on the draw. -/
theorem scaleExactly_mem_iff (totalSize start stop : ℤ) (d : Draw) :
    start ≤ scaleExactly totalSize d ∧ scaleExactly totalSize d < stop ↔
      sbMaxRnd * start ≤ d * totalSize ∧ d * totalSize < sbMaxRnd * stop := by
  have hM : (0 : ℤ) < sbMaxRnd := by decide
  rw [scaleExactly, Int.le_ediv_iff_mul_le hM, Int.ediv_lt_iff_lt_mul hM, mul_comm start,
    mul_comm stop]

/-! ## The request of one draw -/

/-- A block `[start, start + size)` of the total size lies in a file of the set: it
starts before the end of the last file, and no end of a file is strictly inside it.
File numbers are stored in 32 bits, so past `2 ^ 32` files they start over. -/
structure BlockFits (numFiles fileSize start size : ℤ) : Prop where
  before : start < numFiles * fileSize ∨ 2 ^ 32 * fileSize ≤ start
  uncut : ∀ f : ℤ, ¬ (start < f * fileSize ∧ f * fileSize < start + size)

/-- What is left of a segment after `start` holds `size` exactly when no end of a
segment is strictly inside. -/
theorem emod_add_le_iff (start size : ℤ) {L : ℤ} (hL : 0 < L) :
    start % L + size ≤ L ↔ ∀ f : ℤ, ¬ (start < f * L ∧ f * L < start + size) := by
  have hdm := Int.emod_add_mul_ediv start L
  have hmod0 := Int.emod_nonneg start hL.ne'
  have hmodlt := Int.emod_lt_of_pos start hL
  have hnext : (start / L + 1) * L = start - start % L + L := by linarith [mul_comm L (start / L)]
  constructor
  · rintro hle f ⟨hlo, hhi⟩
    -- the first end of a segment after `start` is `(start / L + 1) * L`
    have hf : start / L + 1 ≤ f := by
      by_contra hlt
      have hle' : f * L ≤ start / L * L := mul_le_mul_of_nonneg_right (by omega) hL.le
      linarith [mul_comm L (start / L)]
    have hge : (start / L + 1) * L ≤ f * L := mul_le_mul_of_nonneg_right hf hL.le
    linarith
  · intro hall
    by_contra hgt
    exact hall (start / L + 1) ⟨by linarith, by linarith⟩

theorem totalSize_lt {g : Globals} {o : Options} (h : Accepted g o c) :
    c.totalSize < c.numFiles * c.fileSize + c.numFiles := by
  have hpos : (0 : ℤ) < c.numFiles := by exact_mod_cast h.numFiles_pos
  have hdiv := Int.lt_ediv_add_one_mul_self c.totalSize hpos
  rw [← h.fileSize] at hdiv
  linarith [mul_comm (c.numFiles : ℤ) c.fileSize]

/-- The file number of an offset is a valid one. -/
theorem toUInt_ediv_lt_iff {g : Globals} {o : Options} (h : Accepted g o c)
    (hfs : 0 < c.fileSize) {start : ℤ} (h0 : 0 ≤ start) (hlt : start < c.totalSize) :
    toUInt 32 (start / c.fileSize) < c.numFiles ↔
      start < c.numFiles * c.fileSize ∨ 2 ^ 32 * c.fileSize ≤ start := by
  have hn := toUInt_lt 32 o.fileNum
  rw [← h.numFiles] at hn
  have hpos : (0 : ℤ) < c.numFiles := by exact_mod_cast h.numFiles_pos
  have hq0 : 0 ≤ start / c.fileSize := Int.ediv_nonneg h0 hfs.le
  have hq2 : start / c.fileSize < 2 * c.numFiles := by
    have htotal := totalSize_lt h
    rw [Int.ediv_lt_iff_lt_mul hfs]
    nlinarith
  rw [← Int.ediv_lt_iff_lt_mul hfs, ← Int.le_ediv_iff_mul_le hfs]
  unfold toUInt
  omega

theorem rndRequest_inFile_iff {g : Globals} {o : Options} (h : Accepted g o c)
    (hfs : 0 < c.fileSize) (op : FileOp) {tmppos : ℤ} (h0 : 0 ≤ tmppos) (hlt : tmppos < c.totalSize) :
    InFile c (rndRequest c op tmppos) ↔
      BlockFits c.numFiles c.fileSize (rndOffset c tmppos) c.fileBlockSize := by
  have hb := h.fileBlockSize_pos
  have hid := toUInt_ediv_lt_iff h hfs (rndOffset_nonneg hb h0) ((rndOffset_le hb tmppos).trans_lt hlt)
  have huncut := emod_add_le_iff (rndOffset c tmppos) c.fileBlockSize hfs
  constructor
  · intro hin
    exact ⟨hid.mp hin.fileId, huncut.mp hin.fits⟩
  · intro hfits
    exact ⟨hid.mpr hfits.before, Int.emod_nonneg _ hfs.ne', huncut.mpr hfits.uncut⟩

/-! ## Calls of the generator -/

section Scaled

variable {scale : ℤ → Draw → ℤ}

variable (scale) in
/-- The first call of a run hands out the request of its first draw, unless another
thread's uninitialised record happens to name the block. -/
theorem fileGetRndRequestBy_first (hfs : 0 < c.fileSize) (d : Draw) :
    ∃ t, fileGetRndRequestBy c scale (initVars fun _ => ⟨0, -1⟩) 0 [d] =
      some (.file (rndRequest c (rndOperation c (initVars fun _ => ⟨0, -1⟩))
        (scale c.totalSize d)), t) := by
  have hd : ¬ (initVars fun _ => ⟨0, -1⟩).Done c := by
    rintro ⟨hpos, hle⟩
    simp only [initVars] at hle
    omega
  have hp : ¬ PeriodicDue c (initVars fun _ => ⟨0, -1⟩) := fun h => by cases h.2.1
  have hfree : ∀ op, blockInUse c (initVars fun _ => ⟨0, -1⟩) 0
      (rndRequest c op (scale c.totalSize d)) = false := by
    intro op
    have hne : (-1 : ℤ) ≠ rndOffset c (scale c.totalSize d) % c.fileSize := by
      have := Int.emod_nonneg (rndOffset c (scale c.totalSize d)) hfs.ne'
      omega
    simp [blockInUse, initVars, rndRequest, hne]
  exact ⟨_, fileGetRndRequestBy_of_retry hd hp (by simp [retryLoop, hfs.ne', hfree])⟩

variable (scale) in
/-- Every data request lies in its file, and the executor reads `files[]` in bounds. -/
def RequestsInFiles (c : Config) : Prop :=
  ∀ s threadId draws r t, fileGetRndRequestBy c scale s threadId draws = some (.file r, t) →
    r.operation = .read ∨ r.operation = .write →
    InFile c r ∧ (checkRequest c r = .ok () → r.fileId < c.numFiles)

/-- The random generator stays inside the files exactly when every block that a scaled draw
falls into does. -/
theorem requestsInFiles_iff (hscale : Scales scale) {g : Globals} {o : Options}
    (h : Accepted g o c) (hfs : 1 ≤ c.fileSize) :
    RequestsInFiles scale c ↔ ∀ (d : Draw) (k : ℤ),
      k * c.fileBlockSize ≤ scale c.totalSize d ∧
        scale c.totalSize d < (k + 1) * c.fileBlockSize →
      BlockFits c.numFiles c.fileSize (k * c.fileBlockSize) c.fileBlockSize := by
  have hfs' : 0 < c.fileSize := by omega
  have hin : ∀ op d, InFile c (rndRequest c op (scale c.totalSize d)) ↔
      BlockFits c.numFiles c.fileSize (rndOffset c (scale c.totalSize d)) c.fileBlockSize := by
    intro op d
    obtain ⟨h0, hlt⟩ := hscale c.totalSize d h.totalSize_pos
    exact rndRequest_inFile_iff h hfs' op h0 hlt
  constructor
  · intro hall d k hk
    obtain ⟨t, hget⟩ := fileGetRndRequestBy_first scale hfs' d
    have hfits := (hin _ d).mp (hall _ _ _ _ _ hget (rndOperation_read_or_write _)).1
    rwa [(rndOffset_eq_iff h.fileBlockSize_pos _ k).mpr hk] at hfits
  · intro hall s threadId draws r t hget hop
    obtain ⟨-, ⟨d, -, rfl⟩, -⟩ := retryLoop_mem (fileGetRndRequestBy_data hget hop).1
    have hk := rndOffset_eq c (scale c.totalSize d)
    have hfits := hall d _ ((rndOffset_eq_iff h.fileBlockSize_pos _ _).mp hk)
    rw [← hk] at hfits
    have hfile := (hin (rndOperation c s) d).mpr hfits
    exact ⟨hfile, fun _ => hfile.fileId⟩

end Scaled

/-- The requests stay in their files if draws are scaled in exact arithmetic. -/
abbrev RndRequestsFit (c : Config) : Prop := RequestsInFiles scaleExactly c

/-- No draw falls into a block that a file end cuts or that starts past the last file. -/
def DrawsFit (o : Options) : Prop :=
  let numFiles : ℤ := toUInt 32 o.fileNum
  let totalSize := toInt 64 o.fileTotalSize
  let fileBlockSize := toInt 32 o.fileBlockSize
  ∀ (d : Draw) (k : ℤ), sbMaxRnd * (k * fileBlockSize) ≤ d * totalSize →
    d * totalSize < sbMaxRnd * ((k + 1) * fileBlockSize) →
    BlockFits numFiles (totalSize / numFiles) (k * fileBlockSize) fileBlockSize

theorem rndRequestsFit_iff_drawsFit {g : Globals} {o : Options} (hp : parseArguments g o = .ok c)
    (hfs : 1 ≤ c.fileSize) : RndRequestsFit c ↔ DrawsFit o := by
  have h := parseArguments_ok hp
  simp only [DrawsFit, ← h.numFiles, ← h.totalSize, ← h.fileBlockSize, ← h.fileSize]
  rw [RndRequestsFit, requestsInFiles_iff scales_exactly h hfs]
  simp only [scaleExactly_mem_iff, and_imp]

/-! ## Settings in closed form -/

/-- If the scaling step does not exceed `size`, some draw falls into `[v, v + size)`. -/
theorem exists_draw {total v size : ℤ} (ht : 0 < total) (hstep : total ≤ sbMaxRnd * size)
    (h0 : 0 ≤ v) (hv : sbMaxRnd * v ≤ (sbMaxRnd - 1) * total) :
    ∃ d : Draw, sbMaxRnd * v ≤ d * total ∧ d * total < sbMaxRnd * (v + size) := by
  have hM : (0 : ℤ) < sbMaxRnd := by decide
  have hMv : 0 ≤ sbMaxRnd * v := mul_nonneg hM.le h0
  -- the least draw that reaches the offset
  have hd0 : 0 ≤ (sbMaxRnd * v + total - 1) / total := Int.ediv_nonneg (by omega) ht.le
  have hlo := Int.ediv_mul_le (sbMaxRnd * v + total - 1) ht.ne'
  have hhi := Int.lt_ediv_add_one_mul_self (sbMaxRnd * v + total - 1) ht
  generalize (sbMaxRnd * v + total - 1) / total = e at hd0 hlo hhi
  have he : e < sbMaxRnd := by
    by_contra hge
    have h1 : sbMaxRnd * total ≤ e * total := mul_le_mul_of_nonneg_right (by omega) ht.le
    linarith
  refine ⟨⟨e.toNat, by omega⟩, ?_⟩
  have hcast : ((e.toNat : ℕ) : ℤ) = e := Int.toNat_of_nonneg hd0
  rw [show (((⟨e.toNat, by omega⟩ : Draw) : ℕ) : ℤ) = e from hcast]
  exact ⟨by linarith, by linarith⟩

/-- The whole blocks of the file set reach past the largest draw, and with several files
the blocks fill each of them. -/
def SizesFit (c : Config) : Prop :=
  (sbMaxRnd - 1) * c.totalSize <
      sbMaxRnd * (c.numFiles * c.fileSize / c.fileBlockSize * c.fileBlockSize) ∧
    (c.numFiles = 1 ∨ c.fileBlockSize ∣ c.fileSize)

theorem sizesFit_of_drawsFit {g : Globals} {o : Options} (h : Accepted g o c)
    (hfs : 1 ≤ c.fileSize) (hn : c.numFiles ≤ 2 ^ 31)
    (hstep : c.totalSize ≤ sbMaxRnd * c.fileBlockSize) (hall : DrawsFit o) : SizesFit c := by
  have hM : (0 : ℤ) < sbMaxRnd := by decide
  have hb := h.fileBlockSize_pos
  have ht := h.totalSize_pos
  have hpos : (0 : ℤ) < c.numFiles := by exact_mod_cast h.numFiles_pos
  simp only [DrawsFit, ← h.numFiles, ← h.totalSize, ← h.fileBlockSize, ← h.fileSize] at hall
  constructor
  · -- the block of the largest draw ends inside the file set
    have hlast : ((⟨sbMaxRnd - 1, by decide⟩ : Draw) : ℤ) = sbMaxRnd - 1 := by decide
    have hk := rndOffset_eq c (scaleExactly c.totalSize ⟨sbMaxRnd - 1, by decide⟩)
    have hlt := (rndOffset_le hb _).trans_lt (scales_exactly c.totalSize ⟨sbMaxRnd - 1, by decide⟩ ht).2
    generalize scaleExactly c.totalSize ⟨sbMaxRnd - 1, by decide⟩ / c.fileBlockSize = k at hk
    obtain ⟨hlo, hhi⟩ := (scaleExactly_mem_iff _ _ _ _).mp ((rndOffset_eq_iff hb _ k).mp hk)
    have hfits := hall _ k hlo hhi
    rw [hk] at hlt
    rw [hlast] at hhi
    have hbefore : k * c.fileBlockSize < c.numFiles * c.fileSize := by
      rcases hfits.before with hbefore | hwrap
      · exact hbefore
      · have htotal := totalSize_lt h
        have h32 : (c.numFiles : ℤ) ≤ 2 ^ 31 := by exact_mod_cast hn
        nlinarith
    have hend : (k + 1) * c.fileBlockSize ≤ c.numFiles * c.fileSize := by
      by_contra hgt
      exact hfits.uncut c.numFiles ⟨hbefore, by linarith⟩
    have hle := (Int.le_ediv_iff_mul_le hb).mpr hend
    exact hhi.trans_le (mul_le_mul_of_nonneg_left (mul_le_mul_of_nonneg_right hle hb.le) hM.le)
  · by_contra hno
    rw [not_or] at hno
    -- the block that the end of the first file cuts
    have hdiv := Int.ediv_mul_le c.totalSize hpos.ne'
    rw [← h.fileSize] at hdiv
    have htwo : (2 : ℤ) ≤ c.numFiles := by
      have h1 := hno.1
      have h0 := h.numFiles_pos
      omega
    have hq0 : 0 ≤ c.fileSize / c.fileBlockSize := Int.ediv_nonneg (by omega) hb.le
    have hlo := Int.ediv_mul_le c.fileSize hb.ne'
    have hhi := Int.lt_ediv_add_one_mul_self c.fileSize hb
    have hne : c.fileSize / c.fileBlockSize * c.fileBlockSize ≠ c.fileSize :=
      fun heq => hno.2 ⟨_, by rw [mul_comm]; exact heq.symm⟩
    have hhalf : 2 * (c.fileSize / c.fileBlockSize * c.fileBlockSize) ≤ c.totalSize := by nlinarith
    have hM2 : (2 : ℤ) ≤ sbMaxRnd := by decide
    obtain ⟨d, hdlo, hdhi⟩ := exists_draw ht hstep (mul_nonneg hq0 hb.le) (by nlinarith)
    refine (hall d _ hdlo (hdhi.trans_eq (by ring))).uncut 1 ⟨by omega, by linarith⟩

theorem drawsFit_of_sizesFit {g : Globals} {o : Options} (h : Accepted g o c)
    (hfit : SizesFit c) : DrawsFit o := by
  have hM : (0 : ℤ) < sbMaxRnd := by decide
  have hb := h.fileBlockSize_pos
  have ht := h.totalSize_pos
  simp only [DrawsFit, ← h.numFiles, ← h.totalSize, ← h.fileBlockSize, ← h.fileSize]
  intro d k hlo hhi
  obtain ⟨hreach, hfill⟩ := hfit
  have hd : (d : ℤ) ≤ sbMaxRnd - 1 := by
    have := d.isLt
    omega
  have hstart : k * c.fileBlockSize <
      c.numFiles * c.fileSize / c.fileBlockSize * c.fileBlockSize := by
    have h1 : (d : ℤ) * c.totalSize ≤ (sbMaxRnd - 1) * c.totalSize :=
      mul_le_mul_of_nonneg_right hd ht.le
    exact lt_of_mul_lt_mul_left (by linarith) hM.le
  have hk : k < c.numFiles * c.fileSize / c.fileBlockSize := lt_of_mul_lt_mul_right hstart hb.le
  have hend : (k + 1) * c.fileBlockSize ≤ c.numFiles * c.fileSize :=
    (Int.le_ediv_iff_mul_le hb).mp (by omega)
  refine ⟨.inl (by linarith), ?_⟩
  rintro f ⟨hflo, hfhi⟩
  rcases hfill with hone | ⟨j, hj⟩
  · have h0 : 0 ≤ k * c.fileBlockSize := by
      rw [← (rndOffset_eq_iff hb _ k).mpr ((scaleExactly_mem_iff _ _ _ _).mpr ⟨hlo, hhi⟩)]
      exact rndOffset_nonneg hb (scales_exactly _ _ ht).1
    rw [hone] at hend
    have hsize : 0 < c.fileSize := by
      push_cast at hend
      linarith
    have hf : f < 1 := by
      by_contra hge
      have := mul_le_mul_of_nonneg_right (show 1 ≤ f by omega) hsize.le
      push_cast at hend
      linarith
    have := mul_le_mul_of_nonneg_right (show f ≤ 0 by omega) hsize.le
    linarith
  · -- all ends of files are block boundaries
    have hmul : f * c.fileSize = f * j * c.fileBlockSize := by
      rw [hj]
      ring
    rw [hmul] at hflo hfhi
    have hlo' : k < f * j := lt_of_mul_lt_mul_right hflo hb.le
    have hhi' : f * j < k + 1 := lt_of_mul_lt_mul_right (by linarith) hb.le
    omega

/-- The random generator stays inside the files exactly when every block that a draw can
fall into does. If the draws are fine enough to hit every block, this is a condition on
the sizes alone. -/
theorem rndRequestsFit_iff {g : Globals} {o : Options} (hp : parseArguments g o = .ok c)
    (hfs : 1 ≤ c.fileSize) :
    (RndRequestsFit c ↔ DrawsFit o) ∧
      (c.numFiles ≤ 2 ^ 31 → c.totalSize ≤ sbMaxRnd * c.fileBlockSize →
        (RndRequestsFit c ↔ SizesFit c)) := by
  have h := parseArguments_ok hp
  have hiff := rndRequestsFit_iff_drawsFit hp hfs
  exact ⟨hiff, fun hn hstep =>
    hiff.trans ⟨sizesFit_of_drawsFit h hfs hn hstep, drawsFit_of_sizesFit h⟩⟩

theorem rndRequestsFit_iff_small :
    (RndRequestsFit { smallConfig with testMode := .rndRead } ↔
      DrawsFit { smallOptions with fileTestMode := some "rndrd" }) ∧
      (smallConfig.numFiles ≤ 2 ^ 31 →
        smallConfig.totalSize ≤ sbMaxRnd * smallConfig.fileBlockSize →
        (RndRequestsFit { smallConfig with testMode := .rndRead } ↔
          SizesFit { smallConfig with testMode := .rndRead })) :=
  rndRequestsFit_iff (g := smallGlobals) rfl (by decide)

/-- Eleven bytes in three files of three: the last draw is sent to the file number three. -/
theorem rndRequestsFit_past : ∃ g o c, parseArguments g o = .ok c ∧ ¬ SeqMode c ∧
    1 ≤ c.fileSize ∧ ¬ RndRequestsFit c := by
  refine ⟨smallGlobals,
    { smallOptions with
      fileNum := 3, fileBlockSize := 1, fileTotalSize := 11, fileTestMode := some "rndrd" },
    { smallConfig with
      numFiles := 3, totalSize := 11, fileSize := 3, fileBlockSize := 1, fileMaxRequestSize := 1
      testMode := .rndRead },
    rfl, by decide, by decide, fun hfit => ?_⟩
  have hin := (hfit (initVars fun _ => ⟨0, 0⟩) 0 [⟨sbMaxRnd - 1, by decide⟩]
    ⟨3, 1, 1, .read⟩ _ rfl (.inl rfl)).2 rfl
  exact absurd hin (by decide)

end Sysbench.Fileio
