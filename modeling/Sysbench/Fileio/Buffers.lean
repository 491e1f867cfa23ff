import Sysbench.Fileio.BlockAccess
import Sysbench.Fileio.Prepare
import Sysbench.Options.Sizes

/-! # Requests and the buffers of the threads

`parse_arguments` narrows the block size to `int` and multiplies it with the number of merged
requests as `int`; the product is the size of the buffers.
-/
namespace Sysbench.Fileio

open Runs Tiling Words

/-- The narrowing to 32 bits does not see that the size was reduced to 64 bits. -/
theorem toInt_mod_two_pow (n : ℕ) : toInt 32 (n % 2 ^ 64 : ℕ) = toInt 32 n := by
  have hmod : ((n % 2 ^ 64 : ℕ) : ℤ) % (2 ^ 32 : ℕ) = (n : ℤ) % (2 ^ 32 : ℕ) := by
    push_cast
    omega
  rw [toInt, toInt, ← Int.emod_bmod, hmod, Int.emod_bmod]

variable {g : Globals} {o : Options} {c : Config}

theorem parseArguments_testMode (h : parseArguments g o = .ok c) :
    parseTestMode g.command o.fileTestMode = .ok c.testMode := by
  simp only [parseArguments, Checks.bind_eq_ok, require_eq_ok] at h
  obtain ⟨_, -, _, -, mode, hm, _, -, _, -, _, -, _, -, _, -, _, -, _, -, h⟩ := h
  cases h
  exact hm

def SeqTest (o : Options) : Prop :=
  o.fileTestMode = some "seqwr" ∨ o.fileTestMode = some "seqrewr" ∨ o.fileTestMode = some "seqrd"

theorem seqMode_iff (h : parseArguments g o = .ok c) (hrun : g.command = .run) :
    SeqMode c ↔ SeqTest o := by
  have hmode := parseArguments_testMode h
  unfold parseTestMode at hmode
  rw [if_pos hrun] at hmode
  unfold SeqTest SeqMode
  generalize c.testMode = mode at hmode ⊢
  cases hv : o.fileTestMode with
  | none =>
    rw [hv] at hmode
    cases hmode
  | some v =>
    rw [hv] at hmode
    simp only at hmode
    split_ifs at hmode <;> cases hmode <;> simp_all

/-- A data request of some run does something and stays inside the buffer. -/
def RequestsFit (c : Config) : Prop :=
  ∀ perThread calls s, run (callStep c) (initVars perThread) calls = some s →
    ∀ r ∈ dataRequests (requests calls), 0 < r.size ∧ r.size ≤ bufferCapacity c

/-- The sizes are those asked for, and the requests of a run fit into the buffers. -/
structure BuffersFit (c : Config) (size : ℕ) : Prop where
  fileBlockSize : c.fileBlockSize = size
  fileMaxRequestSize : c.fileMaxRequestSize = c.fileBlockSize * max c.fileMergedRequests 1
  requests : c.command = .run → RequestsFit c

/-! ## Sizes -/

theorem fileMaxRequestSize_eq_iff (h : Accepted g o c) {size : ℕ} (hb : c.fileBlockSize = size) :
    c.fileMaxRequestSize = c.fileBlockSize * max c.fileMergedRequests 1 ↔
      size * max c.fileMergedRequests 1 < 2 ^ 31 := by
  have hblock : size < 2 ^ 31 := by
    have hlt := toInt_lt (w := 32) (by decide) o.fileBlockSize
    rw [← h.fileBlockSize, hb] at hlt
    exact_mod_cast hlt
  rw [h.maxRequestSize, hb]
  by_cases hmerge : 0 < c.fileMergedRequests
  · rw [if_pos hmerge, max_eq_left hmerge]
    exact_mod_cast toInt_natCast_eq_iff (w := 32) (by decide)
  · rw [if_neg hmerge, max_eq_right (by omega)]
    simpa using hblock

/-! ## Requests -/

theorem requestsFit_merged_iff (h : Accepted g o c) (hm : SeqMode c)
    (hmerge : 0 < c.fileMergedRequests) (hmax : 0 < c.fileMaxRequestSize) :
    RequestsFit c ↔ c.fileSize ≠ 0 := by
  have hn := h.numFiles_pos
  have hnn := h.fileSize_nonneg
  rw [RequestsFit, forall_data_iff hm hn]
  constructor
  · -- the first request has the size of an empty file
    intro hall hzero
    have hfirst := (hall 0 (by omega)).1
    rw [(seqStream_zero_merged hn h.typed hnn hmerge).1, hzero] at hfirst
    omega
  · intro hne i _
    have hfs : 1 ≤ c.fileSize := by omega
    obtain ⟨j, -, hpos, hbefore⟩ := cursorAt_rewind_eq hn h.typed hfs hmax hmerge i
    have hlow : -2 ^ 63 ≤ seqPos c j := le_toInt (w := 64) (by norm_num) _
    have hlt := hbefore j le_rfl
    have hsize : (seqStream c i).size = seqSize c (seqPos c j) := by
      rw [seqStream, Cursor.request, hpos]
    rw [hsize, bufferCapacity]
    rcases seqSize_cases h.typed hfs hmax hmerge hlow hlt with ⟨hsize, -⟩ | ⟨hsize, -, hgt⟩
    · omega
    · omega

theorem requestsFit_blocks (hb : 0 < c.fileBlockSize)
    (hle : c.fileBlockSize ≤ c.fileMaxRequestSize)
    (hsize : ∀ perThread calls s, run (callStep c) (initVars perThread) calls = some s →
      ∀ r ∈ dataRequests (requests calls), r.size = c.fileBlockSize) : RequestsFit c := by
  intro perThread calls s hr r hmem
  rw [hsize perThread calls s hr r hmem, bufferCapacity]
  omega

/-- Only a sequential run that merges requests on files without a byte has empty requests. -/
theorem requestsFit_iff (h : Accepted g o c) (hmax : c.fileBlockSize ≤ c.fileMaxRequestSize) :
    RequestsFit c ↔ (SeqMode c → 0 < c.fileMergedRequests → c.fileSize ≠ 0) := by
  have hb := h.fileBlockSize_pos
  by_cases hm : SeqMode c
  · by_cases hmerge : 0 < c.fileMergedRequests
    · rw [requestsFit_merged_iff h hm hmerge (by omega)]
      simp [hm, hmerge]
    · refine iff_of_true (requestsFit_blocks hb hmax ?_) (fun _ hpos => absurd hpos hmerge)
      intro perThread calls s hr r hmem
      rw [(run_streamInv hm hr).data] at hmem
      obtain ⟨i, -, rfl⟩ := List.mem_map.mp hmem
      change seqSize c _ = _
      rw [seqSize, if_neg hmerge]
  · exact iff_of_true
      (requestsFit_blocks hb hmax fun _ _ _ hr r hmem =>
        (rnd_dataRequests hm h.fileSize_nonneg hr r hmem).1)
      (fun hseq => absurd hseq hm)

theorem fileSize_ne_zero_iff (h : Accepted g o c) :
    c.fileSize ≠ 0 ↔ (toUInt 32 o.fileNum : ℤ) ≤ toInt 64 o.fileTotalSize := by
  have hn : (0 : ℤ) < c.numFiles := by exact_mod_cast h.numFiles_pos
  rw [← h.numFiles, ← h.totalSize, h.fileSize]
  have hnn : 0 ≤ c.totalSize / c.numFiles := Int.ediv_nonneg h.totalSize_pos.le hn.le
  have hone : 1 ≤ c.totalSize / c.numFiles ↔ 1 * (c.numFiles : ℤ) ≤ c.totalSize :=
    Int.le_ediv_iff_mul_le hn
  rw [one_mul] at hone
  omega

theorem fileBlockSize_eq_iff (h : Accepted g o c) {opt : Options.Opt} {val : Options.Value}
    {rest : List Options.Value} {size : ℕ} (hval : opt.values = val :: rest)
    (hsize : Options.Denotes val.data.chars size)
    (ho : o.fileBlockSize = Options.sbOptToSize opt) :
    c.fileBlockSize = size ↔ size < 2 ^ 31 := by
  have hstart : Options.StartsSize val.data.chars size := .inl hsize
  rw [h.fileBlockSize, ho, Options.sbOptToSize, hval]
  dsimp only
  rw [hstart.sizeOf, toInt_mod_two_pow, toInt_natCast_eq_iff (by decide)]

theorem fileBlockSize_le_of_eq (h : Accepted g o c)
    (hmax : c.fileMaxRequestSize = c.fileBlockSize * max c.fileMergedRequests 1) :
    c.fileBlockSize ≤ c.fileMaxRequestSize := by
  have hone : (1 : ℤ) ≤ (max c.fileMergedRequests 1 : ℕ) := by
    exact_mod_cast le_max_right c.fileMergedRequests 1
  rw [hmax]
  exact le_mul_of_one_le_right h.fileBlockSize_pos.le hone

/-- The requests fit exactly if neither the block size nor its product with the merged requests
leaves `int`, and no file is empty where requests are merged. -/
theorem buffersFit_iff {opt : Options.Opt} {val : Options.Value} {rest : List Options.Value}
    {size : ℕ} (hval : opt.values = val :: rest) (hsize : Options.Denotes val.data.chars size)
    (ho : o.fileBlockSize = Options.sbOptToSize opt) (h : parseArguments g o = .ok c) :
    BuffersFit c size ↔
      size < 2 ^ 31 ∧ size * max o.fileMergedRequests.toNat 1 < 2 ^ 31 ∧
        (g.command = .run → SeqTest o → 0 < o.fileMergedRequests →
          (toUInt 32 o.fileNum : ℤ) ≤ toInt 64 o.fileTotalSize) := by
  have hok := parseArguments_ok h
  have hmerged : o.fileMergedRequests.toNat = c.fileMergedRequests := by
    have hcast := hok.merged
    omega
  have hpos : 0 < o.fileMergedRequests ↔ 0 < c.fileMergedRequests := by
    have hcast := hok.merged
    omega
  have hblock := fileBlockSize_eq_iff hok hval hsize ho
  have hrequests : c.fileBlockSize ≤ c.fileMaxRequestSize →
      ((c.command = .run → RequestsFit c) ↔
        (g.command = .run → SeqTest o → 0 < o.fileMergedRequests →
          (toUInt 32 o.fileNum : ℤ) ≤ toInt 64 o.fileTotalSize)) := by
    intro hmax
    rw [requestsFit_iff hok hmax, fileSize_ne_zero_iff hok, hok.globals, hpos]
    exact forall_congr' fun hrun => by rw [seqMode_iff h hrun]
  rw [hmerged]
  constructor
  · rintro ⟨hb, hmax, hfit⟩
    exact ⟨hblock.mp hb, (fileMaxRequestSize_eq_iff hok hb).mp hmax,
      (hrequests (fileBlockSize_le_of_eq hok hmax)).mp hfit⟩
  · rintro ⟨hb, hmax, hfit⟩
    have hb' := hblock.mpr hb
    have hmax' := (fileMaxRequestSize_eq_iff hok hb').mpr hmax
    exact ⟨hb', hmax', (hrequests (fileBlockSize_le_of_eq hok hmax')).mpr hfit⟩

def fourBytes : Options.Opt :=
  ⟨.empty, .size, [⟨.ofBytes [CStrings.charByte '4'], false⟩], false⟩

theorem buffersFit_iff_small :
    BuffersFit smallConfig 4 ↔
      4 < 2 ^ 31 ∧ 4 * max smallOptions.fileMergedRequests.toNat 1 < 2 ^ 31 ∧
        (smallGlobals.command = .run → SeqTest smallOptions →
          0 < smallOptions.fileMergedRequests →
            (toUInt 32 smallOptions.fileNum : ℤ) ≤ toInt 64 smallOptions.fileTotalSize) :=
  buffersFit_iff (show fourBytes.values = _ from rfl) (.number (by decide) (by decide)) rfl
    parseArguments_small

def gigabyte : List Bytes.Byte := "1G".toList.map CStrings.charByte

/-- Two merged blocks of a gigabyte: the product is negative. -/
theorem not_buffersFit :
    ∃ c, parseArguments smallGlobals
      { smallOptions with
        fileBlockSize := Options.sizeOf gigabyte, fileMergedRequests := 2 } = .ok c ∧
      Options.Denotes gigabyte (2 ^ 30) ∧ ¬ BuffersFit c (2 ^ 30) := by
  have hsize : (Options.sizeOf gigabyte : ℤ) = 2 ^ 30 := by decide
  refine ⟨{ smallConfig with
    fileBlockSize := 2 ^ 30, fileMergedRequests := 2, fileMaxRequestSize := -2 ^ 31 }, ?_, ?_,
    fun hfit => absurd hfit.fileMaxRequestSize (by decide)⟩
  · rw [hsize]
    rfl
  · have hdigits : [CStrings.charByte '1'] ≠ [] ∧
        ∀ b ∈ [CStrings.charByte '1'], Options.isdigit b := by decide
    have hsuffix : Options.suffixPower (CStrings.charByte 'G') = some 3 := by decide
    exact .scaled hdigits.1 hdigits.2 hsuffix

end Sysbench.Fileio
