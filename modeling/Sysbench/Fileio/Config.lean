import Sysbench.Machine.Checks
import Sysbench.Machine.Words

/-! # Options of the fileio test

`parseArguments` turns the values of the typed option getters into the static
variables of the test. The conversions between C types happen here: the block
size is narrowed to `int`, the merged request size is an `int` product, and the
number of files is an `int` stored as unsigned. The build is the Linux one: AIO, mmap
and fdatasync exist, and `long` has 64 bits.
-/
namespace Sysbench.Fileio

open Checks Words

inductive Command where
  | null | prepare | run | cleanup | help | version
  deriving DecidableEq, Repr

/-- `file_test_mode_t`. No option selects `mixed`. -/
inductive FileTestMode where
  | read | write | rewrite | rndRead | rndWrite | rndRw | mixed
  deriving DecidableEq, Repr

inductive FileIoMode where
  | sync | async | mmap
  deriving DecidableEq, Repr

inductive FileFlags where
  | normal | sync | dsync | directio
  deriving DecidableEq, Repr

inductive FileFsyncMode where
  | all | data
  deriving DecidableEq, Repr

structure Globals where
  command : Command
  numThreads : ℕ
  maxRequests : ℕ
  validate : Bool
  deriving DecidableEq, Repr

structure Options where
  fileNum : ℤ
  fileBlockSize : ℤ
  fileTotalSize : ℤ
  fileTestMode : Option String
  fileIoMode : Option String
  fileExtraFlags : Option String
  fileFsyncFreq : ℤ
  fileFsyncAll : Bool
  fileFsyncEnd : Bool
  fileFsyncMode : String
  fileMergedRequests : ℤ
  fileRwRatio : ℚ

structure Config extends Globals where
  numFiles : ℕ
  totalSize : ℤ
  fileSize : ℤ
  fileBlockSize : ℤ
  fileExtraFlags : FileFlags
  fileFsyncFreq : ℕ
  fileFsyncAll : Bool
  fileFsyncEnd : Bool
  fileFsyncMode : FileFsyncMode
  fileRwRatio : ℚ
  fileMergedRequests : ℕ
  fileMaxRequestSize : ℤ
  fileIoMode : FileIoMode
  testMode : FileTestMode

/-- One `if (...) { log_text(LOG_FATAL, ...); return 1; }` of the source. -/
def require (ok : Prop) [Decidable ok] (message : String) : Except String Unit :=
  if ok then .ok () else .error message

/-- The test mode is necessary only for the `run` command; for the others the static
variable keeps its initial value `MODE_READ`. -/
def parseTestMode (command : Command) (value : Option String) : Except String FileTestMode :=
  if command = .run then
    match value with
    | none => .error "Missing required argument: --file-test-mode"
    | some mode =>
      if mode = "seqwr" then .ok .write
      else if mode = "seqrewr" then .ok .rewrite
      else if mode = "seqrd" then .ok .read
      else if mode = "rndrd" then .ok .rndRead
      else if mode = "rndwr" then .ok .rndWrite
      else if mode = "rndrw" then .ok .rndRw
      else .error s!"Invalid IO operations mode: {mode}."
  else .ok .read

def parseIoMode (value : Option String) : Except String FileIoMode :=
  let mode := value.getD "sync"
  if mode = "sync" then .ok .sync
  else if mode = "async" then .ok .async
  else if mode = "mmap" then .ok .mmap
  else .error s!"unknown I/O mode: {mode}"

def parseExtraFlags (value : Option String) : Except String FileFlags :=
  let mode := value.getD ""
  if mode = "" then .ok .normal
  else if mode = "sync" then .ok .sync
  else if mode = "dsync" then .ok .dsync
  else if mode = "direct" then .ok .directio
  else .error s!"Invalid value for file-extra-flags: {mode}"

def parseFsyncMode (mode : String) : Except String FileFsyncMode :=
  if mode = "fsync" then .ok .all
  else if mode = "fdatasync" then .ok .data
  else .error s!"Invalid fsync mode: {mode}."

/-- `parse_arguments`, up to the buffers it allocates at the end. -/
def parseArguments (g : Globals) (o : Options) : Except String Config := do
  let numFiles := toUInt 32 o.fileNum
  require (numFiles ≠ 0) s!"Invalid value for file-num: {numFiles}"
  let totalSize := toInt 64 o.fileTotalSize
  require (0 < totalSize) s!"Invalid value for file-total-size: {totalSize}"
  let testMode ← parseTestMode g.command o.fileTestMode
  let fileIoMode ← parseIoMode o.fileIoMode
  require (0 ≤ o.fileMergedRequests)
    s!"Invalid value for file-merged-requests: {o.fileMergedRequests}."
  let fileBlockSize := toInt 32 o.fileBlockSize
  require (0 < fileBlockSize) s!"Invalid value for file-block-size: {fileBlockSize}."
  let fileExtraFlags ← parseExtraFlags o.fileExtraFlags
  require (0 ≤ o.fileFsyncFreq) s!"Invalid value for file-fsync-freq: {o.fileFsyncFreq}."
  let fileFsyncMode ← parseFsyncMode o.fileFsyncMode
  require (0 ≤ o.fileRwRatio) s!"Invalid value file file-rw-ratio: {o.fileRwRatio}."
  .ok
    { toGlobals := g
      numFiles
      totalSize
      fileSize := totalSize / numFiles
      fileBlockSize
      fileExtraFlags
      -- file-fsync-all overrides file-fsync-end and file-fsync-freq
      fileFsyncFreq := if o.fileFsyncAll then 0 else o.fileFsyncFreq.toNat
      fileFsyncAll := o.fileFsyncAll
      fileFsyncEnd := o.fileFsyncEnd && !o.fileFsyncAll
      fileFsyncMode
      fileRwRatio := o.fileRwRatio
      fileMergedRequests := o.fileMergedRequests.toNat
      -- the product is taken in `int`; overflow wraps
      fileMaxRequestSize :=
        if 0 < o.fileMergedRequests then toInt 32 (fileBlockSize * o.fileMergedRequests)
        else fileBlockSize
      fileIoMode
      testMode }

/-- What every accepted option setting guarantees to the rest of the test. -/
structure Accepted (g : Globals) (o : Options) (c : Config) : Prop where
  globals : c.toGlobals = g
  numFiles : c.numFiles = toUInt 32 o.fileNum
  numFiles_pos : 0 < c.numFiles
  totalSize : c.totalSize = toInt 64 o.fileTotalSize
  totalSize_pos : 0 < c.totalSize
  fileSize : c.fileSize = c.totalSize / c.numFiles
  fileBlockSize : c.fileBlockSize = toInt 32 o.fileBlockSize
  fileBlockSize_pos : 0 < c.fileBlockSize
  merged : (c.fileMergedRequests : ℤ) = o.fileMergedRequests
  maxRequestSize : c.fileMaxRequestSize =
    if 0 < c.fileMergedRequests then toInt 32 (c.fileBlockSize * c.fileMergedRequests)
    else c.fileBlockSize
  testMode : c.testMode ≠ .mixed

@[simp] theorem require_eq_ok {ok : Prop} [Decidable ok] {message : String} {u : Unit} :
    require ok message = .ok u ↔ ok := by
  unfold require
  split_ifs with h <;> simp [h]

structure Config.Typed (c : Config) : Prop where
  numFiles_lt : c.numFiles < 2 ^ 32
  fileSize_lt : c.fileSize < 2 ^ 63
  le_fileBlockSize : -2 ^ 31 ≤ c.fileBlockSize
  fileBlockSize_lt : c.fileBlockSize < 2 ^ 31
  le_fileMaxRequestSize : -2 ^ 63 ≤ c.fileMaxRequestSize
  fileMaxRequestSize_lt : c.fileMaxRequestSize < 2 ^ 63

theorem Accepted.fileSize_nonneg {g : Globals} {o : Options} {c : Config} (h : Accepted g o c) :
    0 ≤ c.fileSize := by
  rw [h.fileSize]
  exact Int.ediv_nonneg h.totalSize_pos.le (Int.natCast_nonneg _)

theorem Accepted.fileBlockSize_lt {g : Globals} {o : Options} {c : Config} (h : Accepted g o c) :
    c.fileBlockSize < 2 ^ 31 := by
  rw [h.fileBlockSize]
  exact toInt_lt (by norm_num) _

/-- The product of two `int` values is kept as an `int`. -/
theorem Accepted.maxRequestSize_range {g : Globals} {o : Options} {c : Config}
    (h : Accepted g o c) : -2 ^ 31 ≤ c.fileMaxRequestSize ∧ c.fileMaxRequestSize < 2 ^ 31 := by
  have hb := h.fileBlockSize_pos
  rw [h.maxRequestSize]
  split_ifs
  · exact ⟨le_toInt (by norm_num) _, toInt_lt (by norm_num) _⟩
  · exact ⟨by omega, h.fileBlockSize_lt⟩

theorem Accepted.typed {g : Globals} {o : Options} {c : Config} (h : Accepted g o c) :
    c.Typed := by
  have hn := toUInt_lt 32 o.fileNum
  have hb := h.fileBlockSize_pos
  have hlt : c.totalSize < 2 ^ 63 := by
    rw [h.totalSize]
    exact toInt_lt (by norm_num) _
  have hle : c.fileSize ≤ c.totalSize := by
    rw [h.fileSize]
    exact Int.ediv_le_self _ h.totalSize_pos.le
  obtain ⟨hlo, hhi⟩ := h.maxRequestSize_range
  exact
    { numFiles_lt := h.numFiles ▸ hn
      fileSize_lt := hle.trans_lt hlt
      le_fileBlockSize := by omega
      fileBlockSize_lt := h.fileBlockSize_lt
      le_fileMaxRequestSize := by omega
      fileMaxRequestSize_lt := by omega }

theorem parseTestMode_ne_mixed {command : Command} {value : Option String} {mode : FileTestMode}
    (h : parseTestMode command value = .ok mode) : mode ≠ .mixed := by
  unfold parseTestMode at h
  by_cases hc : command = .run
  · rw [if_pos hc] at h
    cases value with
    | none => cases h
    | some s =>
      simp only at h
      split_ifs at h <;> cases h <;> decide
  · rw [if_neg hc] at h
    cases h
    decide

theorem parseArguments_ok {g : Globals} {o : Options} {c : Config}
    (h : parseArguments g o = .ok c) : Accepted g o c := by
  simp only [parseArguments, bind_eq_ok, require_eq_ok] at h
  obtain ⟨_, hn, _, ht, mode, hm, _, _, _, hr, _, hb, _, _, _, hq, _, _, _, hw, h⟩ := h
  cases h
  have hmerged : ((o.fileMergedRequests.toNat : ℕ) : ℤ) = o.fileMergedRequests :=
    Int.toNat_of_nonneg hr
  have hpos : 0 < o.fileMergedRequests.toNat ↔ 0 < o.fileMergedRequests := by omega
  exact
    { globals := rfl
      numFiles := rfl
      numFiles_pos := Nat.pos_of_ne_zero hn
      totalSize := rfl
      totalSize_pos := ht
      fileSize := rfl
      fileBlockSize := rfl
      fileBlockSize_pos := hb
      merged := hmerged
      maxRequestSize := by simp only [hpos, hmerged]
      testMode := parseTestMode_ne_mixed hm }

/-! ## A small setting

One file of two blocks, written sequentially by two threads, synced after each request and
at the end. -/

def smallGlobals : Globals := ⟨.run, 2, 2, false⟩

def smallOptions : Options where
  fileNum := 1
  fileBlockSize := 4
  fileTotalSize := 8
  fileTestMode := some "seqwr"
  fileIoMode := none
  fileExtraFlags := none
  fileFsyncFreq := 1
  fileFsyncAll := false
  fileFsyncEnd := true
  fileFsyncMode := "fsync"
  fileMergedRequests := 0
  fileRwRatio := 1

def smallConfig : Config where
  toGlobals := smallGlobals
  numFiles := 1
  totalSize := 8
  fileSize := 8
  fileBlockSize := 4
  fileExtraFlags := .normal
  fileFsyncFreq := 1
  fileFsyncAll := false
  fileFsyncEnd := true
  fileFsyncMode := .all
  fileRwRatio := 1
  fileMergedRequests := 0
  fileMaxRequestSize := 4
  fileIoMode := .sync
  testMode := .write

theorem parseArguments_small : parseArguments smallGlobals smallOptions = .ok smallConfig := rfl

end Sysbench.Fileio
