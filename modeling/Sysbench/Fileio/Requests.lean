import Sysbench.Fileio.Config
import Sysbench.Machine.Doubles

/-! # Request generators of the fileio test

Both generators run under the execution mutex, so a call is one step on the static
variables. They share the schedule (a final fsync series, a periodic one, otherwise
a data request) but repeat it in their own code. `Served` states once what a call
can do, and `fileGetRequest_served` derives it for both. Positions are `long long`, and an
overflow wraps.
-/
namespace Sysbench.Fileio

open Doubles Words

inductive FileOp where
  | null | read | write | fsync
  deriving DecidableEq, Repr

structure FileRequest where
  fileId : ℕ
  pos : ℤ
  size : ℤ
  operation : FileOp
  deriving DecidableEq, Repr

/-- The two request types the test hands out: `SB_REQ_TYPE_NULL` and `SB_REQ_TYPE_FILE`. -/
inductive Request where
  | null
  | file (r : FileRequest)
  deriving DecidableEq, Repr

namespace Request

def isRead : Request → Bool
  | .null => false
  | .file r => r.operation = .read

def isWrite : Request → Bool
  | .null => false
  | .file r => r.operation = .write

def isFsync : Request → Bool
  | .null => false
  | .file r => r.operation = .fsync

def isData (q : Request) : Bool := q.isRead || q.isWrite

end Request

def fsyncRequest (fileId : ℕ) : Request := .file ⟨fileId, 0, 0, .fsync⟩

@[simp] theorem fsyncRequest_isData (f : ℕ) : (fsyncRequest f).isData = false := rfl
@[simp] theorem fsyncRequest_isFsync (f : ℕ) : (fsyncRequest f).isFsync = true := rfl
@[simp] theorem null_isData : Request.null.isData = false := rfl

/-- The counters that `clear_stats` resets. Operations are counted in `int`, bytes in
`unsigned long long`. -/
structure Stats where
  readOps : ℤ
  writeOps : ℤ
  otherOps : ℤ
  lastOtherOps : ℤ
  bytesRead : ℕ
  lastBytesRead : ℕ
  bytesWritten : ℕ
  lastBytesWritten : ℕ
  deriving DecidableEq, Repr

def clearStats : Stats := ⟨0, 0, 0, 0, 0, 0, 0, 0⟩

structure PerThread where
  bufferFileId : ℕ
  bufferPos : ℤ
  deriving DecidableEq, Repr

structure Vars where
  position : ℤ
  currentFile : ℕ
  fsyncedFile : ℕ
  fsyncedFile2 : ℕ
  isDirty : Bool
  reqPerformed : ℕ
  stats : Stats
  prevReq : FileRequest
  perThread : ℕ → PerThread
  /-- the warnings `check_seq_req` wrote -/
  log : List String

/-- `init_vars` and `clear_stats`. The records of `per_thread` are allocated without
being initialised, so their contents are arbitrary. -/
def initVars (perThread : ℕ → PerThread) : Vars where
  position := 0
  currentFile := 0
  fsyncedFile := 0
  fsyncedFile2 := 0
  isDirty := false
  reqPerformed := 0
  stats := clearStats
  prevReq := ⟨0, 0, 0, .null⟩
  perThread := perThread
  log := []

def sbMaxRnd : ℕ := 0x3fffffff

abbrev Draw := Fin sbMaxRnd

theorem sbMaxRnd_pos : 0 < sbMaxRnd := by decide

variable (c : Config)

/-! ## The common schedule -/

/-- All requests have been handed out. Without a limit this never happens. -/
def Vars.Done (s : Vars) : Prop := 0 < c.maxRequests ∧ c.maxRequests ≤ s.reqPerformed

instance (s : Vars) : Decidable (s.Done c) := inferInstanceAs (Decidable (_ ∧ _))

def Vars.finalFsync (s : Vars) : Request × Vars :=
  (fsyncRequest s.fsyncedFile2, { s with fsyncedFile2 := s.fsyncedFile2 + 1 })

def Vars.periodicFsync (s : Vars) : Request × Vars :=
  (fsyncRequest s.fsyncedFile,
    if s.fsyncedFile + 1 = c.numFiles then { s with fsyncedFile := 0, isDirty := false }
    else { s with fsyncedFile := s.fsyncedFile + 1 })

/-! ## Sequential requests -/

/-- `check_seq_req`: the warnings for request `r` after `prev`. The difference of the
file numbers is unsigned. -/
def checkSeqReq (prev r : FileRequest) : List String :=
  if r.operation = .fsync ∨ r.operation = .null then []
  else if prev.operation = .null then []
  else if 1 < toUInt 32 ((r.fileId : ℤ) - prev.fileId) ∧
      ¬ (r.fileId = 0 ∧ (prev.fileId : ℤ) = toUInt 32 ((c.numFiles : ℤ) - 1)) then
    ["Discovered too large file difference in seq requests!"]
  else if r.fileId = prev.fileId then
    if toInt 64 (r.pos - prev.pos) ≠ prev.size then
      ["Discovered too large position difference in seq request!"]
    else []
  else if toInt 64 (prev.pos + prev.size) ≠ c.fileSize ∨ r.pos ≠ 0 then
    ["Invalid file switch found!",
      s!"Old: file_id: {prev.fileId}, pos: {toInt 32 prev.pos}  size: {toInt 32 prev.size}",
      s!"New: file_id: {r.fileId}, pos: {toInt 32 r.pos}  size: {toInt 32 r.size}"]
  else []

/-- Where the next sequential request starts. -/
structure Cursor where
  currentFile : ℕ
  position : ℤ
  deriving DecidableEq, Repr

def Cursor.rewind (u : Cursor) : Cursor := if u.currentFile = c.numFiles then ⟨0, 0⟩ else u

def seqSize (position : ℤ) : ℤ :=
  if 0 < c.fileMergedRequests then
    if toInt 64 (position + c.fileMaxRequestSize) ≤ c.fileSize then c.fileMaxRequestSize
    else toInt 64 (c.fileSize - position)
  else c.fileBlockSize

/-- Advance by `size`, scrolling to the next file when the end is hit exactly. -/
def Cursor.advance (u : Cursor) (size : ℤ) : Cursor :=
  let position := toInt 64 (u.position + size)
  if position = c.fileSize then ⟨u.currentFile + 1, 0⟩ else ⟨u.currentFile, position⟩

def Cursor.request (operation : FileOp) (u : Cursor) : FileRequest :=
  ⟨(u.rewind c).currentFile, (u.rewind c).position, seqSize c (u.rewind c).position, operation⟩

def Cursor.next (u : Cursor) : Cursor :=
  (u.rewind c).advance c (seqSize c (u.rewind c).position)

def Vars.cursor (s : Vars) : Cursor := ⟨s.currentFile, s.position⟩

def seqOperation : FileOp :=
  if c.testMode = .write ∨ c.testMode = .rewrite then .write else .read

def fileGetSeqRequest (s : Vars) : Request × Vars :=
  if s.Done c then
    -- no fsync for reads
    if c.fileFsyncEnd ∧ seqOperation c = .write ∧ s.fsyncedFile2 < c.numFiles then s.finalFsync
    else (.null, s)
  else if c.fileFsyncFreq ≠ 0 ∧ seqOperation c = .write ∧ s.isDirty ∧
      s.reqPerformed % c.fileFsyncFreq = 0 then
    s.periodicFsync c
  else
    let r := s.cursor.request c (seqOperation c)
    let u := s.cursor.next c
    (.file r,
      { s with
        position := u.position
        currentFile := u.currentFile
        reqPerformed := s.reqPerformed + 1
        isDirty := s.isDirty || seqOperation c = .write
        prevReq := if c.validate then r else s.prevReq
        log := if c.validate then s.log ++ checkSeqReq c s.prevReq r else s.log })

/-! ## Random requests -/

/-- `(double) a / b < ratio`. The quotient by zero is an infinity or no number. -/
def quotientLt (a b : ℤ) (ratio : ℚ) : Prop :=
  b = 0 ∧ a < 0 ∨ b ≠ 0 ∧ signedNearest (a / b) < ratio

instance (a b : ℤ) (ratio : ℚ) : Decidable (quotientLt a b ratio) :=
  inferInstanceAs (Decidable (_ ∨ _))

/-- The mode of this call: combined tests choose by the counters of completed requests. -/
def rndMode (s : Vars) : FileTestMode :=
  if c.testMode = .rndRw then
    if quotientLt (toInt 32 (s.stats.readOps + 1)) (toInt 32 (s.stats.writeOps + 1))
        c.fileRwRatio then .rndRead
    else .rndWrite
  else c.testMode

/-- The mode shall be `rndWrite` to write; anything else reads. -/
def rndOperation (s : Vars) : FileOp := if rndMode c s = .rndWrite then .write else .read

/-- `(long long) ((double) randnum / SB_MAX_RND * total_size)`. -/
def scaleDraw (totalSize : ℤ) (randnum : Draw) : ℤ :=
  ⌊nearest (nearest ((randnum : ℕ) / sbMaxRnd) * nearest totalSize)⌋

def rndOffset (tmppos : ℤ) : ℤ := tmppos - tmppos % c.fileBlockSize

/-- The request built from one scaled draw. The file number is stored as 32 bits. -/
def rndRequest (operation : FileOp) (tmppos : ℤ) : FileRequest where
  fileId := toUInt 32 (rndOffset c tmppos / c.fileSize)
  pos := rndOffset c tmppos % c.fileSize
  size := c.fileBlockSize
  operation := operation

/-- Another thread has the block of `r` on record. -/
def blockInUse (s : Vars) (threadId : ℕ) (r : FileRequest) : Bool :=
  (List.range c.numThreads).any fun i =>
    i ≠ threadId ∧ (s.perThread i).bufferFileId = r.fileId ∧ (s.perThread i).bufferPos = r.pos

/-- The `retry` loop. There is no result while every draw so far was refused, and none
when the division by `file_size` traps. -/
def retryLoop (scale : ℤ → Draw → ℤ) (s : Vars) (threadId : ℕ) (operation : FileOp) :
    List Draw → Option FileRequest
  | [] => none
  | randnum :: draws =>
    if c.fileSize = 0 then none
    else
      let r := rndRequest c operation (scale c.totalSize randnum)
      if c.validate && blockInUse c s threadId r then retryLoop scale s threadId operation draws
      else some r

/-- `file_get_rnd_request` over any way to scale a draw to the total size. -/
def fileGetRndRequestBy (scale : ℤ → Draw → ℤ) (s : Vars) (threadId : ℕ) (draws : List Draw) :
    Option (Request × Vars) :=
  if s.Done c then
    if c.fileFsyncEnd ∧
        (c.testMode = .rndWrite ∨ c.testMode = .rndRw ∨ c.testMode = .mixed) ∧
        s.fsyncedFile2 < c.numFiles then
      some s.finalFsync
    else some (.null, s)
  else if c.fileFsyncFreq ≠ 0 ∧ s.isDirty ∧ s.reqPerformed % c.fileFsyncFreq = 0 then
    some (s.periodicFsync c)
  else
    (retryLoop c scale s threadId (rndOperation c s) draws).map fun r =>
      (.file r,
        { s with
          perThread := Function.update s.perThread threadId ⟨r.fileId, r.pos⟩
          reqPerformed := s.reqPerformed + 1
          isDirty := s.isDirty || r.operation = .write })

def fileGetRndRequest (s : Vars) (threadId : ℕ) (draws : List Draw) : Option (Request × Vars) :=
  fileGetRndRequestBy c scaleDraw s threadId draws

def SeqMode : Prop := c.testMode = .write ∨ c.testMode = .rewrite ∨ c.testMode = .read

instance : Decidable (SeqMode c) := inferInstanceAs (Decidable (_ ∨ _ ∨ _))

def fileGetRequest (s : Vars) (threadId : ℕ) (draws : List Draw) : Option (Request × Vars) :=
  if SeqMode c then some (fileGetSeqRequest c s) else fileGetRndRequest c s threadId draws

end Sysbench.Fileio
