import Sysbench.Fileio.Requests

/-! # Execution of a request

`fileExecuteRequest` lists what a request does once its parameters are accepted: the
buffer operations, the system calls, and the counter updates, each of which is a
locked section of its own. The list is what happens when every step succeeds.
-/
namespace Sysbench.Fileio

open Checks Words

inductive Action where
  | fillBuffer (size pos : ℤ)
  | pwrite (fileId : ℕ) (size pos : ℤ)
  | pread (fileId : ℕ) (size pos : ℤ)
  | validateBuffer (size pos : ℤ)
  | fsync (fileId : ℕ)
  | countRead (size : ℤ)
  | countWrite (size : ℤ)
  | countOther
  deriving DecidableEq, Repr

variable (c : Config)

def checkRequest (r : FileRequest) : Except String Unit := do
  require (r.fileId ≤ c.numFiles) s!"Incorrect file id in request: {r.fileId}"
  require (toInt 64 (r.pos + r.size) ≤ c.fileSize) "Too large position discovered in request!"

def writeActions (r : FileRequest) : List Action :=
  (if c.validate then [.fillBuffer r.size r.pos] else []) ++
  [.pwrite r.fileId r.size r.pos] ++
  (if c.fileFsyncAll then [.fsync r.fileId, .countOther] else []) ++
  -- in async mode stats are updated on AIO requests completion
  (if c.fileIoMode ≠ .async then [.countWrite r.size] else [])

def readActions (r : FileRequest) : List Action :=
  [.pread r.fileId r.size r.pos] ++
  (if c.validate then [.validateBuffer r.size r.pos] else []) ++
  (if c.fileIoMode ≠ .async then [.countRead r.size] else [])

/-- Fsync requests are ignored if each operation is fsync'ed already. -/
def fsyncActions (r : FileRequest) : List Action :=
  if c.fileFsyncAll then []
  else [.fsync r.fileId] ++ (if c.fileIoMode ≠ .async then [.countOther] else [])

def fileExecuteRequest (r : FileRequest) : Except String (List Action) := do
  checkRequest c r
  match r.operation with
  | .null => .error "Execute of NULL request called !, aborting"
  | .write => .ok (writeActions c r)
  | .read => .ok (readActions c r)
  | .fsync => .ok (fsyncActions c r)

/-- What an action does to the counters. -/
def Action.count (st : Stats) : Action → Stats
  | .countRead size =>
    { st with
      readOps := toInt 32 (st.readOps + 1), bytesRead := toUInt 64 (st.bytesRead + size) }
  | .countWrite size =>
    { st with
      writeOps := toInt 32 (st.writeOps + 1), bytesWritten := toUInt 64 (st.bytesWritten + size) }
  | .countOther => { st with otherOps := toInt 32 (st.otherOps + 1) }
  | _ => st

variable {c}

theorem checkRequest_eq_ok {r : FileRequest} {u : Unit} :
    checkRequest c r = .ok u ↔
      r.fileId ≤ c.numFiles ∧ toInt 64 (r.pos + r.size) ≤ c.fileSize := by
  simp [checkRequest, bind_eq_ok]

theorem fileExecuteRequest_ok {r : FileRequest} {todo : List Action}
    (h : fileExecuteRequest c r = .ok todo) : checkRequest c r = .ok () ∧
      (r.operation = .write ∧ todo = writeActions c r ∨
        r.operation = .read ∧ todo = readActions c r ∨
        r.operation = .fsync ∧ todo = fsyncActions c r) := by
  rw [fileExecuteRequest, bind_eq_ok] at h
  obtain ⟨_, hcheck, h⟩ := h
  refine ⟨hcheck, ?_⟩
  cases hop : r.operation with
  | null =>
    rw [hop] at h
    cases h
  | write =>
    rw [hop] at h
    cases h
    simp
  | read =>
    rw [hop] at h
    cases h
    simp
  | fsync =>
    rw [hop] at h
    cases h
    simp

structure InFile (c : Config) (r : FileRequest) : Prop where
  fileId : r.fileId < c.numFiles
  pos : 0 ≤ r.pos
  fits : r.pos + r.size ≤ c.fileSize

instance (r : FileRequest) : Decidable (InFile c r) :=
  decidable_of_iff (r.fileId < c.numFiles ∧ 0 ≤ r.pos ∧ r.pos + r.size ≤ c.fileSize)
    ⟨fun ⟨h1, h2, h3⟩ => ⟨h1, h2, h3⟩, fun ⟨h1, h2, h3⟩ => ⟨h1, h2, h3⟩⟩

/-- The end of a request in its file is no larger than the number it is stored as. -/
theorem InFile.checkRequest {r : FileRequest} (h : InFile c r) (hsize : -2 ^ 63 ≤ r.size)
    (hfs : c.fileSize < 2 ^ 63) : checkRequest c r = .ok () := by
  have hpos := h.pos
  have hfits := h.fits
  have hend : toInt 64 (r.pos + r.size) = r.pos + r.size :=
    toInt_of_range (by norm_num) (by norm_num; omega) (by norm_num; omega)
  exact checkRequest_eq_ok.mpr ⟨h.fileId.le, by rw [hend]; exact hfits⟩

end Sysbench.Fileio
