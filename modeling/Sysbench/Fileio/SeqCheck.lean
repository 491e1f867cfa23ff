import Sysbench.Fileio.SequentialBounds

/-! # The checker of sequential requests

`check_seq_req` compares a request with the one before. It allows the step from the last file to
the first, but takes two requests of one file for neighbours in this file.
-/
namespace Sysbench.Fileio

open Runs Words

variable {c : Config} {prev r : FileRequest}

structure DataInFile (c : Config) (r : FileRequest) : Prop where
  operation : r.operation = .read ∨ r.operation = .write
  inFile : InFile c r
  size_pos : 0 < r.size

/-- `r` starts where the tiling order continues after `prev`. -/
def Follows (c : Config) (prev r : FileRequest) : Prop :=
  if prev.pos + prev.size = c.fileSize then
    r.fileId = (prev.fileId + 1) % c.numFiles ∧ r.pos = 0
  else r.fileId = prev.fileId ∧ r.pos = prev.pos + prev.size

/-- The only file ends and is to be started again. -/
def StartsOver (c : Config) (prev r : FileRequest) : Prop :=
  c.numFiles = 1 ∧ prev.pos + prev.size = c.fileSize ∧ r.pos = 0

/-! ## Two requests -/

theorem one_lt_toUInt_sub_iff {a b : ℕ} (ha : a < 2 ^ 32 - 1) (hb : b < 2 ^ 32 - 1) :
    1 < toUInt 32 ((a : ℤ) - b) ↔ a ≠ b ∧ a ≠ b + 1 := by
  unfold toUInt
  omega

theorem checkSeqReq_eq_nil_iff (hword : c.numFiles < 2 ^ 32)
    (hprev : prev.operation ≠ .null ∧ prev.fileId < c.numFiles)
    (hr : (r.operation = .read ∨ r.operation = .write) ∧ r.fileId < c.numFiles) :
    checkSeqReq c prev r = [] ↔
      (r.fileId = prev.fileId ∧ toInt 64 (r.pos - prev.pos) = prev.size) ∨
      (r.fileId ≠ prev.fileId ∧ r.fileId = (prev.fileId + 1) % c.numFiles ∧
        toInt 64 (prev.pos + prev.size) = c.fileSize ∧ r.pos = 0) := by
  have hdata : ¬ (r.operation = .fsync ∨ r.operation = .null) := by
    rcases hr.1 with hop | hop <;> rw [hop] <;> decide
  have hfar := one_lt_toUInt_sub_iff (a := r.fileId) (b := prev.fileId) (by omega) (by omega)
  have hlast : ((prev.fileId : ℤ) = toUInt 32 ((c.numFiles : ℤ) - 1)) ↔
      prev.fileId + 1 = c.numFiles := by
    have hsub := toUInt_sub (w := 32) (a := c.numFiles) (b := 1) (by omega) hword
    rw [Nat.cast_one] at hsub
    rw [hsub]
    omega
  have hnext : (prev.fileId + 1) % c.numFiles =
      if prev.fileId + 1 = c.numFiles then 0 else prev.fileId + 1 := by
    split_ifs with heq
    · rw [heq, Nat.mod_self]
    · exact Nat.mod_eq_of_lt (by omega)
  unfold checkSeqReq
  rw [if_neg hdata, if_neg hprev.1, hnext]
  simp only [hfar, hlast]
  by_cases hsame : r.fileId = prev.fileId
  · have hnear : ¬ ((r.fileId ≠ prev.fileId ∧ r.fileId ≠ prev.fileId + 1) ∧
        ¬ (r.fileId = 0 ∧ prev.fileId + 1 = c.numFiles)) := fun h => h.1.1 hsame
    rw [if_neg hnear, if_pos hsame]
    split_ifs <;> simp_all
  · split_ifs <;> simp [hsame] <;> omega

/-- Between positions of a file nothing overflows. -/
theorem DataInFile.checkSeqReq_eq_nil_iff (hc : c.Typed) (hprev : DataInFile c prev)
    (hr : DataInFile c r) :
    checkSeqReq c prev r = [] ↔
      (r.fileId = prev.fileId ∧ r.pos = prev.pos + prev.size) ∨
      (r.fileId ≠ prev.fileId ∧ r.fileId = (prev.fileId + 1) % c.numFiles ∧
        prev.pos + prev.size = c.fileSize ∧ r.pos = 0) := by
  have hop : prev.operation ≠ .null := by
    rcases hprev.operation with hop | hop <;> rw [hop] <;> decide
  have hpos := hprev.inFile.pos
  have hsize := hprev.size_pos
  have hfits := hprev.inFile.fits
  have hpos' := hr.inFile.pos
  have hfits' := hr.inFile.fits
  have hsize' := hr.size_pos
  have hfs := hc.fileSize_lt
  have hdiff : toInt 64 (r.pos - prev.pos) = r.pos - prev.pos :=
    toInt_of_range (by norm_num) (by norm_num; omega) (by norm_num; omega)
  have hend : toInt 64 (prev.pos + prev.size) = prev.pos + prev.size :=
    toInt_of_range (by norm_num) (by norm_num; omega) (by norm_num; omega)
  rw [Fileio.checkSeqReq_eq_nil_iff hc.numFiles_lt ⟨hop, hprev.inFile.fileId⟩
    ⟨hr.operation, hr.inFile.fileId⟩, hdiff, hend, sub_eq_iff_eq_add, add_comm prev.size]

/-- A warning means that `r` does not follow, unless the only file starts over. -/
theorem checkSeqReq_exact_iff (hc : c.Typed) (hprev : DataInFile c prev) (hr : DataInFile c r) :
    (checkSeqReq c prev r ≠ [] ↔ ¬ Follows c prev r) ↔ ¬ StartsOver c prev r := by
  have hlt := hprev.inFile.fileId
  have hlt' := hr.inFile.fileId
  have hpos := hprev.inFile.pos
  have hsize := hprev.size_pos
  have hfits := hr.inFile.fits
  have hsize' := hr.size_pos
  rw [not_iff_not, hprev.checkSeqReq_eq_nil_iff hc hr, Follows, StartsOver]
  by_cases hend : prev.pos + prev.size = c.fileSize
  · rw [if_pos hend]
    by_cases hone : c.numFiles = 1
    · -- both requests belong to the only file
      have hid : r.fileId = 0 ∧ prev.fileId = 0 := by omega
      have hpos' : r.pos ≠ c.fileSize := by omega
      simp [hone, hid, hend, hpos']
    · have hne : (prev.fileId + 1) % c.numFiles ≠ prev.fileId := by
        intro heq
        by_cases hlast : prev.fileId + 1 = c.numFiles
        · rw [hlast, Nat.mod_self] at heq
          omega
        · rw [Nat.mod_eq_of_lt (by omega)] at heq
          omega
      simp only [hone, hend, false_and, not_false_iff, iff_true, true_and]
      constructor
      · rintro (⟨-, hp⟩ | ⟨-, hf, hp⟩)
        · omega
        · exact ⟨hf, hp⟩
      · rintro ⟨hf, hp⟩
        exact .inr ⟨by rw [hf]; exact hne, hf, hp⟩
  · rw [if_neg hend]
    simp [hend]

/-! ## Traces of the generator -/

/-- The generator goes back to the start of the only file. -/
def SingleRewind (c : Config) (s : Vars) : Prop :=
  ¬ s.Done c ∧
    ¬ (c.fileFsyncFreq ≠ 0 ∧ seqOperation c = .write ∧ s.isDirty ∧
      s.reqPerformed % c.fileFsyncFreq = 0) ∧
    c.numFiles = 1 ∧ s.currentFile = c.numFiles

/-- The call is no request that starts the only file over. -/
def NoSingleRewind (c : Config) (s : Vars) : Call → Prop
  | .request _ _ _ => ¬ SingleRewind c s
  | .stats _ => True

/-- The cursor stands behind the last request that was checked. -/
inductive Tracks (c : Config) (s : Vars) : Prop
  | start (hprev : s.prevReq.operation = .null) (hcursor : s.cursor = ⟨0, 0⟩)
  | inside (hop : s.prevReq.operation ≠ .null) (hlt : s.prevReq.fileId < c.numFiles)
      (hend : toInt 64 (s.prevReq.pos + s.prevReq.size) ≠ c.fileSize)
      (hcursor : s.cursor = ⟨s.prevReq.fileId, toInt 64 (s.prevReq.pos + s.prevReq.size)⟩)
      (hsize : toInt 64 s.prevReq.size = s.prevReq.size)
  | atEnd (hop : s.prevReq.operation ≠ .null) (hlt : s.prevReq.fileId < c.numFiles)
      (hend : toInt 64 (s.prevReq.pos + s.prevReq.size) = c.fileSize)
      (hcursor : s.cursor = ⟨s.prevReq.fileId + 1, 0⟩)
      (hsize : toInt 64 s.prevReq.size = s.prevReq.size)

theorem Tracks.currentFile_le {s : Vars} (h : Tracks c s) : s.currentFile ≤ c.numFiles := by
  have hfile : s.cursor.currentFile = s.currentFile := rfl
  cases h with
  | start _ hcursor => rw [← hfile, hcursor]; exact Nat.zero_le _
  | inside _ hlt _ hcursor _ => rw [← hfile, hcursor]; exact hlt.le
  | atEnd _ hlt _ hcursor _ => rw [← hfile, hcursor]; exact hlt

theorem Cursor.rewind_lt {u : Cursor} (hn : 1 ≤ c.numFiles) (h : u.currentFile ≤ c.numFiles) :
    (u.rewind c).currentFile < c.numFiles := by
  unfold Cursor.rewind
  split_ifs with heq
  · exact hn
  · omega

/-- The check of the next request says nothing, unless this request rewinds a single file. -/
theorem Tracks.checkSeqReq_eq_nil_iff {s : Vars} (h : Tracks c s) (hn : 1 ≤ c.numFiles)
    (hword : c.numFiles < 2 ^ 32) (hfs : 1 ≤ c.fileSize) :
    checkSeqReq c s.prevReq (s.cursor.request c (seqOperation c)) = [] ↔
      ¬ (c.numFiles = 1 ∧ s.currentFile = c.numFiles) := by
  have hlt := Cursor.rewind_lt hn h.currentFile_le (u := s.cursor)
  have hdata : ((s.cursor.request c (seqOperation c)).operation = .read ∨
      (s.cursor.request c (seqOperation c)).operation = .write) ∧
      (s.cursor.request c (seqOperation c)).fileId < c.numFiles :=
    ⟨seqOperation_read_or_write, hlt⟩
  have hfile : s.currentFile = s.cursor.currentFile := rfl
  cases h with
  | start hprev hcursor =>
    rw [hfile, hcursor]
    refine iff_of_true ?_ (by dsimp only; omega)
    unfold checkSeqReq
    rw [if_pos hprev, ite_self]
  | inside hop hlt hend hcursor hsize =>
    rw [Fileio.checkSeqReq_eq_nil_iff hword ⟨hop, hlt⟩ hdata, hfile, hcursor, Cursor.request,
      Cursor.rewind_of_lt hlt]
    refine iff_of_true (.inl ⟨rfl, ?_⟩) (by dsimp only; omega)
    -- the difference of positions is the size again, also after an overflow
    rw [sub_eq_add_neg, toInt_toInt_add, ← sub_eq_add_neg, add_sub_cancel_left, hsize]
  | atEnd hop hlt hend hcursor hsize =>
    rw [Fileio.checkSeqReq_eq_nil_iff hword ⟨hop, hlt⟩ hdata, hfile, hcursor, Cursor.request]
    dsimp only
    by_cases hlast : s.prevReq.fileId + 1 = c.numFiles
    · rw [Cursor.rewind_of_eq hlast, hlast, Nat.mod_self]
      -- the start of the same file does not follow its end
      have hnext : s.prevReq.fileId = 0 →
          toInt 64 ((⟨0, 0⟩ : Cursor).position - s.prevReq.pos) ≠ s.prevReq.size := by
        intro _ heq
        have hsum := congrArg (fun x => toInt 64 (s.prevReq.pos + x)) heq
        have hzero : toInt 64 0 = 0 := rfl
        simp only [add_comm s.prevReq.pos, toInt_toInt_add, sub_add_cancel, hzero] at hsum
        rw [add_comm, hend] at hsum
        omega
      dsimp only at hnext ⊢
      omega
    · rw [Cursor.rewind_of_lt (by dsimp only; omega), Nat.mod_eq_of_lt (by omega)]
      dsimp only
      omega

/-- The request that was checked last is the one before the cursor. -/
theorem tracks_of_next {s t : Vars} (h : Tracks c s) (hn : 1 ≤ c.numFiles) (hc : c.Typed)
    (hprev : t.prevReq = s.cursor.request c (seqOperation c))
    (hcursor : t.cursor = s.cursor.next c) : Tracks c t := by
  have hlt := Cursor.rewind_lt hn h.currentFile_le (u := s.cursor)
  have hop : t.prevReq.operation ≠ .null := by
    rw [hprev]
    rcases seqOperation_read_or_write (c := c) with hop | hop <;>
      · change seqOperation c ≠ .null
        rw [hop]
        decide
  have hsize : toInt 64 t.prevReq.size = t.prevReq.size := by
    obtain ⟨hlow, hhigh⟩ := seqSize_range hc (s.cursor.rewind c).position
    rw [hprev]
    exact toInt_of_range (by norm_num) hlow hhigh
  rw [Cursor.next, Cursor.advance] at hcursor
  by_cases hend : toInt 64 (t.prevReq.pos + t.prevReq.size) = c.fileSize
  · refine .atEnd hop (by rw [hprev]; exact hlt) hend ?_ hsize
    rw [hprev] at hend ⊢
    rw [hcursor]
    exact if_pos hend
  · refine .inside hop (by rw [hprev]; exact hlt) hend ?_ hsize
    rw [hprev] at hend ⊢
    rw [hcursor]
    exact if_neg hend

/-- What a call does to the log and to the request that is kept for the next check. -/
theorem fileGetSeqRequest_check (hv : c.validate = true) (s : Vars) :
    let t := (fileGetSeqRequest c s).2
    (t.cursor = s.cursor ∧ t.prevReq = s.prevReq ∧ t.log = s.log ∧ ¬ SingleRewind c s) ∨
    (t.cursor = s.cursor.next c ∧ t.prevReq = s.cursor.request c (seqOperation c) ∧
      t.log = s.log ++ checkSeqReq c s.prevReq (s.cursor.request c (seqOperation c)) ∧
      (SingleRewind c s ↔ c.numFiles = 1 ∧ s.currentFile = c.numFiles)) := by
  unfold fileGetSeqRequest
  by_cases hd : s.Done c
  · rw [if_pos hd]
    left
    split_ifs <;> exact ⟨rfl, rfl, rfl, fun h => h.1 hd⟩
  · rw [if_neg hd]
    by_cases hp : c.fileFsyncFreq ≠ 0 ∧ seqOperation c = .write ∧ s.isDirty ∧
        s.reqPerformed % c.fileFsyncFreq = 0
    · rw [if_pos hp]
      left
      unfold Vars.periodicFsync
      dsimp only
      split_ifs <;> exact ⟨rfl, rfl, rfl, fun h => h.2.1 hp⟩
    · rw [if_neg hp]
      right
      refine ⟨rfl, ?_, ?_, fun h => h.2.2, fun h => ⟨hd, hp, h⟩⟩
      · exact if_pos hv
      · exact if_pos hv

theorem run_tracks (hm : SeqMode c) (hv : c.validate = true) (hn : 1 ≤ c.numFiles) (hc : c.Typed)
    {perThread : ℕ → PerThread} {calls : List Call} {s : Vars}
    (hr : run (callStep c) (initVars perThread) calls = some s) : Tracks c s := by
  refine run_preserves ?_ (.start rfl rfl) hr
  intro s call t h hstep
  cases call with
  | request threadId draws q =>
    have hget := callStep_request_iff.mp hstep
    rw [fileGetRequest, if_pos hm, Option.some.injEq] at hget
    have hcheck := fileGetSeqRequest_check hv s
    rw [hget] at hcheck
    rcases hcheck with ⟨hcursor, hprev, -, -⟩ | ⟨hcursor, hprev, -, -⟩
    · dsimp only at hcursor hprev
      cases h with
      | start hop hc => exact .start (hprev ▸ hop) (hcursor.trans hc)
      | inside hop hlt hend hc hsize =>
        rw [← hprev] at hop hlt hend hc hsize
        exact .inside hop hlt hend (hcursor.trans hc) hsize
      | atEnd hop hlt hend hc hsize =>
        rw [← hprev] at hop hlt hend hc hsize
        exact .atEnd hop hlt hend (hcursor.trans hc) hsize
    · exact tracks_of_next h hn hc hprev hcursor
  | stats v =>
    cases hstep
    cases h with
    | start hop hc => exact .start hop hc
    | inside hop hlt hend hc hsize => exact .inside hop hlt hend hc hsize
    | atEnd hop hlt hend hc hsize => exact .atEnd hop hlt hend hc hsize

/-- A run of the generator leaves no warning exactly if it never rewinds a single file. -/
theorem log_eq_nil_iff (hm : SeqMode c) (hv : c.validate = true) (hn : 1 ≤ c.numFiles)
    (hc : c.Typed) (hfs : 1 ≤ c.fileSize)
    {perThread : ℕ → PerThread} {calls : List Call} {s : Vars}
    (hr : run (callStep c) (initVars perThread) calls = some s) :
    s.log = [] ↔ Guarded (callStep c) (NoSingleRewind c) (initVars perThread) calls := by
  refine guarded_iff (P := fun _ s => s.log = []) rfl ?_ hr
  intro calls s call t hr hstep
  cases call with
  | request threadId draws q =>
    have hget := callStep_request_iff.mp hstep
    rw [fileGetRequest, if_pos hm, Option.some.injEq] at hget
    have hcheck := fileGetSeqRequest_check hv s
    rw [hget] at hcheck
    rcases hcheck with ⟨-, -, hlog, hno⟩ | ⟨-, -, hlog, hiff⟩
    · dsimp only at hlog
      rw [hlog]
      exact (and_iff_left hno).symm
    · dsimp only at hlog
      have htracks := run_tracks hm hv hn hc hr
      rw [hlog, List.append_eq_nil_iff, htracks.checkSeqReq_eq_nil_iff hn hc.numFiles_lt hfs,
        NoSingleRewind, hiff]
  | stats v =>
    cases hstep
    exact (and_iff_left trivial).symm

/-- The checker is exact on two requests unless the only file starts over, and a run of the
generator leaves no warning exactly if it never does so. -/
theorem checkSeqReq_exact (hn : 1 ≤ c.numFiles) (hc : c.Typed) (hfs : 1 ≤ c.fileSize) :
    (∀ prev r, DataInFile c prev → DataInFile c r →
      ((checkSeqReq c prev r ≠ [] ↔ ¬ Follows c prev r) ↔ ¬ StartsOver c prev r)) ∧
    (SeqMode c → c.validate = true → ∀ perThread calls s,
      run (callStep c) (initVars perThread) calls = some s →
        (s.log = [] ↔ Guarded (callStep c) (NoSingleRewind c) (initVars perThread) calls)) :=
  ⟨fun _ _ hprev hr => checkSeqReq_exact_iff hc hprev hr,
    fun hm hv _ _ _ hr => log_eq_nil_iff hm hv hn hc hfs hr⟩

def validatingGlobals : Globals := ⟨.run, 1, 0, true⟩

def mergingConfig : Config :=
  { smallConfig with
    toGlobals := validatingGlobals, fileMergedRequests := 1, fileFsyncFreq := 0, testMode := .read }

theorem checkSeqReq_exact_small :
    (∀ prev r, DataInFile mergingConfig prev → DataInFile mergingConfig r →
      ((checkSeqReq mergingConfig prev r ≠ [] ↔ ¬ Follows mergingConfig prev r) ↔
        ¬ StartsOver mergingConfig prev r)) ∧
    (SeqMode mergingConfig → mergingConfig.validate = true → ∀ perThread calls s,
      run (callStep mergingConfig) (initVars perThread) calls = some s →
        (s.log = [] ↔
          Guarded (callStep mergingConfig) (NoSingleRewind mergingConfig) (initVars perThread)
            calls)) :=
  checkSeqReq_exact (by decide)
    ⟨by decide, by decide, by decide, by decide, by decide, by decide⟩ (by decide)

/-- The third request starts the file again, where it has to start, and is reported. -/
theorem not_checkSeqReq_exact :
    DataInFile mergingConfig ⟨0, 4, 4, .read⟩ ∧ DataInFile mergingConfig ⟨0, 0, 4, .read⟩ ∧
      Follows mergingConfig ⟨0, 4, 4, .read⟩ ⟨0, 0, 4, .read⟩ ∧
      checkSeqReq mergingConfig ⟨0, 4, 4, .read⟩ ⟨0, 0, 4, .read⟩ ≠ [] ∧
      ∃ s, run (callStep mergingConfig) (initVars fun _ => ⟨0, 0⟩)
        [.request 0 [] (.file ⟨0, 0, 4, .read⟩), .request 0 [] (.file ⟨0, 4, 4, .read⟩),
          .request 0 [] (.file ⟨0, 0, 4, .read⟩)] = some s ∧ s.log ≠ [] := by
  refine ⟨⟨.inl rfl, ⟨by decide, by decide, by decide⟩, by decide⟩,
    ⟨.inl rfl, ⟨by decide, by decide, by decide⟩, by decide⟩, ⟨rfl, rfl⟩, by decide, _, rfl,
    by decide⟩

end Sysbench.Fileio
