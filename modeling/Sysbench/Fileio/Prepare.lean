import Sysbench.Fileio.Blocks

/-! # Creating and opening the files of the test

The `prepare` command writes whole blocks until each file is long enough. The run then
opens one descriptor for each file and keeps them all open; descriptors are distinct
non-negative values of type `int`, so the number of files of a test that gets past
this point is bounded.
-/
namespace Sysbench.Fileio

open Bytes Checks Words

/-! ## Opening -/

/-- What `sb_open` returns for a name and flags while the descriptors of the list are open. -/
abbrev SbOpen := List ℤ → String → FileFlags → ℤ

/-- What is documented of `open`: a valid descriptor is an `int` that is not in use. -/
structure OpenSpec (sbOpen : SbOpen) : Prop where
  fresh : ∀ opened name flags, 0 ≤ sbOpen opened name flags → sbOpen opened name flags ∉ opened
  bounded : ∀ opened name flags, sbOpen opened name flags < 2 ^ 31

variable (c : Config) (sbOpen : SbOpen)

def openFiles (opened : List ℤ) : List ℕ → Except String (List ℤ)
  | [] => .ok []
  | i :: is => do
    let fd := sbOpen opened s!"test_file.{toInt 32 i}" c.fileExtraFlags
    require (0 ≤ fd) "Cannot open file"
    let files ← openFiles (fd :: opened) is
    .ok (fd :: files)

/-- `file_prepare`: the array `files[]` it fills. -/
def filePrepare (opened : List ℤ) : Except String (List ℤ) :=
  openFiles c sbOpen opened (List.range c.numFiles)

variable {c sbOpen}

theorem openFiles_ok (hos : OpenSpec sbOpen) {is : List ℕ} {opened files : List ℤ}
    (h : openFiles c sbOpen opened is = .ok files) :
    files.length = is.length ∧ files.Nodup ∧
      ∀ fd ∈ files, 0 ≤ fd ∧ fd < 2 ^ 31 ∧ fd ∉ opened := by
  induction is generalizing opened files with
  | nil =>
    cases h
    simp
  | cons i is ih =>
    simp only [openFiles, bind_eq_ok, require_eq_ok] at h
    obtain ⟨-, hfd, rest, hrest, h⟩ := h
    cases h
    obtain ⟨hlen, hnodup, hall⟩ := ih hrest
    refine ⟨by simp [hlen], ?_, ?_⟩
    · rw [List.nodup_cons]
      exact ⟨fun hmem => (hall _ hmem).2.2 List.mem_cons_self, hnodup⟩
    · intro fd hmem
      rcases List.mem_cons.mp hmem with rfl | hmem
      · exact ⟨hfd, hos.bounded _ _ _, hos.fresh _ _ _ hfd⟩
      · obtain ⟨h0, hlt, hnew⟩ := hall fd hmem
        exact ⟨h0, hlt, fun hin => hnew (List.mem_cons_of_mem _ hin)⟩

/-- There are no more files than descriptors. -/
theorem filePrepare_numFiles_le (hos : OpenSpec sbOpen) {opened files : List ℤ}
    (h : filePrepare c sbOpen opened = .ok files) : c.numFiles ≤ 2 ^ 31 := by
  obtain ⟨hlen, hnodup, hall⟩ := openFiles_ok hos h
  have hsub : files.toFinset ⊆ Finset.Ico (0 : ℤ) (2 ^ 31) := by
    intro fd hmem
    obtain ⟨h0, hlt, -⟩ := hall fd (List.mem_toFinset.mp hmem)
    exact Finset.mem_Ico.mpr ⟨h0, hlt⟩
  have hcard := Finset.card_le_card hsub
  rw [List.toFinset_card_of_nodup hnodup, hlen, List.length_range, Int.card_Ico] at hcard
  exact hcard

/-! ## Creating -/

/-- What happens outside while one file is created: whether it opens, what each `write`
returns, and what `sb_rnd` returns while the block at an offset is filled. -/
structure Creation where
  opens : Bool
  writes : List ℤ
  rnd : ℤ → ℕ → Draw

/-- The size of a thread's buffer. An allocation of a negative size asks for more than
there is and leaves no buffer. -/
def bufferCapacity (c : Config) : ℕ := c.fileMaxRequestSize.toNat

section Create

variable (c : Config) (buffer : List Byte)

/-- The first `file_block_size` bytes of `per_thread[0].buffer` when a block is written. -/
def blockToWrite (rnd : ℕ → Draw) (offset : ℤ) : Option (List Byte) :=
  if c.validate then
    fileFillBuffer (bufferCapacity c) rnd (toUInt 32 c.fileBlockSize) (toUInt 64 offset)
  else if c.fileBlockSize ≤ bufferCapacity c then some (buffer.take c.fileBlockSize.toNat)
  else none

/-- The loop that extends a file. There is no result when it leaves the buffer, or when
the results of `write` are not one for each iteration. -/
def writeBlocks (rnd : ℤ → ℕ → Draw) :
    List ℤ → ℤ → List Byte → Option (Except String (List Byte))
  | [], offset, file => if offset < c.fileSize then none else some (.ok file)
  | written :: writes, offset, file =>
    if offset < c.fileSize then
      (blockToWrite c buffer (rnd offset) offset).bind fun block =>
        if written < 0 then some (.error "Failed to write file!")
        else
          writeBlocks rnd writes (offset + c.fileBlockSize) (file ++ block.take written.toNat)
    else none

def createFile (e : Creation) (file : List Byte) : Option (Except String (List Byte)) :=
  if e.opens then writeBlocks c buffer e.rnd e.writes file.length file
  else some (.error "Can't open file")

def createFilesFrom (env : ℕ → Creation) :
    List ℕ → (ℕ → List Byte) → Option (Except String (ℕ → List Byte))
  | [], files => some (.ok files)
  | i :: is, files =>
    (createFile c buffer (env i) (files i)).bind fun
      | .error message => some (.error message)
      | .ok file => createFilesFrom env is (Function.update files i file)

def createFiles (env : ℕ → Creation) (files : ℕ → List Byte) :
    Option (Except String (ℕ → List Byte)) :=
  createFilesFrom c buffer env (List.range c.numFiles) files

def removeFiles (files : ℕ → List Byte) : ℕ → List Byte :=
  fun i => if i < c.numFiles then [] else files i

/-- `file_cmd_prepare`: the contents of the files after the `prepare` command. -/
def fileCmdPrepare (g : Globals) (o : Options) (env : ℕ → Creation) (files : ℕ → List Byte) :
    Option (Except String (ℕ → List Byte)) :=
  match parseArguments g o with
  | .error message => some (.error message)
  | .ok c =>
    if c.testMode = .write then some (.ok (removeFiles c files))
    else createFiles c buffer env files

end Create

/-! ## Files created from scratch -/

/-- The `prepare` command accepts what another command accepts. -/
theorem parseArguments_prepare {g : Globals} {o : Options} {c : Config}
    (h : parseArguments g o = .ok c) :
    parseArguments { g with command := .prepare } o =
      .ok { c with command := .prepare, testMode := .read } := by
  simp only [parseArguments, bind_eq_ok, require_eq_ok] at h
  obtain ⟨_, hn, _, ht, mode, hm, iomode, hio, _, hr, _, hb, flags, hx, _, hq, fmode, hf, _, hw, h⟩ :=
    h
  cases h
  simp [parseArguments, require, parseTestMode, hn, ht, hio, hr, hb, hx, hq, hf, hw]
  rfl

section Create

variable {c : Config} {buffer : List Byte}

/-- The command and the test mode do not matter to the files. -/
theorem writeBlocks_testMode (command : Command) (mode : FileTestMode) (rnd : ℤ → ℕ → Draw)
    (writes : List ℤ) (offset : ℤ) (file : List Byte) :
    writeBlocks { c with command := command, testMode := mode } buffer rnd writes offset file =
      writeBlocks c buffer rnd writes offset file := by
  induction writes generalizing offset file with
  | nil => rfl
  | cons written writes ih =>
    simp only [writeBlocks, ih]
    rfl

theorem createFiles_testMode (command : Command) (mode : FileTestMode) (env : ℕ → Creation)
    (files : ℕ → List Byte) :
    createFiles { c with command := command, testMode := mode } buffer env files =
      createFiles c buffer env files := by
  unfold createFiles
  induction List.range c.numFiles generalizing files with
  | nil => rfl
  | cons i is ih => simp only [createFilesFrom, createFile, writeBlocks_testMode, ih]

theorem fileCmdPrepare_eq {g : Globals} {o : Options} (h : parseArguments g o = .ok c)
    (env : ℕ → Creation) (files : ℕ → List Byte) :
    fileCmdPrepare buffer { g with command := .prepare } o env files =
      createFiles c buffer env files := by
  rw [fileCmdPrepare, parseArguments_prepare h]
  exact createFiles_testMode .prepare .read env files

theorem createFilesFrom_ok {env : ℕ → Creation} {is : List ℕ} (hnd : is.Nodup)
    {files files' : ℕ → List Byte}
    (h : createFilesFrom c buffer env is files = some (.ok files')) :
    (∀ i ∈ is, createFile c buffer (env i) (files i) = some (.ok (files' i))) ∧
      ∀ i ∉ is, files' i = files i := by
  induction is generalizing files with
  | nil =>
    cases h
    simp
  | cons i is ih =>
    rw [List.nodup_cons] at hnd
    rw [createFilesFrom, Option.bind_eq_some_iff] at h
    obtain ⟨result, hfile, h⟩ := h
    cases result with
    | error message => cases h
    | ok file =>
      obtain ⟨hall, hother⟩ := ih hnd.2 h
      constructor
      · intro j hj
        rcases List.mem_cons.mp hj with rfl | hj
        · rw [hother j hnd.1, Function.update_self]
          exact hfile
        · have hne : j ≠ i := fun heq => hnd.1 (heq ▸ hj)
          have := hall j hj
          rwa [Function.update_of_ne hne] at this
      · intro j hj
        rw [List.mem_cons, not_or] at hj
        rw [hother j hj.2, Function.update_of_ne hj.1]

theorem createFilesFrom_of_createFile {env : ℕ → Creation} {is : List ℕ} (hnd : is.Nodup)
    {files : ℕ → List Byte} {file : ℕ → List Byte}
    (h : ∀ i ∈ is, createFile c buffer (env i) (files i) = some (.ok (file i))) :
    ∃ files', createFilesFrom c buffer env is files = some (.ok files') ∧
      ∀ i ∈ is, files' i = file i := by
  induction is generalizing files with
  | nil => exact ⟨files, rfl, by simp⟩
  | cons i is ih =>
    rw [List.nodup_cons] at hnd
    have hrest : ∀ j ∈ is,
        createFile c buffer (env j) (Function.update files i (file i) j) = some (.ok (file j)) := by
      intro j hj
      have hne : j ≠ i := fun heq => hnd.1 (heq ▸ hj)
      rw [Function.update_of_ne hne]
      exact h j (List.mem_cons_of_mem _ hj)
    obtain ⟨files', hfrom, hall⟩ := ih hnd.2 hrest
    have hstep : createFilesFrom c buffer env (i :: is) files = some (.ok files') := by
      rw [createFilesFrom, h i List.mem_cons_self]
      exact hfrom
    refine ⟨files', hstep, fun j hj => ?_⟩
    rcases List.mem_cons.mp hj with rfl | hj
    · have hkeep := (createFilesFrom_ok hnd.2 hfrom).2 j hnd.1
      rw [hkeep, Function.update_self]
    · exact hall j hj

/-! ### Blocks of a file -/

def blockBytes (c : Config) (rnd : ℕ → Draw) (offset : ℤ) : List Byte :=
  let bytes := payload rnd (c.fileBlockSize.toNat - 12)
  bytes ++ (leBytes 4 (crc32 0 bytes).toNat ++ leBytes 8 (toUInt 64 offset))

def fileBlock (c : Config) (rnd : ℤ → ℕ → Draw) (j : ℕ) : List Byte :=
  blockBytes c (rnd (j * c.fileBlockSize)) (j * c.fileBlockSize)

variable (hval : c.validate = true) (h12 : 12 ≤ c.fileBlockSize) (hlt : c.fileBlockSize < 2 ^ 31)

theorem length_blockBytes (h12 : 12 ≤ c.fileBlockSize) (rnd : ℕ → Draw) (offset : ℤ) :
    (blockBytes c rnd offset).length = c.fileBlockSize.toNat := by
  simp only [blockBytes, List.length_append, length_payload, length_leBytes]
  omega

theorem length_fileBlock (h12 : 12 ≤ c.fileBlockSize) (rnd : ℤ → ℕ → Draw) (j : ℕ) :
    (fileBlock c rnd j).length = c.fileBlockSize.toNat := length_blockBytes h12 _ _

/-- The random bytes of a block. -/
theorem getElem?_fileBlock {rnd : ℤ → ℕ → Draw} {j i : ℕ} (hi : i < c.fileBlockSize.toNat - 12) :
    (fileBlock c rnd j)[i]? = some (BitVec.ofNat 8 (rnd (j * c.fileBlockSize) i)) := by
  simp only [fileBlock, blockBytes]
  rw [List.getElem?_append_left (by simpa using hi)]
  exact getElem?_payload _ hi

/-- The offset field of block `j` of a created file. -/
theorem offset_of_block (h12 : 12 ≤ c.fileBlockSize) {rnd : ℤ → ℕ → Draw} {n j : ℕ} (hj : j < n) :
    ((blocks (fileBlock c rnd) n).drop
        (j * c.fileBlockSize.toNat + (c.fileBlockSize.toNat - 8))).take 8 =
      leBytes 8 (toUInt 64 (j * c.fileBlockSize)) := by
  have hlen : ∀ k < n, (fileBlock c rnd k).length = c.fileBlockSize.toNat :=
    fun k _ => length_fileBlock h12 rnd k
  rw [slice_blocks hlen hj (by omega)]
  simp only [fileBlock, blockBytes]
  rw [← List.append_assoc, List.drop_left']
  · exact List.take_of_length_le (by simp)
  · simp only [List.length_append, length_payload, length_leBytes]
    omega

include hval h12 hlt

theorem blockToWrite_eq (rnd : ℕ → Draw) (offset : ℤ) :
    blockToWrite c buffer rnd offset =
      if c.fileBlockSize ≤ c.fileMaxRequestSize then some (blockBytes c rnd offset) else none := by
  have hlen : toUInt 32 c.fileBlockSize = c.fileBlockSize.toNat :=
    toUInt_of_range (by omega) (by omega)
  have hpay : payloadLength c.fileBlockSize.toNat = c.fileBlockSize.toNat - 12 :=
    payloadLength_eq (by omega) (by omega)
  rw [blockToWrite, if_pos hval, hlen]
  split_ifs with hfit
  · rw [fileFillBuffer_eq_some, hpay, bufferCapacity]
    exact ⟨⟨(fillBound_lt_iff (by omega)).mpr (by omega), by omega⟩, rfl⟩
  · refine Option.eq_none_iff_forall_ne_some.mpr fun block hblock => ?_
    have hcapacity := (fileFillBuffer_eq_some.mp hblock).1.2
    rw [hpay, bufferCapacity] at hcapacity
    omega

/-- With complete writes the loop adds whole blocks until the file is long enough. -/
theorem writeBlocks_full {rnd : ℤ → ℕ → Draw} {writes : List ℤ}
    (hfull : ∀ w ∈ writes, w = c.fileBlockSize) {k : ℕ} {file : List Byte}
    (h : writeBlocks c buffer rnd writes (k * c.fileBlockSize) (blocks (fileBlock c rnd) k) =
      some (.ok file)) :
    file = blocks (fileBlock c rnd) (k + writes.length) ∧
      c.fileSize ≤ (k + writes.length : ℕ) * c.fileBlockSize ∧
      (writes ≠ [] → c.fileBlockSize ≤ c.fileMaxRequestSize) := by
  induction writes generalizing k with
  | nil =>
    rw [writeBlocks] at h
    split_ifs at h with hmore
    cases h
    exact ⟨rfl, by simpa using hmore, by simp⟩
  | cons w writes ih =>
    have hw := hfull w List.mem_cons_self
    rw [writeBlocks] at h
    by_cases hmore : (k : ℤ) * c.fileBlockSize < c.fileSize
    · rw [if_pos hmore, blockToWrite_eq hval h12 hlt] at h
      by_cases hfit : c.fileBlockSize ≤ c.fileMaxRequestSize
      · rw [if_pos hfit, Option.bind_some, if_neg (by omega), hw] at h
        have hblock : (blockBytes c (rnd (k * c.fileBlockSize)) (k * c.fileBlockSize)).take
            c.fileBlockSize.toNat = fileBlock c rnd k := by
          rw [List.take_of_length_le (length_blockBytes h12 _ _).le]
          rfl
        have hoff : (k : ℤ) * c.fileBlockSize + c.fileBlockSize =
            (k + 1 : ℕ) * c.fileBlockSize := by
          push_cast
          ring
        rw [hblock, ← blocks_succ, hoff] at h
        obtain ⟨hfile, hend, -⟩ := ih (fun w hw => hfull w (List.mem_cons_of_mem _ hw)) h
        have hlen : k + 1 + writes.length = k + (w :: writes).length := by
          rw [List.length_cons]
          omega
        rw [hlen] at hfile hend
        exact ⟨hfile, hend, fun _ => hfit⟩
      · rw [if_neg hfit] at h
        cases h
    · rw [if_neg hmore] at h
      cases h

/-- Enough complete writes create a file from scratch. -/
theorem writeBlocks_replicate (hfit : c.fileBlockSize ≤ c.fileMaxRequestSize)
    {rnd : ℤ → ℕ → Draw} {k n : ℕ} (hmore : ∀ j < n, ((k + j : ℕ) : ℤ) * c.fileBlockSize < c.fileSize)
    (hend : c.fileSize ≤ (k + n : ℕ) * c.fileBlockSize) :
    writeBlocks c buffer rnd (List.replicate n c.fileBlockSize) (k * c.fileBlockSize)
      (blocks (fileBlock c rnd) k) = some (.ok (blocks (fileBlock c rnd) (k + n))) := by
  induction n generalizing k with
  | zero =>
    rw [List.replicate_zero, writeBlocks, if_neg]
    · rfl
    · simpa using hend
  | succ n ih =>
    have hblock : (blockBytes c (rnd (k * c.fileBlockSize)) (k * c.fileBlockSize)).take
        c.fileBlockSize.toNat = fileBlock c rnd k := by
      rw [List.take_of_length_le (length_blockBytes h12 _ _).le]
      rfl
    have hoff : (k : ℤ) * c.fileBlockSize + c.fileBlockSize = (k + 1 : ℕ) * c.fileBlockSize := by
      push_cast
      ring
    have hcomm : k + 1 + n = k + (n + 1) := by omega
    rw [List.replicate_succ, writeBlocks, if_pos (by simpa using hmore 0 (by omega)),
      blockToWrite_eq hval h12 hlt, if_pos hfit, Option.bind_some, if_neg (by omega), hblock,
      ← blocks_succ, hoff, ih, hcomm]
    · intro j hj
      rw [show k + 1 + j = k + (j + 1) by omega]
      exact hmore (j + 1) (by omega)
    · rw [hcomm]
      exact hend

end Create

end Sysbench.Fileio
