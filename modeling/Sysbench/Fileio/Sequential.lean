import Sysbench.Fileio.Calls
import Sysbench.Fileio.Execute
import Sysbench.Machine.Tiling

/-! # Runs of the sequential generator

Only data requests move the cursor, so the data requests of a run are the first ones
of a fixed stream, whatever fsync requests come between. With merging on the stream
is the cyclic tiling of the file set, as long as no sum of a position and a request size
leaves `long long`; without merging the position passes the end of a file whose size is
no multiple of the block size.
-/
namespace Sysbench.Fileio

open Runs Tiling Words

variable (c : Config)

def dataRequests (tr : List Request) : List FileRequest :=
  tr.filterMap fun
    | .null => none
    | .file r => if r.operation = .read ∨ r.operation = .write then some r else none

def cursorAt (i : ℕ) : Cursor := (Cursor.next c)^[i] ⟨0, 0⟩

/-- Data request number `i` of every run. -/
def seqStream (i : ℕ) : FileRequest := (cursorAt c i).request c (seqOperation c)

theorem cursorAt_succ (i : ℕ) : cursorAt c (i + 1) = (cursorAt c i).next c :=
  Function.iterate_succ_apply' _ _ _

@[simp] theorem dataRequests_append (a b : List Request) :
    dataRequests (a ++ b) = dataRequests a ++ dataRequests b := List.filterMap_append

variable {c}

theorem mem_dataRequests {tr : List Request} {r : FileRequest} :
    r ∈ dataRequests tr ↔ .file r ∈ tr ∧ (r.operation = .read ∨ r.operation = .write) := by
  rw [dataRequests, List.mem_filterMap]
  constructor
  · rintro ⟨q, hq, heq⟩
    cases q with
    | null => cases heq
    | file r' =>
      simp only [Option.ite_none_right_eq_some, Option.some.injEq] at heq
      obtain ⟨hop, rfl⟩ := heq
      exact ⟨hq, hop⟩
  · rintro ⟨hmem, hop⟩
    exact ⟨.file r, hmem, if_pos hop⟩

theorem dataRequests_of_not_data {q : Request} (h : q.isData = false) : dataRequests [q] = [] := by
  cases q with
  | null => rfl
  | file r =>
    have hr : ¬ (r.operation = .read ∨ r.operation = .write) := by
      simpa [Request.isData, Request.isRead, Request.isWrite] using h
    simp [dataRequests, hr]

theorem Cursor.rewind_of_lt {u : Cursor} (h : u.currentFile < c.numFiles) : u.rewind c = u :=
  if_neg h.ne

theorem Cursor.rewind_of_eq {u : Cursor} (h : u.currentFile = c.numFiles) :
    u.rewind c = ⟨0, 0⟩ := if_pos h

theorem fileGetSeqRequest_cases (c : Config) (s : Vars) :
    ((fileGetSeqRequest c s).1.isData = false ∧ (fileGetSeqRequest c s).2.cursor = s.cursor ∧
      (fileGetSeqRequest c s).2.reqPerformed = s.reqPerformed) ∨
    (¬ s.Done c ∧ (fileGetSeqRequest c s).1 = .file (s.cursor.request c (seqOperation c)) ∧
      (fileGetSeqRequest c s).2.cursor = s.cursor.next c ∧
      (fileGetSeqRequest c s).2.reqPerformed = s.reqPerformed + 1) := by
  unfold fileGetSeqRequest
  by_cases hd : s.Done c
  · rw [if_pos hd]
    left
    split_ifs
    · exact ⟨rfl, rfl, rfl⟩
    · exact ⟨rfl, rfl, rfl⟩
  · rw [if_neg hd]
    by_cases hp : c.fileFsyncFreq ≠ 0 ∧ seqOperation c = .write ∧ s.isDirty ∧
        s.reqPerformed % c.fileFsyncFreq = 0
    · rw [if_pos hp]
      left
      unfold Vars.periodicFsync
      dsimp only
      split_ifs <;> exact ⟨rfl, rfl, rfl⟩
    · rw [if_neg hp]
      right
      exact ⟨hd, rfl, rfl, rfl⟩

/-- The data requests of a run are a prefix of the stream, and the cursor is behind it. -/
structure StreamInv (c : Config) (tr : List Request) (s : Vars) : Prop where
  data : dataRequests tr = (List.range s.reqPerformed).map (seqStream c)
  cursor : s.cursor = cursorAt c s.reqPerformed
  limit : 0 < c.maxRequests → s.reqPerformed ≤ c.maxRequests

theorem StreamInv.served {tr : List Request} {s : Vars} (h : StreamInv c tr s) :
    StreamInv c (tr ++ [(fileGetSeqRequest c s).1]) (fileGetSeqRequest c s).2 := by
  rcases fileGetSeqRequest_cases c s with ⟨hq, hu, hk⟩ | ⟨hd, hq, hu, hk⟩
  · refine ⟨?_, ?_, ?_⟩
    · rw [dataRequests_append, dataRequests_of_not_data hq, List.append_nil, hk, h.data]
    · rw [hu, hk, h.cursor]
    · rw [hk]
      exact h.limit
  · have hop := seqOperation_read_or_write (c := c)
    refine ⟨?_, ?_, ?_⟩
    · rw [dataRequests_append, h.data, hq, hk, List.range_succ, List.map_append, h.cursor]
      simp [dataRequests, Cursor.request, seqStream, hop]
    · rw [hu, hk, cursorAt_succ, h.cursor]
    · intro hmax
      rw [hk]
      by_contra hgt
      exact hd ⟨hmax, by omega⟩

theorem run_streamInv (hm : SeqMode c) {perThread : ℕ → PerThread} {calls : List Call} {s : Vars}
    (hr : run (callStep c) (initVars perThread) calls = some s) :
    StreamInv c (requests calls) s := by
  refine run_invariant (I := fun calls s => StreamInv c (requests calls) s)
    ⟨rfl, rfl, fun _ => Nat.zero_le _⟩ ?_ hr
  intro calls s call t _ hinv hstep
  cases call with
  | request threadId draws q =>
    have hget := callStep_request_iff.mp hstep
    rw [fileGetRequest, if_pos hm, Option.some.injEq] at hget
    have hserved := hinv.served
    rw [hget] at hserved
    rw [requests_append_request]
    exact hserved
  | stats v =>
    cases hstep
    rw [requests_append_stats]
    exact ⟨hinv.data, hinv.cursor, hinv.limit⟩

/-! ## When the stream is a tiling -/

def seqTile (c : Config) (m i : ℕ) : Tile := tile c.numFiles c.fileSize.toNat m i

/-- The first `k` sizes that the generator computes are the chunk lengths. -/
def SizesTile (c : Config) (m k : ℕ) : Prop :=
  ∀ i < k, seqSize c (seqTile c m i).offset = (seqTile c m i).length

/-- A merged request gets the size of its chunk unless the sum that is compared with the
file size overflows. -/
theorem seqSize_tile (hc : c.Typed) (hfs : 1 ≤ c.fileSize) (hmax : 1 ≤ c.fileMaxRequestSize)
    (hmerge : 0 < c.fileMergedRequests) {i : ℕ}
    (hsum : (seqTile c c.fileMaxRequestSize.toNat i).offset + c.fileMaxRequestSize < 2 ^ 63) :
    seqSize c (seqTile c c.fileMaxRequestSize.toNat i).offset =
      (seqTile c c.fileMaxRequestSize.toNat i).length := by
  have hlt : (seqTile c c.fileMaxRequestSize.toNat i).offset < c.fileSize.toNat :=
    offset_lt (by omega) (by omega) i
  have hlength : (seqTile c c.fileMaxRequestSize.toNat i).length =
      min c.fileMaxRequestSize.toNat
        (c.fileSize.toNat - (seqTile c c.fileMaxRequestSize.toNat i).offset) := rfl
  have hfs' := hc.fileSize_lt
  rw [hlength]
  generalize (seqTile c c.fileMaxRequestSize.toNat i).offset = x at hlt hsum ⊢
  rw [seqSize, if_pos hmerge,
    toInt_of_range (by norm_num) (by norm_num; omega) (by norm_num; omega)]
  split_ifs
  · omega
  · rw [toInt_of_range (by norm_num) (by norm_num; omega) (by norm_num; omega)]
    omega

/-- The chunks that `fileSize` holds as a whole end inside the file. -/
theorem offset_add_le_of_lt (hmax : 1 ≤ c.fileMaxRequestSize) {i : ℕ}
    (hi : ((i % chunks c.fileSize.toNat c.fileMaxRequestSize.toNat : ℕ) : ℤ) <
      c.fileSize / c.fileMaxRequestSize) :
    (seqTile c c.fileMaxRequestSize.toNat i).offset + c.fileMaxRequestSize ≤ c.fileSize := by
  have hle := (Int.le_ediv_iff_mul_le (show 0 < c.fileMaxRequestSize by omega)).mp
    (Int.add_one_le_iff.mpr hi)
  have hcast : (c.fileMaxRequestSize.toNat : ℤ) = c.fileMaxRequestSize :=
    Int.toNat_of_nonneg (by omega)
  simp only [seqTile, tile]
  rw [Nat.cast_mul, hcast]
  linarith

/-- The chunks of a file end without an overflow: the last one is whole, or the sum that
shows that it is not fits, or the limit on requests stops the run before it. -/
def ChunksFit (maxRequests : ℕ) (fileSize maxRequestSize : ℤ) : Prop :=
  maxRequestSize ∣ fileSize ∨ (fileSize / maxRequestSize + 1) * maxRequestSize < 2 ^ 63 ∨
    (0 < maxRequests ∧ (maxRequests : ℤ) ≤ fileSize / maxRequestSize)

instance (maxRequests : ℕ) (fileSize maxRequestSize : ℤ) :
    Decidable (ChunksFit maxRequests fileSize maxRequestSize) :=
  inferInstanceAs (Decidable (_ ∨ _ ∨ _ ∧ _))

def MergedFits (c : Config) : Prop := ChunksFit c.maxRequests c.fileSize c.fileMaxRequestSize

theorem MergedFits.sizesTile (h : MergedFits c) (hc : c.Typed) (hfs : 1 ≤ c.fileSize)
    (hmax : 1 ≤ c.fileMaxRequestSize) (hmerge : 0 < c.fileMergedRequests) {k : ℕ}
    (hk : 0 < c.maxRequests → k ≤ c.maxRequests) :
    SizesTile c c.fileMaxRequestSize.toNat k := by
  intro i hi
  have hfs' := hc.fileSize_lt
  have hm : 0 < c.fileMaxRequestSize.toNat := by omega
  have hcast : (c.fileMaxRequestSize.toNat : ℤ) = c.fileMaxRequestSize :=
    Int.toNat_of_nonneg (by omega)
  refine seqSize_tile hc hfs hmax hmerge ?_
  by_cases hinner : ((i % chunks c.fileSize.toNat c.fileMaxRequestSize.toNat : ℕ) : ℤ) <
      c.fileSize / c.fileMaxRequestSize
  · have hle := offset_add_le_of_lt hmax hinner
    omega
  -- the chunk holds the end of its file
  have hchunk : i % chunks c.fileSize.toNat c.fileMaxRequestSize.toNat * c.fileMaxRequestSize.toNat
      < c.fileSize.toNat := offset_lt (n := c.numFiles) (by omega) hm i
  generalize hr : i % chunks c.fileSize.toNat c.fileMaxRequestSize.toNat = r at hinner hchunk
  have hchunk' : (r : ℤ) * c.fileMaxRequestSize < c.fileSize := by
    rw [← hcast]
    omega
  have hlast : (r : ℤ) = c.fileSize / c.fileMaxRequestSize := by
    have hle := (Int.le_ediv_iff_mul_le (show 0 < c.fileMaxRequestSize by omega)).mpr hchunk'.le
    omega
  rcases h with ⟨q, hq⟩ | hsum | ⟨hpos, hlimit⟩
  · rw [hq, Int.mul_ediv_cancel_left _ (by omega)] at hlast
    rw [hlast, mul_comm, ← hq] at hchunk'
    exact absurd hchunk' (lt_irrefl _)
  · rw [← hlast] at hsum
    simp only [seqTile, tile, hr]
    rw [Nat.cast_mul, hcast]
    linarith
  · have hle := Nat.mod_le i (chunks c.fileSize.toNat c.fileMaxRequestSize.toNat)
    have hi' := hk hpos
    omega

theorem sizesTile_blocks (hfs : 1 ≤ c.fileSize) (hb : 0 < c.fileBlockSize)
    (hmerge : c.fileMergedRequests = 0) (hdvd : c.fileBlockSize ∣ c.fileSize) (k : ℕ) :
    SizesTile c c.fileBlockSize.toNat k := by
  intro i _
  have hL : 0 < c.fileSize.toNat := by omega
  have hm : 0 < c.fileBlockSize.toNat := by omega
  have hdvd' : c.fileBlockSize.toNat ∣ c.fileSize.toNat := by
    obtain ⟨k, hk⟩ := hdvd
    refine ⟨k.toNat, ?_⟩
    rw [hk, Int.toNat_mul (by omega) (by nlinarith)]
  rw [seqTile, length_of_dvd hL hm hdvd', seqSize, if_neg (by omega), Int.toNat_of_nonneg hb.le]

section Tiled

variable {m k : ℕ} (hn : 0 < c.numFiles) (hc : c.Typed) (hfs : 1 ≤ c.fileSize) (hm : 0 < m)
  (hsize : SizesTile c m k)

include hn hc hfs hm hsize

theorem cursorAt_rewind {i : ℕ} (hi : i ≤ k) :
    (cursorAt c i).rewind c = ⟨(seqTile c m i).segment, (seqTile c m i).offset⟩ := by
  have hL : 0 < c.fileSize.toNat := by omega
  induction i with
  | zero =>
    obtain ⟨hseg, hoff⟩ := tile_zero (n := c.numFiles) (L := c.fileSize.toNat) (m := m)
    rw [seqTile, hseg, hoff]
    exact Cursor.rewind_of_lt hn
  | succ i ih =>
    have hseg : (seqTile c m i).segment < c.numFiles := segment_lt hn i
    have hle : (seqTile c m i).offset + (seqTile c m i).length ≤ c.fileSize.toNat :=
      offset_add_length_le hL hm i
    have hfs' := hc.fileSize_lt
    have hsum : toInt 64 ((seqTile c m i).offset + (seqTile c m i).length : ℤ) =
        (seqTile c m i).offset + (seqTile c m i).length :=
      toInt_of_range (by norm_num) (by norm_num; omega) (by norm_num; omega)
    rw [cursorAt_succ, Cursor.next, ih (by omega), hsize i (by omega), Cursor.advance]
    dsimp only
    rw [hsum]
    by_cases hend : (seqTile c m i).offset + (seqTile c m i).length = c.fileSize.toNat
    · have hnext : (seqTile c m (i + 1)).segment = ((seqTile c m i).segment + 1) % c.numFiles ∧
          (seqTile c m (i + 1)).offset = 0 := tile_succ_of_ends hL hm hend
      rw [if_pos (by omega), hnext.1, hnext.2, Nat.cast_zero]
      by_cases hlast : (seqTile c m i).segment + 1 = c.numFiles
      · rw [Cursor.rewind_of_eq hlast, hlast, Nat.mod_self]
      · have hlt : (seqTile c m i).segment + 1 < c.numFiles := by omega
        rw [Cursor.rewind_of_lt hlt, Nat.mod_eq_of_lt hlt]
    · have hnext : (seqTile c m (i + 1)).segment = (seqTile c m i).segment ∧
          (seqTile c m (i + 1)).offset = (seqTile c m i).offset + (seqTile c m i).length :=
        tile_succ_of_not_ends hL hm hend
      rw [if_neg (by omega), Cursor.rewind_of_lt hseg, hnext.1, hnext.2, Nat.cast_add]

theorem seqStream_eq_tile {i : ℕ} (hi : i < k) :
    seqStream c i =
      ⟨(seqTile c m i).segment, (seqTile c m i).offset, (seqTile c m i).length,
        seqOperation c⟩ := by
  rw [seqStream, Cursor.request, cursorAt_rewind hn hc hfs hm hsize hi.le, hsize i hi]

/-- Every position stays inside the file. -/
theorem seqStream_inFile {i : ℕ} (hi : i < k) : InFile c (seqStream c i) := by
  have hL : 0 < c.fileSize.toNat := by omega
  have hle : (seqTile c m i).offset + (seqTile c m i).length ≤ c.fileSize.toNat :=
    offset_add_length_le hL hm i
  rw [seqStream_eq_tile hn hc hfs hm hsize hi]
  refine ⟨segment_lt hn i, ?_, ?_⟩
  · dsimp only
    omega
  · dsimp only
    omega

end Tiled

/-! ## Merged requests tile the files -/

def cycleLength (c : Config) : ℕ :=
  c.numFiles * chunks c.fileSize.toNat c.fileMaxRequestSize.toNat

/-- The data requests go through file 0, file 1, ... and start over, each where the
previous one ended. -/
structure TilesFiles (c : Config) (data : List FileRequest) : Prop where
  operation : ∀ r ∈ data, r.operation = seqOperation c
  first : ∀ r, data[0]? = some r → r.fileId = 0 ∧ r.pos = 0
  next : ∀ i r r', data[i]? = some r → data[i + 1]? = some r' →
    (r.pos + r.size = c.fileSize → r'.fileId = (r.fileId + 1) % c.numFiles ∧ r'.pos = 0) ∧
    (r.pos + r.size ≠ c.fileSize → r'.fileId = r.fileId ∧ r'.pos = r.pos + r.size)
  size : ∀ r ∈ data, InFile c r ∧ 0 < r.size ∧
    (r.pos + r.size ≠ c.fileSize → r.size = c.fileMaxRequestSize)
  cycle : ∀ i r, data[i]? = some r → (r.fileId = 0 ∧ r.pos = 0 ↔ cycleLength c ∣ i)
  cover : ∀ k f b, (k + 1) * cycleLength c ≤ data.length → f < c.numFiles → 0 ≤ b →
    b < c.fileSize → ∃! i, k * cycleLength c ≤ i ∧ i < (k + 1) * cycleLength c ∧
      ∃ r, data[i]? = some r ∧ r.fileId = f ∧ r.pos ≤ b ∧ b < r.pos + r.size

theorem getElem?_stream {k i : ℕ} {r : FileRequest} :
    ((List.range k).map (seqStream c))[i]? = some r ↔ i < k ∧ seqStream c i = r := by
  simp [List.getElem?_eq_some_iff]

/-- A prefix of the stream tiles the file set when its sizes are the chunk lengths. -/
theorem stream_tilesFiles (hn : 1 ≤ c.numFiles) (hc : c.Typed) (hfs : 1 ≤ c.fileSize)
    (hmax : 1 ≤ c.fileMaxRequestSize) {k : ℕ} (hsize : SizesTile c c.fileMaxRequestSize.toNat k) :
    TilesFiles c ((List.range k).map (seqStream c)) := by
  have hL : 0 < c.fileSize.toNat := by omega
  have hm : 0 < c.fileMaxRequestSize.toNat := by omega
  have htile : ∀ {i}, i < k → seqStream c i = _ := seqStream_eq_tile hn hc hfs hm hsize
  constructor
  · intro r hr
    obtain ⟨i, hi, rfl⟩ := List.mem_map.mp hr
    rw [htile (List.mem_range.mp hi)]
  · intro r hr
    obtain ⟨hk, rfl⟩ := getElem?_stream.mp hr
    obtain ⟨hseg, hoff⟩ := tile_zero (n := c.numFiles) (L := c.fileSize.toNat)
      (m := c.fileMaxRequestSize.toNat)
    rw [htile hk, seqTile, hseg, hoff]
    exact ⟨rfl, rfl⟩
  · intro i r r' hr hr'
    obtain ⟨hi, rfl⟩ := getElem?_stream.mp hr
    obtain ⟨hi', rfl⟩ := getElem?_stream.mp hr'
    simp only [htile hi, htile hi']
    constructor
    · intro hend
      have hend' : (seqTile c c.fileMaxRequestSize.toNat i).offset +
          (seqTile c c.fileMaxRequestSize.toNat i).length = c.fileSize.toNat := by omega
      obtain ⟨hseg, hoff⟩ := tile_succ_of_ends (n := c.numFiles) hL hm hend'
      exact ⟨hseg, by rw [seqTile, hoff, Nat.cast_zero]⟩
    · intro hend
      have hend' : (seqTile c c.fileMaxRequestSize.toNat i).offset +
          (seqTile c c.fileMaxRequestSize.toNat i).length ≠ c.fileSize.toNat := by omega
      obtain ⟨hseg, hoff⟩ := tile_succ_of_not_ends (n := c.numFiles) hL hm hend'
      exact ⟨hseg, by rw [seqTile, hoff, Nat.cast_add]; rfl⟩
  · intro r hr
    obtain ⟨i, hi, rfl⟩ := List.mem_map.mp hr
    have hi' := List.mem_range.mp hi
    have hpos : 0 < (seqTile c c.fileMaxRequestSize.toNat i).length := length_pos hL hm i
    refine ⟨seqStream_inFile hn hc hfs hm hsize hi', ?_, ?_⟩
    · rw [htile hi']
      dsimp only
      omega
    · rw [htile hi']
      dsimp only
      intro hend
      have hlen : (seqTile c c.fileMaxRequestSize.toNat i).length = c.fileMaxRequestSize.toNat := by
        refine length_eq (n := c.numFiles) (fun h => hend ?_) hL hm
        simp only [seqTile]
        omega
      omega
  · intro i r hr
    obtain ⟨hi, rfl⟩ := getElem?_stream.mp hr
    rw [cycleLength, ← starts_cycle_iff hL hm, htile hi]
    simp [seqTile]
  · intro cyc f b hlen hf hb0 hb
    rw [List.length_map, List.length_range] at hlen
    have hb' : b.toNat < c.fileSize.toNat := by omega
    obtain ⟨i, ⟨hlo, hhi, hcov⟩, huniq⟩ := existsUnique_covers hm cyc hf hb'
    -- a request covers the byte exactly when its tile does
    have hiff : ∀ j, j < (cyc + 1) * cycleLength c →
        ((∃ r, ((List.range k).map (seqStream c))[j]? = some r ∧ r.fileId = f ∧ r.pos ≤ b ∧
          b < r.pos + r.size) ↔
          (seqTile c c.fileMaxRequestSize.toNat j).Covers f b.toNat) := by
      intro j hj
      have hjk : j < k := by omega
      simp only [getElem?_stream, Tile.Covers]
      constructor
      · rintro ⟨r, ⟨-, rfl⟩, hseg, hlo, hhi⟩
        rw [htile hjk] at hseg hlo hhi
        dsimp only at hseg hlo hhi
        exact ⟨hseg, by omega, by omega⟩
      · rintro ⟨hseg, hlo, hhi⟩
        refine ⟨_, ⟨hjk, rfl⟩, ?_⟩
        rw [htile hjk]
        exact ⟨hseg, by dsimp only; omega, by dsimp only; omega⟩
    refine ⟨i, ⟨hlo, hhi, (hiff i hhi).mpr hcov⟩, ?_⟩
    rintro j ⟨hjlo, hjhi, hj⟩
    exact huniq j ⟨hjlo, hjhi, (hiff j hjhi).mp hj⟩

end Sysbench.Fileio
