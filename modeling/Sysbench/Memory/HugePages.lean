import Sysbench.Machine.Masks
import Sysbench.Memory.Budget

/-! # Buffers of the memory test in huge pages

With `memory-hugetlb` each buffer is a shared memory segment, and the block size is aligned to
the page size before the system is asked for it. Addresses are bytes from the start of the
buffer.
-/
namespace Sysbench.Memory

open Checks Masks Words

def largePageSize : BitVec 64 := 4 * 1024 * 1024

def alignedSize (size : BitVec 64) : BitVec 64 :=
  ((size - 1) &&& ~~~largePageSize) + largePageSize

structure Shm where
  /-- `shmget` succeeds for a size -/
  get : BitVec 64 → Bool
  /-- `shmat` succeeds for a segment of a size -/
  attach : BitVec 64 → Bool

/-- The size of the segment, or the error that is logged before `NULL` is returned. -/
def hugetlbAlloc (shm : Shm) (size : BitVec 64) : Except String (BitVec 64) :=
  if shm.get (alignedSize size) then
    if shm.attach (alignedSize size) then .ok (alignedSize size)
    else .error "Failed to attach shared memory segment,"
  else
    .error s!"Failed to allocate {toInt 32 (alignedSize size).toNat} bytes from HugeTLB memory."

/-- `memory_init` with `memory-hugetlb`. The array of the local buffers is still allocated by
`malloc`. -/
def memoryInitHugetlb (malloc : ℕ → Bool) (shm : ℕ → Shm) (numThreads : ℕ) (o : MemoryOptions) :
    Except String MemoryConfig :=
  memoryInit (fun i size =>
    if i = 0 ∧ o.scope = "local" then malloc size
    else (hugetlbAlloc (shm i) (.ofNat 64 size)).toBool) numThreads o

/-- An access: the first byte and the number of bytes. -/
abbrev Access := ℕ × ℕ

def memset (size : ℕ) : List Access := [(0, size)]

/-- `for (; buf < end; buf++)` over integers. -/
def words (buf fin : ℕ) : List Access :=
  if buf < fin then (buf, 4) :: words (buf + 4) fin else []
termination_by fin - buf

/-- The loops of `memory_execute_request` in sequential mode; that of `SB_MEM_OP_NONE` only moves
the pointer. -/
def memoryExecuteSequential (cfg : MemoryConfig) : MemOp → List Access
  | .none => []
  | .write | .read => words 0 cfg.memoryBlockSize.toNat

/-- The smallest multiple of the page size that is large enough. -/
def RoundsUp (size : ℕ) : Prop :=
  IsLeast {m | largePageSize.toNat ∣ m ∧ size ≤ m} (alignedSize (.ofNat 64 size)).toNat

/-- Buffers of this size are cleared and used inside their segments. -/
def Contained (size : ℕ) : Prop :=
  ∀ malloc shm numThreads o cfg, memoryInitHugetlb malloc shm numThreads o = .ok cfg →
    cfg.memoryBlockSize = size → ∀ type, ∀ a ∈ memset size ++ memoryExecuteSequential cfg type,
      a.1 + a.2 ≤ (alignedSize (.ofNat 64 size)).toNat

/-! ## The aligned size -/

section Aligned

variable {size : ℕ}

theorem largePageSize_eq : largePageSize = BitVec.twoPow 64 22 := by decide

theorem toNat_sub_one (hpos : 1 ≤ size) (hlt : size < 2 ^ 62) :
    (BitVec.ofNat 64 size - 1).toNat = size - 1 := by
  have hword : (BitVec.ofNat 64 size).toNat = size := by
    rw [BitVec.toNat_ofNat, Nat.mod_eq_of_lt (by omega)]
  have hone : (1 : BitVec 64).toNat = 1 := rfl
  rw [BitVec.toNat_sub_of_le (by rw [BitVec.le_def, hword]; exact hpos), hword, hone]

/-- The mask clears one bit of the last offset, and adding the page size sets it. -/
theorem alignedSize_eq (hpos : 1 ≤ size) (hlt : size < 2 ^ 62) :
    (alignedSize (.ofNat 64 size)).toNat =
      if (size - 1) / 4194304 % 2 = 0 then size - 1 + 4194304 else size - 1 := by
  have hlast := toNat_sub_one hpos hlt
  have hbit : (BitVec.ofNat 64 size - 1).getLsbD 22 = decide ((size - 1) / 4194304 % 2 = 1) := by
    rw [BitVec.getLsbD, hlast, Nat.testBit_eq_decide_div_mod_eq]
  rw [alignedSize, largePageSize_eq]
  split
  · rename_i heven
    have hclear : (BitVec.ofNat 64 size - 1).getLsbD 22 = false := by
      rw [hbit, heven]
      rfl
    have hpage : (BitVec.twoPow 64 22).toNat = 4194304 := rfl
    rw [and_not_twoPow_of_clear hclear, BitVec.toNat_add, hlast, hpage, Nat.mod_eq_of_lt (by omega)]
  · rename_i hodd
    have hset : (BitVec.ofNat 64 size - 1).getLsbD 22 = true := by
      rw [hbit]
      exact decide_eq_true (by omega)
    rw [and_not_twoPow_add_of_set hset, hlast]

theorem roundsUp_iff (hpos : 1 ≤ size) (hlt : size < 2 ^ 62) :
    RoundsUp size ↔ (size - 1) % (2 * 4194304) = 0 := by
  have hset : {m | largePageSize.toNat ∣ m ∧ size ≤ m} = {m | 4194304 ∣ m ∧ size - 1 < m} := by
    ext m
    exact and_congr Iff.rfl (by omega)
  have hleast := isLeast_multiple (p := 4194304) (by decide) (size - 1)
  rw [RoundsUp, hset, alignedSize_eq hpos hlt]
  constructor
  · intro h
    have heq := h.unique hleast
    split at heq <;> omega
  · intro h
    have heven : (size - 1) / 4194304 % 2 = 0 := by omega
    have heq : size - 1 + 4194304 = (size - 1) / 4194304 * 4194304 + 4194304 := by omega
    rw [if_pos heven, heq]
    exact hleast

end Aligned

/-! ## Accesses -/

section Accesses

variable {size : ℕ} {cfg : MemoryConfig}

/-- The loop stays in front of its end if that is a whole number of integers away. -/
theorem words_le {buf fin : ℕ} (h : buf % 4 = fin % 4) {a : Access} (ha : a ∈ words buf fin) :
    a.1 + a.2 ≤ fin := by
  induction buf using words.induct fin with
  | case1 buf hlt ih =>
    rw [words, if_pos hlt, List.mem_cons] at ha
    rcases ha with rfl | ha
    · dsimp only
      omega
    · exact ih (by omega) ha
  | case2 buf hge =>
    rw [words, if_neg hge] at ha
    cases ha

theorem execute_le (hblock : cfg.memoryBlockSize = size) (hsize : size % 4 = 0) {type : MemOp}
    {a : Access} (ha : a ∈ memoryExecuteSequential cfg type) : a.1 + a.2 ≤ size := by
  cases type with
  | none => cases ha
  | write | read =>
    rw [memoryExecuteSequential, hblock, Int.toNat_natCast] at ha
    exact words_le (by omega) ha

/-- `memory_init` refuses a block that is no whole number of integers. -/
theorem memoryInitHugetlb_block {malloc : ℕ → Bool} {shm : ℕ → Shm} {numThreads : ℕ}
    {o : MemoryOptions} (hlt : size < 2 ^ 62) (hblock : cfg.memoryBlockSize = size)
    (h : memoryInitHugetlb malloc shm numThreads o = .ok cfg) : size % 4 = 0 := by
  simp only [memoryInitHugetlb, memoryInit, bind_eq_ok] at h
  obtain ⟨_, hcheck, scope, -, oper, -, rnd, -, _, -, h⟩ := h
  obtain rfl := Except.ok.inj h
  dsimp only at hblock
  rw [hblock, checkBlockSize, toUInt_natCast (by omega)] at hcheck
  by_contra hne
  rw [if_pos hne] at hcheck
  cases hcheck

def roomyShm : Shm := ⟨fun _ => true, fun _ => true⟩

def writeOptions (size : ℕ) : MemoryOptions := ⟨.ofNat size, 0, "global", "write", "seq"⟩

theorem memoryInitHugetlb_write (hlt : size < 2 ^ 62) (hsize : size % 4 = 0) :
    memoryInitHugetlb (fun _ => true) (fun _ => roomyShm) 1 (writeOptions size) =
      .ok ⟨size, 0, .global, .write, false⟩ := by
  have hnat : (writeOptions size).blockSize.toNat = size := by
    rw [writeOptions, UInt64.toNat_ofNat', Nat.mod_eq_of_lt (by omega)]
  have hblock : toInt 64 (writeOptions size).blockSize.toNat = size := by
    rw [hnat]
    exact toInt_natCast (by decide) (by omega)
  have hcheck : checkBlockSize size = .ok () := by
    rw [checkBlockSize, toUInt_natCast (by omega), if_neg (not_not.mpr hsize)]
  have hsegment : ∀ x, (hugetlbAlloc roomyShm x).toBool = true := by
    intro x
    have hget : roomyShm.get (alignedSize x) = true := by rw [roomyShm]
    have hattach : roomyShm.attach (alignedSize x) = true := by rw [roomyShm]
    rw [hugetlbAlloc, if_pos hget, if_pos hattach]
    rfl
  have hzero : toInt 64 (0 : UInt64).toNat = 0 := by decide
  have htotal : toInt 64 (writeOptions size).totalSize.toNat = 0 := hzero
  simp only [memoryInitHugetlb, memoryInit, hblock, htotal, hcheck, hsegment, ite_self]
  simp only [writeOptions, parseScope, parseOper, parseAccessMode, allocateBuffers]
  rfl

theorem contained_iff (hpos : 1 ≤ size) (hlt : size < 2 ^ 62) :
    Contained size ↔ size % 4 ≠ 0 ∨ (size - 1) / 4194304 % 2 = 0 := by
  have haligned := alignedSize_eq hpos hlt
  constructor
  · intro h
    by_contra hnot
    rw [not_or, not_not] at hnot
    have hinside := h _ _ _ _ _ (memoryInitHugetlb_write hlt hnot.1) rfl .none (0, size) (by simp [memset])
    rw [haligned, if_neg hnot.2] at hinside
    dsimp only at hinside
    omega
  · intro h malloc shm numThreads o cfg hinit hblock type a ha
    have hsize := memoryInitHugetlb_block hlt hblock hinit
    have heven : (size - 1) / 4194304 % 2 = 0 := h.resolve_left (not_not.mpr hsize)
    have hle : a.1 + a.2 ≤ size := by
      rcases List.mem_append.mp ha with ha | ha
      · rw [List.mem_singleton.mp ha]
        exact (Nat.zero_add size).le
      · exact execute_le hblock hsize ha
    rw [haligned, if_pos heven]
    omega

/-- The mask is that of one bit, not of the bits below it: the aligned size is right for the first
byte of every other page only, and large enough where that bit is clear. -/
theorem alignedSize_iff (hpos : 1 ≤ size) (hlt : size < 2 ^ 62) :
    (RoundsUp size ∧ Contained size ↔ (size - 1) % (2 * largePageSize.toNat) = 0) ∧
      (Contained size ↔ size % 4 ≠ 0 ∨ (size - 1) / largePageSize.toNat % 2 = 0) := by
  have hcontained := contained_iff hpos hlt
  have hpage : largePageSize.toNat = 4194304 := rfl
  rw [hpage]
  refine ⟨⟨fun h => (roundsUp_iff hpos hlt).mp h.1, fun h => ?_⟩, hcontained⟩
  exact ⟨(roundsUp_iff hpos hlt).mpr h, hcontained.mpr (.inr (by omega))⟩

theorem alignedSize_iff_default :
    (RoundsUp 1024 ∧ Contained 1024 ↔ (1024 - 1) % (2 * largePageSize.toNat) = 0) ∧
      (Contained 1024 ↔ 1024 % 4 ≠ 0 ∨ (1024 - 1) / largePageSize.toNat % 2 = 0) :=
  alignedSize_iff (by decide) (by decide)

/-- Eight megabytes: the segment lacks the last byte of the buffer. -/
theorem not_roundsUp_contained : ¬ ∀ size : ℕ, 1 ≤ size → size < 2 ^ 62 →
    RoundsUp size ∧ Contained size := by
  intro h
  have hlt : 8388608 < 2 ^ 62 := by decide
  rcases (contained_iff (by decide) hlt).mp (h 8388608 (by decide) hlt).2 with hsize | heven
  · exact hsize rfl
  · exact absurd heven (by decide)

end Accesses

end Sysbench.Memory
