import Sysbench.Fileio.Buffers
import Sysbench.Mutex.Locks

/-! # Divisors

The numbers that a call of the random generator divides by. With the lock tests these are all the
integer divisions of the request generators that depend on options.
-/
namespace Sysbench.Fileio

open Runs Words

section Divisors

variable (c : Config)

/-- The integer divisors of a call of `file_get_rnd_request`, and of its loop those of one draw. -/
def rndDivisors (s : Vars) : List ℤ :=
  if s.Done c then []
  else if c.fileFsyncFreq ≠ 0 ∧ s.isDirty then
    if s.reqPerformed % c.fileFsyncFreq = 0 then [(c.fileFsyncFreq : ℤ)]
    else [(c.fileFsyncFreq : ℤ), c.fileBlockSize, c.fileSize]
  else [c.fileBlockSize, c.fileSize]

/-- No call of the random generator in any run divides by zero. -/
def RndDefined : Prop :=
  ¬ SeqMode c → ∀ perThread calls s, run (callStep c) (initVars perThread) calls = some s →
    (0 : ℤ) ∉ rndDivisors c s

end Divisors

variable {c : Config}

/-- Only an empty file is divided by. -/
theorem zero_mem_rndDivisors (hb : 0 < c.fileBlockSize) {s : Vars}
    (h : (0 : ℤ) ∈ rndDivisors c s) : c.fileSize = 0 := by
  unfold rndDivisors at h
  split_ifs at h with hdone hdue hzero
  · cases h
  · rw [List.mem_singleton] at h
    exact absurd (by exact_mod_cast h.symm) hdue.1
  · simp only [List.mem_cons, List.not_mem_nil, or_false] at h
    rcases h with h | h | h
    · exact absurd (by exact_mod_cast h.symm) hdue.1
    · omega
    · exact h.symm
  · simp only [List.mem_cons, List.not_mem_nil, or_false] at h
    omega

theorem rndDefined_iff (hb : 0 < c.fileBlockSize) :
    RndDefined c ↔ (¬ SeqMode c → c.fileSize ≠ 0) := by
  constructor
  · intro hdef hm hzero
    refine hdef hm (fun _ => ⟨0, 0⟩) [] _ rfl ?_
    have hdone : ¬ (initVars fun _ => ⟨0, 0⟩).Done c := by
      rintro ⟨hpos, hle⟩
      exact absurd hle (not_le.mpr hpos)
    have hclean : ¬ (c.fileFsyncFreq ≠ 0 ∧ (initVars fun _ => ⟨0, 0⟩).isDirty = true) :=
      fun h => by cases h.2
    rw [rndDivisors, if_neg hdone, if_neg hclean, hzero]
    exact List.mem_cons_of_mem _ (List.mem_singleton_self 0)
  · intro hfs hm perThread calls s _ hmem
    exact hfs hm (zero_mem_rndDivisors hb hmem)

/-- Which accepted settings keep the three tests from dividing by zero, and the mutex test at the
number of pairs asked for. -/
theorem no_zero_divisor_iff {g : Globals} {o : Options} (h : parseArguments g o = .ok c)
    (threads : Mutex.ThreadsOptions) (mutex : Mutex.MutexOptions) :
    (Mutex.ThreadsDefined g.maxRequests threads ↔ (threads.threadLocks : ℤ) ≠ 0) ∧
    (Mutex.MutexExact mutex ↔ (mutex.mutexNum : ℤ) ≠ 0 ∧ (mutex.mutexLocks : ℤ) ≠ 0) ∧
    (RndDefined c ↔ (¬ SeqMode c → (toUInt 32 o.fileNum : ℤ) ≤ toInt 64 o.fileTotalSize)) := by
  have hok := parseArguments_ok h
  refine ⟨Mutex.threadsDefined_iff _ _, Mutex.mutexExact_iff _, ?_⟩
  rw [rndDefined_iff hok.fileBlockSize_pos, fileSize_ne_zero_iff hok]

theorem inRange_zero : Options.intMin ≤ 0 ∧ 0 ≤ Options.intMax := by decide

theorem inRange_one : Options.intMin ≤ 1 ∧ 1 ≤ Options.intMax := by decide

def zeroValue : Mutex.IntValue := ⟨0, inRange_zero⟩

def oneValue : Mutex.IntValue := ⟨1, inRange_one⟩

theorem no_zero_divisor_iff_small :
    (Mutex.ThreadsDefined smallGlobals.maxRequests ⟨oneValue, oneValue⟩ ↔ (oneValue : ℤ) ≠ 0) ∧
    (Mutex.MutexExact ⟨oneValue, oneValue, zeroValue⟩ ↔
      (oneValue : ℤ) ≠ 0 ∧ (oneValue : ℤ) ≠ 0) ∧
    (RndDefined smallConfig ↔
      (¬ SeqMode smallConfig →
        (toUInt 32 smallOptions.fileNum : ℤ) ≤ toInt 64 smallOptions.fileTotalSize)) :=
  no_zero_divisor_iff parseArguments_small ⟨oneValue, oneValue⟩ ⟨oneValue, oneValue, zeroValue⟩

/-- No lock for the threads test; no mutex, or no lock to do, for the mutex test; two files in one
byte. -/
theorem zero_divisors :
    ¬ Mutex.ThreadsDefined 0 ⟨oneValue, zeroValue⟩ ∧
    ¬ Mutex.MutexExact ⟨zeroValue, oneValue, zeroValue⟩ ∧
    ¬ Mutex.MutexExact ⟨oneValue, zeroValue, zeroValue⟩ ∧
    ∃ c, parseArguments smallGlobals
        { smallOptions with fileNum := 2, fileTotalSize := 1, fileTestMode := some "rndrd" } =
          .ok c ∧ ¬ RndDefined c := by
  refine ⟨fun h => ?_, fun h => ?_, fun h => ?_,
    { smallConfig with numFiles := 2, totalSize := 1, fileSize := 0, testMode := .rndRead }, rfl,
    fun h => ?_⟩
  · exact (Mutex.threadsDefined_iff _ _).mp h rfl
  · exact ((Mutex.mutexExact_iff _).mp h).1 rfl
  · exact ((Mutex.mutexExact_iff _).mp h).2 rfl
  · exact (rndDefined_iff (by decide)).mp h (by decide) rfl

end Sysbench.Fileio
