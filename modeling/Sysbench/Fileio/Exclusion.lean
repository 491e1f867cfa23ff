import Sysbench.Fileio.Prepare
import Sysbench.Fileio.Random
import Sysbench.Fileio.Workers
import Sysbench.Machine.Pool

/-! # Block exclusivity in validation mode

A new draw is compared with the block every other thread has on record. A record is
written when a request is handed out and stays until the thread's next one, so the
record of a thread that holds a data request names that request's block. Records of
other threads are stale or uninitialised and only cause retries.
-/
namespace Sysbench.Fileio

open Runs Words Pool

variable {c : Config}

def System.Holds {n : ℕ} (s : System n) (t : Fin n) (r : FileRequest) : Prop :=
  (∃ todo, s.worker t = .busy r todo) ∧ (r.operation = .read ∨ r.operation = .write)

theorem Moved.holds {s u : System c.numThreads} {e : Event c.numThreads} (h : Moved c s e u)
    {t : Fin c.numThreads} {r : FileRequest} (ht : u.Holds t r) :
    s.Holds t r ∨ ∃ draws, e = .get t draws (.file r) := by
  obtain ⟨⟨todo, hbusy⟩, hop⟩ := ht
  -- a step of one worker leaves the others, and puts none but a busy one to work
  have hmoved : ∀ {t' : Fin c.numThreads} {w : Worker}, Function.update s.worker t' w t =
      .busy r todo → (t = t' → w = .busy r todo → s.Holds t r) → s.Holds t r := by
    intro t' w hup hown
    rcases update_eq_iff.mp hup with ⟨heq, hw⟩ | ⟨-, hold⟩
    · exact hown heq hw
    · exact ⟨⟨todo, hold⟩, hop⟩
  cases h with
  | @get t' draws q v hw hget =>
    rcases update_eq_iff.mp hbusy with ⟨rfl, htaken⟩ | ⟨-, hold⟩
    · cases q with
      | null => cases htaken
      | file r' =>
        cases htaken
        exact .inr ⟨draws, rfl⟩
    · exact .inl ⟨⟨todo, hold⟩, hop⟩
  | @act t' a r' rest hw =>
    refine .inl (hmoved hbusy ?_)
    rintro rfl heq
    cases heq
    exact ⟨⟨_, hw⟩, hop⟩
  | fail hw => exact .inl (hmoved hbusy fun _ heq => by cases heq)
  | ret hw => exact .inl (hmoved hbusy fun _ heq => by cases heq)
  | refused hw => exact .inl (hmoved hbusy fun _ heq => by cases heq)
  | stop hw => exact .inl (hmoved hbusy fun _ heq => by cases heq)
  | intermediateReport => exact .inl ⟨⟨todo, hbusy⟩, hop⟩
  | cumulativeReport => exact .inl ⟨⟨todo, hbusy⟩, hop⟩

theorem Served.perThread {s t : Vars} {q : Request} (h : Served c s q t)
    (hq : q.isData = false) : t.perThread = s.perThread := by
  cases h with
  | final hdone hdue => rfl
  | null hdone hdue => rfl
  | periodic hdone hdue =>
    unfold Vars.periodicFsync
    split_ifs <;> rfl
  | @data r t hdone hdue hop hwrite ht =>
    rcases hop with hop | hop <;> simp [Request.isData, Request.isRead, Request.isWrite, hop] at hq

/-! ## Blocks of one file -/

/-- The file number of a drawn offset, when the files are few enough for it to be exact. -/
theorem rndRequest_fileId {g : Globals} {o : Options} (h : Accepted g o c) (hfs : 1 ≤ c.fileSize)
    (hn : c.numFiles ≤ 2 ^ 31) (op : FileOp) {tmppos : ℤ} (h0 : 0 ≤ tmppos)
    (hlt : tmppos < c.totalSize) :
    ((rndRequest c op tmppos).fileId : ℤ) = rndOffset c tmppos / c.fileSize := by
  have hoffset := rndOffset_nonneg (c := c) h.fileBlockSize_pos h0
  have hle := rndOffset_le (c := c) h.fileBlockSize_pos tmppos
  have htotal := totalSize_lt h
  have hfs' : 0 < c.fileSize := by omega
  have hq : rndOffset c tmppos / c.fileSize < 2 * c.numFiles := by
    rw [Int.ediv_lt_iff_lt_mul hfs']
    nlinarith
  have hn' : (c.numFiles : ℤ) ≤ 2 ^ 31 := by exact_mod_cast hn
  have hq0 := Int.ediv_nonneg hoffset hfs'.le
  rw [rndRequest, toUInt_of_range hq0 (by omega), Int.toNat_of_nonneg hq0]

/-- Within one file, the blocks of two draws are equal or disjoint. -/
theorem rndRequest_disjoint {g : Globals} {o : Options} (h : Accepted g o c)
    (hfs : 1 ≤ c.fileSize) (hn : c.numFiles ≤ 2 ^ 31) {op op' : FileOp} {d d' : Draw}
    (hfile : (rndRequest c op (scaleDraw c.totalSize d)).fileId =
      (rndRequest c op' (scaleDraw c.totalSize d')).fileId)
    (hpos : (rndRequest c op (scaleDraw c.totalSize d)).pos ≠
      (rndRequest c op' (scaleDraw c.totalSize d')).pos) :
    (rndRequest c op (scaleDraw c.totalSize d)).pos + c.fileBlockSize ≤
        (rndRequest c op' (scaleDraw c.totalSize d')).pos ∨
      (rndRequest c op' (scaleDraw c.totalSize d')).pos + c.fileBlockSize ≤
        (rndRequest c op (scaleDraw c.totalSize d)).pos := by
  have hb := h.fileBlockSize_pos
  obtain ⟨h0, hlt⟩ := scales_draw c.totalSize d h.totalSize_pos
  obtain ⟨h0', hlt'⟩ := scales_draw c.totalSize d' h.totalSize_pos
  generalize scaleDraw c.totalSize d = t at *
  generalize scaleDraw c.totalSize d' = t' at *
  have hq : rndOffset c t / c.fileSize = rndOffset c t' / c.fileSize := by
    rw [← rndRequest_fileId h hfs hn op h0 hlt, ← rndRequest_fileId h hfs hn op' h0' hlt', hfile]
  have hd := Int.emod_add_mul_ediv (rndOffset c t) c.fileSize
  have hd' := Int.emod_add_mul_ediv (rndOffset c t') c.fileSize
  have hk := rndOffset_eq c t
  have hk' := rndOffset_eq c t'
  simp only [rndRequest] at hpos ⊢
  rw [hq] at hd
  generalize t / c.fileBlockSize = k at hk
  generalize t' / c.fileBlockSize = k' at hk'
  rcases lt_trichotomy k k' with hlt | rfl | hgt
  · left
    have := mul_le_mul_of_nonneg_right (show k + 1 ≤ k' by omega) hb.le
    linarith
  · exact absurd (by linarith) hpos
  · right
    have := mul_le_mul_of_nonneg_right (show k' + 1 ≤ k by omega) hb.le
    linarith

theorem blockInUse_eq_false {s : Vars} {threadId : ℕ} {r : FileRequest}
    (h : blockInUse c s threadId r = false) {i : ℕ} (hi : i < c.numThreads) (hne : i ≠ threadId) :
    s.perThread i ≠ ⟨r.fileId, r.pos⟩ := by
  intro heq
  have hall := List.any_eq_false.mp h i (List.mem_range.mpr hi)
  simp [hne, heq] at hall

/-- The record of every thread that holds a data request names its block, and no two
threads hold the same block. -/
structure Recorded (c : Config) (s : System c.numThreads) : Prop where
  record : ∀ t r, s.Holds t r → s.vars.perThread t = ⟨r.fileId, r.pos⟩
  drawn : ∀ t r, s.Holds t r → ∃ op d, r = rndRequest c op (scaleDraw c.totalSize d)
  distinct : ∀ t t' r r', s.Holds t r → s.Holds t' r' → t ≠ t' →
    ¬ (r.fileId = r'.fileId ∧ r.pos = r'.pos)

theorem Recorded.quiet {s u : System c.numThreads} (h : Recorded c s)
    (hrec : u.vars.perThread = s.vars.perThread) (hold : ∀ t r, u.Holds t r → s.Holds t r) :
    Recorded c u := by
  constructor
  · intro t r ht
    rw [hrec]
    exact h.record t r (hold t r ht)
  · exact fun t r ht => h.drawn t r (hold t r ht)
  · exact fun t t' r r' ht ht' => h.distinct t t' r r' (hold t r ht) (hold t' r' ht')

theorem Recorded.handOut {s u : System c.numThreads} (h : Recorded c s) {t : Fin c.numThreads}
    {r : FileRequest} (hidle : ∀ t' r', s.Holds t' r' → t' ≠ t)
    (hnew : ∀ t' r', u.Holds t' r' → s.Holds t' r' ∨ t' = t ∧ r' = r)
    (hrec : u.vars.perThread = Function.update s.vars.perThread t ⟨r.fileId, r.pos⟩)
    (hdrawn : ∃ op d, r = rndRequest c op (scaleDraw c.totalSize d))
    (hother : ∀ t' r', s.Holds t' r' → ¬ (r'.fileId = r.fileId ∧ r'.pos = r.pos)) :
    Recorded c u := by
  constructor
  · intro t' r' ht'
    rw [hrec]
    rcases hnew t' r' ht' with hs | ⟨rfl, rfl⟩
    · have hne : (t' : ℕ) ≠ t := fun heq => hidle t' r' hs (Fin.ext heq)
      rw [Function.update_of_ne hne]
      exact h.record t' r' hs
    · rw [Function.update_self]
  · intro t' r' ht'
    rcases hnew t' r' ht' with hs | ⟨rfl, rfl⟩
    · exact h.drawn t' r' hs
    · exact hdrawn
  · intro t₁ t₂ r₁ r₂ h₁ h₂ hne
    rcases hnew t₁ r₁ h₁ with hs₁ | ⟨rfl, rfl⟩
    · rcases hnew t₂ r₂ h₂ with hs₂ | ⟨rfl, rfl⟩
      · exact h.distinct t₁ t₂ r₁ r₂ hs₁ hs₂ hne
      · exact hother t₁ r₁ hs₁
    · rcases hnew t₂ r₂ h₂ with hs₂ | ⟨rfl, -⟩
      · intro hsame
        exact hother t₂ r₂ hs₂ ⟨hsame.1.symm, hsame.2.symm⟩
      · exact absurd rfl hne

theorem Recorded.step (hval : c.validate = true) (hm : ¬ SeqMode c) {s u : System c.numThreads}
    (h : Recorded c s) (hdirty : s.vars.isDirty → CanWrite c) {e : Event c.numThreads}
    (hmv : Moved c s e u) : Recorded c u := by
  have hheld : ∀ t r, u.Holds t r → s.Holds t r ∨ ∃ draws, e = .get t draws (.file r) :=
    fun t r ht => hmv.holds ht
  have hold : e.handedOut = none → ∀ t r, u.Holds t r → s.Holds t r := by
    intro he t r ht
    rcases hheld t r ht with hs | ⟨draws, rfl⟩
    · exact hs
    · cases he
  cases hmv with
  | @get t draws q v hw hget =>
    have hidle : ∀ t' r, s.Holds t' r → t' ≠ t := by
      rintro t' r ⟨⟨todo, hbusy⟩, -⟩ rfl
      rw [hw] at hbusy
      cases hbusy
    have hnew : ∀ t' r, System.Holds ⟨v, Function.update s.worker t (taken c q)⟩ t' r →
        s.Holds t' r ∨ t' = t ∧ q = .file r := by
      intro t' r ht
      rcases hheld t' r ht with hs | ⟨draws', heq⟩
      · exact .inl hs
      · cases heq
        exact .inr ⟨rfl, rfl⟩
    cases hq : q.isData with
    | false =>
      refine h.quiet ((fileGetRequest_served hdirty hget).perThread hq) fun t' r ht => ?_
      rcases hnew t' r ht with hs | ⟨-, rfl⟩
      · exact hs
      · obtain ⟨-, hop⟩ := ht
        rcases hop with hop | hop <;>
          simp [Request.isData, Request.isRead, Request.isWrite, hop] at hq
    | true =>
      cases q with
      | null => cases hq
      | file r =>
        have hop : r.operation = .read ∨ r.operation = .write := by
          simpa [Request.isData, Request.isRead, Request.isWrite] using hq
        rw [fileGetRequest, if_neg hm] at hget
        obtain ⟨hretry, hrec⟩ := fileGetRndRequestBy_data hget hop
        obtain ⟨-, ⟨d, -, hd⟩, hfree⟩ := retryLoop_mem hretry
        -- the block of `r` is on nobody else's record, so no other thread holds it
        have hother : ∀ t' r', s.Holds t' r' → ¬ (r'.fileId = r.fileId ∧ r'.pos = r.pos) := by
          rintro t' r' ht' ⟨hfile, hpos⟩
          have hne := hidle t' r' ht'
          refine blockInUse_eq_false (hfree hval) t'.isLt (fun heq => hne (Fin.ext heq)) ?_
          rw [h.record t' r' ht', hfile, hpos]
        refine h.handOut hidle (fun t' r' ht' => ?_) hrec ⟨_, d, hd⟩ hother
        rcases hnew t' r' ht' with hs | ⟨ht, heq⟩
        · exact .inl hs
        · exact .inr ⟨ht, (Request.file.inj heq).symm⟩
  | act hw => exact h.quiet rfl (hold rfl)
  | fail hw => exact h.quiet rfl (hold rfl)
  | ret hw => exact h.quiet rfl (hold rfl)
  | refused hw => exact h.quiet rfl (hold rfl)
  | stop hw => exact h.quiet rfl (hold rfl)
  | intermediateReport => exact h.quiet rfl (hold rfl)
  | cumulativeReport => exact h.quiet rfl (hold rfl)

/-- In validation mode no two threads ever hold READ or WRITE requests whose byte ranges
in the same file overlap. -/
theorem workers_disjoint {g : Globals} {o : Options} (hp : parseArguments g o = .ok c)
    (hval : c.validate = true) (hm : ¬ SeqMode c) (hfs : 1 ≤ c.fileSize)
    {sbOpen : SbOpen} (hos : OpenSpec sbOpen) {opened files : List ℤ}
    (hprep : filePrepare c sbOpen opened = .ok files) {perThread : ℕ → PerThread}
    {es : List (Event c.numThreads)} {s : System c.numThreads}
    (hr : run (workerStep c) (initSystem _ perThread) es = some s)
    {t t' : Fin c.numThreads} (hne : t ≠ t') {r r' : FileRequest} (ht : s.Holds t r)
    (ht' : s.Holds t' r') (hfile : r.fileId = r'.fileId) :
    Disjoint (Set.Ico r.pos (r.pos + r.size)) (Set.Ico r'.pos (r'.pos + r'.size)) := by
  have h := parseArguments_ok hp
  have hinit : Recorded c (initSystem _ perThread) := by
    have hnone : ∀ t r, ¬ (initSystem c.numThreads perThread).Holds t r := by
      rintro t r ⟨⟨todo, hbusy⟩, -⟩
      cases hbusy
    exact ⟨fun t r ht => absurd ht (hnone t r), fun t r ht => absurd ht (hnone t r),
      fun t _ r _ ht => absurd ht (hnone t r)⟩
  have hinv : Recorded c s := run_invariant (I := fun _ s => Recorded c s) hinit
    (fun es s e u hs hrec he => hrec.step hval hm (workers_isDirty hs) (workerStep_moved he)) hr
  obtain ⟨op, d, rfl⟩ := hinv.drawn t r ht
  obtain ⟨op', d', rfl⟩ := hinv.drawn t' r' ht'
  have hpos : (rndRequest c op (scaleDraw c.totalSize d)).pos ≠
      (rndRequest c op' (scaleDraw c.totalSize d')).pos :=
    fun heq => hinv.distinct t t' _ _ ht ht' hne ⟨hfile, heq⟩
  rw [Set.Ico_disjoint_Ico]
  rcases rndRequest_disjoint h hfs (filePrepare_numFiles_le hos hprep) hfile hpos with hle | hle
  · simp only [rndRequest] at hle ⊢
    omega
  · simp only [rndRequest] at hle ⊢
    omega

/-- The descriptor after the largest one in use, while there are any. -/
def nextDescriptor : SbOpen := fun opened _ _ =>
  if (opened.foldr max 0) < 1000 then opened.foldr max 0 + 1 else -1

theorem le_foldr_max {x : ℤ} {l : List ℤ} (h : x ∈ l) : x ≤ l.foldr max 0 := by
  induction l with
  | nil => cases h
  | cons y l ih =>
    rw [List.foldr_cons]
    rcases List.mem_cons.mp h with rfl | h
    · exact le_max_left _ _
    · exact (ih h).trans (le_max_right _ _)

theorem nextDescriptor_spec : OpenSpec nextDescriptor where
  fresh opened _ _ h hmem := by
    unfold nextDescriptor at h hmem
    split_ifs at h hmem with hlt
    · have hle := le_foldr_max hmem
      omega
    · omega
  bounded opened _ _ := by
    unfold nextDescriptor
    split_ifs with hlt <;> omega

def validConfig : Config :=
  { smallConfig with validate := true, fileFsyncFreq := 0, testMode := .rndWrite }

def validEvents : List (Event 2) :=
  [.get 0 [⟨0, sbMaxRnd_pos⟩] (.file ⟨0, 0, 4, .write⟩),
    .get 1 [⟨0, sbMaxRnd_pos⟩, ⟨sbMaxRnd - 1, by decide⟩] (.file ⟨0, 4, 4, .write⟩)]

theorem scaleDraw_zero_eight : scaleDraw 8 ⟨0, sbMaxRnd_pos⟩ = 0 := by
  decide +kernel

theorem scaleDraw_last_eight : scaleDraw 8 ⟨sbMaxRnd - 1, by decide⟩ = 7 := by
  decide +kernel

/-- The first thread has got the first block. -/
def validSystem : System 2 where
  vars :=
    { initVars fun _ => ⟨0, -1⟩ with
      perThread := Function.update (fun _ => ⟨0, -1⟩) 0 ⟨0, 0⟩
      reqPerformed := 1
      isDirty := true }
  worker := Function.update (fun _ => .idle) 0 (taken validConfig (.file ⟨0, 0, 4, .write⟩))

/-- The first draw of the second thread is refused. -/
theorem run_validEvents : ∃ s, run (workerStep validConfig) (initSystem _ fun _ => ⟨0, -1⟩)
    validEvents = some s ∧ s.Holds (⟨0, by decide⟩ : Fin 2) ⟨0, 0, 4, .write⟩ ∧
      s.Holds (⟨1, by decide⟩ : Fin 2) ⟨0, 4, 4, .write⟩ := by
  have hfirst : retryLoop validConfig scaleDraw (initVars fun _ => ⟨0, -1⟩) 0 .write
      [⟨0, sbMaxRnd_pos⟩] = some ⟨0, 0, 4, .write⟩ := by
    simp only [retryLoop, validConfig, smallConfig, scaleDraw_zero_eight]
    rfl
  have hsecond : retryLoop validConfig scaleDraw validSystem.vars 1 .write
      [⟨0, sbMaxRnd_pos⟩, ⟨sbMaxRnd - 1, by decide⟩] = some ⟨0, 4, 4, .write⟩ := by
    simp only [retryLoop, validConfig, smallConfig, scaleDraw_zero_eight, scaleDraw_last_eight]
    rfl
  have hget : workerStep validConfig (initSystem _ fun _ => ⟨0, -1⟩)
      (.get (0 : Fin 2) [⟨0, sbMaxRnd_pos⟩] (.file ⟨0, 0, 4, .write⟩)) = some validSystem :=
    workerStep_get rfl (fileGetRequest_of_retry (by decide) (by decide) (by decide) hfirst)
  have hget' := workerStep_get (c := validConfig) (s := validSystem) (t := (1 : Fin 2)) rfl
    (fileGetRequest_of_retry (by decide) (by decide) (by decide) hsecond)
  refine ⟨_, Option.bind_eq_some_iff.mpr ⟨_, hget, Option.bind_eq_some_iff.mpr ⟨_, hget', rfl⟩⟩,
    ?_, ?_⟩
  · exact ⟨⟨_, rfl⟩, .inr rfl⟩
  · exact ⟨⟨_, rfl⟩, .inr rfl⟩

theorem workers_disjoint_small : Disjoint (Set.Ico (0 : ℤ) (0 + 4)) (Set.Ico (4 : ℤ) (4 + 4)) := by
  obtain ⟨s, hs, ht, ht'⟩ := run_validEvents
  exact workers_disjoint (c := validConfig) (g := { smallGlobals with validate := true })
    (o := { smallOptions with fileFsyncFreq := 0, fileTestMode := some "rndwr" }) rfl rfl
    (by decide) (by decide) nextDescriptor_spec (show filePrepare validConfig nextDescriptor [] = _
      from rfl) hs (fun heq => by cases heq) ht ht' rfl

end Sysbench.Fileio
