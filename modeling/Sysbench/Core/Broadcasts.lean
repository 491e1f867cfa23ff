import Sysbench.Core.TxSignals

/-! # Broadcasts on Windows

A broadcast keeps new waiters out with the block gate until the last of the old ones opens it. A
waiter that has been released by a signal does not open it, even if it is the last one.
-/
namespace Sysbench.Core

open Pool Runs

variable {T : Type*} [DecidableEq T]

/-- A thread that will still be released by the broadcast. -/
def WaitPlace.due : WaitPlace → Bool
  | .counting | .leaving | .blocked | .released _ => true
  | _ => false

/-- The last waiter behind a closed gate has been released by the broadcast, or somebody is about to
wait. -/
def Reopens (s : Sync T) (e : SyncEvent T) : Prop :=
  ∀ t, e = .uncount t → s.place t = .released .signal → s.cond.broadcastBlockEvent = false →
    s.cond.waiting = 1 → ∃ i, s.place i = .counting

/-- Behind a closed gate there is somebody to open it. -/
def Attending (s : Sync T) : Prop := s.cond.broadcastBlockEvent = false → ∃ t, (s.place t).due

/-- Nobody can open the closed gate. -/
def Jammed (s : Sync T) : Prop := s.cond.broadcastBlockEvent = false ∧ ∀ t, (s.place t).due = false

omit [DecidableEq T] in
theorem attending_iff {s : Sync T} : Attending s ↔ ¬ Jammed s := by
  simp [Attending, Jammed]

theorem WaitPlace.due_of_counted {p : WaitPlace} (h : p.counted ≠ 0) : p.due := by
  cases p <;> simp_all [WaitPlace.counted, WaitPlace.due]

theorem WaitPlace.counted_of_due {p : WaitPlace} (h : p.due) (hne : p ≠ .counting) :
    p.counted = 1 := by
  cases p <;> simp_all [WaitPlace.counted, WaitPlace.due]

section Places

variable {s u : Sync T} {e : SyncEvent T}

/-- The broadcast and the gate change together. -/
theorem paired_step (h : s.cond.events .broadcast = !s.cond.broadcastBlockEvent)
    (hm : SyncMoved s e u) : u.cond.events .broadcast = !u.cond.broadcastBlockEvent := by
  cases hm with
  | @wake t result => cases result <;> simp [Cond.take, h]
  | @uncount t result =>
    by_cases hlast : s.cond.waiting - 1 = 0 ∧ result = .broadcast <;>
      simp [Cond.stopWaiting, hlast, h]
  | signal => by_cases hw : 0 < s.cond.waiting <;> simp [pthreadCondSignal, hw, h]
  | broadcast => by_cases hw : 0 < s.cond.waiting <;> simp [pthreadCondBroadcast, hw, h]
  | _ => exact h

theorem inside_step (h : ∀ t, (s.place t).inMutex → s.mutex = some t) (hm : SyncMoved s e u) (i : T)
    (hi : (u.place i).inMutex) : u.mutex = some i := by
  have hfree : s.mutex = none → ¬ (s.place i).inMutex := fun hnone hin => by
    have hsome := h i hin
    rw [hnone] at hsome
    cases hsome
  have howner : ∀ {t}, s.mutex = some t → (s.place i).inMutex → i = t := fun ht hin =>
    Option.some.inj ((h i hin).symm.trans ht)
  by_cases hactor : i = e.actor
  · subst hactor
    cases hm with
    | lock => simp [SyncEvent.actor]
    | wait hp hm => exact hm
    | unlock hp => simp_all [SyncEvent.actor, WaitPlace.inMutex]
    | passGate hp => exact h _ (by simp [SyncEvent.actor, hp, WaitPlace.inMutex])
    | count hp => exact h _ (by simp [SyncEvent.actor, hp, WaitPlace.inMutex])
    | leave | wake | uncount | enter => simp [SyncEvent.actor, WaitPlace.inMutex] at hi
    | signal | broadcast => exact h _ hi
  · obtain ⟨hplace, hmutex⟩ := hm.other hactor
    rw [hplace] at hi
    exact hmutex.mpr (h i hi)

end Places

section Gate

variable [Fintype T] {s u v : Sync T} {e : SyncEvent T} {t a i : T} {es fs : List (SyncEvent T)}

structure GateInv (s : Sync T) : Prop where
  counted : WaitersCounted s
  /-- the gate is closed while the broadcast is on -/
  paired : s.cond.events .broadcast = !s.cond.broadcastBlockEvent
  inside : ∀ t, (s.place t).inMutex → s.mutex = some t

omit [DecidableEq T] in
theorem gateInv_init : GateInv (initSync T) where
  counted := waitersCounted_init
  paired := rfl
  inside t h := by cases h

theorem GateInv.step (h : GateInv s) (he : syncStep s e = some u) : GateInv u where
  counted := h.counted.step he
  paired := paired_step h.paired (syncStep_moved he)
  inside := inside_step h.inside (syncStep_moved he)

theorem gateInv_of_run (hr : run syncStep (initSync T) es = some s) : GateInv s :=
  run_preserves (I := GateInv) (fun _ _ _ h he => h.step he) gateInv_init hr

omit [DecidableEq T] in
theorem exists_counted (h : 0 < total WaitPlace.counted s.place) : ∃ i, (s.place i).counted ≠ 0 := by
  obtain ⟨i, -, hi⟩ := Finset.exists_ne_zero_of_sum_ne_zero h.ne'
  exact ⟨i, hi⟩

theorem exists_other (h : 2 ≤ total WaitPlace.counted s.place) (t : T) :
    ∃ i, i ≠ t ∧ (s.place i).counted ≠ 0 := by
  have hsplit := Finset.add_sum_erase Finset.univ (fun i => (s.place i).counted) (Finset.mem_univ t)
  have hone : (s.place t).counted ≤ 1 := by
    cases s.place t <;> simp [WaitPlace.counted]
  have hrest : ∑ i ∈ Finset.univ.erase t, (s.place i).counted ≠ 0 := by
    unfold total at h
    omega
  obtain ⟨i, hi, hcounted⟩ := Finset.exists_ne_zero_of_sum_ne_zero hrest
  exact ⟨i, Finset.ne_of_mem_erase hi, hcounted⟩

theorem two_le_counted (hne : i ≠ t) (hi : (s.place i).counted ≠ 0) (ht : (s.place t).counted ≠ 0) :
    2 ≤ total WaitPlace.counted s.place := by
  have hsplit := Finset.add_sum_erase Finset.univ (fun i => (s.place i).counted) (Finset.mem_univ t)
  have hle := Finset.single_le_sum (f := fun i => (s.place i).counted) (fun _ _ => Nat.zero_le _)
    (Finset.mem_erase.mpr ⟨hne, Finset.mem_univ i⟩)
  unfold total
  omega

omit [DecidableEq T] in
theorem GateInv.waiting_pos (h : GateInv s) (ht : (s.place t).counted = 1) : 0 < s.cond.waiting := by
  have hle := Finset.single_le_sum (f := fun i => (s.place i).counted) (fun _ _ => Nat.zero_le _)
    (Finset.mem_univ t)
  rw [ht] at hle
  exact hle.trans h.counted.ge

theorem Jammed.step (h : GateInv s) (hj : Jammed s) (hm : SyncMoved s e u) :
    Jammed u ∧ (∀ t, e ≠ .passGate t) ∧ ∀ t, s.place t = .gate ∨ e = .wait t → u.place t = .gate := by
  obtain ⟨hgate, hdue⟩ := hj
  have hwaiting : s.cond.waiting = 0 := by
    rw [h.counted]
    refine total_eq_zero fun i => ?_
    by_contra hi
    exact absurd (WaitPlace.due_of_counted hi) (by simp [hdue i])
  have hwalk : ∀ {t p}, p.due = false → ∀ i, ((s.walk t p).place i).due = false := by
    intro t p hp i
    by_cases hi : i = t
    · simpa [hi] using hp
    · rw [s.walk_other p hi]
      exact hdue i
  have hstuck : ∀ {t p}, s.place t = p → p.due = true → False := by
    intro t p hp hpdue
    have hnot := hdue t
    rw [hp, hpdue] at hnot
    cases hnot
  cases hm with
  | lock | unlock => exact ⟨⟨hgate, hdue⟩, by simp, fun t ht => ht.resolve_right (by simp)⟩
  | @wait t hp =>
    refine ⟨⟨hgate, hwalk rfl⟩, by simp, fun i hi => ?_⟩
    by_cases hit : i = t
    · simp [hit]
    · rw [s.walk_other _ hit]
      exact hi.resolve_right fun heq => hit (SyncEvent.wait.inj heq).symm
  | passGate hp hg =>
    rw [hgate] at hg
    cases hg
  | count hp | leave hp | wake hp | uncount hp => exact (hstuck hp rfl).elim
  | @enter t hp =>
    refine ⟨⟨hgate, hwalk rfl⟩, by simp, fun i hi => ?_⟩
    have hin : s.place i = .gate := hi.resolve_right (by simp)
    have hit : i ≠ t := by
      rintro rfl
      rw [hp] at hin
      cases hin
    exact (s.walk_other _ hit).trans hin
  | signal =>
    have hsame : pthreadCondSignal s.cond = s.cond := by simp [pthreadCondSignal, hwaiting]
    rw [hsame]
    exact ⟨⟨hgate, hdue⟩, by simp, fun t ht => ht.resolve_right (by simp)⟩
  | broadcast =>
    have hsame : pthreadCondBroadcast s.cond = s.cond := by simp [pthreadCondBroadcast, hwaiting]
    rw [hsame]
    exact ⟨⟨hgate, hdue⟩, by simp, fun t ht => ht.resolve_right (by simp)⟩

theorem Attending.step (h : GateInv s) (ha : Attending s) (hguard : Reopens s e)
    (hm : SyncMoved s e u) : Attending u := by
  intro hgate
  have hkeep : s.cond.broadcastBlockEvent = false → ∀ t p, (s.place t).due = false ∨ p.due →
      ∃ i, ((s.walk t p).place i).due := by
    intro hclosed t p hp
    obtain ⟨i, hi⟩ := ha hclosed
    by_cases hit : i = t
    · subst hit
      refine ⟨i, ?_⟩
      simpa [hi] using hp
    · exact ⟨i, by rwa [s.walk_other p hit]⟩
  cases hm with
  | lock | unlock => exact ha hgate
  | wait hp | enter hp => exact hkeep hgate _ _ (.inl (by rw [hp]; rfl))
  | passGate | count | leave => exact hkeep hgate _ _ (.inr rfl)
  | @wake t result =>
    refine hkeep ?_ _ _ (.inr rfl)
    cases result <;> exact hgate
  | @uncount t result hp =>
    have hother : ∀ i, i ≠ t → (s.place i).due → ∃ i, ((s.walk t .entering).place i).due :=
      fun i hne hi => ⟨i, by rwa [s.walk_other _ hne]⟩
    have hone := h.waiting_pos (t := t) (by rw [hp]; rfl)
    simp only [Cond.stopWaiting] at hgate
    split_ifs at hgate with hlast
    rcases (Nat.succ_le_of_lt hone).eq_or_lt with heq | htwo
    · have hresult : result = .signal := by
        cases result with
        | signal => rfl
        | broadcast => exact absurd ⟨by omega, rfl⟩ hlast
      rw [hresult] at hp
      obtain ⟨i, hi⟩ := hguard t rfl hp hgate heq.symm
      refine hother i ?_ (by rw [hi]; rfl)
      rintro rfl
      rw [hi] at hp
      cases hp
    · rw [h.counted] at htwo
      obtain ⟨i, hne, hi⟩ := exists_other htwo t
      exact hother i hne (WaitPlace.due_of_counted hi)
  | signal =>
    have hsame : (pthreadCondSignal s.cond).broadcastBlockEvent = s.cond.broadcastBlockEvent := by
      unfold pthreadCondSignal
      split <;> rfl
    exact ha (hsame.symm.trans hgate)
  | broadcast =>
    by_cases hwaiting : 0 < s.cond.waiting
    · rw [h.counted] at hwaiting
      obtain ⟨i, hi⟩ := exists_counted hwaiting
      exact ⟨i, WaitPlace.due_of_counted hi⟩
    · simp only [pthreadCondBroadcast, if_neg hwaiting] at hgate
      exact ha hgate

/-- Only a last waiter that has been released by a signal leaves the gate closed for ever. -/
theorem attending_step_iff (h : GateInv s) (he : syncStep s e = some u) :
    Attending u ↔ Attending s ∧ Reopens s e := by
  have hm := syncStep_moved he
  constructor
  · intro ha
    refine ⟨?_, ?_⟩
    · by_contra hnot
      rw [attending_iff, not_not] at hnot
      exact attending_iff.mp ha (hnot.step h hm).1
    · rintro t rfl hp hgate hwaiting
      cases hm with
      | @uncount _ result hresult =>
        rw [hp] at hresult
        cases hresult
        have hclosed : (s.cond.stopWaiting .signal).broadcastBlockEvent = false := by
          simpa [Cond.stopWaiting] using hgate
        obtain ⟨i, hi⟩ := ha hclosed
        have hne : i ≠ t := by
          rintro rfl
          simp [WaitPlace.due] at hi
        dsimp only at hi
        rw [s.walk_other _ hne] at hi
        refine ⟨i, ?_⟩
        by_contra hcounting
        have htwo := two_le_counted (s := s) hne
          (by rw [WaitPlace.counted_of_due hi hcounting]; exact one_ne_zero)
          (by rw [hp]; exact one_ne_zero)
        rw [← h.counted, hwaiting] at htwo
        omega
  · rintro ⟨ha, hguard⟩
    exact ha.step h hguard hm

theorem attending_iff_guarded (hr : run syncStep (initSync T) es = some s) :
    Attending s ↔ Guarded syncStep Reopens (initSync T) es :=
  guarded_iff (P := fun _ s => Attending s) (fun h => by cases h)
    (fun _ _ _ _ hs he => attending_step_iff (gateInv_of_run hs) he) hr

omit [Fintype T] in
theorem Sync.Quiescent.events_off (hq : s.Quiescent) (hp : s.place t = .blocked) (result : CondEvent) :
    s.cond.events result = false := by
  by_contra hon
  rw [Bool.not_eq_false] at hon
  obtain ⟨r, hr⟩ : ∃ r, waitForMultipleObjects s.cond = some r := by
    unfold waitForMultipleObjects
    cases result with
    | signal => exact ⟨.signal, if_pos hon⟩
    | broadcast => by_cases hs : s.cond.events .signal <;> simp [hs, hon]
  have hstep := hq (.wake t r) rfl
  simp [syncStep, hp, hr] at hstep

/-- Whoever has something due can go on. -/
theorem Sync.Quiescent.gate_iff (hq : s.Quiescent) (h : GateInv s) :
    s.cond.broadcastBlockEvent = true ↔ Attending s := by
  constructor
  · intro hopen hclosed
    rw [hopen] at hclosed
    cases hclosed
  · intro ha
    by_contra hclosed
    rw [Bool.not_eq_true] at hclosed
    obtain ⟨t, ht⟩ := ha hclosed
    have hstep : ∀ e : SyncEvent T, e.isInside → (syncStep s e).isSome → False := fun e he hsome => by
      rw [hq e he] at hsome
      cases hsome
    cases hp : s.place t with
    | counting => exact hstep (.count t) rfl (by simp [syncStep, hp])
    | leaving =>
      have hm := h.inside t (by rw [hp]; rfl)
      exact hstep (.leave t) rfl (by simp [syncStep, hp, hm])
    | blocked =>
      have hon : s.cond.events .broadcast = true := by simp [h.paired, hclosed]
      exact absurd hon (by simp [hq.events_off hp])
    | released result => exact hstep (.uncount t) rfl (by simp [syncStep, hp])
    | outside | gate | entering => simp [hp, WaitPlace.due] at ht

/-- Who is blocked when a broadcast is made has been released, or finds the broadcast on. -/
theorem broadcast_pending (h : GateInv s) (hp : s.place t = .blocked)
    (hon : s.cond.events .broadcast = true) (hr : run syncStep s fs = some u) :
    (∃ result, .wake t result ∈ fs) ∨ u.place t = .blocked ∧ u.cond.events .broadcast = true := by
  refine (run_invariant (I := fun fs u => GateInv u ∧ ((∃ result, .wake t result ∈ fs) ∨
    u.place t = .blocked ∧ u.cond.events .broadcast = true)) ⟨h, .inr ⟨hp, hon⟩⟩ ?_ hr).2
  rintro fs v e u - ⟨hv, hpending⟩ he
  refine ⟨hv.step he, ?_⟩
  rcases hpending with ⟨result, hmem⟩ | ⟨hp, hon⟩
  · exact .inl ⟨result, List.mem_append_left _ hmem⟩
  by_cases hwake : ∃ result, e = .wake t result
  · obtain ⟨result, rfl⟩ := hwake
    exact .inl ⟨result, List.mem_append_right _ (List.mem_singleton.mpr rfl)⟩
  right
  have hm := syncStep_moved he
  have hactor : t ≠ e.actor := by
    rintro rfl
    cases hm <;> simp_all [SyncEvent.actor]
  refine ⟨(hm.other hactor).1.trans hp, ?_⟩
  cases hm with
  | @wake i result => cases result <;> simp [Cond.take, hon]
  | @uncount i result hi =>
    -- the blocked thread is counted too, so that this one is not the last
    have htwo := two_le_counted (s := v) (i := i) (t := t) (fun h => hactor h.symm)
      (by rw [hi]; exact one_ne_zero) (by rw [hp]; exact one_ne_zero)
    rw [← hv.counted] at htwo
    have hlast : ¬ (v.cond.waiting - 1 = 0 ∧ result = .broadcast) := by omega
    simp [Cond.stopWaiting, hlast, hon]
  | signal => by_cases hw : 0 < v.cond.waiting <;> simp [pthreadCondSignal, hw, hon]
  | broadcast => by_cases hw : 0 < v.cond.waiting <;> simp [pthreadCondBroadcast, hw, hon]
  | _ => exact hon

/-- In a state in which no call of `pthread_cond_wait` can go on, every thread that was blocked at a
broadcast has been released. The block gate is open there if and only if no last waiter was released
by a signal while the gate was closed; otherwise no later call ever comes through it. -/
theorem broadcasts_release (hr : run syncStep (initSync T) es = some s) (hq : s.Quiescent) :
    (∀ pre a fs v t, es = pre ++ .broadcast a :: fs → run syncStep (initSync T) pre = some v →
      v.place t = .blocked → ∃ result, .wake t result ∈ fs) ∧
    (s.cond.broadcastBlockEvent = true ↔ Guarded syncStep Reopens (initSync T) es) ∧
    (s.cond.broadcastBlockEvent = false → ∀ fs u, run syncStep s fs = some u →
      (∀ t, .passGate t ∉ fs) ∧ ∀ t, s.place t = .gate ∨ .wait t ∈ fs → u.place t = .gate) := by
  have hinv := gateInv_of_run hr
  refine ⟨fun pre a fs v t hes hpre hp => ?_, ?_, fun hclosed fs u hfs => ?_⟩
  · subst hes
    obtain ⟨v', hv', hrest⟩ := run_append_iff.mp hr
    cases hpre.symm.trans hv'
    rw [run_cons, Option.bind_eq_some_iff] at hrest
    obtain ⟨w, hw, hfs⟩ := hrest
    have hv := gateInv_of_run hpre
    have hwaiting := hv.waiting_pos (t := t) (by rw [hp]; rfl)
    have hinvw := hv.step hw
    cases syncStep_moved hw with
    | broadcast =>
      have hon : (pthreadCondBroadcast v.cond).events .broadcast = true := by
        simp [pthreadCondBroadcast, hwaiting]
      rcases broadcast_pending hinvw hp hon hfs with hwake | ⟨hblocked, hend⟩
      · exact hwake
      · rw [hq.events_off hblocked] at hend
        cases hend
  · rw [hq.gate_iff hinv, attending_iff_guarded hr]
  · have hjam : Jammed s := by
      rw [← not_not (a := Jammed s), ← attending_iff, ← hq.gate_iff hinv, hclosed]
      exact Bool.false_ne_true
    refine (run_invariant (I := fun fs u => GateInv u ∧ Jammed u ∧ (∀ t, .passGate t ∉ fs) ∧
      ∀ t, s.place t = .gate ∨ .wait t ∈ fs → u.place t = .gate)
      ⟨hinv, hjam, fun _ h => (by cases h), fun t ht => ht.resolve_right (by simp)⟩ ?_ hfs).2.2
    rintro fs v e u - ⟨hv, hjam, hpass, hgate⟩ he
    obtain ⟨hjam', hne, hstay⟩ := hjam.step hv (syncStep_moved he)
    refine ⟨hv.step he, hjam', fun t ht => ?_, fun t ht => hstay t ?_⟩
    · rcases List.mem_append.mp ht with ht | ht
      · exact hpass t ht
      · exact hne t (List.mem_singleton.mp ht).symm
    · rcases ht with ht | ht
      · exact .inl (hgate t (.inl ht))
      · rcases List.mem_append.mp ht with ht | ht
        · exact .inl (hgate t (.inr ht))
        · exact .inr (List.mem_singleton.mp ht).symm

end Gate

omit [DecidableEq T] in
/-- The only waiter finds a signal and a broadcast, and takes the signal. -/
def signalledLast (i j : T) : List (SyncEvent T) :=
  [.lock i, .wait i, .passGate i, .count i, .leave i, .signal j, .broadcast j, .wake i .signal,
    .uncount i, .enter i, .unlock i]

theorem broadcasts_release_signalled :
    ∃ s, run syncStep (initSync (Fin 2)) (signalledLast 0 1) = some s ∧
      ∀ fs u, run syncStep s fs = some u → ∀ t, .wait t ∈ fs → u.place t = .gate := by
  have hquiet := quiescent_of_places
    (s := (run syncStep (initSync (Fin 2)) (signalledLast 0 1)).get rfl) (by decide)
  have hrun : run syncStep (initSync (Fin 2)) (signalledLast 0 1) = some _ := rfl
  have hlaw := (broadcasts_release hrun hquiet).2.2 rfl
  exact ⟨_, rfl, fun fs u hr t ht => (hlaw fs u hr).2 t (.inr ht)⟩

end Sysbench.Core
