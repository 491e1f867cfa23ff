import Mathlib

/-! # Lock discipline

The lock skeleton of a function says which mutexes it locks and unlocks, with branches, loops,
calls and returns. `Typed` follows the mutexes that are held through a skeleton. Threads whose
functions are typed never ask for a mutex they hold, take nested mutexes in the order of their
ranks and release in a function what they took in it, and so no threads wait for each other in
a circle. Nothing in this file knows about a program.
-/
namespace Sysbench.Locks

inductive Cmd (M : Type*) where
  | skip
  | lock (m : M)
  | unlock (m : M)
  | seq (a b : Cmd M)
  | choice (a b : Cmd M)
  | loop (a : Cmd M)
  | call (body : Cmd M)
  | ret
  /-- return with an error upon which the callers end the process -/
  | fail

/-- A thread: the mutexes it holds, what is left of the function it is in, and for each caller
what is left of it and what was held at the call. -/
structure Thread (M : Type*) where
  held : List M
  code : List (Cmd M)
  callers : List (List (Cmd M) × List M)

variable {M : Type*}

def Thread.start (f : Cmd M) : Thread M := ⟨[], [.call f], []⟩

def Thread.wants (c : Thread M) : Option M :=
  match c.code with
  | .lock m :: _ => some m
  | _ => none

def Thread.Returning (c : Thread M) : Prop := c.code = [] ∨ ∃ k, c.code = .ret :: k

inductive Step [DecidableEq M] : Thread M → Thread M → Prop
  | skip {h k cs} : Step ⟨h, .skip :: k, cs⟩ ⟨h, k, cs⟩
  | lock {h m k cs} : Step ⟨h, .lock m :: k, cs⟩ ⟨m :: h, k, cs⟩
  | unlock {h m k cs} : Step ⟨h, .unlock m :: k, cs⟩ ⟨h.erase m, k, cs⟩
  | seq {h a b k cs} : Step ⟨h, .seq a b :: k, cs⟩ ⟨h, a :: b :: k, cs⟩
  | left {h a b k cs} : Step ⟨h, .choice a b :: k, cs⟩ ⟨h, a :: k, cs⟩
  | right {h a b k cs} : Step ⟨h, .choice a b :: k, cs⟩ ⟨h, b :: k, cs⟩
  | leave {h a k cs} : Step ⟨h, .loop a :: k, cs⟩ ⟨h, k, cs⟩
  | again {h a k cs} : Step ⟨h, .loop a :: k, cs⟩ ⟨h, a :: .loop a :: k, cs⟩
  | call {h f k cs} : Step ⟨h, .call f :: k, cs⟩ ⟨h, [f], (k, h) :: cs⟩
  | ret {h k k' h' cs} : Step ⟨h, .ret :: k, (k', h') :: cs⟩ ⟨h, k', cs⟩
  | done {h k' h' cs} : Step ⟨h, [], (k', h') :: cs⟩ ⟨h, k', cs⟩

variable (rank : M → ℕ)

/-- Code that starts with `h` held in a function called with `base` held, and leaves `h'` held
if it gets to its end. -/
inductive Typed : List M → List M → Cmd M → List M → Prop
  | skip {base h} : Typed base h .skip h
  | lock {base h m} (hm : ∀ x ∈ h, rank x < rank m) : Typed base h (.lock m) (m :: h)
  | unlock {base h m} : Typed base (m :: h) (.unlock m) h
  | seq {base h h' h'' a b} (ha : Typed base h a h') (hb : Typed base h' b h'') :
      Typed base h (.seq a b) h''
  | choice {base h h' a b} (ha : Typed base h a h') (hb : Typed base h b h') :
      Typed base h (.choice a b) h'
  | loop {base h a} (ha : Typed base h a h) : Typed base h (.loop a) h
  | call {base h f} (hf : Typed h h f h) : Typed base h (.call f) h
  | ret {base h'} : Typed base base .ret h'
  | fail {base h h'} : Typed base h .fail h'

/-- What is left of a function releases what it took. -/
inductive Rest : List M → List M → List (Cmd M) → Prop
  | nil {base} : Rest base base []
  | cons {base h h' c k} (hc : Typed rank base h c h') (hk : Rest base h' k) : Rest base h (c :: k)

/-- The callers go on with what was held at the call. -/
inductive Callers : List M → List (List (Cmd M) × List M) → Prop
  | nil : Callers [] []
  | cons {base base' k cs} (hk : Rest rank base' base k) (hcs : Callers base' cs) :
      Callers base ((k, base) :: cs)

/-- A thread that keeps to the discipline. -/
structure Disciplined (c : Thread M) : Prop where
  ok : ∃ base, Rest rank base c.held c.code ∧ Callers rank base c.callers

variable {rank} {c c' : Thread M}

theorem disciplined_start {f : Cmd M} (hf : Typed rank [] [] f []) :
    Disciplined rank (Thread.start f) :=
  ⟨[], .cons (.call hf) .nil, .nil⟩

/-- The mutexes in hand rank below the one that is asked for. -/
theorem Disciplined.rank_lt (hd : Disciplined rank c) {m x : M} (hm : c.wants = some m)
    (hx : x ∈ c.held) : rank x < rank m := by
  obtain ⟨base, hrest, -⟩ := hd.ok
  obtain ⟨held, code, callers⟩ := c
  cases hrest with
  | nil => cases hm
  | cons hc hk =>
    cases hc with
    | lock hlt =>
      cases hm
      exact hlt x hx
    | _ => cases hm

theorem Disciplined.not_mem (hd : Disciplined rank c) {m : M} (hm : c.wants = some m) :
    m ∉ c.held := fun hx => lt_irrefl _ (hd.rank_lt hm hx)

/-- What is held at a return is what was held at the call. -/
theorem Disciplined.returns (hd : Disciplined rank c) (hr : c.Returning) {k : List (Cmd M)}
    {entry : List M} {cs : List (List (Cmd M) × List M)} (hcs : c.callers = (k, entry) :: cs) :
    c.held = entry := by
  obtain ⟨base, hrest, hcallers⟩ := hd.ok
  obtain ⟨held, code, callers⟩ := c
  subst hcs
  have hbase : base = entry := by
    cases hcallers
    rfl
  rw [← hbase]
  rcases hr with hnil | ⟨k', hret⟩
  · subst hnil
    cases hrest
    rfl
  · subst hret
    cases hrest with
    | cons hc hk =>
      cases hc
      rfl

/-! ## Waiting -/

variable {T : Type*}

def WaitsFor (s : T → Thread M) (t t' : T) : Prop := ∃ m, (s t).wants = some m ∧ m ∈ (s t').held

/-- Along a chain of waiting threads the ranks of the wanted mutexes go up. -/
theorem WaitsFor.rank_lt {s : T → Thread M} (hs : ∀ t, Disciplined rank (s t)) {t t' : T}
    (h : Relation.TransGen (WaitsFor s) t t') {m m' : M} (hm : (s t).wants = some m)
    (hm' : (s t').wants = some m') : rank m < rank m' := by
  induction h generalizing m' with
  | single hw =>
    obtain ⟨x, hx, hheld⟩ := hw
    obtain rfl : x = m := Option.some.inj (hx.symm.trans hm)
    exact (hs _).rank_lt hm' hheld
  | tail _ hw ih =>
    obtain ⟨x, hx, hheld⟩ := hw
    exact (ih hx).trans ((hs _).rank_lt hm' hheld)

theorem no_cycle {s : T → Thread M} (hs : ∀ t, Disciplined rank (s t)) (t : T) :
    ¬ Relation.TransGen (WaitsFor s) t t := by
  intro h
  have hwants : ∃ m, (s t).wants = some m := by
    obtain ⟨t', hw, -⟩ := Relation.TransGen.head'_iff.mp h
    obtain ⟨m, hm, -⟩ := hw
    exact ⟨m, hm⟩
  obtain ⟨m, hm⟩ := hwants
  exact lt_irrefl _ (WaitsFor.rank_lt hs h hm hm)

section Runs

variable [DecidableEq M]

theorem Disciplined.step (hd : Disciplined rank c) (h : Step c c') : Disciplined rank c' := by
  obtain ⟨base, hrest, hcallers⟩ := hd.ok
  cases h with
  | skip =>
    obtain - | ⟨hc, hk⟩ := hrest
    cases hc
    exact ⟨base, hk, hcallers⟩
  | lock =>
    obtain - | ⟨hc, hk⟩ := hrest
    cases hc
    exact ⟨base, hk, hcallers⟩
  | unlock =>
    obtain - | ⟨hc, hk⟩ := hrest
    cases hc
    rw [List.erase_cons_head]
    exact ⟨base, hk, hcallers⟩
  | seq =>
    obtain - | ⟨hc, hk⟩ := hrest
    cases hc with
    | seq ha hb => exact ⟨base, .cons ha (.cons hb hk), hcallers⟩
  | left =>
    obtain - | ⟨hc, hk⟩ := hrest
    cases hc with
    | choice ha hb => exact ⟨base, .cons ha hk, hcallers⟩
  | right =>
    obtain - | ⟨hc, hk⟩ := hrest
    cases hc with
    | choice ha hb => exact ⟨base, .cons hb hk, hcallers⟩
  | leave =>
    obtain - | ⟨hc, hk⟩ := hrest
    cases hc with
    | loop ha => exact ⟨base, hk, hcallers⟩
  | again =>
    obtain - | ⟨hc, hk⟩ := hrest
    cases hc with
    | loop ha => exact ⟨base, .cons ha (.cons (.loop ha) hk), hcallers⟩
  | call =>
    obtain - | ⟨hc, hk⟩ := hrest
    cases hc with
    | call hf => exact ⟨_, .cons hf .nil, .cons hk hcallers⟩
  | ret =>
    dsimp only at hrest hcallers
    obtain - | ⟨hc, -⟩ := hrest
    cases hc
    obtain - | ⟨hk, hcs⟩ := hcallers
    exact ⟨_, hk, hcs⟩
  | done =>
    dsimp only at hrest hcallers
    cases hrest
    obtain - | ⟨hk, hcs⟩ := hcallers
    exact ⟨_, hk, hcs⟩

/-! ## Runs -/

variable [DecidableEq T]

/-- A thread takes a step; a mutex is locked only when nobody holds it. -/
inductive SystemStep (s : T → Thread M) : (T → Thread M) → Prop
  | step {t : T} {c : Thread M} (h : Step (s t) c)
      (hfree : ∀ m, (s t).wants = some m → ∀ t', m ∉ (s t').held) :
      SystemStep s (Function.update s t c)

def Reachable (s s' : T → Thread M) : Prop := Relation.ReflTransGen SystemStep s s'

theorem Reachable.disciplined {s s' : T → Thread M} (h : Reachable s s')
    (hs : ∀ t, Disciplined rank (s t)) (t : T) : Disciplined rank (s' t) := by
  induction h generalizing t with
  | refl => exact hs t
  | tail _ hstep ih =>
    cases hstep with
    | @step i c hc =>
      by_cases hit : t = i
      · subst hit
        rw [Function.update_self]
        exact (ih t).step hc
      · rw [Function.update_of_ne hit]
        exact ih t

/-- A step that locks nothing the thread holds itself. -/
def OwnStep (c c' : Thread M) : Prop := Step c c' ∧ ∀ m, c.wants = some m → m ∉ c.held

theorem OwnStep.of_wants (h : Step c c') (hc : c.wants = none) : OwnStep c c' :=
  ⟨h, fun _ hm => nomatch hc.symm.trans hm⟩

/-- A thread runs while the others stand still with empty hands. -/
theorem Reachable.alone {s : T → Thread M} {t : T} (hs : ∀ t' ≠ t, (s t').held = [])
    (h : Relation.ReflTransGen OwnStep (s t) c) : Reachable s (Function.update s t c) := by
  induction h with
  | refl =>
    rw [Function.update_eq_self]
    exact .refl
  | @tail c c' _ hstep ih =>
    apply ih.tail
    have hlast : SystemStep (Function.update s t c) (Function.update (Function.update s t c) t c') := by
      apply SystemStep.step
      · rw [Function.update_self]
        exact hstep.1
      · intro m hm t'
        rw [Function.update_self] at hm
        by_cases ht : t' = t
        · subst ht
          rw [Function.update_self]
          exact hstep.2 m hm
        · rw [Function.update_of_ne ht, hs t' ht]
          exact List.not_mem_nil
    rwa [Function.update_idem] at hlast

end Runs

/-! ## Rules for functions -/

def block (cs : List (Cmd M)) : Cmd M := cs.foldr .seq .skip

def anyOf (cs : List (Cmd M)) : Cmd M := cs.foldr .choice .skip

def maybe (c : Cmd M) : Cmd M := .choice c .skip

def holding (m : M) (cs : List (Cmd M)) : Cmd M := block [.lock m, block cs, .unlock m]

/-- Leave a section and the function, perhaps. -/
def maybeLeave (m : M) : Cmd M := maybe (block [.unlock m, .ret])

variable (rank)

def Below (r : ℕ) (h : List M) : Prop := ∀ x ∈ h, rank x < r

/-- Code without a return that locks nothing of rank below `r` and unlocks what it locks. -/
def Keeps (r : ℕ) (c : Cmd M) : Prop := ∀ ⦃base h⦄, Below rank r h → Typed rank base h c h

/-- Code of a function outside its sections. -/
def Body (r : ℕ) (c : Cmd M) : Prop := ∀ ⦃h⦄, Below rank r h → Typed rank h h c h

/-- Code of a function inside a section. -/
def Inside (m : M) (r : ℕ) (c : Cmd M) : Prop :=
  ∀ ⦃h⦄, Below rank r h → Typed rank h (m :: h) c (m :: h)

variable {rank} {r r' : ℕ} {m : M} {a b c : Cmd M} {cs : List (Cmd M)}

theorem Keeps.mono (hc : Keeps rank r' c) (hr : r ≤ r') : Keeps rank r c := fun _ _ hh =>
  hc fun x hx => (hh x hx).trans_le hr

theorem Keeps.skip : Keeps rank r .skip := fun _ _ _ => .skip

theorem Keeps.fail : Keeps rank r .fail := fun _ _ _ => .fail

theorem Keeps.seq (ha : Keeps rank r a) (hb : Keeps rank r b) : Keeps rank r (.seq a b) :=
  fun _ _ hh => .seq (ha hh) (hb hh)

theorem Keeps.choice (ha : Keeps rank r a) (hb : Keeps rank r b) : Keeps rank r (.choice a b) :=
  fun _ _ hh => .choice (ha hh) (hb hh)

theorem Keeps.loop (ha : Keeps rank r a) : Keeps rank r (.loop a) := fun _ _ hh => .loop (ha hh)

theorem Keeps.call (ha : Body rank r a) : Keeps rank r (.call a) := fun _ _ hh => .call (ha hh)

theorem Keeps.maybe (ha : Keeps rank r a) : Keeps rank r (maybe a) := ha.choice .skip

theorem Keeps.nil : Keeps rank r (block []) := .skip

theorem Keeps.cons (hc : Keeps rank r c) (hcs : Keeps rank r (block cs)) :
    Keeps rank r (block (c :: cs)) := hc.seq hcs

theorem Keeps.block_of_forall (h : ∀ c ∈ cs, Keeps rank r c) : Keeps rank r (block cs) := by
  induction cs with
  | nil => exact .nil
  | cons c cs ih =>
    obtain ⟨hc, hcs⟩ := List.forall_mem_cons.mp h
    exact hc.cons (ih hcs)

theorem Keeps.none : Keeps rank r (anyOf []) := .skip

theorem Keeps.alt (hc : Keeps rank r c) (hcs : Keeps rank r (anyOf cs)) :
    Keeps rank r (anyOf (c :: cs)) := hc.choice hcs

theorem Keeps.anyOf_of_forall (h : ∀ c ∈ cs, Keeps rank r c) : Keeps rank r (anyOf cs) := by
  induction cs with
  | nil => exact .none
  | cons c cs ih =>
    obtain ⟨hc, hcs⟩ := List.forall_mem_cons.mp h
    exact hc.alt (ih hcs)

theorem Keeps.body (hc : Keeps rank r c) : Body rank r c := fun _ hh => hc hh

theorem Body.ret : Body rank r .ret := fun _ _ => .ret

theorem Body.maybe (ha : Body rank r a) : Body rank r (maybe a) :=
  fun _ hh => .choice (ha hh) .skip

theorem Body.loop (ha : Body rank r a) : Body rank r (.loop a) := fun _ hh => .loop (ha hh)

theorem Body.nil : Body rank r (block []) := Keeps.nil.body

theorem Body.cons (hc : Body rank r c) (hcs : Body rank r (block cs)) :
    Body rank r (block (c :: cs)) := fun _ hh => .seq (hc hh) (hcs hh)

theorem Body.none : Body rank r (anyOf []) := Keeps.none.body

theorem Body.alt (hc : Body rank r c) (hcs : Body rank r (anyOf cs)) :
    Body rank r (anyOf (c :: cs)) := fun _ hh => .choice (hc hh) (hcs hh)

theorem Below.cons {h : List M} (hh : Below rank r h) (hr : r ≤ rank m + 1) :
    Below rank (rank m + 1) (m :: h) := by
  intro x hx
  rcases List.mem_cons.mp hx with rfl | hx
  · exact Nat.lt_succ_self _
  · exact (hh x hx).trans_le hr

theorem Keeps.holding (hr : r ≤ rank m) (h : Keeps rank (rank m + 1) (block cs)) :
    Keeps rank r (holding m cs) := by
  intro base held hh
  have hbelow : Below rank (rank m + 1) (m :: held) := hh.cons (hr.trans (Nat.le_succ _))
  have hin : Typed rank base (m :: held) (block cs) (m :: held) := h hbelow
  exact .seq (.lock fun x hx => (hh x hx).trans_le hr) (.seq hin (.seq .unlock .skip))

theorem Keeps.inside (hc : Keeps rank (rank m + 1) c) (hr : r ≤ rank m) : Inside rank m r c :=
  fun _ hh => hc (hh.cons (hr.trans (Nat.le_succ _)))

theorem Inside.maybeLeave : Inside rank m r (maybeLeave m) := fun _ _ =>
  .choice (.seq .unlock (.seq .ret .skip)) .skip

theorem Inside.nil : Inside rank m r (block []) := fun _ _ => .skip

theorem Inside.cons (hc : Inside rank m r c) (hcs : Inside rank m r (block cs)) :
    Inside rank m r (block (c :: cs)) := fun _ hh => .seq (hc hh) (hcs hh)

theorem Body.holding (hr : r ≤ rank m) (h : Inside rank m r (block cs)) :
    Body rank r (holding m cs) := fun _ hh =>
  .seq (.lock fun x hx => (hh x hx).trans_le hr) (.seq (h hh) (.seq .unlock .skip))

end Sysbench.Locks
