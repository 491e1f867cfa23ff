import Sysbench.Database.LuaParams

/-! # Positions of parameters

A parameter of a Lua statement stands where the traversal of its table has met it, and is looked
up again under its key. The value of a key reaches the placeholder of this number only if the
traversal keeps the order of the keys, or meets an equal value in its place.
-/
namespace Sysbench.Database

open Bytes CStrings Words Runs

/-- How a driver finds the end of a string. -/
inductive StringEnd where
  | terminator
  | dataLen

/-- Like `byLength`, but for an empty string no pointer is followed. -/
def BindEntry.byDataLen (e : BindEntry) (p : LuaBind) : Option LuaValue :=
  match p.slot with
  | .int _ _ => e.byLength p
  | .char c =>
    if e.char ∧ e.dataLen ∧ c.buflen = 0 ∧ ¬ (e.isNull && p.isNull) then some (.string [])
    else e.byLength p

def StringEnd.read : StringEnd → BindEntry → LuaBind → Option LuaValue
  | .terminator => BindEntry.byTerminator
  | .dataLen => BindEntry.byDataLen

/-- The driver finds the value in the array that it took last, where the placeholder with `i`
others before it is looked up. -/
def Receives (ending : StringEnd) (s : LuaStmt) (i : ℕ) (v : LuaValue) : Prop :=
  ∃ entries e p, s.bound = some entries ∧ entries[i]? = some e ∧ s.params[i]? = some p ∧
    ending.read e p = some v

/-- The keys `1..n` in the order of a traversal. -/
def Enumerates (n : ℕ) (order : List ℤ) : Prop :=
  order.Perm ((List.range n).map fun i : ℕ => (i : ℤ) + 1)

/-- The value can be stored in a parameter of its own type and read back. -/
def Sendable (ending : StringEnd) : LuaValue → Prop
  | .number x => -2 ^ 31 ≤ x ∧ x < 2 ^ 31
  | .string bytes =>
    match ending with
    | .terminator => False
    | .dataLen => strncpy bytes bytes.length = bytes
  | _ => False

/-- An array with strings is given to the driver when one of them needs room. -/
def GivesArray (params : ℤ → LuaValue) (n : ℕ) : Prop :=
  (∃ i < n, ∃ bytes, params (i + 1) = .string bytes) →
    ∃ i < n, ∃ b bytes, params (i + 1) = .string (b :: bytes)

/-! ## One parameter -/

section Parameter

variable {lua : LuaConversions} {ending : StringEnd}

/-- What a driver reads after the value has been stored for the first time. -/
def received (lua : LuaConversions) (ending : StringEnd) : LuaValue → Option LuaValue
  | .number x => some (.number (lua.storeInt x).toInt)
  | .string bytes =>
    match ending with
    | .terminator => (readString (strncpy bytes bytes.length)).map fun s => .string s.chars
    | .dataLen => some (.string (strncpy bytes bytes.length))
  | _ => none

theorem strncpy_length (bytes : List Byte) : strncpy bytes bytes.length =
    bytes.takeWhile (· ≠ 0) ++
      List.replicate (bytes.length - (bytes.takeWhile (· ≠ 0)).length) 0 := by
  have hle : (bytes.takeWhile (· ≠ 0)).length ≤ bytes.length := (List.takeWhile_sublist _).length_le
  rw [strncpy, List.take_of_length_le hle]

theorem strncpy_of_noNul {bytes : List Byte} (h : (0 : Byte) ∉ bytes) :
    strncpy bytes bytes.length = bytes := by
  have hall : bytes.takeWhile (· ≠ 0) = bytes := by
    refine List.takeWhile_eq_self_iff.mpr fun b hb => ?_
    rw [decide_eq_true_eq]
    exact ne_of_mem_of_not_mem hb h
  rw [strncpy_length, hall, Nat.sub_self, List.replicate_zero, List.append_nil]

theorem strncpy_strncpy (bytes : List Byte) :
    strncpy (strncpy bytes bytes.length) (strncpy bytes bytes.length).length =
      strncpy bytes bytes.length := by
  have hstart : (strncpy bytes bytes.length).takeWhile (· ≠ 0) = bytes.takeWhile (· ≠ 0) := by
    have hall : ∀ b ∈ bytes.takeWhile (· ≠ 0), decide (b ≠ 0) = true := by
      intro b hb
      simpa using List.mem_takeWhile_imp hb
    rw [strncpy_length, List.takeWhile_append_of_pos hall]
    cases bytes.length - (bytes.takeWhile (· ≠ 0)).length with
    | zero => simp
    | succ m => simp [List.replicate_succ]
  rw [strncpy_length (strncpy bytes bytes.length), hstart, length_strncpy]
  exact (strncpy_length bytes).symm

theorem readString_of_noNul {bytes : List Byte} (h : (0 : Byte) ∉ bytes) :
    readString bytes = none := if_neg h

theorem received_eq_self_iff {v : LuaValue} :
    received lua ending v = some v ↔ Sendable ending v := by
  cases v with
  | number x =>
    rw [received, Option.some.injEq, LuaValue.number.injEq, toInt_storeInt_iff, Sendable]
  | string bytes =>
    cases ending with
    | terminator =>
      refine iff_of_false (fun h => ?_) id
      obtain ⟨s, hs, hchars⟩ := Option.map_eq_some_iff.mp h
      obtain rfl := LuaValue.string.inj hchars
      rw [strncpy_of_noNul s.noNul, readString_of_noNul s.noNul] at hs
      cases hs
    | dataLen => rw [received, Option.some.injEq, LuaValue.string.injEq, Sendable]
  | nil => exact iff_of_false nofun id
  | other => exact iff_of_false nofun id

/-- What has been received is received again or not at all. -/
theorem received_stable {v w : LuaValue} (h : received lua ending v = some w) :
    received lua ending w = some w ∨ received lua ending w = none := by
  cases v with
  | number x =>
    obtain rfl := Option.some.inj h
    left
    rw [received, Option.some.injEq, LuaValue.number.injEq, toInt_storeInt_iff]
    exact ⟨by simpa using BitVec.le_toInt (lua.storeInt x),
      by simpa using BitVec.toInt_lt (x := lua.storeInt x)⟩
  | string bytes =>
    cases ending with
    | terminator =>
      obtain ⟨s, -, rfl⟩ := Option.map_eq_some_iff.mp h
      right
      rw [received, strncpy_of_noNul s.noNul, readString_of_noNul s.noNul, Option.map_none]
    | dataLen =>
      obtain rfl := Option.some.inj h
      left
      rw [received, strncpy_strncpy]
  | nil => cases h
  | other => cases h

end Parameter

/-! ## All parameters -/

section Table

variable {lua : LuaConversions} {junk : BitVec 32} {params : ℤ → LuaValue} {order : List ℤ}
  {ps : List LuaBind}

theorem newBuf_length : ([] : List Byte).length ≤ 0 := le_rfl

def newBuf : CharBuf := ⟨none, [], 0, newBuf_length⟩

/-- The parameter of a key after its value has been stored. -/
inductive Holds (lua : LuaConversions) (params : ℤ → LuaValue) (k : ℤ) : LuaBind → Prop
  | number {x : ℤ} (hvalue : params k = .number x) :
      Holds lua params k ⟨k, .int 0 (lua.storeInt x), false⟩
  | string {bytes : List Byte} {place : ℕ} (hvalue : params k = .string bytes) :
      Holds lua params k ⟨k, .char (newBuf.store bytes place).1, false⟩

theorem newBuf_store_cons (b : Byte) (bytes : List Byte) (place : ℕ) :
    newBuf.store (b :: bytes) place =
      (⟨some place, strncpy (b :: bytes) (b :: bytes).length, (b :: bytes).length, by simp⟩,
        true) :=
  if_pos (Nat.succ_pos _)

theorem read_rebound {k : ℤ} {c : CharBuf} (haddr : c.addr.isSome)
    (str : CharBuf → Option (List Byte)) :
    BindEntry.read str (rebindEntry ⟨k, .char c, false⟩) ⟨k, .char c, false⟩ =
      (str c).map .string := by
  unfold rebindEntry BindEntry.read
  dsimp only
  rw [Bool.and_false, if_neg Bool.false_ne_true, if_pos ⟨haddr, rfl⟩]

theorem byDataLen_rebound {k : ℤ} {c : CharBuf} (haddr : c.addr.isSome) (hlen : c.buflen ≠ 0) :
    BindEntry.byDataLen (rebindEntry ⟨k, .char c, false⟩) ⟨k, .char c, false⟩ =
      some (.string (c.bytes.take c.buflen)) := by
  unfold BindEntry.byDataLen
  dsimp only
  rw [if_neg fun h => hlen h.2.2.1, BindEntry.byLength, read_rebound haddr]
  rfl

theorem Holds.read {k : ℤ} {p : LuaBind} (h : Holds lua params k p) (ending : StringEnd) :
    ending.read (rebindEntry p) p = received lua ending (params k) := by
  cases h with
  | number hvalue =>
    rw [hvalue]
    cases ending <;> rfl
  | @string bytes place hvalue =>
    rw [hvalue]
    cases bytes with
    | nil => cases ending <;> rfl
    | cons b bytes =>
      rw [newBuf_store_cons]
      cases ending with
      | terminator =>
        rw [StringEnd.read, BindEntry.byTerminator, read_rebound rfl, Option.map_map]
        rfl
      | dataLen =>
        have hlen := (length_strncpy (b :: bytes) (b :: bytes).length).le
        rw [StringEnd.read, byDataLen_rebound rfl (Nat.succ_ne_zero _), List.take_of_length_le hlen]
        rfl

def LuaValue.isString : LuaValue → Bool
  | .string _ => true
  | _ => false

/-- The value needs room in its buffer. -/
def LuaValue.needsRoom : LuaValue → Bool
  | .string (_ :: _) => true
  | _ => false

theorem isString_iff {v : LuaValue} : v.isString = true ↔ ∃ bytes, v = .string bytes := by
  cases v <;> simp [LuaValue.isString]

theorem needsRoom_iff {v : LuaValue} :
    v.needsRoom = true ↔ ∃ b bytes, v = .string (b :: bytes) := by
  cases v with
  | string bytes => cases bytes <;> simp [LuaValue.needsRoom]
  | number x => simp [LuaValue.needsRoom]
  | nil => simp [LuaValue.needsRoom]
  | other => simp [LuaValue.needsRoom]

theorem newParam_store (lua : LuaConversions) {k : ℤ} {p : LuaBind}
    (h : newParam junk (k, params k) = some p) (place : ℕ) :
    (p.store lua (params p.id) place).2 = some (params k).needsRoom ∧
      Holds lua params k (p.store lua (params p.id) place).1 ∧
      p.isChar = (params k).isString ∧ ((params k).isString = false →
        firstEntry p = rebindEntry (p.store lua (params p.id) place).1) := by
  cases hvalue : params k with
  | number x =>
    rw [hvalue] at h
    obtain rfl := Option.some.inj h
    dsimp only
    rw [hvalue]
    exact ⟨rfl, .number hvalue, rfl, fun _ => rfl⟩
  | string bytes =>
    rw [hvalue] at h
    obtain rfl := Option.some.inj h
    dsimp only
    rw [hvalue]
    refine ⟨?_, .string hvalue, rfl, nofun⟩
    cases bytes <;> rfl
  | nil =>
    rw [hvalue] at h
    cases h
  | other =>
    rw [hvalue] at h
    cases h

theorem storeParams_new (lua : LuaConversions)
    (h : (order.map fun k => (k, params k)).mapM (newParam junk) = some ps)
    (call : ExecuteCall) (hcall : call.table = params) (i : ℕ) :
    (storeParams lua call i ps).2 = some (order.any fun k => (params k).needsRoom) ∧
      List.Forall₂ (Holds lua params) order (storeParams lua call i ps).1 ∧
      ps.any LuaBind.isChar = (order.any fun k => (params k).isString) ∧
      ((order.any fun k => (params k).isString) = false →
        ps.map firstEntry = (storeParams lua call i ps).1.map rebindEntry) := by
  induction order generalizing i ps with
  | nil =>
    cases h
    exact ⟨rfl, .nil, rfl, fun _ => rfl⟩
  | cons k order ih =>
    rw [List.map_cons, List.mapM_cons] at h
    obtain ⟨p, hp, h⟩ := Option.bind_eq_some_iff.mp h
    obtain ⟨qs, hqs, h⟩ := Option.bind_eq_some_iff.mp h
    obtain rfl := Option.some.inj h
    obtain ⟨hgrown, hholds, hchar, hfirst⟩ := newParam_store lua hp (call.place i)
    obtain ⟨hrest, hall, hchars, hfirsts⟩ := ih hqs (i + 1)
    rw [← hcall] at hgrown hholds hfirst
    rcases storeParams_cons lua call i p qs with ⟨hnone, -⟩ | ⟨grown, hsome, hstore⟩
    · rw [hgrown] at hnone
      cases hnone
    · rw [hgrown] at hsome
      obtain rfl := Option.some.inj hsome
      rw [hstore, List.any_cons, List.any_cons, List.any_cons, hrest]
      refine ⟨?_, ?_, ?_, ?_⟩
      · rw [hcall]
        rfl
      · rw [hcall] at hholds ⊢
        exact .cons hholds hall
      · rw [hchar, hchars]
      · intro hno
        rw [Bool.or_eq_false_iff] at hno
        rw [List.map_cons, List.map_cons, hfirsts hno.2, hfirst (hcall ▸ hno.1)]

/-- A call that stores every value and reaches the driver has given it a new array if a buffer has
grown. -/
theorem sbLuaDbExecute_stored {s : LuaStmt} {call : ExecuteCall} {grown : Bool}
    (hstored : (storeParams lua call 0 s.params).2 = some grown) (hexec : Executes lua s call) :
    (sbLuaDbExecute lua s call).1 = ⟨(storeParams lua call 0 s.params).1,
      if grown then some ((storeParams lua call 0 s.params).1.map rebindEntry) else s.bound⟩ := by
  unfold Executes at hexec
  unfold sbLuaDbExecute at hexec ⊢
  rcases hps : storeParams lua call 0 s.params with ⟨ps, flag⟩
  rw [hps] at hstored hexec
  obtain rfl : flag = some grown := hstored
  cases grown with
  | false => rfl
  | true =>
    dsimp only at hexec ⊢
    cases htaken : call.taken with
    | true => rfl
    | false =>
      rw [htaken] at hexec
      cases hexec

/-- What is bound and stored when the driver executes a new statement for the first time. -/
theorem sbLuaDbExecute_new {s : LuaStmt} {taken : Bool}
    (hbind : sbLuaDbBindParam junk (order.map fun k => (k, params k)) taken = some s)
    {call : ExecuteCall} (hcall : call.table = params) (hexec : Executes lua s call) :
    ∃ ps, (sbLuaDbExecute lua s call).1 = ⟨ps,
        if (order.any fun k => (params k).isString) = true →
          (order.any fun k => (params k).needsRoom) = true
        then some (ps.map rebindEntry) else none⟩ ∧
      List.Forall₂ (Holds lua params) order ps := by
  unfold sbLuaDbBindParam at hbind
  split at hbind
  · cases hbind
  obtain ⟨ps, hps, hbind⟩ := Option.bind_eq_some_iff.mp hbind
  obtain ⟨hgrown, hall, hchars, hfirst⟩ := storeParams_new lua hps call hcall 0
  refine ⟨(storeParams lua call 0 ps).1, ?_, hall⟩
  have hroom : (order.any fun k => (params k).needsRoom) = true →
      (order.any fun k => (params k).isString) = true := by
    rw [List.any_eq_true, List.any_eq_true]
    rintro ⟨k, hk, hneeds⟩
    obtain ⟨b, bytes, hvalue⟩ := needsRoom_iff.mp hneeds
    exact ⟨k, hk, isString_iff.mpr ⟨_, hvalue⟩⟩
  rw [hchars] at hbind
  cases hstring : order.any fun k => (params k).isString with
  | true =>
    rw [hstring, if_pos rfl] at hbind
    obtain rfl := Option.some.inj hbind
    rw [sbLuaDbExecute_stored hgrown hexec]
    simp only [forall_const]
  | false =>
    rw [hstring, if_neg Bool.false_ne_true] at hbind
    split at hbind
    · obtain rfl := Option.some.inj hbind
      rw [sbLuaDbExecute_stored hgrown hexec, if_neg (fun h => Bool.false_ne_true (hstring ▸ hroom h)),
        if_pos (fun h => absurd h Bool.false_ne_true), hfirst hstring]
    · cases hbind

end Table

/-! ## Positions -/

section Positions

variable {lua : LuaConversions} {params : ℤ → LuaValue} {order : List ℤ} {n : ℕ}

theorem Enumerates.mem_iff (horder : Enumerates n order) {k : ℤ} :
    k ∈ order ↔ ∃ i < n, (i : ℤ) + 1 = k := by
  rw [Enumerates] at horder
  rw [List.Perm.mem_iff horder, List.mem_map]
  simp only [List.mem_range]

theorem Enumerates.length (horder : Enumerates n order) : order.length = n := by
  rw [List.Perm.length_eq horder, List.length_map, List.length_range]

/-- An array that was given to the driver is read by position. -/
theorem receives_iff {ps : List LuaBind} (hall : List.Forall₂ (Holds lua params) order ps)
    {c : Prop} [Decidable c] {ending : StringEnd} {i : ℕ} {v : LuaValue} :
    Receives ending ⟨ps, if c then some (ps.map rebindEntry) else none⟩ i v ↔
      c ∧ ∃ k, order[i]? = some k ∧ received lua ending (params k) = some v := by
  have hsame : order.length = ps.length := hall.length_eq
  by_cases hc : c
  · rw [if_pos hc, and_iff_right hc]
    have hread : ∀ k p, order[i]? = some k → ps[i]? = some p →
        ending.read (rebindEntry p) p = received lua ending (params k) := by
      intro k p hk hp
      obtain ⟨hi, rfl⟩ := List.getElem?_eq_some_iff.mp hk
      obtain ⟨hi', rfl⟩ := List.getElem?_eq_some_iff.mp hp
      exact (hall.get hi hi').read ending
    constructor
    · rintro ⟨entries, e, p, hentries, he, hp, hvalue⟩
      obtain rfl := Option.some.inj hentries
      rw [List.getElem?_map, hp] at he
      obtain rfl := Option.some.inj he
      obtain ⟨hi, -⟩ := List.getElem?_eq_some_iff.mp hp
      obtain ⟨k, hk⟩ : ∃ k, order[i]? = some k :=
        ⟨_, List.getElem?_eq_getElem (hsame.symm ▸ hi)⟩
      exact ⟨k, hk, (hread k p hk hp).symm.trans hvalue⟩
    · rintro ⟨k, hk, hvalue⟩
      obtain ⟨hi, -⟩ := List.getElem?_eq_some_iff.mp hk
      obtain ⟨p, hp⟩ : ∃ p, ps[i]? = some p := ⟨_, List.getElem?_eq_getElem (hsame ▸ hi)⟩
      refine ⟨_, rebindEntry p, p, rfl, ?_, hp, (hread k p hk hp).trans hvalue⟩
      rw [List.getElem?_map, hp]
      rfl
  · rw [if_neg hc]
    refine iff_of_false ?_ fun h => hc h.1
    rintro ⟨entries, _, _, hentries, -⟩
    cases hentries

theorem givesArray_iff (horder : Enumerates n order) : GivesArray params n ↔
    ((order.any fun k => (params k).isString) = true →
      (order.any fun k => (params k).needsRoom) = true) := by
  have hany : ∀ test : LuaValue → Bool, (order.any fun k => test (params k)) = true ↔
      ∃ i < n, test (params (i + 1)) = true := by
    intro test
    rw [List.any_eq_true]
    constructor
    · rintro ⟨k, hk, htest⟩
      obtain ⟨i, hi, rfl⟩ := horder.mem_iff.mp hk
      exact ⟨i, hi, htest⟩
    · rintro ⟨i, hi, htest⟩
      exact ⟨i + 1, horder.mem_iff.mpr ⟨i, hi, rfl⟩, htest⟩
  rw [hany, hany, GivesArray]
  simp only [isString_iff, needsRoom_iff]

end Positions

def mixedParams (k : ℤ) : LuaValue :=
  if k = 1 then .number 5 else if k = 2 then .string [97#8] else .nil

end Sysbench.Database
