import Sysbench.Database.Bind
import Sysbench.Machine.Runs

/-! # Parameters of a Lua statement

A statement keeps a buffer for each parameter. The driver is given pointers to the buffers, to
their lengths and to the flags for NULL, and reads through them when the statement is executed.
Addresses of buffers are only compared with other addresses of the same parameter.
-/
namespace Sysbench.Database

open Bytes CStrings Words Runs

inductive LuaValue where
  | nil
  | number (v : ℤ)
  | string (bytes : List Byte)
  | other
  deriving DecidableEq

/-- The conversions between numbers and strings, and what the machine stores in an `int` for a
number outside its range. -/
structure LuaConversions where
  checkNumber : List Byte → Option ℤ
  checkString : ℤ → List Byte
  outOfRange : ℤ → BitVec 32

namespace LuaConversions

variable (lua : LuaConversions)

def toNumber : LuaValue → Option ℤ
  | .number v => some v
  | .string bytes => lua.checkNumber bytes
  | _ => none

def toText : LuaValue → Option (List Byte)
  | .string bytes => some bytes
  | .number v => some (lua.checkString v)
  | _ => none

def storeInt (v : ℤ) : BitVec 32 :=
  if -2 ^ 31 ≤ v ∧ v < 2 ^ 31 then BitVec.ofInt 32 v else lua.outOfRange v

end LuaConversions

/-- The buffer of a string has no address before its first allocation. `buflen` is the length of
the string in it. -/
structure CharBuf where
  addr : Option ℕ
  bytes : List Byte
  buflen : ℕ
  fits : buflen ≤ bytes.length

/-- Stores a string, and tells if the buffer was allocated anew for it, at `place`. -/
def CharBuf.store (c : CharBuf) (str : List Byte) (place : ℕ) : CharBuf × Bool :=
  if str.length > c.buflen then
    (⟨some place, strncpy str str.length, str.length, by simp⟩, true)
  else
    (⟨c.addr, strncpy str str.length ++ c.bytes.drop str.length, str.length, by simp⟩, false)

/-- A parameter is of type `DB_TYPE_INT` or `DB_TYPE_CHAR`. -/
inductive LuaSlot where
  | int (addr : ℕ) (v : BitVec 32)
  | char (c : CharBuf)

structure LuaBind where
  id : ℤ
  slot : LuaSlot
  isNull : Bool

/-- What the driver is given for a parameter. The pointer to the length and the one to the flag
are NULL or point to those of the parameter. -/
structure BindEntry where
  char : Bool
  buffer : Option ℕ
  dataLen : Bool
  isNull : Bool
  deriving DecidableEq

/-- `bound` is the array that the driver took last. -/
structure LuaStmt where
  params : List LuaBind
  bound : Option (List BindEntry)

/-- The parameter for an entry of the table. The new `int` holds anything. -/
def newParam (junk : BitVec 32) : ℤ × LuaValue → Option LuaBind
  | (id, .number _) => some ⟨id, .int 0 junk, false⟩
  | (id, .string _) => some ⟨id, .char ⟨none, [], 0, le_rfl⟩, false⟩
  | _ => none

def LuaSlot.isChar : LuaSlot → Bool
  | .int _ _ => false
  | .char _ => true

def LuaBind.isChar (p : LuaBind) : Bool := p.slot.isChar

def firstEntry (p : LuaBind) : BindEntry :=
  match p.slot with
  | .int addr _ => ⟨false, some addr, false, true⟩
  | .char _ => ⟨true, none, false, true⟩

/-- The table in the order of `lua_next`, and whether the driver takes the array. -/
def sbLuaDbBindParam (junk : BitVec 32) (table : List (ℤ × LuaValue)) (taken : Bool) :
    Option LuaStmt :=
  if table = [] then none
  else
    (table.mapM (newParam junk)).bind fun params =>
      if params.any LuaBind.isChar then some ⟨params, none⟩
      else if taken then some ⟨params, some (params.map firstEntry)⟩
      else none

/-- One call of `db_execute`: the table at that moment, where a buffer of a parameter is placed
when it grows, and whether the driver takes a new array. -/
structure ExecuteCall where
  table : ℤ → LuaValue
  place : ℕ → ℕ
  taken : Bool

/-- The value of the table is stored. Without a result there is an error, otherwise it tells if the
driver must be given new pointers. -/
def LuaBind.store (lua : LuaConversions) (p : LuaBind) (v : LuaValue) (place : ℕ) :
    LuaBind × Option Bool :=
  if v = .nil then ({ p with isNull := true }, some false)
  else
    match p.slot with
    | .int addr _ =>
      match lua.toNumber v with
      | none => ({ p with isNull := false }, none)
      | some x => ({ p with isNull := false, slot := .int addr (lua.storeInt x) }, some false)
    | .char c =>
      match lua.toText v with
      | none => ({ p with isNull := false }, none)
      | some str =>
        let (c, grown) := c.store str place
        ({ p with isNull := false, slot := .char c }, some grown)

/-- The loop over the parameters, from number `i` on. An error ends it. -/
def storeParams (lua : LuaConversions) (call : ExecuteCall) :
    ℕ → List LuaBind → List LuaBind × Option Bool
  | _, [] => ([], some false)
  | i, p :: ps =>
    match p.store lua (call.table p.id) (call.place i) with
    | (p, none) => (p :: ps, none)
    | (p, some grown) =>
      let (ps, rest) := storeParams lua call (i + 1) ps
      (p :: ps, rest.map (grown || ·))

/-- An entry of the array for a new binding. -/
def rebindEntry (p : LuaBind) : BindEntry :=
  match p.isNull, p.slot with
  | true, .int _ _ => ⟨false, none, false, true⟩
  | true, .char _ => ⟨true, none, false, true⟩
  | false, .int addr _ => ⟨false, some addr, false, true⟩
  | false, .char c => ⟨true, c.addr, true, false⟩

/-- The statement when the driver executes it, or where an error ended the call. -/
def sbLuaDbExecute (lua : LuaConversions) (s : LuaStmt) (call : ExecuteCall) : LuaStmt × Bool :=
  match storeParams lua call 0 s.params with
  | (ps, none) => (⟨ps, s.bound⟩, false)
  | (ps, some false) => (⟨ps, s.bound⟩, true)
  | (ps, some true) =>
    if call.taken then (⟨ps, some (ps.map rebindEntry)⟩, true) else (⟨ps, s.bound⟩, false)

/-- What a reader finds that takes the bytes of a string with `str`. A pointer that is NULL or
that a reallocation has left behind is followed to nothing. -/
def BindEntry.read (str : CharBuf → Option (List Byte)) (e : BindEntry) (p : LuaBind) :
    Option LuaValue :=
  if e.isNull && p.isNull then some .nil
  else
    match e.char, p.slot with
    | false, .int addr v => if e.buffer = some addr then some (.number v.toInt) else none
    | true, .char c =>
      if c.addr.isSome ∧ e.buffer = c.addr then (str c).map LuaValue.string else none
    | _, _ => none

/-- `db_print_value` and most drivers read a string up to its zero. -/
def BindEntry.byTerminator : BindEntry → LuaBind → Option LuaValue :=
  BindEntry.read fun c => (readString c.bytes).map CString.chars

/-- The server-side statements of MySQL read as many bytes as `data_len` tells. -/
def BindEntry.byLength (e : BindEntry) : LuaBind → Option LuaValue :=
  e.read fun c => if e.dataLen then some (c.bytes.take c.buflen) else none

def Denotes (table : ℤ → LuaValue) (p : LuaBind) (e : BindEntry) : Prop :=
  e.byTerminator p = some (table p.id) ∧ e.byLength p = some (table p.id)

/-- The driver has an entry for each parameter, which denotes the value in the table. -/
def Current (s : LuaStmt) (table : ℤ → LuaValue) : Prop :=
  ∃ entries, s.bound = some entries ∧ List.Forall₂ (Denotes table) s.params entries

def stmtStep (lua : LuaConversions) (s : LuaStmt) (call : ExecuteCall) : Option LuaStmt :=
  some (sbLuaDbExecute lua s call).1

def Executes (lua : LuaConversions) (s : LuaStmt) (call : ExecuteCall) : Prop :=
  (sbLuaDbExecute lua s call).2 = true

def SendsCurrent (lua : LuaConversions) : LuaStmt → List ExecuteCall → Prop :=
  Guarded (stmtStep lua) fun s call =>
    Executes lua s call → Current (sbLuaDbExecute lua s call).1 call.table

def InRange (v : LuaValue) : Prop := v = .nil ∨ ∃ x, v = .number x ∧ -2 ^ 31 ≤ x ∧ x < 2 ^ 31

/-- No parameter is a string, and the values are missing or integers that fit an `int`. -/
def IntegersOnly (s : LuaStmt) (table : ℤ → LuaValue) : Prop :=
  ∀ p ∈ s.params, p.isChar = false ∧ InRange (table p.id)

variable {lua : LuaConversions}

/-! ## One parameter -/

theorem LuaBind.store_cases (lua : LuaConversions) (p : LuaBind) (v : LuaValue) (place : ℕ) :
    (v = .nil ∧ p.store lua v place = ({ p with isNull := true }, some false)) ∨
    (v ≠ .nil ∧ p.store lua v place = ({ p with isNull := false }, none)) ∨
    (∃ addr w x, v ≠ .nil ∧ p.slot = .int addr w ∧ lua.toNumber v = some x ∧
      p.store lua v place = (⟨p.id, .int addr (lua.storeInt x), false⟩, some false)) ∨
    ∃ c str, v ≠ .nil ∧ p.slot = .char c ∧ lua.toText v = some str ∧
      p.store lua v place =
        (⟨p.id, .char (c.store str place).1, false⟩, some (c.store str place).2) := by
  unfold LuaBind.store
  by_cases hnil : v = .nil
  · exact Or.inl ⟨hnil, if_pos hnil⟩
  · rw [if_neg hnil]
    refine Or.inr ?_
    cases hslot : p.slot with
    | int addr w =>
      cases hnum : lua.toNumber v with
      | none => exact Or.inl ⟨hnil, rfl⟩
      | some x => exact Or.inr (Or.inl ⟨addr, w, x, hnil, rfl, rfl, rfl⟩)
    | char c =>
      cases htext : lua.toText v with
      | none => exact Or.inl ⟨hnil, rfl⟩
      | some str => exact Or.inr (Or.inr ⟨c, str, hnil, rfl, rfl, rfl⟩)

theorem LuaBind.store_keeps (lua : LuaConversions) (p : LuaBind) (v : LuaValue) (place : ℕ) :
    (p.store lua v place).1.id = p.id ∧ (p.store lua v place).1.isChar = p.isChar := by
  rcases p.store_cases lua v place with ⟨-, h⟩ | ⟨-, h⟩ | ⟨addr, w, x, -, hslot, -, h⟩ |
    ⟨c, str, -, hslot, -, h⟩
  · rw [h]
    exact ⟨rfl, rfl⟩
  · rw [h]
    exact ⟨rfl, rfl⟩
  · rw [h, isChar, isChar, hslot]
    exact ⟨rfl, rfl⟩
  · rw [h, isChar, isChar, hslot]
    exact ⟨rfl, rfl⟩

/-- The driver was given the buffer and the flag of an integer. -/
def IntBound (p : LuaBind) (e : BindEntry) : Prop :=
  ∃ addr v, p.slot = .int addr v ∧ e = ⟨false, some addr, false, true⟩

theorem IntBound.store (lua : LuaConversions) {p : LuaBind} {e : BindEntry}
    (h : IntBound p e) (v : LuaValue)
    (place : ℕ) : IntBound (p.store lua v place).1 e ∧ (p.store lua v place).2 ≠ some true := by
  obtain ⟨addr, w, hint, rfl⟩ := h
  rcases p.store_cases lua v place with ⟨-, h⟩ | ⟨-, h⟩ | ⟨addr', w', x, -, hslot, -, h⟩ |
    ⟨c, str, -, hslot, -, h⟩
  · rw [h]
    exact ⟨⟨addr, w, hint, rfl⟩, by simp⟩
  · rw [h]
    exact ⟨⟨addr, w, hint, rfl⟩, by simp⟩
  · rw [hint] at hslot
    obtain ⟨rfl, rfl⟩ := LuaSlot.int.inj hslot
    rw [h]
    exact ⟨⟨addr, _, rfl, rfl⟩, by simp⟩
  · rw [hint] at hslot
    cases hslot

theorem toInt_storeInt_iff (x : ℤ) :
    (lua.storeInt x).toInt = x ↔ -2 ^ 31 ≤ x ∧ x < 2 ^ 31 := by
  constructor
  · intro h
    have hlow := BitVec.le_toInt (lua.storeInt x)
    have hhigh := BitVec.toInt_lt (x := lua.storeInt x)
    rw [h] at hlow hhigh
    exact ⟨by simpa using hlow, by simpa using hhigh⟩
  · intro h
    rw [LuaConversions.storeInt, if_pos h]
    exact BitVec.toInt_ofInt_eq_self (by decide) (by simpa using h.1) (by simpa using h.2)

theorem denotes_int_iff {table : ℤ → LuaValue} {id : ℤ} {addr : ℕ} {w : BitVec 32} :
    Denotes table ⟨id, .int addr w, false⟩ ⟨false, some addr, false, true⟩ ↔
      table id = .number w.toInt := by
  have hread : ∀ str, BindEntry.read str ⟨false, some addr, false, true⟩
      ⟨id, .int addr w, false⟩ = some (.number w.toInt) := fun str => if_pos rfl
  unfold Denotes BindEntry.byTerminator BindEntry.byLength
  rw [hread, hread, and_self, Option.some.injEq, eq_comm]

theorem IntBound.denotes_iff {p : LuaBind} {e : BindEntry} (h : IntBound p e)
    {table : ℤ → LuaValue} {place : ℕ} (hok : (p.store lua (table p.id) place).2 = some false) :
    Denotes table (p.store lua (table p.id) place).1 e ↔ InRange (table p.id) := by
  obtain ⟨addr, w, hint, rfl⟩ := h
  rcases p.store_cases lua (table p.id) place with ⟨hnil, h⟩ | ⟨hnil, h⟩ |
    ⟨addr', w', x, hnil, hslot, hnum, h⟩ | ⟨c, str, -, hslot, -, h⟩
  · rw [h]
    refine iff_of_true ⟨?_, ?_⟩ (Or.inl hnil)
    · exact hnil ▸ rfl
    · exact hnil ▸ rfl
  · rw [h] at hok
    cases hok
  · rw [hint] at hslot
    obtain ⟨rfl, rfl⟩ := LuaSlot.int.inj hslot
    rw [h, denotes_int_iff]
    constructor
    · intro heq
      have hx : x = (lua.storeInt x).toInt := by
        rw [heq] at hnum
        exact (Option.some.inj hnum).symm
      exact Or.inr ⟨x, heq.trans (congrArg _ hx.symm), (toInt_storeInt_iff x).mp hx.symm⟩
    · rintro (hnil' | ⟨y, hy, hrange⟩)
      · exact absurd hnil' hnil
      · rw [hy] at hnum
        obtain rfl : y = x := Option.some.inj hnum
        rw [hy, (toInt_storeInt_iff y).mpr hrange]
  · rw [hint] at hslot
    cases hslot

/-- A buffer that has just been allocated for a string has no zero behind it. -/
theorem CharBuf.readString_store {c : CharBuf} {str : List Byte} {place : ℕ}
    (hgrown : (c.store str place).2 = true) :
    (readString (c.store str place).1.bytes).map CString.chars ≠ some str := by
  unfold CharBuf.store at hgrown ⊢
  split
  · intro h
    obtain ⟨s, hs, hchars⟩ := Option.map_eq_some_iff.mp h
    have hlt := length_of_readString hs
    have hlen : s.length = str.length := congrArg List.length hchars
    rw [length_strncpy] at hlt
    omega
  · next hfits =>
    rw [if_neg hfits] at hgrown
    cases hgrown

theorem not_denotes_grown {table : ℤ → LuaValue} {id : ℤ} {c : CharBuf} {str : List Byte}
    {place : ℕ} (hgrown : (c.store str place).2 = true)
    (htext : lua.toText (table id) = some str) :
    ¬Denotes table ⟨id, .char (c.store str place).1, false⟩
      (rebindEntry ⟨id, .char (c.store str place).1, false⟩) := by
  rintro ⟨hterm, -⟩
  have hread : ∃ bytes, table id = .string bytes ∧
      (readString (c.store str place).1.bytes).map CString.chars = some bytes := by
    unfold BindEntry.byTerminator BindEntry.read rebindEntry at hterm
    simp only [Bool.and_false, Bool.false_eq_true, if_false] at hterm
    split at hterm
    · obtain ⟨bytes, hbytes, heq⟩ := Option.map_eq_some_iff.mp hterm
      exact ⟨bytes, heq.symm, hbytes⟩
    · cases hterm
  obtain ⟨bytes, hvalue, hread⟩ := hread
  rw [hvalue] at htext
  obtain rfl : bytes = str := Option.some.inj htext
  exact CharBuf.readString_store hgrown hread

/-! ## All parameters -/

theorem storeParams_cons (lua : LuaConversions) (call : ExecuteCall) (i : ℕ) (p : LuaBind)
    (ps : List LuaBind) :
    ((p.store lua (call.table p.id) (call.place i)).2 = none ∧
      storeParams lua call i (p :: ps) =
        ((p.store lua (call.table p.id) (call.place i)).1 :: ps, none)) ∨
    ∃ grown, (p.store lua (call.table p.id) (call.place i)).2 = some grown ∧
      storeParams lua call i (p :: ps) =
        ((p.store lua (call.table p.id) (call.place i)).1 :: (storeParams lua call (i + 1) ps).1,
          (storeParams lua call (i + 1) ps).2.map (grown || ·)) := by
  rw [storeParams]
  rcases p.store lua (call.table p.id) (call.place i) with ⟨q, _ | grown⟩
  · exact Or.inl ⟨rfl, rfl⟩
  · exact Or.inr ⟨grown, rfl, rfl⟩

theorem storeParams_any_isChar (lua : LuaConversions) (call : ExecuteCall) (i : ℕ) (ps : List LuaBind) :
    (storeParams lua call i ps).1.any LuaBind.isChar = ps.any LuaBind.isChar := by
  induction ps generalizing i with
  | nil => rfl
  | cons p ps ih =>
    have hkeep := (p.store_keeps lua (call.table p.id) (call.place i)).2
    rcases storeParams_cons lua call i p ps with ⟨-, h⟩ | ⟨grown, -, h⟩
    · rw [h, List.any_cons, List.any_cons, hkeep]
    · rw [h, List.any_cons, List.any_cons, hkeep, ih]

/-- If a buffer has grown, the new entries do not all denote the values. -/
theorem not_denotes_rebound {call : ExecuteCall} {i : ℕ} {ps : List LuaBind}
    (hgrown : (storeParams lua call i ps).2 = some true) :
    ¬List.Forall₂ (Denotes call.table) (storeParams lua call i ps).1
      ((storeParams lua call i ps).1.map rebindEntry) := by
  induction ps generalizing i with
  | nil => cases hgrown
  | cons p ps ih =>
    rcases storeParams_cons lua call i p ps with ⟨-, h⟩ | ⟨grown, hp, h⟩
    · rw [h] at hgrown
      cases hgrown
    · rw [h] at hgrown ⊢
      intro hall
      rw [List.map_cons, List.forall₂_cons] at hall
      obtain ⟨rest, hrest, hor⟩ := Option.map_eq_some_iff.mp hgrown
      cases rest with
      | true => exact ih hrest hall.2
      | false =>
        rw [Bool.or_false] at hor
        subst hor
        rcases p.store_cases lua (call.table p.id) (call.place i) with ⟨-, hs⟩ | ⟨-, hs⟩ |
          ⟨addr, w, x, -, -, -, hs⟩ | ⟨c, str, -, -, htext, hs⟩
        · rw [hs] at hp
          cases hp
        · rw [hs] at hp
          cases hp
        · rw [hs] at hp
          cases hp
        · rw [hs] at hp hall
          exact not_denotes_grown (Option.some.inj hp) htext hall.1

theorem storeParams_intBound (lua : LuaConversions) (call : ExecuteCall) (i : ℕ)
    {ps : List LuaBind} {entries : List BindEntry} (h : List.Forall₂ IntBound ps entries) :
    List.Forall₂ IntBound (storeParams lua call i ps).1 entries ∧
      (storeParams lua call i ps).2 ≠ some true ∧
      ((storeParams lua call i ps).2 = some false →
        (List.Forall₂ (Denotes call.table) (storeParams lua call i ps).1 entries ↔
          ∀ p ∈ ps, InRange (call.table p.id))) := by
  induction h generalizing i with
  | nil => exact ⟨List.Forall₂.nil, by simp [storeParams], fun _ => by simp [storeParams]⟩
  | @cons p e ps es hp hps ih =>
    obtain ⟨hbound, hsome, hiff⟩ := ih (i + 1)
    obtain ⟨hpbound, hpsome⟩ := hp.store lua (call.table p.id) (call.place i)
    rcases storeParams_cons lua call i p ps with ⟨-, h⟩ | ⟨grown, hgrown, h⟩
    · rw [h]
      exact ⟨List.Forall₂.cons hpbound hps, by simp, by simp⟩
    · have hfalse : grown = false := by
        cases grown with
        | false => rfl
        | true => exact absurd hgrown hpsome
      subst hfalse
      rw [h]
      refine ⟨List.Forall₂.cons hpbound hbound, ?_, ?_⟩
      · simpa using hsome
      · intro hok
        have hrest : (storeParams lua call (i + 1) ps).2 = some false := by simpa using hok
        rw [List.forall₂_cons, hiff hrest, hp.denotes_iff hgrown, List.forall_mem_cons]

/-! ## Runs -/

theorem sbLuaDbExecute_bound_none {s : LuaStmt} {call : ExecuteCall} (hbound : s.bound = none)
    (h : Executes lua s call → Current (sbLuaDbExecute lua s call).1 call.table) :
    ¬Executes lua s call ∧ (sbLuaDbExecute lua s call).1.bound = none := by
  unfold Executes at h ⊢
  unfold sbLuaDbExecute at h ⊢
  rcases hps : storeParams lua call 0 s.params with ⟨ps, _ | _ | _⟩
  · simpa using hbound
  · rw [hps] at h
    obtain ⟨entries, hentries, -⟩ := h rfl
    rw [hbound] at hentries
    cases hentries
  · rw [hps] at h
    dsimp only at h ⊢
    cases htaken : call.taken with
    | false => simpa using hbound
    | true =>
      rw [htaken] at h
      obtain ⟨entries, hentries, hall⟩ := h rfl
      obtain rfl := Option.some.inj hentries
      have hgrown : (storeParams lua call 0 s.params).2 = some true := by rw [hps]
      have hnot := not_denotes_rebound hgrown
      rw [hps] at hnot
      exact absurd hall hnot

def IntStmt (s : LuaStmt) : Prop :=
  ∃ entries, s.bound = some entries ∧ List.Forall₂ IntBound s.params entries

theorem sbLuaDbExecute_intStmt {s : LuaStmt} (hs : IntStmt s) (call : ExecuteCall) :
    IntStmt (sbLuaDbExecute lua s call).1 ∧
      ((Executes lua s call → Current (sbLuaDbExecute lua s call).1 call.table) ↔
        (Executes lua s call → ∀ p ∈ s.params, InRange (call.table p.id))) := by
  obtain ⟨entries, hentries, hall⟩ := hs
  obtain ⟨hbound, hsome, hiff⟩ := storeParams_intBound lua call 0 hall
  unfold Executes sbLuaDbExecute
  rcases hps : storeParams lua call 0 s.params with ⟨ps, _ | _ | _⟩
  · rw [hps] at hbound
    exact ⟨⟨entries, hentries, hbound⟩, by simp⟩
  · rw [hps] at hbound hiff
    refine ⟨⟨entries, hentries, hbound⟩, ?_⟩
    have hcurrent : Current ⟨ps, s.bound⟩ call.table ↔
        List.Forall₂ (Denotes call.table) ps entries := by
      constructor
      · rintro ⟨entries', hentries', hall'⟩
        obtain rfl := Option.some.inj (hentries.symm.trans hentries')
        exact hall'
      · exact fun hall' => ⟨entries, hentries, hall'⟩
    simpa [hcurrent] using hiff rfl
  · rw [hps] at hsome
    exact absurd rfl hsome

theorem newParam_firstEntry {junk : BitVec 32} {e : ℤ × LuaValue} {p : LuaBind}
    (h : newParam junk e = some p) (hint : p.isChar = false) : IntBound p (firstEntry p) := by
  obtain ⟨id, v⟩ := e
  cases v with
  | nil => cases h
  | number v =>
    obtain rfl := Option.some.inj h
    exact ⟨0, junk, rfl, rfl⟩
  | string bytes =>
    obtain rfl := Option.some.inj h
    cases hint
  | other => cases h

theorem newParams_intBound {junk : BitVec 32} {table : List (ℤ × LuaValue)} {ps : List LuaBind}
    (h : table.mapM (newParam junk) = some ps) (hint : ∀ p ∈ ps, p.isChar = false) :
    List.Forall₂ IntBound ps (ps.map firstEntry) := by
  induction table generalizing ps with
  | nil =>
    cases h
    exact List.Forall₂.nil
  | cons e table ih =>
    rw [List.mapM_cons] at h
    obtain ⟨p, hp, h⟩ := Option.bind_eq_some_iff.mp h
    obtain ⟨qs, hqs, h⟩ := Option.bind_eq_some_iff.mp h
    obtain rfl := Option.some.inj h
    rw [List.forall_mem_cons] at hint
    exact List.Forall₂.cons (newParam_firstEntry hp hint.1) (ih hqs hint.2)

/-- A new statement with a string has no pointers in the driver. -/
theorem sbLuaDbBindParam_cases {junk : BitVec 32} {table : List (ℤ × LuaValue)} {taken : Bool}
    {s : LuaStmt} (h : sbLuaDbBindParam junk table taken = some s) :
    (s.params.any LuaBind.isChar = true ∧ s.bound = none) ∨
      ((∀ p ∈ s.params, p.isChar = false) ∧ IntStmt s) := by
  unfold sbLuaDbBindParam at h
  split at h
  · cases h
  · obtain ⟨ps, hps, h⟩ := Option.bind_eq_some_iff.mp h
    split at h
    · next hchar =>
      obtain rfl := Option.some.inj h
      exact Or.inl ⟨hchar, rfl⟩
    · next hchar =>
      split at h
      · obtain rfl := Option.some.inj h
        have hint : ∀ p ∈ ps, p.isChar = false := by simpa using hchar
        exact Or.inr ⟨hint, _, rfl, newParams_intBound hps hint⟩
      · cases h

theorem sbLuaDbExecute_any_isChar (lua : LuaConversions) (s : LuaStmt) (call : ExecuteCall) :
    (sbLuaDbExecute lua s call).1.params.any LuaBind.isChar = s.params.any LuaBind.isChar := by
  have hany := storeParams_any_isChar lua call 0 s.params
  unfold sbLuaDbExecute
  rcases hps : storeParams lua call 0 s.params with ⟨ps, _ | _ | _⟩
  · rw [hps] at hany
    exact hany
  · rw [hps] at hany
    exact hany
  · rw [hps] at hany
    dsimp only
    split
    · exact hany
    · exact hany

theorem run_any_isChar {s t : LuaStmt} {calls : List ExecuteCall}
    (hr : run (stmtStep lua) s calls = some t) :
    t.params.any LuaBind.isChar = s.params.any LuaBind.isChar := by
  refine run_preserves (I := fun t => t.params.any LuaBind.isChar = s.params.any LuaBind.isChar)
    ?_ rfl hr
  rintro t call u ht hu
  obtain rfl := Option.some.inj hu
  exact (sbLuaDbExecute_any_isChar lua t call).trans ht

/-- While nothing has been sent wrongly, a statement with a string has no pointers in the
driver. -/
theorem SendsCurrent.bound_none {s t : LuaStmt} {calls : List ExecuteCall}
    (h : SendsCurrent lua s calls) (hbound : s.bound = none)
    (hr : run (stmtStep lua) s calls = some t) : t.bound = none := by
  refine Guarded.invariant (I := fun _ t => t.bound = none) hbound ?_ h hr
  rintro - t call u - hbound hcall hu
  obtain rfl := Option.some.inj hu
  exact (sbLuaDbExecute_bound_none hbound hcall).2

theorem run_intStmt {s t : LuaStmt} {calls : List ExecuteCall} (hs : IntStmt s)
    (hr : run (stmtStep lua) s calls = some t) : IntStmt t := by
  refine run_preserves (I := IntStmt) ?_ hs hr
  rintro t call u ht hu
  obtain rfl := Option.some.inj hu
  exact (sbLuaDbExecute_intStmt ht call).1

def plainLua : LuaConversions := ⟨fun _ => none, fun v => (decimal v).chars, fun _ => 1#32 <<< 31⟩

def integerStmt : LuaStmt :=
  ⟨[⟨1, .int 0 0, false⟩], some [⟨false, some 0, false, true⟩]⟩

/-- The `db_bind_t` of an entry, as far as its pointers can be followed. -/
structure BindEntry.LeadsTo (e : BindEntry) (p : LuaBind) (b : DbBind) : Prop where
  nullFlag : b.nullFlag = (e.isNull && p.isNull)
  int : ∀ addr v, e.char = false → p.slot = .int addr v → e.buffer = some addr → b.value = .int v
  char : ∀ c, e.char = true → p.slot = .char c → c.addr.isSome → e.buffer = c.addr →
    b.value = .char c.bytes

def LuaValue.printed : LuaValue → Option CString
  | .nil => some nullText
  | .number v => some (decimal v)
  | .string bytes => some (quoted (.ofBytes bytes))
  | .other => none

/-- `db_print_value` prints what is read up to the terminator. -/
theorem BindEntry.LeadsTo.text_eq {e : BindEntry} {p : LuaBind} {b : DbBind} {v : LuaValue}
    (ff : FloatFormat) (h : e.LeadsTo p b) (hread : e.byTerminator p = some v) :
    b.text ff = v.printed := by
  unfold byTerminator BindEntry.read at hread
  unfold DbBind.text
  rw [h.nullFlag]
  split at hread
  · next hnull =>
    cases hread
    rw [if_pos hnull]
    rfl
  · next hnull =>
    rw [if_neg hnull]
    split at hread
    · next addr x hchar hslot =>
      obtain ⟨hbuffer, heq⟩ := Option.ite_none_right_eq_some.mp hread
      cases heq
      rw [h.int addr x hchar hslot hbuffer]
      rfl
    · next c hchar hslot =>
      obtain ⟨⟨haddr, hbuffer⟩, heq⟩ := Option.ite_none_right_eq_some.mp hread
      obtain ⟨bytes, hbytes, rfl⟩ := Option.map_eq_some_iff.mp heq
      obtain ⟨str, hstr, rfl⟩ := Option.map_eq_some_iff.mp hbytes
      rw [h.char c hchar hslot haddr hbuffer, BindValue.text, hstr, Option.map_some,
        LuaValue.printed, CString.ofBytes_chars]
    · cases hread

end Sysbench.Database
