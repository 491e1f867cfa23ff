import Sysbench.Database.Connection
import Sysbench.Machine.Batches
import Sysbench.Machine.Runs
import Sysbench.Machine.Words

/-! # Bulk insert

`db_bulk_insert_init`, `_next` and `_done` collect rows behind a header in one buffer of
the connection. The buffer is used again for the next group by moving `bulk_ptr` back to
the end of the header. A function has no result where it would touch memory outside the
buffer.
-/
namespace Sysbench.Database

open Bytes CStrings Words Runs Batches

def bulkPacketSize : ℕ := 512 * 1024

def rowsBeforeCommit : ℕ := 1000

inductive BulkError
  | noDriver
  | noCapabilities
  | queryTooLong (maximum : ℕ)
  | noMemory
  | queryFailed
deriving DecidableEq

def BulkError.message : BulkError → Option String
  | .noCapabilities => some "failed to get database capabilities!"
  | .queryTooLong maximum => some s!"Query length exceeds the maximum value ({maximum}), aborting"
  | _ => none

def comma : CString := ⟨[charByte ','], by decide⟩

def commitText : CString := ⟨"COMMIT".toList.map charByte, by decide⟩

/-- `block` is what `malloc` returns, with whatever the memory holds. -/
def dbBulkInsertInit (con : DbConn) (block : Option (List.Vector Byte bulkPacketSize))
    (query : CString) : Option (Except BulkError Unit × DbConn) :=
  match con.driver with
  | none => some (.error .noDriver, con)
  | some driver =>
    match dbDescribe driver with
    | none => some (.error .noCapabilities, con)
    | some driverCaps =>
      let queryLen := query.length
      if bulkPacketSize < queryLen + 1 then
        some (.error (.queryTooLong bulkPacketSize), con)
      else
        let con := { con with
          bulkBuflen := bulkPacketSize
          bulkBuffer := block.map List.Vector.toList }
        match con.bulkBuffer with
        | none => some (.error .noMemory, con)
        | some buffer => do
          let buffer ← strcpy buffer 0 query
          some (.ok (), { con with
            bulkSupported := driverCaps.multiRowsInsert
            bulkCommitMax := if driverCaps.needsCommit then rowsBeforeCommit else 0
            bulkCommitCnt := 0
            bulkBuffer := some buffer
            bulkPtr := queryLen
            bulkPtrOrig := queryLen
            bulkCnt := 0 })

/-- The rows just inserted are counted, and a COMMIT is sent if one is due. -/
def commitRows (con : DbConn) (isLast : Bool) : Bool × DbConn :=
  if con.bulkCommitMax ≠ 0 then
    let con := { con with bulkCommitCnt := toUInt 32 (con.bulkCommitCnt + con.bulkCnt) }
    if isLast ∨ con.bulkCommitMax ≤ con.bulkCommitCnt then
      match dbQuery con commitText with
      | (false, con) => (false, con)
      | (true, con) => (true, { con with bulkCommitCnt := 0 })
    else (true, con)
  else (true, con)

def dbBulkDoInsert (con : DbConn) (isLast : Bool) : Option (Except BulkError Unit × DbConn) :=
  if con.bulkCnt = 0 then some (.ok (), con)
  else do
    let buffer ← con.bulkBuffer
    let text ← readString buffer
    match dbQuery con text with
    | (false, con) => some (.error .queryFailed, con)
    | (true, con) =>
      match commitRows con isLast with
      | (false, con) => some (.error .queryFailed, con)
      | (true, con) => some (.ok (), { con with bulkPtr := con.bulkPtrOrig, bulkCnt := 0 })

/-- `con->bulk_cnt > 0` used as a number: the room for the comma. -/
def commaLen (con : DbConn) : ℕ := if 0 < con.bulkCnt then 1 else 0

/-- The row is written behind the text, after a comma unless it is the first. -/
def writeRow (con : DbConn) (buffer : List Byte) (query : CString) : Option (List Byte) :=
  if 0 < con.bulkCnt then do
    let buffer ← storeByte buffer con.bulkPtr (charByte ',')
    strcpy buffer (con.bulkPtr + 1) query
  else strcpy buffer con.bulkPtr query

def storeRow (con : DbConn) (query : CString) : Option DbConn := do
  let queryLen := toUInt 32 query.length
  let buffer ← con.bulkBuffer
  let buffer ← writeRow con buffer query
  some { con with
    bulkBuffer := some buffer
    bulkPtr := toUInt 32 (con.bulkPtr + (queryLen + commaLen con))
    bulkCnt := toUInt 32 (con.bulkCnt + 1) }

def dbBulkInsertNext (con : DbConn) (query : CString) :
    Option (Except BulkError Unit × DbConn) :=
  let queryLen := toUInt 32 query.length
  if con.bulkBuflen < toUInt 32 (con.bulkPtr + queryLen + 1 + commaLen con) then
    if con.bulkCnt = 0 then some (.error (.queryTooLong con.bulkBuflen), con)
    else
      match dbBulkDoInsert con false with
      | none => none
      | some (.error e, con) => some (.error e, con)
      | some (.ok (), con) => (storeRow con query).map fun con => (.ok (), con)
  else (storeRow con query).map fun con => (.ok (), con)

def dbBulkInsertDone (con : DbConn) : Option DbConn := do
  let (_, con) ← dbBulkDoInsert con true
  some { con with bulkBuffer := none }

/-- The text that a group of rows makes behind the header. -/
def insertText (h : CString) (g : List CString) : CString := h ++ CString.join comma g

def Fits (h : CString) (g : List CString) : Prop := (insertText h g).length + 1 ≤ bulkPacketSize

instance (h : CString) : DecidablePred (Fits h) := fun g => by unfold Fits; infer_instance

theorem insertText_nil (h : CString) : insertText h [] = h := CString.append_empty h

theorem insertText_singleton (h r : CString) : insertText h [r] = h ++ r := rfl

theorem insertText_snoc (h : CString) {g : List CString} (hg : g ≠ []) (r : CString) :
    insertText h (g ++ [r]) = insertText h g ++ (comma ++ r) := by
  rw [insertText, CString.join_snoc comma hg, insertText, CString.append_assoc]

theorem length_insertText_snoc (h : CString) (g : List CString) (r : CString) :
    (insertText h (g ++ [r])).length =
      (insertText h g).length + (r.length + if 0 < g.length then 1 else 0) := by
  cases g with
  | nil => rw [List.nil_append, insertText_singleton, insertText_nil]; simp
  | cons s g =>
    rw [insertText_snoc h (List.cons_ne_nil s g), CString.length_append, CString.length_append]
    have hcomma : comma.length = 1 := rfl
    simp [hcomma, Nat.add_comm]

theorem length_le_insertText (h : CString) (g : List CString) :
    g.length ≤ (insertText h g).length + 1 := by
  induction g using List.reverseRecOn with
  | nil => simp
  | append_singleton g r ih =>
    rw [length_insertText_snoc, List.length_append, List.length_singleton]
    split <;> omega

/-- The next group starts behind the header again. -/
def DbConn.rewound (con : DbConn) : DbConn :=
  { con with bulkPtr := con.bulkPtrOrig, bulkCnt := 0 }

/-- The buffer of the connection holds the header `h` and the group `g`. Right after a
flush the old text still stands behind the header. -/
structure Buffers (con : DbConn) (h : CString) (g : List CString) : Prop where
  driver : ∃ d, con.driver = some d
  buflen : con.bulkBuflen = bulkPacketSize
  origin : con.bulkPtrOrig = h.length
  ptr : con.bulkPtr = (insertText h g).length
  cnt : con.bulkCnt = g.length
  fits : Fits h g
  text : ∃ buffer, con.bulkBuffer = some buffer ∧ buffer.length = bulkPacketSize ∧
    (insertText h g).chars <+: buffer ∧ (g ≠ [] → StartsWith buffer (insertText h g))

namespace Buffers

variable {con : DbConn} {h r : CString} {g : List CString}

theorem commaLen_eq (hb : Buffers con h g) : commaLen con = if 0 < g.length then 1 else 0 := by
  rw [commaLen, hb.cnt]

/-- The space check of `db_bulk_insert_next` asks whether the longer text fits. -/
theorem space_iff_of_lt (hb : Buffers con h g) (hr : r.length < 2 ^ 31) :
    con.bulkBuflen < toUInt 32 (con.bulkPtr + toUInt 32 r.length + 1 + commaLen con) ↔
      ¬ Fits h (g ++ [r]) := by
  have hfits := hb.fits
  unfold Fits bulkPacketSize at hfits
  have hlen : toUInt 32 r.length = r.length := toUInt_natCast (by omega)
  have hsum : ((con.bulkPtr : ℤ) + r.length + 1 + commaLen con) =
      ((insertText h (g ++ [r])).length + 1 : ℕ) := by
    rw [length_insertText_snoc, hb.ptr, hb.commaLen_eq]
    push_cast
    ring
  have hbound : (insertText h (g ++ [r])).length + 1 < 2 ^ 32 := by
    rw [length_insertText_snoc]
    split <;> omega
  rw [hlen, hsum, toUInt_natCast hbound, hb.buflen, Fits, not_le]

theorem space_iff (hb : Buffers con h g) (hr : Fits h [r]) :
    con.bulkBuflen < toUInt 32 (con.bulkPtr + toUInt 32 r.length + 1 + commaLen con) ↔
      ¬ Fits h (g ++ [r]) := by
  unfold Fits bulkPacketSize at hr
  rw [insertText_singleton, CString.length_append] at hr
  exact hb.space_iff_of_lt (by omega)

theorem writeRow_eq (hb : Buffers con h g) (hfit : Fits h (g ++ [r])) {buffer : List Byte}
    (hsize : buffer.length = bulkPacketSize) (hpre : (insertText h g).chars <+: buffer) :
    ∃ buffer', writeRow con buffer r = some buffer' ∧ buffer'.length = bulkPacketSize ∧
      StartsWith buffer' (insertText h (g ++ [r])) := by
  have hlen := length_insertText_snoc h g r
  have hptr : con.bulkPtr = (insertText h g).chars.length := hb.ptr
  unfold Fits at hfit
  cases g with
  | nil =>
    simp only [List.length_nil, lt_irrefl, if_false, Nat.add_zero] at hlen
    have hroom : (insertText h []).chars.length + r.length + 1 ≤ buffer.length := by
      rw [hsize, ← CString.length]
      omega
    obtain ⟨buffer', hcpy, hsize', hpre'⟩ := strcpy_spec hpre hroom
    refine ⟨buffer', ?_, hsize'.trans hsize, ?_⟩
    · rw [writeRow, if_neg (by rw [hb.cnt]; exact lt_irrefl 0), hptr, hcpy]
    · rw [insertText_nil] at hpre'
      exact hpre'
  | cons s g =>
    have hpos : 0 < (s :: g).length := Nat.succ_pos _
    rw [if_pos hpos] at hlen
    have hroom : (insertText h (s :: g)).chars.length < buffer.length := by
      rw [hsize, ← CString.length]
      omega
    obtain ⟨buffer₁, hbyte, hsize₁, hpre₁⟩ := storeByte_spec hpre hroom (charByte ',')
    have hlen₁ : ((insertText h (s :: g)).chars ++ [charByte ',']).length = con.bulkPtr + 1 := by
      rw [List.length_append, List.length_singleton, hptr]
    have hroom₁ : ((insertText h (s :: g)).chars ++ [charByte ',']).length + r.length + 1 ≤
        buffer₁.length := by
      rw [hlen₁, hsize₁, hsize, hb.ptr]
      omega
    obtain ⟨buffer', hcpy, hsize', hpre'⟩ := strcpy_spec hpre₁ hroom₁
    refine ⟨buffer', ?_, (hsize'.trans hsize₁).trans hsize, ?_⟩
    · rw [hlen₁] at hcpy
      rw [writeRow, if_pos (by rw [hb.cnt]; exact hpos), hptr, hbyte, ← hptr]
      exact hcpy
    · rw [StartsWith, insertText_snoc h (List.cons_ne_nil s g), CString.chars_append,
        CString.chars_append, ← List.append_assoc]
      exact hpre'

theorem storeRow_eq (hb : Buffers con h g) (hfit : Fits h (g ++ [r])) :
    ∃ buffer ptr cnt,
      storeRow con r = some { con with bulkBuffer := some buffer, bulkPtr := ptr, bulkCnt := cnt } ∧
      Buffers { con with bulkBuffer := some buffer, bulkPtr := ptr, bulkCnt := cnt } h
        (g ++ [r]) := by
  obtain ⟨buffer, hbuffer, hsize, hpre, _⟩ := hb.text
  obtain ⟨buffer', hwrite, hsize', hstarts⟩ := hb.writeRow_eq hfit hsize hpre
  have hlen := length_insertText_snoc h g r
  have hle := length_le_insertText h (g ++ [r])
  have hmax := hfit
  unfold Fits bulkPacketSize at hmax
  have hrow : toUInt 32 r.length = r.length := toUInt_natCast (by omega)
  have hptr : toUInt 32 (con.bulkPtr + (toUInt 32 r.length + commaLen con)) =
      (insertText h (g ++ [r])).length := by
    rw [hrow, hb.ptr, hb.commaLen_eq, hlen, ← Nat.cast_add, ← Nat.cast_add,
      toUInt_natCast (by omega)]
  have hcnt : toUInt 32 (con.bulkCnt + 1) = (g ++ [r]).length := by
    rw [List.length_append, List.length_singleton] at hle ⊢
    rw [hb.cnt, ← Nat.cast_succ, toUInt_natCast (by omega)]
  refine ⟨buffer', (insertText h (g ++ [r])).length, (g ++ [r]).length, ?_, ?_⟩
  · simp only [storeRow, hbuffer, hwrite, hptr, hcnt, Option.bind_eq_bind, Option.bind_some]
  · exact {
      driver := hb.driver
      buflen := hb.buflen
      origin := hb.origin
      ptr := rfl
      cnt := rfl
      fits := hfit
      text := ⟨buffer', rfl, hsize', (List.prefix_append _ _).trans hstarts, fun _ => hstarts⟩ }

theorem rewound (hb : Buffers con h g) : Buffers con.rewound h [] := by
  obtain ⟨buffer, hbuffer, hsize, hpre, _⟩ := hb.text
  have hfits := hb.fits
  have hheader : (insertText h g).length = h.length + (CString.join comma g).length :=
    CString.length_append h _
  exact {
    driver := hb.driver
    buflen := hb.buflen
    origin := hb.origin
    ptr := by rw [insertText_nil]; exact hb.origin
    cnt := rfl
    fits := by
      unfold Fits at hfits ⊢
      rw [insertText_nil]
      omega
    text := by
      refine ⟨buffer, hbuffer, hsize, ?_, fun hne => absurd rfl hne⟩
      rw [insertText_nil]
      exact (List.prefix_append _ _).trans hpre }

theorem queried (hb : Buffers con h g) {c : ℕ} {e : DbError} {log : List Query} :
    Buffers (con.queried c e log) h g where
  driver := hb.driver
  buflen := hb.buflen
  origin := hb.origin
  ptr := hb.ptr
  cnt := hb.cnt
  fits := hb.fits
  text := hb.text

end Buffers

def Succeeded (log : List Query) : Prop := ∀ q ∈ log, q.answer = .none

theorem succeeded_append {log log' : List Query} :
    Succeeded (log ++ log') ↔ Succeeded log ∧ Succeeded log' := List.forall_mem_append

/-- The query that an action of the batcher stands for, when it succeeds. -/
def actionQuery (h : CString) : Action CString → Query
  | .send g => ⟨insertText h g, .none⟩
  | .settle => ⟨commitText, .none⟩

/-- The commit counter counts what the batcher counts. -/
def Counts (con : DbConn) (b : Batcher CString) : Prop :=
  con.bulkCommitMax ≠ 0 → con.bulkCommitCnt = b.unsettled ∧ b.unsettled < con.bulkCommitMax

section Insert

variable {con : DbConn} {h : CString} {b : Batcher CString}

theorem commitRows_cases (con : DbConn) {d : DbDriver} (hd : con.driver = some d) (isLast : Bool) :
    ∃ c e log, commitRows con isLast = (false, con.queried c e log) ∧ ¬ Succeeded log ∨
      commitRows con isLast = (true, con.queried c e log) ∧
        if con.bulkCommitMax ≠ 0 ∧
            (isLast ∨ con.bulkCommitMax ≤ toUInt 32 (con.bulkCommitCnt + con.bulkCnt)) then
          log = [⟨commitText, .none⟩] ∧ c = 0
        else
          log = [] ∧ (con.bulkCommitMax ≠ 0 → c = toUInt 32 (con.bulkCommitCnt + con.bulkCnt)) := by
  by_cases hmax : con.bulkCommitMax = 0
  · refine ⟨con.bulkCommitCnt, con.dbErrno, [], Or.inr ⟨?_, ?_⟩⟩
    · rw [commitRows, if_neg fun hne => hne hmax, DbConn.queried, List.append_nil]
    · rw [if_neg fun hc => hc.1 hmax]
      exact ⟨rfl, fun hne => absurd hmax hne⟩
  by_cases hdue : isLast ∨ con.bulkCommitMax ≤ toUInt 32 (con.bulkCommitCnt + con.bulkCnt)
  · obtain ⟨answer, errno, hq⟩ := dbQuery_eq { con with
      bulkCommitCnt := toUInt 32 (con.bulkCommitCnt + con.bulkCnt) } hd commitText
    by_cases ha : answer = .none
    · refine ⟨0, errno, [⟨commitText, .none⟩], Or.inr ⟨?_, ?_⟩⟩
      · simp only [commitRows, hmax, hdue, hq, ha, ne_eq, not_false_eq_true, if_true,
          decide_true, DbConn.queried]
      · rw [if_pos ⟨hmax, hdue⟩]
        exact ⟨rfl, rfl⟩
    · refine ⟨toUInt 32 (con.bulkCommitCnt + con.bulkCnt), errno, [⟨commitText, answer⟩],
        Or.inl ⟨?_, ?_⟩⟩
      · simp only [commitRows, hmax, hdue, hq, ha, ne_eq, not_false_eq_true, if_true,
          decide_false, DbConn.queried]
      · intro hs
        exact ha (hs _ List.mem_cons_self)
  · refine ⟨toUInt 32 (con.bulkCommitCnt + con.bulkCnt), con.dbErrno, [], Or.inr ⟨?_, ?_⟩⟩
    · simp only [commitRows, hmax, hdue, ne_eq, not_false_eq_true, if_true, if_false,
        DbConn.queried, List.append_nil]
    · rw [if_neg fun hc => hdue hc.2]
      exact ⟨rfl, fun _ => rfl⟩

theorem dbBulkDoInsert_of_text {buffer : List Byte} {text : CString} (hcnt : ¬ con.bulkCnt = 0)
    (hbuffer : con.bulkBuffer = some buffer) (hread : readString buffer = some text)
    (isLast : Bool) : dbBulkDoInsert con isLast =
      match dbQuery con text with
      | (false, con) => some (.error .queryFailed, con)
      | (true, con) =>
        match commitRows con isLast with
        | (false, con) => some (.error .queryFailed, con)
        | (true, con) => some (.ok (), con.rewound) := by
  unfold dbBulkDoInsert
  rw [if_neg hcnt, hbuffer, Option.bind_eq_bind, Option.bind_some, hread, Option.bind_eq_bind,
    Option.bind_some]
  rfl

/-- The queries of a successful flush and the counter after it are the batcher's. -/
theorem counts_flush {isLast : Bool} {n c : ℕ} {e : DbError} {log : List Query}
    (hg : b.pending ≠ []) (hn : con.bulkCommitMax ≠ 0 → n = b.unsettled + b.pending.length)
    (hdue : if con.bulkCommitMax ≠ 0 ∧ (isLast ∨ con.bulkCommitMax ≤ n) then
        log = [⟨commitText, .none⟩] ∧ c = 0
      else log = [] ∧ (con.bulkCommitMax ≠ 0 → c = n)) :
    ⟨insertText h b.pending, .none⟩ :: log =
        (flush con.bulkCommitMax isLast b).1.map (actionQuery h) ∧
      Counts (con.queried c e (⟨insertText h b.pending, .none⟩ :: log)).rewound
        (flush con.bulkCommitMax isLast b).2 := by
  by_cases hdo : con.bulkCommitMax ≠ 0 ∧ (isLast ∨ con.bulkCommitMax ≤ n)
  · rw [if_pos hdo] at hdue
    have hdo' := hdo
    rw [hn hdo.1] at hdo'
    obtain ⟨rfl, rfl⟩ := hdue
    rw [flush, if_neg hg, if_pos hdo']
    exact ⟨rfl, fun _ => ⟨rfl, Nat.pos_of_ne_zero hdo.1⟩⟩
  · rw [if_neg hdo] at hdue
    obtain ⟨rfl, hc⟩ := hdue
    have hdo' : ¬ (con.bulkCommitMax ≠ 0 ∧
        (isLast ∨ con.bulkCommitMax ≤ b.unsettled + b.pending.length)) := by
      rintro ⟨hne, hdue⟩
      rw [hn hne] at hdo
      exact hdo ⟨hne, hdue⟩
    rw [flush, if_neg hg, if_neg hdo']
    refine ⟨rfl, fun hne => ⟨(hc hne).trans (hn hne), ?_⟩⟩
    by_contra hge
    exact hdo' ⟨hne, Or.inr (not_lt.mp hge)⟩

/-- A flush either fails and leaves the text in place, or sends what the batcher sends. -/
theorem dbBulkDoInsert_cases (hb : Buffers con h b.pending) (isLast : Bool) :
    ∃ res con' log, dbBulkDoInsert con isLast = some (res, con') ∧
      con'.sent = con.sent ++ log ∧ con'.bulkCommitMax = con.bulkCommitMax ∧
      ((∃ e, res = .error e) ∧ ¬ Succeeded log ∧ Buffers con' h b.pending ∨
        res = .ok () ∧ Buffers con' h [] ∧ (Counts con b → con.bulkCommitMax ≤ rowsBeforeCommit →
          log = (flush con.bulkCommitMax isLast b).1.map (actionQuery h) ∧
            Counts con' (flush con.bulkCommitMax isLast b).2)) := by
  by_cases hg : b.pending = []
  · have hcnt : con.bulkCnt = 0 := by rw [hb.cnt, hg, List.length_nil]
    refine ⟨.ok (), con, [], if_pos hcnt, (List.append_nil _).symm, rfl, Or.inr ⟨rfl, ?_, ?_⟩⟩
    · rw [hg] at hb
      exact hb
    · intro hc _
      rw [flush_nil hg]
      exact ⟨rfl, hc⟩
  have hcnt : ¬ con.bulkCnt = 0 := by
    rw [hb.cnt]
    exact fun hz => hg (List.length_eq_zero_iff.mp hz)
  obtain ⟨d, hd⟩ := hb.driver
  obtain ⟨buffer, hbuffer, _, _, hstarts⟩ := hb.text
  have hinsert := dbBulkDoInsert_of_text hcnt hbuffer (readString_of_startsWith (hstarts hg)) isLast
  obtain ⟨answer, errno, hq⟩ := dbQuery_eq con hd (insertText h b.pending)
  rw [hq] at hinsert
  by_cases ha : answer = .none
  · subst ha
    obtain ⟨c, e, log, hcommit⟩ := commitRows_cases
      (con.queried con.bulkCommitCnt errno [⟨insertText h b.pending, .none⟩]) hd isLast
    rw [DbConn.queried_queried, List.singleton_append] at hcommit
    rcases hcommit with ⟨hcommit, hfail⟩ | ⟨hcommit, hdue⟩
    · simp only [eq_self, decide_true, hcommit] at hinsert
      refine ⟨_, _, _, hinsert, rfl, rfl, Or.inl ⟨⟨_, rfl⟩, ?_, hb.queried⟩⟩
      intro hs
      exact hfail fun q hq => hs q (List.mem_cons_of_mem _ hq)
    · simp only [eq_self, decide_true, hcommit] at hinsert
      refine ⟨_, _, _, hinsert, rfl, rfl, Or.inr ⟨rfl, hb.queried.rewound, ?_⟩⟩
      intro hcounts hmax
      have hcnt' : con.bulkCommitMax ≠ 0 →
          toUInt 32 (con.bulkCommitCnt + con.bulkCnt) = b.unsettled + b.pending.length := by
        intro hne
        have hle := length_le_insertText h b.pending
        have hfits := hb.fits
        obtain ⟨hunsettled, hlt⟩ := hcounts hne
        unfold Fits bulkPacketSize at hfits
        unfold rowsBeforeCommit at hmax
        rw [hunsettled, hb.cnt, ← Nat.cast_add, toUInt_natCast (by omega)]
      exact counts_flush hg hcnt' hdue
  · rw [decide_eq_false ha] at hinsert
    refine ⟨_, _, _, hinsert, rfl, rfl, Or.inl ⟨⟨_, rfl⟩, ?_, hb.queried⟩⟩
    intro hs
    exact ha (hs _ List.mem_cons_self)

/-- A call either fails with a failed query and adds nothing, or does what the batcher does. -/
theorem dbBulkInsertNext_cases {r : CString} (hb : Buffers con h b.pending) (hr : Fits h [r]) :
    ∃ res con' log, dbBulkInsertNext con r = some (res, con') ∧
      con'.sent = con.sent ++ log ∧ con'.bulkCommitMax = con.bulkCommitMax ∧
      ((∃ e, res = .error e) ∧ ¬ Succeeded log ∧ Buffers con' h b.pending ∨
        res = .ok () ∧ Buffers con' h (add (Fits h) con.bulkCommitMax b r).2.pending ∧
          (Counts con b → con.bulkCommitMax ≤ rowsBeforeCommit →
            log = (add (Fits h) con.bulkCommitMax b r).1.map (actionQuery h) ∧
              Counts con' (add (Fits h) con.bulkCommitMax b r).2)) := by
  have hspace := hb.space_iff hr
  unfold dbBulkInsertNext
  rcases add_cases (Fits h) con.bulkCommitMax b r with
    ⟨hadd, hfit⟩ | ⟨hadd, hne, hfull⟩
  · have hfit' : Fits h (b.pending ++ [r]) := by
      rcases hfit with hnil | hfit
      · rw [hnil]
        exact hr
      · exact hfit
    obtain ⟨buffer, ptr, cnt, hstore, hb'⟩ := hb.storeRow_eq hfit'
    simp only [if_neg fun hlt => hspace.mp hlt hfit', hstore, Option.map_some, hadd]
    refine ⟨_, _, [], rfl, (List.append_nil _).symm, rfl, Or.inr ⟨rfl, hb', ?_⟩⟩
    exact fun hc _ => ⟨rfl, hc⟩
  · have hcnt : ¬ con.bulkCnt = 0 := by
      rw [hb.cnt]
      exact fun hz => hne (List.length_eq_zero_iff.mp hz)
    obtain ⟨res, con', log, hinsert, hsent, hmax, hres⟩ := dbBulkDoInsert_cases hb false
    simp only [if_pos (hspace.mpr hfull), if_neg hcnt, hinsert, hadd]
    rcases hres with ⟨⟨e, rfl⟩, hfail, hb'⟩ | ⟨rfl, hb', hcounts⟩
    · exact ⟨_, _, log, rfl, hsent, hmax, Or.inl ⟨⟨e, rfl⟩, hfail, hb'⟩⟩
    · obtain ⟨buffer, ptr, cnt, hstore, hb''⟩ := hb'.storeRow_eq (r := r) hr
      simp only [hstore, Option.map_some]
      exact ⟨_, _, log, rfl, hsent, hmax, Or.inr ⟨rfl, hb'', hcounts⟩⟩

theorem dbBulkInsertDone_cases (hb : Buffers con h b.pending) :
    ∃ con' log, dbBulkInsertDone con = some con' ∧ con'.sent = con.sent ++ log ∧
      (Succeeded log → Counts con b → con.bulkCommitMax ≤ rowsBeforeCommit →
        log = (flush con.bulkCommitMax true b).1.map (actionQuery h)) := by
  obtain ⟨res, con', log, hinsert, hsent, _, hres⟩ := dbBulkDoInsert_cases hb true
  refine ⟨{ con' with bulkBuffer := none }, log, ?_, hsent, ?_⟩
  · simp only [dbBulkInsertDone, hinsert, Option.bind_eq_bind, Option.bind_some]
  · intro hs hc hmax
    rcases hres with ⟨_, hfail, _⟩ | ⟨_, _, hcounts⟩
    · exact absurd hs hfail
    · exact (hcounts hc hmax).1

end Insert

/-- One call of `db_bulk_insert_next`, whatever it returns. -/
def nextStep (con : DbConn) (r : CString) : Option DbConn :=
  (dbBulkInsertNext con r).map Prod.snd

section Session

variable {con : DbConn} {h : CString} {rows : List CString}

/-- Rows that fit behind the header never make the code leave the buffer. -/
theorem session_defined {g : List CString} (hb : Buffers con h g)
    (hrows : ∀ r ∈ rows, Fits h [r]) :
    ∃ con₁ con₂ log, run nextStep con rows = some con₁ ∧ dbBulkInsertDone con₁ = some con₂ ∧
      con₂.sent = con.sent ++ log := by
  induction rows generalizing con g with
  | nil =>
    obtain ⟨con₂, log, hdone, hsent, _⟩ := dbBulkInsertDone_cases (b := ⟨g, 0⟩) hb
    exact ⟨con, con₂, log, rfl, hdone, hsent⟩
  | cons r rows ih =>
    have hr := hrows r List.mem_cons_self
    have hrest : ∀ r ∈ rows, Fits h [r] := fun s hs => hrows s (List.mem_cons_of_mem r hs)
    obtain ⟨res, con', log, hnext, hsent, _, hres⟩ :=
      dbBulkInsertNext_cases (b := ⟨g, 0⟩) hb hr
    have hb' : ∃ g', Buffers con' h g' := by
      rcases hres with ⟨_, _, hb'⟩ | ⟨_, hb', _⟩
      · exact ⟨_, hb'⟩
      · exact ⟨_, hb'⟩
    obtain ⟨g', hb'⟩ := hb'
    obtain ⟨con₁, con₂, log', hrun, hdone, hsent'⟩ := ih hb' hrest
    refine ⟨con₁, con₂, log ++ log', ?_, hdone, ?_⟩
    · rw [run_cons, nextStep, hnext]
      exact hrun
    · rw [hsent', hsent, List.append_assoc]

/-- The queries after `k` calls are those of the first `k` calls of the batcher. -/
def Follows (con : DbConn) (h : CString) (rows : List CString)
    (calls : List (List (Action CString))) : Prop :=
  ∀ k ≤ rows.length, ∃ conₖ, run nextStep con (rows.take k) = some conₖ ∧
    conₖ.sent = con.sent ++ (calls.take k).flatten.map (actionQuery h)

theorem session_follows {b : Batcher CString} (hb : Buffers con h b.pending) (hc : Counts con b)
    (hmax : con.bulkCommitMax ≤ rowsBeforeCommit) (hrows : ∀ r ∈ rows, Fits h [r]) :
    ∃ con₁ con₂ log, run nextStep con rows = some con₁ ∧ dbBulkInsertDone con₁ = some con₂ ∧
      con₂.sent = con.sent ++ log ∧ (Succeeded log →
        log = (calls (Fits h) con.bulkCommitMax b rows).flatten.map (actionQuery h) ∧
          Follows con h rows (calls (Fits h) con.bulkCommitMax b rows)) := by
  induction rows generalizing con b with
  | nil =>
    obtain ⟨con₂, log, hdone, hsent, hflush⟩ := dbBulkInsertDone_cases hb
    refine ⟨con, con₂, log, rfl, hdone, hsent, fun hs => ⟨?_, ?_⟩⟩
    · rw [calls, List.flatten_singleton]
      exact hflush hs hc hmax
    · intro k hk
      rw [Nat.le_zero.mp hk]
      exact ⟨con, rfl, (List.append_nil _).symm⟩
  | cons r rows ih =>
    have hr := hrows r List.mem_cons_self
    have hrest : ∀ r ∈ rows, Fits h [r] := fun s hs => hrows s (List.mem_cons_of_mem r hs)
    obtain ⟨res, con', log, hnext, hsent, hmax', hres⟩ := dbBulkInsertNext_cases hb hr
    have hstep : nextStep con r = some con' := by rw [nextStep, hnext, Option.map_some]
    rcases hres with ⟨_, hfail, hb'⟩ | ⟨_, hb', hcounts⟩
    · obtain ⟨con₁, con₂, log', hrun, hdone, hsent'⟩ := session_defined hb' hrest
      refine ⟨con₁, con₂, log ++ log', ?_, hdone, ?_, ?_⟩
      · rw [run_cons, hstep]
        exact hrun
      · rw [hsent', hsent, List.append_assoc]
      · exact fun hs => absurd (succeeded_append.mp hs).1 hfail
    · obtain ⟨hlog, hc'⟩ := hcounts hc hmax
      obtain ⟨con₁, con₂, log', hrun, hdone, hsent', hfollows⟩ :=
        ih hb' hc' (hmax'.trans_le hmax) hrest
      rw [hmax'] at hfollows
      refine ⟨con₁, con₂, log ++ log', ?_, hdone, ?_, fun hs => ?_⟩
      · rw [run_cons, hstep]
        exact hrun
      · rw [hsent', hsent, List.append_assoc]
      obtain ⟨hlog', hbefore⟩ := hfollows (succeeded_append.mp hs).2
      refine ⟨?_, ?_⟩
      · rw [calls, List.flatten_cons, List.map_append, hlog', hlog]
      · intro k hk
        cases k with
        | zero => exact ⟨con, rfl, (List.append_nil _).symm⟩
        | succ k =>
          obtain ⟨conₖ, hrunₖ, hsentₖ⟩ := hbefore k (Nat.le_of_succ_le_succ hk)
          refine ⟨conₖ, ?_, ?_⟩
          · rw [List.take_succ_cons, run_cons, hstep]
            exact hrunₖ
          · rw [hsentₖ, hsent, hlog, calls, List.take_succ_cons, List.flatten_cons,
              List.map_append, List.append_assoc]

end Session

section Init

variable {con : DbConn} {block : Option (List.Vector Byte bulkPacketSize)} {h : CString}

/-- What an accepted header leaves: the header in the buffer and no row. -/
theorem dbBulkInsertInit_ok {con₀ : DbConn}
    (hinit : dbBulkInsertInit con block h = some (.ok (), con₀)) :
    Buffers con₀ h [] ∧ con₀.bulkCommitCnt = 0 ∧
      ∃ d caps, con.driver = some d ∧ dbDescribe d = some caps ∧
        con₀.bulkCommitMax = if caps.needsCommit then rowsBeforeCommit else 0 := by
  unfold dbBulkInsertInit at hinit
  split at hinit
  · cases hinit
  next d hd =>
  split at hinit
  · cases hinit
  next caps hcaps =>
  dsimp only at hinit
  by_cases hlen : bulkPacketSize < h.length + 1
  · rw [if_pos hlen] at hinit
    cases hinit
  rw [if_neg hlen] at hinit
  cases block with
  | none => cases hinit
  | some block =>
    have hsize : block.toList.length = bulkPacketSize := block.toList_length
    have hroom : ([] : List Byte).length + h.length + 1 ≤ block.toList.length := by
      rw [hsize, List.length_nil]
      omega
    obtain ⟨buffer, hcpy, hsize', hpre⟩ := strcpy_spec List.nil_prefix hroom
    rw [List.length_nil] at hcpy
    simp only [Option.map_some, hcpy, Option.bind_eq_bind, Option.bind_some, Option.some.injEq,
      Prod.mk.injEq, true_and] at hinit
    subst hinit
    refine ⟨?_, rfl, d, caps, hd, hcaps, rfl⟩
    rw [List.nil_append] at hpre
    exact {
      driver := ⟨d, hd⟩
      buflen := rfl
      origin := rfl
      ptr := by rw [insertText_nil]
      cnt := rfl
      fits := by
        rw [Fits, insertText_nil]
        omega
      text := by
        refine ⟨buffer, rfl, hsize'.trans hsize, ?_, fun hne => absurd rfl hne⟩
        rw [insertText_nil]
        exact (List.prefix_append _ _).trans hpre }

/-- A header that fits is accepted when the driver and the memory are there. -/
theorem dbBulkInsertInit_accepts {d : DbDriver} {caps : DrvCaps} (hd : con.driver = some d)
    (hcaps : dbDescribe d = some caps) (hlen : h.length + 1 ≤ bulkPacketSize)
    (memory : List.Vector Byte bulkPacketSize) :
    ∃ con₀, dbBulkInsertInit con (some memory) h = some (.ok (), con₀) := by
  have hroom : ([] : List Byte).length + h.length + 1 ≤ memory.toList.length := by
    rw [memory.toList_length, List.length_nil]
    omega
  obtain ⟨buffer, hcpy, _, _⟩ := strcpy_spec List.nil_prefix hroom
  rw [List.length_nil] at hcpy
  unfold dbBulkInsertInit
  simp only [hd, hcaps, if_neg (not_lt.mpr hlen), Option.map_some, hcpy, Option.bind_eq_bind,
    Option.bind_some]
  exact ⟨_, rfl⟩

end Init

/-- What the statements sent by `calls` must be: each one the header with a non-empty group
that fits, the groups in order all the rows, and none sent while the next row would fit. -/
structure Delivered (h : CString) (buflen : ℕ) (rows : List CString)
    (calls : List (List (Action CString))) : Prop where
  length : calls.length = rows.length + 1
  rows_eq : (groups calls.flatten).flatten = rows
  group : ∀ g ∈ groups calls.flatten, g ≠ [] ∧ (insertText h g).length + 1 ≤ buflen
  full : ∀ (k : ℕ) call r g, calls[k]? = some call → rows[k]? = some r → g ∈ groups call →
    buflen < (insertText h (g ++ [r])).length + 1

/-- Fewer than `commitMax` rows are uncommitted after each row, and none at the end. -/
def Committed (commitMax : ℕ) (rows : List CString) (calls : List (List (Action CString))) :
    Prop :=
  (∀ k ≤ rows.length, unsettled 0 (calls.take k).flatten < commitMax) ∧
    unsettled 0 calls.flatten = 0

/-- A bulk insert hands the driver every row exactly once. -/
theorem bulkInsert_delivers {con con₀ : DbConn}
    {block : Option (List.Vector Byte bulkPacketSize)} {h : CString} (rows : List CString)
    (hinit : dbBulkInsertInit con block h = some (.ok (), con₀))
    (hrows : ∀ r ∈ rows, h.length + r.length + 1 ≤ con₀.bulkBuflen) :
    ∃ con₁ con₂ log, run nextStep con₀ rows = some con₁ ∧ dbBulkInsertDone con₁ = some con₂ ∧
      con₂.sent = con₀.sent ++ log ∧
      (Succeeded log → ∃ calls, log = calls.flatten.map (actionQuery h) ∧
        Follows con₀ h rows calls ∧ Delivered h con₀.bulkBuflen rows calls ∧
        ∀ d caps, con.driver = some d → dbDescribe d = some caps → caps.needsCommit →
          Committed con₀.bulkCommitMax rows calls) := by
  obtain ⟨hb, hcnt, d, caps, hd, hcaps, hmax⟩ := dbBulkInsertInit_ok hinit
  have hle : con₀.bulkCommitMax ≤ rowsBeforeCommit := by
    rw [hmax]
    split
    · exact le_rfl
    · exact Nat.zero_le _
  have hcounts : Counts con₀ ⟨[], 0⟩ := fun hne => ⟨hcnt, Nat.pos_of_ne_zero hne⟩
  have hfit : ∀ r ∈ rows, Fits h [r] := by
    intro r hr
    have hlen := hrows r hr
    rw [hb.buflen] at hlen
    rwa [Fits, insertText_singleton, CString.length_append]
  obtain ⟨con₁, con₂, log, hrun, hdone, hsent, hfollows⟩ :=
    session_follows (b := ⟨[], 0⟩) hb hcounts hle hfit
  refine ⟨con₁, con₂, log, hrun, hdone, hsent, fun hs => ?_⟩
  obtain ⟨hlog, hbefore⟩ := hfollows hs
  refine ⟨_, hlog, hbefore, ?_, ?_⟩
  · rw [hb.buflen]
    exact {
      length := length_calls _ rows
      rows_eq := flatten_groups_calls _ rows
      group := fun g hg => groups_calls _ rows (fun hne => absurd rfl hne) hfit hg
      full := fun k call r g hcall hr hg => not_le.mp (calls_full _ rows hcall hr hg) }
  · intro d' caps' hd' hcaps' hneeds
    cases hd.symm.trans hd'
    cases hcaps.symm.trans hcaps'
    have hlim : con₀.bulkCommitMax ≠ 0 := by
      rw [hmax, if_pos hneeds]
      decide
    exact ⟨fun k hk => unsettled_calls_lt hlim ⟨[], 0⟩ rows (Nat.pos_of_ne_zero hlim) hk,
      unsettled_calls hlim ⟨[], 0⟩ rows fun _ => rfl⟩

def commitConn : DbConn where
  driver := some ⟨some (some ⟨true, true⟩), fun _ _ => .none⟩
  dbErrno := .none
  bulkSupported := false
  bulkCnt := 0
  bulkBuffer := none
  bulkBuflen := 0
  bulkPtr := 0
  bulkPtrOrig := 0
  bulkCommitCnt := 0
  bulkCommitMax := 0
  sent := []

theorem bulkInsert_delivers_comma : ∃ con₀ con₁ con₂ log,
    dbBulkInsertInit commitConn (some (List.Vector.replicate _ 0)) comma = some (.ok (), con₀) ∧
      run nextStep con₀ [comma, comma] = some con₁ ∧ dbBulkInsertDone con₁ = some con₂ ∧
      con₂.sent = con₀.sent ++ log ∧ (Succeeded log → ∃ calls,
        log = calls.flatten.map (actionQuery comma) ∧ Follows con₀ comma [comma, comma] calls ∧
        Delivered comma con₀.bulkBuflen [comma, comma] calls ∧
        ∀ d caps, commitConn.driver = some d → dbDescribe d = some caps → caps.needsCommit →
          Committed con₀.bulkCommitMax [comma, comma] calls) := by
  obtain ⟨con₀, hinit⟩ := dbBulkInsertInit_accepts (show commitConn.driver = some _ from rfl) rfl
    (show comma.length + 1 ≤ bulkPacketSize by decide) (List.Vector.replicate _ 0)
  have hlen := (dbBulkInsertInit_ok hinit).1.buflen
  obtain ⟨con₁, con₂, log, hsession⟩ := bulkInsert_delivers [comma, comma] hinit (by
    rw [hlen]
    decide)
  exact ⟨con₀, con₁, con₂, log, hinit, hsession⟩

end Sysbench.Database
