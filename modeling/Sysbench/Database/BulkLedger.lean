import Sysbench.Database.BulkBounds

/-! # The rows of bulk-insert statements

A ledger is kept beside the calls. It numbers the rows that were taken in the order of
their calls and records for each INSERT which of them stood in the buffer. A row handed in
again after a failed call is not a new row.
-/
namespace Sysbench.Database

open Bytes CStrings Words Runs

/-- An INSERT handed to `db_query`: the number of its first row, and how many rows it has. -/
structure Statement where
  first : ℕ
  count : ℕ
  query : Query

def Statement.rows (s : Statement) : List ℕ := List.range' s.first s.count

@[simp] theorem Statement.length_rows (s : Statement) : s.rows.length = s.count :=
  List.length_range'

structure Ledger where
  con : DbConn
  /-- The rows of the calls that returned 0. -/
  added : List CString
  statements : List Statement

namespace Ledger

def start (con : DbConn) : Ledger := ⟨con, [], []⟩

/-- The INSERT is the first query of a call, and its rows are the last `bulk_cnt` ones. -/
def statement (L : Ledger) (con' : DbConn) : Option Statement :=
  (con'.sent.drop L.con.sent.length).head?.map fun q =>
    ⟨L.added.length - L.con.bulkCnt, L.con.bulkCnt, q⟩

def record (L : Ledger) (taken : List CString) (con' : DbConn) : Ledger where
  con := con'
  added := L.added ++ taken
  statements := L.statements ++ (L.statement con').toList

def next (L : Ledger) (r : CString) : Option Ledger :=
  (dbBulkInsertNext L.con r).map fun
    | (.ok (), con') => L.record [r] con'
    | (.error _, con') => L.record [] con'

def done (L : Ledger) : Option Ledger := (dbBulkInsertDone L.con).map (L.record [])

def inserted (L : Ledger) : List ℕ :=
  (L.statements.filter fun s => s.query.answer = .none).flatMap Statement.rows

end Ledger

/-- A failed call has left the buffer as it was and inserted none of its rows. -/
structure Unchanged (con con' : DbConn) : Prop where
  cnt : con'.bulkCnt = con.bulkCnt
  ptr : con'.bulkPtr = con.bulkPtr
  commitCnt : con'.bulkCommitCnt = con.bulkCommitCnt
  text : con'.bufferedText = con.bufferedText
  refused : ∀ q ∈ con'.sent.drop con.sent.length,
    con.bufferedText = some q.text → q.answer ≠ .none

/-- Where the call flushes, a COMMIT due behind an accepted INSERT is accepted as well. -/
def FlushWhole (con : DbConn) (r : CString) : Prop :=
  NeedsFlush con r → InsertAccepted con → CommitDue con false → CommitAccepted con

def FailsCleanly (L : Ledger) (r : CString) : Prop :=
  ∀ e con', dbBulkInsertNext L.con r = some (.error e, con') → Unchanged L.con con'

/-- The call does not put its row behind another one. -/
def RowAlone (con : DbConn) (r : CString) : Prop := con.bulkCnt = 0 ∨ NeedsFlush con r

section Calls

variable {con con' : DbConn} {h r : CString} {g : List CString} {isLast : Bool}
  {res : Except BulkError Unit} {L L' : Ledger}

/-- A flush hands over the buffered statement first. -/
theorem Flush.sent_eq (hflush : Flush con h g isLast res con') : ∃ answer log,
    con'.sent = con.sent ++ ⟨insertText h g, answer⟩ :: log ∧
      (answer = .none ↔ InsertAccepted con) := by
  cases hflush with
  | refused errno answer hinsert hanswer =>
    exact ⟨answer, [], rfl, iff_of_false hanswer hinsert⟩
  | uncommitted errno answer hinsert hdue hcommit hanswer =>
    exact ⟨.none, _, rfl, iff_of_true rfl hinsert⟩
  | sent cnt errno log haccepted => exact ⟨.none, log, rfl, iff_of_true rfl haccepted.1⟩

theorem drop_sent {log : List Query} (hsent : con'.sent = con.sent ++ log) :
    con'.sent.drop con.sent.length = log := by
  rw [hsent, List.drop_left]

theorem Unchanged.refl (con : DbConn) : Unchanged con con where
  cnt := rfl
  ptr := rfl
  commitCnt := rfl
  text := rfl
  refused := by
    intro q hq
    rw [List.drop_length] at hq
    cases hq

/-- A failed call has changed nothing unless its INSERT was accepted before a COMMIT failed. -/
theorem unchanged_iff {e : BulkError} (hb : Buffers con h g)
    (hcall : NextCall con h g r (.error e) con') : Unchanged con con' ↔ FlushWhole con r := by
  cases hcall with
  | tooLong hg hfit =>
    refine iff_of_true (Unchanged.refl con) fun hneeds => ?_
    exact absurd (hb.cnt_eq_zero_iff.mpr hg) hneeds.1
  | failed hg hneeds hflush =>
    cases hflush with
    | refused errno answer hinsert hanswer =>
      refine iff_of_true ?_ fun _ hacc => absurd hacc hinsert
      exact {
        cnt := rfl
        ptr := rfl
        commitCnt := rfl
        text := rfl
        refused := by
          intro q hq _
          rw [drop_sent rfl, List.mem_singleton] at hq
          rw [hq]
          exact hanswer }
    | uncommitted errno answer hinsert hdue hcommit hanswer =>
      apply iff_of_false
      · intro hsame
        refine hsame.refused ⟨insertText h g, .none⟩ ?_ (hb.bufferedText_eq hg) rfl
        rw [drop_sent rfl]
        exact List.mem_cons_self
      · exact fun hwhole => hcommit (hwhole hneeds hinsert hdue)

theorem NextCall.flushWhole (hcall : NextCall con h g r (.ok ()) con') : FlushWhole con r := by
  cases hcall with
  | flushed hg hneeds hflush hb => exact fun _ _ => (hflush.ok_iff.mp rfl).2
  | stored hneeds hb => exact fun hneeds' => absurd hneeds' hneeds

/-- What a ledger says is true: its rows are those of the texts. -/
structure Ledger.Records (L : Ledger) (h : CString) (g : List CString) : Prop where
  buffers : Buffers L.con h g
  suffix : g <:+ L.added
  bound : ∀ s ∈ L.statements, s.first + s.count ≤ L.added.length
  text : ∀ s ∈ L.statements,
    s.query.text = insertText h ((L.added.drop s.first).take s.count)

theorem Ledger.statement_of_silent (hsent : con'.sent = L.con.sent) :
    L.statement con' = none := by
  rw [Ledger.statement, hsent, List.drop_length]
  rfl

theorem Ledger.statement_of_flush (hflush : Flush L.con h g isLast res con) :
    ∃ answer, (answer = .none ↔ InsertAccepted L.con) ∧ ∀ con', con'.sent = con.sent →
      L.statement con' = some ⟨L.added.length - L.con.bulkCnt, L.con.bulkCnt,
        ⟨insertText h g, answer⟩⟩ := by
  obtain ⟨answer, log, hsent, hanswer⟩ := hflush.sent_eq
  refine ⟨answer, hanswer, fun con' hsame => ?_⟩
  rw [Ledger.statement, drop_sent (hsame.trans hsent)]
  rfl

/-- One call in the ledger is one call of the code. -/
theorem Ledger.next_cases (hb : Buffers L.con h g) (hnext : L.next r = some L') :
    (∃ con', NextCall L.con h g r (.ok ()) con' ∧ L' = L.record [r] con') ∨
      ∃ e con', NextCall L.con h g r (.error e) con' ∧ L' = L.record [] con' := by
  rw [Ledger.next, Option.map_eq_some_iff] at hnext
  obtain ⟨⟨res, con'⟩, hcall, rfl⟩ := hnext
  cases res with
  | ok _ => exact Or.inl ⟨con', nextCall_of_eq hb hcall, rfl⟩
  | error e => exact Or.inr ⟨e, con', nextCall_of_eq hb hcall, rfl⟩

namespace Ledger.Records

theorem start (hb : Buffers con h []) : (Ledger.start con).Records h [] where
  buffers := hb
  suffix := List.suffix_rfl
  bound := nofun
  text := nofun

theorem cnt_le (hrec : L.Records h g) : L.con.bulkCnt ≤ L.added.length := by
  rw [hrec.buffers.cnt]
  exact hrec.suffix.length_le

theorem rows_eq (hrec : L.Records h g) :
    (L.added.drop (L.added.length - L.con.bulkCnt)).take L.con.bulkCnt = g := by
  rw [hrec.buffers.cnt, ← List.suffix_iff_eq_drop.mp hrec.suffix, List.take_length]

theorem record (hrec : L.Records h g) {taken g' : List CString}
    (hb : Buffers con' h g') (hsuffix : g' <:+ L.added ++ taken)
    (hstatement : ∀ s ∈ L.statement con', s.first = L.added.length - L.con.bulkCnt ∧
      s.count = L.con.bulkCnt ∧ s.query.text = insertText h g) :
    (L.record taken con').Records h g' where
  buffers := hb
  suffix := hsuffix
  bound := by
    have hle := hrec.cnt_le
    intro s hs
    rw [Ledger.record, List.length_append]
    rcases List.mem_append.mp hs with hs | hs
    · exact (hrec.bound s hs).trans (Nat.le_add_right _ _)
    · obtain ⟨hfirst, hcount, _⟩ := hstatement s (Option.mem_toList.mp hs)
      omega
  text := by
    have hle := hrec.cnt_le
    have hkeep : ∀ s : Statement, s.first + s.count ≤ L.added.length →
        ((L.added ++ taken).drop s.first).take s.count = (L.added.drop s.first).take s.count := by
      intro s hs
      rw [List.drop_append_of_le_length (by omega), List.take_append_of_le_length]
      rw [List.length_drop]
      omega
    intro s hs
    change s.query.text = insertText h (((L.added ++ taken).drop s.first).take s.count)
    rcases List.mem_append.mp hs with hs | hs
    · rw [hkeep s (hrec.bound s hs)]
      exact hrec.text s hs
    · obtain ⟨hfirst, hcount, htext⟩ := hstatement s (Option.mem_toList.mp hs)
      rw [hkeep s (by omega), htext, hfirst, hcount, hrec.rows_eq]

theorem next (hrec : L.Records h g) (hnext : L.next r = some L') : ∃ g', L'.Records h g' := by
  have hsilent : ∀ {con' : DbConn}, con'.sent = L.con.sent → ∀ s ∈ L.statement con',
      s.first = L.added.length - L.con.bulkCnt ∧ s.count = L.con.bulkCnt ∧
        s.query.text = insertText h g := by
    intro con' hsent s hs
    rw [Ledger.statement_of_silent hsent] at hs
    cases hs
  rcases Ledger.next_cases hrec.buffers hnext with ⟨con', hcall, rfl⟩ | ⟨e, con', hcall, rfl⟩
  · cases hcall with
    | flushed hg hneeds hflush hb =>
      obtain ⟨answer, _, hstatement⟩ := Ledger.statement_of_flush hflush
      refine ⟨[r], hrec.record hb (List.suffix_append _ _) fun s hs => ?_⟩
      cases hs.symm.trans (hstatement _ rfl)
      exact ⟨rfl, rfl, rfl⟩
    | stored hneeds hb =>
      have hsuffix : g ++ [r] <:+ L.added ++ [r] := (List.suffix_append_inj_of_length_eq rfl).mpr
        ⟨hrec.suffix, rfl⟩
      exact ⟨g ++ [r], hrec.record hb hsuffix (hsilent rfl)⟩
  · have hsuffix : g <:+ L.added ++ [] := by
      rw [List.append_nil]
      exact hrec.suffix
    cases hcall with
    | tooLong hg hfit => exact ⟨g, hrec.record hrec.buffers hsuffix (hsilent rfl)⟩
    | failed hg hneeds hflush =>
      obtain ⟨answer, _, hstatement⟩ := Ledger.statement_of_flush hflush
      refine ⟨g, hrec.record (hflush.buffers hrec.buffers) hsuffix fun s hs => ?_⟩
      cases hs.symm.trans (hstatement _ rfl)
      exact ⟨rfl, rfl, rfl⟩

theorem failsCleanly_iff (hrec : L.Records h g) (hnext : L.next r = some L') :
    FailsCleanly L r ↔ FlushWhole L.con r := by
  rw [Ledger.next, Option.map_eq_some_iff] at hnext
  obtain ⟨⟨res, con'⟩, hcall, _⟩ := hnext
  have hcases := nextCall_of_eq hrec.buffers hcall
  cases res with
  | ok _ =>
    refine iff_of_true (fun e con'' hfail => ?_) hcases.flushWhole
    cases hcall.symm.trans hfail
  | error e =>
    rw [← unchanged_iff hrec.buffers hcases]
    constructor
    · exact fun hclean => hclean e con' hcall
    · intro hsame e' con'' hfail
      cases hcall.symm.trans hfail
      exact hsame

end Ledger.Records

theorem Ledger.inserted_record {taken : List CString} :
    (L.record taken con').inserted = L.inserted ++
      ((L.statement con').toList.filter fun s => s.query.answer = .none).flatMap Statement.rows := by
  rw [Ledger.inserted, Ledger.inserted, Ledger.record, List.filter_append, List.flatMap_append]

/-- The rows in the buffer are not inserted yet, and the others at most once. -/
structure Ledger.Once (L : Ledger) : Prop where
  nodup : L.inserted.Nodup
  before : ∀ i ∈ L.inserted, i < L.added.length - L.con.bulkCnt

namespace Ledger.Once

/-- Without an accepted statement only the rows in the buffer may change. -/
theorem record_refused (honce : L.Once) {taken : List CString}
    (hrefused : ∀ s ∈ L.statement con', s.query.answer ≠ .none)
    (hle : L.added.length - L.con.bulkCnt ≤ (L.added ++ taken).length - con'.bulkCnt) :
    (L.record taken con').Once := by
  have hfilter : (L.statement con').toList.filter (fun s => s.query.answer = .none) = [] := by
    rw [List.filter_eq_nil_iff]
    intro s hs
    rw [decide_eq_true_eq]
    exact hrefused s (Option.mem_toList.mp hs)
  have hins : (L.record taken con').inserted = L.inserted := by
    rw [Ledger.inserted_record, hfilter, List.flatMap_nil, List.append_nil]
  constructor
  · rw [hins]
    exact honce.nodup
  · rw [hins]
    exact fun i hi => (honce.before i hi).trans_le hle

/-- An accepted statement takes the rows of the buffer, which start a new group. -/
theorem record_insert (honce : L.Once) {taken : List CString} {q : Query}
    (hstatement : L.statement con' =
      some ⟨L.added.length - L.con.bulkCnt, L.con.bulkCnt, q⟩) (hq : q.answer = .none)
    (hle : L.con.bulkCnt ≤ L.added.length)
    (hnew : L.added.length ≤ (L.added ++ taken).length - con'.bulkCnt) :
    (L.record taken con').Once := by
  have hins : (L.record taken con').inserted = L.inserted ++
      List.range' (L.added.length - L.con.bulkCnt) L.con.bulkCnt := by
    rw [Ledger.inserted_record, hstatement]
    simp [hq, Statement.rows]
  constructor
  · rw [hins, List.nodup_append]
    refine ⟨honce.nodup, List.nodup_range', ?_⟩
    rintro i hi j hj rfl
    have hlt := honce.before i hi
    have hge := (List.mem_range'_1.mp hj).1
    omega
  · rw [hins]
    intro i hi
    refine lt_of_lt_of_le ?_ hnew
    rcases List.mem_append.mp hi with hi | hi
    · exact (honce.before i hi).trans_le (Nat.sub_le _ _)
    · have hlt := (List.mem_range'_1.mp hi).2
      omega

theorem next (honce : L.Once) (hrec : L.Records h g) (hwhole : FlushWhole L.con r)
    (hnext : L.next r = some L') : L'.Once := by
  have hle := hrec.cnt_le
  have hsilent : ∀ {con' : DbConn}, con'.sent = L.con.sent → ∀ s ∈ L.statement con',
      s.query.answer ≠ .none := by
    intro con' hsent s hs
    rw [Ledger.statement_of_silent hsent] at hs
    cases hs
  rcases Ledger.next_cases hrec.buffers hnext with ⟨con', hcall, rfl⟩ | ⟨e, con', hcall, rfl⟩
  · cases hcall with
    | flushed hg hneeds hflush hb =>
      obtain ⟨answer, hanswer, hstatement⟩ := Ledger.statement_of_flush hflush
      have hcnt := hb.cnt
      refine honce.record_insert (hstatement _ rfl) (hanswer.mpr (hflush.ok_iff.mp rfl).1) hle ?_
      rw [hcnt, List.length_append]
      exact le_rfl
    | stored hneeds hb =>
      have hcnt := hb.cnt
      refine honce.record_refused (hsilent rfl) ?_
      rw [hcnt, hrec.buffers.cnt, List.length_append, List.length_append]
      simp
  · cases hcall with
    | tooLong hg hfit =>
      refine honce.record_refused (hsilent rfl) ?_
      rw [List.append_nil]
    | failed hg hneeds hflush =>
      obtain ⟨answer, hanswer, hstatement⟩ := Ledger.statement_of_flush hflush
      have hcnt := (hflush.buffers hrec.buffers).cnt
      refine honce.record_refused ?_ ?_
      · intro s hs
        cases hs.symm.trans (hstatement _ rfl)
        intro hnone
        have hflushed := hflush.ok_iff.mpr ⟨hanswer.mp hnone, hwhole hneeds (hanswer.mp hnone)⟩
        cases hflushed
      · rw [hcnt, hrec.buffers.cnt, List.append_nil]

end Ledger.Once

namespace Ledger

/-- Each statement so far has one row, and not more than one row waits. -/
structure Single (L : Ledger) : Prop where
  statements : ∀ s ∈ L.statements, s.count = 1
  waiting : L.con.bulkCnt ≤ 1

theorem single_iff : L.Single ↔ (∀ s ∈ L.statements, s.count = 1) ∧ L.con.bulkCnt ≤ 1 :=
  ⟨fun hs => ⟨hs.statements, hs.waiting⟩, fun hs => ⟨hs.1, hs.2⟩⟩

theorem forall_record {taken : List CString} :
    (∀ s ∈ (L.record taken con').statements, s.count = 1) ↔
      (∀ s ∈ L.statements, s.count = 1) ∧ ∀ s ∈ L.statement con', s.count = 1 := by
  rw [record, List.forall_mem_append]
  simp only [Option.mem_toList, Option.mem_def]

theorem forall_statement_of_silent (hsent : con'.sent = L.con.sent) :
    ∀ s ∈ L.statement con', s.count = 1 := by
  intro s hs
  rw [statement_of_silent hsent] at hs
  cases hs

theorem forall_record_of_silent {taken : List CString} (hsent : con'.sent = L.con.sent) :
    (∀ s ∈ (L.record taken con').statements, s.count = 1) ↔ ∀ s ∈ L.statements, s.count = 1 := by
  rw [forall_record, and_iff_left (forall_statement_of_silent hsent)]

/-- The statement of a flush has as many rows as the buffer. -/
theorem forall_statement_of_flush (hflush : Flush L.con h g isLast res con)
    (hsent : con'.sent = con.sent) :
    (∀ s ∈ L.statement con', s.count = 1) ↔ L.con.bulkCnt = 1 := by
  obtain ⟨answer, _, hstatement⟩ := statement_of_flush hflush
  rw [hstatement con' hsent]
  simp

/-- A call keeps the rows single exactly if it does not put its row behind another one. -/
theorem Records.single_next (hrec : L.Records h g) (hnext : L.next r = some L') :
    L'.Single ↔ L.Single ∧ RowAlone L.con r := by
  rw [single_iff, single_iff, RowAlone]
  rcases next_cases hrec.buffers hnext with ⟨con', hcall, rfl⟩ | ⟨e, con', hcall, rfl⟩
  · cases hcall with
    | flushed hg hneeds hflush hb =>
      have hcnt : (L.record [r] _).con.bulkCnt = 1 := hb.cnt
      have hwaits := hneeds.1
      have hone : L.con.bulkCnt = 1 ↔ L.con.bulkCnt ≤ 1 := by omega
      rw [forall_record, forall_statement_of_flush hflush, hcnt, and_iff_left (Or.inr hneeds), hone,
        and_iff_left le_rfl]
      rfl
    | stored hneeds hb =>
      have hlength : (g ++ [r]).length = L.con.bulkCnt + 1 := by
        rw [hrec.buffers.cnt, List.length_append, List.length_singleton]
      have hcnt : (L.record [r] _).con.bulkCnt = L.con.bulkCnt + 1 := hb.cnt.trans hlength
      have hnone : L.con.bulkCnt + 1 ≤ 1 ↔ L.con.bulkCnt ≤ 1 ∧ L.con.bulkCnt = 0 := by omega
      rw [forall_record_of_silent, hcnt, or_iff_left hneeds, hnone, and_assoc]
      rfl
  · cases hcall with
    | tooLong hg hfit =>
      have hcnt := hrec.buffers.cnt_eq_zero_iff.mpr hg
      rw [forall_record_of_silent rfl, and_iff_left (Or.inl hcnt)]
      rfl
    | failed hg hneeds hflush =>
      have hcnt : (L.record [] con').con.bulkCnt = L.con.bulkCnt := by
        rw [hrec.buffers.cnt]
        exact (hflush.buffers hrec.buffers).cnt
      have hwaits := hneeds.1
      have hone : L.con.bulkCnt = 1 ↔ L.con.bulkCnt ≤ 1 := by omega
      rw [forall_record, forall_statement_of_flush hflush rfl, hcnt, and_iff_left (Or.inr hneeds),
        hone, and_assoc, and_self]

theorem Records.forall_done (hrec : L.Records h g) (hdone : L.done = some L') :
    (∀ s ∈ L'.statements, s.count = 1) ↔ L.Single := by
  rw [done, Option.map_eq_some_iff] at hdone
  obtain ⟨con', hdone, rfl⟩ := hdone
  rw [single_iff]
  unfold dbBulkInsertDone at hdone
  rw [Option.bind_eq_bind, Option.bind_eq_some_iff] at hdone
  obtain ⟨⟨res, con₁⟩, hinsert, hfreed⟩ := hdone
  cases hfreed
  by_cases hg : g = []
  · have hcnt := hrec.buffers.cnt_eq_zero_iff.mpr hg
    rw [dbBulkDoInsert, if_pos hcnt] at hinsert
    cases hinsert
    rw [forall_record_of_silent, hcnt, and_iff_left (Nat.zero_le 1)]
    rfl
  · have hcnt := mt hrec.buffers.cnt_eq_zero_iff.mp hg
    obtain ⟨res', con₂, hinsert', hflush⟩ := hrec.buffers.flush hg true
    cases hinsert.symm.trans hinsert'
    have hone : L.con.bulkCnt = 1 ↔ L.con.bulkCnt ≤ 1 := by omega
    rw [forall_record, forall_statement_of_flush hflush, hone]
    rfl

end Ledger

end Calls

/-- Without its notes the ledger is the connection. -/
theorem Ledger.map_con_run (L : Ledger) (rows : List CString) :
    (run Ledger.next L rows).map Ledger.con = run nextStep L.con rows := by
  induction rows generalizing L with
  | nil => rfl
  | cons r rows ih =>
    rw [run_cons, run_cons, nextStep, Ledger.next]
    cases dbBulkInsertNext L.con r with
    | none => rfl
    | some called =>
      obtain ⟨res, con'⟩ := called
      cases res with
      | ok _ => exact ih (L.record [r] con')
      | error e => exact ih (L.record [] con')

theorem Ledger.run_collect {con : DbConn} {h : CString} (rows : List CString)
    (hb : Buffers con h []) (hfit : Fits h rows) :
    ∃ L, run Ledger.next (.start con) rows = some L ∧ Buffers L.con h rows ∧
      L.con.driver = con.driver ∧ L.con.bulkCommitMax = con.bulkCommitMax ∧
      L.con.bulkCommitCnt = con.bulkCommitCnt := by
  obtain ⟨buffer, ptr, cnt, hrun, hb'⟩ := Database.run_collect rows hb hfit
  have hmap := Ledger.map_con_run (.start con) rows
  rw [Ledger.start, hrun, Option.map_eq_some_iff] at hmap
  obtain ⟨L, hrunL, hcon⟩ := hmap
  refine ⟨L, hrunL, ?_⟩
  rw [hcon]
  exact ⟨hb', rfl, rfl, rfl⟩

theorem Buffers.done {L : Ledger} {h : CString} {g : List CString} (hb : Buffers L.con h g) :
    ∃ L', L.done = some L' := by
  obtain ⟨con', log, hdone, _⟩ := dbBulkInsertDone_cases (b := ⟨g, 0⟩) hb
  exact ⟨L.record [] con', by rw [Ledger.done, hdone, Option.map_some]⟩

theorem exists_records {con con₀ : DbConn} {block : Option (List.Vector Byte bulkPacketSize)}
    {h : CString} (hinit : dbBulkInsertInit con block h = some (.ok (), con₀))
    {rows : List CString} {L : Ledger} (hrun : run Ledger.next (.start con₀) rows = some L) :
    ∃ g, L.Records h g := by
  apply run_preserves (I := fun L => ∃ g, Ledger.Records L h g) _ _ hrun
  · rintro L r L' ⟨g, hrec⟩ hnext
    exact hrec.next hnext
  · exact ⟨[], Ledger.Records.start (dbBulkInsertInit_ok hinit).1⟩

/-- Every failed call changes nothing, and no row is inserted twice, exactly if no COMMIT fails
behind an accepted INSERT. -/
theorem bulkInsert_failures_iff {con con₀ : DbConn}
    {block : Option (List.Vector Byte bulkPacketSize)} {h : CString} {rows : List CString}
    {L : Ledger} (hinit : dbBulkInsertInit con block h = some (.ok (), con₀))
    (hrun : run Ledger.next (.start con₀) rows = some L) :
    (Guarded Ledger.next FailsCleanly (.start con₀) rows ∧ L.inserted.Nodup) ↔
      Guarded Ledger.next (fun L r => FlushWhole L.con r) (.start con₀) rows := by
  have hstart : ∃ g, (Ledger.start con₀).Records h g :=
    ⟨[], Ledger.Records.start (dbBulkInsertInit_ok hinit).1⟩
  have hclean : Guarded Ledger.next FailsCleanly (.start con₀) rows ↔
      Guarded Ledger.next (fun L r => FlushWhole L.con r) (.start con₀) rows := by
    apply guarded_congr (I := fun L => ∃ g, Ledger.Records L h g) hstart _ _ hrun
    · rintro L r L' ⟨g, hrec⟩ hnext
      exact hrec.next hnext
    · rintro L r L' ⟨g, hrec⟩ hnext
      exact hrec.failsCleanly_iff hnext
  rw [hclean]
  refine and_iff_left_of_imp fun hg => ?_
  have honce : L.Once := by
    apply hg.invariant (I := fun _ L => Ledger.Once L) _ _ hrun
    · exact ⟨List.nodup_nil (α := ℕ), fun i hi => absurd hi List.not_mem_nil⟩
    · intro before L₁ r L₂ hrun₁ honce hwhole hnext
      obtain ⟨g, hrec⟩ := exists_records hinit hrun₁
      exact honce.next hrec hwhole hnext
  exact honce.nodup

theorem bulkInsert_failures_iff_comma : ∃ con₀ L,
    dbBulkInsertInit commitConn (some (List.Vector.replicate _ 0)) comma = some (.ok (), con₀) ∧
      run Ledger.next (.start con₀) [comma, comma] = some L ∧
      ((Guarded Ledger.next FailsCleanly (.start con₀) [comma, comma] ∧ L.inserted.Nodup) ↔
        Guarded Ledger.next (fun L r => FlushWhole L.con r) (.start con₀) [comma, comma]) := by
  obtain ⟨con₀, hinit⟩ := dbBulkInsertInit_accepts (show commitConn.driver = some _ from rfl) rfl
    (show comma.length + 1 ≤ bulkPacketSize by decide) (List.Vector.replicate _ 0)
  obtain ⟨L, hrun, _⟩ := Ledger.run_collect [comma, comma]
    (dbBulkInsertInit_ok hinit).1 (by decide)
  exact ⟨con₀, L, hinit, hrun, bulkInsert_failures_iff hinit hrun⟩

def refusingDriver : DbDriver where
  describe := some (some ⟨true, true⟩)
  query _ text := if text = commitText then .failed else .none

/-- A row that leaves no room behind a header of one character. -/
def fullRow : CString := longRow.cut (bulkPacketSize - 2)

theorem length_fullRow : fullRow.length = bulkPacketSize - 2 := by
  have hlength := length_longRow
  rw [CString.length] at hlength
  rw [fullRow, CString.cut, CString.length, List.length_take, hlength]
  exact Nat.min_eq_left (Nat.sub_le _ _)

/-- The rows that a COMMIT is due for are inserted, the COMMIT fails, and the call changes the
commit counter although it fails. -/
theorem bulkInsert_failure_counts : ∃ con₀ L e con',
    dbBulkInsertInit { commitConn with driver := some refusingDriver }
        (some (List.Vector.replicate _ 0)) comma = some (.ok (), con₀) ∧
      run Ledger.next (.start con₀) (List.replicate rowsBeforeCommit comma) = some L ∧
      dbBulkInsertNext L.con fullRow = some (.error e, con') ∧ ¬ Unchanged L.con con' := by
  obtain ⟨con₀, hinit⟩ := dbBulkInsertInit_accepts
    (show DbConn.driver { commitConn with driver := some refusingDriver } = some _ from rfl) rfl
    (show comma.length + 1 ≤ bulkPacketSize by decide) (List.Vector.replicate _ 0)
  obtain ⟨hb₀, hcnt₀, d, caps, hd, hcaps, hmax₀⟩ := dbBulkInsertInit_ok hinit
  cases hd
  cases hcaps
  have hfit : Fits comma (List.replicate rowsBeforeCommit comma) := by
    have hle := length_insertText_le comma (k := 1) (g := List.replicate rowsBeforeCommit comma)
      fun r hr => (congrArg CString.length (List.eq_of_mem_replicate hr)).le
    have hheader : comma.length = 1 := rfl
    have hrows : rowsBeforeCommit = 1000 := rfl
    rw [List.length_replicate] at hle
    rw [Fits, bulkPacketSize]
    omega
  obtain ⟨L, hrun, hb, hdriver, hmax, hcnt⟩ := Ledger.run_collect _ hb₀ hfit
  have hg : List.replicate rowsBeforeCommit comma ≠ [] := List.cons_ne_nil _ _
  have hlong := length_le_insertText comma (List.replicate rowsBeforeCommit comma)
  rw [List.length_replicate] at hlong
  have hneeds : NeedsFlush L.con fullRow := by
    refine hb.needsFlush hg ?_ fun hfit' => ?_
    · rw [length_fullRow]
      decide
    · unfold rowsBeforeCommit at hlong hfit'
      unfold Fits bulkPacketSize at hfit'
      rw [length_insertText_snoc, length_fullRow, List.length_replicate, bulkPacketSize] at hfit'
      omega
  have hanswer : ∀ con : DbConn, con.driver = L.con.driver → ∀ text, con.answer text =
      if text = commitText then .failed else .none := by
    intro con hsame text
    rw [DbConn.answer, hsame, hdriver, (dbBulkInsertInit_keeps hinit).1]
    rfl
  have htext : insertText comma (List.replicate rowsBeforeCommit comma) ≠ commitText := by
    intro heq
    rw [heq] at hlong
    exact absurd hlong (by decide)
  have hinsert : InsertAccepted L.con := by
    rw [hb.insertAccepted_iff hg, hanswer L.con rfl, if_neg htext]
  have hdue : CommitDue L.con false := by
    rw [CommitDue, hmax, hmax₀, hcnt, hcnt₀, hb.cnt, List.length_replicate]
    decide
  have hcommit : ¬ CommitAccepted L.con := by
    rw [hb.commitAccepted_iff hg, hanswer (L.con.queried _ _ _) rfl, if_pos rfl]
    intro hfailed
    cases hfailed
  obtain ⟨res, con', hflushed, hflush⟩ := hb.flush hg false
  cases res with
  | ok _ => exact absurd ((hflush.ok_iff.mp rfl).2 hdue) hcommit
  | error e =>
    have hnext : dbBulkInsertNext L.con fullRow = some (.error e, con') := by
      rw [dbBulkInsertNext_of_needs hneeds, hflushed]
    refine ⟨con₀, L, e, con', hinit, hrun, hnext, fun hsame => ?_⟩
    exact hcommit ((unchanged_iff hb (nextCall_of_eq hb hnext)).mp hsame hneeds hinsert hdue)

/-- Every INSERT has one row exactly if no call puts its row behind another one. The driver's
`multi_rows_insert` does not matter. -/
theorem bulkInsert_single_rows_iff {con con₀ : DbConn}
    {block : Option (List.Vector Byte bulkPacketSize)} {h : CString} {rows : List CString}
    {L L' : Ledger} (hinit : dbBulkInsertInit con block h = some (.ok (), con₀))
    (hrun : run Ledger.next (.start con₀) rows = some L) (hdone : L.done = some L') :
    (∀ s ∈ L'.statements, s.rows.length = 1) ↔
      Guarded Ledger.next (fun L r => RowAlone L.con r) (.start con₀) rows := by
  obtain ⟨g, hrec⟩ := exists_records hinit hrun
  have hcnt := (dbBulkInsertInit_ok hinit).1.cnt
  simp only [Statement.length_rows]
  rw [hrec.forall_done hdone]
  apply guarded_iff (P := fun _ L => Ledger.Single L) _ _ hrun
  · exact ⟨nofun, by rw [Ledger.start, hcnt, List.length_nil]; exact Nat.zero_le 1⟩
  · intro before L₁ r L₂ hrun₁ hnext
    obtain ⟨g₁, hrec₁⟩ := exists_records hinit hrun₁
    exact hrec₁.single_next hnext

theorem bulkInsert_single_rows_iff_comma : ∃ con₀ L L',
    dbBulkInsertInit commitConn (some (List.Vector.replicate _ 0)) comma = some (.ok (), con₀) ∧
      run Ledger.next (.start con₀) [comma, comma] = some L ∧ L.done = some L' ∧
      ((∀ s ∈ L'.statements, s.rows.length = 1) ↔
        Guarded Ledger.next (fun L r => RowAlone L.con r) (.start con₀) [comma, comma]) := by
  obtain ⟨con₀, hinit⟩ := dbBulkInsertInit_accepts (show commitConn.driver = some _ from rfl) rfl
    (show comma.length + 1 ≤ bulkPacketSize by decide) (List.Vector.replicate _ 0)
  obtain ⟨L, hrun, hb, _⟩ := Ledger.run_collect [comma, comma]
    (dbBulkInsertInit_ok hinit).1 (by decide)
  obtain ⟨L', hdone⟩ := hb.done
  exact ⟨con₀, L, L', hinit, hrun, hdone, bulkInsert_single_rows_iff hinit hrun hdone⟩

def oraDrvCaps : DrvCaps where
  multiRowsInsert := false
  needsCommit := true

/-- The Oracle driver is sent two rows in one statement. -/
theorem bulkInsert_packs_rows : ∃ con₀ L L',
    dbBulkInsertInit { commitConn with driver := some ⟨some (some oraDrvCaps), fun _ _ => .none⟩ }
        (some (List.Vector.replicate _ 0)) comma = some (.ok (), con₀) ∧
      run Ledger.next (.start con₀) [comma, comma] = some L ∧ L.done = some L' ∧
      ¬ ∀ s ∈ L'.statements, s.rows.length = 1 := by
  obtain ⟨con₀, hinit⟩ := dbBulkInsertInit_accepts
    (show DbConn.driver { commitConn with driver := some ⟨some (some oraDrvCaps), fun _ _ => .none⟩ }
      = some _ from rfl) rfl
    (show comma.length + 1 ≤ bulkPacketSize by decide) (List.Vector.replicate _ 0)
  obtain ⟨L, hrun, hb, _⟩ := Ledger.run_collect [comma, comma]
    (dbBulkInsertInit_ok hinit).1 (by decide)
  obtain ⟨L', hdone⟩ := hb.done
  obtain ⟨g, hrec⟩ := exists_records hinit hrun
  refine ⟨con₀, L, L', hinit, hrun, hdone, fun hall => ?_⟩
  have hsingle : L.Single := (hrec.forall_done hdone).mp fun s hs =>
    s.length_rows.symm.trans (hall s hs)
  exact absurd (hb.cnt.symm.trans_le hsingle.waiting) (by decide)

end Sysbench.Database
