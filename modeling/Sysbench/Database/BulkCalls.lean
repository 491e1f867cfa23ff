import Sysbench.Database.BulkInsert

/-! # Single bulk-insert calls

What one call of `db_bulk_insert_next` can do for a row of any length, with the answers of
the driver on which it depends. The space check is made once, before a flush that may empty
the buffer, and it is not repeated for the empty buffer.
-/
namespace Sysbench.Database

open Bytes CStrings Words Runs

def DbConn.answer (con : DbConn) (text : CString) : DbError :=
  match con.driver with
  | none => .failed
  | some driver => driver.query con.sent text

def DbConn.bufferedText (con : DbConn) : Option CString := con.bulkBuffer.bind readString

def CommitDue (con : DbConn) (isLast : Bool) : Prop :=
  con.bulkCommitMax ≠ 0 ∧
    (isLast ∨ con.bulkCommitMax ≤ toUInt 32 (con.bulkCommitCnt + con.bulkCnt))

def InsertAccepted (con : DbConn) : Prop :=
  ∃ text, con.bufferedText = some text ∧ con.answer text = .none

def CommitAccepted (con : DbConn) : Prop :=
  ∃ text, con.bufferedText = some text ∧
    (con.queried con.bulkCommitCnt .none [⟨text, .none⟩]).answer commitText = .none

def FlushAccepted (con : DbConn) (isLast : Bool) : Prop :=
  InsertAccepted con ∧ (CommitDue con isLast → CommitAccepted con)

theorem dbQuery_answer (con : DbConn) {d : DbDriver} (hd : con.driver = some d)
    (text : CString) : ∃ errno, dbQuery con text = (decide (con.answer text = .none),
      con.queried con.bulkCommitCnt errno [⟨text, con.answer text⟩]) := by
  have hanswer : con.answer text = d.query con.sent text := by rw [DbConn.answer, hd]
  rw [hanswer]
  unfold dbQuery
  split
  · next hnone => cases hd.symm.trans hnone
  · next driver hdriver =>
    cases hd.symm.trans hdriver
    cases d.query con.sent text with
    | none => exact ⟨.none, rfl⟩
    | restartTransaction => exact ⟨.restartTransaction, rfl⟩
    | reconnected => exact ⟨.restartTransaction, rfl⟩
    | failed => exact ⟨.failed, rfl⟩

theorem commitRows_of_not_due {con : DbConn} {isLast : Bool} (hdue : ¬ CommitDue con isLast) :
    ∃ cnt, commitRows con isLast = (true, con.queried cnt con.dbErrno []) := by
  unfold commitRows DbConn.queried
  rw [List.append_nil]
  by_cases hmax : con.bulkCommitMax = 0
  · exact ⟨con.bulkCommitCnt, if_neg fun hne => hne hmax⟩
  · rw [if_pos hmax]
    exact ⟨_, if_neg fun hdo => hdue ⟨hmax, hdo⟩⟩

theorem commitRows_of_due {con : DbConn} {isLast : Bool} {d : DbDriver}
    (hd : con.driver = some d) (hdue : CommitDue con isLast) : ∃ errno,
    commitRows con isLast = if con.answer commitText = .none
      then (true, con.queried 0 errno [⟨commitText, .none⟩])
      else (false, con.queried (toUInt 32 (con.bulkCommitCnt + con.bulkCnt)) errno
        [⟨commitText, con.answer commitText⟩]) := by
  obtain ⟨errno, hq⟩ := dbQuery_answer { con with
    bulkCommitCnt := toUInt 32 (con.bulkCommitCnt + con.bulkCnt) } hd commitText
  have hanswer : DbConn.answer { con with
      bulkCommitCnt := toUInt 32 (con.bulkCommitCnt + con.bulkCnt) } commitText =
      con.answer commitText := rfl
  rw [hanswer] at hq
  refine ⟨errno, ?_⟩
  rw [commitRows, if_pos hdue.1]
  dsimp only
  rw [if_pos hdue.2, hq]
  by_cases ha : con.answer commitText = .none
  · rw [decide_eq_true ha, if_pos ha, ha]
    rfl
  · rw [decide_eq_false ha, if_neg ha]
    rfl

/-- What a flush of the group `g` can do. -/
inductive Flush (con : DbConn) (h : CString) (g : List CString) (isLast : Bool) :
    Except BulkError Unit → DbConn → Prop
  | refused (errno : DbError) (answer : DbError) (hinsert : ¬ InsertAccepted con)
      (hanswer : answer ≠ .none) :
      Flush con h g isLast (.error .queryFailed)
        (con.queried con.bulkCommitCnt errno [⟨insertText h g, answer⟩])
  | uncommitted (errno : DbError) (answer : DbError) (hinsert : InsertAccepted con)
      (hdue : CommitDue con isLast) (hcommit : ¬ CommitAccepted con) (hanswer : answer ≠ .none) :
      Flush con h g isLast (.error .queryFailed)
        (con.queried (toUInt 32 (con.bulkCommitCnt + con.bulkCnt)) errno
          [⟨insertText h g, .none⟩, ⟨commitText, answer⟩])
  | sent (cnt : ℕ) (errno : DbError) (log : List Query) (haccepted : FlushAccepted con isLast) :
      Flush con h g isLast (.ok ())
        (con.queried cnt errno (⟨insertText h g, .none⟩ :: log)).rewound

section Calls

variable {con con' : DbConn} {h r : CString} {g : List CString} {isLast : Bool}
  {res : Except BulkError Unit}

namespace Buffers

theorem cnt_eq_zero_iff (hb : Buffers con h g) : con.bulkCnt = 0 ↔ g = [] := by
  rw [hb.cnt, List.length_eq_zero_iff]

theorem bufferedText_eq (hb : Buffers con h g) (hg : g ≠ []) :
    con.bufferedText = some (insertText h g) := by
  obtain ⟨buffer, hbuffer, _, _, hstarts⟩ := hb.text
  rw [DbConn.bufferedText, hbuffer, Option.bind_some]
  exact readString_of_startsWith (hstarts hg)

theorem insertAccepted_iff (hb : Buffers con h g) (hg : g ≠ []) :
    InsertAccepted con ↔ con.answer (insertText h g) = .none := by
  simp [InsertAccepted, hb.bufferedText_eq hg]

theorem commitAccepted_iff (hb : Buffers con h g) (hg : g ≠ []) : CommitAccepted con ↔
    (con.queried con.bulkCommitCnt .none [⟨insertText h g, .none⟩]).answer commitText = .none := by
  simp [CommitAccepted, hb.bufferedText_eq hg]

/-- A non-empty group is flushed in one of three ways, which the driver chooses. -/
theorem flush (hb : Buffers con h g) (hg : g ≠ []) (isLast : Bool) :
    ∃ res con', dbBulkDoInsert con isLast = some (res, con') ∧
      Flush con h g isLast res con' := by
  obtain ⟨d, hd⟩ := hb.driver
  obtain ⟨buffer, hbuffer, _, _, hstarts⟩ := hb.text
  have hcnt : ¬ con.bulkCnt = 0 := fun hz => hg (hb.cnt_eq_zero_iff.mp hz)
  have hinsert := dbBulkDoInsert_of_text hcnt hbuffer (readString_of_startsWith (hstarts hg)) isLast
  obtain ⟨errno, hq⟩ := dbQuery_answer con hd (insertText h g)
  rw [hq] at hinsert
  by_cases ha : con.answer (insertText h g) = .none
  case neg =>
    rw [decide_eq_false ha] at hinsert
    exact ⟨_, _, hinsert, .refused errno _ (mt (hb.insertAccepted_iff hg).mp ha) ha⟩
  have haccepted := (hb.insertAccepted_iff hg).mpr ha
  rw [ha, decide_eq_true rfl] at hinsert
  dsimp only at hinsert
  by_cases hdue : CommitDue con isLast
  case neg =>
    have hqueried :
        ¬ CommitDue (con.queried con.bulkCommitCnt errno [⟨insertText h g, .none⟩]) isLast := hdue
    obtain ⟨cnt, hcommit⟩ := commitRows_of_not_due hqueried
    rw [hcommit, DbConn.queried_queried] at hinsert
    exact ⟨_, _, hinsert, .sent cnt _ _ ⟨haccepted, fun hdo => absurd hdo hdue⟩⟩
  have hqueried : (con.queried con.bulkCommitCnt errno [⟨insertText h g, .none⟩]).driver = some d :=
    hd
  obtain ⟨errno', hcommit⟩ := commitRows_of_due hqueried hdue
  rw [hcommit, DbConn.queried_queried, DbConn.queried_queried] at hinsert
  by_cases hc : (con.queried con.bulkCommitCnt errno [⟨insertText h g, .none⟩]).answer
      commitText = .none
  · rw [if_pos hc] at hinsert
    exact ⟨_, _, hinsert,
      .sent 0 _ _ ⟨haccepted, fun _ => (hb.commitAccepted_iff hg).mpr hc⟩⟩
  · rw [if_neg hc] at hinsert
    exact ⟨_, _, hinsert,
      .uncommitted _ _ haccepted hdue (mt (hb.commitAccepted_iff hg).mp hc) hc⟩

/-- A row that does not fit is written beyond the end of the buffer. -/
theorem storeRow_eq_none (hb : Buffers con h g) (hfit : ¬ Fits h (g ++ [r])) :
    storeRow con r = none := by
  obtain ⟨buffer, hbuffer, hsize, _, _⟩ := hb.text
  have hlen := length_insertText_snoc h g r
  unfold Fits at hfit
  have hwrite : writeRow con buffer r = none := by
    cases g with
    | nil =>
      simp only [List.length_nil, lt_irrefl, if_false, Nat.add_zero] at hlen
      rw [writeRow, if_neg (by rw [hb.cnt]; exact lt_irrefl 0), strcpy, if_neg]
      rw [hb.ptr, hsize]
      omega
    | cons s g =>
      have hpos : 0 < (s :: g).length := Nat.succ_pos _
      rw [if_pos hpos] at hlen
      rw [writeRow, if_pos (by rw [hb.cnt]; exact hpos), Option.bind_eq_bind, storeByte]
      split
      · rw [Option.bind_some, strcpy, if_neg]
        rw [hb.ptr, List.length_set, hsize]
        omega
      · rfl
  simp only [storeRow, hbuffer, hwrite, Option.bind_eq_bind, Option.bind_some, Option.bind_none]

end Buffers

/-- The row does not fit behind the buffered ones, so these are flushed first. -/
def NeedsFlush (con : DbConn) (r : CString) : Prop :=
  con.bulkCnt ≠ 0 ∧
    con.bulkBuflen < toUInt 32 (con.bulkPtr + toUInt 32 r.length + 1 + commaLen con)

/-- What a call for the row `r` can do when the group `g` is in the buffer. -/
inductive NextCall (con : DbConn) (h : CString) (g : List CString) (r : CString) :
    Except BulkError Unit → DbConn → Prop
  | tooLong (hg : g = []) (hfit : ¬ Fits h [r]) :
      NextCall con h g r (.error (.queryTooLong con.bulkBuflen)) con
  | failed {e : BulkError} {con' : DbConn} (hg : g ≠ []) (hneeds : NeedsFlush con r)
      (hflush : Flush con h g false (.error e) con') : NextCall con h g r (.error e) con'
  | flushed {con₁ : DbConn} {buffer : List Byte} {ptr cnt : ℕ} (hg : g ≠ [])
      (hneeds : NeedsFlush con r) (hflush : Flush con h g false (.ok ()) con₁)
      (hb : Buffers { con₁ with bulkBuffer := some buffer, bulkPtr := ptr, bulkCnt := cnt } h [r]) :
      NextCall con h g r (.ok ())
        { con₁ with bulkBuffer := some buffer, bulkPtr := ptr, bulkCnt := cnt }
  | stored {buffer : List Byte} {ptr cnt : ℕ} (hneeds : ¬ NeedsFlush con r)
      (hb : Buffers { con with bulkBuffer := some buffer, bulkPtr := ptr, bulkCnt := cnt } h
        (g ++ [r])) :
      NextCall con h g r (.ok ())
        { con with bulkBuffer := some buffer, bulkPtr := ptr, bulkCnt := cnt }

theorem Flush.buffers (hflush : Flush con h g isLast res con') (hb : Buffers con h g) :
    Buffers con' h (match res with | .ok () => [] | .error _ => g) := by
  cases hflush with
  | refused errno answer hinsert hanswer => exact hb.queried
  | uncommitted errno answer hinsert hdue hcommit hanswer => exact hb.queried
  | sent cnt errno log haccepted => exact hb.queried.rewound

theorem nextCall_of_eq (hb : Buffers con h g) (hnext : dbBulkInsertNext con r = some (res, con')) :
    NextCall con h g r res con' := by
  have hstore : ∀ {con₁ : DbConn} {g₁ : List CString}, Buffers con₁ h g₁ →
      (storeRow con₁ r).map (fun con => (Except.ok (), con)) = some (res, con') →
      res = .ok () ∧ ∃ buffer ptr cnt,
        con' = { con₁ with bulkBuffer := some buffer, bulkPtr := ptr, bulkCnt := cnt } ∧
        Buffers con' h (g₁ ++ [r]) := by
    intro con₁ g₁ hb₁ heq
    by_cases hfit : Fits h (g₁ ++ [r])
    · obtain ⟨buffer, ptr, cnt, hrow, hb'⟩ := hb₁.storeRow_eq hfit
      rw [hrow, Option.map_some, Option.some.injEq, Prod.mk.injEq] at heq
      obtain ⟨rfl, rfl⟩ := heq
      exact ⟨rfl, buffer, ptr, cnt, rfl, hb'⟩
    · rw [hb₁.storeRow_eq_none hfit] at heq
      cases heq
  unfold dbBulkInsertNext at hnext
  dsimp only at hnext
  split at hnext
  case isTrue hspace =>
    by_cases hg : g = []
    · subst hg
      rw [if_pos (hb.cnt_eq_zero_iff.mpr rfl)] at hnext
      cases hnext
      refine .tooLong rfl fun hfit => ?_
      exact (hb.space_iff hfit).mp hspace hfit
    have hcnt : ¬ con.bulkCnt = 0 := mt hb.cnt_eq_zero_iff.mp hg
    obtain ⟨res₁, con₁, hinsert, hflush⟩ := hb.flush hg false
    rw [if_neg hcnt, hinsert] at hnext
    cases res₁ with
    | error e =>
      cases hnext
      exact .failed hg ⟨hcnt, hspace⟩ hflush
    | ok _ =>
      obtain ⟨rfl, buffer, ptr, cnt, rfl, hb'⟩ := hstore (hflush.buffers hb) hnext
      exact .flushed hg ⟨hcnt, hspace⟩ hflush hb'
  case isFalse hspace =>
    obtain ⟨rfl, buffer, ptr, cnt, rfl, hb'⟩ := hstore hb hnext
    exact .stored (fun hneeds => hspace hneeds.2) hb'

theorem Flush.ok_iff (hflush : Flush con h g isLast res con') :
    res = .ok () ↔ FlushAccepted con isLast := by
  cases hflush with
  | refused errno answer hinsert hanswer => exact iff_of_false nofun fun hacc => hinsert hacc.1
  | uncommitted errno answer hinsert hdue hcommit hanswer =>
    exact iff_of_false nofun fun hacc => hcommit (hacc.2 hdue)
  | sent cnt errno log haccepted => exact iff_of_true rfl haccepted

theorem NextCall.buffers (hcall : NextCall con h g r res con') (hb : Buffers con h g) :
    ∃ g', Buffers con' h g' := by
  cases hcall with
  | tooLong hg hfit => exact ⟨g, hb⟩
  | failed hg hneeds hflush => exact ⟨g, hflush.buffers hb⟩
  | flushed hg hneeds hflush hb' => exact ⟨[r], hb'⟩
  | stored hneeds hb' => exact ⟨g ++ [r], hb'⟩

theorem fits_of_append {rows : List CString} (hfit : Fits h (g ++ rows)) : Fits h g := by
  induction rows using List.reverseRecOn with
  | nil => rwa [List.append_nil] at hfit
  | append_singleton rows r ih =>
    apply ih
    rw [← List.append_assoc, Fits, length_insertText_snoc] at hfit
    rw [Fits]
    omega

theorem length_insertText_le (h : CString) {k : ℕ} (hg : ∀ r ∈ g, r.length ≤ k) :
    (insertText h g).length ≤ h.length + g.length * (k + 1) := by
  induction g using List.reverseRecOn with
  | nil => rw [insertText_nil, List.length_nil, Nat.zero_mul, Nat.add_zero]
  | append_singleton g r ih =>
    have hrest := ih fun s hs => hg s (List.mem_append_left _ hs)
    have hr := hg r (List.mem_append_right _ List.mem_cons_self)
    rw [length_insertText_snoc, List.length_append, List.length_singleton, Nat.succ_mul]
    split <;> omega

/-- Rows that fit together are collected without a query. -/
theorem run_collect (rows : List CString) (hb : Buffers con h g) (hfit : Fits h (g ++ rows)) :
    ∃ buffer ptr cnt, run nextStep con rows =
        some { con with bulkBuffer := buffer, bulkPtr := ptr, bulkCnt := cnt } ∧
      Buffers { con with bulkBuffer := buffer, bulkPtr := ptr, bulkCnt := cnt } h
        (g ++ rows) := by
  induction rows generalizing con g with
  | nil => exact ⟨con.bulkBuffer, con.bulkPtr, con.bulkCnt, rfl, by rwa [List.append_nil]⟩
  | cons r rows ih =>
    rw [List.append_cons] at hfit ⊢
    have hrow : Fits h (g ++ [r]) := fits_of_append hfit
    obtain ⟨buffer, ptr, cnt, hstore, hb'⟩ := hb.storeRow_eq hrow
    have hspace : ¬ con.bulkBuflen <
        toUInt 32 (con.bulkPtr + toUInt 32 r.length + 1 + commaLen con) := by
      intro hlt
      have hr : r.length < 2 ^ 31 := by
        unfold Fits bulkPacketSize at hrow
        rw [length_insertText_snoc] at hrow
        omega
      exact (hb.space_iff_of_lt hr).mp hlt hrow
    have hstep : nextStep con r =
        some { con with bulkBuffer := some buffer, bulkPtr := ptr, bulkCnt := cnt } := by
      unfold nextStep dbBulkInsertNext
      dsimp only
      rw [if_neg hspace, hstore, Option.map_some, Option.map_some]
    obtain ⟨buffer', ptr', cnt', hrun, hb''⟩ := ih hb' hfit
    refine ⟨buffer', ptr', cnt', ?_, hb''⟩
    rw [run_cons, hstep]
    exact hrun

end Calls

theorem dbBulkInsertInit_keeps {con con₀ : DbConn}
    {block : Option (List.Vector Byte bulkPacketSize)} {h : CString}
    (hinit : dbBulkInsertInit con block h = some (.ok (), con₀)) :
    con₀.driver = con.driver ∧ con₀.sent = con.sent := by
  unfold dbBulkInsertInit at hinit
  split at hinit
  · cases hinit
  next d hd =>
  split at hinit
  · cases hinit
  next caps hcaps =>
  dsimp only at hinit
  split at hinit
  · cases hinit
  cases block with
  | none => cases hinit
  | some block =>
    rw [Option.map_some] at hinit
    dsimp only at hinit
    rw [Option.bind_eq_bind, Option.bind_eq_some_iff] at hinit
    obtain ⟨buffer, _, hinit⟩ := hinit
    cases hinit
    exact ⟨rfl, rfl⟩

end Sysbench.Database
