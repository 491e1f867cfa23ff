import Sysbench.Database.BulkCalls

/-! # The bulk-insert buffer and long rows

A row that is too long for the empty buffer is rejected only where it finds the buffer empty
or where the flush before it fails. After a successful flush it is copied without a check.
-/
namespace Sysbench.Database

open Bytes CStrings Words Runs

/-- The call stays inside the buffer, and it rejects a row too long for an empty one. -/
def StaysInside (h : CString) (con : DbConn) (r : CString) : Prop :=
  ∃ res con', dbBulkInsertNext con r = some (res, con') ∧
    (con.bulkBuflen < h.length + r.length + 1 → ∃ e, res = .error e)

/-- A row too long for an empty buffer finds it empty, or the flush before it fails. -/
def LongRowStopped (h : CString) (con : DbConn) (r : CString) : Prop :=
  con.bulkBuflen < h.length + r.length + 1 → con.bulkCnt = 0 ∨ ¬ FlushAccepted con false

section Bounds

variable {con con₀ : DbConn} {h r : CString} {g : List CString}

theorem Buffers.too_long_iff (hb : Buffers con h g) :
    con.bulkBuflen < h.length + r.length + 1 ↔ ¬ Fits h [r] := by
  rw [Fits, insertText_singleton, CString.length_append, hb.buflen, not_le]

theorem not_fits_snoc (hfit : ¬ Fits h [r]) : ¬ Fits h (g ++ [r]) := by
  intro hsnoc
  apply hfit
  have hheader : (insertText h g).length = h.length + (CString.join comma g).length :=
    CString.length_append h _
  rw [Fits, length_insertText_snoc] at hsnoc
  rw [Fits, insertText_singleton, CString.length_append]
  omega

theorem Buffers.needsFlush (hb : Buffers con h g) (hg : g ≠ []) (hr : r.length < 2 ^ 31)
    (hfit : ¬ Fits h (g ++ [r])) : NeedsFlush con r :=
  ⟨mt hb.cnt_eq_zero_iff.mp hg, (hb.space_iff_of_lt hr).mpr hfit⟩

theorem dbBulkInsertNext_of_needs (hneeds : NeedsFlush con r) : dbBulkInsertNext con r =
    match dbBulkDoInsert con false with
    | none => none
    | some (.error e, con) => some (.error e, con)
    | some (.ok (), con) => (storeRow con r).map fun con => (.ok (), con) := by
  unfold dbBulkInsertNext
  dsimp only
  exact (if_pos hneeds.2).trans (if_neg hneeds.1)

/-- Behind a successful flush the row leaves the buffer. -/
theorem dbBulkInsertNext_eq_none (hb : Buffers con h g) (hg : g ≠ []) (hr : r.length < 2 ^ 31)
    (hfit : ¬ Fits h [r]) (haccepted : FlushAccepted con false) :
    dbBulkInsertNext con r = none := by
  obtain ⟨res, con₁, hinsert, hflush⟩ := hb.flush hg false
  obtain rfl := hflush.ok_iff.mpr haccepted
  have hb₁ : Buffers con₁ h [] := hflush.buffers hb
  rw [dbBulkInsertNext_of_needs (hb.needsFlush hg hr (not_fits_snoc hfit)), hinsert]
  dsimp only
  rw [hb₁.storeRow_eq_none hfit, Option.map_none]

theorem staysInside_iff (hb : Buffers con h g) (hr : r.length < 2 ^ 31) :
    StaysInside h con r ↔ LongRowStopped h con r := by
  unfold StaysInside LongRowStopped
  rw [hb.too_long_iff]
  by_cases hfit : Fits h [r]
  · refine iff_of_true ?_ fun hnot => absurd hfit hnot
    obtain ⟨res, con', _, hnext, _⟩ := dbBulkInsertNext_cases (b := ⟨g, 0⟩) hb hfit
    exact ⟨res, con', hnext, fun hnot => absurd hfit hnot⟩
  by_cases hg : g = []
  · subst hg
    have hcnt := hb.cnt_eq_zero_iff.mpr rfl
    refine iff_of_true ⟨.error (.queryTooLong con.bulkBuflen), con, ?_, fun _ => ⟨_, rfl⟩⟩
      fun _ => Or.inl hcnt
    unfold dbBulkInsertNext
    dsimp only
    rw [if_pos ((hb.space_iff_of_lt hr).mpr hfit), if_pos hcnt]
  by_cases haccepted : FlushAccepted con false
  · apply iff_of_false
    · rintro ⟨res, con', hnext, _⟩
      rw [dbBulkInsertNext_eq_none hb hg hr hfit haccepted] at hnext
      cases hnext
    · intro hstop
      rcases hstop hfit with hcnt | hrefused
      · exact hg (hb.cnt_eq_zero_iff.mp hcnt)
      · exact hrefused haccepted
  · refine iff_of_true ?_ fun _ => Or.inr haccepted
    obtain ⟨res, con₁, hinsert, hflush⟩ := hb.flush hg false
    cases res with
    | ok _ => exact absurd (hflush.ok_iff.mp rfl) haccepted
    | error e =>
      refine ⟨.error e, con₁, ?_, fun _ => ⟨e, rfl⟩⟩
      rw [dbBulkInsertNext_of_needs (hb.needsFlush hg hr (not_fits_snoc hfit)), hinsert]

theorem Buffers.flushAccepted {d : DbDriver} (hb : Buffers con h g) (hg : g ≠ [])
    (hd : con.driver = some d) (hall : ∀ log text, d.query log text = .none) {isLast : Bool} :
    FlushAccepted con isLast := by
  have hanswer : ∀ log text, (con.queried con.bulkCommitCnt .none log).answer text = .none := by
    intro log text
    have hd' : (con.queried con.bulkCommitCnt .none log).driver = some d := hd
    rw [DbConn.answer, hd']
    exact hall _ text
  refine ⟨⟨_, hb.bufferedText_eq hg, ?_⟩, fun _ => ⟨_, hb.bufferedText_eq hg, hanswer _ _⟩⟩
  rw [DbConn.answer, hd]
  exact hall _ _

theorem Buffers.nextStep {con' : DbConn} (hb : Buffers con h g)
    (hstep : nextStep con r = some con') : ∃ g', Buffers con' h g' := by
  rw [Database.nextStep, Option.map_eq_some_iff] at hstep
  obtain ⟨⟨res, con₁⟩, hnext, rfl⟩ := hstep
  exact (nextCall_of_eq hb hnext).buffers hb

end Bounds

/-- The calls stay inside the buffer and reject every row too long for it exactly if such a row
never follows a successful flush. -/
theorem bulkInsert_inside_iff {con con₀ : DbConn}
    {block : Option (List.Vector Byte bulkPacketSize)} {h : CString} {rows : List CString}
    (hinit : dbBulkInsertInit con block h = some (.ok (), con₀))
    (hrows : ∀ r ∈ rows, r.length < 2 ^ 31) :
    (∀ before r, before ++ [r] <+: rows →
        ∃ con₁, run nextStep con₀ before = some con₁ ∧ StaysInside h con₁ r) ↔
      Guarded nextStep (LongRowStopped h) con₀ rows := by
  apply demanded_iff_guarded (I := fun con => ∃ g, Buffers con h g)
  · exact ⟨[], (dbBulkInsertInit_ok hinit).1⟩
  · rintro con₁ r hr ⟨g, hb⟩
    exact staysInside_iff hb (hrows r hr)
  · rintro con₁ r hr ⟨g, hb⟩ ⟨res, con', hnext, _⟩
    have hstep : nextStep con₁ r = some con' := by rw [nextStep, hnext, Option.map_some]
    exact ⟨con', hstep, hb.nextStep hstep⟩

theorem bulkInsert_inside_iff_comma : ∃ con₀,
    dbBulkInsertInit commitConn (some (List.Vector.replicate _ 0)) comma = some (.ok (), con₀) ∧
      ((∀ before r, before ++ [r] <+: [comma, comma] →
          ∃ con₁, run nextStep con₀ before = some con₁ ∧ StaysInside comma con₁ r) ↔
        Guarded nextStep (LongRowStopped comma) con₀ [comma, comma]) := by
  obtain ⟨con₀, hinit⟩ := dbBulkInsertInit_accepts (show commitConn.driver = some _ from rfl) rfl
    (show comma.length + 1 ≤ bulkPacketSize by decide) (List.Vector.replicate _ 0)
  exact ⟨con₀, hinit, bulkInsert_inside_iff hinit (by simp; decide)⟩

def longRow : CString :=
  ⟨List.replicate bulkPacketSize (charByte 'x'), fun h => absurd (List.eq_of_mem_replicate h)
    (by decide)⟩

theorem length_longRow : longRow.length = bulkPacketSize := List.length_replicate

/-- The long row comes second, and the row before it is flushed successfully. -/
theorem bulkInsert_leaves_buffer : ∃ con₀ con₁,
    dbBulkInsertInit commitConn (some (List.Vector.replicate _ 0)) comma = some (.ok (), con₀) ∧
      run nextStep con₀ [comma] = some con₁ ∧ dbBulkInsertNext con₁ longRow = none := by
  obtain ⟨con₀, hinit⟩ := dbBulkInsertInit_accepts (show commitConn.driver = some _ from rfl) rfl
    (show comma.length + 1 ≤ bulkPacketSize by decide) (List.Vector.replicate _ 0)
  have hdriver := (dbBulkInsertInit_keeps hinit).1
  obtain ⟨buffer, ptr, cnt, hrun, hb⟩ := run_collect [comma] (dbBulkInsertInit_ok hinit).1
    (show Fits comma [comma] by decide)
  refine ⟨con₀, _, hinit, hrun, dbBulkInsertNext_eq_none hb (List.cons_ne_nil _ _) ?_ ?_ ?_⟩
  · rw [length_longRow]
    decide
  · rw [Fits, insertText_singleton, CString.length_append, length_longRow]
    exact not_le.mpr (Nat.lt_succ_of_le (Nat.le_add_left _ _))
  · exact hb.flushAccepted (List.cons_ne_nil _ _) hdriver fun _ _ => rfl

end Sysbench.Database
