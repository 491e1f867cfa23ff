import Sysbench.Database.CommonLua

/-! # What a script sends

A function of a script that only sends queries has a log: the queries it has sent when it returns.
The logs of two functions in a row follow each other as long as the driver answers every query
with a success.
-/
namespace Sysbench.Database.CommonLua

open Bytes CStrings Words Batches
open Event (LuaError)

/-- On every connection to the driver the function runs to an end, and if all its queries succeed
it returns a value with which they have the property `P`. -/
def LogsOn {α : Type} (d : DbDriver) (f : LuaM α) (P : α → List Query → Prop) : Prop :=
  ∀ con, con.driver = some d → ∃ res con' log, exec f con = some (res, con') ∧
    con'.driver = some d ∧ con'.sent = con.sent ++ log ∧
    (Succeeded log → ∃ a, res = .ok a ∧ P a log)

section Rules

variable {α β : Type} {d : DbDriver}

theorem LogsOn.imp {f : LuaM α} {P Q : α → List Query → Prop} (hf : LogsOn d f P)
    (h : ∀ a log, P a log → Q a log) : LogsOn d f Q := by
  intro con hd
  obtain ⟨res, con', log, hexec, hd', hsent, hok⟩ := hf con hd
  refine ⟨res, con', log, hexec, hd', hsent, fun hs => ?_⟩
  obtain ⟨a, hres, hP⟩ := hok hs
  exact ⟨a, hres, h a log hP⟩

theorem logsOn_pure (a : α) : LogsOn d (pure a) fun b log => b = a ∧ log = [] := fun con hd =>
  ⟨.ok a, con, [], rfl, hd, (List.append_nil _).symm, fun _ => ⟨a, rfl, rfl, rfl⟩⟩

theorem LogsOn.bind {f : LuaM α} {g : α → LuaM β} {P : α → List Query → Prop}
    {Q : α → β → List Query → Prop} (hf : LogsOn d f P) (hg : ∀ a, LogsOn d (g a) (Q a)) :
    LogsOn d (f >>= g) fun b log => ∃ a l₁ l₂, P a l₁ ∧ Q a b l₂ ∧ log = l₁ ++ l₂ := by
  intro con hd
  obtain ⟨res, con₁, l₁, hexec, hd₁, hsent₁, hok₁⟩ := hf con hd
  rw [exec_bind, hexec]
  cases res with
  | error e =>
    refine ⟨.error e, con₁, l₁, rfl, hd₁, hsent₁, fun hs => ?_⟩
    obtain ⟨a, hres, -⟩ := hok₁ hs
    cases hres
  | ok a =>
    obtain ⟨res, con₂, l₂, hexec₂, hd₂, hsent₂, hok₂⟩ := hg a con₁ hd₁
    refine ⟨res, con₂, l₁ ++ l₂, hexec₂, hd₂, ?_, fun hs => ?_⟩
    · rw [hsent₂, hsent₁, List.append_assoc]
    · obtain ⟨hs₁, hs₂⟩ := succeeded_append.mp hs
      obtain ⟨a', hres, hP⟩ := hok₁ hs₁
      cases hres
      obtain ⟨b, hb, hQ⟩ := hok₂ hs₂
      exact ⟨b, hb, a, l₁, l₂, hP, hQ, rfl⟩

/-- The logs of the turns of a loop, each of the form `L i b` with a value `b` of its own. -/
theorem LogsOn.forM [Inhabited β] {is : List ℕ} {f : ℕ → LuaM Unit} {L : ℕ → β → List Query}
    {P : ℕ → β → Prop} (hnodup : is.Nodup)
    (hf : ∀ i ∈ is, LogsOn d (f i) fun _ log => ∃ b, log = L i b ∧ P i b) :
    LogsOn d (is.forM f) fun _ log =>
      ∃ b : ℕ → β, log = is.flatMap (fun i => L i (b i)) ∧ ∀ i ∈ is, P i (b i) := by
  induction is with
  | nil =>
    refine (logsOn_pure ()).imp ?_
    rintro _ _ ⟨-, rfl⟩
    exact ⟨fun _ => default, rfl, fun i hi => absurd hi List.not_mem_nil⟩
  | cons i is ih =>
    have hi : i ∉ is := (List.nodup_cons.mp hnodup).1
    have hrest := ih (List.nodup_cons.mp hnodup).2 fun j hj => hf j (List.mem_cons_of_mem i hj)
    have hboth := (hf i List.mem_cons_self).bind fun _ => hrest
    refine hboth.imp ?_
    rintro _ _ ⟨_, _, _, ⟨b₀, rfl, hb₀⟩, ⟨b, rfl, hb⟩, rfl⟩
    have hother : ∀ j ∈ is, Function.update b i b₀ j = b j := fun j hj =>
      Function.update_of_ne (fun heq : j = i => hi (heq ▸ hj)) _ _
    refine ⟨Function.update b i b₀, ?_, ?_⟩
    · rw [List.flatMap_cons, Function.update_self]
      refine congrArg (L i b₀ ++ ·) (List.flatMap_congr fun j hj => ?_)
      rw [hother j hj]
    · intro j hj
      rcases List.mem_cons.mp hj with rfl | hj
      · rwa [Function.update_self]
      · rw [hother j hj]
        exact hb j hj

theorem logsOn_query (q : CString) :
    LogsOn d (dbQueryCall q) fun _ log => log = [⟨q, .none⟩] := by
  intro con hd
  obtain ⟨answer, errno, hq⟩ := dbQuery_eq con hd q
  have hexec : exec (dbQueryCall q) con = some (Event.sbLuaDbQuery con q) := rfl
  rw [hexec, Event.sbLuaDbQuery, hq]
  by_cases ha : answer = .none
  · subst ha
    exact ⟨_, _, _, rfl, hd, rfl, fun _ => ⟨(), rfl, rfl⟩⟩
  · rw [decide_eq_false ha]
    refine ⟨_, _, _, rfl, hd, rfl, fun hs => ?_⟩
    exact absurd (hs _ (List.mem_singleton_self _)) ha

end Rules

/-! ## A bulk insert -/

section Bulk

variable {con con' : DbConn} {h : CString} {d : DbDriver}

theorem Flush.driver {g : List CString} {isLast : Bool} {res : Except BulkError Unit}
    (hflush : Flush con h g isLast res con') : con'.driver = con.driver := by
  cases hflush <;> rfl

theorem NextCall.driver {g : List CString} {r : CString} {res : Except BulkError Unit}
    (hcall : NextCall con h g r res con') : con'.driver = con.driver := by
  cases hcall with
  | tooLong hg hfit => rfl
  | failed hg hneeds hflush => exact Flush.driver hflush
  | flushed hg hneeds hflush hb => exact (Flush.driver hflush :)
  | stored hneeds hb => rfl

/-- The rows are added one by one until a query fails. -/
theorem exec_next {b : Batcher CString} {rows : List CString} (hb : Buffers con h b.pending)
    (hc : Counts con b) (hmax : con.bulkCommitMax ≤ rowsBeforeCommit)
    (hrows : ∀ r ∈ rows, Fits h [r]) :
    ∃ res con' log, exec (rows.forM dbBulkInsertNextCall) con = some (res, con') ∧
      con'.driver = con.driver ∧ con'.sent = con.sent ++ log ∧
      ((∃ e, res = .error e) ∧ ¬Succeeded log ∨
        res = .ok () ∧ con'.bulkCommitMax = con.bulkCommitMax ∧
          ∃ acts b', log = acts.map (actionQuery h) ∧ Buffers con' h b'.pending ∧ Counts con' b' ∧
            (groups acts).flatten ++ b'.pending = b.pending ++ rows) := by
  induction rows generalizing con b with
  | nil =>
    exact ⟨.ok (), con, [], rfl, rfl, (List.append_nil _).symm,
      .inr ⟨rfl, rfl, [], b, rfl, hb, hc, by simp [groups]⟩⟩
  | cons r rows ih =>
    obtain ⟨res, con₁, log₁, hnext, hsent₁, hmax₁, hcases⟩ :=
      dbBulkInsertNext_cases hb (hrows r List.mem_cons_self)
    have hdriver₁ : con₁.driver = con.driver := NextCall.driver (nextCall_of_eq hb hnext)
    have hfirst : exec (dbBulkInsertNextCall r) con = Event.sbLuaDbBulkInsertNext con r := rfl
    have hloop : (r :: rows).forM dbBulkInsertNextCall =
        dbBulkInsertNextCall r >>= fun _ => rows.forM dbBulkInsertNextCall := rfl
    rw [hloop, exec_bind, hfirst, Event.sbLuaDbBulkInsertNext, hnext]
    rcases hcases with ⟨⟨e, rfl⟩, hfail, -⟩ | ⟨rfl, hb₁, hlog⟩
    · exact ⟨.error .message, con₁, log₁, rfl, hdriver₁, hsent₁, .inl ⟨⟨_, rfl⟩, hfail⟩⟩
    obtain ⟨hacts, hc₁⟩ := hlog hc hmax
    obtain ⟨res, con₂, log₂, hexec, hdriver₂, hsent₂, hcases₂⟩ := ih hb₁ hc₁ (by rwa [hmax₁])
      fun s hs => hrows s (List.mem_cons_of_mem r hs)
    refine ⟨res, con₂, log₁ ++ log₂, hexec, hdriver₂.trans hdriver₁, ?_, ?_⟩
    · rw [hsent₂, hsent₁, List.append_assoc]
    rcases hcases₂ with ⟨hres, hfail⟩ | ⟨hres, hmax₂, acts, b', rfl, hb₂, hc₂, hflat⟩
    · exact .inl ⟨hres, fun hs => hfail (succeeded_append.mp hs).2⟩
    · refine .inr ⟨hres, hmax₂.trans hmax₁, (add (Fits h) con.bulkCommitMax b r).1 ++ acts, b', ?_,
        hb₂, hc₂, ?_⟩
      · rw [hacts, List.map_append]
      · rw [groups_append, List.flatten_append, List.append_assoc, hflat, ← List.append_assoc,
          add_flatten, List.append_assoc, List.singleton_append]

theorem done_driver {g : List CString} (hb : Buffers con h g)
    (hdone : dbBulkInsertDone con = some con') : con'.driver = con.driver := by
  rw [dbBulkInsertDone, Option.bind_eq_bind, Option.bind_eq_some_iff] at hdone
  obtain ⟨⟨res, con₁⟩, hinsert, hcon⟩ := hdone
  cases hcon
  by_cases hg : g = []
  · rw [dbBulkDoInsert, if_pos (hb.cnt_eq_zero_iff.mpr hg)] at hinsert
    cases hinsert
    rfl
  · obtain ⟨res', con₂, hinsert', hflush⟩ := hb.flush hg true
    rw [hinsert'] at hinsert
    cases hinsert
    exact (Flush.driver hflush :)

def Describes (d : DbDriver) : Prop := ∃ caps, dbDescribe d = some caps

/-- A bulk insert whose header and rows fit runs to its end, and if all queries succeed they hand
over the rows in order. -/
theorem logsOn_bulkInsert (hdescribes : Describes d) {rows : List CString}
    (hheader : h.length + 1 ≤ bulkPacketSize) (hrows : ∀ r ∈ rows, Fits h [r])
    (memory : List.Vector Byte bulkPacketSize) :
    LogsOn d (bulkInsert h (some memory) rows) fun _ log =>
      ∃ acts : List (Action CString), log = acts.map (actionQuery h) ∧
        (groups acts).flatten = rows := by
  intro con hd
  obtain ⟨caps, hcaps⟩ := hdescribes
  obtain ⟨con₀, hinit⟩ := dbBulkInsertInit_accepts hd hcaps hheader memory
  obtain ⟨hb₀, hcnt, d', caps', hd', hcaps', hmax⟩ := dbBulkInsertInit_ok hinit
  obtain ⟨hdriver₀, hsent₀⟩ := dbBulkInsertInit_keeps hinit
  have hlimit : con₀.bulkCommitMax ≤ rowsBeforeCommit := by
    rw [hmax]
    split_ifs
    · exact le_rfl
    · exact Nat.zero_le _
  have hcounts : Counts con₀ ⟨[], 0⟩ := fun hne => ⟨hcnt, Nat.pos_of_ne_zero hne⟩
  obtain ⟨res, con₁, log₁, hexec, hdriver₁, hsent₁, hcases⟩ :=
    @exec_next _ h ⟨[], 0⟩ rows hb₀ hcounts hlimit hrows
  have hfirst : exec (dbBulkInsertInitCall (some memory) h) con = some (.ok (), con₀) := by
    have h : exec (dbBulkInsertInitCall (some memory) h) con =
        sbLuaDbBulkInsertInit con (some memory) h := rfl
    rw [h, sbLuaDbBulkInsertInit, hinit]
    rfl
  rw [bulkInsert, exec_bind, hfirst]
  dsimp only [Option.bind_some]
  rw [exec_bind, hexec]
  rcases hcases with ⟨⟨e, rfl⟩, hfail⟩ | ⟨rfl, hmax₁, acts, b', rfl, hb₁, hc₁, hflat⟩
  · refine ⟨.error e, con₁, log₁, rfl, ?_, ?_, fun hs => absurd hs hfail⟩
    · rw [hdriver₁, hdriver₀, hd]
    · rw [hsent₁, hsent₀]
  -- The rows that are left in the buffer are sent at the end.
  obtain ⟨con₂, log₂, hdone, hsent₂, hlast⟩ := dbBulkInsertDone_cases hb₁
  have hdriver₂ := done_driver hb₁ hdone
  have hcall : exec dbBulkInsertDoneCall con₁ = some (.ok (), con₂) := by
    have h : exec dbBulkInsertDoneCall con₁ = Event.sbLuaDbBulkInsertDone con₁ := rfl
    rw [h, Event.sbLuaDbBulkInsertDone, hdone]
    rfl
  refine ⟨.ok (), con₂, acts.map (actionQuery h) ++ log₂, hcall, ?_, ?_, fun hs => ⟨(), rfl, ?_⟩⟩
  · rw [hdriver₂, hdriver₁, hdriver₀, hd]
  · rw [hsent₂, hsent₁, hsent₀, List.append_assoc]
  · have hlog₂ := hlast (succeeded_append.mp hs).2 hc₁ (by rwa [hmax₁])
    refine ⟨acts ++ (flush con₁.bulkCommitMax true b').1, ?_, ?_⟩
    · rw [hlog₂, List.map_append]
    · have hpending : (groups (flush con₁.bulkCommitMax true b').1).flatten = b'.pending := by
        rw [groups_flush]
        split_ifs with hp
        · rw [hp]
          rfl
        · exact List.append_nil _
      rw [groups_append, List.flatten_append, hpending, hflat]
      rfl

end Bulk

end Sysbench.Database.CommonLua
