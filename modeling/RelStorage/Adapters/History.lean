import RelStorage.Adapters.Transaction

namespace RelStorage

/-- The databases that committed transactions produce from empty tables, each transaction in
any flavor at a tid above every earlier revision. A `store_temp` transaction starts from an
empty `temp_store`, stores new objects with `prev_tid = 0`, passes `detect_conflict`, then runs
`move_from_temp` and `update_current`; a `restore` transaction restores distinct objects, then
runs `update_current`. The `detect_conflict` gate is the join as PostgreSQL and MySQL run it
(`detectConflictSql`) for every flavor: Oracle's `detect_conflict` runs the same join through
`runner.run_lob_stmt`, whose code is not under `src/` and is not modelled. -/
inductive History (md5 : List UInt8 → String) : Database → Prop
  | empty : History md5 ⟨[], [], []⟩
  | store {db staged moved db' : Database} {flavor : LoadStore}
      {calls : List (Nat × Nat × List UInt8)} {tid : Nat} {oids : List Nat} :
      History md5 db → 0 < tid → (∀ r ∈ db.objectState, r.tid < tid) →
      (∀ oid c, lastCall calls oid = some c → currentTid db oid = none → c.1 = 0) →
      flavor.storeTemps md5 { db with tempStore := [] } calls = some staged →
      detectConflictSql staged = none → flavor.moveFromTemp staged tid = some (moved, oids) →
      flavor.updateCurrent moved tid = some db' → History md5 db'
  | restore {db restored db' : Database} {flavor : LoadStore}
      {writes : List (Nat × Option (List UInt8))} {tid : Nat} :
      History md5 db → 0 < tid → (∀ r ∈ db.objectState, r.tid < tid) →
      (writes.map Prod.fst).Nodup → flavor.restores md5 tid db writes = some restored →
      flavor.updateCurrent restored tid = some db' → History md5 db'

/-- What every history keeps: the primary keys, `current_object` at the latest revisions, and
no current tid 0. -/
structure Consistent (db : Database) : Prop where
  keyed : Keyed db
  current : CurrentInvariant db
  positive : ∀ oid t, currentTid db oid = some t → 0 < t

variable {md5 : List UInt8 → String} {db db' : Database} {tid : Nat}

namespace Consistent

theorem empty : Consistent ⟨[], [], []⟩ :=
  ⟨⟨List.nodup_nil, List.nodup_nil⟩, fun _ _ present => absurd rfl present,
    fun _ _ current => by simp [currentTid] at current⟩

/-- A commit at a positive tid above every revision keeps a consistent database consistent. -/
theorem of_commits {written : Nat → Option ObjectStateRow} (consistent : Consistent db)
    (keyed' : Keyed db') (commits : Commits db db' tid written)
    (later : ∀ r ∈ db.objectState, r.tid < tid) (positive : 0 < tid) : Consistent db' := by
  refine ⟨keyed', commits.currentInvariant later consistent.current, fun oid t current => ?_⟩
  rw [commits.currentObject] at current
  split at current
  · exact consistent.positive oid t current
  · exact Option.some.inj current ▸ positive

/-- A `store_temp` transaction of a history commits each object's last call at `tid`, with
the object's current tid, or 0 for a new object, as `prev_tid`, and keeps the primary keys. -/
theorem store_commits {staged moved : Database} {flavor : LoadStore}
    {calls : List (Nat × Nat × List UInt8)} {oids : List Nat} (consistent : Consistent db)
    (later : ∀ r ∈ db.objectState, r.tid < tid)
    (created : ∀ oid c, lastCall calls oid = some c → currentTid db oid = none → c.1 = 0)
    (stored : flavor.storeTemps md5 { db with tempStore := [] } calls = some staged)
    (clear : detectConflictSql staged = none)
    (moved' : flavor.moveFromTemp staged tid = some (moved, oids))
    (updated : flavor.updateCurrent moved tid = some db') :
    ∃ written, Keyed db' ∧ Commits db db' tid written ∧
      ∀ oid r, written oid = some r → r.prevTid = (currentTid db oid).getD 0 := by
  have keyed : Keyed { db with tempStore := [] } :=
    ⟨consistent.keyed.objectState, consistent.keyed.currentObject⟩
  have keyed' := ((keyed.storeTemps flavor stored).moveFromTemp flavor moved').updateCurrent flavor updated
  have staged_eq := Option.some.inj ((LoadStore.storeTemps_eq flavor calls).symm.trans stored)
  subst staged_eq
  obtain ⟨_, _, _, _, stored', move, update, -, -, commits⟩ :=
    storeTemps_commit flavor (show ∀ r ∈ ({ db with tempStore := [] } : Database).objectState,
      r.tid < tid from later) rfl (marks_of_no_conflict rfl consistent.positive created clear)
  cases Option.some.inj (stored.symm.trans stored')
  cases Option.some.inj (moved'.symm.trans move)
  cases Option.some.inj (updated.symm.trans update)
  refine ⟨_, keyed', ⟨commits.objectState, commits.currentObject⟩, fun oid r written => ?_⟩
  obtain ⟨c, last, rfl⟩ := Option.map_eq_some'.mp written
  exact prevTid_of_no_conflict (show ({ db with tempStore := [] } : Database).tempStore = [] from rfl)
    created clear oid c last

/-- A `restore` transaction of a history commits each write at `tid`, with the object's
current tid, or 0 for a new object, as `prev_tid`, and keeps the primary keys. -/
theorem restore_commits {restored : Database} {flavor : LoadStore}
    {writes : List (Nat × Option (List UInt8))} (consistent : Consistent db)
    (later : ∀ r ∈ db.objectState, r.tid < tid) (distinct : (writes.map Prod.fst).Nodup)
    (restoredEq : flavor.restores md5 tid db writes = some restored)
    (updated : flavor.updateCurrent restored tid = some db') :
    ∃ written, Keyed db' ∧ Commits db db' tid written ∧
      ∀ oid r, written oid = some r → r.prevTid = (currentTid db oid).getD 0 := by
  have keyed' := (consistent.keyed.restores flavor restoredEq).updateCurrent flavor updated
  obtain ⟨_, _, restoredEq', update, commits⟩ := restores_commit flavor later distinct
    fun w _ current => Nat.lt_irrefl 0 (consistent.positive _ _ current)
  cases Option.some.inj (restoredEq.symm.trans restoredEq')
  cases Option.some.inj (updated.symm.trans update)
  refine ⟨_, keyed', commits, fun oid r written => ?_⟩
  obtain ⟨w, found, rfl⟩ := Option.map_eq_some'.mp written
  rw [← lookup_key found]
  rfl

theorem store {staged moved : Database} {flavor : LoadStore} {calls : List (Nat × Nat × List UInt8)}
    {oids : List Nat} (consistent : Consistent db) (positive : 0 < tid)
    (later : ∀ r ∈ db.objectState, r.tid < tid)
    (created : ∀ oid c, lastCall calls oid = some c → currentTid db oid = none → c.1 = 0)
    (stored : flavor.storeTemps md5 { db with tempStore := [] } calls = some staged)
    (clear : detectConflictSql staged = none)
    (moved' : flavor.moveFromTemp staged tid = some (moved, oids))
    (updated : flavor.updateCurrent moved tid = some db') : Consistent db' := by
  obtain ⟨_, keyed', commits, -⟩ := consistent.store_commits later created stored clear moved' updated
  exact consistent.of_commits keyed' commits later positive

theorem restore {restored : Database} {flavor : LoadStore}
    {writes : List (Nat × Option (List UInt8))} (consistent : Consistent db) (positive : 0 < tid)
    (later : ∀ r ∈ db.objectState, r.tid < tid) (distinct : (writes.map Prod.fst).Nodup)
    (restoredEq : flavor.restores md5 tid db writes = some restored)
    (updated : flavor.updateCurrent restored tid = some db') : Consistent db' := by
  obtain ⟨_, keyed', commits, -⟩ := consistent.restore_commits later distinct restoredEq updated
  exact consistent.of_commits keyed' commits later positive

end Consistent

/-- Every history keeps the database consistent. -/
theorem History.consistent (history : History md5 db) : Consistent db := by
  induction history with
  | empty => exact Consistent.empty
  | store _ positive later created stored clear moved updated ih =>
    exact ih.store positive later created stored clear moved updated
  | restore _ positive later distinct restored updated ih =>
    exact ih.restore positive later distinct restored updated

/-- Over every history of committed transactions, in any mix of flavors, the primary keys
hold, `current_object` points every object that has revisions at its latest one, and
PostgreSQL's and MySQL's `load_current` return what `load_before` returns for any tid above
every revision. -/
theorem history_loads_latest (history : History md5 db) :
    Keyed db ∧ CurrentInvariant db ∧
      ∀ oid tid, (∀ r ∈ db.objectState, r.tid < tid) →
        loadCurrentSql db oid = some (loadBeforeSql db oid tid) := by
  have consistent := history.consistent
  exact ⟨consistent.keyed, consistent.current, fun oid tid above =>
    consistent.keyed.loadCurrentSql_eq_loadBeforeSql consistent.current above oid⟩

/-- PostgreSQL stores object 5 as a new object at tid 1, then MySQL restores it at tid 2. -/
theorem History.store_then_restore : History (fun _ => "")
    ⟨[⟨5, 1, 0, some "", some [1]⟩, ⟨5, 2, 1, some "", some [2]⟩], [⟨5, 2⟩],
      [⟨5, 0, some "", some [1]⟩]⟩ := by
  have first := History.store History.empty (show 0 < 1 by decide) (by simp)
    (fun oid c last absent => (marks_of_new_objects (by simp) oid c last).mpr absent)
    (show LoadStore.postgreSQL.storeTemps (fun _ => "") { (⟨[], [], []⟩ : Database) with
      tempStore := [] } [(5, 0, [1])] = some _ from rfl)
    (show detectConflictSql _ = none from rfl)
    (show LoadStore.postgreSQL.moveFromTemp _ 1 = some (_, _) from rfl)
    (show LoadStore.postgreSQL.updateCurrent _ 1 = some _ from rfl)
  exact History.restore first (show 0 < 2 by decide) (by decide)
    (show ([(5, some [2])].map Prod.fst).Nodup by decide)
    (show LoadStore.mySQL.restores (fun _ => "") 2 _ [(5, some [2])] = some _ from rfl) rfl

theorem history_loads_latest_store_then_restore :
    ∃ db, History (fun _ => "") db ∧ loadCurrentSql db 5 = some (some [2], some 2) ∧
      Keyed db ∧ CurrentInvariant db ∧
      ∀ oid tid, (∀ r ∈ db.objectState, r.tid < tid) →
        loadCurrentSql db oid = some (loadBeforeSql db oid tid) :=
  ⟨_, History.store_then_restore, rfl, history_loads_latest History.store_then_restore⟩

end RelStorage
