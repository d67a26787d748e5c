import RelStorage.Adapters.Commit
import RelStorage.Adapters.Queries

namespace RelStorage

variable {md5 : List UInt8 → String} {db db' : Database} {tid : Nat}

namespace Keyed

theorem storeTemps (keyed : Keyed db) (flavor : LoadStore) {calls : List (Nat × Nat × List UInt8)}
    (stored : flavor.storeTemps md5 db calls = some db') : Keyed db' := by
  rw [LoadStore.storeTemps_eq] at stored
  cases stored
  exact ⟨keyed.objectState, keyed.currentObject⟩

theorem moveFromTemp (keyed : Keyed db) (flavor : LoadStore) {oids : List Nat}
    (moved : flavor.moveFromTemp db tid = some (db', oids)) : Keyed db' := by
  have sql : moveFromTempSql db tid = some (db', oids) := by cases flavor <;> exact moved
  simp only [moveFromTempSql, Option.bind_eq_bind, Option.bind_eq_some, Option.pure_def,
    Option.some.injEq, Prod.mk.injEq] at sql
  obtain ⟨rows, inserted, rfl, -⟩ := sql
  exact ⟨insertRows_nodup keyed.objectState inserted, keyed.currentObject⟩

theorem updateCurrent (keyed : Keyed db) (flavor : LoadStore)
    (updated : flavor.updateCurrent db tid = some db') : Keyed db' := by
  have inserting (sql : insertUpdateCurrent db tid = some db') : Keyed db' := by
    simp only [insertUpdateCurrent, Option.bind_eq_bind, Option.bind_eq_some, Option.pure_def,
      Option.some.injEq] at sql
    obtain ⟨rows, inserted, rfl⟩ := sql
    refine ⟨keyed.objectState, ?_⟩
    simpa only [List.map_map, Function.comp_def, CurrentObjectRow.pointAt_zoid] using
      insertRows_nodup keyed.currentObject inserted
  cases flavor
  case mySQL =>
    cases updated
    exact ⟨keyed.objectState, replaceRows_nodup keyed.currentObject⟩
  all_goals exact inserting updated

theorem restores (keyed : Keyed db) (flavor : LoadStore) {writes : List (Nat × Option (List UInt8))}
    (restored : flavor.restores md5 tid db writes = some db') : Keyed db' := by
  induction writes generalizing db with
  | nil =>
    cases restored
    exact keyed
  | cons write writes ih =>
    obtain ⟨oid, data⟩ := write
    simp only [LoadStore.restores, Option.bind_eq_some] at restored
    obtain ⟨mid, first, rest⟩ := restored
    have sql : restoreSql md5 db oid tid data = some mid := by cases flavor <;> exact first
    simp only [restoreSql, Option.bind_eq_bind, Option.bind_eq_some, Option.pure_def,
      Option.some.injEq] at sql
    obtain ⟨rows, inserted, rfl⟩ := sql
    have keyedMid : Keyed { db with objectState := rows } :=
      ⟨insertRow_nodup keyed.objectState inserted, keyed.currentObject⟩
    exact ih keyedMid rest

end Keyed

namespace Commits

variable {written : Nat → Option ObjectStateRow}

theorem objectStateAt_of_unwritten (commits : Commits db db' tid written)
    (later : ∀ r ∈ db.objectState, r.tid < tid) {oid : Nat} (unwritten : written oid = none)
    (t : Nat) : objectStateAt db' oid t = objectStateAt db oid t := by
  rw [commits.objectState]
  split
  case isTrue same =>
    subst same
    rw [unwritten, eq_comm]
    by_contra present
    exact Nat.lt_irrefl _ (tid_lt_of_objectStateAt later present)
  case isFalse => rfl

/-- What `load_current` reads after a commit: each written revision, and otherwise what it
read before. -/
theorem loadCurrent (commits : Commits db db' tid written)
    (later : ∀ r ∈ db.objectState, r.tid < tid) (keyed : Keyed db) (keyed' : Keyed db')
    (oid : Nat) :
    loadCurrentSql db' oid = match written oid with
      | some r => some (r.state, some r.tid)
      | none => loadCurrentSql db oid := by
  rw [loadCurrentSql_eq keyed', commits.currentObject]
  cases isWritten : written oid with
  | none =>
    have unchanged : objectStateAt db' oid = objectStateAt db oid :=
      funext (commits.objectStateAt_of_unwritten later isWritten)
    rw [if_pos rfl, unchanged, loadCurrentSql_eq keyed]
  | some r =>
    rw [if_neg (by simp), Option.some_bind, commits.objectState, if_pos rfl, isWritten]

theorem loadRevision (commits : Commits db db' tid written) (keyed : Keyed db) (keyed' : Keyed db')
    (oid t : Nat) :
    loadRevisionSql db' oid t =
      if t = tid then some ((written oid).bind (·.state)) else loadRevisionSql db oid t := by
  rw [loadRevisionSql_eq keyed'.objectState, loadRevisionSql_eq keyed.objectState, commits.objectState]
  split <;> rfl

end Commits

/-- After a commit at a tid above every revision of a keyed database, in every flavor, the
primary keys still hold, PostgreSQL's and MySQL's `load_current` read each written object
back with the data written and the commit's tid and every other object as before, and
`load_revision` at the commit's tid reads the data written. -/
theorem commit_read_back (md5 : List UInt8 → String) (flavor : LoadStore) (db : Database)
    (tid : Nat) (keyed : Keyed db) (later : ∀ r ∈ db.objectState, r.tid < tid) :
    (∀ calls, db.tempStore = [] →
      (∀ oid c, lastCall calls oid = some c → (c.1 = 0 ↔ currentTid db oid = none)) →
      ∃ staged moved oids db', flavor.storeTemps md5 db calls = some staged ∧
        flavor.moveFromTemp staged tid = some (moved, oids) ∧
        flavor.updateCurrent moved tid = some db' ∧ Keyed db' ∧
        ∀ oid, loadCurrentSql db' oid = (match lastCall calls oid with
            | some c => some (some c.2, some tid)
            | none => loadCurrentSql db oid) ∧
          ∀ t, loadRevisionSql db' oid t =
            if t = tid then some ((lastCall calls oid).map Prod.snd) else loadRevisionSql db oid t) ∧
    ∀ writes : List (Nat × Option (List UInt8)), (writes.map Prod.fst).Nodup →
      (∀ w ∈ writes, currentTid db w.1 ≠ some 0) →
      ∃ restored db', flavor.restores md5 tid db writes = some restored ∧
        flavor.updateCurrent restored tid = some db' ∧ Keyed db' ∧
        ∀ oid, loadCurrentSql db' oid = (match lookup Prod.fst writes oid with
            | some w => some (w.2, some tid)
            | none => loadCurrentSql db oid) ∧
          ∀ t, loadRevisionSql db' oid t =
            if t = tid then some ((lookup Prod.fst writes oid).bind Prod.snd)
            else loadRevisionSql db oid t := by
  refine ⟨fun calls empty marks => ?_, fun writes distinct nonzero => ?_⟩
  · obtain ⟨staged, moved, oids, db', stored, move, update, -, -, commits⟩ :=
      storeTemps_commit flavor later empty marks
    have keyed' := ((keyed.storeTemps flavor stored).moveFromTemp flavor move).updateCurrent flavor update
    refine ⟨staged, moved, oids, db', stored, move, update, keyed', fun oid => ⟨?_, fun t => ?_⟩⟩
    · rw [commits.loadCurrent later keyed keyed']
      cases lastCall calls oid <;> rfl
    · rw [commits.loadRevision keyed keyed']
      cases lastCall calls oid <;> rfl
  · obtain ⟨restored, db', restoredEq, update, commits⟩ := restores_commit flavor later distinct nonzero
    have keyed' := (keyed.restores flavor restoredEq).updateCurrent flavor update
    refine ⟨restored, db', restoredEq, update, keyed', fun oid => ⟨?_, fun t => ?_⟩⟩
    · rw [commits.loadCurrent later keyed keyed']
      cases lookup Prod.fst writes oid <;> rfl
    · rw [commits.loadRevision keyed keyed']
      cases lookup Prod.fst writes oid <;> rfl

theorem commit_read_back_new_object :
    ∃ staged moved oids db',
      LoadStore.mySQL.storeTemps (fun _ => "") ⟨[], [], []⟩ [(5, 0, [1])] = some staged ∧
      LoadStore.mySQL.moveFromTemp staged 1 = some (moved, oids) ∧
      LoadStore.mySQL.updateCurrent moved 1 = some db' ∧
      loadCurrentSql db' 5 = some (some [1], some 1) ∧ loadRevisionSql db' 5 1 = some (some [1]) := by
  obtain ⟨staged, moved, oids, db', stored, move, update, -, reads⟩ :=
    (commit_read_back (fun _ => "") .mySQL ⟨[], [], []⟩ 1 ⟨by decide, by decide⟩ (by simp)).1
      [(5, 0, [1])] rfl (marks_of_new_objects (by simp))
  exact ⟨staged, moved, oids, db', stored, move, update, (reads 5).1.trans rfl,
    ((reads 5).2 1).trans rfl⟩

/-- After `store_temp` calls into an empty `temp_store`, `detect_conflict` checks the last call
of each object against its current tid: it reports nothing exactly when each such `prev_tid`
is the object's current tid, and what it reports is an object whose last call named another
tid, with that call's data. Earlier calls for the same object are not checked, and objects
`current_object` does not know are skipped. -/
theorem detectConflict_checks_last_store (md5 : List UInt8 → String) (flavor : LoadStore)
    (db : Database) (calls : List (Nat × Nat × List UInt8)) (empty : db.tempStore = [])
    (keyed : (db.currentObject.map CurrentObjectRow.zoid).Nodup) :
    ∃ staged, flavor.storeTemps md5 db calls = some staged ∧
      (detectConflictSql staged = none ↔
        ∀ oid c t, lastCall calls oid = some c → currentTid db oid = some t → c.1 = t) ∧
      ∀ conflict, detectConflictSql staged = some conflict →
        ∃ oid c t, lastCall calls oid = some c ∧ currentTid db oid = some t ∧ c.1 ≠ t ∧
          conflict = (oid, t, c.1, some c.2) := by
  refine ⟨_, LoadStore.storeTemps_eq flavor calls, ?_, fun conflict found => ?_⟩
  · rw [detectConflictSql_eq_none_iff, empty]
    constructor
    · intro clear oid c t last current
      obtain ⟨cur, found, rfl⟩ := Option.map_eq_some'.mp current
      exact clear _ (mem_tempRows.mpr ⟨oid, c, last, rfl⟩) cur (mem_of_lookup found)
        (lookup_key found).symm
    · intro checked t member cur inCurrent same
      obtain ⟨oid, c, last, rfl⟩ := mem_tempRows.mp member
      have current : oid = cur.zoid := same
      exact checked oid c cur.tid last (current ▸ currentTid_of_mem keyed inCurrent)
  · obtain ⟨t, member, cur, inCurrent, same, stale, rfl⟩ := detectConflictSql_eq_some found
    rw [empty] at member
    obtain ⟨oid, c, last, rfl⟩ := mem_tempRows.mp member
    have current : oid = cur.zoid := same
    exact ⟨oid, c, cur.tid, last, current ▸ currentTid_of_mem keyed inCurrent, stale, rfl⟩

theorem detectConflict_checks_last_store_after_retry :
    ∃ staged, LoadStore.mySQL.storeTemps (fun _ => "") ⟨[], [⟨5, 1⟩], []⟩
        [(5, 0, [1]), (5, 1, [2])] = some staged ∧ detectConflictSql staged = none := by
  obtain ⟨staged, stored, clear, -⟩ := detectConflict_checks_last_store (fun _ => "") .mySQL
    ⟨[], [⟨5, 1⟩], []⟩ [(5, 0, [1]), (5, 1, [2])] rfl (by decide)
  refine ⟨staged, stored, clear.mpr fun oid c t last current => ?_⟩
  by_cases five : oid = 5
  · subst five
    cases last
    cases current
    rfl
  · simp [currentTid, lookup, Ne.symm five] at current

/-- When the join of `detect_conflict` finds no stored object whose `prev_tid` differs from
its current tid, and new objects were stored with `prev_tid = 0`, the `prev_tid` of each
object's last call is its current tid, or 0 for an object `current_object` does not know. -/
theorem prevTid_of_no_conflict {md5 : List UInt8 → String} {calls : List (Nat × Nat × List UInt8)}
    (empty : db.tempStore = [])
    (created : ∀ oid c, lastCall calls oid = some c → currentTid db oid = none → c.1 = 0)
    (clear : detectConflictSql { db with
      tempStore := replaceRows TempStoreRow.zoid db.tempStore (calls.map (tempRow md5)) } = none)
    (oid : Nat) (c : Nat × List UInt8) (last : lastCall calls oid = some c) :
    c.1 = (currentTid db oid).getD 0 := by
  cases current : currentTid db oid with
  | none => exact created oid c last current
  | some t =>
    obtain ⟨cur, found, rfl⟩ := Option.map_eq_some'.mp current
    have stored : lookup TempStoreRow.zoid
        (replaceRows TempStoreRow.zoid db.tempStore (calls.map (tempRow md5))) oid =
          some (tempRow md5 (oid, c.1, c.2)) := by
      rw [empty, lookup_tempRows, last]
      rfl
    exact detectConflictSql_eq_none_iff.mp clear _ (mem_of_lookup stored) cur
      (mem_of_lookup found) (lookup_key found).symm

/-- With no conflict detected and no current tid 0, the `prev_tid` of each object's last call
is 0 exactly for the objects `current_object` does not know. -/
theorem marks_of_no_conflict {md5 : List UInt8 → String} {calls : List (Nat × Nat × List UInt8)}
    (empty : db.tempStore = []) (positive : ∀ oid t, currentTid db oid = some t → 0 < t)
    (created : ∀ oid c, lastCall calls oid = some c → currentTid db oid = none → c.1 = 0)
    (clear : detectConflictSql { db with
      tempStore := replaceRows TempStoreRow.zoid db.tempStore (calls.map (tempRow md5)) } = none)
    (oid : Nat) (c : Nat × List UInt8) (last : lastCall calls oid = some c) :
    c.1 = 0 ↔ currentTid db oid = none := by
  rw [prevTid_of_no_conflict empty created clear oid c last]
  cases current : currentTid db oid with
  | none => simp
  | some t => simp [Nat.ne_of_gt (positive oid t current)]

/-- The commit protocol: a client stores new objects with `prev_tid = 0`. When the join of
`detect_conflict` then finds no stored object whose `prev_tid` differs from its current tid,
and no current tid is 0, `move_from_temp` and `update_current` commit the last call per object
with the same effect in every flavor. -/
theorem commit_after_detect_conflict (md5 : List UInt8 → String) (flavor : LoadStore)
    (db : Database) (tid : Nat) (later : ∀ r ∈ db.objectState, r.tid < tid)
    (positive : ∀ oid t, currentTid db oid = some t → 0 < t) (empty : db.tempStore = [])
    (calls : List (Nat × Nat × List UInt8))
    (created : ∀ oid c, lastCall calls oid = some c → currentTid db oid = none → c.1 = 0) :
    ∃ staged, flavor.storeTemps md5 db calls = some staged ∧
      (detectConflictSql staged = none →
        ∃ moved oids db', flavor.moveFromTemp staged tid = some (moved, oids) ∧
          flavor.updateCurrent moved tid = some db' ∧
          Commits db db' tid (fun oid => (lastCall calls oid).map fun c =>
            ⟨oid, tid, c.1, computeMd5sum md5 (some c.2), some c.2⟩)) := by
  refine ⟨_, LoadStore.storeTemps_eq flavor calls, fun clear => ?_⟩
  obtain ⟨staged, moved, oids, db', stored, move, update, -, -, commits⟩ :=
    storeTemps_commit flavor later empty (marks_of_no_conflict empty positive created clear)
  rw [LoadStore.storeTemps_eq, Option.some.injEq] at stored
  subst stored
  exact ⟨moved, oids, db', move, update, commits⟩

theorem commit_after_detect_conflict_new_object :
    ∃ staged moved oids db',
      LoadStore.oracle.storeTemps (fun _ => "") ⟨[], [], []⟩ [(5, 0, [1])] = some staged ∧
      detectConflictSql staged = none ∧ LoadStore.oracle.moveFromTemp staged 1 = some (moved, oids) ∧
      LoadStore.oracle.updateCurrent moved 1 = some db' ∧
      Commits ⟨[], [], []⟩ db' 1 (fun oid => (lastCall [(5, 0, [1])] oid).map fun c =>
        ⟨oid, 1, c.1, computeMd5sum (fun _ => "") (some c.2), some c.2⟩) := by
  obtain ⟨staged, stored, commit⟩ := commit_after_detect_conflict (fun _ => "") .oracle
    ⟨[], [], []⟩ 1 (by simp) (fun oid t current => by simp [currentTid] at current) rfl
    [(5, 0, [1])] fun oid c last absent => (marks_of_new_objects (by simp) oid c last).mpr absent
  have clear : detectConflictSql staged = none := by
    cases stored
    rfl
  obtain ⟨moved, oids, db', move, update, commits⟩ := commit clear
  exact ⟨staged, moved, oids, db', stored, clear, move, update, commits⟩

end RelStorage
