import RelStorage.Adapters.LoadStore

namespace RelStorage

/-- The `temp_store` row `store_temp(oid, prev_tid, data)` writes. -/
def tempRow (md5 : List UInt8 → String) (call : Nat × Nat × List UInt8) : TempStoreRow :=
  ⟨call.1, call.2.1, computeMd5sum md5 (some call.2.2), some call.2.2⟩

/-- The revision `restore(oid, tid, data)` writes: its `prev_tid` is read from
`current_object`, 0 for an object it does not know. -/
def restoredRow (md5 : List UInt8 → String) (db : Database) (tid : Nat)
    (write : Nat × Option (List UInt8)) : ObjectStateRow :=
  ⟨write.1, tid, (currentTid db write.1).getD 0, computeMd5sum md5 write.2, write.2⟩

namespace LoadStore

variable (md5 : List UInt8 → String)

/-- `store_temp` for each `(oid, prev_tid, data)` in turn. -/
def storeTemps (flavor : LoadStore) : Database → List (Nat × Nat × List UInt8) → Option Database
  | db, [] => some db
  | db, (oid, prevTid, data) :: calls =>
      (flavor.storeTemp md5 db oid prevTid data).bind fun db => storeTemps flavor db calls

/-- `restore(oid, tid, data)` for each `(oid, data)` in turn. -/
def restores (flavor : LoadStore) (tid : Nat) :
    Database → List (Nat × Option (List UInt8)) → Option Database
  | db, [] => some db
  | db, (oid, data) :: writes =>
      (flavor.restore md5 db oid tid data).bind fun db => restores flavor tid db writes

variable {md5} {db : Database} {tid : Nat}

/-- Every flavor's `store_temp` replaces the row of the oid: PostgreSQL's and Oracle's
`INSERT` after the `DELETE` never meets the key. -/
theorem storeTemp_eq (flavor : LoadStore) (oid prevTid : Nat) (data : List UInt8) :
    flavor.storeTemp md5 db oid prevTid data = some { db with
      tempStore := replaceRow TempStoreRow.zoid db.tempStore (tempRow md5 (oid, prevTid, data)) } := by
  have deleted : deleteInsertTemp db (tempRow md5 (oid, prevTid, data)) = some { db with
      tempStore := replaceRow TempStoreRow.zoid db.tempStore (tempRow md5 (oid, prevTid, data)) } := by
    rw [deleteInsertTemp, insertRow_eq_some (lookup_eq_none.mpr fun r member => by
      simpa using (List.mem_filter.mp member).2)]
    rfl
  cases flavor
  · exact deleted
  · rfl
  · exact deleted

theorem storeTemps_eq (flavor : LoadStore) (calls : List (Nat × Nat × List UInt8)) :
    storeTemps md5 flavor db calls = some { db with
      tempStore := replaceRows TempStoreRow.zoid db.tempStore (calls.map (tempRow md5)) } := by
  induction calls generalizing db with
  | nil => rfl
  | cons call calls ih =>
    obtain ⟨oid, prevTid, data⟩ := call
    simp only [storeTemps, storeTemp_eq, Option.some_bind, ih]
    rfl

theorem restores_eq (flavor : LoadStore) :
    ∀ {writes : List (Nat × Option (List UInt8))} {rows : List ObjectStateRow},
      (writes.map Prod.fst).Nodup → (∀ r ∈ rows, r.tid = tid → r.zoid ∉ writes.map Prod.fst) →
      restores md5 flavor tid { db with objectState := rows } writes =
        some { db with objectState := rows ++ writes.map (restoredRow md5 db tid) }
  | [], rows, _, _ => by simp [restores]
  | (oid, data) :: writes, rows, distinct, fresh => by
    obtain ⟨outside, distinct⟩ := List.nodup_cons.mp distinct
    have inserted : flavor.restore md5 { db with objectState := rows } oid tid data =
        some { db with objectState := rows ++ [restoredRow md5 db tid (oid, data)] } := by
      have absent : lookup ObjectStateRow.key rows (oid, tid) = none :=
        lookup_eq_none.mpr fun r member same => by
          simp only [ObjectStateRow.key, Prod.mk.injEq] at same
          exact fresh r member same.2 (same.1 ▸ List.mem_cons_self _ _)
      have restored : restoreSql md5 { db with objectState := rows } oid tid data =
          some { db with objectState := rows ++ [restoredRow md5 db tid (oid, data)] } := by
        rw [restoreSql, insertRow_eq_some]
        · rfl
        · exact absent
      cases flavor <;> exact restored
    have fresh' (r : ObjectStateRow) (member : r ∈ rows ++ [restoredRow md5 db tid (oid, data)])
        (atTid : r.tid = tid) : r.zoid ∉ writes.map Prod.fst := by
      rcases List.mem_append.mp member with old | new
      · exact fun later => fresh r old atTid (List.mem_cons_of_mem _ later)
      · rw [List.mem_singleton.mp new]
        exact outside
    rw [restores, inserted, Option.some_bind, restores_eq flavor distinct fresh',
      List.append_assoc, List.map_cons, List.singleton_append]

theorem moveFromTemp_eq (flavor : LoadStore) (later : ∀ r ∈ db.objectState, r.tid < tid)
    (keyed : (db.tempStore.map (·.zoid)).Nodup) :
    flavor.moveFromTemp db tid = some ({ db with
      objectState := db.objectState ++ db.tempStore.map (TempStoreRow.revision tid) },
      db.tempStore.map (·.zoid)) := by
  have fresh (r : ObjectStateRow) (moved : r ∈ db.tempStore.map (TempStoreRow.revision tid)) :
      lookup ObjectStateRow.key db.objectState r.key = none := by
    obtain ⟨t, -, rfl⟩ := List.mem_map.mp moved
    exact lookup_eq_none.mpr fun r' member same => by
      have := later r' member
      simp only [ObjectStateRow.key, TempStoreRow.revision, Prod.mk.injEq] at same
      omega
  have distinct : ((db.tempStore.map (TempStoreRow.revision tid)).map ObjectStateRow.key).Nodup := by
    rw [List.map_map, show ObjectStateRow.key ∘ TempStoreRow.revision tid =
      (fun z => (z, tid)) ∘ (·.zoid) from rfl, ← List.map_map]
    exact List.Nodup.map (fun _ _ same => (Prod.mk.inj same).1) keyed
  have moved : moveFromTempSql db tid = some ({ db with
      objectState := db.objectState ++ db.tempStore.map (TempStoreRow.revision tid) },
      db.tempStore.map (·.zoid)) := by
    rw [moveFromTempSql, insertRows_eq_some fresh distinct]
    rfl
  cases flavor <;> exact moved

section Pointers

variable {rows : List ObjectStateRow} {oid : Nat}

theorem tid_of_mem_current {c : CurrentObjectRow} (atTid : ∀ r ∈ rows, r.tid = tid)
    (member : c ∈ rows.map ObjectStateRow.current) : c.tid = tid := by
  obtain ⟨r, inRows, rfl⟩ := List.mem_map.mp member
  exact atTid r inRows

theorem lookup_current_ne_none {r : ObjectStateRow} (member : r ∈ rows) (same : r.zoid = oid) :
    lookup CurrentObjectRow.zoid (rows.map ObjectStateRow.current) oid ≠ none := fun absent =>
  lookup_eq_none.mp absent _ (List.mem_map_of_mem _ member) same

theorem lookup_current_eq_none {rows' : List ObjectStateRow}
    (absent : lookup ObjectStateRow.zoid rows oid = none) (sub : rows' ⊆ rows) :
    lookup CurrentObjectRow.zoid (rows'.map ObjectStateRow.current) oid = none :=
  lookup_eq_none.mpr fun c member => by
    obtain ⟨r, inRows, rfl⟩ := List.mem_map.mp member
    exact lookup_eq_none.mp absent r (sub inRows)

end Pointers

/-- Once revisions `new` at `tid` of distinct objects follow the older ones in
`object_state`, `update_current(tid)` points each of their objects at `tid` and leaves the
others, in every flavor, as long as `prev_tid = 0` marks exactly the objects that
`current_object` does not know. -/
theorem updateCurrent_eq (flavor : LoadStore) {old new : List ObjectStateRow}
    (rows : db.objectState = old ++ new) (later : ∀ r ∈ old, r.tid < tid)
    (atTid : ∀ r ∈ new, r.tid = tid) (keyed : (new.map (·.zoid)).Nodup)
    (marks : ∀ r ∈ new, r.prevTid = 0 ↔ currentTid db r.zoid = none) :
    ∃ db', flavor.updateCurrent db tid = some db' ∧ db'.objectState = db.objectState ∧
      ∀ oid, currentTid db' oid =
        if lookup ObjectStateRow.zoid new oid = none then currentTid db oid else some tid := by
  have selected (p : ObjectStateRow → Prop) [DecidablePred p] :
      db.objectState.filter (fun r => r.tid = tid ∧ p r) = new.filter p := by
    rw [rows, List.filter_append, List.filter_eq_nil_iff.mpr fun r member => by
      simp [Nat.ne_of_lt (later r member)], List.nil_append]
    exact List.filter_congr fun r member => by simp [atTid r member]
  have fresh (c : CurrentObjectRow)
      (member : c ∈ (new.filter fun r => r.prevTid = 0).map ObjectStateRow.current) :
      lookup CurrentObjectRow.zoid db.currentObject c.zoid = none := by
    obtain ⟨r, inFilter, rfl⟩ := List.mem_map.mp member
    obtain ⟨inNew, isZero⟩ := List.mem_filter.mp inFilter
    simpa [currentTid] using (marks r inNew).mp (of_decide_eq_true isZero)
  have distinct : (((new.filter fun r => r.prevTid = 0).map ObjectStateRow.current).map
      (·.zoid)).Nodup := by
    rw [List.map_map]
    exact keyed.sublist ((List.filter_sublist _).map _)
  have split : insertUpdateCurrent db tid = some { db with
      currentObject := (db.currentObject ++ (new.filter fun r => r.prevTid = 0).map
        ObjectStateRow.current).map
          (CurrentObjectRow.pointAt ((new.filter fun r => r.prevTid ≠ 0).map (·.zoid)) tid) } := by
    simp only [insertUpdateCurrent, selected, insertRows_eq_some fresh distinct]
    rfl
  have splitTid (oid : Nat) : currentTid { db with
      currentObject := (db.currentObject ++ (new.filter fun r => r.prevTid = 0).map
        ObjectStateRow.current).map
          (CurrentObjectRow.pointAt ((new.filter fun r => r.prevTid ≠ 0).map (·.zoid)) tid) } oid =
      if lookup ObjectStateRow.zoid new oid = none then currentTid db oid else some tid := by
    simp only [currentTid]
    rw [lookup_map_of_key (CurrentObjectRow.pointAt_zoid _ tid), lookup_append]
    split
    case isTrue absent =>
      have unchanged : oid ∉ (new.filter fun r => r.prevTid ≠ 0).map (·.zoid) := fun inChanged => by
        obtain ⟨r, inFilter, same⟩ := List.mem_map.mp inChanged
        exact lookup_eq_none.mp absent r (List.mem_of_mem_filter inFilter) same
      rw [lookup_current_eq_none absent (List.filter_subset' _), Option.or_none]
      cases found : lookup CurrentObjectRow.zoid db.currentObject oid with
      | none => rfl
      | some c =>
        simp only [Option.map_some', CurrentObjectRow.pointAt, lookup_key found, if_neg unchanged]
    case isFalse present =>
      obtain ⟨r, found⟩ := Option.ne_none_iff_exists'.mp present
      have inNew := mem_of_lookup found
      have same := lookup_key found
      by_cases zero : r.prevTid = 0
      · have absent : lookup CurrentObjectRow.zoid db.currentObject oid = none := by
          simpa [currentTid, same] using (marks r inNew).mp zero
        obtain ⟨c, pointed⟩ := Option.ne_none_iff_exists'.mp
          (lookup_current_ne_none (show r ∈ new.filter fun r => r.prevTid = 0 from
            List.mem_filter.mpr ⟨inNew, decide_eq_true zero⟩) same)
        have pointedTid := tid_of_mem_current (fun r' member => atTid r' (List.mem_of_mem_filter member))
          (mem_of_lookup pointed)
        simp only [absent, pointed, Option.none_or, Option.map_some', CurrentObjectRow.pointAt]
        split <;> simp [pointedTid]
      · obtain ⟨c, pointed⟩ := Option.ne_none_iff_exists'.mp
          (by simpa [currentTid, same] using mt (marks r inNew).mpr zero)
        have changed : c.zoid ∈ (new.filter fun r => r.prevTid ≠ 0).map (·.zoid) :=
          List.mem_map.mpr ⟨r, List.mem_filter.mpr ⟨inNew, decide_eq_true zero⟩,
            same.trans (lookup_key pointed).symm⟩
        rw [pointed]
        simp only [Option.or_some, Option.map_some', CurrentObjectRow.pointAt, if_pos changed]
  cases flavor
  case mySQL =>
    refine ⟨_, rfl, rfl, fun oid => ?_⟩
    have atTid' : db.objectState.filter (·.tid = tid) = new := by
      simpa using selected fun _ => True
    simp only [HistoryPreservingMySQLLoadStore.updateCurrent, currentTid, atTid',
      lookup_replaceRows]
    split
    case isTrue absent =>
      rw [lookup_reverse_eq_none.mpr (lookup_current_eq_none absent (List.Subset.refl _))]
      rfl
    case isFalse present =>
      obtain ⟨r, found⟩ := Option.ne_none_iff_exists'.mp present
      obtain ⟨c, pointed⟩ := Option.ne_none_iff_exists'.mp fun absent =>
        lookup_current_ne_none (mem_of_lookup found) (lookup_key found)
          (lookup_reverse_eq_none.mp absent)
      have pointedTid := tid_of_mem_current atTid (List.mem_reverse.mp (mem_of_lookup pointed))
      simp [pointed, pointedTid]
  all_goals exact ⟨_, split, rfl, splitTid⟩

end LoadStore

/-- `store_temp` leaves `oid` with the row `(oid, prev_tid, md5(data), data)`, and
`replace_temp` rewrites the row of an object already in `temp_store` to that same row, in every
flavor, and leaves the database as it is for an object not in `temp_store`. -/
theorem replaceTemp_as_storeTemp (md5 : List UInt8 → String) (flavor : LoadStore) (db : Database)
    (oid prevTid : Nat) (data : List UInt8) :
    (lookup TempStoreRow.zoid db.tempStore oid = none →
      flavor.replaceTemp md5 db oid prevTid data = db) ∧
    ∃ stored, flavor.storeTemp md5 db oid prevTid data = some stored ∧
      lookup TempStoreRow.zoid stored.tempStore oid =
        some ⟨oid, prevTid, computeMd5sum md5 (some data), some data⟩ ∧
      (lookup TempStoreRow.zoid db.tempStore oid ≠ none → ∀ k,
        lookup TempStoreRow.zoid (flavor.replaceTemp md5 db oid prevTid data).tempStore k =
          lookup TempStoreRow.zoid stored.tempStore k) := by
  have sql : flavor.replaceTemp md5 db oid prevTid data = replaceTempSql md5 db oid prevTid data := by
    cases flavor <;> rfl
  have keep (t : TempStoreRow) :
      (if t.zoid = oid then { t with prevTid, md5 := computeMd5sum md5 (some data), state := some data }
        else t).zoid = t.zoid := by
    split <;> rfl
  refine ⟨fun absent => ?_, _, LoadStore.storeTemp_eq flavor oid prevTid data,
    by rw [lookup_replaceRow]; exact if_pos rfl, fun present k => ?_⟩
  · rw [sql, replaceTempSql, List.map_congr_left fun t member =>
      if_neg (lookup_eq_none.mp absent t member), List.map_id']
  · rw [sql, replaceTempSql, lookup_map_of_key keep, lookup_replaceRow]
    cases found : lookup TempStoreRow.zoid db.tempStore k with
    | none =>
      have apart : oid ≠ k := fun same => present (same ▸ found)
      simp [tempRow, apart]
    | some t =>
      have same := lookup_key found
      by_cases isOid : t.zoid = oid
      · simp [isOid, ← same, tempRow]
      · simp [isOid, tempRow, show oid ≠ k from fun eq => isOid (same.trans eq.symm)]

/-- The `(prev_tid, data)` of the last `store_temp` call for `oid`. -/
def lastCall (calls : List (Nat × Nat × List UInt8)) (oid : Nat) : Option (Nat × List UInt8) :=
  (lookup Prod.fst calls.reverse oid).map Prod.snd

/-- Committing the revisions `written oid` at `tid`, as seen through the keyed reads of the
tables: `object_state` gains exactly those revisions, and `current_object` points every
written object at `tid` and is otherwise as it was. -/
structure Commits (db db' : Database) (tid : Nat) (written : Nat → Option ObjectStateRow) :
    Prop where
  objectState : ∀ oid t,
    objectStateAt db' oid t = if t = tid then written oid else objectStateAt db oid t
  currentObject : ∀ oid,
    currentTid db' oid = if written oid = none then currentTid db oid else some tid

section Commit

variable {md5 : List UInt8 → String} {db db' : Database} {tid : Nat}

theorem tid_lt_of_objectStateAt (later : ∀ r ∈ db.objectState, r.tid < tid) {oid t : Nat}
    (present : objectStateAt db oid t ≠ none) : t < tid := by
  obtain ⟨r, found⟩ := Option.ne_none_iff_exists'.mp present
  have key := lookup_key found
  simp only [ObjectStateRow.key, Prod.mk.injEq] at key
  exact key.2 ▸ later r (mem_of_lookup found)

/-- A commit at a tid above every revision keeps `current_object` at the latest revisions. -/
theorem Commits.currentInvariant {written : Nat → Option ObjectStateRow}
    (commits : Commits db db' tid written) (later : ∀ r ∈ db.objectState, r.tid < tid)
    (invariant : CurrentInvariant db) : CurrentInvariant db' := by
  intro oid t present
  rw [commits.objectState] at present
  by_cases isNew : written oid = none
  · have old : t ≠ tid := fun same => by simp [same, isNew] at present
    rw [if_neg old] at present
    obtain ⟨t', current, above, revision⟩ := invariant oid t present
    refine ⟨t', by rw [commits.currentObject, if_pos isNew, current], above, ?_⟩
    rwa [commits.objectState, if_neg (Nat.ne_of_lt (tid_lt_of_objectStateAt later revision))]
  · refine ⟨tid, by rw [commits.currentObject, if_neg isNew], ?_,
      by rwa [commits.objectState, if_pos rfl]⟩
    by_cases same : t = tid
    · exact Nat.le_of_eq same
    · rw [if_neg same] at present
      obtain ⟨t', -, above, revision⟩ := invariant oid t present
      have := tid_lt_of_objectStateAt later revision
      omega

/-- Appending revisions at `tid` above all others adds exactly them at `tid`. -/
theorem objectStateAt_append {new : List ObjectStateRow}
    (rows : db'.objectState = db.objectState ++ new) (later : ∀ r ∈ db.objectState, r.tid < tid)
    (atTid : ∀ r ∈ new, r.tid = tid) (oid t : Nat) :
    objectStateAt db' oid t =
      if t = tid then lookup ObjectStateRow.key new (oid, tid) else objectStateAt db oid t := by
  rw [objectStateAt, rows, lookup_append]
  split
  case isTrue same =>
    subst same
    rw [lookup_eq_none.mpr fun r member key => by
      simp only [ObjectStateRow.key, Prod.mk.injEq] at key
      exact absurd key.2 (Nat.ne_of_lt (later r member))]
    rfl
  case isFalse apart =>
    have absent : lookup ObjectStateRow.key new (oid, t) = none :=
      lookup_eq_none.mpr fun r member key => by
        simp only [ObjectStateRow.key, Prod.mk.injEq] at key
        exact apart (key.2 ▸ atTid r member)
    rw [absent, Option.or_none]
    rfl

theorem lookup_tempRows (calls : List (Nat × Nat × List UInt8)) (oid : Nat) :
    lookup TempStoreRow.zoid (replaceRows TempStoreRow.zoid [] (calls.map (tempRow md5))) oid =
      (lastCall calls oid).map fun c => tempRow md5 (oid, c.1, c.2) := by
  have keep (call : Nat × Nat × List UInt8) : (tempRow md5 call).zoid = call.1 := rfl
  rw [lookup_replaceRows, lookup_nil, Option.or_none, ← List.map_reverse, lookup_map_of_key keep,
    lastCall]
  cases found : lookup Prod.fst calls.reverse oid with
  | none => rfl
  | some call => simp [← lookup_key found]

/-- Into an empty `temp_store`, `store_temp` calls leave one row per object, from its last
call. -/
theorem mem_tempRows {calls : List (Nat × Nat × List UInt8)} {t : TempStoreRow} :
    t ∈ replaceRows TempStoreRow.zoid [] (calls.map (tempRow md5)) ↔
      ∃ oid c, lastCall calls oid = some c ∧ t = tempRow md5 (oid, c.1, c.2) := by
  constructor
  · intro member
    have keyed : ((replaceRows TempStoreRow.zoid [] (calls.map (tempRow md5))).map
        TempStoreRow.zoid).Nodup := replaceRows_nodup List.nodup_nil
    have found := lookup_of_mem keyed member
    rw [lookup_tempRows] at found
    obtain ⟨c, last, made⟩ := Option.map_eq_some'.mp found
    exact ⟨t.zoid, c, last, made.symm⟩
  · rintro ⟨oid, c, last, rfl⟩
    have found : lookup TempStoreRow.zoid (replaceRows TempStoreRow.zoid [] (calls.map (tempRow md5)))
        oid = some (tempRow md5 (oid, c.1, c.2)) := by
      rw [lookup_tempRows, last, Option.map_some']
    exact mem_of_lookup found

/-- The `store_temp` path: the temp store holds the last call per object, `move_from_temp`
copies it at `tid`, and `update_current` points the objects at it. -/
theorem storeTemps_commit (flavor : LoadStore) (later : ∀ r ∈ db.objectState, r.tid < tid)
    {calls : List (Nat × Nat × List UInt8)} (empty : db.tempStore = [])
    (marks : ∀ oid c, lastCall calls oid = some c → (c.1 = 0 ↔ currentTid db oid = none)) :
    ∃ staged moved oids db', flavor.storeTemps md5 db calls = some staged ∧
      flavor.moveFromTemp staged tid = some (moved, oids) ∧
      flavor.updateCurrent moved tid = some db' ∧
      oids.Nodup ∧ (∀ oid, oid ∈ oids ↔ lastCall calls oid ≠ none) ∧
      Commits db db' tid (fun oid => (lastCall calls oid).map fun c =>
        ⟨oid, tid, c.1, computeMd5sum md5 (some c.2), some c.2⟩) := by
  obtain ⟨temp, tempDef⟩ : ∃ temp, temp = replaceRows TempStoreRow.zoid [] (calls.map (tempRow md5)) :=
    ⟨_, rfl⟩
  have staged : flavor.storeTemps md5 db calls = some { db with tempStore := temp } := by
    rw [LoadStore.storeTemps_eq, empty, tempDef]
  have keyed : (temp.map (·.zoid)).Nodup := tempDef ▸ replaceRows_nodup List.nodup_nil
  have tempLookup (oid : Nat) : lookup TempStoreRow.zoid temp oid =
      (lastCall calls oid).map fun c => tempRow md5 (oid, c.1, c.2) := tempDef ▸ lookup_tempRows calls oid
  obtain ⟨movedDb, movedDef⟩ : ∃ moved : Database, moved = { db with
      tempStore := temp
      objectState := db.objectState ++ temp.map (TempStoreRow.revision tid) } := ⟨_, rfl⟩
  have moved : flavor.moveFromTemp { db with tempStore := temp } tid =
      some (movedDb, temp.map (·.zoid)) := by
    rw [movedDef]
    exact LoadStore.moveFromTemp_eq flavor later keyed
  have movedRows : movedDb.objectState = db.objectState ++ temp.map (TempStoreRow.revision tid) := by
    rw [movedDef]
  have movedTid : currentTid movedDb = currentTid db := by
    rw [movedDef]
    rfl
  have byZoid (oid : Nat) : lookup ObjectStateRow.zoid (temp.map (TempStoreRow.revision tid)) oid =
      (lastCall calls oid).map fun c => ⟨oid, tid, c.1, computeMd5sum md5 (some c.2), some c.2⟩ := by
    have keep (r : TempStoreRow) : (r.revision tid).zoid = r.zoid := rfl
    rw [lookup_map_of_key keep, tempLookup]
    cases lastCall calls oid <;> rfl
  have byKey (oid : Nat) :
      lookup ObjectStateRow.key (temp.map (TempStoreRow.revision tid)) (oid, tid) =
        (lastCall calls oid).map fun c => ⟨oid, tid, c.1, computeMd5sum md5 (some c.2), some c.2⟩ := by
    have keep (r : TempStoreRow) : (r.revision tid).key = (fun z => (z, tid)) r.zoid := rfl
    rw [lookup_map keep fun _ _ same => (Prod.mk.inj same).1, tempLookup]
    cases lastCall calls oid <;> rfl
  have atTid (r : ObjectStateRow) (member : r ∈ temp.map (TempStoreRow.revision tid)) :
      r.tid = tid := by
    obtain ⟨t, -, rfl⟩ := List.mem_map.mp member
    rfl
  have marks' (r : ObjectStateRow) (member : r ∈ temp.map (TempStoreRow.revision tid)) :
      r.prevTid = 0 ↔ currentTid movedDb r.zoid = none := by
    rw [movedTid]
    obtain ⟨t, inTemp, rfl⟩ := List.mem_map.mp member
    have found := lookup_of_mem keyed inTemp
    rw [tempLookup] at found
    cases last : lastCall calls t.zoid with
    | none => simp [last] at found
    | some c =>
      simp only [last, Option.map_some', Option.some.injEq] at found
      rw [← found]
      exact marks t.zoid c last
  obtain ⟨db', updated, sameRows, pointers⟩ :=
    LoadStore.updateCurrent_eq flavor movedRows later atTid (by rw [List.map_map]; exact keyed) marks'
  refine ⟨_, _, _, db', staged, moved, updated, keyed, fun oid => ?_, ⟨fun oid t => ?_, fun oid => ?_⟩⟩
  · rw [mem_map_key, tempLookup]
    cases lastCall calls oid <;> simp
  · rw [objectStateAt_append (sameRows.trans movedRows) later atTid, byKey]
  · rw [pointers, byZoid, movedTid]

/-- The `restore` path: each object restored once, with its `prev_tid` read from
`current_object`, then `update_current`. -/
theorem restores_commit (flavor : LoadStore) (later : ∀ r ∈ db.objectState, r.tid < tid)
    {writes : List (Nat × Option (List UInt8))} (distinct : (writes.map Prod.fst).Nodup)
    (nonzero : ∀ w ∈ writes, currentTid db w.1 ≠ some 0) :
    ∃ restored db', flavor.restores md5 tid db writes = some restored ∧
      flavor.updateCurrent restored tid = some db' ∧
      Commits db db' tid (fun oid => (lookup Prod.fst writes oid).map (restoredRow md5 db tid)) := by
  obtain ⟨restoredDb, restoredDef⟩ : ∃ restored : Database, restored = { db with
      objectState := db.objectState ++ writes.map (restoredRow md5 db tid) } := ⟨_, rfl⟩
  have restored : flavor.restores md5 tid db writes = some restoredDb := by
    rw [restoredDef]
    exact LoadStore.restores_eq flavor distinct fun r member atTid =>
      absurd atTid (Nat.ne_of_lt (later r member))
  have restoredRows : restoredDb.objectState = db.objectState ++ writes.map (restoredRow md5 db tid) := by
    rw [restoredDef]
  have restoredTid : currentTid restoredDb = currentTid db := by
    rw [restoredDef]
    rfl
  have atTid (r : ObjectStateRow) (member : r ∈ writes.map (restoredRow md5 db tid)) :
      r.tid = tid := by
    obtain ⟨w, -, rfl⟩ := List.mem_map.mp member
    rfl
  have marks (r : ObjectStateRow) (member : r ∈ writes.map (restoredRow md5 db tid)) :
      r.prevTid = 0 ↔ currentTid restoredDb r.zoid = none := by
    rw [restoredTid]
    obtain ⟨w, inWrites, rfl⟩ := List.mem_map.mp member
    show (currentTid db w.1).getD 0 = 0 ↔ currentTid db w.1 = none
    cases current : currentTid db w.1 with
    | none => simp
    | some t =>
      simp only [Option.getD_some, reduceCtorEq, iff_false]
      exact fun zero => nonzero w inWrites (current.trans (congrArg some zero))
  obtain ⟨db', updated, sameRows, pointers⟩ := LoadStore.updateCurrent_eq flavor restoredRows later
    atTid (by rw [List.map_map]; exact distinct) marks
  have keepZoid (w : Nat × Option (List UInt8)) : (restoredRow md5 db tid w).zoid = w.1 := rfl
  have keepKey (w : Nat × Option (List UInt8)) :
      (restoredRow md5 db tid w).key = (fun z => (z, tid)) w.1 := rfl
  refine ⟨restoredDb, db', restored, updated, fun oid t => ?_, fun oid => ?_⟩
  · rw [objectStateAt_append (sameRows.trans restoredRows) later atTid,
      lookup_map keepKey fun _ _ same => (Prod.mk.inj same).1]
  · rw [pointers, lookup_map_of_key keepZoid, restoredTid]

end Commit

/-- Committing at a tid above every revision has one effect in every flavor, `Commits` of the
last call per object or of the restored revisions, whether the transaction is written by
`store_temp` calls followed by `move_from_temp` and `update_current`, or by `restore` calls
followed by `update_current`, provided `prev_tid` is 0 exactly for the objects
`current_object` does not know. For
`store_temp` that is asked of the last call per object; `restore` reads `prev_tid` from
`current_object` itself, so there it is asked that no current tid be 0, and each object is
restored once. -/
theorem commit_agrees_across_flavors (md5 : List UInt8 → String) (flavor : LoadStore)
    (db : Database) (tid : Nat) (later : ∀ r ∈ db.objectState, r.tid < tid) :
    (∀ calls, db.tempStore = [] →
      (∀ oid c, lastCall calls oid = some c → (c.1 = 0 ↔ currentTid db oid = none)) →
      ∃ staged moved oids db', flavor.storeTemps md5 db calls = some staged ∧
        flavor.moveFromTemp staged tid = some (moved, oids) ∧
        flavor.updateCurrent moved tid = some db' ∧
        oids.Nodup ∧ (∀ oid, oid ∈ oids ↔ lastCall calls oid ≠ none) ∧
        Commits db db' tid (fun oid => (lastCall calls oid).map fun c =>
          ⟨oid, tid, c.1, computeMd5sum md5 (some c.2), some c.2⟩) ∧
        (CurrentInvariant db → CurrentInvariant db')) ∧
    ∀ writes : List (Nat × Option (List UInt8)), (writes.map Prod.fst).Nodup →
      (∀ w ∈ writes, currentTid db w.1 ≠ some 0) →
      ∃ restored db', flavor.restores md5 tid db writes = some restored ∧
        flavor.updateCurrent restored tid = some db' ∧
        Commits db db' tid (fun oid => (lookup Prod.fst writes oid).map (restoredRow md5 db tid)) ∧
        (CurrentInvariant db → CurrentInvariant db') := by
  refine ⟨fun calls empty marks => ?_, fun writes distinct nonzero => ?_⟩
  · obtain ⟨staged, moved, oids, db', stored, move, update, keyed, members, commits⟩ :=
      storeTemps_commit flavor later empty marks
    exact ⟨staged, moved, oids, db', stored, move, update, keyed, members, commits,
      commits.currentInvariant later⟩
  · obtain ⟨restored, db', restoredEq, update, commits⟩ := restores_commit flavor later distinct nonzero
    exact ⟨restored, db', restoredEq, update, commits, commits.currentInvariant later⟩

/-- Before any object exists, calls that all create objects with `prev_tid = 0` mark them. -/
theorem marks_of_new_objects {calls : List (Nat × Nat × List UInt8)} {rows : List ObjectStateRow}
    {temp : List TempStoreRow} (creating : ∀ call ∈ calls, call.2.1 = 0) (oid : Nat)
    (c : Nat × List UInt8) (last : lastCall calls oid = some c) :
    c.1 = 0 ↔ currentTid ⟨rows, [], temp⟩ oid = none := by
  simp only [lastCall, Option.map_eq_some'] at last
  obtain ⟨call, found, rfl⟩ := last
  exact iff_of_true (creating call (List.mem_reverse.mp (mem_of_lookup found))) rfl

theorem commit_agrees_across_flavors_on_new_object :
    ∃ staged moved oids db',
      LoadStore.postgreSQL.storeTemps (fun _ => "") ⟨[], [], []⟩ [(5, 0, [1])] = some staged ∧
      LoadStore.postgreSQL.moveFromTemp staged 1 = some (moved, oids) ∧
      LoadStore.postgreSQL.updateCurrent moved 1 = some db' ∧ currentTid db' 5 = some 1 := by
  obtain ⟨staged, moved, oids, db', stored, move, update, -, -, commits, -⟩ :=
    (commit_agrees_across_flavors (fun _ => "") .postgreSQL ⟨[], [], []⟩ 1 (by simp)).1
      [(5, 0, [1])] rfl (marks_of_new_objects (by simp))
  exact ⟨staged, moved, oids, db', stored, move, update, (commits.currentObject 5).trans rfl⟩

/-- An object that `current_object` does not know, stored with a nonzero `prev_tid`: no
conflict is detected, yet PostgreSQL's and Oracle's `update_current` insert only revisions
with `prev_tid = 0` and update only objects already there, so they leave the object out of
`current_object`, while MySQL's `REPLACE` points it at the new revision. -/
theorem updateCurrent_skips_new_object_with_prev_tid :
    ∃ staged moved,
      LoadStore.postgreSQL.storeTemps (fun _ => "") ⟨[], [], []⟩ [(5, 7, [1])] = some staged ∧
      LoadStore.mySQL.storeTemps (fun _ => "") ⟨[], [], []⟩ [(5, 7, [1])] = some staged ∧
      HistoryPreservingPostgreSQLLoadStore.detectConflict staged = none ∧
      LoadStore.postgreSQL.moveFromTemp staged 1 = some (moved, [5]) ∧
      objectStateAt moved 5 1 = some ⟨5, 1, 7, some "", some [1]⟩ ∧
      (LoadStore.postgreSQL.updateCurrent moved 1).map (currentTid · 5) = some none ∧
      (LoadStore.oracle.updateCurrent moved 1).map (currentTid · 5) = some none ∧
      (LoadStore.mySQL.updateCurrent moved 1).map (currentTid · 5) = some (some 1) :=
  ⟨_, _, rfl, rfl, rfl, rfl, rfl, rfl, rfl, rfl⟩

end RelStorage
