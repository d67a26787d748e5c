import RelStorage.Adapters.LoadStore

namespace RelStorage

section Order

variable {before : Nat → Nat → Bool} {pick : Nat → Nat → Nat}

theorem orderStep_cases (kept : Option ObjectStateRow) (r : ObjectStateRow) :
    orderStep before kept r = kept ∨ orderStep before kept r = some r := by
  cases kept with
  | none => exact Or.inr rfl
  | some k =>
    simp only [orderStep]
    split <;> simp

theorem foldl_orderStep_mem {rows : List ObjectStateRow} {kept : Option ObjectStateRow}
    {r : ObjectStateRow} (found : rows.foldl (orderStep before) kept = some r) :
    kept = some r ∨ r ∈ rows := by
  induction rows generalizing kept with
  | nil => exact Or.inl found
  | cons r' rows ih =>
    rcases ih found with first | later
    · rcases orderStep_cases kept r' with same | new
      · exact Or.inl (same ▸ first)
      · exact Or.inr (Option.some.inj (new.symm.trans first) ▸ List.mem_cons_self _ _)
    · exact Or.inr (List.mem_cons_of_mem _ later)

theorem firstBy_mem {rows : List ObjectStateRow} {r : ObjectStateRow}
    (found : firstBy before rows = some r) : r ∈ rows :=
  (foldl_orderStep_mem found).resolve_left (by simp)

/-- Scanning on from a kept row, the tid kept is the one `pick` folds to. -/
theorem foldl_orderStep_tid (picks : ∀ kept t, pick kept t = if before t kept then t else kept)
    (rows : List ObjectStateRow) (kept : ObjectStateRow) :
    (rows.foldl (orderStep before) (some kept)).map (·.tid) =
      some ((rows.map (·.tid)).foldl pick kept.tid) := by
  induction rows generalizing kept with
  | nil => rfl
  | cons r rows ih =>
    have step : orderStep before (some kept) r = some (if before r.tid kept.tid then r else kept) := by
      by_cases first : before r.tid kept.tid <;> simp [orderStep, first]
    rw [List.foldl_cons, step, ih, List.map_cons, List.foldl_cons, picks,
      apply_ite ObjectStateRow.tid]

theorem firstBy_tid (picks : ∀ kept t, pick kept t = if before t kept then t else kept)
    (rows : List ObjectStateRow) :
    (firstBy before rows).map (·.tid) = match rows.map (·.tid) with
      | [] => none
      | t :: ts => some (ts.foldl pick t) := by
  cases rows with
  | nil => rfl
  | cons r rows => exact foldl_orderStep_tid picks rows r

end Order

/-- `ORDER BY tid LIMIT 1` selects the least tid, as `MIN(tid)` does. -/
theorem earliest_tid (rows : List ObjectStateRow) :
    (earliest rows).map (·.tid) = (rows.map (·.tid)).min? := by
  have picks (kept t : Nat) : min kept t = if decide (t < kept) then t else kept := by
    simp only [Nat.min_def, decide_eq_true_eq]
    split <;> split <;> omega
  rw [earliest, firstBy_tid picks]
  cases rows.map (·.tid) <;> rfl

/-- `ORDER BY tid DESC LIMIT 1` selects the greatest tid, as `MAX(tid)` does. -/
theorem latest_tid (rows : List ObjectStateRow) :
    (latest rows).map (·.tid) = (rows.map (·.tid)).max? := by
  have picks (kept t : Nat) : max kept t = if decide (kept < t) then t else kept := by
    simp only [Nat.max_def, decide_eq_true_eq]
    split <;> split <;> omega
  rw [latest, firstBy_tid picks]
  cases rows.map (·.tid) <;> rfl

theorem latest_eq_none {rows : List ObjectStateRow} : latest rows = none ↔ rows = [] := by
  rw [← Option.map_eq_none', latest_tid, List.max?_eq_none_iff, List.map_eq_nil_iff]

theorem latest_eq_some {rows : List ObjectStateRow} {r : ObjectStateRow}
    (found : latest rows = some r) : r ∈ rows ∧ ∀ r' ∈ rows, r'.tid ≤ r.tid := by
  have greatest := congrArg (Option.map (·.tid)) found
  rw [latest_tid, Option.map_some', List.max?_eq_some_iff'] at greatest
  exact ⟨firstBy_mem found, fun r' member => greatest.2 _ (List.mem_map_of_mem _ member)⟩

/-- Every flavor's `get_object_tid_after` selects the least tid of the later revisions. -/
theorem LoadStore.getObjectTidAfter_eq (flavor : LoadStore) (db : Database) (oid tid : Nat) :
    flavor.getObjectTidAfter db oid tid = ((revisionsAfter db oid tid).map (·.tid)).min? := by
  cases flavor
  case oracle => rfl
  all_goals exact earliest_tid _

/-- `load_before` reads the greatest tid of the earlier revisions. -/
theorem loadBeforeSql_tid (db : Database) (oid tid : Nat) :
    (loadBeforeSql db oid tid).2 =
      ((db.objectState.filter fun r => r.zoid = oid ∧ r.tid < tid).map (·.tid)).max? := by
  rw [← latest_tid, loadBeforeSql]
  split <;> simp_all

/-- Every flavor's `get_object_tid_after` returns the first tid after `tid` at which `oid`
changed, and None when it never changed after: PostgreSQL's and MySQL's
`ORDER BY tid LIMIT 1` agree with Oracle's `MIN(tid)`. -/
theorem getObjectTidAfter_next_change (flavor : LoadStore) (db : Database) (oid tid : Nat) :
    (flavor.getObjectTidAfter db oid tid = none ↔
      ∀ r ∈ db.objectState, r.zoid = oid → r.tid ≤ tid) ∧
    ∀ t, flavor.getObjectTidAfter db oid tid = some t ↔
      (∃ r ∈ db.objectState, r.zoid = oid ∧ r.tid = t) ∧ tid < t ∧
        ∀ r ∈ db.objectState, r.zoid = oid → tid < r.tid → t ≤ r.tid := by
  rw [LoadStore.getObjectTidAfter_eq]
  refine ⟨?_, fun t => ?_⟩
  · simp only [List.min?_eq_none_iff, List.map_eq_nil_iff, revisionsAfter, List.filter_eq_nil_iff,
      decide_eq_true_eq, not_and, not_lt]
  · simp only [List.min?_eq_some_iff', revisionsAfter, List.mem_map, List.mem_filter,
      decide_eq_true_eq]
    constructor
    · rintro ⟨⟨r, ⟨member, same, after⟩, rfl⟩, least⟩
      exact ⟨⟨r, member, same, rfl⟩, after, fun r' member' same' after' =>
        least _ ⟨r', ⟨member', same', after'⟩, rfl⟩⟩
    · rintro ⟨⟨r, member, same, rfl⟩, after, least⟩
      exact ⟨⟨r, ⟨member, same, after⟩, rfl⟩, fun _ ⟨r', ⟨member', same', after'⟩, tid'⟩ =>
        tid' ▸ least r' member' same' after'⟩

/-- PostgreSQL's and MySQL's `load_before` return the greatest tid of `oid` below `tid`, so a
tid whenever such a revision exists, with that revision's state, and `(None, None)` when there
is none. -/
theorem loadBefore_latest_earlier (db : Database) (oid tid : Nat) :
    (loadBeforeSql db oid tid).2 =
      ((db.objectState.filter fun r => r.zoid = oid ∧ r.tid < tid).map (·.tid)).max? ∧
    (loadBeforeSql db oid tid = (none, none) ↔
      ∀ r ∈ db.objectState, r.zoid = oid → tid ≤ r.tid) ∧
    ∀ state t, loadBeforeSql db oid tid = (state, some t) →
      ∃ r ∈ db.objectState, r.zoid = oid ∧ r.tid = t ∧ r.state = state ∧ t < tid ∧
        ∀ r' ∈ db.objectState, r'.zoid = oid → r'.tid < tid → r'.tid ≤ t := by
  refine ⟨loadBeforeSql_tid db oid tid, ?_⟩
  unfold loadBeforeSql
  split
  case h_1 r found =>
    obtain ⟨member, greatest⟩ := latest_eq_some found
    obtain ⟨inTable, below⟩ := List.mem_filter.mp member
    simp only [decide_eq_true_eq] at below
    refine ⟨?_, fun state t read => ?_⟩
    · simp only [Prod.mk.injEq, reduceCtorEq, and_false, false_iff, not_forall, not_le]
      exact ⟨r, inTable, below.1, below.2⟩
    · simp only [Prod.mk.injEq, Option.some.injEq] at read
      exact ⟨r, inTable, below.1, read.2, read.1, read.2 ▸ below.2, fun r' member' same' below' =>
        read.2 ▸ greatest r' (List.mem_filter.mpr ⟨member', by simpa using ⟨same', below'⟩⟩)⟩
  case h_2 absent =>
    refine ⟨?_, fun state t read => by simp at read⟩
    simp only [latest_eq_none, List.filter_eq_nil_iff, decide_eq_true_eq, not_and, not_lt] at absent
    simpa using absent

theorem detectConflictSql_eq_none_iff {db : Database} :
    detectConflictSql db = none ↔ ∀ t ∈ db.tempStore, ∀ c ∈ db.currentObject,
      t.zoid = c.zoid → t.prevTid = c.tid := by
  simp only [detectConflictSql, List.head?_eq_none_iff, List.flatMap_eq_nil_iff, List.map_eq_nil_iff,
    List.filter_eq_nil_iff, decide_eq_true_eq, not_and, not_not]

/-- What `detect_conflict` reports is a stored object whose `prev_tid` differs from the tid of
a `current_object` row of the same object. -/
theorem detectConflictSql_eq_some {db : Database} {conflict : Nat × Nat × Nat × Option (List UInt8)}
    (found : detectConflictSql db = some conflict) :
    ∃ t ∈ db.tempStore, ∃ c ∈ db.currentObject, t.zoid = c.zoid ∧ t.prevTid ≠ c.tid ∧
      conflict = (t.zoid, c.tid, t.prevTid, t.state) := by
  obtain ⟨rest, listed⟩ := List.head?_eq_some_iff.mp found
  have member := listed ▸ List.mem_cons_self conflict rest
  simp only [List.mem_flatMap, List.mem_map, List.mem_filter, decide_eq_true_eq] at member
  obtain ⟨t, inTemp, c, ⟨inCurrent, same, stale⟩, rfl⟩ := member
  exact ⟨t, inTemp, c, inCurrent, same, stale, rfl⟩

theorem singleRow_toList {β : Type} (row : Option β) : singleRow row.toList = some row := by
  cases row <;> rfl

section Keyed

variable {db : Database} {oid tid : Nat}

theorem mem_of_objectStateAt {r : ObjectStateRow} (found : objectStateAt db oid tid = some r) :
    r ∈ db.objectState ∧ r.zoid = oid ∧ r.tid = tid := by
  have key := lookup_key found
  simp only [ObjectStateRow.key, Prod.mk.injEq] at key
  exact ⟨mem_of_lookup found, key⟩

/-- In a keyed `object_state`, `WHERE zoid = oid AND tid = tid` selects `objectStateAt`. -/
theorem filter_revision_eq (keyed : (db.objectState.map ObjectStateRow.key).Nodup) :
    db.objectState.filter (fun r => r.zoid = oid ∧ r.tid = tid) = (objectStateAt db oid tid).toList := by
  rw [objectStateAt, ← filter_eq_lookup keyed]
  congr 1
  funext r
  simp [ObjectStateRow.key]

/-- On keyed tables, the join of `load_current` selects the revision the current tid names. -/
theorem currentRevisions_eq (keyed : Keyed db) (oid : Nat) :
    currentRevisions db oid = ((currentTid db oid).bind (objectStateAt db oid)).toList := by
  unfold currentRevisions
  rw [filter_eq_lookup keyed.currentObject]
  cases found : lookup CurrentObjectRow.zoid db.currentObject oid with
  | none => simp [currentTid, found]
  | some c =>
    simp only [currentTid, found, Option.toList_some, List.flatMap_cons, List.flatMap_nil,
      List.append_nil, Option.map_some', Option.some_bind]
    rw [← lookup_key found]
    exact filter_revision_eq keyed.objectState

/-- On keyed tables `load_current`'s assertion never fails. -/
theorem loadCurrentSql_eq (keyed : Keyed db) (oid : Nat) :
    loadCurrentSql db oid = some (match (currentTid db oid).bind (objectStateAt db oid) with
      | some r => (r.state, some r.tid)
      | none => (none, none)) := by
  rw [loadCurrentSql, currentRevisions_eq keyed, singleRow_toList]
  rfl

theorem loadRevisionSql_eq (keyed : (db.objectState.map ObjectStateRow.key).Nodup) (oid tid : Nat) :
    loadRevisionSql db oid tid = some ((objectStateAt db oid tid).bind (·.state)) := by
  rw [loadRevisionSql, filter_revision_eq keyed, singleRow_toList]
  rfl

theorem Keyed.loadCurrentSql_eq_loadBeforeSql (keyed : Keyed db) (invariant : CurrentInvariant db)
    (above : ∀ r ∈ db.objectState, r.tid < tid) (oid : Nat) :
    loadCurrentSql db oid = some (loadBeforeSql db oid tid) := by
  rw [loadCurrentSql_eq keyed, loadBeforeSql]
  congr 1
  cases found : latest (db.objectState.filter fun r => r.zoid = oid ∧ r.tid < tid) with
  | some r =>
    obtain ⟨member, greatest⟩ := latest_eq_some found
    obtain ⟨inTable, below⟩ := List.mem_filter.mp member
    simp only [decide_eq_true_eq] at below
    have atR : objectStateAt db oid r.tid = some r := by
      rw [← below.1]
      exact lookup_of_mem keyed.objectState inTable
    obtain ⟨t', current, above', revision⟩ := invariant oid r.tid (by simp [atR])
    obtain ⟨r', found'⟩ := Option.ne_none_iff_exists'.mp revision
    obtain ⟨inTable', same', rfl⟩ := mem_of_objectStateAt found'
    have below' := greatest r' (List.mem_filter.mpr ⟨inTable', by simpa [same'] using above r' inTable'⟩)
    rw [current, Option.some_bind, Nat.le_antisymm below' above', atR]
  | none =>
    simp only [latest_eq_none, List.filter_eq_nil_iff, decide_eq_true_eq, not_and] at found
    have absent (t : Nat) : objectStateAt db oid t = none := by
      cases atT : objectStateAt db oid t with
      | none => rfl
      | some r =>
        obtain ⟨inTable, same, -⟩ := mem_of_objectStateAt atT
        exact absurd (above r inTable) (found r inTable same)
    cases currentTid db oid <;> simp [absent]

/-- On keyed tables whose `current_object` points at the latest revisions, `load_current`
returns what `load_before` returns for a tid above every revision. -/
theorem loadCurrent_eq_loadBefore_past_last (keyed : Keyed db) (invariant : CurrentInvariant db)
    (above : ∀ r ∈ db.objectState, r.tid < tid) (oid : Nat) :
    loadCurrentSql db oid = some (loadBeforeSql db oid tid) :=
  keyed.loadCurrentSql_eq_loadBeforeSql invariant above oid

end Keyed

theorem loadCurrent_eq_loadBefore_past_last_two_revisions :
    ∃ db : Database, db = ⟨[⟨5, 1, 0, none, some [1]⟩, ⟨5, 2, 1, none, some [2]⟩], [⟨5, 2⟩], []⟩ ∧
      Keyed db ∧ CurrentInvariant db ∧ (∀ r ∈ db.objectState, r.tid < 3) ∧
      loadCurrentSql db 5 = some (loadBeforeSql db 5 3) ∧ loadBeforeSql db 5 3 = (some [2], some 2) := by
  obtain ⟨db, dbDef⟩ : ∃ db : Database,
      db = ⟨[⟨5, 1, 0, none, some [1]⟩, ⟨5, 2, 1, none, some [2]⟩], [⟨5, 2⟩], []⟩ := ⟨_, rfl⟩
  have keyed : Keyed db := dbDef ▸ ⟨by decide, by decide⟩
  have invariant : CurrentInvariant db := by
    intro oid t present
    obtain ⟨r, found⟩ := Option.ne_none_iff_exists'.mp present
    obtain ⟨member, rfl, rfl⟩ := mem_of_objectStateAt found
    subst dbDef
    simp only [List.mem_cons, List.mem_singleton, List.not_mem_nil, or_false] at member
    rcases member with rfl | rfl <;> exact ⟨2, rfl, by decide, by decide⟩
  have above : ∀ r ∈ db.objectState, r.tid < 3 := by subst dbDef; decide
  exact ⟨db, dbDef, keyed, invariant, above, loadCurrent_eq_loadBefore_past_last keyed invariant above 5,
    by subst dbDef; rfl⟩

end RelStorage
