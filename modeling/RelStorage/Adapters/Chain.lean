import RelStorage.Adapters.History

namespace RelStorage

variable {md5 : List UInt8 → String} {db db' : Database} {tid : Nat}

theorem objectStateAt_eq_none_iff {oid t : Nat} :
    objectStateAt db oid t = none ↔ ∀ r ∈ db.objectState, r.zoid = oid → r.tid ≠ t := by
  simp only [objectStateAt, lookup_eq_none, ObjectStateRow.key, ne_eq, Prod.mk.injEq, not_and]

theorem objectStateAt_ne_none_iff {oid t : Nat} :
    objectStateAt db oid t ≠ none ↔ ∃ r ∈ db.objectState, r.zoid = oid ∧ r.tid = t := by
  simp only [ne_eq, objectStateAt_eq_none_iff, not_forall, not_not, exists_prop]

/-- What `prev_tid` holds for the revision of `oid` at `t` when the chain is intact: the tid of
the object's greatest revision below `t`, or 0 when it has none. -/
def PrevTidOf (db : Database) (oid t p : Nat) : Prop :=
  p = 0 ∧ (∀ t' < t, objectStateAt db oid t' = none) ∨
    0 < p ∧ p < t ∧ objectStateAt db oid p ≠ none ∧
      ∀ t', p < t' → t' < t → objectStateAt db oid t' = none

namespace PrevTidOf

variable {oid t p : Nat}

/-- The link only reads the revisions below `t`. -/
theorem of_below (same : ∀ t' < t, objectStateAt db' oid t' = objectStateAt db oid t')
    (linked : PrevTidOf db oid t p) : PrevTidOf db' oid t p := by
  rcases linked with ⟨zero, first⟩ | ⟨positive, below, present, gap⟩
  · exact Or.inl ⟨zero, fun t' earlier => (same t' earlier).trans (first t' earlier)⟩
  · refine Or.inr ⟨positive, below, by rwa [same p below], fun t' after earlier => ?_⟩
    exact (same t' earlier).trans (gap t' after earlier)

/-- `load_before(oid, t)` reads the linked tid back, None for 0. -/
theorem loadBefore (linked : PrevTidOf db oid t p) :
    (loadBeforeSql db oid t).2 = if p = 0 then none else some p := by
  rw [loadBeforeSql_tid]
  rcases linked with ⟨rfl, first⟩ | ⟨positive, below, present, gap⟩
  · simp only [if_pos, List.max?_eq_none_iff, List.map_eq_nil_iff, List.filter_eq_nil_iff,
      decide_eq_true_eq, not_and]
    exact fun r member same earlier => objectStateAt_eq_none_iff.mp (first r.tid earlier) r member same rfl
  · obtain ⟨r, member, same, rfl⟩ := objectStateAt_ne_none_iff.mp present
    simp only [Nat.ne_of_gt positive, if_false, List.max?_eq_some_iff', List.mem_map, List.mem_filter,
      decide_eq_true_eq]
    refine ⟨⟨r, ⟨member, same, below⟩, rfl⟩, fun _ ⟨r', ⟨member', same', earlier⟩, tid'⟩ => ?_⟩
    subst tid'
    by_contra after
    exact objectStateAt_eq_none_iff.mp (gap r'.tid (by omega) earlier) r' member' same' rfl

/-- Every flavor's `get_object_tid_after(oid, p)` finds `t` from a nonzero link back. -/
theorem getObjectTidAfter (flavor : LoadStore) (linked : PrevTidOf db oid t p)
    (present : objectStateAt db oid t ≠ none) (nonzero : p ≠ 0) :
    flavor.getObjectTidAfter db oid p = some t := by
  rcases linked with ⟨zero, -⟩ | ⟨-, below, -, gap⟩
  · exact absurd zero nonzero
  obtain ⟨r, member, same, rfl⟩ := objectStateAt_ne_none_iff.mp present
  simp only [LoadStore.getObjectTidAfter_eq, revisionsAfter, List.min?_eq_some_iff', List.mem_map,
    List.mem_filter, decide_eq_true_eq]
  refine ⟨⟨r, ⟨member, same, below⟩, rfl⟩, fun _ ⟨r', ⟨member', same', after⟩, tid'⟩ => ?_⟩
  subst tid'
  by_contra earlier
  exact objectStateAt_eq_none_iff.mp (gap r'.tid after (by omega)) r' member' same' rfl

end PrevTidOf

/-- What every history keeps beyond `Consistent`: every current tid names a revision, and every
revision's `prev_tid` names the object's revision just before it. -/
structure Chained (db : Database) extends Consistent db : Prop where
  pointed : ∀ oid t, currentTid db oid = some t → objectStateAt db oid t ≠ none
  linked : ∀ oid t r, objectStateAt db oid t = some r → PrevTidOf db oid t r.prevTid

theorem Commits.objectStateAt_below {written : Nat → Option ObjectStateRow}
    (commits : Commits db db' tid written) {oid t : Nat} (below : t < tid) :
    objectStateAt db' oid t = objectStateAt db oid t := by
  rw [commits.objectState, if_neg (Nat.ne_of_lt below)]

namespace Chained

theorem empty : Chained ⟨[], [], []⟩ :=
  ⟨Consistent.empty, fun _ _ current => by simp [currentTid] at current,
    fun _ _ _ found => by simp [objectStateAt, lookup] at found⟩

/-- Below a tid above every revision, an object's latest revision is the one `current_object`
names, so the current tid, or 0 for an unknown object, is the `prev_tid` a new revision needs. -/
theorem prevTidOf_current (chained : Chained db) (later : ∀ r ∈ db.objectState, r.tid < tid)
    (oid : Nat) : PrevTidOf db oid tid ((currentTid db oid).getD 0) := by
  cases current : currentTid db oid with
  | none =>
    refine Or.inl ⟨rfl, fun t' _ => ?_⟩
    by_contra present
    obtain ⟨t'', pointer, -, -⟩ := chained.current oid t' present
    simp [current] at pointer
  | some c =>
    show PrevTidOf db oid tid c
    have present := chained.pointed oid c current
    refine Or.inr ⟨chained.positive oid c current, tid_lt_of_objectStateAt later present, present,
      fun t' after _ => ?_⟩
    by_contra revision
    obtain ⟨t'', pointer, above, -⟩ := chained.current oid t' revision
    rw [current, Option.some.injEq] at pointer
    omega

/-- A commit at a positive tid above every revision keeps the chain when each revision it
writes carries the object's current tid, or 0 for a new object, as `prev_tid`. -/
theorem of_commits {written : Nat → Option ObjectStateRow} (chained : Chained db)
    (keyed' : Keyed db') (commits : Commits db db' tid written)
    (later : ∀ r ∈ db.objectState, r.tid < tid) (positive : 0 < tid)
    (links : ∀ oid r, written oid = some r → r.prevTid = (currentTid db oid).getD 0) :
    Chained db' := by
  refine ⟨chained.toConsistent.of_commits keyed' commits later positive,
    fun oid t pointer => ?_, fun oid t r found => ?_⟩
  · rw [commits.currentObject] at pointer
    split at pointer
    case isTrue unwritten =>
      rw [commits.objectStateAt_of_unwritten later unwritten]
      exact chained.pointed oid t pointer
    case isFalse isWritten =>
      cases pointer
      rwa [commits.objectState, if_pos rfl]
  · rw [commits.objectState] at found
    split at found
    case isTrue atTid =>
      subst atTid
      rw [links oid r found]
      exact (chained.prevTidOf_current later oid).of_below fun t' below =>
        commits.objectStateAt_below below
    case isFalse =>
      have before := tid_lt_of_objectStateAt later (show objectStateAt db oid t ≠ none by simp [found])
      exact (chained.linked oid t r found).of_below fun t' below =>
        commits.objectStateAt_below (by omega)

end Chained

/-- Every history keeps the chain. -/
theorem History.chained (history : History md5 db) : Chained db := by
  induction history with
  | empty => exact Chained.empty
  | store _ positive later created stored clear moved updated ih =>
    obtain ⟨_, keyed', commits, links⟩ :=
      ih.toConsistent.store_commits later created stored clear moved updated
    exact ih.of_commits keyed' commits later positive links
  | restore _ positive later distinct restored updated ih =>
    obtain ⟨_, keyed', commits, links⟩ :=
      ih.toConsistent.restore_commits later distinct restored updated
    exact ih.of_commits keyed' commits later positive links

/-- Over every history, each revision's `prev_tid` links it to the object's previous revision:
PostgreSQL's and MySQL's `load_before(oid, tid)` return `prev_tid` as their tid, None when it is
0, the object's first revision, and every flavor's `get_object_tid_after(oid, prev_tid)` returns
`tid`. -/
theorem history_prev_tid_chain (history : History md5 db) (flavor : LoadStore) :
    ∀ r ∈ db.objectState,
      (loadBeforeSql db r.zoid r.tid).2 = (if r.prevTid = 0 then none else some r.prevTid) ∧
        (r.prevTid ≠ 0 → flavor.getObjectTidAfter db r.zoid r.prevTid = some r.tid) := by
  have chained := history.chained
  intro r member
  have found : objectStateAt db r.zoid r.tid = some r :=
    lookup_of_mem chained.keyed.objectState member
  have linked := chained.linked _ _ r found
  exact ⟨linked.loadBefore, linked.getObjectTidAfter flavor (by simp [found])⟩

theorem history_prev_tid_chain_store_then_restore :
    ∃ db, History (fun _ => "") db ∧ objectStateAt db 5 2 = some ⟨5, 2, 1, some "", some [2]⟩ ∧
      ∀ r ∈ db.objectState,
        (loadBeforeSql db r.zoid r.tid).2 = (if r.prevTid = 0 then none else some r.prevTid) ∧
          (r.prevTid ≠ 0 → LoadStore.oracle.getObjectTidAfter db r.zoid r.prevTid = some r.tid) :=
  ⟨_, History.store_then_restore, rfl, history_prev_tid_chain History.store_then_restore .oracle⟩

theorem existsSql_iff (db : Database) (oid : Nat) :
    existsSql db oid = true ↔ currentTid db oid ≠ none := by
  simp only [existsSql, List.any_eq_true, decide_eq_true_eq, currentTid, ne_eq, Option.map_eq_none',
    lookup_eq_none, not_forall, not_not, exists_prop]

/-- On a chained database the current tid of an object is the greatest tid of its revisions. -/
theorem Chained.currentTid_eq (chained : Chained db) (oid : Nat) :
    currentTid db oid = ((db.objectState.filter fun r => r.zoid = oid).map (·.tid)).max? := by
  cases current : currentTid db oid with
  | none =>
    refine (List.max?_eq_none_iff.mpr ?_).symm
    simp only [List.map_eq_nil_iff, List.filter_eq_nil_iff, decide_eq_true_eq]
    intro r member same
    obtain ⟨t, pointer, -, -⟩ :=
      chained.current oid r.tid (objectStateAt_ne_none_iff.mpr ⟨r, member, same, rfl⟩)
    simp [current] at pointer
  | some t =>
    obtain ⟨r, member, same, rfl⟩ := objectStateAt_ne_none_iff.mp (chained.pointed oid t current)
    refine (List.max?_eq_some_iff'.mpr ⟨List.mem_map_of_mem _ (List.mem_filter.mpr
      ⟨member, by simpa using same⟩), fun t' listed => ?_⟩).symm
    obtain ⟨r', inFilter, rfl⟩ := List.mem_map.mp listed
    obtain ⟨member', same'⟩ := List.mem_filter.mp inFilter
    obtain ⟨t'', pointer, above, -⟩ := chained.current oid r'.tid
      (objectStateAt_ne_none_iff.mpr ⟨r', member', by simpa using same', rfl⟩)
    rw [current, Option.some.injEq] at pointer
    omega

/-- Over every history, in every flavor, `get_current_tid(oid)` is the greatest tid of the
object's revisions, None exactly when it has none; `exists(oid)` is true exactly when
`object_state` holds a revision of `oid`, one that undoes its creation included; and
PostgreSQL's and MySQL's `load_current` return the current tid as their tid. -/
theorem history_current_tid_latest (history : History md5 db) (flavor : LoadStore) (oid : Nat) :
    flavor.getCurrentTid db oid = ((db.objectState.filter fun r => r.zoid = oid).map (·.tid)).max? ∧
      (flavor.exists db oid = true ↔ ∃ r ∈ db.objectState, r.zoid = oid) ∧
      (loadCurrentSql db oid).map Prod.snd = some (flavor.getCurrentTid db oid) := by
  have chained := history.chained
  have current : flavor.getCurrentTid db oid = currentTid db oid := by cases flavor <;> rfl
  have sql : flavor.exists db oid = existsSql db oid := by cases flavor <;> rfl
  rw [current, sql, existsSql_iff, loadCurrentSql_eq chained.keyed]
  refine ⟨chained.currentTid_eq oid, ?_, ?_⟩
  · simp only [chained.currentTid_eq, ne_eq, List.max?_eq_none_iff, List.map_eq_nil_iff,
      List.filter_eq_nil_iff, decide_eq_true_eq, not_forall, not_not, exists_prop]
  cases pointer : currentTid db oid with
  | none => rfl
  | some t =>
    obtain ⟨r, found⟩ := Option.ne_none_iff_exists'.mp (chained.pointed oid t pointer)
    simp [found, (mem_of_objectStateAt found).2.2]

theorem history_current_tid_latest_store_then_restore :
    ∃ db, History (fun _ => "") db ∧ LoadStore.oracle.getCurrentTid db 5 = some 2 ∧
      (LoadStore.oracle.getCurrentTid db 5 =
          ((db.objectState.filter fun r => r.zoid = 5).map (·.tid)).max? ∧
        (LoadStore.oracle.exists db 5 = true ↔ ∃ r ∈ db.objectState, r.zoid = 5) ∧
        (loadCurrentSql db 5).map Prod.snd = some (LoadStore.oracle.getCurrentTid db 5)) :=
  ⟨_, History.store_then_restore, rfl,
    history_current_tid_latest History.store_then_restore .oracle 5⟩

end RelStorage
