import Mathlib

namespace RelStorage

/-- A row of `object_state`: one revision of an object. `md5` and `state` are NULL for a
revision that undoes the object's creation. Object ids and tids are `Nat` here, while the
columns are `BIGINT`: negative values, and the errors a driver raises for a value out of the
column's range, are not modelled. -/
structure ObjectStateRow where
  zoid : Nat
  tid : Nat
  prevTid : Nat
  md5 : Option String
  state : Option (List UInt8)
  deriving DecidableEq, Repr

/-- The primary key of `object_state`. -/
def ObjectStateRow.key (row : ObjectStateRow) : Nat × Nat := (row.zoid, row.tid)

/-- A row of `current_object`, keyed by `zoid`. -/
structure CurrentObjectRow where
  zoid : Nat
  tid : Nat
  deriving DecidableEq, Repr

/-- A row of `temp_store`, keyed by `zoid`. -/
structure TempStoreRow where
  zoid : Nat
  prevTid : Nat
  md5 : Option String
  state : Option (List UInt8)
  deriving DecidableEq, Repr

/-- The tables the history-preserving load/store code reads and writes. -/
structure Database where
  objectState : List ObjectStateRow
  currentObject : List CurrentObjectRow
  tempStore : List TempStoreRow
  deriving DecidableEq, Repr

/-- `compute_md5sum(data)`: the hex digest, or None for a missing state. The digest function
itself is left abstract. -/
def computeMd5sum (md5 : List UInt8 → String) (data : Option (List UInt8)) : Option String :=
  data.map md5

section Keyed

variable {α κ : Type} [DecidableEq κ] (key : α → κ)

/-- The row whose key is `k`, as `SELECT ... WHERE <key> = k` reads a keyed table. -/
def lookup (rows : List α) (k : κ) : Option α := rows.find? fun r => key r = k

/-- `INSERT` of one row: a row with the same key violates the primary key and aborts the
statement. -/
def insertRow (rows : List α) (row : α) : Option (List α) :=
  if rows.any fun r => key r = key row then none else some (rows ++ [row])

/-- `INSERT ... SELECT`: the selected rows go in one by one, and one violation aborts it. -/
def insertRows (rows new : List α) : Option (List α) := new.foldlM (insertRow key) rows

/-- MySQL's `REPLACE`: delete the rows with the new row's key, then insert it. -/
def replaceRow (rows : List α) (row : α) : List α :=
  rows.filter (fun r => key r ≠ key row) ++ [row]

/-- `REPLACE ... SELECT`. -/
def replaceRows (rows new : List α) : List α := new.foldl (replaceRow key) rows

variable {key} {rows new : List α} {row : α} {k : κ}

@[simp] theorem lookup_nil : lookup key ([] : List α) k = none := rfl

theorem lookup_append : lookup key (rows ++ new) k = (lookup key rows k).or (lookup key new k) :=
  List.find?_append

theorem lookup_singleton : lookup key [row] k = if key row = k then some row else none := by
  by_cases same : key row = k <;> simp [lookup, List.find?, same]

theorem lookup_eq_none : lookup key rows k = none ↔ ∀ r ∈ rows, key r ≠ k := by
  simp [lookup, List.find?_eq_none]

theorem lookup_key (found : lookup key rows k = some row) : key row = k := by
  simpa using List.find?_some found

theorem mem_of_lookup (found : lookup key rows k = some row) : row ∈ rows :=
  List.mem_of_find?_eq_some found

theorem lookup_filter_ne (apart : k ≠ k') :
    lookup key (rows.filter fun r => key r ≠ k') k = lookup key rows k := by
  simp only [lookup, List.find?_filter]
  congr 1
  funext r
  by_cases same : key r = k
  · simp [same, apart]
  · simp [same]

theorem lookup_replaceRow :
    lookup key (replaceRow key rows row) k = if key row = k then some row else lookup key rows k := by
  rw [replaceRow, lookup_append, lookup_singleton]
  by_cases same : key row = k
  · subst same
    rw [lookup_eq_none.mpr fun r member => by simpa using (List.mem_filter.mp member).2]
    simp
  · rw [lookup_filter_ne (Ne.symm same)]
    simp [same]

theorem lookup_replaceRows :
    lookup key (replaceRows key rows new) k = (lookup key new.reverse k).or (lookup key rows k) := by
  induction new generalizing rows with
  | nil => simp [replaceRows]
  | cons r new ih =>
    simp only [replaceRows, List.foldl_cons] at ih ⊢
    rw [ih, lookup_replaceRow, List.reverse_cons, lookup_append, lookup_singleton]
    by_cases same : key r = k <;> simp [same, Option.or_assoc]

theorem insertRow_eq_some (fresh : lookup key rows (key row) = none) :
    insertRow key rows row = some (rows ++ [row]) := by
  have absent := lookup_eq_none.mp fresh
  simp only [insertRow, List.any_eq_true, decide_eq_true_eq]
  rw [if_neg fun ⟨r, member, same⟩ => absent r member same]

/-- `INSERT ... SELECT` of rows with new, distinct keys appends them. -/
theorem insertRows_eq_some (fresh : ∀ r ∈ new, lookup key rows (key r) = none)
    (nodup : (new.map key).Nodup) : insertRows key rows new = some (rows ++ new) := by
  induction new generalizing rows with
  | nil => simp [insertRows]
  | cons r new ih =>
    obtain ⟨outside, nodup⟩ := List.nodup_cons.mp nodup
    have inserted := insertRow_eq_some (fresh r (List.mem_cons_self _ _))
    have fresh' (r' : α) (member : r' ∈ new) : lookup key (rows ++ [r]) (key r') = none := by
      rw [lookup_append, fresh r' (List.mem_cons_of_mem _ member), lookup_singleton,
        if_neg fun (same : key r = key r') => outside (same ▸ List.mem_map_of_mem key member)]
      rfl
    simp only [insertRows, List.foldlM_cons, inserted, Option.bind_eq_bind, Option.some_bind] at ih ⊢
    rw [ih fresh' nodup, List.append_assoc, List.singleton_append]

/-- Reading a table through a map that moves keys injectively. -/
theorem lookup_map {β κ' : Type} [DecidableEq κ'] {key' : β → κ'} {f : α → β} {j : κ → κ'}
    (keep : ∀ r, key' (f r) = j (key r)) (inj : Function.Injective j) :
    lookup key' (rows.map f) (j k) = (lookup key rows k).map f := by
  simp only [lookup, List.find?_map]
  congr 2
  funext r
  simp only [Function.comp_apply, keep, inj.eq_iff]

theorem lookup_map_of_key {β : Type} {key' : β → κ} {f : α → β} (keep : ∀ r, key' (f r) = key r) :
    lookup key' (rows.map f) k = (lookup key rows k).map f := by
  simp only [lookup, List.find?_map]
  congr 2
  funext r
  simp only [Function.comp_apply, keep]

theorem lookup_reverse_eq_none : lookup key rows.reverse k = none ↔ lookup key rows k = none := by
  simp only [lookup_eq_none, List.mem_reverse]

theorem mem_map_key : k ∈ rows.map key ↔ lookup key rows k ≠ none := by
  rw [Ne, lookup_eq_none]
  simp only [List.mem_map, not_forall, not_not, exists_prop]

/-- In a keyed table a row is what its own key selects. -/
theorem lookup_of_mem (keyed : (rows.map key).Nodup) (member : row ∈ rows) :
    lookup key rows (key row) = some row := by
  induction rows with
  | nil => cases member
  | cons r rows ih =>
    obtain ⟨outside, keyed⟩ := List.nodup_cons.mp keyed
    rcases List.mem_cons.mp member with rfl | later
    · simp [lookup, List.find?]
    · have apart : key r ≠ key row := fun same => outside (same ▸ List.mem_map_of_mem key later)
      simpa [lookup, List.find?, apart] using ih keyed later

/-- Selecting a key of a keyed table returns the row `lookup` finds, or nothing. -/
theorem filter_eq_lookup (keyed : (rows.map key).Nodup) :
    rows.filter (fun r => key r = k) = (lookup key rows k).toList := by
  induction rows with
  | nil => rfl
  | cons r rows ih =>
    obtain ⟨outside, keyed⟩ := List.nodup_cons.mp keyed
    by_cases same : key r = k
    · have rest : rows.filter (fun r => key r = k) = [] :=
        List.filter_eq_nil_iff.mpr fun r' member isKey =>
          outside (same ▸ of_decide_eq_true isKey ▸ List.mem_map_of_mem key member)
      simp [lookup, List.find?_cons, same, rest]
    · simpa [lookup, List.find?_cons, same] using ih keyed

omit [DecidableEq κ] in
/-- Appending a row whose key is new keeps a table keyed. -/
theorem nodup_append_row (keyed : (rows.map key).Nodup) (fresh : ∀ r ∈ rows, key r ≠ key row) :
    ((rows ++ [row]).map key).Nodup := by
  rw [List.map_append, List.map_singleton]
  refine List.nodup_append.mpr ⟨keyed, List.nodup_singleton _, fun a old isNew => ?_⟩
  obtain ⟨r, member, rfl⟩ := List.mem_map.mp old
  exact fresh r member (List.mem_singleton.mp isNew)

/-- An `INSERT` that succeeds keeps a table keyed. -/
theorem insertRow_nodup {out : List α} (keyed : (rows.map key).Nodup)
    (inserted : insertRow key rows row = some out) : (out.map key).Nodup := by
  unfold insertRow at inserted
  split at inserted
  · cases inserted
  · rename_i clash
    cases inserted
    simp only [List.any_eq_true, decide_eq_true_eq, not_exists, not_and] at clash
    exact nodup_append_row keyed clash

theorem insertRows_nodup {out : List α} (keyed : (rows.map key).Nodup)
    (inserted : insertRows key rows new = some out) : (out.map key).Nodup := by
  induction new generalizing rows with
  | nil =>
    cases inserted
    exact keyed
  | cons r new ih =>
    simp only [insertRows, List.foldlM_cons, Option.bind_eq_bind, Option.bind_eq_some] at inserted
    obtain ⟨rows', first, rest⟩ := inserted
    exact ih (insertRow_nodup keyed first) rest

/-- `REPLACE` keeps a table keyed. -/
theorem replaceRows_nodup (keyed : (rows.map key).Nodup) :
    ((replaceRows key rows new).map key).Nodup := by
  induction new generalizing rows with
  | nil => exact keyed
  | cons r new ih =>
    exact ih (nodup_append_row (keyed.sublist ((List.filter_sublist _).map key))
      fun r' member => of_decide_eq_true (List.mem_filter.mp member).2)

end Keyed

/-- `SELECT tid FROM current_object WHERE zoid = oid`. -/
def currentTid (db : Database) (oid : Nat) : Option Nat :=
  (lookup CurrentObjectRow.zoid db.currentObject oid).map (·.tid)

theorem currentTid_of_mem {db : Database} (keyed : (db.currentObject.map CurrentObjectRow.zoid).Nodup)
    {c : CurrentObjectRow} (member : c ∈ db.currentObject) : currentTid db c.zoid = some c.tid := by
  rw [currentTid, lookup_of_mem keyed member, Option.map_some']

/-- The revision `object_state` holds for `oid` at `tid`. -/
def objectStateAt (db : Database) (oid tid : Nat) : Option ObjectStateRow :=
  lookup ObjectStateRow.key db.objectState (oid, tid)

/-- The primary keys hold: `object_state` is keyed by `(zoid, tid)`, `current_object` by
`zoid`. -/
structure Keyed (db : Database) : Prop where
  objectState : (db.objectState.map ObjectStateRow.key).Nodup
  currentObject : (db.currentObject.map CurrentObjectRow.zoid).Nodup

/-- `current_object` maps every object that has revisions to its latest revision. -/
def CurrentInvariant (db : Database) : Prop :=
  ∀ oid t, objectStateAt db oid t ≠ none →
    ∃ t', currentTid db oid = some t' ∧ t ≤ t' ∧ objectStateAt db oid t' ≠ none

end RelStorage
