import RelStorage.Adapters.Tables

namespace RelStorage

/-- The one row a query may return: `assert cursor.rowcount == 1` fails on more. -/
def singleRow {β : Type} : List β → Option (Option β)
  | [] => some none
  | [row] => some (some row)
  | _ => none

/-- `SELECT ... FROM current_object JOIN object_state USING (zoid, tid) WHERE zoid = oid`. -/
def currentRevisions (db : Database) (oid : Nat) : List ObjectStateRow :=
  (db.currentObject.filter (·.zoid = oid)).flatMap fun c =>
    db.objectState.filter fun r => r.zoid = c.zoid ∧ r.tid = c.tid

/-- One row of `ORDER BY tid LIMIT 1` read in table order: `r` replaces the row kept so far
when `before r.tid kept.tid`, so of equal tids the first stays. -/
def orderStep (before : Nat → Nat → Bool) : Option ObjectStateRow → ObjectStateRow →
    Option ObjectStateRow
  | some kept, r => if before r.tid kept.tid then some r else some kept
  | none, r => some r

/-- `ORDER BY tid LIMIT 1`, in the order `before`. -/
def firstBy (before : Nat → Nat → Bool) (rows : List ObjectStateRow) : Option ObjectStateRow :=
  rows.foldl (orderStep before) none

/-- `ORDER BY tid DESC LIMIT 1`. -/
def latest : List ObjectStateRow → Option ObjectStateRow := firstBy fun t kept => kept < t

/-- `ORDER BY tid LIMIT 1`. -/
def earliest : List ObjectStateRow → Option ObjectStateRow := firstBy fun t kept => t < kept

/-- The revisions of `oid` after `tid`, as `WHERE zoid = oid AND tid > tid` selects them. -/
def revisionsAfter (db : Database) (oid tid : Nat) : List ObjectStateRow :=
  db.objectState.filter fun r => r.zoid = oid ∧ tid < r.tid

/-- `load_current` of PostgreSQL and MySQL: the joined row's state and tid, `(None, None)`
when there is none; none when the assertion on the row count fails. -/
def loadCurrentSql (db : Database) (oid : Nat) : Option (Option (List UInt8) × Option Nat) :=
  (singleRow (currentRevisions db oid)).map fun
    | some r => (r.state, some r.tid)
    | none => (none, none)

/-- `load_revision` of PostgreSQL and MySQL. -/
def loadRevisionSql (db : Database) (oid tid : Nat) : Option (Option (List UInt8)) :=
  (singleRow (db.objectState.filter fun r => r.zoid = oid ∧ r.tid = tid)).map
    fun row => row.bind (·.state)

/-- `load_before` of PostgreSQL and MySQL: `ORDER BY tid DESC LIMIT 1` returns at most one
row, so the assertion holds. -/
def loadBeforeSql (db : Database) (oid tid : Nat) : Option (List UInt8) × Option Nat :=
  match latest (db.objectState.filter fun r => r.zoid = oid ∧ r.tid < tid) with
  | some r => (r.state, some r.tid)
  | none => (none, none)

/-- `exists` of every flavor: `SELECT 1 FROM current_object WHERE zoid = oid` yields a row. -/
def existsSql (db : Database) (oid : Nat) : Bool := db.currentObject.any fun c => c.zoid = oid

/-- `replace_temp` of every flavor: `UPDATE temp_store SET prev_tid, md5, state WHERE zoid =
oid`. -/
def replaceTempSql (md5 : List UInt8 → String) (db : Database) (oid prevTid : Nat)
    (data : List UInt8) : Database :=
  { db with
    tempStore := db.tempStore.map fun t =>
      if t.zoid = oid then { t with prevTid, md5 := computeMd5sum md5 (some data), state := some data }
      else t }

/-- `DELETE FROM temp_store WHERE zoid = oid` followed by `INSERT INTO temp_store`. -/
def deleteInsertTemp (db : Database) (row : TempStoreRow) : Option Database := do
  let tempStore ← insertRow TempStoreRow.zoid (db.tempStore.filter (·.zoid ≠ row.zoid)) row
  pure { db with tempStore }

/-- `restore` of every flavor: insert the revision with `prev_tid` the current tid, or 0
(`COALESCE`) for an object `current_object` does not know. -/
def restoreSql (md5 : List UInt8 → String) (db : Database) (oid tid : Nat)
    (data : Option (List UInt8)) : Option Database := do
  let prevTid := (currentTid db oid).getD 0
  let objectState ← insertRow ObjectStateRow.key db.objectState
    ⟨oid, tid, prevTid, computeMd5sum md5 data, data⟩
  pure { db with objectState }

/-- `detect_conflict`: the first stored row whose `prev_tid` differs from its object's
current tid. The inner join skips objects that have no `current_object` row. -/
def detectConflictSql (db : Database) : Option (Nat × Nat × Nat × Option (List UInt8)) :=
  (db.tempStore.flatMap fun t =>
    (db.currentObject.filter fun c => t.zoid = c.zoid ∧ t.prevTid ≠ c.tid).map
      fun c => (t.zoid, c.tid, t.prevTid, t.state)).head?

/-- `SELECT zoid, tid, prev_tid, md5, state FROM temp_store`: the revision at `tid` that a
stored row becomes. -/
def TempStoreRow.revision (tid : Nat) (row : TempStoreRow) : ObjectStateRow :=
  ⟨row.zoid, tid, row.prevTid, row.md5, row.state⟩

/-- `SELECT zoid, tid FROM object_state`: the `current_object` row pointing at a revision. -/
def ObjectStateRow.current (row : ObjectStateRow) : CurrentObjectRow := ⟨row.zoid, row.tid⟩

/-- `UPDATE current_object SET tid = tid WHERE zoid IN zoids`, on one row. -/
def CurrentObjectRow.pointAt (zoids : List Nat) (tid : Nat) (row : CurrentObjectRow) :
    CurrentObjectRow :=
  if row.zoid ∈ zoids then { row with tid := tid } else row

@[simp] theorem CurrentObjectRow.pointAt_zoid (zoids : List Nat) (tid : Nat) (row : CurrentObjectRow) :
    (row.pointAt zoids tid).zoid = row.zoid := by
  unfold CurrentObjectRow.pointAt
  split <;> rfl

/-- `move_from_temp(tid)` of every flavor: copy `temp_store` into `object_state` at `tid`,
then return the stored oids. -/
def moveFromTempSql (db : Database) (tid : Nat) : Option (Database × List Nat) := do
  let objectState ← insertRows ObjectStateRow.key db.objectState
    (db.tempStore.map (TempStoreRow.revision tid))
  pure ({ db with objectState }, db.tempStore.map (·.zoid))

/-- `update_current(tid)` of PostgreSQL and Oracle: insert a `current_object` row for each
revision at `tid` with `prev_tid = 0`, then point the objects of the revisions at `tid`
with `prev_tid != 0` at `tid`. -/
def insertUpdateCurrent (db : Database) (tid : Nat) : Option Database := do
  let created := (db.objectState.filter fun r => r.tid = tid ∧ r.prevTid = 0).map
    ObjectStateRow.current
  let currentObject ← insertRows CurrentObjectRow.zoid db.currentObject created
  let changed := (db.objectState.filter fun r => r.tid = tid ∧ r.prevTid ≠ 0).map (·.zoid)
  pure { db with currentObject := currentObject.map (CurrentObjectRow.pointAt changed tid) }

namespace HistoryPreservingPostgreSQLLoadStore

def getCurrentTid (db : Database) (oid : Nat) : Option Nat := currentTid db oid

def «exists» (db : Database) (oid : Nat) : Bool := existsSql db oid

def loadCurrent (db : Database) (oid : Nat) : Option (Option (List UInt8) × Option Nat) :=
  loadCurrentSql db oid

def loadRevision (db : Database) (oid tid : Nat) : Option (Option (List UInt8)) :=
  loadRevisionSql db oid tid

def loadBefore (db : Database) (oid tid : Nat) : Option (List UInt8) × Option Nat :=
  loadBeforeSql db oid tid

/-- `ORDER BY tid LIMIT 1` over the later revisions. -/
def getObjectTidAfter (db : Database) (oid tid : Nat) : Option Nat :=
  (earliest (revisionsAfter db oid tid)).map (·.tid)

/-- The state goes through `encodestring` and `decode(..., 'base64')`, which cancel. -/
def storeTemp (md5 : List UInt8 → String) (db : Database) (oid prevTid : Nat)
    (data : List UInt8) : Option Database :=
  deleteInsertTemp db ⟨oid, prevTid, computeMd5sum md5 (some data), some data⟩

def replaceTemp (md5 : List UInt8 → String) (db : Database) (oid prevTid : Nat)
    (data : List UInt8) : Database :=
  replaceTempSql md5 db oid prevTid data

def restore (md5 : List UInt8 → String) (db : Database) (oid tid : Nat)
    (data : Option (List UInt8)) : Option Database :=
  restoreSql md5 db oid tid data

def detectConflict (db : Database) : Option (Nat × Nat × Nat × Option (List UInt8)) :=
  detectConflictSql db

def moveFromTemp (db : Database) (tid : Nat) : Option (Database × List Nat) :=
  moveFromTempSql db tid

def updateCurrent (db : Database) (tid : Nat) : Option Database := insertUpdateCurrent db tid

end HistoryPreservingPostgreSQLLoadStore

namespace HistoryPreservingMySQLLoadStore

def getCurrentTid (db : Database) (oid : Nat) : Option Nat := currentTid db oid

def «exists» (db : Database) (oid : Nat) : Bool := existsSql db oid

def loadCurrent (db : Database) (oid : Nat) : Option (Option (List UInt8) × Option Nat) :=
  loadCurrentSql db oid

def loadRevision (db : Database) (oid tid : Nat) : Option (Option (List UInt8)) :=
  loadRevisionSql db oid tid

def loadBefore (db : Database) (oid tid : Nat) : Option (List UInt8) × Option Nat :=
  loadBeforeSql db oid tid

/-- `ORDER BY tid LIMIT 1` over the later revisions. -/
def getObjectTidAfter (db : Database) (oid tid : Nat) : Option Nat :=
  (earliest (revisionsAfter db oid tid)).map (·.tid)

/-- `REPLACE INTO temp_store`, which replaces the row the primary key `zoid` selects. -/
def storeTemp (md5 : List UInt8 → String) (db : Database) (oid prevTid : Nat)
    (data : List UInt8) : Database :=
  { db with
    tempStore := replaceRow TempStoreRow.zoid db.tempStore
      ⟨oid, prevTid, computeMd5sum md5 (some data), some data⟩ }

def replaceTemp (md5 : List UInt8 → String) (db : Database) (oid prevTid : Nat)
    (data : List UInt8) : Database :=
  replaceTempSql md5 db oid prevTid data

def restore (md5 : List UInt8 → String) (db : Database) (oid tid : Nat)
    (data : Option (List UInt8)) : Option Database :=
  restoreSql md5 db oid tid data

def detectConflict (db : Database) : Option (Nat × Nat × Nat × Option (List UInt8)) :=
  detectConflictSql db

def moveFromTemp (db : Database) (tid : Nat) : Option (Database × List Nat) :=
  moveFromTempSql db tid

/-- `REPLACE INTO current_object SELECT zoid, tid FROM object_state WHERE tid = tid`, for
every revision at `tid` whatever its `prev_tid`. -/
def updateCurrent (db : Database) (tid : Nat) : Database :=
  { db with
    currentObject := replaceRows CurrentObjectRow.zoid db.currentObject
      ((db.objectState.filter (·.tid = tid)).map ObjectStateRow.current) }

end HistoryPreservingMySQLLoadStore

namespace HistoryPreservingOracleLoadStore

def getCurrentTid (db : Database) (oid : Nat) : Option Nat := currentTid db oid

def «exists» (db : Database) (oid : Nat) : Bool := existsSql db oid

/-- `SELECT MIN(tid)`: one row always comes back, holding NULL when no revision is later. -/
def getObjectTidAfter (db : Database) (oid tid : Nat) : Option Nat :=
  ((revisionsAfter db oid tid).map (·.tid)).min?

/-- Both branches on `len(data) <= 2000` insert the same values; they differ only in how
the state is bound. -/
def storeTemp (md5 : List UInt8 → String) (db : Database) (oid prevTid : Nat)
    (data : List UInt8) : Option Database :=
  deleteInsertTemp db ⟨oid, prevTid, computeMd5sum md5 (some data), some data⟩

def replaceTemp (md5 : List UInt8 → String) (db : Database) (oid prevTid : Nat)
    (data : List UInt8) : Database :=
  replaceTempSql md5 db oid prevTid data

def restore (md5 : List UInt8 → String) (db : Database) (oid tid : Nat)
    (data : Option (List UInt8)) : Option Database :=
  restoreSql md5 db oid tid data

def moveFromTemp (db : Database) (tid : Nat) : Option (Database × List Nat) :=
  moveFromTempSql db tid

def updateCurrent (db : Database) (tid : Nat) : Option Database := insertUpdateCurrent db tid

end HistoryPreservingOracleLoadStore

/-- Modelled from the spec: the three history-preserving classes as tagged variants of one
load/store capability, selected at construction. -/
inductive LoadStore
  | postgreSQL
  | mySQL
  | oracle
  deriving DecidableEq, Repr

namespace LoadStore

def storeTemp (md5 : List UInt8 → String) :
    LoadStore → Database → Nat → Nat → List UInt8 → Option Database
  | postgreSQL => HistoryPreservingPostgreSQLLoadStore.storeTemp md5
  | mySQL => fun db oid prevTid data =>
      some (HistoryPreservingMySQLLoadStore.storeTemp md5 db oid prevTid data)
  | oracle => HistoryPreservingOracleLoadStore.storeTemp md5

def replaceTemp (md5 : List UInt8 → String) :
    LoadStore → Database → Nat → Nat → List UInt8 → Database
  | postgreSQL => HistoryPreservingPostgreSQLLoadStore.replaceTemp md5
  | mySQL => HistoryPreservingMySQLLoadStore.replaceTemp md5
  | oracle => HistoryPreservingOracleLoadStore.replaceTemp md5

def restore (md5 : List UInt8 → String) :
    LoadStore → Database → Nat → Nat → Option (List UInt8) → Option Database
  | postgreSQL => HistoryPreservingPostgreSQLLoadStore.restore md5
  | mySQL => HistoryPreservingMySQLLoadStore.restore md5
  | oracle => HistoryPreservingOracleLoadStore.restore md5

def moveFromTemp : LoadStore → Database → Nat → Option (Database × List Nat)
  | postgreSQL => HistoryPreservingPostgreSQLLoadStore.moveFromTemp
  | mySQL => HistoryPreservingMySQLLoadStore.moveFromTemp
  | oracle => HistoryPreservingOracleLoadStore.moveFromTemp

def updateCurrent : LoadStore → Database → Nat → Option Database
  | postgreSQL => HistoryPreservingPostgreSQLLoadStore.updateCurrent
  | mySQL => fun db tid => some (HistoryPreservingMySQLLoadStore.updateCurrent db tid)
  | oracle => HistoryPreservingOracleLoadStore.updateCurrent

def getCurrentTid : LoadStore → Database → Nat → Option Nat
  | postgreSQL => HistoryPreservingPostgreSQLLoadStore.getCurrentTid
  | mySQL => HistoryPreservingMySQLLoadStore.getCurrentTid
  | oracle => HistoryPreservingOracleLoadStore.getCurrentTid

def «exists» : LoadStore → Database → Nat → Bool
  | postgreSQL => HistoryPreservingPostgreSQLLoadStore.exists
  | mySQL => HistoryPreservingMySQLLoadStore.exists
  | oracle => HistoryPreservingOracleLoadStore.exists

def getObjectTidAfter : LoadStore → Database → Nat → Nat → Option Nat
  | postgreSQL => HistoryPreservingPostgreSQLLoadStore.getObjectTidAfter
  | mySQL => HistoryPreservingMySQLLoadStore.getObjectTidAfter
  | oracle => HistoryPreservingOracleLoadStore.getObjectTidAfter

end LoadStore

end RelStorage
