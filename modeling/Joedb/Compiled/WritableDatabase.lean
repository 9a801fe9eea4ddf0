import Joedb.Compiled.Database
import Joedb.Journal.RoundTrip

/-!
# The generated database that writes

Every change is made in memory first, and then goes into the journal. A call that
throws writes nothing. `perform` is the first half, and gives the operation for
the second.

Ids that are inserted are not negative: the generated code does not look, and
would write before its vectors. What `update_vector` lets its caller do with the
values is the values that come out of it.
-/

namespace Joedb.Compiled

open ByteFile Containers StateExcept

/-- The generated functions that change a table. -/
inductive Change where
  | new (tableId : TableId)
  | insert (tableId : TableId) (recordId : Nat)
  | newVector (tableId : TableId) (size : Nat)
  | delete (tableId : TableId) (recordId : RecordId)
  | deleteVector (tableId : TableId) (recordId : RecordId) (size : Nat)
  | set (ty : Ty) (tableId : TableId) (recordId : RecordId) (fieldId : FieldId) (value : ty.Arg)
  | updateVector (ty : Ty) (tableId : TableId) (recordId : RecordId) (fieldId : FieldId)
      (values : List ty.Storage)

namespace Storage

/-- `new_x`. -/
def newRecord (tableId : TableId) : EStateM Exn Storage Op := do
  let st ← get
  let recordId := st.freedom.getFreeRecord.1
  when (recordId + 1 ≥ 2 ^ 63) (throw .undefined)
  set { st with freedom := st.freedom.getFreeRecord.2 }
  modify fun st => st.resize st.freedom.getSize
  modify (internalInsert recordId)
  pure (.insertInto tableId recordId)

/-- `insert_x`. -/
def insertAt (tableId : TableId) (recordId : Nat) : EStateM Exn Storage Op := do
  let st ← get
  when (recordId + 1 ≥ 2 ^ 63) (throw .undefined)
  when (st.freedom.getSize ≤ recordId) (modify (resize (recordId + 1)))
  modify (internalInsert recordId)
  pure (.insertInto tableId recordId)

/-- `new_vector_of_x`. -/
def newVector (tableId : TableId) (size : Nat) : EStateM Exn Storage Op := do
  let st ← get
  checkEnd st.freedom.getSize size
  modify (resize (st.freedom.getSize + size))
  internalVectorInsert st.freedom.getSize size
  pure (.insertVector tableId st.freedom.getSize size)

/-- `delete_x`. -/
def deleteAt (tableId : TableId) (recordId : RecordId) : EStateM Exn Storage Op := do
  internalDelete recordId
  pure (.deleteFrom tableId recordId)

/-- `delete_vector_of_x`. -/
def deleteVector (tableId : TableId) (recordId : RecordId) (size : Nat) :
    EStateM Exn Storage Op := do
  Database.deleteRecords recordId size
  pure (.deleteVector tableId recordId size)

/-- `set_f`. -/
def setField (ty : Ty) (tableId : TableId) (recordId : RecordId) (fieldId : FieldId)
    (value : ty.Arg) : EStateM Exn Storage Op := do
  internalUpdate ty recordId fieldId value
  pure (.update ty tableId recordId fieldId value)

/-- `update_vector_of_f`: the caller writes into the column, and the indexes follow. -/
def updateVectorOf (ty : Ty) (tableId : TableId) (recordId : RecordId) (fieldId : FieldId)
    (values : List ty.Storage) : EStateM Exn Storage Op := do
  modify (write ty fieldId recordId.toNat values)
  internalUpdateVector ty recordId fieldId values
  pure (.updateVector ty tableId recordId fieldId values)

/-- There is such a field, so there is such a function. -/
def Has (st : Storage) (ty : Ty) (fieldId : FieldId) : Prop :=
  ∃ c ∈ find st.columns fieldId, c.ty = ty

end Storage

namespace Change

def tableId : Change → TableId
  | new t => t
  | insert t _ => t
  | newVector t _ => t
  | delete t _ => t
  | deleteVector t _ _ => t
  | set _ t _ _ _ => t
  | updateVector _ t _ _ _ => t

/-- The field of a setter. -/
def field : Change → Option (Ty × FieldId)
  | set ty _ _ f _ => some (ty, f)
  | updateVector ty _ _ f _ => some (ty, f)
  | _ => none

def onStorage : Change → EStateM Exn Storage Op
  | new t => Storage.newRecord t
  | insert t r => Storage.insertAt t r
  | newVector t size => Storage.newVector t size
  | delete t r => Storage.deleteAt t r
  | deleteVector t r size => Storage.deleteVector t r size
  | set ty t r f v => Storage.setField ty t r f v
  | updateVector ty t r f vs => Storage.updateVectorOf ty t r f vs

/-- A table and a field that the generated class has. -/
def Exists (db : Database) (c : Change) : Prop :=
  ∃ st, find db.tables c.tableId = some st ∧ ∀ f ∈ c.field, st.Has f.1 f.2

/-- What is public of a table with a single row: the setters. -/
def Public (db : Database) (c : Change) : Prop :=
  ∀ st, find db.tables c.tableId = some st → st.singleRow = true →
    ∃ ty t r f v, c = .set ty t r f v

/-- The change in memory. -/
def perform (c : Change) : EStateM Exn Database Op :=
  Database.onTable c.tableId (throw (.exception "no such table")) c.onStorage

end Change

namespace Database

/-- `check_single_row`. -/
def checkSingleRow (db : Database) : Except Exn Unit :=
  match db.tables.find? fun t => t.2.singleRow &&
      (t.2.freedom.getNext usedList ≠ 0 || t.2.freedom.getPrevious usedList ≠ 0) with
  | none => .ok ()
  | some t => .error (.exception ("Single-row constraint failure for table " ++ t.2.name))

/-- `initialize`, behind `play_journal`, and whether `auto_upgrade` has something to
write. It goes on from there. -/
def initialize_ (schema : List Op) (db : Database) : Except Exn (Database × Bool) := do
  db.checkSchema schema
  if db.requiresSchemaUpgrade schema then pure (db, true)
  else
    db.checkSingleRow
    pure (db, false)

/-- Opening a file: the constructor. `fresh` is the generated class. -/
def reopen (schema : List Op) (fresh : Database) (file : File) :
    Except Exn (Database × Bool) :=
  match Journal.openWritable file .none with
  | .error e => .error e
  | .ok j =>
      match Replay.playUntilCheckpoint asWritable
          ⟨j.rewind, { fresh with maxRecordId := j.getCheckpoint }⟩ with
      | .error e _ => .error e
      | .ok _ r => initialize_ schema { r.writable with maxRecordId := 0 }

end Database

end Joedb.Compiled
