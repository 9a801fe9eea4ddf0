import Joedb.Interpreted.Database
import Joedb.Journal.Replaying
import Mathlib.Data.Sigma.Basic

/-!
# The generated database

What the compiler generates for a schema, as a function of the schema: a
`Database` is its tables, and a table that is `Storage` has a column for each of
its fields and, for each of its indexes, a map and the vector of iterators into
it. A generated class has its schema in its code. Here it is in the value: a
fresh database of a schema is the schema.

An iterator is the key of the entry that it points to, with the record it belongs
to, and `end()` is none. How a map compares two keys is up to the index, and so is
how the keys are worded in the message of a failure. The numbers of lines in
assertions are left out.

A change may throw when it is half done. Whoever catches the exception finds it
half done. There is memory for all that fits into it.
-/

namespace Joedb.Compiled

open ByteFile Containers StateExcept

/-! ## Storage -/

/-- A value, with its type. -/
abbrev Value : Type := (ty : Ty) × ty.Storage

/-- What a map of an index is ordered by. -/
abbrev Key : Type := List Value

structure Column where
  ty : Ty
  values : List ty.Storage

namespace Column

def resize (size : Nat) (c : Column) : Column :=
  ⟨c.ty, Containers.resize c.values size c.ty.kind.default⟩

/-- The value of a record that is deleted. -/
def clear (recordId : RecordId) (c : Column) : Column :=
  ⟨c.ty, c.values.set recordId.toNat c.ty.kind.default⟩

/-- A change of the vector, where it has the type. -/
def put (ty : Ty) (g : List ty.Storage → List ty.Storage) (c : Column) : Column :=
  if h : c.ty = ty then ⟨ty, g (h ▸ c.values)⟩ else c

def get (c : Column) (recordId : RecordId) : Value :=
  ⟨c.ty, c.values.getD recordId.toNat c.ty.kind.default⟩

end Column

structure Index where
  nameSpace : String
  name : String
  fieldIds : List FieldId
  unique : Bool
  same : Key → Key → Bool
  wording : Key → String
  entries : List (Key × RecordId)
  iterators : List (Option Key)

/-- `data_of_x`, with the indexes of the table. -/
structure Storage where
  name : String
  singleRow : Bool
  columns : List (FieldId × Column)
  indexes : List Index
  freedom : FreedomKeeper

def assertion (function condition : String) : Exn :=
  .exception (function ++ ":!(" ++ condition ++ ")")

namespace Index

def resize (size : Nat) (ix : Index) : Index :=
  { ix with iterators := Containers.resize ix.iterators size none }

/-- The iterators of records that are inserted. -/
def fill (recordId : RecordId) (size : Nat) (ix : Index) : Index :=
  { ix with iterators := copyN ix.iterators recordId.toNat (List.replicate size none) }

def keyOf (columns : List (FieldId × Column)) (ix : Index) (recordId : RecordId) : Key :=
  ix.fieldIds.filterMap fun f => (find columns f).map (·.get recordId)

/-- `remove_index_of_x`. -/
def remove (recordId : RecordId) (ix : Index) : Index :=
  match ix.iterators.getD recordId.toNat none with
  | none => ix
  | some key =>
      { ix with entries := ix.entries.erase (key, recordId)
                iterators := ix.iterators.set recordId.toNat none }

/-- `add_index_of_x`. -/
def add (columns : List (FieldId × Column)) (recordId : RecordId) (ix : Index) :
    Index × Option Exn :=
  let key := ix.keyOf columns recordId
  match if ix.unique then ix.entries.find? (ix.same key ·.1) else none with
  | some old =>
      (ix, some (.exception (ix.nameSpace ++ ": " ++ ix.name ++ " unique index failure: ("
        ++ ix.wording key ++ ") at id = " ++ toString recordId ++ " was already at id = "
        ++ toString old.2)))
  | none =>
      ({ ix with entries := ix.entries ++ [(key, recordId)]
                 iterators := ix.iterators.set recordId.toNat (some key) }, none)

/-- The first loop of an update of a vector. -/
def removeAll (recordId : RecordId) : Nat → Index → Index
  | 0, ix => ix
  | size + 1, ix => removeAll (recordId + 1) size (ix.remove recordId)

/-- The second one. -/
def addAll (columns : List (FieldId × Column)) (recordId : RecordId) :
    Nat → Index → Index × Option Exn
  | 0, ix => (ix, none)
  | size + 1, ix =>
      match ix.add columns recordId with
      | (ix, none) => addAll columns (recordId + 1) size ix
      | (ix, some e) => (ix, some e)

/-- `is_trigger`: a field of the index, and the last of them if the index is unique. -/
def isTrigger (fieldId : FieldId) (ix : Index) : Bool :=
  ix.fieldIds.contains fieldId && (!ix.unique || ix.fieldIds.all fun id => id ≤ fieldId)

/-- What an update of a field does to the indexes that it triggers, one after the
other, until one throws. -/
def trigger (fieldId : FieldId) (g : Index → Index × Option Exn) :
    List Index → List Index × Option Exn
  | [] => ([], none)
  | ix :: ixs =>
      if ix.isTrigger fieldId then
        match g ix with
        | (ix, none) =>
            let rest := trigger fieldId g ixs
            (ix :: rest.1, rest.2)
        | (ix, some e) => (ix :: ixs, some e)
      else
        let rest := trigger fieldId g ixs
        (ix :: rest.1, rest.2)

end Index

namespace Storage

def resize (size : Nat) (st : Storage) : Storage :=
  { st with columns := st.columns.map fun c => (c.1, c.2.resize size)
            indexes := st.indexes.map fun ix =>
              { ix with iterators := Containers.resize ix.iterators size none }
            freedom := st.freedom.resize size }

def internalDelete (recordId : RecordId) : EStateM Exn Storage Unit := do
  let st ← get
  when (st.freedom.isUsed recordId = false)
    (throw (assertion ("internal_delete_" ++ st.name) "is_valid_record_id(record_id)"))
  modify fun st =>
    { st with indexes := st.indexes.map (·.remove recordId)
              columns := st.columns.map fun c => (c.1, c.2.clear recordId)
              freedom := st.freedom.free recordId }

def internalInsert (recordId : RecordId) (st : Storage) : Storage :=
  { st with indexes := st.indexes.map (·.fill recordId 1)
            freedom := st.freedom.use recordId }

/-- A vector of records that ends where no `index_t` gets. If the sum is still a `size_t`
then no `vector` can be resized to it. What else becomes of it is not followed: without
an index and a hole the table gets smaller, and elsewhere there is a write behind the
end of something. -/
def checkEnd (recordId : RecordId) (size : Nat) : EStateM Exn Storage Unit := do
  let st ← get
  when (recordId + size ≥ 2 ^ 63 ∧ recordId + size < 2 ^ 64 ∧
      (st.columns.isEmpty = false ∨ st.indexes.isEmpty = false)) (throw .lengthError)
  when (recordId + size ≥ 2 ^ 63) (throw .undefined)

def internalVectorInsert (recordId : RecordId) (size : Nat) : EStateM Exn Storage Unit := do
  let st ← get
  when (st.freedom.isFreeVector recordId size = false)
    (throw (assertion ("internal_vector_insert_" ++ st.name)
      "freedom_keeper.is_free_vector(record_id, size)"))
  modify fun st =>
    { st with freedom := st.freedom.useVector recordId size
              indexes := st.indexes.map (·.fill recordId size) }

/-- The end of an update: the indexes. -/
def triggerIndexes (fieldId : FieldId)
    (g : List (FieldId × Column) → Index → Index × Option Exn) : EStateM Exn Storage Unit := do
  let st ← get
  let triggered := Index.trigger fieldId (g st.columns) st.indexes
  set { st with indexes := triggered.1 }
  match triggered.2 with
  | none => pure ()
  | some e => throw e

/-- Values written into a column, from a record on. -/
def write (ty : Ty) (fieldId : FieldId) (recordId : Nat) (values : List ty.Storage)
    (st : Storage) : Storage :=
  { st with columns := st.columns.map fun c =>
      if c.1 = fieldId then (c.1, c.2.put ty (copyN · recordId values)) else c }

/-- The first bytes of a value in a column, copied over it. -/
def writePart (ty : Ty) (fieldId : FieldId) (recordId : Nat) (first : Bytes)
    (st : Storage) : Storage :=
  { st with columns := st.columns.map fun c =>
      if c.1 = fieldId then (c.1, c.2.put ty (·.modify recordId (ty.kind.overwrite first))) else c }

def internalUpdate (ty : Ty) (recordId : RecordId) (fieldId : FieldId) (value : ty.Arg) :
    EStateM Exn Storage Unit := do
  let st ← get
  when (st.freedom.isUsed recordId = false)
    (throw (assertion ("internal_update_" ++ st.name) "is_valid_record_id(record_id)"))
  modify (write ty fieldId recordId.toNat [value.val])
  triggerIndexes fieldId fun columns ix => (ix.remove recordId).add columns recordId

def internalUpdateVector (ty : Ty) (recordId : RecordId) (fieldId : FieldId)
    (values : List ty.Storage) : EStateM Exn Storage Unit := do
  let st ← get
  when (st.freedom.isUsedVector recordId values.length = false)
    (throw (assertion ("internal_update_vector_" ++ st.name)
      "freedom_keeper.is_used_vector(record_id, size)"))
  modify (write ty fieldId recordId.toNat values)
  triggerIndexes fieldId fun columns ix =>
    (ix.removeAll recordId values.length).addAll columns recordId values.length

end Storage

/-! ## Database_Writable -/

/-- The tables, and what a `Database_Writable` has beside them. The schema journal
is the operations it was told. -/
structure Database where
  nameSpace : String
  tables : List (TableId × Storage)
  maxRecordId : Nat
  schema : List Op

namespace Database

def throwException {α : Type} (message : String) : EStateM Exn Database α := do
  let db ← get
  throw (.exception (db.nameSpace ++ ": " ++ message))

theorem exception_bind_eq_ok {α : Type} {c : Prop} [Decidable c] {message : String}
    {f : Unit → EStateM Exn Database α} {db db' : Database} {a : α} :
    (when c (throwException message) >>= f) db = .ok a db' ↔ ¬ c ∧ f () db = .ok a db' :=
  when_bind_eq_ok nofun

/-- What is done to a table, if the generated code has it. -/
def onTable {α : Type} (tableId : TableId) (absent : EStateM Exn Database α)
    (m : EStateM Exn Storage α) : EStateM Exn Database α := fun db =>
  match find db.tables tableId with
  | none => absent db
  | some st =>
      match m st with
      | .ok a st => .ok a { db with tables := assign db.tables tableId st }
      | .error e st => .error e { db with tables := assign db.tables tableId st }

/-- A table that has a field of the type. -/
def onField (ty : Ty) (fieldId : FieldId) (m : EStateM Exn Storage Unit) :
    EStateM Exn Storage Unit := do
  let st ← get
  when (∃ c ∈ find st.columns fieldId, c.ty = ty) m

def insertRecord (nameSpace : String) (recordId : RecordId) : EStateM Exn Storage Unit := do
  let st ← get
  when (st.freedom.isUsed recordId = true)
    (throw (.exception (nameSpace ++ ": Duplicate insert into table " ++ st.name)))
  when (recordId + 1 ≥ 2 ^ 63) (throw .undefined)
  when ((st.freedom.getSize : Int) ≤ recordId) (modify (Storage.resize (recordId + 1).toNat))
  modify (Storage.internalInsert recordId)

def insertInto (tableId : TableId) (recordId : RecordId) : EStateM Exn Database Unit := do
  let db ← get
  when (recordId < 0 ∨ (db.maxRecordId ≠ 0 ∧ recordId ≥ db.maxRecordId))
    (throwException "insert_into: too big")
  onTable tableId (pure ()) (insertRecord db.nameSpace recordId)

def insertRecords (recordId : RecordId) (size : Nat) : EStateM Exn Storage Unit := do
  Storage.checkEnd recordId size
  let st ← get
  when ((st.freedom.getSize : Int) < recordId + size)
    (modify (Storage.resize (recordId + size).toNat))
  Storage.internalVectorInsert recordId size

def insertVector (tableId : TableId) (recordId : RecordId) (size : Nat) :
    EStateM Exn Database Unit := do
  let db ← get
  when (recordId < 0 ∨
      (db.maxRecordId ≠ 0 ∧ (recordId ≥ db.maxRecordId ∨ word size ≥ db.maxRecordId)))
    (throwException "insert_vector: null record_id, or too big")
  onTable tableId (pure ()) (insertRecords recordId size)

/-- The loop of `delete_vector`, from the last record to the first. The ids are sums of an
`index_t` and a `size_t`. -/
def deleteRecords (recordId : RecordId) : Nat → EStateM Exn Storage Unit
  | 0 => pure ()
  | size + 1 => do
      Storage.internalDelete (word (recordId + size))
      deleteRecords recordId size

def deleteVectorOf (recordId : RecordId) (size : Nat) : EStateM Exn Storage Unit := do
  let st ← get
  when (st.freedom.isUsedVector recordId size = false)
    (throw (assertion "delete_vector" "fk->is_used_vector(record_id, size)"))
  deleteRecords recordId size

/-- The operation that a `Writable` is told. -/
def call : Op → EStateM Exn Database Unit
  | .createTable name => modify fun db => { db with schema := db.schema ++ [.createTable name] }
  | .dropTable t => modify fun db => { db with schema := db.schema ++ [.dropTable t] }
  | .renameTable t name =>
      modify fun db => { db with schema := db.schema ++ [.renameTable t name] }
  | .addField t name type =>
      modify fun db => { db with schema := db.schema ++ [.addField t name type] }
  | .dropField t f => modify fun db => { db with schema := db.schema ++ [.dropField t f] }
  | .renameField t f name =>
      modify fun db => { db with schema := db.schema ++ [.renameField t f name] }
  | .custom name => modify fun db => { db with schema := db.schema ++ [.custom name] }
  | .comment _ => pure ()
  | .timestamp _ => pure ()
  | .validData => pure ()
  | .insertInto t r => insertInto t r
  | .deleteFrom t r => onTable t (pure ()) (Storage.internalDelete r)
  | .insertVector t r size => insertVector t r size
  | .deleteVector t r size => onTable t (pure ()) (deleteVectorOf r size)
  | .update ty t r f v => onTable t (pure ()) (onField ty f (Storage.internalUpdate ty r f v))
  | .updateVector ty t r f vs =>
      onTable t (pure ()) (onField ty f (Storage.internalUpdateVector ty r f vs))
  | .writeBlob _ => pure ()

/-- `get_own_storage` from record 0, with its capacity. -/
def ownStorage (ty : Ty) (tableId : TableId) (fieldId : FieldId) :
    EStateM Exn Database (Option Nat) := fun db =>
  .ok (do
    let st ← find db.tables tableId
    let c ← find st.columns fieldId
    if c.ty = ty ∧ c.values.length ≠ 0 then some st.freedom.getSize else none) db

/-- Assignments through the pointer that `get_own_storage` gave. -/
def storeOwn (ty : Ty) (tableId : TableId) (fieldId : FieldId) (recordId : Nat)
    (values : List ty.Storage) (db : Database) : Database :=
  match find db.tables tableId with
  | none => db
  | some st => { db with tables := assign db.tables tableId (st.write ty fieldId recordId values) }

def storePart (ty : Ty) (tableId : TableId) (fieldId : FieldId) (recordId : Nat)
    (first : Bytes) (db : Database) : Database :=
  match find db.tables tableId with
  | none => db
  | some st =>
      { db with tables := assign db.tables tableId (st.writePart ty fieldId recordId first) }

def asWritable : Writable Database where
  getPosition _ := 0
  startWriting _ := pure ()
  endWriting _ := pure ()
  softCheckpoint := pure ()
  call := call
  ownStorage := ownStorage
  storeOwn := storeOwn
  storePart := storePart
  onBlob _ := pure ()
  wantsBlobData _ := false

theorem asWritable_passive : asWritable.Passive :=
  ⟨fun _ => rfl, fun _ => rfl, fun _ => rfl, rfl, fun _ => rfl⟩

/-! ## check_schema -/

/-- What a schema journal holds behind its header. -/
def schemaBytes (schema : List Op) : Bytes := wiresBytes (encodeAll .reset schema)

/-- `check_schema`, against the schema that the code was generated from. -/
def checkSchema (schema : List Op) (db : Database) : Except Exn Unit :=
  if schemaBytes db.schema <+: schemaBytes schema then .ok ()
  else .error (.exception (db.nameSpace ++ ": Trying to open a file with incompatible schema"))

def requiresSchemaUpgrade (schema : List Op) (db : Database) : Bool :=
  (schemaBytes db.schema).length < (schemaBytes schema).length

end Database

end Joedb.Compiled
