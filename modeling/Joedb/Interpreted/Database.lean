import Joedb.Interpreted.FreedomKeeper
import Joedb.Journal.Readonly

/-!
# Database

The tables in memory, with the source's order of checks and changes: whoever
catches an exception finds what had been changed before it.

A column cannot hold more bytes than `ptrdiff_t` counts, and a `vector` says so
by a `length_error`. It is the one exception here that may come from the middle
of a change. The vectors of a `Freedom_Keeper` have the same limit, but they grow
by one record at a time and would need 2^60 steps to meet it.
-/

namespace Joedb

open ByteFile Containers StateExcept

/-! ## Field -/

/-- The value of a new element. -/
def Kind.default : (k : Kind) → k.Val
  | .string => ([] : Bytes)
  | .reference => (-1 : Int)
  | .blob => (⟨0, 0⟩ : Blob)
  | .fixed size => (0 : BitVec (8 * size))

/-- `sizeof`. -/
def Kind.sizeof : Kind → Nat
  | .string => 32
  | .reference => 8
  | .blob => 16
  | .fixed size => size

namespace Ty

/-- `vector::max_size`. -/
def maxSize (ty : Ty) : Nat := (2 ^ 63 - 1) / ty.kind.sizeof

/-- `Type_Id`. Null comes first. -/
def typeId (ty : Ty) : UInt8 := UInt8.ofNat (ty.index + 1)

def ofTypeId (typeId : UInt8) : Option Ty := all.find? (·.typeId = typeId)

end Ty

/-- `std::variant` of a `monostate` and a vector for each type. -/
inductive Column where
  | monostate
  | vector (ty : Ty) (values : List ty.Storage)

/-- The alternative that a variant holds. -/
def Column.holds : Column → Option Ty
  | monostate => none
  | vector ty _ => some ty

structure Field where
  type : FieldType
  column : Column
  holds : column.holds = Ty.ofTypeId type.typeId

namespace Field

/-- Whether the column can have `size` values. -/
def fits (f : Field) (size : Nat) : Prop :=
  match f.column with
  | .monostate => True
  | .vector ty _ => size ≤ ty.maxSize

instance (f : Field) (size : Nat) : Decidable (f.fits size) := by
  unfold fits
  split <;> infer_instance

/-- The constructor. -/
def create (type : FieldType) (size : Nat) : Except Exn Field :=
  match h : Ty.ofTypeId type.typeId with
  | none => .ok ⟨type, .monostate, h.symm⟩
  | some ty =>
      if size ≤ ty.maxSize then
        .ok ⟨type, .vector ty (List.replicate size ty.kind.default), h.symm⟩
      else .error .lengthError

def resize (size : Nat) : EStateM Exn Field Unit := fun f =>
  match h : f.column with
  | .monostate => .ok () f
  | .vector ty vs =>
      if size ≤ ty.maxSize then
        .ok () ⟨f.type, .vector ty (Containers.resize vs size ty.kind.default),
          (congrArg Column.holds h).symm.trans f.holds⟩
      else .error .lengthError f

/-- A change of the vector of a type. -/
def put (ty : Ty) (g : List ty.Storage → List ty.Storage) : EStateM Exn Field Unit := fun f =>
  match h : f.column with
  | .monostate => .error .badVariantAccess f
  | .vector ty' vs =>
      if hty : ty' = ty then
        .ok () ⟨f.type, .vector ty (g (hty ▸ vs)),
          (congrArg some hty.symm).trans ((congrArg Column.holds h).symm.trans f.holds)⟩
      else .error .badVariantAccess f

def set (ty : Ty) (recordId : RecordId) (value : ty.Storage) : EStateM Exn Field Unit :=
  put ty (·.set recordId.toNat value)

def setVector (ty : Ty) (recordId : RecordId) (values : List ty.Storage) :
    EStateM Exn Field Unit :=
  put ty (copyN · recordId.toNat values)

/-- The first bytes of a value, copied over it. -/
def setPart (ty : Ty) (recordId : Nat) (first : Bytes) : EStateM Exn Field Unit :=
  put ty (·.modify recordId (ty.kind.overwrite first))

/-- `get_own_storage`: whether there is a vector to point into. -/
def getOwnStorage (ty : Ty) : EStateM Exn Field Bool := fun f =>
  match f.column with
  | .monostate => .error .badVariantAccess f
  | .vector ty' vs => if ty' = ty then .ok (vs.length ≠ 0) f else .error .badVariantAccess f

end Field

/-! ## Table -/

structure Table where
  fields : List (FieldId × Field)
  fieldNames : List (FieldId × Bytes)
  currentFieldId : FieldId
  freedom : FreedomKeeper

namespace Table

def create : Table := ⟨[], [], 0, .create⟩

/-- `find_field_from_id`, and what is done through the iterator. -/
def withField {α : Type} (fieldId : FieldId) (m : EStateM Exn Field α) : EStateM Exn Table α :=
  fun t =>
    match find t.fields fieldId with
    | none => .error (.exception "invalid field_id") t
    | some f =>
        match m f with
        | .ok a f => .ok a { t with fields := assign t.fields fieldId f }
        | .error e f => .error e { t with fields := assign t.fields fieldId f }

def checkRecordId (recordId : RecordId) : EStateM Exn Table Unit := do
  let t ← get
  when (t.freedom.isUsed recordId = false) (throw (.exception "update: invalid record_id"))

def findField (t : Table) (name : Bytes) : FieldId :=
  match t.fieldNames.find? (·.2 = name) with
  | none => 0
  | some entry => entry.1

def addField (name : Bytes) (type : FieldType) : EStateM Exn Table Unit := do
  let t ← get
  when (t.findField name ≠ 0) (throw (.exception "add_field: name already used"))
  when (t.currentFieldId = 65535) (throw (.exception "add_field: reached maximum field count"))
  modify fun t => { t with currentFieldId := t.currentFieldId + 1 }
  -- the constructor of the field may throw, behind the increment
  let t ← get
  match Field.create type t.freedom.getSize with
  | .error e => throw e
  | .ok field =>
      modify fun t => { t with fields := tryEmplace t.fields t.currentFieldId field
                               fieldNames := tryEmplace t.fieldNames t.currentFieldId name }

def dropField (fieldId : FieldId) : EStateM Exn Table Unit := do
  let t ← get
  when (find t.fields fieldId).isNone (throw (.exception "drop_field: invalid field_id"))
  modify fun t => { t with fieldNames := erase t.fieldNames fieldId
                           fields := erase t.fields fieldId }

/-- The loop over the fields: those that were resized, and how it ended. -/
def resizeAll (size : Nat) : List (FieldId × Field) → List (FieldId × Field) × Option Exn
  | [] => ([], none)
  | (fieldId, f) :: fields =>
      match Field.resize size f with
      | .ok _ f =>
          let rest := resizeAll size fields
          ((fieldId, f) :: rest.1, rest.2)
      | .error e f => ((fieldId, f) :: fields, some e)

def resizeFields (size : Nat) : EStateM Exn Table Unit := do
  let t ← get
  let resized := resizeAll size t.fields
  set { t with fields := resized.1 }
  match resized.2 with
  | none => pure ()
  | some e => throw e

/-- `while (freedom.get_size() <= record_id) freedom.push_back()`, with as many
rounds as there are records to add. -/
def pushBackGo (recordId : Int) : Nat → FreedomKeeper → FreedomKeeper
  | 0, k => k
  | fuel + 1, k => if k.getSize ≤ recordId then pushBackGo recordId fuel k.pushBack else k

def pushBackUntil (recordId : Int) (k : FreedomKeeper) : FreedomKeeper :=
  pushBackGo recordId (recordId + 1 - k.getSize).toNat k

def insertRecord (recordId : RecordId) : EStateM Exn Table Unit := do
  let t ← get
  if recordId ≥ t.freedom.getSize then
    when (recordId + 1 ≥ 2 ^ 63) (throw .undefined)
    resizeFields (recordId + 1).toNat
    modify fun t => { t with freedom := pushBackUntil recordId t.freedom }
  else
    when (t.freedom.isFree recordId = false)
      (throw (.exception "insert: record_id already in use"))
  modify fun t => { t with freedom := t.freedom.use recordId }

def deleteRecord (recordId : RecordId) : EStateM Exn Table Unit := do
  let t ← get
  when (t.freedom.isUsed recordId = false) (throw (.exception
    "joedb/interpreted/Table.cpp:63:delete_record:!(freedom.is_used(record_id))"))
  modify fun t => { t with freedom := t.freedom.free recordId }

/-- The loop of `insert_vector`. It does not get behind the largest `index_t`. -/
def insertRecords (recordId : RecordId) : Nat → EStateM Exn Table Unit
  | 0 => pure ()
  | size + 1 => do
      insertRecord recordId
      insertRecords (recordId + 1) size

/-- `freedom.use_vector`. -/
def useVector (recordId : RecordId) (size : Nat) : EStateM Exn Table Unit := fun t =>
  match t.freedom.useVector64 recordId size with
  | .ok freedom => .ok () { t with freedom := freedom }
  | .error e => .error e t

def insertVector (recordId : RecordId) (size : Nat) : EStateM Exn Table Unit := do
  let t ← get
  when (t.freedom.isFreeVector recordId size = false) (throw (.exception
    "joedb/interpreted/Table.cpp:71:insert_vector:!(freedom.is_free_vector(record_id, size))"))
  if recordId = t.freedom.getSize then
    -- a sum that does not fit makes nothing larger
    modify fun t =>
      { t with freedom := t.freedom.resize (word (t.freedom.getSize + size)).toNat }
    let t ← get
    resizeFields t.freedom.getSize
    useVector recordId size
  else insertRecords recordId size

def deleteVector (recordId : RecordId) (size : Nat) : EStateM Exn Table Unit := do
  let t ← get
  when (t.freedom.isUsedVector recordId size = false) (throw (.exception
    "joedb/interpreted/Table.cpp:90:delete_vector:!(freedom.is_used_vector(record_id, size))"))
  modify fun t => { t with freedom := t.freedom.freeVector recordId size }

def update (ty : Ty) (recordId : RecordId) (fieldId : FieldId) (value : ty.Arg) :
    EStateM Exn Table Unit := do
  withField fieldId (pure ())
  checkRecordId recordId
  withField fieldId (Field.set ty recordId value.val)

def updateVector (ty : Ty) (recordId : RecordId) (fieldId : FieldId)
    (values : List ty.Storage) : EStateM Exn Table Unit := do
  withField fieldId (pure ())
  if values.length = 0 then pure ()
  else
    checkRecordId recordId
    checkRecordId (recordId + values.length - 1)
    withField fieldId (Field.setVector ty recordId values)

/-- `get_own_storage` from record 0, with its capacity. -/
def getOwnStorage (ty : Ty) (fieldId : FieldId) : EStateM Exn Table (Option Nat) := do
  let t ← get
  let own ← withField fieldId (Field.getOwnStorage ty)
  pure (if own then some t.freedom.getSize else none)

end Table

/-! ## Database_Schema -/

structure Database where
  tables : List (TableId × Table)
  tableNames : List (TableId × Bytes)
  currentTableId : TableId
  maxRecordId : RecordId

/-- The bytes of a name, in a message. -/
def messageText (s : Bytes) : String := String.ofList (s.map fun b => Char.ofNat b.toNat)

def isLetter (c : UInt8) : Bool := (97 ≤ c ∧ c ≤ 122) ∨ (65 ≤ c ∧ c ≤ 90)

def isNumber (c : UInt8) : Bool := 48 ≤ c ∧ c ≤ 57

/-- `'_'`. -/
def underscore : UInt8 := 95

/-- The loop of `is_identifier`. -/
def isIdentifierGo : UInt8 → Bytes → Bool
  | _, [] => true
  | previous, c :: s =>
      if c ≠ underscore ∧ !isLetter c ∧ !isNumber c then false
      else if c = underscore ∧ previous = underscore then false
      else isIdentifierGo c s

def isIdentifier : Bytes → Bool
  | [] => false
  | c :: s => if isNumber c then false else isIdentifierGo 0 (c :: s)

namespace Database

def create (maxRecordId : RecordId) : Database := ⟨[], [], 0, maxRecordId⟩

def checkIdentifier (message : String) (name : Bytes) : EStateM Exn Database Unit :=
  when (isIdentifier name = false)
    (throw (.exception (message ++ ": invalid identifier: " ++ messageText name)))

/-- `get_table`, and what is done to the table. -/
def withTable {α : Type} (tableId : TableId) (m : EStateM Exn Table α) :
    EStateM Exn Database α := fun db =>
  match find db.tables tableId with
  | none => .error (.exception s!"get_table: invalid table_id: {tableId.toNat}") db
  | some t =>
      match m t with
      | .ok a t => .ok a { db with tables := assign db.tables tableId t }
      | .error e t => .error e { db with tables := assign db.tables tableId t }

/-- `find_table`. -/
def findTable (db : Database) (name : Bytes) : TableId :=
  match db.tableNames.find? (·.2 = name) with
  | none => 0
  | some entry => entry.1

def createTable (name : Bytes) : EStateM Exn Database Unit := do
  checkIdentifier "create_table" name
  let db ← get
  when (db.findTable name ≠ 0)
    (throw (.exception ("create_table: name already used: " ++ messageText name)))
  when (db.currentTableId = 65535)
    (throw (.exception "create_table: reached maximum table count"))
  modify fun db => { db with currentTableId := db.currentTableId + 1 }
  modify fun db => { db with tables := tryEmplace db.tables db.currentTableId .create
                             tableNames := tryEmplace db.tableNames db.currentTableId name }

def dropTable (tableId : TableId) : EStateM Exn Database Unit := do
  let db ← get
  when (find db.tables tableId).isNone (throw (.exception "drop_table: invalid table_id"))
  modify fun db => { db with tableNames := erase db.tableNames tableId
                             tables := erase db.tables tableId }

def renameTable (tableId : TableId) (name : Bytes) : EStateM Exn Database Unit := do
  checkIdentifier "rename_table" name
  let db ← get
  when (db.findTable name ≠ 0)
    (throw (.exception ("rename_table: name already used: " ++ messageText name)))
  withTable tableId (pure ())
  modify fun db => { db with tableNames := insertOrAssign db.tableNames tableId name }

def addField (tableId : TableId) (name : Bytes) (type : FieldType) :
    EStateM Exn Database Unit := do
  checkIdentifier "add_field" name
  withTable tableId (Table.addField name type)

def dropField (tableId : TableId) (fieldId : FieldId) : EStateM Exn Database Unit :=
  withTable tableId (Table.dropField fieldId)

/-- What `rename_field` does with the table. -/
def renameFieldOf (fieldId : FieldId) (name : Bytes) : EStateM Exn Table Unit := do
  let t ← get
  when (find t.fieldNames fieldId).isNone
    (throw (.exception "rename_field: invalid field_id"))
  when (t.findField name ≠ 0)
    (throw (.exception ("rename_field: name already used: " ++ messageText name)))
  modify fun t => { t with fieldNames := assign t.fieldNames fieldId name }

def renameField (tableId : TableId) (fieldId : FieldId) (name : Bytes) :
    EStateM Exn Database Unit := do
  checkIdentifier "rename_field" name
  withTable tableId (renameFieldOf fieldId name)

/-! ## Records and values -/

def insertInto (tableId : TableId) (recordId : RecordId) : EStateM Exn Database Unit := do
  let db ← get
  when (recordId < 0 ∨ (db.maxRecordId ≥ 0 ∧ recordId > db.maxRecordId))
    (throw (.exception "insert_into: too big"))
  withTable tableId (Table.insertRecord recordId)

def insertVector (tableId : TableId) (recordId : RecordId) (size : Nat) :
    EStateM Exn Database Unit := do
  let db ← get
  when (db.maxRecordId ≥ 0 ∧ ¬(recordId < db.maxRecordId ∧ size < db.maxRecordId))
    (throw (.exception ("joedb/interpreted/Database.cpp:32:insert_vector:"
      ++ "!(record_id < max_record_id && size < size_t(max_record_id))")))
  withTable tableId (Table.insertVector recordId size)

def deleteFrom (tableId : TableId) (recordId : RecordId) : EStateM Exn Database Unit :=
  withTable tableId (Table.deleteRecord recordId)

def deleteVector (tableId : TableId) (recordId : RecordId) (size : Nat) :
    EStateM Exn Database Unit :=
  withTable tableId (Table.deleteVector recordId size)

def update (ty : Ty) (tableId : TableId) (recordId : RecordId) (fieldId : FieldId)
    (value : ty.Arg) : EStateM Exn Database Unit :=
  withTable tableId (Table.update ty recordId fieldId value)

def updateVector (ty : Ty) (tableId : TableId) (recordId : RecordId) (fieldId : FieldId)
    (values : List ty.Storage) : EStateM Exn Database Unit :=
  withTable tableId (Table.updateVector ty recordId fieldId values)

def getOwnStorage (ty : Ty) (tableId : TableId) (fieldId : FieldId) :
    EStateM Exn Database (Option Nat) :=
  withTable tableId (Table.getOwnStorage ty fieldId)

/-- Assignments through the pointer that `get_own_storage` gave. -/
def storeOwn (ty : Ty) (tableId : TableId) (fieldId : FieldId) (recordId : Nat)
    (values : List ty.Storage) (db : Database) : Database :=
  after (withTable tableId (Table.withField fieldId (Field.setVector ty recordId values))) db

def storePart (ty : Ty) (tableId : TableId) (fieldId : FieldId) (recordId : Nat)
    (first : Bytes) (db : Database) : Database :=
  after (withTable tableId (Table.withField fieldId (Field.setPart ty recordId first))) db

/-- The operation that a `Writable` is told. What a `Database` does not override
does nothing. -/
def call : Op → EStateM Exn Database Unit
  | .createTable name => createTable name
  | .dropTable t => dropTable t
  | .renameTable t name => renameTable t name
  | .addField t name type => addField t name type
  | .dropField t f => dropField t f
  | .renameField t f name => renameField t f name
  | .custom _ => pure ()
  | .comment _ => pure ()
  | .timestamp _ => pure ()
  | .validData => pure ()
  | .insertInto t r => insertInto t r
  | .deleteFrom t r => deleteFrom t r
  | .insertVector t r size => insertVector t r size
  | .deleteVector t r size => deleteVector t r size
  | .update ty t r f v => update ty t r f v
  | .updateVector ty t r f vs => updateVector ty t r f vs
  | .writeBlob _ => pure ()

def asWritable : Writable Database where
  getPosition _ := 0
  startWriting _ := pure ()
  endWriting _ := pure ()
  softCheckpoint := pure ()
  call := call
  ownStorage := getOwnStorage
  storeOwn := storeOwn
  storePart := storePart
  onBlob _ := pure ()
  wantsBlobData _ := false

end Database

end Joedb
