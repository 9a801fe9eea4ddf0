import Joedb.Interpreted.Database
import Joedb.Journal.Writable

/-!
# Packing

`pack` replays a journal into a database and, beside it, the schema operations of the
journal into another `Writable`; then it dumps the records of the database behind them.
A run of used records becomes one insertion, and one update for each field.

Both loops over the records of a table are bounded by the size of the table. The outer
one has as many rounds as there are records: a round passes over one at least.
-/

namespace Joedb

open ByteFile Containers StateExcept

/-! ## Selective_Writable -/

/-- The bits of `Selective_Writable::Mode`. -/
def Mode.schema : UInt8 := 1

def Mode.data : UInt8 := 2

def Mode.information : UInt8 := 4

/-- The bit that an operation goes by. -/
def Op.modeBit : Op → UInt8
  | createTable _ => Mode.schema
  | dropTable _ => Mode.schema
  | renameTable _ _ => Mode.schema
  | addField _ _ _ => Mode.schema
  | dropField _ _ => Mode.schema
  | renameField _ _ _ => Mode.schema
  | custom _ => Mode.schema
  | comment _ => Mode.information
  | timestamp _ => Mode.information
  | validData => Mode.information
  | insertInto _ _ => Mode.data
  | deleteFrom _ _ => Mode.data
  | insertVector _ _ _ => Mode.data
  | deleteVector _ _ _ => Mode.data
  | update _ _ _ _ _ => Mode.data
  | updateVector _ _ _ _ _ => Mode.data
  | writeBlob _ => Mode.data

structure SelectiveWritable (ω : Type) where
  writable : ω
  blobFound : Bool

namespace SelectiveWritable

variable {ω : Type}

/-- A call of the `Writable` behind it. -/
def pass {α : Type} : EStateM Exn ω α → EStateM Exn (SelectiveWritable ω) α :=
  onPart (·.writable) fun s writable => { s with writable }

variable (W : Writable ω) (mode : UInt8)

/-- The functions that test the mode. -/
def select (op : Op) : EStateM Exn (SelectiveWritable ω) Unit :=
  when (mode &&& op.modeBit ≠ 0) (pass (W.call op))

/-- `Writable::update_vector`, which is not overridden. -/
def updateEach (ty : Ty) (tableId : TableId) (fieldId : FieldId) :
    RecordId → List ty.Storage → EStateM Exn (SelectiveWritable ω) Unit
  | _, [] => pure ()
  | recordId, v :: vs => do
      select W mode (.update ty tableId recordId fieldId (ty.toArg v))
      updateEach ty tableId fieldId (recordId + 1) vs

/-- Nor is `write_blob`. -/
def call : Op → EStateM Exn (SelectiveWritable ω) Unit
  | .updateVector ty t r f vs => updateEach W mode ty t f r vs
  | .writeBlob _ => pure ()
  | op => select W mode op

def asWritable : Writable (SelectiveWritable ω) where
  getPosition s := W.getPosition s.writable
  startWriting position := pass (W.startWriting position)
  endWriting position := pass (W.endWriting position)
  softCheckpoint := pass W.softCheckpoint
  call := call W mode
  ownStorage _ _ _ := pure none
  storeOwn _ _ _ _ _ s := s
  storePart _ _ _ _ _ s := s
  onBlob _ := modify fun s => { s with blobFound := true }
  wantsBlobData _ := false

end SelectiveWritable

/-! ## Multiplexer -/

namespace Multiplexer

variable {φ ω : Type}

def fst {α : Type} : EStateM Exn φ α → EStateM Exn (φ × ω) α :=
  onPart (·.1) fun s v => (v, s.2)

def snd {α : Type} : EStateM Exn ω α → EStateM Exn (φ × ω) α :=
  onPart (·.2) fun s w => (s.1, w)

/-- `MULTIPLEX`, for two of them. -/
def both (m : EStateM Exn φ Unit) (n : EStateM Exn ω Unit) : EStateM Exn (φ × ω) Unit := do
  fst m
  snd n

variable (V : Writable φ) (W : Writable ω)

def call : Op → EStateM Exn (φ × ω) Unit
  | .writeBlob data => do
      let s ← get
      when (V.wantsBlobData s.1) (fst (V.call (.writeBlob data)))
      when (W.wantsBlobData s.2) (snd (W.call (.writeBlob data)))
  | op => both (V.call op) (W.call op)

/-- The first that is not null. -/
def ownStorage (ty : Ty) (tableId : TableId) (fieldId : FieldId) :
    EStateM Exn (φ × ω) (Option Nat) := do
  let own ← fst (V.ownStorage ty tableId fieldId)
  match own with
  | some capacity => pure (some capacity)
  | none => snd (W.ownStorage ty tableId fieldId)

/-- The pointer belongs to whoever gave it. -/
def storeOwn (ty : Ty) (tableId : TableId) (fieldId : FieldId) (recordId : Nat)
    (values : List ty.Storage) (s : φ × ω) : φ × ω :=
  match V.ownStorage ty tableId fieldId s.1 with
  | .ok (some _) _ => (V.storeOwn ty tableId fieldId recordId values s.1, s.2)
  | _ => (s.1, W.storeOwn ty tableId fieldId recordId values s.2)

def storePart (ty : Ty) (tableId : TableId) (fieldId : FieldId) (recordId : Nat)
    (first : Bytes) (s : φ × ω) : φ × ω :=
  match V.ownStorage ty tableId fieldId s.1 with
  | .ok (some _) _ => (V.storePart ty tableId fieldId recordId first s.1, s.2)
  | _ => (s.1, W.storePart ty tableId fieldId recordId first s.2)

def asWritable : Writable (φ × ω) where
  getPosition s := if V.getPosition s.1 > 0 then V.getPosition s.1 else W.getPosition s.2
  startWriting position := both (V.startWriting position) (W.startWriting position)
  endWriting position := both (V.endWriting position) (W.endWriting position)
  softCheckpoint := both V.softCheckpoint W.softCheckpoint
  call := call V W
  ownStorage := ownStorage V W
  storeOwn := storeOwn V W
  storePart := storePart V W
  onBlob blob := both (V.onBlob blob) (W.onBlob blob)
  wantsBlobData s := V.wantsBlobData s.1 || W.wantsBlobData s.2

end Multiplexer

/-! ## Readable -/

namespace Database

def getTables (db : Database) : List (TableId × Bytes) := db.tableNames

def getTable (db : Database) (tableId : TableId) : Except Exn Table :=
  match find db.tables tableId with
  | none => .error (.exception s!"get_table: invalid table_id: {tableId.toNat}")
  | some t => .ok t

def getFields (db : Database) (tableId : TableId) : Except Exn (List (FieldId × Bytes)) :=
  (db.getTable tableId).map (·.fieldNames)

def getFieldType (db : Database) (tableId : TableId) (fieldId : FieldId) : FieldType :=
  match find db.tables tableId with
  | none => .plain 0
  | some t =>
      match find t.fields fieldId with
      | none => .plain 0
      | some f => f.type

def getFreedom (db : Database) (tableId : TableId) : Except Exn FreedomKeeper :=
  (db.getTable tableId).map (·.freedom)

/-- `Field::get_own_storage`, and all that lies behind the pointer. -/
def storageOf (ty : Ty) (f : Field) (recordId : Nat) : Except Exn (List ty.Storage) :=
  match f.column with
  | .monostate => .error .badVariantAccess
  | .vector ty' vs =>
      if hty : ty' = ty then .ok ((hty ▸ vs).drop recordId) else .error .badVariantAccess

/-- The address of the reference that a getter returns. -/
def getStorage (db : Database) (ty : Ty) (tableId : TableId) (recordId : Nat)
    (fieldId : FieldId) : Except Exn (List ty.Storage) :=
  match db.getTable tableId with
  | .error e => .error e
  | .ok t =>
      match find t.fields fieldId with
      | none => .error (.exception "invalid field_id")
      | some f => storageOf ty f recordId

theorem getTable_eq {db : Database} {tableId : TableId} {t : Table}
    (hfind : find db.tables tableId = some t) : db.getTable tableId = .ok t := by
  rw [getTable, hfind]

theorem getFields_eq {db : Database} {tableId : TableId} {t : Table}
    (hfind : find db.tables tableId = some t) : db.getFields tableId = .ok t.fieldNames := by
  rw [getFields, getTable_eq hfind]
  rfl

theorem getFreedom_eq {db : Database} {tableId : TableId} {t : Table}
    (hfind : find db.tables tableId = some t) : db.getFreedom tableId = .ok t.freedom := by
  rw [getFreedom, getTable_eq hfind]
  rfl

theorem getFieldType_eq {db : Database} {tableId : TableId} {t : Table} {fieldId : FieldId}
    {f : Field} (hfind : find db.tables tableId = some t)
    (hfield : find t.fields fieldId = some f) : db.getFieldType tableId fieldId = f.type := by
  rw [getFieldType, hfind]
  simp only [hfield]

theorem getStorage_eq {db : Database} {tableId : TableId} {t : Table} {fieldId : FieldId}
    {f : Field} (hfind : find db.tables tableId = some t)
    (hfield : find t.fields fieldId = some f) {ty : Ty} {vs : List ty.Storage}
    (hcolumn : f.column = .vector ty vs) (recordId : Nat) :
    db.getStorage ty tableId recordId fieldId = .ok (vs.drop recordId) := by
  rw [getStorage, getTable_eq hfind]
  simp only [hfield, storageOf, hcolumn, dif_pos]

end Database

/-! ## dump_data -/

namespace Dump

/-- `while (record_id < table_size && !freedom_keeper.is_used(record_id))`, with
`left` records to go. -/
def skipFree (k : FreedomKeeper) : Nat → Nat → Nat
  | 0, recordId => recordId
  | left + 1, recordId =>
      if k.isUsed recordId then recordId else skipFree k left (recordId + 1)

/-- The other loop: how many used records follow. -/
def countUsed (k : FreedomKeeper) : Nat → Nat → Nat
  | 0, _ => 0
  | left + 1, recordId =>
      if k.isUsed recordId then countUsed k left (recordId + 1) + 1 else 0

section Loops

variable {ω : Type} (W : Writable ω) (db : Database)

/-- A call that may throw and changes nothing. -/
def read {α : Type} : Except Exn α → EStateM Exn ω α
  | .error e => throw e
  | .ok a => pure a

/-- A `case` of the type macro. -/
def dumpField (tableId : TableId) (recordId size : Nat) (fieldId : FieldId) :
    EStateM Exn ω Unit :=
  match Ty.ofTypeId (db.getFieldType tableId fieldId).typeId with
  | none => pure ()
  | some ty => do
      let values ← read (db.getStorage ty tableId recordId fieldId)
      if size > 1 then
        W.call (.updateVector ty tableId recordId fieldId (values.take size))
      else W.call (.update ty tableId recordId fieldId (ty.toArg (values.headD ty.kind.default)))

/-- What is written for a run of used records. -/
def dumpRun (tableId : TableId) (recordId size : Nat) : EStateM Exn ω Unit := do
  when (size > 1) (W.call (.insertVector tableId recordId size))
  when (size = 1) (W.call (.insertInto tableId recordId))
  if size > 0 then
    let fields ← read (db.getFields tableId)
    fields.forM fun field => dumpField W db tableId recordId size field.1
  else pure ()

/-- The loop over the records of a table. -/
def dumpRecords (tableId : TableId) (k : FreedomKeeper) : Nat → Nat → EStateM Exn ω Unit
  | 0, _ => pure ()
  | fuel + 1, recordId =>
      if recordId < k.getSize then do
        let recordId := skipFree k (k.getSize - recordId) recordId
        let size := countUsed k (k.getSize - recordId) recordId
        dumpRun W db tableId recordId size
        dumpRecords tableId k fuel (recordId + size)
      else pure ()

def dumpTable (tableId : TableId) : EStateM Exn ω Unit := do
  let k ← read (db.getFreedom tableId)
  dumpRecords W db tableId k k.getSize 0

def dumpData : EStateM Exn ω Unit := do
  db.getTables.forM fun table => dumpTable W db table.1
  W.softCheckpoint

end Loops

end Dump

/-! ## pack -/

namespace Replay

variable {ω : Type}

def rawPlayUntilCheckpoint (W : Writable ω) : Play ω Unit := do
  let s ← get
  rawPlayUntil W s.checkpoint

end Replay

/-- The two that `pack` plays into. -/
def packInto {ω : Type} (W : Writable ω) : Writable (Database × SelectiveWritable ω) :=
  Multiplexer.asWritable Database.asWritable (SelectiveWritable.asWritable W Mode.schema)

def pack {ω : Type} (W : Writable ω) : Play ω Unit := fun s =>
  match Replay.rawPlayUntilCheckpoint (packInto W)
      ⟨s.journal, (.create (-1), ⟨s.writable, false⟩)⟩ with
  | .error e r => .error e ⟨r.journal, r.writable.2.writable⟩
  | .ok _ r =>
      if r.writable.2.blobFound then
        .error (.exception "can't pack blobs") ⟨r.journal, r.writable.2.writable⟩
      else Replay.tell (Dump.dumpData W r.writable.1) ⟨r.journal, r.writable.2.writable⟩

/-- Open a file, open another for the packed journal, and pack. -/
def packFile (input output : File) : Except Exn Journal :=
  match Journal.openReadonly input .none false with
  | .error e => .error e
  | .ok j =>
      match Journal.openWritable output .none with
      | .error e => .error e
      | .ok w =>
          match pack Journal.asWritable ⟨j, w⟩ with
          | .error e _ => .error e
          | .ok _ s => .ok s.writable

end Joedb
