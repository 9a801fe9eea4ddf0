import Joedb.Ui.SqlDump
import Joedb.Ui.Strings
import Joedb.Lib.Streams

/-!
# The dump of the interpreter

`Interpreter_Writable` writes each event as the command that makes it happen again, with names for
ids. It takes the names from a schema that hears of the event behind it, in a multiplexer: the
line is written with the names from before.

A line is made of words with one space between them. A value may have spaces of its own only if
it is a string, and a string is quoted. The name of a custom is written as it is.
-/

namespace Joedb

open ByteFile Containers StateExcept Streams

/-- `#type_id`. -/
def Ty.word : Ty → Bytes
  | .string => ascii "string"
  | .int32 => ascii "int32"
  | .int64 => ascii "int64"
  | .reference => ascii "reference"
  | .boolean => ascii "boolean"
  | .float32 => ascii "float32"
  | .float64 => ascii "float64"
  | .int8 => ascii "int8"
  | .int16 => ascii "int16"
  | .blob => ascii "blob"

/-! ## Interpreter_Writable -/

namespace InterpreterWritable

def writeBlobText (b : Blob) : Bytes := decimal b.position ++ 44 :: decimal b.size

variable (F : FloatText) (schema : Database)

/-- `write_type`. A reference is not among the rows of the macro here. -/
def writeType (type : FieldType) : Bytes :=
  if type.typeId = 0 then ascii "null"
  else if type.typeId = referenceTypeId then
    unwords [ascii "references", schema.getTableName type.tableId]
  else
    match Ty.ofTypeId type.typeId with
    | none => []
    | some ty => ty.word

/-- The functions of the type macro. -/
def writeValue : (ty : Ty) → ty.Storage → Bytes
  | .string, s => writeString s
  | .int32, x => decimal (BitVec.toInt x)
  | .int64, x => decimal (BitVec.toInt x)
  | .reference, (r : Int) => decimal r
  | .boolean, c => if Ty.toBool c = 0 then ascii "false" else ascii "true"
  | .float32, x => F.float32 x
  | .float64, x => F.float64 x
  | .int8, x => decimal (BitVec.toInt x)
  | .int16, x => decimal (BitVec.toInt x)
  | .blob, b => writeBlobText b

/-- `write_update`, and what comes behind it. -/
def writeUpdate (command : String) (t : TableId) (r : RecordId) (f : FieldId)
    (values : List Bytes) : List Bytes :=
  [ascii command, schema.getTableName t, decimal r, schema.getFieldName t f] ++ values

/-- The words that an operation is written with. -/
def words : Op → List Bytes
  | .createTable name => [ascii "create_table", name]
  | .dropTable t => [ascii "drop_table", schema.getTableName t]
  | .renameTable t name => [ascii "rename_table", schema.getTableName t, name]
  | .addField t name type =>
      [ascii "add_field", schema.getTableName t, name, writeType schema type]
  | .dropField t f => [ascii "drop_field", schema.getTableName t, schema.getFieldName t f]
  | .renameField t f name =>
      [ascii "rename_field", schema.getTableName t, schema.getFieldName t f, name]
  | .custom name => [ascii "custom", name]
  | .comment comment => [ascii "comment", writeString comment]
  | .timestamp timestamp =>
      [ascii "timestamp", decimal timestamp.toInt, getTimeString timestamp]
  | .validData => [ascii "valid_data"]
  | .insertInto t r => [ascii "insert_into", schema.getTableName t, decimal r]
  | .deleteFrom t r => [ascii "delete_from", schema.getTableName t, decimal r]
  | .insertVector t r size =>
      [ascii "insert_vector", schema.getTableName t, decimal r, decimal size]
  | .deleteVector t r size =>
      [ascii "delete_vector", schema.getTableName t, decimal r, decimal size]
  | .update ty t r f v => writeUpdate schema "update" t r f [writeValue F ty v.val]
  | .updateVector ty t r f vs =>
      writeUpdate schema "update_vector" t r f (decimal vs.length :: vs.map (writeValue F ty))
  | .writeBlob data => [ascii "write_blob", writeString data]

def line (ws : List Bytes) : Bytes := unwords ws ++ [10]

def call (op : Op) : Bytes := line (words F schema op)

def onBlob (b : Blob) : Bytes := line [ascii "#", ascii "Blob:", writeBlobText b]

/-- `std::endl`. -/
def softCheckpoint : Bytes := line []

end InterpreterWritable

/-! ## The multiplexer -/

/-- A `Database_Schema` by itself: the rest of it is a `Dummy_Writable`. -/
def Database.schemaWritable : Writable Database where
  getPosition _ := 0
  startWriting _ := pure ()
  endWriting _ := pure ()
  softCheckpoint := pure ()
  call := Database.schemaCall
  ownStorage _ _ _ := pure none
  storeOwn _ _ _ _ _ s := s
  storePart _ _ _ _ _ s := s
  onBlob _ := pure ()
  wantsBlobData _ := false

/-- The schema, and the text. -/
structure InterpreterDump where
  schema : Database
  out : Bytes

namespace InterpreterDump

def create (maxRecordId : RecordId) : InterpreterDump := ⟨.create maxRecordId, []⟩

/-- The first of the two writes, with the schema as it is. -/
def write (text : Database → Bytes) : EStateM Exn InterpreterDump Unit :=
  modify fun s => { s with out := s.out ++ text s.schema }

/-- The second. -/
def inSchema {α : Type} : EStateM Exn Database α → EStateM Exn InterpreterDump α :=
  onPart (·.schema) fun s schema => { s with schema }

variable (F : FloatText) (blobWanted : Bool) (S : Writable Database)

def call : Op → EStateM Exn InterpreterDump Unit
  | .writeBlob data => do
      let s ← get
      when (blobWanted = true) (write fun schema =>
        InterpreterWritable.call F schema (.writeBlob data))
      when (S.wantsBlobData s.schema = true) (inSchema (S.call (.writeBlob data)))
  | op => do
      write fun schema => InterpreterWritable.call F schema op
      inSchema (S.call op)

/-- `Interpreter_Dump_Writable`, where `S` is a schema, and the `writing_multiplexer` of an
`Interpreted_File`, where it is a database. -/
def asWritable : Writable InterpreterDump where
  getPosition s := S.getPosition s.schema
  startWriting position := inSchema (S.startWriting position)
  endWriting position := inSchema (S.endWriting position)
  softCheckpoint := do
    write fun _ => InterpreterWritable.softCheckpoint
    inSchema S.softCheckpoint
  call := call F blobWanted S
  ownStorage ty t f := inSchema (S.ownStorage ty t f)
  storeOwn ty t f r vs s := { s with schema := S.storeOwn ty t f r vs s.schema }
  storePart ty t f r first s := { s with schema := S.storePart ty t f r first s.schema }
  onBlob b := do
    write fun _ => InterpreterWritable.onBlob b
    inSchema (S.onBlob b)
  wantsBlobData s := blobWanted || S.wantsBlobData s.schema

end InterpreterDump

end Joedb
