import Joedb.Lib.SqlText
import Joedb.Ui.Json
import Joedb.Journal.EncodedFile

/-!
# SQL

`SQL_Dump_Writable` turns the events of a journal into SQL: a multiplexer of a `SQL_Writable`,
which writes, and a schema, which has the names that are written for ids. The line comes first.
When the schema refuses an event, the dump ends there, and the line is in the output already.

The output is kept in pieces that say what they come from. This is the model's own addition: the
stream has their texts only, one behind the other. What an event without a statement of its own
writes is one piece, with its dashes and its newline.
-/

namespace Joedb

open ByteFile Containers StateExcept

/-! ## get_time_string -/

/-- What `gmtime` says of a day. -/
structure Date where
  year : Int
  month : Int
  day : Int
  deriving DecidableEq

/-- The date so many days from the first of January 1970, in the Gregorian calendar. Eras have
400 years, and a year begins with its March. -/
def Date.ofDays (days : Int) : Date :=
  let era := (days + 719468) / 146097
  let dayOfEra := (days + 719468) % 146097
  let yearOfEra :=
    (dayOfEra - dayOfEra / 1460 + dayOfEra / 36524 - dayOfEra / 146096) / 365
  let dayOfYear := dayOfEra - (365 * yearOfEra + yearOfEra / 4 - yearOfEra / 100)
  let monthFromMarch := (5 * dayOfYear + 2) / 153
  let month := if monthFromMarch < 10 then monthFromMarch + 3 else monthFromMarch - 9
  ⟨400 * era + yearOfEra + if month ≤ 2 then 1 else 0, month,
    dayOfYear - (153 * monthFromMarch + 2) / 5 + 1⟩

/-- A number of at least two digits. -/
def twoDigits (n : Int) : Bytes := if n < 10 then ascii "0" ++ decimal n else decimal n

/-- An `int` has the years, counted from 1900. -/
def getTimeString (timestamp : BitVec 64) : Bytes :=
  let date := Date.ofDays (timestamp.toInt / 86400)
  let second := timestamp.toInt % 86400
  if -2 ^ 31 ≤ date.year - 1900 ∧ date.year - 1900 < 2 ^ 31 then
    decimal date.year ++ ascii "-" ++ twoDigits date.month ++ ascii "-" ++ twoDigits date.day ++
      ascii " " ++ twoDigits (second / 3600) ++ ascii ":" ++ twoDigits (second / 60 % 60) ++
      ascii ":" ++ twoDigits (second % 60) ++ ascii " GMT"
  else ascii "bad timestamp"

example : getTimeString 951782399#64 = ascii "2000-02-28 23:59:59 GMT" := by decide +kernel

/-! ## Readable -/

namespace Database

def getTableName (db : Database) (tableId : TableId) : Bytes :=
  (find db.tableNames tableId).getD (ascii "__unknown_table__")

/-- The exception for an unknown table is caught. -/
def getFieldName (db : Database) (tableId : TableId) (fieldId : FieldId) : Bytes :=
  ((find db.tables tableId).bind fun t => find t.fieldNames fieldId).getD
    (ascii "__unknown_field__")

/-- What a `Database_Schema` overrides of a `Writable`. -/
def schemaCall : Op → EStateM Exn Database Unit
  | .createTable name => createTable name
  | .dropTable t => dropTable t
  | .renameTable t name => renameTable t name
  | .addField t name type => addField t name type
  | .dropField t f => dropField t f
  | .renameField t f name => renameField t f name
  | _ => pure ()

end Database

/-! ## SQL_Writable -/

/-- What a piece of the output comes from. -/
inductive Role where
  /-- The program's own text, and numbers. -/
  | code
  /-- A comment, a custom or a timestamp: all that it writes. -/
  | remark
  | name
  | value
  deriving DecidableEq, Repr

structure Piece where
  role : Role
  text : Bytes
  deriving DecidableEq, Repr

namespace Piece

def code (s : String) : Piece := ⟨.code, ascii s⟩

def number (n : Int) : Piece := ⟨.code, decimal n⟩

def name (s : Bytes) : Piece := ⟨.name, s⟩

/-- A line that begins with two dashes of the program's own. -/
def remark (head : String) (s : Bytes) : Piece := ⟨.remark, ascii head ++ s ++ [10]⟩

/-- `out` as it is. -/
def texts (ps : List Piece) : Bytes := ps.flatMap (·.text)

end Piece

/-- What was written, and how it ended. -/
structure Written where
  pieces : List Piece
  thrown : Option Exn

namespace Written

def of (pieces : List Piece) : Written := ⟨pieces, none⟩

def andThen (w w' : Written) : Written :=
  match w.thrown with
  | none => ⟨w.pieces ++ w'.pieces, w'.thrown⟩
  | some _ => w

end Written

namespace SqlWritable

open Piece

variable (F : FloatText) (blobReader : Option File) (schema : Database)

def tableName (tableId : TableId) : Piece := name (schema.getTableName tableId)

def fieldName (tableId : TableId) (fieldId : FieldId) : Piece :=
  name (schema.getFieldName tableId fieldId)

/-- A journal may have a type that the `switch` does not know. -/
def writeType (type : FieldType) : List Piece :=
  match Ty.ofTypeId type.typeId with
  | none => if type.typeId = 0 then [code "NULL"] else []
  | some .string => [code "TEXT"]
  | some .int32 => [code "INTEGER"]
  | some .int64 => [code "BIGINT"]
  | some .reference => [code "INTEGER REFERENCES ", code "\"", tableName schema type.tableId,
      code "\""]
  | some .boolean => [code "SMALLINT"]
  | some .float32 => [code "REAL"]
  | some .float64 => [code "REAL"]
  | some .int8 => [code "SMALLINT"]
  | some .int16 => [code "SMALLINT"]
  | some .blob => [code "BLOB"]

def startWriting (position : Nat) : List Piece :=
  [code "BEGIN TRANSACTION; -- checkpoint = ", number position, code "\n"]

def endWriting (position : Nat) : List Piece :=
  [code "COMMIT; --checkpoint = ", number position, code "\n\n"]

def createTable (newName : Bytes) : List Piece :=
  [code "CREATE TABLE \"", name newName, code "\"(\"__id\" INTEGER PRIMARY KEY);\n"]

def dropTable (tableId : TableId) : List Piece :=
  [code "DROP TABLE \"", tableName schema tableId, code "\";\n"]

def renameTable (tableId : TableId) (newName : Bytes) : List Piece :=
  [code "ALTER TABLE \"", tableName schema tableId, code "\" RENAME TO \"", name newName,
    code "\";\n"]

def addField (tableId : TableId) (newName : Bytes) (type : FieldType) : List Piece :=
  [code "ALTER TABLE \"", tableName schema tableId, code "\" ADD \"", name newName, code "\" "]
    ++ writeType schema type ++ [code ";\n"]

def dropField (tableId : TableId) (fieldId : FieldId) : List Piece :=
  [code "ALTER TABLE \"", tableName schema tableId, code "\" DROP COLUMN \"",
    fieldName schema tableId fieldId, code "\";\n"]

def renameField (tableId : TableId) (fieldId : FieldId) (newName : Bytes) : List Piece :=
  [code "ALTER TABLE \"", tableName schema tableId, code "\" RENAME COLUMN \"",
    fieldName schema tableId fieldId, code "\" TO \"", name newName, code "\";\n"]

def custom (name : Bytes) : List Piece := [remark "-- custom: " name]

def comment (comment : Bytes) : List Piece := [remark "-- " comment]

def timestamp (timestamp : BitVec 64) : List Piece := [remark "-- " (getTimeString timestamp)]

def validData : List Piece := [code "-- valid data\n"]

def insertInto (tableId : TableId) (recordId : RecordId) : List Piece :=
  [code "INSERT INTO \"", tableName schema tableId, code "\"(\"__id\") VALUES(", number recordId,
    code ");\n"]

def writeWhere (recordId : RecordId) : List Piece :=
  [code " WHERE \"__id\" = ", number recordId, code ";\n"]

def deleteFrom (tableId : TableId) (recordId : RecordId) : List Piece :=
  [code "DELETE FROM \"", tableName schema tableId, code "\""] ++ writeWhere recordId

def writeUpdate (tableId : TableId) (fieldId : FieldId) : List Piece :=
  [code "UPDATE \"", tableName schema tableId, code "\" SET \"", fieldName schema tableId fieldId,
    code "\" = "]

/-- The two digits of a byte. -/
def hexDigits (c : UInt8) : Bytes :=
  [getHexCharFromDigit (c >>> 4), getHexCharFromDigit (c &&& 0x0f)]

def writeSqlString (s : Bytes) : List Piece :=
  [code "X'", ⟨.value, s.flatMap hexDigits⟩, code "'"]

/-- A value in a statement, and for a blob what it says. -/
def writeValue : (ty : Ty) → ty.Storage → List Piece
  | .string, s => writeSqlString s
  | .int32, x => [number (BitVec.toInt x)]
  | .int64, x => [number (BitVec.toInt x)]
  | .reference, (r : Int) => if r < 0 then [code "NULL"] else [number r]
  | .boolean, c => [number (if Ty.toBool c = 0 then 0 else 1)]
  | .float32, x => [⟨.code, F.float32 x⟩]
  | .float64, x => [⟨.code, F.float64 x⟩]
  | .int8, x => [number (BitVec.toInt x)]
  | .int16, x => [number (BitVec.toInt x)]
  | .blob, _ => [code "\"BLOB\""]

/-- Nothing was written for a blob that could not be read, except for what comes before it. -/
def updateBlob (tableId : TableId) (recordId : RecordId) (fieldId : FieldId) (value : Blob) :
    Written :=
  match blobReader with
  | none => .of (code "-- " :: writeUpdate schema tableId fieldId ++ writeValue F .blob value
      ++ writeWhere recordId)
  | some file =>
      match file.readBlob value (2 ^ 63 - 1) with
      | .ok data => .of (writeUpdate schema tableId fieldId ++ writeSqlString data
          ++ writeWhere recordId)
      | .error e => ⟨writeUpdate schema tableId fieldId, some e⟩

def update (ty : Ty) (tableId : TableId) (recordId : RecordId) (fieldId : FieldId)
    (value : ty.Storage) : Written :=
  match ty, value with
  | .blob, value => updateBlob F blobReader schema tableId recordId fieldId value
  | ty, value => .of (writeUpdate schema tableId fieldId ++ writeValue F ty value
      ++ writeWhere recordId)

/-- The loop of `Writable::insert_vector`. -/
def insertVector (tableId : TableId) : RecordId → Nat → List Piece
  | _, 0 => []
  | recordId, size + 1 =>
      insertInto schema tableId recordId ++ insertVector tableId (recordId + 1) size

/-- The loop of `Writable::delete_vector`, from the last record to the first. -/
def deleteVector (tableId : TableId) (recordId : RecordId) : Nat → List Piece
  | 0 => []
  | size + 1 =>
      deleteFrom schema tableId (recordId + size) ++ deleteVector tableId recordId size

/-- The loop of `Writable::update_vector`. -/
def updateVector (ty : Ty) (tableId : TableId) (fieldId : FieldId) :
    RecordId → List ty.Storage → Written
  | _, [] => .of []
  | recordId, v :: vs =>
      (update F blobReader schema ty tableId recordId fieldId (ty.toArg v).val).andThen
        (updateVector ty tableId fieldId (recordId + 1) vs)

def call : Op → Written
  | .createTable name => .of (createTable name)
  | .dropTable t => .of (dropTable schema t)
  | .renameTable t name => .of (renameTable schema t name)
  | .addField t name type => .of (addField schema t name type)
  | .dropField t f => .of (dropField schema t f)
  | .renameField t f name => .of (renameField schema t f name)
  | .custom name => .of (custom name)
  | .comment comment => .of (SqlWritable.comment comment)
  | .timestamp timestamp => .of (SqlWritable.timestamp timestamp)
  | .validData => .of validData
  | .insertInto t r => .of (insertInto schema t r)
  | .deleteFrom t r => .of (deleteFrom schema t r)
  | .insertVector t r size => .of (insertVector schema t r size)
  | .deleteVector t r size => .of (deleteVector schema t r size)
  | .update ty t r f v => update F blobReader schema ty t r f v.val
  | .updateVector ty t r f vs => updateVector F blobReader schema ty t f r vs
  | .writeBlob _ => .of []

end SqlWritable

/-! ## SQL_Dump_Writable -/

structure SqlDump where
  schema : Database
  out : List Piece

namespace SqlDump

def create : SqlDump := ⟨.create (-1), []⟩

/-- The first of the two: it writes, with the schema as it is. -/
def write (written : Database → Written) : EStateM Exn SqlDump Unit := fun s =>
  let w := written s.schema
  match w.thrown with
  | none => .ok () { s with out := s.out ++ w.pieces }
  | some e => .error e { s with out := s.out ++ w.pieces }

/-- The second. -/
def inSchema : EStateM Exn Database Unit → EStateM Exn SqlDump Unit :=
  onPart (·.schema) fun s schema => { s with schema }

variable (F : FloatText) (blobReader : Option File)

def call (op : Op) : EStateM Exn SqlDump Unit := do
  write (SqlWritable.call F blobReader · op)
  inSchema (Database.schemaCall op)

/-- A schema has no storage to point into, and nobody wants the data of a blob. -/
def asWritable : Writable SqlDump where
  getPosition _ := 0
  startWriting position := write fun _ => .of (SqlWritable.startWriting position)
  endWriting position := write fun _ => .of (SqlWritable.endWriting position)
  softCheckpoint := pure ()
  call := call F blobReader
  ownStorage _ _ _ := pure none
  storeOwn _ _ _ _ _ s := s
  storePart _ _ _ _ _ s := s
  onBlob _ := pure ()
  wantsBlobData _ := false

end SqlDump

end Joedb
