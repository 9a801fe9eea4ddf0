import Joedb.Ui.InterpreterDump
import Joedb.Ui.Telling
import Joedb.Packing.Pack
import Joedb.Ui.Dump

/-!
# The command interpreter

`main_loop` takes a text line by line and asks its processors, one after the other, what to do with
a line. A processor reads words and values from the line, finds tables and fields by their names
in a `Readable`, and calls a `Writable`. What it reads of a line it does not give back, and what
is left of a line is ignored.

What is written to the output is not here. Three things of the world are parameters: the files
that can be included, the time, and how the text of a float is read.
-/

namespace Joedb

open ByteFile Containers StateExcept Streams

/-- `operator>>` of the two types of floats: the value, what is left, and the `failbit`. -/
structure FloatReading where
  float32 : Bytes → BitVec 32 × Input
  float64 : Bytes → BitVec 64 × Input

/-- The words of the commands. -/
inductive Command where
  | about | echo | prompt | help | includeFile | quit | abort
  | comment | timestamp | validData | flush | softCheckpoint | checkpoint | hardCheckpoint
  | writeBlob
  | table | record | schema | dump | sql | json
  | appendInto | insertInto | deleteFrom | insertVector | deleteVector | update | updateVector
  | createTable | dropTable | renameTable | addField | dropField | renameField | custom
  deriving DecidableEq, Repr

namespace Command

def all : List Command :=
  [about, echo, prompt, help, includeFile, quit, abort,
    comment, timestamp, validData, flush, softCheckpoint, checkpoint, hardCheckpoint, writeBlob,
    table, record, schema, dump, sql, json,
    appendInto, insertInto, deleteFrom, insertVector, deleteVector, update, updateVector,
    createTable, dropTable, renameTable, addField, dropField, renameField, custom]

def word : Command → Bytes
  | about => ascii "about"
  | echo => ascii "echo"
  | prompt => ascii "prompt"
  | help => ascii "help"
  | includeFile => ascii "include"
  | quit => ascii "quit"
  | abort => ascii "abort"
  | comment => ascii "comment"
  | timestamp => ascii "timestamp"
  | validData => ascii "valid_data"
  | flush => ascii "flush"
  | softCheckpoint => ascii "soft_checkpoint"
  | checkpoint => ascii "checkpoint"
  | hardCheckpoint => ascii "hard_checkpoint"
  | writeBlob => ascii "write_blob"
  | table => ascii "table"
  | record => ascii "record"
  | schema => ascii "schema"
  | dump => ascii "dump"
  | sql => ascii "sql"
  | json => ascii "json"
  | appendInto => ascii "append_into"
  | insertInto => ascii "insert_into"
  | deleteFrom => ascii "delete_from"
  | insertVector => ascii "insert_vector"
  | deleteVector => ascii "delete_vector"
  | update => ascii "update"
  | updateVector => ascii "update_vector"
  | createTable => ascii "create_table"
  | dropTable => ascii "drop_table"
  | renameTable => ascii "rename_table"
  | addField => ascii "add_field"
  | dropField => ascii "drop_field"
  | renameField => ascii "rename_field"
  | custom => ascii "custom"

def ofWord (w : Bytes) : Option Command := all.find? (·.word = w)

end Command

inductive Status where
  | ok | done | quit | abort | notFound
  deriving DecidableEq, Repr

/-! ## type_io.h -/

namespace TextReading

/-- A signed integer of so many bytes. -/
def readSigned (size : Nat) (i : Input) : BitVec (8 * size) × Input :=
  let r := i.readInt (-2 ^ (8 * size - 1)) (2 ^ (8 * size - 1) - 1)
  (BitVec.ofInt (8 * size) r.1, r.2)

/-- An `int`, and a conversion. -/
def readInt8 (i : Input) : BitVec 8 × Input :=
  let r := i.readInt (-2 ^ 31) (2 ^ 31 - 1)
  (BitVec.ofInt 8 r.1, r.2)

/-- `>>` of a `Record_Id`: a failure leaves it as it is. -/
def readRecordId (before : RecordId) (i : Input) : RecordId × Input :=
  let r := i.readInt (-2 ^ 63) (2 ^ 63 - 1)
  (if r.2.failbit then before else r.1, r.2)

/-- `>>` of a `size_t`. -/
def readSize (i : Input) : Nat × Input := i.readUnsigned 64

def readBoolean (i : Input) : BitVec 8 × Input :=
  let r := i.readWord
  if r.1 = ascii "true" ∨ r.1 = ascii "1" then (1, r.2)
  else if r.1 = ascii "false" ∨ r.1 = ascii "0" then (0, r.2)
  else (0, { r.2 with failbit := true })

def readText (i : Input) : Bytes × Input :=
  if i.failbit then ([], i)
  else
    let r := readString i.rest
    (r.result, ⟨r.rest, r.failbit⟩)

def readBlobText (i : Input) : Blob × Input :=
  let position := i.readInt (-2 ^ 63) (2 ^ 63 - 1)
  let size := position.2.ignoreOne.readInt (-2 ^ 63) (2 ^ 63 - 1)
  (⟨position.1, size.1⟩, size.2)

variable (R : FloatReading)

/-- The functions of the type macro. -/
def readValue : (ty : Ty) → Input → ty.Storage × Input
  | .string, i => readText i
  | .int32, i => readSigned 4 i
  | .int64, i => readSigned 8 i
  | .reference, i => readRecordId (-1) i
  | .boolean, i => readBoolean i
  | .float32, i => if i.failbit then ((0 : BitVec 32), i) else R.float32 i.rest
  | .float64, i => if i.failbit then ((0 : BitVec 64), i) else R.float64 i.rest
  | .int8, i => readInt8 i
  | .int16, i => readSigned 2 i
  | .blob, i => readBlobText i

end TextReading

/-! ## Readable -/

namespace Database

/-- `Readable::find_field`. -/
def findField (db : Database) (tableId : TableId) (name : Bytes) : FieldId :=
  match find db.tables tableId with
  | none => 0
  | some t => t.findField name

/-- `Readable::get_size`. -/
def getSize (db : Database) (tableId : TableId) : Except Exn Nat :=
  (db.getFreedom tableId).map (·.getSize)

end Database

/-- What the processors of an interpreter work on. -/
structure Target (σ : Type) where
  writable : Writable σ
  readable : σ → Database
  flush : EStateM Exn σ Unit
  hardCheckpoint : EStateM Exn σ Unit
  maxRecordId : RecordId

/-- What comes from outside. -/
structure Surroundings where
  floats : FloatReading
  floatText : FloatText
  now : BitVec 64
  files : Bytes → Option Bytes

namespace Target

open TextReading

variable {σ : Type} (T : Target σ) (X : Surroundings)

/-- `Status::done` behind what is done. -/
def finish (m : EStateM Exn σ Unit) : EStateM Exn σ Status := do
  m
  pure .done

/-! ## Writable_Command_Processor -/

def processWritable (command : Command) (parameters : Input) : EStateM Exn σ Status :=
  match command with
  | .help => pure .ok
  | .comment => finish (T.writable.call (.comment (readText parameters).1))
  | .timestamp =>
      let r := parameters.readInt (-2 ^ 63) (2 ^ 63 - 1)
      finish (T.writable.call
        (.timestamp (if r.2.failbit then X.now else BitVec.ofInt 64 r.1)))
  | .validData => finish (T.writable.call .validData)
  | .flush => finish T.flush
  | .softCheckpoint => finish T.writable.softCheckpoint
  | .checkpoint => finish T.writable.softCheckpoint
  | .hardCheckpoint => finish T.hardCheckpoint
  | .writeBlob => finish (T.writable.call (.writeBlob (readText parameters).1))
  | _ => pure .notFound

/-! ## Readable_Command_Processor -/

def parseTable (parameters : Input) : EStateM Exn σ (TableId × Input) := do
  let s ← get
  let name := parameters.readWord
  when ((T.readable s).findTable name.1 = 0)
    (throw (.exception ("No such table: " ++ messageText name.1)))
  pure ((T.readable s).findTable name.1, name.2)

/-- Whatever was printed, an exception goes on. -/
def printing {τ : Type} (m : EStateM Exn τ Unit) (start : τ) : EStateM Exn σ Unit :=
  match m start with
  | .ok _ _ => pure ()
  | .error e _ => throw e

def processReadable (command : Command) (parameters : Input) : EStateM Exn σ Status := do
  let s ← get
  let db := T.readable s
  match command with
  | .help => pure .ok
  | .table =>
      let _ ← T.parseTable parameters
      pure .done
  | .record =>
      let _ ← T.parseTable parameters
      pure .done
  | .schema =>
      finish (printing (Dump.dump (InterpreterDump.asWritable X.floatText true
        Database.schemaWritable) db true) (.create (-1)))
  | .dump =>
      finish (printing (Dump.dump (InterpreterDump.asWritable X.floatText true
        Database.schemaWritable) db false) (.create (-1)))
  | .sql =>
      finish (printing (Dump.dump (SqlDump.asWritable X.floatText none) db false) .create)
  | .json =>
      let useBase64 := (parameters.readInt (-2 ^ 63) (2 ^ 63 - 1)).1 ≠ 0
      finish (printing (Json.writeJson X.floatText useBase64 db) ⟨[], 0⟩)
  | _ => pure .notFound

/-! ## Data_Manipulation_Command_Processor -/

def updateValue (t : TableId) (r : RecordId) (f : FieldId) (i : Input) :
    EStateM Exn σ Input := do
  let s ← get
  let typeId := ((T.readable s).getFieldType t f).typeId
  when (typeId = 0) (throw (.exception "bad field"))
  match Ty.ofTypeId typeId with
  | none => pure i
  | some ty => do
      let v := readValue X.floats ty i
      when (v.2.failbit = true) (throw (.exception "failed parsing value"))
      T.writable.call (.update ty t r f (ty.toArg v.1))
      pure v.2

/-- The loop over the fields. -/
def updateValues (t : TableId) (r : RecordId) :
    List (FieldId × Bytes) → Input → EStateM Exn σ Unit
  | [], _ => pure ()
  | field :: fields, i => do
      let i ← T.updateValue X t r field.1 i
      updateValues t r fields i

def insertInto (parameters : Input) (append : Bool) : EStateM Exn σ Unit := do
  let table ← T.parseTable parameters
  let id := if append then (-1, table.2) else readRecordId (-1) table.2
  let s ← get
  let size ← Dump.read ((T.readable s).getSize table.1)
  let recordId : RecordId := if id.1 < 0 then size else id.1
  T.writable.call (.insertInto table.1 recordId)
  if id.2.good then do
    let s ← get
    let fields ← Dump.read ((T.readable s).getFields table.1)
    T.updateValues X table.1 recordId fields id.2
  else pure ()

/-- The values of a vector. A value that cannot be read ends it. -/
def readValues (ty : Ty) : Nat → Input → Except Exn (List ty.Storage)
  | 0, _ => .ok []
  | size + 1, i =>
      let v := readValue X.floats ty i
      if v.2.failbit then .error (.exception "failed parsing value")
      else (readValues ty size v.2).map (v.1 :: ·)

def updateVector (parameters : Input) : EStateM Exn σ Unit := do
  let table ← T.parseTable parameters
  let id := readRecordId (-1) table.2
  let name := id.2.readWord
  let s ← get
  let fieldId := (T.readable s).findField table.1 name.1
  let size := readSize name.2
  when (0 ≤ T.maxRecordId ∧ T.maxRecordId ≤ size.1) (throw (.exception "vector is too big"))
  if size.1 > 0 then do
    let typeId := ((T.readable s).getFieldType table.1 fieldId).typeId
    when (typeId = 0) (throw (.exception "bad field"))
    match Ty.ofTypeId typeId with
    | none => pure ()
    | some ty => do
        when (size.1 > ty.maxSize) (throw .lengthError)
        let values ← Dump.read (readValues X ty size.1 size.2)
        T.writable.call (.updateVector ty table.1 id.1 fieldId values)
  else pure ()

/-- The two parameters of a change of records. -/
def readRecords (i : Input) : RecordId × Nat :=
  let id := readRecordId (-1) i
  (id.1, (readSize id.2).1)

/-- What the class does itself, behind its parent. -/
def manipulate (command : Command) (parameters : Input) : EStateM Exn σ Status :=
  match command with
  | .help => pure .ok
  | .appendInto => finish (T.insertInto X parameters true)
  | .insertInto => finish (T.insertInto X parameters false)
  | .deleteFrom => do
      let table ← T.parseTable parameters
      finish (T.writable.call (.deleteFrom table.1 (readRecordId (-1) table.2).1))
  | .insertVector => do
      let table ← T.parseTable parameters
      let records := readRecords table.2
      finish (T.writable.call (.insertVector table.1 records.1 records.2))
  | .deleteVector => do
      let table ← T.parseTable parameters
      let records := readRecords table.2
      finish (T.writable.call (.deleteVector table.1 records.1 records.2))
  | .update => do
      let table ← T.parseTable parameters
      let id := readRecordId (-1) table.2
      let name := id.2.readWord
      let s ← get
      let _ ← T.updateValue X table.1 id.1 ((T.readable s).findField table.1 name.1) name.2
      pure .done
  | .updateVector => finish (T.updateVector X parameters)
  | _ => pure .notFound

/-- A parent is asked first, and what it has not done goes on. -/
def orElse (parent child : EStateM Exn σ Status) : EStateM Exn σ Status := do
  let status ← parent
  if status = .done then pure status else child

def processData (command : Command) (parameters : Input) : EStateM Exn σ Status :=
  orElse (T.processReadable X command parameters) (T.manipulate X command parameters)

/-! ## Readable_Writable_Command_Processor -/

/-- The rows of the type macro, but for references. -/
def plainTypes : List Ty := Ty.all.filter (· ≠ .reference)

def parseType (db : Database) (i : Input) : Except Exn (FieldType × Input) :=
  let name := i.readWord
  let table := name.2.readWord
  if name.1 = ascii "references" ∧ db.findTable table.1 ≠ 0 then
    .ok (.reference (db.findTable table.1), table.2)
  else
    match plainTypes.find? (·.word = name.1) with
    | some ty => .ok (.plain ty.typeId, name.2)
    | none => .error (.exception "unknown type")

/-- The loop over the records that are there, for a default value. -/
def updateAll (ty : Ty) (t : TableId) (f : FieldId) (value : ty.Storage) :
    Nat → Nat → EStateM Exn σ Unit
  | 0, _ => pure ()
  | left + 1, r => do
      let s ← get
      let k ← Dump.read ((T.readable s).getFreedom t)
      when (k.isUsed r = true) (T.writable.call (.update ty t r f (ty.toArg value)))
      updateAll ty t f value left (r + 1)

/-- `= value`, behind a type: the last field is the new one. -/
def setDefault (type : FieldType) (t : TableId) (i : Input) : EStateM Exn σ Unit := do
  let s ← get
  let fields ← Dump.read ((T.readable s).getFields t)
  let size ← Dump.read ((T.readable s).getSize t)
  match fields.getLast?, Ty.ofTypeId type.typeId with
  | some field, some ty => T.updateAll ty t field.1 (readValue X.floats ty i).1 size 0
  | _, _ => pure ()

def addField (parameters : Input) : EStateM Exn σ Unit := do
  let table ← T.parseTable parameters
  let name := table.2.readWord
  let s ← get
  let type ← Dump.read (parseType (T.readable s) name.2)
  T.writable.call (.addField table.1 name.1 type.1)
  let next := type.2.readWord
  when (next.1 = ascii "=") (T.setDefault X type.1 table.1 next.2)

/-- What the class does itself, behind its parent. -/
def define (command : Command) (parameters : Input) : EStateM Exn σ Status :=
  match command with
  | .help => pure .ok
  | .createTable => finish (T.writable.call (.createTable parameters.readWord.1))
  | .dropTable => do
      let table ← T.parseTable parameters
      finish (T.writable.call (.dropTable table.1))
  | .renameTable => do
      let table ← T.parseTable parameters
      finish (T.writable.call (.renameTable table.1 table.2.readWord.1))
  | .addField => finish (T.addField X parameters)
  | .dropField => do
      let table ← T.parseTable parameters
      let s ← get
      let fieldId := (T.readable s).findField table.1 table.2.readWord.1
      finish (T.writable.call (.dropField table.1 fieldId))
  | .renameField => do
      let table ← T.parseTable parameters
      let name := table.2.readWord
      let s ← get
      let fieldId := (T.readable s).findField table.1 name.1
      finish (T.writable.call (.renameField table.1 fieldId name.2.readWord.1))
  | .custom => finish (T.writable.call (.custom parameters.readWord.1))
  | _ => pure .notFound

def processReadableWritable (command : Command) (parameters : Input) : EStateM Exn σ Status :=
  orElse (T.processData X command parameters) (T.define X command parameters)

end Target

/-! ## Command_Interpreter -/

/-- What the interpreter works on, and its `last_line_empty`. -/
structure Shell (σ : Type) where
  target : σ
  lastLineEmpty : Bool

/-- `what`, of what is caught as an `Exception`. -/
def Exn.what : Exn → Option String
  | .exception msg => some msg
  | .disconnection msg => some msg
  | _ => none

namespace Shell

variable {σ : Type} (T : Target σ) (X : Surroundings) (rethrow : Bool)

/-- What a processor does to its target. -/
def onTarget {α : Type} : EStateM Exn σ α → EStateM Exn (Shell σ) α :=
  onPart (·.target) fun s target => { s with target }

/-- The interpreter's own commands. `includeText` is `main_loop`, for a file. -/
def processOwn (includeText : Bytes → EStateM Exn (Shell σ) Unit) (word : Bytes)
    (parameters : Input) : EStateM Exn (Shell σ) Status :=
  if word = [] ∨ word.head? = some 35 then pure .done
  else
    match Command.ofWord word with
    | some .about => pure .done
    | some .echo => pure .done
    | some .prompt => pure .done
    | some .help => pure .ok
    | some .includeFile =>
        match X.files (TextReading.readText parameters).1 with
        | none => throw (.exception
            ("error opening " ++ messageText (TextReading.readText parameters).1))
        | some text => do
            includeText text
            pure .done
    | some .quit => pure .quit
    | some .abort => pure .abort
    | _ => pure .notFound

/-- A processor that knows its commands by their words. -/
def knowing (process : Command → Input → EStateM Exn σ Status) (word : Bytes)
    (parameters : Input) : EStateM Exn (Shell σ) Status :=
  match Command.ofWord word with
  | none => pure .notFound
  | some command => onTarget (process command parameters)

/-- How the loop over the processors ended. -/
structure Outcome where
  found : Bool
  quit : Bool
  abort : Bool
  deriving DecidableEq, Repr

def processEach (word : Bytes) (parameters : Input) :
    List (Bytes → Input → EStateM Exn (Shell σ) Status) → Bool →
      EStateM Exn (Shell σ) Outcome
  | [], found => pure ⟨found, false, false⟩
  | process :: processors, found => do
      let status ← process word parameters
      match status with
      | .ok => processEach word parameters processors true
      | .notFound => processEach word parameters processors found
      | .done => pure ⟨true, false, false⟩
      | .quit => pure ⟨true, true, false⟩
      | .abort => pure ⟨true, false, true⟩

/-- The constructor of `Interpreter` adds two processors to the interpreter itself. -/
def processors (includeText : Bytes → EStateM Exn (Shell σ) Unit) :
    List (Bytes → Input → EStateM Exn (Shell σ) Status) :=
  [processOwn X includeText, knowing (T.processWritable X), knowing (T.processReadableWritable X)]

/-- A line, up to `after_command`: whether it was the last one, and whether it was to abort. -/
def processLine (includeText : Bytes → EStateM Exn (Shell σ) Unit) (line : Bytes) :
    EStateM Exn (Shell σ) Outcome := do
  let r := Input.readWord ⟨line, false⟩
  let word := if r.1 = ascii "?" then ascii "help" else r.1
  let outcome ← processEach word r.2 (processors T X includeText) false
  when (outcome.found = false) (throw (.exception ("Unknown command: "
    ++ messageText (writeString word) ++ ". For a list of available commands, try \"help\".")))
  pure outcome

/-- `after_command`, for an exception: it is thrown again, with its line, or printed. -/
def afterException (lineNumber : Nat) (line : Bytes) (e : Exn) : EStateM Exn (Shell σ) Unit :=
  match e.what with
  | none => throw e
  | some what =>
      when (rethrow = true) (throw (.exception
        (what ++ s!"\nLine {lineNumber}: " ++ messageText line ++ "\n")))

/-- `try` and `catch`, around a line. -/
def tryLine (includeText : Bytes → EStateM Exn (Shell σ) Unit) (lineNumber : Nat)
    (line : Bytes) : EStateM Exn (Shell σ) Outcome := fun s =>
  match processLine T X includeText line s with
  | .ok outcome s => .ok outcome s
  | .error e s => (do
      afterException rethrow lineNumber line e
      pure ⟨true, false, false⟩ : EStateM Exn (Shell σ) Outcome) s

/-- The loop over the lines, and whether it was aborted. -/
def eachLine (includeText : Bytes → EStateM Exn (Shell σ) Unit) :
    List Bytes → Nat → EStateM Exn (Shell σ) Bool
  | [], _ => pure false
  | raw :: lines, lineNumber => do
      let line := stripped raw
      modify fun s => { s with lastLineEmpty := line.isEmpty }
      let outcome ← tryLine T X rethrow includeText lineNumber line
      if outcome.quit || outcome.abort then pure outcome.abort
      else eachLine includeText lines (lineNumber + 1)

def interpret (includeText : Bytes → EStateM Exn (Shell σ) Unit) (text : Bytes) :
    EStateM Exn (Shell σ) Unit := do
  let abort ← eachLine T X rethrow includeText (getlines text) 1
  when (abort = true) (throw (.exception "aborted"))

/-- `main_loop`, where so many more files may be included one in the other. -/
def mainLoop : Nat → Bytes → EStateM Exn (Shell σ) Unit
  | 0 => interpret T X rethrow fun _ => throw (.exception "Reached max recursion depth")
  | depth + 1 => interpret T X rethrow (mainLoop depth)

def maxRecursionDepth : Nat := 42

end Shell

end Joedb
