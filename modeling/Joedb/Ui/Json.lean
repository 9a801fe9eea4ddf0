import Joedb.Packing.Pack

/-!
# JSON

What `write_json` writes for a database: an object of its tables, each an object of its columns
with its number of rows. A column has the values of the used records only, so a record id does
not say where in a column the record is. Before anything is written, the ids of each table are
translated into positions, and a reference is written as the position of what it refers to.

The text of a float is left to the stream. It is a parameter, of which nothing matters but that
there is some text.
-/

namespace Joedb

open ByteFile Containers StateExcept

/-- The bytes of a text of the source. -/
def ascii (s : String) : Bytes := s.toList.map fun c => UInt8.ofNat c.toNat

/-- `operator<<` of an integer. -/
def decimal (n : Int) : Bytes := ascii (toString n)

/-- `operator<<` of the two types of floats. -/
structure FloatText where
  float32 : BitVec 32 → Bytes
  float64 : BitVec 64 → Bytes
  float32_ne_nil : ∀ x, float32 x ≠ []
  float64_ne_nil : ∀ x, float64 x ≠ []

/-! ## Strings -/

def getHexCharFromDigit (n : UInt8) : UInt8 :=
  let n := n &&& 0x0f
  if n < 10 then 48 + n else 97 + n - 10

/-- `(c & 0xc0) == 0x80`. -/
def isContinuation (c : UInt8) : Bool := c &&& 0xc0 = 0x80

/-- How many bytes the character `c` starts has, with `s` behind it; none if it is not UTF-8. -/
def utf8Size (c : UInt8) (s : Bytes) : Option Nat :=
  let s₁ := s.getD 0 0
  let s₂ := s.getD 1 0
  let s₃ := s.getD 2 0
  if c ≥ 0xc2 ∧ c ≤ 0xdf ∧ 1 ≤ s.length ∧ isContinuation s₁ then some 2
  else if c &&& 0xf0 = 0xe0 ∧ 2 ≤ s.length ∧ (c ≠ 0xe0 ∨ s₁ ≥ 0xa0) ∧ (c ≠ 0xed ∨ s₁ < 0xa0) ∧
      isContinuation s₁ ∧ isContinuation s₂ then some 3
  else if c ≥ 0xf0 ∧ c ≤ 0xf4 ∧ 3 ≤ s.length ∧ (c ≠ 0xf0 ∨ s₁ ≥ 0x90) ∧ (c ≠ 0xf4 ∨ s₁ < 0x90) ∧
      isContinuation s₁ ∧ isContinuation s₂ ∧ isContinuation s₃ then some 4
  else if c &&& 0x80 ≠ 0 then none
  else some 1

/-- The loop of `write_string` for JSON, with so many bytes of a character to copy: what it
writes, and whether it returns. -/
def writeStringGo : Nat → Bytes → Bytes × Bool
  | _, [] => (ascii "\"", true)
  | left + 1, c :: s =>
      let rest := writeStringGo left s
      (c :: rest.1, rest.2)
  | 0, c :: s =>
      if c < 0x20 ∨ c = 0x7f then
        let rest := writeStringGo 0 s
        (ascii "\\u00" ++ getHexCharFromDigit (c >>> 4) :: getHexCharFromDigit (c &&& 0x0f)
          :: rest.1, rest.2)
      else if c = 34 ∨ c = 92 then
        let rest := writeStringGo 0 s
        (92 :: c :: rest.1, rest.2)
      else
        match utf8Size c s with
        | none => ([], false)
        | some size =>
            let rest := writeStringGo (size - 1) s
            (c :: rest.1, rest.2)

def base64Codes : Bytes :=
  ascii "ABCDEFGHIJKLMNOPQRSTUVWXYZabcdefghijklmnopqrstuvwxyz0123456789+/"

def base64Code (n : Nat) : UInt8 := base64Codes.getD (n &&& 0x3f) 0

/-- `base64_encode`. -/
def base64Encode : Bytes → Bytes
  | [] => []
  | [a] =>
      let word := a.toNat <<< 4
      [base64Code (word >>> 6), base64Code word, 61, 61]
  | [a, b] =>
      let word := (a.toNat <<< 10) ||| (b.toNat <<< 2)
      [base64Code (word >>> 12), base64Code (word >>> 6), base64Code word, 61]
  | a :: b :: c :: s =>
      let word := (a.toNat <<< 16) ||| (b.toNat <<< 8) ||| c.toNat
      base64Code (word >>> 18) :: base64Code (word >>> 12) :: base64Code (word >>> 6)
        :: base64Code word :: base64Encode s

/-! ## Values -/

/-- `JSON_Error`, whose values are bits. -/
def JsonError.ok : UInt8 := 0

def JsonError.utf8 : UInt8 := 1

def JsonError.infnan : UInt8 := 2

/-- What is written, and the error that is reported. -/
def writeJsonString (base64 : Bool) (s : Bytes) : Bytes × UInt8 :=
  if base64 then (ascii "\"" ++ base64Encode s ++ ascii "\"", JsonError.ok)
  else
    let written := writeStringGo 0 s
    if written.2 then (ascii "\"" ++ written.1, JsonError.ok)
    else (ascii "\"" ++ written.1 ++ ascii "!!! This string is not utf8 !!!\"", JsonError.utf8)

/-- `isnan` or `isinf`: the exponent has no zero. -/
def isInfNan32 (x : BitVec 32) : Bool := (x.toNat >>> 23) &&& 0xff = 0xff

def isInfNan64 (x : BitVec 64) : Bool := (x.toNat >>> 52) &&& 0x7ff = 0x7ff

/-- What is written for a value, other than a reference that can be translated. -/
def writeJsonValue (F : FloatText) (base64 : Bool) : (ty : Ty) → ty.Storage → Bytes × UInt8
  | .string, s => writeJsonString base64 s
  | .int32, x => (decimal (BitVec.toInt x), JsonError.ok)
  | .int64, x => (decimal (BitVec.toInt x), JsonError.ok)
  | .reference, r => (decimal r, JsonError.ok)
  | .boolean, c => (if Ty.toBool c = 0 then ascii "false" else ascii "true", JsonError.ok)
  | .float32, x =>
      if isInfNan32 x then (ascii "0", JsonError.infnan) else (F.float32 x, JsonError.ok)
  | .float64, x =>
      if isInfNan64 x then (ascii "0", JsonError.infnan) else (F.float64 x, JsonError.ok)
  | .int8, x => (decimal (BitVec.toInt x), JsonError.ok)
  | .int16, x => (decimal (BitVec.toInt x), JsonError.ok)
  | .blob, b =>
      (ascii "[" ++ decimal b.position ++ ascii "," ++ decimal b.size ++ ascii "]", JsonError.ok)

/-! ## Reference translations -/

/-- The loop over the records of a table: its vector, and the position it ends with. -/
def translateGo (k : FreedomKeeper) : Nat → Nat → Int → List Int × Int
  | 0, _, position => ([], position)
  | left + 1, recordId, position =>
      if k.isUsed recordId = false then
        let rest := translateGo k left (recordId + 1) position
        (-1 :: rest.1, rest.2)
      else
        let rest := translateGo k left (recordId + 1) (position + 1)
        (position :: rest.1, rest.2)

structure Translation where
  referenceTranslation : List (TableId × List Int)
  tableSize : List (TableId × Int)

/-- The loop over the tables. -/
def translate (db : Database) : List (TableId × Bytes) → Translation → Except Exn Translation
  | [], tr => .ok tr
  | (tid, _) :: tables, tr =>
      match db.getFreedom tid with
      | .error e => .error e
      | .ok k =>
          let v := translateGo k k.getSize 0 0
          translate db tables ⟨insertOrAssign tr.referenceTranslation tid v.1,
            insertOrAssign tr.tableSize tid v.2⟩

/-- The text of a reference. -/
def Translation.reference (tr : Translation) (type : FieldType) (reference : RecordId) : Bytes :=
  match find tr.referenceTranslation type.tableId with
  | some v =>
      if reference < 0 ∨ reference.toNat ≥ v.length then decimal (-1)
      else decimal (v.getD reference.toNat 0)
  | none => decimal reference

/-! ## write_json -/

/-- The stream, and the errors so far. -/
structure Json where
  out : Bytes
  result : UInt8

namespace Json

def put (s : Bytes) : EStateM Exn Json Unit := modify fun o => { o with out := o.out ++ s }

def report (error : UInt8) : EStateM Exn Json Unit :=
  modify fun o => { o with result := o.result ||| error }

section Loops

variable (F : FloatText) (base64 : Bool) (db : Database) (tr : Translation)

/-- The `switch`. A type that is not in the macro has no value. -/
def writeValue (tid : TableId) (recordId : Nat) (fid : FieldId) (type : FieldType) :
    EStateM Exn Json Unit :=
  match Ty.ofTypeId type.typeId with
  | none => pure ()
  | some .reference => do
      let values ← Dump.read (db.getStorage .reference tid recordId fid)
      put (tr.reference type (values.headD Ty.reference.kind.default))
  | some ty => do
      let values ← Dump.read (db.getStorage ty tid recordId fid)
      let written := writeJsonValue F base64 ty (values.headD ty.kind.default)
      put written.1
      report written.2

/-- The loop over the records, with the flag `first_value`. -/
def writeValues (tid : TableId) (fid : FieldId) (type : FieldType) :
    Nat → Nat → Bool → EStateM Exn Json Unit
  | 0, _, _ => pure ()
  | left + 1, recordId, firstValue => do
      let k ← Dump.read (db.getFreedom tid)
      if k.isUsed recordId then
        when (firstValue = false) (put (ascii ", "))
        writeValue F base64 db tr tid recordId fid type
        writeValues tid fid type left (recordId + 1) false
      else writeValues tid fid type left (recordId + 1) firstValue

def writeField (tid : TableId) (size : Nat) (field : FieldId × Bytes) :
    EStateM Exn Json Unit := do
  let type := db.getFieldType tid field.1
  put (ascii ",\n")
  put (ascii "  \"")
  put field.2
  put (ascii "\": [")
  writeValues F base64 db tr tid field.1 type size 0 true
  put (ascii "]")

def writeTable (table : TableId × Bytes) : EStateM Exn Json Unit := do
  let k ← Dump.read (db.getFreedom table.1)
  put (ascii " \"")
  put table.2
  put (ascii "\":\n \x7b\n")
  put (ascii "  \"__size\": ")
  put (decimal ((find tr.tableSize table.1).getD 0))
  let fields ← Dump.read (db.getFields table.1)
  fields.forM (writeField F base64 db tr table.1 k.getSize)
  put (ascii "\n \x7d")

/-- The loop over the tables, with the flag `first_table`. -/
def writeTables : List (TableId × Bytes) → Bool → EStateM Exn Json Unit
  | [], _ => pure ()
  | table :: tables, firstTable => do
      when (firstTable = false) (put (ascii ",\n"))
      writeTable F base64 db tr table
      writeTables tables false

end Loops

def writeJson (F : FloatText) (base64 : Bool) (db : Database) : EStateM Exn Json Unit := do
  let tr ← Dump.read (translate db db.getTables ⟨[], []⟩)
  put (ascii "\x7b\n")
  writeTables F base64 db tr db.getTables true
  put (ascii "\n\x7d\n")

end Json

end Joedb
