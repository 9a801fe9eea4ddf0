import Joedb.Journal.FileBuffer

/-!
# What a journal records

The operations a `Writable` receives, the types of the values they carry
(`TYPE_MACRO.h` is a table, and so is `Ty.kind`), and the bytes that stand for
an operation in a journal.

An insertion or an update may be written relative to the operation before it.
So there are two vocabularies: `Op`, what a caller says, and `Wire`, what the
journal says, with a `Context` between them. `abbreviate` is the choice the
writer makes; the reader has to undo it with a context of its own.
-/

namespace Joedb

open ByteFile

/-- `Table_Id`. -/
abbrev TableId := UInt16

/-- `Field_Id`. -/
abbrev FieldId := UInt16

/-- `Record_Id`: a signed index, null when it is negative. -/
abbrev RecordId := Int

/-- The `index_t` that has the bits of a sum. -/
def word (x : Int) : Int := x.bmod (2 ^ 64)

theorem word_of_fits {x : Int} (hlo : 0 ≤ x) (hhi : x < 2 ^ 63) : word x = x :=
  Int.bmod_eq_of_le (by omega) (by omega)

theorem word_le {x : Int} (hlo : 0 ≤ x) : word x ≤ x := by
  rw [word, Int.bmod_def]
  split <;> omega

/-- A sum of an `index_t` and a `size_t` that does not fit comes out smaller than it was. -/
theorem word_lt {x : Int} {n : Nat} (hx : x < 2 ^ 63) (hn : n < 2 ^ 64)
    (hover : 2 ^ 63 ≤ x + n) : word (x + n) < x := by
  rw [word, Int.bmod_def]
  split <;> omega

/-- The rows of `TYPE_MACRO.h`, in their order. -/
inductive Ty where
  | string
  | int32
  | int64
  | reference
  | boolean
  | float32
  | float64
  | int8
  | int16
  | blob
  deriving DecidableEq, Repr

/-- How a value is stored, read and written: the columns of `TYPE_MACRO.h`.
Integers, floats and booleans are written as they lie in memory. -/
inductive Kind where
  | string
  | reference
  | blob
  | fixed (size : Nat)
  deriving DecidableEq, Repr

@[reducible] def Kind.Val : Kind → Type
  | .string => Bytes
  | .reference => RecordId
  | .blob => Blob
  | .fixed size => BitVec (8 * size)

instance : (k : Kind) → DecidableEq k.Val
  | .string => inferInstanceAs (DecidableEq (List UInt8))
  | .reference => inferInstanceAs (DecidableEq Int)
  | .blob => inferInstanceAs (DecidableEq Blob)
  | .fixed size => inferInstanceAs (DecidableEq (BitVec (8 * size)))

namespace Ty

def all : List Ty :=
  [string, int32, int64, reference, boolean, float32, float64, int8, int16, blob]

def index : Ty → Nat
  | string => 0
  | int32 => 1
  | int64 => 2
  | reference => 3
  | boolean => 4
  | float32 => 5
  | float64 => 6
  | int8 => 7
  | int16 => 8
  | blob => 9

def kind : Ty → Kind
  | string => .string
  | int32 => .fixed 4
  | int64 => .fixed 8
  | reference => .reference
  | boolean => .fixed 1
  | float32 => .fixed 4
  | float64 => .fixed 8
  | int8 => .fixed 1
  | int16 => .fixed 2
  | blob => .blob

/-- `storage_type`. -/
abbrev Storage (ty : Ty) : Type := ty.kind.Val

/-- The conversion of a `char` to a `bool`. -/
def toBool (c : BitVec 8) : BitVec 8 := if c = 0 then 0 else 1

theorem toBool_toBool (c : BitVec 8) : toBool (toBool c) = toBool c := by
  rw [toBool, toBool]
  split
  · rfl
  · rfl

/-- A stored value on its way through `return_type`: a `char` becomes a
`bool`, everything else stays. -/
def arg : (ty : Ty) → ty.Storage → ty.Storage
  | boolean => toBool
  | string => id
  | int32 => id
  | int64 => id
  | reference => id
  | float32 => id
  | float64 => id
  | int8 => id
  | int16 => id
  | blob => id

theorem arg_arg (ty : Ty) (v : ty.Storage) : ty.arg (ty.arg v) = ty.arg v := by
  cases ty with
  | boolean => exact toBool_toBool v
  | _ => rfl

/-- `return_type`: the values an update may carry. Of the characters only two
are booleans. -/
abbrev Arg (ty : Ty) : Type := { v : ty.Storage // ty.arg v = v }

def toArg (ty : Ty) (v : ty.Storage) : ty.Arg := ⟨ty.arg v, ty.arg_arg v⟩

@[simp] theorem toArg_val {ty : Ty} (v : ty.Arg) : ty.toArg v.val = v :=
  Subtype.ext v.property

end Ty

/-- `Type_Id::reference`. -/
def referenceTypeId : UInt8 := 4

/-- `Type`. Its constructors give a table to references only. -/
structure FieldType where
  typeId : UInt8
  tableId : TableId
  noTable : typeId ≠ referenceTypeId → tableId = 0
  deriving DecidableEq

def FieldType.reference (tableId : TableId) : FieldType :=
  ⟨referenceTypeId, tableId, fun h => absurd rfl h⟩

def FieldType.plain (typeId : UInt8) : FieldType := ⟨typeId, 0, fun _ => rfl⟩

/-- What a `Writable` may be told. -/
inductive Op where
  | createTable (name : Bytes)
  | dropTable (tableId : TableId)
  | renameTable (tableId : TableId) (name : Bytes)
  | addField (tableId : TableId) (name : Bytes) (type : FieldType)
  | dropField (tableId : TableId) (fieldId : FieldId)
  | renameField (tableId : TableId) (fieldId : FieldId) (name : Bytes)
  | custom (name : Bytes)
  | comment (comment : Bytes)
  | timestamp (timestamp : BitVec 64)
  | validData
  | insertInto (tableId : TableId) (recordId : RecordId)
  | deleteFrom (tableId : TableId) (recordId : RecordId)
  | insertVector (tableId : TableId) (recordId : RecordId) (size : Nat)
  | deleteVector (tableId : TableId) (recordId : RecordId) (size : Nat)
  | update (ty : Ty) (tableId : TableId) (recordId : RecordId)
      (fieldId : FieldId) (value : ty.Arg)
  | updateVector (ty : Ty) (tableId : TableId) (recordId : RecordId)
      (fieldId : FieldId) (values : List ty.Storage)
  | writeBlob (data : Bytes)
  deriving DecidableEq

/-- What both sides of a journal remember of the operations before. -/
structure Context where
  tableOfLastOperation : TableId
  recordOfLastOperation : RecordId
  fieldOfLastUpdate : FieldId
  deriving DecidableEq

/-- `reset_context`. -/
def Context.reset : Context := ⟨0, -1, 0⟩

/-- What a journal says: an operation in full, or one of the three
abbreviations. -/
inductive Wire where
  | full (op : Op)
  | append
  | updateLast (ty : Ty) (fieldId : FieldId) (value : ty.Arg)
  | updateNext (ty : Ty) (value : ty.Arg)
  deriving DecidableEq

/-! ## Codes -/

/-- The codes of `operation_t` that a reader accepts. -/
inductive Operation where
  | createTable
  | dropTable
  | addField
  | dropField
  | insertInto
  | deleteFrom
  | append
  | comment
  | timestamp
  | renameTable
  | renameField
  | validData
  | insertVector
  | custom
  | blob
  | deleteVector
  | update (ty : Ty)
  | updateLast (ty : Ty)
  | updateNext (ty : Ty)
  | updateVector (ty : Ty)
  deriving DecidableEq, Repr

namespace Operation

/-- The type macro numbers its four codes a type after `updates = 0x80`. -/
def code : Operation → UInt8
  | createTable => 0x01
  | dropTable => 0x02
  | addField => 0x03
  | dropField => 0x04
  | insertInto => 0x05
  | deleteFrom => 0x06
  | append => 0x08
  | comment => 0x0a
  | timestamp => 0x0b
  | renameTable => 0x0c
  | renameField => 0x0d
  | validData => 0x0e
  | insertVector => 0x0f
  | custom => 0x10
  | blob => 0x13
  | deleteVector => 0x14
  | update ty => UInt8.ofNat (0x81 + 4 * ty.index)
  | updateLast ty => UInt8.ofNat (0x81 + 4 * ty.index + 1)
  | updateNext ty => UInt8.ofNat (0x81 + 4 * ty.index + 2)
  | updateVector ty => UInt8.ofNat (0x81 + 4 * ty.index + 3)

def all : List Operation :=
  [createTable, dropTable, addField, dropField, insertInto, deleteFrom, append,
    comment, timestamp, renameTable, renameField, validData, insertVector, custom,
    blob, deleteVector]
  ++ Ty.all.flatMap fun ty => [update ty, updateLast ty, updateNext ty, updateVector ty]

/-- The `switch` over a code, deprecated codes among those it does not know. -/
def ofCode (code : UInt8) : Option Operation := all.find? (·.code = code)

theorem ofCode_code (o : Operation) : ofCode o.code = some o := by
  cases o with
  | update ty => cases ty <;> rfl
  | updateLast ty => cases ty <;> rfl
  | updateNext ty => cases ty <;> rfl
  | updateVector ty => cases ty <;> rfl
  | _ => rfl

end Operation

/-! ## Bytes -/

def Kind.bytes : (k : Kind) → k.Val → Bytes
  | .string => fun s : Bytes => compactWrite s.length ++ s
  | .reference => fun id : RecordId => compactWrite (id + 1)
  | .blob => fun blob : Blob => compactWrite blob.position ++ compactWrite blob.size
  | .fixed size => fun v : BitVec (8 * size) => leEncode size v.toNat

/-- Memory read back as the value that lay there. -/
theorem ofNat_leDecode_leEncode {n : Nat} (v : BitVec (8 * n)) :
    BitVec.ofNat (8 * n) (leDecode (leEncode n v.toNat)) = v := by
  have hlt : v.toNat < 2 ^ (8 * n) := v.isLt
  rw [Nat.pow_mul] at hlt
  rw [leDecode_leEncode, Nat.mod_eq_of_lt hlt, BitVec.ofNat_toNat, BitVec.setWidth_eq]

/-- A value that its first bytes have been copied over, where it lies in memory as it is
written. -/
def Kind.overwrite : (k : Kind) → Bytes → k.Val → k.Val
  | .string, _ => fun s => s
  | .reference, _ => fun id => id
  | .blob, _ => fun blob => blob
  | .fixed size, first => fun v : BitVec (8 * size) =>
      BitVec.ofNat (8 * size) (leDecode (first ++ (leEncode size v.toNat).drop first.length))

theorem Kind.overwrite_nil (k : Kind) : k.overwrite [] = id := by
  funext v
  cases k with
  | fixed size => exact ofNat_leDecode_leEncode v
  | _ => rfl

/-- A vector is its values, side by side. -/
def Kind.vectorBytes (k : Kind) (vs : List k.Val) : Bytes :=
  (vs.map k.bytes).flatten

def idBytes (id : UInt16) : Bytes := compactWrite id.toNat

def referenceBytes (id : RecordId) : Bytes := compactWrite (id + 1)

def stringBytes (s : Bytes) : Bytes := compactWrite s.length ++ s

def FieldType.bytes (type : FieldType) : Bytes :=
  type.typeId ::
    if type.typeId = referenceTypeId then idBytes type.tableId else []

/-- An operation in full. -/
def Op.bytes : Op → Bytes
  | createTable name => Operation.createTable.code :: stringBytes name
  | dropTable t => Operation.dropTable.code :: idBytes t
  | addField t name type =>
      Operation.addField.code :: (idBytes t ++ (stringBytes name ++ type.bytes))
  | dropField t f => Operation.dropField.code :: (idBytes t ++ idBytes f)
  | insertInto t r => Operation.insertInto.code :: (idBytes t ++ referenceBytes r)
  | deleteFrom t r => Operation.deleteFrom.code :: (idBytes t ++ referenceBytes r)
  | comment c => Operation.comment.code :: stringBytes c
  | timestamp ts => Operation.timestamp.code :: leEncode 8 ts.toNat
  | renameTable t name =>
      Operation.renameTable.code :: (idBytes t ++ stringBytes name)
  | renameField t f name =>
      Operation.renameField.code :: (idBytes t ++ (idBytes f ++ stringBytes name))
  | validData => [Operation.validData.code]
  | insertVector t r size =>
      Operation.insertVector.code :: (idBytes t ++ (referenceBytes r ++ compactWrite size))
  | custom name => Operation.custom.code :: stringBytes name
  | writeBlob data => Operation.blob.code :: (compactWrite data.length ++ data)
  | deleteVector t r size =>
      Operation.deleteVector.code :: (idBytes t ++ (referenceBytes r ++ compactWrite size))
  | update ty t r f v =>
      (Operation.update ty).code ::
        (idBytes t ++ (referenceBytes r ++ (idBytes f ++ ty.kind.bytes v.val)))
  | updateVector ty t r f vs =>
      (Operation.updateVector ty).code ::
        (idBytes t ++ (referenceBytes r ++ (idBytes f ++
          (compactWrite vs.length ++ ty.kind.vectorBytes vs))))

def Wire.bytes : Wire → Bytes
  | full op => op.bytes
  | append => [Operation.append.code]
  | updateLast ty f v => (Operation.updateLast ty).code :: (idBytes f ++ ty.kind.bytes v.val)
  | updateNext ty v => (Operation.updateNext ty).code :: ty.kind.bytes v.val

/-! ## Context -/

/-- The context an operation leaves, on either side. -/
def Op.context (c : Context) : Op → Context
  | insertInto t r => { c with tableOfLastOperation := t, recordOfLastOperation := r }
  | insertVector t r _ =>
      { c with tableOfLastOperation := t, recordOfLastOperation := r }
  | update _ t r f _ => ⟨t, r, f⟩
  | updateVector _ t r f _ => ⟨t, r, f⟩
  | _ => c

/-- What the writer makes of an operation. -/
def abbreviate (c : Context) : Op → Wire
  | .insertInto t r =>
      if t = c.tableOfLastOperation ∧ r = c.recordOfLastOperation + 1 then .append
      else .full (.insertInto t r)
  | .update ty t r f v =>
      if t = c.tableOfLastOperation ∧ r = c.recordOfLastOperation then
        .updateLast ty f v
      else if t = c.tableOfLastOperation ∧ r = c.recordOfLastOperation + 1 ∧
          f = c.fieldOfLastUpdate then
        .updateNext ty v
      else .full (.update ty t r f v)
  | op => .full op

/-- What the reader makes of the journal. -/
def Wire.meaning (c : Context) : Wire → Op
  | full op => op
  | append => .insertInto c.tableOfLastOperation (c.recordOfLastOperation + 1)
  | updateLast ty f v => .update ty c.tableOfLastOperation c.recordOfLastOperation f v
  | updateNext ty v =>
      .update ty c.tableOfLastOperation (c.recordOfLastOperation + 1)
        c.fieldOfLastUpdate v

/-- With the writer's context the reader gets the writer's operation back. -/
theorem meaning_abbreviate (c : Context) (op : Op) :
    (abbreviate c op).meaning c = op := by
  cases op with
  | insertInto t r =>
      rw [abbreviate]
      split
      · next h => rw [Wire.meaning, ← h.1, ← h.2]
      · rfl
  | update ty t r f v =>
      rw [abbreviate]
      split
      · next h => rw [Wire.meaning, ← h.1, ← h.2]
      · split
        · next h => rw [Wire.meaning, ← h.1, ← h.2.1, ← h.2.2]
        · rfl
  | _ => rfl

/-! ## What fits -/

def IdFits (id : RecordId) : Prop := -1 ≤ id ∧ id < 2 ^ 61 - 1

def SizeFits (size : Nat) : Prop := size < 2 ^ 61

/-- A value that survives its encoding. -/
def Kind.Fits : (k : Kind) → k.Val → Prop
  | .string => fun s : Bytes => SizeFits s.length
  | .reference => IdFits
  | .blob => fun blob : Blob =>
      0 ≤ blob.position ∧ blob.position < 2 ^ 61 ∧ 0 ≤ blob.size ∧ blob.size < 2 ^ 61
  | .fixed _ => fun _ => True

/-- An operation whose numbers fit into compact integers. -/
def Op.Fits : Op → Prop
  | createTable name => SizeFits name.length
  | dropTable _ => True
  | renameTable _ name => SizeFits name.length
  | addField _ name _ => SizeFits name.length
  | dropField _ _ => True
  | renameField _ _ name => SizeFits name.length
  | custom name => SizeFits name.length
  | comment c => SizeFits c.length
  | timestamp _ => True
  | validData => True
  | insertInto _ r => IdFits r
  | deleteFrom _ r => IdFits r
  | insertVector _ r size => IdFits r ∧ SizeFits size
  | deleteVector _ r size => IdFits r ∧ SizeFits size
  | update ty _ r _ v => IdFits r ∧ ty.kind.Fits v.val
  | updateVector ty _ r _ vs =>
      IdFits r ∧ SizeFits vs.length ∧ ∀ v ∈ vs, ty.kind.Fits v
  | writeBlob data => SizeFits data.length

def Wire.Fits : Wire → Prop
  | full op => op.Fits
  | append => True
  | updateLast ty _ v => ty.kind.Fits v.val
  | updateNext ty v => ty.kind.Fits v.val

theorem fits_abbreviate {op : Op} (h : op.Fits) (c : Context) :
    (abbreviate c op).Fits := by
  cases op with
  | insertInto t r =>
      rw [abbreviate]
      split
      · trivial
      · exact h
  | update ty t r f v =>
      rw [abbreviate]
      split
      · exact h.2
      · split
        · exact h.2
        · exact h
  | _ => exact h

end Joedb
