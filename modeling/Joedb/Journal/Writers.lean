import Joedb.Journal.BufferSpec
import Joedb.Journal.Writable

/-!
# What the writers write

Each writer appends the bytes of the abbreviated operation, leaves the context
that operation leaves, and does not touch the checkpoints. Where the buffer was
split by a flush is not visible in any of it.
-/

namespace Joedb

open ByteFile FileBuffer

namespace FileBuffer

/-- One more writer behind what was written. -/
theorem Appends.then {b b' b'' : FileBuffer} {bs cs : Bytes} (h : b.Appends bs b')
    (hw : b'.Writing → b'.Appends cs b'') : b.Appends (bs ++ cs) b'' :=
  h.trans (hw h.writing)

theorem writeCode_appends {b : FileBuffer} (h : b.Writing) (code : UInt8) :
    b.Appends [code] (b.writeCode code) := write_appends h _

theorem writeId_appends {b : FileBuffer} (h : b.Writing) (id : UInt16) :
    b.Appends (idBytes id) (b.writeId id) := writeCompact_appends h _

theorem writeMethod_appends {b : FileBuffer} (h : b.Writing) (k : Kind) (v : k.Val) :
    b.Appends (k.bytes v) (b.writeMethod k v) := by
  cases k with
  | string => exact writeString_appends h v
  | reference => exact writeReference_appends h v
  | blob => exact writeBlob_appends h v
  | fixed size => exact write_appends h _

/-- Values written one by one. -/
theorem foldl_appends {α : Type} {f : FileBuffer → α → FileBuffer} {g : α → Bytes}
    (hf : ∀ b : FileBuffer, b.Writing → ∀ v, b.Appends (g v) (f b v)) (vs : List α) :
    ∀ {b : FileBuffer}, b.Writing → b.Appends (vs.map g).flatten (vs.foldl f b) := by
  induction vs with
  | nil => intro b h; exact Appends.refl h
  | cons v vs ih =>
      intro b h
      exact (hf b h v).then fun h' => ih h'

theorem writeVector_appends {b : FileBuffer} (h : b.Writing) (k : Kind)
    (vs : List k.Val) : b.Appends (k.vectorBytes vs) (b.writeVector k vs) := by
  cases k with
  | string => exact foldl_appends (fun _ h s => writeString_appends h s) vs h
  | reference => exact foldl_appends (fun _ h id => writeReference_appends h id) vs h
  | blob => exact foldl_appends (fun _ h blob => writeBlob_appends h blob) vs h
  | fixed size => exact writeData_appends h _

end FileBuffer

namespace Operation

/-- The three codes beside an update are one apart. -/
theorem code_updateLast (ty : Ty) : (update ty).code + 1 = (updateLast ty).code := by
  cases ty <;> rfl

theorem code_updateNext (ty : Ty) : (update ty).code + 2 = (updateNext ty).code := by
  cases ty <;> rfl

end Operation

namespace Journal

/-- What an operation does to a journal: bytes behind the others, a context,
and nothing to the checkpoints. -/
structure Performs (j : Journal) (bs : Bytes) (c : Context) (j' : Journal) : Prop where
  appends : j.fileBuffer.Appends bs j'.fileBuffer
  context : j'.context = c
  checkpoints : j'.checkpoints = j.checkpoints

variable {j : Journal}

theorem addField_performs (h : j.fileBuffer.Writing) (t : TableId) (name : Bytes)
    (type : FieldType) :
    j.Performs (Op.bytes (.addField t name type)) j.context (j.addField t name type) := by
  rw [addField, Op.bytes, FieldType.bytes]
  split
  · exact ⟨(writeCode_appends h _).then fun h => (writeId_appends h t).then fun h =>
      (writeString_appends h name).then fun h => (write_appends h [type.typeId]).then fun h =>
        writeId_appends h type.tableId, rfl, rfl⟩
  · exact ⟨(writeCode_appends h _).then fun h => (writeId_appends h t).then fun h =>
      (writeString_appends h name).then fun h => write_appends h _, rfl, rfl⟩

theorem insertInto_performs (h : j.fileBuffer.Writing) (t : TableId) (r : RecordId) :
    j.Performs (abbreviate j.context (.insertInto t r)).bytes
      (Op.context j.context (.insertInto t r)) (j.insertInto t r) := by
  simp only [insertInto, abbreviate]
  split
  · exact ⟨writeCode_appends h _, rfl, rfl⟩
  · exact ⟨(writeCode_appends h _).then fun h => (writeId_appends h t).then fun h =>
      writeReference_appends h r, rfl, rfl⟩

theorem update_performs (h : j.fileBuffer.Writing) (ty : Ty) (t : TableId)
    (r : RecordId) (f : FieldId) (v : ty.Arg) :
    j.Performs (abbreviate j.context (.update ty t r f v)).bytes
      (Op.context j.context (.update ty t r f v)) (j.update ty t r f v) := by
  simp only [update, genericUpdate, abbreviate, Operation.code_updateLast,
    Operation.code_updateNext]
  split
  · next hlast =>
      refine ⟨(writeCode_appends h _).then fun h => (writeId_appends h f).then fun h =>
        writeMethod_appends h ty.kind v.val, ?_, rfl⟩
      simp only [put, Op.context, hlast.1, hlast.2]
  · split
    · next hnext =>
        refine ⟨(writeCode_appends h _).then fun h =>
          writeMethod_appends h ty.kind v.val, ?_, rfl⟩
        simp only [put, Op.context, hnext.1, hnext.2.1, hnext.2.2]
    · exact ⟨(writeCode_appends h _).then fun h => (writeId_appends h t).then fun h =>
        (writeReference_appends h r).then fun h => (writeId_appends h f).then fun h =>
          writeMethod_appends h ty.kind v.val, rfl, rfl⟩

/-- Every writer appends the abbreviated operation and leaves its context. -/
theorem perform_performs (h : j.fileBuffer.Writing) (op : Op) :
    j.Performs (abbreviate j.context op).bytes (op.context j.context) (j.perform op) := by
  cases op with
  | createTable name =>
      exact ⟨(writeCode_appends h _).then fun h => writeString_appends h name, rfl, rfl⟩
  | dropTable t =>
      exact ⟨(writeCode_appends h _).then fun h => writeId_appends h t, rfl, rfl⟩
  | renameTable t name =>
      exact ⟨(writeCode_appends h _).then fun h => (writeId_appends h t).then fun h =>
        writeString_appends h name, rfl, rfl⟩
  | addField t name type => exact addField_performs h t name type
  | dropField t f =>
      exact ⟨(writeCode_appends h _).then fun h => (writeId_appends h t).then fun h =>
        writeId_appends h f, rfl, rfl⟩
  | renameField t f name =>
      exact ⟨(writeCode_appends h _).then fun h => (writeId_appends h t).then fun h =>
        (writeId_appends h f).then fun h => writeString_appends h name, rfl, rfl⟩
  | custom name =>
      exact ⟨(writeCode_appends h _).then fun h => writeString_appends h name, rfl, rfl⟩
  | comment c =>
      exact ⟨(writeCode_appends h _).then fun h => writeString_appends h c, rfl, rfl⟩
  | timestamp ts =>
      exact ⟨(writeCode_appends h _).then fun h => write_appends h _, rfl, rfl⟩
  | validData => exact ⟨writeCode_appends h _, rfl, rfl⟩
  | insertInto t r => exact insertInto_performs h t r
  | deleteFrom t r =>
      exact ⟨(writeCode_appends h _).then fun h => (writeId_appends h t).then fun h =>
        writeReference_appends h r, rfl, rfl⟩
  | insertVector t r size =>
      exact ⟨(writeCode_appends h _).then fun h => (writeId_appends h t).then fun h =>
        (writeReference_appends h r).then fun h => writeCompact_appends h size, rfl, rfl⟩
  | deleteVector t r size =>
      exact ⟨(writeCode_appends h _).then fun h => (writeId_appends h t).then fun h =>
        (writeReference_appends h r).then fun h => writeCompact_appends h size, rfl, rfl⟩
  | update ty t r f v => exact update_performs h ty t r f v
  | updateVector ty t r f vs =>
      exact ⟨(writeCode_appends h _).then fun h => (writeId_appends h t).then fun h =>
        (writeReference_appends h r).then fun h => (writeId_appends h f).then fun h =>
          (writeCompact_appends h vs.length).then fun h =>
            writeVector_appends h ty.kind vs, rfl, rfl⟩
  | writeBlob data =>
      exact ⟨(writeCode_appends h _).then fun h =>
        (writeCompact_appends h data.length).then fun h =>
          flush_iteratorWrite_appends h data, rfl, rfl⟩

end Journal

end Joedb
