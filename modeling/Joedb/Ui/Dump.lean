import Joedb.Packing.Pack

/-!
# Dump

`dump` writes a database into a `Writable` from the beginning: its tables, then all their fields,
then table by table the records and the values. Ids are given anew, in the order of the old
ones, so what is dropped leaves no gap. Types have to follow: a reference is to the new id of
its table, and where a `std::map` has no entry for a table it makes one with id 0.

All tables are there before the first field is, so a reference may be to a table that comes
later, and all records of a table before the first value.
-/

namespace Joedb.Dump

open ByteFile Containers StateExcept

/-- `map[id]`, and 0 where there is no entry. -/
def subscript (map : List (UInt16 × UInt16)) (id : UInt16) : UInt16 := (find map id).getD 0

section Loops

variable {ω : Type} (W : Writable ω) (db : Database)

/-- The first loop: what becomes of `table_map`. -/
def createTables : List (TableId × Bytes) → TableId → List (TableId × TableId) →
    EStateM Exn ω (List (TableId × TableId))
  | [], _, tableMap => pure tableMap
  | (tid, tname) :: tables, mappedTid, tableMap => do
      let mappedTid := mappedTid + 1
      W.call (.createTable tname)
      createTables tables mappedTid (insertOrAssign tableMap tid mappedTid)

/-- The type of a field among the new tables. -/
def mapType (tableMap : List (TableId × TableId)) (type : FieldType) : FieldType :=
  if type.typeId = referenceTypeId then .reference (subscript tableMap type.tableId) else type

/-- The loop over the fields of a table: what becomes of its map in `field_maps`. -/
def addFields (tableMap : List (TableId × TableId)) (tid : TableId) :
    List (FieldId × Bytes) → FieldId → List (FieldId × FieldId) →
    EStateM Exn ω (List (FieldId × FieldId))
  | [], _, fieldMap => pure fieldMap
  | (fid, fname) :: fields, mappedFid, fieldMap => do
      let mappedFid := mappedFid + 1
      W.call (.addField (subscript tableMap tid) fname
        (mapType tableMap (db.getFieldType tid fid)))
      addFields tableMap tid fields mappedFid (insertOrAssign fieldMap fid mappedFid)

/-- The second loop. -/
def addAllFields (tableMap : List (TableId × TableId)) :
    List (TableId × Bytes) → List (TableId × List (FieldId × FieldId)) →
    EStateM Exn ω (List (TableId × List (FieldId × FieldId)))
  | [], fieldMaps => pure fieldMaps
  | (tid, _) :: tables, fieldMaps => do
      let fields ← read (db.getFields tid)
      let fieldMap ← addFields W db tableMap tid fields 0 []
      addAllFields tableMap tables (insertOrAssign fieldMaps tid fieldMap)

/-- The loop over the runs of used records. -/
def insertRuns (mappedTid : TableId) (k : FreedomKeeper) : Nat → Nat → EStateM Exn ω Unit
  | 0, _ => pure ()
  | fuel + 1, recordId =>
      if recordId < k.getSize then do
        let recordId := skipFree k (k.getSize - recordId) recordId
        let size := countUsed k (k.getSize - recordId) recordId
        when (size > 0) (W.call (.insertVector mappedTid recordId size))
        insertRuns mappedTid k fuel (recordId + size)
      else pure ()

/-- A `case` of the type macro. -/
def updateValue (tid mappedTid : TableId) (recordId : Nat) (fid mappedFid : FieldId) :
    EStateM Exn ω Unit :=
  match Ty.ofTypeId (db.getFieldType tid fid).typeId with
  | none => pure ()
  | some ty => do
      let values ← read (db.getStorage ty tid recordId fid)
      W.call (.update ty mappedTid recordId mappedFid
        (ty.toArg (values.headD ty.kind.default)))

/-- The loop over the records, for a field. -/
def updateValues (tid mappedTid : TableId) (fid mappedFid : FieldId) (k : FreedomKeeper) :
    Nat → Nat → EStateM Exn ω Unit
  | 0, _ => pure ()
  | left + 1, recordId => do
      if k.isUsed recordId then updateValue W db tid mappedTid recordId fid mappedFid
      else pure ()
      updateValues tid mappedTid fid mappedFid k left (recordId + 1)

/-- The records of a table, and their values field by field. -/
def fillTable (tableMap : List (TableId × TableId))
    (fieldMaps : List (TableId × List (FieldId × FieldId))) (table : TableId × Bytes) :
    EStateM Exn ω Unit := do
  let k ← read (db.getFreedom table.1)
  insertRuns W (subscript tableMap table.1) k k.getSize 0
  let fields ← read (db.getFields table.1)
  fields.forM fun field =>
    updateValues W db table.1 (subscript tableMap table.1) field.1
      (subscript ((find fieldMaps table.1).getD []) field.1) k k.getSize 0

def dump (schemaOnly : Bool) : EStateM Exn ω Unit := do
  let tableMap ← createTables W db.getTables 0 []
  let fieldMaps ← addAllFields W db tableMap db.getTables []
  if schemaOnly then pure ()
  else db.getTables.forM (fillTable W db tableMap fieldMaps)

end Loops

end Joedb.Dump
