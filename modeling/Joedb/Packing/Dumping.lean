import Joedb.Packing.Twins

/-!
# What is dumped

For a database that is in order no getter throws, so what the loops of `dump_data` write
can be said by a list: for each table its runs of used records, and for each run one
insertion and at most one update a field.
-/

namespace Joedb.Dump

open ByteFile Containers StateExcept

/-! ## The operations -/

def fieldOps (tableId : TableId) (recordId size : Nat) (fieldId : FieldId) (f : Field) :
    List Op :=
  match f.column with
  | .monostate => []
  | .vector ty vs =>
      if size > 1 then [.updateVector ty tableId recordId fieldId ((vs.drop recordId).take size)]
      else [.update ty tableId recordId fieldId
        (ty.toArg ((vs.drop recordId).headD ty.kind.default))]

/-- Those of a field that the table may have. -/
def namedOps (tableId : TableId) (t : Table) (recordId size : Nat) (fieldId : FieldId) :
    List Op :=
  match find t.fields fieldId with
  | none => []
  | some f => fieldOps tableId recordId size fieldId f

def insertOp (tableId : TableId) (recordId size : Nat) : Op :=
  if size > 1 then .insertVector tableId recordId size else .insertInto tableId recordId

def runOps (tableId : TableId) (t : Table) (recordId size : Nat) : List Op :=
  if size = 0 then []
  else insertOp tableId recordId size
    :: t.fieldNames.flatMap fun field => namedOps tableId t recordId size field.1

def recordsOps (tableId : TableId) (t : Table) : Nat → Nat → List Op
  | 0, _ => []
  | fuel + 1, recordId =>
      if recordId < t.freedom.getSize then
        let recordId := skipFree t.freedom (t.freedom.getSize - recordId) recordId
        let size := countUsed t.freedom (t.freedom.getSize - recordId) recordId
        runOps tableId t recordId size ++ recordsOps tableId t fuel (recordId + size)
      else []

def tableOps (tableId : TableId) (t : Table) : List Op :=
  recordsOps tableId t t.freedom.getSize 0

def dataOps (db : Database) : List Op :=
  db.tableNames.flatMap fun table =>
    match find db.tables table.1 with
    | none => []
    | some t => tableOps table.1 t

/-! ## The loops -/

section Loops

variable {ω : Type} {W : Writable ω} {g : ω → Op → ω}

/-- A loop whose rounds write operations. -/
theorem forM_takes {α : Type} {body : α → EStateM Exn ω Unit} {ops : α → List Op}
    {xs : List α} (h : ∀ x ∈ xs, ∀ w, body x w = .ok () ((ops x).foldl g w)) (w : ω) :
    xs.forM body w = .ok () ((xs.flatMap ops).foldl g w) := by
  induction xs generalizing w with
  | nil => rfl
  | cons x xs ih =>
      obtain ⟨hx, hxs⟩ := List.forall_mem_cons.mp h
      show (body x >>= fun _ => xs.forM body) w = _
      rw [bind_ok (hx w), List.flatMap_cons, List.foldl_append]
      exact ih hxs _

variable {db : Database} {tableId : TableId} {t : Table}

theorem dumpField_takes (hW : W.Takes g) (hfind : find db.tables tableId = some t)
    {fieldId : FieldId} {f : Field} (hf : find t.fields fieldId = some f)
    (recordId size : Nat) (w : ω) :
    dumpField W db tableId recordId size fieldId w
      = .ok () ((fieldOps tableId recordId size fieldId f).foldl g w) := by
  rw [dumpField, Database.getFieldType_eq hfind hf, ← f.holds]
  cases hcolumn : f.column with
  | monostate =>
      rw [fieldOps, hcolumn]
      rfl
  | vector ty vs =>
      show (do
        let values ← read (db.getStorage ty tableId recordId fieldId)
        if size > 1 then _ else _ : EStateM Exn ω Unit) w = _
      rw [Database.getStorage_eq hfind hf hcolumn, fieldOps, hcolumn]
      show (if size > 1 then _ else _ : EStateM Exn ω Unit) w = _
      simp only
      split
      · exact hW _ w
      · exact hW _ w

theorem dumpRun_takes (hW : W.Takes g) (hfind : find db.tables tableId = some t)
    (hnamed : t.Named) (recordId size : Nat) (w : ω) :
    dumpRun W db tableId recordId size w
      = .ok () ((runOps tableId t recordId size).foldl g w) := by
  rw [dumpRun, runOps]
  by_cases hzero : size = 0
  · subst hzero
    rw [if_pos rfl]
    rfl
  · have hinsert : (do
        when (size > 1) (W.call (.insertVector tableId recordId size))
        when (size = 1) (W.call (.insertInto tableId recordId)) : EStateM Exn ω Unit) w
          = .ok () (g w (insertOp tableId recordId size)) := by
      rw [insertOp]
      by_cases hone : size > 1
      · rw [when_pos hone, if_pos hone, bind_ok (hW _ w), when_neg (by omega)]
        rfl
      · rw [when_neg hone, if_neg hone, pure_bind_run, when_pos (by omega)]
        exact hW _ w
    rw [if_neg hzero, List.foldl_cons, if_pos (Nat.pos_of_ne_zero hzero),
      Database.getFields_eq hfind]
    rw [read, ← bind_assoc, bind_ok hinsert]
    refine forM_takes (fun field hmem w => ?_) _
    have hkey : field.1 ∈ keys t.fields := by
      rw [Table.named_iff.mp hnamed]
      exact List.mem_map_of_mem hmem
    obtain ⟨f, hf⟩ := Option.isSome_iff_exists.mp (find_isSome_iff.mpr hkey)
    rw [namedOps, hf]
    exact dumpField_takes hW hfind hf recordId size w

theorem dumpRecords_takes (hW : W.Takes g) (hfind : find db.tables tableId = some t)
    (hnamed : t.Named) (fuel recordId : Nat) (w : ω) :
    dumpRecords W db tableId t.freedom fuel recordId w
      = .ok () ((recordsOps tableId t fuel recordId).foldl g w) := by
  induction fuel generalizing recordId w with
  | zero => rfl
  | succ fuel ih =>
      rw [dumpRecords, recordsOps]
      split
      · simp only []
        rw [bind_ok (dumpRun_takes hW hfind hnamed _ _ w), ih, List.foldl_append]
      · rfl

end Loops

theorem dumpData_takes {ω : Type} {W : Writable ω} {g : ω → Op → ω} (hW : W.Takes g)
    {db : Database} (h : db.Ordered) (w : ω) :
    dumpData W db w = W.softCheckpoint ((dataOps db).foldl g w) := by
  obtain ⟨htables, -, hfields⟩ := Database.named_iff.mp h.named
  have hloop : db.getTables.forM (fun table => dumpTable W db table.1) w
      = .ok () ((dataOps db).foldl g w) := by
    refine forM_takes (fun table hmem w => ?_) w
    have hkey : table.1 ∈ keys db.tables := by
      rw [htables]
      exact List.mem_map_of_mem hmem
    obtain ⟨t, ht⟩ := Option.isSome_iff_exists.mp (find_isSome_iff.mpr hkey)
    rw [dumpTable, Database.getFreedom_eq ht, read, pure_bind_run, ht]
    exact dumpRecords_takes hW ht (hfields _ (mem_of_find ht)) _ _ w
  rw [dumpData, bind_ok hloop]

end Joedb.Dump
