import Joedb.Packing.Runs
import Joedb.Ui.FreshTables

/-!
# What a dump makes

A dump of a database is a copy of it: the tables and the fields with the same names and in the
same order, numbered from 1 on without gaps, types that follow their tables, the same used
records, and for each of them the values that an update may carry. Of the characters that a
boolean may be there are two, so this is where a copy may differ: what is true in the original
is 1 in the copy.

A column has room for the records because the old column had, whose type has the same limit.
-/

namespace Joedb

open ByteFile Containers StateExcept

/-! ## Copies -/

/-- The type that a reference becomes where the tables are renumbered. -/
def FieldType.follow (tableIds : List TableId) (type : FieldType) : FieldType :=
  if type.typeId = referenceTypeId then .reference (newId tableIds type.tableId) else type

theorem FieldType.typeId_follow (tableIds : List TableId) (type : FieldType) :
    (type.follow tableIds).typeId = type.typeId := by
  rw [follow]
  split
  · next h => exact h.symm
  · rfl

def TableSchema.renumber (tableIds : List TableId) (s : TableSchema) : TableSchema where
  types := renumbered (s.types.map fun e => (e.1, e.2.follow tableIds))
  names := renumbered s.names
  current := UInt16.ofNat s.names.length

def Schema.renumber (s : Schema) : Schema where
  tables := renumbered (s.tables.map fun e => (e.1, e.2.renumber (keys s.names)))
  names := renumbered s.names
  current := UInt16.ofNat s.names.length

/-- The same records are used, and a value has become what `g` says. -/
structure Table.CopiedTo (g : Sigma Ty.Storage → Sigma Ty.Storage) (t t' : Table) : Prop where
  used : t'.freedom.isUsed = t.freedom.isUsed
  values : ∀ fieldId ∈ keys t.fieldNames, ∀ recordId, t.freedom.isUsed recordId = true →
    t'.value (newId (keys t.fieldNames) fieldId) recordId.toNat
      = (t.value fieldId recordId.toNat).map g

structure Database.CopiedTo (g : Sigma Ty.Storage → Sigma Ty.Storage) (db db' : Database) :
    Prop where
  schema : db'.schema = db.schema.renumber
  tables : ∀ tableId t, find db.tables tableId = some t →
    ∃ t', find db'.tables (newId (keys db.tableNames) tableId) = some t' ∧ t.CopiedTo g t'

/-! ## Columns -/

namespace Table

/-- A table has room for as many records as the one that it is a copy of. -/
theorem fits_renumber {t t' : Table} {tableIds : List TableId}
    (hschema : t'.schema = t.schema.renumber tableIds) {n : Nat} (h : t.Fits n) : t'.Fits n := by
  refine (fits_iff t' n).mpr fun type htype ty hty => ?_
  rw [hschema, TableSchema.renumber, map_snd_renumbered] at htype
  obtain ⟨_, hfollowed, rfl⟩ := List.mem_map.mp htype
  obtain ⟨e, he, rfl⟩ := List.mem_map.mp hfollowed
  rw [FieldType.typeId_follow] at hty
  exact (fits_iff t n).mp h e.2 (List.mem_map.mpr ⟨e, he, rfl⟩) ty hty

/-- Its columns are not too long for what they are. -/
theorem Labelled.fits {t : Table} (h : t.Labelled) (hsound : t.Sound) :
    t.Fits t.freedom.getSize := fun e he => (h.bounded e he).fits (hsound.lengths e he)

end Table

namespace Dump

/-! ## Records -/

section Filling

variable {names : List (TableId × Bytes)} {tid : TableId} {k : FreedomKeeper} {s : TableSchema}

theorem insertRuns_leads (hlen : names.length < 65536) (htid : tid ∈ keys names)
    (hsmall : k.getSize < 2 ^ 63) (hfits : ∀ t : Table, t.schema = s → t.Fits k.getSize)
    {fuel r : Nat} (hfuel : k.getSize ≤ r + fuel) {t : Table} (h : Filled k s r t) :
    ∃ t', t'.Sound ∧ t'.schema = s ∧ t'.freedom.isUsed = k.isUsed ∧
      Leads names tid (insertRuns Database.asWritable (newId (keys names) tid) k fuel r)
        t () t' := by
  induction fuel generalizing r t with
  | zero => exact ⟨t, h.sound, h.schema, h.isUsed hfuel, leads_pure t ()⟩
  | succ fuel ih =>
      rw [insertRuns]
      by_cases hr : r < k.getSize
      · rw [if_pos hr]
        obtain ⟨hlo, hhi, hfree, hstop⟩ := skipFree_spec k (k.getSize - r) r
        have hskip := h.skip hlo hfree
        simp only
        generalize skipFree k (k.getSize - r) r = r₁ at *
        obtain ⟨hle, hall, hpos⟩ := countUsed_spec k (k.getSize - r₁) r₁
        generalize countUsed k (k.getSize - r₁) r₁ = size at *
        by_cases hsize : size > 0
        · rw [when_pos hsize]
          obtain ⟨t₁, hrun, hfilled⟩ :=
            hskip.insertVector (by omega) hall ((hfits t h.schema).mono (by omega))
          obtain ⟨t', hsound, hschema, hused, hleads⟩ := ih (by omega) hfilled
          exact ⟨t', hsound, hschema, hused,
            leads_bind (leads_insertVector hlen htid hrun) hleads⟩
        · -- no record was left: the next round ends the loop
          have hend : ¬ r₁ < k.getSize := fun hlt =>
            hsize (hpos (by omega) (hstop (by omega)))
          rw [when_neg hsize]
          obtain ⟨t', hsound, hschema, hused, hleads⟩ :=
            ih (r := r₁ + size) (by omega) (hskip.skip (by omega) fun x _ _ => by omega)
          exact ⟨t', hsound, hschema, hused, leads_bind (leads_pure t ()) hleads⟩
      · rw [if_neg hr]
        exact ⟨t, h.sound, h.schema, h.isUsed (by omega), leads_pure t ()⟩

end Filling

/-! ## Values -/

section Values

variable {db : Database} {names : List (TableId × Bytes)} {tid : TableId} {t₀ : Table}

/-- The value that the copy of a record has, in a field of the original. -/
def copied (t₀ : Table) (fid : FieldId) (x : Nat) : Option (Sigma Ty.Storage) :=
  (t₀.value fid x).map carried

/-- A field of the new table has a type like the one of the original. -/
def SameType (s : TableSchema) (nfid : FieldId) (f₀ : Field) : Prop :=
  (find s.types nfid).map (·.typeId) = some f₀.type.typeId

theorem SameType.column {t : Table} {nfid : FieldId} {f₀ : Field}
    (h : SameType t.schema nfid f₀) :
    ∃ f, find t.fields nfid = some f ∧ f.column.holds = f₀.column.holds := by
  obtain ⟨type, htype, hid⟩ := Option.map_eq_some_iff.mp h
  have htype : find (t.fields.map fun e => (e.1, e.2.type)) nfid = some type := htype
  rw [find_map Field.type] at htype
  obtain ⟨f, hf, rfl⟩ := Option.map_eq_some_iff.mp htype
  exact ⟨f, hf, by rw [f.holds, f₀.holds, hid]⟩

theorem updateValue_leads (hlen : names.length < 65536) (htid : tid ∈ keys names)
    (hfind : find db.tables tid = some t₀) {fid nfid : FieldId} {f₀ : Field}
    (hfield : find t₀.fields fid = some f₀) {t : Table} (h : t.Sound)
    (htype : SameType t.schema nfid f₀) {r : Nat} (hused : t.freedom.isUsed r = true) :
    ∃ t', t'.Sound ∧ t'.schema = t.schema ∧ t'.freedom = t.freedom ∧
      (∀ id x, t'.value id x = if id = nfid ∧ x = r then copied t₀ fid x else t.value id x) ∧
      Leads names tid (updateValue Database.asWritable db tid (newId (keys names) tid) r fid nfid)
        t () t' := by
  obtain ⟨f, hnew, hholds⟩ := htype.column
  have hvalue₀ : ∀ x, t₀.value fid x = f₀.value x := fun x => by
    rw [Table.value, hfield, Option.bind_some]
  rw [updateValue, Database.getFieldType_eq hfind hfield, ← f₀.holds]
  cases hcolumn₀ : f₀.column with
  | monostate =>
      refine ⟨t, h, rfl, rfl, fun id x => ?_, leads_pure t ()⟩
      split
      · next heq =>
          have hcolumn : f.column = .monostate :=
            Column.holds_eq_none.mp (hholds.trans (Column.holds_eq_none.mpr hcolumn₀))
          rw [heq.1, Table.value, hnew, Option.bind_some, copied, hvalue₀]
          rw [Field.value, hcolumn, Field.value, hcolumn₀]
          rfl
      · rfl
  | vector ty vs =>
      obtain ⟨ws, hcolumn⟩ : ∃ ws, f.column = .vector ty ws :=
        Column.holds_eq_some.mp (hholds.trans (Column.holds_eq_some.mpr ⟨vs, hcolumn₀⟩))
      obtain ⟨t', hrun, hstored⟩ := Table.update_run h hnew hcolumn hused
        (ty.toArg (vs.getD r ty.kind.default))
      refine ⟨t', hstored.sound, hstored.schema, hstored.freedom, fun id x => ?_, ?_⟩
      · rw [hstored.value, Int.toNat_natCast, List.length_singleton]
        by_cases hx : id = nfid ∧ x = r
        · rw [if_pos ⟨hx.1, by omega⟩, if_pos hx, copied, hvalue₀, hx.2, Field.value, hcolumn₀,
            Nat.sub_self]
          rfl
        · rw [if_neg hx, if_neg fun h => hx ⟨h.1, by omega⟩]
      · simp only [Column.holds]
        refine leads_read_bind (Database.getStorage_eq hfind hfield hcolumn₀ r) ?_
        rw [headD_drop]
        exact leads_update hlen htid hrun

theorem updateValues_succ {ω : Type} (W : Writable ω) (db : Database) (tid mappedTid : TableId)
    (fid mappedFid : FieldId) (k : FreedomKeeper) (left r : Nat) :
    updateValues W db tid mappedTid fid mappedFid k (left + 1) r
      = ((if k.isUsed r then updateValue W db tid mappedTid r fid mappedFid else pure ())
        >>= fun _ => updateValues W db tid mappedTid fid mappedFid k left (r + 1)) := by
  rw [updateValues]
  split <;> rfl

/-- The values of a field, for the used records from `r` on. -/
theorem updateValues_leads (hlen : names.length < 65536) (htid : tid ∈ keys names)
    (hfind : find db.tables tid = some t₀) {fid nfid : FieldId} {f₀ : Field}
    (hfield : find t₀.fields fid = some f₀) {t : Table} (h : t.Sound)
    (htype : SameType t.schema nfid f₀) {k : FreedomKeeper} (hused : t.freedom.isUsed = k.isUsed)
    (left r : Nat) :
    ∃ t', t'.Sound ∧ t'.schema = t.schema ∧ t'.freedom = t.freedom ∧
      (∀ id (x : Nat), t'.value id x =
        if id = nfid ∧ r ≤ x ∧ x < r + left ∧ k.isUsed x = true then copied t₀ fid x
        else t.value id x) ∧
      Leads names tid
        (updateValues Database.asWritable db tid (newId (keys names) tid) fid nfid k left r)
        t () t' := by
  induction left generalizing t r with
  | zero => exact ⟨t, h, rfl, rfl, fun id x => by rw [if_neg (by omega)], leads_pure t ()⟩
  | succ left ih =>
      have hone : ∃ t₁, t₁.Sound ∧ t₁.schema = t.schema ∧ t₁.freedom = t.freedom ∧
          (∀ id (x : Nat), t₁.value id x =
            if id = nfid ∧ x = r ∧ k.isUsed x = true then copied t₀ fid x else t.value id x) ∧
          Leads names tid (if k.isUsed r then
            updateValue Database.asWritable db tid (newId (keys names) tid) r fid nfid
            else pure ()) t () t₁ := by
        by_cases hr : k.isUsed r = true
        · have hr' : t.freedom.isUsed r = true := hused ▸ hr
          obtain ⟨t₁, hsound, hschema, hfreedom, hvalue, hleads⟩ :=
            updateValue_leads hlen htid hfind hfield h htype hr'
          refine ⟨t₁, hsound, hschema, hfreedom, fun id x => ?_, ?_⟩
          · rw [hvalue]
            by_cases hx : x = r
            · subst hx
              simp only [hr, and_true]
            · simp only [hx, false_and, and_false]
          · rw [if_pos hr]
            exact hleads
        · refine ⟨t, h, rfl, rfl, fun id x => ?_, ?_⟩
          · rw [if_neg]
            rintro ⟨-, rfl, hx⟩
            exact hr hx
          · rw [if_neg hr]
            exact leads_pure t ()
      obtain ⟨t₁, hsound, hschema, hfreedom, hvalue, hleads⟩ := hone
      obtain ⟨t', hsound', hschema', hfreedom', hvalue', hleads'⟩ :=
        ih hsound (hschema ▸ htype) (by rw [hfreedom, hused]) (r + 1)
      refine ⟨t', hsound', hschema'.trans hschema, hfreedom'.trans hfreedom, fun id x => ?_, ?_⟩
      · rw [hvalue', hvalue]
        by_cases hrest : id = nfid ∧ r + 1 ≤ x ∧ x < r + 1 + left ∧ k.isUsed x = true
        · rw [if_pos hrest, if_pos ⟨hrest.1, by omega, by omega, hrest.2.2.2⟩]
        · rw [if_neg hrest]
          by_cases hfirst : id = nfid ∧ x = r ∧ k.isUsed x = true
          · rw [if_pos hfirst, if_pos ⟨hfirst.1, by omega, by omega, hfirst.2.2⟩]
          · rw [if_neg hfirst, if_neg]
            rintro ⟨hid, hlo, hhi, hx⟩
            by_cases hxr : x = r
            · exact hfirst ⟨hid, hxr, hx⟩
            · exact hrest ⟨hid, by omega, by omega, hx⟩
      · rw [updateValues_succ]
        exact leads_bind hleads hleads'

/-- All the fields of a table. -/
theorem updateFields_leads (hlen : names.length < 65536) (htid : tid ∈ keys names)
    (hfind : find db.tables tid = some t₀) (h₀ : t₀.Labelled) (fieldMap : List (FieldId × FieldId))
    (hmap : ∀ id, subscript fieldMap id = newId (keys t₀.fieldNames) id) {s : TableSchema}
    (hs : ∀ fid f₀, find t₀.fields fid = some f₀ →
      SameType s (newId (keys t₀.fieldNames) fid) f₀) {k : FreedomKeeper}
    {todo : List (FieldId × Bytes)} (hnodup : (keys todo).Nodup)
    (htodo : ∀ fid ∈ keys todo, fid ∈ keys t₀.fieldNames) {t : Table} (h : t.Sound)
    (hschema : t.schema = s) (hused : t.freedom.isUsed = k.isUsed) :
    ∃ t', t'.Sound ∧ t'.schema = s ∧ t'.freedom = t.freedom ∧
      (∀ fid ∈ keys todo, ∀ x : Nat, x < k.getSize → k.isUsed x = true →
        t'.value (newId (keys t₀.fieldNames) fid) x = copied t₀ fid x) ∧
      (∀ id, (∀ fid ∈ keys todo, id ≠ newId (keys t₀.fieldNames) fid) → ∀ x,
        t'.value id x = t.value id x) ∧
      Leads names tid (todo.forM fun field => updateValues Database.asWritable db tid
        (newId (keys names) tid) field.1 (subscript fieldMap field.1) k k.getSize 0) t () t' := by
  induction todo generalizing t with
  | nil =>
      exact ⟨t, h, hschema, rfl, fun fid hfid => absurd hfid List.not_mem_nil, fun _ _ _ => rfl,
        leads_pure t ()⟩
  | cons field todo ih =>
      obtain ⟨fid, name⟩ := field
      rw [show keys ((fid, name) :: todo) = fid :: keys todo from rfl] at hnodup htodo ⊢
      obtain ⟨hnot, hrest⟩ := List.nodup_cons.mp hnodup
      obtain ⟨hfid, hfids⟩ := List.forall_mem_cons.mp htodo
      obtain ⟨f₀, hfield⟩ := Option.isSome_iff_exists.mp
        (find_isSome_iff.mpr (h₀.keys_eq ▸ hfid : fid ∈ keys t₀.fields))
      obtain ⟨t₁, hsound, hschema₁, hfreedom, hvalue, hleads⟩ :=
        updateValues_leads hlen htid hfind hfield h (hschema ▸ hs fid f₀ hfield) hused
          k.getSize 0
      obtain ⟨t', hsound', hschema', hfreedom', hdone, hothers, hleads'⟩ :=
        ih hrest hfids hsound (hschema₁.trans hschema) (by rw [hfreedom, hused])
      refine ⟨t', hsound', hschema', hfreedom'.trans hfreedom, fun fid' hfid' x hx hxused => ?_,
        fun id hid x => ?_, ?_⟩
      · rcases List.mem_cons.mp hfid' with rfl | hmem
        · have hlen₀ : (keys t₀.fieldNames).length < 65536 := by
            rw [keys, List.length_map]
            exact h₀.directory.length_lt
          rw [hothers _ fun fid hmem heq => ?_, hvalue, if_pos ⟨rfl, by omega, by omega, hxused⟩]
          rw [newId_inj hlen₀ hfid (hfids fid hmem) heq] at hnot
          exact hnot hmem
        · exact hdone fid' hmem x hx hxused
      · obtain ⟨hne, hrest⟩ := List.forall_mem_cons.mp hid
        rw [hothers id hrest x, hvalue, if_neg fun heq => hne heq.1]
      · rw [← hmap fid] at hleads
        exact leads_bind hleads hleads'

end Values

/-! ## Databases -/

section Databases

variable {db : Database} {tableMap : List (TableId × TableId)}

theorem find_of_ids {α β : Type} {m : List (UInt16 × α)} (g : UInt16 → β) {id : UInt16}
    (h : id ∈ keys m) : find (m.map fun e => (e.1, g e.1)) id = some (g id) := by
  induction m with
  | nil => exact absurd h List.not_mem_nil
  | cons e m ih =>
      rw [List.map_cons, find]
      by_cases hid : id = e.1
      · rw [if_pos hid, hid]
      · rw [if_neg hid]
        exact ih ((List.mem_cons.mp h).resolve_left hid)

/-- The fields of a new table are those of the original. -/
theorem Grown.renumber (hdb : db.Labelled)
    (hmap : ∀ id, subscript tableMap id = newId (keys db.tableNames) id) {tid : TableId}
    {t₀ t : Table} (hfind : find db.tables tid = some t₀)
    (h : Grown (mappedType db tableMap tid) t₀.fieldNames t) :
    t.schema = t₀.schema.renumber (keys db.tableNames) := by
  have h₀ : t₀.Labelled := hdb.tables _ (mem_of_find hfind)
  have hkeys : keys (t₀.fieldNames.map fun e => (e.1, mappedType db tableMap tid e.1))
      = keys t₀.fieldNames := by
    rw [keys, keys, List.map_map]
    rfl
  have htypes : t₀.fieldNames.map (fun e => (e.1, mappedType db tableMap tid e.1))
      = t₀.schema.types.map fun e => (e.1, e.2.follow (keys db.tableNames)) := by
    refine eq_of_find ?_ (hkeys ▸ h₀.directory.nodup_keys) fun fid hfid => ?_
    · rw [hkeys, keys_map, Table.schema, keys_map, h₀.keys_eq]
    · rw [hkeys] at hfid
      obtain ⟨f, hfield⟩ := Option.isSome_iff_exists.mp
        (find_isSome_iff.mpr (h₀.keys_eq ▸ hfid : fid ∈ keys t₀.fields))
      have hold : find t₀.schema.types fid = some f.type := by
        rw [Table.schema, find_map Field.type, hfield]
        rfl
      rw [find_map (FieldType.follow (keys db.tableNames)), hold, find_of_ids _ hfid, mappedType,
        Database.getFieldType_eq hfind hfield, mapType, hmap]
      rfl
  rw [h.schema, htypes]
  rfl

theorem sameType_renumber {t₀ : Table} (h₀ : t₀.Labelled) (tableIds : List TableId)
    {fid : FieldId} {f₀ : Field} (hfield : find t₀.fields fid = some f₀) :
    SameType (t₀.schema.renumber tableIds) (newId (keys t₀.fieldNames) fid) f₀ := by
  have hkeys : keys (t₀.schema.types.map fun e => (e.1, e.2.follow tableIds))
      = keys t₀.fieldNames := by rw [keys_map, Table.schema, keys_map, h₀.keys_eq]
  have hlen : (t₀.schema.types.map fun e => (e.1, e.2.follow tableIds)).length < 65536 :=
    Nat.lt_of_le_of_lt (Nat.le_of_eq (length_of_keys hkeys)) h₀.directory.length_lt
  have hfid : fid ∈ keys t₀.fieldNames :=
    h₀.keys_eq ▸ find_isSome_iff.mp (Option.isSome_of_eq_some hfield)
  rw [SameType, TableSchema.renumber]
  simp only
  rw [← hkeys, find_renumbered hlen (hkeys ▸ hfid), find_map (FieldType.follow tableIds),
    Table.schema, find_map Field.type, hfield, Option.map_some, Option.map_some, Option.map_some,
    FieldType.typeId_follow]

theorem filled_grown {g : FieldId → FieldType} {fields : List (FieldId × Bytes)} {t : Table}
    (h : Grown g fields t) (k : FreedomKeeper) {s : TableSchema} (hschema : t.schema = s) :
    Filled k s 0 t := by
  refine ⟨h.sound, hschema, fun x => ?_⟩
  rw [h.freedom, show FreedomKeeper.create.isUsed x = false from
    congrFun (congrArg Records.used FreedomKeeper.records_create) x]
  cases hused : k.isUsed x with
  | false => rfl
  | true =>
      have hlo := (FreedomKeeper.lt_of_isUsed hused).1
      exact (decide_eq_false (Int.not_lt.mpr hlo)).symm

/-- The records and the values of a table. -/
theorem fillTable_leads (hdb : db.Labelled)
    (hmap : ∀ id, subscript tableMap id = newId (keys db.tableNames) id) {tid : TableId}
    {t₀ t : Table} (hfind : find db.tables tid = some t₀) (hsound₀ : t₀.Sound)
    {fieldMaps : List (TableId × List (FieldId × FieldId))}
    (hmaps : find fieldMaps tid = some (numbers (keys t₀.fieldNames) 0 []))
    (h : Grown (mappedType db tableMap tid) t₀.fieldNames t) (name : Bytes) :
    ∃ t', t'.schema = t₀.schema.renumber (keys db.tableNames) ∧ t₀.CopiedTo carried t' ∧
      Leads db.tableNames tid (fillTable Database.asWritable db tableMap fieldMaps (tid, name))
        t () t' := by
  have h₀ : t₀.Labelled := hdb.tables _ (mem_of_find hfind)
  have hlen := hdb.directory.length_lt
  have htid : tid ∈ keys db.tableNames :=
    hdb.keys_eq ▸ find_isSome_iff.mp (Option.isSome_of_eq_some hfind)
  obtain ⟨t₁, hsound₁, hschema₁, hused₁, hleads₁⟩ := insertRuns_leads hlen htid
    hsound₀.small (fun _ hs => Table.fits_renumber hs (h₀.fits hsound₀))
    (Nat.le_of_eq (Nat.zero_add _).symm) (filled_grown h t₀.freedom (h.renumber hdb hmap hfind))
  obtain ⟨t', hsound', hschema', hfreedom', hvalues, -, hleads'⟩ := updateFields_leads hlen htid
    hfind h₀ ((find fieldMaps tid).getD [])
    (fun id => by rw [hmaps]; exact subscript_numbers h₀.directory.nodup_keys id)
    (fun _ _ hfield => sameType_renumber h₀ (keys db.tableNames) hfield) h₀.directory.nodup_keys
    (fun _ => id) hsound₁ hschema₁ hused₁
  refine ⟨t', hschema', ⟨by rw [hfreedom', hused₁], fun fid hfid x hx => ?_⟩, ?_⟩
  · obtain ⟨hlo, hlt⟩ := FreedomKeeper.lt_of_isUsed hx
    have hcast : (x.toNat : Int) = x := Int.toNat_of_nonneg hlo
    exact hvalues fid hfid x.toNat (by omega) (hcast ▸ hx)
  · rw [fillTable, hmap]
    exact leads_read_bind (Database.getFreedom_eq hfind)
      (leads_bind hleads₁ (leads_read_bind (Database.getFields_eq hfind) hleads'))

theorem fillTables_run (hdb : db.Labelled) (hsound : db.Sound)
    (hmap : ∀ id, subscript tableMap id = newId (keys db.tableNames) id)
    {fieldMaps : List (TableId × List (FieldId × FieldId))} {todo : List (TableId × Bytes)}
    (hnodup : (keys todo).Nodup) (htodo : ∀ id ∈ keys todo, id ∈ keys db.tableNames)
    (ts : List (TableId × Table)) (hkeys : keys ts = keys db.tableNames)
    (hgrown : ∀ id ∈ keys todo, ∀ t₀, find db.tables id = some t₀ →
      find fieldMaps id = some (numbers (keys t₀.fieldNames) 0 []) ∧
      ∃ t, find ts id = some t ∧ Grown (mappedType db tableMap id) t₀.fieldNames t) :
    ∃ ts', (todo.forM (fillTable Database.asWritable db tableMap fieldMaps))
        (fresh db.tableNames ts) = .ok () (fresh db.tableNames ts') ∧
      keys ts' = keys db.tableNames ∧
      (∀ id ∈ keys todo, ∀ t₀, find db.tables id = some t₀ → ∃ t, find ts' id = some t ∧
        t.schema = t₀.schema.renumber (keys db.tableNames) ∧ t₀.CopiedTo carried t) ∧
      ∀ id ∉ keys todo, find ts' id = find ts id := by
  induction todo generalizing ts with
  | nil => exact ⟨ts, rfl, hkeys, fun id hid => absurd hid List.not_mem_nil, fun _ _ => rfl⟩
  | cons e todo ih =>
      obtain ⟨tid, name⟩ := e
      rw [show keys ((tid, name) :: todo) = tid :: keys todo from rfl] at hnodup htodo hgrown ⊢
      obtain ⟨hnot, hrest⟩ := List.nodup_cons.mp hnodup
      obtain ⟨htid, htids⟩ := List.forall_mem_cons.mp htodo
      obtain ⟨t₀, hfind⟩ := Option.isSome_iff_exists.mp
        (find_isSome_iff.mpr (hdb.keys_eq ▸ htid : tid ∈ keys db.tables))
      obtain ⟨hmaps, t, ht, hgrown₀⟩ := hgrown tid List.mem_cons_self t₀ hfind
      obtain ⟨t₁, hschema, hcopied, hleads⟩ := fillTable_leads hdb hmap hfind
        (hsound.sound tid t₀ hfind) hmaps hgrown₀ name
      obtain ⟨ts', hrun, hkeys', hdone, hothers⟩ := ih hrest htids
        (assign ts tid t₁) ((keys_assign _ _ _).trans hkeys) fun id hid s₀ hs₀ => by
          have hne : id ≠ tid := by
            rintro rfl
            exact hnot hid
          rw [find_assign_eq, if_neg hne]
          exact hgrown id (List.mem_cons_of_mem _ hid) s₀ hs₀
      refine ⟨ts', ?_, hkeys', fun id hid s₀ hs₀ => ?_, fun id hid => ?_⟩
      · exact (bind_ok (hleads ts hkeys ht)).trans hrun
      · rcases List.mem_cons.mp hid with rfl | hid
        · rw [hfind] at hs₀
          obtain rfl := Option.some.inj hs₀
          rw [hothers id hnot, find_assign ht]
          exact ⟨t₁, rfl, hschema, hcopied⟩
        · exact hdone id hid s₀ hs₀
      · obtain ⟨hne, hid⟩ := not_or.mp fun h => hid (List.mem_cons.mpr h)
        rw [hothers id hid, find_assign_eq, if_neg hne]

/-- What was made of every table makes a copy. -/
theorem copiedTo_fresh (hdb : db.Labelled) {g : Sigma Ty.Storage → Sigma Ty.Storage}
    {ts : List (TableId × Table)} (hkeys : keys ts = keys db.tableNames)
    (hts : ∀ id ∈ keys db.tableNames, ∀ t₀, find db.tables id = some t₀ →
      ∃ t, find ts id = some t ∧ t.schema = t₀.schema.renumber (keys db.tableNames) ∧
        t₀.CopiedTo g t) : db.CopiedTo g (fresh db.tableNames ts) := by
  have hold : ∀ {id}, id ∈ keys db.tableNames → ∃ t₀, find db.tables id = some t₀ := fun hid =>
    Option.isSome_iff_exists.mp (find_isSome_iff.mpr (hdb.keys_eq ▸ hid))
  have htables : ts.map (fun e => (e.1, e.2.schema))
      = db.schema.tables.map fun e => (e.1, e.2.renumber (keys db.tableNames)) := by
    refine eq_of_find ?_ ?_ fun id hid => ?_
    · rw [keys_map, keys_map, Database.schema, keys_map, hkeys, hdb.keys_eq]
    · rw [keys_map, hkeys]
      exact hdb.directory.nodup_keys
    · rw [keys_map, hkeys] at hid
      obtain ⟨t₀, hfind⟩ := hold hid
      obtain ⟨t, ht, hschema, -⟩ := hts id hid t₀ hfind
      rw [find_map Table.schema, ht, find_map (TableSchema.renumber (keys db.tableNames)),
        Database.schema, find_map Table.schema, hfind, Option.map_some, Option.map_some,
        Option.map_some, hschema]
  refine ⟨?_, fun tid t₀ hfind => ?_⟩
  · rw [Database.schema, Schema.renumber, fresh]
    simp only
    rw [map_renumbered Table.schema, htables]
    rfl
  · have htid : tid ∈ keys db.tableNames :=
      hdb.keys_eq ▸ find_isSome_iff.mp (Option.isSome_of_eq_some hfind)
    obtain ⟨t, ht, -, hcopied⟩ := hts tid htid t₀ hfind
    have hlen : ts.length < 65536 :=
      Nat.lt_of_le_of_lt (Nat.le_of_eq (length_of_keys hkeys)) hdb.directory.length_lt
    refine ⟨t, ?_, hcopied⟩
    rw [← hkeys, fresh, find_renumbered hlen (hkeys ▸ htid), ht]

theorem dump_run (hdb : db.Labelled) (hsound : db.Sound) :
    ∃ db', dump Database.asWritable db false (Database.create (-1)) = .ok () db' ∧
      db.CopiedTo carried db' := by
  have hnodup := hdb.directory.nodup_keys
  have hmap := subscript_numbers hnodup
  have hnames : Directory ([] ++ db.tableNames) db.currentTableId := hdb.directory
  have htables := createTables_run hnames [] rfl []
  rw [List.nil_append, List.nil_append] at htables
  have hnew : ∀ id ∈ keys db.tableNames,
      find (db.tableNames.map fun e => (e.1, Table.create)) id = some .create := fun id hid =>
    find_of_ids (fun _ => Table.create) hid
  obtain ⟨maps, ts, hfields, hkeys, hgrown, -⟩ := addAllFields_run hdb hmap hnodup (fun _ => id)
    (keys_map db.tableNames fun _ => Table.create) hnew []
  obtain ⟨ts', hfill, hkeys', hcopied, -⟩ := fillTables_run hdb hsound hmap hnodup (fun _ => id)
    ts hkeys hgrown
  refine ⟨fresh db.tableNames ts', ?_, copiedTo_fresh hdb hkeys' hcopied⟩
  rw [dump]
  refine (bind_ok htables).trans ((bind_ok hfields).trans ?_)
  rw [if_neg Bool.false_ne_true]
  exact hfill

end Databases

/-- A dump into a fresh database throws nothing and makes a copy, whatever was done to the
original as long as there was memory. -/
theorem dump_copies (maxRecordId : RecordId) (ops : List Op)
    (hmemory : (Database.create maxRecordId).Allocates ops) :
    ∃ db', dump Database.asWritable ((Database.create maxRecordId).callEach ops) false
        (Database.create (-1)) = .ok () db' ∧
      ((Database.create maxRecordId).callEach ops).CopiedTo carried db' :=
  dump_run ((Database.labelled_create maxRecordId).callEach ops)
    ((Database.sound_create maxRecordId).callEach hmemory)

/-- A table that is dropped, a field that is dropped, a reference to either table, and a hole. -/
theorem dump_copies_hole :
    let ops : List Op := [.createTable [0x61], .createTable [0x62], .dropTable 1,
      .addField 2 [0x78] (.plain (Ty.typeId .int8)), .addField 2 [0x79] (.reference 1),
      .addField 2 [0x7a] (.reference 2), .dropField 2 1, .insertVector 2 0 3, .deleteFrom 2 1,
      .update .reference 2 2 3 (Ty.toArg .reference (0 : Int))]
    ∃ db', dump Database.asWritable ((Database.create (-1)).callEach ops) false
        (Database.create (-1)) = .ok () db' ∧
      ((Database.create (-1)).callEach ops).CopiedTo carried db' :=
  dump_copies (-1) _ ⟨by decide +kernel, by decide +kernel, by decide +kernel, by decide +kernel,
    by decide +kernel, by decide +kernel, by decide +kernel, by decide +kernel,
    by decide +kernel, by decide +kernel, trivial⟩

/-- The character of the first record in the first field of the first table, if that is a field
of booleans. -/
def firstCharacter (db : Database) : Option Nat :=
  (find db.tables 1).bind fun t => (t.value 1 0).map fun
    | ⟨.boolean, c⟩ => BitVec.toNat c
    | _ => 0

/-- The same of the database that a run leaves, if it returns. -/
def characterLeft : EStateM.Result Exn Database Unit → Option Nat
  | .ok _ db => firstCharacter db
  | .error _ _ => none

/-- A table with a boolean that is the character 2. -/
def characterTwo : List Op := [.createTable [0x74],
  .addField 1 [0x66] (.plain (Ty.typeId .boolean)), .insertInto 1 0,
  .updateVector .boolean 1 0 1 [(2 : BitVec 8)]]

/-- The character 2 becomes a 1. -/
theorem dump_boolean :
    ¬ ∀ (maxRecordId : RecordId) (ops : List Op),
      (Database.create maxRecordId).Allocates ops →
      ∃ db', dump Database.asWritable ((Database.create maxRecordId).callEach ops) false
          (Database.create (-1)) = .ok () db' ∧
        ((Database.create maxRecordId).callEach ops).CopiedTo id db' := by
  intro hall
  obtain ⟨db', hdump, hcopied⟩ := hall (-1) characterTwo
    ⟨by decide +kernel, by decide +kernel, by decide +kernel, by decide +kernel, trivial⟩
  have htwo : firstCharacter ((Database.create (-1)).callEach characterTwo) = some 2 := by
    decide +kernel
  have hone : characterLeft (dump Database.asWritable
      ((Database.create (-1)).callEach characterTwo) false (Database.create (-1))) = some 1 := by
    decide +kernel
  have hids : newId (keys ((Database.create (-1)).callEach characterTwo).tableNames) 1 = 1 := by
    decide +kernel
  have htable : (find ((Database.create (-1)).callEach characterTwo).tables 1).map
      (fun t => (keys t.fieldNames, t.freedom.isUsed 0)) = some ([1], true) := by decide +kernel
  obtain ⟨t, hfind, hfacts⟩ := Option.map_eq_some_iff.mp htable
  obtain ⟨hfields, hused⟩ := Prod.mk.inj hfacts
  obtain ⟨t', hfind', ht'⟩ := hcopied.tables 1 t hfind
  have hvalue := ht'.values 1 (hfields ▸ List.mem_cons_self) 0 hused
  rw [hfields, show newId [1] 1 = 1 by decide, Option.map_id] at hvalue
  rw [hdump] at hone
  have hsame : firstCharacter db'
      = firstCharacter ((Database.create (-1)).callEach characterTwo) := by
    rw [firstCharacter, firstCharacter, hfind, ← hids, hfind', Option.bind_some, Option.bind_some]
    exact congrArg _ hvalue
  have htwice : some 1 = some 2 := hone.symm.trans (hsame.trans htwo)
  cases htwice

end Dump

end Joedb
