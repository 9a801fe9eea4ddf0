import Joedb.Packing.Schemas

/-!
# Twins

Two databases of one schema, the second without records: what is done to the schema of
the first can be done to the second, which stays its twin. A field can always be added
where there are no records, whatever its type.
-/

namespace Joedb

open ByteFile Containers StateExcept

/-- Names and things have the same keys, and those of the tables ascend. -/
structure Schema.Named (s : Schema) : Prop where
  tables : keys s.tables = keys s.names
  ascending : (keys s.names).Pairwise (· < ·)
  fields : ∀ e ∈ s.tables, keys e.2.types = keys e.2.names

/-! ## Tables -/

namespace Table

/-- The same schema, and no records in the second. -/
def Twins (t t₁ : Table) : Prop := t₁.schema = t.schema ∧ t₁.freedom = .create

variable {t t₁ t' : Table}

theorem Twins.types (h : Twins t t₁) :
    t₁.fields.map (fun e => (e.1, e.2.type)) = t.fields.map fun e => (e.1, e.2.type) :=
  congrArg TableSchema.types h.1

theorem Twins.names (h : Twins t t₁) : t₁.fieldNames = t.fieldNames :=
  congrArg TableSchema.names h.1

theorem Twins.current (h : Twins t t₁) : t₁.currentFieldId = t.currentFieldId :=
  congrArg TableSchema.current h.1

theorem Twins.findField (h : Twins t t₁) (name : Bytes) :
    t₁.findField name = t.findField name := by
  rw [Table.findField, Table.findField, h.names]

theorem addField_iff {name : Bytes} {type : FieldType} :
    addField name type t = .ok () t' ↔
      ¬ t.findField name ≠ 0 ∧ ¬ t.currentFieldId = 65535 ∧
        ∃ f, Field.create type t.freedom.getSize = .ok f ∧
          t' = { t with currentFieldId := t.currentFieldId + 1
                        fields := tryEmplace t.fields (t.currentFieldId + 1) f
                        fieldNames := tryEmplace t.fieldNames (t.currentFieldId + 1) name } := by
  rw [addField, get_bind_run, guard_bind_eq_ok, guard_bind_eq_ok, modify_bind_run, get_bind_run]
  refine and_congr_right fun _ => and_congr_right fun _ => ?_
  simp only
  cases Field.create type t.freedom.getSize with
  | error e =>
      constructor
      · intro h
        cases h
      · rintro ⟨f, hf, -⟩
        cases hf
  | ok f =>
      constructor
      · intro h
        exact ⟨f, rfl, (EStateM.Result.ok.inj h).2.symm⟩
      · rintro ⟨f', hf', rfl⟩
        cases hf'
        rfl

theorem dropField_iff {fieldId : FieldId} :
    dropField fieldId t = .ok () t' ↔
      ¬ (find t.fields fieldId).isNone = true ∧
        t' = { t with fieldNames := erase t.fieldNames fieldId
                      fields := erase t.fields fieldId } := by
  rw [dropField, get_bind_run, guard_bind_eq_ok]
  refine and_congr_right fun _ => ⟨fun h => (EStateM.Result.ok.inj h).2.symm, ?_⟩
  rintro rfl
  rfl

theorem renameFieldOf_iff {fieldId : FieldId} {name : Bytes} :
    Database.renameFieldOf fieldId name t = .ok () t' ↔
      ¬ (find t.fieldNames fieldId).isNone = true ∧ ¬ t.findField name ≠ 0 ∧
        t' = { t with fieldNames := assign t.fieldNames fieldId name } := by
  rw [Database.renameFieldOf, get_bind_run, guard_bind_eq_ok, guard_bind_eq_ok]
  refine and_congr_right fun _ => and_congr_right fun _ =>
    ⟨fun h => (EStateM.Result.ok.inj h).2.symm, ?_⟩
  rintro rfl
  rfl

theorem Twins.addField (h : Twins t t₁) {name : Bytes} {type : FieldType}
    (hrun : addField name type t = .ok () t') :
    ∃ t₁', Table.addField name type t₁ = .ok () t₁' ∧ Twins t' t₁' := by
  obtain ⟨hname, hmax, f, hf, rfl⟩ := addField_iff.mp hrun
  obtain ⟨f₁, hf₁⟩ := Field.create_empty type
  refine ⟨_, addField_iff.mpr ⟨by rwa [h.findField], by rwa [h.current], f₁, ?_, rfl⟩, ?_, h.2⟩
  · rw [h.2]
    exact hf₁
  · rw [schema, schema]
    simp only
    rw [map_tryEmplace Field.type, map_tryEmplace Field.type, h.types, h.names, h.current,
      (Field.create_regular hf).2, (Field.create_regular hf₁).2]

theorem Twins.dropField (h : Twins t t₁) {fieldId : FieldId}
    (hrun : dropField fieldId t = .ok () t') :
    ∃ t₁', Table.dropField fieldId t₁ = .ok () t₁' ∧ Twins t' t₁' := by
  obtain ⟨hsome, rfl⟩ := dropField_iff.mp hrun
  have hsame : (find t₁.fields fieldId).map Field.type
      = (find t.fields fieldId).map Field.type := by
    rw [← find_map, ← find_map, h.types]
  have hnone : (find t₁.fields fieldId).isNone = (find t.fields fieldId).isNone := by
    rw [← Option.isNone_map, hsame, Option.isNone_map]
  refine ⟨_, dropField_iff.mpr ⟨by rwa [hnone], rfl⟩, ?_, h.2⟩
  rw [schema, schema]
  simp only
  rw [map_erase Field.type, map_erase Field.type, h.types, h.names, h.current]

theorem Twins.renameField (h : Twins t t₁) {fieldId : FieldId} {name : Bytes}
    (hrun : Database.renameFieldOf fieldId name t = .ok () t') :
    ∃ t₁', Database.renameFieldOf fieldId name t₁ = .ok () t₁' ∧ Twins t' t₁' := by
  obtain ⟨hsome, hname, rfl⟩ := renameFieldOf_iff.mp hrun
  refine ⟨_, renameFieldOf_iff.mpr ⟨by rwa [h.names], by rwa [h.findField], rfl⟩, ?_, h.2⟩
  rw [schema, schema]
  simp only
  rw [h.types, h.names, h.current]

/-! What the same operations leave of the table itself. -/

theorem regular_addField {name : Bytes} {type : FieldType}
    (hrun : addField name type t = .ok () t') (h : t.Regular) : t'.Regular := by
  obtain ⟨-, -, f, hf, rfl⟩ := addField_iff.mp hrun
  exact forall_mem_tryEmplace h _ (Field.create_regular hf).1

theorem regular_dropField {fieldId : FieldId} (hrun : dropField fieldId t = .ok () t')
    (h : t.Regular) : t'.Regular := by
  obtain ⟨-, rfl⟩ := dropField_iff.mp hrun
  exact fun e he => h e (List.mem_of_mem_filter he)

theorem regular_renameField {fieldId : FieldId} {name : Bytes}
    (hrun : Database.renameFieldOf fieldId name t = .ok () t') (h : t.Regular) : t'.Regular := by
  obtain ⟨-, -, rfl⟩ := renameFieldOf_iff.mp hrun
  exact h

def Named (t : Table) : Prop := keys t.schema.types = keys t.schema.names

theorem named_iff : t.Named ↔ keys t.fields = keys t.fieldNames := by
  rw [Named, schema, keys_map]

theorem named_addField {name : Bytes} {type : FieldType}
    (hrun : addField name type t = .ok () t') (h : t.Named) : t'.Named := by
  obtain ⟨-, -, f, -, rfl⟩ := addField_iff.mp hrun
  exact named_iff.mpr (keys_tryEmplace_congr (named_iff.mp h) _ _ _)

theorem named_dropField {fieldId : FieldId} (hrun : dropField fieldId t = .ok () t')
    (h : t.Named) : t'.Named := by
  obtain ⟨-, rfl⟩ := dropField_iff.mp hrun
  refine named_iff.mpr ?_
  rw [keys_erase, keys_erase, named_iff.mp h]

theorem named_renameField {fieldId : FieldId} {name : Bytes}
    (hrun : Database.renameFieldOf fieldId name t = .ok () t') (h : t.Named) : t'.Named := by
  obtain ⟨-, -, rfl⟩ := renameFieldOf_iff.mp hrun
  refine named_iff.mpr ?_
  rw [keys_assign]
  exact named_iff.mp h

end Table

/-! ## Databases -/

namespace Database

def Twins (db db₁ : Database) : Prop :=
  db₁.schema = db.schema ∧ ∀ e ∈ db₁.tables, e.2.freedom = .create

variable {db db₁ db' : Database}

theorem Twins.tables (h : Twins db db₁) :
    db₁.tables.map (fun e => (e.1, e.2.schema)) = db.tables.map fun e => (e.1, e.2.schema) :=
  congrArg Schema.tables h.1

theorem Twins.names (h : Twins db db₁) : db₁.tableNames = db.tableNames :=
  congrArg Schema.names h.1

theorem Twins.current (h : Twins db db₁) : db₁.currentTableId = db.currentTableId :=
  congrArg Schema.current h.1

theorem Twins.findTable (h : Twins db db₁) (name : Bytes) :
    db₁.findTable name = db.findTable name := by
  rw [Database.findTable, Database.findTable, h.names]

theorem Twins.find_schema (h : Twins db db₁) (tableId : TableId) :
    (find db₁.tables tableId).map Table.schema = (find db.tables tableId).map Table.schema := by
  rw [← find_map, ← find_map, h.tables]

/-- A table and its twin. -/
theorem Twins.find_table (h : Twins db db₁) {tableId : TableId} {t : Table}
    (hfind : find db.tables tableId = some t) :
    ∃ t₁, find db₁.tables tableId = some t₁ ∧ Table.Twins t t₁ := by
  have hsame := h.find_schema tableId
  rw [hfind, Option.map_some] at hsame
  obtain ⟨t₁, hfind₁, hschema⟩ := Option.map_eq_some_iff.mp hsame
  exact ⟨t₁, hfind₁, hschema, h.2 _ (mem_of_find hfind₁)⟩

theorem checkIdentifier_bind {message : String} {name : Bytes}
    {f : Unit → EStateM Exn Database Unit} :
    (checkIdentifier message name >>= f) db = .ok () db' ↔
      ¬ isIdentifier name = false ∧ f () db = .ok () db' := guard_bind_eq_ok

theorem createTable_iff {name : Bytes} :
    createTable name db = .ok () db' ↔
      ¬ isIdentifier name = false ∧ ¬ db.findTable name ≠ 0 ∧ ¬ db.currentTableId = 65535 ∧
        db' = { db with currentTableId := db.currentTableId + 1
                        tables := tryEmplace db.tables (db.currentTableId + 1) .create
                        tableNames := tryEmplace db.tableNames (db.currentTableId + 1) name } := by
  rw [createTable, checkIdentifier_bind, get_bind_run, guard_bind_eq_ok, guard_bind_eq_ok,
    modify_bind_run]
  refine and_congr_right fun _ => and_congr_right fun _ => and_congr_right fun _ =>
    ⟨fun h => (EStateM.Result.ok.inj h).2.symm, ?_⟩
  rintro rfl
  rfl

theorem dropTable_iff {tableId : TableId} :
    dropTable tableId db = .ok () db' ↔
      ¬ (find db.tables tableId).isNone = true ∧
        db' = { db with tableNames := erase db.tableNames tableId
                        tables := erase db.tables tableId } := by
  rw [dropTable, get_bind_run, guard_bind_eq_ok]
  refine and_congr_right fun _ => ⟨fun h => (EStateM.Result.ok.inj h).2.symm, ?_⟩
  rintro rfl
  rfl

theorem withTable_run {α : Type} {tableId : TableId} {m : EStateM Exn Table α} {t t' : Table}
    {a : α} (hfind : find db.tables tableId = some t) (hm : m t = .ok a t') :
    withTable tableId m db = .ok a { db with tables := assign db.tables tableId t' } := by
  rw [withTable, hfind]
  simp only [hm]

theorem renameTable_iff {tableId : TableId} {name : Bytes} :
    renameTable tableId name db = .ok () db' ↔
      ¬ isIdentifier name = false ∧ ¬ db.findTable name ≠ 0 ∧
        (find db.tables tableId).isSome = true ∧
        db' = { db with tableNames := insertOrAssign db.tableNames tableId name } := by
  rw [renameTable, checkIdentifier_bind, get_bind_run, guard_bind_eq_ok]
  refine and_congr_right fun _ => and_congr_right fun _ => ?_
  constructor
  · intro h
    obtain ⟨_, db₁, htable, hassign⟩ := bind_eq_ok h
    obtain ⟨t, t', hfind, hm, rfl⟩ := withTable_ok htable
    obtain rfl := (EStateM.Result.ok.inj hm).2
    obtain rfl := (EStateM.Result.ok.inj hassign).2
    exact ⟨by rw [hfind]; rfl, by rw [assign_self hfind]⟩
  · rintro ⟨hsome, rfl⟩
    obtain ⟨t, hfind⟩ := Option.isSome_iff_exists.mp hsome
    rw [bind_ok (withTable_run hfind (m := pure ()) rfl), assign_self hfind]
    rfl

theorem Twins.createTable (h : Twins db db₁) {name : Bytes}
    (hrun : createTable name db = .ok () db') :
    ∃ db₁', Database.createTable name db₁ = .ok () db₁' ∧ Twins db' db₁' := by
  obtain ⟨hid, hname, hmax, rfl⟩ := createTable_iff.mp hrun
  refine ⟨_, createTable_iff.mpr ⟨hid, by rwa [h.findTable], by rwa [h.current], rfl⟩, ?_,
    forall_mem_tryEmplace (P := fun t : Table => t.freedom = .create) h.2 _ rfl⟩
  rw [schema, schema]
  simp only
  rw [map_tryEmplace Table.schema, map_tryEmplace Table.schema, h.tables, h.names, h.current]

theorem Twins.dropTable (h : Twins db db₁) {tableId : TableId}
    (hrun : dropTable tableId db = .ok () db') :
    ∃ db₁', Database.dropTable tableId db₁ = .ok () db₁' ∧ Twins db' db₁' := by
  obtain ⟨hsome, rfl⟩ := dropTable_iff.mp hrun
  have hnone : (find db₁.tables tableId).isNone = (find db.tables tableId).isNone := by
    rw [← Option.isNone_map, h.find_schema, Option.isNone_map]
  refine ⟨_, dropTable_iff.mpr ⟨by rwa [hnone], rfl⟩, ?_,
    fun e he => h.2 e (List.mem_of_mem_filter he)⟩
  rw [schema, schema]
  simp only
  rw [map_erase Table.schema, map_erase Table.schema, h.tables, h.names, h.current]

theorem Twins.renameTable (h : Twins db db₁) {tableId : TableId} {name : Bytes}
    (hrun : renameTable tableId name db = .ok () db') :
    ∃ db₁', Database.renameTable tableId name db₁ = .ok () db₁' ∧ Twins db' db₁' := by
  obtain ⟨hid, hname, hsome, rfl⟩ := renameTable_iff.mp hrun
  have hsome₁ : (find db₁.tables tableId).isSome = (find db.tables tableId).isSome := by
    rw [← Option.isSome_map, h.find_schema, Option.isSome_map]
  refine ⟨_, renameTable_iff.mpr ⟨hid, by rwa [h.findTable], by rwa [hsome₁], rfl⟩, ?_, h.2⟩
  rw [schema, schema]
  simp only
  rw [h.tables, h.names, h.current]

theorem Twins.withTable (h : Twins db db₁) {tableId : TableId} {m : EStateM Exn Table Unit}
    (hm : ∀ {t t₁ t' : Table}, Table.Twins t t₁ → m t = .ok () t' →
      ∃ t₁', m t₁ = .ok () t₁' ∧ Table.Twins t' t₁')
    (hrun : withTable tableId m db = .ok () db') :
    ∃ db₁', Database.withTable tableId m db₁ = .ok () db₁' ∧ Twins db' db₁' := by
  obtain ⟨t, t', hfind, hmt, rfl⟩ := withTable_ok hrun
  obtain ⟨t₁, hfind₁, htwins⟩ := h.find_table hfind
  obtain ⟨t₁', hmt₁, htwins'⟩ := hm htwins hmt
  refine ⟨_, withTable_run hfind₁ hmt₁, ?_,
    forall_mem_assign (P := fun t : Table => t.freedom = .create) h.2 _ htwins'.2⟩
  rw [schema, schema]
  simp only
  rw [map_assign Table.schema, map_assign Table.schema, h.tables, h.names, h.current, htwins'.1]

/-- What is done to the schema of a database can be done to its twin. -/
theorem Twins.call (h : Twins db db₁) {op : Op} (hop : op.isSchema = true)
    (hrun : call op db = .ok () db') :
    ∃ db₁', Database.call op db₁ = .ok () db₁' ∧ Twins db' db₁' := by
  cases op with
  | createTable name => exact h.createTable hrun
  | dropTable t => exact h.dropTable hrun
  | renameTable t name => exact h.renameTable hrun
  | addField t name type =>
      obtain ⟨hid, hrun⟩ := checkIdentifier_bind.mp hrun
      obtain ⟨db₁', hrun₁, htwins⟩ := h.withTable (fun ht hm => ht.addField hm) hrun
      exact ⟨db₁', checkIdentifier_bind.mpr ⟨hid, hrun₁⟩, htwins⟩
  | dropField t f => exact h.withTable (fun ht hm => ht.dropField hm) hrun
  | renameField t f name =>
      obtain ⟨hid, hrun⟩ := checkIdentifier_bind.mp hrun
      obtain ⟨db₁', hrun₁, htwins⟩ := h.withTable (fun ht hm => ht.renameField hm) hrun
      exact ⟨db₁', checkIdentifier_bind.mpr ⟨hid, hrun₁⟩, htwins⟩
  | custom name =>
      obtain rfl := (EStateM.Result.ok.inj hrun).2
      exact ⟨db₁, rfl, h⟩
  | _ => cases hop

/-! ## In order -/

theorem named_iff : db.schema.Named ↔
    keys db.tables = keys db.tableNames ∧ (keys db.tableNames).Pairwise (· < ·) ∧
      ∀ e ∈ db.tables, e.2.Named := by
  have hkeys : keys db.schema.tables = keys db.tables := keys_map db.tables Table.schema
  constructor
  · intro h
    refine ⟨hkeys.symm.trans h.tables, h.ascending, fun e he => ?_⟩
    exact h.fields (e.1, e.2.schema) (List.mem_map_of_mem he)
  · rintro ⟨htables, hascending, hfields⟩
    refine ⟨hkeys.trans htables, hascending, fun e he => ?_⟩
    obtain ⟨e', he', rfl⟩ := List.mem_map.mp he
    exact hfields e' he'

/-- What a replay leaves: tables in order, columns below their limit with values that
fit into a journal, and names for all. -/
structure Ordered (db : Database) : Prop where
  sound : db.Sound
  regular : db.Regular
  named : db.schema.Named

theorem ordered_create (maxRecordId : RecordId) : (create maxRecordId).Ordered := by
  refine ⟨sound_create _, fun e he => (by cases he), named_iff.mpr ⟨rfl, List.Pairwise.nil, ?_⟩⟩
  intro e he
  cases he

/-- A change of one table. -/
theorem Ordered.withTable (h : db.Ordered) {tableId : TableId} {m : EStateM Exn Table Unit}
    (hm : ∀ {t t' : Table}, m t = .ok () t' →
      (t.Regular → t'.Regular) ∧ (t.Named → t'.Named))
    (hsound : db'.Sound) (hrun : withTable tableId m db = .ok () db') : db'.Ordered := by
  obtain ⟨t, t', hfind, hmt, rfl⟩ := withTable_ok hrun
  obtain ⟨htables, hascending, hfields⟩ := named_iff.mp h.named
  have hmem := mem_of_find hfind
  refine ⟨hsound, forall_mem_assign h.regular _ ((hm hmt).1 (h.regular _ hmem)),
    named_iff.mpr ⟨?_, hascending, forall_mem_assign hfields _ ((hm hmt).2 (hfields _ hmem))⟩⟩
  rw [keys_assign]
  exact htables

theorem Ordered.createTable (h : db.Ordered) {name : Bytes} (hsound : db'.Sound)
    (hrun : createTable name db = .ok () db') : db'.Ordered := by
  obtain ⟨-, -, hmax, rfl⟩ := createTable_iff.mp hrun
  obtain ⟨htables, hascending, hfields⟩ := named_iff.mp h.named
  have hlast : ∀ j ∈ keys db.tableNames, j < db.currentTableId + 1 := by
    intro j hj
    rw [← htables] at hj
    obtain ⟨t, ht⟩ := Option.isSome_iff_exists.mp (find_isSome_iff.mpr hj)
    exact UInt16.lt_of_le_of_lt (h.sound.given j t ht) (Table.lt_next hmax)
  refine ⟨hsound, forall_mem_tryEmplace (P := Table.Regular) h.regular _ (fun e he => by cases he),
    named_iff.mpr ⟨keys_tryEmplace_congr htables _ _ _, ?_,
      forall_mem_tryEmplace (P := Table.Named) hfields _ rfl⟩⟩
  rw [tryEmplace_last hlast, keys, List.map_append]
  refine List.pairwise_append.mpr ⟨hascending, List.pairwise_singleton _ _, fun j hj k hk => ?_⟩
  rw [List.mem_singleton.mp hk]
  exact hlast j hj

theorem Ordered.dropTable (h : db.Ordered) {tableId : TableId} (hsound : db'.Sound)
    (hrun : dropTable tableId db = .ok () db') : db'.Ordered := by
  obtain ⟨-, rfl⟩ := dropTable_iff.mp hrun
  obtain ⟨htables, hascending, hfields⟩ := named_iff.mp h.named
  refine ⟨hsound, fun e he => h.regular e (List.mem_of_mem_filter he), named_iff.mpr ⟨?_, ?_,
    fun e he => hfields e (List.mem_of_mem_filter he)⟩⟩
  · rw [keys_erase, keys_erase, htables]
  · rw [keys_erase]
    exact hascending.filter _

theorem Ordered.renameTable (h : db.Ordered) {tableId : TableId} {name : Bytes}
    (hsound : db'.Sound) (hrun : renameTable tableId name db = .ok () db') : db'.Ordered := by
  obtain ⟨-, -, hsome, rfl⟩ := renameTable_iff.mp hrun
  obtain ⟨htables, hascending, hfields⟩ := named_iff.mp h.named
  have hkeys : keys (insertOrAssign db.tableNames tableId name) = keys db.tableNames := by
    rw [insertOrAssign, keys_assign,
      tryEmplace_of_mem hascending (htables ▸ find_isSome_iff.mp hsome)]
  refine ⟨hsound, h.regular, named_iff.mpr ⟨htables.trans hkeys.symm, ?_, hfields⟩⟩
  rw [hkeys]
  exact hascending

theorem Ordered.call_schema (h : db.Ordered) {op : Op} (hop : op.isSchema = true)
    (hrun : call op db = .ok () db') : db'.Ordered := by
  have hsound : db'.Sound := (h.sound.call (fun ty t r f vs heq => by
    subst heq
    cases hop) hrun).1
  cases op with
  | createTable name => exact h.createTable hsound hrun
  | dropTable t => exact h.dropTable hsound hrun
  | renameTable t name => exact h.renameTable hsound hrun
  | addField t name type =>
      exact h.withTable (fun hm => ⟨Table.regular_addField hm, Table.named_addField hm⟩) hsound
        (checkIdentifier_bind.mp hrun).2
  | dropField t f =>
      exact h.withTable (fun hm => ⟨Table.regular_dropField hm, Table.named_dropField hm⟩)
        hsound hrun
  | renameField t f name =>
      exact h.withTable (fun hm => ⟨Table.regular_renameField hm, Table.named_renameField hm⟩)
        hsound (checkIdentifier_bind.mp hrun).2
  | custom name =>
      obtain rfl := (EStateM.Result.ok.inj hrun).2
      exact h
  | _ => cases hop

theorem hear_schema {op : Op} (hop : op.isSchema = true) : asWritable.hear op = call op := by
  cases op <;> first | rfl | cases hop

theorem Ordered.hear (h : db.Ordered) {op : Op} (hfit : op.Fits)
    (hrun : asWritable.hear op db = .ok () db') : db'.Ordered := by
  cases hop : op.isSchema with
  | true =>
      rw [hear_schema hop] at hrun
      exact h.call_schema hop hrun
  | false =>
      obtain ⟨hschema, hregular⟩ := (hear_kept hop hfit).ok hrun
      exact ⟨(h.sound.hear hrun).1, hregular h.regular, hschema ▸ h.named⟩

/-- While one database hears everything, its twin hears what is about the schema. -/
theorem Twins.hear (h : Twins db db₁) {op : Op} (hfit : op.Fits)
    (hrun : asWritable.hear op db = .ok () db') :
    ∃ db₁', asWritable.hearAll ([op].filter Op.isSchema) db₁ = .ok () db₁' ∧ Twins db' db₁' := by
  cases hop : op.isSchema with
  | true =>
      rw [hear_schema hop] at hrun
      obtain ⟨db₁', hrun₁, htwins⟩ := h.call hop hrun
      refine ⟨db₁', ?_, htwins⟩
      rw [List.filter_cons_of_pos hop, Writable.hearAll, hear_schema hop, bind_ok hrun₁]
      rfl
  | false =>
      have hschema := ((hear_kept hop hfit).ok hrun).1
      refine ⟨db₁, ?_, h.1.trans hschema.symm, h.2⟩
      rw [List.filter_cons_of_neg (by rw [hop]; decide)]
      rfl

theorem Ordered.hearAll (h : db.Ordered) {ops : List Op} (hfit : ∀ op ∈ ops, op.Fits)
    (hrun : asWritable.hearAll ops db = .ok () db') : db'.Ordered := by
  induction ops generalizing db with
  | nil =>
      obtain rfl := (EStateM.Result.ok.inj hrun).2
      exact h
  | cons op ops ih =>
      obtain ⟨hop, hops⟩ := List.forall_mem_cons.mp hfit
      obtain ⟨_, db₁, hhear, hrest⟩ := bind_eq_ok hrun
      exact ih (h.hear hop hhear) hops hrest

theorem Twins.hearAll (h : Twins db db₁) {ops : List Op} (hfit : ∀ op ∈ ops, op.Fits)
    (hrun : asWritable.hearAll ops db = .ok () db') :
    ∃ db₁', asWritable.hearAll (ops.filter Op.isSchema) db₁ = .ok () db₁' ∧ Twins db' db₁' := by
  induction ops generalizing db db₁ with
  | nil =>
      obtain rfl := (EStateM.Result.ok.inj hrun).2
      exact ⟨db₁, rfl, h⟩
  | cons op ops ih =>
      obtain ⟨hop, hops⟩ := List.forall_mem_cons.mp hfit
      obtain ⟨_, db₂, hhear, hrest⟩ := bind_eq_ok hrun
      obtain ⟨db₃, hhear₁, htwins⟩ := h.hear hop hhear
      obtain ⟨db₄, hrest₁, htwins'⟩ := ih htwins hops hrest
      refine ⟨db₄, ?_, htwins'⟩
      rw [show (op :: ops).filter Op.isSchema = [op].filter Op.isSchema ++ ops.filter Op.isSchema
        from List.filter_append [op] ops, asWritable.hearAll_append hhear₁]
      exact hrest₁

theorem twins_create (maxRecordId : RecordId) :
    Twins (create maxRecordId) (create maxRecordId) := ⟨rfl, fun e he => by cases he⟩

end Database

end Joedb
