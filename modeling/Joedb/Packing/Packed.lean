import Joedb.Journal.Reencoding
import Joedb.Packing.Refilling

/-!
# A packed journal

A packed journal has the schema operations of the original, and behind them what is dumped. A
database that hears the first has the schema of the original and no records, whatever was
dropped on the way, and what it hears then brings the records table by table.

What is dumped of a regular database fits into a journal, as long as the size of a table does:
a run is counted by a compact integer. The packed journal has to fit into a file as well, which
it may fail to do although the original did, since a vector of a thousand default values is a
few bytes there.
-/

namespace Joedb

open ByteFile Containers StateExcept

/-! ## What a packed database has -/

/-- The same records are used, and `g` finds no difference in their values. -/
structure Table.PackedTo (g : Sigma Ty.Storage → Sigma Ty.Storage) (t t' : Table) : Prop where
  used : t'.freedom.isUsed = t.freedom.isUsed
  values : ∀ fieldId recordId, t.freedom.isUsed recordId = true →
    (t'.value fieldId recordId.toNat).map g = (t.value fieldId recordId.toNat).map g

structure Database.PackedTo (g : Sigma Ty.Storage → Sigma Ty.Storage) (db db' : Database) :
    Prop where
  schema : db'.schema = db.schema
  tables : ∀ tableId t, find db.tables tableId = some t →
    ∃ t', find db'.tables tableId = some t' ∧ t.PackedTo g t'

namespace Dump

variable (tableId : TableId) {t t' : Table} {db : Database}

theorem Refilled.packedTo {r : Nat} (h : Refilled t r t') (hr : t.freedom.getSize ≤ r) :
    t.PackedTo carried t' := by
  refine ⟨h.filled.isUsed hr, fun fieldId recordId hused => ?_⟩
  obtain ⟨hlo, hlt⟩ := FreedomKeeper.lt_of_isUsed hused
  have hcast : ((recordId.toNat : Nat) : Int) = recordId := by omega
  exact h.values fieldId recordId.toNat (by omega) (hcast ▸ hused)

/-- A twin has no records. -/
theorem refilled_of_twins (h : Table.Twins t t') (hsound : t'.Sound) : Refilled t 0 t' := by
  refine ⟨⟨hsound, h.1, fun x => ?_⟩, fun fieldId x hx => absurd hx (Nat.not_lt_zero x)⟩
  have hnone : ∀ {k : FreedomKeeper}, k.isUsed x = true → ¬ x < (0 : Nat) := fun hused =>
    Int.not_lt.mpr (FreedomKeeper.lt_of_isUsed hused).1
  have hcreate : FreedomKeeper.create.isUsed x = false := by
    refine Bool.eq_false_iff.mpr fun hused => hnone hused ?_
    exact (FreedomKeeper.lt_of_isUsed hused).2
  rw [h.2, hcreate]
  cases hused : t.freedom.isUsed x with
  | false => rfl
  | true => rw [decide_eq_false (hnone hused), Bool.and_false]

theorem tableOps_hears (hsound : t.Sound) (hregular : t.Regular) (hnamed : t.Named)
    (h : Table.Twins t t') (hsound' : t'.Sound) :
    ∃ t'', Hears tableId (tableOps tableId t) t' t'' ∧ t''.schema = t.schema ∧
      t.PackedTo carried t'' := by
  obtain ⟨t'', r, hears, hend, hrefilled⟩ := (refilled_of_twins h hsound').records tableId hsound
    hnamed (hregular.fits hsound) (Nat.le_of_eq (Nat.zero_add _).symm)
  exact ⟨t'', hears, hrefilled.filled.schema, hrefilled.packedTo hend⟩

/-- Table by table. -/
theorem dataOps_hears (hdb : db.Ordered) (todo : List (TableId × Bytes))
    (hnodup : (keys todo).Nodup) {db₁ : Database} (hmax : db₁.maxRecordId = -1)
    (hschema : db₁.schema = db.schema)
    (htwins : ∀ id ∈ keys todo, ∃ t t₁, find db.tables id = some t ∧
      find db₁.tables id = some t₁ ∧ Table.Twins t t₁ ∧ t₁.Sound) :
    ∃ db₂, Database.asWritable.hearAll (todo.flatMap fun table =>
        match find db.tables table.1 with
        | none => []
        | some t => tableOps table.1 t) db₁ = .ok () db₂ ∧
      db₂.schema = db.schema ∧
      (∀ id ∈ keys todo, ∀ t, find db.tables id = some t →
        ∃ t₂, find db₂.tables id = some t₂ ∧ t.PackedTo carried t₂) ∧
      ∀ id ∉ keys todo, find db₂.tables id = find db₁.tables id := by
  induction todo generalizing db₁ with
  | nil => exact ⟨db₁, rfl, hschema, fun id hid => absurd hid List.not_mem_nil, fun _ _ => rfl⟩
  | cons table todo ih =>
      obtain ⟨tableId, name⟩ := table
      rw [show keys ((tableId, name) :: todo) = tableId :: keys todo from rfl] at *
      obtain ⟨hnot, hrest⟩ := List.nodup_cons.mp hnodup
      obtain ⟨⟨t, t₁, hfind, hfind₁, htwin, hsound₁⟩, htwins⟩ := List.forall_mem_cons.mp htwins
      have hmem := mem_of_find hfind
      obtain ⟨-, -, hnamed⟩ := Database.named_iff.mp hdb.named
      obtain ⟨t₂, hears, hschema₂, hpacked⟩ := tableOps_hears tableId
        (hdb.sound.sound tableId t hfind) (hdb.regular _ hmem) (hnamed _ hmem) htwin hsound₁
      have hschema' : Database.schema { db₁ with tables := assign db₁.tables tableId t₂ }
          = db.schema := by
        rw [← hschema, Database.schema, Database.schema, map_assign Table.schema, hschema₂,
          ← htwin.1, assign_self (by rw [find_map Table.schema, hfind₁]; rfl)]
      obtain ⟨db₂, hhear, hsame, hdone, hothers⟩ := ih hrest
        (show Database.maxRecordId { db₁ with tables := assign db₁.tables tableId t₂ } = -1 from
          hmax) hschema' fun id hid => by
            have hne : id ≠ tableId := by
              rintro rfl
              exact hnot hid
            simp only [find_assign_eq, if_neg hne]
            exact htwins id hid
      refine ⟨db₂, ?_, hsame, fun id hid s hs => ?_, fun id hid => ?_⟩
      · rw [List.flatMap_cons, hfind, Database.asWritable.hearAll_append (hears db₁ hmax hfind₁)]
        exact hhear
      · rcases List.mem_cons.mp hid with rfl | hid
        · rw [hfind] at hs
          obtain rfl := Option.some.inj hs
          rw [hothers id hnot]
          exact ⟨t₂, find_assign hfind₁ t₂, hpacked⟩
        · exact hdone id hid s hs
      · obtain ⟨hne, hid⟩ := not_or.mp fun h => hid (List.mem_cons.mpr h)
        rw [hothers id hid]
        exact (find_assign_eq _ _ _ _).trans (if_neg hne)

/-! ## What fits -/

variable {tableId}

/-- What can be dumped into a journal and read from it. -/
structure Dumped (op : Op) : Prop where
  fits : op.Fits
  readable : op.Readable
  isSchema : op.isSchema = false

theorem fits_arg {ty : Ty} {v : ty.Storage} (h : ty.kind.Fits v) :
    ty.kind.Fits (ty.toArg v).val := by
  cases ty with
  | boolean => trivial
  | _ => exact h

theorem idFits_of_lt {r : Nat} (h : r + 1 < 2 ^ 61) : IdFits r := by
  have hlo : (-1 : Int) ≤ r := by omega
  have hhi : (r : Int) < 2 ^ 61 - 1 := by omega
  exact ⟨hlo, hhi⟩

theorem fieldOps_dumped {f : Field} (hregular : f.Regular) {r size : Nat} (hpos : 0 < size)
    (hsize : r + size < 2 ^ 61) (fieldId : FieldId) :
    ∀ op ∈ fieldOps tableId r size fieldId f, Dumped op := by
  have hid : IdFits r := idFits_of_lt (by omega)
  cases hcolumn : f.column with
  | monostate =>
      rw [fieldOps, hcolumn]
      exact fun op hop => absurd hop List.not_mem_nil
  | vector ty vs =>
      have hfits : ∀ v ∈ vs, ty.kind.Fits v := by
        rw [Field.Regular, hcolumn] at hregular
        exact hregular.2
      rw [fieldOps, hcolumn]
      simp only
      split
      · rw [List.forall_mem_singleton]
        refine ⟨⟨hid, ?_, fun v hv => hfits v ?_⟩, .inr (Int.natCast_nonneg r), rfl⟩
        · have hlen := List.length_take_le size (vs.drop r)
          exact Nat.lt_of_le_of_lt hlen (by omega)
        · exact List.mem_of_mem_drop (List.mem_of_mem_take hv)
      · rw [List.forall_mem_singleton]
        refine ⟨⟨hid, fits_arg ?_⟩, trivial, rfl⟩
        rw [headD_drop, List.getD_eq_getElem?_getD]
        cases hget : vs[r]? with
        | none => exact Kind.fits_default ty
        | some v => exact hfits v (List.mem_of_getElem? hget)

theorem insertOp_dumped {r size : Nat} (hpos : 0 < size) (hsize : r + size < 2 ^ 61) :
    Dumped (insertOp tableId r size) := by
  have hid : IdFits r := idFits_of_lt (by omega)
  have hcount : SizeFits size := Nat.lt_of_le_of_lt (Nat.le_add_left size r) hsize
  rw [insertOp]
  split
  · exact ⟨⟨hid, hcount⟩, trivial, rfl⟩
  · exact ⟨hid, trivial, rfl⟩

theorem runOps_dumped (hregular : t.Regular) {r size : Nat} (hsize : r + size < 2 ^ 61) :
    ∀ op ∈ runOps tableId t r size, Dumped op := by
  rw [runOps]
  split
  · exact fun op hop => absurd hop List.not_mem_nil
  · next hzero =>
      have hpos := Nat.pos_of_ne_zero hzero
      refine List.forall_mem_cons.mpr ⟨insertOp_dumped hpos hsize, fun op hop => ?_⟩
      obtain ⟨field, -, hop⟩ := List.mem_flatMap.mp hop
      rw [namedOps] at hop
      split at hop
      · cases hop
      · next f hfield =>
          exact fieldOps_dumped (hregular _ (mem_of_find hfield)) hpos hsize _ op hop

theorem recordsOps_dumped (hregular : t.Regular) (hsize : t.freedom.getSize < 2 ^ 61)
    (fuel r : Nat) : ∀ op ∈ recordsOps tableId t fuel r, Dumped op := by
  induction fuel generalizing r with
  | zero => exact fun op hop => absurd hop List.not_mem_nil
  | succ fuel ih =>
      rw [recordsOps]
      split
      · obtain ⟨hlo, hhi, -⟩ := skipFree_spec t.freedom (t.freedom.getSize - r) r
        simp only
        generalize skipFree t.freedom (t.freedom.getSize - r) r = r₁ at *
        have hle := (countUsed_spec t.freedom (t.freedom.getSize - r₁) r₁).1
        intro op hop
        rcases List.mem_append.mp hop with hop | hop
        · exact runOps_dumped hregular (by omega) op hop
        · exact ih _ op hop
      · exact fun op hop => absurd hop List.not_mem_nil

theorem dataOps_dumped (hregular : db.Regular)
    (hsize : ∀ tableId t, find db.tables tableId = some t → t.freedom.getSize < 2 ^ 61) :
    ∀ op ∈ dataOps db, Dumped op := by
  intro op hop
  obtain ⟨table, -, hop⟩ := List.mem_flatMap.mp hop
  split at hop
  · cases hop
  · next t hfind =>
      exact recordsOps_dumped (hregular _ (mem_of_find hfind)) (hsize _ t hfind) _ _ op hop

end Dump

namespace Database

variable {db db' : Database}

/-- What is about the schema leaves the limit. -/
theorem call_schema_limit {op : Op} (hop : op.isSchema = true) (hrun : call op db = .ok () db') :
    db'.maxRecordId = db.maxRecordId := by
  have htable : ∀ {tableId : TableId} {m : EStateM Exn Table Unit},
      withTable tableId m db = .ok () db' → db'.maxRecordId = db.maxRecordId := fun hrun => by
    obtain ⟨t, t', -, -, rfl⟩ := withTable_ok hrun
    rfl
  cases op with
  | createTable name =>
      obtain ⟨-, -, -, rfl⟩ := createTable_iff.mp hrun
      rfl
  | dropTable t =>
      obtain ⟨-, rfl⟩ := dropTable_iff.mp hrun
      rfl
  | renameTable t name =>
      obtain ⟨-, -, -, rfl⟩ := renameTable_iff.mp hrun
      rfl
  | addField t name type => exact htable (checkIdentifier_bind.mp hrun).2
  | dropField t f => exact htable hrun
  | renameField t f name => exact htable (checkIdentifier_bind.mp hrun).2
  | custom name =>
      obtain rfl := (EStateM.Result.ok.inj hrun).2
      rfl
  | _ => cases hop

theorem hearAll_schema_limit {ops : List Op} (hops : ∀ op ∈ ops, op.isSchema = true)
    (hrun : asWritable.hearAll ops db = .ok () db') : db'.maxRecordId = db.maxRecordId := by
  induction ops generalizing db with
  | nil =>
      obtain rfl := (EStateM.Result.ok.inj hrun).2
      rfl
  | cons op ops ih =>
      obtain ⟨hop, hops⟩ := List.forall_mem_cons.mp hops
      obtain ⟨_, db₁, hhear, hrest⟩ := bind_eq_ok hrun
      rw [hear_schema hop] at hhear
      exact (ih hops hrest).trans (call_schema_limit hop hhear)

/-- What the packed journal tells. -/
def packedOps (ops : List Op) (db : Database) : List Op :=
  ops.filter Op.isSchema ++ Dump.dataOps db

theorem packedOps_hears {ops : List Op} (hfit : ∀ op ∈ ops, op.Fits)
    (hrun : asWritable.hearAll ops (create (-1)) = .ok () db) :
    ∃ db', asWritable.hearAll (packedOps ops db) (create (-1)) = .ok () db' ∧
      db.PackedTo carried db' := by
  have hdb : db.Ordered := (ordered_create (-1)).hearAll hfit hrun
  obtain ⟨db₁, hhear, htwins⟩ := (twins_create (-1)).hearAll hfit hrun
  have hmax : db₁.maxRecordId = -1 :=
    hearAll_schema_limit (fun op hop => (List.mem_filter.mp hop).2) hhear
  have hsound := ((sound_create (-1)).hearAll hhear).1
  obtain ⟨htables, hascending, -⟩ := named_iff.mp hdb.named
  obtain ⟨db', hdump, hschema, hdone, -⟩ := Dump.dataOps_hears hdb
    db.tableNames (hascending.imp UInt16.ne_of_lt) hmax htwins.1 fun id hid => by
      obtain ⟨t, hfind⟩ := Option.isSome_iff_exists.mp (find_isSome_iff.mpr (htables ▸ hid))
      obtain ⟨t₁, hfind₁, htwin⟩ := htwins.find_table hfind
      exact ⟨t, t₁, hfind, hfind₁, htwin, hsound.sound id t₁ hfind₁⟩
  refine ⟨db', ?_, hschema, fun id t hfind => hdone id ?_ t hfind⟩
  · rw [packedOps, asWritable.hearAll_append hhear]
    exact hdump
  · exact htables ▸ find_isSome_iff.mp (Option.isSome_of_eq_some hfind)

end Database

end Joedb
