import Joedb.Interpreted.ColumnSizes

/-!
# Names and ids

A database keeps the names of its tables in one map and the tables in another, and so does a
table with its fields. Nothing in the types says that the two maps have the same keys, that a
name occurs once, or that it is an identifier. It is so because of the order in which the schema
operations test and change, and it stays so when they throw: an id may then be lost, and a table
is what it was or has lost an id itself.

Ids are given in ascending order and never twice, and 0 is not one of them. Without the last a
name could not be looked up, since 0 is also what is found when there is none. The third thing
that holds of all fields, whatever is done and however it ends, is that no column is longer
than a vector may be.
-/

namespace Joedb

open ByteFile Containers StateExcept

/-- The names of what was given ids up to `last`. -/
structure Directory (names : List (UInt16 × Bytes)) (last : UInt16) : Prop where
  ascending : (keys names).Pairwise (· < ·)
  given : ∀ k ∈ keys names, 0 < k ∧ k ≤ last
  identifiers : ∀ e ∈ names, isIdentifier e.2 = true
  distinct : (names.map (·.2)).Nodup

namespace Directory

variable {names : List (UInt16 × Bytes)} {last : UInt16}

theorem nil (last : UInt16) : Directory [] last :=
  ⟨List.Pairwise.nil, fun _ h => absurd h List.not_mem_nil, fun _ h => absurd h List.not_mem_nil,
    List.nodup_nil⟩

/-- An id is lost. -/
theorem skip (h : Directory names last) (hmax : last ≠ 65535) : Directory names (last + 1) :=
  ⟨h.ascending, fun k hk => ⟨(h.given k hk).1,
    UInt16.le_of_lt (UInt16.lt_of_le_of_lt (h.given k hk).2 (Table.lt_next hmax))⟩,
    h.identifiers, h.distinct⟩

/-- The next id is behind all others. -/
theorem lt_next (h : Directory names last) (hmax : last ≠ 65535) {k : UInt16}
    (hk : k ∈ keys names) : k < last + 1 :=
  UInt16.lt_of_le_of_lt (h.given k hk).2 (Table.lt_next hmax)

theorem tryEmplace_next (h : Directory names last) (hmax : last ≠ 65535) (name : Bytes) :
    tryEmplace names (last + 1) name = names ++ [(last + 1, name)] :=
  tryEmplace_last (fun _ hk => h.lt_next hmax hk) name

theorem add (h : Directory names last) (hmax : last ≠ 65535) {name : Bytes}
    (hname : isIdentifier name = true) (hnew : name ∉ names.map (·.2)) :
    Directory (tryEmplace names (last + 1) name) (last + 1) := by
  have hskip := h.skip hmax
  rw [h.tryEmplace_next hmax]
  refine ⟨?_, ?_, ?_, ?_⟩
  · rw [keys, List.map_append]
    refine List.pairwise_append.mpr ⟨h.ascending, List.pairwise_singleton _ _, fun j hj k hk => ?_⟩
    rw [List.mem_singleton.mp hk]
    exact h.lt_next hmax hj
  · intro k hk
    rw [keys, List.map_append] at hk
    rcases List.mem_append.mp hk with hk | hk
    · exact hskip.given k hk
    · rw [List.mem_singleton.mp hk]
      exact ⟨UInt16.lt_of_le_of_lt UInt16.zero_le (Table.lt_next hmax), UInt16.le_refl _⟩
  · intro e he
    rcases List.mem_append.mp he with he | he
    · exact h.identifiers e he
    · rw [List.mem_singleton.mp he]
      exact hname
  · rw [List.map_append]
    refine List.nodup_append.mpr ⟨h.distinct, List.nodup_singleton _, fun a ha b hb => ?_⟩
    rw [List.mem_singleton.mp hb]
    rintro rfl
    exact hnew ha

theorem erase (h : Directory names last) (k : UInt16) :
    Directory (Containers.erase names k) last where
  ascending := by
    rw [keys_erase]
    exact h.ascending.filter _
  given j hj := by
    rw [keys_erase] at hj
    exact h.given j (List.mem_of_mem_filter hj)
  identifiers e he := h.identifiers e (List.mem_of_mem_filter he)
  distinct := h.distinct.sublist (List.filter_sublist.map _)

theorem rename (h : Directory names last) (k : UInt16) {name : Bytes}
    (hname : isIdentifier name = true) (hnew : name ∉ names.map (·.2)) :
    Directory (assign names k name) last where
  ascending := by
    rw [keys_assign]
    exact h.ascending
  given j hj := by
    rw [keys_assign] at hj
    exact h.given j hj
  identifiers := forall_mem_assign (P := fun n => isIdentifier n = true) h.identifiers k hname
  distinct := by
    have hdistinct := h.distinct
    clear h
    induction names with
    | nil => exact List.nodup_nil
    | cons e names ih =>
        obtain ⟨j, other⟩ := e
        rw [List.map_cons, List.nodup_cons] at hdistinct
        rw [List.map_cons, List.mem_cons, not_or] at hnew
        rw [assign]
        by_cases hk : k = j
        · rw [if_pos hk, List.map_cons, List.nodup_cons]
          exact ⟨hnew.2, hdistinct.2⟩
        · rw [if_neg hk, List.map_cons, List.nodup_cons]
          refine ⟨fun hmem => ?_, ih hnew.2 hdistinct.2⟩
          obtain ⟨e, he, heq⟩ := List.mem_map.mp hmem
          have hothers : ∀ e ∈ names, e.2 ≠ other := fun e he heq =>
            hdistinct.1 (List.mem_map.mpr ⟨e, he, heq⟩)
          exact forall_mem_assign (P := (· ≠ other)) hothers k hnew.1 e he heq

/-- A name that is not found is new. -/
theorem not_mem (h : Directory names last) {name : Bytes}
    (hfind : (match names.find? (·.2 = name) with
      | none => 0
      | some entry => entry.1) = (0 : UInt16)) : name ∉ names.map (·.2) := by
  intro hmem
  obtain ⟨e, he, heq⟩ := List.mem_map.mp hmem
  cases hfound : names.find? (·.2 = name) with
  | none => exact absurd (List.find?_eq_none.mp hfound e he) (by simpa using heq)
  | some entry =>
      rw [hfound] at hfind
      have hpos := (h.given entry.1 (List.mem_map_of_mem (List.mem_of_find?_eq_some hfound))).1
      have hzero : entry.1 = 0 := hfind
      rw [hzero] at hpos
      exact absurd hpos (by decide)

end Directory

/-! ## Fields -/

namespace Field

/-- Its vector is not longer than a vector may be. -/
def Bounded (f : Field) : Prop :=
  match f.column with
  | .monostate => True
  | .vector ty vs => vs.length ≤ ty.maxSize

theorem bounded_resize (size : Nat) : Maintains Bounded (resize size) :=
  maintains_resize fun f ty vs hcolumn hlen hfits => by
    rw [Bounded, hcolumn]
    exact le_of_eq_of_le hlen hfits

theorem bounded_put {ty : Ty} {g : List ty.Storage → List ty.Storage}
    (hg : ∀ vs, (g vs).length = vs.length) : Maintains Bounded (put ty g) :=
  maintains_put (fun f f' vs vs' hcolumn hcolumn' hlen hf => by
    simp only [Bounded, hcolumn, hcolumn'] at hf ⊢
    exact le_of_eq_of_le hlen hf) hg

theorem bounded_create {type : FieldType} {size : Nat} {f : Field}
    (h : create type size = .ok f) : f.Bounded := by
  rw [create] at h
  split at h
  · cases h
    exact trivial
  · next ty hty =>
      split at h
      · next hfits =>
          cases h
          show (List.replicate size ty.kind.default).length ≤ ty.maxSize
          rw [List.length_replicate]
          exact hfits
      · cases h

/-- A bounded column can have as many values as it has. -/
theorem Bounded.fits {f : Field} (h : f.Bounded) {n : Nat} (hlen : f.HasLength n) : f.fits n := by
  obtain ⟨type, column, holds⟩ := f
  cases column with
  | monostate => trivial
  | vector ty vs => exact Nat.le_trans (Nat.le_of_eq (Eq.symm hlen)) h

end Field

/-! ## Tables -/

namespace Table

/-- Names and fields have the same ids, and no column is too long. -/
structure Labelled (t : Table) : Prop where
  keys_eq : keys t.fields = keys t.fieldNames
  directory : Directory t.fieldNames t.currentFieldId
  bounded : ∀ e ∈ t.fields, e.2.Bounded

theorem labelled_create : create.Labelled :=
  ⟨rfl, .nil 0, fun _ h => absurd h List.not_mem_nil⟩

/-- What is done to records and values does to names, ids and columns. -/
structure Spared (t t' : Table) : Prop where
  keys_eq : keys t'.fields = keys t.fields
  names : t'.fieldNames = t.fieldNames
  current : t'.currentFieldId = t.currentFieldId
  bounded : (∀ e ∈ t.fields, e.2.Bounded) → ∀ e ∈ t'.fields, e.2.Bounded

theorem Spared.labelled {t t' : Table} (hspared : Spared t t') (h : t.Labelled) :
    t'.Labelled := by
  refine ⟨?_, ?_, hspared.bounded h.bounded⟩
  · rw [hspared.keys_eq, hspared.names]
    exact h.keys_eq
  · rw [hspared.names, hspared.current]
    exact h.directory

theorem Spared.refl (t : Table) : Spared t t := ⟨rfl, rfl, rfl, id⟩

theorem Spared.trans (a b c : Table) (h : Spared a b) (h' : Spared b c) : Spared a c :=
  ⟨h'.keys_eq.trans h.keys_eq, h'.names.trans h.names, h'.current.trans h.current,
    h'.bounded ∘ h.bounded⟩

theorem spared_bind {α β : Type} {m : EStateM Exn Table α} {f : α → EStateM Exn Table β}
    (hm : Keeps Spared m) (hf : ∀ a, Keeps Spared (f a)) : Keeps Spared (m >>= f) :=
  keeps_bind Spared.trans hm hf

theorem spared_get_bind {β : Type} {f : Table → EStateM Exn Table β}
    (hf : ∀ t, Keeps Spared (f t)) : Keeps Spared (get >>= f) := fun t => hf t t

theorem spared_guard {c : Prop} [Decidable c] (e : Exn) :
    Keeps Spared (when c (throw e) : EStateM Exn Table Unit) :=
  keeps_when Spared.refl (keeps_throw Spared.refl e)

theorem spared_freedom (g : Table → FreedomKeeper) :
    Keeps Spared (modify fun t => { t with freedom := g t } : EStateM Exn Table Unit) :=
  keeps_modify fun _ => ⟨rfl, rfl, rfl, id⟩

theorem spared_withField {α : Type} (fieldId : FieldId) {m : EStateM Exn Field α}
    (hm : Maintains Field.Bounded m) : Keeps Spared (withField fieldId m) := by
  intro t
  obtain hsame | ⟨f, hfind, hafter⟩ := after_withField fieldId m t
  · rw [hsame]
    exact .refl t
  · rw [hafter]
    exact ⟨keys_assign _ _ _, rfl, rfl, fun h =>
      forall_mem_assign (P := Field.Bounded) h fieldId (hm f (h _ (mem_of_find hfind)))⟩

theorem spared_resizeAll (size : Nat) (fields : List (FieldId × Field)) :
    keys (resizeAll size fields).1 = keys fields ∧
      ((∀ e ∈ fields, e.2.Bounded) → ∀ e ∈ (resizeAll size fields).1, e.2.Bounded) := by
  induction fields with
  | nil => exact ⟨rfl, id⟩
  | cons e fields ih =>
      obtain ⟨fieldId, f⟩ := e
      rw [resizeAll]
      cases hrun : Field.resize size f with
      | ok u f' =>
          refine ⟨congrArg (fieldId :: ·) ih.1, fun h => ?_⟩
          obtain ⟨hf, hfields⟩ := List.forall_mem_cons.mp h
          exact List.forall_mem_cons.mpr ⟨(Field.bounded_resize size).ok hf hrun, ih.2 hfields⟩
      | error e f' =>
          refine ⟨rfl, fun h => ?_⟩
          obtain ⟨hf, hfields⟩ := List.forall_mem_cons.mp h
          exact List.forall_mem_cons.mpr ⟨(Field.bounded_resize size).error hf hrun, hfields⟩

theorem spared_resizeFields (size : Nat) : Keeps Spared (resizeFields size) := by
  intro t
  obtain ⟨hkeys, hbounded⟩ := spared_resizeAll size t.fields
  have hspared : Spared t { t with fields := (resizeAll size t.fields).1 } :=
    ⟨hkeys, rfl, rfl, hbounded⟩
  rw [after, resizeFields, get_bind_run]
  cases (resizeAll size t.fields).2 with
  | none => exact hspared
  | some e => exact hspared

theorem spared_insertRecord (recordId : RecordId) : Keeps Spared (insertRecord recordId) :=
  spared_get_bind fun _ => keeps_ite
    (spared_bind (spared_guard _) fun _ => spared_bind (spared_resizeFields _) fun _ =>
      spared_bind (spared_freedom _) fun _ => spared_freedom _)
    (spared_bind (spared_guard _) fun _ => spared_freedom _)

theorem spared_insertRecords (recordId : RecordId) (size : Nat) :
    Keeps Spared (insertRecords recordId size) := by
  induction size generalizing recordId with
  | zero => exact keeps_pure Spared.refl ()
  | succ size ih => exact spared_bind (spared_insertRecord recordId) fun _ => ih _

theorem spared_useVector (recordId : RecordId) (size : Nat) :
    Keeps Spared (useVector recordId size) := by
  intro t
  obtain ⟨freedom, hafter⟩ := after_useVector recordId size t
  rw [hafter]
  exact spared_freedom (fun _ => freedom) t

theorem spared_insertVector (recordId : RecordId) (size : Nat) :
    Keeps Spared (insertVector recordId size) :=
  spared_get_bind fun _ => spared_bind (spared_guard _) fun _ => keeps_ite
    (spared_bind (spared_freedom _) fun _ => spared_get_bind fun _ =>
      spared_bind (spared_resizeFields _) fun _ => spared_useVector recordId size)
    (spared_insertRecords recordId size)

theorem spared_deleteRecord (recordId : RecordId) : Keeps Spared (deleteRecord recordId) :=
  spared_get_bind fun _ => spared_bind (spared_guard _) fun _ => spared_freedom _

theorem spared_deleteVector (recordId : RecordId) (size : Nat) :
    Keeps Spared (deleteVector recordId size) :=
  spared_get_bind fun _ => spared_bind (spared_guard _) fun _ => spared_freedom _

theorem spared_checkRecordId (recordId : RecordId) : Keeps Spared (checkRecordId recordId) :=
  spared_get_bind fun _ => spared_guard _

theorem spared_update (ty : Ty) (recordId : RecordId) (fieldId : FieldId) (value : ty.Arg) :
    Keeps Spared (update ty recordId fieldId value) :=
  spared_bind (spared_withField fieldId (maintains_pure ())) fun _ =>
    spared_bind (spared_checkRecordId recordId) fun _ =>
      spared_withField fieldId (Field.bounded_put fun _ => List.length_set)

theorem spared_updateVector (ty : Ty) (recordId : RecordId) (fieldId : FieldId)
    (values : List ty.Storage) : Keeps Spared (updateVector ty recordId fieldId values) :=
  spared_bind (spared_withField fieldId (maintains_pure ())) fun _ =>
    keeps_ite (keeps_pure Spared.refl ()) <|
      spared_bind (spared_checkRecordId recordId) fun _ =>
        spared_bind (spared_checkRecordId _) fun _ =>
          spared_withField fieldId (Field.bounded_put fun _ => length_copyN _ _ _)

theorem Spared.maintains {α : Type} {m : EStateM Exn Table α} (hm : Keeps Spared m) :
    Maintains Labelled m := fun t ht => (hm t).labelled ht

/-! ### Schema -/

/-- The exception of the constructor of the field comes when the id is given. -/
theorem labelled_addField {name : Bytes} (hname : isIdentifier name = true)
    (type : FieldType) : Maintains Labelled (addField name type) := by
  intro t ht
  rw [after, addField, get_bind_run]
  by_cases hused : t.findField name ≠ 0
  · rw [when_pos hused]
    exact ht
  rw [when_neg hused, pure_bind_run]
  by_cases hmax : t.currentFieldId = 65535
  · rw [when_pos hmax]
    exact ht
  rw [when_neg hmax, pure_bind_run, modify_bind_run, get_bind_run]
  simp only
  cases hcreate : Field.create type t.freedom.getSize with
  | error e => exact ⟨ht.keys_eq, ht.directory.skip hmax, ht.bounded⟩
  | ok f =>
      exact ⟨keys_tryEmplace_congr ht.keys_eq _ _ _, ht.directory.add hmax hname
        (ht.directory.not_mem (Decidable.not_not.mp hused)),
        forall_mem_tryEmplace (P := Field.Bounded) ht.bounded _ (Field.bounded_create hcreate)⟩

theorem labelled_dropField (fieldId : FieldId) :
    Maintains Labelled (dropField fieldId) :=
  maintains_get_bind fun _ => maintains_guard_bind <| maintains_modify fun t ht => by
    refine ⟨?_, ht.directory.erase fieldId, fun e he => ht.bounded e (List.mem_of_mem_filter he)⟩
    show keys (Containers.erase t.fields fieldId) = keys (Containers.erase t.fieldNames fieldId)
    rw [keys_erase, keys_erase, ht.keys_eq]

theorem labelled_renameField (fieldId : FieldId) {name : Bytes}
    (hname : isIdentifier name = true) :
    Maintains Labelled (Database.renameFieldOf fieldId name) := by
  intro t ht
  rw [after, Database.renameFieldOf, get_bind_run]
  by_cases hfield : (find t.fieldNames fieldId).isNone
  · rw [when_pos hfield]
    exact ht
  rw [when_neg hfield, pure_bind_run]
  by_cases hused : t.findField name ≠ 0
  · rw [when_pos hused]
    exact ht
  rw [when_neg hused]
  refine ⟨?_, ht.directory.rename fieldId hname
    (ht.directory.not_mem (Decidable.not_not.mp hused)), ht.bounded⟩
  show keys t.fields = keys (assign t.fieldNames fieldId name)
  rw [keys_assign]
  exact ht.keys_eq

end Table

/-! ## Databases -/

namespace Database

structure Labelled (db : Database) : Prop where
  keys_eq : keys db.tables = keys db.tableNames
  directory : Directory db.tableNames db.currentTableId
  tables : ∀ e ∈ db.tables, e.2.Labelled

theorem labelled_create (maxRecordId : RecordId) : (create maxRecordId).Labelled :=
  ⟨rfl, .nil 0, fun _ h => absurd h List.not_mem_nil⟩

theorem labelled_withTable {α : Type} (tableId : TableId) {m : EStateM Exn Table α}
    (hm : Maintains Table.Labelled m) : Maintains Labelled (withTable tableId m) := by
  intro db h
  cases hfind : find db.tables tableId with
  | none =>
      rw [StateExcept.after, withTable, hfind]
      exact h
  | some t =>
      rw [after_withTable hfind]
      exact ⟨(keys_assign _ _ _).trans h.keys_eq, h.directory,
        forall_mem_assign h.tables tableId (hm t (h.tables _ (mem_of_find hfind)))⟩

/-- What is behind a test of a name. -/
theorem labelled_checkIdentifier {message : String} {name : Bytes}
    {m : EStateM Exn Database Unit} (hm : isIdentifier name = true → Maintains Labelled m) :
    Maintains Labelled (checkIdentifier message name >>= fun _ => m) := by
  intro db h
  cases hname : isIdentifier name with
  | false =>
      rw [checkIdentifier, when_pos hname]
      exact h
  | true =>
      rw [checkIdentifier, when_neg (by rw [hname]; exact Bool.noConfusion)]
      exact hm hname db h

theorem labelled_createTable (name : Bytes) : Maintains Labelled (createTable name) := by
  refine labelled_checkIdentifier fun hname db h => ?_
  rw [StateExcept.after, get_bind_run]
  by_cases hused : db.findTable name ≠ 0
  · rw [when_pos hused]
    exact h
  rw [when_neg hused, pure_bind_run]
  by_cases hmax : db.currentTableId = 65535
  · rw [when_pos hmax]
    exact h
  rw [when_neg hmax]
  exact ⟨keys_tryEmplace_congr h.keys_eq _ _ _, h.directory.add hmax hname
    (h.directory.not_mem (Decidable.not_not.mp hused)),
    forall_mem_tryEmplace (P := Table.Labelled) h.tables _ Table.labelled_create⟩

theorem labelled_dropTable (tableId : TableId) : Maintains Labelled (dropTable tableId) :=
  maintains_get_bind fun _ => maintains_guard_bind <| maintains_modify fun db h => by
    refine ⟨?_, h.directory.erase tableId, fun e he => h.tables e (List.mem_of_mem_filter he)⟩
    show keys (Containers.erase db.tables tableId) = keys (Containers.erase db.tableNames tableId)
    rw [keys_erase, keys_erase, h.keys_eq]

theorem labelled_renameTable (tableId : TableId) (name : Bytes) :
    Maintains Labelled (renameTable tableId name) := by
  refine labelled_checkIdentifier fun hname db h => ?_
  rw [StateExcept.after, get_bind_run]
  by_cases hused : db.findTable name ≠ 0
  · rw [when_pos hused]
    exact h
  rw [when_neg hused, pure_bind_run]
  cases hfind : find db.tables tableId with
  | none =>
      have hmissing : withTable tableId (pure ()) db
          = .error (.exception s!"get_table: invalid table_id: {tableId.toNat}") db := by
        rw [withTable, hfind]
      rw [bind_error hmissing]
      exact h
  | some t =>
      have hmem : tableId ∈ keys db.tableNames :=
        h.keys_eq ▸ find_isSome_iff.mp (Option.isSome_of_eq_some hfind)
      have htouch : withTable tableId (pure ()) db = .ok () db := by
        rw [withTable, hfind]
        exact congrArg (fun tables => EStateM.Result.ok () { db with tables := tables })
          (assign_self hfind)
      rw [bind_ok htouch]
      have hnames :
          insertOrAssign db.tableNames tableId name = assign db.tableNames tableId name := by
        rw [insertOrAssign, tryEmplace_of_mem h.directory.ascending hmem]
      refine ⟨?_, ?_, h.tables⟩
      · show keys db.tables = keys (insertOrAssign db.tableNames tableId name)
        rw [hnames, keys_assign]
        exact h.keys_eq
      · show Directory (insertOrAssign db.tableNames tableId name) db.currentTableId
        rw [hnames]
        exact h.directory.rename tableId hname
          (h.directory.not_mem (Decidable.not_not.mp hused))

theorem labelled_call (op : Op) : Maintains Labelled (Database.call op) := by
  have htable : ∀ (tableId : TableId) {m : EStateM Exn Table Unit}, Keeps Table.Spared m →
      Maintains Labelled (withTable tableId m) := fun tableId _ hm =>
    labelled_withTable tableId (Table.Spared.maintains hm)
  cases op with
  | createTable name => exact labelled_createTable name
  | dropTable t => exact labelled_dropTable t
  | renameTable t name => exact labelled_renameTable t name
  | addField t name type =>
      exact labelled_checkIdentifier fun hname =>
        labelled_withTable t (Table.labelled_addField hname type)
  | dropField t f => exact labelled_withTable t (Table.labelled_dropField f)
  | renameField t f name =>
      exact labelled_checkIdentifier fun hname =>
        labelled_withTable t (Table.labelled_renameField f hname)
  | insertInto t r =>
      exact maintains_get_bind fun _ =>
        maintains_guard_bind (htable t (Table.spared_insertRecord r))
  | insertVector t r size =>
      exact maintains_get_bind fun _ =>
        maintains_guard_bind (htable t (Table.spared_insertVector r size))
  | deleteFrom t r => exact htable t (Table.spared_deleteRecord r)
  | deleteVector t r size => exact htable t (Table.spared_deleteVector r size)
  | update ty t r f v => exact htable t (Table.spared_update ty r f v)
  | updateVector ty t r f vs => exact htable t (Table.spared_updateVector ty r f vs)
  | custom name => exact maintains_pure ()
  | comment comment => exact maintains_pure ()
  | timestamp timestamp => exact maintains_pure ()
  | validData => exact maintains_pure ()
  | writeBlob data => exact maintains_pure ()

/-- After any operations, thrown ones included. -/
theorem Labelled.callEach {db : Database} (h : db.Labelled) (ops : List Op) :
    (db.callEach ops).Labelled := by
  induction ops generalizing db with
  | nil => exact h
  | cons op ops ih => exact ih (labelled_call op db h)

end Database

end Joedb
