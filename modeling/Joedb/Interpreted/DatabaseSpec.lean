import Joedb.Interpreted.TableSpec
import Joedb.Journal.Replaying

/-!
# What the schema events say

The tables and fields that there are, with their types, follow from the operations
of the schema alone: that is a function of them, `View.apply`, and what a database
replays changes its view as the function says, whatever else it replays.
-/

namespace Joedb

open ByteFile Containers StateExcept

/-- The last id that was given to a field, and the types of the fields there are. -/
abbrev TableView : Type := FieldId × (FieldId → Option (Option Ty))

/-- The last id that was given to a table, and the tables there are. -/
abbrev View : Type := TableId × (TableId → Option TableView)

namespace View

def empty : View := (0, fun _ => none)

/-- What becomes of one table. -/
def onTable (tableId : TableId) (g : TableView → TableView) (v : View) : View :=
  (v.1, fun id => if id = tableId then (v.2 id).map g else v.2 id)

def addField (type : FieldType) (w : TableView) : TableView :=
  (w.1 + 1, fun id => if id = w.1 + 1 then some (Ty.ofTypeId type.typeId) else w.2 id)

def dropField (fieldId : FieldId) (w : TableView) : TableView :=
  (w.1, fun id => if id = fieldId then none else w.2 id)

def apply (v : View) : Op → View
  | .createTable _ =>
      (v.1 + 1, fun id => if id = v.1 + 1 then some (0, fun _ => none) else v.2 id)
  | .dropTable tableId => (v.1, fun id => if id = tableId then none else v.2 id)
  | .addField tableId _ type => v.onTable tableId (addField type)
  | .dropField tableId fieldId => v.onTable tableId (dropField fieldId)
  | _ => v

end View

namespace Table

def view (t : Table) : TableView :=
  (t.currentFieldId, fun id => (find t.fields id).map (·.column.holds))

theorem holds_eq (f : Field) : f.column.holds = (f.value 0).map (·.1) := by
  obtain ⟨type, column, holds⟩ := f
  cases column <;> rfl

theorem SameValues.view {t t' : Table} (h : SameValues t t') : t'.view = t.view := by
  refine Prod.ext h.current (funext fun id => ?_)
  have hsame := congrArg (Option.map (Option.map Sigma.fst)) (h.fields id 0)
  rw [Option.map_map, Option.map_map] at hsame
  show (find t'.fields id).map _ = (find t.fields id).map _
  rw [show (fun f : Field => f.column.holds) = Option.map Sigma.fst ∘ (·.value 0) from
    funext holds_eq]
  exact hsame

theorem Wrote.view {t t' : Table} {ty : Ty} {fieldId : FieldId} {i : Nat}
    {vs : List ty.Storage} (h : Wrote ty fieldId i vs t t') : t'.view = t.view := by
  obtain ⟨f, f', xs, hf, hcolumn, -, hf', hcolumn'⟩ := h.own
  refine Prod.ext h.current (funext fun id => ?_)
  show (find t'.fields id).map _ = (find t.fields id).map _
  by_cases hid : id = fieldId
  · rw [hid, hf, hf', Option.map_some, Option.map_some, hcolumn, hcolumn']
    rfl
  · rw [h.others id hid]

end Table

namespace Database

def view (db : Database) : View :=
  (db.currentTableId, fun id => (find db.tables id).map (·.view))

/-- Every table is in order, and ids of tables are those that were given. -/
structure Sound (db : Database) : Prop where
  given : ∀ tableId t, find db.tables tableId = some t → tableId ≤ db.currentTableId
  sound : ∀ tableId t, find db.tables tableId = some t → t.Sound

theorem sound_create (maxRecordId : RecordId) : (create maxRecordId).Sound :=
  ⟨fun _ _ h => (by cases h), fun _ _ h => (by cases h)⟩

section Steps

variable {db db' : Database}

theorem withTable_ok {α : Type} {tableId : TableId} {m : EStateM Exn Table α} {a : α}
    (h : withTable tableId m db = .ok a db') :
    ∃ t t', find db.tables tableId = some t ∧ m t = .ok a t' ∧
      db' = { db with tables := assign db.tables tableId t' } := by
  rw [withTable] at h
  cases hfind : find db.tables tableId with
  | none =>
      rw [hfind] at h
      cases h
  | some t =>
      rw [hfind] at h
      simp only at h
      cases hm : m t with
      | error e t' =>
          rw [hm] at h
          cases h
      | ok b t' =>
          rw [hm] at h
          obtain ⟨rfl, rfl⟩ := EStateM.Result.ok.inj h
          exact ⟨t, t', rfl, hm, rfl⟩

/-- One table is changed. -/
theorem Sound.assign (h : db.Sound) {tableId : TableId} {t t' : Table}
    (hfind : find db.tables tableId = some t) (ht' : t'.Sound) {g : TableView → TableView}
    (hview : t'.view = g t.view) :
    Sound { db with tables := Containers.assign db.tables tableId t' } ∧
      view { db with tables := Containers.assign db.tables tableId t' }
        = db.view.onTable tableId g := by
  refine ⟨⟨fun id s hs => ?_, fun id s hs => ?_⟩, Prod.ext rfl (funext fun id => ?_)⟩
  · rw [find_assign_eq] at hs
    by_cases hid : id = tableId
    · exact hid ▸ h.given tableId t hfind
    · rw [if_neg hid] at hs
      exact h.given id s hs
  · rw [find_assign_eq] at hs
    by_cases hid : id = tableId
    · rw [if_pos hid, hfind, Option.map_some] at hs
      exact Option.some.inj hs ▸ ht'
    · rw [if_neg hid] at hs
      exact h.sound id s hs
  · show (find (Containers.assign db.tables tableId t') id).map _
      = if id = tableId then ((find db.tables id).map _).map g else (find db.tables id).map _
    rw [find_assign_eq]
    by_cases hid : id = tableId
    · rw [if_pos hid, if_pos hid, hid, hfind]
      exact congrArg some hview
    · rw [if_neg hid, if_neg hid]

theorem onTable_id (v : View) (tableId : TableId) : v.onTable tableId id = v := by
  refine Prod.ext rfl (funext fun i => ?_)
  show (if i = tableId then (v.2 i).map id else v.2 i) = v.2 i
  rw [Option.map_id]
  split <;> rfl

theorem Sound.onTable (h : db.Sound) {tableId : TableId} {m : EStateM Exn Table Unit}
    {g : TableView → TableView} (hdb : withTable tableId m db = .ok () db')
    (hm : ∀ t t', t.Sound → m t = .ok () t' → t'.Sound ∧ t'.view = g t.view) :
    db'.Sound ∧ db'.view = db.view.onTable tableId g := by
  obtain ⟨t, t', hfind, hrun, rfl⟩ := withTable_ok hdb
  obtain ⟨hsound, hview⟩ := hm t t' (h.sound tableId t hfind) hrun
  exact h.assign hfind hsound hview

/-- A change of records or values. -/
theorem Sound.onRecords (h : db.Sound) {tableId : TableId} {m : EStateM Exn Table Unit}
    (hdb : withTable tableId m db = .ok () db')
    (hm : ∀ t t', t.Sound → m t = .ok () t' → t'.Sound ∧ t'.view = t.view) :
    db'.Sound ∧ db'.view = db.view := by
  have hsame := h.onTable (g := id) hdb hm
  rwa [onTable_id] at hsame

theorem checkIdentifier_ok {message : String} {name : Bytes}
    (h : checkIdentifier message name db = .ok () db') : db' = db := (guard_eq_ok.mp h).2

/-- Looking at a field leaves the table as it is. -/
theorem getOwnStorage_ok {ty : Ty} {fieldId : FieldId} {t t' : Table} {capacity : Option Nat}
    (h : Table.getOwnStorage ty fieldId t = .ok capacity t') : t' = t := by
  rw [Table.getOwnStorage, get_bind_run] at h
  obtain ⟨own, t₁, hfield, hpure⟩ := bind_eq_ok h
  obtain ⟨-, rfl⟩ := EStateM.Result.ok.inj hpure
  obtain ⟨f, f', hfind, hm, rfl⟩ := Table.withField_eq_ok hfield
  obtain ⟨rfl, -⟩ := Field.getOwnStorage_ok hm
  rw [assign_self hfind]

/-- The pointer that a database gives, it gives again. -/
theorem ownStorage_ok {ty : Ty} {tableId : TableId} {fieldId : FieldId} {capacity : Option Nat}
    (h : asWritable.ownStorage ty tableId fieldId db = .ok capacity db') : db' = db := by
  obtain ⟨t, t₀, hfind, hm, rfl⟩ := withTable_ok h
  obtain rfl := getOwnStorage_ok hm
  rw [assign_self hfind]

/-- Whatever a change of a table ended with, the table is what it left. -/
theorem after_withTable {α : Type} {tableId : TableId} {m : EStateM Exn Table α} {t : Table}
    (hfind : find db.tables tableId = some t) :
    after (withTable tableId m) db
      = { db with tables := assign db.tables tableId (after m t) } := by
  cases hm : m t with
  | ok a t' =>
      have hrun : withTable tableId m db
          = .ok a { db with tables := assign db.tables tableId t' } := by
        rw [withTable, hfind]
        simp only [hm]
      rw [after_ok hm, after_ok hrun]
  | error e t' =>
      have hrun : withTable tableId m db
          = .error e { db with tables := assign db.tables tableId t' } := by
        rw [withTable, hfind]
        simp only [hm]
      rw [after_error hm, after_error hrun]

/-- What the reader does with the vector of an interpreted field. -/
theorem hearVector_db {ty : Ty} {tableId : TableId} {r : RecordId} {f : FieldId}
    {vs : List ty.Storage}
    (hdb : asWritable.hearVector ty tableId r f vs db = .ok () db') :
    ∃ t t₁ t', find db.tables tableId = some t ∧
      (t₁ = t ∨ t₁ = after (Table.withField f (Field.put ty (copyN · r.toNat vs))) t) ∧
      Table.updateVector ty r f vs t₁ = .ok () t' ∧
      db' = { db with tables := assign db.tables tableId t' } := by
  rw [Writable.hearVector] at hdb
  obtain ⟨capacity, db₁, hown, hrest⟩ := bind_eq_ok hdb
  obtain ⟨t, t₀, hfind, hm, rfl⟩ := withTable_ok hown
  obtain rfl := getOwnStorage_ok hm
  rw [assign_self hfind] at hrest
  obtain ⟨hout, hrest⟩ := guard_bind_eq_ok.mp hrest
  by_cases hsome : capacity.isSome = true
  · rw [when_pos hsome, modify_bind_run,
      show asWritable.storeOwn ty tableId f r.toNat vs db = _ from
        after_withTable hfind] at hrest
    obtain ⟨t₁, t', hfind', hupdate, rfl⟩ := withTable_ok hrest
    rw [find_assign hfind] at hfind'
    obtain rfl := Option.some.inj hfind'
    exact ⟨t₀, _, t', hfind, .inr rfl, hupdate, by simp only [assign_assign]⟩
  · rw [when_neg hsome, pure_bind_run] at hrest
    obtain ⟨t₁, t', hfind', hupdate, rfl⟩ := withTable_ok hrest
    rw [hfind] at hfind'
    obtain rfl := Option.some.inj hfind'
    exact ⟨t₀, t₀, t', hfind, .inl rfl, hupdate, rfl⟩

/-! ## Operations -/

/-- A new table, under the next id. -/
theorem createTable_ok {name : Bytes}
    (hgiven : ∀ tableId t, find db.tables tableId = some t → tableId ≤ db.currentTableId)
    (hdb : createTable name db = .ok () db') :
    db'.currentTableId = db.currentTableId + 1 ∧ db.currentTableId < db.currentTableId + 1 ∧
      ∀ id, find db'.tables id
        = if id = db.currentTableId + 1 then some .create else find db.tables id := by
  obtain ⟨_, db₁, hcheck, hrest⟩ := bind_eq_ok hdb
  obtain rfl := checkIdentifier_ok hcheck
  rw [get_bind_run] at hrest
  obtain ⟨hname, hrest⟩ := guard_bind_eq_ok.mp hrest
  by_cases hmax : db₁.currentTableId = 65535
  · rw [when_pos hmax] at hrest
    cases hrest
  · rw [when_neg hmax, pure_bind_run, modify_bind_run] at hrest
    obtain rfl := (EStateM.Result.ok.inj hrest).2
    have hlt := Table.lt_next hmax
    have hnone : find db₁.tables (db₁.currentTableId + 1) = none := by
      cases hfind : find db₁.tables (db₁.currentTableId + 1) with
      | none => rfl
      | some t => exact absurd (hgiven _ t hfind) (UInt16.not_le.mpr hlt)
    exact ⟨rfl, hlt, fun id => find_tryEmplace hnone id Table.create⟩

theorem dropTable_ok {tableId : TableId} (hdb : dropTable tableId db = .ok () db') :
    db'.currentTableId = db.currentTableId ∧
      ∀ id, find db'.tables id = if id = tableId then none else find db.tables id := by
  rw [Database.dropTable, get_bind_run] at hdb
  obtain ⟨hnone, hdb⟩ := guard_bind_eq_ok.mp hdb
  obtain rfl := (EStateM.Result.ok.inj hdb).2
  exact ⟨rfl, find_erase db.tables tableId⟩

theorem renameTable_ok {tableId : TableId} {name : Bytes}
    (hdb : renameTable tableId name db = .ok () db') :
    db'.tables = db.tables ∧ db'.currentTableId = db.currentTableId := by
  obtain ⟨_, db₁, hcheck, hrest⟩ := bind_eq_ok hdb
  obtain rfl := checkIdentifier_ok hcheck
  rw [get_bind_run] at hrest
  obtain ⟨hname, hrest⟩ := guard_bind_eq_ok.mp hrest
  obtain ⟨_, db₂, htable, hassign⟩ := bind_eq_ok hrest
  obtain ⟨t, t', hfind, hm, rfl⟩ := withTable_ok htable
  obtain rfl := (EStateM.Result.ok.inj hm).2
  obtain rfl := (EStateM.Result.ok.inj hassign).2
  exact ⟨assign_self hfind, rfl⟩

/-- What is said of every table and of an empty one. -/
theorem forall_created {P : TableId → Table → Prop} {last : TableId}
    (h : ∀ id t, find db.tables id = some t → P id t) (hnew : P last .create)
    (hfind : ∀ id, find db'.tables id = if id = last then some .create else find db.tables id) :
    ∀ id t, find db'.tables id = some t → P id t := by
  intro id t ht
  rw [hfind] at ht
  by_cases hid : id = last
  · rw [if_pos hid] at ht
    exact hid ▸ Option.some.inj ht ▸ hnew
  · rw [if_neg hid] at ht
    exact h id t ht

theorem forall_dropped {P : TableId → Table → Prop} {tableId : TableId}
    (h : ∀ id t, find db.tables id = some t → P id t)
    (hfind : ∀ id, find db'.tables id = if id = tableId then none else find db.tables id) :
    ∀ id t, find db'.tables id = some t → P id t := by
  intro id t ht
  rw [hfind] at ht
  by_cases hid : id = tableId
  · rw [if_pos hid] at ht
    cases ht
  · rw [if_neg hid] at ht
    exact h id t ht

theorem Sound.createTable (h : db.Sound) {name : Bytes}
    (hdb : createTable name db = .ok () db') :
    db'.Sound ∧ db'.view = db.view.apply (.createTable name) := by
  obtain ⟨hcurrent, hlt, hfind⟩ := createTable_ok h.given hdb
  refine ⟨⟨?_, forall_created h.sound Table.sound_create hfind⟩,
    Prod.ext hcurrent (funext fun id => ?_)⟩
  · rw [hcurrent]
    exact forall_created (P := fun id _ => id ≤ db.currentTableId + 1)
      (fun id t ht => UInt16.le_of_lt (UInt16.lt_of_le_of_lt (h.given id t ht) hlt))
      (UInt16.le_refl _) hfind
  · show (find db'.tables id).map _
      = if id = db.currentTableId + 1 then _ else (find db.tables id).map _
    rw [hfind]
    by_cases hid : id = db.currentTableId + 1
    · rw [if_pos hid, if_pos hid]
      rfl
    · rw [if_neg hid, if_neg hid]

theorem Sound.dropTable (h : db.Sound) {tableId : TableId}
    (hdb : dropTable tableId db = .ok () db') :
    db'.Sound ∧ db'.view = db.view.apply (.dropTable tableId) := by
  obtain ⟨hcurrent, hfind⟩ := dropTable_ok hdb
  refine ⟨⟨hcurrent ▸ forall_dropped h.given hfind, forall_dropped h.sound hfind⟩,
    Prod.ext hcurrent (funext fun id => ?_)⟩
  show (find db'.tables id).map _ = if id = tableId then none else (find db.tables id).map _
  rw [hfind]
  split <;> rfl

theorem Sound.renameTable (h : db.Sound) {tableId : TableId} {name : Bytes}
    (hdb : renameTable tableId name db = .ok () db') : db'.Sound ∧ db'.view = db.view := by
  obtain ⟨htables, hcurrent⟩ := renameTable_ok hdb
  refine ⟨⟨?_, ?_⟩, ?_⟩
  · rw [htables, hcurrent]
    exact h.given
  · rw [htables]
    exact h.sound
  · rw [view, htables, hcurrent]
    rfl

theorem renameFieldOf_ok {t t' : Table} {fieldId : FieldId} {name : Bytes}
    (hrun : renameFieldOf fieldId name t = .ok () t') :
    ∃ names, t' = { t with fieldNames := names } := by
  rw [renameFieldOf, get_bind_run] at hrun
  obtain ⟨hnone, hrun⟩ := guard_bind_eq_ok.mp hrun
  by_cases hname : t.findField name ≠ 0
  · rw [when_pos hname] at hrun
    cases hrun
  · rw [when_neg hname, pure_bind_run] at hrun
    exact ⟨_, (EStateM.Result.ok.inj hrun).2.symm⟩

theorem Sound.addField (h : db.Sound) {tableId : TableId} {name : Bytes} {type : FieldType}
    (hdb : addField tableId name type db = .ok () db') :
    db'.Sound ∧ db'.view = db.view.apply (.addField tableId name type) := by
  obtain ⟨_, db₁, hcheck, hrest⟩ := bind_eq_ok hdb
  obtain rfl := checkIdentifier_ok hcheck
  refine h.onTable hrest fun t t' ht hrun => ?_
  obtain ⟨hsound, -, hcurrent, -, f, hholds, -, hfind⟩ := Table.addField_ok ht hrun
  refine ⟨hsound, Prod.ext hcurrent (funext fun id => ?_)⟩
  show (find t'.fields id).map _
    = if id = t.currentFieldId + 1 then _ else (find t.fields id).map _
  rw [hfind]
  by_cases hid : id = t.currentFieldId + 1
  · rw [if_pos hid, if_pos hid]
    exact congrArg some hholds
  · rw [if_neg hid, if_neg hid]

theorem Sound.dropField (h : db.Sound) {tableId : TableId} {fieldId : FieldId}
    (hdb : dropField tableId fieldId db = .ok () db') :
    db'.Sound ∧ db'.view = db.view.apply (.dropField tableId fieldId) := by
  refine h.onTable hdb fun t t' ht hrun => ?_
  obtain ⟨hsound, -, hcurrent, -, hfind⟩ := Table.dropField_ok ht hrun
  refine ⟨hsound, Prod.ext hcurrent (funext fun id => ?_)⟩
  show (find t'.fields id).map _ = if id = fieldId then none else (find t.fields id).map _
  rw [hfind]
  split <;> rfl

theorem Sound.renameField (h : db.Sound) {tableId : TableId} {fieldId : FieldId} {name : Bytes}
    (hdb : renameField tableId fieldId name db = .ok () db') :
    db'.Sound ∧ db'.view = db.view := by
  obtain ⟨_, db₁, hcheck, hrest⟩ := bind_eq_ok hdb
  obtain rfl := checkIdentifier_ok hcheck
  refine h.onRecords hrest fun t t' ht hrun => ?_
  obtain ⟨names, rfl⟩ := renameFieldOf_ok hrun
  exact ⟨⟨ht.orders, ht.small, ht.lengths, ht.given⟩, rfl⟩

theorem Sound.hearVector (h : db.Sound) {ty : Ty} {tableId : TableId} {r : RecordId}
    {f : FieldId} {vs : List ty.Storage} (hvs : vs.length ≠ 0)
    (hdb : asWritable.hearVector ty tableId r f vs db = .ok () db') :
    db'.Sound ∧ db'.view = db.view := by
  obtain ⟨t, t₁, t', hfind, ht₁, hupdate, rfl⟩ := hearVector_db hdb
  have hwrote := Table.wrote_of_hearVector (h.sound tableId t hfind) hvs ht₁ hupdate
  have hsame := h.assign hfind hwrote.sound (g := id) hwrote.view
  rwa [onTable_id] at hsame

/-- What is called of a database that is in order leaves it in order, and its tables
and fields are what the operation says. -/
theorem Sound.call (h : db.Sound) {op : Op}
    (hop : ∀ ty t r f vs, op ≠ .updateVector ty t r f vs)
    (hdb : call op db = .ok () db') : db'.Sound ∧ db'.view = db.view.apply op := by
  have hrecords : ∀ {t t' : Table}, Table.SameValues t t' → t'.Sound ∧ t'.view = t.view :=
    fun hsame => ⟨hsame.sound, hsame.view⟩
  cases op with
  | createTable name => exact h.createTable hdb
  | dropTable t => exact h.dropTable hdb
  | renameTable t name => exact h.renameTable hdb
  | addField t name type => exact h.addField hdb
  | dropField t f => exact h.dropField hdb
  | renameField t f name => exact h.renameField hdb
  | insertInto t r =>
      rw [Database.call, insertInto, get_bind_run] at hdb
      obtain ⟨hout, hdb⟩ := guard_bind_eq_ok.mp hdb
      exact h.onRecords hdb fun t t' ht hrun => hrecords
        (Table.insertRecord_ok ht (Int.not_lt.mp fun hneg => hout (.inl hneg)) hrun).2.1
  | insertVector t r size =>
      rw [Database.call, insertVector, get_bind_run] at hdb
      obtain ⟨hout, hdb⟩ := guard_bind_eq_ok.mp hdb
      exact h.onRecords hdb fun t t' ht hrun => hrecords (Table.insertVector_ok ht hrun).2.1
  | deleteFrom t r =>
      exact h.onRecords hdb fun t t' ht hrun => hrecords (Table.deleteRecord_ok ht hrun).2.1
  | deleteVector t r size =>
      exact h.onRecords hdb fun t t' ht hrun => hrecords (Table.deleteVector_ok ht hrun).2.1
  | update ty t r f v =>
      refine h.onRecords hdb fun t t' ht hrun => ?_
      have hwrote := (Table.update_ok ht hrun).2
      exact ⟨hwrote.sound, hwrote.view⟩
  | updateVector ty t r f vs => exact absurd rfl (hop ty t r f vs)
  | _ =>
      obtain rfl := (EStateM.Result.ok.inj hdb).2
      exact ⟨h, rfl⟩

theorem Sound.hear (h : db.Sound) {op : Op} (hdb : asWritable.hear op db = .ok () db') :
    db'.Sound ∧ db'.view = db.view.apply op := by
  have hplain : (∀ ty t r f vs, op ≠ .updateVector ty t r f vs) →
      (∀ d, asWritable.hear op d = Database.call op d) →
      db'.Sound ∧ db'.view = db.view.apply op := by
    intro hop hcall
    rw [hcall] at hdb
    exact h.call hop hdb
  cases op with
  | updateVector ty t r f vs =>
      rw [Writable.hear_updateVector] at hdb
      by_cases hempty : vs.length = 0
      · rw [when_neg (not_not_intro hempty)] at hdb
        obtain rfl := (EStateM.Result.ok.inj hdb).2
        exact ⟨h, rfl⟩
      · rw [when_pos hempty] at hdb
        exact h.hearVector hempty hdb
  | writeBlob data =>
      obtain rfl := (EStateM.Result.ok.inj hdb).2
      exact ⟨h, rfl⟩
  | _ => exact hplain (fun _ _ _ _ _ h => by cases h) fun _ => rfl

end Steps

theorem Sound.hearAll {ops : List Op} {db db' : Database} (h : db.Sound)
    (hdb : asWritable.hearAll ops db = .ok () db') :
    db'.Sound ∧ db'.view = ops.foldl View.apply db.view := by
  induction ops generalizing db with
  | nil =>
      obtain rfl := (EStateM.Result.ok.inj hdb).2
      exact ⟨h, rfl⟩
  | cons op ops ih =>
      obtain ⟨_, db₁, hop, hops⟩ := bind_eq_ok hdb
      obtain ⟨hsound, hview⟩ := h.hear hop
      obtain ⟨hsound', hview'⟩ := ih hsound hops
      exact ⟨hsound', by rw [hview', hview, List.foldl_cons]⟩

theorem asWritable_passive : asWritable.Passive :=
  ⟨fun _ => rfl, fun _ => rfl, fun _ => rfl, rfl, fun _ => rfl⟩

end Database

end Joedb
