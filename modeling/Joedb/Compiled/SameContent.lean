import Joedb.Compiled.AgreementRuns
import Joedb.Compiled.Reopening

/-!
# The same content

A class is generated from a schema, and has the tables and fields that the schema
leaves. An interpreted database that has replayed a journal of this schema has them,
too, and what the two hold is the same, unless a record came back into use in the
interpreted one with a value of its life before.
-/

namespace Joedb.Compiled

open ByteFile Containers StateExcept

/-! ## One schema -/

/-- Before anything was read. -/
theorem dbAgrees_create (maxRecordId : RecordId) {gen : Database} (h : gen.Fresh) (size : Nat) :
    DbAgrees (.create maxRecordId) (gen.within size) := by
  refine ⟨fun id t ht => (by cases ht), fun id st t _ ht => (by cases ht), fun id st hst _ => ?_⟩
  have hmem := mem_of_find (show find gen.tables id = some st from hst)
  have hblank : ∀ fieldId c, find st.columns fieldId = some c → ∀ x : Nat, c.get x = c.blank := by
    intro fieldId c hc x
    have hnil : c.values = [] := h.columns _ hmem _ (mem_of_find hc)
    exact congrArg (Sigma.mk c.ty) (by rw [hnil]; rfl)
  refine ⟨Table.sound_create, h.sound _ hmem, ?_, fun fieldId f c hf => (by cases hf),
    fun fieldId c hc x _ => hblank fieldId c hc x, fun fieldId c hc _ x => hblank fieldId c hc x⟩
  rw [show st.freedom = .create from h.freedom _ hmem]
  rfl

theorem foldl_schemaEvent (v : View) (ops : List Op) :
    ops.foldl View.apply v = (ops.filter Database.schemaEvent).foldl View.apply v := by
  induction ops generalizing v with
  | nil => rfl
  | cons op ops ih =>
      by_cases hop : Database.schemaEvent op = true
      · rw [List.filter_cons_of_pos hop, List.foldl_cons, List.foldl_cons, ih]
      · rw [List.filter_cons_of_neg hop, List.foldl_cons, ih]
        cases op <;> first | rfl | exact absurd rfl hop

namespace Storage

/-- The columns that there are, with their types. -/
def types (st : Storage) : FieldId → Option Ty := fun id => (find st.columns id).map (·.ty)

def SameTypes (st st' : Storage) : Prop := st'.types = st.types

theorem sameTypes_refl (st : Storage) : SameTypes st st := rfl

theorem sameTypes_trans (a b c : Storage) (h : SameTypes a b) (h' : SameTypes b c) :
    SameTypes a c := h'.trans h

theorem types_map {st st' : Storage} {g : Column → Column} (hg : ∀ c, (g c).ty = c.ty)
    (h : st'.columns = st.columns.map fun c => (c.1, g c.2)) : SameTypes st st' := by
  refine funext fun id => ?_
  show (find st'.columns id).map _ = (find st.columns id).map _
  rw [h, find_map, Option.map_map]
  exact congrArg (Option.map · _) (funext hg)

theorem put_ty (ty : Ty) (g : List ty.Storage → List ty.Storage) (c : Column) :
    (c.put ty g).ty = c.ty := by
  by_cases hty : c.ty = ty
  · rw [Column.put, dif_pos hty]
    exact hty.symm
  · rw [put_other hty]

theorem write_types (ty : Ty) (fieldId : FieldId) (i : Nat) (vs : List ty.Storage)
    (st : Storage) : SameTypes st (st.write ty fieldId i vs) := by
  refine funext fun id => ?_
  show (find (st.write ty fieldId i vs).columns id).map _ = (find st.columns id).map _
  rw [find_columns_write]
  by_cases hid : id = fieldId
  · rw [if_pos hid, Option.map_map]
    exact congrArg (Option.map · _) (funext fun c => put_ty ty _ c)
  · rw [if_neg hid]

theorem resize_types (n : Nat) (st : Storage) : SameTypes st (st.resize n) :=
  types_map (g := Column.resize n) (fun _ => rfl) rfl

/-- A guard that throws, before a change. -/
theorem keeps_guarded {c : Storage → Prop} [∀ st, Decidable (c st)] {e : Storage → Exn}
    {m : Storage → EStateM Exn Storage Unit} (hm : ∀ st, Keeps SameTypes (m st)) :
    Keeps SameTypes (do
      let st ← get
      when (c st) (throw (e st))
      m st) :=
  keeps_bind sameTypes_trans (keeps_get sameTypes_refl) fun _ =>
    keeps_bind sameTypes_trans (keeps_when sameTypes_refl (keeps_throw sameTypes_refl _))
      fun _ => hm _

theorem internalDelete_types (recordId : RecordId) :
    Keeps SameTypes (internalDelete recordId) :=
  keeps_guarded fun _ => keeps_modify fun _ =>
    types_map (g := Column.clear recordId) (fun _ => rfl) rfl

theorem deleteRecords_types (recordId : RecordId) (size : Nat) :
    Keeps SameTypes (Database.deleteRecords recordId size) := by
  induction size with
  | zero => exact keeps_pure sameTypes_refl ()
  | succ size ih => exact keeps_bind sameTypes_trans (internalDelete_types _) fun _ => ih

theorem internalVectorInsert_types (recordId : RecordId) (size : Nat) :
    Keeps SameTypes (internalVectorInsert recordId size) :=
  keeps_guarded fun _ => keeps_modify fun _ => rfl

theorem insertRecord_types (nameSpace : String) (recordId : RecordId) :
    Keeps SameTypes (Database.insertRecord nameSpace recordId) :=
  keeps_guarded fun _ => keeps_bind sameTypes_trans
    (keeps_when sameTypes_refl (keeps_throw sameTypes_refl _)) fun _ => keeps_bind sameTypes_trans
      (keeps_when sameTypes_refl (keeps_modify (resize_types _))) fun _ => keeps_modify fun _ => rfl

theorem insertRecords_types (recordId : RecordId) (size : Nat) :
    Keeps SameTypes (Database.insertRecords recordId size) :=
  keeps_bind sameTypes_trans (checkEnd_keeps sameTypes_refl _ _) fun _ =>
    keeps_bind sameTypes_trans (keeps_get sameTypes_refl) fun _ => keeps_bind sameTypes_trans
      (keeps_when sameTypes_refl (keeps_modify (resize_types _))) fun _ =>
        internalVectorInsert_types _ _

theorem triggerIndexes_types (fieldId : FieldId)
    (g : List (FieldId × Column) → Index → Index × Option Exn) :
    Keeps SameTypes (triggerIndexes fieldId g) := by
  intro st
  rw [after, triggerIndexes, get_bind_run]
  cases (Index.trigger fieldId (g st.columns) st.indexes).2 with
  | none => rfl
  | some e => rfl

theorem internalUpdate_types (ty : Ty) (recordId : RecordId) (fieldId : FieldId)
    (value : ty.Arg) : Keeps SameTypes (internalUpdate ty recordId fieldId value) :=
  keeps_guarded fun _ => keeps_bind sameTypes_trans (keeps_modify (write_types ty fieldId _ _))
    fun _ => triggerIndexes_types _ _

theorem internalUpdateVector_types (ty : Ty) (recordId : RecordId) (fieldId : FieldId)
    (values : List ty.Storage) :
    Keeps SameTypes (internalUpdateVector ty recordId fieldId values) :=
  keeps_guarded fun _ => keeps_bind sameTypes_trans (keeps_modify (write_types ty fieldId _ _))
    fun _ => triggerIndexes_types _ _

theorem onField_types {ty : Ty} {fieldId : FieldId} {m : EStateM Exn Storage Unit}
    (hm : Keeps SameTypes m) : Keeps SameTypes (Database.onField ty fieldId m) :=
  keeps_bind sameTypes_trans (keeps_get sameTypes_refl) fun _ => keeps_when sameTypes_refl hm

end Storage

namespace Database

def types (gen : Database) : TableId → Option (FieldId → Option Ty) :=
  fun id => (find gen.tables id).map (·.types)

variable {gen gen' : Database}

theorem types_assign {tableId : TableId} {st st' : Storage}
    (hfind : find gen.tables tableId = some st) (h : st'.types = st.types) :
    types { gen with tables := assign gen.tables tableId st' } = gen.types := by
  refine funext fun id => ?_
  show (find (assign gen.tables tableId st') id).map _ = (find gen.tables id).map _
  rw [find_assign_eq]
  by_cases hid : id = tableId
  · rw [if_pos hid, hid, hfind]
    exact congrArg some h
  · rw [if_neg hid]

theorem onTable_types {tableId : TableId} {m : EStateM Exn Storage Unit}
    (hm : Keeps Storage.SameTypes m) (h : onTable tableId (pure ()) m gen = .ok () gen') :
    gen'.types = gen.types := by
  obtain ⟨-, rfl⟩ | ⟨st, st', hfind, hrun, rfl⟩ := onTable_cases h
  · rfl
  · exact types_assign hfind (hm.ok hrun)

theorem call_types {op : Op} (h : call op gen = .ok () gen') : gen'.types = gen.types := by
  cases op with
  | insertInto t r =>
      rw [call, insertInto, get_bind_run] at h
      obtain ⟨hout, h⟩ := exception_bind_eq_ok.mp h
      exact onTable_types (Storage.insertRecord_types _ _) h
  | insertVector t r size =>
      rw [call, insertVector, get_bind_run] at h
      obtain ⟨hout, h⟩ := exception_bind_eq_ok.mp h
      exact onTable_types (Storage.insertRecords_types _ _) h
  | deleteFrom t r => exact onTable_types (Storage.internalDelete_types _) h
  | deleteVector t r size =>
      exact onTable_types (Storage.keeps_guarded fun _ => Storage.deleteRecords_types _ _) h
  | update ty t r f v =>
      exact onTable_types (Storage.onField_types (Storage.internalUpdate_types ty r f v)) h
  | updateVector ty t r f vs =>
      exact onTable_types (Storage.onField_types (Storage.internalUpdateVector_types ty r f vs)) h
  | _ =>
      obtain rfl := (EStateM.Result.ok.inj h).2
      rfl

theorem hear_types {op : Op} (h : asWritable.hear op gen = .ok () gen') :
    gen'.types = gen.types := by
  have hplain : (∀ d, asWritable.hear op d = call op d) → gen'.types = gen.types := by
    intro hcall
    rw [hcall] at h
    exact call_types h
  cases op with
  | updateVector ty t r f vs =>
      rw [Writable.hear_updateVector] at h
      by_cases hempty : vs.length = 0
      · rw [when_neg (not_not_intro hempty)] at h
        obtain rfl := (EStateM.Result.ok.inj h).2
        rfl
      · rw [when_pos hempty] at h
        obtain ⟨-, rfl⟩ | ⟨st, st₁, st', hfind, hst₁, hrun, rfl⟩ := hearVector_gen h
        · rfl
        · refine types_assign hfind ?_
          have hupdate := (Storage.onField_types
            (Storage.internalUpdateVector_types ty r f vs)).ok hrun
          obtain rfl | ⟨-, rfl⟩ := hst₁
          · exact hupdate
          · exact hupdate.trans (Storage.write_types ty f _ vs st)
  | writeBlob data =>
      obtain rfl := (EStateM.Result.ok.inj h).2
      rfl
  | _ => exact hplain fun _ => rfl

theorem hearAll_types {ops : List Op} (h : asWritable.hearAll ops gen = .ok () gen') :
    gen'.types = gen.types := by
  induction ops generalizing gen with
  | nil =>
      obtain rfl := (EStateM.Result.ok.inj h).2
      rfl
  | cons op ops ih =>
      obtain ⟨_, gen₁, hop, hops⟩ := bind_eq_ok h
      exact (ih hops).trans (hear_types hop)

end Database

/-- What the compiler generates for a schema: a class that is fresh, with a table for
each of the tables, and a column for each of the fields. -/
structure GeneratedFrom (schema : List Op) (gen : Database) : Prop where
  fresh : gen.Fresh
  types : ∀ id, (gen.types id).map (fun w f => (w f).map some)
    = ((schema.foldl View.apply View.empty).2 id).map (·.2)

/-- The two, at the end of a replay: the same tables with the same fields, the same
records in use, and for each of them the same values. -/
def SameContent (db : Joedb.Database) (gen : Database) : Prop :=
  ∀ tableId,
    match find db.tables tableId, find gen.tables tableId with
    | none, none => True
    | some t, some st =>
        t.freedom.isUsed = st.freedom.isUsed ∧
        ∀ fieldId,
          match find t.fields fieldId, find st.columns fieldId with
          | none, none => True
          | some f, some c => ∀ x : Nat, st.freedom.isUsed x = true → f.value x = some (c.get x)
          | _, _ => False
    | _, _ => False

/-- What agrees, with the same fields. -/
theorem DbAgrees.sameContent {db : Joedb.Database} {gen : Database} (h : DbAgrees db gen)
    (htypes : ∀ id, (gen.types id).map (fun w f => (w f).map some)
      = (db.view.2 id).map (·.2)) : SameContent db gen := by
  intro tableId
  have htable : ((find gen.tables tableId).map (·.types)).map (fun w f => (w f).map some)
      = ((find db.tables tableId).map (·.view)).map (·.2) := htypes tableId
  cases ht : find db.tables tableId with
  | none =>
      cases hst : find gen.tables tableId with
      | none => trivial
      | some st =>
          rw [ht, hst] at htable
          cases htable
  | some t =>
      cases hst : find gen.tables tableId with
      | none =>
          rw [ht, hst] at htable
          cases htable
      | some st =>
          rw [ht, hst] at htable
          have hagrees := h.agrees tableId st t hst ht
          refine ⟨hagrees.used, fun fieldId => ?_⟩
          have hfield : ((find st.columns fieldId).map (·.ty)).map some
              = (find t.fields fieldId).map (·.column.holds) :=
            congrFun (Option.some.inj htable) fieldId
          cases hf : find t.fields fieldId with
          | none =>
              cases hc : find st.columns fieldId with
              | none => trivial
              | some c =>
                  rw [hf, hc] at hfield
                  cases hfield
          | some f =>
              cases hc : find st.columns fieldId with
              | none =>
                  rw [hf, hc] at hfield
                  cases hfield
              | some c =>
                  intro x hx
                  rw [hf, hc] at hfield
                  have hholds : some c.ty = f.column.holds := Option.some.inj hfield
                  obtain ⟨vs, hcolumn⟩ := Column.holds_eq_some.mp hholds.symm
                  have hvalue : f.value x = some ⟨c.ty, vs.getD x c.ty.kind.default⟩ := by
                    rw [Field.value, hcolumn]
                  rw [hvalue]
                  exact congrArg some (hagrees.values fieldId f c hf hc x hx _ hvalue rfl)

/-! ## Files -/

open FileBuffer Replay

/-- A journal that both accept: replayed completely, the interpreted database and the
class that was generated from the schema of the journal have the same content, if
every record that came into use was blank. -/
theorem databases_agree {schema : List Op} {gen : Database} (hgen : GeneratedFrom schema gen)
    {h : History} (hr : h.Reach)
    (hend : h.journal.getPosition = h.journal.getCheckpoint)
    (hschema : h.ops.filter Database.schemaEvent = schema) {maxRecordId : RecordId}
    {reads : Pread} {r : Replay Joedb.Database}
    (hdb : replayInto Joedb.Database.asWritable (.create maxRecordId) (h.readBy reads) = .ok r)
    {mode : OpenMode} (hmode : mode ≠ .readExisting) {reads' : Pread} {gen' : Database}
    (hgen' : Database.reopen schema gen { h.journal.file with mode := mode, reads := reads' }
      = .ok (gen', false))
    (hblank : BlankAll h.ops (.create maxRecordId)) : SameContent r.writable gen' := by
  have hheard := heard_of_replayInto Joedb.Database.asWritable_passive hr hdb
  rw [hr.good.checkpointed_of_position hend, List.take_length] at hheard
  obtain ⟨hheard', -, -, -⟩ := Database.heard_of_reopen hgen.fresh hr hend hmode hgen'
    (Nat.le_refl _)
  have hagrees := (dbAgrees_create maxRecordId hgen.fresh h.journal.getCheckpoint).hearAll hblank
    hheard hheard'
  have hsame : DbAgrees r.writable gen' := ⟨hagrees.given, hagrees.agrees, hagrees.later⟩
  refine hsame.sameContent fun id => ?_
  have htypes : (gen'.within h.journal.getCheckpoint).types
      = (gen.within h.journal.getCheckpoint).types := Database.hearAll_types hheard'
  obtain ⟨-, hview⟩ := (Joedb.Database.sound_create maxRecordId).hearAll hheard
  rw [foldl_schemaEvent, hschema] at hview
  rw [show gen'.types = gen.types from htypes, hview]
  exact hgen.types id

/-! ## One field -/

/-- A schema of one table, with one field. -/
def oneField : List Op := [.createTable [0x74], .addField 1 [0x61] (.plain 8)]

/-- What is generated for it. -/
def oneFieldClass : Database where
  nameSpace := "test"
  tables := [(1, { name := "t", singleRow := false, columns := [(1, ⟨.int8, []⟩)], indexes := []
                   freedom := .create })]
  maxRecordId := 0
  schema := []

theorem oneField_generated : GeneratedFrom oneField oneFieldClass := by
  refine ⟨⟨rfl, ?_, ?_, ?_, ?_⟩, fun id => ?_⟩
  · simp [oneFieldClass]
  · simp [oneFieldClass]
  · simp [oneFieldClass]
  · simp [oneFieldClass]
  · show ((find oneFieldClass.tables id).map _).map _ = _
    by_cases hid : id = 1
    · subst hid
      refine congrArg some (funext fun f => ?_)
      show ((find [(1, Column.mk .int8 [])] f).map _).map _ = if f = 0 + 1 then _ else _
      by_cases hf : f = 1
      · subst hf
        rfl
      · rw [find, if_neg hf, if_neg (show ¬ f = 0 + 1 from hf)]
        rfl
    · rw [oneFieldClass, find, if_neg hid]
      show none = Option.map _ (if id = 1 then _ else if id = 0 + 1 then _ else none)
      rw [if_neg hid, if_neg (show ¬ id = 0 + 1 from hid)]
      rfl

theorem oneField_fits {ops : List Op}
    (hops : ∀ op ∈ ops, op = .insertInto 1 0 ∨ op = .deleteFrom 1 0 ∨
      op = .update .int8 1 0 1 ⟨(5 : BitVec 8), rfl⟩) :
    ∀ op ∈ oneField ++ ops, op.Fits ∧ op.Readable := by
  intro op hop
  rcases List.mem_append.mp hop with hop | hop
  · simp only [oneField, List.mem_cons, List.not_mem_nil, or_false] at hop
    obtain rfl | rfl := hop
    · exact ⟨(by decide : 1 < 2 ^ 61), trivial⟩
    · exact ⟨(by decide : 1 < 2 ^ 61), trivial⟩
  · obtain rfl | rfl | rfl := hops op hop
    · exact ⟨⟨by decide, by decide⟩, trivial⟩
    · exact ⟨⟨by decide, by decide⟩, trivial⟩
    · exact ⟨⟨⟨by decide, by decide⟩, trivial⟩, trivial⟩

theorem blankAll_cons {op : Op} {ops : List Op} {db db' : Joedb.Database} (hop : Blank db op)
    (hrun : Joedb.Database.asWritable.hear op db = .ok () db') (hops : BlankAll ops db') :
    BlankAll (op :: ops) db := by
  refine ⟨hop, fun d hd => ?_⟩
  rw [hrun] at hd
  exact (EStateM.Result.ok.inj hd).2 ▸ hops

/-- A record that is deleted and inserted again: the interpreted database still has
its value, and the generated class has not. -/
theorem reinserted_disagree :
    ∃ (h : History) (r : Replay Joedb.Database) (gen' : Database),
      GeneratedFrom oneField oneFieldClass ∧ h.Reach ∧
      h.journal.getPosition = h.journal.getCheckpoint ∧
      h.ops = oneField ++ [.insertInto 1 0, .update .int8 1 0 1 ⟨(5 : BitVec 8), rfl⟩,
        .deleteFrom 1 0, .insertInto 1 0] ∧
      h.ops.filter Database.schemaEvent = oneField ∧
      replayInto Joedb.Database.asWritable (.create (-1)) (h.readBy .whole) = .ok r ∧
      Database.reopen oneField oneFieldClass
        { h.journal.file with mode := .writeExisting, reads := .whole } = .ok (gen', false) ∧
      ¬ SameContent r.writable gen' := by
  obtain ⟨h, hr, hops, hend⟩ := Database.exists_history
    (show ∀ op ∈ oneField ++ [.insertInto 1 0, .update .int8 1 0 1 ⟨(5 : BitVec 8), rfl⟩,
      .deleteFrom 1 0, .insertInto 1 0], op.Fits ∧ op.Readable from oneField_fits (by simp))
    (by decide)
  obtain ⟨db, t, f, hhear, ht, hf, hvalue⟩ : ∃ db t f,
      Joedb.Database.asWritable.hearAll h.ops (.create (-1)) = .ok () db ∧
        find db.tables 1 = some t ∧ find t.fields 1 = some f ∧
        f.value 0 = some ⟨.int8, (5 : BitVec 8)⟩ := by
    rw [hops]
    exact ⟨_, _, _, rfl, rfl, rfl, rfl⟩
  have hall : h.ops.take h.checkpointed = h.ops := by
    rw [hr.good.checkpointed_of_position hend, List.take_length]
  obtain ⟨r, hreplay, rfl⟩ := replayInto_of_heard Joedb.Database.asWritable_passive hr .whole
    (hall.symm ▸ hhear)
  obtain ⟨gen', st, c, hopened, hst, hc, hget, hused⟩ : ∃ gen' st c,
      Database.reopen oneField oneFieldClass
          { h.journal.file with mode := .writeExisting, reads := .whole } = .ok (gen', false) ∧
        find gen'.tables 1 = some st ∧ find st.columns 1 = some c ∧
        c.get 0 = ⟨.int8, (0 : BitVec 8)⟩ ∧ st.freedom.isUsed 0 = true := by
    rw [Database.reopen_eq hr hend (by decide), Database.getCheckpoint_of_end hr hend, hops]
    exact ⟨_, _, _, rfl, rfl, rfl, rfl, rfl⟩
  refine ⟨h, r, gen', oneField_generated, hr, hend, hops, by rw [hops]; rfl, hreplay, hopened,
    fun hsame => ?_⟩
  have htable := hsame 1
  rw [ht, hst] at htable
  have hfield := htable.2 1
  rw [hf, hc] at hfield
  have hboth := hfield 0 hused
  rw [hvalue, show c.get ((0 : Nat) : Int) = _ from hget] at hboth
  cases hboth

/-- Without the deletion they agree. -/
theorem databases_agree_inserted :
    ∃ (h : History) (r : Replay Joedb.Database) (gen' : Database),
      h.ops = oneField ++ [.insertInto 1 0, .update .int8 1 0 1 ⟨(5 : BitVec 8), rfl⟩] ∧
      replayInto Joedb.Database.asWritable (.create (-1)) (h.readBy .whole) = .ok r ∧
      Database.reopen oneField oneFieldClass
        { h.journal.file with mode := .writeExisting, reads := .whole } = .ok (gen', false) ∧
      SameContent r.writable gen' := by
  obtain ⟨h, hr, hops, hend⟩ := Database.exists_history
    (show ∀ op ∈ oneField ++ [.insertInto 1 0, .update .int8 1 0 1 ⟨(5 : BitVec 8), rfl⟩],
      op.Fits ∧ op.Readable from oneField_fits (by simp)) (by decide)
  have hblank : BlankAll h.ops (.create (-1)) := by
    rw [hops]
    refine blankAll_cons trivial rfl (blankAll_cons trivial rfl (blankAll_cons ?_ rfl
      (blankAll_cons trivial rfl trivial)))
    intro table htable fieldId f v hf hv
    cases htable
    change (if fieldId = 1 then _ else none) = some f at hf
    by_cases hid : fieldId = 1
    · rw [if_pos hid] at hf
      cases hf
      cases hv
      rfl
    · rw [if_neg hid] at hf
      cases hf
  obtain ⟨db, hhear⟩ : ∃ db,
      Joedb.Database.asWritable.hearAll h.ops (.create (-1)) = .ok () db := by
    rw [hops]
    exact ⟨_, rfl⟩
  have hall : h.ops.take h.checkpointed = h.ops := by
    rw [hr.good.checkpointed_of_position hend, List.take_length]
  obtain ⟨r, hreplay, rfl⟩ := replayInto_of_heard Joedb.Database.asWritable_passive hr .whole
    (hall.symm ▸ hhear)
  obtain ⟨gen', hopened⟩ : ∃ gen', Database.reopen oneField oneFieldClass
      { h.journal.file with mode := .writeExisting, reads := .whole } = .ok (gen', false) := by
    rw [Database.reopen_eq hr hend (by decide), Database.getCheckpoint_of_end hr hend, hops]
    exact ⟨_, rfl⟩
  exact ⟨h, r, gen', hops, hreplay, hopened, databases_agree oneField_generated hr hend
    (by rw [hops]; rfl) hreplay (by decide) hopened hblank⟩

end Joedb.Compiled
