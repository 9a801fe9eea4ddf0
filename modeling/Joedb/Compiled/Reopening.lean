import Joedb.Compiled.Hearing
import Mathlib.Data.List.Induction

/-!
# Reopening what was written

A file is opened by a generated class, changed by its functions, and closed at a
checkpoint. It can be opened again, and is what it was, if all the changes pass
what a replay looks at. They do not have to, since nothing makes the functions that
write look: a file with an id that is not below its size is one that no generated
class opens again.

The invariant is that what the journal says, heard under the limit of the final
size, is what is in memory.
-/

namespace Joedb.Compiled

open ByteFile Containers StateExcept FileBuffer Replay

namespace Database

/-- What a generated class is before it has opened anything. -/
structure Fresh (db : Database) : Prop where
  schema : db.schema = []
  freedom : ∀ t ∈ db.tables, t.2.freedom = .create
  columns : ∀ t ∈ db.tables, ∀ c ∈ t.2.columns, c.2.values = []
  entries : ∀ t ∈ db.tables, ∀ ix ∈ t.2.indexes, ix.entries = []
  iterators : ∀ t ∈ db.tables, ∀ ix ∈ t.2.indexes, ix.iterators = []

theorem Fresh.sound {db : Database} (h : db.Fresh) : db.Sound := by
  intro t ht
  have hfreedom := h.freedom t ht
  refine ⟨⟨[], hfreedom ▸ FreedomKeeper.orders_create⟩, ?_, fun c hc => ?_, fun ix hix => ?_⟩
  · rw [hfreedom]
    decide
  · rw [hfreedom, h.columns t ht c hc]
    rfl
  · rw [hfreedom, h.iterators t ht ix hix]
    rfl

/-! ## Opening -/

/-- What comes of a replay. -/
def opened (schema : List Op) : EStateM.Result Exn Database Unit → Except Exn (Database × Bool)
  | .ok _ db => initialize_ schema (db.within 0)
  | .error e _ => .error e

/-- A file that was closed at its checkpoint is opened as its operations are heard,
with its size for a limit. -/
theorem reopen_eq {h : History} (hr : h.Reach)
    (hend : h.journal.getPosition = h.journal.getCheckpoint) {mode : OpenMode}
    (hmode : mode ≠ .readExisting) (reads : Pread) (schema : List Op) (fresh : Database) :
    reopen schema fresh { h.journal.file with mode := mode, reads := reads }
      = opened schema (asWritable.hearAll h.ops (fresh.within h.journal.getCheckpoint)) := by
  have hgood := hr.good
  have hready := hgood.ready
  have hexact : h.journal.file.data.length = h.journal.getCheckpoint := by
    have h1 := hready.checkpoint_le
    have h2 := hready.position_le
    rw [← hgood.exact]
    omega
  have hbody := hgood.checkpoint_body
  rw [hgood.checkpointed_of_position hend, List.take_length] at hbody
  have hwritable : ({ h.journal.file with mode := mode, reads := reads } : File).isReadonly
      = false := by
    cases mode with
    | readExisting => exact absurd rfl hmode
    | _ => rfl
  obtain ⟨j, hopen, hj⟩ := Journal.openWritable_opened
    (show HasHeader (File.data { h.journal.file with mode := mode, reads := reads }) from
      hgood.header) hgood.agrees (Nat.le_of_eq hexact.symm) .none (by decide) (.inl hexact)
    hwritable
  have hidle := setPosition_idle hj.idle headerSize
  have hfile : j.rewind.file = { h.journal.file with mode := mode, reads := reads } :=
    hidle.2.2.trans hj.file_eq
  have hposition : j.rewind.getPosition = headerSize := hidle.1.getPosition.trans hidle.2.1
  have hcheckpoint : j.rewind.getCheckpoint = h.journal.getCheckpoint := hj.checkpoint
  have hlen : h.journal.getCheckpoint
      = headerSize + (wiresBytes (encodeAll .reset h.ops)).length := by
    rw [← hbody, length_slice_of_le (Nat.le_of_eq hexact.symm)]
    have := Nat.le_trans hgood.agrees.header_le hgood.agrees.hard_le
    exact (Nat.add_sub_cancel' this).symm
  obtain ⟨b, -, hplay⟩ := playUntilCheckpoint_hear asWritable_passive (j := j.rewind)
    (w := fresh.within j.getCheckpoint) (encodeAll_fits hgood.fits .reset) hidle.1.reading
    (by rw [hcheckpoint, hposition, hlen])
    (prefix_drop_iff_slice.mpr (by rw [hfile, hposition, ← hlen]; exact hbody))
  rw [show j.rewind.context = .reset from rfl, decodeAll_encodeAll,
    show j.getCheckpoint = h.journal.getCheckpoint from hj.checkpoint] at hplay
  rw [reopen, hopen]
  simp only []
  rw [show ({ fresh with maxRecordId := j.getCheckpoint } : Database)
    = fresh.within h.journal.getCheckpoint from congrArg fresh.within hj.checkpoint]
  cases hhear : asWritable.hearAll h.ops (fresh.within h.journal.getCheckpoint) with
  | ok u db =>
      rw [hhear] at hplay
      rw [hplay.2.2]
      rfl
  | error e db =>
      rw [hhear] at hplay
      obtain ⟨c, hplay⟩ := hplay.2.2.2
      rw [hplay]
      rfl

end Database

/-! ## Running -/

namespace Change

/-- The table that is changed passes what a replay looks at. -/
def PassesIn (size : Nat) (db : Database) (c : Change) : Prop :=
  ∀ st, find db.tables c.tableId = some st → c.Passes size st

end Change

/-- Changes of which each is allowed, and none throws. -/
inductive Run (Allowed : Database → Change → Prop) : Database → List Op → Database → Prop where
  | done (db : Database) : Run Allowed db [] db
  | step {db db₁ db₂ : Database} {c : Change} {op : Op} {ops : List Op} (hc : Allowed db c)
      (hop : c.perform db = .ok op db₁) (hrest : Run Allowed db₁ ops db₂) :
      Run Allowed db (op :: ops) db₂

theorem Run.heard {Allowed : Database → Change → Prop} {size : Nat} (hsize : size ≠ 0)
    (hallowed : ∀ db c, Allowed db c → c.Exists db ∧ c.PassesIn size db) {db db' : Database}
    {ops : List Op} (hrun : Run Allowed db ops db') (h : db.Sound) :
    Database.asWritable.hearAll ops (db.within size) = .ok () (db'.within size) ∧ db'.Sound ∧
      db' = { db with tables := db'.tables } := by
  induction hrun with
  | done db => exact ⟨rfl, h, rfl⟩
  | step hc hop hrest ih =>
      obtain ⟨⟨st, hfind, hhas⟩, hpasses⟩ := hallowed _ _ hc
      have hhear := Change.perform_hear h hfind hhas (hpasses st hfind) hop
      obtain ⟨st', -, rfl⟩ := Database.onTable_eq_ok hfind hop
      obtain ⟨-, -, hsound⟩ := Database.hear_within
        (show (Database.within _ size).maxRecordId ≠ 0 from hsize) (Nat.le_refl _)
        (show (Database.within _ size).Sound from h) hhear
      obtain ⟨hheard, hsound', heq⟩ := ih hsound
      exact ⟨(bind_ok hhear).trans hheard, hsound', heq⟩

/-! ## Single rows -/

namespace Storage

/-- A table does not change its kind. -/
def SameKind (st st' : Storage) : Prop := st'.singleRow = st.singleRow

theorem sameKind_refl (st : Storage) : SameKind st st := rfl

theorem sameKind_trans (a b c : Storage) (h : SameKind a b) (h' : SameKind b c) : SameKind a c :=
  h'.trans h

theorem internalDelete_keeps (recordId : RecordId) : Keeps SameKind (internalDelete recordId) :=
  keeps_bind sameKind_trans (keeps_get sameKind_refl) fun _ =>
    keeps_bind sameKind_trans (keeps_when sameKind_refl (keeps_throw sameKind_refl _)) fun _ =>
      keeps_modify fun _ => rfl

theorem deleteRecords_keeps (recordId : RecordId) (size : Nat) :
    Keeps SameKind (Database.deleteRecords recordId size) := by
  induction size with
  | zero => exact keeps_pure sameKind_refl ()
  | succ size ih =>
      exact keeps_bind sameKind_trans (internalDelete_keeps _) fun _ => ih

theorem internalVectorInsert_keeps (recordId : RecordId) (size : Nat) :
    Keeps SameKind (internalVectorInsert recordId size) :=
  keeps_bind sameKind_trans (keeps_get sameKind_refl) fun _ =>
    keeps_bind sameKind_trans (keeps_when sameKind_refl (keeps_throw sameKind_refl _)) fun _ =>
      keeps_modify fun _ => rfl

/-- Neither its kind nor its records. -/
def SameRows (st st' : Storage) : Prop :=
  st'.singleRow = st.singleRow ∧ st'.freedom = st.freedom

theorem sameRows_refl (st : Storage) : SameRows st st := ⟨rfl, rfl⟩

theorem sameRows_trans (a b c : Storage) (h : SameRows a b) (h' : SameRows b c) :
    SameRows a c := ⟨h'.1.trans h.1, h'.2.trans h.2⟩

theorem triggerIndexes_keeps (fieldId : FieldId)
    (g : List (FieldId × Column) → Index → Index × Option Exn) :
    Keeps SameRows (triggerIndexes fieldId g) := by
  intro st
  rw [after, triggerIndexes, get_bind_run]
  cases (Index.trigger fieldId (g st.columns) st.indexes).2 with
  | none => exact ⟨rfl, rfl⟩
  | some e => exact ⟨rfl, rfl⟩

theorem internalUpdate_keeps (ty : Ty) (recordId : RecordId) (fieldId : FieldId)
    (value : ty.Arg) : Keeps SameRows (internalUpdate ty recordId fieldId value) :=
  keeps_bind sameRows_trans (keeps_get sameRows_refl) fun _ =>
    keeps_bind sameRows_trans (keeps_when sameRows_refl (keeps_throw sameRows_refl _)) fun _ =>
      keeps_bind sameRows_trans (keeps_modify fun _ => ⟨rfl, rfl⟩) fun _ =>
        triggerIndexes_keeps _ _

theorem internalUpdateVector_keeps (ty : Ty) (recordId : RecordId) (fieldId : FieldId)
    (values : List ty.Storage) :
    Keeps SameRows (internalUpdateVector ty recordId fieldId values) :=
  keeps_bind sameRows_trans (keeps_get sameRows_refl) fun _ =>
    keeps_bind sameRows_trans (keeps_when sameRows_refl (keeps_throw sameRows_refl _)) fun _ =>
      keeps_bind sameRows_trans (keeps_modify fun _ => ⟨rfl, rfl⟩) fun _ =>
        triggerIndexes_keeps _ _

end Storage

namespace Change

open Storage

theorem onStorage_keeps (c : Change) : Keeps SameKind c.onStorage := by
  have hpure : ∀ op : Op, Keeps SameKind (pure op : EStateM Exn Storage Op) :=
    keeps_pure sameKind_refl
  have hrows : ∀ {m : EStateM Exn Storage Unit}, Keeps SameRows m → Keeps SameKind m :=
    fun hm st => (hm st).1
  cases c with
  | new t =>
      intro st
      show SameKind st (after (newRecord t) st)
      rw [after, newRecord, get_bind_run]
      by_cases hend : st.freedom.getFreeRecord.1 + 1 ≥ 2 ^ 63
      · rw [when_pos hend]
        rfl
      · rw [when_neg hend, pure_bind_run]
        rfl
  | insert t r =>
      exact keeps_bind sameKind_trans (keeps_get sameKind_refl) fun _ =>
        keeps_bind sameKind_trans (keeps_when sameKind_refl (keeps_throw sameKind_refl _))
          fun _ => keeps_bind sameKind_trans
            (keeps_when sameKind_refl (keeps_modify fun _ => rfl)) fun _ =>
              keeps_bind sameKind_trans (keeps_modify fun _ => rfl) fun _ => hpure _
  | newVector t n =>
      exact keeps_bind sameKind_trans (keeps_get sameKind_refl) fun _ =>
        keeps_bind sameKind_trans (checkEnd_keeps sameKind_refl _ _) fun _ =>
          keeps_bind sameKind_trans (keeps_modify fun _ => rfl) fun _ =>
            keeps_bind sameKind_trans (internalVectorInsert_keeps _ _) fun _ => hpure _
  | delete t r =>
      exact keeps_bind sameKind_trans (internalDelete_keeps _) fun _ => hpure _
  | deleteVector t r n =>
      exact keeps_bind sameKind_trans (deleteRecords_keeps _ _) fun _ => hpure _
  | set ty t r f v =>
      exact keeps_bind sameKind_trans (hrows (internalUpdate_keeps ty r f v)) fun _ => hpure _
  | updateVector ty t r f vs =>
      exact keeps_bind sameKind_trans (keeps_modify fun _ => rfl) fun _ =>
        keeps_bind sameKind_trans (hrows (internalUpdateVector_keeps ty r f vs)) fun _ => hpure _

end Change

namespace Database

/-- What `check_single_row` looks for. -/
def SingleRows (db : Database) : Prop :=
  ∀ t ∈ db.tables, t.2.singleRow = true →
    t.2.freedom.getNext usedList = 0 ∧ t.2.freedom.getPrevious usedList = 0

theorem checkSingleRow_eq_ok {db : Database} : db.checkSingleRow = .ok () ↔ db.SingleRows := by
  have hnone : db.checkSingleRow = .ok () ↔ (db.tables.find? fun t => t.2.singleRow &&
      (t.2.freedom.getNext usedList ≠ 0 || t.2.freedom.getPrevious usedList ≠ 0)) = none := by
    rw [checkSingleRow]
    split
    · next heq => exact ⟨fun _ => heq, fun _ => rfl⟩
    · next t heq => exact ⟨fun h => (by cases h), fun h => by rw [heq] at h; cases h⟩
  rw [hnone, List.find?_eq_none, SingleRows]
  refine forall₂_congr fun t _ => ?_
  cases t.2.singleRow <;> simp

/-- A table with a single row keeps it, since all that is public of it is setters. -/
theorem SingleRows.perform {db db' : Database} {c : Change} {op : Op} (h : db.SingleRows)
    (hexists : c.Exists db) (hpublic : c.Public db) (hrun : c.perform db = .ok op db') :
    db'.SingleRows := by
  obtain ⟨st, hfind, -⟩ := hexists
  obtain ⟨st', hst', rfl⟩ := onTable_eq_ok hfind hrun
  refine forall_mem_assign (P := fun st : Storage => st.singleRow = true →
    st.freedom.getNext usedList = 0 ∧ st.freedom.getPrevious usedList = 0) h _ ?_
  intro hsingle
  have hkind : st'.singleRow = st.singleRow := (Change.onStorage_keeps c).ok hst'
  obtain ⟨ty, t, r, f, v, rfl⟩ := hpublic st hfind (hkind ▸ hsingle)
  obtain ⟨_, st₁, hupdate, hpure⟩ := bind_eq_ok hst'
  obtain ⟨-, rfl⟩ := EStateM.Result.ok.inj hpure
  have hrows := (Storage.internalUpdate_keeps ty r f v).ok hupdate
  rw [hrows.2]
  exact h _ (mem_of_find hfind) (hkind ▸ hsingle)

/-! ## Reopening -/

/-- The operations that a schema is made of. -/
def schemaEvent : Op → Bool
  | .createTable _ => true
  | .dropTable _ => true
  | .renameTable _ _ => true
  | .addField _ _ _ => true
  | .dropField _ _ => true
  | .renameField _ _ _ => true
  | .custom _ => true
  | _ => false

theorem hearAll_schema {missing : List Op} (h : ∀ op ∈ missing, schemaEvent op = true)
    (db : Database) :
    asWritable.hearAll missing db = .ok () { db with schema := db.schema ++ missing } := by
  induction missing generalizing db with
  | nil => rw [List.append_nil]; rfl
  | cons op ops ih =>
      obtain ⟨hop, hops⟩ := List.forall_mem_cons.mp h
      have hhear : asWritable.hear op db = .ok () { db with schema := db.schema ++ [op] } := by
        cases op with
        | createTable => rfl
        | dropTable => rfl
        | renameTable => rfl
        | addField => rfl
        | dropField => rfl
        | renameField => rfl
        | custom => rfl
        | _ => cases hop
      rw [Writable.hearAll, bind_ok hhear, ih hops, List.append_assoc]
      rfl

/-- A `Writable_Database` when its constructor returns, with the operations of its
journal: the file had the schema, or `auto_upgrade` wrote what was missing of it,
and what the upgrade did to the tables. -/
inductive Started (schema : List Op) (fresh : Database) (size : Nat) :
    List Op → Database → Prop where
  | current {h : History} {db : Database} {mode : OpenMode} {reads : Pread} (hr : h.Reach)
      (hend : h.journal.getPosition = h.journal.getCheckpoint) (hmode : mode ≠ .readExisting)
      (hopen : reopen schema fresh { h.journal.file with mode := mode, reads := reads }
        = .ok (db, false)) : Started schema fresh size h.ops db
  | upgraded {h : History} {db db' : Database} {mode : OpenMode} {reads : Pread}
      {missing ops : List Op} (text : Bytes) (hr : h.Reach)
      (hend : h.journal.getPosition = h.journal.getCheckpoint) (hmode : mode ≠ .readExisting)
      (hopen : reopen schema fresh { h.journal.file with mode := mode, reads := reads }
        = .ok (db, true))
      (hschema : db.schema ++ missing = schema)
      (hrun : Run (fun db c => c.Exists db ∧ c.PassesIn size db)
        { db with schema := schema } ops db')
      (hsingle : db'.checkSingleRow = .ok ()) :
      Started schema fresh size
        (h.ops ++ (.comment text :: (missing ++ (ops ++ [.validData])))) db'

theorem initialize_fst {schema : List Op} {db db' : Database} {b : Bool}
    (h : initialize_ schema db = .ok (db', b)) : db' = db := by
  rw [initialize_] at h
  cases hcheck : db.checkSchema schema with
  | error e =>
      rw [hcheck] at h
      cases h
  | ok u =>
      rw [hcheck] at h
      by_cases hmissing : db.requiresSchemaUpgrade schema = true
      · simp only [bind, Except.bind, hmissing, if_true] at h
        cases h
        rfl
      · simp only [bind, Except.bind, hmissing] at h
        cases hsingle : db.checkSingleRow with
        | error e =>
            rw [hsingle] at h
            cases h
        | ok u =>
            rw [hsingle] at h
            cases h
            rfl

/-- What opened was heard, and is heard under the limit of a file that has grown. -/
theorem heard_of_reopen {schema : List Op} {fresh db : Database} {b : Bool} (hfresh : fresh.Fresh)
    {h : History} (hr : h.Reach) (hend : h.journal.getPosition = h.journal.getCheckpoint)
    {mode : OpenMode} (hmode : mode ≠ .readExisting) {reads : Pread}
    (hopen : reopen schema fresh { h.journal.file with mode := mode, reads := reads }
      = .ok (db, b)) {size : Nat} (hsize : h.journal.getCheckpoint ≤ size) :
    asWritable.hearAll h.ops (fresh.within size) = .ok () (db.within size) ∧ db.Sound ∧
      initialize_ schema db = .ok (db, b) ∧ db.maxRecordId = 0 := by
  rw [reopen_eq hr hend hmode] at hopen
  cases hhear : asWritable.hearAll h.ops (fresh.within h.journal.getCheckpoint) with
  | error e d =>
      rw [hhear] at hopen
      cases hopen
  | ok u d =>
      rw [hhear, opened] at hopen
      obtain rfl := initialize_fst hopen
      have hlimit : (fresh.within h.journal.getCheckpoint).maxRecordId ≠ 0 := by
        have := Nat.le_trans hr.good.agrees.header_le hr.good.agrees.hard_le
        exact Nat.pos_iff_ne_zero.mp (Nat.lt_of_lt_of_le (by decide) this)
      obtain ⟨hheard, -, hsound⟩ := hearAll_within hlimit hsize hfresh.sound hhear
      exact ⟨hheard, hsound, hopen, rfl⟩

theorem getCheckpoint_of_end {h : History} (hr : h.Reach)
    (hend : h.journal.getPosition = h.journal.getCheckpoint) :
    h.journal.getCheckpoint = headerSize + (wiresBytes (encodeAll .reset h.ops)).length := by
  rw [hr.good.checkpoint, hr.good.checkpointed_of_position hend, List.take_length]

theorem length_bytes_le (ops ops' : List Op) :
    (wiresBytes (encodeAll .reset ops)).length
      ≤ (wiresBytes (encodeAll .reset (ops ++ ops'))).length := by
  rw [encodeAll_append, wiresBytes_append, List.length_append]
  exact Nat.le_add_right _ _

/-- A database that needs no upgrade. -/
theorem initialize_ready {schema : List Op} {db : Database} :
    initialize_ schema db = .ok (db, false) ↔ db.checkSchema schema = .ok () ∧
      db.requiresSchemaUpgrade schema = false ∧ db.SingleRows := by
  rw [← checkSingleRow_eq_ok, initialize_]
  cases hcheck : db.checkSchema schema with
  | error e => simp [bind, Except.bind]
  | ok u =>
      by_cases hmissing : db.requiresSchemaUpgrade schema = true
      · simp [bind, Except.bind, hmissing, pure, Except.pure]
      · cases hsingle : db.checkSingleRow with
        | error e => simp [bind, Except.bind, hmissing]
        | ok u => simp [bind, Except.bind, hmissing, pure, Except.pure]

/-- The start of a run, heard under the limit of the file at its end. -/
theorem Started.heard {schema : List Op} {fresh db : Database} {size : Nat} {ops : List Op}
    (hfresh : fresh.Fresh) (hevents : ∀ op ∈ schema, schemaEvent op = true)
    (hsize : headerSize + (wiresBytes (encodeAll .reset ops)).length ≤ size)
    (h : Started schema fresh size ops db) :
    asWritable.hearAll ops (fresh.within size) = .ok () (db.within size) ∧ db.Sound ∧
      initialize_ schema db = .ok (db, false) ∧ db.maxRecordId = 0 := by
  cases h with
  | current hr hend hmode hopen =>
      exact heard_of_reopen hfresh hr hend hmode hopen (getCheckpoint_of_end hr hend ▸ hsize)
  | upgraded text hr hend hmode hopen hschema hrun hsingle =>
      rename_i h db₁ mode reads missing ops
      have hle : h.journal.getCheckpoint ≤ size := by
        rw [getCheckpoint_of_end hr hend]
        exact Nat.le_trans (Nat.add_le_add_left (length_bytes_le h.ops _) _) hsize
      obtain ⟨hheard, hsound, -, hmax⟩ := heard_of_reopen hfresh hr hend hmode hopen hle
      have hmissing : ∀ op ∈ missing, schemaEvent op = true := fun op hop =>
        hevents op (hschema ▸ List.mem_append_right _ hop)
      have hnonzero : size ≠ 0 :=
        Nat.pos_iff_ne_zero.mp (Nat.lt_of_lt_of_le (by decide : 0 < headerSize)
          (Nat.le_trans (Nat.le_add_right _ _) hsize))
      obtain ⟨hops, hsound', heq⟩ := hrun.heard hnonzero (fun _ _ hc => hc) hsound
      have hsame : db.schema = schema := by rw [heq]
      refine ⟨?_, hsound', initialize_ready.mpr ⟨?_, ?_, checkSingleRow_eq_ok.mp hsingle⟩, ?_⟩
      · rw [asWritable.hearAll_append hheard, Writable.hearAll]
        refine (bind_ok (show asWritable.hear (.comment text) (db₁.within size)
          = .ok () (db₁.within size) from rfl)).trans ?_
        have hschema' := hearAll_schema hmissing (db₁.within size)
        rw [show (db₁.within size).schema ++ missing = schema from hschema] at hschema'
        rw [asWritable.hearAll_append hschema']
        exact asWritable.hearAll_snoc hops rfl
      · rw [checkSchema, hsame]
        exact if_pos (by simp)
      · rw [requiresSchemaUpgrade, hsame, decide_eq_false (Nat.lt_irrefl _)]
      · rw [heq]
        exact hmax

/-- What a run must be for the file to be opened again: every id that is inserted
is below the size of the file at its end and was not in use, every vector starts
below that size and is smaller, and a vector that is deleted passes for used. -/
def Reopens (size : Nat) (db : Database) (c : Change) : Prop :=
  (c.Exists db ∧ c.Public db) ∧ c.PassesIn size db

end Database

theorem Run.singleRows {size : Nat} {db db' : Database} {ops : List Op}
    (hrun : Run (Database.Reopens size) db ops db') (h : db.SingleRows) : db'.SingleRows := by
  induction hrun with
  | done db => exact h
  | step hc hop hrest ih => exact ih (h.perform hc.1.1 hc.1.2 hop)

namespace Database

/-- The end of a run, heard like its start. -/
theorem Started.run_heard {schema : List Op} {fresh db₀ db : Database} {size : Nat}
    {ops₀ ops : List Op} (hfresh : fresh.Fresh) (hevents : ∀ op ∈ schema, schemaEvent op = true)
    (hsize : headerSize + (wiresBytes (encodeAll .reset ops₀)).length ≤ size)
    (hstart : Started schema fresh size ops₀ db₀) (hrun : Run (Reopens size) db₀ ops db) :
    asWritable.hearAll (ops₀ ++ ops) (fresh.within size) = .ok () (db.within size) ∧
      initialize_ schema db = .ok (db, false) ∧ db.maxRecordId = 0 := by
  obtain ⟨hheard, hsound, hready, hmax⟩ := hstart.heard hfresh hevents hsize
  have hnonzero : size ≠ 0 :=
    Nat.pos_iff_ne_zero.mp (Nat.lt_of_lt_of_le (by decide : 0 < headerSize)
      (Nat.le_trans (Nat.le_add_right _ _) hsize))
  obtain ⟨hrest, -, heq⟩ := hrun.heard hnonzero (fun _ _ hc => ⟨hc.1.1, hc.2⟩) hsound
  obtain ⟨hcheck, hupgrade, hsingle⟩ := initialize_ready.mp hready
  have hschema : db.schema = db₀.schema := by rw [heq]
  have hname : db.nameSpace = db₀.nameSpace := by rw [heq]
  refine ⟨(asWritable.hearAll_append hheard).trans hrest,
    initialize_ready.mpr ⟨?_, ?_, hrun.singleRows hsingle⟩, ?_⟩
  · rw [checkSchema, hschema, hname]
    exact hcheck
  · rw [requiresSchemaUpgrade, hschema]
    exact hupgrade
  · rw [heq]
    exact hmax

/-- What is heard of a journal is what opening its file gives. -/
theorem reopen_of_heard {schema : List Op} {fresh db : Database} {h : History} (hr : h.Reach)
    (hend : h.journal.getPosition = h.journal.getCheckpoint) {mode : OpenMode}
    (hmode : mode ≠ .readExisting) (reads : Pread)
    (hheard : asWritable.hearAll h.ops (fresh.within h.journal.getCheckpoint)
      = .ok () (db.within h.journal.getCheckpoint))
    (hready : initialize_ schema db = .ok (db, false)) (hmax : db.maxRecordId = 0) :
    reopen schema fresh { h.journal.file with mode := mode, reads := reads }
      = .ok (db, false) := by
  have hback : (db.within h.journal.getCheckpoint).within 0 = db :=
    congrArg (fun n => { db with maxRecordId := n }) hmax.symm
  rw [reopen_eq hr hend hmode, hheard, opened, hback]
  exact hready

/-- A file that is closed at the end of a run is not smaller than at its start. -/
theorem start_le_checkpoint {h : History} (hr : h.Reach)
    (hend : h.journal.getPosition = h.journal.getCheckpoint) {ops₀ ops : List Op}
    (hops : h.ops = ops₀ ++ ops) :
    headerSize + (wiresBytes (encodeAll .reset ops₀)).length ≤ h.journal.getCheckpoint := by
  rw [getCheckpoint_of_end hr hend, hops]
  exact Nat.add_le_add_left (length_bytes_le ops₀ ops) _

/-- A run of such changes is found again, whole, when its file is opened again. -/
theorem reopen_of_run {schema : List Op} {fresh db₀ db : Database} {h : History}
    {ops₀ ops : List Op} (hfresh : fresh.Fresh)
    (hevents : ∀ op ∈ schema, schemaEvent op = true)
    (hstart : Started schema fresh h.journal.getCheckpoint ops₀ db₀)
    (hrun : Run (Reopens h.journal.getCheckpoint) db₀ ops db) (hr : h.Reach)
    (hops : h.ops = ops₀ ++ ops)
    (hend : h.journal.getPosition = h.journal.getCheckpoint) {mode : OpenMode}
    (hmode : mode ≠ .readExisting) (reads : Pread) :
    reopen schema fresh { h.journal.file with mode := mode, reads := reads }
      = .ok (db, false) := by
  obtain ⟨hheard, hready, hmax⟩ := hstart.run_heard hfresh hevents
    (start_le_checkpoint hr hend hops) hrun
  exact reopen_of_heard hr hend hmode reads (hops ▸ hheard) hready hmax

/-! ## One table -/

/-- A schema of one table, that has no field. -/
def oneTable : List Op := [.createTable [0x74]]

/-- What is generated for it. -/
def oneTableClass : Database where
  nameSpace := "test"
  tables := [(1, { name := "t", singleRow := false, columns := [], indexes := []
                   freedom := .create })]
  maxRecordId := 0
  schema := []

/-- A journal is at its checkpoint when it has made one. -/
theorem softCheckpoint_end {h : History} (hgood : h.Good) :
    h.journal.softCheckpoint.getPosition = h.journal.softCheckpoint.getCheckpoint := by
  rcases Nat.lt_or_ge h.journal.getCheckpoint h.journal.getPosition with hlt | hge
  · have hj := hgood.ready.softCheckpointAt hlt (Nat.le_refl _) hgood.bound
    have hpos : h.journal.softCheckpoint.getPosition = h.journal.getPosition := by
      rw [Journal.softCheckpoint, ← hj.ready.length_body, hj.body, hgood.ready.length_body]
    rw [hpos, Journal.softCheckpoint, Journal.softCheckpointAt_of_lt hlt]
    rfl
  · rw [Journal.softCheckpoint, Journal.softCheckpointAt_of_le hge]
    exact Nat.le_antisymm hge
      (Nat.le_trans hgood.ready.checkpoint_le hgood.ready.position_le)

/-- What fits in a journal can be written into one. -/
theorem exists_history {ops : List Op} (hops : ∀ op ∈ ops, op.Fits ∧ op.Readable)
    (hsmall : headerSize + (wiresBytes (encodeAll .reset ops)).length < 2 ^ 63) :
    ∃ h : History, h.Reach ∧ h.ops = ops ∧
      h.journal.getPosition = h.journal.getCheckpoint := by
  suffices hreach : ∃ h : History, h.Reach ∧ h.ops = ops by
    obtain ⟨h, hr, rfl⟩ := hreach
    exact ⟨_, hr.step (a := .softCheckpoint) trivial rfl, rfl, softCheckpoint_end hr.good⟩
  induction ops using List.reverseRecOn with
  | nil => exact ⟨⟨_, [], 0⟩, .create .empty .none rfl rfl rfl, rfl⟩
  | append_singleton ops op ih =>
      have hop := hops op (by simp)
      obtain ⟨h, hr, rfl⟩ := ih (fun o ho => hops o (List.mem_append_left _ ho))
        (Nat.lt_of_le_of_lt (Nat.add_le_add_left (length_bytes_le ops [op]) _) hsmall)
      refine ⟨_, hr.step (a := .perform op) ⟨hop.1, hop.2, ?_⟩ rfl, rfl⟩
      have hbody := hr.good.ready.length_body
      rw [hr.good.body] at hbody
      rw [encodeAll_append, wiresBytes_append, List.length_append, encodeAll, encodeAll,
        wiresBytes_cons, ← hr.good.context] at hsmall
      rw [List.length_append, show (wiresBytes []).length = 0 from rfl] at hsmall
      show h.journal.getPosition + _ < _
      omega

theorem oneTable_started {size : Nat} :
    Started oneTable oneTableClass size [.comment [], .createTable [0x74], .validData]
      { oneTableClass with schema := oneTable } := by
  obtain ⟨h, hr, hops, hend⟩ : ∃ h : History, h.Reach ∧ h.ops = [] ∧
      h.journal.getPosition = h.journal.getCheckpoint :=
    ⟨⟨_, [], 0⟩, .create .empty .none rfl rfl rfl, rfl, rfl⟩
  have hopen : reopen oneTable oneTableClass
      { h.journal.file with mode := .createNew, reads := .whole } = .ok (oneTableClass, true) := by
    rw [reopen_eq hr hend (by decide), hops]
    rfl
  have hstart : Started oneTable oneTableClass size
      (h.ops ++ (.comment [] :: (oneTable ++ ([] ++ [.validData]))))
      { oneTableClass with schema := oneTable } :=
    .upgraded [] hr hend (by decide) hopen rfl (.done _) rfl
  rw [hops] at hstart
  exact hstart

/-- Inserting a record into the table. -/
theorem oneTable_run (Allowed : Database → Change → Prop) {r : Nat} (hr : r + 1 < 2 ^ 63)
    (h : ∀ {db c}, c.Exists db → c.Public db → db = { oneTableClass with schema := oneTable } →
      c = .insert 1 r → Allowed db c) :
    ∃ db, Run Allowed { oneTableClass with schema := oneTable } [.insertInto 1 r] db ∧
      (find db.tables 1).map (·.freedom) = some ((FreedomKeeper.create.resize (r + 1)).use r) := by
  refine ⟨_, .step (c := .insert 1 r) (h ⟨_, rfl, fun f hf => ?_⟩ ?_ rfl rfl)
    (onTable_ok rfl (Storage.insertAt_eq 1 hr _)) (.done _), ?_⟩
  · cases hf
  · intro st hfind hsingle
    cases hfind
    cases hsingle
  · rw [if_pos (show FreedomKeeper.create.getSize ≤ r from Nat.zero_le r)]
    rfl

theorem oneTable_history {r : Nat} (hr : r < 2 ^ 61 - 1) (hsmall : headerSize + (wiresBytes
    (encodeAll .reset [.comment [], .createTable [0x74], .validData, .insertInto 1 r])).length
      < 2 ^ 63) :
    ∃ h : History, h.Reach ∧ h.ops = [.comment [], .createTable [0x74], .validData] ++
        [.insertInto 1 r] ∧ h.journal.getPosition = h.journal.getCheckpoint ∧
      h.journal.getCheckpoint = headerSize + (wiresBytes (encodeAll .reset
        [.comment [], .createTable [0x74], .validData, .insertInto 1 r])).length := by
  have hfits : ∀ op ∈ [Op.comment [], .createTable [0x74], .validData, .insertInto 1 r],
      op.Fits ∧ op.Readable := by
    intro op hop
    simp only [List.mem_cons, List.not_mem_nil, or_false] at hop
    obtain rfl | rfl | rfl | rfl := hop
    · exact ⟨(by decide : 0 < 2 ^ 61), trivial⟩
    · exact ⟨(by decide : 1 < 2 ^ 61), trivial⟩
    · exact ⟨trivial, trivial⟩
    · exact ⟨⟨Int.le_trans (by decide) (Int.natCast_nonneg r), Int.ofNat_lt.mpr hr⟩, trivial⟩
  obtain ⟨h, hreach, hops, hend⟩ := exists_history hfits hsmall
  refine ⟨h, hreach, hops, hend, ?_⟩
  rw [getCheckpoint_of_end hreach hend, hops]

/-- A new file, opened, with a record in it, and opened again. -/
theorem reopen_of_run_insert :
    ∃ (h : History) (db : Database), h.Reach ∧
      h.ops = [.comment [], .createTable [0x74], .validData] ++ [.insertInto 1 5] ∧
      reopen oneTable oneTableClass
          { h.journal.file with mode := .writeExisting, reads := .whole } = .ok (db, false) ∧
        (find db.tables 1).map (·.freedom) = some ((FreedomKeeper.create.resize 6).use 5) := by
  obtain ⟨h, hr, hops, hend, hsize⟩ := oneTable_history (r := 5) (by decide) (by decide)
  have hchecks : 5 < h.journal.getCheckpoint := by
    rw [hsize]
    decide
  obtain ⟨db, hrun, hfreedom⟩ := oneTable_run (r := 5) (Reopens h.journal.getCheckpoint) (by decide)
    fun hexists hpublic hdb hc => ⟨⟨hexists, hpublic⟩, by
      subst hdb hc
      intro st hfind
      cases hfind
      exact ⟨hchecks, rfl⟩⟩
  have hfresh : oneTableClass.Fresh := by
    refine ⟨rfl, ?_, ?_, ?_, ?_⟩ <;> simp [oneTableClass]
  exact ⟨h, db, hr, hops, reopen_of_run hfresh (by decide) oneTable_started hrun hr hops hend
    (by decide) .whole, hfreedom⟩

/-- An id that is not below the size of the file: the functions that write take it,
and the file is not opened again. -/
theorem insert_unreopenable :
    ∃ (h : History) (ops₀ : List Op) (db₀ db : Database),
      Started oneTable oneTableClass h.journal.getCheckpoint ops₀ db₀ ∧
        Run (fun db c => c.Exists db ∧ c.Public db) db₀ [.insertInto 1 1000] db ∧ h.Reach ∧
        h.ops = ops₀ ++ [.insertInto 1 1000] ∧
        h.journal.getPosition = h.journal.getCheckpoint ∧
        reopen oneTable oneTableClass
            { h.journal.file with mode := .writeExisting, reads := .whole }
          = .error (.exception "test: insert_into: too big") := by
  obtain ⟨h, hr, hops, hend, hsize⟩ := oneTable_history (r := 1000) (by decide) (by decide)
  obtain ⟨db, hrun, -⟩ := oneTable_run (r := 1000) (fun db c => c.Exists db ∧ c.Public db)
    (by decide) fun hexists hpublic _ _ => ⟨hexists, hpublic⟩
  refine ⟨h, _, _, db, oneTable_started, hrun, hr, hops, hend, ?_⟩
  rw [reopen_eq hr hend (by decide), hops, hsize]
  rfl

end Database

end Joedb.Compiled
