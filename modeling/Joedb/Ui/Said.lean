import Joedb.Ui.ReadBack

/-!
# What an interpreter passes on

From any text, whatever the files that it includes, an interpreter has passed on nothing but events
that can be said. Most need no proof: an event of most kinds can always be said. The three that may
not be are looked at where they are made, the name of a custom behind a word, a type behind a
lookup, and a vector behind the tests of its size.

A line that throws may have passed on some of its events, and the lines behind it are read if the
exception is only printed. Its database is then no longer the one of the events that were passed on,
since one that is refused may leave something behind. But it has the same tables under the same
names, and nothing else of a database decides what can be said.
-/

namespace Joedb

open ByteFile Containers StateExcept Streams

namespace Multiplexer

/-- What is behind the database has been told. -/
theorem call_behind {ν : Type} {V : Writable ν} (hV : ∀ v, V.wantsBlobData v = true) {op : Op}
    {s s' : Database × ν} (h : (asWritable Database.asWritable V).call op s = .ok () s') :
    V.call op s.2 = .ok () s'.2 := by
  have hboth : ∀ {m : EStateM Exn Database Unit} {n : EStateM Exn ν Unit},
      both m n s = .ok () s' → n s.2 = .ok () s'.2 := by
    intro m n hrun
    obtain ⟨_, s₁, hfirst, hsecond⟩ := bind_eq_ok hrun
    rw [← (fst_ok hfirst).2]
    exact (snd_ok hsecond).1
  cases op with
  | writeBlob data =>
      have hwants : ¬Database.asWritable.wantsBlobData s.1 = true := Bool.false_ne_true
      have hrun : call Database.asWritable V (.writeBlob data) s = .ok () s' := h
      rw [call, get_bind_run, when_neg hwants, pure_bind_run, when_pos (hV s.2)] at hrun
      exact (snd_ok hrun).1
  | _ => exact hboth h

end Multiplexer

namespace Multiplexer

/-- What is thrown in front of one that never throws was thrown by the database. -/
theorem call_database_error {ν : Type} {V : Writable ν}
    (hV : ∀ op v e v', V.call op v ≠ .error e v') {op : Op} {s s' : Database × ν} {e : Exn}
    (h : (asWritable Database.asWritable V).call op s = .error e s') :
    Database.call op s.1 = .error e s'.1 ∧ s'.2 = s.2 := by
  have hsnd : ∀ (s₁ : Database × ν) e s', snd (V.call op) s₁ ≠ .error e s' := by
    intro s₁ e s' hrun
    obtain ⟨v, hm, -⟩ := onPart_eq_error hrun
    exact hV _ _ _ _ hm
  have hboth : both (Database.call op) (V.call op) s = .error e s' →
      Database.call op s.1 = .error e s'.1 ∧ s'.2 = s.2 := by
    intro hrun
    obtain ⟨db, hm, rfl⟩ := onPart_eq_error (bind_eq_error (fun _ s₁ => hsnd s₁ e s') hrun)
    exact ⟨hm, rfl⟩
  cases op with
  | writeBlob data =>
      have hwants : ¬Database.asWritable.wantsBlobData s.1 = true := Bool.false_ne_true
      have hrun : call Database.asWritable V (.writeBlob data) s = .error e s' := h
      rw [call, get_bind_run, when_neg hwants, pure_bind_run] at hrun
      by_cases hblob : V.wantsBlobData s.2 = true
      · rw [when_pos hblob] at hrun
        exact absurd hrun (hsnd s e s')
      · rw [when_neg hblob] at hrun
        cases hrun
  | _ => exact hboth h

end Multiplexer

/-! ## The names of the tables -/

namespace Database

/-- The same tables under the same names, whatever is in them. -/
structure SameNames (db db' : Database) : Prop where
  keys : keys db'.tables = keys db.tables
  names : db'.tableNames = db.tableNames
  current : db'.currentTableId = db.currentTableId

theorem SameNames.refl (db : Database) : SameNames db db := ⟨rfl, rfl, rfl⟩

theorem SameNames.trans (a b c : Database) (h : SameNames a b) (h' : SameNames b c) :
    SameNames a c :=
  ⟨h'.keys.trans h.keys, h'.names.trans h.names, h'.current.trans h.current⟩

theorem SameNames.symm {a b : Database} (h : SameNames a b) : SameNames b a :=
  ⟨h.keys.symm, h.names.symm, h.current.symm⟩

theorem SameNames.findTable {db db' : Database} (h : SameNames db db') (name : Bytes) :
    db'.findTable name = db.findTable name := by
  rw [Database.findTable, Database.findTable, h.names]

theorem SameNames.isSome_find {db db' : Database} (h : SameNames db db') (tableId : TableId) :
    (find db'.tables tableId).isSome = (find db.tables tableId).isSome := by
  rw [Bool.eq_iff_iff, find_isSome_iff, find_isSome_iff, h.keys]

theorem withTable_sameNames {α : Type} (tableId : TableId) (m : EStateM Exn Table α) :
    Keeps SameNames (withTable tableId m) := by
  intro db
  cases hfind : find db.tables tableId with
  | none =>
      rw [StateExcept.after, withTable, hfind]
      exact .refl db
  | some t =>
      rw [after_withTable hfind]
      exact ⟨keys_assign _ _ _, rfl, rfl⟩

/-- What changes the tables does so under a condition, and is refused otherwise. -/
structure Guarded (c : Database → Prop) (f : Database → Database)
    (m : EStateM Exn Database Unit) : Prop where
  ok : ∀ db, c db → m db = .ok () (f db)
  error : ∀ db, ¬c db → ∃ e, m db = .error e db

/-- Where both see the same, both do the same. -/
theorem Guarded.sameNames {c : Database → Prop} {f : Database → Database}
    {m : EStateM Exn Database Unit} (hm : Guarded c f m) {db db' : Database}
    (h : SameNames db db') (hc : c db' ↔ c db) (hf : c db → SameNames (f db) (f db')) :
    SameNames (StateExcept.after m db) (StateExcept.after m db') := by
  by_cases hdb : c db
  · rw [after_ok (hm.ok db hdb), after_ok (hm.ok db' (hc.mpr hdb))]
    exact hf hdb
  · obtain ⟨e, hrun⟩ := hm.error db hdb
    obtain ⟨e', hrun'⟩ := hm.error db' (mt hc.mp hdb)
    rw [after_error hrun, after_error hrun']
    exact h

theorem Guarded.spares {c : Database → Prop} {f : Database → Database}
    {m : EStateM Exn Database Unit} (hm : Guarded c f m) : Spares SameNames m := by
  intro db e db' hrun
  by_cases hdb : c db
  · rw [hm.ok db hdb] at hrun
    cases hrun
  · obtain ⟨e', hrun'⟩ := hm.error db hdb
    obtain ⟨-, rfl⟩ := EStateM.Result.error.inj (hrun'.symm.trans hrun)
    exact .refl db

theorem guarded_createTable (name : Bytes) :
    Guarded (fun db => isIdentifier name = true ∧ db.findTable name = 0 ∧ db.currentTableId ≠ 65535)
      (fun db => { db with
        currentTableId := db.currentTableId + 1
        tables := tryEmplace db.tables (db.currentTableId + 1) .create
        tableNames := tryEmplace db.tableNames (db.currentTableId + 1) name })
      (createTable name) := by
  refine ⟨fun db hc => ?_, fun db hc => ?_⟩
  · obtain ⟨hname, hused, hmax⟩ := hc
    rw [createTable, checkIdentifier, when_neg (by rw [hname]; exact Bool.noConfusion),
      pure_bind_run, get_bind_run, when_neg (not_not.mpr hused), pure_bind_run, when_neg hmax]
    rfl
  · rw [createTable, checkIdentifier]
    by_cases hname : isIdentifier name = false
    · exact ⟨_, by rw [when_pos hname]; rfl⟩
    rw [when_neg hname, pure_bind_run, get_bind_run]
    by_cases hused : db.findTable name ≠ 0
    · exact ⟨_, by rw [when_pos hused]; rfl⟩
    rw [when_neg hused, pure_bind_run]
    by_cases hmax : db.currentTableId = 65535
    · exact ⟨_, by rw [when_pos hmax]; rfl⟩
    exact absurd ⟨Bool.not_eq_false _ ▸ hname, not_not.mp hused, hmax⟩ hc

theorem guarded_dropTable (tableId : TableId) :
    Guarded (fun db => (find db.tables tableId).isSome = true)
      (fun db => { db with
        tableNames := erase db.tableNames tableId
        tables := erase db.tables tableId })
      (dropTable tableId) := by
  refine ⟨fun db hc => ?_, fun db hc => ?_⟩
  · obtain ⟨t, hfind⟩ := Option.isSome_iff_exists.mp hc
    rw [dropTable, get_bind_run, when_neg (by rw [hfind]; exact Bool.noConfusion)]
    rfl
  · rw [Bool.not_eq_true, Option.isSome_eq_false_iff] at hc
    rw [dropTable, get_bind_run]
    exact ⟨_, by rw [when_pos hc]; rfl⟩

theorem guarded_renameTable (tableId : TableId) (name : Bytes) :
    Guarded (fun db => isIdentifier name = true ∧ db.findTable name = 0 ∧
        (find db.tables tableId).isSome = true)
      (fun db => { db with tableNames := insertOrAssign db.tableNames tableId name })
      (renameTable tableId name) := by
  refine ⟨fun db hc => ?_, fun db hc => ?_⟩
  · obtain ⟨hname, hused, hfound⟩ := hc
    obtain ⟨t, hfind⟩ := Option.isSome_iff_exists.mp hfound
    have htouch : withTable tableId (pure ()) db = .ok () db := by
      rw [withTable, hfind]
      exact congrArg (fun tables => EStateM.Result.ok () { db with tables := tables })
        (assign_self hfind)
    rw [renameTable, checkIdentifier, when_neg (by rw [hname]; exact Bool.noConfusion),
      pure_bind_run, get_bind_run, when_neg (not_not.mpr hused), pure_bind_run, bind_ok htouch]
    rfl
  · rw [renameTable, checkIdentifier]
    by_cases hname : isIdentifier name = false
    · exact ⟨_, by rw [when_pos hname]; rfl⟩
    rw [when_neg hname, pure_bind_run, get_bind_run]
    by_cases hused : db.findTable name ≠ 0
    · exact ⟨_, by rw [when_pos hused]; rfl⟩
    rw [when_neg hused, pure_bind_run]
    cases hfind : find db.tables tableId with
    | none =>
        have hmissing : withTable tableId (pure ()) db
            = .error (.exception s!"get_table: invalid table_id: {tableId.toNat}") db := by
          rw [withTable, hfind]
        exact ⟨_, bind_error hmissing⟩
    | some t =>
        exact absurd ⟨Bool.not_eq_false _ ▸ hname, not_not.mp hused, by rw [hfind]; rfl⟩ hc

/-- All that does not change the tables themselves. -/
theorem call_keepsNames {op : Op} (hcreate : ∀ name, op ≠ .createTable name)
    (hdrop : ∀ t, op ≠ .dropTable t) (hrename : ∀ t name, op ≠ .renameTable t name) :
    Keeps SameNames (call op) := by
  have hget : ∀ {c : Database → Prop} [DecidablePred c] {e : Exn}
      {m : EStateM Exn Database Unit}, Keeps SameNames m →
      Keeps SameNames (get >>= fun db => when (c db) (throw e) >>= fun _ => m) := fun hm =>
    keeps_get_bind fun _ => keeps_guard_bind SameNames.refl fun _ => hm
  cases op with
  | createTable name => exact absurd rfl (hcreate name)
  | dropTable t => exact absurd rfl (hdrop t)
  | renameTable t name => exact absurd rfl (hrename t name)
  | addField t name type =>
      exact keeps_guard_bind SameNames.refl fun _ => withTable_sameNames t _
  | renameField t f name =>
      exact keeps_guard_bind SameNames.refl fun _ => withTable_sameNames t _
  | insertInto t r => exact hget (withTable_sameNames t _)
  | insertVector t r size => exact hget (withTable_sameNames t _)
  | dropField t f => exact withTable_sameNames t _
  | deleteFrom t r => exact withTable_sameNames t _
  | deleteVector t r size => exact withTable_sameNames t _
  | update ty t r f v => exact withTable_sameNames t _
  | updateVector ty t r f vs => exact withTable_sameNames t _
  | custom name => exact keeps_pure SameNames.refl ()
  | comment c => exact keeps_pure SameNames.refl ()
  | timestamp ts => exact keeps_pure SameNames.refl ()
  | validData => exact keeps_pure SameNames.refl ()
  | writeBlob data => exact keeps_pure SameNames.refl ()

/-- The names of the tables behind an operation depend on those before it alone. -/
theorem call_sameNames {db db' : Database} (h : SameNames db db') (op : Op) :
    SameNames (StateExcept.after (call op) db) (StateExcept.after (call op) db') := by
  have hother : Keeps SameNames (call op) →
      SameNames (StateExcept.after (call op) db) (StateExcept.after (call op) db') := fun hop =>
    .trans _ _ _ (.trans _ _ _ (hop db).symm h) (hop db')
  cases op with
  | createTable name =>
      refine (guarded_createTable name).sameNames h ?_ fun _ => ⟨?_, ?_, ?_⟩
      · rw [h.findTable, h.current]
      · rw [h.current]
        exact keys_tryEmplace_congr h.keys _ _ _
      · rw [h.current, h.names]
      · rw [h.current]
  | dropTable t =>
      refine (guarded_dropTable t).sameNames h ?_ fun _ => ⟨?_, ?_, h.current⟩
      · rw [h.isSome_find]
      · rw [keys_erase, keys_erase, h.keys]
      · rw [h.names]
  | renameTable t name =>
      refine (guarded_renameTable t name).sameNames h ?_ fun _ => ⟨h.keys, ?_, h.current⟩
      · rw [h.findTable, h.isSome_find]
      · rw [h.names]
  | _ =>
      exact hother (call_keepsNames (fun _ h => (by cases h)) (fun _ h => (by cases h))
        fun _ _ h => (by cases h))

/-- What is refused leaves the names of the tables. -/
theorem call_refused {db db' : Database} {op : Op} {e : Exn} (h : call op db = .error e db') :
    SameNames db db' := by
  cases op with
  | createTable name => exact (guarded_createTable name).spares db e db' h
  | dropTable t => exact (guarded_dropTable t).spares db e db' h
  | renameTable t name => exact (guarded_renameTable t name).spares db e db' h
  | _ =>
      exact (call_keepsNames (fun _ h => (by cases h)) (fun _ h => (by cases h))
        fun _ _ h => (by cases h)).error h

theorem SameNames.callEach {db db' : Database} (h : SameNames db db') (ops : List Op) :
    SameNames (db.callEach ops) (db'.callEach ops) := by
  induction ops generalizing db db' with
  | nil => exact h
  | cons op ops ih => exact ih (call_sameNames h op)

theorem SameNames.sayable {db db' : Database} (h : SameNames db db') {limit : RecordId} {op : Op}
    (hop : op.Sayable limit db) : op.Sayable limit db' := by
  cases op with
  | addField t name type =>
      rw [Op.Sayable, h.names]
      exact hop
  | _ => exact hop

theorem SameNames.sayAll {db db' : Database} (h : SameNames db db') {limit : RecordId}
    {ops : List Op} (hops : SayAll limit ops db) : SayAll limit ops db' := by
  induction ops generalizing db db' with
  | nil => trivial
  | cons op ops ih => exact ⟨h.sayable hops.1, ih (call_sameNames h op) hops.2⟩

theorem sayAll_append {limit : RecordId} {ops ops' : List Op} {db : Database} :
    SayAll limit (ops ++ ops') db ↔ SayAll limit ops db ∧ SayAll limit ops' (db.callEach ops) := by
  induction ops generalizing db with
  | nil => exact (iff_of_eq (true_and _)).symm
  | cons op ops ih => exact (and_congr_right fun _ => ih).trans and_assoc.symm

end Database

namespace Target

open TextReading

/-- What was taken in between could be said. -/
def Said (limit : RecordId) (s s' : Database × List Op) : Prop :=
  ∃ ops, s'.2 = s.2 ++ ops ∧ Database.SayAll limit ops s.1 ∧
    Database.SameNames (s.1.callEach ops) s'.1

variable {α β : Type} {limit : RecordId} {X : Surroundings} {s s' : Database × List Op} {op : Op}

theorem Said.refl (s : Database × List Op) : Said limit s s :=
  ⟨[], (List.append_nil _).symm, trivial, .refl s.1⟩

theorem Said.trans (a b c : Database × List Op) (h : Said limit a b) (h' : Said limit b c) :
    Said limit a c := by
  obtain ⟨ops, hheard, hsay, hnames⟩ := h
  obtain ⟨ops', hheard', hsay', hnames'⟩ := h'
  refine ⟨ops ++ ops', by rw [hheard', hheard, List.append_assoc],
    Database.sayAll_append.mpr ⟨hsay, hnames.symm.sayAll hsay'⟩, ?_⟩
  rw [Database.callEach, List.foldl_append]
  exact .trans _ _ _ (hnames.callEach ops') hnames'

/-- An event that can be said is one more when it is taken, and none when it is refused. -/
theorem Said.call (hsay : op.Sayable limit s.1) :
    Said limit s (after ((recording limit).writable.call op) s) := by
  cases hcall : (recording limit).writable.call op s with
  | ok a s' =>
      have hdb := Multiplexer.call_database hcall
      have hheard := Multiplexer.call_behind (fun _ => rfl) hcall
      rw [after_ok hcall]
      refine ⟨[op], (EStateM.Result.ok.inj hheard).2.symm, ⟨hsay, trivial⟩, ?_⟩
      rw [← show after (Database.call op) s.1 = s'.1 from after_ok hdb]
      exact .refl _
  | error e s' =>
      obtain ⟨hdb, hheard⟩ := Multiplexer.call_database_error (fun _ _ _ _ h => (by cases h)) hcall
      rw [after_error hcall]
      exact ⟨[], hheard.trans (List.append_nil _).symm, trivial, Database.call_refused hdb⟩

/-! ## Rules -/

theorem said_pure (a : α) : Keeps (Said limit) (pure a : EStateM Exn _ α) :=
  keeps_pure Said.refl a

theorem said_bind {m : EStateM Exn (Database × List Op) α}
    {f : α → EStateM Exn (Database × List Op) β} (hm : Keeps (Said limit) m)
    (hf : ∀ a, Keeps (Said limit) (f a)) : Keeps (Said limit) (m >>= f) :=
  keeps_bind Said.trans hm hf

/-- Events that can always be said. -/
theorem said_call (hsay : ∀ db, op.Sayable limit db) :
    Keeps (Said limit) ((recording limit).writable.call op) := fun s => Said.call (hsay s.1)

theorem said_finish {m : EStateM Exn (Database × List Op) Unit} (h : Keeps (Said limit) m) :
    Keeps (Said limit) (finish m) := said_bind h fun _ => said_pure _

theorem said_when {c : Prop} [Decidable c] {m : EStateM Exn (Database × List Op) Unit}
    (h : Keeps (Said limit) m) : Keeps (Said limit) (when c m) :=
  keeps_cases (fun _ => h) fun _ => said_pure _

theorem said_read (x : Except Exn α) :
    Keeps (Said limit) (Dump.read x : EStateM Exn (Database × List Op) α) := by
  cases x with
  | error e => exact keeps_throw Said.refl e
  | ok a => exact said_pure a

/-- What was read before something is done with it. -/
theorem said_read_bind {x : Except Exn α} {f : α → EStateM Exn (Database × List Op) β}
    (hf : ∀ a, x = .ok a → Said limit s (after (f a) s)) :
    Said limit s (after (Dump.read x >>= f) s) := by
  cases x with
  | error e => exact Said.refl s
  | ok a => exact hf a rfl

theorem said_printing {τ : Type} (m : EStateM Exn τ Unit) (start : τ) :
    Keeps (Said limit) (printing m start) := by
  unfold printing
  cases m start with
  | ok u t => exact said_pure ()
  | error e t => exact keeps_throw Said.refl e

theorem said_parseTable (i : Input) : Keeps (Said limit) ((recording limit).parseTable i) :=
  keeps_get_bind fun _ => keeps_guard_bind Said.refl fun _ => said_pure _

/-! ## Writable_Command_Processor and Readable_Command_Processor -/

theorem said_processWritable (c : Command) (i : Input) :
    Keeps (Said limit) ((recording limit).processWritable X c i) := by
  have hsame : ∀ {m : EStateM Exn (Database × List Op) Unit}, m = pure () →
      Keeps (Said limit) (finish m) := by
    rintro m rfl
    exact said_finish (said_pure ())
  cases c with
  | comment => exact said_finish (said_call fun _ => trivial)
  | timestamp => exact said_finish (said_call fun _ => trivial)
  | validData => exact said_finish (said_call fun _ => trivial)
  | writeBlob => exact said_finish (said_call fun _ => trivial)
  | flush => exact hsame rfl
  | softCheckpoint => exact hsame rfl
  | checkpoint => exact hsame rfl
  | hardCheckpoint => exact hsame rfl
  | _ => exact said_pure _

theorem said_processReadable (c : Command) (i : Input) :
    Keeps (Said limit) ((recording limit).processReadable X c i) := by
  refine keeps_get_bind fun s => ?_
  cases c with
  | table => exact said_bind (said_parseTable i) fun _ => said_pure _
  | record => exact said_bind (said_parseTable i) fun _ => said_pure _
  | schema => exact said_finish (said_printing _ _)
  | dump => exact said_finish (said_printing _ _)
  | sql => exact said_finish (said_printing _ _)
  | json => exact said_finish (said_printing _ _)
  | _ => exact said_pure _

/-! ## Data_Manipulation_Command_Processor -/

theorem said_updateValue (t : TableId) (r : RecordId) (f : FieldId) (i : Input) :
    Keeps (Said limit) ((recording limit).updateValue X t r f i) := by
  refine keeps_get_bind fun s => keeps_guard_bind Said.refl fun _ => ?_
  cases Ty.ofTypeId (((recording limit).readable s).getFieldType t f).typeId with
  | none => exact said_pure i
  | some ty =>
      exact keeps_guard_bind Said.refl fun _ =>
        said_bind (said_call fun _ => trivial) fun _ => said_pure _

theorem said_updateValues (t : TableId) (r : RecordId) (fields : List (FieldId × Bytes)) :
    ∀ i, Keeps (Said limit) ((recording limit).updateValues X t r fields i) := by
  induction fields with
  | nil => exact fun _ => said_pure ()
  | cons field fields ih => exact fun i => said_bind (said_updateValue t r field.1 i) ih

theorem said_insertInto (i : Input) (append : Bool) :
    Keeps (Said limit) ((recording limit).insertInto X i append) := by
  refine said_bind (said_parseTable i) fun table => keeps_get_bind fun s =>
    said_bind (said_read _) fun size => said_bind (said_call fun _ => trivial) fun _ =>
      keeps_cases (fun _ => ?_) fun _ => said_pure ()
  exact keeps_get_bind fun s => said_bind (said_read _) fun fields =>
    said_updateValues table.1 _ fields _

/-- A value that was read is one that is passed on as it is. -/
theorem arg_readValue (ty : Ty) (i : Input) :
    ty.arg (readValue X.floats ty i).1 = (readValue X.floats ty i).1 := by
  cases ty with
  | boolean =>
      show Ty.toBool (readBoolean i).1 = (readBoolean i).1
      simp only [readBoolean]
      split
      · rfl
      · split <;> rfl
  | _ => rfl

theorem readValues_eq_ok {ty : Ty} {size : Nat} {i : Input} {vs : List ty.Storage}
    (h : readValues X ty size i = .ok vs) : vs.length = size ∧ ∀ v ∈ vs, ty.arg v = v := by
  induction size generalizing i vs with
  | zero =>
      obtain rfl := Except.ok.inj h
      exact ⟨rfl, List.forall_mem_nil _⟩
  | succ size ih =>
      rw [readValues] at h
      split at h
      · cases h
      · cases hrest : readValues X ty size (readValue X.floats ty i).2 with
        | error e =>
            rw [hrest] at h
            cases h
        | ok vs' =>
            rw [hrest] at h
            obtain rfl := Except.ok.inj h
            obtain ⟨hlength, harg⟩ := ih hrest
            exact ⟨congrArg (· + 1) hlength, List.forall_mem_cons.mpr ⟨arg_readValue ty i, harg⟩⟩

theorem sayable_updateVector {db : Database} {ty : Ty} {t : TableId} {r : RecordId} {f : FieldId}
    {vs : List ty.Storage} (hsize : vs.length > 0)
    (hlimit : 0 ≤ limit → (vs.length : Int) < limit) (harg : ∀ v ∈ vs, ty.arg v = v) :
    (Op.updateVector ty t r f vs).Sayable limit db :=
  ⟨List.ne_nil_of_length_pos hsize, hlimit, harg⟩

theorem said_updateVector (i : Input) :
    Keeps (Said limit) ((recording limit).updateVector X i) := by
  refine said_bind (said_parseTable i) fun table => keeps_get_bind fun s =>
    keeps_guard_bind Said.refl fun hlimit => keeps_cases (fun hsize => ?_) fun _ => said_pure ()
  refine keeps_guard_bind Said.refl fun _ => ?_
  split
  · exact said_pure ()
  · next ty hty =>
      refine keeps_guard_bind Said.refl fun _ s => said_read_bind fun vs hvalues => ?_
      obtain ⟨hlength, harg⟩ := readValues_eq_ok hvalues
      rw [← hlength] at hsize hlimit
      have hbounded : 0 ≤ limit → (vs.length : Int) < limit := fun hle =>
        Int.not_le.mp fun hbig => hlimit ⟨hle, hbig⟩
      exact Said.call (sayable_updateVector hsize hbounded harg)

theorem said_manipulate (c : Command) (i : Input) :
    Keeps (Said limit) ((recording limit).manipulate X c i) := by
  cases c with
  | appendInto => exact said_finish (said_insertInto i true)
  | insertInto => exact said_finish (said_insertInto i false)
  | deleteFrom =>
      exact said_bind (said_parseTable i) fun _ => said_finish (said_call fun _ => trivial)
  | insertVector =>
      exact said_bind (said_parseTable i) fun _ => said_finish (said_call fun _ => trivial)
  | deleteVector =>
      exact said_bind (said_parseTable i) fun _ => said_finish (said_call fun _ => trivial)
  | update =>
      exact said_bind (said_parseTable i) fun _ => keeps_get_bind fun _ =>
        said_bind (said_updateValue _ _ _ _) fun _ => said_pure _
  | updateVector => exact said_finish (said_updateVector i)
  | _ => exact said_pure _

theorem said_orElse {parent child : EStateM Exn (Database × List Op) Status}
    (hparent : Keeps (Said limit) parent) (hchild : Keeps (Said limit) child) :
    Keeps (Said limit) (orElse parent child) :=
  said_bind hparent fun _ => keeps_cases (fun _ => said_pure _) fun _ => hchild

theorem said_processData (c : Command) (i : Input) :
    Keeps (Said limit) ((recording limit).processData X c i) :=
  said_orElse (said_processReadable c i) (said_manipulate c i)

/-! ## Readable_Writable_Command_Processor -/

theorem isSome_findTable {db : Database} {name : Bytes} (h : db.findTable name ≠ 0) :
    (find db.tableNames (db.findTable name)).isSome = true := by
  rw [Database.findTable] at h ⊢
  cases hfound : db.tableNames.find? (·.2 = name) with
  | none =>
      rw [hfound] at h
      exact absurd rfl h
  | some e => exact find_isSome_iff.mpr (List.mem_map_of_mem (List.mem_of_find?_eq_some hfound))

/-- A type that was read has a name, and so has its table. -/
theorem sayable_parseType {db : Database} {i j : Input} {type : FieldType}
    (h : parseType db i = .ok (type, j)) (t : TableId) (name : Bytes) :
    (Op.addField t name type).Sayable limit db := by
  rw [parseType] at h
  split at h
  · next hboth =>
      obtain ⟨rfl, -⟩ := Prod.mk.inj (Except.ok.inj h)
      have htype : (FieldType.reference (db.findTable i.readWord.2.readWord.1)).typeId
          = referenceTypeId := rfl
      rw [Op.Sayable, if_pos htype]
      exact isSome_findTable hboth.2
  · split at h
    · next ty hty =>
        obtain ⟨rfl, -⟩ := Prod.mk.inj (Except.ok.inj h)
        have hplain : ty ≠ .reference := by
          simpa [plainTypes] using (List.mem_filter.mp (List.mem_of_find?_eq_some hty)).2
        cases ty with
        | reference => exact absurd rfl hplain
        | _ => exact rfl
    · cases h

theorem said_updateAll (ty : Ty) (t : TableId) (f : FieldId) (value : ty.Storage) (left : Nat) :
    ∀ r, Keeps (Said limit) ((recording limit).updateAll ty t f value left r) := by
  induction left with
  | zero => exact fun _ => said_pure ()
  | succ left ih =>
      exact fun r => keeps_get_bind fun _ => said_bind (said_read _) fun _ =>
        said_bind (said_when (said_call fun _ => trivial)) fun _ => ih (r + 1)

theorem said_setDefault (type : FieldType) (t : TableId) (i : Input) :
    Keeps (Said limit) ((recording limit).setDefault X type t i) := by
  refine keeps_get_bind fun s => said_bind (said_read _) fun fields =>
    said_bind (said_read _) fun size => ?_
  split
  · exact said_updateAll _ t _ _ size 0
  · exact said_pure ()

theorem said_addField (i : Input) : Keeps (Said limit) ((recording limit).addField X i) := by
  refine said_bind (said_parseTable i) fun table s => said_read_bind fun type hparse => ?_
  exact rel_after_bind Said.trans (Said.call (sayable_parseType hparse _ _)) fun _ _ _ =>
    said_when (said_setDefault _ _ _) _

theorem said_define (c : Command) (i : Input) :
    Keeps (Said limit) ((recording limit).define X c i) := by
  cases c with
  | createTable => exact said_finish (said_call fun _ => trivial)
  | dropTable =>
      exact said_bind (said_parseTable i) fun _ => said_finish (said_call fun _ => trivial)
  | renameTable =>
      exact said_bind (said_parseTable i) fun _ => said_finish (said_call fun _ => trivial)
  | addField => exact said_finish (said_addField i)
  | dropField =>
      exact said_bind (said_parseTable i) fun _ => keeps_get_bind fun _ =>
        said_finish (said_call fun _ => trivial)
  | renameField =>
      exact said_bind (said_parseTable i) fun _ => keeps_get_bind fun _ =>
        said_finish (said_call fun _ => trivial)
  | custom => exact said_finish (said_call fun _ => Input.readWord_solid i)
  | _ => exact said_pure _

theorem said_processReadableWritable (c : Command) (i : Input) :
    Keeps (Said limit) ((recording limit).processReadableWritable X c i) :=
  said_orElse (said_processData c i) (said_define c i)

end Target

/-! ## The interpreter -/

namespace Shell

open Target

variable {α β : Type} {limit : RecordId} {X : Surroundings}
  {includeText : Bytes → EStateM Exn (Shell (Database × List Op)) Unit}

/-- The same of an interpreter, whatever its last line. -/
def Said (limit : RecordId) (s s' : Shell (Database × List Op)) : Prop :=
  Target.Said limit s.target s'.target

theorem Said.refl (s : Shell (Database × List Op)) : Said limit s s := Target.Said.refl s.target

theorem Said.trans (a b c : Shell (Database × List Op)) (h : Said limit a b)
    (h' : Said limit b c) : Said limit a c := Target.Said.trans _ _ _ h h'

theorem said_pure (a : α) : Keeps (Said limit) (pure a : EStateM Exn _ α) :=
  keeps_pure Said.refl a

theorem said_bind {m : EStateM Exn (Shell (Database × List Op)) α}
    {f : α → EStateM Exn (Shell (Database × List Op)) β} (hm : Keeps (Said limit) m)
    (hf : ∀ a, Keeps (Said limit) (f a)) : Keeps (Said limit) (m >>= f) :=
  keeps_bind Said.trans hm hf

theorem said_knowing {process : Command → Input → EStateM Exn (Database × List Op) Status}
    (h : ∀ c i, Keeps (Target.Said limit) (process c i)) (word : Bytes) (i : Input) :
    Keeps (Said limit) (knowing process word i) := by
  rw [knowing]
  split
  · exact said_pure _
  · next c hc =>
      intro s
      have htarget : StateExcept.after (onTarget (process c i)) s
          = { s with target := StateExcept.after (process c i) s.target } := after_onPart _ s
      rw [htarget]
      exact h c i s.target

theorem said_processEach (word : Bytes) (i : Input)
    {processors : List (Bytes → Input → EStateM Exn (Shell (Database × List Op)) Status)}
    (h : ∀ process ∈ processors, ∀ word i, Keeps (Said limit) (process word i)) :
    ∀ found, Keeps (Said limit) (processEach word i processors found) := by
  induction processors with
  | nil => exact fun found => said_pure _
  | cons process processors ih =>
      rw [List.forall_mem_cons] at h
      intro found
      refine said_bind (h.1 word i) fun status => ?_
      cases status with
      | ok => exact ih h.2 true
      | notFound => exact ih h.2 found
      | _ => exact said_pure _

variable (hinclude : ∀ text, Keeps (Said limit) (includeText text))
include hinclude

theorem said_processOwn (word : Bytes) (i : Input) :
    Keeps (Said limit) (processOwn X includeText word i) := by
  rw [processOwn]
  refine keeps_cases (fun _ => said_pure _) fun _ => ?_
  split
  case h_5 =>
    split
    · exact keeps_throw Said.refl _
    · exact said_bind (hinclude _) fun _ => said_pure _
  all_goals exact said_pure _

theorem said_processLine (line : Bytes) :
    Keeps (Said limit) (processLine (recording limit) X includeText line) := by
  refine said_bind (said_processEach _ _ ?_ false) fun outcome =>
    keeps_guard_bind Said.refl fun _ => said_pure _
  intro process hprocess
  rcases List.mem_cons.mp hprocess with rfl | hprocess
  · exact said_processOwn hinclude
  rcases List.mem_cons.mp hprocess with rfl | hprocess
  · exact said_knowing said_processWritable
  · obtain rfl := List.mem_singleton.mp hprocess
    exact said_knowing said_processReadableWritable

/-- An exception is thrown again or printed. -/
theorem said_tryLine (rethrow : Bool) (lineNumber : Nat) (line : Bytes) :
    Keeps (Said limit) (tryLine (recording limit) X rethrow includeText lineNumber line) := by
  intro s
  have hline := said_processLine (X := X) hinclude line s
  cases hrun : processLine (recording limit) X includeText line s with
  | ok outcome t =>
      have htry : tryLine (recording limit) X rethrow includeText lineNumber line s
          = .ok outcome t := by
        rw [tryLine, hrun]
      rw [after_ok hrun] at hline
      rwa [after_ok htry]
  | error e t =>
      rw [after_error hrun] at hline
      have hafter : Keeps (Said limit) (afterException rethrow lineNumber line e >>= fun _ =>
          pure (⟨true, false, false⟩ : Outcome)) := by
        refine said_bind ?_ fun _ => said_pure _
        rw [afterException]
        split
        · exact keeps_throw Said.refl _
        · exact keeps_when Said.refl (keeps_throw Said.refl _)
      have htry : StateExcept.after
          (tryLine (recording limit) X rethrow includeText lineNumber line) s
            = StateExcept.after (afterException rethrow lineNumber line e >>= fun _ =>
                pure (⟨true, false, false⟩ : Outcome)) t := by
        unfold StateExcept.after
        rw [tryLine, hrun]
      rw [htry]
      exact hline.trans _ _ _ (hafter t)

theorem said_eachLine (rethrow : Bool) (lines : List Bytes) : ∀ lineNumber,
    Keeps (Said limit) (eachLine (recording limit) X rethrow includeText lines lineNumber) := by
  induction lines with
  | nil => exact fun _ => said_pure false
  | cons raw lines ih =>
      intro lineNumber
      refine said_bind (keeps_modify fun s => Said.refl s) fun _ =>
        said_bind (said_tryLine hinclude rethrow lineNumber _) fun outcome =>
          keeps_cases (fun _ => said_pure _) fun _ => ih _

theorem said_interpret (rethrow : Bool) (text : Bytes) :
    Keeps (Said limit) (interpret (recording limit) X rethrow includeText text) :=
  said_bind (said_eachLine hinclude rethrow _ 1) fun _ =>
    keeps_when Said.refl (keeps_throw Said.refl _)

omit hinclude in
/-- Whatever the text is and however its reading ends, what is passed on can be said. -/
theorem said_mainLoop (rethrow : Bool) (depth : Nat) :
    ∀ text, Keeps (Said limit) (mainLoop (recording limit) X rethrow depth text) := by
  induction depth with
  | zero => exact said_interpret (fun _ => keeps_throw Said.refl _) rethrow
  | succ depth ih => exact said_interpret ih rethrow

end Shell

/-! ## Exactly what can be said -/

namespace InterpreterDump

/-- The dump of what a database has taken gives back the same events if and only if each of them
can be said when its turn comes, and then nothing is thrown. -/
theorem dump_mainLoop_iff (X : Surroundings) (limit maxRecordId : RecordId)
    (rethrow blobWanted : Bool) (depth : Nat) (told : List Told) {db' : Database}
    (hfit : ∀ op ∈ Told.ops blobWanted told, op.Fits)
    (hfloat : ∀ op ∈ Told.ops blobWanted told, op.FloatsReturn X)
    (hrun : Database.asWritable.callAll (Told.ops blobWanted told) (.create maxRecordId)
      = .ok () db') (b : Bool) :
    ((StateExcept.after (Shell.mainLoop (.recording limit) X rethrow depth
        (dump X.floatText blobWanted told)) ⟨(.create maxRecordId, []), b⟩).target.2
          = Told.ops blobWanted told ↔
      Database.SayAll limit (Told.ops blobWanted told) (.create maxRecordId)) ∧
    (Database.SayAll limit (Told.ops blobWanted told) (.create maxRecordId) →
      ∃ s', Shell.mainLoop (.recording limit) X rethrow depth (dump X.floatText blobWanted told)
        ⟨(.create maxRecordId, []), b⟩ = .ok () s' ∧ s'.target.2 = Told.ops blobWanted told) := by
  have hsaid : Database.SayAll limit (Told.ops blobWanted told) (.create maxRecordId) →
      ∃ s', Shell.mainLoop (.recording limit) X rethrow depth (dump X.floatText blobWanted told)
        ⟨(.create maxRecordId, []), b⟩ = .ok () s' ∧ s'.target.2 = Told.ops blobWanted told := by
    intro hsay
    have htarget := Target.follows_ofDatabase recorder (pure ()) (pure ()) limit
    have hboth : (Target.recording limit).writable.callAll (Told.ops blobWanted told)
        (.create maxRecordId, []) = .ok () (db', Told.ops blobWanted told) :=
      Target.callAll_recording hrun []
    obtain ⟨b', hloop⟩ :=
      mainLoop_dump htarget X rethrow blobWanted depth hfit hfloat rfl hsay hboth b
    exact ⟨_, hloop, rfl⟩
  refine ⟨⟨fun hheard => ?_, fun hsay => ?_⟩, hsaid⟩
  · have hkeeps : StateExcept.Keeps (Shell.Said limit)
        (Shell.mainLoop (.recording limit) X rethrow depth (dump X.floatText blobWanted told)) :=
      Shell.said_mainLoop rethrow depth _
    obtain ⟨ops, hops, hsay, -⟩ := hkeeps ⟨(.create maxRecordId, []), b⟩
    rw [hheard] at hops
    rwa [show Told.ops blobWanted told = ops from hops]
  · obtain ⟨s', hloop, hheard⟩ := hsaid hsay
    rwa [after_ok hloop]

theorem dump_mainLoop_iff_person : (StateExcept.after (Shell.mainLoop (.recording (-1)) halfReading
      false 42 (dump halfReading.floatText true toldPerson)) ⟨(.create (-1), []), true⟩).target.2
        = person ↔ Database.SayAll (-1) person (.create (-1)) := by
  obtain ⟨db', htaken⟩ := taken_person
  exact (dump_mainLoop_iff halfReading (-1) (-1) false true 42 toldPerson fits_person
    floatsReturn_person htaken true).1

end InterpreterDump

end Joedb
