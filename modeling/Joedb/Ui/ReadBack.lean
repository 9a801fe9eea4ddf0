import Joedb.Multiplexer.InStep
import Joedb.Ui.CommandLines

/-!
# A dump read back

The text of a dump, given to an interpreter, is the calls that it was written for, in their order.
This holds for whatever the interpreter writes to behind its database, and whether or not it
throws again what it catches, since nothing is thrown.

Not every event can be said. A name of a custom with white space in it is cut there, and a newline
in it ends the line. An interpreter knows a reference only by the name of its table, so there is
none to a table that has been dropped. It does not pass on a vector without values, takes only so
many of them, and knows two values of a boolean.

That is all: `said_interpret` goes the other way, from any text at all. An event that an
interpreter passes on is one that can be said, so if the dump gives back the events, all of them
could.
-/

namespace Joedb

open ByteFile Containers StateExcept Streams

/-! ## Calls in a row -/

namespace Writable

variable {ω : Type} (W : Writable ω)

/-- Up to the first that throws. -/
def callAll : List Op → EStateM Exn ω Unit
  | [] => pure ()
  | op :: ops => do
      W.call op
      callAll ops

theorem callAll_append {ops ops' : List Op} {w w₁ : ω} (h : W.callAll ops w = .ok () w₁) :
    W.callAll (ops ++ ops') w = W.callAll ops' w₁ := by
  induction ops generalizing w with
  | nil =>
      obtain rfl := (EStateM.Result.ok.inj h).2
      rfl
  | cons op ops ih =>
      obtain ⟨_, w₂, hop, hops⟩ := bind_eq_ok h
      rw [List.cons_append, callAll, bind_ok hop]
      exact ih hops

end Writable

/-- What a dump hears of. -/
inductive Told where
  | call (op : Op)
  | onBlob (b : Blob)
  | softCheckpoint

namespace Told

/-- The operation that is written. The data of a blob is, if it is wanted. -/
def op? (blobWanted : Bool) : Told → Option Op
  | .call (.writeBlob data) => if blobWanted then some (.writeBlob data) else none
  | .call op => some op
  | _ => none

def ops (blobWanted : Bool) (told : List Told) : List Op := told.filterMap (op? blobWanted)

variable {ω : Type} (W : Writable ω)

def tell : Told → EStateM Exn ω Unit
  | .call op => W.call op
  | .onBlob b => W.onBlob b
  | .softCheckpoint => W.softCheckpoint

def tellAll : List Told → EStateM Exn ω Unit
  | [] => pure ()
  | e :: told => do
      e.tell W
      tellAll told

theorem ops_append (blobWanted : Bool) (told told' : List Told) :
    ops blobWanted (told ++ told') = ops blobWanted told ++ ops blobWanted told' :=
  List.filterMap_append

theorem tellAll_append (told told' : List Told) :
    tellAll W (told ++ told') = tellAll W told >>= fun _ => tellAll W told' := by
  induction told with
  | nil => rfl
  | cons e told ih => rw [List.cons_append, tellAll, tellAll, ih, bind_assoc]

end Told

/-- Each of the operations can be said when its turn comes. -/
def Database.SayAll (maxRecordId : RecordId) : List Op → Database → Prop
  | [], _ => True
  | op :: ops, db =>
      op.Sayable maxRecordId db ∧ SayAll maxRecordId ops (after (Database.call op) db)

instance Database.decidableSayAll (maxRecordId : RecordId) :
    (ops : List Op) → (db : Database) → Decidable (SayAll maxRecordId ops db)
  | [], _ => inferInstanceAs (Decidable True)
  | op :: ops, db =>
      have := decidableSayAll maxRecordId ops (after (Database.call op) db)
      inferInstanceAs (Decidable (_ ∧ _))

/-! ## Lines -/

namespace Shell

variable {σ : Type} {T : Target σ} {X : Surroundings} {rethrow : Bool} {s s' : σ}
  {includeText : Bytes → EStateM Exn (Shell σ) Unit} {raw : Bytes} {b b' : Bool}

/-- A line that is done leaves the rest. -/
theorem eachLine_done (h : processLine T X includeText (stripped raw)
      ⟨s, (stripped raw).isEmpty⟩ = .ok ⟨true, false, false⟩ ⟨s', b'⟩)
    (lines : List Bytes) (lineNumber : Nat) (b : Bool) :
    eachLine T X rethrow includeText (raw :: lines) lineNumber ⟨s, b⟩
      = eachLine T X rethrow includeText lines (lineNumber + 1) ⟨s', b'⟩ := by
  have htry : tryLine T X rethrow includeText lineNumber (stripped raw)
      ⟨s, (stripped raw).isEmpty⟩ = .ok ⟨true, false, false⟩ ⟨s', b'⟩ := by
    rw [tryLine, h]
  rw [eachLine]
  refine (bind_ok (m := modify _) rfl).trans ?_
  rw [bind_ok htry]
  rfl

/-- A command, and whatever is behind it. -/
theorem eachLine_command {c : Command} {ws : List Bytes}
    (hraw : stripped raw = unwords (c.word :: ws))
    (h : Target.Does T X c ⟨spaced ws, false⟩ s s') (lines : List Bytes) (lineNumber : Nat)
    (b : Bool) : ∃ b', eachLine T X rethrow includeText (raw :: lines) lineNumber ⟨s, b⟩
      = eachLine T X rethrow includeText lines (lineNumber + 1) ⟨s', b'⟩ := by
  have hword := Input.readWord_unwords c.isWord_word ws
  rw [← hraw] at hword
  exact ⟨_, eachLine_done (processLine_does hword h _) lines lineNumber b⟩

/-- An empty line, or a comment. -/
theorem eachLine_silent {w : Bytes} {i : Input}
    (hword : Input.readWord ⟨stripped raw, false⟩ = (w, i)) (hw : w = [] ∨ w.head? = some 35)
    (lines : List Bytes) (lineNumber : Nat) (b : Bool) :
    eachLine T X rethrow includeText (raw :: lines) lineNumber ⟨s, b⟩
      = eachLine T X rethrow includeText lines (lineNumber + 1) ⟨s, (stripped raw).isEmpty⟩ := by
  have hquestion : w ≠ ascii "?" := by
    rintro rfl
    exact absurd hw (by decide)
  refine eachLine_done ?_ lines lineNumber b
  have hown : processOwn X includeText w i ⟨s, (stripped raw).isEmpty⟩
      = .ok .done ⟨s, (stripped raw).isEmpty⟩ := by
    rw [processOwn, if_pos hw]
    rfl
  have heach : processEach w i (processors T X includeText) false ⟨s, (stripped raw).isEmpty⟩
      = .ok ⟨true, false, false⟩ ⟨s, (stripped raw).isEmpty⟩ := by
    rw [processors, processEach, bind_ok hown]
    rfl
  rw [processLine, hword]
  simp only [if_neg hquestion]
  rw [bind_ok heach]
  rfl

end Shell

/-! ## Names on both sides -/

namespace InterpreterWritable

/-- The words depend on the names only. -/
theorem words_congr (F : FloatText) {db schema : Database}
    (htable : ∀ t, schema.getTableName t = db.getTableName t)
    (hfield : ∀ t f, schema.getFieldName t f = db.getFieldName t f) (op : Op) :
    words F schema op = words F db op := by
  cases op with
  | addField t name type => simp only [words, writeType, htable]
  | _ => simp only [words, writeUpdate, htable, hfield]

end InterpreterWritable

/-- What hears of everything behind the text takes what a database takes, and has its names. -/
structure Tracks (S : Writable Database) (R : Database → Database → Prop) : Prop where
  tableName : ∀ {db schema}, R db schema → ∀ t, schema.getTableName t = db.getTableName t
  fieldName : ∀ {db schema}, R db schema → ∀ t f,
    schema.getFieldName t f = db.getFieldName t f
  call : ∀ {db schema db'} {op : Op}, R db schema → op.Fits → Database.call op db = .ok () db' →
    ∃ schema', S.call op schema = .ok () schema' ∧ R db' schema'
  wantsBlobData : ∀ schema, S.wantsBlobData schema = false
  softCheckpoint : S.softCheckpoint = pure ()
  onBlob : ∀ b, S.onBlob b = pure ()

theorem tracks_database : Tracks Database.asWritable fun db schema => schema = db where
  tableName h t := by rw [h]
  fieldName h t f := by rw [h]
  call h _ hrun := by
    subst h
    exact ⟨_, hrun, rfl⟩
  wantsBlobData _ := rfl
  softCheckpoint := rfl
  onBlob _ := rfl

namespace Database

variable {db schema db' : Database}

/-- Names are part of the schema. -/
theorem getTableName_congr (h : schema.schema = db.schema) (t : TableId) :
    schema.getTableName t = db.getTableName t := by
  rw [Database.getTableName, Database.getTableName,
    show schema.tableNames = db.tableNames from congrArg Schema.names h]

theorem getFieldName_congr (h : schema.schema = db.schema) (t : TableId) (f : FieldId) :
    schema.getFieldName t f = db.getFieldName t f := by
  have htables : schema.tables.map (fun e => (e.1, e.2.schema))
      = db.tables.map fun e => (e.1, e.2.schema) := congrArg Schema.tables h
  have hfind : (find schema.tables t).map Table.schema = (find db.tables t).map Table.schema := by
    rw [← find_map, ← find_map, htables]
  have hbind : ∀ o : Option Table, (o.bind fun t => find t.fieldNames f)
      = (o.map Table.schema).bind fun s => find s.names f := by
    intro o
    cases o <;> rfl
  rw [Database.getFieldName, Database.getFieldName, hbind, hbind, hfind]

theorem Twins.schemaCall (h : Twins db schema) {op : Op} (hfit : op.Fits)
    (hrun : Database.call op db = .ok () db') :
    ∃ schema', Database.schemaCall op schema = .ok () schema' ∧ Twins db' schema' := by
  cases hop : op.isSchema with
  | true =>
      obtain ⟨schema', hrun', htwins⟩ := h.call hop hrun
      refine ⟨schema', ?_, htwins⟩
      cases op <;> first | exact hrun' | cases hop
  | false =>
      have hkept := ((call_kept hop hfit).ok hrun).1
      refine ⟨schema, ?_, h.1.trans hkept.symm, h.2⟩
      cases op <;> first | rfl | cases hop

end Database

theorem tracks_schema : Tracks Database.schemaWritable Database.Twins where
  tableName h t := Database.getTableName_congr h.1 t
  fieldName h t f := Database.getFieldName_congr h.1 t f
  call h hfit hrun := h.schemaCall hfit hrun
  wantsBlobData _ := rfl
  softCheckpoint := rfl
  onBlob _ := rfl

/-! ## The way back -/

section Back

variable {σ : Type} {T : Target σ} {X : Surroundings} {rethrow blobWanted : Bool}
  {includeText : Bytes → EStateM Exn (Shell σ) Unit} {S : Writable Database}
  {R : Database → Database → Prop} {s s' : σ}

/-- What the interpreter asks for happens in the database that it looks at. -/
def Target.Follows (T : Target σ) : Prop := ∀ op s s', T.writable.call op s = .ok () s' →
  Database.call op (T.readable s) = .ok () (T.readable s')

/-- What has happened so far has left. -/
structure Database.Proper (db : Database) : Prop where
  labelled : db.Labelled
  sound : db.Sound

theorem Database.Proper.call {db db' : Database} (h : db.Proper) {op : Op}
    (hrun : Database.call op db = .ok () db') : db'.Proper :=
  ⟨(Database.labelled_call op).ok h.labelled hrun,
    (h.sound.hear (Database.hear_of_call h.sound hrun).1).1⟩

theorem Database.proper_create (maxRecordId : RecordId) :
    (Database.create maxRecordId).Proper :=
  ⟨Database.labelled_create maxRecordId, Database.sound_create maxRecordId⟩

/-- An operation comes back from its line. -/
theorem Shell.eachLine_words (hT : T.Follows) (hp : (T.readable s).Proper) {op : Op}
    (hfit : op.Fits) (hfloat : op.FloatsReturn X)
    (hsay : op.Sayable T.maxRecordId (T.readable s)) (hcall : T.writable.call op s = .ok () s')
    {line : Bytes}
    (hline : line = unwords (InterpreterWritable.words X.floatText (T.readable s) op)) :
    10 ∉ line ∧ ∀ lines lineNumber b, ∃ b',
      eachLine T X rethrow includeText (line :: lines) lineNumber ⟨s, b⟩
        = eachLine T X rethrow includeText lines (lineNumber + 1) ⟨s', b'⟩ := by
  subst hline
  by_cases hcustom : op = .custom []
  · subst hcustom
    have hwords : InterpreterWritable.words X.floatText (T.readable s) (.custom [])
        = [ascii "custom", []] := rfl
    rw [hwords]
    refine ⟨by decide, fun lines lineNumber b => ?_⟩
    have hdoes : Target.Does T X .custom ⟨spaced [], false⟩ s s' :=
      .define rfl rfl rfl rfl (Target.finish_ok hcall)
    exact eachLine_command (by decide) hdoes lines lineNumber b
  · have hname : ∀ name, op = .custom name → name ≠ [] := fun name hop hnil =>
      hcustom (hnil ▸ hop)
    obtain ⟨c, ws, hwords, hsolids, hdoes⟩ :=
      Target.line_call hp.labelled hp.sound hfit hfloat hsay hname hcall (hT _ _ _ hcall)
    have hsolid := (hsolids.cons c.isWord_word.solid_line).unwords (List.cons_ne_nil _ _)
    rw [hwords]
    exact ⟨hsolid.1, eachLine_command hsolid.stripped hdoes⟩

/-! ### Telling -/

namespace InterpreterDump

variable {F : FloatText} {d : InterpreterDump} {db db' : Database}

theorem write_run (text : Database → Bytes) :
    write text d = .ok () ⟨d.schema, d.out ++ text d.schema⟩ := rfl

/-- An event that is written, and taken by what hears of it behind the text. -/
theorem tell_said (hS : Tracks S R) (hR : R db d.schema) {e : Told} {op : Op}
    (hop : e.op? blobWanted = some op) (hfit : op.Fits)
    (hrun : Database.call op db = .ok () db') :
    ∃ schema, e.tell (asWritable F blobWanted S) d
        = .ok () ⟨schema, d.out ++ InterpreterWritable.call F db op⟩ ∧ R db' schema := by
  have htext : InterpreterWritable.call F d.schema op = InterpreterWritable.call F db op :=
    congrArg InterpreterWritable.line
      (InterpreterWritable.words_congr F (hS.tableName hR) (hS.fieldName hR) op)
  obtain ⟨schema, hschema, hR'⟩ := hS.call hR hfit hrun
  rw [← htext]
  cases e with
  | call told =>
      cases told with
      | writeBlob data =>
          obtain ⟨hwanted, hdata⟩ := Option.ite_some_none_eq_some.mp hop
          subst hdata
          obtain rfl := (EStateM.Result.ok.inj hrun).2
          refine ⟨d.schema, ?_, hR⟩
          show call F blobWanted S (.writeBlob data) d = _
          rw [call, get_bind_run, when_pos hwanted, bind_ok (write_run _), hS.wantsBlobData]
          rfl
      | _ =>
          obtain rfl := Option.some.inj hop
          exact ⟨schema, (bind_ok (write_run _)).trans (onPart_ok hschema), hR'⟩
  | _ => cases hop

/-- A line that nothing is done for. -/
def Silent (text : Bytes) : Prop := ∃ line w i, text = line ++ [10] ∧ 10 ∉ line ∧
  Input.readWord ⟨stripped line, false⟩ = (w, i) ∧ (w = [] ∨ w.head? = some 35)

theorem silent_blank : Silent InterpreterWritable.softCheckpoint :=
  ⟨[], [], ⟨[], true⟩, rfl, List.not_mem_nil, rfl, .inl rfl⟩

theorem silent_onBlob (b : Blob) : Silent (InterpreterWritable.onBlob b) := by
  have hsharp : IsWord (ascii "#") := by decide
  have hblob : IsWord (ascii "Blob:") := by decide
  have hsolids : Solids [ascii "#", ascii "Blob:", InterpreterWritable.writeBlobText b] :=
    .cons hsharp.solid_line (.cons hblob.solid_line
      (.cons (TextReading.isWord_writeBlobText b).solid_line .nil))
  have hsolid := hsolids.unwords (List.cons_ne_nil _ _)
  have hword := Input.readWord_unwords hsharp [ascii "Blob:", InterpreterWritable.writeBlobText b]
  rw [← hsolid.stripped] at hword
  exact ⟨_, _, _, rfl, hsolid.1, hword, .inr (by decide)⟩

/-- Any other leaves a line that is silent, or nothing. -/
theorem tell_unsaid (hS : Tracks S R) {e : Told} (hop : e.op? blobWanted = none) :
    ∃ text, e.tell (asWritable F blobWanted S) d = .ok () ⟨d.schema, d.out ++ text⟩ ∧
      (text = [] ∨ Silent text) := by
  cases e with
  | call told =>
      cases told with
      | writeBlob data =>
          have hwanted : ¬blobWanted = true := fun h => by
            rw [Told.op?, if_pos h] at hop
            cases hop
          refine ⟨[], ?_, .inl rfl⟩
          show call F blobWanted S (.writeBlob data) d = _
          rw [call, get_bind_run, when_neg hwanted, pure_bind_run, hS.wantsBlobData,
            List.append_nil]
          rfl
      | _ => cases hop
  | onBlob b =>
      refine ⟨_, (bind_ok (write_run _)).trans ?_, .inr (silent_onBlob b)⟩
      rw [hS.onBlob]
      rfl
  | softCheckpoint =>
      refine ⟨_, (bind_ok (write_run _)).trans ?_, .inr silent_blank⟩
      rw [hS.softCheckpoint]
      rfl

end InterpreterDump

/-! ### All events -/

/-- A stretch of text takes the interpreter from one state to another. -/
def Shell.Brings (T : Target σ) (X : Surroundings) (rethrow : Bool)
    (includeText : Bytes → EStateM Exn (Shell σ) Unit) (text : Bytes) (s s' : σ) : Prop :=
  ∀ rest lineNumber b, ∃ lineNumber' b',
    eachLine T X rethrow includeText (getlines (text ++ rest)) lineNumber ⟨s, b⟩
      = eachLine T X rethrow includeText (getlines rest) lineNumber' ⟨s', b'⟩

theorem Shell.brings_nil : Brings T X rethrow includeText [] s s :=
  fun _ lineNumber b => ⟨lineNumber, b, rfl⟩

theorem Shell.Brings.append {text text' : Bytes} {s₁ : σ}
    (h : Brings T X rethrow includeText text s s₁)
    (h' : Brings T X rethrow includeText text' s₁ s') :
    Brings T X rethrow includeText (text ++ text') s s' := by
  intro rest lineNumber b
  obtain ⟨lineNumber₁, b₁, hfirst⟩ := h (text' ++ rest) lineNumber b
  obtain ⟨lineNumber₂, b₂, hsecond⟩ := h' rest lineNumber₁ b₁
  refine ⟨lineNumber₂, b₂, ?_⟩
  rw [List.append_assoc, hfirst, hsecond]

theorem Shell.brings_silent {text : Bytes} (h : InterpreterDump.Silent text) :
    Brings T X rethrow includeText text s s := by
  obtain ⟨line, w, i, rfl, hnewline, hword, hw⟩ := h
  intro rest lineNumber b
  refine ⟨lineNumber + 1, (stripped line).isEmpty, ?_⟩
  rw [List.append_assoc, List.singleton_append, getlines_append hnewline]
  exact eachLine_silent hword hw _ _ _

theorem Shell.brings_call (hT : T.Follows) (hp : (T.readable s).Proper) {op : Op}
    (hfit : op.Fits) (hfloat : op.FloatsReturn X)
    (hsay : op.Sayable T.maxRecordId (T.readable s)) (hcall : T.writable.call op s = .ok () s') :
    Brings T X rethrow includeText (InterpreterWritable.call X.floatText (T.readable s) op) s
      s' := by
  intro rest lineNumber b
  obtain ⟨hnewline, hline⟩ := eachLine_words hT hp hfit hfloat hsay hcall rfl
  obtain ⟨b', hb⟩ := hline (getlines rest) lineNumber b
  refine ⟨lineNumber + 1, b', ?_⟩
  rw [InterpreterWritable.call, InterpreterWritable.line, List.append_assoc,
    List.singleton_append, getlines_append hnewline, hb]

theorem Told.ops_cons (e : Told) (told : List Told) :
    ops blobWanted (e :: told) = (e.op? blobWanted).toList ++ ops blobWanted told := by
  rw [ops, List.filterMap_cons]
  cases e.op? blobWanted <;> rfl

/-- What is told to a dump is written so that an interpreter does it again. -/
theorem Told.brings (hT : T.Follows) (hS : Tracks S R) {told : List Told} {d : InterpreterDump}
    (hfit : ∀ op ∈ ops blobWanted told, op.Fits)
    (hfloat : ∀ op ∈ ops blobWanted told, op.FloatsReturn X)
    (hsay : Database.SayAll T.maxRecordId (ops blobWanted told) (T.readable s))
    (hrun : T.writable.callAll (ops blobWanted told) s = .ok () s')
    (hp : (T.readable s).Proper) (hR : R (T.readable s) d.schema) :
    ∃ schema text, tellAll (InterpreterDump.asWritable X.floatText blobWanted S) told d
        = .ok () ⟨schema, d.out ++ text⟩ ∧ R (T.readable s') schema ∧
      Shell.Brings T X rethrow includeText text s s' := by
  induction told generalizing s d with
  | nil =>
      obtain rfl := (EStateM.Result.ok.inj hrun).2
      exact ⟨d.schema, [], by rw [List.append_nil]; rfl, hR, Shell.brings_nil⟩
  | cons e told ih =>
      rw [ops_cons] at hfit hfloat hsay hrun
      cases hop : e.op? blobWanted with
      | none =>
          rw [hop, Option.toList_none, List.nil_append] at hfit hfloat hsay hrun
          obtain ⟨text, htell, htext⟩ := InterpreterDump.tell_unsaid (F := X.floatText) (d := d)
            hS hop
          obtain ⟨schema, text', htold, hR', hbrings⟩ :=
            ih (d := ⟨d.schema, d.out ++ text⟩) hfit hfloat hsay hrun hp hR
          refine ⟨schema, text ++ text', ?_, hR', ?_⟩
          · rw [tellAll, bind_ok htell, htold, List.append_assoc]
          · rcases htext with rfl | hsilent
            · exact hbrings
            · exact (Shell.brings_silent hsilent).append hbrings
      | some op =>
          rw [hop, Option.toList_some, List.singleton_append] at hfit hfloat hsay hrun
          rw [List.forall_mem_cons] at hfit hfloat
          obtain ⟨_, s₁, hcall, hrest⟩ := bind_eq_ok hrun
          have hdb := hT _ _ _ hcall
          obtain ⟨hsay, hsayAll⟩ := hsay
          rw [after_ok hdb] at hsayAll
          obtain ⟨schema₁, htell, hR₁⟩ := InterpreterDump.tell_said (F := X.floatText) hS hR hop
            hfit.1 hdb
          obtain ⟨schema, text, htold, hR', hbrings⟩ := ih (d := ⟨schema₁, _⟩) hfit.2 hfloat.2
            hsayAll hrest (hp.call hdb) hR₁
          refine ⟨schema, InterpreterWritable.call X.floatText (T.readable s) op ++ text, ?_, hR',
            (Shell.brings_call hT hp hfit.1 hfloat.1 hsay hcall).append hbrings⟩
          rw [tellAll, bind_ok htell, htold, List.append_assoc]

theorem Shell.mainLoop_eq (T : Target σ) (X : Surroundings) (rethrow : Bool) (depth : Nat) :
    ∃ includeText, mainLoop T X rethrow depth = interpret T X rethrow includeText := by
  cases depth <;> exact ⟨_, rfl⟩

/-- A whole text. -/
theorem Shell.Brings.mainLoop {text : Bytes} {depth : Nat}
    (h : ∀ includeText, Brings T X rethrow includeText text s s') (b : Bool) :
    ∃ b', Shell.mainLoop T X rethrow depth text ⟨s, b⟩ = .ok () ⟨s', b'⟩ := by
  obtain ⟨includeText, hloop⟩ := mainLoop_eq T X rethrow depth
  obtain ⟨lineNumber, b', hlines⟩ := h includeText [] 1 b
  rw [List.append_nil] at hlines
  refine ⟨b', ?_⟩
  rw [hloop, interpret, bind_ok hlines, when_neg Bool.false_ne_true]
  rfl

/-- A whole text, and an empty line. -/
theorem Shell.Brings.mainLoop_empty {text : Bytes} {depth : Nat}
    (h : ∀ includeText, Brings T X rethrow includeText text s s') (b : Bool) :
    Shell.mainLoop T X rethrow depth (text ++ InterpreterWritable.softCheckpoint) ⟨s, b⟩
      = .ok () ⟨s', true⟩ := by
  obtain ⟨includeText, hloop⟩ := mainLoop_eq T X rethrow depth
  obtain ⟨lineNumber, b', hlines⟩ := h includeText InterpreterWritable.softCheckpoint 1 b
  have hempty : getlines InterpreterWritable.softCheckpoint = [[]] := rfl
  have hword : Input.readWord ⟨stripped [], false⟩ = ([], ⟨[], true⟩) := rfl
  rw [hempty, eachLine_silent hword (.inl rfl)] at hlines
  rw [hloop, interpret, bind_ok hlines, when_neg Bool.false_ne_true]
  rfl

end Back

/-! ## A database and what is behind it -/

/-- `Interpreter(db, Multiplexer{db, V}, max_record_id)`. -/
def Target.ofDatabase {ν : Type} (V : Writable ν) (flush hardCheckpoint : EStateM Exn ν Unit)
    (maxRecordId : RecordId) : Target (Database × ν) where
  writable := Multiplexer.asWritable Database.asWritable V
  readable := Prod.fst
  flush := Multiplexer.snd flush
  hardCheckpoint := Multiplexer.both Database.asWritable.softCheckpoint hardCheckpoint
  maxRecordId := maxRecordId

/-- `Interpreter_Dump_Writable`. -/
def InterpreterDump.dump (F : FloatText) (blobWanted : Bool) (told : List Told) : Bytes :=
  (after (Told.tellAll (asWritable F blobWanted Database.schemaWritable) told)
    (create (-1))).out

namespace Multiplexer

variable {ν : Type} {V : Writable ν} {db db' : Database} {v v' : ν} {op : Op}

theorem fst_ok {φ ω α : Type} {m : EStateM Exn φ α} {s s' : φ × ω} {a : α}
    (h : fst m s = .ok a s') : m s.1 = .ok a s'.1 ∧ s'.2 = s.2 := by
  obtain ⟨v, hm, rfl⟩ := onPart_eq_ok h
  exact ⟨hm, rfl⟩

theorem snd_ok {φ ω α : Type} {m : EStateM Exn ω α} {s s' : φ × ω} {a : α}
    (h : snd m s = .ok a s') : m s.2 = .ok a s'.2 ∧ s'.1 = s.1 := by
  obtain ⟨v, hm, rfl⟩ := onPart_eq_ok h
  exact ⟨hm, rfl⟩

/-- What is taken has been taken by the database. -/
theorem call_database {s s' : Database × ν}
    (h : (asWritable Database.asWritable V).call op s = .ok () s') :
    Database.call op s.1 = .ok () s'.1 := by
  have hboth : ∀ {m : EStateM Exn Database Unit} {n : EStateM Exn ν Unit},
      both m n s = .ok () s' → m s.1 = .ok () s'.1 := by
    intro m n hrun
    obtain ⟨_, s₁, hfirst, hsecond⟩ := bind_eq_ok hrun
    rw [(snd_ok hsecond).2]
    exact (fst_ok hfirst).1
  cases op with
  | writeBlob data =>
      have hwants : ¬Database.asWritable.wantsBlobData s.1 = true := Bool.false_ne_true
      have hrun : call Database.asWritable V (.writeBlob data) s = .ok () s' := h
      rw [call, get_bind_run, when_neg hwants, pure_bind_run] at hrun
      have hsame : s'.1 = s.1 := by
        by_cases hV : V.wantsBlobData s.2 = true
        · rw [when_pos hV] at hrun
          exact (snd_ok hrun).2
        · rw [when_neg hV] at hrun
          rw [(EStateM.Result.ok.inj hrun).2]
      rw [hsame]
      rfl
  | _ => exact hboth h

/-- Who takes everything takes whatever the database takes. -/
theorem call_taken {g : ν → ν} (hV : V.call op = modify g) (hwants : V.wantsBlobData v = true)
    (h : Database.call op db = .ok () db') :
    (asWritable Database.asWritable V).call op (db, v) = .ok () (db', g v) := by
  have hboth : ∀ {m : EStateM Exn Database Unit}, m db = .ok () db' →
      both m (V.call op) (db, v) = .ok () (db', g v) := by
    intro m hm
    have hfst : fst m (db, v) = .ok () (db', v) := onPart_ok hm
    rw [both, bind_ok hfst, hV]
    rfl
  cases op with
  | writeBlob data =>
      obtain rfl := (EStateM.Result.ok.inj h).2
      have hdb : ¬Database.asWritable.wantsBlobData db = true := Bool.false_ne_true
      show call Database.asWritable V (.writeBlob data) (db, v) = _
      rw [call, get_bind_run, when_neg hdb, pure_bind_run, when_pos hwants, hV]
      rfl
  | _ => exact hboth h

theorem callAll_taken {g : Op → ν → ν} (hV : ∀ op, V.call op = modify (g op))
    (hwants : ∀ v, V.wantsBlobData v = true) {ops : List Op}
    (h : Database.asWritable.callAll ops db = .ok () db') (v : ν) :
    (asWritable Database.asWritable V).callAll ops (db, v)
      = .ok () (db', ops.foldl (fun v op => g op v) v) := by
  induction ops generalizing db v with
  | nil =>
      obtain rfl := (EStateM.Result.ok.inj h).2
      rfl
  | cons op ops ih =>
      obtain ⟨_, db₁, hop, hops⟩ := bind_eq_ok h
      rw [Writable.callAll, bind_ok (call_taken (hV op) (hwants v) hop), ih hops]
      rfl

end Multiplexer

theorem Target.follows_ofDatabase {ν : Type} (V : Writable ν)
    (flush hardCheckpoint : EStateM Exn ν Unit) (maxRecordId : RecordId) :
    (Target.ofDatabase V flush hardCheckpoint maxRecordId).Follows :=
  fun _ _ _ hcall => Multiplexer.call_database hcall

namespace Target

/-- A database, and a list of what it has taken. -/
def recording (limit : RecordId) : Target (Database × List Op) :=
  .ofDatabase recorder (pure ()) (pure ()) limit

theorem callAll_recording {limit : RecordId} {ops : List Op} {db db' : Database}
    (h : Database.asWritable.callAll ops db = .ok () db') (heard : List Op) :
    (recording limit).writable.callAll ops (db, heard) = .ok () (db', heard ++ ops) := by
  have hall := Multiplexer.callAll_taken (V := recorder) (g := fun op heard => heard ++ [op])
    (fun _ => rfl) (fun _ => rfl) h heard
  rw [List.foldl_append_eq_append, ← List.flatMap_def, List.flatMap_singleton'] at hall
  exact hall

end Target

namespace InterpreterDump

theorem twins_create (maxRecordId : RecordId) :
    Database.Twins (.create maxRecordId) (.create (-1)) := ⟨rfl, fun e he => by cases he⟩

/-- From the start of a dump, for whatever the interpreter writes to. -/
theorem mainLoop_dump {σ : Type} {T : Target σ} (hT : T.Follows) (X : Surroundings)
    (rethrow blobWanted : Bool) (depth : Nat) {told : List Told} {s s' : σ} {maxRecordId : RecordId}
    (hfit : ∀ op ∈ Told.ops blobWanted told, op.Fits)
    (hfloat : ∀ op ∈ Told.ops blobWanted told, op.FloatsReturn X)
    (hstart : T.readable s = .create maxRecordId)
    (hsay : Database.SayAll T.maxRecordId (Told.ops blobWanted told) (.create maxRecordId))
    (hrun : T.writable.callAll (Told.ops blobWanted told) s = .ok () s') (b : Bool) :
    ∃ b', Shell.mainLoop T X rethrow depth (dump X.floatText blobWanted told) ⟨s, b⟩
      = .ok () ⟨s', b'⟩ := by
  rw [← hstart] at hsay
  have hproper : (T.readable s).Proper := hstart ▸ Database.proper_create maxRecordId
  have htwins : Database.Twins (T.readable s) (.create (-1)) := hstart ▸ twins_create maxRecordId
  refine Shell.Brings.mainLoop (fun includeText => ?_) b
  obtain ⟨schema, text, htold, -, hbrings⟩ := Told.brings (d := create (-1)) hT tracks_schema hfit
    hfloat hsay hrun hproper htwins
  rw [dump, after_ok htold]
  exact hbrings

/-- What was told to a dump is told again to whatever is behind a new database, if it takes it,
and the database is what it was then. -/
theorem dump_mainLoop (X : Surroundings) {ν : Type} (V : Writable ν)
    (flush hardCheckpoint : EStateM Exn ν Unit) (limit maxRecordId : RecordId)
    (rethrow blobWanted : Bool) (depth : Nat) (told : List Told) {v v' : ν} {db' : Database}
    (hfit : ∀ op ∈ Told.ops blobWanted told, op.Fits)
    (hfloat : ∀ op ∈ Told.ops blobWanted told, op.FloatsReturn X)
    (hsay : Database.SayAll limit (Told.ops blobWanted told) (.create maxRecordId))
    (hrun : (Multiplexer.asWritable Database.asWritable V).callAll (Told.ops blobWanted told)
      (.create maxRecordId, v) = .ok () (db', v')) (b : Bool) :
    ∃ b', Shell.mainLoop (.ofDatabase V flush hardCheckpoint limit) X rethrow depth
      (dump X.floatText blobWanted told) ⟨(.create maxRecordId, v), b⟩
        = .ok () ⟨(db', v'), b'⟩ :=
  mainLoop_dump (Target.follows_ofDatabase V flush hardCheckpoint limit) X rethrow blobWanted depth
    hfit hfloat rfl hsay hrun b

/-- A stream that knows one number, a half, and a clock that stands still. -/
def halfReading : Surroundings where
  floats := {
    float32 := fun s => ((0x3f000000#32), (Input.readWord ⟨s, false⟩).2)
    float64 := fun s => ((0x3fe0000000000000#64), (Input.readWord ⟨s, false⟩).2) }
  floatText := SqlDump.halfText
  now := 0
  files _ := none

theorem returns_half : Ty.float64.FloatReturns halfReading (0x3fe0000000000000#64) := by
  have hword : IsWord (ascii "0.5") := by decide
  refine ⟨hword, fun s hs => ?_⟩
  have hread := (Input.readsBack_word hword).read s hs
  show ((0x3fe0000000000000#64), (Input.readWord ⟨32 :: (ascii "0.5" ++ s), false⟩).2) = _
  rw [hread]

/-- A table that refers to itself, is filled and renamed, and is dropped in the end. -/
def person : List Op :=
  [.createTable (ascii "person"), .addField 1 (ascii "name") (.plain 1),
    .addField 1 (ascii "friend") (.reference 1), .addField 1 (ascii "height") (.plain 7),
    .custom [], .insertVector 1 0 2, .update .string 1 1 1 ⟨ascii "a \"\nb", rfl⟩,
    .writeBlob (ascii "x y"), .updateVector .reference 1 0 2 [(1 : Int), (0 : Int)],
    .update .float64 1 0 3 ⟨0x3fe0000000000000#64, rfl⟩, .comment (ascii "# one\n# two"),
    .timestamp 3600, .validData, .renameTable 1 (ascii "human"), .deleteFrom 1 0, .dropTable 1]

/-- The same with a comment and an empty line before it. -/
def toldPerson : List Told := [.onBlob ⟨41, 3⟩, .softCheckpoint] ++ person.map .call

theorem fits_person : ∀ op ∈ person, op.Fits := by
  have hsize : ∀ {n : Nat}, n < 2 ^ 61 → SizeFits n := id
  have hid : ∀ {r : Int}, -1 ≤ r ∧ r < 2 ^ 61 - 1 → IdFits r := id
  have hpair : ∀ v ∈ [(1 : Int), (0 : Int)], IdFits v :=
    List.forall_mem_cons.mpr ⟨hid (by decide), List.forall_mem_singleton.mpr (hid (by decide))⟩
  simp only [person, List.forall_mem_cons, List.not_mem_nil, false_implies, implies_true, and_true]
  exact ⟨hsize (by decide), hsize (by decide), hsize (by decide), hsize (by decide),
    hsize (by decide), ⟨hid (by decide), hsize (by decide)⟩, ⟨hid (by decide), hsize (by decide)⟩,
    hsize (by decide), ⟨hid (by decide), hsize (by decide), hpair⟩,
    ⟨hid (r := 0) (by decide), trivial⟩, hsize (by decide), trivial, trivial, hsize (by decide),
    hid (r := 0) (by decide), trivial⟩

theorem floatsReturn_person : ∀ op ∈ person, op.FloatsReturn halfReading := by
  simp only [person, List.forall_mem_cons, List.not_mem_nil, false_implies, implies_true, and_true]
  exact ⟨trivial, trivial, trivial, trivial, trivial, trivial, trivial, trivial,
    fun _ _ => trivial, returns_half, trivial, trivial, trivial, trivial, trivial, trivial⟩

theorem taken_person : ∃ db', Database.asWritable.callAll person (.create (-1)) = .ok () db' :=
  exists_of_run' (a := ()) (by decide +kernel)

theorem dump_mainLoop_person : ∃ db' b',
    Shell.mainLoop (.ofDatabase recorder (pure ()) (pure ()) (-1)) halfReading true 42
      (dump halfReading.floatText true toldPerson) ⟨(.create (-1), []), true⟩
        = .ok () ⟨(db', person), b'⟩ := by
  obtain ⟨db', htaken⟩ := taken_person
  have hboth : (Target.recording (-1)).writable.callAll person (.create (-1), [])
      = .ok () (db', person) := Target.callAll_recording htaken []
  exact ⟨db', dump_mainLoop halfReading recorder (pure ()) (pure ()) (-1) (-1) true true 42
    toldPerson fits_person floatsReturn_person (by decide +kernel) hboth true⟩

end InterpreterDump

end Joedb
