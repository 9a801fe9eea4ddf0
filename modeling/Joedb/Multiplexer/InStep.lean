import Joedb.Interpreted.Ranges
import Joedb.Multiplexer.Reserves
import Joedb.Packing.Pack
import Joedb.Journal.RoundTrip

/-!
# A database and its journal in step

A `Multiplexer` tells every operation to the tables in memory first, which check it, and then to
the journal. What the tables refuse the journal never hears of, so for the two to stay in step
the tables must be as they were: a caller who catches the exception goes on with them.

They are, but for columns that are longer than before, as long as no exception comes from behind
a change that counts. Three do. The constructor of a field throws when its id was given already.
An insertion of a vector at the end of a table makes the keeper larger before the columns, and
one further behind inserts its records one by one. All three are a `length_error`, for a table
that has more records than a column of the type can have values.
-/

namespace Joedb

open ByteFile Containers StateExcept

/-! ## Live and heard -/

namespace Database

variable {db db' : Database}

/-- What a database was told and took, it takes from a reader. -/
theorem hear_of_call (h : db.Sound) {op : Op} (hdb : call op db = .ok () db') :
    asWritable.hear op db = .ok () db' ∧ op.Readable := by
  cases op with
  | updateVector ty tableId recordId fieldId values =>
      obtain ⟨t, t', hfind, hrun, rfl⟩ := withTable_ok hdb
      by_cases hempty : values.length = 0
      · obtain ⟨_, t₁, hfield, hrest⟩ := bind_eq_ok hrun
        obtain rfl := Table.withField_pure hfield
        rw [if_pos hempty] at hrest
        obtain rfl := (EStateM.Result.ok.inj hrest).2
        rw [assign_self hfind, Writable.hear_updateVector, when_neg (not_not_intro hempty)]
        exact ⟨rfl, .inl hempty⟩
      · have hvalues : values ≠ [] := mt List.length_eq_zero_iff.mpr hempty
        obtain ⟨hfirst, hlast, f, f', xs, hfield, hcolumn, -⟩ :=
          Table.updateVector_run hvalues hrun
        obtain ⟨f', -, -, hupdate, hhear⟩ := updateVector_heard tableId
          (h.sound tableId t hfind) hfield hcolumn hempty fun _ => ⟨hfirst, hlast⟩
        obtain ⟨-, rfl⟩ := EStateM.Result.ok.inj (hrun.symm.trans hupdate)
        exact ⟨hhear hfind, .inr (FreedomKeeper.lt_of_isUsed hfirst).1⟩
  | writeBlob data =>
      obtain rfl := (EStateM.Result.ok.inj hdb).2
      exact ⟨rfl, trivial⟩
  | _ => exact ⟨hdb, trivial⟩

theorem Encodable.fits {op : Op} (h : db.Encodable op) (hdb : call op db = .ok () db') :
    op.Fits := by
  cases op with
  | insertVector tableId recordId size =>
      obtain ⟨hid, hsize⟩ := h
      rw [call, Database.insertVector, get_bind_run] at hdb
      obtain ⟨hout, hdb⟩ := guard_bind_eq_ok.mp hdb
      obtain ⟨t, t', hfind, hrun, -⟩ := withTable_ok hdb
      exact ⟨hid, hsize (fun hge => not_not.mp fun hlt => hout ⟨hge, hlt⟩) t hfind
        (Table.insertVector_ok_free hrun)⟩
  | deleteVector tableId recordId size =>
      obtain ⟨hid, hsize⟩ := h
      obtain ⟨t, t', hfind, hrun, -⟩ := withTable_ok hdb
      rw [Table.deleteVector, get_bind_run] at hrun
      obtain ⟨hused, -⟩ := guard_bind_eq_ok.mp hrun
      exact ⟨hid, hsize t hfind (Bool.of_not_eq_false hused)⟩
  | _ => exact h

/-- What is cut off is behind the last record. -/
theorem same_trim (db : Database) : Same db db.trim := by
  refine ⟨rfl, fun tableId => ?_⟩
  rw [find_trim]
  cases find db.tables tableId with
  | none => exact .none
  | some t =>
      refine .some ⟨rfl, fun fieldId => ?_, rfl, fun fieldId i hi => ?_⟩
      · rw [Table.find_trim, Option.map_map]
        rfl
      · rw [Table.value, Table.value, Table.find_trim]
        cases find t.fields fieldId with
        | none => rfl
        | some f => exact Field.value_trim hi f

end Database

/-! ## Runs -/

namespace Multiplexer

/-- What may be asked of a database and a journal together. -/
inductive Asked where
  | perform (op : Op)
  | flush
  | softCheckpoint
  | hardCheckpoint

/-- The caller catches what is thrown, and goes on. -/
def ask (s : Database × Journal) : Asked → Database × Journal
  | .perform op => after ((asWritable Database.asWritable Journal.asWritable).call op) s
  | .flush => (s.1, s.2.flush)
  | .softCheckpoint => after (asWritable Database.asWritable Journal.asWritable).softCheckpoint s
  | .hardCheckpoint => (s.1, s.2.hardCheckpoint)

/-- The numbers of an operation fit into what is written, the file ends before `last_position`,
and nothing is changed before a vector throws. -/
def Allowed (s : Database × Journal) : Asked → Prop
  | .perform op => s.1.Encodable op ∧
      s.2.getPosition + (abbreviate s.2.context op).bytes.length < 2 ^ 63 ∧ s.1.Whole op
  | _ => True

def askAll (s : Database × Journal) (asked : List Asked) : Database × Journal :=
  asked.foldl ask s

def AllAllowed : Database × Journal → List Asked → Prop
  | _, [] => True
  | s, a :: asked => Allowed s a ∧ AllAllowed (ask s a) asked

/-- The database first, and the journal only if it did not throw. -/
theorem ask_perform (db : Database) (j : Journal) (op : Op) :
    ask (db, j) (.perform op) = match Database.call op db with
      | .ok _ db' => (db', j.perform op)
      | .error _ db' => (db', j) := by
  have hboth : ∀ op : Op, (∀ data, op ≠ .writeBlob data) →
      (asWritable Database.asWritable Journal.asWritable).call op
        = both (Database.call op) (modify (·.perform op)) := by
    intro op hop
    cases op with
    | writeBlob data => exact absurd rfl (hop data)
    | _ => rfl
  by_cases hblob : ∃ data, op = .writeBlob data
  · obtain ⟨data, rfl⟩ := hblob
    rfl
  · rw [ask, hboth op fun data heq => hblob ⟨data, heq⟩, after, both]
    cases hdb : Database.call op db with
    | ok u db' =>
        have hfst : fst (Database.call op) (db, j)
            = (.ok () (db', j) : EStateM.Result Exn (Database × Journal) Unit) := onPart_ok hdb
        rw [bind_ok hfst]
        rfl
    | error e db' =>
        have hfst : fst (Database.call op) (db, j)
            = (.error e (db', j) : EStateM.Result Exn (Database × Journal) Unit) := onPart_error hdb
        rw [bind_error hfst]

/-- The journal is one of the operations that a replay takes, and they give what counts of the
database. -/
structure InStep (maxRecordId : RecordId) (s : Database × Journal) : Prop where
  spare : s.1.Spare
  heard : ∃ h : History, h.Reach ∧ h.journal = s.2 ∧
    Database.asWritable.hearAll h.ops (.create maxRecordId) = .ok () s.1.trim

variable {maxRecordId : RecordId}

/-- What is done to the journal alone. -/
theorem InStep.journal {db : Database} {j j' : Journal} (h : InStep maxRecordId (db, j))
    (hstep : ∀ h : History, h.Reach → h.journal = j → ∃ h' : History, h'.Reach ∧
      h'.journal = j' ∧ h'.ops = h.ops) : InStep maxRecordId (db, j') := by
  obtain ⟨hist, hreach, hjournal, hheard⟩ := h.heard
  obtain ⟨hist', hreach', hjournal', hops⟩ := hstep hist hreach hjournal
  exact ⟨h.spare, hist', hreach', hjournal', by rw [hops]; exact hheard⟩

theorem InStep.softCheckpoint {db : Database} {j : Journal} (h : InStep maxRecordId (db, j)) :
    ∃ h : History, h.Reach ∧ h.journal = j.softCheckpoint ∧ h.checkpointed = h.ops.length ∧
      Database.asWritable.hearAll h.ops (.create maxRecordId) = .ok () db.trim := by
  obtain ⟨hist, hreach, hjournal, hheard⟩ := h.heard
  refine ⟨_, hreach.step (a := .softCheckpoint) trivial rfl, ?_, rfl, hheard⟩
  exact congrArg Journal.softCheckpoint hjournal

theorem InStep.ask {s : Database × Journal} (h : InStep maxRecordId s) {a : Asked}
    (ha : Allowed s a) : InStep maxRecordId (ask s a) := by
  obtain ⟨db, j⟩ := s
  cases a with
  | flush =>
      refine h.journal fun hist hreach hjournal => ?_
      exact ⟨_, hreach.step (a := .flush) trivial rfl, congrArg Journal.flush hjournal, rfl⟩
  | softCheckpoint =>
      obtain ⟨hist, hreach, hjournal, -, hheard⟩ := h.softCheckpoint
      exact ⟨h.spare, hist, hreach, hjournal, hheard⟩
  | hardCheckpoint =>
      refine h.journal fun hist hreach hjournal => ?_
      exact ⟨_, hreach.step (a := .hardCheckpoint) trivial rfl,
        congrArg Journal.hardCheckpoint hjournal, rfl⟩
  | perform op =>
      obtain ⟨hencodable, hbound, hwhole⟩ := ha
      obtain ⟨hok, herror⟩ := Database.commutes_call h.spare hencodable hwhole
      rw [ask_perform]
      cases hdb : Database.call op db with
      | error e db' =>
          obtain ⟨hcut, hspare⟩ := herror e db' hdb
          obtain ⟨hist, hreach, hjournal, hheard⟩ := h.heard
          exact ⟨hspare, hist, hreach, hjournal, by rw [hheard, hcut]⟩
      | ok u db' =>
          obtain ⟨htrim, hspare⟩ := hok db' hdb
          obtain ⟨hist, hreach, hjournal, hheard⟩ := h.heard
          have hsound := ((Database.sound_create maxRecordId).hearAll hheard).1
          obtain ⟨hhear, hread⟩ := Database.hear_of_call hsound htrim
          have hjournal : hist.journal = j := hjournal
          refine ⟨hspare, _, hreach.step (a := .perform op) ⟨hencodable.fits hdb, hread, ?_⟩ rfl,
            ?_, Writable.hearAll_snoc _ hheard hhear⟩
          · rw [hjournal]
            exact hbound
          · show hist.journal.perform op = _
            rw [hjournal]

theorem InStep.askAll {s : Database × Journal} (h : InStep maxRecordId s) {asked : List Asked}
    (hall : AllAllowed s asked) : InStep maxRecordId (askAll s asked) := by
  induction asked generalizing s with
  | nil => exact h
  | cons a asked ih => exact ih (h.ask hall.1) hall.2

theorem inStep_create {file : File} {recovery : Recovery} {j : Journal} (hempty : file.data = [])
    (hmode : file.isReadonly = false) (hopen : Journal.openWritable file recovery = .ok j) :
    InStep maxRecordId (.create maxRecordId, j) :=
  ⟨fun _ he => (nomatch he), _, .create file recovery hempty hmode hopen, rfl, rfl⟩

/-- Replaying the journal at any moment gives what is in memory. -/
theorem replay_in_step (maxRecordId : RecordId) {file : File} {recovery : Recovery} {j : Journal}
    (hempty : file.data = []) (hmode : file.isReadonly = false)
    (hopen : Journal.openWritable file recovery = .ok j) {asked : List Asked}
    (hall : AllAllowed (.create maxRecordId, j) asked) (reads : Pread) :
    ∃ r, replayInto Database.asWritable (.create maxRecordId)
        { (askAll (.create maxRecordId, j) asked).2.softCheckpoint.file with
          mode := .readExisting, reads := reads } = .ok r ∧
      Database.Same (askAll (.create maxRecordId, j) asked).1 r.writable := by
  obtain ⟨hist, hreach, hjournal, hcheckpointed, hheard⟩ :=
    ((inStep_create hempty hmode hopen).askAll hall).softCheckpoint
  obtain ⟨r, hreplay, hwritable⟩ := replayInto_of_heard Database.asWritable_passive hreach reads
    (by rw [hcheckpointed, List.take_length]; exact hheard)
  refine ⟨r, ?_, hwritable ▸ Database.same_trim _⟩
  have hjournal : hist.journal = (askAll (.create maxRecordId, j) asked).2.softCheckpoint :=
    hjournal
  rw [← hjournal]
  exact hreplay

/-- The second insertion is refused. -/
def insertedTwice : List Asked :=
  [.perform (.createTable [0x74]), .perform (.insertInto 1 0), .softCheckpoint,
    .perform (.insertInto 1 0), .perform (.deleteFrom 1 0)]

theorem replay_in_step_twice :
    ∃ j, Journal.openWritable .empty .none = .ok j ∧
      ∃ r, replayInto Database.asWritable (.create (-1))
          { (askAll (.create (-1), j) insertedTwice).2.softCheckpoint.file with
            mode := .readExisting, reads := .whole } = .ok r ∧
        Database.Same (askAll (.create (-1), j) insertedTwice).1 r.writable := by
  refine ⟨_, rfl, replay_in_step (-1) rfl rfl
    (show Journal.openWritable .empty .none = .ok _ from rfl) ?_ .whole⟩
  exact ⟨⟨(by decide : 1 < 2 ^ 61), by decide +kernel, trivial⟩,
    ⟨⟨by decide, by decide⟩, by decide +kernel, trivial⟩, trivial,
    ⟨⟨by decide, by decide⟩, by decide +kernel, trivial⟩,
    ⟨⟨by decide, by decide⟩, by decide +kernel, trivial⟩, trivial⟩

/-- A field of strings is refused in a table of 2^58 records, and one without values is not. -/
def refusedField : List Asked :=
  [.perform (.createTable [0x74]), .perform (.insertVector 1 0 (2 ^ 58)),
    .perform (.addField 1 [0x61] (.plain (Ty.typeId .string))),
    .perform (.addField 1 [0x62] (.plain 0)), .perform (.renameField 1 2 [0x63])]

/-- The id of the field that was refused was given, so in memory the next one is the second
field, which a replay does not find. -/
theorem refusedField_not_replayed :
    ∃ j, Journal.openWritable .empty .none = .ok j ∧
      (find (askAll (.create (-1), j) refusedField).1.tables 1).map (·.fieldNames)
        = some [(2, [0x63])] ∧
      ∀ r, replayInto Database.asWritable (.create (-1))
        (askAll (.create (-1), j) refusedField).2.softCheckpoint.file ≠ .ok r := by
  refine ⟨_, rfl, by decide +kernel, fun r hreplay => ?_⟩
  refine absurd (congrArg (fun result => result.toOption.isNone) hreplay) ?_
  show ¬ _ = false
  decide +kernel

end Multiplexer

end Joedb
