import Joedb.Interpreted.DatabaseSpec
import Joedb.Journal.RoundTrip
import Joedb.Packing.Pack

/-!
# What is heard while packing

The database hears every operation, as if it were alone. The schema operations that it
does not refuse are called of the `Writable` behind it, in their order, and of a blob
there is a note.
-/

namespace Joedb

open ByteFile Containers StateExcept FileBuffer Replay

/-! ## Two listeners -/

/-- The operations that `Mode::schema` passes on. -/
def Op.isSchema (op : Op) : Bool := op.modeBit = Mode.schema

def Op.isBlob : Op → Bool
  | writeBlob _ => true
  | _ => false

/-- The `Writable` never throws. -/
def Writable.Takes {ω : Type} (W : Writable ω) (g : ω → Op → ω) : Prop :=
  ∀ op w, W.call op w = .ok () (g w op)

namespace SelectiveWritable

variable {ω : Type} {W : Writable ω} {g : ω → Op → ω}

/-- What an operation leaves, with the schema selected. -/
def overheard (g : ω → Op → ω) (s : SelectiveWritable ω) (op : Op) : SelectiveWritable ω :=
  ⟨if op.isSchema then g s.writable op else s.writable, s.blobFound || op.isBlob⟩

@[simp] theorem overheard_updateVector (s : SelectiveWritable ω) (ty : Ty) (t : TableId)
    (r : RecordId) (f : FieldId) (vs : List ty.Storage) :
    overheard g s (.updateVector ty t r f vs) = s := by
  obtain ⟨w, found⟩ := s
  exact congrArg (SelectiveWritable.mk w) (Bool.or_false found)

theorem modeBit_schema (op : Op) :
    Mode.schema &&& op.modeBit ≠ 0 ↔ op.isSchema = true := by
  have hcases : op.modeBit = Mode.schema ∨ op.modeBit = Mode.data
      ∨ op.modeBit = Mode.information := by
    cases op <;> simp [Op.modeBit]
  rw [Op.isSchema, decide_eq_true_iff]
  obtain hbit | hbit | hbit := hcases <;> rw [hbit] <;> decide

theorem select_schema (hW : W.Takes g) {op : Op} (hblob : op.isBlob = false)
    (s : SelectiveWritable ω) : select W Mode.schema op s = .ok () (overheard g s op) := by
  have hbit : Mode.schema &&& op.modeBit ≠ 0 ↔ op.isSchema = true := modeBit_schema op
  rw [select, overheard, hblob, Bool.or_false]
  by_cases hschema : op.isSchema = true
  · rw [when_pos (hbit.mpr hschema), if_pos hschema]
    exact onPart_ok (hW op s.writable)
  · rw [when_neg fun h => hschema (hbit.mp h), if_neg hschema]
    rfl

theorem updateEach_schema (ty : Ty) (tableId : TableId) (fieldId : FieldId)
    (recordId : RecordId) (vs : List ty.Storage) :
    updateEach W Mode.schema ty tableId fieldId recordId vs = pure () := by
  induction vs generalizing recordId with
  | nil => rfl
  | cons v vs ih =>
      funext s
      have hskip : select W Mode.schema (.update ty tableId recordId fieldId (ty.toArg v)) s
          = .ok () s := by
        have hbit : ¬ Mode.schema &&& Mode.data ≠ 0 := by decide
        exact congrFun (when_neg hbit _) s
      rw [updateEach, bind_ok hskip, ih]

end SelectiveWritable

open SelectiveWritable

section Listening

variable {ω : Type} {W : Writable ω} {g : ω → Op → ω}

/-- The result of what a database does, beside something that does not throw. -/
def besides (r : EStateM.Result Exn Database Unit) (s s' : SelectiveWritable ω) :
    EStateM.Result Exn (Database × SelectiveWritable ω) Unit :=
  match r with
  | .ok _ db => .ok () (db, s')
  | .error e db => .error e (db, s)

theorem call_packInto (hW : W.Takes g) {op : Op} (hblob : op.isBlob = false) (db : Database)
    (s : SelectiveWritable ω) :
    (packInto W).call op (db, s) = besides (Database.call op db) s (overheard g s op) := by
  have hcall : (packInto W).call op
      = Multiplexer.both (Database.call op) (SelectiveWritable.call W Mode.schema op) := by
    cases op <;> rfl
  have hsnd : SelectiveWritable.call W Mode.schema op s = .ok () (overheard g s op) := by
    cases op with
    | writeBlob data => cases hblob
    | updateVector ty t r f vs =>
        rw [SelectiveWritable.call, updateEach_schema, overheard_updateVector]
        rfl
    | _ => exact select_schema hW rfl s
  rw [hcall, Multiplexer.both]
  cases hdb : Database.call op db with
  | error e db' =>
      exact bind_error (onPart_error hdb)
  | ok u db' =>
      have hfst : Multiplexer.fst (Database.call op) (db, s)
          = (.ok () (db', s) : EStateM.Result Exn (Database × SelectiveWritable ω) Unit) :=
        onPart_ok hdb
      rw [bind_ok hfst]
      exact onPart_ok hsnd

theorem hearVector_packInto (hW : W.Takes g) (ty : Ty) (t : TableId) (r : RecordId)
    (f : FieldId) (vs : List ty.Storage) (db : Database) (s : SelectiveWritable ω) :
    (packInto W).hearVector ty t r f vs (db, s)
      = besides (Database.asWritable.hearVector ty t r f vs db) s s := by
  have hcall := fun db' =>
    call_packInto hW (show Op.isBlob (.updateVector ty t r f vs) = false from rfl) db' s
  rw [overheard_updateVector] at hcall
  rw [Writable.hearVector, Writable.hearVector]
  cases hown : Database.asWritable.ownStorage ty t f db with
  | error e db' =>
      have hpair : (packInto W).ownStorage ty t f (db, s) = .error e (db', s) :=
        bind_error (onPart_error hown)
      rw [bind_error hpair, bind_error hown]
      rfl
  | ok capacity db' =>
      obtain rfl := Database.ownStorage_ok hown
      have hpair : (packInto W).ownStorage ty t f (db', s) = .ok capacity (db', s) := by
        have hfst : Multiplexer.fst (Database.asWritable.ownStorage ty t f) (db', s)
            = (.ok capacity (db', s) :
              EStateM.Result Exn (Database × SelectiveWritable ω) (Option Nat)) :=
          onPart_ok hown
        show (Multiplexer.ownStorage Database.asWritable
          (SelectiveWritable.asWritable W Mode.schema) ty t f) (db', s) = _
        rw [Multiplexer.ownStorage, bind_ok hfst]
        cases capacity <;> rfl
      rw [bind_ok hpair, bind_ok hown]
      by_cases hrange : r < 0 ∨ (∃ n ∈ capacity, r > n ∨ vs.length > n - r)
      · rw [when_pos hrange, when_pos hrange]
        rfl
      · rw [when_neg hrange, when_neg hrange, pure_bind_run, pure_bind_run]
        cases capacity with
        | none => exact hcall db'
        | some n =>
            have hsome : (some n).isSome = true := rfl
            rw [when_pos hsome, when_pos hsome, modify_bind_run, modify_bind_run]
            have hstore : (packInto W).storeOwn ty t f r.toNat vs (db', s)
                = (Database.asWritable.storeOwn ty t f r.toNat vs db', s) := by
              show Multiplexer.storeOwn Database.asWritable _ ty t f r.toNat vs (db', s) = _
              rw [Multiplexer.storeOwn, hown]
            rw [hstore]
            exact hcall _

/-- The database hears, and the rest overhears what it does not refuse. -/
theorem listen_packInto (hW : W.Takes g) (op : Op) (db : Database) (s : SelectiveWritable ω) :
    (packInto W).listen op (db, s)
      = besides (Database.asWritable.hear op db) s (overheard g s op) := by
  cases op with
  | writeBlob data =>
      show EStateM.Result.ok () (db, (⟨s.writable, true⟩ : SelectiveWritable ω))
        = .ok () (db, ⟨s.writable, s.blobFound || true⟩)
      rw [Bool.or_true]
  | updateVector ty t r f vs =>
      rw [overheard_updateVector, Writable.hear_updateVector]
      show (packInto W).hear (.updateVector ty t r f vs) (db, s) = _
      rw [Writable.hear_updateVector]
      by_cases hempty : vs.length = 0
      · rw [when_neg (not_not_intro hempty), when_neg (not_not_intro hempty)]
        rfl
      · rw [when_pos hempty, when_pos hempty]
        exact hearVector_packInto hW ty t r f vs db s
  | _ => exact call_packInto hW rfl db s

theorem listenAll_packInto (hW : W.Takes g) {ops : List Op} {db db' : Database}
    (hdb : Database.asWritable.hearAll ops db = .ok () db') (s : SelectiveWritable ω) :
    (packInto W).listenAll ops (db, s) = .ok () (db', ops.foldl (overheard g) s) := by
  induction ops generalizing db s with
  | nil =>
      obtain rfl := (EStateM.Result.ok.inj hdb).2
      rfl
  | cons op ops ih =>
      obtain ⟨_, db₁, hop, hops⟩ := bind_eq_ok hdb
      have hlisten : (packInto W).listen op (db, s) = .ok () (db₁, overheard g s op) := by
        rw [listen_packInto hW, hop]
        rfl
      rw [Writable.listenAll, bind_ok hlisten]
      exact ih hops _

theorem foldl_overheard (ops : List Op) (s : SelectiveWritable ω) :
    ops.foldl (overheard g) s
      = ⟨(ops.filter Op.isSchema).foldl g s.writable, s.blobFound || ops.any Op.isBlob⟩ := by
  induction ops generalizing s with
  | nil => rw [List.any_nil, Bool.or_false]; rfl
  | cons op ops ih =>
      rw [List.foldl_cons, ih, List.any_cons, ← Bool.or_assoc]
      by_cases hschema : op.isSchema = true
      · rw [List.filter_cons_of_pos hschema, overheard, if_pos hschema]
        rfl
      · rw [List.filter_cons_of_neg hschema, overheard, if_neg hschema]

end Listening

/-! ## A file -/

/-- The raw replay of a file into a `Writable` that does not mind where a blob lies. -/
theorem rawPlay_of_listened {ω : Type} {W : Writable ω}
    (hblob : ∀ blob, W.onBlob blob = W.onBlob ⟨0, 0⟩) {h : History} (hr : h.Reach)
    (reads : Pread) {w w' : ω}
    (hlisten : W.listenAll (h.ops.take h.checkpointed) w = .ok () w') :
    ∃ j j', Journal.openReadonly (h.readBy reads) .none false = .ok j ∧
      rawPlayUntilCheckpoint W ⟨j, w⟩ = .ok () ⟨j', w'⟩ := by
  have hgood := hr.good
  obtain ⟨j, hopen, hj⟩ := Journal.openReadonly_opened
    (show HasHeader (h.readBy reads).data from hgood.header) hgood.agrees
    hgood.checkpoint_le_length .none (by decide) false
  have hpos : j.getPosition = headerSize := hj.idle.getPosition.trans hj.position
  have hbody := hgood.checkpoint_body
  have hlen : j.getCheckpoint = headerSize
      + (wiresBytes (encodeAll .reset (h.ops.take h.checkpointed))).length :=
    hj.checkpoint.trans hgood.checkpoint
  have hfit : ∀ w ∈ encodeAll .reset (h.ops.take h.checkpointed), w.Fits :=
    encodeAll_fits (fun op hop => hgood.fits op (List.mem_of_mem_take hop)) .reset
  have hrun := runAll_listens hblob (encodeAll .reset (h.ops.take h.checkpointed))
    (t := ⟨j, w⟩) headerSize (show _ ≤ j.getCheckpoint by omega)
  rw [show Replay.context ⟨j, w⟩ = .reset from hj.context, decodeAll_encodeAll, Tells] at hrun
  simp only [hlisten] at hrun
  obtain ⟨b, -, hplay⟩ := rawPlayUntil_runs (W := W) (t := ⟨j, w⟩) hfit hlen
    (Nat.le_refl _) j.fileBuffer ⟨hj.idle.reading, hpos⟩ (by
      show _ <+: j.file.data.drop headerSize
      rw [prefix_drop_iff_slice, hj.file_eq, ← hlen, hj.checkpoint]
      exact hbody)
  rw [hrun] at hplay
  exact ⟨j, _, hopen, hplay.1⟩

end Joedb
