import Joedb.Compiled.Reopening

/-!
# Calls that throw

A generated function changes its tables, and then writes to the journal. What throws
in between leaves the journal as it was, so memory must be as it was too: the
functions look at the record before they touch anything. There are two that do
not. A vector is deleted record by record, from the last to the first, and each is
looked at when its turn comes; an id that is a sum may have wrapped around, and is
deleted as well. And the values of a vector update are in the column
before anyone looks at the records, because the caller writes them there; the caller
may also throw, with some of them written.

So it is the record that is missing in the middle of a deleted vector, and the
vector update that does not go through, that leave memory ahead of the journal. What
the indexes throw is another matter, and is kept apart.
-/

namespace Joedb.Compiled

open ByteFile Containers StateExcept

/-! ## What the indexes throw -/

namespace Index

@[simp] theorem unique_remove (recordId : RecordId) (ix : Index) :
    (ix.remove recordId).unique = ix.unique := by
  rw [remove]
  split
  · rfl
  · rfl

@[simp] theorem unique_removeAll (recordId : RecordId) (size : Nat) (ix : Index) :
    (ix.removeAll recordId size).unique = ix.unique := by
  induction size generalizing recordId ix with
  | zero => rfl
  | succ size ih => rw [removeAll, ih, unique_remove]

theorem add_spec (columns : List (FieldId × Column)) (recordId : RecordId) (ix : Index) :
    (ix.add columns recordId).1.unique = ix.unique ∧
      ((ix.add columns recordId).2 ≠ none → ix.unique = true) := by
  rw [add]
  split
  · next old heq =>
      refine ⟨rfl, fun _ => ?_⟩
      by_cases hunique : ix.unique = true
      · exact hunique
      · rw [if_neg hunique] at heq
        cases heq
  · exact ⟨rfl, fun h => absurd rfl h⟩

theorem addAll_unique {columns : List (FieldId × Column)} {recordId : RecordId} {size : Nat}
    {ix : Index} (h : (ix.addAll columns recordId size).2 ≠ none) : ix.unique = true := by
  induction size generalizing recordId ix with
  | zero => exact absurd rfl h
  | succ size ih =>
      obtain ⟨hsame, hfail⟩ := add_spec columns recordId ix
      rw [addAll] at h
      cases hadd : ix.add columns recordId with
      | mk ix' thrown =>
          rw [hadd] at h hsame hfail
          cases thrown with
          | none => exact hsame.symm.trans (ih h)
          | some e => exact hfail (fun h => (by cases h))

theorem trigger_unique {fieldId : FieldId} {g : Index → Index × Option Exn}
    (hg : ∀ ix, (g ix).2 ≠ none → ix.unique = true) {ixs : List Index}
    (h : (trigger fieldId g ixs).2 ≠ none) : ∃ ix ∈ ixs, ix.unique = true := by
  induction ixs with
  | nil => exact absurd rfl h
  | cons ix ixs ih =>
      have hrest : (trigger fieldId g ixs).2 ≠ none → ∃ ix' ∈ ix :: ixs, ix'.unique = true := by
        intro h
        obtain ⟨ix', hmem, hunique⟩ := ih h
        exact ⟨ix', List.mem_cons_of_mem _ hmem, hunique⟩
      rw [trigger] at h
      split at h
      · have hfail := hg ix
        cases hgix : g ix with
        | mk ix' thrown =>
            rw [hgix] at h hfail
            cases thrown with
            | none => exact hrest h
            | some e => exact ⟨ix, List.mem_cons_self, hfail (fun h => (by cases h))⟩
      · exact hrest h

end Index

namespace Storage

variable {st st' : Storage}

theorem triggerIndexes_error {fieldId : FieldId}
    {g : List (FieldId × Column) → Index → Index × Option Exn}
    (hg : ∀ ix, (g st.columns ix).2 ≠ none → ix.unique = true) {e : Exn}
    (hrun : triggerIndexes fieldId g st = .error e st') : ∃ ix ∈ st.indexes, ix.unique = true := by
  rw [triggerIndexes, get_bind_run] at hrun
  have hthrown : (Index.trigger fieldId (g st.columns) st.indexes).2 ≠ none := by
    intro h
    rw [h] at hrun
    cases hrun
  exact Index.trigger_unique hg hthrown

/-- An update of a record that is there throws over a unique index. -/
theorem internalUpdate_unique {ty : Ty} {recordId : RecordId} {fieldId : FieldId}
    {value : ty.Arg} {e : Exn} (hused : st.freedom.isUsed recordId = true)
    (hrun : internalUpdate ty recordId fieldId value st = .error e st') :
    ∃ ix ∈ st.indexes, ix.unique = true := by
  rw [internalUpdate, get_bind_run, when_neg (by rw [hused]; decide), pure_bind_run,
    modify_bind_run] at hrun
  have hunique := triggerIndexes_error
    (fun ix h => Index.unique_remove recordId ix ▸ (Index.add_spec _ recordId _).2 h) hrun
  exact hunique

theorem internalUpdateVector_unique {ty : Ty} {recordId : RecordId} {fieldId : FieldId}
    {values : List ty.Storage} {e : Exn}
    (hused : st.freedom.isUsedVector recordId values.length = true)
    (hrun : internalUpdateVector ty recordId fieldId values st = .error e st') :
    ∃ ix ∈ st.indexes, ix.unique = true := by
  rw [internalUpdateVector, get_bind_run, when_neg (by rw [hused]; decide), pure_bind_run,
    modify_bind_run] at hrun
  have hunique := triggerIndexes_error
    (fun ix h => Index.unique_removeAll recordId _ ix ▸ Index.addAll_unique h) hrun
  exact hunique

/-! ## Writing what is there -/

/-- What a vector update would write is there already. -/
def AlreadyThere (ty : Ty) (fieldId : FieldId) (recordId : Nat) (values : List ty.Storage)
    (st : Storage) : Prop :=
  ∀ c ∈ st.columns, c.1 = fieldId → c.2.ty = ty → ∀ (k : Nat) (v : ty.Storage),
    values[k]? = some v → recordId + k < c.2.values.length →
      c.2.get (recordId + k : Nat) = ⟨ty, v⟩

theorem put_copyN_eq_self {ty : Ty} {recordId : Nat} {values : List ty.Storage} {c : Column} :
    c.put ty (copyN · recordId values) = c ↔ (c.ty = ty → ∀ (k : Nat) (v : ty.Storage),
      values[k]? = some v → recordId + k < c.values.length →
        c.get (recordId + k : Nat) = ⟨ty, v⟩) := by
  rw [Column.put]
  by_cases hty : c.ty = ty
  · subst hty
    have hput : (⟨c.ty, copyN c.values recordId values⟩ : Column) = c
        ↔ copyN c.values recordId values = c.values :=
      ⟨fun h => eq_of_heq (Column.mk.inj h).2, fun h => congrArg (Column.mk c.ty) h⟩
    rw [dif_pos rfl, hput, copyN_eq_self]
    have hget : ∀ (k : Nat) (v : c.ty.Storage), recordId + k < c.values.length →
        (c.get (recordId + k : Nat) = ⟨c.ty, v⟩ ↔ c.values[recordId + k]? = some v) := by
      intro k v hk
      rw [Column.get, Int.toNat_natCast, List.getD_eq_getElem?_getD,
        List.getElem?_eq_getElem hk, Option.getD_some, Option.some_inj]
      exact ⟨fun h => eq_of_heq (Sigma.mk.inj h).2, fun h => congrArg (Sigma.mk c.ty) h⟩
    exact ⟨fun h _ k v hv hk => (hget k v hk).mpr (h k v hv hk),
      fun h k v hv hk => (hget k v hk).mp (h rfl k v hv hk)⟩
  · rw [dif_neg hty]
    exact ⟨fun _ h => absurd h hty, fun _ => rfl⟩

theorem write_eq_self {ty : Ty} {fieldId : FieldId} {recordId : Nat} {values : List ty.Storage} :
    st.write ty fieldId recordId values = st ↔ st.AlreadyThere ty fieldId recordId values := by
  have hmap : st.write ty fieldId recordId values = st ↔ (st.columns.map fun c =>
      if c.1 = fieldId then (c.1, c.2.put ty (copyN · recordId values)) else c)
        = st.columns.map id := by
    rw [List.map_id]
    exact ⟨fun h => congrArg Storage.columns h, fun h => by rw [write, h]⟩
  rw [hmap, List.map_inj_left, AlreadyThere]
  refine forall₂_congr fun c _ => ?_
  by_cases hfield : c.1 = fieldId
  · rw [if_pos hfield, ← put_copyN_eq_self]
    exact ⟨fun h _ => congrArg Prod.snd h, fun h => Prod.ext rfl (h hfield)⟩
  · rw [if_neg hfield]
    exact ⟨fun _ h => absurd h hfield, fun _ => rfl⟩

/-! ## Deleting a vector -/

/-- No record comes into use. -/
def Fewer (st st' : Storage) : Prop :=
  ∀ x : Int, st'.freedom.isUsed x = true → st.freedom.isUsed x = true

theorem internalDelete_of_used {recordId : Int} (h : st.freedom.isUsed recordId = true) :
    ∃ st', internalDelete recordId st = .ok () st' ∧
      ∀ x : Int, st'.freedom.isUsed x = true ↔ st.freedom.isUsed x = true ∧ x ≠ recordId := by
  have hin := FreedomKeeper.lt_of_isUsed h
  refine ⟨_, by rw [internalDelete, get_bind_run, when_neg (by rw [h]; decide)]; rfl, fun x => ?_⟩
  have hused : (st.freedom.free recordId).isUsed x
      = (st.freedom.isUsed x && !Records.range recordId 1 x) :=
    congrFun (congrArg Records.used (FreedomKeeper.records_free st.freedom hin.1 hin.2)) x
  show (st.freedom.free recordId).isUsed x = true ↔ _
  rw [hused, Records.range_one]
  simp

theorem internalDelete_of_not_used {recordId : RecordId}
    (h : st.freedom.isUsed recordId = false) :
    ∃ e, internalDelete recordId st = .error e st := by
  rw [internalDelete, get_bind_run, when_pos h]
  exact ⟨_, rfl⟩

theorem internalDelete_fewer (recordId : RecordId) : Keeps Fewer (internalDelete recordId) := by
  intro st
  cases h : st.freedom.isUsed recordId with
  | false =>
      obtain ⟨e, hrun⟩ := internalDelete_of_not_used h
      rw [after_error hrun]
      exact fun x hx => hx
  | true =>
      obtain ⟨st', hrun, hused⟩ := internalDelete_of_used h
      rw [after_ok hrun]
      exact fun x hx => ((hused x).mp hx).1

theorem deleteRecords_fewer (recordId : RecordId) (size : Nat) :
    Keeps Fewer (Database.deleteRecords recordId size) := by
  induction size with
  | zero => exact fun st x hx => hx
  | succ size ih =>
      exact keeps_bind (fun _ _ _ h h' x hx => h x (h' x hx)) (internalDelete_fewer _)
        fun _ => ih

/-- Sums with fewer than 2^64 sizes are different ids. -/
theorem word_add_ne {recordId : Int} {k l : Nat} (hkl : k < l) (hl : l < 2 ^ 64) :
    word (recordId + k) ≠ word (recordId + l) := by
  rw [word, word, Int.bmod_def, Int.bmod_def]
  split <;> split <;> omega

/-- And one of 2^64 ids is null. -/
theorem lt_of_words_used {recordId : Int} {size : Nat}
    (h : ∀ k < size, st.freedom.isUsed (word (recordId + k)) = true) : size < 2 ^ 64 := by
  by_contra hsize
  have hnull : word (recordId + ((-1 - recordId) % 2 ^ 64).toNat) = -1 := by
    rw [word, Int.bmod_def]
    split <;> omega
  have hused := h ((-1 - recordId) % 2 ^ 64).toNat (by omega)
  rw [hnull] at hused
  exact absurd (FreedomKeeper.lt_of_isUsed hused).1 (by decide)

/-- The loop goes through if every record is there. -/
theorem deleteRecords_all {recordId : Int} {size : Nat}
    (h : ∀ k < size, st.freedom.isUsed (word (recordId + k)) = true) :
    ∃ st', Database.deleteRecords recordId size st = .ok () st' := by
  induction size generalizing st with
  | zero => exact ⟨st, rfl⟩
  | succ size ih =>
      have hsize := lt_of_words_used h
      obtain ⟨st₁, hdelete, hused⟩ := internalDelete_of_used (h size (Nat.lt_succ_self size))
      have hleft : ∀ k < size, st₁.freedom.isUsed (word (recordId + k)) = true := fun k hk =>
        (hused _).mpr ⟨h k (Nat.lt_succ_of_lt hk), word_add_ne hk (Nat.lt_of_succ_lt hsize)⟩
      obtain ⟨st', hrest⟩ := ih hleft
      exact ⟨st', (bind_ok hdelete).trans hrest⟩

/-- What it throws is thrown at once if the last record is missing, and in the middle
if another one is. -/
theorem deleteRecords_error {recordId : Int} {size : Nat} {e : Exn}
    (hrun : Database.deleteRecords recordId size st = .error e st') :
    st' = st ↔ st.freedom.isUsed (word (recordId + size - 1)) = false := by
  cases size with
  | zero => cases hrun
  | succ size =>
      have hlast : recordId + (size + 1 : Nat) - 1 = recordId + size := by
        omega
      rw [hlast]
      cases hused : st.freedom.isUsed (word (recordId + size)) with
      | false =>
          obtain ⟨e', hdelete⟩ := internalDelete_of_not_used hused
          rw [Database.deleteRecords, bind_error hdelete] at hrun
          obtain ⟨-, rfl⟩ := EStateM.Result.error.inj hrun
          exact ⟨fun _ => rfl, fun _ => rfl⟩
      | true =>
          obtain ⟨st₁, hdelete, hleft⟩ := internalDelete_of_used hused
          rw [Database.deleteRecords, bind_ok hdelete] at hrun
          refine ⟨fun h => ?_, fun h => (by cases h)⟩
          have hgone := (deleteRecords_fewer recordId size).error hrun _ (h ▸ hused)
          exact absurd rfl ((hleft _).mp hgone).2

/-! ## The other functions -/

/-- A new vector throws over its size, or not at all. -/
theorem newVector_error {tableId : TableId} {size : Nat} {e : Exn}
    (hrun : newVector tableId size st = .error e st') : st' = st := by
  obtain ⟨-, hend⟩ | ⟨e', hend⟩ := checkEnd_cases st.freedom.getSize size st
  · have hfree : (st.resize (st.freedom.getSize + size)).freedom.isFreeVector
        st.freedom.getSize size = true := by
      refine FreedomKeeper.isFreeVector_of_unused (Int.natCast_nonneg _) fun x hx => ?_
      rw [isUsed_resize, ← Bool.not_eq_true]
      exact fun h => absurd (FreedomKeeper.lt_of_isUsed h).2 (Int.not_lt.mpr hx)
    rw [newVector, get_bind_run, bind_ok hend, modify_bind_run] at hrun
    cases hinsert : internalVectorInsert st.freedom.getSize size
        (st.resize (st.freedom.getSize + size)) with
    | ok u st₁ =>
        rw [bind_ok hinsert] at hrun
        cases hrun
    | error e' st₁ =>
        rw [internalVectorInsert, get_bind_run, when_neg (by rw [hfree]; decide)] at hinsert
        cases hinsert
  · rw [newVector, get_bind_run, bind_error hend] at hrun
    exact (EStateM.Result.error.inj hrun).2.symm

theorem newRecord_error {tableId : TableId} {e : Exn}
    (hrun : newRecord tableId st = .error e st') : st' = st := by
  rw [newRecord, get_bind_run] at hrun
  by_cases hend : st.freedom.getFreeRecord.1 + 1 ≥ 2 ^ 63
  · rw [when_pos hend] at hrun
    exact (EStateM.Result.error.inj hrun).2.symm
  · rw [when_neg hend] at hrun
    cases hrun

theorem insertAt_error {tableId : TableId} {recordId : Nat} {e : Exn}
    (hrun : insertAt tableId recordId st = .error e st') : st' = st := by
  by_cases hsmall : recordId + 1 < 2 ^ 63
  · have hinsert := (insertAt_eq tableId hsmall st).symm.trans hrun
    cases hinsert
  · rw [insertAt, get_bind_run, when_pos (Nat.not_lt.mp hsmall)] at hrun
    exact (EStateM.Result.error.inj hrun).2.symm

/-- An update throws over the record before it writes, or over an index. -/
theorem internalUpdate_error {ty : Ty} {recordId : RecordId} {fieldId : FieldId} {value : ty.Arg}
    {e : Exn} (hfree : st.freedom.isUsed recordId = false)
    (hrun : internalUpdate ty recordId fieldId value st = .error e st') : st' = st := by
  rw [internalUpdate, get_bind_run, when_pos hfree] at hrun
  exact (EStateM.Result.error.inj hrun).2.symm

theorem internalUpdateVector_error {ty : Ty} {recordId : RecordId} {fieldId : FieldId}
    {values : List ty.Storage} {e : Exn}
    (hfree : st.freedom.isUsedVector recordId values.length = false)
    (hrun : internalUpdateVector ty recordId fieldId values st = .error e st') : st' = st := by
  rw [internalUpdateVector, get_bind_run, when_pos hfree] at hrun
  exact (EStateM.Result.error.inj hrun).2.symm

end Storage

/-! ## Calls -/

/-- A function that is called: a change, or a vector update whose caller throws, with
what the caller has written by then. -/
inductive Call where
  | change (c : Change)
  | interrupted (ty : Ty) (tableId : TableId) (recordId : RecordId) (fieldId : FieldId)
      (values : List ty.Storage) (thrown : Exn)

namespace Call

def tableId : Call → TableId
  | change c => c.tableId
  | interrupted _ t _ _ _ _ => t

def onStorage : Call → EStateM Exn Storage Op
  | change c => c.onStorage
  | interrupted ty _ r f vs thrown => do
      modify (Storage.write ty f r.toNat vs)
      throw thrown

def perform (c : Call) : EStateM Exn Database Op :=
  Database.onTable c.tableId (throw (.exception "no such table")) c.onStorage

/-- An update that passes what it looks at comes to the indexes: what it throws is
theirs. -/
def ReachesIndexesIn (st : Storage) : Call → Prop
  | change (.set _ _ r _ _) => st.freedom.isUsed r = true
  | change (.updateVector _ _ r _ vs) => st.freedom.isUsedVector r vs.length = true
  | _ => False

/-- What a call must be to leave memory as it was when it throws: a vector that is
deleted does not have its last record and another one missing, and the values of a vector
update that does not go through are the ones that were there. -/
def WholeIn (st : Storage) : Call → Prop
  | change (.deleteVector _ r size) => st.freedom.isUsed (word (r + size - 1)) = true →
      ∀ k < size, st.freedom.isUsed (word (r + k)) = true
  | change (.updateVector ty _ r f vs) => st.freedom.isUsedVector r vs.length = false →
      st.AlreadyThere ty f r.toNat vs
  | interrupted ty _ r f vs _ => st.AlreadyThere ty f r.toNat vs
  | _ => True

def ReachesIndexes (db : Database) (c : Call) : Prop :=
  ∃ st, find db.tables c.tableId = some st ∧ c.ReachesIndexesIn st

def Whole (db : Database) (c : Call) : Prop :=
  ∀ st, find db.tables c.tableId = some st → c.WholeIn st

/-- Only a unique index throws when a call comes to the indexes. -/
theorem ReachesIndexesIn.unique {c : Call} {st st' : Storage} {e : Exn}
    (h : c.ReachesIndexesIn st) (hrun : c.onStorage st = .error e st') :
    ∃ ix ∈ st.indexes, ix.unique = true := by
  cases c with
  | interrupted => exact h.elim
  | change c =>
      cases c with
      | set ty t r f v =>
          exact Storage.internalUpdate_unique h (bind_eq_error (fun _ _ h => (by cases h)) hrun)
      | updateVector ty t r f vs =>
          have hupdate : (Storage.internalUpdateVector ty r f vs >>=
              fun _ => pure (Op.updateVector ty t r f vs)) (st.write ty f r.toNat vs)
                = .error e st' := hrun
          have hthrown := bind_eq_error (fun _ _ h => (by cases h)) hupdate
          have hused : (st.write ty f r.toNat vs).freedom.isUsedVector r vs.length = true := h
          have hunique := Storage.internalUpdateVector_unique hused hthrown
          exact hunique
      | _ => exact h.elim

/-- What is thrown, and not by an index, leaves a table as it was if the call is
whole, and only then. -/
theorem onStorage_error {c : Call} {st st' : Storage} {e : Exn}
    (hrun : c.onStorage st = .error e st') (hother : ¬ c.ReachesIndexesIn st) :
    st' = st ↔ c.WholeIn st := by
  have hsplit : ∀ {m : EStateM Exn Storage Unit} {op : Op} {s : Storage},
      (m >>= fun _ => pure op) s = .error e st' → m s = .error e st' :=
    bind_eq_error fun _ _ h => (by cases h)
  cases c with
  | interrupted ty t r f vs thrown =>
      obtain ⟨-, rfl⟩ := EStateM.Result.error.inj hrun
      exact Storage.write_eq_self
  | change c =>
      cases c with
      | new t => exact ⟨fun _ => trivial, fun _ => Storage.newRecord_error hrun⟩
      | insert t r => exact ⟨fun _ => trivial, fun _ => Storage.insertAt_error hrun⟩
      | newVector t n => exact ⟨fun _ => trivial, fun _ => Storage.newVector_error hrun⟩
      | delete t r =>
          have hdelete := hsplit hrun
          refine ⟨fun _ => trivial, fun _ => ?_⟩
          cases hused : st.freedom.isUsed r with
          | false =>
              obtain ⟨e', hthrown⟩ := Storage.internalDelete_of_not_used hused
              exact (EStateM.Result.error.inj (hthrown.symm.trans hdelete)).2.symm
          | true =>
              obtain ⟨st₁, hok, -⟩ := Storage.internalDelete_of_used hused
              rw [hok] at hdelete
              cases hdelete
      | deleteVector t r n =>
          have hdelete := hsplit hrun
          rw [Storage.deleteRecords_error hdelete]
          refine ⟨fun hlast h => absurd (h.symm.trans hlast) (by decide), fun hwhole => ?_⟩
          cases hlast : st.freedom.isUsed (word (r + n - 1)) with
          | false => rfl
          | true =>
              obtain ⟨st₁, hok⟩ := Storage.deleteRecords_all (hwhole hlast)
              rw [hok] at hdelete
              cases hdelete
      | set ty t r f v =>
          have hupdate := hsplit hrun
          exact ⟨fun _ => trivial,
            fun _ => Storage.internalUpdate_error (Bool.of_not_eq_true hother) hupdate⟩
      | updateVector ty t r f vs =>
          have hfree : st.freedom.isUsedVector r vs.length = false :=
            Bool.of_not_eq_true hother
          have hupdate : Storage.internalUpdateVector ty r f vs (st.write ty f r.toNat vs)
              = .error e st' := hsplit hrun
          have hwritten : st' = st.write ty f r.toNat vs :=
            Storage.internalUpdateVector_error hfree hupdate
          rw [hwritten, Storage.write_eq_self]
          exact ⟨fun h _ => h, fun h => h hfree⟩

theorem perform_error {c : Call} {db db' : Database} {e : Exn}
    (hrun : c.perform db = .error e db') (hother : ¬ c.ReachesIndexes db) :
    db' = db ↔ c.Whole db := by
  rw [perform, Database.onTable] at hrun
  cases hfind : find db.tables c.tableId with
  | none =>
      rw [hfind] at hrun
      obtain ⟨-, rfl⟩ := EStateM.Result.error.inj hrun
      exact ⟨fun _ st hst => absurd (hfind.symm.trans hst) (fun h => (by cases h)), fun _ => rfl⟩
  | some st =>
      rw [hfind] at hrun
      simp only [] at hrun
      have hwhole : c.Whole db ↔ c.WholeIn st :=
        ⟨fun h => h st hfind, fun h st' hst' => Option.some.inj (hfind.symm.trans hst') ▸ h⟩
      cases hst : c.onStorage st with
      | ok op st' =>
          rw [hst] at hrun
          cases hrun
      | error e' st' =>
          rw [hst] at hrun
          obtain ⟨rfl, rfl⟩ := EStateM.Result.error.inj hrun
          rw [hwhole, ← onStorage_error hst fun h => hother ⟨st, hfind, h⟩]
          refine ⟨fun h => ?_, fun h => ?_⟩
          · have htables : assign db.tables c.tableId st' = db.tables :=
              congrArg Database.tables h
            have hback := find_assign hfind st'
            rw [htables, hfind] at hback
            exact (Option.some.inj hback).symm
          · rw [h, assign_self hfind]

end Call

/-! ## Runs -/

/-- Changes of which each is allowed, and calls that really throw, each caught. -/
inductive CaughtRun (Allowed : Database → Change → Prop) (Caught : Database → Call → Prop) :
    Database → List Op → Database → Prop where
  | done (db : Database) : CaughtRun Allowed Caught db [] db
  | step {db db₁ db₂ : Database} {c : Change} {op : Op} {ops : List Op} (hc : Allowed db c)
      (hop : c.perform db = .ok op db₁) (hrest : CaughtRun Allowed Caught db₁ ops db₂) :
      CaughtRun Allowed Caught db (op :: ops) db₂
  | caught {db db₁ db₂ : Database} {c : Call} {e : Exn} {ops : List Op} (hc : Caught db c)
      (he : e.isDefined = true) (hthrown : c.perform db = .error e db₁)
      (hrest : CaughtRun Allowed Caught db₁ ops db₂) :
      CaughtRun Allowed Caught db ops db₂

namespace Database

/-- A call that throws, and whose exception says nothing of an index. -/
def Spared (db : Database) (c : Call) : Prop := ¬ c.ReachesIndexes db ∧ c.Whole db

end Database

/-- What was caught has left no trace. -/
theorem CaughtRun.run {Allowed : Database → Change → Prop} {db db' : Database} {ops : List Op}
    (h : CaughtRun Allowed Database.Spared db ops db') : Run Allowed db ops db' := by
  induction h with
  | done db => exact .done db
  | step hc hop _ ih => exact .step hc hop ih
  | caught hc _ hthrown _ ih =>
      obtain rfl := (Call.perform_error hthrown hc.1).mpr hc.2
      exact ih

namespace Database

end Database

end Joedb.Compiled
