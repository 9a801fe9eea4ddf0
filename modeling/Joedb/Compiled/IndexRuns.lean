import Joedb.Compiled.Coherence
import Joedb.Compiled.StorageValues
import Joedb.Interpreted.TableSpec

/-!
# What an index holds

The functions of a generated class keep its indexes in order, those that throw too, and
so does a replay. And when no update has thrown, an index can be read off the operations:
a record has an entry if a field that triggers the index was updated since the record
was inserted, and the key is what the fields were at the last such update. All fields
of an index trigger it when it is not unique, so that is what they are now. Only the last
field triggers a unique index, and the others may have changed behind its back. Other
functions may throw, in the middle of a vector as well: the records that are left have
the entries they had.
-/

namespace Joedb

namespace Op

/-- The operation brings the record into use. -/
def inserts (tableId : TableId) (recordId : Int) : Op → Bool
  | insertInto t r => decide (t = tableId) && Records.range r 1 recordId
  | insertVector t r size => decide (t = tableId) && Records.range r size recordId
  | _ => false

/-- The field of the record that the operation updates. -/
def updates (tableId : TableId) (recordId : Int) : Op → Option (Ty × FieldId)
  | update ty t r f _ =>
      if t = tableId ∧ Records.range r 1 recordId = true then some (ty, f) else none
  | updateVector ty t r f vs =>
      if t = tableId ∧ Records.range r vs.length recordId = true then some (ty, f) else none
  | _ => none

end Op

namespace Compiled

open ByteFile Containers StateExcept

namespace Storage

variable {st st' : Storage}

instance (st : Storage) (ty : Ty) (fieldId : FieldId) : Decidable (st.Has ty fieldId) :=
  inferInstanceAs (Decidable (∃ c ∈ find st.columns fieldId, c.ty = ty))

/-- The field that the operation updates, if the table has it. -/
def hits (st : Storage) (op : Op) (tableId : TableId) (recordId : Int) : Option FieldId :=
  (op.updates tableId recordId).bind fun u => if st.Has u.1 u.2 then some u.2 else none

/-- A record whose entry stays. If the index is unique, it may be out of date. -/
structure Kept (st st' : Storage) (ix ix' : Index) (recordId : Int) : Prop where
  used : st.freedom.isUsed recordId = true
  iterator : ix'.iterator recordId = ix.iterator recordId
  key : ix.unique = false → ix'.keyOf st'.columns recordId = ix.keyOf st.columns recordId

/-- What happens to the entries of the records that are in use: a new record has
none, one that was hit where it triggers has one that is up to date. -/
def Effect (new : Int → Bool) (hit : Int → Option FieldId) (st st' : Storage) : Prop :=
  ∀ ix' ∈ st'.indexes, ∃ ix ∈ st.indexes, ix'.fieldIds = ix.fieldIds ∧ ix'.unique = ix.unique ∧
    ∀ x, st'.freedom.isUsed x = true →
      (new x = true ∧ ix'.iterator x = none) ∨
        (new x = false ∧ (hit x).any (ix.isTrigger ·) = true ∧
          ix'.iterator x = some (ix'.keyOf st'.columns x)) ∨
        (new x = false ∧ (hit x).any (ix.isTrigger ·) = false ∧ Kept st st' ix ix' x)

/-- Neither new records nor updates. -/
def Quiet : Storage → Storage → Prop := Effect (fun _ => false) fun _ => none

theorem quiet_of (h : ∀ ix' ∈ st'.indexes, ∃ ix ∈ st.indexes, ix'.fieldIds = ix.fieldIds ∧
      ix'.unique = ix.unique ∧ ∀ x, st'.freedom.isUsed x = true → Kept st st' ix ix' x) :
    Quiet st st' := by
  intro ix' hix'
  obtain ⟨ix, hix, hfields, hunique, hkept⟩ := h ix' hix'
  exact ⟨ix, hix, hfields, hunique, fun x hx => .inr (.inr ⟨rfl, rfl, hkept x hx⟩)⟩

theorem quiet_refl (st : Storage) : Quiet st st :=
  quiet_of fun ix hix => ⟨ix, hix, rfl, rfl, fun _ hx => ⟨hx, rfl, fun _ => rfl⟩⟩

theorem isTrigger_congr {ix ix' : Index} (hfields : ix'.fieldIds = ix.fieldIds)
    (hunique : ix'.unique = ix.unique) (fieldId : FieldId) :
    ix'.isTrigger fieldId = ix.isTrigger fieldId := by
  rw [Index.isTrigger, Index.isTrigger, hfields, hunique]

theorem Quiet.then {st₁ : Storage} (h : Quiet st st₁) {new : Int → Bool}
    {hit : Int → Option FieldId} (h' : Effect new hit st₁ st') : Effect new hit st st' := by
  intro ix' hix'
  obtain ⟨ix₁, hix₁, hfields', hunique', hfate'⟩ := h' ix' hix'
  obtain ⟨ix, hix, hfields, hunique, hfate⟩ := h ix₁ hix₁
  have htrigger : ∀ x, (hit x).any (ix.isTrigger ·) = (hit x).any (ix₁.isTrigger ·) := by
    intro x
    rw [show (fun f => ix.isTrigger f) = fun f => ix₁.isTrigger f from
      funext fun f => (isTrigger_congr hfields hunique f).symm]
  refine ⟨ix, hix, hfields'.trans hfields, hunique'.trans hunique, fun x hx => ?_⟩
  rw [htrigger x]
  obtain hnew | hhit | ⟨hnew, hno, hkept'⟩ := hfate' x hx
  · exact .inl hnew
  · exact .inr (.inl hhit)
  · obtain ⟨hfalse, -⟩ | ⟨-, hfalse, -⟩ | ⟨-, -, hkept⟩ := hfate x hkept'.used
    · cases hfalse
    · cases hfalse
    · refine .inr (.inr ⟨hnew, hno, hkept.used, hkept'.iterator.trans hkept.iterator, fun hu => ?_⟩)
      exact (hkept'.key (hunique.trans hu)).trans (hkept.key hu)

/-! ## Records that come and go -/

/-- No entry of a record that is left has changed, and the table is in order. -/
def Left (st st' : Storage) : Prop := st.InOrder → st'.InOrder ∧ Quiet st st'

theorem left_refl (st : Storage) : Left st st := fun h => ⟨h, quiet_refl st⟩

theorem left_trans (a b c : Storage) (h : Left a b) (h' : Left b c) : Left a c := fun ha =>
  ⟨(h' (h ha).1).1, (h ha).2.then (h' (h ha).1).2⟩

theorem resize_quiet (h : st.InOrder) {n : Nat} (hn : st.freedom.getSize ≤ n) :
    Quiet st (st.resize n) := by
  refine quiet_of fun ix' hix' => ?_
  obtain ⟨ix, hix, rfl⟩ := List.mem_map.mp hix'
  refine ⟨ix, hix, rfl, rfl, fun x hx => ?_⟩
  rw [isUsed_resize] at hx
  refine ⟨hx, ((h.coherent ix hix).resize (h.sound.iterators ix hix ▸ hn)).2 x, fun _ => ?_⟩
  obtain ⟨k, rfl⟩ := Int.eq_ofNat_of_zero_le (FreedomKeeper.lt_of_isUsed hx).1
  refine Index.keyOf_congr rfl fun f _ => ?_
  rw [show (st.resize n).columns = st.columns.map fun c => (c.1, c.2.resize n) from rfl,
    find_map, Option.map_map]
  cases hfind : find st.columns f with
  | none => rfl
  | some c =>
      exact congrArg some (Column.get_resize (h.sound.columns _ (mem_of_find hfind) ▸ hn) k)

/-- Records that come into use. -/
theorem effect_of_fill (h : st.InOrder) {r : Int} {n : Nat} (hlo : 0 ≤ r)
    (hhi : r + n ≤ st.freedom.getSize)
    (hfree : ∀ x, r ≤ x → x < r + n → st.freedom.isUsed x = false)
    (hindexes : st'.indexes = st.indexes.map (·.fill r n)) (hcolumns : st'.columns = st.columns)
    (hused : ∀ x, st'.freedom.isUsed x = (st.freedom.isUsed x || Records.range r n x)) :
    Effect (fun x => Records.range r n x) (fun _ => none) st st' := by
  intro ix' hix'
  rw [hindexes] at hix'
  obtain ⟨ix, hix, rfl⟩ := List.mem_map.mp hix'
  have hlength := h.sound.iterators ix hix
  obtain ⟨-, hit⟩ := (h.coherent ix hix).fill hlo (by omega) hfree hused
  refine ⟨ix, hix, rfl, rfl, fun x hx => ?_⟩
  have hit := hit x (FreedomKeeper.lt_of_isUsed hx).1
  rw [hused, Bool.or_eq_true] at hx
  cases hin : Records.range r n x with
  | true => exact .inl ⟨hin, hit.trans (if_pos (of_decide_eq_true hin))⟩
  | false =>
      rw [hin] at hx
      refine .inr (.inr ⟨hin, rfl, hx.resolve_right (by decide),
        hit.trans (if_neg (of_decide_eq_false hin)), fun _ => ?_⟩)
      rw [hcolumns]
      exact Index.keyOf_congr rfl fun _ _ => rfl

theorem insertRecord_effect (h : st.InOrder) {nameSpace : String} {recordId : Int}
    (hlo : 0 ≤ recordId) (hrun : Database.insertRecord nameSpace recordId st = .ok () st') :
    Effect (fun x => Records.range recordId 1 x) (fun _ => none) st st' := by
  obtain ⟨r, rfl⟩ := Int.eq_ofNat_of_zero_le hlo
  obtain ⟨hfree, hsmall, rfl⟩ := insertRecord_eq_ok hrun
  have hinsert : ∀ {s : Storage}, s.InOrder → (r : Int) < s.freedom.getSize →
      s.freedom.isUsed r = false →
        Effect (fun x => Records.range r 1 x) (fun _ => none) s (internalInsert r s) := by
    intro s hs hin hunused
    refine effect_of_fill hs hlo (by omega) (fun x hx₁ hx₂ => ?_) rfl rfl
      (congrFun (congrArg Records.used (FreedomKeeper.records_use s.freedom hlo hin)))
    rw [show x = r by omega]
    exact hunused
  by_cases hgrow : st.freedom.getSize ≤ r
  · rw [if_pos hgrow]
    have hle := Nat.le_succ_of_le hgrow
    refine (resize_quiet h hle).then (hinsert (h.resize hle hsmall) ?_ ?_)
    · rw [getSize_resize]
      omega
    · rw [isUsed_resize]
      exact hfree
  · rw [if_neg hgrow]
    exact hinsert h (by omega) hfree

theorem internalVectorInsert_effect (h : st.InOrder) {recordId : Int} {size : Nat}
    (hin : recordId + size ≤ st.freedom.getSize)
    (hrun : internalVectorInsert recordId size st = .ok () st') :
    Effect (fun x => Records.range recordId size x) (fun _ => none) st st' := by
  rw [internalVectorInsert, get_bind_run] at hrun
  obtain ⟨hfree, hrun⟩ := guard_bind_eq_ok.mp hrun
  obtain rfl := (EStateM.Result.ok.inj hrun).2
  obtain ⟨hlo, hunused⟩ := FreedomKeeper.isFreeVector_sound (Bool.of_not_eq_false hfree)
  exact effect_of_fill h hlo hin hunused rfl rfl (congrFun (congrArg Records.used
    (FreedomKeeper.records_useVector st.freedom hlo hin)))

theorem insertRecords_effect (h : st.InOrder) {recordId : Int} {size : Nat}
    (hrun : Database.insertRecords recordId size st = .ok () st') :
    Effect (fun x => Records.range recordId size x) (fun _ => none) st st' := by
  have hfits := insertRecords_fits hrun
  rw [insertRecords_eq hfits] at hrun
  by_cases hgrow : (st.freedom.getSize : Int) < recordId + size
  · rw [if_pos hgrow] at hrun
    have hle : st.freedom.getSize ≤ (recordId + size).toNat := by omega
    refine (resize_quiet h hle).then
      (internalVectorInsert_effect (h.resize hle (by omega)) ?_ hrun)
    rw [getSize_resize]
    omega
  · rw [if_neg hgrow] at hrun
    exact internalVectorInsert_effect h (Int.not_lt.mp hgrow) hrun

/-- A vector that is refused may have made the table larger. -/
theorem insertRecords_quiet (h : st.InOrder) {recordId : Int} {size : Nat} {e : Exn}
    (hrun : Database.insertRecords recordId size st = .error e st') : Quiet st st' := by
  obtain ⟨hfits, -⟩ | ⟨e', hthrown⟩ := checkEnd_cases recordId size st
  · rw [insertRecords_eq hfits] at hrun
    rw [internalVectorInsert_error hrun]
    split
    · exact resize_quiet h (by omega)
    · exact quiet_refl st
  · rw [Database.insertRecords, bind_error hthrown] at hrun
    obtain ⟨-, rfl⟩ := EStateM.Result.error.inj hrun
    exact quiet_refl st

theorem internalDelete_left (recordId : Int) : Keeps Left (internalDelete recordId) := by
  intro st h
  refine ⟨h.internalDelete recordId, ?_⟩
  cases hused : st.freedom.isUsed recordId with
  | false =>
      obtain ⟨e, hthrown⟩ := internalDelete_of_not_used hused
      rw [after_error hthrown]
      exact quiet_refl st
  | true =>
      obtain ⟨st', hrun, hless⟩ := internalDelete_of_used hused
      rw [after_ok hrun]
      have hlo := (FreedomKeeper.lt_of_isUsed hused).1
      rw [internalDelete, get_bind_run, when_neg (by rw [hused]; decide)] at hrun
      obtain rfl := (EStateM.Result.ok.inj hrun).2
      refine quiet_of fun ix' hix' => ?_
      obtain ⟨ix, hix, rfl⟩ := List.mem_map.mp hix'
      obtain ⟨hfields, hunique, -⟩ := Index.remove_spec recordId ix
      refine ⟨ix, hix, hfields, hunique, fun x hx => ?_⟩
      obtain ⟨hx, hne⟩ := (hless x).mp hx
      have hx0 := (FreedomKeeper.lt_of_isUsed hx).1
      refine ⟨hx, ((h.coherent ix hix).iterator_remove hused hx0).trans (if_neg hne), fun _ => ?_⟩
      obtain ⟨k, rfl⟩ := Int.eq_ofNat_of_zero_le hx0
      refine Index.keyOf_congr hfields fun f _ => ?_
      show (find (st.columns.map fun c => (c.1, c.2.clear recordId)) f).map _ = _
      rw [find_map, Option.map_map]
      cases find st.columns f with
      | none => rfl
      | some c => exact congrArg some ((Column.get_clear c hlo k).trans (if_neg hne))

/-- As far as the loop gets. -/
theorem deleteRecords_left (recordId : Int) (size : Nat) :
    Keeps Left (Database.deleteRecords recordId size) := by
  induction size with
  | zero => exact keeps_pure left_refl ()
  | succ size ih => exact keeps_bind left_trans (internalDelete_left _) fun _ => ih

theorem deleteVectorOf_left (recordId : Int) (size : Nat) :
    Keeps Left (Database.deleteVectorOf recordId size) :=
  keeps_bind left_trans (keeps_get left_refl) fun _ =>
    keeps_bind left_trans (keeps_when left_refl (keeps_throw left_refl _)) fun _ =>
      deleteRecords_left recordId size

/-! ## Updates -/

theorem get_put {ty : Ty} {i : Nat} {vs : List ty.Storage} (c : Column) {k : Nat}
    (hout : ¬ (i ≤ k ∧ k < i + vs.length)) :
    (c.put ty (copyN · i vs)).get k = c.get k := by
  obtain ⟨ty', values⟩ := c
  by_cases hty : ty' = ty
  · subst hty
    rw [put_same, Column.get, Column.get]
    refine congrArg (Sigma.mk ty') ?_
    rw [Int.toNat_natCast, List.getD_eq_getElem?_getD, getElem?_copyN, if_neg (by omega),
      ← List.getD_eq_getElem?_getD]
  · rw [put_other (show Column.ty ⟨ty', values⟩ ≠ ty from hty)]

/-- A value that was not written to. -/
theorem get_write (ty : Ty) (fieldId : FieldId) (i : Nat) (vs : List ty.Storage) (st : Storage)
    {id : FieldId} {k : Nat} (hout : id ≠ fieldId ∨ ¬ (i ≤ k ∧ k < i + vs.length)) :
    (find (st.write ty fieldId i vs).columns id).map (·.get k)
      = (find st.columns id).map (·.get k) := by
  rw [find_columns_write]
  by_cases hid : id = fieldId
  · rw [if_pos hid, Option.map_map]
    exact congrArg (Option.map · _)
      (funext fun c => get_put c (hout.resolve_left (not_not_intro hid)))
  · rw [if_neg hid]

theorem triggerIndexes_eq_ok {fieldId : FieldId}
    {g : List (FieldId × Column) → Index → Index × Option Exn}
    (hrun : triggerIndexes fieldId g st = .ok () st') :
    (Index.trigger fieldId (g st.columns) st.indexes).2 = none ∧
      st' = { st with indexes := (Index.trigger fieldId (g st.columns) st.indexes).1 } := by
  refine ⟨?_, (after_ok hrun).symm.trans (after_triggerIndexes fieldId g st)⟩
  rw [triggerIndexes, get_bind_run] at hrun
  cases hthrown : (Index.trigger fieldId (g st.columns) st.indexes).2 with
  | none => rfl
  | some e =>
      rw [hthrown] at hrun
      cases hrun

/-- A field that does not trigger an index that is not unique is not one of its. -/
theorem ne_of_not_trigger {ix : Index} {fieldId id : FieldId}
    (htrigger : ix.isTrigger fieldId = false) (hunique : ix.unique = false)
    (hid : id ∈ ix.fieldIds) : id ≠ fieldId := by
  rintro rfl
  rw [Index.isTrigger, hunique, List.contains_iff_mem.mpr hid] at htrigger
  cases htrigger

/-- The records that an update hits. -/
def hitRange (fieldId : FieldId) (recordId : Int) (size : Nat) (x : Int) : Option FieldId :=
  if Records.range recordId size x = true then some fieldId else none

theorem reindex_effect (h : st.InOrder) {ty : Ty} {fieldId : FieldId} {recordId : Int}
    {vs : List ty.Storage} (hlo : 0 ≤ recordId)
    (hused : ∀ x, recordId ≤ x → x < recordId + vs.length → st.freedom.isUsed x = true)
    (hrun : triggerIndexes fieldId (fun columns ix =>
        (ix.removeAll recordId vs.length).addAll columns recordId vs.length)
      (st.write ty fieldId recordId.toNat vs) = .ok () st') :
    Effect (fun _ => false) (hitRange fieldId recordId vs.length) st st' := by
  obtain ⟨hnone, rfl⟩ := triggerIndexes_eq_ok hrun
  obtain ⟨hmap, hall⟩ := Index.trigger_eq_none hnone
  intro ix' hix'
  rw [show ix' ∈ _ ↔ ix' ∈ _ from iff_of_eq (congrArg (ix' ∈ ·) hmap)] at hix'
  obtain ⟨ix, hix, rfl⟩ := List.mem_map.mp hix'
  have hcoherent := h.coherent ix hix
  have hrange : ∀ {x : Int}, Records.range recordId vs.length x = true ↔
      recordId ≤ x ∧ x < recordId + vs.length := decide_eq_true_iff
  -- the values of a record that is not hit are what they were
  have hkey : ∀ {x : Int} {ix' : Index}, ix'.fieldIds = ix.fieldIds → 0 ≤ x →
      (∀ id ∈ ix.fieldIds, id ≠ fieldId ∨ ¬ (recordId ≤ x ∧ x < recordId + vs.length)) →
        ix'.keyOf (st.write ty fieldId recordId.toNat vs).columns x = ix.keyOf st.columns x := by
    intro x ix' hfields hx hout
    obtain ⟨k, rfl⟩ := Int.eq_ofNat_of_zero_le hx
    exact Index.keyOf_congr hfields fun id hid =>
      get_write ty fieldId _ vs st ((hout id hid).imp_right fun h h' => h (by omega))
  by_cases htrigger : ix.isTrigger fieldId = true
  · rw [if_pos htrigger]
    have hok := hall ix hix htrigger
    obtain ⟨hremoved, hfields, hunique, hgone⟩ := hcoherent.removeAll hused
    have hready : ∀ x, recordId ≤ x → x < recordId + vs.length → st.freedom.isUsed x = true ∧
        (ix.removeAll recordId vs.length).iterator x = none := fun x hx₁ hx₂ =>
      ⟨hused x hx₁ hx₂, (hgone x (Int.le_trans hlo hx₁)).trans (if_pos ⟨hx₁, hx₂⟩)⟩
    obtain ⟨-, hfields', hunique', hit⟩ :=
      hremoved.addAll hready (st.write ty fieldId recordId.toNat vs).columns
    refine ⟨ix, hix, hfields'.trans hfields, hunique'.trans hunique, fun x hx => ?_⟩
    have hx0 := (hcoherent.inside x hx).1
    have hit := hit hok x hx0
    cases hin : Records.range recordId vs.length x with
    | true =>
        rw [if_pos (hrange.mp hin)] at hit
        refine .inr (.inl ⟨rfl, ?_, hit.trans (congrArg some ?_)⟩)
        · rw [hitRange, if_pos hin]
          exact htrigger
        · exact (Index.keyOf_congr hfields' fun _ _ => rfl).symm
    | false =>
        have hout : ¬ (recordId ≤ x ∧ x < recordId + vs.length) :=
          fun h => absurd (hrange.mpr h) (by rw [hin]; decide)
        rw [if_neg hout, hgone x hx0, if_neg hout] at hit
        refine .inr (.inr ⟨rfl, ?_, hx, hit, fun _ =>
          hkey (hfields'.trans hfields) hx0 fun _ _ => .inr hout⟩)
        rw [hitRange, if_neg (by rw [hin]; decide)]
        rfl
  · rw [if_neg htrigger]
    have hno := Bool.of_not_eq_true htrigger
    refine ⟨ix, hix, rfl, rfl, fun x hx => .inr (.inr ⟨rfl, ?_, hx, rfl, fun hunique =>
      hkey rfl (hcoherent.inside x hx).1 fun id hid =>
        .inl (ne_of_not_trigger hno hunique hid)⟩)⟩
    rw [hitRange]
    split
    · exact hno
    · rfl

theorem internalUpdate_effect (h : st.InOrder) {ty : Ty} {recordId : Int} {fieldId : FieldId}
    {value : ty.Arg} (hrun : internalUpdate ty recordId fieldId value st = .ok () st') :
    Effect (fun _ => false) (hitRange fieldId recordId 1) st st' := by
  rw [internalUpdate, get_bind_run] at hrun
  by_cases hfree : st.freedom.isUsed recordId = false
  · rw [when_pos hfree] at hrun
    cases hrun
  · have hused := Bool.of_not_eq_false hfree
    rw [when_neg hfree, pure_bind_run, modify_bind_run] at hrun
    simp only [add_remove_eq] at hrun
    have hrange : ∀ x, recordId ≤ x → x < recordId + ([value.val].length : Nat) →
        st.freedom.isUsed x = true := by
      intro x hx₁ hx₂
      rw [show x = recordId from Int.le_antisymm (Int.lt_add_one_iff.mp hx₂) hx₁]
      exact hused
    have heffect := reindex_effect h (FreedomKeeper.lt_of_isUsed hused).1 hrange hrun
    exact heffect

/-- A vector update: what the caller writes first is written again. -/
theorem internalUpdateVector_effect (h : st.InOrder) {ty : Ty} {recordId : Int}
    {fieldId : FieldId} {values : List ty.Storage}
    (hrun : internalUpdateVector ty recordId fieldId values
      (st.write ty fieldId recordId.toNat values) = .ok () st') :
    Effect (fun _ => false) (hitRange fieldId recordId values.length) st st' := by
  have htwice : (st.write ty fieldId recordId.toNat values).write ty fieldId recordId.toNat values
      = st.write ty fieldId recordId.toNat values := by
    rw [write, write, List.map_map]
    congr 1
    refine List.map_congr_left fun c _ => ?_
    by_cases hfield : c.1 = fieldId
    · simp only [Function.comp_apply, if_pos hfield, put_put]
    · simp only [Function.comp_apply, if_neg hfield]
  rw [internalUpdateVector, get_bind_run] at hrun
  by_cases hfree : st.freedom.isUsedVector recordId values.length = false
  · rw [when_pos (show (st.write ty fieldId recordId.toNat values).freedom.isUsedVector recordId
      values.length = false from hfree)] at hrun
    cases hrun
  · rw [when_neg (show ¬ (st.write ty fieldId recordId.toNat values).freedom.isUsedVector recordId
      values.length = false from hfree), pure_bind_run, modify_bind_run, htwice] at hrun
    obtain ⟨hlo, -, hused⟩ := FreedomKeeper.isUsedVector_sound (Bool.of_not_eq_false hfree)
    exact reindex_effect h hlo hused hrun

/-- An operation that says nothing of a table. -/
theorem effect_other {op : Op} {tableId : TableId}
    (h : ∀ x, op.inserts tableId x = false ∧ op.updates tableId x = none) (st : Storage) :
    Effect (fun x => op.inserts tableId x) (fun x => st.hits op tableId x) st st := by
  have hnew : (fun x => op.inserts tableId x) = fun _ => false := funext fun x => (h x).1
  have hhit : (fun x => st.hits op tableId x) = fun _ => none :=
    funext fun x => by rw [hits, (h x).2]; rfl
  rw [hnew, hhit]
  exact quiet_refl st

theorem effect_insertInto {tableId : TableId} {recordId : Int}
    (h : Effect (fun x => Records.range recordId 1 x) (fun _ => none) st st') :
    Effect (fun x => (Op.insertInto tableId recordId).inserts tableId x)
      (fun x => st'.hits (.insertInto tableId recordId) tableId x) st st' := by
  simpa [Op.inserts, hits, Op.updates] using h

theorem effect_insertVector {tableId : TableId} {recordId : Int} {size : Nat}
    (h : Effect (fun x => Records.range recordId size x) (fun _ => none) st st') :
    Effect (fun x => (Op.insertVector tableId recordId size).inserts tableId x)
      (fun x => st'.hits (.insertVector tableId recordId size) tableId x) st st' := by
  simpa [Op.inserts, hits, Op.updates] using h

/-- Updates of a field that the table has, and of one that it has not. -/
theorem hits_eq {op : Op} {tableId : TableId} {ty : Ty} {fieldId : FieldId} {recordId : Int}
    {size : Nat} (hop : ∀ x, op.updates tableId x
      = if tableId = tableId ∧ Records.range recordId size x = true then some (ty, fieldId)
        else none) (hhas : st.Has ty fieldId) :
    (fun x => st.hits op tableId x) = hitRange fieldId recordId size := by
  funext x
  rw [hits, hop x, hitRange]
  by_cases hin : Records.range recordId size x = true
  · rw [if_pos ⟨rfl, hin⟩, if_pos hin]
    exact if_pos hhas
  · rw [if_neg fun h => hin h.2, if_neg hin]
    rfl

theorem hits_eq_none {op : Op} {tableId : TableId} {ty : Ty} {fieldId : FieldId}
    (hop : ∀ x, op.updates tableId x = some (ty, fieldId) ∨ op.updates tableId x = none)
    (hhas : ¬ st.Has ty fieldId) :
    (fun x => st.hits op tableId x) = fun _ => none := by
  funext x
  rw [hits]
  obtain h | h := hop x
  · rw [h]
    exact if_neg hhas
  · rw [h]
    rfl

end Storage

namespace Database

variable {db db' : Database}

def InOrder (db : Database) : Prop := ∀ t ∈ db.tables, t.2.InOrder

/-- What an operation did to each of the tables. -/
def Follows (op : Op) (db db' : Database) : Prop :=
  ∀ t st', find db'.tables t = some st' → ∃ st, find db.tables t = some st ∧
    Storage.Effect (fun x => op.inserts t x) (fun x => st'.hits op t x) st st'

theorem follows_same {op : Op} (h : ∀ t x, op.inserts t x = false ∧ op.updates t x = none)
    (htables : db'.tables = db.tables) : Follows op db db' :=
  fun t st hfind => ⟨st, htables ▸ hfind, Storage.effect_other (h t) st⟩

theorem follows_assign {op : Op} {tableId : TableId} {st st' : Storage}
    (hother : ∀ t, t ≠ tableId → ∀ x, op.inserts t x = false ∧ op.updates t x = none)
    (hfind : find db.tables tableId = some st)
    (heffect : Storage.Effect (fun x => op.inserts tableId x) (fun x => st'.hits op tableId x)
      st st') :
    Follows op db { db with tables := assign db.tables tableId st' } := by
  intro t s hs
  rw [show find ({ db with tables := assign db.tables tableId st' } : Database).tables t
    = find (assign db.tables tableId st') t from rfl, find_assign_eq] at hs
  by_cases ht : t = tableId
  · subst ht
    rw [if_pos rfl, hfind] at hs
    obtain rfl := Option.some.inj hs
    exact ⟨st, hfind, heffect⟩
  · rw [if_neg ht] at hs
    exact ⟨s, hs, Storage.effect_other (hother t ht) s⟩

theorem follows_idle {op : Op} {tableId : TableId} {st : Storage}
    (hother : ∀ t, t ≠ tableId → ∀ x, op.inserts t x = false ∧ op.updates t x = none)
    (hfind : find db.tables tableId = some st)
    (heffect : Storage.Effect (fun x => op.inserts tableId x) (fun x => st.hits op tableId x)
      st st) : Follows op db db := by
  have hfollows := follows_assign hother hfind heffect
  rw [assign_self hfind] at hfollows
  exact hfollows

theorem follows_missing {op : Op} {tableId : TableId}
    (hother : ∀ t, t ≠ tableId → ∀ x, op.inserts t x = false ∧ op.updates t x = none)
    (hfind : find db.tables tableId = none) : Follows op db db := by
  intro t st hst
  refine ⟨st, hst, Storage.effect_other (hother t ?_) st⟩
  rintro rfl
  rw [hfind] at hst
  cases hst

theorem onTable_follows {op : Op} {tableId : TableId} {m : EStateM Exn Storage Unit}
    (hother : ∀ t, t ≠ tableId → ∀ x, op.inserts t x = false ∧ op.updates t x = none)
    (hm : ∀ st st', st.InOrder → m st = .ok () st' → Storage.Effect
      (fun x => op.inserts tableId x) (fun x => st'.hits op tableId x) st st')
    (h : db.InOrder) (hrun : onTable tableId (pure ()) m db = .ok () db') :
    Follows op db db' := by
  cases hfind : find db.tables tableId with
  | none =>
      rw [onTable, hfind] at hrun
      obtain rfl := (EStateM.Result.ok.inj hrun).2
      exact follows_missing hother hfind
  | some st =>
      obtain ⟨st', hst', rfl⟩ := onTable_eq_ok hfind hrun
      exact follows_assign hother hfind (hm st st' (h _ (mem_of_find hfind)) hst')

/-- No entry of a record that is left has changed in any table. -/
def Quiet (db db' : Database) : Prop :=
  ∀ t st', find db'.tables t = some st' → ∃ st, find db.tables t = some st ∧ st.Quiet st'

theorem quiet_refl (db : Database) : Quiet db db :=
  fun _ st hfind => ⟨st, hfind, Storage.quiet_refl st⟩

theorem onTable_quiet {α : Type} {tableId : TableId} {absent : EStateM Exn Database α}
    {m : EStateM Exn Storage α} {e : Exn} (habsent : after absent db = db)
    (hm : ∀ st st', find db.tables tableId = some st → m st = .error e st' → st.Quiet st')
    (hrun : onTable tableId absent m db = .error e db') : Quiet db db' := by
  rw [onTable] at hrun
  cases hfind : find db.tables tableId with
  | none =>
      rw [hfind] at hrun
      rw [show db' = db from (after_error hrun).symm.trans habsent]
      exact quiet_refl db
  | some st =>
      rw [hfind] at hrun
      simp only [] at hrun
      cases hst : m st with
      | ok a st' =>
          rw [hst] at hrun
          cases hrun
      | error e' st' =>
          rw [hst] at hrun
          obtain ⟨rfl, rfl⟩ := EStateM.Result.error.inj hrun
          intro t s hs
          rw [show find ({ db with tables := assign db.tables tableId st' } : Database).tables t
            = find (assign db.tables tableId st') t from rfl, find_assign_eq] at hs
          by_cases ht : t = tableId
          · subst ht
            rw [if_pos rfl, hfind] at hs
            obtain rfl := Option.some.inj hs
            exact ⟨st, hfind, hm st _ hfind hst⟩
          · rw [if_neg ht] at hs
            exact ⟨s, hs, Storage.quiet_refl s⟩

end Database

/-! ## What is heard -/

namespace Storage

variable {st st' : Storage}

theorem Written.has {ty : Ty} {fieldId : FieldId} {i : Nat} {vs : List ty.Storage}
    (h : Written ty fieldId i vs st st') (hhas : st.Has ty fieldId) : st'.Has ty fieldId := by
  obtain ⟨c, hc, rfl⟩ := hhas
  refine ⟨c.put c.ty (copyN · i vs), ?_, ?_⟩
  · show find st'.columns fieldId = _
    rw [h.columns, if_pos rfl, show find st.columns fieldId = some c from hc]
    rfl
  · rw [Column.put, dif_pos rfl]

theorem update_effect (h : st.InOrder) {ty : Ty} {tableId : TableId} {recordId : Int}
    {fieldId : FieldId} {value : ty.Arg} (hhas : st.Has ty fieldId)
    (hrun : internalUpdate ty recordId fieldId value st = .ok () st') :
    Effect (fun x => (Op.update ty tableId recordId fieldId value).inserts tableId x)
      (fun x => st'.hits (.update ty tableId recordId fieldId value) tableId x) st st' := by
  have hwritten := (internalUpdate_ok h.sound hrun).2
  rw [hits_eq (fun x => rfl) (hwritten.has hhas)]
  exact internalUpdate_effect h hrun

theorem updateVector_effect (h : st.InOrder) {ty : Ty} {tableId : TableId} {recordId : Int}
    {fieldId : FieldId} {values : List ty.Storage} (hhas : st.Has ty fieldId)
    (hrun : internalUpdateVector ty recordId fieldId values
      (st.write ty fieldId recordId.toNat values) = .ok () st') :
    Effect (fun x => (Op.updateVector ty tableId recordId fieldId values).inserts tableId x)
      (fun x => st'.hits (.updateVector ty tableId recordId fieldId values) tableId x) st st' := by
  have hsound := h.sound.write ty fieldId recordId.toNat values
  have hwritten := (internalUpdateVector_ok hsound hrun).2
  rw [hits_eq (fun x => rfl) (hwritten.has (has_write hhas _ _))]
  exact internalUpdateVector_effect h hrun

end Storage

namespace Database

variable {db db' : Database}

theorem insertInto_follows {t : TableId} {r : Int} (h : db.InOrder)
    (hrun : insertInto t r db = .ok () db') : Follows (.insertInto t r) db db' := by
  rw [insertInto, get_bind_run] at hrun
  obtain ⟨hout, hrun⟩ := exception_bind_eq_ok.mp hrun
  have hlo : 0 ≤ r := Int.not_lt.mp fun hneg => hout (.inl hneg)
  refine onTable_follows (fun t' ht x => ⟨?_, rfl⟩) (fun st st' hst hm => ?_) h hrun
  · rw [Op.inserts, decide_eq_false ht.symm, Bool.false_and]
  · exact Storage.effect_insertInto (Storage.insertRecord_effect hst hlo hm)

theorem insertVector_follows {t : TableId} {r : Int} {n : Nat} (h : db.InOrder)
    (hrun : insertVector t r n db = .ok () db') : Follows (.insertVector t r n) db db' := by
  rw [insertVector, get_bind_run] at hrun
  obtain ⟨hout, hrun⟩ := exception_bind_eq_ok.mp hrun
  refine onTable_follows (fun t' ht x => ⟨?_, rfl⟩) (fun st st' hst hm => ?_) h hrun
  · rw [Op.inserts, decide_eq_false ht.symm, Bool.false_and]
  · exact Storage.effect_insertVector (Storage.insertRecords_effect hst hm)

theorem updates_other {op : Op} {t t' : TableId} {u : Ty × FieldId} {inRange : Int → Bool}
    (hop : ∀ x, op.updates t' x = if t = t' ∧ inRange x = true then some u else none)
    (ht : t' ≠ t) (x : Int) : op.updates t' x = none := by
  rw [hop, if_neg fun h => ht h.1.symm]

theorem updates_some_or {op : Op} {t : TableId} {u : Ty × FieldId} {inRange : Int → Bool}
    (hop : ∀ x, op.updates t x = if t = t ∧ inRange x = true then some u else none) (x : Int) :
    op.updates t x = some u ∨ op.updates t x = none := by
  rw [hop]
  split
  · exact .inl rfl
  · exact .inr rfl

theorem onField_of_not_has {st : Storage} {ty : Ty} {fieldId : FieldId}
    (h : ¬ st.Has ty fieldId) (m : EStateM Exn Storage Unit) :
    onField ty fieldId m st = .ok () st := by
  rw [onField, get_bind_run,
    when_neg (show ¬ ∃ c ∈ find st.columns fieldId, c.ty = ty from h)]
  rfl

theorem update_follows {ty : Ty} {t : TableId} {r : Int} {f : FieldId} {v : ty.Arg}
    (h : db.InOrder)
    (hrun : onTable t (pure ()) (onField ty f (Storage.internalUpdate ty r f v)) db = .ok () db') :
    Follows (.update ty t r f v) db db' := by
  refine onTable_follows (fun t' ht x => ⟨rfl, updates_other (fun x => rfl) ht x⟩)
    (fun st st' hst hm => ?_) h hrun
  by_cases hhas : st.Has ty f
  · rw [onField_of_has hhas] at hm
    exact Storage.update_effect hst hhas hm
  · rw [onField_of_not_has hhas] at hm
    obtain rfl := (EStateM.Result.ok.inj hm).2
    rw [Storage.hits_eq_none (updates_some_or fun x => rfl) hhas]
    exact Storage.quiet_refl st

/-- The replay of a vector update writes into the column and goes on, if it has one. -/
theorem hearVector_cases {ty : Ty} {t : TableId} {r : Int} {f : FieldId}
    {vs : List ty.Storage} (hempty : vs.length ≠ 0) (h : db.InOrder)
    (hrun : asWritable.hear (.updateVector ty t r f vs) db = .ok () db') :
    (find db.tables t = none ∧ db' = db) ∨ ∃ st, find db.tables t = some st ∧
      ((¬ st.Has ty f ∧ db' = db) ∨ (st.Has ty f ∧ ∃ st',
        Storage.internalUpdateVector ty r f vs (st.write ty f r.toNat vs) = .ok () st' ∧
          db' = { db with tables := assign db.tables t st' })) := by
  rw [Writable.hear_updateVector, when_pos hempty, Writable.hearVector] at hrun
  obtain ⟨capacity, db₁, hown, hrest⟩ := bind_eq_ok hrun
  obtain ⟨hcapacity, rfl⟩ := EStateM.Result.ok.inj hown
  by_cases hout : r < 0 ∨ (∃ n ∈ capacity, r > n ∨ vs.length > n - r)
  · rw [when_pos hout] at hrest
    cases hrest
  rw [when_neg hout, pure_bind_run] at hrest
  -- without a pointer to write through, the values go to the call only
  have hcall : capacity = none →
      onTable t (pure ()) (onField ty f (Storage.internalUpdateVector ty r f vs)) db
        = .ok () db' := by
    rintro rfl
    exact hrest
  cases hfind : find db.tables t with
  | none =>
      have hthrough := hcall (by rw [← hcapacity, hfind]; rfl)
      rw [onTable, hfind] at hthrough
      exact .inl ⟨rfl, ((EStateM.Result.ok.inj hthrough).2).symm⟩
  | some st =>
      refine .inr ⟨st, rfl, ?_⟩
      by_cases hhas : st.Has ty f
      · refine .inr ⟨hhas, ?_⟩
        obtain ⟨c, hc, hty⟩ := id hhas
        have hsome : capacity
            = if c.ty = ty ∧ c.values.length ≠ 0 then some st.freedom.getSize else none := by
          rw [← hcapacity, hfind]
          simp only [Option.bind_eq_bind, Option.bind_some,
            show find st.columns f = some c from hc]
        by_cases hlength : c.values.length = 0
        · have hthrough := hcall (by rw [hsome, if_neg fun h => h.2 hlength])
          obtain ⟨st', hst', -⟩ := onTable_eq_ok hfind hthrough
          rw [onField_of_has hhas] at hst'
          have hused := (Storage.internalUpdateVector_eq_ok hst').1
          obtain ⟨hlo, hend, -⟩ := FreedomKeeper.isUsedVector_sound hused
          have hsize := (h _ (mem_of_find hfind)).sound.columns _ (mem_of_find hc)
          have hzero : st.freedom.getSize = 0 := hsize.symm.trans hlength
          rw [hzero] at hend
          exact absurd (Nat.pos_of_ne_zero hempty) (by omega)
        · rw [hsome, if_pos ⟨hty, hlength⟩, when_pos (by rfl), modify_bind_run,
            show asWritable.storeOwn ty t f r.toNat vs db
              = { db with tables := assign db.tables t (st.write ty f r.toNat vs) } by
                show storeOwn ty t f r.toNat vs db = _
                rw [storeOwn, hfind]] at hrest
          obtain ⟨st', hst', rfl⟩ := onTable_eq_ok (find_assign hfind _) hrest
          rw [onField_of_has (Storage.has_write hhas _ _)] at hst'
          exact ⟨st', hst', by simp only [assign_assign]⟩
      · refine .inl ⟨hhas, ?_⟩
        have hnone : capacity = none := by
          rw [← hcapacity, hfind]
          simp only [Option.bind_eq_bind, Option.bind_some]
          cases hc : find st.columns f with
          | none => rfl
          | some c => exact if_neg fun h => hhas ⟨c, hc, h.1⟩
        obtain ⟨st', hst', rfl⟩ := onTable_eq_ok hfind (hcall hnone)
        rw [onField_of_not_has hhas] at hst'
        obtain rfl := (EStateM.Result.ok.inj hst').2
        rw [assign_self hfind]

theorem updateVector_follows {ty : Ty} {t : TableId} {r : Int} {f : FieldId}
    {vs : List ty.Storage} (h : db.InOrder)
    (hrun : asWritable.hear (.updateVector ty t r f vs) db = .ok () db') :
    Follows (.updateVector ty t r f vs) db db' := by
  have hother : ∀ t', t' ≠ t → ∀ x, (Op.updateVector ty t r f vs).inserts t' x = false ∧
      (Op.updateVector ty t r f vs).updates t' x = none :=
    fun t' ht x => ⟨rfl, updates_other (fun x => rfl) ht x⟩
  by_cases hempty : vs.length = 0
  · rw [Writable.hear_updateVector, when_neg (not_not_intro hempty)] at hrun
    obtain rfl := (EStateM.Result.ok.inj hrun).2
    refine follows_same (fun t' x => ⟨rfl, ?_⟩) rfl
    rw [Op.updates, hempty, if_neg fun h => ?_]
    exact absurd (of_decide_eq_true h.2) (by omega)
  · obtain ⟨hfind, rfl⟩ | ⟨st, hfind, ⟨hhas, rfl⟩ | ⟨hhas, st', hst', rfl⟩⟩ :=
      hearVector_cases hempty h hrun
    · exact follows_missing hother hfind
    · refine follows_idle hother hfind ?_
      rw [Storage.hits_eq_none (updates_some_or fun x => rfl) hhas]
      exact Storage.quiet_refl st
    · exact follows_assign hother hfind
        (Storage.updateVector_effect (h _ (mem_of_find hfind)) hhas hst')

/-- What a replay hears happens to the indexes. -/
theorem hear_follows {op : Op} (h : db.InOrder) (hrun : asWritable.hear op db = .ok () db') :
    Follows op db db' := by
  cases op with
  | insertInto t r => exact insertInto_follows h hrun
  | insertVector t r n => exact insertVector_follows h hrun
  | deleteFrom t r =>
      exact onTable_follows (fun _ _ _ => ⟨rfl, rfl⟩)
        (fun st st' hst hm => ((Storage.internalDelete_left r).ok hm hst).2) h hrun
  | deleteVector t r n =>
      exact onTable_follows (fun _ _ _ => ⟨rfl, rfl⟩)
        (fun st st' hst hm => ((Storage.deleteVectorOf_left r n).ok hm hst).2) h hrun
  | update ty t r f v => exact update_follows h hrun
  | updateVector ty t r f vs => exact updateVector_follows h hrun
  | _ =>
      obtain rfl := (EStateM.Result.ok.inj hrun).2
      exact follows_same (fun _ _ => ⟨rfl, rfl⟩) rfl

/-- A vector that is inserted may be refused behind the resizing, and one that is deleted
would be refused record by record. -/
theorem hear_quiet {op : Op} {e : Exn} (h : db.InOrder)
    (hop : ∀ ty t f, (∀ r v, op ≠ .update ty t r f v) ∧ ∀ r vs, op ≠ .updateVector ty t r f vs)
    (hrun : asWritable.hear op db = .error e db') : Quiet db db' := by
  have hthrown : ∀ {c : Prop} [Decidable c] {message : String} {m : EStateM Exn Database Unit},
      (m db = .error e db' → Quiet db db') →
        (when c (throwException message) >>= fun _ => m) db = .error e db' → Quiet db db' := by
    intro c _ message m hm hrun
    by_cases hc : c
    · rw [when_pos hc] at hrun
      obtain ⟨-, rfl⟩ := EStateM.Result.error.inj hrun
      exact quiet_refl db
    · rw [when_neg hc, pure_bind_run] at hrun
      exact hm hrun
  have horder : ∀ {t : TableId} {st : Storage}, find db.tables t = some st → st.InOrder :=
    fun hfind => h _ (mem_of_find hfind)
  cases op with
  | insertInto t r =>
      refine hthrown (fun hrun => onTable_quiet rfl (fun st st' _ hst => ?_) hrun) hrun
      exact Storage.insertRecord_error hst ▸ Storage.quiet_refl st
  | insertVector t r n =>
      refine hthrown (fun hrun => onTable_quiet rfl (fun st st' hfind hst => ?_) hrun) hrun
      exact Storage.insertRecords_quiet (horder hfind) hst
  | deleteFrom t r =>
      exact onTable_quiet rfl (fun st st' hfind hst =>
        ((Storage.internalDelete_left r).error hst (horder hfind)).2) hrun
  | deleteVector t r n =>
      exact onTable_quiet rfl (fun st st' hfind hst =>
        ((Storage.deleteVectorOf_left r n).error hst (horder hfind)).2) hrun
  | update ty t r f v => exact absurd rfl ((hop ty t f).1 r v)
  | updateVector ty t r f vs => exact absurd rfl ((hop ty t f).2 r vs)
  | _ => cases hrun

/-! ## What is called -/

theorem inserts_other {tableId t : TableId} (ht : t ≠ tableId) (b : Bool) :
    (decide (tableId = t) && b) = false := by
  rw [decide_eq_false ht.symm, Bool.false_and]

end Database

/-- A record that is inserted under its id is not in use. -/
def Call.Unused (db : Database) : Call → Prop
  | .change (.insert t r) => ∀ st, find db.tables t = some st → st.freedom.isUsed r = false
  | _ => True

/-- A function that writes into a column, and goes on to the indexes. -/
def Call.isUpdate : Call → Bool
  | .change (.set ..) => true
  | .change (.updateVector ..) => true
  | .interrupted .. => true
  | _ => false

/-- What is called happens to the indexes. -/
theorem Change.perform_follows {db db' : Database} {c : Change} {op : Op} (h : db.InOrder)
    (hexists : c.Exists db) (hunused : (Call.change c).Unused db)
    (hrun : c.perform db = .ok op db') : Database.Follows op db db' := by
  obtain ⟨st, hfind, hhas⟩ := hexists
  obtain ⟨st', hst', rfl⟩ := Database.onTable_eq_ok hfind hrun
  have hst := h _ (mem_of_find hfind)
  cases c with
  | new t =>
      obtain ⟨rfl, hlo, hinsert⟩ := Storage.newRecord_insertRecord hst.sound "" hst'
      exact Database.follows_assign (fun _ ht x => ⟨Database.inserts_other ht _, rfl⟩) hfind
        (Storage.effect_insertInto (Storage.insertRecord_effect hst hlo hinsert))
  | insert t r =>
      obtain ⟨hsmall, rfl, rfl⟩ := Storage.insertAt_eq_ok hst'
      have hsame : Database.insertRecord "" r st = .ok () _ :=
        Storage.insertRecord_eq (hunused st hfind) hsmall
      exact Database.follows_assign (fun _ ht x => ⟨Database.inserts_other ht _, rfl⟩) hfind
        (Storage.effect_insertInto (Storage.insertRecord_effect hst (Int.natCast_nonneg r) hsame))
  | newVector t n =>
      obtain ⟨rfl, hinsert⟩ := Storage.newVector_insertRecords hst.sound hst'
      exact Database.follows_assign (fun _ ht x => ⟨Database.inserts_other ht _, rfl⟩) hfind
        (Storage.effect_insertVector (Storage.insertRecords_effect hst hinsert))
  | delete t r =>
      obtain ⟨_, st₁, hdelete, hpure⟩ := bind_eq_ok hst'
      obtain ⟨rfl, rfl⟩ := EStateM.Result.ok.inj hpure
      exact Database.follows_assign (fun _ _ _ => ⟨rfl, rfl⟩) hfind
        ((Storage.internalDelete_left r).ok hdelete hst).2
  | deleteVector t r n =>
      obtain ⟨_, st₁, hdelete, hpure⟩ := bind_eq_ok hst'
      obtain ⟨rfl, rfl⟩ := EStateM.Result.ok.inj hpure
      exact Database.follows_assign (fun _ _ _ => ⟨rfl, rfl⟩) hfind
        ((Storage.deleteRecords_left r n).ok hdelete hst).2
  | set ty t r f v =>
      obtain ⟨_, st₁, hupdate, hpure⟩ := bind_eq_ok hst'
      obtain ⟨rfl, rfl⟩ := EStateM.Result.ok.inj hpure
      exact Database.follows_assign
        (fun _ ht x => ⟨rfl, Database.updates_other (fun x => rfl) ht x⟩) hfind
        (Storage.update_effect hst (hhas _ rfl) hupdate)
  | updateVector ty t r f vs =>
      obtain ⟨_, st₁, hwrite, hrest⟩ := bind_eq_ok hst'
      obtain rfl := (EStateM.Result.ok.inj hwrite).2
      obtain ⟨_, st₂, hupdate, hpure⟩ := bind_eq_ok hrest
      obtain ⟨rfl, rfl⟩ := EStateM.Result.ok.inj hpure
      exact Database.follows_assign
        (fun _ ht x => ⟨rfl, Database.updates_other (fun x => rfl) ht x⟩) hfind
        (Storage.updateVector_effect hst (hhas _ rfl) hupdate)

/-! ## What keeps the tables in order -/

namespace Database

variable {db : Database}

theorem onTable_inOrder {α : Type} {tableId : TableId} {absent : EStateM Exn Database α}
    {m : EStateM Exn Storage α} (habsent : after absent db = db)
    (hm : ∀ st, find db.tables tableId = some st → st.InOrder → (after m st).InOrder)
    (h : db.InOrder) : (after (onTable tableId absent m) db).InOrder := by
  cases hfind : find db.tables tableId with
  | none =>
      rw [after, onTable, hfind]
      change (after absent db).InOrder
      rw [habsent]
      exact h
  | some st =>
      have hst := hm st hfind (h _ (mem_of_find hfind))
      rw [after, onTable, hfind]
      simp only []
      cases hrun : m st with
      | ok a st' =>
          rw [after_ok hrun] at hst
          exact forall_mem_assign h tableId hst
      | error e st' =>
          rw [after_error hrun] at hst
          exact forall_mem_assign h tableId hst

theorem onField_inOrder {ty : Ty} {fieldId : FieldId} {m : EStateM Exn Storage Unit}
    (hm : Keeps (fun st st' => st.InOrder → st'.InOrder) m) :
    Keeps (fun st st' => st.InOrder → st'.InOrder) (onField ty fieldId m) :=
  keeps_bind (fun _ _ _ h h' hst => h' (h hst)) (keeps_get fun _ h => h) fun _ =>
    keeps_when (fun _ h => h) hm

theorem call_inOrder (op : Op) (h : db.InOrder) : (after (call op) db).InOrder := by
  cases op with
  | insertInto t r =>
      rw [call, after, insertInto, get_bind_run]
      by_cases hout : r < 0 ∨ (db.maxRecordId ≠ 0 ∧ r ≥ db.maxRecordId)
      · rw [when_pos hout]
        exact h
      · rw [when_neg hout, pure_bind_run]
        exact onTable_inOrder rfl (fun st _ hst => hst.insertRecord
          (Int.not_lt.mp fun hneg => hout (.inl hneg))) h
  | insertVector t r n =>
      rw [call, after, insertVector, get_bind_run]
      by_cases hout : r < 0 ∨
          (db.maxRecordId ≠ 0 ∧ (r ≥ db.maxRecordId ∨ word n ≥ db.maxRecordId))
      · rw [when_pos hout]
        exact h
      · rw [when_neg hout, pure_bind_run]
        exact onTable_inOrder rfl (fun st _ hst => hst.insertRecords) h
  | deleteFrom t r => exact onTable_inOrder rfl (fun st _ hst => hst.internalDelete r) h
  | deleteVector t r n =>
      exact onTable_inOrder rfl
        (fun st _ hst => (Storage.deleteVectorOf_left r n st hst).1) h
  | update ty t r f v =>
      exact onTable_inOrder rfl (fun st _ hst =>
        onField_inOrder (Storage.internalUpdate_inOrder ty r f v) st hst) h
  | updateVector ty t r f vs =>
      exact onTable_inOrder rfl (fun st _ hst =>
        onField_inOrder (Storage.internalUpdateVector_inOrder ty r f vs) st hst) h
  | _ => exact h

theorem storeOwn_inOrder (h : db.InOrder) (ty : Ty) (tableId : TableId) (fieldId : FieldId)
    (recordId : Nat) (values : List ty.Storage) :
    (storeOwn ty tableId fieldId recordId values db).InOrder := by
  rw [storeOwn]
  cases hfind : find db.tables tableId with
  | none => exact h
  | some st =>
      exact forall_mem_assign h tableId ((h _ (mem_of_find hfind)).write ty fieldId _ _)

/-- A replay keeps the tables in order, to where it throws. -/
theorem hear_inOrder (op : Op) (h : db.InOrder) : (after (asWritable.hear op) db).InOrder := by
  have hcall : ∀ o : Op, Keeps (fun db db' : Database => db.InOrder → db'.InOrder)
      (asWritable.call o) := fun o db h => call_inOrder o h
  have hkeeps : Keeps (fun db db' : Database => db.InOrder → db'.InOrder)
      (asWritable.hear op) := by
    cases op with
    | updateVector ty t r f vs =>
        refine keeps_when (fun _ h => h) (keeps_bind (fun _ _ _ h h' hdb => h' (h hdb))
          (fun _ h => h) fun capacity => keeps_bind (fun _ _ _ h h' hdb => h' (h hdb))
            (keeps_when (fun _ h => h) (keeps_throw (fun _ h => h) _)) fun _ =>
              keeps_bind (fun _ _ _ h h' hdb => h' (h hdb)) (keeps_when (fun _ h => h)
                (keeps_modify fun db h => storeOwn_inOrder h ty t f r.toNat vs)) fun _ =>
                  hcall _)
    | writeBlob data => exact fun _ h => h
    | _ => exact hcall _
  exact hkeeps db h

end Database

/-- A call keeps the tables in order, also if it throws. -/
theorem Call.perform_inOrder {db : Database} {c : Call} (h : db.InOrder)
    (hunused : c.Unused db) : (after c.perform db).InOrder := by
  refine Database.onTable_inOrder rfl (fun st hfind hst => ?_) h
  have hpure : ∀ {m : EStateM Exn Storage Unit} {op : Op},
      Keeps (fun st st' => st.InOrder → st'.InOrder) m →
        Keeps (fun st st' => st.InOrder → st'.InOrder) (m >>= fun _ => pure op) :=
    fun hm => keeps_bind (fun _ _ _ h h' hst => h' (h hst)) hm fun _ => fun _ h => h
  cases c with
  | interrupted ty t r f vs thrown => exact hst.write ty f r.toNat vs
  | change c =>
      cases c with
      | new t =>
          show (after (Storage.newRecord t) st).InOrder
          cases hrun : Storage.newRecord t st with
          | error e st' =>
              rw [after_error hrun, Storage.newRecord_error hrun]
              exact hst
          | ok op st' =>
              obtain ⟨-, hlo, hinsert⟩ := Storage.newRecord_insertRecord hst.sound "" hrun
              rw [after_ok hrun, ← after_ok hinsert]
              exact hst.insertRecord hlo
      | insert t r =>
          show (after (Storage.insertAt t r) st).InOrder
          cases hrun : Storage.insertAt t r st with
          | error e st' =>
              rw [after_error hrun, Storage.insertAt_error hrun]
              exact hst
          | ok op st' =>
              obtain ⟨hsmall, -, rfl⟩ := Storage.insertAt_eq_ok hrun
              have hinsert : Database.insertRecord "" r st = .ok () _ :=
                Storage.insertRecord_eq (hunused st hfind) hsmall
              rw [after_ok hrun, ← after_ok hinsert]
              exact hst.insertRecord (Int.natCast_nonneg r)
      | newVector t n =>
          show (after (Storage.newVector t n) st).InOrder
          cases hrun : Storage.newVector t n st with
          | error e st' =>
              rw [after_error hrun, Storage.newVector_error hrun]
              exact hst
          | ok op st' =>
              obtain ⟨-, hinsert⟩ := Storage.newVector_insertRecords hst.sound hrun
              rw [after_ok hrun, ← after_ok hinsert]
              exact hst.insertRecords
      | delete t r => exact hpure (fun _ h => h.internalDelete r) st hst
      | deleteVector t r n =>
          exact hpure (fun st h => (Storage.deleteRecords_left r n st h).1) st hst
      | set ty t r f v => exact hpure (Storage.internalUpdate_inOrder ty r f v) st hst
      | updateVector ty t r f vs =>
          exact keeps_bind (fun _ _ _ h h' hst => h' (h hst))
            (keeps_modify fun _ h => h.write ty f r.toNat vs) (fun _ =>
              hpure (Storage.internalUpdateVector_inOrder ty r f vs)) st hst

/-- What throws without updating leaves the entries that are left as they are. -/
theorem Call.perform_quiet {db db' : Database} {c : Call} {e : Exn} (h : db.InOrder)
    (hc : c.isUpdate = false) (hrun : c.perform db = .error e db') : Database.Quiet db db' := by
  refine Database.onTable_quiet rfl (fun st st' hfind hst => ?_) hrun
  have hquiet : ∀ {m : EStateM Exn Storage Unit} {op : Op}, Keeps Storage.Left m →
      (m >>= fun _ => pure op) st = .error e st' → st.Quiet st' := by
    intro m op hm hthrown
    have herror := bind_eq_error (fun _ _ h => (by cases h)) hthrown
    exact (hm.error herror (h _ (mem_of_find hfind))).2
  cases c with
  | interrupted => cases hc
  | change c =>
      cases c with
      | new t => exact Storage.newRecord_error hst ▸ Storage.quiet_refl st
      | insert t r => exact Storage.insertAt_error hst ▸ Storage.quiet_refl st
      | newVector t n => exact Storage.newVector_error hst ▸ Storage.quiet_refl st
      | delete t r => exact hquiet (Storage.internalDelete_left r) hst
      | deleteVector t r n => exact hquiet (Storage.deleteRecords_left r n) hst
      | set => cases hc
      | updateVector => cases hc

/-! ## Runs -/

/-- A call, and what it writes into the journal: nothing, if it throws. -/
def Call.write (c : Call) : EStateM Exn (Database × List Op) Unit := fun s =>
  match c.perform s.1 with
  | .ok op db => .ok () (db, s.2 ++ [op])
  | .error e db => .error e (db, s.2)

theorem Call.write_eq_ok {c : Call} {db db' : Database} {journal journal' : List Op}
    (h : c.write (db, journal) = .ok () (db', journal')) :
    ∃ op, c.perform db = .ok op db' ∧ journal' = journal ++ [op] := by
  rw [write] at h
  cases hrun : c.perform db with
  | ok op db₁ =>
      rw [hrun] at h
      obtain ⟨rfl, rfl⟩ := Prod.mk.inj (EStateM.Result.ok.inj h).2
      exact ⟨op, rfl, rfl⟩
  | error e db₁ =>
      rw [hrun] at h
      cases h

theorem Call.write_eq_error {c : Call} {db db' : Database} {journal journal' : List Op} {e : Exn}
    (h : c.write (db, journal) = .error e (db', journal')) :
    c.perform db = .error e db' ∧ journal' = journal := by
  rw [write] at h
  cases hrun : c.perform db with
  | ok op db₁ =>
      rw [hrun] at h
      cases h
  | error e' db₁ =>
      rw [hrun] at h
      obtain ⟨rfl, hs⟩ := EStateM.Result.error.inj h
      obtain ⟨rfl, rfl⟩ := Prod.mk.inj hs
      exact ⟨rfl, rfl⟩

/-- A function that is called, or an operation that is heard. -/
inductive Action where
  | call (c : Call)
  | hear (op : Op)

def Action.isUpdate : Action → Bool
  | call c => c.isUpdate
  | hear (.update ..) => true
  | hear (.updateVector ..) => true
  | _ => false

/-- What was done, the operation that came of it if it did not throw, and what the
database was then. -/
structure Event where
  action : Action
  op : Option Op
  db : Database

/-- Calls and replays, with the events, the last one first, and the journal. Between
them, what is not in the tables may change. -/
inductive IndexRun (fresh : Database) : List Event → List Op → Database → Prop where
  | start : IndexRun fresh [] [] fresh
  | called {evs : List Event} {journal : List Op} {db db' : Database} {c : Change} {op : Op}
      (h : IndexRun fresh evs journal db) (hexists : c.Exists db)
      (hunused : (Call.change c).Unused db)
      (hrun : (Call.change c).write (db, journal) = .ok () (db', journal ++ [op])) :
      IndexRun fresh (⟨.call (.change c), some op, db'⟩ :: evs) (journal ++ [op]) db'
  | threw {evs : List Event} {journal journal' : List Op} {db db' : Database} {c : Call} {e : Exn}
      (h : IndexRun fresh evs journal db) (hunused : c.Unused db) (he : e.isDefined = true)
      (hrun : c.write (db, journal) = .error e (db', journal')) :
      IndexRun fresh (⟨.call c, none, db'⟩ :: evs) journal' db'
  | heard {evs : List Event} {journal : List Op} {db db' : Database} {op : Op}
      (h : IndexRun fresh evs journal db) (hrun : Database.asWritable.hear op db = .ok () db') :
      IndexRun fresh (⟨.hear op, some op, db'⟩ :: evs) (journal ++ [op]) db'
  | refused {evs : List Event} {journal : List Op} {db db' : Database} {op : Op} {e : Exn}
      (h : IndexRun fresh evs journal db) (he : e.isDefined = true)
      (hrun : Database.asWritable.hear op db = .error e db') :
      IndexRun fresh (⟨.hear op, none, db'⟩ :: evs) journal db'
  | moved {evs : List Event} {journal : List Op} {db db' : Database}
      (h : IndexRun fresh evs journal db) (htables : db'.tables = db.tables) :
      IndexRun fresh evs journal db'

/-- The fields of an index when a field that triggers it was last updated, if that was
after the record was inserted. -/
def lastKey (tableId : TableId) (ix : Index) (recordId : Int) : List Event → Option Key
  | [] => none
  | ev :: evs =>
      match ev.op, find ev.db.tables tableId with
      | some op, some st =>
          if op.inserts tableId recordId then none
          else if (st.hits op tableId recordId).any (ix.isTrigger ·) then
            some (ix.keyOf st.columns recordId)
          else lastKey tableId ix recordId evs
      | _, _ => lastKey tableId ix recordId evs

theorem lastKey_congr {tableId : TableId} {ix ix' : Index} (hfields : ix'.fieldIds = ix.fieldIds)
    (hunique : ix'.unique = ix.unique) (recordId : Int) (evs : List Event) :
    lastKey tableId ix' recordId evs = lastKey tableId ix recordId evs := by
  induction evs with
  | nil => rfl
  | cons ev evs ih =>
      have htrigger : (fun f => ix'.isTrigger f) = fun f => ix.isTrigger f :=
        funext fun f => Storage.isTrigger_congr hfields hunique f
      have hkey : ∀ columns, ix'.keyOf columns recordId = ix.keyOf columns recordId :=
        fun columns => Index.keyOf_congr hfields fun _ _ => rfl
      rw [lastKey, lastKey, htrigger, ih]
      split
      · rw [hkey]
      · rfl

/-- The indexes of a database are what the events make them. -/
def UpToDate (evs : List Event) (db : Database) : Prop :=
  ∀ t st, find db.tables t = some st → ∀ ix ∈ st.indexes, ∀ x, st.freedom.isUsed x = true →
    ix.iterator x = lastKey t ix x evs ∧
      (ix.unique = false → ∀ key, ix.iterator x = some key → key = ix.keyOf st.columns x)

theorem UpToDate.step {evs : List Event} {db db' : Database} {op : Op} (h : UpToDate evs db)
    (action : Action) (hfollows : Database.Follows op db db') :
    UpToDate (⟨action, some op, db'⟩ :: evs) db' := by
  intro t st' hfind' ix' hix' x hx
  obtain ⟨st, hfind, heffect⟩ := hfollows t st' hfind'
  obtain ⟨ix, hix, hfields, hunique, hfate⟩ := heffect ix' hix'
  have htrigger : (fun f => ix'.isTrigger f) = fun f => ix.isTrigger f :=
    funext fun f => Storage.isTrigger_congr hfields hunique f
  have hlast : lastKey t ix' x (⟨action, some op, db'⟩ :: evs)
      = if op.inserts t x then none
        else if (st'.hits op t x).any (ix.isTrigger ·) then some (ix'.keyOf st'.columns x)
        else lastKey t ix' x evs := by
    rw [lastKey, htrigger]
    simp only [hfind']
  rw [hlast]
  obtain ⟨hnew, hnone⟩ | ⟨hnew, hhit, hit⟩ | ⟨hnew, hhit, hkept⟩ := hfate x hx
  · rw [if_pos hnew]
    refine ⟨hnone, fun _ key hkey => ?_⟩
    rw [hnone] at hkey
    cases hkey
  · rw [if_neg (ne_true_of_eq_false hnew), if_pos hhit]
    exact ⟨hit, fun _ key hkey => (Option.some.inj (hit.symm.trans hkey)).symm⟩
  · rw [if_neg (ne_true_of_eq_false hnew), if_neg (ne_true_of_eq_false hhit)]
    obtain ⟨hlast', hcurrent⟩ := h t st hfind ix hix x hkept.used
    refine ⟨hkept.iterator.trans (hlast'.trans (lastKey_congr hfields hunique x evs).symm), ?_⟩
    intro hu key hkey
    have hu' := hunique.symm.trans hu
    exact (hcurrent hu' key (hkept.iterator.symm.trans hkey)).trans (hkept.key hu').symm

theorem UpToDate.quiet {evs : List Event} {db db' : Database} (h : UpToDate evs db)
    (action : Action) (hquiet : Database.Quiet db db') :
    UpToDate (⟨action, none, db'⟩ :: evs) db' := by
  intro t st' hfind' ix' hix' x hx
  obtain ⟨st, hfind, heffect⟩ := hquiet t st' hfind'
  obtain ⟨ix, hix, hfields, hunique, hfate⟩ := heffect ix' hix'
  obtain ⟨hfalse, -⟩ | ⟨-, hfalse, -⟩ | ⟨-, -, hkept⟩ := hfate x hx
  · cases hfalse
  · cases hfalse
  · obtain ⟨hlast, hcurrent⟩ := h t st hfind ix hix x hkept.used
    refine ⟨hkept.iterator.trans (hlast.trans (lastKey_congr hfields hunique x evs).symm), ?_⟩
    intro hu key hkey
    have hu' := hunique.symm.trans hu
    exact (hcurrent hu' key (hkept.iterator.symm.trans hkey)).trans (hkept.key hu').symm

namespace IndexRun

variable {fresh db : Database} {evs : List Event} {journal : List Op}

theorem isUsed_create (x : Int) : FreedomKeeper.create.isUsed x = false :=
  congrFun (congrArg Records.used FreedomKeeper.records_create) x

theorem fresh_inOrder (hfresh : fresh.Fresh) : fresh.InOrder := by
  intro t ht
  refine ⟨hfresh.sound t ht, fun ix hix => ?_⟩
  have hunused : ∀ x, t.2.freedom.isUsed x ≠ true := by
    intro x
    rw [hfresh.freedom t ht, isUsed_create]
    decide
  have hempty := hfresh.entries t ht ix hix
  refine ⟨fun x hx => absurd hx (hunused x), fun key x hmem => ?_,
    fun key x hx => absurd hx (hunused x), ?_, fun _ => ?_⟩
  · rw [hempty] at hmem
    cases hmem
  · rw [hempty]
    exact List.nodup_nil
  · rw [hempty]
    exact List.Pairwise.nil

theorem inOrder (hfresh : fresh.Fresh) (h : IndexRun fresh evs journal db) : db.InOrder := by
  induction h with
  | start => exact fresh_inOrder hfresh
  | called _ _ hunused hrun ih =>
      obtain ⟨op, hperform, -⟩ := Call.write_eq_ok hrun
      exact after_ok hperform ▸ Call.perform_inOrder ih hunused
  | threw _ hunused _ hrun ih =>
      exact after_error (Call.write_eq_error hrun).1 ▸ Call.perform_inOrder ih hunused
  | heard _ hrun ih => exact after_ok hrun ▸ Database.hear_inOrder _ ih
  | refused _ _ hrun ih => exact after_error hrun ▸ Database.hear_inOrder _ ih
  | moved _ htables ih =>
      intro t ht
      exact ih t (htables ▸ ht)

theorem journal_eq (h : IndexRun fresh evs journal db) :
    journal = evs.reverse.filterMap Event.op := by
  induction h with
  | start => rfl
  | called _ _ _ _ ih => rw [List.reverse_cons, List.filterMap_append, ← ih]; rfl
  | threw _ _ _ hrun ih =>
      rw [List.reverse_cons, List.filterMap_append, ← ih, (Call.write_eq_error hrun).2]
      exact (List.append_nil _).symm
  | heard _ _ ih => rw [List.reverse_cons, List.filterMap_append, ← ih]; rfl
  | refused _ _ _ ih =>
      rw [List.reverse_cons, List.filterMap_append, ← ih]
      exact (List.append_nil _).symm
  | moved _ _ ih => exact ih

theorem upToDate (hfresh : fresh.Fresh) (h : IndexRun fresh evs journal db)
    (hnone : ∀ ev ∈ evs, ev.op = none → ev.action.isUpdate = false) : UpToDate evs db := by
  induction h with
  | start =>
      intro t st hfind ix hix x hx
      rw [hfresh.freedom _ (mem_of_find hfind), isUsed_create] at hx
      cases hx
  | called h hexists hunused hrun ih =>
      obtain ⟨op, hperform, hjournal⟩ := Call.write_eq_ok hrun
      obtain rfl := List.append_inj_right hjournal rfl |> List.cons.inj |>.1
      exact (ih (List.forall_mem_cons.mp hnone).2).step _
        (Change.perform_follows (inOrder hfresh h) hexists hunused hperform)
  | threw h _ _ hrun ih =>
      obtain ⟨hthis, hrest⟩ := List.forall_mem_cons.mp hnone
      exact (ih hrest).quiet _
        (Call.perform_quiet (inOrder hfresh h) (hthis rfl) (Call.write_eq_error hrun).1)
  | heard h hrun ih =>
      exact (ih (List.forall_mem_cons.mp hnone).2).step _
        (Database.hear_follows (inOrder hfresh h) hrun)
  | refused h _ hrun ih =>
      obtain ⟨hthis, hrest⟩ := List.forall_mem_cons.mp hnone
      refine (ih hrest).quiet _ (Database.hear_quiet (inOrder hfresh h) (fun ty t f => ?_) hrun)
      exact ⟨fun r v heq => absurd (hthis rfl) (by rw [heq]; exact Bool.noConfusion),
        fun r vs heq => absurd (hthis rfl) (by rw [heq]; exact Bool.noConfusion)⟩
  | moved _ htables ih =>
      intro t st hfind
      exact ih hnone t st (htables ▸ hfind)

end IndexRun

/-- Whatever is called and replayed, and whatever of it throws, the entries of an index
are those of the records in use whose iterators point to them, a unique index has no
equal keys, and the journal has what did not throw. If no update has thrown, the entries
are the fields of the records at their last triggering updates. -/
theorem index_coherence {fresh db : Database} {evs : List Event} {journal : List Op}
    (hfresh : fresh.Fresh) (h : IndexRun fresh evs journal db) :
    (∀ t ∈ db.tables, ∀ ix ∈ t.2.indexes, ix.Coherent t.2.freedom.isUsed ∧
      (ix.unique = true → (∀ a b, ix.same a b = ix.same b a) →
        ∀ a ∈ ix.entries, ∀ b ∈ ix.entries, ix.same a.1 b.1 = true → a = b)) ∧
      journal = evs.reverse.filterMap Event.op ∧
      ((∀ ev ∈ evs, ev.op = none → ev.action.isUpdate = false) →
        ∀ t st, find db.tables t = some st → ∀ ix ∈ st.indexes, ∀ x,
          st.freedom.isUsed x = true →
            (∀ key, (key, x) ∈ ix.entries ↔ lastKey t ix x evs = some key) ∧
            (ix.unique = false → ∀ key, (key, x) ∈ ix.entries → key = ix.keyOf st.columns x)) := by
  have hinOrder := h.inOrder hfresh
  refine ⟨fun t ht ix hix => ?_, h.journal_eq, fun hnone t st hfind ix hix x hx => ?_⟩
  · have hcoherent := (hinOrder t ht).coherent ix hix
    exact ⟨hcoherent, fun hunique hsame a ha b hb hab =>
      hcoherent.eq_of_same hunique hsame ha hb hab⟩
  · have hcoherent := (hinOrder _ (mem_of_find hfind)).coherent ix hix
    obtain ⟨hlast, hcurrent⟩ := h.upToDate hfresh hnone t st hfind ix hix x hx
    rw [← hlast]
    exact ⟨fun key => ⟨fun hmem => (hcoherent.entry key x hmem).2, hcoherent.pointed key x hx⟩,
      fun hunique key hmem => hcurrent hunique key (hcoherent.entry key x hmem).2⟩

/-! ## One index -/

/-- The generated class of a table with one field, and a unique index on it. -/
def indexedClass : Database where
  nameSpace := "test"
  tables := [(1, { name := "t", singleRow := false, columns := [(1, ⟨.int8, []⟩)]
                   indexes := [{ nameSpace := "test", name := "by_a", fieldIds := [1]
                                 unique := true, same := fun a b => a == b
                                 wording := fun _ => "", entries := [], iterators := [] }]
                   freedom := .create })]
  maxRecordId := 0
  schema := []

def seven : Ty.int8.Arg := ⟨(7 : BitVec 8), rfl⟩

/-- Two records, the second of which is refused the value of the first. And three records,
of which the last ones are deleted as a vector, through the hole between them: the entry
of the first is what it was set to. -/
theorem index_coherence_refused :
    (∃ (evs : List Event) (journal : List Op) (db : Database),
      IndexRun indexedClass evs journal db ∧
      journal = [.insertInto 1 0, .update .int8 1 0 1 seven, .insertInto 1 1] ∧
      ∀ t ∈ db.tables, ∀ ix ∈ t.2.indexes, ix.Coherent t.2.freedom.isUsed) ∧
    ∃ (evs : List Event) (journal : List Op) (db : Database) (st : Storage),
      IndexRun indexedClass evs journal db ∧
      journal = [.insertVector 1 0 3, .update .int8 1 0 1 seven, .deleteFrom 1 1] ∧
      find db.tables 1 = some st ∧ st.freedom.isUsed 2 = false ∧
      ∀ ix ∈ st.indexes, ([⟨.int8, seven.val⟩], 0) ∈ ix.entries := by
  have hfresh : indexedClass.Fresh := by
    refine ⟨rfl, ?_, ?_, ?_, ?_⟩ <;> simp [indexedClass]
  have hfield : ∀ {st : Storage}, st.Has .int8 1 → ∀ f ∈ some (Ty.int8, (1 : FieldId)),
      st.Has f.1 f.2 := by
    intro st h f hf
    obtain rfl := Option.some.inj hf
    exact h
  constructor
  · have h₁ := IndexRun.called (c := .new 1) (.start : IndexRun indexedClass [] [] indexedClass)
      ⟨_, rfl, fun f hf => (by cases hf)⟩ trivial rfl
    have h₂ := IndexRun.called (c := .set .int8 1 0 1 seven) h₁
      ⟨_, rfl, hfield (by decide)⟩ trivial rfl
    have h₃ := IndexRun.called (c := .new 1) h₂ ⟨_, rfl, fun f hf => (by cases hf)⟩ trivial rfl
    have h₄ := IndexRun.threw (c := .change (.set .int8 1 1 1 seven)) h₃ trivial rfl rfl
    exact ⟨_, _, _, h₄, rfl, fun t ht ix hix => ((index_coherence hfresh h₄).1 t ht ix hix).1⟩
  · have h₁ := IndexRun.called (c := .newVector 1 3)
      (.start : IndexRun indexedClass [] [] indexedClass)
      ⟨_, rfl, fun f hf => (by cases hf)⟩ trivial rfl
    have h₂ := IndexRun.called (c := .set .int8 1 0 1 seven) h₁
      ⟨_, rfl, hfield (by decide)⟩ trivial rfl
    have h₃ := IndexRun.called (c := .delete 1 1) h₂ ⟨_, rfl, fun f hf => (by cases hf)⟩ trivial rfl
    have h₄ := IndexRun.threw (c := .change (.deleteVector 1 0 3)) h₃ trivial rfl rfl
    refine ⟨_, _, _, _, h₄, rfl, rfl, rfl, fun ix hix => ?_⟩
    have hupdates := (index_coherence hfresh h₄).2.2 (by simp [Action.isUpdate, Call.isUpdate])
    refine ((hupdates 1 _ rfl ix hix 0 rfl).1 _).mpr ?_
    obtain rfl := List.mem_singleton.mp hix
    rfl

end Compiled

end Joedb
