import Joedb.Compiled.WritableDatabase
import Joedb.Interpreted.TableSpec

/-!
# Storage in order

What the keeper of a table needs is that nothing comes into use twice and nothing
is freed twice, and then the vectors beside it are as long as it says. `Sound` is
both. A replay keeps it: it looks before it inserts, and the functions that it
shares with the writer look before they delete and update. The writer keeps it where
it does what a replay does.
-/

namespace Joedb

namespace FreedomKeeper

/-! ## Records that are new -/

/-- A free record is there, or the keeper grows by it. -/
theorem Orders.getFreeRecord_eq {k : FreedomKeeper} {us : List Int} (h : k.Orders us) :
    k.getFreeRecord.1 < k.getSize ∧ k.getFreeRecord.2 = k ∨
      k.getFreeRecord.1 = k.getSize ∧ k.getFreeRecord.2 = k.resize (k.getSize + 1) := by
  obtain ⟨⟨-, hhi⟩, -⟩ := h.getFreeRecord
  rcases k with ⟨lfk, dfk, dense, untouched⟩
  cases dense with
  | true =>
      obtain ⟨usedSize, freeSize, hle⟩ := dfk
      by_cases heq : freeSize = usedSize
      · subst heq
        refine .inr ⟨rfl, ?_⟩
        simp [FreedomKeeper.getFreeRecord, FreedomKeeper.resize, FreedomKeeper.switch, getSize,
          DenseFreedomKeeper.getFreeRecord, DenseFreedomKeeper.getSize,
          DenseFreedomKeeper.pushBack, DenseFreedomKeeper.resize]
      · refine .inl ⟨?_, ?_⟩
        · show (usedSize : Int) < (freeSize : Int)
          omega
        · simp only [FreedomKeeper.getFreeRecord, FreedomKeeper.switch, if_true,
            DenseFreedomKeeper.getFreeRecord, if_neg heq]
  | false =>
      obtain ⟨fs, hk⟩ := (orders_list rfl).mp h
      have hfree := hk.getFreeRecord
      simp only at hfree
      by_cases hfull : lfk.records.isFull = true
      · rw [if_pos hfull] at hfree
        have hgrow : lfk.resize (lfk.freedomSize + 1) = lfk.pushBack := by
          rw [ListFreedomKeeper.resize, ListFreedomKeeper.getSize, Nat.add_sub_cancel_left,
            ListFreedomKeeper.resizeGo]
          exact if_pos (Nat.lt_succ_self lfk.freedomSize)
        refine .inr ⟨?_, ?_⟩
        · show lfk.getFreeRecord.1 = _
          rw [hfree]
          rfl
        · simp only [FreedomKeeper.getFreeRecord, FreedomKeeper.resize, FreedomKeeper.switch,
            getSize, if_false, Bool.false_eq_true, hfree, ListFreedomKeeper.getSize, hgrow]
      · rw [if_neg hfull] at hfree
        refine .inl ⟨?_, ?_⟩
        · rw [Records.call, records_list rfl, if_neg hfull] at hhi
          exact hhi
        · simp only [FreedomKeeper.getFreeRecord, FreedomKeeper.switch, if_false,
            Bool.false_eq_true, hfree]

end FreedomKeeper

namespace Compiled

open ByteFile Containers StateExcept

/-! ## Storage in order -/

/-- The keeper is in order, and the vectors are as long as it says. An `index_t` counts
its records. -/
structure Storage.Sound (st : Storage) : Prop where
  orders : ∃ us, st.freedom.Orders us
  small : st.freedom.getSize < 2 ^ 63
  columns : ∀ c ∈ st.columns, c.2.values.length = st.freedom.getSize
  iterators : ∀ ix ∈ st.indexes, ix.iterators.length = st.freedom.getSize

theorem length_resize_self {α : Type} {xs : List α} {n : Nat} (h : xs.length = n) (x : α) :
    Containers.resize xs n x = xs := by
  rw [Containers.resize, ← h, List.take_length, Nat.sub_self, List.replicate_zero,
    List.append_nil]

namespace Index

@[simp] theorem length_remove (recordId : RecordId) (ix : Index) :
    (ix.remove recordId).iterators.length = ix.iterators.length := by
  rw [remove]
  split
  · rfl
  · exact List.length_set

@[simp] theorem length_add (columns : List (FieldId × Column)) (recordId : RecordId)
    (ix : Index) : (ix.add columns recordId).1.iterators.length = ix.iterators.length := by
  rw [add]
  split
  · rfl
  · exact List.length_set

@[simp] theorem length_removeAll (recordId : RecordId) (size : Nat) (ix : Index) :
    (ix.removeAll recordId size).iterators.length = ix.iterators.length := by
  induction size generalizing recordId ix with
  | zero => rfl
  | succ size ih => rw [removeAll, ih, length_remove]

@[simp] theorem length_addAll (columns : List (FieldId × Column)) (recordId : RecordId)
    (size : Nat) (ix : Index) :
    (ix.addAll columns recordId size).1.iterators.length = ix.iterators.length := by
  induction size generalizing recordId ix with
  | zero => rfl
  | succ size ih =>
      have hadd := length_add columns recordId ix
      rw [addAll]
      split
      · next ix' heq =>
          rw [heq] at hadd
          rw [ih]
          exact hadd
      · next ix' e heq =>
          rw [heq] at hadd
          exact hadd

theorem length_trigger {fieldId : FieldId} {g : Index → Index × Option Exn} {n : Nat}
    (hg : ∀ ix, (g ix).1.iterators.length = ix.iterators.length) {ixs : List Index}
    (h : ∀ ix ∈ ixs, ix.iterators.length = n) :
    ∀ ix ∈ (trigger fieldId g ixs).1, ix.iterators.length = n := by
  induction ixs with
  | nil => exact h
  | cons ix ixs ih =>
      obtain ⟨hix, hixs⟩ := List.forall_mem_cons.mp h
      have hgix := hg ix
      rw [trigger]
      split
      · split
        · next ix' heq =>
            rw [heq] at hgix
            exact List.forall_mem_cons.mpr ⟨hgix.trans hix, ih hixs⟩
        · next ix' e heq =>
            rw [heq] at hgix
            exact List.forall_mem_cons.mpr ⟨hgix.trans hix, hixs⟩
      · exact List.forall_mem_cons.mpr ⟨hix, ih hixs⟩

end Index

namespace Storage

variable {st : Storage}

theorem resize_of_getSize (h : st.Sound) : st.resize st.freedom.getSize = st := by
  have hcolumns : st.columns.map (fun c => (c.1, c.2.resize st.freedom.getSize))
      = st.columns := by
    refine (List.map_congr_left fun c hc => ?_).trans (List.map_id _)
    show (c.1, Column.mk c.2.ty _) = c
    rw [length_resize_self (h.columns c hc)]
  have hindexes : (st.indexes.map fun ix =>
      { ix with iterators := Containers.resize ix.iterators st.freedom.getSize none })
        = st.indexes := by
    refine (List.map_congr_left fun ix hix => ?_).trans (List.map_id _)
    rw [length_resize_self (h.iterators ix hix)]
    rfl
  rw [Storage.resize, hcolumns, hindexes, FreedomKeeper.resize_of_le (Nat.le_refl _)]

/-- Freedom that is changed legally, beside vectors of the same lengths. -/
theorem Sound.of_call (h : st.Sound) {c : FreedomCall} (hc : st.freedom.records.Legal c)
    {st' : Storage} (hfreedom : st'.freedom = st.freedom.call c)
    (hsmall : (st.freedom.call c).getSize < 2 ^ 63)
    (hcolumns : ∀ x ∈ st'.columns, x.2.values.length = (st.freedom.call c).getSize)
    (hiterators : ∀ ix ∈ st'.indexes, ix.iterators.length = (st.freedom.call c).getSize) :
    st'.Sound := by
  obtain ⟨us, hus⟩ := h.orders
  refine ⟨⟨_, hfreedom ▸ (hus.call hc).2⟩, hfreedom ▸ hsmall, ?_, ?_⟩
  · rw [hfreedom]; exact hcolumns
  · rw [hfreedom]; exact hiterators

theorem Sound.resize (h : st.Sound) {n : Nat} (hn : st.freedom.getSize ≤ n) (hn' : n < 2 ^ 63) :
    (st.resize n).Sound := by
  obtain ⟨us, hus⟩ := h.orders
  have hsize : (st.freedom.resize n).getSize = n :=
    (congrArg Records.size (FreedomKeeper.records_resize st.freedom n)).trans
      (Nat.max_eq_right hn)
  refine h.of_call (c := .resize n) trivial rfl (hsize.symm ▸ hn') ?_ ?_
  · intro x hx
    obtain ⟨c, -, rfl⟩ := List.mem_map.mp hx
    exact (length_resize _ _ _).trans hsize.symm
  · intro x hx
    obtain ⟨c, -, rfl⟩ := List.mem_map.mp hx
    exact (length_resize _ _ _).trans hsize.symm

/-- A record that is free comes into use. -/
theorem Sound.internalInsert (h : st.Sound) {recordId : RecordId}
    (hin : 0 ≤ recordId ∧ recordId < st.freedom.getSize)
    (hfree : st.freedom.isUsed recordId = false) : (internalInsert recordId st).Sound := by
  have hsize : (st.freedom.use recordId).getSize = st.freedom.getSize :=
    congrArg Records.size (FreedomKeeper.records_use st.freedom hin.1 hin.2)
  refine h.of_call (c := .use recordId) ⟨hin, hfree⟩ rfl (hsize ▸ h.small) ?_ ?_
  · intro x hx
    exact (h.columns x hx).trans hsize.symm
  · intro x hx
    obtain ⟨ix, hix, rfl⟩ := List.mem_map.mp hx
    exact (length_copyN _ _ _).trans ((h.iterators ix hix).trans hsize.symm)

theorem Sound.internalVectorInsert (h : st.Sound) {recordId : RecordId} {size : Nat}
    (hin : recordId + size ≤ st.freedom.getSize) {st' : Storage}
    (hrun : internalVectorInsert recordId size st = .ok () st') : st'.Sound := by
  rw [Storage.internalVectorInsert, get_bind_run] at hrun
  cases hfree : st.freedom.isFreeVector recordId size with
  | false =>
      rw [when_pos hfree] at hrun
      cases hrun
  | true =>
      rw [when_neg (by rw [hfree]; decide)] at hrun
      obtain rfl := (EStateM.Result.ok.inj hrun).2
      obtain ⟨hlo, hunused⟩ := FreedomKeeper.isFreeVector_sound hfree
      have hsize : (st.freedom.useVector recordId size).getSize = st.freedom.getSize :=
        congrArg Records.size (FreedomKeeper.records_useVector st.freedom hlo hin)
      refine h.of_call (c := .useVector recordId size) (fun x hx => ?_) rfl ?_ ?_ ?_
      · obtain ⟨hx₁, hx₂⟩ := mem_ints.mp hx
        exact ⟨⟨Int.le_trans hlo hx₁, Int.lt_of_lt_of_le hx₂ hin⟩, hunused x hx₁ hx₂⟩
      · exact hsize ▸ h.small
      · intro x hx
        exact (h.columns x hx).trans hsize.symm
      · intro x hx
        obtain ⟨ix, hix, rfl⟩ := List.mem_map.mp hx
        exact (length_copyN _ _ _).trans ((h.iterators ix hix).trans hsize.symm)

theorem internalVectorInsert_error {recordId : Int} {size : Nat} {e : Exn}
    (hrun : internalVectorInsert recordId size st = .error e st') : st' = st := by
  rw [internalVectorInsert, get_bind_run] at hrun
  by_cases hfree : st.freedom.isFreeVector recordId size = false
  · rw [when_pos hfree] at hrun
    exact (EStateM.Result.error.inj hrun).2.symm
  · rw [when_neg hfree] at hrun
    cases hrun

theorem Sound.internalDelete (h : st.Sound) {recordId : RecordId} {st' : Storage}
    (hrun : internalDelete recordId st = .ok () st') : st'.Sound := by
  rw [Storage.internalDelete, get_bind_run] at hrun
  cases hused : st.freedom.isUsed recordId with
  | false =>
      rw [when_pos hused] at hrun
      cases hrun
  | true =>
      rw [when_neg (by rw [hused]; decide)] at hrun
      obtain rfl := (EStateM.Result.ok.inj hrun).2
      have hin := FreedomKeeper.lt_of_isUsed hused
      have hsize : (st.freedom.free recordId).getSize = st.freedom.getSize :=
        congrArg Records.size (FreedomKeeper.records_free st.freedom hin.1 hin.2)
      refine h.of_call (c := .free recordId) hused rfl (hsize ▸ h.small) ?_ ?_
      · intro x hx
        obtain ⟨c, hc, rfl⟩ := List.mem_map.mp hx
        exact List.length_set.trans ((h.columns c hc).trans hsize.symm)
      · intro x hx
        obtain ⟨ix, hix, rfl⟩ := List.mem_map.mp hx
        exact (Index.length_remove _ _).trans ((h.iterators ix hix).trans hsize.symm)

theorem Sound.deleteRecords (h : st.Sound) {recordId : RecordId} {size : Nat} {st' : Storage}
    (hrun : Database.deleteRecords recordId size st = .ok () st') : st'.Sound := by
  induction size generalizing st with
  | zero =>
      obtain rfl := (EStateM.Result.ok.inj hrun).2
      exact h
  | succ size ih =>
      obtain ⟨_, st₁, hdelete, hrest⟩ := bind_eq_ok hrun
      exact ih (h.internalDelete hdelete) hrest

theorem length_put (ty : Ty) (recordId : Nat) (values : List ty.Storage) (c : Column) :
    (c.put ty (copyN · recordId values)).values.length = c.values.length := by
  rw [Column.put]
  by_cases heq : c.ty = ty
  · subst heq
    rw [dif_pos rfl]
    exact length_copyN _ _ _
  · rw [dif_neg heq]

theorem Sound.write (h : st.Sound) (ty : Ty) (fieldId : FieldId) (recordId : Nat)
    (values : List ty.Storage) : (write ty fieldId recordId values st).Sound := by
  refine ⟨h.orders, h.small, fun x hx => ?_, h.iterators⟩
  obtain ⟨c, hc, rfl⟩ := List.mem_map.mp hx
  by_cases hfield : c.1 = fieldId
  · rw [if_pos hfield]
    exact (length_put ty recordId values c.2).trans (h.columns c hc)
  · rw [if_neg hfield]
    exact h.columns c hc

theorem Sound.triggerIndexes (h : st.Sound) {fieldId : FieldId}
    {g : List (FieldId × Column) → Index → Index × Option Exn}
    (hg : ∀ columns ix, (g columns ix).1.iterators.length = ix.iterators.length)
    {st' : Storage} (hrun : triggerIndexes fieldId g st = .ok () st') : st'.Sound := by
  have hst' : st' = { st with indexes := (Index.trigger fieldId (g st.columns) st.indexes).1 } := by
    rw [Storage.triggerIndexes, get_bind_run] at hrun
    cases hthrown : (Index.trigger fieldId (g st.columns) st.indexes).2 with
    | none =>
        rw [hthrown] at hrun
        exact (EStateM.Result.ok.inj hrun).2.symm
    | some e =>
        rw [hthrown] at hrun
        cases hrun
  subst hst'
  exact ⟨h.orders, h.small, h.columns, Index.length_trigger (hg _) h.iterators⟩

theorem Sound.internalUpdate (h : st.Sound) {ty : Ty} {recordId : RecordId} {fieldId : FieldId}
    {value : ty.Arg} {st' : Storage}
    (hrun : internalUpdate ty recordId fieldId value st = .ok () st') : st'.Sound := by
  rw [Storage.internalUpdate, get_bind_run] at hrun
  obtain ⟨hused, hrun⟩ := guard_bind_eq_ok.mp hrun
  rw [modify_bind_run] at hrun
  refine (h.write ty fieldId recordId.toNat [value.val]).triggerIndexes ?_ hrun
  intro columns ix
  rw [Index.length_add, Index.length_remove]

theorem Sound.internalUpdateVector (h : st.Sound) {ty : Ty} {recordId : RecordId}
    {fieldId : FieldId} {values : List ty.Storage} {st' : Storage}
    (hrun : internalUpdateVector ty recordId fieldId values st = .ok () st') : st'.Sound := by
  rw [Storage.internalUpdateVector, get_bind_run] at hrun
  obtain ⟨hused, hrun⟩ := guard_bind_eq_ok.mp hrun
  rw [modify_bind_run] at hrun
  refine (h.write ty fieldId recordId.toNat values).triggerIndexes ?_ hrun
  intro columns ix
  rw [Index.length_addAll, Index.length_removeAll]

/-! ## What a replay keeps in order -/

theorem getSize_resize (st : Storage) (n : Nat) :
    (st.resize n).freedom.getSize = max st.freedom.getSize n :=
  congrArg Records.size (FreedomKeeper.records_resize st.freedom n)

theorem isUsed_resize (st : Storage) (n : Nat) (x : RecordId) :
    (st.resize n).freedom.isUsed x = st.freedom.isUsed x :=
  congrFun (congrArg Records.used (FreedomKeeper.records_resize st.freedom n)) x

/-- What a vector needs of the sums: its end is an `index_t`. -/
theorem checkEnd_of_fits {recordId : Int} {size : Nat} (h : recordId + size < 2 ^ 63) :
    checkEnd recordId size st = .ok () st := by
  rw [checkEnd, get_bind_run, when_neg fun hend => absurd hend.1 (Int.not_le.mpr h),
    pure_bind_run, when_neg (Int.not_le.mpr h)]
  rfl

theorem checkEnd_cases (recordId : Int) (size : Nat) (st : Storage) :
    (recordId + size < 2 ^ 63 ∧ checkEnd recordId size st = .ok () st) ∨
      ∃ e, checkEnd recordId size st = .error e st := by
  by_cases hfits : recordId + size < 2 ^ 63
  · exact .inl ⟨hfits, checkEnd_of_fits hfits⟩
  · refine .inr ?_
    rw [checkEnd, get_bind_run]
    by_cases hlength : recordId + size ≥ 2 ^ 63 ∧ recordId + size < 2 ^ 64 ∧
        (st.columns.isEmpty = false ∨ st.indexes.isEmpty = false)
    · rw [when_pos hlength]
      exact ⟨_, rfl⟩
    · rw [when_neg hlength, pure_bind_run, when_pos (Int.not_lt.mp hfits)]
      exact ⟨_, rfl⟩

theorem checkEnd_keeps {R : Storage → Storage → Prop} (hrefl : ∀ st, R st st) (recordId : Int)
    (size : Nat) : Keeps R (checkEnd recordId size) := by
  intro st
  obtain ⟨-, hrun⟩ | ⟨e, hrun⟩ := checkEnd_cases recordId size st
  · rw [after_ok hrun]
    exact hrefl st
  · rw [after_error hrun]
    exact hrefl st

/-- An insertion, as far as the keeper has to grow for it. -/
theorem insertAt_eq (tableId : TableId) {recordId : Nat} (hsmall : recordId + 1 < 2 ^ 63)
    (st : Storage) :
    insertAt tableId recordId st = .ok (.insertInto tableId recordId)
      (internalInsert recordId (if st.freedom.getSize ≤ recordId then st.resize (recordId + 1)
        else st)) := by
  rw [insertAt, get_bind_run, when_neg (Nat.not_le.mpr hsmall), pure_bind_run]
  by_cases hgrow : st.freedom.getSize ≤ recordId
  · rw [when_pos hgrow, if_pos hgrow]
    rfl
  · rw [when_neg hgrow, if_neg hgrow]
    rfl

theorem insertAt_eq_ok {tableId : TableId} {recordId : Nat} {op : Op} {st' : Storage}
    (hrun : insertAt tableId recordId st = .ok op st') :
    recordId + 1 < 2 ^ 63 ∧ op = .insertInto tableId recordId ∧
      st' = internalInsert recordId
        (if st.freedom.getSize ≤ recordId then st.resize (recordId + 1) else st) := by
  have hsmall : recordId + 1 < 2 ^ 63 := by
    rw [insertAt, get_bind_run] at hrun
    exact Nat.not_le.mp (guard_bind_eq_ok.mp hrun).1
  rw [insertAt_eq tableId hsmall] at hrun
  obtain ⟨rfl, rfl⟩ := EStateM.Result.ok.inj hrun
  exact ⟨hsmall, rfl, rfl⟩

theorem insertRecord_eq {nameSpace : String} {recordId : Nat}
    (hfree : st.freedom.isUsed recordId = false) (hsmall : recordId + 1 < 2 ^ 63) :
    Database.insertRecord nameSpace recordId st = .ok ()
      (internalInsert recordId (if st.freedom.getSize ≤ recordId then st.resize (recordId + 1)
        else st)) := by
  rw [Database.insertRecord, get_bind_run, when_neg (by rw [hfree]; decide), pure_bind_run,
    when_neg (show ¬ ((recordId : Int) + 1 ≥ 2 ^ 63) by omega), pure_bind_run]
  by_cases hgrow : st.freedom.getSize ≤ recordId
  · rw [when_pos (Int.ofNat_le.mpr hgrow), if_pos hgrow]
    rfl
  · rw [when_neg (fun h => hgrow (Int.ofNat_le.mp h)), if_neg hgrow]
    rfl

theorem insertRecord_eq_ok {nameSpace : String} {recordId : Nat} {st' : Storage}
    (hrun : Database.insertRecord nameSpace recordId st = .ok () st') :
    st.freedom.isUsed recordId = false ∧ recordId + 1 < 2 ^ 63 ∧
      st' = internalInsert recordId
        (if st.freedom.getSize ≤ recordId then st.resize (recordId + 1) else st) := by
  have hchecks : st.freedom.isUsed recordId = false ∧ recordId + 1 < 2 ^ 63 := by
    rw [Database.insertRecord, get_bind_run] at hrun
    obtain ⟨hfree, hrun⟩ := guard_bind_eq_ok.mp hrun
    have hend : ¬ ((recordId : Int) + 1 ≥ 2 ^ 63) := (guard_bind_eq_ok.mp hrun).1
    exact ⟨Bool.of_not_eq_true hfree, by omega⟩
  rw [insertRecord_eq hchecks.1 hchecks.2] at hrun
  exact ⟨hchecks.1, hchecks.2, ((EStateM.Result.ok.inj hrun).2).symm⟩

/-- An insertion that throws looks first. -/
theorem insertRecord_error {nameSpace : String} {recordId : Int} {e : Exn} {st' : Storage}
    (hrun : Database.insertRecord nameSpace recordId st = .error e st') : st' = st := by
  rw [Database.insertRecord, get_bind_run] at hrun
  by_cases hused : st.freedom.isUsed recordId = true
  · rw [when_pos hused] at hrun
    exact (EStateM.Result.error.inj hrun).2.symm
  · rw [when_neg hused, pure_bind_run] at hrun
    by_cases hend : recordId + 1 ≥ 2 ^ 63
    · rw [when_pos hend] at hrun
      exact (EStateM.Result.error.inj hrun).2.symm
    · rw [when_neg hend, pure_bind_run] at hrun
      by_cases hgrow : (st.freedom.getSize : Int) ≤ recordId
      · rw [when_pos hgrow] at hrun
        cases hrun
      · rw [when_neg hgrow] at hrun
        cases hrun

/-- A vector that goes through ends at an `index_t`. -/
theorem insertRecords_eq {recordId : Int} {size : Nat} (hfits : recordId + size < 2 ^ 63) :
    Database.insertRecords recordId size st
      = internalVectorInsert recordId size
          (if (st.freedom.getSize : Int) < recordId + size then
            st.resize (recordId + size).toNat else st) := by
  rw [Database.insertRecords, bind_ok (checkEnd_of_fits hfits), get_bind_run]
  by_cases hgrow : (st.freedom.getSize : Int) < recordId + size
  · rw [when_pos hgrow, if_pos hgrow]
    rfl
  · rw [when_neg hgrow, if_neg hgrow]
    rfl

theorem insertRecords_fits {recordId : Int} {size : Nat} {st' : Storage}
    (hrun : Database.insertRecords recordId size st = .ok () st') :
    recordId + size < 2 ^ 63 := by
  obtain ⟨hfits, -⟩ | ⟨e, hthrown⟩ := checkEnd_cases recordId size st
  · exact hfits
  · rw [Database.insertRecords, bind_error hthrown] at hrun
    cases hrun

theorem Sound.insertRecord (h : st.Sound) {nameSpace : String} {recordId : RecordId}
    (hlo : 0 ≤ recordId) {st' : Storage}
    (hrun : Database.insertRecord nameSpace recordId st = .ok () st') : st'.Sound := by
  obtain ⟨r, rfl⟩ := Int.eq_ofNat_of_zero_le hlo
  obtain ⟨hfree, hsmall, rfl⟩ := insertRecord_eq_ok hrun
  by_cases hgrow : st.freedom.getSize ≤ r
  · rw [if_pos hgrow]
    refine (h.resize (Nat.le_succ_of_le hgrow) hsmall).internalInsert ⟨hlo, ?_⟩ ?_
    · rw [getSize_resize]
      exact Int.ofNat_lt.mpr (by omega)
    · rw [isUsed_resize]
      exact hfree
  · rw [if_neg hgrow]
    exact h.internalInsert ⟨hlo, Int.ofNat_lt.mpr (Nat.not_le.mp hgrow)⟩ hfree

theorem Sound.insertRecords (h : st.Sound) {recordId : RecordId} {size : Nat}
    (hlo : 0 ≤ recordId) {st' : Storage}
    (hrun : Database.insertRecords recordId size st = .ok () st') : st'.Sound := by
  obtain ⟨r, rfl⟩ := Int.eq_ofNat_of_zero_le hlo
  have hfits := insertRecords_fits hrun
  rw [insertRecords_eq hfits] at hrun
  by_cases hgrow : (st.freedom.getSize : Int) < r + size
  · have hend : ((r : Int) + size).toNat = r + size := by omega
    rw [if_pos hgrow, hend] at hrun
    refine (h.resize (by omega) (by omega)).internalVectorInsert ?_ hrun
    rw [getSize_resize]
    exact Int.ofNat_le.mpr (by omega)
  · rw [if_neg hgrow] at hrun
    exact h.internalVectorInsert (Int.not_lt.mp hgrow) hrun

end Storage

end Compiled

end Joedb
