import Joedb.Compiled.Soundness

/-!
# What storage holds

The generated database, seen in the same way: what is used, and the value of each
column for each record. A record that is deleted is cleared, so what is not in use
has the default.
-/

namespace Joedb.Compiled

open ByteFile Containers StateExcept

namespace Column

/-- The value of what is not there. -/
def blank (c : Column) : Value := ⟨c.ty, c.ty.kind.default⟩

theorem get_resize {c : Column} {n : Nat} (h : c.values.length ≤ n) (x : Nat) :
    (c.resize n).get x = c.get x :=
  congrArg (Sigma.mk c.ty) (getD_resize h _ _)

theorem get_clear (c : Column) {recordId : Int} (hlo : 0 ≤ recordId) (x : Nat) :
    (c.clear recordId).get x = if (x : Int) = recordId then c.blank else c.get x := by
  obtain ⟨ty, values⟩ := c
  show (⟨ty, (values.set recordId.toNat ty.kind.default).getD x ty.kind.default⟩ : Value) = _
  rw [List.getD_eq_getElem?_getD, List.getElem?_set]
  by_cases hx : (x : Int) = recordId
  · rw [if_pos hx, if_pos (by omega)]
    split
    · rfl
    · next hout =>
        rfl
  · rw [if_neg hx, if_neg (by omega), ← List.getD_eq_getElem?_getD]
    rfl

end Column

namespace Storage

variable {st st' : Storage}

/-- What happens to the columns when records come and go: a value is what it was, or
the record is not in use and has the default. -/
structure Moved (st st' : Storage) : Prop where
  sound : st'.Sound
  columns : ∀ fieldId c', find st'.columns fieldId = some c' →
    ∃ c, find st.columns fieldId = some c ∧ c'.ty = c.ty ∧ ∀ x : Nat,
      (c'.get x = c.get x ∧ (st'.freedom.isUsed x = false → st.freedom.isUsed x = false)) ∨
        (st'.freedom.isUsed x = false ∧ c'.get x = c.blank)

theorem Moved.refl (h : st.Sound) : Moved st st :=
  ⟨h, fun _ c hc => ⟨c, hc, rfl, fun _ => .inl ⟨rfl, id⟩⟩⟩

/-- One after the other, when the second takes nothing into use. -/
theorem Moved.trans {st'' : Storage} (h : Moved st st') (h' : Moved st' st'')
    (hless : ∀ x : Nat, st'.freedom.isUsed x = false → st''.freedom.isUsed x = false) :
    Moved st st'' := by
  refine ⟨h'.sound, fun fieldId c'' hc'' => ?_⟩
  obtain ⟨c', hc', hty', hvalues'⟩ := h'.columns fieldId c'' hc''
  obtain ⟨c, hc, hty, hvalues⟩ := h.columns fieldId c' hc'
  have hblank : c'.blank = c.blank := by rw [Column.blank, Column.blank, hty]
  refine ⟨c, hc, hty'.trans hty, fun x => ?_⟩
  obtain ⟨hsame', hfree'⟩ | ⟨hfree', hget'⟩ := hvalues' x
  · obtain ⟨hsame, hfree⟩ | ⟨hfree, hget⟩ := hvalues x
    · exact .inl ⟨hsame'.trans hsame, fun h => hfree (hfree' h)⟩
    · exact .inr ⟨hless x hfree, hsame'.trans hget⟩
  · exact .inr ⟨hfree', hget'.trans hblank⟩

/-- Columns that were resized, and a keeper that has more in use. -/
theorem moved_of_columns (hsound : st'.Sound) (hcolumns : ∀ fieldId c',
      find st'.columns fieldId = some c' → ∃ c, find st.columns fieldId = some c ∧ c'.ty = c.ty ∧
        ∀ x : Nat, c'.get x = c.get x)
    (hmore : ∀ x : Nat, st'.freedom.isUsed x = false → st.freedom.isUsed x = false) :
    Moved st st' := by
  refine ⟨hsound, fun fieldId c' hc' => ?_⟩
  obtain ⟨c, hc, hty, hget⟩ := hcolumns fieldId c' hc'
  exact ⟨c, hc, hty, fun x => .inl ⟨hget x, hmore x⟩⟩

theorem columns_resize (h : st.Sound) {n : Nat} (hle : st.freedom.getSize ≤ n)
    (fieldId : FieldId) (c' : Column) (hc' : find (st.resize n).columns fieldId = some c') :
    ∃ c, find st.columns fieldId = some c ∧ c'.ty = c.ty ∧ ∀ x : Nat, c'.get x = c.get x := by
  rw [show (st.resize n).columns = st.columns.map fun c => (c.1, c.2.resize n) from rfl,
    find_map] at hc'
  obtain ⟨c, hc, rfl⟩ := Option.map_eq_some_iff.mp hc'
  refine ⟨c, hc, rfl, fun x => Column.get_resize ?_ x⟩
  rw [h.columns _ (mem_of_find hc)]
  exact hle

theorem insertRecord_ok (h : st.Sound) {nameSpace : String} {recordId : Int}
    (hlo : 0 ≤ recordId)
    (hrun : Database.insertRecord nameSpace recordId st = .ok () st') :
    Moved st st' ∧ st'.freedom.isUsed = (st.freedom.records.use recordId 1).used := by
  have hsound := h.insertRecord hlo hrun
  obtain ⟨r, rfl⟩ := Int.eq_ofNat_of_zero_le hlo
  obtain ⟨-, -, rfl⟩ := insertRecord_eq_ok hrun
  have hused : (internalInsert r (if st.freedom.getSize ≤ r then st.resize (r + 1) else st)
      ).freedom.isUsed = (st.freedom.records.use r 1).used := by
    by_cases hgrow : st.freedom.getSize ≤ r
    · rw [if_pos hgrow]
      have hin : (r : Int) < (st.resize (r + 1)).freedom.getSize := by
        rw [getSize_resize]
        omega
      refine (congrArg Records.used
        (FreedomKeeper.records_use (st.resize (r + 1)).freedom hlo hin)).trans ?_
      rw [Records.use, Records.use, show (st.resize (r + 1)).freedom.records.used
        = st.freedom.records.used from funext (isUsed_resize st (r + 1))]
    · rw [if_neg hgrow]
      exact congrArg Records.used
        (FreedomKeeper.records_use st.freedom hlo (Int.ofNat_lt.mpr (Nat.not_le.mp hgrow)))
  refine ⟨moved_of_columns hsound (fun fieldId c' hc' => ?_) fun x hx => ?_, hused⟩
  · by_cases hgrow : st.freedom.getSize ≤ r
    · rw [if_pos hgrow] at hc'
      exact columns_resize h (Nat.le_succ_of_le hgrow) fieldId c' hc'
    · rw [if_neg hgrow] at hc'
      exact ⟨c', hc', rfl, fun x => rfl⟩
  · rw [hused] at hx
    exact (Bool.or_eq_false_iff.mp hx).1

theorem internalVectorInsert_ok (h : st.Sound) {recordId : Int} {size : Nat}
    (hin : recordId + size ≤ st.freedom.getSize)
    (hrun : internalVectorInsert recordId size st = .ok () st') :
    Moved st st' ∧ st'.freedom.isUsed = (st.freedom.records.use recordId size).used := by
  have hsound := h.internalVectorInsert hin hrun
  rw [internalVectorInsert, get_bind_run] at hrun
  obtain ⟨hfree, hrun⟩ := guard_bind_eq_ok.mp hrun
  obtain rfl := (EStateM.Result.ok.inj hrun).2
  obtain ⟨hlo, -⟩ := FreedomKeeper.isFreeVector_sound (Bool.of_not_eq_false hfree)
  have hused := congrArg Records.used
    (FreedomKeeper.records_useVector st.freedom hlo hin)
  refine ⟨moved_of_columns hsound (fun fieldId c' hc' => ⟨c', hc', rfl, fun x => rfl⟩)
    fun x hx => ?_, hused⟩
  have hx' := (congrFun hused x).symm.trans hx
  exact (Bool.or_eq_false_iff.mp hx').1

theorem insertRecords_ok (h : st.Sound) {recordId : Int} {size : Nat}
    (hrun : Database.insertRecords recordId size st = .ok () st') :
    Moved st st' ∧ st'.freedom.isUsed = (st.freedom.records.use recordId size).used := by
  have hfits := insertRecords_fits hrun
  rw [insertRecords_eq hfits] at hrun
  by_cases hgrow : (st.freedom.getSize : Int) < recordId + size
  · rw [if_pos hgrow] at hrun
    have hle : st.freedom.getSize ≤ (recordId + size).toNat := by omega
    have hsame : (st.resize (recordId + size).toNat).freedom.isUsed = st.freedom.isUsed :=
      funext (isUsed_resize st _)
    obtain ⟨hmoved, hused⟩ := internalVectorInsert_ok (h.resize hle (by omega))
      (by rw [getSize_resize]; omega) hrun
    refine ⟨moved_of_columns hmoved.sound (fun fieldId c'' hc'' => ?_) fun x hx => ?_, ?_⟩
    · rw [internalVectorInsert, get_bind_run] at hrun
      obtain ⟨hfree, hrun⟩ := guard_bind_eq_ok.mp hrun
      obtain rfl := (EStateM.Result.ok.inj hrun).2
      exact columns_resize h hle fieldId c'' hc''
    · have hx' := (congrFun hused x).symm.trans hx
      rw [← hsame]
      exact (Bool.or_eq_false_iff.mp hx').1
    · refine hused.trans ?_
      rw [Records.use, Records.use, show (st.resize (recordId + size).toNat).freedom.records.used
        = st.freedom.records.used from hsame]
  · rw [if_neg hgrow] at hrun
    exact internalVectorInsert_ok h (Int.not_lt.mp hgrow) hrun

theorem internalDelete_ok (h : st.Sound) {recordId : Int}
    (hrun : internalDelete recordId st = .ok () st') :
    Moved st st' ∧ st'.freedom.isUsed = (st.freedom.records.free recordId 1).used := by
  have hsound := h.internalDelete hrun
  rw [internalDelete, get_bind_run] at hrun
  obtain ⟨hunused, hrun⟩ := guard_bind_eq_ok.mp hrun
  obtain rfl := (EStateM.Result.ok.inj hrun).2
  have hin := FreedomKeeper.lt_of_isUsed (Bool.of_not_eq_false hunused)
  have hused := congrArg Records.used (FreedomKeeper.records_free st.freedom hin.1 hin.2)
  refine ⟨⟨hsound, fun fieldId c' hc' => ?_⟩, hused⟩
  rw [show find _ fieldId = find (st.columns.map fun c => (c.1, c.2.clear recordId)) fieldId
    from rfl, find_map] at hc'
  obtain ⟨c, hc, rfl⟩ := Option.map_eq_some_iff.mp hc'
  refine ⟨c, hc, rfl, fun x => ?_⟩
  rw [Column.get_clear c hin.1]
  have hx : (st.freedom.free recordId).isUsed x
      = (st.freedom.isUsed x && !Records.range recordId 1 x) := congrFun hused x
  by_cases heq : (x : Int) = recordId
  · rw [if_pos heq]
    refine .inr ⟨hx.trans ?_, rfl⟩
    rw [Records.range_one, decide_eq_true heq, Bool.not_true, Bool.and_false]
  · rw [if_neg heq]
    refine .inl ⟨rfl, fun hfree => ?_⟩
    have hx' := hx.symm.trans hfree
    rw [Records.range_one, decide_eq_false heq, Bool.not_false, Bool.and_true] at hx'
    exact hx'

theorem deleteRecords_ok (h : st.Sound) {recordId : Int} {size : Nat} (hlo : 0 ≤ recordId)
    (hfits : recordId + size < 2 ^ 63)
    (hrun : Database.deleteRecords recordId size st = .ok () st') :
    Moved st st' ∧ st'.freedom.isUsed = (st.freedom.records.free recordId size).used := by
  induction size generalizing st with
  | zero =>
      obtain rfl := (EStateM.Result.ok.inj hrun).2
      exact ⟨.refl h, by rw [Records.free_zero]; rfl⟩
  | succ size ih =>
      obtain ⟨_, st₁, hdelete, hrest⟩ := bind_eq_ok hrun
      rw [word_of_fits (by omega) (by omega)] at hdelete
      obtain ⟨hmoved, hused⟩ := internalDelete_ok h hdelete
      obtain ⟨hmoved', hused'⟩ := ih hmoved.sound (by omega) hrest
      refine ⟨hmoved.trans hmoved' fun x hx => ?_, ?_⟩
      · refine (congrFun hused' x).trans ?_
        show (st₁.freedom.isUsed x && _) = false
        rw [hx, Bool.false_and]
      · refine hused'.trans (funext fun x => ?_)
        show (st₁.freedom.isUsed x && _) = _
        rw [show st₁.freedom.isUsed x = _ from congrFun hused x]
        show (st.freedom.isUsed x && !Records.range (recordId + size) 1 x
          && !Records.range recordId size x)
          = (st.freedom.isUsed x && !Records.range recordId (size + 1) x)
        rw [Bool.and_assoc, ← Bool.not_or]
        congr 2
        simp only [Records.range]
        rw [← Bool.decide_or]
        exact decide_eq_decide.mpr (by omega)

/-- What happens to the columns when values are written over one of them, from a
record on. -/
structure Written (ty : Ty) (fieldId : FieldId) (i : Nat) (vs : List ty.Storage)
    (st st' : Storage) : Prop where
  sound : st'.Sound
  freedom : st'.freedom = st.freedom
  columns : ∀ id, find st'.columns id = if id = fieldId then
    (find st.columns id).map (·.put ty (copyN · i vs)) else find st.columns id

theorem find_columns_write (ty : Ty) (fieldId : FieldId) (i : Nat) (vs : List ty.Storage)
    (st : Storage) (id : FieldId) :
    find (st.write ty fieldId i vs).columns id = if id = fieldId then
      (find st.columns id).map (·.put ty (copyN · i vs)) else find st.columns id := by
  obtain ⟨name, singleRow, columns, indexes, freedom⟩ := st
  rw [write]
  induction columns with
  | nil => rw [List.map_nil, find, Option.map_none, ite_self]
  | cons c columns ih =>
      obtain ⟨f, c⟩ := c
      rw [List.map_cons]
      by_cases hf : f = fieldId
      · rw [if_pos hf, find, find]
        by_cases hid : id = f
        · rw [if_pos hid, if_pos hid, if_pos (hid.trans hf)]
          rfl
        · rw [if_neg hid, if_neg hid]
          exact ih
      · rw [if_neg hf, find, find]
        by_cases hid : id = f
        · rw [if_pos hid, if_pos hid, if_neg fun h => hf (hid.symm.trans h)]
        · rw [if_neg hid, if_neg hid]
          exact ih

theorem written_write (h : st.Sound) (ty : Ty) (fieldId : FieldId) (i : Nat)
    (vs : List ty.Storage) : Written ty fieldId i vs st (st.write ty fieldId i vs) :=
  ⟨h.write ty fieldId i vs, rfl, find_columns_write ty fieldId i vs st⟩

theorem put_same (ty : Ty) (g : List ty.Storage → List ty.Storage) (xs : List ty.Storage) :
    Column.put ty g ⟨ty, xs⟩ = ⟨ty, g xs⟩ := dif_pos rfl

theorem put_other {ty : Ty} {c : Column} (h : c.ty ≠ ty)
    (g : List ty.Storage → List ty.Storage) : c.put ty g = c := dif_neg h

theorem put_put (ty : Ty) (i : Nat) (vs : List ty.Storage) (c : Column) :
    (c.put ty (copyN · i vs)).put ty (copyN · i vs) = c.put ty (copyN · i vs) := by
  obtain ⟨ty', values⟩ := c
  by_cases hty : ty' = ty
  · subst hty
    rw [put_same, put_same, copyN_copyN]
  · rw [put_other (show Column.ty ⟨ty', values⟩ ≠ ty from hty),
      put_other (show Column.ty ⟨ty', values⟩ ≠ ty from hty)]

/-- Writing twice is writing once. -/
theorem Written.twice {st'' : Storage} {ty : Ty} {fieldId : FieldId} {i : Nat}
    {vs : List ty.Storage} (h : Written ty fieldId i vs st st')
    (h' : Written ty fieldId i vs st' st'') : Written ty fieldId i vs st st'' := by
  refine ⟨h'.sound, h'.freedom.trans h.freedom, fun id => ?_⟩
  rw [h'.columns, h.columns]
  by_cases hid : id = fieldId
  · rw [if_pos hid, if_pos hid, Option.map_map]
    exact congrArg (Option.map · _) (funext (put_put ty i vs))
  · rw [if_neg hid, if_neg hid]

theorem triggerIndexes_columns {fieldId : FieldId}
    {g : List (FieldId × Column) → Index → Index × Option Exn}
    (hrun : triggerIndexes fieldId g st = .ok () st') :
    st'.columns = st.columns ∧ st'.freedom = st.freedom := by
  rw [triggerIndexes, get_bind_run] at hrun
  cases hthrown : (Index.trigger fieldId (g st.columns) st.indexes).2 with
  | none =>
      rw [hthrown] at hrun
      obtain rfl := (EStateM.Result.ok.inj hrun).2
      exact ⟨rfl, rfl⟩
  | some e =>
      rw [hthrown] at hrun
      cases hrun

theorem internalUpdate_ok (h : st.Sound) {ty : Ty} {recordId : RecordId} {fieldId : FieldId}
    {value : ty.Arg} (hrun : internalUpdate ty recordId fieldId value st = .ok () st') :
    st.freedom.isUsed recordId = true ∧
      Written ty fieldId recordId.toNat [value.val] st st' := by
  have hsound := h.internalUpdate hrun
  rw [internalUpdate, get_bind_run] at hrun
  obtain ⟨hunused, hrun⟩ := guard_bind_eq_ok.mp hrun
  rw [modify_bind_run] at hrun
  obtain ⟨hcolumns, hfreedom⟩ := triggerIndexes_columns hrun
  exact ⟨Bool.of_not_eq_false hunused, hsound, hfreedom,
    fun id => hcolumns ▸ find_columns_write ty fieldId _ _ st id⟩

theorem internalUpdateVector_ok (h : st.Sound) {ty : Ty} {recordId : RecordId}
    {fieldId : FieldId} {values : List ty.Storage}
    (hrun : internalUpdateVector ty recordId fieldId values st = .ok () st') :
    st.freedom.isUsedVector recordId values.length = true ∧
      Written ty fieldId recordId.toNat values st st' := by
  have hsound := h.internalUpdateVector hrun
  rw [internalUpdateVector, get_bind_run] at hrun
  obtain ⟨hunused, hrun⟩ := guard_bind_eq_ok.mp hrun
  rw [modify_bind_run] at hrun
  obtain ⟨hcolumns, hfreedom⟩ := triggerIndexes_columns hrun
  exact ⟨Bool.of_not_eq_false hunused, hsound, hfreedom,
    fun id => hcolumns ▸ find_columns_write ty fieldId _ _ st id⟩

end Storage

end Joedb.Compiled
