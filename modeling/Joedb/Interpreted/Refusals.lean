import Joedb.Interpreted.DatabaseSpec

/-!
# What a refused operation leaves

The tables check an operation before they change anything, so an exception leaves
their names, their fields, what is used and the values of the records as they were. A
`length_error` of a vector comes after a change, but of the capacity only: some columns, or
the `Freedom_Keeper`, are longer than before.

One operation is made of several changes. The records of a vector that does not start at
the end of the table are inserted one by one, and when one of them makes a column too
long, those before it stay.
-/

namespace Joedb

open ByteFile Containers StateExcept

/-! ## Fields -/

namespace Field

/-- A field that was resized, or was not. -/
structure Resized (size : Nat) (f f' : Field) : Prop where
  type : f'.type = f.type
  fits : ∀ n, f'.fits n ↔ f.fits n
  value : ∀ i < size, f'.value i = f.value i

theorem Resized.refl (size : Nat) (f : Field) : Resized size f f :=
  ⟨rfl, fun _ => .rfl, fun _ _ => rfl⟩

theorem resize_cases (size : Nat) (f : Field) :
    (f.fits size ∧ ∃ f', resize size f = .ok () f' ∧ Resized size f f') ∨
      (¬ f.fits size ∧ resize size f = .error .lengthError f) := by
  obtain ⟨type, column, holds⟩ := f
  cases column with
  | monostate => exact .inl ⟨trivial, _, rfl, .refl size _⟩
  | vector ty vs =>
      rw [resize]
      simp only
      by_cases hfits : size ≤ ty.maxSize
      · refine .inl ⟨hfits, _, if_pos hfits, rfl, fun n => .rfl, fun i hi => ?_⟩
        show some (Sigma.mk ty _) = some (Sigma.mk ty _)
        rw [getD_resize_of_lt hi]
      · exact .inr ⟨hfits, if_neg hfits⟩

/-- What is true of every column that has as many values as it may. -/
theorem maintains_resize {P : Field → Prop} {size : Nat}
    (hP : ∀ f ty vs, f.column = .vector ty vs → vs.length = size → size ≤ ty.maxSize → P f) :
    Maintains P (resize size) := by
  intro f hf
  obtain ⟨type, column, holds⟩ := f
  cases column with
  | monostate => exact hf
  | vector ty vs =>
      rw [after, resize]
      simp only
      by_cases hfits : size ≤ ty.maxSize
      · rw [if_pos hfits]
        exact hP _ ty _ rfl (length_resize _ _ _) hfits
      · rw [if_neg hfits]
        exact hf

/-- What depends on the number of the values only. -/
theorem maintains_put {P : Field → Prop} {ty : Ty} {g : List ty.Storage → List ty.Storage}
    (hP : ∀ f f' vs vs', f.column = .vector ty vs → f'.column = .vector ty vs' →
      vs'.length = vs.length → P f → P f')
    (hg : ∀ vs, (g vs).length = vs.length) : Maintains P (put ty g) := by
  intro f hf
  cases hput : put ty g f with
  | error e f' =>
      rw [after_error hput, put_error hput]
      exact hf
  | ok u f' =>
      obtain ⟨vs, hcolumn, hcolumn'⟩ := put_ok hput
      rw [after_ok hput]
      exact hP f f' vs (g vs) hcolumn hcolumn' (hg vs) hf

theorem fits_mono {f : Field} {m n : Nat} (hle : m ≤ n) (h : f.fits n) : f.fits m := by
  obtain ⟨type, column, holds⟩ := f
  cases column with
  | monostate => trivial
  | vector ty vs => exact Nat.le_trans hle h

end Field

/-! ## Tables -/

namespace Table

/-- Whether all columns can have `size` values. -/
def Fits (t : Table) (size : Nat) : Prop := ∀ e ∈ t.fields, e.2.fits size

theorem Fits.mono {t : Table} {m n : Nat} (h : t.Fits n) (hle : m ≤ n) : t.Fits m :=
  fun e he => Field.fits_mono hle (h e he)

/-- The same table, as far as its records tell. -/
structure Same (t t' : Table) : Prop where
  names : t'.fieldNames = t.fieldNames
  types : ∀ fieldId,
    (find t'.fields fieldId).map Field.type = (find t.fields fieldId).map Field.type
  used : t'.freedom.isUsed = t.freedom.isUsed
  values : ∀ fieldId, ∀ i < t.freedom.getSize, t'.value fieldId i = t.value fieldId i

theorem Same.refl (t : Table) : Same t t := ⟨rfl, fun _ => rfl, rfl, fun _ _ _ => rfl⟩

/-- Columns that were resized, all of them or the first few. -/
structure Resized (size : Nat) (fields fields' : List (FieldId × Field)) : Prop where
  types : ∀ fieldId, (find fields' fieldId).map Field.type = (find fields fieldId).map Field.type
  fits : ∀ n, (∀ e ∈ fields', e.2.fits n) ↔ ∀ e ∈ fields, e.2.fits n
  values : ∀ fieldId, ∀ i < size,
    (find fields' fieldId).bind (·.value i) = (find fields fieldId).bind (·.value i)

theorem Resized.cons {size : Nat} {fields fields' : List (FieldId × Field)} {f f' : Field}
    (hfields : Resized size fields fields') (hf : Field.Resized size f f') (fieldId : FieldId) :
    Resized size ((fieldId, f) :: fields) ((fieldId, f') :: fields') := by
  refine ⟨fun id => ?_, fun n => ?_, fun id i hi => ?_⟩
  · rw [find, find]
    split
    · exact congrArg some hf.type
    · exact hfields.types id
  · rw [List.forall_mem_cons, List.forall_mem_cons, hf.fits, hfields.fits]
  · rw [find, find]
    split
    · exact hf.value i hi
    · exact hfields.values id i hi

theorem resizeAll_resized (size : Nat) (fields : List (FieldId × Field)) :
    Resized size fields (resizeAll size fields).1 ∧
      ((resizeAll size fields).2 = none ↔ ∀ e ∈ fields, e.2.fits size) := by
  induction fields with
  | nil => exact ⟨⟨fun _ => rfl, fun _ => .rfl, fun _ _ _ => rfl⟩, by simp [resizeAll]⟩
  | cons e fields ih =>
      obtain ⟨fieldId, f⟩ := e
      obtain ⟨hresized, hnone⟩ := ih
      rw [resizeAll, List.forall_mem_cons, ← hnone]
      rcases Field.resize_cases size f with ⟨hfits, f', hrun, hf⟩ | ⟨hfits, hrun⟩
      · rw [hrun]
        exact ⟨hresized.cons hf fieldId, by simp [hfits]⟩
      · rw [hrun]
        refine ⟨⟨fun _ => rfl, fun _ => .rfl, fun _ _ _ => rfl⟩, ?_⟩
        exact ⟨fun h => (by cases h), fun h => absurd h.1 hfits⟩

theorem resizeFields_cases (size : Nat) (t : Table) :
    ∃ fields, Resized size t.fields fields ∧
      ((t.Fits size ∧ resizeFields size t = .ok () { t with fields := fields }) ∨
        ¬ t.Fits size ∧ ∃ e, resizeFields size t = .error e { t with fields := fields }) := by
  obtain ⟨hresized, hnone⟩ := resizeAll_resized size t.fields
  refine ⟨_, hresized, ?_⟩
  rw [resizeFields, get_bind_run]
  cases h : (resizeAll size t.fields).2 with
  | none => exact .inl ⟨hnone.mp h, rfl⟩
  | some e =>
      refine .inr ⟨fun hfits => ?_, e, rfl⟩
      rw [hnone.mpr hfits] at h
      cases h

theorem resizeFields_freedom {size : Nat} {t t' : Table}
    (hrun : resizeFields size t = .ok () t') : t'.freedom = t.freedom := by
  obtain ⟨fields, -, ⟨-, hok⟩ | ⟨-, e, herror⟩⟩ := resizeFields_cases size t
  · obtain ⟨-, rfl⟩ := EStateM.Result.ok.inj (hrun.symm.trans hok)
    rfl
  · cases hrun.symm.trans herror

/-- Columns that are longer, beside a keeper that is larger. -/
theorem Resized.same {size : Nat} {t : Table} {fields : List (FieldId × Field)}
    (h : Resized size t.fields fields) {freedom : FreedomKeeper}
    (hused : freedom.isUsed = t.freedom.isUsed) (hsize : t.freedom.getSize ≤ size) :
    Same t { t with fields := fields, freedom := freedom } :=
  ⟨rfl, h.types, hused, fun fieldId i hi => h.values fieldId i (Nat.lt_of_lt_of_le hi hsize)⟩

/-! ## Insertions -/

theorem records_pushBackUntil {k : FreedomKeeper} {recordId : Int} (h : k.getSize ≤ recordId) :
    (pushBackUntil recordId k).records = k.records.grow (recordId + 1).toNat := by
  have hgo : ∀ (fuel : Nat) (k : FreedomKeeper), (k.getSize : Int) + fuel = recordId + 1 →
      (pushBackGo recordId fuel k).records = k.records.grow (recordId + 1).toNat := by
    intro fuel
    induction fuel with
    | zero =>
        intro k hend
        exact Records.ext rfl
          (Nat.max_eq_left (show (recordId + 1).toNat ≤ k.getSize by omega)).symm
    | succ fuel ih =>
        intro k hend
        have hpushed := k.records_pushBack
        have hsize : k.pushBack.getSize = max k.getSize (k.getSize + 1) :=
          congrArg Records.size hpushed
        rw [pushBackGo, if_pos (by omega), ih k.pushBack (by omega), hpushed]
        refine Records.ext rfl ?_
        show max (max k.getSize (k.getSize + 1)) _ = max k.getSize _
        omega
  exact hgo _ k (by omega)

/-- A record that was inserted. -/
structure Inserted (recordId : Int) (t t' : Table) : Prop where
  fits : ∀ n, t'.Fits n ↔ t.Fits n
  records : t'.freedom.records = (t.freedom.records.grow (recordId + 1).toNat).use recordId 1

theorem spares_insertRecord (recordId : RecordId) : Spares Same (insertRecord recordId) := by
  intro t e t' hrun
  rw [insertRecord, get_bind_run] at hrun
  by_cases hgrow : recordId ≥ t.freedom.getSize
  · rw [if_pos hgrow] at hrun
    by_cases hlast : recordId + 1 ≥ 2 ^ 63
    · rw [when_pos hlast] at hrun
      obtain ⟨-, rfl⟩ := EStateM.Result.error.inj hrun
      exact .refl t
    · rw [when_neg hlast, pure_bind_run] at hrun
      obtain ⟨fields, hresized, ⟨-, hok⟩ | ⟨-, e', herror⟩⟩ :=
        resizeFields_cases (recordId + 1).toNat t
      · rw [bind_ok hok] at hrun
        cases hrun
      · rw [bind_error herror] at hrun
        obtain ⟨-, rfl⟩ := EStateM.Result.error.inj hrun
        exact hresized.same rfl (by have : (t.freedom.getSize : Int) ≤ recordId := hgrow; omega)
  · rw [if_neg hgrow] at hrun
    by_cases hfree : t.freedom.isFree recordId = false
    · rw [when_pos hfree] at hrun
      obtain ⟨-, rfl⟩ := EStateM.Result.error.inj hrun
      exact .refl t
    · rw [when_neg hfree] at hrun
      cases hrun

theorem insertRecord_free {t : Table} {recordId : Int} (hlo : 0 ≤ recordId)
    (hsmall : recordId + 1 < 2 ^ 63) (hfree : t.freedom.isUsed recordId = false) :
    ((recordId < t.freedom.getSize ∨ t.Fits (recordId + 1).toNat) ∧
        ∃ t', insertRecord recordId t = .ok () t' ∧ Inserted recordId t t') ∨
      (¬ (recordId < t.freedom.getSize ∨ t.Fits (recordId + 1).toNat) ∧
        ∃ e t', insertRecord recordId t = .error e t') := by
  rw [insertRecord, get_bind_run]
  by_cases hgrow : recordId ≥ t.freedom.getSize
  · rw [if_pos hgrow, when_neg (Int.not_le.mpr hsmall), pure_bind_run]
    have hsize : (t.freedom.getSize : Int) ≤ recordId := hgrow
    obtain ⟨fields, hresized, ⟨hfits, hok⟩ | ⟨hfits, e, herror⟩⟩ :=
      resizeFields_cases (recordId + 1).toNat t
    · rw [bind_ok hok]
      refine .inl ⟨.inr hfits, _, rfl, hresized.fits, ?_⟩
      have hgrown := records_pushBackUntil hsize
      refine (FreedomKeeper.records_use _ hlo ?_).trans (by rw [hgrown])
      rw [hgrown]
      show recordId < ((max t.freedom.getSize (recordId + 1).toNat : Nat) : Int)
      omega
    · rw [bind_error herror]
      exact .inr ⟨fun h => h.elim (fun hlt => by omega) hfits, e, _, rfl⟩
  · have hlt : recordId < t.freedom.getSize := Int.not_le.mp hgrow
    have hpass : ¬ t.freedom.isFree recordId = false := by
      rw [FreedomKeeper.isFree, hfree]
      exact Bool.noConfusion
    rw [if_neg hgrow, when_neg hpass]
    refine .inl ⟨.inl hlt, _, rfl, fun _ => .rfl, (FreedomKeeper.records_use _ hlo hlt).trans ?_⟩
    refine congrArg (Records.use · recordId 1) (Records.ext rfl ?_)
    exact (Nat.max_eq_left (show (recordId + 1).toNat ≤ t.freedom.getSize by omega)).symm

theorem Inserted.getSize {recordId : Int} {t t' : Table} (h : Inserted recordId t t') :
    t'.freedom.getSize = max t.freedom.getSize (recordId + 1).toNat :=
  congrArg Records.size h.records

theorem Inserted.isUsed {recordId : Int} {t t' : Table} (h : Inserted recordId t t') (x : Int) :
    t'.freedom.isUsed x = (t.freedom.isUsed x || decide (x = recordId)) := by
  refine (congrFun (congrArg Records.used h.records) x).trans ?_
  rw [← Records.range_one]
  rfl

/-- The records after the one that was inserted are not used yet. -/
theorem Inserted.unused {recordId : Int} {t t' : Table} (h : Inserted recordId t t') {size : Nat}
    (hfree : ∀ x, recordId ≤ x → x < recordId + (size + 1 : Nat) → t.freedom.isUsed x = false) :
    ∀ x, recordId + 1 ≤ x → x < recordId + 1 + size → t'.freedom.isUsed x = false := by
  intro x hlo hhi
  rw [h.isUsed, hfree x (by omega) (by omega), Bool.false_or]
  exact decide_eq_false (by omega)

/-- The loop gets to its end if the last record fits. -/
theorem insertRecords_ok_iff {t : Table} {recordId : Int} {size : Nat} (hlo : 0 ≤ recordId)
    (hsmall : recordId + size < 2 ^ 63)
    (hfree : ∀ x, recordId ≤ x → x < recordId + size → t.freedom.isUsed x = false) :
    (∃ t', insertRecords recordId size t = .ok () t') ↔
      size = 0 ∨ recordId + size ≤ t.freedom.getSize ∨ t.Fits (recordId + size).toNat := by
  induction size generalizing t recordId with
  | zero => exact ⟨fun _ => .inl rfl, fun _ => ⟨t, rfl⟩⟩
  | succ size ih =>
      rw [insertRecords]
      rcases insertRecord_free hlo (by omega) (hfree recordId (by omega) (by omega)) with
        ⟨hfits, t₁, hrun, hins⟩ | ⟨hfits, e, t₁, hrun⟩
      · rw [bind_ok hrun, ih (Int.le_add_one hlo) (by omega) (hins.unused hfree), hins.fits,
          hins.getSize]
        rw [show recordId + 1 + (size : Int) = recordId + (size + 1 : Nat) by omega]
        rcases Nat.eq_zero_or_pos size with rfl | hpos
        · refine ⟨fun _ => .inr (hfits.imp (fun h => by omega) id), fun _ => .inl rfl⟩
        · refine ⟨fun h => .inr ?_, fun h => .inr ?_⟩
          · exact (h.resolve_left (by omega)).imp (fun h => by omega) id
          · exact (h.resolve_left (by omega)).imp (fun h => by omega) id
      · rw [bind_error hrun]
        refine ⟨fun h => (by obtain ⟨t', h⟩ := h; cases h), fun h => absurd ?_ hfits⟩
        exact (h.resolve_left (by omega)).imp (fun h => by omega) fun h => h.mono (by omega)

/-- Whatever becomes of the loop, what is used stays so. -/
theorem insertRecords_isUsed {t : Table} {recordId : Int} {size : Nat} (hlo : 0 ≤ recordId)
    (hsmall : recordId + size < 2 ^ 63)
    (hfree : ∀ x, recordId ≤ x → x < recordId + size → t.freedom.isUsed x = false) {x : Int}
    (hused : t.freedom.isUsed x = true) :
    (after (insertRecords recordId size) t).freedom.isUsed x = true := by
  induction size generalizing t recordId with
  | zero => exact hused
  | succ size ih =>
      rcases insertRecord_free hlo (by omega) (hfree recordId (by omega) (by omega)) with
        ⟨-, t₁, hrun, hins⟩ | ⟨-, e, t₁, hrun⟩
      · have hrest := ih (t := t₁) (Int.le_add_one hlo) (by omega) (hins.unused hfree) (by
          rw [hins.isUsed, hused, Bool.true_or])
        rw [after, insertRecords, bind_ok hrun]
        exact hrest
      · rw [insertRecords, after_error (bind_error hrun),
          (spares_insertRecord recordId t e t₁ hrun).used]
        exact hused

/-- Behind the last record, where the sum fits. -/
theorem insertVector_end {t : Table} {recordId : Int} {size : Nat}
    (hfree : t.freedom.isFreeVector recordId size = true) (hend : recordId = t.freedom.getSize)
    (hsmall : recordId + size < 2 ^ 63) :
    insertVector recordId size t
      = (resizeFields (t.freedom.getSize + size) >>= fun _ =>
          modify fun t => { t with freedom := t.freedom.useVector recordId size })
        { t with freedom := t.freedom.resize (t.freedom.getSize + size) } := by
  have hword : (word (t.freedom.getSize + size)).toNat = t.freedom.getSize + size := by
    rw [word_of_fits (by omega) (by omega)]
    omega
  have hsize : (t.freedom.resize (t.freedom.getSize + size)).getSize = t.freedom.getSize + size :=
    (t.freedom.getSize_resize _).trans (Nat.max_eq_right (Nat.le_add_right _ _))
  rw [insertVector, get_bind_run, when_neg (by rw [hfree]; exact Bool.noConfusion), pure_bind_run,
    if_pos hend, modify_bind_run, get_bind_run]
  simp only [hword, hsize]
  obtain ⟨fields, -, ⟨-, hok⟩ | ⟨-, e, herror⟩⟩ := resizeFields_cases (t.freedom.getSize + size)
    { t with freedom := t.freedom.resize (t.freedom.getSize + size) }
  · rw [bind_ok hok, bind_ok hok]
    refine useVector_of_fits ?_ hsmall
    show recordId + size ≤ ((t.freedom.resize (t.freedom.getSize + size)).getSize : Int)
    omega
  · rw [bind_error herror, bind_error herror]

theorem insertVector_before {t : Table} {recordId : Int} {size : Nat}
    (hfree : t.freedom.isFreeVector recordId size = true) (hend : recordId ≠ t.freedom.getSize) :
    insertVector recordId size t = insertRecords recordId size t := by
  rw [insertVector, get_bind_run, when_neg (by rw [hfree]; exact Bool.noConfusion), pure_bind_run,
    if_neg hend]

/-- When an insertion of a vector that throws leaves the table the same: the loop, if it
comes to that, gets to its end or stops at the first record. -/
def InsertsWhole (t : Table) (recordId : RecordId) (size : Nat) : Prop :=
  t.freedom.isFreeVector recordId size = true → recordId ≠ t.freedom.getSize → size ≠ 0 →
    (recordId + size ≤ t.freedom.getSize ∨ t.Fits (recordId + size).toNat) ∨
      (t.freedom.getSize ≤ recordId ∧ ¬ t.Fits (recordId + 1).toNat)

/-- At the end of the table it is resized before any record is used. -/
theorem insertVector_end_same {size : Nat} {t t' : Table} {e : Exn}
    (hfree : t.freedom.isFreeVector t.freedom.getSize size = true)
    (hsmall : (t.freedom.getSize : Int) + size < 2 ^ 63)
    (hrun : insertVector t.freedom.getSize size t = .error e t') : Same t t' := by
  rw [insertVector_end hfree rfl hsmall] at hrun
  obtain ⟨fields, hresized, ⟨-, hok⟩ | ⟨-, e', herror⟩⟩ :=
    resizeFields_cases (t.freedom.getSize + size)
      { t with freedom := t.freedom.resize (t.freedom.getSize + size) }
  · rw [bind_ok hok] at hrun
    cases hrun
  · rw [bind_error herror] at hrun
    obtain ⟨-, rfl⟩ := EStateM.Result.error.inj hrun
    exact Resized.same (t := t) hresized
      (congrArg Records.used (t.freedom.records_resize _)) (Nat.le_add_right _ _)

/-- The loop leaves the table as it was if it does not stop behind its first record. -/
theorem insertRecords_same_iff {recordId : Int} {size : Nat} {t : Table} (hlo : 0 ≤ recordId)
    (hsmall : recordId + (size + 1 : Nat) < 2 ^ 63)
    (hunused : ∀ x, recordId ≤ x → x < recordId + (size + 1 : Nat) →
      t.freedom.isUsed x = false) :
    (∀ e t', insertRecords recordId (size + 1) t = .error e t' → Same t t') ↔
      (recordId + (size + 1 : Nat) ≤ t.freedom.getSize ∨
          t.Fits (recordId + (size + 1 : Nat)).toNat) ∨
        (t.freedom.getSize ≤ recordId ∧ ¬ t.Fits (recordId + 1).toNat) := by
  have hloop := insertRecords_ok_iff hlo hsmall hunused
  rcases insertRecord_free hlo (by omega) (hunused recordId (by omega) (by omega)) with
    ⟨hfits, t₁, hrun, hins⟩ | ⟨hfits, e, t₁, hrun⟩
  · refine ⟨fun hsame => .inl ?_, fun h e t' herror => ?_⟩
    · refine ((hloop.mp ?_).resolve_left (by omega))
      cases hall : insertRecords recordId (size + 1) t with
      | ok u t' => exact ⟨t', rfl⟩
      | error e t' =>
          -- the first record is there, and was not before
          have hnew := insertRecords_isUsed (t := t₁) (Int.le_add_one hlo)
            (by omega) (hins.unused hunused) (x := recordId) (by
              rw [hins.isUsed, decide_eq_true rfl, Bool.or_true])
          have hafter : after (insertRecords (recordId + 1) size) t₁ = t' := by
            refine after_error (e := e) ?_
            rw [← hall, insertRecords, bind_ok hrun]
          rw [hafter, (hsame e t' hall).used, hunused recordId (by omega) (by omega)] at hnew
          cases hnew
    · rcases h with hfit | ⟨hge, hnot⟩
      · obtain ⟨t'', hok⟩ := hloop.mpr (.inr hfit)
        rw [hok] at herror
        cases herror
      · exact absurd hfits fun h => h.elim (Int.not_lt.mpr hge) hnot
  · refine ⟨fun _ => .inr ⟨?_, fun h => hfits (.inr h)⟩, fun _ e' t' herror => ?_⟩
    · exact Int.not_lt.mp fun h => hfits (.inl h)
    · rw [insertRecords, bind_error hrun] at herror
      obtain ⟨-, rfl⟩ := EStateM.Result.error.inj herror
      exact spares_insertRecord recordId t e t₁ hrun

theorem insertVector_same_iff {recordId : Int} {size : Nat} (t : Table)
    (hsmall : recordId + size < 2 ^ 63) :
    (∀ e t', insertVector recordId size t = .error e t' → Same t t') ↔
      t.InsertsWhole recordId size := by
  cases hfree : t.freedom.isFreeVector recordId size with
  | false =>
      rw [insertVector, get_bind_run, when_pos hfree]
      refine ⟨fun _ h => ?_, fun _ e t' hrun => ?_⟩
      · rw [hfree] at h
        cases h
      · obtain ⟨-, rfl⟩ := EStateM.Result.error.inj hrun
        exact .refl t
  | true =>
      obtain ⟨hlo, hunused⟩ := FreedomKeeper.isFreeVector_sound hfree
      by_cases hend : recordId = t.freedom.getSize
      · subst hend
        exact ⟨fun _ _ hne => absurd rfl hne,
          fun _ e t' hrun => insertVector_end_same hfree hsmall hrun⟩
      · rw [insertVector_before hfree hend]
        cases size with
        | zero =>
            refine ⟨fun _ _ _ h => absurd rfl h, fun _ e t' hrun => ?_⟩
            cases hrun
        | succ size =>
            rw [insertRecords_same_iff hlo hsmall hunused]
            exact ⟨fun h _ _ _ => h, fun h => h hfree hend (Nat.succ_ne_zero size)⟩

/-! ## The other changes -/

theorem spares_addField (name : Bytes) (type : FieldType) : Spares Same (addField name type) := by
  refine spares_get_bind fun t => spares_guard_bind Same.refl (spares_guard_bind Same.refl ?_)
  intro t e t' hrun
  rw [modify_bind_run, get_bind_run] at hrun
  cases hfield : Field.create type t.freedom.getSize with
  | ok field =>
      rw [hfield] at hrun
      cases hrun
  | error e' =>
      rw [hfield] at hrun
      obtain ⟨-, rfl⟩ := EStateM.Result.error.inj hrun
      exact ⟨rfl, fun _ => rfl, rfl, fun _ _ _ => rfl⟩

theorem spares_dropField (fieldId : FieldId) : Spares Same (dropField fieldId) :=
  spares_get_bind fun _ => spares_guard_bind Same.refl (spares_modify _)

theorem spares_deleteRecord (recordId : RecordId) : Spares Same (deleteRecord recordId) :=
  spares_get_bind fun _ => spares_guard_bind Same.refl (spares_modify _)

theorem spares_deleteVector (recordId : RecordId) (size : Nat) :
    Spares Same (deleteVector recordId size) :=
  spares_get_bind fun _ => spares_guard_bind Same.refl (spares_modify _)

theorem spares_withField {α : Type} {fieldId : FieldId} {m : EStateM Exn Field α}
    (hm : Spares (fun f f' => f' = f) m) : Spares (fun t t' => t' = t) (withField fieldId m) := by
  intro t e t' hrun
  obtain hsame | ⟨f, f', hfind, hput, rfl⟩ := withField_eq_error hrun
  · exact hsame
  · obtain rfl := hm f e f' hput
    rw [assign_self hfind]

theorem spares_checkRecordId (recordId : RecordId) :
    Spares (fun t t' => t' = t) (checkRecordId recordId) := by
  intro t e t' hrun
  rw [checkRecordId, get_bind_run] at hrun
  by_cases hused : t.freedom.isUsed recordId = false
  · rw [when_pos hused] at hrun
    exact (EStateM.Result.error.inj hrun).2.symm
  · rw [when_neg hused] at hrun
    cases hrun

/-- Checks first, and then one change that is made or not. -/
theorem spares_checked {α β : Type} {m : EStateM Exn Table α} {f : α → EStateM Exn Table β}
    (hm : Spares (fun t t' => t' = t) m) (hok : ∀ t a t', m t = .ok a t' → t' = t)
    (hf : ∀ a, Spares (fun t t' => t' = t) (f a)) : Spares (fun t t' => t' = t) (m >>= f) :=
  spares_bind (L := fun t t' => t' = t) (fun _ _ _ h h' => h'.trans h) hm hok hf

theorem spares_update (ty : Ty) (recordId : RecordId) (fieldId : FieldId) (value : ty.Arg) :
    Spares (fun t t' => t' = t) (update ty recordId fieldId value) :=
  spares_checked (spares_withField (spares_pure _)) (fun _ _ _ h => withField_pure h) fun _ =>
    spares_checked (spares_checkRecordId _) (fun _ _ _ h => (checkRecordId_ok h).2) fun _ =>
      spares_withField fun _ _ _ h => Field.put_error h

theorem spares_updateVector (ty : Ty) (recordId : RecordId) (fieldId : FieldId)
    (values : List ty.Storage) :
    Spares (fun t t' => t' = t) (updateVector ty recordId fieldId values) :=
  spares_checked (spares_withField (spares_pure _)) (fun _ _ _ h => withField_pure h) fun _ =>
    spares_ite (spares_pure _) <|
      spares_checked (spares_checkRecordId _) (fun _ _ _ h => (checkRecordId_ok h).2) fun _ =>
        spares_checked (spares_checkRecordId _) (fun _ _ _ h => (checkRecordId_ok h).2) fun _ =>
          spares_withField fun _ _ _ h => Field.put_error h

end Table

/-! ## Databases -/

namespace Database

/-- The same tables, as far as their names and records tell. -/
structure Same (db db' : Database) : Prop where
  names : db'.tableNames = db.tableNames
  tables : ∀ tableId, Option.Rel Table.Same (find db.tables tableId) (find db'.tables tableId)

theorem Same.refl (db : Database) : Same db db :=
  ⟨rfl, fun tableId => by
    cases find db.tables tableId with
    | none => exact .none
    | some t => exact .some (.refl t)⟩

theorem same_assign_iff {db : Database} {tableId : TableId} {t t' : Table}
    (hfind : find db.tables tableId = some t) :
    Same db { db with tables := assign db.tables tableId t' } ↔ Table.Same t t' := by
  refine ⟨fun h => ?_, fun h => ⟨rfl, fun id => ?_⟩⟩
  · have htable := h.tables tableId
    rw [hfind, show find _ tableId = some t' from find_assign hfind t'] at htable
    cases htable with
    | some htable => exact htable
  · rw [show find _ id = _ from find_assign_eq db.tables tableId id t']
    by_cases hid : id = tableId
    · rw [if_pos hid, hid, hfind]
      exact .some h
    · rw [if_neg hid]
      exact (Same.refl db).tables id

theorem withTable_error {α : Type} {db db' : Database} {tableId : TableId}
    {m : EStateM Exn Table α} {e : Exn} (h : withTable tableId m db = .error e db') :
    (find db.tables tableId = none ∧ db' = db) ∨
      ∃ t t', find db.tables tableId = some t ∧ m t = .error e t' ∧
        db' = { db with tables := assign db.tables tableId t' } := by
  rw [withTable] at h
  cases hfind : find db.tables tableId with
  | none =>
      rw [hfind] at h
      exact .inl ⟨rfl, (EStateM.Result.error.inj h).2.symm⟩
  | some t =>
      rw [hfind] at h
      simp only at h
      cases hm : m t with
      | ok a t' =>
          rw [hm] at h
          cases h
      | error e' t' =>
          rw [hm] at h
          obtain ⟨rfl, rfl⟩ := EStateM.Result.error.inj h
          exact .inr ⟨t, t', rfl, hm, rfl⟩

theorem spares_withTable {α : Type} {tableId : TableId} {m : EStateM Exn Table α}
    (hm : Spares Table.Same m) : Spares Same (withTable tableId m) := by
  intro db e db' hrun
  obtain ⟨-, rfl⟩ | ⟨t, t', hfind, hthrown, rfl⟩ := withTable_error hrun
  · exact .refl db'
  · exact (same_assign_iff hfind).mpr (hm t e t' hthrown)

/-- What is checked before the table is looked for. -/
theorem spares_checkIdentifier {message : String} {name : Bytes}
    {f : Unit → EStateM Exn Database Unit}
    (hf : Spares Same (f ())) : Spares Same (checkIdentifier message name >>= f) :=
  spares_guard_bind Same.refl hf

/-- All but an insertion of a vector. -/
theorem spares_call {op : Op} (hop : ∀ t r size, op ≠ .insertVector t r size) :
    Spares Same (call op) := by
  have hexact : ∀ {m : EStateM Exn Table Unit}, Spares (fun t t' => t' = t) m →
      Spares Table.Same m := fun hm t e t' hrun => hm t e t' hrun ▸ .refl t
  cases op with
  | createTable name =>
      refine spares_checkIdentifier (spares_get_bind fun _ => spares_guard_bind Same.refl ?_)
      exact spares_guard_bind Same.refl fun _ _ _ hrun => (by cases hrun)
  | dropTable t => exact spares_get_bind fun _ => spares_guard_bind Same.refl (spares_modify _)
  | renameTable t name =>
      refine spares_checkIdentifier (spares_get_bind fun _ => spares_guard_bind Same.refl ?_)
      exact spares_then (spares_withTable (spares_pure _)) fun _ _ _ _ hrun => (by cases hrun)
  | addField t name type =>
      refine spares_checkIdentifier ?_
      exact spares_withTable (Table.spares_addField name type)
  | dropField t f => exact spares_withTable (Table.spares_dropField f)
  | renameField t f name =>
      refine spares_checkIdentifier (spares_withTable (spares_get_bind fun _ => ?_))
      exact spares_guard_bind Table.Same.refl (spares_guard_bind Table.Same.refl (spares_modify _))
  | insertInto t r =>
      exact spares_get_bind fun _ => spares_guard_bind Same.refl
        (spares_withTable (Table.spares_insertRecord r))
  | insertVector t r size => exact absurd rfl (hop t r size)
  | deleteFrom t r => exact spares_withTable (Table.spares_deleteRecord r)
  | deleteVector t r size => exact spares_withTable (Table.spares_deleteVector r size)
  | update ty t r f v => exact spares_withTable (hexact (Table.spares_update ty r f v))
  | updateVector ty t r f vs =>
      exact spares_withTable (hexact (Table.spares_updateVector ty r f vs))
  | _ => exact spares_pure _

/-- When an insertion of a vector that throws leaves the tables the same. -/
def InsertsWhole (db : Database) (tableId : TableId) (recordId : RecordId) (size : Nat) : Prop :=
  (db.maxRecordId ≥ 0 → recordId < db.maxRecordId ∧ size < db.maxRecordId) →
    ∀ t, find db.tables tableId = some t → t.InsertsWhole recordId size

theorem insertVector_same_iff (tableId : TableId) {recordId : RecordId} {size : Nat}
    (db : Database) (hsmall : recordId + size < (2 ^ 63 : Int)) :
    (∀ e db', insertVector tableId recordId size db = .error e db' → Same db db') ↔
      db.InsertsWhole tableId recordId size := by
  rw [insertVector, get_bind_run]
  by_cases hmax : db.maxRecordId ≥ 0 ∧ ¬(recordId < db.maxRecordId ∧ size < db.maxRecordId)
  · rw [when_pos hmax]
    refine ⟨fun _ h => absurd (h hmax.1) hmax.2, fun _ e db' hrun => ?_⟩
    obtain ⟨-, rfl⟩ := EStateM.Result.error.inj hrun
    exact .refl db
  · rw [when_neg hmax, pure_bind_run]
    refine ⟨fun hsame _ t hfind => ?_, fun h e db' hrun => ?_⟩
    · refine (Table.insertVector_same_iff t hsmall).mp fun e t' hrun => ?_
      refine (same_assign_iff hfind).mp (hsame e _ ?_)
      rw [withTable, hfind]
      simp only [hrun]
    · obtain ⟨-, rfl⟩ | ⟨t, t', hfind, hthrown, rfl⟩ := withTable_error hrun
      · exact .refl db'
      · have hwhole := h (fun hge => not_not.mp fun hlt => hmax ⟨hge, hlt⟩) t hfind
        exact (same_assign_iff hfind).mpr
          ((Table.insertVector_same_iff t hsmall).mpr hwhole e t' hthrown)

end Database

end Joedb
