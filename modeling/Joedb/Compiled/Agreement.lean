import Joedb.Compiled.Hearing
import Joedb.Compiled.StorageValues
import Joedb.Interpreted.DatabaseSpec

/-!
# Two databases that agree

The interpreted and the generated database, replaying the same operations. What is
used is the same, and so are the values of what is used, as long as no record comes
back into use with a value that was left there: the generated code clears a record
that is deleted, and the interpreted one does not.

What the generated class has may be more than what there is yet, so a column
agrees with a field that is there, and is blank for one that will come.
-/

namespace Joedb.Compiled

open ByteFile Containers StateExcept

/-! ## Tables -/

/-- A table that is blank for a record: none of its fields has a value there, beside
the default. -/
def BlankAt (t : Table) (i : Nat) : Prop :=
  ∀ fieldId f v, find t.fields fieldId = some f → f.value i = some v → v.2 = v.1.kind.default

structure Agrees (t : Table) (st : Storage) : Prop where
  table : t.Sound
  storage : st.Sound
  used : t.freedom.isUsed = st.freedom.isUsed
  values : ∀ fieldId f c, find t.fields fieldId = some f → find st.columns fieldId = some c →
    ∀ x : Nat, st.freedom.isUsed x = true → ∀ v, f.value x = some v → v.1 = c.ty → v = c.get x
  unused : ∀ fieldId c, find st.columns fieldId = some c →
    ∀ x : Nat, st.freedom.isUsed x = false → c.get x = c.blank
  later : ∀ fieldId c, find st.columns fieldId = some c → t.currentFieldId < fieldId →
    ∀ x : Nat, c.get x = c.blank

namespace Agrees

variable {t t' : Table} {st st' : Storage}

theorem eq_blank {v : Sigma Ty.Storage} {c : Column} (hty : v.1 = c.ty)
    (h : v.2 = v.1.kind.default) : v = c.blank := by
  obtain ⟨ty, w⟩ := v
  obtain ⟨ty', values⟩ := c
  have hty : ty = ty' := hty
  subst hty
  exact congrArg (Sigma.mk ty) h

/-- Records come and go, in both alike. What comes is blank in the interpreted one. -/
theorem moved (h : Agrees t st) (ht : Table.SameValues t t') (hst : Storage.Moved st st')
    (hused : t'.freedom.isUsed = st'.freedom.isUsed)
    (hblank : ∀ x : Nat, st.freedom.isUsed x = false → st'.freedom.isUsed x = true →
      BlankAt t x) : Agrees t' st' := by
  refine ⟨ht.sound, hst.sound, hused, ?_, ?_, ?_⟩
  · intro fieldId f' c' hf' hc' x hx v hv hty
    obtain ⟨c, hc, hcty, hmoved⟩ := hst.columns fieldId c' hc'
    have hsame := ht.fields fieldId x
    rw [hf', Option.map_some] at hsame
    obtain ⟨f, hf, hvalue⟩ := Option.map_eq_some_iff.mp hsame.symm
    rw [← hvalue] at hv
    obtain ⟨hget, -⟩ | ⟨hfree, -⟩ := hmoved x
    · rw [hget]
      cases hwas : st.freedom.isUsed x with
      | true => exact h.values fieldId f c hf hc x hwas v hv (hty.trans hcty)
      | false =>
          rw [h.unused fieldId c hc x hwas]
          exact eq_blank (hty.trans hcty) (hblank x hwas hx fieldId f v hf hv)
    · rw [hfree] at hx
      cases hx
  · intro fieldId c' hc' x hx
    obtain ⟨c, hc, hcty, hmoved⟩ := hst.columns fieldId c' hc'
    have hsame : c'.blank = c.blank := by rw [Column.blank, Column.blank, hcty]
    rw [hsame]
    obtain ⟨hget, hfree⟩ | ⟨-, hget⟩ := hmoved x
    · exact hget.trans (h.unused fieldId c hc x (hfree hx))
    · exact hget
  · intro fieldId c' hc' hlt x
    obtain ⟨c, hc, hcty, hmoved⟩ := hst.columns fieldId c' hc'
    have hsame : c'.blank = c.blank := by rw [Column.blank, Column.blank, hcty]
    rw [hsame]
    obtain ⟨hget, -⟩ | ⟨-, hget⟩ := hmoved x
    · exact hget.trans (h.later fieldId c hc (ht.current ▸ hlt) x)
    · exact hget

/-- Values are written, in both alike. -/
theorem wrote {ty : Ty} {fieldId : FieldId} {i : Nat} {vs : List ty.Storage} (h : Agrees t st)
    (ht : Table.Wrote ty fieldId i vs t t') (hst : Storage.Written ty fieldId i vs st st')
    (hused : st.Has ty fieldId → ∀ x : Nat, i ≤ x → x < i + vs.length →
      st.freedom.isUsed x = true) : Agrees t' st' := by
  obtain ⟨f₀, f₁, xs, hf₀, hcolumn, hlen, hf₁, hcolumn'⟩ := ht.own
  refine ⟨ht.sound, hst.sound, ?_, ?_, ?_, ?_⟩
  · rw [ht.freedom, hst.freedom]
    exact h.used
  · intro id f' c' hf' hc' x hx v hv hty
    rw [hst.freedom] at hx
    rw [hst.columns] at hc'
    by_cases hid : id = fieldId
    · subst hid
      rw [if_pos rfl] at hc'
      obtain ⟨c, hc, rfl⟩ := Option.map_eq_some_iff.mp hc'
      rw [hf₁] at hf'
      obtain rfl := Option.some.inj hf'
      rw [Field.value, hcolumn'] at hv
      obtain rfl := Option.some.inj hv
      obtain ⟨cty, cs⟩ := c
      by_cases hcty : cty = ty
      · subst hcty
        rw [Storage.put_same]
        have hcs : cs.length = st.freedom.getSize := h.storage.columns _ (mem_of_find hc)
        have hin := (FreedomKeeper.lt_of_isUsed hx).2
        have hin' := (FreedomKeeper.lt_of_isUsed ((congrFun h.used x).trans hx)).2
        have hbefore := h.values id f₀ _ hf₀ hc x hx ⟨cty, xs.getD x cty.kind.default⟩
          (by rw [Field.value, hcolumn]) rfl
        refine congrArg (Sigma.mk cty) ?_
        show (copyN xs i vs).getD x _ = (copyN cs i vs).getD x _
        have hbefore' : xs.getD x cty.kind.default = cs.getD x cty.kind.default :=
          eq_of_heq (Sigma.mk.inj hbefore).2
        rw [getD_copyN, getD_copyN, hbefore']
        by_cases hover : i ≤ x ∧ x < i + vs.length
        · rw [if_pos ⟨hover.1, hover.2, by omega⟩, if_pos ⟨hover.1, hover.2, by omega⟩]
        · rw [if_neg fun hall => hover ⟨hall.1, hall.2.1⟩,
            if_neg fun hall => hover ⟨hall.1, hall.2.1⟩]
      · rw [Storage.put_other (show Column.ty ⟨cty, cs⟩ ≠ ty from hcty)] at hty
        exact absurd hty.symm hcty
    · rw [if_neg hid] at hc'
      rw [ht.others id hid] at hf'
      exact h.values id f' c' hf' hc' x hx v hv hty
  · intro id c' hc' x hx
    rw [hst.freedom] at hx
    rw [hst.columns] at hc'
    by_cases hid : id = fieldId
    · subst hid
      rw [if_pos rfl] at hc'
      obtain ⟨c, hc, rfl⟩ := Option.map_eq_some_iff.mp hc'
      have hblank := h.unused id c hc x hx
      obtain ⟨cty, cs⟩ := c
      by_cases hcty : cty = ty
      · subst hcty
        have hout : ¬ (i ≤ x ∧ x < i + vs.length) := fun hover => by
          rw [hused ⟨_, hc, rfl⟩ x hover.1 hover.2] at hx
          cases hx
        rw [Storage.put_same]
        refine Eq.trans (congrArg (Sigma.mk cty) ?_) hblank
        show (copyN cs i vs).getD x _ = cs.getD x _
        rw [getD_copyN, if_neg fun hall => hout ⟨hall.1, hall.2.1⟩]
      · rw [Storage.put_other (show Column.ty ⟨cty, cs⟩ ≠ ty from hcty)]
        exact hblank
    · rw [if_neg hid] at hc'
      exact h.unused id c' hc' x hx
  · intro id c' hc' hlt x
    rw [ht.current] at hlt
    rw [hst.columns, if_neg] at hc'
    · exact h.later id c' hc' hlt x
    · rintro rfl
      exact absurd hlt (UInt16.not_lt.mpr (h.table.given id f₀ hf₀))

theorem addField {name : Bytes} {type : FieldType} (h : Agrees t st)
    (hrun : Table.addField name type t = .ok () t') : Agrees t' st := by
  obtain ⟨hsound, hfreedom, hcurrent, hlt, f, -, hdefault, hfind⟩ := Table.addField_ok h.table hrun
  refine ⟨hsound, h.storage, hfreedom ▸ h.used, ?_, h.unused, ?_⟩
  · intro id g c hg hc x hx v hv hty
    rw [hfind] at hg
    by_cases hid : id = t.currentFieldId + 1
    · rw [if_pos hid] at hg
      obtain rfl := Option.some.inj hg
      rw [h.later id c hc (hid ▸ hlt) x]
      exact eq_blank hty (hdefault x v hv)
    · rw [if_neg hid] at hg
      exact h.values id g c hg hc x hx v hv hty
  · intro id c hc hlate x
    rw [hcurrent] at hlate
    exact h.later id c hc (UInt16.lt_trans hlt hlate) x

theorem dropField {fieldId : FieldId} (h : Agrees t st)
    (hrun : Table.dropField fieldId t = .ok () t') : Agrees t' st := by
  obtain ⟨hsound, hfreedom, hcurrent, -, hfind⟩ := Table.dropField_ok h.table hrun
  refine ⟨hsound, h.storage, hfreedom ▸ h.used, ?_, h.unused, hcurrent ▸ h.later⟩
  intro id g c hg hc
  rw [hfind] at hg
  by_cases hid : id = fieldId
  · rw [if_pos hid] at hg
    cases hg
  · rw [if_neg hid] at hg
    exact h.values id g c hg hc

theorem renameField {fieldId : FieldId} {name : Bytes} (h : Agrees t st)
    (hrun : Joedb.Database.renameFieldOf fieldId name t = .ok () t') : Agrees t' st := by
  obtain ⟨names, rfl⟩ := Joedb.Database.renameFieldOf_ok hrun
  exact ⟨⟨h.table.orders, h.table.small, h.table.lengths, h.table.given⟩, h.storage, h.used,
    h.values, h.unused, h.later⟩

/-! ## Operations on a table -/

theorem insertRecord {nameSpace : String} {recordId : Int} (h : Agrees t st)
    (hlo : 0 ≤ recordId) (hblank : BlankAt t recordId.toNat)
    (ht : Table.insertRecord recordId t = .ok () t')
    (hst : Database.insertRecord nameSpace recordId st = .ok () st') : Agrees t' st' := by
  obtain ⟨-, hsame, hused⟩ := Table.insertRecord_ok h.table hlo ht
  obtain ⟨hmoved, hused'⟩ := Storage.insertRecord_ok h.storage hlo hst
  refine h.moved hsame hmoved ?_ fun x hwas his => ?_
  · rw [hused, hused', Records.use, Records.use,
      show t.freedom.records.used = st.freedom.records.used from h.used]
  · have hin := (congrFun hused' x).symm.trans his
    rw [show (st.freedom.records.use recordId 1).used x
      = (st.freedom.isUsed x || Records.range recordId 1 x) from rfl, hwas, Bool.false_or,
      Records.range_one] at hin
    rw [← of_decide_eq_true hin] at hblank
    exact hblank

theorem insertVector {recordId : Int} {size : Nat} (h : Agrees t st)
    (hblank : ∀ x : Nat, recordId ≤ x → x < recordId + size → BlankAt t x)
    (ht : Table.insertVector recordId size t = .ok () t')
    (hst : Database.insertRecords recordId size st = .ok () st') : Agrees t' st' := by
  obtain ⟨-, hsame, hused⟩ := Table.insertVector_ok h.table ht
  obtain ⟨hmoved, hused'⟩ := Storage.insertRecords_ok h.storage hst
  refine h.moved hsame hmoved ?_ fun x hwas his => ?_
  · rw [hused (Storage.insertRecords_fits hst), hused', Records.use, Records.use,
      show t.freedom.records.used = st.freedom.records.used from h.used]
  · have hin := (congrFun hused' x).symm.trans his
    rw [show (st.freedom.records.use recordId size).used x
      = (st.freedom.isUsed x || Records.range recordId size x) from rfl, hwas,
      Bool.false_or] at hin
    obtain ⟨hlo, hhi⟩ := of_decide_eq_true hin
    exact hblank x hlo hhi

/-- What goes is in use before, so nothing has to be blank. -/
theorem freed {recordId : Int} {size : Nat} (h : Agrees t st) (ht : Table.SameValues t t')
    (hst : Storage.Moved st st')
    (hused : t'.freedom.isUsed = (t.freedom.records.free recordId size).used)
    (hused' : st'.freedom.isUsed = (st.freedom.records.free recordId size).used) :
    Agrees t' st' := by
  refine h.moved ht hst ?_ fun x hwas his => ?_
  · rw [hused, hused', Records.free, Records.free,
      show t.freedom.records.used = st.freedom.records.used from h.used]
  · have hin := (congrFun hused' x).symm.trans his
    rw [show (st.freedom.records.free recordId size).used x
      = (st.freedom.isUsed x && !Records.range recordId size x) from rfl, hwas,
      Bool.false_and] at hin
    cases hin

theorem deleteRecord {recordId : Int} (h : Agrees t st)
    (ht : Table.deleteRecord recordId t = .ok () t')
    (hst : Storage.internalDelete recordId st = .ok () st') : Agrees t' st' := by
  obtain ⟨-, hsame, hused⟩ := Table.deleteRecord_ok h.table ht
  obtain ⟨hmoved, hused'⟩ := Storage.internalDelete_ok h.storage hst
  exact h.freed hsame hmoved hused hused'

theorem deleteVector {recordId : Int} {size : Nat} (h : Agrees t st)
    (ht : Table.deleteVector recordId size t = .ok () t')
    (hst : Database.deleteVectorOf recordId size st = .ok () st') : Agrees t' st' := by
  obtain ⟨-, hsame, hused⟩ := Table.deleteVector_ok h.table ht
  rw [Database.deleteVectorOf, get_bind_run] at hst
  obtain ⟨hunused, hst⟩ := guard_bind_eq_ok.mp hst
  obtain ⟨hlo, hend, -⟩ := FreedomKeeper.isUsedVector_sound (Bool.of_not_eq_false hunused)
  have hsmall := h.storage.small
  obtain ⟨hmoved, hused'⟩ := Storage.deleteRecords_ok h.storage hlo (by omega) hst
  exact h.freed hsame hmoved hused hused'

theorem written_of_not_has (h : st.Sound) {ty : Ty} {fieldId : FieldId}
    (hno : ¬ st.Has ty fieldId) (i : Nat) (vs : List ty.Storage) :
    Storage.Written ty fieldId i vs st st := by
  refine ⟨h, rfl, fun id => ?_⟩
  by_cases hid : id = fieldId
  · subst hid
    rw [if_pos rfl]
    cases hfind : find st.columns id with
    | none => rfl
    | some c =>
        have hty : c.ty ≠ ty := fun hty => hno ⟨c, hfind, hty⟩
        rw [Option.map_some, Storage.put_other hty]
  · rw [if_neg hid]

theorem update {ty : Ty} {recordId : RecordId} {fieldId : FieldId} {value : ty.Arg}
    (h : Agrees t st) (ht : Table.update ty recordId fieldId value t = .ok () t')
    (hst : Database.onField ty fieldId (Storage.internalUpdate ty recordId fieldId value) st
      = .ok () st') : Agrees t' st' := by
  obtain ⟨hused, hwrote⟩ := Table.update_ok h.table ht
  rw [h.used] at hused
  have hlo := (FreedomKeeper.lt_of_isUsed hused).1
  have hwritten : Storage.Written ty fieldId recordId.toNat [value.val] st st' := by
    by_cases hhas : st.Has ty fieldId
    · rw [Database.onField_of_has hhas] at hst
      exact (Storage.internalUpdate_ok h.storage hst).2
    · rw [Database.onField, get_bind_run,
        when_neg (show ¬ ∃ c ∈ find st.columns fieldId, c.ty = ty from hhas)] at hst
      obtain rfl := (EStateM.Result.ok.inj hst).2
      exact written_of_not_has h.storage hhas _ _
  refine h.wrote hwrote hwritten fun _ x hx₁ hx₂ => ?_
  have heq : (x : Int) = recordId := by
    rw [List.length_singleton] at hx₂
    exact (congrArg Int.ofNat (show x = recordId.toNat by omega)).trans (Int.toNat_of_nonneg hlo)
  rw [heq]
  exact hused

end Agrees

end Joedb.Compiled
