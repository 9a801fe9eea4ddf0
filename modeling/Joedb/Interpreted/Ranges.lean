import Joedb.Interpreted.ColumnSizes
import Joedb.Interpreted.Limits

/-!
# Ranges of records

An update, an insertion or a deletion of a vector is about the records of a range, and each of
the three finds out in its own way whether the range is what it should be. A deletion looks at
every record of the range. An update looks at the first and at the last, so that a hole between
them is written into. An insertion looks at every record that there is, and for those that there
are not yet it adds: `record_id + i`, and `freedom.size() + size`, which a `size_t` computes and
an `index_t` keeps. So the last part of this file has insertions in 64 bits, with all that may
come of a sum that does not fit.
-/

namespace Joedb

open ByteFile Containers StateExcept

/-- What is used changes within a range, everywhere in it and nowhere else. -/
def ChangesExactly (used used' : Int → Bool) (i : Int) (n : Nat) : Prop :=
  ∀ x, used' x ≠ used x ↔ i ≤ x ∧ x < i + n

theorem changesExactly_use {s : Records} {i : Int} {n : Nat}
    (hfree : ∀ x, i ≤ x → x < i + n → s.used x = false) :
    ChangesExactly s.used (s.use i n).used i n := by
  intro x
  show (s.used x || decide (i ≤ x ∧ x < i + n)) ≠ s.used x ↔ _
  by_cases hin : i ≤ x ∧ x < i + n
  · rw [decide_eq_true hin, hfree x hin.1 hin.2]
    exact ⟨fun _ => hin, fun _ => Bool.noConfusion⟩
  · rw [decide_eq_false hin, Bool.or_false]
    exact ⟨fun h => absurd rfl h, fun h => absurd h hin⟩

theorem changesExactly_free {s : Records} {i : Int} {n : Nat}
    (hused : ∀ x, i ≤ x → x < i + n → s.used x = true) :
    ChangesExactly s.used (s.free i n).used i n := by
  intro x
  show (s.used x && !decide (i ≤ x ∧ x < i + n)) ≠ s.used x ↔ _
  by_cases hin : i ≤ x ∧ x < i + n
  · rw [decide_eq_true hin, hused x hin.1 hin.2]
    exact ⟨fun _ => hin, fun _ => Bool.noConfusion⟩
  · rw [decide_eq_false hin, Bool.not_false, Bool.and_true]
    exact ⟨fun h => absurd rfl h, fun h => absurd h hin⟩

/-! ## Updates -/

namespace Table

/-- The values of a range of used records, replaced in one field. -/
structure Updated (ty : Ty) (recordId : Int) (fieldId : FieldId) (values : List ty.Storage)
    (t t' : Table) : Prop where
  used : ∀ k < values.length, t.freedom.isUsed (recordId + k) = true
  rest : t' = { t with fields := t'.fields }
  others : ∀ id, id ≠ fieldId → find t'.fields id = find t.fields id
  empty : values = [] → t' = t
  own : values ≠ [] → ∃ f f' xs ys, find t.fields fieldId = some f ∧ f.column = .vector ty xs ∧
    find t'.fields fieldId = some f' ∧ f'.type = f.type ∧ f'.column = .vector ty ys ∧
    ∀ i : Nat, ys[i]? = if recordId ≤ i ∧ i < recordId + values.length
      then values[(i - recordId).toNat]? else xs[i]?

/-- What has to be true of a range whose first and last record are used. -/
def Covers (t : Table) (ty : Ty) (recordId : Int) (fieldId : FieldId) (size : Nat) : Prop :=
  ∀ f xs, find t.fields fieldId = some f → f.column = .vector ty xs → size ≠ 0 →
    t.freedom.isUsed recordId = true → t.freedom.isUsed (recordId + size - 1) = true →
      (∀ k < size, t.freedom.isUsed (recordId + k) = true) ∧ recordId + size ≤ xs.length

variable {t t' : Table} {ty : Ty} {recordId : Int} {fieldId : FieldId} {values : List ty.Storage}

theorem updateVector_run (hvalues : values ≠ [])
    (hrun : updateVector ty recordId fieldId values t = .ok () t') :
    t.freedom.isUsed recordId = true ∧ t.freedom.isUsed (recordId + values.length - 1) = true ∧
      ∃ f f' xs, find t.fields fieldId = some f ∧ f.column = .vector ty xs ∧ f'.type = f.type ∧
        f'.column = .vector ty (copyN xs recordId.toNat values) ∧
        t' = { t with fields := assign t.fields fieldId f' } := by
  obtain ⟨_, t₁, hfield, hrest⟩ := bind_eq_ok hrun
  obtain rfl := withField_pure hfield
  rw [if_neg (mt List.length_eq_zero_iff.mp hvalues)] at hrest
  obtain ⟨_, t₂, hfirst, hsecond⟩ := bind_eq_ok hrest
  obtain ⟨hused, rfl⟩ := checkRecordId_ok hfirst
  obtain ⟨_, t₃, hlast, hset⟩ := bind_eq_ok hsecond
  obtain ⟨hused', rfl⟩ := checkRecordId_ok hlast
  refine ⟨hused, hused', ?_⟩
  obtain ⟨f, f', hfind, hput, -⟩ := withField_eq_ok hset
  obtain ⟨xs, hcolumn, -⟩ := Field.put_ok hput
  obtain ⟨g, hwritten, htype, hcolumn'⟩ :=
    withField_put (g := (copyN · recordId.toNat values)) hfind hcolumn
  obtain ⟨-, rfl⟩ := EStateM.Result.ok.inj (hset.symm.trans hwritten)
  exact ⟨f, g, xs, hfind, hcolumn, htype, hcolumn', rfl⟩

/-- An update that returns has done what an update does, exactly if the range is covered. -/
theorem updateVector_updated_iff :
    (∀ t', updateVector ty recordId fieldId values t = .ok () t' →
      Updated ty recordId fieldId values t t') ↔ t.Covers ty recordId fieldId values.length := by
  constructor
  · intro h f xs hfield hcolumn hsize hfirst hlast
    have hvalues : values ≠ [] := mt List.length_eq_zero_iff.mpr hsize
    have hlo := (FreedomKeeper.lt_of_isUsed hfirst).1
    have hrun : ∃ t', updateVector ty recordId fieldId values t = .ok () t' := by
      rcases updateVector_cases hfield hcolumn recordId values with ⟨-, hrun⟩ | ⟨hnot, -⟩
      · exact hrun
      · exact absurd (fun _ => ⟨hfirst, hlast⟩) hnot
    obtain ⟨t', hrun⟩ := hrun
    obtain ⟨hused, -, -, -, hown⟩ := h t' hrun
    obtain ⟨f₁, f', xs₁, ys, hf₁, hxs₁, hf', -, hys, hget⟩ := hown hvalues
    obtain ⟨-, -, f₂, g, xs₂, hf₂, hxs₂, -, hg, rfl⟩ := updateVector_run hvalues hrun
    obtain rfl := Option.some.inj (hf₂.symm.trans hfield)
    obtain rfl := eq_of_heq (Column.vector.inj (hxs₂.symm.trans hcolumn)).2
    have hsame : f' = g := Option.some.inj (hf'.symm.trans (find_assign hfield g))
    obtain rfl := eq_of_heq (Column.vector.inj (hys.symm.trans (hsame ▸ hg))).2
    refine ⟨hused, ?_⟩
    -- the last value is there, so the vector is long enough
    have hlen : (copyN xs₂ recordId.toNat values).length = xs₂.length := length_copyN _ _ _
    have hend := hget (recordId.toNat + values.length - 1)
    rw [if_pos (by omega), List.getElem?_eq_getElem (l := values) (by omega)] at hend
    have hlt := (List.getElem?_eq_some_iff.mp hend).1
    omega
  · intro h t' hrun
    by_cases hvalues : values = []
    · subst hvalues
      obtain ⟨_, t₁, hfield, hrest⟩ := bind_eq_ok hrun
      obtain rfl := withField_pure hfield
      obtain rfl := (EStateM.Result.ok.inj hrest).2
      exact ⟨fun k hk => absurd hk (Nat.not_lt_zero k), rfl, fun _ _ => rfl, fun _ => rfl,
        fun hne => absurd rfl hne⟩
    · obtain ⟨hfirst, hlast, f, f', xs, hfield, hcolumn, htype, hcolumn', rfl⟩ :=
        updateVector_run hvalues hrun
      have hlo := (FreedomKeeper.lt_of_isUsed hfirst).1
      obtain ⟨hused, hend⟩ :=
        h f xs hfield hcolumn (mt List.length_eq_zero_iff.mp hvalues) hfirst hlast
      refine ⟨hused, rfl, fun id hid => ?_, fun hempty => absurd hempty hvalues, fun _ =>
        ⟨f, f', xs, _, hfield, hcolumn, find_assign hfield f', htype, hcolumn', fun i => ?_⟩⟩
      · show find (assign t.fields fieldId f') id = find t.fields id
        rw [find_assign_eq, if_neg hid]
      · rw [getElem?_copyN]
        by_cases hin : recordId ≤ i ∧ i < recordId + values.length
        · rw [if_pos hin, if_pos (by omega),
            show i - recordId.toNat = (i - recordId).toNat by omega]
        · rw [if_neg hin, if_neg (by omega)]

/-! ## Deletions -/

theorem deleteVector_changes {size : Nat} (hrun : deleteVector recordId size t = .ok () t') :
    ChangesExactly t.freedom.isUsed t'.freedom.isUsed recordId size := by
  rw [deleteVector, get_bind_run] at hrun
  obtain ⟨hused, hrun⟩ := guard_bind_eq_ok.mp hrun
  obtain rfl := (EStateM.Result.ok.inj hrun).2
  obtain ⟨hlo, hend, hall⟩ := FreedomKeeper.isUsedVector_sound (Bool.of_not_eq_false hused)
  have hrecords := FreedomKeeper.records_freeVector t.freedom hlo hend
  rw [show (t.freedom.freeVector recordId size).isUsed = _ from congrArg Records.used hrecords]
  exact changesExactly_free (s := t.freedom.records) hall

/-! ## Insertions -/

/-- What an insertion does, seen from the records: it throws and changes nothing, or it changes
what is used for exactly the range. A dense keeper whose `used_size` is negative has no used
record left, and what is written outside the lists of a keeper may be anywhere. -/
def InsertsExactly (recordId : Int) (size : Nat) (t : Table) :
    EStateM.Result Exn Table Unit → Prop
  | .ok _ t' => ChangesExactly t.freedom.isUsed t'.freedom.isUsed recordId size
  | .error .undefined _ => False
  | .error .negative _ => ChangesExactly t.freedom.isUsed (fun _ => false) recordId size
  | .error _ t' => Same t t'

/-! ### Sums that fit -/

variable {size : Nat}

theorem insertsExactly_error {e : Exn} (he : e.isDefined = true) :
    InsertsExactly recordId size t (.error e t') ↔ Same t t' := by
  cases e with
  | undefined => cases he
  | negative => cases he
  | _ => exact .rfl

theorem insertRecords_changes (hlo : 0 ≤ recordId) (hsmall : recordId + size < 2 ^ 63)
    (hfree : ∀ x, recordId ≤ x → x < recordId + size → t.freedom.isUsed x = false)
    (hrun : insertRecords recordId size t = .ok () t') :
    t'.freedom.isUsed = (t.freedom.records.use recordId size).used := by
  induction size generalizing t recordId with
  | zero =>
      obtain rfl := (EStateM.Result.ok.inj hrun).2
      rw [Records.use_zero]
      rfl
  | succ size ih =>
      obtain ⟨_, t₁, hinsert, hrest⟩ := bind_eq_ok hrun
      rcases insertRecord_free hlo (by omega) (hfree recordId (by omega) (by omega)) with
        ⟨-, t₂, hok, hins⟩ | ⟨-, e, t₂, herror⟩
      · obtain ⟨-, rfl⟩ := EStateM.Result.ok.inj (hinsert.symm.trans hok)
        rw [ih (Int.le_add_one hlo) (by omega) (hins.unused hfree) hrest, ← Records.use_succ]
        funext x
        show (t₁.freedom.isUsed x || _) = ((t.freedom.isUsed x || Records.range recordId 1 x) || _)
        rw [hins.isUsed, Records.range_one]
      · cases hinsert.symm.trans herror

theorem insertVector_changes (hsmall : recordId + size < 2 ^ 63)
    (hrun : insertVector recordId size t = .ok () t') :
    ChangesExactly t.freedom.isUsed t'.freedom.isUsed recordId size := by
  have hfree := insertVector_ok_free hrun
  obtain ⟨hlo, hunused⟩ := FreedomKeeper.isFreeVector_sound hfree
  by_cases hend : recordId = t.freedom.getSize
  · rw [insertVector_end hfree hend hsmall] at hrun
    obtain ⟨_, t₂, hresized, hrest⟩ := bind_eq_ok hrun
    obtain rfl := (EStateM.Result.ok.inj hrest).2
    have hgrown := t.freedom.records_resize (t.freedom.getSize + size)
    obtain ⟨fields, -, ⟨-, hok⟩ | ⟨-, e, herror⟩⟩ := resizeFields_cases
      (t.freedom.getSize + size) { t with freedom := t.freedom.resize (t.freedom.getSize + size) }
    · obtain ⟨-, rfl⟩ := EStateM.Result.ok.inj (hresized.symm.trans hok)
      have hrecords := FreedomKeeper.records_useVector
        (t.freedom.resize (t.freedom.getSize + size)) hlo (n := size) (by
          rw [hgrown]
          show recordId + size ≤ ((max t.freedom.getSize (t.freedom.getSize + size) : Nat) : Int)
          omega)
      rw [hgrown] at hrecords
      rw [show FreedomKeeper.isUsed _ = _ from congrArg Records.used hrecords]
      exact changesExactly_use (s := t.freedom.records) hunused
    · cases hresized.symm.trans herror
  · rw [insertVector_before hfree hend] at hrun
    rw [insertRecords_changes hlo hsmall hunused hrun]
    exact changesExactly_use (s := t.freedom.records) hunused

theorem insertsExactly_of_fits (hsmall : recordId + size < 2 ^ 63) :
    InsertsExactly recordId size t (insertVector recordId size t) ↔
      t.InsertsWhole recordId size := by
  rw [← insertVector_same_iff t hsmall]
  cases hrun : insertVector recordId size t with
  | ok u t' =>
      exact ⟨fun _ e t' h => (by cases h), fun _ => insertVector_changes hsmall hrun⟩
  | error e t' =>
      rw [insertsExactly_error (insertVector_defined (fun _ => .inl hsmall) hrun)]
      refine ⟨fun h e' t'' herror => ?_, fun h => h e t' rfl⟩
      obtain ⟨-, rfl⟩ := EStateM.Result.error.inj herror
      exact h

/-! ### Sums that do not fit -/

/-- An insertion behind the last record that throws because of the columns there are is the only
harmless one. -/
theorem insertsExactly_of_over (hsize : t.freedom.getSize < 2 ^ 63) (hn : size < 2 ^ 64)
    (hover : 2 ^ 63 ≤ (t.freedom.getSize : Int) + size)
    (hfree : t.freedom.isFreeVector t.freedom.getSize size = true) :
    InsertsExactly t.freedom.getSize size t (insertVector t.freedom.getSize size t) ↔
      ¬ t.Fits t.freedom.getSize := by
  have hlt : word ((t.freedom.getSize : Int) + size) < t.freedom.getSize :=
    word_lt (by omega) hn hover
  have hsame : t.freedom.resize (word (t.freedom.getSize + size)).toNat = t.freedom :=
    FreedomKeeper.resize_of_le (by omega)
  rw [insertVector, get_bind_run, when_neg (by rw [hfree]; exact Bool.noConfusion), pure_bind_run,
    if_pos rfl, modify_bind_run, get_bind_run]
  simp only [hsame]
  obtain ⟨fields, hresized, ⟨hfits, hok⟩ | ⟨hfits, e, herror⟩⟩ :=
    resizeFields_cases t.freedom.getSize t
  · rw [bind_ok hok]
    -- the record behind the last one is in the range, and is not used
    have hnot : ∀ used', used' t.freedom.getSize = false →
        ¬ ChangesExactly t.freedom.isUsed used' t.freedom.getSize size := by
      intro used' hused' hchanges
      refine (hchanges t.freedom.getSize).mpr ⟨Int.le_refl _, by omega⟩ (hused'.trans ?_)
      exact (Bool.eq_false_iff.mpr fun hused =>
        Int.lt_irrefl _ (FreedomKeeper.lt_of_isUsed hused).2).symm
    refine ⟨fun h => absurd h ?_, fun h => absurd hfits h⟩
    rcases t.freedom.useVector64_cases t.freedom.getSize size with
      ⟨hin, -⟩ | ⟨hdense, hindex, -, -, hle, huse⟩ | ⟨-, huse⟩ | ⟨-, huse⟩
    · omega
    · rw [useVector_of_ok (t := { t with fields := fields }) huse]
      refine hnot _ ?_
      show FreedomKeeper.isUsed { t.freedom with dfk := _ } _ = false
      rw [FreedomKeeper.isUsed, if_pos hdense, DenseFreedomKeeper.isUsed]
      exact Bool.and_eq_false_iff.mpr (.inr (decide_eq_false (by simp only; omega)))
    · rw [useVector_of_error (t := { t with fields := fields }) huse]
      exact hnot _ rfl
    · rw [useVector_of_error (t := { t with fields := fields }) huse]
      exact id
  · have hlength := resizeFields_lengthError herror
    rw [bind_error herror, hlength]
    exact ⟨fun _ => hfits, fun _ => hresized.same (t := t) rfl (Nat.le_refl _)⟩

/-- A loop that gets to the largest `index_t` does not end well, unless it throws before. -/
theorem insertRecords_of_over {n : Nat} (hlo : 0 ≤ recordId) (hr : recordId < 2 ^ 63)
    (hover : 2 ^ 63 ≤ recordId + n) (hsize : t.freedom.getSize < 2 ^ 63)
    (hfree : ∀ x, recordId ≤ x → x < recordId + n → t.freedom.isUsed x = false) :
    ∃ e t', insertRecords recordId n t = .error e t' ∧ (e = .undefined ∨ e.isDefined = true ∧
      ∀ x, t.freedom.isUsed x = true → t'.freedom.isUsed x = true) := by
  induction n generalizing t recordId with
  | zero => omega
  | succ n ih =>
      rw [insertRecords]
      by_cases hlast : recordId + 1 < 2 ^ 63
      · rcases insertRecord_free hlo hlast (hfree _ (Int.le_refl _) (by omega)) with
          ⟨-, t₁, hrun, hins⟩ | ⟨-, e, t₁, hrun⟩
        · obtain ⟨e, t', herror, hkept⟩ := ih (t := t₁) (Int.le_add_one hlo) hlast (by omega)
            (by rw [hins.getSize]; omega) (hins.unused hfree)
          refine ⟨e, t', (bind_ok hrun).trans herror, hkept.imp id fun h => ⟨h.1, fun x hx => ?_⟩⟩
          exact h.2 x (by rw [hins.isUsed, hx, Bool.true_or])
        · refine ⟨e, t₁, bind_error hrun, .inr ⟨insertRecord_defined (.inl hlast) hrun,
            fun x hx => ?_⟩⟩
          rw [(spares_insertRecord _ t e t₁ hrun).used]
          exact hx
      · have hthrown : insertRecord recordId t = .error .undefined t := by
          rw [insertRecord, get_bind_run,
            if_pos (show (t.freedom.getSize : Int) ≤ recordId by omega),
            when_pos (Int.not_lt.mp hlast)]
          rfl
        exact ⟨_, _, bind_error hthrown, .inl rfl⟩

/-- Only its first record may stop such a loop. -/
theorem insertsExactly_loop_of_over (hlo : 0 ≤ recordId) (hr : recordId < 2 ^ 63)
    (hsize : t.freedom.getSize < 2 ^ 63) (hover : 2 ^ 63 ≤ recordId + size)
    (hfree : ∀ x, recordId ≤ x → x < recordId + size → t.freedom.isUsed x = false) :
    InsertsExactly recordId size t (insertRecords recordId size t) ↔
      recordId + 1 < 2 ^ 63 ∧ t.freedom.getSize ≤ recordId ∧ ¬ t.Fits (recordId + 1).toNat := by
  obtain ⟨n, rfl⟩ : ∃ n, size = n + 1 := ⟨size - 1, by omega⟩
  have hfirst := hfree recordId (Int.le_refl _) (by omega)
  by_cases hlast : recordId + 1 < 2 ^ 63
  · rw [insertRecords]
    rcases insertRecord_free hlo hlast hfirst with
      ⟨hfits, t₁, hrun, hins⟩ | ⟨hfits, e, t₁, hrun⟩
    · refine ⟨fun h => absurd h ?_, fun h => absurd hfits fun hor => ?_⟩
      · -- the first record is used by now, whatever comes next
        have hused : t₁.freedom.isUsed recordId = true := by
          rw [hins.isUsed, decide_eq_true rfl, Bool.or_true]
        obtain ⟨e, t', herror, hkept⟩ := insertRecords_of_over (t := t₁) (Int.le_add_one hlo)
          hlast (by omega) (by rw [hins.getSize]; omega) (hins.unused hfree)
        rw [bind_ok hrun, herror]
        rcases hkept with rfl | ⟨he, hkept⟩
        · exact id
        · rw [insertsExactly_error he]
          intro hsame
          have hstill := hkept recordId hused
          rw [hsame.used, hfirst] at hstill
          cases hstill
      · exact hor.elim (fun hlt => by omega) h.2.2
    · rw [bind_error hrun, insertsExactly_error (insertRecord_defined (.inl hlast) hrun)]
      refine ⟨fun _ => ⟨hlast, ?_, fun h => hfits (.inr h)⟩,
        fun _ => spares_insertRecord recordId t e t₁ hrun⟩
      exact Int.not_lt.mp fun hlt => hfits (.inl hlt)
  · obtain ⟨e, t', herror, hkept⟩ := insertRecords_of_over hlo hr hover hsize hfree
    have hthrown : insertRecord recordId t = .error .undefined t := by
      rw [insertRecord, get_bind_run,
        if_pos (show (t.freedom.getSize : Int) ≤ recordId by omega),
        when_pos (Int.not_lt.mp hlast)]
      rfl
    rw [insertRecords, bind_error hthrown]
    exact ⟨fun h => h.elim, fun h => absurd h.1 hlast⟩

/-- When an insertion does exactly what it should. -/
def InsertsInWords (t : Table) (recordId : Int) (size : Nat) : Prop :=
  t.freedom.isFreeVector recordId size = true →
    (recordId = t.freedom.getSize →
      recordId + size < 2 ^ 63 ∨ ¬ t.Fits t.freedom.getSize) ∧
    (recordId ≠ t.freedom.getSize → size ≠ 0 →
      (recordId + size < 2 ^ 63 ∧
        (recordId + size ≤ t.freedom.getSize ∨ t.Fits (recordId + size).toNat)) ∨
      (recordId + 1 < 2 ^ 63 ∧ t.freedom.getSize ≤ recordId ∧ ¬ t.Fits (recordId + 1).toNat))

theorem insertVector_exactly_iff (hsize : t.freedom.getSize < 2 ^ 63) (hr : recordId < 2 ^ 63)
    (hn : size < 2 ^ 64) :
    InsertsExactly recordId size t (insertVector recordId size t) ↔
      t.InsertsInWords recordId size := by
  cases hfree : t.freedom.isFreeVector recordId size with
  | false =>
      rw [insertVector, get_bind_run, when_pos hfree]
      refine ⟨fun _ h => ?_, fun _ => .refl t⟩
      rw [hfree] at h
      cases h
  | true =>
      obtain ⟨hlo, hunused⟩ := FreedomKeeper.isFreeVector_sound hfree
      rw [InsertsInWords, show (_ → _) ↔ _ from forall_prop_of_true hfree]
      by_cases hfits : recordId + size < 2 ^ 63
      · rw [insertsExactly_of_fits hfits]
        refine ⟨fun h => ⟨fun _ => .inl hfits, fun hne hpos => ?_⟩, fun h _ hne hpos => ?_⟩
        · exact (h hfree hne hpos).imp (fun h => ⟨hfits, h⟩) fun h => ⟨by omega, h⟩
        · exact (h.2 hne hpos).imp And.right And.right
      · by_cases hend : recordId = t.freedom.getSize
        · subst hend
          rw [insertsExactly_of_over hsize hn (Int.not_lt.mp hfits) hfree]
          exact ⟨fun h => ⟨fun _ => .inr h, fun hne => absurd rfl hne⟩,
            fun h => (h.1 rfl).resolve_left hfits⟩
        · rw [insertVector_before hfree hend,
            insertsExactly_loop_of_over hlo hr hsize (Int.not_lt.mp hfits) hunused]
          exact ⟨fun h => ⟨fun heq => absurd heq hend, fun _ _ => .inr h⟩,
            fun h => (h.2 hend (by omega)).resolve_left fun h => hfits h.1⟩

end Table

/-! ## Databases -/

namespace Database

/-- An update that throws changes nothing. One that returns finds all records of the range
used, and replaces their values in the field. -/
def UpdatesExactly (db : Database) (tableId : TableId) (ty : Ty) (recordId : Int)
    (fieldId : FieldId) (values : List ty.Storage) : Prop :=
  (∀ e db', updateVector ty tableId recordId fieldId values db = .error e db' → db' = db) ∧
    ∀ db', updateVector ty tableId recordId fieldId values db = .ok () db' →
      ∃ t t', find db.tables tableId = some t ∧ Table.Updated ty recordId fieldId values t t' ∧
        db' = { db with tables := assign db.tables tableId t' }

/-- An insertion that throws changes nothing. One that returns changes what is used within the
range. -/
def InsertsExactly (db : Database) (tableId : TableId) (recordId : Int) (size : Nat) : Prop :=
  match insertVector tableId recordId size db with
  | .ok _ db' => ∃ t t', find db.tables tableId = some t ∧
      ChangesExactly t.freedom.isUsed t'.freedom.isUsed recordId size ∧
      db' = { db with tables := assign db.tables tableId t' }
  | .error .undefined _ => False
  | .error .negative _ => ∃ t, find db.tables tableId = some t ∧
      ChangesExactly t.freedom.isUsed (fun _ => false) recordId size
  | .error _ db' => Same db db'

/-- The same of a deletion. -/
def DeletesExactly (db : Database) (tableId : TableId) (recordId : Int) (size : Nat) : Prop :=
  (∀ e db', deleteVector tableId recordId size db = .error e db' → db' = db) ∧
    ∀ db', deleteVector tableId recordId size db = .ok () db' →
      ∃ t t', find db.tables tableId = some t ∧
        ChangesExactly t.freedom.isUsed t'.freedom.isUsed recordId size ∧
        db' = { db with tables := assign db.tables tableId t' }

/-- A range has no hole if its first and last record are used. -/
def Covers (db : Database) (tableId : TableId) (ty : Ty) (recordId : Int) (fieldId : FieldId)
    (size : Nat) : Prop :=
  ∀ t, find db.tables tableId = some t → t.Covers ty recordId fieldId size

/-- An insertion that passes the comparisons does not come to a sum that does not fit, and
makes all of its changes or none. -/
def InsertsInWords (db : Database) (tableId : TableId) (recordId : Int) (size : Nat) : Prop :=
  (db.maxRecordId ≥ 0 → recordId < db.maxRecordId ∧ size < db.maxRecordId) →
    ∀ t, find db.tables tableId = some t → t.InsertsInWords recordId size

variable {db : Database} {tableId : TableId} {recordId : Int}

theorem spares_withTable_exact {m : EStateM Exn Table Unit}
    (hm : Spares (fun t t' => t' = t) m) :
    Spares (fun db db' => db' = db) (withTable tableId m) := by
  intro db e db' hrun
  obtain ⟨-, rfl⟩ | ⟨t, t', hfind, hthrown, rfl⟩ := withTable_error hrun
  · rfl
  · rw [hm t e t' hthrown, assign_self hfind]

theorem updatesExactly_iff {ty : Ty} {fieldId : FieldId} {values : List ty.Storage} :
    db.UpdatesExactly tableId ty recordId fieldId values ↔
      db.Covers tableId ty recordId fieldId values.length := by
  refine ⟨fun h t hfind => Table.updateVector_updated_iff.mp fun t' hrun => ?_, fun h =>
    ⟨fun e db' hrun =>
      spares_withTable_exact (Table.spares_updateVector ty recordId fieldId values) db e db' hrun,
      fun db' hrun => ?_⟩⟩
  · have hok : updateVector ty tableId recordId fieldId values db
        = .ok () { db with tables := assign db.tables tableId t' } := by
      rw [updateVector, withTable, hfind]
      simp only [hrun]
    obtain ⟨t₁, t₁', hfind₁, hupdated, hdb⟩ := h.2 _ hok
    obtain rfl := Option.some.inj (hfind.symm.trans hfind₁)
    have hsame : find (assign db.tables tableId t') tableId
        = find (assign db.tables tableId t₁') tableId :=
      congrArg (fun db : Database => find db.tables tableId) hdb
    rw [find_assign hfind, find_assign hfind] at hsame
    exact Option.some.inj hsame ▸ hupdated
  · obtain ⟨t, t', hfind, htable, rfl⟩ := withTable_ok hrun
    exact ⟨t, t', hfind, Table.updateVector_updated_iff.mpr (h t hfind) t' htable, rfl⟩

theorem insertsExactly_iff {size : Nat}
    (hsize : ∀ t, find db.tables tableId = some t → t.freedom.getSize < 2 ^ 63)
    (hr : recordId < 2 ^ 63) (hn : size < 2 ^ 64) :
    db.InsertsExactly tableId recordId size ↔ db.InsertsInWords tableId recordId size := by
  rw [InsertsExactly, insertVector, get_bind_run, InsertsInWords]
  by_cases hmax : db.maxRecordId ≥ 0 ∧ ¬(recordId < db.maxRecordId ∧ size < db.maxRecordId)
  · rw [when_pos hmax]
    exact ⟨fun _ h => absurd (h hmax.1) hmax.2, fun _ => .refl db⟩
  · have hpass : db.maxRecordId ≥ 0 → recordId < db.maxRecordId ∧ size < db.maxRecordId :=
      fun hge => not_not.mp fun hnot => hmax ⟨hge, hnot⟩
    rw [when_neg hmax, pure_bind_run, withTable]
    cases hfind : find db.tables tableId with
    | none => exact ⟨fun _ _ t h => (by cases h), fun _ => .refl db⟩
    | some t =>
        have htable := Table.insertVector_exactly_iff (hsize t hfind) hr hn
        have hall : ((db.maxRecordId ≥ 0 → recordId < db.maxRecordId ∧ size < db.maxRecordId) →
            ∀ t', some t = some t' → t'.InsertsInWords recordId size) ↔
            t.InsertsInWords recordId size :=
          ⟨fun h => h hpass t rfl, fun h _ t' heq => Option.some.inj heq ▸ h⟩
        rw [hall, ← htable]
        simp only
        cases Table.insertVector recordId size t with
        | ok u t' =>
            refine ⟨fun h => ?_, fun h => ⟨t, t', rfl, h, rfl⟩⟩
            obtain ⟨t₁, t₁', hfind₁, hchanges, hdb⟩ := h
            obtain rfl := Option.some.inj hfind₁
            have hsame : find (assign db.tables tableId t') tableId
                = find (assign db.tables tableId t₁') tableId :=
              congrArg (fun db : Database => find db.tables tableId) hdb
            rw [find_assign hfind, find_assign hfind] at hsame
            exact Option.some.inj hsame ▸ hchanges
        | error e t' =>
            cases e with
            | negative =>
                refine ⟨fun h => ?_, fun h => ⟨t, rfl, h⟩⟩
                obtain ⟨t₁, hfind₁, hchanges⟩ := h
                exact Option.some.inj hfind₁ ▸ hchanges
            | undefined => exact .rfl
            | _ => exact same_assign_iff hfind

theorem deletesExactly (size : Nat) : db.DeletesExactly tableId recordId size := by
  refine ⟨fun e db' hrun => ?_, fun db' hrun => ?_⟩
  · exact spares_withTable_exact (m := Table.deleteVector recordId size)
      (spares_get_bind fun _ => spares_guard (spares_modify _)) db e db' hrun
  · obtain ⟨t, t', hfind, htable, rfl⟩ := withTable_ok hrun
    exact ⟨t, t', hfind, Table.deleteVector_changes htable, rfl⟩

/-- Of all that can be done to the records of a range, a deletion is always exact. An update is,
exactly if there is no hole between a first and a last record that are used, and an insertion,
exactly if its sums fit and it does not run out of memory between two of its records. -/
theorem ranges_exactly_iff (db : Database) (tableId : TableId) (recordId : Int64) (ty : Ty)
    (fieldId : FieldId) (values : List ty.Storage) (size : UInt64)
    (hsize : ∀ t, find db.tables tableId = some t → t.freedom.getSize < 2 ^ 63) :
    (db.UpdatesExactly tableId ty recordId.toInt fieldId values ∧
        db.InsertsExactly tableId recordId.toInt size.toNat ∧
        db.DeletesExactly tableId recordId.toInt size.toNat) ↔
      db.Covers tableId ty recordId.toInt fieldId values.length ∧
        db.InsertsInWords tableId recordId.toInt size.toNat := by
  rw [updatesExactly_iff, insertsExactly_iff hsize recordId.toInt_lt size.toNat_lt]
  exact ⟨fun h => ⟨h.1, h.2.1⟩, fun h => ⟨h.1, h.2, deletesExactly size.toNat⟩⟩

/-- A table of three records, the second of which was deleted. -/
def withHole : Database :=
  (create (-1)).callEach [.createTable [0x74], .addField 1 [0x66] (.plain (Ty.typeId .int8)),
    .insertVector 1 0 3, .deleteFrom 1 1]

theorem withHole_table : (find withHole.tables 1).map
    (fun t => (t.freedom.getSize, t.freedom.isUsed 1)) = some (3, false) := by
  decide +kernel

theorem ranges_exactly_iff_withHole :
    (withHole.UpdatesExactly 1 .int8 (Int64.toInt 2) 1 [(7 : BitVec 8)] ∧
        withHole.InsertsExactly 1 (Int64.toInt 2) (UInt64.toNat 3) ∧
        withHole.DeletesExactly 1 (Int64.toInt 2) (UInt64.toNat 3)) ↔
      withHole.Covers 1 .int8 (Int64.toInt 2) 1 1 ∧
        withHole.InsertsInWords 1 (Int64.toInt 2) (UInt64.toNat 3) :=
  ranges_exactly_iff withHole 1 2 .int8 1 [(7 : BitVec 8)] 3 fun t hfind => by
    have htable := withHole_table
    rw [hfind] at htable
    have hsize := congrArg Prod.fst (Option.some.inj htable)
    simp only at hsize
    omega

/-- The record that was deleted is written into. -/
theorem update_into_hole :
    ¬ ∀ (maxRecordId : RecordId) (ops : List Op) (tableId : TableId) (recordId : Int64) (ty : Ty)
      (fieldId : FieldId) (values : List ty.Storage) (size : UInt64), -1 ≤ recordId.toInt →
      ((create maxRecordId).callEach ops).UpdatesExactly tableId ty recordId.toInt fieldId values ∧
        ((create maxRecordId).callEach ops).InsertsExactly tableId recordId.toInt size.toNat ∧
        ((create maxRecordId).callEach ops).DeletesExactly tableId recordId.toInt size.toNat := by
  intro hall
  have hexact : withHole.UpdatesExactly 1 .int8 0 1
      [(7 : BitVec 8), (8 : BitVec 8), (9 : BitVec 8)] :=
    (hall (-1) _ 1 0 .int8 1 [(7 : BitVec 8), (8 : BitVec 8), (9 : BitVec 8)] 0 (by decide)).1
  have hreturns : (match updateVector .int8 1 0 1
      [(7 : BitVec 8), (8 : BitVec 8), (9 : BitVec 8)] withHole with
    | .ok _ _ => true
    | .error _ _ => false) = true := by decide +kernel
  cases hrun : updateVector .int8 1 0 1 [(7 : BitVec 8), (8 : BitVec 8), (9 : BitVec 8)]
      withHole with
  | error e db' =>
      rw [hrun] at hreturns
      cases hreturns
  | ok u db' =>
      obtain ⟨t, t', hfind, hupdated, -⟩ := hexact.2 db' hrun
      have htable := withHole_table
      rw [hfind] at htable
      have hunused := congrArg Prod.snd (Option.some.inj htable)
      exact Bool.noConfusion (hunused.symm.trans (hupdated.used 1 (by decide)))

end Database

end Joedb
