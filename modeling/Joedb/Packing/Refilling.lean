import Joedb.Packing.Runs

/-!
# Records that come back

What is dumped of a table is heard by a table with the same fields and no records. A run is
inserted behind all that is there already, and then its fields are updated one after the other,
so a record is complete when the last field is. The invariant of the loop over the records is
about those below the one it has come to, and inside of a run there is another about the fields
that had their turn.

Values are compared as an update carries them. A run of one record is written by an update, and
of the characters that a boolean may be an update carries two.
-/

namespace Joedb

open ByteFile Containers StateExcept

theorem carried_carried (v : Sigma Ty.Storage) : carried (carried v) = carried v :=
  congrArg (Sigma.mk v.1) (v.1.arg_arg v.2)

namespace Table

theorem SameValues.value {t t' : Table} (h : SameValues t t') (fieldId : FieldId) (i : Nat) :
    t'.value fieldId i = t.value fieldId i := by
  have hsame := h.fields fieldId i
  rw [Table.value, Table.value]
  cases hfind : find t.fields fieldId with
  | none =>
      rw [hfind] at hsame
      rw [Option.map_eq_none_iff.mp hsame]
  | some f =>
      rw [hfind] at hsame
      obtain ⟨f', hfind', hvalue⟩ := Option.map_eq_some_iff.mp hsame
      rw [hfind']
      exact hvalue

/-- The field of the same id has the same type. -/
theorem find_of_schema {t t' : Table} (hschema : t'.schema = t.schema) {fieldId : FieldId}
    {f : Field} (hfield : find t.fields fieldId = some f) :
    ∃ f', find t'.fields fieldId = some f' ∧ f'.column.holds = f.column.holds := by
  have htypes : (find t'.fields fieldId).map Field.type
      = (find t.fields fieldId).map Field.type := by
    rw [← find_map, ← find_map]
    exact congrArg (find · fieldId) (congrArg TableSchema.types hschema)
  rw [hfield, Option.map_some] at htypes
  obtain ⟨f', hf', htype⟩ := Option.map_eq_some_iff.mp htypes
  exact ⟨f', hf', by rw [f'.holds, f.holds, htype]⟩

theorem Fits.of_schema {t t' : Table} (hschema : t'.schema = t.schema) {n : Nat}
    (h : t.Fits n) : t'.Fits n :=
  (fits_iff t' n).mpr (hschema ▸ (fits_iff t n).mp h)

/-- The columns are not too long for what they are. -/
theorem Regular.fits {t : Table} (h : t.Regular) (hsound : t.Sound) :
    t.Fits t.freedom.getSize := by
  intro e he
  have hregular := h e he
  have hlength := hsound.lengths e he
  rw [Field.Regular] at hregular
  rw [Field.HasLength] at hlength
  rw [Field.fits]
  split
  · trivial
  · next ty vs hcolumn =>
      simp only [hcolumn] at hregular hlength
      exact hlength ▸ hregular.1

end Table

namespace Dump

/-! ## One table -/

section Hears

variable {tableId : TableId} {ops ops' : List Op} {t t₁ t' : Table}

/-- What becomes of a table when a database without a limit hears of it. -/
def Hears (tableId : TableId) (ops : List Op) (t t' : Table) : Prop :=
  ∀ db : Database, db.maxRecordId = -1 → find db.tables tableId = some t →
    Database.asWritable.hearAll ops db = .ok () { db with tables := assign db.tables tableId t' }

theorem hears_nil (t : Table) : Hears tableId [] t t := by
  intro db _ hfind
  rw [assign_self hfind]
  rfl

theorem Hears.append (h : Hears tableId ops t t₁) (h' : Hears tableId ops' t₁ t') :
    Hears tableId (ops ++ ops') t t' := by
  intro db hmax hfind
  rw [Database.asWritable.hearAll_append (h db hmax hfind)]
  refine (h' { db with tables := assign db.tables tableId t₁ } hmax
    (find_assign hfind t₁)).trans ?_
  simp only [assign_assign]

theorem hears_singleton {op : Op} (h : ∀ db : Database, db.maxRecordId = -1 →
      find db.tables tableId = some t → Database.asWritable.hear op db
        = .ok () { db with tables := assign db.tables tableId t' }) :
    Hears tableId [op] t t' := by
  intro db hmax hfind
  rw [Writable.hearAll, bind_ok (h db hmax hfind)]
  rfl

end Hears

variable (tableId : TableId) {t t' : Table}

/-! ### Fields -/

/-- The values of a run, in one field. -/
theorem fieldOps_hears (hsound : t.Sound) (h : t'.Sound) (hschema : t'.schema = t.schema)
    {fieldId : FieldId} {f : Field} (hfield : find t.fields fieldId = some f) {r size : Nat}
    (hpos : 0 < size) (hin : r + size ≤ t.freedom.getSize)
    (hused : ∀ x : Int, r ≤ x → x < r + size → t'.freedom.isUsed x = true) :
    ∃ t'', Hears tableId (fieldOps tableId r size fieldId f) t' t'' ∧ t''.Sound ∧
      t''.schema = t'.schema ∧ t''.freedom = t'.freedom ∧
      ∀ id x, (t''.value id x).map carried
        = if id = fieldId ∧ r ≤ x ∧ x < r + size then (t.value fieldId x).map carried
          else (t'.value id x).map carried := by
  obtain ⟨f', hfield', hholds⟩ := Table.find_of_schema hschema hfield
  have hvalue : ∀ x, t.value fieldId x = f.value x := fun x => by
    rw [Table.value, hfield, Option.bind_some]
  cases hcolumn : f.column with
  | monostate =>
      have hcolumn' : f'.column = .monostate :=
        Column.holds_eq_none.mp (hholds.trans (Column.holds_eq_none.mpr hcolumn))
      rw [fieldOps, hcolumn]
      refine ⟨t', hears_nil t', h, rfl, rfl, fun id x => ?_⟩
      split
      · next heq =>
          rw [heq.1, Table.value, hfield', Option.bind_some, hvalue, Field.value, hcolumn',
            Field.value, hcolumn]
      · rfl
  | vector ty vs =>
      obtain ⟨ws, hcolumn'⟩ : ∃ ws, f'.column = .vector ty ws :=
        Column.holds_eq_some.mp (hholds.trans (Column.holds_eq_some.mpr ⟨vs, hcolumn⟩))
      have hsize := hsound.lengths _ (mem_of_find hfield)
      simp only [Field.HasLength, hcolumn] at hsize
      have hold : ∀ x, t.value fieldId x = some ⟨ty, vs.getD x ty.kind.default⟩ := fun x => by
        rw [hvalue, Field.value, hcolumn]
      rw [fieldOps, hcolumn]
      simp only
      split
      · next hmany =>
          have hlen : ((vs.drop r).take size).length = size := by
            rw [List.length_take, List.length_drop]
            omega
          have hne : ((vs.drop r).take size).length ≠ 0 := by omega
          have hupdates : t'.Updates (r : Int) ((vs.drop r).take size).length := fun _ =>
            ⟨hused r (by omega) (by omega), hused _ (by omega) (by omega)⟩
          obtain ⟨t'', hstored, hhear⟩ :=
            Database.hear_updateVector_run tableId h hfield' hcolumn' hne hupdates
          refine ⟨t'', hears_singleton fun db _ => hhear, hstored.sound, hstored.schema,
            hstored.freedom, fun id x => ?_⟩
          rw [hstored.value, hlen, Int.toNat_natCast]
          split
          · next hx =>
              rw [hold, List.getD_eq_getElem?_getD, List.getElem?_take, if_pos (by omega),
                List.getElem?_drop, show r + (x - r) = x by omega, ← List.getD_eq_getElem?_getD]
          · rfl
      · next hone =>
          obtain ⟨t'', hrun, hstored⟩ := Table.update_run h hfield' hcolumn'
            (hused r (by omega) (by omega)) (ty.toArg ((vs.drop r).headD ty.kind.default))
          refine ⟨t'', hears_singleton fun db _ hfind => Database.withTable_run hfind hrun,
            hstored.sound, hstored.schema, hstored.freedom, fun id x => ?_⟩
          rw [hstored.value, Int.toNat_natCast, List.length_singleton]
          by_cases hx : id = fieldId ∧ r ≤ x ∧ x < r + 1
          · rw [if_pos hx, if_pos ⟨hx.1, by omega⟩, hold, headD_drop,
              show x = r by omega, Nat.sub_self]
            exact congrArg some (carried_carried ⟨ty, vs.getD r ty.kind.default⟩)
          · rw [if_neg hx, if_neg fun h => hx ⟨h.1, by omega⟩]

/-- The values of a run, in the fields of a list. -/
theorem namedOps_hears (hsound : t.Sound) {r size : Nat} (hpos : 0 < size)
    (hin : r + size ≤ t.freedom.getSize) (fields : List (FieldId × Bytes))
    (hfields : ∀ field ∈ fields, field.1 ∈ keys t.fields) (h : t'.Sound)
    (hschema : t'.schema = t.schema)
    (hused : ∀ x : Int, r ≤ x → x < r + size → t'.freedom.isUsed x = true) :
    ∃ t'', Hears tableId (fields.flatMap fun field => namedOps tableId t r size field.1) t' t'' ∧
      t''.Sound ∧ t''.schema = t'.schema ∧ t''.freedom = t'.freedom ∧
      ∀ id x, (t''.value id x).map carried
        = if id ∈ keys fields ∧ r ≤ x ∧ x < r + size then (t.value id x).map carried
          else (t'.value id x).map carried := by
  induction fields generalizing t' with
  | nil => exact ⟨t', hears_nil t', h, rfl, rfl, fun id x => (if_neg fun h => by cases h.1).symm⟩
  | cons field fields ih =>
      obtain ⟨hfield, hfields⟩ := List.forall_mem_cons.mp hfields
      obtain ⟨f, hf⟩ := Option.isSome_iff_exists.mp (find_isSome_iff.mpr hfield)
      obtain ⟨t₁, hears, hsound₁, hschema₁, hfreedom₁, hvalue₁⟩ :=
        fieldOps_hears tableId hsound h hschema hf hpos hin hused
      obtain ⟨t'', hears', hsound', hschema', hfreedom', hvalue'⟩ :=
        ih hfields hsound₁ (hschema₁.trans hschema) (hfreedom₁ ▸ hused)
      refine ⟨t'', ?_, hsound', hschema'.trans hschema₁, hfreedom'.trans hfreedom₁,
        fun id x => ?_⟩
      · rw [List.flatMap_cons, namedOps, hf]
        exact hears.append hears'
      · have hcons : id ∈ keys (field :: fields) ↔ id = field.1 ∨ id ∈ keys fields :=
          List.mem_cons
        rw [hvalue', hvalue₁]
        by_cases hx : r ≤ x ∧ x < r + size
        · by_cases hmem : id ∈ keys fields
          · rw [if_pos ⟨hmem, hx⟩, if_pos ⟨hcons.mpr (.inr hmem), hx⟩]
          · rw [if_neg fun h => hmem h.1]
            by_cases hid : id = field.1
            · rw [if_pos ⟨hid, hx⟩, if_pos ⟨hcons.mpr (.inl hid), hx⟩, hid]
            · rw [if_neg fun h => hid h.1, if_neg fun h => (hcons.mp h.1).elim hid hmem]
        · rw [if_neg fun h => hx h.2, if_neg fun h => hx h.2, if_neg fun h => hx h.2]

/-! ### Runs -/

section Filling

variable {k : FreedomKeeper} {s : TableSchema}

theorem Filled.insertRecord {r : Nat} (h : Filled k s r t) (hsmall : r + 1 < 2 ^ 63)
    (hused : k.isUsed r = true) (hfits : t.Fits (r + 1)) :
    ∃ t', Table.insertRecord r t = .ok () t' ∧ Filled k s (r + 1) t' ∧ Table.SameValues t t' := by
  have hlo := Int.natCast_nonneg r
  have hfree : t.freedom.isUsed r = false := by
    rw [h.used, decide_eq_false (by omega), Bool.and_false]
  have hroom : ((r : Int) + 1).toNat = r + 1 := by omega
  obtain ⟨-, t', hrun, hinserted⟩ | ⟨hfull, -⟩ := Table.insertRecord_free hlo (by omega) hfree
  · obtain ⟨-, hsame, -⟩ := Table.insertRecord_ok h.sound hlo hrun
    refine ⟨t', hrun, ⟨hsame.sound, ((Table.insertRecord_kept r).ok hrun).1.trans h.schema,
      fun x => ?_⟩, hsame⟩
    rw [hinserted.isUsed, h.used]
    by_cases hx : x = r
    · rw [hx, hused, decide_eq_true rfl, Bool.or_true, decide_eq_true (by omega)]
      rfl
    · rw [decide_eq_false hx, Bool.or_false]
      exact congrArg (k.isUsed x && ·) (decide_eq_decide.mpr (by omega))
  · exact absurd (.inr (hroom ▸ hfits)) hfull

theorem Filled.insertOp {r size : Nat} (h : Filled k s r t) (hpos : 0 < size)
    (hsmall : r + size < 2 ^ 63) (hall : ∀ x : Int, r ≤ x → x < r + size → k.isUsed x = true)
    (hfits : t.Fits (r + size)) :
    ∃ t', Hears tableId [insertOp tableId r size] t t' ∧ Filled k s (r + size) t' ∧
      Table.SameValues t t' := by
  rw [Dump.insertOp]
  by_cases hmany : size > 1
  · obtain ⟨t', hrun, hfilled⟩ := h.insertVector hsmall hall hfits
    rw [if_pos hmany]
    exact ⟨t', hears_singleton fun db hmax hfind =>
      Database.hear_insertVector_run hmax hfind hrun, hfilled,
      (Table.insertVector_ok h.sound hrun).2.1⟩
  · obtain rfl : size = 1 := by omega
    obtain ⟨t', hrun, hfilled, hsame⟩ :=
      h.insertRecord hsmall (hall r (by omega) (by omega)) hfits
    rw [if_neg hmany]
    exact ⟨t', hears_singleton fun db hmax hfind =>
      Database.hear_insertInto_run hmax hfind (Int.natCast_nonneg r) hrun, hfilled, hsame⟩

end Filling

/-- The records of a table below `r`, in another. -/
structure Refilled (t : Table) (r : Nat) (t' : Table) : Prop where
  filled : Filled t.freedom t.schema r t'
  values : ∀ fieldId (x : Nat), x < r → t.freedom.isUsed x = true →
    (t'.value fieldId x).map carried = (t.value fieldId x).map carried

theorem Refilled.skip {r r' : Nat} (h : Refilled t r t') (hle : r ≤ r')
    (hfree : ∀ x : Int, r ≤ x → x < r' → t.freedom.isUsed x = false) : Refilled t r' t' := by
  refine ⟨h.filled.skip hle hfree, fun fieldId x hx hused => h.values fieldId x ?_ hused⟩
  refine Nat.lt_of_not_le fun hout => ?_
  cases hused.symm.trans (hfree x (by omega) (by omega))

/-- A run of used records, with their values. -/
theorem Refilled.run (hsound : t.Sound) (hnamed : t.Named) {r size : Nat} (h : Refilled t r t')
    (hin : r + size ≤ t.freedom.getSize)
    (hall : ∀ x : Int, r ≤ x → x < r + size → t.freedom.isUsed x = true)
    (hfits : t'.Fits (r + size)) :
    ∃ t'', Hears tableId (runOps tableId t r size) t' t'' ∧ Refilled t (r + size) t'' := by
  rw [runOps]
  by_cases hzero : size = 0
  · subst hzero
    rw [if_pos rfl]
    exact ⟨t', hears_nil t', h⟩
  · have hpos := Nat.pos_of_ne_zero hzero
    have hsmall := hsound.small
    obtain ⟨t₁, hinsert, hfilled, hsame⟩ :=
      h.filled.insertOp tableId hpos (by omega) hall hfits
    have hused : ∀ x : Int, r ≤ x → x < r + size → t₁.freedom.isUsed x = true := by
      intro x hlo hhi
      rw [hfilled.used, hall x hlo hhi, decide_eq_true (by omega)]
      rfl
    have hkeys := Table.named_iff.mp hnamed
    obtain ⟨t'', hears, hsound', hschema, hfreedom, hvalue⟩ :=
      namedOps_hears tableId hsound hpos hin t.fieldNames
        (fun field hfield => hkeys ▸ List.mem_map_of_mem hfield) hfilled.sound hfilled.schema hused
    rw [if_neg hzero]
    refine ⟨t'', hinsert.append hears, ⟨hsound', hschema.trans hfilled.schema, fun x => by
      rw [hfreedom]; exact hfilled.used x⟩, fun fieldId x hx hxused => ?_⟩
    rw [hvalue]
    split
    · rfl
    · next hout =>
        rw [hsame.value]
        by_cases hlt : x < r
        · exact h.values fieldId x hlt hxused
        · -- the field is not one of the table, nor of the other
          have hnone : find t.fields fieldId = none := by
            refine Option.not_isSome_iff_eq_none.mp fun hsome => hout ⟨?_, by omega, hx⟩
            exact hkeys ▸ find_isSome_iff.mp hsome
          have hnone' : find t'.fields fieldId = none := by
            cases hfind : find t'.fields fieldId with
            | none => rfl
            | some f =>
                obtain ⟨f', hf', -⟩ := Table.find_of_schema h.filled.schema.symm hfind
                cases hnone.symm.trans hf'
          rw [Table.value, Table.value, hnone, hnone']

/-- All runs. -/
theorem Refilled.records (hsound : t.Sound) (hnamed : t.Named)
    (hfits : t.Fits t.freedom.getSize) {fuel r : Nat} (hfuel : t.freedom.getSize ≤ r + fuel)
    (h : Refilled t r t') :
    ∃ t'' r', Hears tableId (recordsOps tableId t fuel r) t' t'' ∧ t.freedom.getSize ≤ r' ∧
      Refilled t r' t'' := by
  induction fuel generalizing r t' with
  | zero => exact ⟨t', r, hears_nil t', hfuel, h⟩
  | succ fuel ih =>
      rw [recordsOps]
      by_cases hr : r < t.freedom.getSize
      · rw [if_pos hr]
        obtain ⟨hlo, hhi, hfree, hstop⟩ := skipFree_spec t.freedom (t.freedom.getSize - r) r
        have hskip := h.skip hlo hfree
        simp only
        generalize skipFree t.freedom (t.freedom.getSize - r) r = r₁ at *
        obtain ⟨hle, hall, hpos⟩ := countUsed_spec t.freedom (t.freedom.getSize - r₁) r₁
        generalize countUsed t.freedom (t.freedom.getSize - r₁) r₁ = size at *
        have hfits' : t'.Fits (r₁ + size) := (Table.Fits.of_schema h.filled.schema hfits).mono
          (by omega)
        obtain ⟨t₁, hears, hrun⟩ :=
          hskip.run tableId hsound hnamed (by omega) hall hfits'
        -- a run of no records is the last, and there is nothing behind it
        have hprogress : t.freedom.getSize ≤ r₁ + size + fuel := by
          by_cases hlt : r₁ < t.freedom.getSize
          · have := hpos (by omega) (hstop (by omega))
            omega
          · omega
        obtain ⟨t'', r', hears', hend, hrefilled⟩ := ih hprogress hrun
        exact ⟨t'', r', hears.append hears', hend, hrefilled⟩
      · rw [if_neg hr]
        exact ⟨t', r, hears_nil t', by omega, h⟩

end Dump

end Joedb
