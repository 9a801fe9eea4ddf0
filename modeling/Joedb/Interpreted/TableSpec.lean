import Joedb.Interpreted.Database
import Joedb.Interpreted.FreedomRuns

/-!
# What a table holds

A table is seen by which of its records are used, and by the value that each of its
fields has for a record, used or not. A vector that grows changes no value, since
what was not there counts as the default. So of all that can be done to a table that
is in order, insertions and deletions change what is used and nothing else, and
updates change values and nothing else. In particular a record that is inserted
has whatever value was left there.
-/

namespace Joedb

open ByteFile Containers StateExcept

/-! ## Vectors that grow -/

theorem getD_resize {α : Type} {xs : List α} {n : Nat} (h : xs.length ≤ n) (x : α) (i : Nat) :
    (Containers.resize xs n x).getD i x = xs.getD i x := by
  rw [Containers.resize, List.take_of_length_le h, List.getD_eq_getElem?_getD,
    List.getD_eq_getElem?_getD]
  rcases Nat.lt_or_ge i xs.length with hlt | hge
  · rw [List.getElem?_append_left hlt]
  · rw [List.getElem?_append_right hge, List.getElem?_eq_none hge, List.getElem?_replicate]
    split <;> rfl

theorem getD_resize_of_lt {α : Type} {xs : List α} {n i : Nat} (h : i < n) (x : α) :
    (Containers.resize xs n x).getD i x = xs.getD i x := by
  rw [List.getD_eq_getElem?_getD, List.getD_eq_getElem?_getD]
  rcases Nat.lt_or_ge i xs.length with hlt | hge
  · rw [getElem?_resize_of_lt hlt h]
  · rw [Containers.resize, List.getElem?_append_right (by rw [List.length_take]; omega),
      List.getElem?_eq_none hge, List.getElem?_replicate]
    split <;> rfl

theorem getD_copyN {α : Type} (xs vs : List α) (i k : Nat) (x : α) :
    (copyN xs i vs).getD k x =
      if i ≤ k ∧ k < i + vs.length ∧ k < xs.length then vs.getD (k - i) x else xs.getD k x := by
  rw [List.getD_eq_getElem?_getD, getElem?_copyN]
  split <;> rw [List.getD_eq_getElem?_getD]

theorem find_erase {κ α : Type} [DecidableEq κ] (m : List (κ × α)) (k k' : κ) :
    find (erase m k) k' = if k' = k then none else find m k' := by
  induction m with
  | nil => rw [erase, List.filter_nil, find, ite_self]
  | cons e m ih =>
      obtain ⟨j, v⟩ := e
      rw [erase] at ih ⊢
      by_cases hj : j = k
      · rw [List.filter_cons_of_neg (by simpa using hj), ih, find]
        by_cases hk : k' = k
        · rw [if_pos hk, if_pos hk]
        · rw [if_neg hk, if_neg hk, if_neg fun h => hk (h.trans hj)]
      · rw [List.filter_cons_of_pos (by simpa using hj), find, find, ih]
        by_cases hk : k' = j
        · rw [if_pos hk, if_pos hk, if_neg fun h => hj (hk.symm.trans h)]
        · rw [if_neg hk, if_neg hk]

theorem find_assign_eq {κ α : Type} [DecidableEq κ] (m : List (κ × α)) (k k' : κ) (v : α) :
    find (assign m k v) k' = if k' = k then (find m k).map fun _ => v else find m k' := by
  induction m with
  | nil => rw [assign, find, find, Option.map_none, ite_self]
  | cons e m ih =>
      obtain ⟨j, w⟩ := e
      rw [assign]
      by_cases hj : k = j
      · rw [if_pos hj, find, find, find]
        by_cases hk : k' = k
        · rw [if_pos (hk.trans hj), if_pos hk, if_pos hj]
          rfl
        · rw [if_neg fun h => hk (h.trans hj.symm), if_neg hk, if_neg fun h => hk (h.trans hj.symm)]
      · rw [if_neg hj, find, find, find, ih, if_neg hj]
        by_cases hk : k' = k
        · rw [if_neg fun h => hj (hk.symm.trans h), if_pos hk, if_pos hk]
        · rw [if_neg hk, if_neg hk]

theorem find_tryEmplace {κ α : Type} [DecidableEq κ] [LT κ] [DecidableLT κ] {m : List (κ × α)}
    {k : κ} (h : find m k = none) (k' : κ) (v : α) :
    find (tryEmplace m k v) k' = if k' = k then some v else find m k' := by
  induction m with
  | nil => rfl
  | cons e m ih =>
      obtain ⟨j, w⟩ := e
      rw [find] at h
      by_cases hj : k = j
      · rw [if_pos hj] at h
        cases h
      · rw [if_neg hj] at h
        rw [tryEmplace, if_neg hj]
        by_cases hlt : k < j
        · rw [if_pos hlt, find]
        · rw [if_neg hlt, find, find, ih h]
          by_cases hk : k' = k
          · rw [if_neg fun h => hj (hk.symm.trans h), if_pos hk, if_pos hk]
          · rw [if_neg hk, if_neg hk]

/-! ## Fields -/

theorem Column.holds_eq_none {c : Column} : c.holds = none ↔ c = .monostate := by
  cases c with
  | monostate => exact ⟨fun _ => rfl, fun _ => rfl⟩
  | vector ty vs => exact ⟨fun h => (by cases h), fun h => (by cases h)⟩

theorem Column.holds_eq_some {c : Column} {ty : Ty} :
    c.holds = some ty ↔ ∃ vs, c = .vector ty vs := by
  cases c with
  | monostate => exact ⟨fun h => (by cases h), fun ⟨_, h⟩ => (by cases h)⟩
  | vector ty' vs =>
      refine ⟨fun h => ?_, fun ⟨vs', h⟩ => congrArg Column.holds h⟩
      obtain rfl := Option.some.inj h
      exact ⟨vs, rfl⟩

namespace Field

/-- The value of a record, with its type. -/
def value (f : Field) (i : Nat) : Option (Sigma Ty.Storage) :=
  match f.column with
  | .monostate => none
  | .vector ty vs => some ⟨ty, vs.getD i ty.kind.default⟩

/-- Its vector, if it has one, has a length. -/
def HasLength (f : Field) (n : Nat) : Prop :=
  match f.column with
  | .monostate => True
  | .vector _ vs => vs.length = n

theorem resize_ok {f f' : Field} {n size : Nat} (hlen : f.HasLength n) (hle : n ≤ size)
    (h : resize size f = .ok () f') :
    f'.HasLength size ∧ ∀ i, f'.value i = f.value i := by
  obtain ⟨type, column, holds⟩ := f
  cases column with
  | monostate =>
      obtain rfl := (EStateM.Result.ok.inj h).2
      exact ⟨trivial, fun i => rfl⟩
  | vector ty vs =>
      have hlen : vs.length = n := hlen
      rw [resize] at h
      simp only at h
      split at h
      · obtain rfl := (EStateM.Result.ok.inj h).2
        refine ⟨length_resize _ _ _, fun i => ?_⟩
        simp only [value, getD_resize (Nat.le_trans (Nat.le_of_eq hlen) hle)]
      · cases h

theorem create_ok {type : FieldType} {size : Nat} {f : Field} (h : create type size = .ok f) :
    f.HasLength size ∧ f.column.holds = Ty.ofTypeId type.typeId ∧
      ∀ i v, f.value i = some v → v.2 = v.1.kind.default := by
  rw [create] at h
  split at h
  · next hnone =>
      cases h
      exact ⟨trivial, hnone.symm, fun i v hv => by cases hv⟩
  · next ty hty =>
      split at h
      · cases h
        refine ⟨List.length_replicate, hty.symm, fun i v hv => ?_⟩
        cases hv
        show List.getD _ i _ = _
        rw [List.getD_eq_getElem?_getD, List.getElem?_replicate]
        split <;> rfl
      · cases h

/-- A change of a vector is of the vector of its type. -/
theorem put_ok {ty : Ty} {g : List ty.Storage → List ty.Storage} {f f' : Field}
    (h : put ty g f = .ok () f') :
    ∃ vs, f.column = .vector ty vs ∧ f'.column = .vector ty (g vs) := by
  obtain ⟨type, column, holds⟩ := f
  cases column with
  | monostate => cases h
  | vector ty' vs =>
      rw [put] at h
      simp only at h
      split at h
      · next hty =>
          subst hty
          obtain rfl := (EStateM.Result.ok.inj h).2
          exact ⟨vs, rfl, rfl⟩
      · cases h

theorem put_error {ty : Ty} {g : List ty.Storage → List ty.Storage} {f f' : Field} {e : Exn}
    (h : put ty g f = .error e f') : f' = f := by
  obtain ⟨type, column, holds⟩ := f
  cases column with
  | monostate => exact (EStateM.Result.error.inj h).2.symm
  | vector ty' vs =>
      rw [put] at h
      simp only at h
      split at h
      · cases h
      · exact (EStateM.Result.error.inj h).2.symm

/-- There is a pointer where the column has the type. -/
theorem getOwnStorage_ok {ty : Ty} {f f' : Field} {own : Bool}
    (h : getOwnStorage ty f = .ok own f') : f' = f ∧ ∃ vs, f.column = .vector ty vs := by
  rw [getOwnStorage] at h
  cases hcolumn : f.column with
  | monostate =>
      rw [hcolumn] at h
      cases h
  | vector ty' vs =>
      rw [hcolumn] at h
      by_cases hty : ty' = ty
      · subst hty
        simp only [if_true] at h
        exact ⟨(EStateM.Result.ok.inj h).2.symm, vs, rfl⟩
      · simp only [if_neg hty] at h
        cases h

end Field

/-! ## Tables -/

namespace Table

/-- The keeper is in order, its size is an `index_t`, the vectors are as long as it
says, and ids of fields are those that were given. -/
structure Sound (t : Table) : Prop where
  orders : ∃ us, t.freedom.Orders us
  small : t.freedom.getSize < 2 ^ 63
  lengths : ∀ e ∈ t.fields, e.2.HasLength t.freedom.getSize
  given : ∀ fieldId f, find t.fields fieldId = some f → fieldId ≤ t.currentFieldId

def value (t : Table) (fieldId : FieldId) (i : Nat) : Option (Sigma Ty.Storage) :=
  (find t.fields fieldId).bind (·.value i)

theorem sound_create : create.Sound := by
  refine ⟨⟨[], FreedomKeeper.orders_create⟩, by decide, ?_, ?_⟩
  · intro e h
    cases h
  · intro fieldId f h
    cases h

theorem resizeAll_ok {n size : Nat} (hle : n ≤ size) {fields : List (FieldId × Field)}
    (hlen : ∀ e ∈ fields, e.2.HasLength n) (h : (resizeAll size fields).2 = none) :
    (∀ e ∈ (resizeAll size fields).1, e.2.HasLength size) ∧
      ∀ fieldId i, (find (resizeAll size fields).1 fieldId).map (·.value i)
        = (find fields fieldId).map (·.value i) := by
  induction fields with
  | nil => exact ⟨fun e he => absurd he List.not_mem_nil, fun fieldId i => rfl⟩
  | cons e fields ih =>
      obtain ⟨id, f⟩ := e
      obtain ⟨hf, hfields⟩ := List.forall_mem_cons.mp hlen
      rw [resizeAll] at h ⊢
      cases hresize : Field.resize size f with
      | error e f' =>
          rw [hresize] at h
          cases h
      | ok u f' =>
          rw [hresize] at h
          obtain ⟨hlength, hvalue⟩ := Field.resize_ok hf hle hresize
          obtain ⟨hlengths, hvalues⟩ := ih hfields h
          refine ⟨List.forall_mem_cons.mpr ⟨hlength, hlengths⟩, fun fieldId i => ?_⟩
          simp only [find]
          by_cases hid : fieldId = id
          · rw [if_pos hid, if_pos hid, Option.map_some, Option.map_some, hvalue]
          · rw [if_neg hid, if_neg hid]
            exact hvalues fieldId i

/-- What a change of a table that is in order may be: the fields and their values
are those that they were. -/
structure SameValues (t t' : Table) : Prop where
  sound : t'.Sound
  fields : ∀ fieldId i, (find t'.fields fieldId).map (·.value i)
    = (find t.fields fieldId).map (·.value i)
  current : t'.currentFieldId = t.currentFieldId

theorem SameValues.refl {t : Table} (h : t.Sound) : SameValues t t := ⟨h, fun _ _ => rfl, rfl⟩

theorem SameValues.trans {t t' t'' : Table} (h : SameValues t t') (h' : SameValues t' t'') :
    SameValues t t'' :=
  ⟨h'.sound, fun fieldId i => (h'.fields fieldId i).trans (h.fields fieldId i),
    h'.current.trans h.current⟩

theorem given_of_fields {t t' : Table} (h : t.Sound) (hfields : ∀ fieldId i,
      (find t'.fields fieldId).map (·.value i) = (find t.fields fieldId).map (·.value i))
    (hcurrent : t'.currentFieldId = t.currentFieldId) :
    ∀ fieldId f, find t'.fields fieldId = some f → fieldId ≤ t'.currentFieldId := by
  intro fieldId f hf
  have hsame := hfields fieldId 0
  rw [hf] at hsame
  cases hfind : find t.fields fieldId with
  | none =>
      rw [hfind] at hsame
      cases hsame
  | some f' =>
      rw [hcurrent]
      exact h.given fieldId f' hfind

/-- A legal call of the keeper, beside vectors of the length that it leaves. -/
theorem Sound.call {t : Table} (h : t.Sound) {c : FreedomCall}
    (hc : t.freedom.records.Legal c)
    (hsize : (t.freedom.call c).getSize = t.freedom.getSize) :
    SameValues t { t with freedom := t.freedom.call c } := by
  obtain ⟨us, hus⟩ := h.orders
  refine ⟨⟨⟨_, (hus.call hc).2⟩, ?_, ?_, h.given⟩, fun fieldId i => rfl, rfl⟩
  · rw [hsize]
    exact h.small
  · rw [hsize]
    exact h.lengths

/-- The loops that make a table larger, one on the fields and one on the keeper. -/
theorem resizeFields_ok {t t' : Table} {n size : Nat} (hlen : ∀ e ∈ t.fields, e.2.HasLength n)
    (hle : n ≤ size)
    (h : resizeFields size t = .ok () t') :
    t'.freedom = t.freedom ∧ t'.currentFieldId = t.currentFieldId ∧
      (∀ e ∈ t'.fields, e.2.HasLength size) ∧
      ∀ fieldId i, (find t'.fields fieldId).map (·.value i)
        = (find t.fields fieldId).map (·.value i) := by
  rw [resizeFields, get_bind_run] at h
  cases hthrown : (resizeAll size t.fields).2 with
  | some e =>
      rw [hthrown] at h
      cases h
  | none =>
      rw [hthrown] at h
      obtain rfl := (EStateM.Result.ok.inj h).2
      exact ⟨rfl, rfl, resizeAll_ok hle hlen hthrown⟩

theorem pushBackUntil_ok {k : FreedomKeeper} {us : List Int} (h : k.Orders us) {recordId : Int}
    (hsize : k.getSize ≤ recordId) :
    (pushBackUntil recordId k).Orders us ∧
      (pushBackUntil recordId k).isUsed = k.isUsed ∧
      ((pushBackUntil recordId k).getSize : Int) = recordId + 1 := by
  have hgo : ∀ (fuel : Nat) (k : FreedomKeeper), k.Orders us →
      (k.getSize : Int) + fuel = recordId + 1 →
      (pushBackGo recordId fuel k).Orders us ∧ (pushBackGo recordId fuel k).isUsed = k.isUsed ∧
        ((pushBackGo recordId fuel k).getSize : Int) = recordId + 1 := by
    intro fuel
    induction fuel with
    | zero =>
        intro k hk hend
        exact ⟨hk, rfl, by rw [pushBackGo]; omega⟩
    | succ fuel ih =>
        intro k hk hend
        have hrecords := k.records_pushBack
        have hused : k.pushBack.isUsed = k.isUsed := congrArg Records.used hrecords
        have hgrown : k.pushBack.getSize = max k.getSize (k.getSize + 1) :=
          congrArg Records.size hrecords
        rw [pushBackGo, if_pos (by omega), ← hused]
        exact ih k.pushBack (hk.call (c := .pushBack) trivial).2 (by omega)
  exact hgo _ k h (by omega)

theorem insertRecord_ok {t t' : Table} (h : t.Sound) {recordId : Int} (hlo : 0 ≤ recordId)
    (hrun : insertRecord recordId t = .ok () t') :
    t.freedom.isUsed recordId = false ∧ SameValues t t' ∧
      t'.freedom.isUsed = (t.freedom.records.use recordId 1).used := by
  obtain ⟨us, hus⟩ := h.orders
  rw [insertRecord, get_bind_run] at hrun
  by_cases hgrow : recordId ≥ t.freedom.getSize
  · rw [if_pos hgrow] at hrun
    have hfree : t.freedom.isUsed recordId = false := Bool.eq_false_iff.mpr fun hused =>
      absurd (FreedomKeeper.lt_of_isUsed hused).2 (Int.not_lt.mpr hgrow)
    obtain ⟨hlast, hrun⟩ := guard_bind_eq_ok.mp hrun
    have hsmall : recordId + 1 < (2 ^ 63 : Int) := Int.not_le.mp hlast
    obtain ⟨_, t₂, hresized, hrest⟩ := bind_eq_ok hrun
    obtain rfl := (EStateM.Result.ok.inj hrest).2
    obtain ⟨hfreedom, hcurrent, hlengths, hvalues⟩ :=
      resizeFields_ok h.lengths (show t.freedom.getSize ≤ (recordId + 1).toNat by omega) hresized
    obtain ⟨horders, hused, hsize⟩ := pushBackUntil_ok hus hgrow
    rw [← hfreedom] at horders hused hsize
    have hsound : Sound { t₂ with freedom := pushBackUntil recordId t₂.freedom } := by
      have hnat : (pushBackUntil recordId t₂.freedom).getSize = (recordId + 1).toNat := by omega
      refine ⟨⟨us, horders⟩, ?_, fun e he => ?_, given_of_fields h hvalues hcurrent⟩
      · show (pushBackUntil recordId t₂.freedom).getSize < 2 ^ 63
        omega
      show e.2.HasLength (pushBackUntil recordId t₂.freedom).getSize
      rw [hnat]
      exact hlengths e he
    have hin : 0 ≤ recordId ∧ recordId < (pushBackUntil recordId t₂.freedom).getSize := by omega
    have hrecords := FreedomKeeper.records_use _ hin.1 hin.2
    have hcall := hsound.call (c := .use recordId)
      ⟨hin, (congrFun hused recordId).trans (by rw [hfreedom]; exact hfree)⟩
      (congrArg Records.size hrecords)
    refine ⟨hfree, SameValues.trans ⟨hsound, hvalues, hcurrent⟩ hcall, ?_⟩
    refine (congrArg Records.used hrecords).trans ?_
    rw [Records.use, Records.use, show (pushBackUntil recordId t₂.freedom).records.used
      = t.freedom.records.used from hused.trans (congrArg FreedomKeeper.isUsed hfreedom)]
  · rw [if_neg hgrow] at hrun
    obtain ⟨hfree, hrun⟩ := guard_bind_eq_ok.mp hrun
    obtain rfl := (EStateM.Result.ok.inj hrun).2
    have hunused : t.freedom.isUsed recordId = false := by
      rw [FreedomKeeper.isFree] at hfree
      cases hused : t.freedom.isUsed recordId with
      | false => rfl
      | true => exact absurd (by rw [hused]; rfl) hfree
    have hin : 0 ≤ recordId ∧ recordId < t.freedom.getSize := ⟨hlo, Int.not_le.mp hgrow⟩
    have hrecords := FreedomKeeper.records_use t.freedom hin.1 hin.2
    exact ⟨hunused, h.call (c := .use recordId) ⟨hin, hunused⟩ (congrArg Records.size hrecords),
      congrArg Records.used hrecords⟩

theorem insertRecords_ok {t t' : Table} (h : t.Sound) {recordId : Int} {size : Nat}
    (hlo : 0 ≤ recordId) (hrun : insertRecords recordId size t = .ok () t') :
    SameValues t t' ∧ t'.freedom.isUsed = (t.freedom.records.use recordId size).used := by
  induction size generalizing t recordId with
  | zero =>
      obtain rfl := (EStateM.Result.ok.inj hrun).2
      exact ⟨.refl h, by rw [Records.use_zero]; rfl⟩
  | succ size ih =>
      obtain ⟨_, t₁, hinsert, hrest⟩ := bind_eq_ok hrun
      obtain ⟨-, hsame, hused⟩ := insertRecord_ok h hlo hinsert
      obtain ⟨hsame', hused'⟩ := ih hsame.sound (Int.le_add_one hlo) hrest
      refine ⟨hsame.trans hsame', hused'.trans ?_⟩
      rw [← Records.use_succ, Records.use, Records.use,
        show t₁.freedom.records.used = (t.freedom.records.use recordId 1).used from hused]

theorem useVector_ok {t t' : Table} {recordId : Int} {size : Nat}
    (hrun : useVector recordId size t = .ok () t') :
    ∃ freedom, t.freedom.useVector64 recordId size = .ok freedom ∧
      t' = { t with freedom := freedom } := by
  rw [useVector] at hrun
  cases huse : t.freedom.useVector64 recordId size with
  | error e =>
      rw [huse] at hrun
      cases hrun
  | ok freedom =>
      rw [huse] at hrun
      exact ⟨freedom, rfl, (EStateM.Result.ok.inj hrun).2.symm⟩

/-- Whatever comes of it, nothing but the keeper may have changed. -/
theorem after_useVector (recordId : RecordId) (size : Nat) (t : Table) :
    ∃ freedom, after (useVector recordId size) t = { t with freedom := freedom } := by
  rw [after, useVector]
  cases t.freedom.useVector64 recordId size with
  | ok freedom => exact ⟨freedom, rfl⟩
  | error e => exact ⟨t.freedom, rfl⟩

theorem useVector_of_ok {t : Table} {recordId : Int} {size : Nat} {freedom : FreedomKeeper}
    (huse : t.freedom.useVector64 recordId size = .ok freedom) :
    useVector recordId size t = .ok () { t with freedom := freedom } := by
  rw [useVector, huse]

theorem useVector_of_error {t : Table} {recordId : Int} {size : Nat} {e : Exn}
    (huse : t.freedom.useVector64 recordId size = .error e) :
    useVector recordId size t = .error e t := by
  rw [useVector, huse]

theorem useVector_of_fits {t : Table} {recordId : Int} {size : Nat}
    (hend : recordId + size ≤ t.freedom.getSize) (hfits : recordId + size < 2 ^ 63) :
    useVector recordId size t
      = .ok () { t with freedom := t.freedom.useVector recordId size } :=
  useVector_of_ok (FreedomKeeper.useVector64_of_fits hend hfits)

/-- Records that were free are used now, or the sum did not fit. -/
theorem Sound.useVector {t t' : Table} (h : t.Sound) {recordId : Int} {size : Nat}
    (hlo : 0 ≤ recordId)
    (hunused : ∀ x, recordId ≤ x → x < recordId + size → t.freedom.isUsed x = false)
    (hrun : Table.useVector recordId size t = .ok () t') :
    SameValues t t' ∧ (recordId + size < 2 ^ 63 →
      t'.freedom.isUsed = (t.freedom.records.use recordId size).used) := by
  obtain ⟨freedom, huse, rfl⟩ := useVector_ok hrun
  rcases t.freedom.useVector64_cases recordId size with
    ⟨hin, hok⟩ | ⟨hdense, -, hover, -, hle, hok⟩ | ⟨-, herror⟩ | ⟨-, herror⟩
  · obtain rfl := Except.ok.inj (huse.symm.trans hok)
    have hrecords := FreedomKeeper.records_useVector t.freedom hlo hin
    refine ⟨h.call (c := .useVector recordId size) (fun x hx => ?_)
      (congrArg Records.size hrecords), fun _ => congrArg Records.used hrecords⟩
    obtain ⟨hx₁, hx₂⟩ := mem_ints.mp hx
    exact ⟨⟨Int.le_trans hlo hx₁, Int.lt_of_lt_of_le hx₂ hin⟩, hunused x hx₁ hx₂⟩
  · obtain rfl := Except.ok.inj (huse.symm.trans hok)
    let k : FreedomKeeper :=
      { t.freedom with dfk := ⟨(word (recordId + size)).toNat, t.freedom.dfk.freeSize, hle⟩ }
    have horders : k.Orders (ints 0 k.dfk.usedSize) :=
      (FreedomKeeper.orders_dense (k := k) hdense).mpr rfl
    have hsize : k.getSize = t.freedom.getSize := by
      rw [FreedomKeeper.getSize, FreedomKeeper.getSize, if_pos hdense,
        show k.dense = true from hdense, if_pos rfl]
      rfl
    refine ⟨⟨⟨⟨_, horders⟩, ?_, ?_, h.given⟩, fun _ _ => rfl, rfl⟩,
      fun hfits => absurd hfits (Int.not_lt.mpr hover)⟩
    · rw [hsize]
      exact h.small
    · rw [hsize]
      exact h.lengths
  · cases huse.symm.trans herror
  · cases huse.symm.trans herror

/-- The keeper and then the vectors made larger, by as much as a sum says that it is. -/
theorem Sound.resizeFields {t t' : Table} (h : t.Sound) {n : Nat}
    (hsmall : n < 2 ^ 63)
    (hrun : Table.resizeFields (t.freedom.resize n).getSize
      { t with freedom := t.freedom.resize n } = .ok () t') :
    SameValues t t' ∧ t'.freedom = t.freedom.resize n := by
  obtain ⟨us, hus⟩ := h.orders
  have hsize : (t.freedom.resize n).getSize = max t.freedom.getSize n := t.freedom.getSize_resize n
  obtain ⟨hfreedom, hcurrent, hlengths, hvalues⟩ :=
    resizeFields_ok (t := { t with freedom := t.freedom.resize n }) h.lengths (by omega) hrun
  have horders : t'.freedom.Orders us := by
    rw [hfreedom]
    exact (hus.call (c := .resize n) trivial).2
  have hsmall' := h.small
  exact ⟨⟨⟨⟨us, horders⟩, by rw [hfreedom]; show (t.freedom.resize n).getSize < _; omega,
    by rw [hfreedom]; exact hlengths, given_of_fields h hvalues hcurrent⟩, hvalues, hcurrent⟩,
    hfreedom⟩

theorem toNat_word_lt (x : Int) : (word x).toNat < 2 ^ 63 := by
  rw [word, Int.bmod_def]
  split <;> omega

theorem insertVector_ok_free {t t' : Table} {recordId : RecordId} {size : Nat}
    (hrun : insertVector recordId size t = .ok () t') :
    t.freedom.isFreeVector recordId size = true := by
  rw [insertVector, get_bind_run] at hrun
  exact Bool.of_not_eq_false (guard_bind_eq_ok.mp hrun).1

theorem insertVector_ok {t t' : Table} (h : t.Sound) {recordId : Int} {size : Nat}
    (hrun : insertVector recordId size t = .ok () t') :
    0 ≤ recordId ∧ SameValues t t' ∧ (recordId + size < 2 ^ 63 →
      t'.freedom.isUsed = (t.freedom.records.use recordId size).used) := by
  rw [insertVector, get_bind_run] at hrun
  by_cases hfree : t.freedom.isFreeVector recordId size = false
  · rw [when_pos hfree] at hrun
    cases hrun
  · obtain ⟨hlo, hunused⟩ := FreedomKeeper.isFreeVector_sound (Bool.of_not_eq_false hfree)
    rw [when_neg hfree, pure_bind_run] at hrun
    refine ⟨hlo, ?_⟩
    by_cases hend : recordId = t.freedom.getSize
    · rw [if_pos hend, modify_bind_run, get_bind_run] at hrun
      obtain ⟨_, t₂, hresized, huse⟩ := bind_eq_ok hrun
      obtain ⟨hsame, hfreedom⟩ := h.resizeFields (toNat_word_lt _) hresized
      have hused : t₂.freedom.isUsed = t.freedom.isUsed := by
        rw [hfreedom]
        exact congrArg Records.used (FreedomKeeper.records_resize t.freedom _)
      obtain ⟨hsame', hused'⟩ := hsame.sound.useVector hlo (hused ▸ hunused) huse
      refine ⟨hsame.trans hsame', fun hfits => (hused' hfits).trans ?_⟩
      rw [Records.use, Records.use,
        show t₂.freedom.records.used = t.freedom.records.used from hused]
    · rw [if_neg hend] at hrun
      obtain ⟨hsame, hused⟩ := insertRecords_ok h hlo hrun
      exact ⟨hsame, fun _ => hused⟩

theorem deleteRecord_ok {t t' : Table} (h : t.Sound) {recordId : Int}
    (hrun : deleteRecord recordId t = .ok () t') :
    0 ≤ recordId ∧ SameValues t t' ∧
      t'.freedom.isUsed = (t.freedom.records.free recordId 1).used := by
  rw [deleteRecord, get_bind_run] at hrun
  obtain ⟨hused, hrun⟩ := guard_bind_eq_ok.mp hrun
  obtain rfl := (EStateM.Result.ok.inj hrun).2
  have hused := Bool.of_not_eq_false hused
  have hin := FreedomKeeper.lt_of_isUsed hused
  have hrecords := FreedomKeeper.records_free t.freedom hin.1 hin.2
  exact ⟨hin.1, h.call (c := .free recordId) hused (congrArg Records.size hrecords),
    congrArg Records.used hrecords⟩

theorem deleteVector_ok {t t' : Table} (h : t.Sound) {recordId : Int} {size : Nat}
    (hrun : deleteVector recordId size t = .ok () t') :
    0 ≤ recordId ∧ SameValues t t' ∧
      t'.freedom.isUsed = (t.freedom.records.free recordId size).used := by
  rw [deleteVector, get_bind_run] at hrun
  obtain ⟨hused, hrun⟩ := guard_bind_eq_ok.mp hrun
  obtain rfl := (EStateM.Result.ok.inj hrun).2
  obtain ⟨hlo, hend, hall⟩ :=
    FreedomKeeper.isUsedVector_sound (Bool.of_not_eq_false hused)
  have hrecords := FreedomKeeper.records_freeVector t.freedom hlo hend
  refine ⟨hlo, h.call (c := .freeVector recordId size) (fun x hx => ?_)
    (congrArg Records.size hrecords), congrArg Records.used hrecords⟩
  obtain ⟨hx₁, hx₂⟩ := mem_ints.mp hx
  exact hall x hx₁ hx₂

/-- What a change of values may be: values are written over a field, from a record
on. -/
structure Wrote (ty : Ty) (fieldId : FieldId) (i : Nat) (vs : List ty.Storage) (t t' : Table) :
    Prop where
  sound : t'.Sound
  freedom : t'.freedom = t.freedom
  current : t'.currentFieldId = t.currentFieldId
  others : ∀ id, id ≠ fieldId → find t'.fields id = find t.fields id
  own : ∃ f f' xs, find t.fields fieldId = some f ∧ f.column = .vector ty xs ∧
    xs.length = t.freedom.getSize ∧ find t'.fields fieldId = some f' ∧
    f'.column = .vector ty (copyN xs i vs)

section Fields

variable {α : Type} {fieldId : FieldId} {m : EStateM Exn Field α} {t t' : Table}

/-- What is done to a field and returns is done to the field that is there. -/
theorem withField_eq_ok {a : α} (hrun : withField fieldId m t = .ok a t') :
    ∃ f f', find t.fields fieldId = some f ∧ m f = .ok a f' ∧
      t' = { t with fields := assign t.fields fieldId f' } := by
  rw [withField] at hrun
  cases hfind : find t.fields fieldId with
  | none =>
      rw [hfind] at hrun
      cases hrun
  | some f =>
      rw [hfind] at hrun
      simp only at hrun
      cases hm : m f with
      | error e f' =>
          rw [hm] at hrun
          cases hrun
      | ok b f' =>
          rw [hm] at hrun
          obtain ⟨rfl, rfl⟩ := EStateM.Result.ok.inj hrun
          exact ⟨f, f', rfl, hm, rfl⟩

theorem withField_eq_error {e : Exn} (hrun : withField fieldId m t = .error e t') :
    t' = t ∨ ∃ f f', find t.fields fieldId = some f ∧ m f = .error e f' ∧
      t' = { t with fields := assign t.fields fieldId f' } := by
  rw [withField] at hrun
  cases hfind : find t.fields fieldId with
  | none =>
      rw [hfind] at hrun
      exact .inl (EStateM.Result.error.inj hrun).2.symm
  | some f =>
      rw [hfind] at hrun
      simp only at hrun
      cases hm : m f with
      | ok b f' =>
          rw [hm] at hrun
          cases hrun
      | error e' f' =>
          rw [hm] at hrun
          obtain ⟨rfl, rfl⟩ := EStateM.Result.error.inj hrun
          exact .inr ⟨f, f', rfl, hm, rfl⟩

/-- Whatever a change of a field ended with, the field is what it left. -/
theorem after_withField (fieldId : FieldId) (m : EStateM Exn Field α) (t : Table) :
    after (withField fieldId m) t = t ∨ ∃ f, find t.fields fieldId = some f ∧
      after (withField fieldId m) t
        = { t with fields := assign t.fields fieldId (after m f) } := by
  cases hrun : withField fieldId m t with
  | ok a t' =>
      obtain ⟨f, f', hfind, hm, rfl⟩ := withField_eq_ok hrun
      exact .inr ⟨f, hfind, by rw [after_ok hrun, after_ok hm]⟩
  | error e t' =>
      rw [after_error hrun]
      obtain hsame | ⟨f, f', hfind, hm, rfl⟩ := withField_eq_error hrun
      · exact .inl hsame
      · exact .inr ⟨f, hfind, by rw [after_error hm]⟩

end Fields

/-- A field in the place of another. -/
theorem Sound.assignField {t : Table} (h : t.Sound) {fieldId : FieldId} {f f' : Field}
    (hfind : find t.fields fieldId = some f) (hlen : f'.HasLength t.freedom.getSize) :
    Sound { t with fields := assign t.fields fieldId f' } := by
  refine ⟨h.orders, h.small, forall_mem_assign (P := (Field.HasLength · t.freedom.getSize))
    h.lengths fieldId hlen, fun id g hg => ?_⟩
  rw [find_assign_eq] at hg
  by_cases hid : id = fieldId
  · exact hid ▸ h.given fieldId f hfind
  · rw [if_neg hid] at hg
    exact h.given id g hg

theorem withField_ok {t t' : Table} (h : t.Sound) {ty : Ty} {fieldId : FieldId} {i : Nat}
    {vs : List ty.Storage}
    (hrun : withField fieldId (Field.put ty (copyN · i vs)) t = .ok () t') :
    Wrote ty fieldId i vs t t' := by
  obtain ⟨f, f', hfind, hput, rfl⟩ := withField_eq_ok hrun
  obtain ⟨xs, hcolumn, hcolumn'⟩ := Field.put_ok hput
  have hlen := h.lengths _ (mem_of_find hfind)
  simp only [Field.HasLength, hcolumn] at hlen
  have hlen' : f'.HasLength t.freedom.getSize := by
    simp only [Field.HasLength, hcolumn', length_copyN, hlen]
  refine ⟨h.assignField hfind hlen', rfl, rfl, fun id hid => ?_, f, f', xs, hfind, hcolumn,
    hlen, find_assign hfind f', hcolumn'⟩
  rw [find_assign_eq, if_neg hid]

/-- Writing twice is writing once. -/
theorem Wrote.twice {t t' t'' : Table} {ty : Ty} {fieldId : FieldId} {i : Nat}
    {vs : List ty.Storage} (h : Wrote ty fieldId i vs t t') (h' : Wrote ty fieldId i vs t' t'') :
    Wrote ty fieldId i vs t t'' := by
  obtain ⟨f, f₁, xs, hf, hcolumn, hlen, hf₁, hcolumn₁⟩ := h.own
  obtain ⟨g, g', ys, hg, hcolumn₂, -, hg', hcolumn'⟩ := h'.own
  refine ⟨h'.sound, h'.freedom.trans h.freedom, h'.current.trans h.current,
    fun id hid => (h'.others id hid).trans (h.others id hid), f, g', xs, hf, hcolumn, hlen, hg', ?_⟩
  rw [hf₁] at hg
  obtain rfl := Option.some.inj hg
  rw [hcolumn₁] at hcolumn₂
  obtain rfl := eq_of_heq (Column.vector.inj hcolumn₂).2
  rw [hcolumn', copyN_copyN]

/-- Writing through a pointer: where there is no such vector, nothing is written. -/
theorem withField_after {t : Table} (h : t.Sound) (ty : Ty) (fieldId : FieldId) (i : Nat)
    (vs : List ty.Storage) :
    after (withField fieldId (Field.put ty (copyN · i vs))) t = t ∨
      Wrote ty fieldId i vs t (after (withField fieldId (Field.put ty (copyN · i vs))) t) := by
  cases hrun : withField fieldId (Field.put ty (copyN · i vs)) t with
  | ok u t' =>
      rw [after_ok hrun]
      exact .inr (withField_ok h hrun)
  | error e t' =>
      rw [after_error hrun]
      obtain hsame | ⟨f, f', hfind, hput, rfl⟩ := withField_eq_error hrun
      · exact .inl hsame
      · obtain rfl := Field.put_error hput
        exact .inl (by rw [assign_self hfind])

theorem withField_pure {t t' : Table} {fieldId : FieldId}
    (hrun : withField fieldId (pure ()) t = .ok () t') : t' = t := by
  obtain ⟨f, f', hfind, hpure, rfl⟩ := withField_eq_ok hrun
  obtain ⟨-, rfl⟩ := EStateM.Result.ok.inj hpure
  rw [assign_self hfind]

theorem withField_pure_run {t : Table} {fieldId : FieldId} {f : Field}
    (hfield : find t.fields fieldId = some f) : withField fieldId (pure ()) t = .ok () t := by
  rw [withField, hfield]
  show EStateM.Result.ok () { t with fields := assign t.fields fieldId f } = _
  rw [assign_self hfield]

theorem checkRecordId_ok {t t' : Table} {recordId : RecordId}
    (hrun : checkRecordId recordId t = .ok () t') :
    t.freedom.isUsed recordId = true ∧ t' = t := by
  rw [checkRecordId, get_bind_run] at hrun
  obtain ⟨hused, rfl⟩ := guard_eq_ok.mp hrun
  exact ⟨Bool.of_not_eq_false hused, rfl⟩

theorem update_ok {t t' : Table} (h : t.Sound) {ty : Ty} {recordId : RecordId}
    {fieldId : FieldId} {value : ty.Arg}
    (hrun : update ty recordId fieldId value t = .ok () t') :
    t.freedom.isUsed recordId = true ∧ Wrote ty fieldId recordId.toNat [value.val] t t' := by
  obtain ⟨_, t₁, hfield, hrest⟩ := bind_eq_ok hrun
  obtain rfl := withField_pure hfield
  obtain ⟨_, t₂, hcheck, hset⟩ := bind_eq_ok hrest
  obtain ⟨hused, rfl⟩ := checkRecordId_ok hcheck
  exact ⟨hused, withField_ok h hset⟩

theorem updateVector_ok {t t' : Table} (h : t.Sound) {ty : Ty} {recordId : RecordId}
    {fieldId : FieldId} {values : List ty.Storage} (hvalues : values.length ≠ 0)
    (hrun : updateVector ty recordId fieldId values t = .ok () t') :
    Wrote ty fieldId recordId.toNat values t t' := by
  obtain ⟨_, t₁, hfield, hrest⟩ := bind_eq_ok hrun
  obtain rfl := withField_pure hfield
  rw [if_neg hvalues] at hrest
  obtain ⟨_, t₂, hfirst, hsecond⟩ := bind_eq_ok hrest
  obtain ⟨-, rfl⟩ := checkRecordId_ok hfirst
  obtain ⟨_, t₃, hlast, hset⟩ := bind_eq_ok hsecond
  obtain ⟨-, rfl⟩ := checkRecordId_ok hlast
  exact withField_ok h hset

/-- An update of a vector that the reader has written into already, where it could. -/
theorem wrote_of_hearVector {t t₁ t' : Table} (h : t.Sound) {ty : Ty} {recordId : RecordId}
    {fieldId : FieldId} {vs : List ty.Storage} (hvs : vs.length ≠ 0)
    (ht₁ : t₁ = t ∨
      t₁ = after (withField fieldId (Field.put ty (copyN · recordId.toNat vs))) t)
    (hrun : updateVector ty recordId fieldId vs t₁ = .ok () t') :
    Wrote ty fieldId recordId.toNat vs t t' := by
  obtain rfl | rfl := ht₁
  · exact updateVector_ok h hvs hrun
  · obtain hsame | hfirst := withField_after h ty fieldId recordId.toNat vs
    · rw [hsame] at hrun
      exact updateVector_ok h hvs hrun
    · exact hfirst.twice (updateVector_ok hfirst.sound hvs hrun)

/-! ## Schema -/

theorem lt_next {id : UInt16} (h : id ≠ 65535) : id < id + 1 := by
  have hne : id.toNat ≠ 65535 := fun heq => h (UInt16.toNat_inj.mp heq)
  have hlt := id.toNat_lt
  rw [UInt16.lt_iff_toNat_lt, UInt16.toNat_add]
  simp only [UInt16.toNat_one]
  omega

theorem addField_ok {t t' : Table} (h : t.Sound) {name : Bytes} {type : FieldType}
    (hrun : addField name type t = .ok () t') :
    t'.Sound ∧ t'.freedom = t.freedom ∧ t'.currentFieldId = t.currentFieldId + 1 ∧
      t.currentFieldId < t.currentFieldId + 1 ∧
      ∃ f, f.column.holds = Ty.ofTypeId type.typeId ∧
        (∀ i v, f.value i = some v → v.2 = v.1.kind.default) ∧
        ∀ id, find t'.fields id =
          if id = t.currentFieldId + 1 then some f else find t.fields id := by
  rw [addField, get_bind_run] at hrun
  obtain ⟨hname, hrun⟩ := guard_bind_eq_ok.mp hrun
  by_cases hmax : t.currentFieldId = 65535
  · rw [when_pos hmax] at hrun
    cases hrun
  · rw [when_neg hmax, pure_bind_run, modify_bind_run, get_bind_run] at hrun
    simp only at hrun
    have hlt := lt_next hmax
    cases hcreate : Field.create type t.freedom.getSize with
    | error e =>
        rw [hcreate] at hrun
        cases hrun
    | ok f =>
        rw [hcreate] at hrun
        obtain rfl := (EStateM.Result.ok.inj hrun).2
        obtain ⟨hlen, hholds, hdefault⟩ := Field.create_ok hcreate
        have hnone : find t.fields (t.currentFieldId + 1) = none := by
          cases hfind : find t.fields (t.currentFieldId + 1) with
          | none => rfl
          | some g => exact absurd (h.given _ g hfind) (UInt16.not_le.mpr hlt)
        refine ⟨⟨h.orders, h.small, forall_mem_tryEmplace
          (P := (Field.HasLength · t.freedom.getSize)) h.lengths _ hlen, fun id g hg => ?_⟩,
          rfl, rfl, hlt, f, hholds, hdefault,
          fun id => find_tryEmplace hnone id f⟩
        rw [find_tryEmplace hnone] at hg
        by_cases hid : id = t.currentFieldId + 1
        · exact hid ▸ UInt16.le_refl _
        · rw [if_neg hid] at hg
          exact UInt16.le_of_lt (UInt16.lt_of_le_of_lt (h.given id g hg) hlt)

theorem dropField_ok {t t' : Table} (h : t.Sound) {fieldId : FieldId}
    (hrun : dropField fieldId t = .ok () t') :
    t'.Sound ∧ t'.freedom = t.freedom ∧ t'.currentFieldId = t.currentFieldId ∧
      fieldId ≤ t.currentFieldId ∧
      ∀ id, find t'.fields id = if id = fieldId then none else find t.fields id := by
  rw [dropField, get_bind_run] at hrun
  cases hfind : find t.fields fieldId with
  | none =>
      rw [when_pos (by rw [hfind]; rfl)] at hrun
      cases hrun
  | some f =>
      rw [when_neg (by rw [hfind]; simp), pure_bind_run] at hrun
      obtain rfl := (EStateM.Result.ok.inj hrun).2
      refine ⟨⟨h.orders, h.small, fun e he => h.lengths e (List.mem_of_mem_filter he),
          fun id g hg => ?_⟩,
        rfl, rfl, h.given fieldId f hfind, fun id => find_erase t.fields fieldId id⟩
      rw [find_erase] at hg
      by_cases hid : id = fieldId
      · rw [if_pos hid] at hg
        cases hg
      · rw [if_neg hid] at hg
        exact h.given id g hg

end Table

end Joedb
