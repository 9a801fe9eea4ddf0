import Joedb.Compiled.Agreement

/-!
# Replaying into both

One operation after the other, an interpreted database and a generated class go
through the same journal. Tables that are there agree, and those that will come are
blank in the generated class. Where the two are generated from one schema, every
column has its field in the end.
-/

namespace Joedb.Compiled

open ByteFile Containers StateExcept

/-- The interpreted database, and the generated one. -/
structure DbAgrees (db : Joedb.Database) (gen : Database) : Prop where
  given : ∀ tableId t, find db.tables tableId = some t → tableId ≤ db.currentTableId
  agrees : ∀ tableId st t, find gen.tables tableId = some st → find db.tables tableId = some t →
    Agrees t st
  later : ∀ tableId st, find gen.tables tableId = some st → db.currentTableId < tableId →
    Agrees .create st

/-- Blank where records come into use. -/
def Blank (db : Joedb.Database) : Op → Prop
  | .insertInto t r => ∀ table, find db.tables t = some table → BlankAt table r.toNat
  | .insertVector t r size => ∀ table, find db.tables t = some table →
      ∀ x : Nat, r ≤ x → x < r + size → BlankAt table x
  | _ => True

section Steps

variable {db db' : Joedb.Database} {gen gen' : Database}

/-- One table is changed, in both if the generated class has it. -/
theorem DbAgrees.assign (h : DbAgrees db gen) {tableId : TableId} {t t' : Table}
    (hfind : find db.tables tableId = some t)
    (hgen : find gen.tables tableId = none ∧ gen' = gen ∨
      ∃ st st', find gen.tables tableId = some st ∧ Agrees t' st' ∧
        gen' = { gen with tables := assign gen.tables tableId st' }) :
    DbAgrees { db with tables := Containers.assign db.tables tableId t' } gen' := by
  have hother : ∀ id, id ≠ tableId → find gen'.tables id = find gen.tables id := by
    intro id hid
    obtain ⟨-, rfl⟩ | ⟨st, st', -, -, rfl⟩ := hgen
    · rfl
    · rw [find_assign_eq, if_neg hid]
  refine ⟨fun id s hs => ?_, fun id st s hst hs => ?_, fun id st hst hlt => ?_⟩
  · rw [find_assign_eq] at hs
    by_cases hid : id = tableId
    · exact hid ▸ h.given tableId t hfind
    · rw [if_neg hid] at hs
      exact h.given id s hs
  · rw [find_assign_eq] at hs
    by_cases hid : id = tableId
    · subst hid
      rw [if_pos rfl, hfind, Option.map_some] at hs
      obtain rfl := Option.some.inj hs
      obtain ⟨hnone, rfl⟩ | ⟨st₀, st', hst₀, hagrees, rfl⟩ := hgen
      · rw [hnone] at hst
        cases hst
      · rw [find_assign hst₀] at hst
        obtain rfl := Option.some.inj hst
        exact hagrees
    · rw [if_neg hid] at hs
      rw [hother id hid] at hst
      exact h.agrees id st s hst hs
  · have hid : id ≠ tableId := by
      rintro rfl
      exact absurd hlt (UInt16.not_lt.mpr (h.given id t hfind))
    rw [hother id hid] at hst
    exact h.later id st hst hlt

theorem onTable_cases {tableId : TableId} {m : EStateM Exn Storage Unit}
    (h : Database.onTable tableId (pure ()) m gen = .ok () gen') :
    find gen.tables tableId = none ∧ gen' = gen ∨
      ∃ st st', find gen.tables tableId = some st ∧ m st = .ok () st' ∧
        gen' = { gen with tables := assign gen.tables tableId st' } := by
  cases hfind : find gen.tables tableId with
  | none =>
      rw [Database.onTable, hfind] at h
      exact .inl ⟨rfl, (EStateM.Result.ok.inj h).2.symm⟩
  | some st =>
      obtain ⟨st', hm, hgen⟩ := Database.onTable_eq_ok hfind h
      exact .inr ⟨st, st', rfl, hm, hgen⟩

/-- The same change on a table of both. -/
theorem DbAgrees.onTable (h : DbAgrees db gen) {tableId : TableId} {m : EStateM Exn Table Unit}
    {m' : EStateM Exn Storage Unit} (hdb : Joedb.Database.withTable tableId m db = .ok () db')
    (hgen : Database.onTable tableId (pure ()) m' gen = .ok () gen')
    (hstep : ∀ t t' st st', find db.tables tableId = some t → Agrees t st → m t = .ok () t' →
      m' st = .ok () st' → Agrees t' st') : DbAgrees db' gen' := by
  obtain ⟨t, t', hfind, hm, rfl⟩ := Joedb.Database.withTable_ok hdb
  refine h.assign hfind ?_
  obtain hnone | ⟨st, st', hst, hm', hgen'⟩ := onTable_cases hgen
  · exact .inl hnone
  · exact .inr ⟨st, st', hst, hstep t t' st st' hfind (h.agrees tableId st t hst hfind) hm hm',
      hgen'⟩

/-- A change of the schema is a change of tables that the generated class has
already. -/
theorem DbAgrees.onSchema (h : DbAgrees db gen) {tableId : TableId} {m : EStateM Exn Table Unit}
    (hdb : Joedb.Database.withTable tableId m db = .ok () db') {op : Op}
    (hgen : gen' = { gen with schema := gen.schema ++ [op] })
    (hstep : ∀ t t' st, Agrees t st → m t = .ok () t' → Agrees t' st) :
    DbAgrees db' gen' := by
  obtain ⟨t, t', hfind, hm, rfl⟩ := Joedb.Database.withTable_ok hdb
  subst hgen
  have hsame : DbAgrees { db with tables := Containers.assign db.tables tableId t' } gen := by
    refine h.assign hfind ?_
    cases hst : find gen.tables tableId with
    | none => exact .inl ⟨rfl, rfl⟩
    | some st =>
        exact .inr ⟨st, st, rfl, hstep t t' st (h.agrees tableId st t hst hfind) hm,
          by rw [assign_self hst]⟩
  exact ⟨hsame.given, hsame.agrees, hsame.later⟩

theorem DbAgrees.createTable (h : DbAgrees db gen) {name : Bytes}
    (hdb : Joedb.Database.createTable name db = .ok () db') :
    DbAgrees db' { gen with schema := gen.schema ++ [.createTable name] } := by
  obtain ⟨hcurrent, hlt, hfind⟩ := Joedb.Database.createTable_ok h.given hdb
  refine ⟨?_, fun id st t hst ht => ?_, fun id st hst hlate => ?_⟩
  · rw [hcurrent]
    exact Joedb.Database.forall_created (P := fun id _ => id ≤ db.currentTableId + 1)
      (fun id t ht => UInt16.le_of_lt (UInt16.lt_of_le_of_lt (h.given id t ht) hlt))
      (UInt16.le_refl _) hfind
  · exact Joedb.Database.forall_created
      (P := fun id t => ∀ st, find gen.tables id = some st → Agrees t st)
      (fun id t ht st hst => h.agrees id st t hst ht) (fun st hst => h.later _ st hst hlt) hfind
      id t ht st hst
  · rw [hcurrent] at hlate
    exact h.later id st hst (UInt16.lt_trans hlt hlate)

theorem DbAgrees.dropTable (h : DbAgrees db gen) {tableId : TableId}
    (hdb : Joedb.Database.dropTable tableId db = .ok () db') :
    DbAgrees db' { gen with schema := gen.schema ++ [.dropTable tableId] } := by
  obtain ⟨hcurrent, hfind⟩ := Joedb.Database.dropTable_ok hdb
  refine ⟨?_, fun id st t hst ht => ?_, hcurrent ▸ h.later⟩
  · rw [hcurrent]
    exact Joedb.Database.forall_dropped h.given hfind
  · exact Joedb.Database.forall_dropped
      (P := fun id t => ∀ st, find gen.tables id = some st → Agrees t st)
      (fun id t ht st hst => h.agrees id st t hst ht) hfind id t ht st hst

theorem DbAgrees.renameTable (h : DbAgrees db gen) {tableId : TableId} {name : Bytes}
    (hdb : Joedb.Database.renameTable tableId name db = .ok () db') :
    DbAgrees db' { gen with schema := gen.schema ++ [.renameTable tableId name] } := by
  obtain ⟨htables, hcurrent⟩ := Joedb.Database.renameTable_ok hdb
  refine ⟨?_, ?_, ?_⟩
  · rw [htables, hcurrent]
    exact h.given
  · rw [htables]
    exact h.agrees
  · rw [hcurrent]
    exact h.later

/-- A call that is not the update of a vector. -/
theorem DbAgrees.call (h : DbAgrees db gen) {op : Op} (hblank : Blank db op)
    (hop : ∀ ty t r f vs, op ≠ .updateVector ty t r f vs)
    (hdb : Joedb.Database.call op db = .ok () db') (hgen : Database.call op gen = .ok () gen') :
    DbAgrees db' gen' := by
  cases op with
  | createTable name =>
      obtain rfl := (EStateM.Result.ok.inj hgen).2
      exact h.createTable hdb
  | dropTable t =>
      obtain rfl := (EStateM.Result.ok.inj hgen).2
      exact h.dropTable hdb
  | renameTable t name =>
      obtain rfl := (EStateM.Result.ok.inj hgen).2
      exact h.renameTable hdb
  | addField t name type =>
      obtain ⟨_, db₁, hcheck, hrest⟩ := bind_eq_ok hdb
      obtain rfl := Joedb.Database.checkIdentifier_ok hcheck
      exact h.onSchema hrest (EStateM.Result.ok.inj hgen).2.symm
        fun t t' st hagrees hm => hagrees.addField hm
  | dropField t f =>
      exact h.onSchema hdb (EStateM.Result.ok.inj hgen).2.symm
        fun t t' st hagrees hm => hagrees.dropField hm
  | renameField t f name =>
      obtain ⟨_, db₁, hcheck, hrest⟩ := bind_eq_ok hdb
      obtain rfl := Joedb.Database.checkIdentifier_ok hcheck
      exact h.onSchema hrest (EStateM.Result.ok.inj hgen).2.symm
        fun t t' st hagrees hm => hagrees.renameField hm
  | custom name =>
      obtain rfl := (EStateM.Result.ok.inj hdb).2
      obtain rfl := (EStateM.Result.ok.inj hgen).2
      exact ⟨h.given, h.agrees, h.later⟩
  | insertInto t r =>
      rw [Joedb.Database.call, Joedb.Database.insertInto, get_bind_run] at hdb
      rw [Database.call, Database.insertInto, get_bind_run] at hgen
      by_cases hout : r < 0 ∨ (db.maxRecordId ≥ 0 ∧ r > db.maxRecordId)
      · rw [when_pos hout] at hdb
        cases hdb
      · by_cases hout' : r < 0 ∨ (gen.maxRecordId ≠ 0 ∧ r ≥ gen.maxRecordId)
        · rw [when_pos hout'] at hgen
          cases hgen
        · rw [when_neg hout, pure_bind_run] at hdb
          rw [when_neg hout', pure_bind_run] at hgen
          exact h.onTable hdb hgen fun t t' st st' hfind hagrees ht hst =>
            hagrees.insertRecord (Int.not_lt.mp fun hneg => hout (.inl hneg)) (hblank t hfind)
              ht hst
  | insertVector t r size =>
      rw [Joedb.Database.call, Joedb.Database.insertVector, get_bind_run] at hdb
      rw [Database.call, Database.insertVector, get_bind_run] at hgen
      by_cases hout : db.maxRecordId ≥ 0 ∧ ¬(r < db.maxRecordId ∧ size < db.maxRecordId)
      · rw [when_pos hout] at hdb
        cases hdb
      · by_cases hout' : r < 0 ∨
            (gen.maxRecordId ≠ 0 ∧ (r ≥ gen.maxRecordId ∨ word size ≥ gen.maxRecordId))
        · rw [when_pos hout'] at hgen
          cases hgen
        · rw [when_neg hout, pure_bind_run] at hdb
          rw [when_neg hout', pure_bind_run] at hgen
          exact h.onTable hdb hgen fun t t' st st' hfind hagrees ht hst =>
            hagrees.insertVector (hblank t hfind) ht hst
  | deleteFrom t r =>
      exact h.onTable hdb hgen fun t t' st st' _ hagrees ht hst => hagrees.deleteRecord ht hst
  | deleteVector t r size =>
      exact h.onTable hdb hgen fun t t' st st' _ hagrees ht hst => hagrees.deleteVector ht hst
  | update ty t r f v =>
      exact h.onTable hdb hgen fun t t' st st' _ hagrees ht hst => hagrees.update ht hst
  | updateVector ty t r f vs => exact absurd rfl (hop ty t r f vs)
  | comment c =>
      obtain rfl := (EStateM.Result.ok.inj hdb).2
      obtain rfl := (EStateM.Result.ok.inj hgen).2
      exact h
  | timestamp stamp =>
      obtain rfl := (EStateM.Result.ok.inj hdb).2
      obtain rfl := (EStateM.Result.ok.inj hgen).2
      exact h
  | validData =>
      obtain rfl := (EStateM.Result.ok.inj hdb).2
      obtain rfl := (EStateM.Result.ok.inj hgen).2
      exact h
  | writeBlob data =>
      obtain rfl := (EStateM.Result.ok.inj hdb).2
      obtain rfl := (EStateM.Result.ok.inj hgen).2
      exact h

/-! ## Vectors of values -/

/-- What the reader does with the vector of a generated column. -/
theorem hearVector_gen {ty : Ty} {tableId : TableId} {r : RecordId} {f : FieldId}
    {vs : List ty.Storage}
    (hgen : Database.asWritable.hearVector ty tableId r f vs gen = .ok () gen') :
    find gen.tables tableId = none ∧ gen' = gen ∨
      ∃ st st₁ st', find gen.tables tableId = some st ∧
        (st₁ = st ∨ st.Has ty f ∧ st₁ = st.write ty f r.toNat vs) ∧
        Database.onField ty f (Storage.internalUpdateVector ty r f vs) st₁ = .ok () st' ∧
        gen' = { gen with tables := assign gen.tables tableId st' } := by
  rw [Writable.hearVector] at hgen
  obtain ⟨capacity, gen₁, hown, hrest⟩ := bind_eq_ok hgen
  obtain ⟨hcapacity, rfl⟩ := EStateM.Result.ok.inj hown
  obtain ⟨hout, hrest⟩ := guard_bind_eq_ok.mp hrest
  by_cases hsome : capacity.isSome = true
  · rw [when_pos hsome, modify_bind_run] at hrest
    cases hfind : find gen.tables tableId with
    | none =>
        rw [hfind] at hcapacity
        rw [← hcapacity] at hsome
        cases hsome
    | some st =>
        have hhas : st.Has ty f := by
          rw [hfind] at hcapacity
          cases hc : find st.columns f with
          | none =>
              simp only [Option.bind_eq_bind, Option.bind_some, hc, Option.bind_none] at hcapacity
              rw [← hcapacity] at hsome
              cases hsome
          | some c =>
              simp only [Option.bind_eq_bind, Option.bind_some, hc] at hcapacity
              by_cases hty : c.ty = ty ∧ c.values.length ≠ 0
              · exact ⟨c, hc, hty.1⟩
              · rw [if_neg hty] at hcapacity
                rw [← hcapacity] at hsome
                cases hsome
        have hstore : Database.asWritable.storeOwn ty tableId f r.toNat vs gen
            = { gen with tables := assign gen.tables tableId (st.write ty f r.toNat vs) } := by
          show Database.storeOwn ty tableId f r.toNat vs gen = _
          rw [Database.storeOwn, hfind]
        rw [hstore] at hrest
        obtain ⟨st', hupdate, rfl⟩ := Database.onTable_eq_ok (find_assign hfind _) hrest
        exact .inr ⟨st, _, st', rfl, .inr ⟨hhas, rfl⟩, hupdate, by simp only [assign_assign]⟩
  · rw [when_neg hsome, pure_bind_run] at hrest
    obtain hnone | ⟨st, st', hst, hupdate, rfl⟩ := onTable_cases hrest
    · exact .inl hnone
    · exact .inr ⟨st, st, st', hst, .inl rfl, hupdate, rfl⟩

theorem DbAgrees.hearVector (h : DbAgrees db gen) {ty : Ty} {tableId : TableId} {r : RecordId}
    {f : FieldId} {vs : List ty.Storage} (hvs : vs.length ≠ 0)
    (hdb : Joedb.Database.asWritable.hearVector ty tableId r f vs db = .ok () db')
    (hgen : Database.asWritable.hearVector ty tableId r f vs gen = .ok () gen') :
    DbAgrees db' gen' := by
  obtain ⟨t, t₁, t', hfind, ht₁, hupdate, rfl⟩ := Joedb.Database.hearVector_db hdb
  refine h.assign hfind ?_
  obtain hnone | ⟨st, st₁, st', hst, hst₁, hupdate', hgen'⟩ := hearVector_gen hgen
  · exact .inl hnone
  refine .inr ⟨st, st', hst, ?_, hgen'⟩
  have hagrees := h.agrees tableId st t hst hfind
  have hwrote := Table.wrote_of_hearVector hagrees.table hvs ht₁ hupdate
  by_cases hhas : st.Has ty f
  · have hlater : ∀ s : Storage, s.Sound → s.Has ty f → s.freedom = st.freedom →
        Database.onField ty f (Storage.internalUpdateVector ty r f vs) s = .ok () st' →
        st.freedom.isUsedVector r vs.length = true ∧ Storage.Written ty f r.toNat vs s st' := by
      intro s hs hsf hfreedom hrun
      rw [Database.onField_of_has hsf] at hrun
      rw [← hfreedom]
      exact Storage.internalUpdateVector_ok hs hrun
    have hwritten : st.freedom.isUsedVector r vs.length = true ∧
        Storage.Written ty f r.toNat vs st st' := by
      obtain rfl | ⟨-, rfl⟩ := hst₁
      · exact hlater st₁ hagrees.storage hhas rfl hupdate'
      · have hfirst := Storage.written_write hagrees.storage ty f r.toNat vs
        obtain ⟨hused, hsecond⟩ := hlater _ hfirst.sound (Storage.has_write hhas r.toNat vs) rfl
          hupdate'
        exact ⟨hused, hfirst.twice hsecond⟩
    obtain ⟨hlo, -, hall⟩ := FreedomKeeper.isUsedVector_sound hwritten.1
    refine hagrees.wrote hwrote hwritten.2 fun _ x hx₁ hx₂ => ?_
    have hr : (r.toNat : Int) = r := Int.toNat_of_nonneg hlo
    exact hall x (hr ▸ Int.ofNat_le.mpr hx₁)
      (hr ▸ (Int.ofNat_lt.mpr hx₂ : (x : Int) < ((r.toNat + vs.length : Nat) : Int)))
  · obtain rfl | ⟨hhas', -⟩ := hst₁
    · rw [Database.onField, get_bind_run,
        when_neg (show ¬ ∃ c ∈ find st₁.columns f, c.ty = ty from hhas)] at hupdate'
      obtain rfl := (EStateM.Result.ok.inj hupdate').2
      exact hagrees.wrote hwrote (Agrees.written_of_not_has hagrees.storage hhas _ _)
        fun hno => absurd hno hhas
    · exact absurd hhas' hhas

/-- An operation that both hear. -/
theorem DbAgrees.hear (h : DbAgrees db gen) {op : Op} (hblank : Blank db op)
    (hdb : Joedb.Database.asWritable.hear op db = .ok () db')
    (hgen : Database.asWritable.hear op gen = .ok () gen') : DbAgrees db' gen' := by
  have hplain : (∀ ty t r f vs, op ≠ .updateVector ty t r f vs) →
      (∀ d, Joedb.Database.asWritable.hear op d = Joedb.Database.call op d) →
      (∀ d, Database.asWritable.hear op d = Database.call op d) → DbAgrees db' gen' := by
    intro hop hdb' hgen'
    rw [hdb'] at hdb
    rw [hgen'] at hgen
    exact h.call hblank hop hdb hgen
  cases op with
  | updateVector ty t r f vs =>
      rw [Writable.hear_updateVector] at hdb hgen
      by_cases hempty : vs.length = 0
      · rw [when_neg (not_not_intro hempty)] at hdb hgen
        obtain rfl := (EStateM.Result.ok.inj hdb).2
        obtain rfl := (EStateM.Result.ok.inj hgen).2
        exact h
      · rw [when_pos hempty] at hdb hgen
        exact h.hearVector hempty hdb hgen
  | writeBlob data =>
      obtain rfl := (EStateM.Result.ok.inj hdb).2
      obtain rfl := (EStateM.Result.ok.inj hgen).2
      exact h
  | _ => exact hplain (fun _ _ _ _ _ h => by cases h) (fun _ => rfl) fun _ => rfl

end Steps

/-! ## Runs -/

/-- Every record that comes into use in the course of a replay is blank at that
time, in the interpreted database. -/
def BlankAll : List Op → Joedb.Database → Prop
  | [], _ => True
  | op :: ops, db => Blank db op ∧
      ∀ db', Joedb.Database.asWritable.hear op db = .ok () db' → BlankAll ops db'

theorem DbAgrees.hearAll {ops : List Op} {db db' : Joedb.Database} {gen gen' : Database}
    (h : DbAgrees db gen) (hblank : BlankAll ops db)
    (hdb : Joedb.Database.asWritable.hearAll ops db = .ok () db')
    (hgen : Database.asWritable.hearAll ops gen = .ok () gen') : DbAgrees db' gen' := by
  induction ops generalizing db gen with
  | nil =>
      obtain rfl := (EStateM.Result.ok.inj hdb).2
      obtain rfl := (EStateM.Result.ok.inj hgen).2
      exact h
  | cons op ops ih =>
      obtain ⟨_, db₁, hop, hops⟩ := bind_eq_ok hdb
      obtain ⟨_, gen₁, hop', hops'⟩ := bind_eq_ok hgen
      exact ih (h.hear hblank.1 hop hop') (hblank.2 db₁ hop) hops hops'

end Joedb.Compiled
