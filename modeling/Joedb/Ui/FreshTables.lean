import Joedb.Interpreted.Names
import Joedb.Lib.Renumbering
import Joedb.Packing.Twins
import Joedb.Ui.Dump

/-!
# The tables and fields of a dump

What the first two loops of a dump leave is a database without records, with the names of the
other one. Nothing may throw on the way: names are new because they were distinct, and there are
ids enough because the old ones were given.

The new database is described by the old ids: `fresh` has a table for each of them, and what
the loops do to one table is a step from a table to a table.
-/

namespace Joedb

open ByteFile Containers StateExcept

/-- There are not more names than ids were given. -/
theorem Directory.length_le {names : List (UInt16 × Bytes)} {last : UInt16}
    (h : Directory names last) : names.length ≤ last.toNat := by
  have hcount : ∀ (ks : List UInt16) (lo : Nat), ks.Pairwise (· < ·) →
      (∀ k ∈ ks, lo < k.toNat ∧ k.toNat ≤ last.toNat) → ks.length ≤ last.toNat - lo := by
    intro ks
    induction ks with
    | nil => exact fun lo _ _ => Nat.zero_le _
    | cons k ks ih =>
        intro lo hsorted hks
        obtain ⟨hhead, htail⟩ := List.pairwise_cons.mp hsorted
        obtain ⟨hk, hrest⟩ := List.forall_mem_cons.mp hks
        have := ih k.toNat htail fun j hj =>
          ⟨UInt16.lt_iff_toNat_lt.mp (hhead j hj), (hrest j hj).2⟩
        rw [List.length_cons]
        omega
  have hlen := hcount (keys names) 0 h.ascending fun k hk =>
    ⟨UInt16.lt_iff_toNat_lt.mp (h.given k hk).1, UInt16.le_iff_toNat_le.mp (h.given k hk).2⟩
  rwa [keys, List.length_map, Nat.sub_zero] at hlen

theorem Directory.length_lt {names : List (UInt16 × Bytes)} {last : UInt16}
    (h : Directory names last) : names.length < 65536 :=
  Nat.lt_of_le_of_lt h.length_le last.toNat_lt

theorem Directory.nodup_keys {names : List (UInt16 × Bytes)} {last : UInt16}
    (h : Directory names last) : (keys names).Nodup :=
  h.ascending.imp fun hlt => UInt16.ne_of_lt hlt

namespace Dump

/-! ## Maps of ids -/

/-- The map that the loops over tables and over fields make. -/
def numbers : List UInt16 → Nat → List (UInt16 × UInt16) → List (UInt16 × UInt16)
  | [], _, map => map
  | id :: ids, n, map => numbers ids (n + 1) (insertOrAssign map id (UInt16.ofNat (n + 1)))

theorem find_numbers {ids : List UInt16} (hnodup : ids.Nodup) (n : Nat)
    (map : List (UInt16 × UInt16)) (id : UInt16) :
    find (numbers ids n map) id =
      if id ∈ ids then some (UInt16.ofNat (n + ids.idxOf id + 1)) else find map id := by
  induction ids generalizing n map with
  | nil => rfl
  | cons k ids ih =>
      obtain ⟨hnot, hrest⟩ := List.nodup_cons.mp hnodup
      rw [numbers, ih hrest, find_insertOrAssign]
      by_cases hid : id = k
      · subst hid
        rw [if_neg hnot, if_pos rfl, if_pos List.mem_cons_self, List.idxOf_cons_self, Nat.add_zero]
      · have hmem : id ∈ k :: ids ↔ id ∈ ids :=
          List.mem_cons.trans ⟨fun h => h.resolve_left hid, .inr⟩
        rw [if_neg hid, List.idxOf_cons_ne _ (Ne.symm hid), Nat.succ_eq_add_one,
          show n + (ids.idxOf id + 1) + 1 = n + 1 + ids.idxOf id + 1 by omega]
        simp only [hmem]

theorem subscript_numbers {ids : List UInt16} (hnodup : ids.Nodup) (id : UInt16) :
    subscript (numbers ids 0 []) id = newId ids id := by
  rw [subscript, find_numbers hnodup, newId]
  split
  · rw [Nat.zero_add]
    rfl
  · rfl

theorem ofNat_add_one (n : Nat) : UInt16.ofNat n + 1 = UInt16.ofNat (n + 1) :=
  (UInt16.ofNat_add n 1).symm

theorem ofNat_ne_last {n : Nat} (h : n < 65535) : UInt16.ofNat n ≠ 65535 := fun heq =>
  absurd (ofNat_inj (by omega) (by omega) (heq.trans (show 65535 = UInt16.ofNat 65535 from rfl)))
    (Nat.ne_of_lt h)

/-- What is found of a name that is not there. -/
theorem find?_name {names : List (UInt16 × Bytes)} {name : Bytes}
    (h : name ∉ names.map (·.2)) : names.find? (·.2 = name) = none :=
  List.find?_eq_none.mpr fun e he heq => h (List.mem_map.mpr ⟨e, he, of_decide_eq_true heq⟩)

/-- The next name of a directory. -/
theorem next_name {names todo : List (UInt16 × Bytes)} {e : UInt16 × Bytes} {last : UInt16}
    (h : Directory (names ++ e :: todo) last) :
    isIdentifier e.2 = true ∧ e.2 ∉ (renumbered names).map (·.2) ∧ names.length < 65535 := by
  have hdistinct := h.distinct
  have hlen := h.length_le
  have hlast := last.toNat_lt
  rw [List.map_append, List.map_cons] at hdistinct
  rw [List.length_append, List.length_cons] at hlen
  refine ⟨h.identifiers e (List.mem_append_right _ List.mem_cons_self), fun hmem => ?_, by omega⟩
  rw [map_snd_renumbered] at hmem
  exact (List.nodup_append.mp hdistinct).2.2 e.2 hmem e.2 List.mem_cons_self rfl

/-! ## Tables -/

/-- The new database, with its tables by their old ids. -/
def fresh (names : List (TableId × Bytes)) (ts : List (TableId × Table)) : Database where
  tables := renumbered ts
  tableNames := renumbered names
  currentTableId := UInt16.ofNat names.length
  maxRecordId := -1

theorem createTable_run {names todo : List (TableId × Bytes)} {e : TableId × Bytes}
    {last : UInt16} (hnames : Directory (names ++ e :: todo) last) {ts : List (TableId × Table)}
    (hts : ts.length = names.length) :
    Database.createTable e.2 (fresh names ts)
      = .ok () (fresh (names ++ [e]) (ts ++ [(e.1, Table.create)])) := by
  obtain ⟨hid, hnew, hlen⟩ := next_name hnames
  refine Database.createTable_iff.mpr ⟨by rw [hid]; exact Bool.noConfusion, fun hused => hused ?_,
    ofNat_ne_last hlen, ?_⟩
  · rw [Database.findTable, show (fresh names ts).tableNames = renumbered names from rfl,
      find?_name hnew]
  · have htables : tryEmplace (renumbered ts) (UInt16.ofNat (names.length + 1)) Table.create
        = renumbered (ts ++ [(e.1, Table.create)]) := by
      rw [← hts]
      exact tryEmplace_renumbered (by omega) e.1 Table.create
    have hnames' : tryEmplace (renumbered names) (UInt16.ofNat (names.length + 1)) e.2
        = renumbered (names ++ [e]) := tryEmplace_renumbered hlen e.1 e.2
    simp only [fresh, ofNat_add_one, htables, hnames', List.length_append, List.length_singleton]

theorem createTables_run {todo names : List (TableId × Bytes)} {last : UInt16}
    (hnames : Directory (names ++ todo) last) (ts : List (TableId × Table))
    (hts : ts.length = names.length) (tableMap : List (TableId × TableId)) :
    createTables Database.asWritable todo (UInt16.ofNat names.length) tableMap (fresh names ts)
      = .ok (numbers (keys todo) names.length tableMap)
          (fresh (names ++ todo) (ts ++ todo.map fun e => (e.1, Table.create))) := by
  induction todo generalizing names ts tableMap with
  | nil =>
      rw [List.append_nil, List.map_nil, List.append_nil]
      rfl
  | cons e todo ih =>
      have hrun := createTable_run hnames hts
      have hsplit : names ++ e :: todo = names ++ [e] ++ todo := List.append_cons _ _ _
      have hrest := ih (hsplit ▸ hnames) (ts ++ [(e.1, Table.create)])
        (by rw [List.length_append, List.length_append, hts]; rfl)
        (insertOrAssign tableMap e.1 (UInt16.ofNat (names.length + 1)))
      rw [List.length_append, List.length_singleton, ← hsplit, List.append_assoc] at hrest
      rw [createTables, ofNat_add_one,
        bind_ok (show Database.asWritable.call (.createTable e.2) (fresh names ts) = _ from hrun)]
      exact hrest

/-! ## Steps of one table -/

section Leads

variable {α β : Type} {names : List (TableId × Bytes)} {tid : TableId}

/-- What is done to the new database is done to one of its tables. -/
def Leads (names : List (TableId × Bytes)) (tid : TableId) (m : EStateM Exn Database α)
    (t : Table) (a : α) (t' : Table) : Prop :=
  ∀ ts, keys ts = keys names → find ts tid = some t →
    m (fresh names ts) = .ok a (fresh names (assign ts tid t'))

theorem leads_pure (t : Table) (a : α) : Leads names tid (pure a) t a t := by
  intro ts _ hfind
  rw [assign_self hfind]
  rfl

theorem leads_bind {m : EStateM Exn Database α} {f : α → EStateM Exn Database β} {t t₁ t₂ : Table}
    {a : α} {b : β} (hm : Leads names tid m t a t₁) (hf : Leads names tid (f a) t₁ b t₂) :
    Leads names tid (m >>= f) t b t₂ := by
  intro ts hkeys hfind
  rw [bind_ok (hm ts hkeys hfind), hf _ ((keys_assign _ _ _).trans hkeys) (find_assign hfind t₁),
    assign_assign]

theorem leads_read_bind {e : Except Exn α} {a : α} (he : e = .ok a)
    {f : α → EStateM Exn Database β} {t t' : Table} {b : β}
    (hf : Leads names tid (f a) t b t') : Leads names tid (read e >>= f) t b t' := by
  rw [he]
  exact hf

theorem leads_withTable (hlen : names.length < 65536) (htid : tid ∈ keys names)
    {m : EStateM Exn Table α} {t t' : Table} {a : α} (hm : m t = .ok a t') :
    Leads names tid (Database.withTable (newId (keys names) tid) m) t a t' := by
  intro ts hkeys hfind
  have hlen' : ts.length < 65536 := Nat.lt_of_le_of_lt (Nat.le_of_eq (length_of_keys hkeys)) hlen
  have hmem : tid ∈ keys ts := hkeys ▸ htid
  have htable : find (fresh names ts).tables (newId (keys names) tid) = some t := by
    rw [← hkeys, fresh, find_renumbered hlen' hmem, hfind]
  rw [Database.withTable_run htable hm, ← hkeys, fresh, assign_renumbered hlen' hmem]
  rfl

theorem leads_addField (hlen : names.length < 65536) (htid : tid ∈ keys names) {name : Bytes}
    {type : FieldType} (hname : isIdentifier name = true) {t t' : Table}
    (hrun : Table.addField name type t = .ok () t') :
    Leads names tid (Database.asWritable.call (.addField (newId (keys names) tid) name type))
      t () t' := by
  intro ts hkeys hfind
  exact Database.checkIdentifier_bind.mpr ⟨by rw [hname]; exact Bool.noConfusion,
    leads_withTable hlen htid hrun ts hkeys hfind⟩

theorem leads_insertVector (hlen : names.length < 65536) (htid : tid ∈ keys names)
    {recordId : RecordId} {size : Nat} {t t' : Table}
    (hrun : Table.insertVector recordId size t = .ok () t') :
    Leads names tid
      (Database.asWritable.call (.insertVector (newId (keys names) tid) recordId size))
      t () t' := by
  intro ts hkeys hfind
  show Database.insertVector _ recordId size (fresh names ts) = _
  rw [Database.insertVector, get_bind_run,
    when_neg (fun h => absurd h.1 (by show ¬ (-1 : Int) ≥ 0; decide))]
  exact leads_withTable hlen htid hrun ts hkeys hfind

theorem leads_update (hlen : names.length < 65536) (htid : tid ∈ keys names) {ty : Ty}
    {recordId : RecordId} {fieldId : FieldId} {value : ty.Arg} {t t' : Table}
    (hrun : Table.update ty recordId fieldId value t = .ok () t') :
    Leads names tid
      (Database.asWritable.call (.update ty (newId (keys names) tid) recordId fieldId value))
      t () t' :=
  leads_withTable hlen htid hrun

end Leads

/-! ## Fields -/

/-- A table to which fields were added, of the types that `g` gives to their old ids. -/
structure Grown (g : FieldId → FieldType) (fields : List (FieldId × Bytes)) (t : Table) :
    Prop where
  sound : t.Sound
  freedom : t.freedom = .create
  schema : t.schema = ⟨renumbered (fields.map fun e => (e.1, g e.1)), renumbered fields,
    UInt16.ofNat fields.length⟩

theorem grown_create (g : FieldId → FieldType) : Grown g [] .create :=
  ⟨Table.sound_create, rfl, rfl⟩

theorem Grown.addField {g : FieldId → FieldType} {fields todo : List (FieldId × Bytes)}
    {e : FieldId × Bytes} {last : FieldId} {t : Table} (h : Grown g fields t)
    (hnames : Directory (fields ++ e :: todo) last) :
    ∃ t', Table.addField e.2 (g e.1) t = .ok () t' ∧ Grown g (fields ++ [e]) t' := by
  obtain ⟨-, hnew, hlen⟩ := next_name hnames
  have htypes : t.fields.map (fun e => (e.1, e.2.type))
      = renumbered (fields.map fun e => (e.1, g e.1)) := congrArg TableSchema.types h.schema
  have hfieldNames : t.fieldNames = renumbered fields := congrArg TableSchema.names h.schema
  have hcurrent : t.currentFieldId = UInt16.ofNat fields.length :=
    congrArg TableSchema.current h.schema
  obtain ⟨f, hf⟩ := Field.create_empty (g e.1)
  have hzero : t.findField e.2 = 0 := by
    rw [Table.findField, hfieldNames, find?_name hnew]
  have hrun := Table.addField_iff.mpr ⟨fun hused => hused hzero,
    by rw [hcurrent]; exact ofNat_ne_last hlen, f, by rw [h.freedom]; exact hf, rfl⟩
  obtain ⟨hsound, hfreedom, -⟩ := Table.addField_ok h.sound hrun
  refine ⟨_, hrun, hsound, hfreedom.trans h.freedom, ?_⟩
  have hlen' : (fields.map fun e => (e.1, g e.1)).length = fields.length := List.length_map _
  have htypes' := tryEmplace_renumbered (m := fields.map fun e => (e.1, g e.1))
    (by rw [hlen']; exact hlen) e.1 (g e.1)
  rw [hlen'] at htypes'
  rw [Table.schema]
  simp only
  rw [map_tryEmplace Field.type, htypes, hfieldNames, hcurrent, ofNat_add_one,
    (Field.create_regular hf).2, htypes', tryEmplace_renumbered hlen e.1 e.2, List.map_append,
    List.length_append]
  rfl

section Loops

variable {db : Database} {tableMap : List (TableId × TableId)}

/-- The type that a field is added with. -/
def mappedType (db : Database) (tableMap : List (TableId × TableId)) (tid : TableId)
    (fid : FieldId) : FieldType :=
  mapType tableMap (db.getFieldType tid fid)

theorem addFields_leads {names : List (TableId × Bytes)} (hlen : names.length < 65536)
    {tid : TableId} (htid : tid ∈ keys names)
    (hmap : subscript tableMap tid = newId (keys names) tid)
    {todo fields : List (FieldId × Bytes)} {last : FieldId}
    (hfields : Directory (fields ++ todo) last) {t : Table}
    (h : Grown (mappedType db tableMap tid) fields t) (fieldMap : List (FieldId × FieldId)) :
    ∃ t', Grown (mappedType db tableMap tid) (fields ++ todo) t' ∧
      Leads names tid (addFields Database.asWritable db tableMap tid todo
        (UInt16.ofNat fields.length) fieldMap)
        t (numbers (keys todo) fields.length fieldMap) t' := by
  induction todo generalizing fields t fieldMap with
  | nil =>
      rw [List.append_nil]
      exact ⟨t, h, leads_pure t fieldMap⟩
  | cons e todo ih =>
      obtain ⟨t₁, hrun, hgrown⟩ := h.addField hfields
      have hsplit : fields ++ e :: todo = fields ++ [e] ++ todo := List.append_cons _ _ _
      obtain ⟨t', hgrown', hleads⟩ := ih (hsplit ▸ hfields) hgrown
        (insertOrAssign fieldMap e.1 (UInt16.ofNat (fields.length + 1)))
      refine ⟨t', hsplit ▸ hgrown', ?_⟩
      rw [List.length_append, List.length_singleton] at hleads
      rw [addFields, ofNat_add_one, hmap]
      exact leads_bind (leads_addField hlen htid (next_name hfields).1 hrun) hleads

/-- The tables have their fields, and `field_maps` the ids of these. -/
theorem addAllFields_run (hdb : db.Labelled)
    (hmap : ∀ id, subscript tableMap id = newId (keys db.tableNames) id)
    {todo : List (TableId × Bytes)} (hnodup : (keys todo).Nodup)
    (htodo : ∀ id ∈ keys todo, id ∈ keys db.tableNames) {ts : List (TableId × Table)}
    (hkeys : keys ts = keys db.tableNames) (hnew : ∀ id ∈ keys todo, find ts id = some .create)
    (fieldMaps : List (TableId × List (FieldId × FieldId))) :
    ∃ maps ts', addAllFields Database.asWritable db tableMap todo fieldMaps
        (fresh db.tableNames ts) = .ok maps (fresh db.tableNames ts') ∧
      keys ts' = keys db.tableNames ∧
      (∀ id ∈ keys todo, ∀ t, find db.tables id = some t →
        find maps id = some (numbers (keys t.fieldNames) 0 []) ∧
        ∃ t', find ts' id = some t' ∧ Grown (mappedType db tableMap id) t.fieldNames t') ∧
      ∀ id ∉ keys todo, find maps id = find fieldMaps id ∧ find ts' id = find ts id := by
  induction todo generalizing ts fieldMaps with
  | nil =>
      exact ⟨fieldMaps, ts, rfl, hkeys, fun id hid => absurd hid List.not_mem_nil,
        fun id _ => ⟨rfl, rfl⟩⟩
  | cons e todo ih =>
      obtain ⟨tid, name⟩ := e
      rw [show keys ((tid, name) :: todo) = tid :: keys todo from rfl] at hnodup htodo hnew ⊢
      obtain ⟨hnot, hrest⟩ := List.nodup_cons.mp hnodup
      obtain ⟨htid, htids⟩ := List.forall_mem_cons.mp htodo
      obtain ⟨hcreate, hcreates⟩ := List.forall_mem_cons.mp hnew
      obtain ⟨t, hfind⟩ := Option.isSome_iff_exists.mp
        (find_isSome_iff.mpr (hdb.keys_eq ▸ htid : tid ∈ keys db.tables))
      have hnames : Directory ([] ++ t.fieldNames) t.currentFieldId :=
        (hdb.tables _ (mem_of_find hfind)).directory
      obtain ⟨t₁, hgrown, hleads⟩ := addFields_leads hdb.directory.length_lt htid (hmap tid)
        hnames (grown_create (mappedType db tableMap tid)) []
      have hothers : ∀ id ∈ keys todo, find (assign ts tid t₁) id = some .create := by
        intro id hid
        have hne : id ≠ tid := by
          rintro rfl
          exact hnot hid
        rw [find_assign_eq, if_neg hne]
        exact hcreates id hid
      obtain ⟨maps, ts', hrun, hkeys', hdone, hothers'⟩ := ih hrest htids
        ((keys_assign _ _ _).trans hkeys) hothers
        (insertOrAssign fieldMaps tid (numbers (keys t.fieldNames) 0 []))
      refine ⟨maps, ts', ?_, hkeys', fun id hid t' hfind' => ?_, fun id hid => ?_⟩
      · rw [addAllFields]
        rw [Database.getFields_eq hfind]
        exact (bind_ok (hleads ts hkeys hcreate)).trans hrun
      · rcases List.mem_cons.mp hid with rfl | hid
        · obtain ⟨hmaps, hts⟩ := hothers' id hnot
          rw [hfind] at hfind'
          obtain rfl := Option.some.inj hfind'
          rw [hmaps, hts, find_insertOrAssign, if_pos rfl, find_assign hcreate]
          exact ⟨rfl, t₁, rfl, hgrown⟩
        · exact hdone id hid t' hfind'
      · obtain ⟨hne, hid⟩ := not_or.mp fun h => hid (List.mem_cons.mpr h)
        obtain ⟨hmaps, hts⟩ := hothers' id hid
        rw [hmaps, hts, find_insertOrAssign, if_neg hne, find_assign_eq, if_neg hne]
        exact ⟨rfl, rfl⟩

end Loops

end Dump

end Joedb
