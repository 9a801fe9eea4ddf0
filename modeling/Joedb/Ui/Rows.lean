import Mathlib.Algebra.Order.BigOperators.Group.List
import Mathlib.Algebra.Order.Group.Nat
import Joedb.Interpreted.Names
import Joedb.Ui.Json

/-!
# Rows

The text that is written is put together from the rows of the tables: their used records, in the
order of the ids. All columns of a table run over the same rows, and the position that a
reference is translated into is its place among the rows of the table it refers to, because the
loop that counts positions and the loops that write values pass over the same records.

Whether a column has as many values as there are rows is another matter. The separators are
written for every row, and for a field of a type that has no values there is nothing between
them.
-/

namespace Joedb

open ByteFile Containers StateExcept

/-! ## The text of a document -/

structure JsonTable where
  name : Bytes
  size : Nat
  columns : List (Bytes × List Bytes)

namespace JsonTable

def columnText (column : Bytes × List Bytes) : Bytes :=
  ascii "  \"" ++ column.1 ++ ascii "\": [" ++ (ascii ", ").intercalate column.2 ++ ascii "]"

def text (t : JsonTable) : Bytes :=
  ascii " \"" ++ t.name ++ ascii "\":\n \x7b\n" ++ ascii "  \"__size\": " ++ decimal t.size
    ++ (t.columns.flatMap fun column => ascii ",\n" ++ columnText column) ++ ascii "\n \x7d"

/-- The text of them all. -/
def documentText (ts : List JsonTable) : Bytes :=
  ascii "\x7b\n" ++ (ascii ",\n").intercalate (ts.map text) ++ ascii "\n\x7d\n"

end JsonTable

/-! ## What it should say -/

namespace Database

/-- The used records of a table, in the order of their ids. -/
def rows (db : Database) (tableId : TableId) : List Int :=
  match find db.tables tableId with
  | none => []
  | some t => (ints 0 t.freedom.getSize).filter t.freedom.isUsed

/-- The place of a record among the rows of its table, and -1 if it is none of them. -/
def position (db : Database) (tableId : TableId) (reference : RecordId) : Int :=
  if reference ∈ db.rows tableId then (db.rows tableId).idxOf reference else -1

def fieldNames (db : Database) (tableId : TableId) : List (FieldId × Bytes) :=
  match find db.tables tableId with
  | none => []
  | some t => t.fieldNames

/-- The text of a value: a position for a reference to a table that there is. -/
def valueText (F : FloatText) (base64 : Bool) (db : Database) (type : FieldType) :
    Sigma Ty.Storage → Bytes
  | ⟨.reference, r⟩ =>
      if (find db.tables type.tableId).isSome then decimal (db.position type.tableId r)
      else decimal r
  | ⟨ty, v⟩ => (writeJsonValue F base64 ty v).1

/-- The tables with their rows, and a text for each place. -/
def document (db : Database) (cell : TableId → FieldId → Int → Bytes) : List JsonTable :=
  db.tableNames.map fun table => ⟨table.2, (db.rows table.1).length,
    (db.fieldNames table.1).map fun field =>
      (field.2, (db.rows table.1).map (cell table.1 field.1))⟩

/-- A text is of the database: in every column there is a value for every row, which is the
value of the field where it has one. -/
def Shows (F : FloatText) (base64 : Bool) (db : Database) (text : Bytes) : Prop :=
  ∃ cell : TableId → FieldId → Int → Bytes,
    (∀ tableId t fieldId f, find db.tables tableId = some t → find t.fields fieldId = some f →
      ∀ r ∈ db.rows tableId, cell tableId fieldId r ≠ [] ∧
        ∀ v, f.value r.toNat = some v → cell tableId fieldId r = db.valueText F base64 f.type v) ∧
    text = JsonTable.documentText (db.document cell)

end Database

/-! ## Rows and positions -/

theorem getElem?_ints (i : Int) (n j : Nat) :
    (ints i n)[j]? = if j < n then some (i + j) else none := by
  induction n generalizing i j with
  | zero => rfl
  | succ n ih =>
      cases j with
      | zero => rw [ints, List.getElem?_cons_zero, if_pos (Nat.succ_pos n)]; simp
      | succ j =>
          rw [ints, List.getElem?_cons_succ, ih]
          by_cases hj : j < n
          · rw [if_pos hj, if_pos (Nat.succ_lt_succ hj)]
            congr 1
            omega
          · rw [if_neg hj, if_neg fun h => hj (Nat.lt_of_succ_lt_succ h)]

theorem translateGo_eq (k : FreedomKeeper) (left recordId : Nat) (position : Int) :
    translateGo k left recordId position
      = ((ints recordId left).map fun r => if k.isUsed r = true then
          position + ((ints recordId left).filter k.isUsed).idxOf r else -1,
        position + ((ints recordId left).filter k.isUsed).length) := by
  induction left generalizing recordId position with
  | zero => rw [translateGo, ints, List.map_nil, List.filter_nil, List.length_nil]; simp
  | succ left ih =>
      have hcast : ((recordId + 1 : Nat) : Int) = (recordId : Int) + 1 := by omega
      rw [translateGo, ints, List.map_cons, ih, ih, hcast]
      by_cases hused : k.isUsed recordId = true
      · rw [if_neg (by rw [hused]; exact Bool.noConfusion), if_pos hused,
          List.filter_cons_of_pos hused, List.idxOf_cons_self, List.length_cons]
        refine Prod.ext (congrArg₂ _ (by simp) (List.map_congr_left fun r hr => ?_)) ?_
        · have hne : (recordId : Int) ≠ r := by
            have := mem_ints.mp hr
            omega
          rw [List.idxOf_cons_ne _ hne]
          split
          · push_cast
            omega
          · rfl
        · show position + 1 + _ = position + _
          push_cast
          omega
      · rw [if_pos (by simpa using hused), if_neg hused, List.filter_cons_of_neg hused]

theorem pairwise_ints (i : Int) (n : Nat) : (ints i n).Pairwise (· < ·) := by
  induction n generalizing i with
  | zero => exact List.Pairwise.nil
  | succ n ih =>
      refine List.pairwise_cons.mpr ⟨fun j hj => ?_, ih _⟩
      have := mem_ints.mp hj
      omega

/-- An entry of a vector of translations is the position among the rows. -/
theorem Database.position_eq {db : Database} {tableId : TableId} {t : Table}
    (hfind : find db.tables tableId = some t) (reference : Int) :
    db.position tableId reference
      = if reference < 0 ∨ reference.toNat ≥ t.freedom.getSize then -1
        else (translateGo t.freedom t.freedom.getSize 0 0).1.getD reference.toNat 0 := by
  have hrows : db.rows tableId = (ints 0 t.freedom.getSize).filter t.freedom.isUsed := by
    rw [rows, hfind]
  have hmem : reference ∈ db.rows tableId ↔ t.freedom.isUsed reference = true := by
    rw [hrows, List.mem_filter, mem_ints]
    refine and_iff_right_of_imp fun hused => ?_
    have := FreedomKeeper.lt_of_isUsed hused
    omega
  rw [position]
  by_cases hout : reference < 0 ∨ reference.toNat ≥ t.freedom.getSize
  · have hnot : reference ∉ db.rows tableId := fun h => by
      have := FreedomKeeper.lt_of_isUsed (hmem.mp h)
      omega
    rw [if_neg hnot, if_pos hout]
  · obtain ⟨i, rfl⟩ := Int.eq_ofNat_of_zero_le (Int.not_lt.mp fun h => hout (.inl h))
    have hi : i < t.freedom.getSize := Nat.lt_of_not_le fun h => hout (.inr h)
    have hget : (ints 0 t.freedom.getSize)[i]? = some (i : Int) := by
      rw [getElem?_ints, if_pos hi, Int.zero_add]
    rw [if_neg hout, Int.toNat_natCast, translateGo_eq, List.getD_eq_getElem?_getD,
      List.getElem?_map]
    simp only [Int.natCast_zero, hget, Option.map_some, Option.getD_some]
    by_cases hused : t.freedom.isUsed i = true
    · rw [if_pos (hmem.mpr hused), if_pos hused, hrows, Int.zero_add]
    · rw [if_neg fun h => hused (hmem.mp h), if_neg hused]

/-! ## What is written -/

namespace Json

/-- A computation that returns and has written a text. -/
def Writes (m : EStateM Exn Json Unit) (text : Bytes) : Prop :=
  ∀ o, ∃ result, m o = .ok () ⟨o.out ++ text, result⟩

section Rules

variable {m n : EStateM Exn Json Unit} {a b : Bytes}

theorem writes_pure : Writes (pure ()) [] := fun o => ⟨o.result, by rw [List.append_nil]; rfl⟩

theorem writes_put (s : Bytes) : Writes (put s) s := fun o => ⟨o.result, rfl⟩

theorem writes_report (error : UInt8) : Writes (report error) [] :=
  fun o => ⟨o.result ||| error, by rw [List.append_nil]; rfl⟩

theorem writes_bind (hm : Writes m a) (hn : Writes n b) : Writes (m >>= fun _ => n) (a ++ b) := by
  intro o
  obtain ⟨result, hrun⟩ := hm o
  obtain ⟨result', hrun'⟩ := hn ⟨o.out ++ a, result⟩
  exact ⟨result', by rw [bind_ok hrun, hrun', List.append_assoc]⟩

theorem writes_read_bind {α : Type} {e : Except Exn α} {x : α} (he : e = .ok x)
    {f : α → EStateM Exn Json Unit} (hf : Writes (f x) a) : Writes (Dump.read e >>= f) a := by
  rw [he]
  exact hf

theorem writes_forM {α : Type} {f : α → EStateM Exn Json Unit} {text : α → Bytes} {xs : List α}
    (h : ∀ x ∈ xs, Writes (f x) (text x)) : Writes (xs.forM f) (xs.flatMap text) := by
  induction xs with
  | nil => exact writes_pure
  | cons x xs ih =>
      obtain ⟨hx, hxs⟩ := List.forall_mem_cons.mp h
      exact writes_bind hx (ih hxs)

end Rules

/-- A list with separators, of which the first is not written if the flag is set. -/
def separated (sep : Bytes) (first : Bool) (xs : List Bytes) : Bytes :=
  if first then sep.intercalate xs else xs.flatMap (sep ++ ·)

theorem intercalate_cons (sep x : Bytes) (xs : List Bytes) :
    sep.intercalate (x :: xs) = x ++ xs.flatMap (sep ++ ·) := by
  induction xs generalizing x with
  | nil => rw [List.intercalate_singleton, List.flatMap_nil, List.append_nil]
  | cons y xs ih => rw [List.intercalate_cons_cons, ih, List.flatMap_cons, List.append_assoc,
      List.append_assoc]

theorem separated_cons (sep : Bytes) (first : Bool) (x : Bytes) (xs : List Bytes) :
    separated sep first (x :: xs)
      = (if first = false then sep else []) ++ (x ++ separated sep false xs) := by
  cases first with
  | true => exact intercalate_cons sep x xs
  | false => exact List.append_assoc sep x _

theorem writes_separator (sep : Bytes) (first : Bool) :
    Writes (when (first = false) (put sep)) (if first = false then sep else []) := by
  cases first with
  | true => exact writes_pure
  | false => exact writes_put sep

/-! ### Values -/

/-- What the first loop is to find out. -/
structure Translates (db : Database) (tr : Translation) : Prop where
  reference : ∀ id, find tr.referenceTranslation id
    = (find db.tables id).map fun t => (translateGo t.freedom t.freedom.getSize 0 0).1
  size : ∀ id t, find db.tables id = some t →
    find tr.tableSize id = some ((db.rows id).length : Int)

theorem translate_ok {db : Database} {tables : List (TableId × Bytes)}
    (hfound : ∀ table ∈ tables, (find db.tables table.1).isSome) (tr : Translation) :
    ∃ tr', translate db tables tr = .ok tr' ∧ ∀ id,
      (find tr'.referenceTranslation id = if id ∈ keys tables
        then (find db.tables id).map fun t => (translateGo t.freedom t.freedom.getSize 0 0).1
        else find tr.referenceTranslation id) ∧
      (find tr'.tableSize id = if id ∈ keys tables
        then (find db.tables id).map fun t => (translateGo t.freedom t.freedom.getSize 0 0).2
        else find tr.tableSize id) := by
  induction tables generalizing tr with
  | nil => exact ⟨tr, rfl, fun id => ⟨rfl, rfl⟩⟩
  | cons table tables ih =>
      obtain ⟨tid, name⟩ := table
      obtain ⟨hhead, htail⟩ := List.forall_mem_cons.mp hfound
      obtain ⟨t, hfind⟩ := Option.isSome_iff_exists.mp hhead
      obtain ⟨tr', hrun, htr'⟩ := ih htail ⟨insertOrAssign tr.referenceTranslation tid
        (translateGo t.freedom t.freedom.getSize 0 0).1, insertOrAssign tr.tableSize tid
        (translateGo t.freedom t.freedom.getSize 0 0).2⟩
      refine ⟨tr', by rw [translate, Database.getFreedom_eq hfind]; exact hrun, fun id => ?_⟩
      have hfind : find db.tables tid = some t := hfind
      have hmem : id ∈ keys ((tid, name) :: tables) ↔ id = tid ∨ id ∈ keys tables := List.mem_cons
      rw [(htr' id).1, (htr' id).2, find_insertOrAssign, find_insertOrAssign]
      by_cases hrest : id ∈ keys tables
      · rw [if_pos hrest, if_pos hrest, if_pos (hmem.mpr (.inr hrest)),
          if_pos (hmem.mpr (.inr hrest))]
        exact ⟨rfl, rfl⟩
      · rw [if_neg hrest, if_neg hrest]
        by_cases hid : id = tid
        · rw [if_pos hid, if_pos hid, if_pos (hmem.mpr (.inl hid)), if_pos (hmem.mpr (.inl hid)),
            hid, hfind]
          exact ⟨rfl, rfl⟩
        · have hnot : id ∉ keys ((tid, name) :: tables) := fun h => (hmem.mp h).elim hid hrest
          rw [if_neg hid, if_neg hid, if_neg hnot, if_neg hnot]
          exact ⟨rfl, rfl⟩

theorem translates {db : Database} (h : db.Labelled) :
    ∃ tr, translate db db.getTables ⟨[], []⟩ = .ok tr ∧ Translates db tr := by
  have hkeys : ∀ id, id ∈ keys db.tableNames ↔ (find db.tables id).isSome := fun id => by
    rw [find_isSome_iff, h.keys_eq]
  have hfound : ∀ table ∈ db.tableNames, (find db.tables table.1).isSome := fun table htable =>
    (hkeys table.1).mp (List.mem_map_of_mem htable)
  obtain ⟨tr, hrun, htr⟩ := translate_ok hfound ⟨[], []⟩
  refine ⟨tr, hrun, fun id => ?_, fun id t hfind => ?_⟩
  · rw [(htr id).1]
    split
    · rfl
    · next hnot =>
        rw [hkeys, Option.not_isSome_iff_eq_none] at hnot
        rw [hnot]
        rfl
  · rw [(htr id).2, if_pos ((hkeys id).mpr (Option.isSome_of_eq_some hfind)), hfind,
      Option.map_some, translateGo_eq, Database.rows, hfind]
    simp

variable {F : FloatText} {base64 : Bool} {db : Database} {tr : Translation}

theorem Translates.text (h : Translates db tr) (type : FieldType) (r : RecordId) :
    tr.reference type r = db.valueText F base64 type ⟨.reference, r⟩ := by
  rw [Translation.reference, h.reference]
  show _ = if (find db.tables type.tableId).isSome then decimal (db.position type.tableId r)
    else decimal r
  cases hfind : find db.tables type.tableId with
  | none => rfl
  | some t =>
      rw [Option.isSome_some, if_pos rfl, Database.position_eq hfind, Option.map_some]
      simp only [(show (translateGo t.freedom t.freedom.getSize 0 0).1.length
        = t.freedom.getSize by rw [translateGo_eq, List.length_map, length_ints])]
      split
      · rfl
      · rfl

/-- The text that is written for a place: none where the field has no value. -/
def cellText (F : FloatText) (base64 : Bool) (db : Database) (tableId : TableId)
    (fieldId : FieldId) (r : Int) : Bytes :=
  match find db.tables tableId with
  | none => []
  | some t =>
      match find t.fields fieldId with
      | none => []
      | some f =>
          match f.value r.toNat with
          | none => []
          | some v => db.valueText F base64 f.type v

theorem writeValue_writes (h : Translates db tr) {tableId : TableId} {t : Table}
    (hfind : find db.tables tableId = some t) {fieldId : FieldId} {f : Field}
    (hf : find t.fields fieldId = some f) (r : Nat) :
    Writes (writeValue F base64 db tr tableId r fieldId f.type)
      (cellText F base64 db tableId fieldId r) := by
  rw [cellText, hfind]
  simp only [hf, Int.toNat_natCast]
  rw [writeValue, Field.value, ← f.holds]
  cases hcolumn : f.column with
  | monostate => exact writes_pure
  | vector ty vs =>
      have hstorage := Database.getStorage_eq hfind hf hcolumn r
      have hplain : Writes (put (writeJsonValue F base64 ty (vs.getD r ty.kind.default)).1
          >>= fun _ => report (writeJsonValue F base64 ty (vs.getD r ty.kind.default)).2)
          (writeJsonValue F base64 ty (vs.getD r ty.kind.default)).1 := by
        have hboth := writes_bind (writes_put (writeJsonValue F base64 ty
          (vs.getD r ty.kind.default)).1) (writes_report (writeJsonValue F base64 ty
          (vs.getD r ty.kind.default)).2)
        rwa [List.append_nil] at hboth
      simp only [Column.holds]
      cases ty with
      | reference =>
          refine writes_read_bind hstorage ?_
          have htext : _ = db.valueText F base64 f.type ⟨.reference, _⟩ :=
            h.text f.type ((vs.drop r).headD Ty.reference.kind.default)
          rw [htext]
          exact headD_drop vs r _ ▸ writes_put _
      | _ =>
          refine writes_read_bind hstorage ?_
          rw [headD_drop]
          exact hplain

theorem writeValues_writes (h : Translates db tr) {tableId : TableId} {t : Table}
    (hfind : find db.tables tableId = some t) {fieldId : FieldId} {f : Field}
    (hf : find t.fields fieldId = some f) (left recordId : Nat) (first : Bool) :
    Writes (writeValues F base64 db tr tableId fieldId f.type left recordId first)
      (separated (ascii ", ") first (((ints recordId left).filter t.freedom.isUsed).map
        (cellText F base64 db tableId fieldId))) := by
  induction left generalizing recordId first with
  | zero =>
      cases first with
      | true => exact writes_pure
      | false => exact writes_pure
  | succ left ih =>
      have hcast : ((recordId + 1 : Nat) : Int) = (recordId : Int) + 1 := by omega
      rw [writeValues, ints]
      refine writes_read_bind (Database.getFreedom_eq hfind) ?_
      by_cases hused : t.freedom.isUsed recordId = true
      · rw [if_pos hused, List.filter_cons_of_pos hused, List.map_cons, separated_cons, ← hcast]
        exact writes_bind (writes_separator _ _)
          (writes_bind (writeValue_writes h hfind hf recordId) (ih (recordId + 1) false))
      · rw [if_neg hused, List.filter_cons_of_neg hused, ← hcast]
        exact ih (recordId + 1) first

/-! ### Tables -/

theorem writeField_writes (h : Translates db tr) {tableId : TableId} {t : Table}
    (hfind : find db.tables tableId = some t) {field : FieldId × Bytes} {f : Field}
    (hf : find t.fields field.1 = some f) :
    Writes (writeField F base64 db tr tableId t.freedom.getSize field)
      (ascii ",\n" ++ JsonTable.columnText
        (field.2, (db.rows tableId).map (cellText F base64 db tableId field.1))) := by
  have hvalues : Writes (writeValues F base64 db tr _ _ _ _ _ _) _ :=
    writeValues_writes h hfind hf t.freedom.getSize 0 true
  have hrows : db.rows tableId = (ints (0 : Nat) t.freedom.getSize).filter t.freedom.isUsed := by
    rw [Database.rows, hfind]
    rfl
  rw [writeField, Database.getFieldType_eq hfind hf, JsonTable.columnText, hrows]
  refine writes_bind (writes_put _) ?_
  simp only [List.append_assoc]
  exact writes_bind (writes_put _) <| writes_bind (writes_put _) <| writes_bind (writes_put _) <|
    writes_bind hvalues (writes_put _)

theorem writeTable_writes (h : Translates db tr) {table : TableId × Bytes} {t : Table}
    (hfind : find db.tables table.1 = some t) (ht : t.Labelled) :
    Writes (writeTable F base64 db tr table)
      (JsonTable.text ⟨table.2, (db.rows table.1).length, (db.fieldNames table.1).map fun field =>
        (field.2, (db.rows table.1).map (cellText F base64 db table.1 field.1))⟩) := by
  have hnames : db.fieldNames table.1 = t.fieldNames := by rw [Database.fieldNames, hfind]
  have hfields : Writes (t.fieldNames.forM (writeField F base64 db tr table.1 t.freedom.getSize))
      (t.fieldNames.flatMap fun field => ascii ",\n" ++ JsonTable.columnText
        (field.2, (db.rows table.1).map (cellText F base64 db table.1 field.1))) := by
    refine writes_forM fun field hfield => ?_
    have hkey : field.1 ∈ keys t.fields := ht.keys_eq ▸ List.mem_map_of_mem hfield
    obtain ⟨f, hf⟩ := Option.isSome_iff_exists.mp (find_isSome_iff.mpr hkey)
    exact writeField_writes h hfind hf
  rw [writeTable, JsonTable.text, hnames, List.flatMap_map, h.size _ t hfind, Option.getD_some]
  refine writes_read_bind (Database.getFreedom_eq hfind) ?_
  simp only [List.append_assoc]
  refine writes_bind (writes_put _) <| writes_bind (writes_put _) <| writes_bind (writes_put _) <|
    writes_bind (writes_put _) <| writes_bind (writes_put _) ?_
  refine writes_read_bind (Database.getFields_eq hfind) ?_
  exact writes_bind hfields (writes_put _)

theorem writeTables_writes (h : Translates db tr) (hdb : db.Labelled)
    {tables : List (TableId × Bytes)} (hsub : ∀ table ∈ tables, table ∈ db.tableNames)
    (first : Bool) :
    Writes (writeTables F base64 db tr tables first)
      (separated (ascii ",\n") first (tables.map fun table => JsonTable.text
        ⟨table.2, (db.rows table.1).length, (db.fieldNames table.1).map fun field =>
          (field.2, (db.rows table.1).map (cellText F base64 db table.1 field.1))⟩)) := by
  induction tables generalizing first with
  | nil =>
      cases first with
      | true => exact writes_pure
      | false => exact writes_pure
  | cons table tables ih =>
      obtain ⟨htable, hrest⟩ := List.forall_mem_cons.mp hsub
      have hkey : table.1 ∈ keys db.tables := hdb.keys_eq ▸ List.mem_map_of_mem htable
      obtain ⟨t, hfind⟩ := Option.isSome_iff_exists.mp (find_isSome_iff.mpr hkey)
      rw [writeTables, List.map_cons, separated_cons]
      exact writes_bind (writes_separator _ _) (writes_bind
        (writeTable_writes h hfind (hdb.tables _ (mem_of_find hfind))) (ih hrest false))

/-- The whole text. -/
theorem writeJson_writes (F : FloatText) (base64 : Bool) (hdb : db.Labelled) :
    Writes (writeJson F base64 db)
      (JsonTable.documentText (db.document (cellText F base64 db))) := by
  obtain ⟨tr, hrun, htr⟩ := translates hdb
  rw [writeJson, JsonTable.documentText, Database.document, List.map_map]
  refine writes_read_bind hrun ?_
  rw [List.append_assoc]
  exact writes_bind (writes_put _)
    (writes_bind (writeTables_writes htr hdb (fun _ h => h) true) (writes_put _))

end Json

/-! ## The length of a document -/

theorem length_intercalate (sep : Bytes) (xs : List Bytes) :
    (sep.intercalate xs).length = (xs.map List.length).sum + (xs.length - 1) * sep.length := by
  cases xs with
  | nil => simp
  | cons x xs =>
      rw [Json.intercalate_cons, List.length_append, List.length_flatMap, List.map_cons,
        List.sum_cons, List.length_cons, Nat.add_sub_cancel]
      have hseps : (xs.map fun _ => sep.length).sum = xs.length * sep.length := by
        rw [List.map_const', List.sum_replicate_nat]
      simp only [List.length_append]
      rw [List.sum_map_add, hseps]
      omega

namespace JsonTable

theorem length_columnText (name : Bytes) (rows : List Int) (cell : Int → Bytes) :
    (columnText (name, rows.map cell)).length
      = (columnText (name, rows.map fun _ => [])).length
        + (rows.map fun r => (cell r).length).sum := by
  have hempty : (rows.map fun _ => ([] : Bytes).length).sum = 0 := by simp
  simp only [columnText, List.length_append, length_intercalate, List.map_map, List.length_map,
    Function.comp_def]
  omega

theorem length_text (name : Bytes) (size : Nat) (fields : List (FieldId × Bytes)) (rows : List Int)
    (cell : FieldId → Int → Bytes) :
    (text ⟨name, size, fields.map fun field => (field.2, rows.map (cell field.1))⟩).length
      = (text ⟨name, size, fields.map fun field => (field.2, rows.map fun _ => [])⟩).length
        + (fields.map fun field => (rows.map fun r => (cell field.1 r).length).sum).sum := by
  simp only [text, List.length_append, List.flatMap_map, List.length_flatMap]
  rw [show (fields.map fun field => (ascii ",\n").length
      + (columnText (field.2, rows.map (cell field.1))).length)
    = fields.map fun field => ((ascii ",\n").length
      + (columnText (field.2, rows.map fun _ => [])).length)
      + (rows.map fun r => (cell field.1 r).length).sum from
    List.map_congr_left fun field _ => by rw [length_columnText, Nat.add_assoc], List.sum_map_add]
  omega

end JsonTable

namespace Database

/-- The bytes in the cells. -/
def cellsLength (db : Database) (cell : TableId → FieldId → Int → Bytes) : Nat :=
  (db.tableNames.map fun table => ((db.fieldNames table.1).map fun field =>
    ((db.rows table.1).map fun r => (cell table.1 field.1 r).length).sum).sum).sum

theorem length_documentText (db : Database) (cell : TableId → FieldId → Int → Bytes) :
    (JsonTable.documentText (db.document cell)).length
      = (JsonTable.documentText (db.document fun _ _ _ => [])).length + db.cellsLength cell := by
  simp only [JsonTable.documentText, document, List.length_append, length_intercalate,
    List.map_map, List.length_map, cellsLength, Function.comp_def]
  rw [List.map_congr_left fun table _ => JsonTable.length_text table.2 (db.rows table.1).length
    (db.fieldNames table.1) (db.rows table.1) (cell table.1), List.sum_map_add]
  omega

/-! ## Columns without values -/

/-- The fields of a table with rows have types with values. -/
def Valued (db : Database) : Prop :=
  ∀ tableId t fieldId f, find db.tables tableId = some t → find t.fields fieldId = some f →
    db.rows tableId ≠ [] → (Ty.ofTypeId f.type.typeId).isSome

theorem decimal_ne_nil (n : Int) : decimal n ≠ [] := by
  rw [decimal, ascii, ne_eq, List.map_eq_nil_iff, Int.toString_eq_repr]
  cases n with
  | ofNat n => simp [Int.repr, Nat.repr]
  | negSucc n => simp [Int.repr]

theorem valueText_ne_nil (F : FloatText) (base64 : Bool) (db : Database) (type : FieldType)
    (v : Sigma Ty.Storage) : db.valueText F base64 type v ≠ [] := by
  have hquote : ∀ s t : Bytes, ascii "\"" ++ s ++ t ≠ [] := fun s t h => by cases h
  obtain ⟨ty, v⟩ := v
  cases ty with
  | string =>
      show (writeJsonString base64 v).1 ≠ []
      unfold writeJsonString
      split
      · exact hquote _ _
      · simp only
        split
        · exact List.cons_ne_nil _ _
        · exact hquote _ _
  | reference =>
      rw [valueText]
      split
      · exact decimal_ne_nil _
      · exact decimal_ne_nil _
  | boolean =>
      show (if Ty.toBool v = 0 then ascii "false" else ascii "true") ≠ []
      split
      · decide
      · decide
  | float32 =>
      show (writeJsonValue F base64 .float32 v).1 ≠ []
      rw [writeJsonValue]
      split
      · decide
      · exact F.float32_ne_nil v
  | float64 =>
      show (writeJsonValue F base64 .float64 v).1 ≠ []
      rw [writeJsonValue]
      split
      · decide
      · exact F.float64_ne_nil v
  | blob => exact List.cons_ne_nil _ _
  | int32 => exact decimal_ne_nil _
  | int64 => exact decimal_ne_nil _
  | int8 => exact decimal_ne_nil _
  | int16 => exact decimal_ne_nil _

variable {F : FloatText} {base64 : Bool} {db : Database}

theorem cellText_eq {tableId : TableId} {t : Table} (hfind : find db.tables tableId = some t)
    {fieldId : FieldId} {f : Field} (hf : find t.fields fieldId = some f) (r : Int) :
    Json.cellText F base64 db tableId fieldId r
      = ((f.value r.toNat).map (db.valueText F base64 f.type)).getD [] := by
  rw [Json.cellText, hfind]
  simp only [hf]
  cases f.value r.toNat with
  | none => rfl
  | some v => rfl

theorem value_isSome_iff (f : Field) (i : Nat) :
    (f.value i).isSome ↔ (Ty.ofTypeId f.type.typeId).isSome := by
  rw [← f.holds, Field.value]
  cases f.column with
  | monostate => exact Iff.rfl
  | vector ty vs => exact iff_of_true rfl rfl

/-- With values everywhere, the text that is written is of the database. -/
theorem Valued.shows (h : db.Valued) :
    db.Shows F base64 (JsonTable.documentText (db.document (Json.cellText F base64 db))) := by
  refine ⟨_, fun tableId t fieldId f hfind hf r hr => ?_, rfl⟩
  have hsome := (value_isSome_iff f r.toNat).mpr
    (h tableId t fieldId f hfind hf (List.ne_nil_of_mem hr))
  obtain ⟨v, hv⟩ := Option.isSome_iff_exists.mp hsome
  rw [cellText_eq hfind hf, hv]
  refine ⟨valueText_ne_nil F base64 db f.type v, fun v' hv' => ?_⟩
  obtain rfl := Option.some.inj hv'
  rfl

/-- Where there is no value, there are fewer bytes than a value for every row would have. -/
theorem valued_of_shows (hdb : db.Labelled) (h : db.Shows F base64
      (JsonTable.documentText (db.document (Json.cellText F base64 db)))) : db.Valued := by
  obtain ⟨cell, hcell, htext⟩ := h
  intro tableId t fieldId f hfind hf hrows
  by_contra hnone
  have hlength := congrArg List.length htext
  rw [length_documentText db (Json.cellText F base64 db), length_documentText db cell] at hlength
  refine absurd (Nat.add_left_cancel hlength) (Nat.ne_of_lt ?_)
  -- No cell is longer than the text that should be there.
  have hle : ∀ tableId fieldId, ∀ r ∈ db.rows tableId,
      (Json.cellText F base64 db tableId fieldId r).length ≤ (cell tableId fieldId r).length := by
    intro tableId fieldId r hr
    cases hfind : find db.tables tableId with
    | none =>
        rw [Json.cellText, hfind]
        exact Nat.zero_le _
    | some t =>
        cases hf : find t.fields fieldId with
        | none =>
            rw [Json.cellText, hfind]
            simp only [hf]
            exact Nat.zero_le _
        | some f =>
            rw [cellText_eq hfind hf]
            cases hv : f.value r.toNat with
            | none => exact Nat.zero_le _
            | some v =>
                rw [(hcell tableId t fieldId f hfind hf r hr).2 v hv]
                exact Nat.le_refl _
  have hlt : ∀ r ∈ db.rows tableId,
      (Json.cellText F base64 db tableId fieldId r).length < (cell tableId fieldId r).length := by
    intro r hr
    have hvalue : f.value r.toNat = none := by
      rw [← Option.not_isSome_iff_eq_none, value_isSome_iff]
      exact hnone
    rw [cellText_eq hfind hf, hvalue]
    exact List.length_pos_iff.mpr (hcell tableId t fieldId f hfind hf r hr).1
  obtain ⟨r, hr⟩ := List.exists_mem_of_ne_nil _ hrows
  have hkey : tableId ∈ keys db.tableNames :=
    hdb.keys_eq ▸ find_isSome_iff.mp (Option.isSome_of_eq_some hfind)
  have hfieldKey : fieldId ∈ keys t.fieldNames :=
    (hdb.tables _ (mem_of_find hfind)).keys_eq ▸ find_isSome_iff.mp (Option.isSome_of_eq_some hf)
  obtain ⟨table, htable, rfl⟩ := List.mem_map.mp hkey
  obtain ⟨field, hfield, rfl⟩ := List.mem_map.mp hfieldKey
  have hnames : field ∈ db.fieldNames table.1 := by
    rw [fieldNames, hfind]
    exact hfield
  have hcolumn : ∀ tableId fieldId,
      ((db.rows tableId).map fun r => (Json.cellText F base64 db tableId fieldId r).length).sum
        ≤ ((db.rows tableId).map fun r => (cell tableId fieldId r).length).sum :=
    fun tableId fieldId => List.sum_le_sum (hle tableId fieldId)
  refine List.sum_lt_sum _ _ (fun table _ => List.sum_le_sum fun field _ => hcolumn _ _)
    ⟨table, htable, List.sum_lt_sum _ _ (fun field _ => hcolumn _ _) ⟨field, hnames, ?_⟩⟩
  exact List.sum_lt_sum _ _ (hle table.1 field.1) ⟨r, hr, hlt r hr⟩

/-- After any operations, thrown ones included, as long as there is memory: the columns are as long
as their tables, the rows are the used records in the order of their ids, and the text shows them,
with every reference at its position, exactly if no table with rows has a field of a type without
values. -/
theorem writeJson_shows_iff (F : FloatText) (base64 : Bool) (maxRecordId : RecordId)
    (ops : List Op) (hmemory : (create maxRecordId).Allocates ops) :
    ∃ o, Json.writeJson F base64 ((create maxRecordId).callEach ops) ⟨[], JsonError.ok⟩ = .ok () o ∧
      (((create maxRecordId).callEach ops).Shows F base64 o.out ↔
        ((create maxRecordId).callEach ops).Valued) ∧
      ((create maxRecordId).callEach ops).SizesAgree ∧
      ∀ tableId t, find ((create maxRecordId).callEach ops).tables tableId = some t →
        (((create maxRecordId).callEach ops).rows tableId).Pairwise (· < ·) ∧
        ∀ r, r ∈ ((create maxRecordId).callEach ops).rows tableId ↔ t.freedom.isUsed r = true := by
  have hdb := (labelled_create maxRecordId).callEach ops
  have hsizes := ((sound_create maxRecordId).callEach hmemory).sizesAgree
  obtain ⟨result, hrun⟩ := Json.writeJson_writes F base64 hdb ⟨[], JsonError.ok⟩
  refine ⟨_, hrun, ⟨valued_of_shows hdb, Valued.shows⟩, hsizes, fun tableId t hfind => ⟨?_, ?_⟩⟩
  · rw [rows, hfind]
    exact (pairwise_ints _ _).filter _
  · intro r
    rw [rows, hfind, List.mem_filter, mem_ints]
    refine and_iff_right_of_imp fun hused => ?_
    have := FreedomKeeper.lt_of_isUsed hused
    omega

/-- A stream that writes 0 for every float. -/
def zeroText : FloatText where
  float32 _ := ascii "0"
  float64 _ := ascii "0"
  float32_ne_nil _ := by decide
  float64_ne_nil _ := by decide

/-- A table with a hole, and a reference to the record behind it. -/
theorem writeJson_shows_iff_hole :
    let ops : List Op := [.createTable (ascii "t"), .addField 1 (ascii "f") (.reference 1),
      .insertVector 1 0 3, .deleteFrom 1 1,
      .update .reference 1 0 1 (Ty.toArg .reference (2 : Int))]
    ∃ o, Json.writeJson zeroText false ((create (-1)).callEach ops) ⟨[], JsonError.ok⟩ = .ok () o ∧
      (((create (-1)).callEach ops).Shows zeroText false o.out ↔
        ((create (-1)).callEach ops).Valued) ∧
      ((create (-1)).callEach ops).SizesAgree ∧
      ∀ tableId t, find ((create (-1)).callEach ops).tables tableId = some t →
        (((create (-1)).callEach ops).rows tableId).Pairwise (· < ·) ∧
        ∀ r, r ∈ ((create (-1)).callEach ops).rows tableId ↔ t.freedom.isUsed r = true :=
  writeJson_shows_iff zeroText false (-1) _ ⟨by decide +kernel, by decide +kernel,
    by decide +kernel, by decide +kernel, by decide +kernel, trivial⟩

/-- A field of type null in a table with one row: its column has none. -/
theorem writeJson_null :
    let db := (create (-1)).callEach
      [.createTable (ascii "t"), .addField 1 (ascii "f") (.plain 0), .insertInto 1 0]
    Json.writeJson zeroText false db ⟨[], JsonError.ok⟩ = .ok () ⟨ascii
        "\x7b\n \"t\":\n \x7b\n  \"__size\": 1,\n  \"f\": []\n \x7d\n\x7d\n", JsonError.ok⟩ ∧
      ¬ db.Shows zeroText false
        (ascii "\x7b\n \"t\":\n \x7b\n  \"__size\": 1,\n  \"f\": []\n \x7d\n\x7d\n") := by
  intro db
  have hdb : db.Labelled := (labelled_create (-1)).callEach _
  have hrun : Json.writeJson zeroText false db ⟨[], JsonError.ok⟩ = .ok () ⟨ascii
      "\x7b\n \"t\":\n \x7b\n  \"__size\": 1,\n  \"f\": []\n \x7d\n\x7d\n", JsonError.ok⟩ := rfl
  refine ⟨hrun, fun hshows => ?_⟩
  obtain ⟨result, hwrites⟩ := Json.writeJson_writes zeroText false hdb ⟨[], JsonError.ok⟩
  have htext : ascii "\x7b\n \"t\":\n \x7b\n  \"__size\": 1,\n  \"f\": []\n \x7d\n\x7d\n"
      = JsonTable.documentText (db.document (Json.cellText zeroText false db)) :=
    congrArg Json.out (EStateM.Result.ok.inj (hrun.symm.trans hwrites)).2
  have hvalued := valued_of_shows hdb (htext ▸ hshows)
  exact absurd (hvalued 1 _ 1 _ rfl rfl (List.ne_nil_of_mem (a := 0) (by decide))) (by decide)

end Database

end Joedb
