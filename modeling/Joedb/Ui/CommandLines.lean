import Joedb.Packing.Twins
import Joedb.Ui.Commands
import Joedb.Ui.SqlDumpRuns

/-!
# One line of a dump

Every word that the dump writes is read back as what it was written for, whatever stands behind
it: names, because those of what exists are identifiers and no two are the same, numbers, because
they are in the range of their types, and strings, because their quotes tell where they end.
-/

namespace Joedb

open ByteFile Containers StateExcept Streams

/-! ## Numbers and names -/

theorem toNat_of_isDigit {c : Char} (h : c.isDigit = true) :
    (UInt8.ofNat c.toNat).toNat = c.toNat ∧ 48 ≤ c.toNat ∧ c.toNat ≤ 57 := by
  have hdigit := Char.isDigit_iff_toNat.mp h
  have hlow : 48 ≤ c.toNat := hdigit.1
  have hhigh : c.toNat ≤ 57 := hdigit.2
  rw [UInt8.toNat_ofNat']
  omega

/-- `strtoull` gives the number that the digits were written for. -/
theorem digitsValue_ascii {l : List Char} (h : ∀ c ∈ l, c.isDigit = true) :
    Input.digitsValue (l.map fun c => UInt8.ofNat c.toNat) = Nat.ofDigitChars 10 l 0 := by
  have hgo : ∀ (l : List Char), (∀ c ∈ l, c.isDigit = true) → ∀ n,
      (l.map fun c => UInt8.ofNat c.toNat).foldl (fun n d => 10 * n + (d.toNat - 48)) n
        = Nat.ofDigitChars 10 l n := by
    intro l
    induction l with
    | nil => exact fun _ n => (Nat.ofDigitChars_nil).symm
    | cons c l ih =>
        intro h n
        rw [List.map_cons, List.foldl_cons, Nat.ofDigitChars_cons,
          (toNat_of_isDigit (h c List.mem_cons_self)).1]
        exact ih (fun d hd => h d (List.mem_cons_of_mem _ hd)) _
  exact hgo l h 0

theorem isNumeral_repr (m : Nat) : Input.IsNumeral (ascii m.repr) m := by
  have hdigits : ∀ c ∈ Nat.toDigits 10 m, c.isDigit = true := fun c hc =>
    Nat.isDigit_of_mem_toDigits (by decide) (by decide) hc
  have hbytes : ascii m.repr = (Nat.toDigits 10 m).map fun c => UInt8.ofNat c.toNat := by
    rw [ascii, Nat.toList_repr]
  rw [hbytes]
  refine ⟨fun h => Nat.toDigits_ne_nil (List.map_eq_nil_iff.mp h), fun c hc => ?_, ?_⟩
  · obtain ⟨ch, hch, rfl⟩ := List.mem_map.mp hc
    obtain ⟨heq, hlow, hhigh⟩ := toNat_of_isDigit (hdigits ch hch)
    simp only [isDigit, UInt8.le_iff_toNat_le, heq, decide_eq_true_eq]
    exact ⟨hlow, hhigh⟩
  · rw [digitsValue_ascii hdigits, Nat.ofDigitChars_ten_toDigits]

theorem writes_decimal (n : Int) : Input.Writes (decimal n) n := by
  cases n with
  | ofNat m => exact .positive (isNumeral_repr m) (Int.natCast_nonneg m)
  | negSucc m =>
      refine .negative (ascii (m + 1).repr) (isNumeral_repr (m + 1)) (Int.negSucc_lt_zero m) ?_
      rw [decimal, Int.toString_eq_repr, Int.repr, ascii]
      simp [ascii]

theorem isWord_of_isIdentifier {name : Bytes} (h : isIdentifier name = true) : IsWord name := by
  refine ⟨?_, fun c hc => ?_⟩
  · rintro rfl
    cases h
  · cases hspace : isSpace c with
    | false => rfl
    | true =>
        have hall : ∀ n : Fin 256, isSpace (.ofFin n) = true → UInt8.ofFin n ≠ underscore ∧
            (!isLetter (.ofFin n)) = true ∧ (!isNumber (.ofFin n)) = true := by decide +kernel
        exact absurd hc (not_mem_of_isIdentifier h (hall c.toFin hspace))

namespace Directory

variable {names : List (UInt16 × Bytes)} {last k : UInt16} {name : Bytes}

/-- No other name is found in its place. -/
theorem find?_name (h : Directory names last) (hfind : find names k = some name) :
    names.find? (·.2 = name) = some (k, name) := by
  have hmem := mem_of_find hfind
  cases hfound : names.find? (·.2 = name) with
  | none => exact absurd (List.find?_eq_none.mp hfound _ hmem) (by simp)
  | some e =>
      have heq : e.2 = name := by simpa using List.find?_some hfound
      rw [List.inj_on_of_nodup_map h.distinct (List.mem_of_find?_eq_some hfound) hmem heq]

theorem isWord (h : Directory names last) (hfind : find names k = some name) : IsWord name :=
  isWord_of_isIdentifier (h.identifiers _ (mem_of_find hfind))

theorem ne_zero (h : Directory names last) (hfind : find names k = some name) : k ≠ 0 := by
  rintro rfl
  exact absurd (h.given 0 (List.mem_map_of_mem (mem_of_find hfind))).1 (by decide)

end Directory

/-- The text is the name of what has the id: it is a word, and it is found again. -/
structure Names (name : Bytes) (lookup : Bytes → UInt16) (id : UInt16) : Prop where
  isWord : IsWord name
  lookup_eq : lookup name = id
  ne_zero : id ≠ 0

namespace Database

variable {db : Database}

theorem Labelled.names_of_name (h : db.Labelled) {tableId : TableId} {name : Bytes}
    (hname : find db.tableNames tableId = some name) :
    Names (db.getTableName tableId) db.findTable tableId := by
  have hget : db.getTableName tableId = name := by rw [getTableName, hname, Option.getD_some]
  rw [hget]
  refine ⟨h.directory.isWord hname, ?_, h.directory.ne_zero hname⟩
  rw [findTable, h.directory.find?_name hname]

theorem Labelled.names_table (h : db.Labelled) {tableId : TableId} {t : Table}
    (hfind : find db.tables tableId = some t) :
    Names (db.getTableName tableId) db.findTable tableId := by
  have hkey : (find db.tableNames tableId).isSome = true := by
    rw [find_isSome_iff, ← h.keys_eq, ← find_isSome_iff, hfind]
    rfl
  obtain ⟨name, hname⟩ := Option.isSome_iff_exists.mp hkey
  exact h.names_of_name hname

theorem Labelled.names_field (h : db.Labelled) {tableId : TableId} {t : Table} {fieldId : FieldId}
    {f : Field} (hfind : find db.tables tableId = some t)
    (hfield : find t.fields fieldId = some f) :
    Names (db.getFieldName tableId fieldId) (db.findField tableId) fieldId := by
  have ht := h.tables _ (mem_of_find hfind)
  have hkey : (find t.fieldNames fieldId).isSome = true := by
    rw [find_isSome_iff, ← ht.keys_eq, ← find_isSome_iff, hfield]
    rfl
  obtain ⟨name, hname⟩ := Option.isSome_iff_exists.mp hkey
  have hget : db.getFieldName tableId fieldId = name := by
    rw [getFieldName, hfind, Option.bind_some, hname, Option.getD_some]
  rw [hget]
  refine ⟨ht.directory.isWord hname, ?_, ht.directory.ne_zero hname⟩
  rw [findField, hfind]
  simp only
  rw [Table.findField, ht.directory.find?_name hname]

end Database

/-! ## Values -/

/-- What is written is a word that reads back. -/
structure ReadsAs {α : Type} (read : Bytes → α × Input) (written : Bytes) (x : α) : Prop where
  isWord : IsWord written
  read : ∀ s, Separated s → read (32 :: (written ++ s)) = (x, ⟨s, false⟩)

/-- A float that is read from its text as it was. -/
def Ty.FloatReturns (X : Surroundings) : (ty : Ty) → ty.Storage → Prop
  | .float32, x => ReadsAs X.floats.float32 (X.floatText.float32 x) x
  | .float64, x => ReadsAs X.floats.float64 (X.floatText.float64 x) x
  | .string, _ => True
  | .int32, _ => True
  | .int64, _ => True
  | .reference, _ => True
  | .boolean, _ => True
  | .int8, _ => True
  | .int16, _ => True
  | .blob, _ => True

namespace TextReading

open InterpreterWritable

theorem readSigned_decimal (size : Nat) (x : BitVec (8 * size)) :
    ReadsBack (readSigned size) (decimal x.toInt) x := by
  have h := (writes_decimal x.toInt).readsBack x.le_toInt x.toInt_le
  refine ⟨h.solid, fun s hs => ?_⟩
  simp only [readSigned, h.read s hs, BitVec.ofInt_toInt]

theorem readInt8_decimal (x : BitVec 8) : ReadsBack readInt8 (decimal x.toInt) x := by
  have hlow : (-2 ^ 31 : Int) ≤ x.toInt := Int.le_trans (by decide) x.le_toInt
  have hhigh : x.toInt ≤ (2 ^ 31 - 1 : Int) := Int.le_trans x.toInt_le (by decide)
  have h := (writes_decimal x.toInt).readsBack hlow hhigh
  refine ⟨h.solid, fun s hs => ?_⟩
  simp only [readInt8, h.read s hs, BitVec.ofInt_toInt]

theorem readRecordId_decimal (before : RecordId) {r : RecordId} (hr : IdFits r) :
    ReadsBack (readRecordId before) (decimal r) r := by
  have hlow : (-2 ^ 63 : Int) ≤ r := Int.le_trans (by decide) hr.1
  have hhigh : r ≤ (2 ^ 63 - 1 : Int) := Int.le_trans (Int.le_of_lt hr.2) (by decide)
  have h := (writes_decimal r).readsBack hlow hhigh
  refine ⟨h.solid, fun s hs => ?_⟩
  simp only [readRecordId, h.read s hs, Bool.false_eq_true, if_false]

theorem readSize_decimal {size : Nat} (hsize : SizeFits size) :
    ReadsBack readSize (decimal size) size :=
  (writes_decimal size).readsBack_unsigned (Nat.lt_trans hsize (by decide))

theorem writeTextGo_quoted (t : Bytes) : ∀ before left, Copying left t →
    ∃ u, writeTextGo before left t = u ++ [34] := by
  induction t with
  | nil => exact fun before left _ => ⟨[], writeTextGo_nil before left⟩
  | cons c t ih =>
      intro before left hcopy
      obtain ⟨written, left', -, hcopy', heq⟩ := writeTextGo_cons before hcopy
      obtain ⟨u, hu⟩ := ih (some c) left' hcopy'
      exact ⟨written ++ u, by rw [heq, hu, List.append_assoc]⟩

theorem readText_writeString (t : Bytes) : ReadsBack readText (writeString t) t where
  solid := by
    obtain ⟨u, hu⟩ := writeTextGo_quoted t none 0 (copying_zero t)
    refine ⟨fun hmem => ?_, 34 :: u, 34, by rw [writeString, hu, List.cons_append], rfl⟩
    rcases List.mem_cons.mp hmem with heq | hmem
    · exact absurd heq (by decide)
    · exact absurd (writeTextGo_printable t none 0 (copying_zero t) 10 hmem).1 (by decide)
  read s _ := by
    have hgo := readStringGo_writeTextGo t s none 0 (copying_zero t)
    have hread : readString (32 :: (writeString t ++ s)) = ⟨t, s, false⟩ := by
      rw [readString, if_pos rfl, writeString, List.cons_append, readString]
      simpa using hgo
    simp only [readText, Bool.false_eq_true, if_false, hread]

theorem readBoolean_word {c : BitVec 8} (hc : Ty.toBool c = c) :
    ReadsBack readBoolean (if Ty.toBool c = 0 then ascii "false" else ascii "true") c := by
  have hfalse : IsWord (ascii "false") := by decide
  have htrue : IsWord (ascii "true") := by decide
  by_cases hzero : c = 0
  · subst hzero
    refine ⟨hfalse.solid_line, fun s hs => ?_⟩
    have hword : Input.readWord ⟨32 :: (ascii "false" ++ s), false⟩ = (ascii "false", ⟨s, false⟩) :=
      (Input.readsBack_word hfalse).read s hs
    show readBoolean ⟨32 :: (ascii "false" ++ s), false⟩ = _
    simp only [readBoolean, hword]
    rfl
  · have hone : Ty.toBool c = 1 := by rw [Ty.toBool, if_neg hzero]
    rw [hone] at hc
    subst hc
    refine ⟨htrue.solid_line, fun s hs => ?_⟩
    have hword : Input.readWord ⟨32 :: (ascii "true" ++ s), false⟩ = (ascii "true", ⟨s, false⟩) :=
      (Input.readsBack_word htrue).read s hs
    show readBoolean ⟨32 :: (ascii "true" ++ s), false⟩ = _
    simp only [readBoolean, hword]
    rfl

theorem isWord_writeBlobText (b : Blob) : IsWord (writeBlobText b) := by
  refine ⟨by simp [writeBlobText], fun c hc => ?_⟩
  rcases List.mem_append.mp hc with hc | hc
  · exact (writes_decimal b.position).isWord.solid c hc
  · rcases List.mem_cons.mp hc with rfl | hc
    · rfl
    · exact (writes_decimal b.size).isWord.solid c hc

theorem readBlobText_write {b : Blob} (hb : Kind.blob.Fits b) :
    ReadsBack readBlobText (writeBlobText b) b := by
  obtain ⟨hposition, hposition', hsize, hsize'⟩ := hb
  refine ⟨(isWord_writeBlobText b).solid_line, fun s hs => ?_⟩
  have hcomma : Stops isDigit (44 :: (decimal b.size ++ s)) := by
    intro c hc
    rw [← Option.some.inj hc]
    rfl
  have hfirst : Input.readInt (-2 ^ 63) (2 ^ 63 - 1)
      ⟨decimal b.position ++ 44 :: (decimal b.size ++ s), false⟩
        = (b.position, ⟨44 :: (decimal b.size ++ s), false⟩) :=
    Input.readInt_piece (writes_decimal b.position) hcomma (by omega) (by omega)
  have hsecond : Input.readInt (-2 ^ 63) (2 ^ 63 - 1) ⟨decimal b.size ++ s, false⟩
      = (b.size, ⟨s, false⟩) :=
    Input.readInt_piece (writes_decimal b.size) (hs.stops rfl) (by omega) (by omega)
  have htext : 32 :: (writeBlobText b ++ s)
      = 32 :: (decimal b.position ++ 44 :: (decimal b.size ++ s)) := by
    rw [writeBlobText, List.append_assoc, List.cons_append]
  rw [htext]
  simp only [readBlobText, Input.readInt_space, hfirst, Input.ignoreOne, Bool.false_eq_true,
    if_false, hsecond]

/-- Every value is read back from its text. -/
theorem readValue_writeValue (X : Surroundings) {ty : Ty} {v : ty.Storage}
    (hfit : ty.kind.Fits v) (harg : ty.arg v = v) (hfloat : ty.FloatReturns X v) :
    ReadsBack (readValue X.floats ty) (writeValue X.floatText ty v) v := by
  cases ty with
  | string => exact readText_writeString v
  | int32 => exact readSigned_decimal 4 v
  | int64 => exact readSigned_decimal 8 v
  | reference => exact readRecordId_decimal (-1) hfit
  | boolean => exact readBoolean_word harg
  | float32 => exact ⟨hfloat.isWord.solid_line, hfloat.read⟩
  | float64 => exact ⟨hfloat.isWord.solid_line, hfloat.read⟩
  | int8 => exact readInt8_decimal v
  | int16 => exact readSigned_decimal 2 v
  | blob => exact readBlobText_write hfit

end TextReading

/-! ## Commands -/

namespace Command

theorem mem_all (c : Command) : c ∈ all := by cases c <;> decide +kernel

theorem nodup_words : (all.map word).Nodup := by decide +kernel

theorem ofWord_word (c : Command) : ofWord c.word = some c := by
  cases hfound : ofWord c.word with
  | none => exact absurd (List.find?_eq_none.mp hfound c c.mem_all) (by simp)
  | some d =>
      have hword : d.word = c.word := by simpa using List.find?_some hfound
      rw [List.inj_on_of_nodup_map nodup_words (List.mem_of_find?_eq_some hfound) c.mem_all hword]

theorem isWord_word (c : Command) : IsWord c.word := by
  cases c <;> decide +kernel

/-- A command of the interpreter itself. -/
def isOwn : Command → Bool
  | about | echo | prompt | help | includeFile | quit | abort => true
  | _ => false

theorem not_comment (c : Command) : ¬(c.word = [] ∨ c.word.head? = some 35) := by
  cases c <;> decide +kernel

theorem ne_question (c : Command) : c.word ≠ ascii "?" := by cases c <;> decide +kernel

end Command

/-! ## Processors -/

namespace Target

variable {σ : Type} {T : Target σ} {X : Surroundings} {s s' : σ}

theorem finish_ok {m : EStateM Exn σ Unit} (h : m s = .ok () s') : finish m s = .ok .done s' :=
  bind_ok h

/-- The parents do not know the command. -/
theorem orElse_child {parent child : EStateM Exn σ Status} {status : Status}
    (hparent : parent s = .ok .notFound s) (hchild : child s = .ok status s') :
    orElse parent child s = .ok status s' := by
  rw [orElse, bind_ok hparent]
  exact hchild

theorem orElse_parent {parent child : EStateM Exn σ Status} (hparent : parent s = .ok .done s') :
    orElse parent child s = .ok .done s' := by
  rw [orElse, bind_ok hparent]
  rfl

/-- Which of the processors does what the command asks for. -/
inductive Does (T : Target σ) (X : Surroundings) (c : Command) (i : Input) (s s' : σ) : Prop
  | writable (hown : c.isOwn = false) (h : T.processWritable X c i s = .ok .done s')
  | manipulate (hown : c.isOwn = false) (hwritable : T.processWritable X c i s = .ok .notFound s)
      (hreadable : T.processReadable X c i s = .ok .notFound s)
      (h : T.manipulate X c i s = .ok .done s')
  | define (hown : c.isOwn = false) (hwritable : T.processWritable X c i s = .ok .notFound s)
      (hreadable : T.processReadable X c i s = .ok .notFound s)
      (hmanipulate : T.manipulate X c i s = .ok .notFound s) (h : T.define X c i s = .ok .done s')

theorem parseTable_named {w : Bytes} {t : TableId} (h : Names w (T.readable s).findTable t)
    (ws : List Bytes) :
    T.parseTable ⟨spaced (w :: ws), false⟩ s = .ok (t, ⟨spaced ws, false⟩) s := by
  have hword := (Input.readsBack_word h.isWord).next ws
  have hfound : ¬(T.readable s).findTable (Input.readWord ⟨spaced (w :: ws), false⟩).1 = 0 := by
    rw [hword, h.lookup_eq]
    exact h.ne_zero
  rw [parseTable, get_bind_run, when_neg hfound, hword, h.lookup_eq]
  rfl

end Target

namespace Shell

variable {σ : Type} {T : Target σ} {X : Surroundings} {s s' : σ}

/-- A line is what its command does, and nothing is said of the interpreter itself. -/
theorem processLine_does {includeText : Bytes → EStateM Exn (Shell σ) Unit} {c : Command}
    {i : Input} {line : Bytes} (hline : Input.readWord ⟨line, false⟩ = (c.word, i))
    (h : Target.Does T X c i s s') (b : Bool) :
    processLine T X includeText line ⟨s, b⟩ = .ok ⟨true, false, false⟩ ⟨s', b⟩ := by
  have howned : c.isOwn = false := by cases h <;> assumption
  have hown : ∀ st : Shell σ, processOwn X includeText c.word i st = .ok .notFound st := by
    intro st
    rw [processOwn, if_neg c.not_comment, c.ofWord_word]
    cases c <;> first | rfl | cases howned
  have hknown : ∀ (process : Command → Input → EStateM Exn σ Status) {status : Status} {t : σ},
      process c i s = .ok status t →
        knowing process c.word i ⟨s, b⟩ = .ok status ⟨t, b⟩ := by
    intro process status t hrun
    rw [knowing, c.ofWord_word]
    exact onPart_ok hrun
  have heach : processEach c.word i (processors T X includeText) false ⟨s, b⟩
      = .ok ⟨true, false, false⟩ ⟨s', b⟩ := by
    rw [processors, processEach, bind_ok (hown _)]
    simp only
    cases h with
    | writable _ h =>
        rw [processEach, bind_ok (hknown _ h)]
        rfl
    | manipulate _ hwritable hreadable h =>
        rw [processEach, bind_ok (hknown _ hwritable)]
        simp only
        rw [processEach, bind_ok (hknown _ (Target.orElse_parent
          (Target.orElse_child hreadable h)))]
        rfl
    | define _ hwritable hreadable hmanipulate h =>
        rw [processEach, bind_ok (hknown _ hwritable)]
        simp only
        rw [processEach, bind_ok (hknown _ (Target.orElse_child
          (Target.orElse_child hreadable hmanipulate) h))]
        rfl
  rw [processLine, hline]
  simp only [if_neg c.ne_question]
  rw [bind_ok heach]
  rfl

end Shell

/-! ## What an operation says -/

/-- What text can say of an operation, and what the interpreter lets it say. -/
def Op.Sayable (maxRecordId : RecordId) (db : Database) : Op → Prop
  | .custom name => ∀ c ∈ name, isSpace c = false
  | .addField _ _ type =>
      if type.typeId = referenceTypeId then (find db.tableNames type.tableId).isSome = true
      else (Ty.ofTypeId type.typeId).isSome = true
  | .updateVector ty _ _ _ vs =>
      vs ≠ [] ∧ (0 ≤ maxRecordId → (vs.length : Int) < maxRecordId) ∧ ∀ v ∈ vs, ty.arg v = v
  | _ => True

instance (maxRecordId : RecordId) (db : Database) :
    (op : Op) → Decidable (op.Sayable maxRecordId db)
  | .custom name => List.decidableBAll (fun c => isSpace c = false) name
  | .addField _ _ type =>
      inferInstanceAs (Decidable (if type.typeId = referenceTypeId then
        (find db.tableNames type.tableId).isSome = true
      else (Ty.ofTypeId type.typeId).isSome = true))
  | .updateVector ty _ _ _ vs =>
      inferInstanceAs (Decidable (vs ≠ [] ∧ (0 ≤ maxRecordId → (vs.length : Int) < maxRecordId) ∧
        ∀ v ∈ vs, ty.arg v = v))
  | .createTable _ | .dropTable _ | .renameTable .. | .dropField .. | .renameField .. | .comment _
  | .timestamp _ | .validData | .insertInto .. | .deleteFrom .. | .insertVector ..
  | .deleteVector .. | .update .. | .writeBlob _ => inferInstanceAs (Decidable True)

def Op.FloatsReturn (X : Surroundings) : Op → Prop
  | .update ty _ _ _ v => ty.FloatReturns X v.val
  | .updateVector ty _ _ _ vs => ∀ v ∈ vs, ty.FloatReturns X v
  | _ => True

namespace Target

open InterpreterWritable TextReading

variable {σ : Type} {T : Target σ} {X : Surroundings} {s s' : σ} {db' : Database}

/-- The words of a line ask for the step. -/
def Line (T : Target σ) (X : Surroundings) (ws : List Bytes) (s s' : σ) : Prop :=
  ∃ c vs, ws = Command.word c :: vs ∧ Solids vs ∧ Does T X c ⟨spaced vs, false⟩ s s'

theorem line_createTable {name : Bytes} (hname : isIdentifier name = true)
    (hcall : T.writable.call (.createTable name) s = .ok () s') :
    Line T X (words X.floatText (T.readable s) (.createTable name)) s s' := by
  have hnew := Input.readsBack_word (isWord_of_isIdentifier hname)
  refine ⟨.createTable, [name], rfl, .cons hnew.solid .nil, .define rfl rfl rfl rfl ?_⟩
  show finish (T.writable.call (.createTable (Input.readWord ⟨spaced [name], false⟩).1)) s = _
  rw [hnew.next]
  exact finish_ok hcall

theorem line_custom {name : Bytes} (hname : IsWord name)
    (hcall : T.writable.call (.custom name) s = .ok () s') :
    Line T X (words X.floatText (T.readable s) (.custom name)) s s' := by
  have hword := Input.readsBack_word hname
  refine ⟨.custom, [name], rfl, .cons hword.solid .nil, .define rfl rfl rfl rfl ?_⟩
  show finish (T.writable.call (.custom (Input.readWord ⟨spaced [name], false⟩).1)) s = _
  rw [hword.next]
  exact finish_ok hcall

theorem line_comment {comment : Bytes} (hcall : T.writable.call (.comment comment) s = .ok () s') :
    Line T X (words X.floatText (T.readable s) (.comment comment)) s s' := by
  have htext := readText_writeString comment
  refine ⟨.comment, [writeString comment], rfl, .cons htext.solid .nil, .writable rfl ?_⟩
  show finish (T.writable.call (.comment (readText ⟨spaced [writeString comment], false⟩).1)) s = _
  rw [htext.next]
  exact finish_ok hcall

theorem solid_getTimeString (timestamp : BitVec 64) : Solid (getTimeString timestamp) := by
  refine ⟨newline_not_mem_getTimeString timestamp, ?_⟩
  have hgmt : ascii " GMT" = ascii " GM" ++ [84] := by decide
  have hbad : ascii "bad timestamp" = ascii "bad timestam" ++ [112] := by decide
  rw [getTimeString, hgmt, hbad]
  split
  · exact ⟨_, 84, (List.append_assoc _ _ _).symm, by decide⟩
  · exact ⟨_, 112, rfl, by decide⟩

/-- The time behind the number is not read. -/
theorem line_timestamp {timestamp : BitVec 64}
    (hcall : T.writable.call (.timestamp timestamp) s = .ok () s') :
    Line T X (words X.floatText (T.readable s) (.timestamp timestamp)) s s' := by
  have hnumber := (writes_decimal timestamp.toInt).readsBack timestamp.le_toInt
    timestamp.toInt_le
  refine ⟨.timestamp, [decimal timestamp.toInt, getTimeString timestamp], rfl,
    .cons hnumber.solid (.cons (solid_getTimeString timestamp) .nil), .writable rfl ?_⟩
  show finish (T.writable.call (.timestamp (if (Input.readInt (-2 ^ 63) (2 ^ 63 - 1) _).2.failbit
    then X.now else BitVec.ofInt 64 (Input.readInt (-2 ^ 63) (2 ^ 63 - 1) _).1))) s = _
  rw [hnumber.next, if_neg Bool.false_ne_true, BitVec.ofInt_toInt]
  exact finish_ok hcall

theorem line_validData (hcall : T.writable.call .validData s = .ok () s') :
    Line T X (words X.floatText (T.readable s) .validData) s s' :=
  ⟨.validData, [], rfl, .nil, .writable rfl (finish_ok hcall)⟩

theorem line_writeBlob {data : Bytes} (hcall : T.writable.call (.writeBlob data) s = .ok () s') :
    Line T X (words X.floatText (T.readable s) (.writeBlob data)) s s' := by
  have htext := readText_writeString data
  refine ⟨.writeBlob, [writeString data], rfl, .cons htext.solid .nil, .writable rfl ?_⟩
  show finish (T.writable.call (.writeBlob (readText ⟨spaced [writeString data], false⟩).1)) s = _
  rw [htext.next]
  exact finish_ok hcall

/-- The parameters of a change of records. -/
theorem readRecords_decimal {r : RecordId} {size : Nat} (hr : IdFits r) (hsize : SizeFits size) :
    readRecords ⟨spaced [decimal r, decimal size], false⟩ = (r, size) := by
  simp only [readRecords, (readRecordId_decimal (-1) hr).next, (readSize_decimal hsize).next]

/-- What an update that is accepted has found. -/
structure Holds (db : Database) (ty : Ty) (t : TableId) (f : FieldId) (table : Table)
    (field : Field) : Prop where
  table_eq : find db.tables t = some table
  field_eq : find table.fields f = some field
  holds : field.column.holds = some ty

theorem Holds.type {db : Database} {ty : Ty} {t : TableId} {f : FieldId} {table : Table}
    {field : Field} (h : Holds db ty t f table field) :
    (db.getFieldType t f).typeId ≠ 0 ∧ Ty.ofTypeId (db.getFieldType t f).typeId = some ty := by
  have hty : Ty.ofTypeId (db.getFieldType t f).typeId = some ty := by
    rw [Database.getFieldType_eq h.table_eq h.field_eq, ← field.holds, h.holds]
  refine ⟨fun hzero => ?_, hty⟩
  have hnone : Ty.ofTypeId 0 = none := by decide
  rw [hzero, hnone] at hty
  cases hty

theorem readValues_spaced {ty : Ty} {vs : List ty.Storage} (hfit : ∀ v ∈ vs, ty.kind.Fits v)
    (harg : ∀ v ∈ vs, ty.arg v = v) (hfloat : ∀ v ∈ vs, ty.FloatReturns X v) :
    readValues X ty vs.length ⟨spaced (vs.map (writeValue X.floatText ty)), false⟩ = .ok vs := by
  induction vs with
  | nil => rfl
  | cons v vs ih =>
      rw [List.forall_mem_cons] at hfit harg hfloat
      have hvalue := (readValue_writeValue X hfit.1 harg.1 hfloat.1).next
        (vs.map (writeValue X.floatText ty))
      rw [List.length_cons, readValues, List.map_cons]
      simp only [hvalue, Bool.false_eq_true, if_false, ih hfit.2 harg.2 hfloat.2]
      rfl

/-- The types of the macro, but for references, and their words. -/
theorem plainType_word {ty : Ty} (h : ty ≠ .reference) :
    IsWord ty.word ∧ ty.word ≠ ascii "references" ∧
      plainTypes.find? (·.word = ty.word) = some ty := by
  cases ty
  case reference => exact absurd rfl h
  all_goals exact ⟨by decide, by decide, by decide⟩

theorem isWord_references : IsWord (ascii "references") := by decide

/-- The type of a new field, and nothing behind it. -/
theorem parseType_writeType {db : Database} (h : db.Labelled) {t : TableId} {name : Bytes}
    {type : FieldType} {maxRecordId : RecordId}
    (hsay : (Op.addField t name type).Sayable maxRecordId db) :
    Solid (writeType db type) ∧
      parseType db ⟨spaced [writeType db type], false⟩ = .ok (type, ⟨[], false⟩) := by
  obtain ⟨typeId, tableId, hno⟩ := type
  by_cases hreference : typeId = referenceTypeId
  · subst hreference
    rw [Op.Sayable, if_pos rfl] at hsay
    obtain ⟨tname, htname⟩ := Option.isSome_iff_exists.mp hsay
    have hnames := h.names_of_name htname
    have hzero : referenceTypeId ≠ 0 := by decide
    have htype : writeType db ⟨referenceTypeId, tableId, hno⟩
        = unwords [ascii "references", db.getTableName tableId] := by
      rw [writeType, if_neg hzero, if_pos rfl]
    have htext : spaced [writeType db ⟨referenceTypeId, tableId, hno⟩]
        = spaced [ascii "references", db.getTableName tableId] := by
      rw [htype]
      simp [spaced, unwords]
    have hsolid : Solids [ascii "references", db.getTableName tableId] :=
      .cons isWord_references.solid_line (.cons hnames.isWord.solid_line .nil)
    refine ⟨htype ▸ hsolid.unwords (List.cons_ne_nil _ _), ?_⟩
    have hword := (Input.readsBack_word isWord_references).next [db.getTableName tableId]
    have htable := (Input.readsBack_word hnames.isWord).next []
    rw [htext, parseType]
    simp only [hword, htable, hnames.lookup_eq]
    rw [if_pos ⟨trivial, hnames.ne_zero⟩]
    rfl
  · rw [Op.Sayable, if_neg hreference] at hsay
    obtain ⟨ty, hty⟩ := Option.isSome_iff_exists.mp hsay
    have hid : ty.typeId = typeId := by simpa using List.find?_some hty
    have hne : ty ≠ .reference := by
      rintro rfl
      exact hreference hid.symm
    have hzero : typeId ≠ 0 := by
      rw [← hid]
      cases ty <;> decide
    obtain ⟨hisWord, hother, hfound⟩ := plainType_word hne
    have htext : writeType db ⟨typeId, tableId, hno⟩ = ty.word := by
      rw [writeType, if_neg hzero, if_neg hreference, hty]
    have hword := (Input.readsBack_word hisWord).next []
    have htable := hno hreference
    subst hid
    subst htable
    refine ⟨htext ▸ hisWord.solid_line, ?_⟩
    rw [htext, parseType]
    simp only [hword]
    rw [if_neg fun hboth => hother hboth.1, hfound]
    rfl

theorem exists_of_not_isNone {α : Type} {o : Option α} (h : ¬o.isNone = true) :
    ∃ a, o = some a := by
  cases o with
  | none => exact absurd rfl h
  | some a => exact ⟨a, rfl⟩

theorem holds_update {db : Database} (hS : db.Sound) {ty : Ty} {t : TableId} {r : RecordId}
    {f : FieldId} {v : ty.Arg} (hdb : Database.call (.update ty t r f v) db = .ok () db') :
    ∃ table field, Holds db ty t f table field := by
  obtain ⟨table, table', hfind, hrun, -⟩ := Database.withTable_ok hdb
  obtain ⟨-, hwrote⟩ := Table.update_ok (hS.sound t table hfind) hrun
  obtain ⟨field, -, vs, hfield, hcolumn, -⟩ := hwrote.own
  exact ⟨table, field, hfind, hfield, Column.holds_eq_some.mpr ⟨vs, hcolumn⟩⟩

/-- A vector that fits into a column is not longer than a vector may be. -/
theorem holds_updateVector {db : Database} (hS : db.Sound) (hL : db.Labelled) {ty : Ty}
    {t : TableId} {r : RecordId} {f : FieldId} {vs : List ty.Storage} (hne : vs ≠ [])
    (hdb : Database.call (.updateVector ty t r f vs) db = .ok () db') :
    (∃ table field, Holds db ty t f table field) ∧ vs.length ≤ ty.maxSize := by
  obtain ⟨table, table', hfind, hrun, -⟩ := Database.withTable_ok hdb
  have hlen : vs.length ≠ 0 := fun h => hne (List.length_eq_zero_iff.mp h)
  have hsound := hS.sound t table hfind
  have hwrote := Table.updateVector_ok hsound hlen hrun
  obtain ⟨field, -, xs, hfield, hcolumn, hxs, -⟩ := hwrote.own
  refine ⟨⟨table, field, hfind, hfield, Column.holds_eq_some.mpr ⟨xs, hcolumn⟩⟩, ?_⟩
  obtain ⟨_, t₁, hpure, hrest⟩ := bind_eq_ok hrun
  obtain rfl := Table.withField_pure hpure
  rw [if_neg hlen] at hrest
  obtain ⟨_, t₂, hfirst, hsecond⟩ := bind_eq_ok hrest
  obtain ⟨hused, rfl⟩ := Table.checkRecordId_ok hfirst
  obtain ⟨_, t₃, hlast, -⟩ := bind_eq_ok hsecond
  obtain ⟨hused', rfl⟩ := Table.checkRecordId_ok hlast
  have hlow := (FreedomKeeper.lt_of_isUsed hused).1
  have hhigh := (FreedomKeeper.lt_of_isUsed hused').2
  have hbound := (hL.tables _ (mem_of_find hfind)).bounded _ (mem_of_find hfield)
  simp only [Field.Bounded, hcolumn] at hbound
  omega

section Lines

variable (hL : (T.readable s).Labelled)
include hL

theorem line_dropTable {t : TableId} {table : Table}
    (hfind : find (T.readable s).tables t = some table)
    (hcall : T.writable.call (.dropTable t) s = .ok () s') :
    Line T X (words X.floatText (T.readable s) (.dropTable t)) s s' := by
  have ht := hL.names_table hfind
  refine ⟨.dropTable, [(T.readable s).getTableName t], rfl, .cons ht.isWord.solid_line .nil,
    .define rfl rfl rfl rfl ?_⟩
  show (T.parseTable _ >>= _) s = _
  rw [bind_ok (parseTable_named ht [])]
  exact finish_ok hcall

theorem line_renameTable {t : TableId} {table : Table} {name : Bytes}
    (hfind : find (T.readable s).tables t = some table) (hname : isIdentifier name = true)
    (hcall : T.writable.call (.renameTable t name) s = .ok () s') :
    Line T X (words X.floatText (T.readable s) (.renameTable t name)) s s' := by
  have ht := hL.names_table hfind
  have hnew := Input.readsBack_word (isWord_of_isIdentifier hname)
  refine ⟨.renameTable, [(T.readable s).getTableName t, name], rfl,
    .cons ht.isWord.solid_line (.cons hnew.solid .nil), .define rfl rfl rfl rfl ?_⟩
  show (T.parseTable _ >>= _) s = _
  rw [bind_ok (parseTable_named ht [name])]
  simp only [hnew.next]
  exact finish_ok hcall

theorem line_dropField {t : TableId} {table : Table} {f : FieldId} {field : Field}
    (hfind : find (T.readable s).tables t = some table) (hfield : find table.fields f = some field)
    (hcall : T.writable.call (.dropField t f) s = .ok () s') :
    Line T X (words X.floatText (T.readable s) (.dropField t f)) s s' := by
  have ht := hL.names_table hfind
  have hf := hL.names_field hfind hfield
  have hword := Input.readsBack_word hf.isWord
  refine ⟨.dropField, [(T.readable s).getTableName t, (T.readable s).getFieldName t f], rfl,
    .cons ht.isWord.solid_line (.cons hword.solid .nil), .define rfl rfl rfl rfl ?_⟩
  show (T.parseTable _ >>= _) s = _
  rw [bind_ok (parseTable_named ht _), get_bind_run]
  simp only [hword.next, hf.lookup_eq]
  exact finish_ok hcall

theorem line_renameField {t : TableId} {table : Table} {f : FieldId} {field : Field}
    {name : Bytes} (hfind : find (T.readable s).tables t = some table)
    (hfield : find table.fields f = some field) (hname : isIdentifier name = true)
    (hcall : T.writable.call (.renameField t f name) s = .ok () s') :
    Line T X (words X.floatText (T.readable s) (.renameField t f name)) s s' := by
  have ht := hL.names_table hfind
  have hf := hL.names_field hfind hfield
  have hword := Input.readsBack_word hf.isWord
  have hnew := Input.readsBack_word (isWord_of_isIdentifier hname)
  refine ⟨.renameField, [(T.readable s).getTableName t, (T.readable s).getFieldName t f, name], rfl,
    .cons ht.isWord.solid_line (.cons hword.solid (.cons hnew.solid .nil)),
    .define rfl rfl rfl rfl ?_⟩
  show (T.parseTable _ >>= _) s = _
  rw [bind_ok (parseTable_named ht _), get_bind_run]
  simp only [hword.next, hf.lookup_eq, hnew.next]
  exact finish_ok hcall

theorem line_addField {t : TableId} {table : Table} {name : Bytes} {type : FieldType}
    (hfind : find (T.readable s).tables t = some table) (hname : isIdentifier name = true)
    (hsay : (Op.addField t name type).Sayable T.maxRecordId (T.readable s))
    (hcall : T.writable.call (.addField t name type) s = .ok () s') :
    Line T X (words X.floatText (T.readable s) (.addField t name type)) s s' := by
  have ht := hL.names_table hfind
  have hnew := Input.readsBack_word (isWord_of_isIdentifier hname)
  obtain ⟨hsolid, hparse⟩ := parseType_writeType hL hsay
  refine ⟨.addField, [(T.readable s).getTableName t, name, writeType (T.readable s) type], rfl,
    .cons ht.isWord.solid_line (.cons hnew.solid (.cons hsolid .nil)),
    .define rfl rfl rfl rfl (finish_ok ?_)⟩
  have htype : Dump.read (parseType (T.readable s)
      ⟨spaced [writeType (T.readable s) type], false⟩) s = .ok (type, ⟨[], false⟩) s := by
    rw [hparse]
    rfl
  have hnext : ¬(Input.readWord ⟨[], false⟩).1 = ascii "=" := by decide
  rw [addField, bind_ok (parseTable_named ht _)]
  simp only [hnew.next]
  rw [get_bind_run, bind_ok htype, bind_ok hcall, when_neg hnext]
  rfl

/-! ### Records -/

theorem line_deleteFrom {t : TableId} {table : Table} {r : RecordId}
    (hfind : find (T.readable s).tables t = some table) (hr : IdFits r)
    (hcall : T.writable.call (.deleteFrom t r) s = .ok () s') :
    Line T X (words X.floatText (T.readable s) (.deleteFrom t r)) s s' := by
  have ht := hL.names_table hfind
  have hid := readRecordId_decimal (-1) hr
  refine ⟨.deleteFrom, [(T.readable s).getTableName t, decimal r], rfl,
    .cons ht.isWord.solid_line (.cons hid.solid .nil), .manipulate rfl rfl rfl ?_⟩
  show (T.parseTable _ >>= _) s = _
  rw [bind_ok (parseTable_named ht _)]
  simp only [hid.next]
  exact finish_ok hcall

theorem line_insertInto {t : TableId} {table : Table} {r : RecordId}
    (hfind : find (T.readable s).tables t = some table) (hr : IdFits r) (hpos : 0 ≤ r)
    (hcall : T.writable.call (.insertInto t r) s = .ok () s') :
    Line T X (words X.floatText (T.readable s) (.insertInto t r)) s s' := by
  have ht := hL.names_table hfind
  have hid := readRecordId_decimal (-1) hr
  refine ⟨.insertInto, [(T.readable s).getTableName t, decimal r], rfl,
    .cons ht.isWord.solid_line (.cons hid.solid .nil), .manipulate rfl rfl rfl (finish_ok ?_)⟩
  have hsize : Dump.read ((T.readable s).getSize t) s = .ok table.freedom.getSize s := by
    rw [Database.getSize, Database.getFreedom_eq hfind]
    rfl
  rw [insertInto, bind_ok (parseTable_named ht _)]
  simp only [if_neg Bool.false_ne_true, hid.next]
  rw [get_bind_run, bind_ok hsize, if_neg (Int.not_lt.mpr hpos), bind_ok hcall]
  rfl

/-- What follows a command on records: a table, a record and a size. -/
theorem records_words {op : TableId → RecordId → Nat → Op} {t : TableId} {table : Table}
    {r : RecordId} {size : Nat} (hfind : find (T.readable s).tables t = some table) (hr : IdFits r)
    (hsize : SizeFits size) (hcall : T.writable.call (op t r size) s = .ok () s') :
    Solids [(T.readable s).getTableName t, decimal r, decimal size] ∧
      (do
        let table ← T.parseTable
          ⟨spaced [(T.readable s).getTableName t, decimal r, decimal size], false⟩
        let records := readRecords table.2
        finish (T.writable.call (op table.1 records.1 records.2))) s = .ok .done s' := by
  have ht := hL.names_table hfind
  refine ⟨.cons ht.isWord.solid_line (.cons (readRecordId_decimal (-1) hr).solid
    (.cons (readSize_decimal hsize).solid .nil)), ?_⟩
  rw [bind_ok (parseTable_named ht _)]
  simp only [readRecords_decimal hr hsize]
  exact finish_ok hcall

theorem line_insertVector {t : TableId} {table : Table} {r : RecordId} {size : Nat}
    (hfind : find (T.readable s).tables t = some table) (hr : IdFits r) (hsize : SizeFits size)
    (hcall : T.writable.call (.insertVector t r size) s = .ok () s') :
    Line T X (words X.floatText (T.readable s) (.insertVector t r size)) s s' := by
  obtain ⟨hsolid, hrun⟩ := records_words hL hfind hr hsize hcall
  exact ⟨.insertVector, _, rfl, hsolid, .manipulate rfl rfl rfl hrun⟩

theorem line_deleteVector {t : TableId} {table : Table} {r : RecordId} {size : Nat}
    (hfind : find (T.readable s).tables t = some table) (hr : IdFits r) (hsize : SizeFits size)
    (hcall : T.writable.call (.deleteVector t r size) s = .ok () s') :
    Line T X (words X.floatText (T.readable s) (.deleteVector t r size)) s s' := by
  obtain ⟨hsolid, hrun⟩ := records_words hL hfind hr hsize hcall
  exact ⟨.deleteVector, _, rfl, hsolid, .manipulate rfl rfl rfl hrun⟩

/-! ### Values -/

theorem line_update {ty : Ty} {t : TableId} {r : RecordId} {f : FieldId} {v : ty.Arg}
    {table : Table} {field : Field} (h : Holds (T.readable s) ty t f table field) (hr : IdFits r)
    (hfit : ty.kind.Fits v.val) (hfloat : ty.FloatReturns X v.val)
    (hcall : T.writable.call (.update ty t r f v) s = .ok () s') :
    Line T X (words X.floatText (T.readable s) (.update ty t r f v)) s s' := by
  have ht := hL.names_table h.table_eq
  have hf := hL.names_field h.table_eq h.field_eq
  have hid := readRecordId_decimal (-1) hr
  have hword := Input.readsBack_word hf.isWord
  have hvalue := readValue_writeValue X hfit v.property hfloat
  refine ⟨.update, [(T.readable s).getTableName t, decimal r, (T.readable s).getFieldName t f,
    writeValue X.floatText ty v.val], rfl, .cons ht.isWord.solid_line (.cons hid.solid
      (.cons hword.solid (.cons hvalue.solid .nil))), .manipulate rfl rfl rfl ?_⟩
  have hupdate : T.updateValue X t r f ⟨spaced [writeValue X.floatText ty v.val], false⟩ s
      = .ok ⟨spaced [], false⟩ s' := by
    rw [updateValue, get_bind_run]
    simp only
    rw [when_neg h.type.1, pure_bind_run, h.type.2]
    simp only
    rw [hvalue.next, when_neg Bool.false_ne_true, pure_bind_run, Ty.toArg_val, bind_ok hcall]
    rfl
  show (T.parseTable _ >>= _) s = _
  rw [bind_ok (parseTable_named ht _)]
  simp only [hid.next, hword.next]
  rw [get_bind_run, hf.lookup_eq, bind_ok hupdate]
  rfl

theorem line_updateVector {ty : Ty} {t : TableId} {r : RecordId} {f : FieldId}
    {vs : List ty.Storage} {table : Table} {field : Field}
    (h : Holds (T.readable s) ty t f table field) (hfit : (Op.updateVector ty t r f vs).Fits)
    (hfloat : ∀ v ∈ vs, ty.FloatReturns X v)
    (hsay : (Op.updateVector ty t r f vs).Sayable T.maxRecordId (T.readable s))
    (hmax : vs.length ≤ ty.maxSize)
    (hcall : T.writable.call (.updateVector ty t r f vs) s = .ok () s') :
    Line T X (words X.floatText (T.readable s) (.updateVector ty t r f vs)) s s' := by
  obtain ⟨hr, hsize, hvalues⟩ := hfit
  obtain ⟨hne, hlimit, harg⟩ := hsay
  have ht := hL.names_table h.table_eq
  have hf := hL.names_field h.table_eq h.field_eq
  have hid := readRecordId_decimal (-1) hr
  have hword := Input.readsBack_word hf.isWord
  have hlength := readSize_decimal hsize
  have hsolids : Solids (vs.map (writeValue X.floatText ty)) := by
    intro w hw
    obtain ⟨v, hv, rfl⟩ := List.mem_map.mp hw
    exact (readValue_writeValue X (hvalues v hv) (harg v hv) (hfloat v hv)).solid
  refine ⟨.updateVector, (T.readable s).getTableName t :: decimal r ::
    (T.readable s).getFieldName t f :: decimal vs.length :: vs.map (writeValue X.floatText ty),
    rfl, .cons ht.isWord.solid_line (.cons hid.solid (.cons hword.solid
      (.cons hlength.solid hsolids))), .manipulate rfl rfl rfl (finish_ok ?_)⟩
  have hpos : vs.length > 0 := List.length_pos_iff.mpr hne
  have hsmall : ¬(0 ≤ T.maxRecordId ∧ T.maxRecordId ≤ (vs.length : Int)) :=
    fun hbig => absurd (hlimit hbig.1) (Int.not_lt.mpr hbig.2)
  have hread : Dump.read (readValues X ty vs.length
      ⟨spaced (vs.map (writeValue X.floatText ty)), false⟩) s = .ok vs s := by
    rw [readValues_spaced hvalues harg hfloat]
    rfl
  rw [updateVector, bind_ok (parseTable_named ht _)]
  simp only
  rw [get_bind_run, hid.next, hword.next, hlength.next, when_neg hsmall, pure_bind_run, if_pos hpos,
    hf.lookup_eq, when_neg h.type.1, pure_bind_run, h.type.2]
  simp only
  rw [when_neg (Nat.not_lt.mpr hmax), pure_bind_run, bind_ok hread]
  exact hcall

/-! ### All of them -/

/-- Whatever is accepted is asked for by its line. -/
theorem line_call (hS : (T.readable s).Sound) {op : Op} (hfit : op.Fits)
    (hfloat : op.FloatsReturn X) (hsay : op.Sayable T.maxRecordId (T.readable s))
    (hcustom : ∀ name, op = .custom name → name ≠ [])
    (hcall : T.writable.call op s = .ok () s')
    (hdb : Database.call op (T.readable s) = .ok () db') :
    Line T X (words X.floatText (T.readable s) op) s s' := by
  cases op with
  | createTable name =>
      obtain ⟨hname, -⟩ := Database.createTable_iff.mp hdb
      exact line_createTable (Bool.of_not_eq_false hname) hcall
  | dropTable t =>
      obtain ⟨hsome, -⟩ := Database.dropTable_iff.mp hdb
      obtain ⟨table, hfind⟩ := exists_of_not_isNone hsome
      exact line_dropTable hL hfind hcall
  | renameTable t name =>
      obtain ⟨hname, -, hsome, -⟩ := Database.renameTable_iff.mp hdb
      obtain ⟨table, hfind⟩ := Option.isSome_iff_exists.mp hsome
      exact line_renameTable hL hfind (Bool.of_not_eq_false hname) hcall
  | addField t name type =>
      obtain ⟨hname, hrun⟩ := Database.checkIdentifier_bind.mp hdb
      obtain ⟨table, table', hfind, -⟩ := Database.withTable_ok hrun
      exact line_addField hL hfind (Bool.of_not_eq_false hname) hsay hcall
  | dropField t f =>
      obtain ⟨table, table', hfind, hrun, -⟩ := Database.withTable_ok hdb
      obtain ⟨hsome, -⟩ := Table.dropField_iff.mp hrun
      obtain ⟨field, hfield⟩ := exists_of_not_isNone hsome
      exact line_dropField hL hfind hfield hcall
  | renameField t f name =>
      obtain ⟨hname, hrun⟩ := Database.checkIdentifier_bind.mp hdb
      obtain ⟨table, table', hfind, hrun, -⟩ := Database.withTable_ok hrun
      obtain ⟨hsome, -⟩ := Table.renameFieldOf_iff.mp hrun
      have hkey : (find table.fields f).isSome = true := by
        rw [find_isSome_iff, (hL.tables _ (mem_of_find hfind)).keys_eq, ← find_isSome_iff]
        obtain ⟨old, hold⟩ := exists_of_not_isNone hsome
        rw [hold]
        rfl
      obtain ⟨field, hfield⟩ := Option.isSome_iff_exists.mp hkey
      exact line_renameField hL hfind hfield (Bool.of_not_eq_false hname) hcall
  | custom name => exact line_custom ⟨hcustom name rfl, hsay⟩ hcall
  | comment comment => exact line_comment hcall
  | timestamp timestamp => exact line_timestamp hcall
  | validData => exact line_validData hcall
  | insertInto t r =>
      rw [Database.call, Database.insertInto, get_bind_run, guard_bind_eq_ok] at hdb
      obtain ⟨hrange, hrun⟩ := hdb
      obtain ⟨table, table', hfind, -⟩ := Database.withTable_ok hrun
      exact line_insertInto hL hfind hfit (Int.not_lt.mp fun hneg => hrange (.inl hneg)) hcall
  | deleteFrom t r =>
      obtain ⟨table, table', hfind, -⟩ := Database.withTable_ok hdb
      exact line_deleteFrom hL hfind hfit hcall
  | insertVector t r size =>
      rw [Database.call, Database.insertVector, get_bind_run, guard_bind_eq_ok] at hdb
      obtain ⟨table, table', hfind, -⟩ := Database.withTable_ok hdb.2
      exact line_insertVector hL hfind hfit.1 hfit.2 hcall
  | deleteVector t r size =>
      obtain ⟨table, table', hfind, -⟩ := Database.withTable_ok hdb
      exact line_deleteVector hL hfind hfit.1 hfit.2 hcall
  | update ty t r f v =>
      obtain ⟨table, field, h⟩ := holds_update hS hdb
      exact line_update hL h hfit.1 hfit.2 hfloat hcall
  | updateVector ty t r f vs =>
      obtain ⟨⟨table, field, h⟩, hmax⟩ := holds_updateVector hS hL hsay.1 hdb
      exact line_updateVector hL h hfit hfloat hsay hmax hcall
  | writeBlob data => exact line_writeBlob hcall

end Lines

end Target

end Joedb
