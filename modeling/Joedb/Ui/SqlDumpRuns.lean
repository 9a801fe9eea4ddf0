import Joedb.Interpreted.Names
import Joedb.Ui.SqlDump
import Joedb.Ui.Telling

/-!
# What escapes from an SQL dump

Foreign text reaches the dump by three ways. Values are written in hexadecimal digits, and nothing
can be wrong with those. The names of what exists are identifiers, because the schema has tested
them. The name of something new is not, as it is written before it is tested: what matters then
is how its quotes come. The test behind it stops the replay if it is not an identifier, so it
would be the last thing in the output.

The text of a comment is not tested by anybody. Its own newlines end the line that the dump has
made a comment, and what follows is a comment only if the text makes it one. The dump of the
interpreter writes the same text as a string, where a newline is an escape.

Every event but these finds the output at the beginning of a line, out of quotes and comments, and
leaves it there. The exception is a blob that cannot be read: the statement remains unfinished,
and nothing follows.
-/

namespace Joedb

open ByteFile Containers StateExcept SqlText
open SqlText.State (run Plain run_append run_nil run_cons run_comment)

/-! ## Numbers -/

theorem decimal_digits (n : Int) : ∃ ds : Bytes, (decimal n = ds ∨ decimal n = 45 :: ds) ∧
    ds ≠ [] ∧ ∀ c ∈ ds, 48 ≤ c ∧ c ≤ 57 := by
  have hrepr : ∀ m : Nat, ascii m.repr ≠ [] ∧ ∀ c ∈ ascii m.repr, 48 ≤ c ∧ c ≤ 57 := by
    intro m
    refine ⟨by simp [ascii, Nat.repr], fun c hc => ?_⟩
    obtain ⟨ch, hch, rfl⟩ := List.mem_map.mp hc
    rw [Nat.repr, String.toList_ofList] at hch
    have hdigit := Char.isDigit_iff_toNat.mp
      (Nat.isDigit_of_mem_toDigits (by decide) (by decide) hch)
    have hlow : 48 ≤ ch.toNat := hdigit.1
    have hhigh : ch.toNat ≤ 57 := hdigit.2
    rw [UInt8.le_iff_toNat_le, UInt8.le_iff_toNat_le, UInt8.toNat_ofNat']
    show 48 ≤ ch.toNat % 256 ∧ ch.toNat % 256 ≤ 57
    omega
  cases n with
  | ofNat m => exact ⟨ascii m.repr, .inl rfl, hrepr m⟩
  | negSucc m =>
      refine ⟨ascii (m + 1).repr, .inr ?_, hrepr (m + 1)⟩
      rw [decimal, Int.toString_eq_repr, Int.repr, ascii]
      simp [ascii]

theorem start_digit {c : UInt8} (h : 48 ≤ c ∧ c ≤ 57) : State.start c = .code := by
  have hne : ∀ d : UInt8, ¬ 48 ≤ d → c ≠ d := fun d hd he => hd (he ▸ h.1)
  rw [State.start, if_neg (not_or.mpr ⟨hne 34 (by decide), hne 39 (by decide)⟩),
    if_neg (hne 45 (by decide))]

theorem run_decimal (n : Int) : run .code (decimal n) = .code := by
  have hrun : ∀ ds : Bytes, (∀ c ∈ ds, 48 ≤ c ∧ c ≤ 57) → run .code ds = .code := by
    intro ds hds
    induction ds with
    | nil => rfl
    | cons c ds ih =>
        rw [run_cons, State.step, start_digit (hds c List.mem_cons_self)]
        exact ih fun d hd => hds d (List.mem_cons_of_mem _ hd)
  obtain ⟨ds, hn, hne, hds⟩ := decimal_digits n
  rcases hn with hn | hn
  · rw [hn]
    exact hrun ds hds
  · obtain ⟨c, ds, rfl⟩ := List.exists_cons_of_ne_nil hne
    have hc := hds c List.mem_cons_self
    have hdash : c ≠ 45 := fun he => absurd (he ▸ hc.1) (by decide)
    rw [hn, run_cons, show State.step .code 45 = .dash from rfl, run_cons, State.step, if_neg hdash,
      start_digit hc]
    exact hrun ds fun d hd => hds d (List.mem_cons_of_mem _ hd)

theorem newline_not_mem_decimal (n : Int) : 10 ∉ decimal n := by
  obtain ⟨ds, hn, -, hds⟩ := decimal_digits n
  have hmem : 10 ∉ ds := fun h => absurd (hds 10 h).1 (by decide)
  rcases hn with hn | hn
  · rwa [hn]
  · rw [hn, List.mem_cons, not_or]
    exact ⟨by decide, hmem⟩

theorem newline_not_mem_getTimeString (timestamp : BitVec 64) : 10 ∉ getTimeString timestamp := by
  have htwo : ∀ n, 10 ∉ twoDigits n := by
    intro n
    rw [twoDigits]
    split
    · exact fun h => (List.mem_append.mp h).elim (by decide) (newline_not_mem_decimal n)
    · exact newline_not_mem_decimal n
  have hdash : 10 ∉ ascii "-" := by decide
  have hspace : 10 ∉ ascii " " := by decide
  have hcolon : 10 ∉ ascii ":" := by decide
  have hgmt : 10 ∉ ascii " GMT" := by decide
  have hbad : 10 ∉ ascii "bad timestamp" := by decide
  rw [getTimeString]
  split
  · simp only [List.mem_append, not_or]
    exact ⟨⟨⟨⟨⟨⟨⟨⟨⟨⟨⟨newline_not_mem_decimal _, hdash⟩, htwo _⟩, hdash⟩, htwo _⟩, hspace⟩, htwo _⟩,
      hcolon⟩, htwo _⟩, hcolon⟩, htwo _⟩, hgmt⟩
  · exact hbad

/-! ## Names -/

theorem not_mem_of_isIdentifier {s : Bytes} (h : isIdentifier s = true) {c : UInt8}
    (hc : c ≠ underscore ∧ (!isLetter c) = true ∧ (!isNumber c) = true) : c ∉ s := by
  have hgo : ∀ (s : Bytes) previous, isIdentifierGo previous s = true → c ∉ s := by
    intro s
    induction s with
    | nil => exact fun _ _ => List.not_mem_nil
    | cons d s ih =>
        intro previous hd
        rw [isIdentifierGo] at hd
        split at hd
        · cases hd
        · next hlegal =>
            split at hd
            · cases hd
            · rw [List.mem_cons, not_or]
              exact ⟨fun he => hlegal (he ▸ hc), ih d hd⟩
  cases s with
  | nil => exact List.not_mem_nil
  | cons d s =>
      rw [isIdentifier] at h
      split at h
      · cases h
      · exact hgo (d :: s) 0 h

/-- A name that may stand in quotes and in a comment. -/
structure Calm (s : Bytes) : Prop where
  quotes : Paired 34 s = true
  line : 10 ∉ s

theorem calm_of_isIdentifier {s : Bytes} (h : isIdentifier s = true) : Calm s :=
  ⟨paired_of_not_mem (not_mem_of_isIdentifier h (by decide)),
    not_mem_of_isIdentifier h (by decide)⟩

theorem calm_find {names : List (UInt16 × Bytes)} (h : ∀ e ∈ names, isIdentifier e.2 = true)
    {default : Bytes} (hdefault : Calm default) (id : UInt16) :
    Calm ((find names id).getD default) := by
  cases hfind : find names id with
  | none => exact hdefault
  | some name => exact calm_of_isIdentifier (h _ (mem_of_find hfind))

namespace Database

variable {db : Database}

theorem Labelled.calm_tableName (h : db.Labelled) (tableId : TableId) :
    Calm (db.getTableName tableId) :=
  calm_find h.directory.identifiers ⟨by decide, by decide⟩ tableId

theorem Labelled.calm_fieldName (h : db.Labelled) (tableId : TableId) (fieldId : FieldId) :
    Calm (db.getFieldName tableId fieldId) := by
  have hunknown : Calm (ascii "__unknown_field__") := ⟨by decide, by decide⟩
  rw [getFieldName]
  cases hfind : find db.tables tableId with
  | none => exact hunknown
  | some t =>
      exact calm_find (h.tables _ (mem_of_find hfind)).directory.identifiers hunknown fieldId

/-- What a schema does not override does nothing. -/
theorem labelled_schemaCall (op : Op) : Maintains Labelled (schemaCall op) := by
  cases op with
  | createTable name => exact labelled_createTable name
  | dropTable t => exact labelled_dropTable t
  | renameTable t name => exact labelled_renameTable t name
  | addField t name type => exact labelled_call (.addField t name type)
  | dropField t f => exact labelled_call (.dropField t f)
  | renameField t f name => exact labelled_call (.renameField t f name)
  | _ => exact maintains_pure ()

end Database

/-! ## Pieces -/

namespace Piece

/-- Where foreign text has to be, behind `before`. A name may be in a comment instead, if it does
not end it: the line for a blob without its data is one. -/
def Holds (before : Bytes) (p : Piece) : Prop :=
  match p.role with
  | .code => True
  | .remark => Commented before p.text
  | .name => Enclosed 34 (run .code before) p.text ∨ run .code before = .comment ∧ 10 ∉ p.text
  | .value => Enclosed 39 (run .code before) p.text

end Piece

open Piece

/-- Each piece is where it has to be. -/
def Contained : Bytes → List Piece → Prop
  | _, [] => True
  | before, p :: ps => p.Holds before ∧ Contained (before ++ p.text) ps

theorem texts_cons (p : Piece) (ps : List Piece) : texts (p :: ps) = p.text ++ texts ps := rfl

@[simp] theorem texts_nil : texts [] = [] := rfl

theorem texts_singleton (p : Piece) : texts [p] = p.text := List.append_nil _

theorem texts_append (ps qs : List Piece) : texts (ps ++ qs) = texts ps ++ texts qs :=
  List.flatMap_append

theorem contained_append {before : Bytes} {ps qs : List Piece} :
    Contained before (ps ++ qs) ↔ Contained before ps ∧ Contained (before ++ texts ps) qs := by
  induction ps generalizing before with
  | nil =>
      rw [List.nil_append, texts_nil, List.append_nil]
      exact ⟨fun h => ⟨trivial, h⟩, And.right⟩
  | cons p ps ih =>
      rw [List.cons_append, Contained, Contained, ih, texts_cons, List.append_assoc, and_assoc]

/-- What a reader makes of the pieces, where every foreign one is in its place. -/
inductive Reads : State → List Piece → State → Prop
  | nil {st : State} : Reads st [] st
  | code {st st₁ st' : State} {p : Piece} {ps : List Piece} (hrole : p.role = .code)
      (h : run st p.text = st₁) (hps : Reads st₁ ps st') : Reads st (p :: ps) st'
  | name {st' : State} {s : Bytes} {ps : List Piece} (h : Paired 34 s = true)
      (hps : Reads (.quoted 34) ps st') : Reads (.quoted 34) (Piece.name s :: ps) st'
  | commented {st' : State} {s : Bytes} {ps : List Piece} (h : 10 ∉ s)
      (hps : Reads .comment ps st') : Reads .comment (Piece.name s :: ps) st'
  | value {st' : State} {s : Bytes} {ps : List Piece} (h : Paired 39 s = true)
      (hps : Reads (.quoted 39) ps st') : Reads (.quoted 39) (⟨.value, s⟩ :: ps) st'

namespace Reads

variable {st st₁ st' : State} {ps qs : List Piece}

theorem append (h : Reads st ps st₁) (h' : Reads st₁ qs st') : Reads st (ps ++ qs) st' := by
  induction h with
  | nil => exact h'
  | code hrole hrun _ ih => exact .code hrole hrun (ih h')
  | name hs _ ih => exact .name hs (ih h')
  | commented hs _ ih => exact .commented hs (ih h')
  | value hs _ ih => exact .value hs (ih h')

/-- A number is code in code, and in a comment it belongs to the comment. -/
theorem number {n : Int} (hst : st = .code ∨ st = .comment) (h : Reads st ps st') :
    Reads st (Piece.number n :: ps) st' := by
  refine .code rfl ?_ h
  rcases hst with rfl | rfl
  · exact run_decimal n
  · exact run_comment (newline_not_mem_decimal n)

/-- What is proved of a run of pieces, for one more in front. -/
theorem contained_cons {before : Bytes} {p : Piece} (hbefore : run .code before = st)
    (hp : p.Holds before) (hrun : run st p.text = st₁)
    (h : ∀ before, run .code before = st₁ →
      Contained before ps ∧ run .code (before ++ texts ps) = st') :
    Contained before (p :: ps) ∧ run .code (before ++ texts (p :: ps)) = st' := by
  obtain ⟨hps, hend⟩ := h (before ++ p.text) (by rw [run_append, hbefore, hrun])
  refine ⟨⟨hp, hps⟩, ?_⟩
  rw [texts_cons, ← List.append_assoc]
  exact hend

theorem contained (h : Reads st ps st') : ∀ before, run .code before = st →
    Contained before ps ∧ run .code (before ++ texts ps) = st' := by
  induction h with
  | nil =>
      intro before hbefore
      exact ⟨trivial, by rwa [texts_nil, List.append_nil]⟩
  | code hrole hrun _ ih =>
      intro before hbefore
      exact contained_cons hbefore (by rw [Piece.Holds, hrole]; trivial) hrun ih
  | name hs _ ih =>
      intro before hbefore
      have henclosed := enclosed_iff.mpr hs
      exact contained_cons hbefore (.inl (hbefore ▸ henclosed)) henclosed.ends ih
  | commented hs _ ih =>
      intro before hbefore
      exact contained_cons hbefore (.inr ⟨hbefore, hs⟩) (run_comment hs) ih
  | value hs _ ih =>
      intro before hbefore
      have henclosed := enclosed_iff.mpr hs
      exact contained_cons hbefore (show Enclosed 39 _ _ from hbefore ▸ henclosed) henclosed.ends ih

end Reads

/-- The last piece ends its line. -/
def Ended (ps : List Piece) : Prop := ∃ p, ps.getLast? = some p ∧ p.text.getLast? = some 10

theorem Ended.append {ps qs : List Piece} (h : Ended qs) : Ended (ps ++ qs) := by
  obtain ⟨p, hlast, hline⟩ := h
  exact ⟨p, by rw [List.getLast?_append, hlast, Option.some_or], hline⟩

theorem Ended.texts {ps : List Piece} (h : Ended ps) : (texts ps).getLast? = some 10 := by
  obtain ⟨p, hlast, hline⟩ := h
  obtain ⟨qs, rfl⟩ := List.getLast?_eq_some_iff.mp hlast
  rw [texts_append, texts_singleton, List.getLast?_append, hline, Option.some_or]

/-- Between two events nothing is open. -/
def Whole (ps : List Piece) : Prop :=
  ∀ before, Fresh before → Contained before ps ∧ Fresh (before ++ texts ps)

theorem Whole.nil : Whole [] := fun before h =>
  ⟨trivial, by rwa [texts_nil, List.append_nil]⟩

theorem Whole.append {ps qs : List Piece} (h : Whole ps) (h' : Whole qs) : Whole (ps ++ qs) := by
  intro before hbefore
  obtain ⟨hps, hfresh⟩ := h before hbefore
  obtain ⟨hqs, hend⟩ := h' _ hfresh
  rw [texts_append, ← List.append_assoc]
  exact ⟨contained_append.mpr ⟨hps, hqs⟩, hend⟩

theorem Reads.whole {ps : List Piece} (h : Reads .code ps .code) (hline : Ended ps) : Whole ps := by
  intro before hbefore
  refine ⟨(h.contained _ hbefore.code).1, hbefore.append ?_ hline.texts⟩
  exact (h.contained [] rfl).2

/-! ## Statements -/

/-- What streams write for a float: no quotes, and no two dashes. -/
structure FloatText.Plain (F : FloatText) : Prop where
  float32 : ∀ x, State.Plain (F.float32 x)
  float64 : ∀ x, State.Plain (F.float64 x)

namespace SqlWritable

variable {F : FloatText} {blobReader : Option File} {schema : Database} {st st' : State}
  {ps : List Piece}

/-- A token is over, or will be with the next byte. -/
inductive Over : State → Prop
  | code : Over .code
  | dash : Over .dash
  | double : Over (.closing 34)
  | single : Over (.closing 39)

theorem reads_type (h : schema.Labelled) (type : FieldType) :
    ∃ st, Over st ∧ Reads .code (writeType schema type) st := by
  rw [writeType]
  cases Ty.ofTypeId type.typeId with
  | none =>
      simp only
      split
      · exact ⟨_, .code, .code rfl rfl .nil⟩
      · exact ⟨_, .code, .nil⟩
  | some ty =>
      cases ty with
      | reference =>
          exact ⟨_, .double, .code rfl rfl <| .code rfl rfl <|
            .name (h.calm_tableName _).quotes <| .code rfl rfl .nil⟩
      | _ => exact ⟨_, .code, .code rfl rfl .nil⟩

/-- `ALTER TABLE`, from one opened quote to the next. -/
theorem reads_alterTable (h : schema.Labelled) (t : TableId) {behind : String}
    (hbehind : run (.quoted 34) (ascii behind) = .quoted 34) :
    Reads .code [Piece.code "ALTER TABLE \"", tableName schema t, Piece.code behind]
      (.quoted 34) :=
  .code rfl rfl <| .name (h.calm_tableName t).quotes <| .code rfl hbehind .nil

theorem reads_renameField (h : schema.Labelled) (t : TableId) (f : FieldId) :
    Reads .code [Piece.code "ALTER TABLE \"", tableName schema t,
      Piece.code "\" RENAME COLUMN \"", fieldName schema t f, Piece.code "\" TO \""]
      (.quoted 34) :=
  (reads_alterTable h t rfl).append <| .name (h.calm_fieldName t f).quotes <| .code rfl rfl .nil

/-- In code, and in the comment that stands for a blob. -/
theorem reads_update (h : schema.Labelled) (t : TableId) (f : FieldId) :
    Reads .code (writeUpdate schema t f) .code ∧ Reads .comment (writeUpdate schema t f) .comment :=
  ⟨.code rfl rfl <| .name (h.calm_tableName t).quotes <| .code rfl rfl <|
      .name (h.calm_fieldName t f).quotes <| .code rfl rfl .nil,
    .code rfl rfl <| .commented (h.calm_tableName t).line <| .code rfl rfl <|
      .commented (h.calm_fieldName t f).line <| .code rfl rfl .nil⟩

theorem reads_where (hst : Over st) (r : RecordId) : Reads st (writeWhere r) .code := by
  have hfirst : run st (ascii " WHERE \"__id\" = ") = .code := by
    cases hst <;> rfl
  exact .code rfl hfirst <| .number (.inl rfl) <| .code rfl rfl .nil

theorem ended_where (r : RecordId) : Ended (writeWhere r) := ⟨_, rfl, rfl⟩

theorem reads_insertInto (h : schema.Labelled) (t : TableId) (r : RecordId) :
    Reads .code (insertInto schema t r) .code :=
  .code rfl rfl <| .name (h.calm_tableName t).quotes <| .code rfl rfl <| .number (.inl rfl) <|
    .code rfl rfl .nil

theorem whole_insertInto (h : schema.Labelled) (t : TableId) (r : RecordId) :
    Whole (insertInto schema t r) := (reads_insertInto h t r).whole ⟨_, rfl, rfl⟩

theorem whole_deleteFrom (h : schema.Labelled) (t : TableId) (r : RecordId) :
    Whole (deleteFrom schema t r) := by
  refine Reads.whole (Reads.append ?_ (reads_where .double r)) (ended_where r).append
  exact .code rfl rfl <| .name (h.calm_tableName t).quotes <| .code rfl rfl .nil

/-- No digit is a quote. -/
theorem paired_hexDigits (s : Bytes) : Paired 39 (s.flatMap hexDigits) = true := by
  have hdigits : ∀ n : Fin 256, 39 ∉ hexDigits (.ofFin n) := by decide +kernel
  refine paired_of_not_mem fun hmem => ?_
  obtain ⟨c, -, hc⟩ := List.mem_flatMap.mp hmem
  exact hdigits c.toFin hc

theorem reads_sqlString (s : Bytes) : Reads .code (writeSqlString s) (.closing 39) :=
  .code rfl rfl <| .value (paired_hexDigits s) <| .code rfl rfl .nil

/-- Behind a float there may be a dash. -/
theorem reads_value (hF : F.Plain) (ty : Ty) (v : ty.Storage) :
    ∃ st, Over st ∧ Reads .code (writeValue F ty v) st := by
  have hfloat : ∀ {s : Bytes}, State.Plain s → ∃ st, Over st ∧ Reads .code [⟨.code, s⟩] st := by
    intro s hs
    refine ⟨run .code s, ?_, .code rfl rfl .nil⟩
    rcases hs.run_code (.inl rfl) with hrun | hrun
    · rw [hrun]
      exact .code
    · rw [hrun]
      exact .dash
  have hnumber : ∀ n, ∃ st, Over st ∧ Reads .code [Piece.number n] st := fun n =>
    ⟨.code, .code, .number (.inl rfl) .nil⟩
  cases ty with
  | string => exact ⟨_, .single, reads_sqlString v⟩
  | reference =>
      show ∃ st, Over st ∧ Reads .code
        (if (show Int from v) < 0 then [Piece.code "NULL"] else [Piece.number v]) st
      split
      · exact ⟨_, .code, .code rfl rfl .nil⟩
      · exact hnumber v
  | float32 => exact hfloat (hF.float32 v)
  | float64 => exact hfloat (hF.float64 v)
  | blob => exact ⟨_, .double, .code rfl rfl .nil⟩
  | _ => exact hnumber _

theorem whole_update (h : schema.Labelled) (t : TableId) (r : RecordId) (f : FieldId)
    {value : List Piece} (hvalue : ∃ st, Over st ∧ Reads .code value st) :
    Whole (writeUpdate schema t f ++ value ++ writeWhere r) := by
  obtain ⟨st, hst, hvalue⟩ := hvalue
  exact (((reads_update h t f).1.append hvalue).append (reads_where hst r)).whole
    (ended_where r).append

/-- The line for a blob without its data. -/
theorem whole_blob (h : schema.Labelled) (t : TableId) (r : RecordId) (f : FieldId) (b : Blob) :
    Whole (Piece.code "-- " :: writeUpdate schema t f ++ writeValue F .blob b ++ writeWhere r) := by
  have hwhere : Reads .comment (writeWhere r) .code :=
    .code rfl rfl <| .number (.inr rfl) <| .code rfl rfl .nil
  have hvalue : Reads .comment (writeValue F .blob b) .comment := .code rfl rfl .nil
  have hline : Reads .code (Piece.code "-- " :: writeUpdate schema t f) .comment :=
    .code rfl rfl (reads_update h t f).2
  exact ((hline.append hvalue).append hwhere).whole (ended_where r).append

end SqlWritable

/-- What was written is where it has to be, and unless something was thrown nothing is open. -/
structure Written.Sound (w : Written) : Prop where
  contained : ∀ before, Fresh before → Contained before w.pieces
  whole : w.thrown = none → Whole w.pieces

theorem Written.sound_of {ps : List Piece} (h : Whole ps) : (Written.of ps).Sound :=
  ⟨fun before hbefore => (h before hbefore).1, fun _ => h⟩

theorem Written.Sound.andThen {w w' : Written} (h : w.Sound) (h' : w'.Sound) :
    (w.andThen w').Sound := by
  obtain ⟨ps, thrown⟩ := w
  cases thrown with
  | some e => exact h
  | none =>
      have hps : Whole ps := h.whole rfl
      refine ⟨fun before hbefore => ?_, fun hthrown => hps.append (h'.whole hthrown)⟩
      obtain ⟨hcontained, hfresh⟩ := hps before hbefore
      exact contained_append.mpr ⟨hcontained, h'.contained _ hfresh⟩

/-- What an event may say without being read as something else: a new name has its quotes in pairs,
and a text goes on with two dashes behind each newline. -/
def Op.harmless : Op → Bool
  | createTable name => Paired 34 name
  | renameTable _ name => Paired 34 name
  | addField _ name _ => Paired 34 name
  | renameField _ _ name => Paired 34 name
  | custom name => Continued name
  | comment text => Continued text
  | _ => true

namespace SqlWritable

variable {F : FloatText} {blobReader : Option File} {schema : Database}

theorem sound_update (hF : F.Plain) (h : schema.Labelled) (ty : Ty) (t : TableId) (r : RecordId)
    (f : FieldId) (v : ty.Storage) : (update F blobReader schema ty t r f v).Sound := by
  have hplain : ∀ {ty : Ty} (v : ty.Storage),
      (Written.of (writeUpdate schema t f ++ writeValue F ty v ++ writeWhere r)).Sound :=
    fun v => Written.sound_of (whole_update h t r f (reads_value hF _ v))
  cases ty with
  | blob =>
      show (updateBlob F blobReader schema t r f v).Sound
      unfold updateBlob
      split
      · exact Written.sound_of (whole_blob h t r f v)
      · split
        · exact Written.sound_of (whole_update h t r f ⟨_, .single, reads_sqlString _⟩)
        · refine ⟨fun before hbefore => ?_, nofun⟩
          exact ((reads_update h t f).1.contained _ hbefore.code).1
  | string => exact hplain v
  | int32 => exact hplain v
  | int64 => exact hplain v
  | reference => exact hplain v
  | boolean => exact hplain v
  | float32 => exact hplain v
  | float64 => exact hplain v
  | int8 => exact hplain v
  | int16 => exact hplain v

theorem sound_updateVector (hF : F.Plain) (h : schema.Labelled) (ty : Ty) (t : TableId)
    (f : FieldId) (vs : List ty.Storage) (r : RecordId) :
    (updateVector F blobReader schema ty t f r vs).Sound := by
  induction vs generalizing r with
  | nil => exact Written.sound_of .nil
  | cons v vs ih => exact (sound_update hF h ty t r f _).andThen (ih (r + 1))

theorem whole_insertVector (h : schema.Labelled) (t : TableId) (r : RecordId) (size : Nat) :
    Whole (insertVector schema t r size) := by
  induction size generalizing r with
  | zero => exact .nil
  | succ size ih => exact (whole_insertInto h t r).append (ih (r + 1))

theorem whole_deleteVector (h : schema.Labelled) (t : TableId) (r : RecordId) (size : Nat) :
    Whole (deleteVector schema t r size) := by
  induction size with
  | zero => exact .nil
  | succ size ih => exact (whole_deleteFrom h t _).append ih

theorem whole_remark {head : String} {s : Bytes} (hdashes : [45, 45] <+: ascii head)
    (hhead : 10 ∉ ascii head) (hs : Continued s = true) : Whole [Piece.remark head s] := by
  intro before hbefore
  refine ⟨⟨(commented_iff hbefore hdashes hhead).mpr hs, trivial⟩, ?_⟩
  rw [texts_singleton]
  exact hbefore.comment hdashes hhead hs

/-- A statement with one new name, in quotes of the program's. -/
theorem whole_newName {ps qs : List Piece} {name : Bytes} (hps : Reads .code ps (.quoted 34))
    (hname : Paired 34 name = true) (hqs : Reads (.quoted 34) qs .code) (hline : Ended qs) :
    Whole (ps ++ Piece.name name :: qs) := by
  refine (hps.append (.name hname hqs)).whole ?_
  rw [List.append_cons]
  exact hline.append

theorem sound_call (hF : F.Plain) (h : schema.Labelled) {op : Op} (hop : op.harmless = true) :
    (call F blobReader schema op).Sound := by
  have hend : Reads (.quoted 34) [Piece.code "\";\n"] .code := .code rfl rfl .nil
  cases op with
  | createTable name =>
      exact Written.sound_of <| Reads.whole
        (.code rfl rfl <| .name hop <| .code rfl rfl .nil) ⟨_, rfl, rfl⟩
  | dropTable t =>
      exact Written.sound_of <| Reads.whole
        (.code rfl rfl <| .name (h.calm_tableName t).quotes <| .code rfl rfl .nil) ⟨_, rfl, rfl⟩
  | renameTable t name =>
      exact Written.sound_of (whole_newName (reads_alterTable h t rfl) hop hend ⟨_, rfl, rfl⟩)
  | addField t name type =>
      obtain ⟨st, hst, htype⟩ := reads_type h type
      have hline : run st (ascii ";\n") = .code := by cases hst <;> rfl
      have hrest : Reads (.quoted 34)
          (Piece.code "\" " :: writeType schema type ++ [Piece.code ";\n"]) .code :=
        .code rfl rfl (htype.append (.code rfl hline .nil))
      exact Written.sound_of (whole_newName (reads_alterTable h t rfl) hop hrest
        (Ended.append ⟨_, rfl, rfl⟩))
  | dropField t f =>
      exact Written.sound_of <| Reads.whole
        (.code rfl rfl <| .name (h.calm_tableName t).quotes <| .code rfl rfl <|
          .name (h.calm_fieldName t f).quotes hend) ⟨_, rfl, rfl⟩
  | renameField t f name =>
      exact Written.sound_of (whole_newName (reads_renameField h t f) hop hend ⟨_, rfl, rfl⟩)
  | custom name => exact Written.sound_of (whole_remark (by decide) (by decide) hop)
  | comment comment => exact Written.sound_of (whole_remark (by decide) (by decide) hop)
  | timestamp timestamp =>
      exact Written.sound_of (whole_remark (by decide) (by decide)
        (continued_of_not_mem (newline_not_mem_getTimeString timestamp)))
  | validData => exact Written.sound_of <| Reads.whole (.code rfl rfl .nil) ⟨_, rfl, rfl⟩
  | insertInto t r => exact Written.sound_of (whole_insertInto h t r)
  | deleteFrom t r => exact Written.sound_of (whole_deleteFrom h t r)
  | insertVector t r size => exact Written.sound_of (whole_insertVector h t r size)
  | deleteVector t r size => exact Written.sound_of (whole_deleteVector h t r size)
  | update ty t r f v => exact sound_update hF h ty t r f v.val
  | updateVector ty t r f vs => exact sound_updateVector hF h ty t f vs r
  | writeBlob data => exact Written.sound_of .nil

/-- A name in quotes of the program's. -/
theorem paired_of_contained {ps qs : List Piece} {name before : Bytes}
    (hps : Reads .code ps (.quoted 34)) (hbefore : Fresh before)
    (h : Contained before (ps ++ Piece.name name :: qs)) : Paired 34 name = true := by
  have hname := (contained_append.mp h).2.1
  rw [Piece.Holds, (hps.contained _ hbefore.code).2] at hname
  exact enclosed_iff.mp (hname.resolve_right (nofun ∘ And.left))

theorem harmless_of_contained (h : schema.Labelled) {op : Op} {before : Bytes}
    (hbefore : Fresh before) (hop : Contained before (call F blobReader schema op).pieces) :
    op.harmless = true := by
  cases op with
  | createTable name =>
      have hps : Reads .code [Piece.code "CREATE TABLE \""] (.quoted 34) := .code rfl rfl .nil
      exact paired_of_contained hps hbefore hop
  | renameTable t name => exact paired_of_contained (reads_alterTable h t rfl) hbefore hop
  | addField t name type => exact paired_of_contained (reads_alterTable h t rfl) hbefore hop
  | renameField t f name => exact paired_of_contained (reads_renameField h t f) hbefore hop
  | custom name => exact continued_of_commented hop.1
  | comment text => exact continued_of_commented hop.1
  | _ => rfl

end SqlWritable

/-! ## Runs -/

def Event.harmless : Event → Bool
  | .call op => op.harmless
  | _ => true

def Ty.blobs : (ty : Ty) → List ty.Storage → List Blob
  | blob, values => values
  | _, _ => []

/-- The blobs whose data are written. -/
def Op.blobs : Op → List Blob
  | update ty _ _ _ value => ty.blobs [value.val]
  | updateVector ty _ _ _ values => ty.blobs values
  | _ => []

namespace SqlDump

variable (F : FloatText) (blobReader : Option File)

/-- Whether a blob can be read, if its data are asked for. -/
def readable (b : Blob) : Bool :=
  match blobReader with
  | none => true
  | some file => (file.readBlob b (2 ^ 63 - 1)).isOk

/-- The events that are told until the schema refuses one, or a blob cannot be read. -/
def replayed : List Event → Database → List Event
  | [], _ => []
  | .call op :: events, schema =>
      .call op ::
        if op.blobs.all (readable blobReader) then
          match Database.schemaCall op schema with
          | .ok _ schema => replayed events schema
          | .error _ _ => []
        else []
  | e :: events, schema => e :: replayed events schema

/-- The output for a journal with these events. -/
def dump (events : List Event) : List Piece :=
  (after (Event.tellAll (asWritable F blobReader) events) create).out

/-! ### One event -/

def written (schema : Database) : Event → Written
  | .startWriting position => .of (SqlWritable.startWriting position)
  | .endWriting position => .of (SqlWritable.endWriting position)
  | .call op => SqlWritable.call F blobReader schema op

variable {F blobReader}

theorem sound_written (hF : F.Plain) {schema : Database} (h : schema.Labelled) {e : Event}
    (he : e.harmless = true) : (written F blobReader schema e).Sound := by
  cases e with
  | startWriting position =>
      exact Written.sound_of <| Reads.whole
        (.code rfl rfl <| .number (.inr rfl) <| .code rfl rfl .nil) ⟨_, rfl, rfl⟩
  | endWriting position =>
      exact Written.sound_of <| Reads.whole
        (.code rfl rfl <| .number (.inr rfl) <| .code rfl rfl .nil) ⟨_, rfl, rfl⟩
  | call op => exact SqlWritable.sound_call hF h he

theorem contained_written (hF : F.Plain) {schema : Database} (h : schema.Labelled) {e : Event}
    {before : Bytes} (hbefore : Fresh before) :
    Contained before (written F blobReader schema e).pieces ↔ e.harmless = true := by
  refine ⟨fun he => ?_, fun he => (sound_written hF h he).contained before hbefore⟩
  cases e with
  | call op => exact SqlWritable.harmless_of_contained h hbefore he
  | _ => rfl

theorem thrown_andThen {w w' : Written} :
    (w.andThen w').thrown = none ↔ w.thrown = none ∧ w'.thrown = none := by
  obtain ⟨ps, thrown⟩ := w
  cases thrown with
  | none => exact ⟨fun h => ⟨rfl, h⟩, And.right⟩
  | some e => exact ⟨nofun, nofun⟩

theorem thrown_updateBlob (schema : Database) (t : TableId) (r : RecordId) (f : FieldId)
    (b : Blob) : (SqlWritable.updateBlob F blobReader schema t r f b).thrown = none ↔
      readable blobReader b = true := by
  unfold SqlWritable.updateBlob readable
  cases blobReader with
  | none => exact ⟨fun _ => rfl, fun _ => rfl⟩
  | some file =>
      simp only
      cases file.readBlob b (2 ^ 63 - 1) with
      | ok data => exact ⟨fun _ => rfl, fun _ => rfl⟩
      | error e => exact ⟨nofun, nofun⟩

theorem thrown_update (schema : Database) (ty : Ty) (t : TableId) (r : RecordId) (f : FieldId)
    (v : ty.Storage) : (SqlWritable.update F blobReader schema ty t r f v).thrown = none ↔
      (ty.blobs [v]).all (readable blobReader) = true := by
  cases ty with
  | blob =>
      show _ ↔ (readable blobReader v && true) = true
      rw [Bool.and_true]
      exact thrown_updateBlob schema t r f v
  | _ => exact ⟨fun _ => rfl, fun _ => rfl⟩

theorem blobs_cons (ty : Ty) (v : ty.Storage) (vs : List ty.Storage) :
    ty.blobs (v :: vs) = ty.blobs [(ty.toArg v).val] ++ ty.blobs vs := by
  cases ty <;> rfl

theorem thrown_updateVector (schema : Database) (ty : Ty) (t : TableId) (f : FieldId)
    (vs : List ty.Storage) (r : RecordId) :
    (SqlWritable.updateVector F blobReader schema ty t f r vs).thrown = none ↔
      (ty.blobs vs).all (readable blobReader) = true := by
  induction vs generalizing r with
  | nil => cases ty <;> exact ⟨fun _ => rfl, fun _ => rfl⟩
  | cons v vs ih =>
      rw [SqlWritable.updateVector, thrown_andThen, thrown_update, ih (r + 1), blobs_cons ty v vs,
        List.all_append, Bool.and_eq_true]

variable (F blobReader) in
/-- Only blobs make a `SQL_Writable` throw. -/
theorem thrown_call (schema : Database) (op : Op) :
    (SqlWritable.call F blobReader schema op).thrown = none ↔
      op.blobs.all (readable blobReader) = true := by
  cases op with
  | update ty t r f v => exact thrown_update schema ty t r f v.val
  | updateVector ty t r f vs => exact thrown_updateVector schema ty t f vs r
  | _ => exact ⟨fun _ => rfl, fun _ => rfl⟩

theorem write_ok (written : Database → Written) {s : SqlDump}
    (h : (written s.schema).thrown = none) :
    write written s = .ok () { s with out := s.out ++ (written s.schema).pieces } := by
  rw [write]
  simp only [h]

theorem write_error (written : Database → Written) {s : SqlDump} {exn : Exn}
    (h : (written s.schema).thrown = some exn) :
    write written s = .error exn { s with out := s.out ++ (written s.schema).pieces } := by
  rw [write]
  simp only [h]

variable (F blobReader) in
/-- How an event ends: the replay stops there, or goes on from a schema with proper names. -/
theorem tell_cases {s : SqlDump} (h : s.schema.Labelled) (e : Event) :
    (∃ exn s', e.tell (asWritable F blobReader) s = .error exn s' ∧
      s'.out = s.out ++ (written F blobReader s.schema e).pieces ∧
      ∀ events, replayed blobReader (e :: events) s.schema = [e]) ∨
    ∃ schema : Database, schema.Labelled ∧ (written F blobReader s.schema e).thrown = none ∧
      e.tell (asWritable F blobReader) s
        = .ok () ⟨schema, s.out ++ (written F blobReader s.schema e).pieces⟩ ∧
      ∀ events,
        replayed blobReader (e :: events) s.schema = e :: replayed blobReader events schema := by
  cases e with
  | startWriting position => exact .inr ⟨s.schema, h, rfl, rfl, fun _ => rfl⟩
  | endWriting position => exact .inr ⟨s.schema, h, rfl, rfl, fun _ => rfl⟩
  | call op =>
      have hreadable := thrown_call F blobReader s.schema op
      cases hthrown : (SqlWritable.call F blobReader s.schema op).thrown with
      | some exn =>
          have hunreadable : ¬ op.blobs.all (readable blobReader) = true := fun hall => by
            cases hthrown.symm.trans (hreadable.mpr hall)
          refine .inl ⟨exn, _, bind_error (write_error _ hthrown), rfl, fun events => ?_⟩
          rw [replayed, if_neg hunreadable]
      | none =>
          have hwrite := write_ok (SqlWritable.call F blobReader · op) hthrown
          cases hschema : Database.schemaCall op s.schema with
          | ok u schema =>
              refine .inr ⟨schema, (Database.labelled_schemaCall op).ok h hschema, hthrown, ?_,
                fun events => ?_⟩
              · exact (bind_ok hwrite).trans (onPart_ok hschema)
              · rw [replayed, if_pos (hreadable.mp hthrown)]
                simp only [hschema]
          | error exn schema =>
              refine .inl ⟨exn, ⟨schema, _⟩, (bind_ok hwrite).trans (onPart_error hschema), rfl,
                fun events => ?_⟩
              rw [replayed, if_pos (hreadable.mp hthrown)]
              simp only [hschema]

/-! ### All events -/

/-- From the beginning of a line, with proper names in the schema. -/
theorem contained_tellAll (hF : F.Plain) (blobReader : Option File) (events : List Event)
    {s : SqlDump} (h : s.schema.Labelled) : ∃ ps,
      (after (Event.tellAll (asWritable F blobReader) events) s).out = s.out ++ ps ∧
      (Fresh (texts s.out) → (Contained (texts s.out) ps ↔
        ∀ e ∈ replayed blobReader events s.schema, e.harmless = true)) := by
  induction events generalizing s with
  | nil =>
      exact ⟨[], (List.append_nil _).symm, fun _ => ⟨fun _ => nofun, fun _ => trivial⟩⟩
  | cons e events ih =>
      rw [Event.tellAll]
      rcases tell_cases F blobReader h e with
        ⟨exn, s', hrun, hout, hreplayed⟩ | ⟨schema, hschema, hthrown, hrun, hreplayed⟩
      · refine ⟨_, (congrArg out (after_error (bind_error hrun))).trans hout, fun hfresh => ?_⟩
        rw [hreplayed, List.forall_mem_singleton]
        exact contained_written hF h hfresh
      · obtain ⟨ps, hout, hps⟩ :=
          ih (s := ⟨schema, s.out ++ (written F blobReader s.schema e).pieces⟩) hschema
        refine ⟨(written F blobReader s.schema e).pieces ++ ps, ?_, fun hfresh => ?_⟩
        · rw [← List.append_assoc, ← hout, StateExcept.after, bind_ok hrun]
          rfl
        · rw [hreplayed, List.forall_mem_cons, contained_append, contained_written hF h hfresh]
          refine and_congr_right fun he => ?_
          have hwhole := ((sound_written hF h he).whole hthrown _ hfresh).2
          rw [← texts_append] at hwhole ⊢
          exact hps hwhole

/-- Nothing escapes from the dump of a journal if and only if no event of it that is replayed makes
something escape: a new name by a quote that is not doubled, or a comment or a custom by a newline
without two dashes behind it. -/
theorem contained_dump (F : FloatText) (hF : F.Plain) (blobReader : Option File)
    (events : List Event) : Contained [] (dump F blobReader events) ↔
      ∀ e ∈ replayed blobReader events create.schema, e.harmless = true := by
  obtain ⟨ps, hout, hps⟩ := contained_tellAll hF blobReader events
    (s := create) (Database.labelled_create _)
  rw [dump, hout]
  exact hps fresh_nil

/-- A stream that writes 0.5. -/
def halfText : FloatText where
  float32 _ := ascii "0.5"
  float64 _ := ascii "0.5"
  float32_ne_nil _ := by decide
  float64_ne_nil _ := by decide

theorem plain_halfText : halfText.Plain := by
  have hplain : State.Plain (ascii "0.5") := by
    have hfree : ∀ d : UInt8, d ∉ ascii "0.5" → ∀ c ∈ ascii "0.5", c ≠ d := fun d hd c hc he =>
      hd (he ▸ hc)
    exact ⟨fun c hc => ⟨hfree 34 (by decide) c hc, hfree 39 (by decide) c hc⟩,
      fun hdashes => absurd (hdashes.subset List.mem_cons_self) (by decide)⟩
  exact ⟨fun _ => hplain, fun _ => hplain⟩

theorem contained_dump_half : Contained [] (dump halfText none
    [.startWriting 41, .call (.createTable (ascii "t")),
      .call (.addField 1 (ascii "x") (.plain 7)), .call (.comment (ascii "it's\n-- \"half\"")),
      .call (.insertInto 1 0), .call (.update .float64 1 0 1 ⟨0x3fe0000000000000#64, rfl⟩),
      .endWriting 99]) :=
  (contained_dump halfText plain_halfText none _).mpr (by decide)

/-- The second line of a comment is a statement. -/
theorem comment_escapes :
    ¬ Contained [] (dump halfText none [.call (.comment (ascii "x\nDROP TABLE t;"))]) := by
  intro h
  have hline := h.1 (ascii "-- x\n") (ascii "DROP TABLE t;\n") (by decide) (by decide)
  exact absurd hline.dashes (by decide)

/-- Whatever a journal has in it, its dump is that of some events. -/
theorem replayLog_dump (F : FloatText) (blobReader : Option File) (j : Journal) : ∃ events,
    (after (Replay.replayLog (asWritable F blobReader)) ⟨j, create⟩).writable.out
      = dump F blobReader events := by
  have hlistens : (asWritable F blobReader).Listens :=
    ⟨fun _ => rfl, fun _ _ _ _ => rfl, fun _ _ _ _ _ _ => rfl, fun _ _ _ _ _ _ => rfl,
      fun _ _ => rfl⟩
  obtain ⟨events, hevents⟩ := Replay.reports_replayLog hlistens ⟨j, create⟩
  refine ⟨events, ?_⟩
  cases hrun : Replay.replayLog (asWritable F blobReader) ⟨j, create⟩ with
  | ok u t =>
      rw [hrun] at hevents
      rw [dump, after_ok hrun, after_ok hevents]
  | error e t =>
      rw [hrun] at hevents
      rw [dump, after_error hrun, hevents]

end SqlDump

end Joedb
