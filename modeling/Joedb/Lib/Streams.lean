import Joedb.Lib.Bytes
import Mathlib.Data.List.DropRight

/-!
# Formatted input

What `std::istream` does with a line of text, in the "C" locale. A word ends at white space, and a
number at the first byte that cannot belong to it. Neither looks at what comes behind, so a text
that was composed of words, numbers and single spaces is taken apart piece by piece, whatever the
pieces behind are. `Separated` is what a piece needs of what follows.

A failed extraction gives the number that is nearest, or zero, and sets `failbit`, and everything
behind it fails as well. There is no `eofbit`: a word or a number has seen the end of the stream
when it leaves nothing, and that is the only place where it is asked for.
-/

namespace Streams

open ByteFile

/-- `isspace`. -/
def isSpace (c : UInt8) : Bool := c = 32 ∨ (9 ≤ c ∧ c ≤ 13)

/-- `isdigit`. -/
def isDigit (c : UInt8) : Bool := 48 ≤ c ∧ c ≤ 57

/-- What is left of a stream, and its `failbit`. -/
structure Input where
  rest : Bytes
  failbit : Bool
  deriving DecidableEq, Repr

namespace Input

/-- `good`, behind a word or a number. -/
def good (i : Input) : Bool := !i.failbit && !i.rest.isEmpty

/-- `>>` of a string. -/
def readWord (i : Input) : Bytes × Input :=
  if i.failbit then ([], i)
  else
    let s := i.rest.dropWhile isSpace
    if s = [] then ([], ⟨[], true⟩)
    else (s.takeWhile (!isSpace ·), ⟨s.dropWhile (!isSpace ·), false⟩)

/-- The sign of a number: whether it is negative, and what is behind. -/
def readSign : Bytes → Bool × Bytes
  | [] => (false, [])
  | c :: s => if c = 45 then (true, s) else if c = 43 then (false, s) else (false, c :: s)

/-- `strtoull`, for digits. -/
def digitsValue (ds : Bytes) : Nat := ds.foldl (fun n d => 10 * n + (d.toNat - 48)) 0

/-- What a number is read from: its sign, its value, and what is behind it. None if there are no
digits. -/
def readNumeral (s : Bytes) : Option (Bool × Nat) × Bytes :=
  let (negative, s) := readSign (s.dropWhile isSpace)
  let ds := s.takeWhile isDigit
  (if ds = [] then none else some (negative, digitsValue ds), s.dropWhile isDigit)

/-- `>>` of an integer with the range from `low` to `high`. -/
def readInt (low high : Int) (i : Input) : Int × Input :=
  if i.failbit then (0, i)
  else
    match readNumeral i.rest with
    | (none, s) => (0, ⟨s, true⟩)
    | (some (negative, n), s) =>
        let value : Int := if negative then -n else n
        if value < low then (low, ⟨s, true⟩)
        else if value > high then (high, ⟨s, true⟩)
        else (value, ⟨s, false⟩)

/-- `>>` of an unsigned integer of so many bits. A negative number is not out of range. -/
def readUnsigned (bits : Nat) (i : Input) : Nat × Input :=
  if i.failbit then (0, i)
  else
    match readNumeral i.rest with
    | (none, s) => (0, ⟨s, true⟩)
    | (some (negative, n), s) =>
        if n ≥ 2 ^ bits then (2 ^ bits - 1, ⟨s, true⟩)
        else (if negative then (2 ^ bits - n) % 2 ^ bits else n, ⟨s, false⟩)

/-- `ignore(1, delimiter)`: a byte is skipped, whatever it is. -/
def ignoreOne (i : Input) : Input :=
  if i.failbit then i
  else
    match i.rest with
    | [] => ⟨[], true⟩
    | _ :: s => ⟨s, false⟩

end Input

/-- The lines that `getline` gives. What is behind the last newline is a line if there is
something. -/
def getlines : Bytes → List Bytes
  | [] => []
  | c :: s =>
      if c = 10 then [] :: getlines s
      else
        match getlines s with
        | [] => [[c]]
        | line :: lines => (c :: line) :: lines

/-- The white space at the end of a line is removed. -/
def stripped (line : Bytes) : Bytes := line.rdropWhile isSpace

/-! ## Pieces of a line -/

/-- What belongs to a piece is over. -/
def Stops (p : UInt8 → Bool) (s : Bytes) : Prop := ∀ c ∈ s.head?, p c = false

theorem takeWhile_piece {p : UInt8 → Bool} {w s : Bytes} (hw : ∀ c ∈ w, p c = true)
    (hs : Stops p s) : (w ++ s).takeWhile p = w := by
  rw [List.takeWhile_append_of_pos hw]
  cases s with
  | nil => exact List.append_nil w
  | cons c s => rw [List.takeWhile_cons_of_neg (by simp [hs c rfl]), List.append_nil]

theorem dropWhile_piece {p : UInt8 → Bool} {w s : Bytes} (hw : ∀ c ∈ w, p c = true)
    (hs : Stops p s) : (w ++ s).dropWhile p = s := by
  rw [List.dropWhile_append_of_pos hw]
  cases s with
  | nil => rfl
  | cons c s => rw [List.dropWhile_cons_of_neg (by simp [hs c rfl])]

/-- Where any piece may end: at the end of the line, or at a space. -/
def Separated (s : Bytes) : Prop := s = [] ∨ ∃ t, s = 32 :: t

theorem separated_nil : Separated [] := .inl rfl

theorem separated_cons (s : Bytes) : Separated (32 :: s) := .inr ⟨s, rfl⟩

theorem Separated.stops {p : UInt8 → Bool} (hp : p 32 = false) {s : Bytes} (h : Separated s) :
    Stops p s := by
  rcases h with rfl | ⟨t, rfl⟩
  · intro c hc
    cases hc
  · intro c hc
    rwa [← Option.some.inj hc]

/-- It is a word, and not the empty one. -/
structure IsWord (w : Bytes) : Prop where
  ne_nil : w ≠ []
  solid : ∀ c ∈ w, isSpace c = false

instance (w : Bytes) : Decidable (IsWord w) :=
  have := List.decidableBAll (fun c => isSpace c = false) w
  decidable_of_iff (w ≠ [] ∧ ∀ c ∈ w, isSpace c = false)
    ⟨fun h => ⟨h.1, h.2⟩, fun h => ⟨h.ne_nil, h.solid⟩⟩

/-- Nothing is skipped before a word. -/
theorem IsWord.dropWhile {w : Bytes} (h : IsWord w) (s : Bytes) :
    (w ++ s).dropWhile isSpace = w ++ s := by
  obtain ⟨hne, hsolid⟩ := h
  obtain ⟨c, w, rfl⟩ := List.exists_cons_of_ne_nil hne
  rw [List.cons_append, List.dropWhile_cons_of_neg (by simp [hsolid c List.mem_cons_self])]

theorem dropWhile_space (s : Bytes) : (32 :: s).dropWhile isSpace = s.dropWhile isSpace :=
  List.dropWhile_cons_of_pos rfl

namespace Input

theorem readWord_space (s : Bytes) : readWord ⟨32 :: s, false⟩ = readWord ⟨s, false⟩ := by
  simp only [readWord, dropWhile_space, Bool.false_eq_true, if_false]

theorem readWord_piece {w s : Bytes} (hw : IsWord w) (hs : Separated s) :
    readWord ⟨w ++ s, false⟩ = (w, ⟨s, false⟩) := by
  have hsolid : ∀ c ∈ w, (!isSpace c) = true := fun c hc => by simp [hw.solid c hc]
  have hne : w ++ s ≠ [] := fun h => hw.ne_nil (List.append_eq_nil_iff.mp h).1
  simp only [readWord, Bool.false_eq_true, if_false, hw.dropWhile, hne]
  rw [takeWhile_piece hsolid (hs.stops rfl), dropWhile_piece hsolid (hs.stops rfl)]

/-- Whatever a word is read from, there is no white space in it. -/
theorem readWord_solid (i : Input) : ∀ c ∈ (readWord i).1, isSpace c = false := by
  intro c hc
  rw [readWord] at hc
  split at hc
  · exact absurd hc List.not_mem_nil
  · simp only at hc
    split at hc
    · exact absurd hc List.not_mem_nil
    · have hsolid := List.mem_takeWhile_imp (p := fun c => !isSpace c) hc
      simpa using hsolid

/-! ## Numbers -/

/-- The digits of a number. -/
structure IsNumeral (ds : Bytes) (n : Nat) : Prop where
  ne_nil : ds ≠ []
  digits : ∀ c ∈ ds, isDigit c = true
  value : digitsValue ds = n

theorem not_isSpace_of_isDigit {c : UInt8} (h : isDigit c = true) : isSpace c = false := by
  have hall : ∀ n : Fin 256, isDigit (.ofFin n) = true → isSpace (.ofFin n) = false := by
    decide +kernel
  exact hall c.toFin h

theorem IsNumeral.isWord {ds : Bytes} {n : Nat} (h : IsNumeral ds n) : IsWord ds :=
  ⟨h.ne_nil, fun c hc => not_isSpace_of_isDigit (h.digits c hc)⟩

theorem IsNumeral.readSign {ds : Bytes} {n : Nat} (h : IsNumeral ds n) (s : Bytes) :
    readSign (ds ++ s) = (false, ds ++ s) := by
  obtain ⟨hne, hdigits, -⟩ := h
  obtain ⟨c, t, rfl⟩ := List.exists_cons_of_ne_nil hne
  have hc := hdigits c List.mem_cons_self
  have hminus : c ≠ 45 := fun he => absurd (he ▸ hc) (by decide)
  have hplus : c ≠ 43 := fun he => absurd (he ▸ hc) (by decide)
  rw [List.cons_append, Input.readSign, if_neg hminus, if_neg hplus]

/-- A number is read from what is written for it, with or without a minus before it. -/
theorem readNumeral_piece {ds s : Bytes} {n : Nat} (h : IsNumeral ds n) (hs : Stops isDigit s) :
    readNumeral (ds ++ s) = (some (false, n), s) ∧
      readNumeral (45 :: (ds ++ s)) = (some (true, n), s) := by
  have htake := takeWhile_piece h.digits hs
  have hdrop := dropWhile_piece h.digits hs
  constructor
  · simp only [readNumeral, h.isWord.dropWhile, h.readSign, htake, hdrop, h.ne_nil, if_false,
      h.value]
  · have hminus : (45 :: (ds ++ s)).dropWhile isSpace = 45 :: (ds ++ s) :=
      List.dropWhile_cons_of_neg (by decide)
    have hsign : Input.readSign (45 :: (ds ++ s)) = (true, ds ++ s) := by
      rw [Input.readSign, if_pos rfl]
    simp only [readNumeral, hminus, hsign, htake, hdrop, h.ne_nil, if_false, h.value]

theorem readNumeral_space (s : Bytes) : readNumeral (32 :: s) = readNumeral s := by
  simp only [readNumeral, dropWhile_space]

/-- `operator<<` of a number. -/
inductive Writes (written : Bytes) (n : Int) : Prop
  | positive (h : IsNumeral written n.toNat) (hn : 0 ≤ n)
  | negative (ds : Bytes) (h : IsNumeral ds (-n).toNat) (hn : n < 0) (hw : written = 45 :: ds)

theorem Writes.isWord {written : Bytes} {n : Int} (h : Writes written n) : IsWord written := by
  cases h with
  | positive h => exact h.isWord
  | negative ds h hn hw =>
      subst hw
      refine ⟨List.cons_ne_nil _ _, fun c hc => ?_⟩
      rcases List.mem_cons.mp hc with rfl | hc
      · rfl
      · exact h.isWord.solid c hc

theorem readInt_space (low high : Int) (s : Bytes) :
    readInt low high ⟨32 :: s, false⟩ = readInt low high ⟨s, false⟩ := by
  simp only [readInt, readNumeral_space, Bool.false_eq_true, if_false]

theorem readInt_piece {written s : Bytes} {n low high : Int} (h : Writes written n)
    (hs : Stops isDigit s) (hlow : low ≤ n) (hhigh : n ≤ high) :
    readInt low high ⟨written ++ s, false⟩ = (n, ⟨s, false⟩) := by
  cases h with
  | positive h hn =>
      have hvalue : ((n.toNat : Nat) : Int) = n := Int.toNat_of_nonneg hn
      simp only [readInt, Bool.false_eq_true, if_false, (readNumeral_piece h hs).1, hvalue,
        Int.not_lt.mpr hlow, Int.not_lt.mpr hhigh]
  | negative ds h hn hw =>
      have hvalue : -(((-n).toNat : Nat) : Int) = n := by omega
      simp only [readInt, Bool.false_eq_true, if_false, if_true, hw, List.cons_append,
        (readNumeral_piece h hs).2, hvalue, Int.not_lt.mpr hlow, Int.not_lt.mpr hhigh]

theorem readUnsigned_space (bits : Nat) (s : Bytes) :
    readUnsigned bits ⟨32 :: s, false⟩ = readUnsigned bits ⟨s, false⟩ := by
  simp only [readUnsigned, readNumeral_space, Bool.false_eq_true, if_false]

theorem readUnsigned_piece {written s : Bytes} {n bits : Nat} (h : Writes written (n : Int))
    (hs : Stops isDigit s) (hn : n < 2 ^ bits) :
    readUnsigned bits ⟨written ++ s, false⟩ = (n, ⟨s, false⟩) := by
  cases h with
  | positive h =>
      rw [Int.toNat_natCast] at h
      simp only [readUnsigned, Bool.false_eq_true, if_false, (readNumeral_piece h hs).1,
        Nat.not_le.mpr hn]
  | negative ds h hneg => omega

end Input

/-! ## Lines -/

theorem getlines_append {line : Bytes} (h : 10 ∉ line) (s : Bytes) :
    getlines (line ++ 10 :: s) = line :: getlines s := by
  induction line with
  | nil => rw [List.nil_append, getlines, if_pos rfl]
  | cons c line ih =>
      rw [List.mem_cons, not_or] at h
      rw [List.cons_append, getlines, if_neg fun he => h.1 he.symm, ih h.2]

theorem stripped_of_last {line : Bytes} {c : UInt8} (h : isSpace c = false) :
    stripped (line ++ [c]) = line ++ [c] := List.rdropWhile_concat_neg _ _ _ (by simp [h])

/-! ## Lines of words -/

/-- The words behind another one. -/
def spaced (ws : List Bytes) : Bytes := ws.flatMap (32 :: ·)

/-- The words of a line, with one space between them. -/
def unwords : List Bytes → Bytes
  | [] => []
  | w :: ws => w ++ spaced ws

theorem unwords_cons (w : Bytes) (ws : List Bytes) : unwords (w :: ws) = w ++ spaced ws := rfl

theorem separated_spaced (ws : List Bytes) : Separated (spaced ws) := by
  cases ws with
  | nil => exact separated_nil
  | cons w ws => exact separated_cons _

theorem Input.readWord_unwords {w : Bytes} (hw : IsWord w) (ws : List Bytes) :
    Input.readWord ⟨unwords (w :: ws), false⟩ = (w, ⟨spaced ws, false⟩) :=
  Input.readWord_piece hw (separated_spaced ws)

/-- A line without newlines that ends with the end of a word. -/
def Solid (w : Bytes) : Prop := 10 ∉ w ∧ ∃ t c, w = t ++ [c] ∧ isSpace c = false

theorem IsWord.solid_line {w : Bytes} (h : IsWord w) : Solid w := by
  obtain ⟨t, c, rfl⟩ := List.eq_nil_or_concat' w |>.resolve_left h.ne_nil
  exact ⟨fun hmem => absurd (h.solid 10 hmem) (by decide), t, c, rfl,
    h.solid c (List.mem_append_right _ List.mem_cons_self)⟩

theorem newline_not_mem_unwords {ws : List Bytes} (h : ∀ w ∈ ws, 10 ∉ w) : 10 ∉ unwords ws := by
  cases ws with
  | nil => exact List.not_mem_nil
  | cons w ws =>
      rw [unwords_cons, List.mem_append, not_or]
      refine ⟨h w List.mem_cons_self, fun hmem => ?_⟩
      obtain ⟨v, hv, hmem⟩ := List.mem_flatMap.mp hmem
      rcases List.mem_cons.mp hmem with heq | hmem
      · exact absurd heq (by decide)
      · exact h v (List.mem_cons_of_mem _ hv) hmem

theorem unwords_concat (ws : List Bytes) (w : Bytes) :
    ∃ t, unwords (ws ++ [w]) = t ++ w := by
  cases ws with
  | nil => exact ⟨[], List.append_nil w⟩
  | cons v ws =>
      refine ⟨v ++ spaced ws ++ [32], ?_⟩
      rw [List.cons_append, unwords_cons, spaced, List.flatMap_append, ← spaced,
        List.flatMap_singleton, List.append_assoc, List.append_assoc, List.singleton_append]

/-- So are all words of a line. -/
def Solids (ws : List Bytes) : Prop := ∀ w ∈ ws, Solid w

theorem Solids.nil : Solids [] := List.forall_mem_nil _

theorem Solids.cons {w : Bytes} {ws : List Bytes} (hw : Solid w) (hws : Solids ws) :
    Solids (w :: ws) := List.forall_mem_cons.mpr ⟨hw, hws⟩

theorem Solids.unwords {ws : List Bytes} (h : Solids ws) (hne : ws ≠ []) :
    Solid (unwords ws) := by
  refine ⟨newline_not_mem_unwords fun w hw => (h w hw).1, ?_⟩
  obtain ⟨vs, w, rfl⟩ := List.eq_nil_or_concat' ws |>.resolve_left hne
  obtain ⟨-, t, c, hlast, hc⟩ := h w (List.mem_append_right _ List.mem_cons_self)
  obtain ⟨u, hu⟩ := unwords_concat vs w
  exact ⟨u ++ t, c, by rw [hu, hlast, List.append_assoc], hc⟩

theorem Solid.stripped {line : Bytes} (h : Solid line) : stripped line = line := by
  obtain ⟨-, t, c, rfl, hc⟩ := h
  exact stripped_of_last hc

/-- It is read back, whatever follows, and may end a line. -/
structure ReadsBack {α : Type} (read : Input → α × Input) (written : Bytes) (x : α) : Prop where
  solid : Solid written
  read : ∀ s, Separated s → read ⟨32 :: (written ++ s), false⟩ = (x, ⟨s, false⟩)

namespace Input

theorem readsBack_word {w : Bytes} (hw : IsWord w) : ReadsBack readWord w w where
  solid := hw.solid_line
  read s hs := by
    rw [readWord_space]
    exact readWord_piece hw hs

theorem Writes.readsBack {written : Bytes} {n low high : Int} (h : Writes written n)
    (hlow : low ≤ n) (hhigh : n ≤ high) : ReadsBack (readInt low high) written n where
  solid := h.isWord.solid_line
  read s hs := by
    rw [readInt_space]
    exact readInt_piece h (hs.stops rfl) hlow hhigh

theorem Writes.readsBack_unsigned {written : Bytes} {n bits : Nat} (h : Writes written (n : Int))
    (hn : n < 2 ^ bits) : ReadsBack (readUnsigned bits) written n where
  solid := h.isWord.solid_line
  read s hs := by
    rw [readUnsigned_space]
    exact readUnsigned_piece h (hs.stops rfl) hn

end Input

/-- A word of a line, with the others behind it. -/
theorem ReadsBack.next {α : Type} {read : Input → α × Input} {w : Bytes} {x : α}
    (h : ReadsBack read w x) (ws : List Bytes) :
    read ⟨spaced (w :: ws), false⟩ = (x, ⟨spaced ws, false⟩) := h.read _ (separated_spaced ws)

end Streams
