import Joedb.Ui.Json

/-!
# Strings as text

`write_string` as the interpreter's dump uses it, and `read_string`, which reads a word of a
command line. The two share one alphabet of escapes, and the reader knows more of it than the
writer uses: hexadecimal digits, and a backslash before anything at all.

The writer decides byte by byte, with two things to remember: the byte before, because of
trigraphs, and how much is left of a character that is copied as it is. Whatever it does with a
byte, the reader undoes at once, without a look at what follows. That is why no suffix matters,
and why a digit behind an octal escape is safe: the reader takes three digits, never more.
-/

namespace Joedb

open ByteFile

/-- `'0' + ((c >> shift) & 7)`. -/
def octalDigit (c shift : UInt8) : UInt8 := 48 + (c >>> shift &&& 7)

def writeOctalCharacter (c : UInt8) : Bytes := [92, octalDigit c 6, octalDigit c 3, octalDigit c 0]

/-- The loop of `write_string`, with the byte before and so many bytes of a character to copy.
The tests of a UTF-8 character are those of JSON. -/
def writeTextGo : Option UInt8 → Nat → Bytes → Bytes
  | _, _, [] => [34]
  | _, left + 1, c :: s => c :: writeTextGo (some c) left s
  | before, 0, c :: s =>
      if c < 0x20 ∨ c = 0x7f then writeOctalCharacter c ++ writeTextGo (some c) 0 s
      else if c = 63 ∧ before = some 63 then 92 :: 63 :: writeTextGo (some c) 0 s
      else if c = 34 then 92 :: 34 :: writeTextGo (some c) 0 s
      else if c = 92 then 92 :: 92 :: writeTextGo (some c) 0 s
      else
        match utf8Size c s with
        | none => writeOctalCharacter c ++ writeTextGo (some c) 0 s
        | some size => c :: writeTextGo (some c) (size - 1) s

/-- `write_string`, not for JSON. -/
def writeString (s : Bytes) : Bytes := 34 :: writeTextGo none 0 s

/-! ## read_string -/

def getHexDigitFromChar (c : UInt8) : UInt8 :=
  if c ≥ 48 ∧ c ≤ 57 then c - 48
  else if c ≥ 97 ∧ c ≤ 102 then 10 + c - 97
  else 0

/-- The string, what is left of the stream, and its `failbit`. -/
structure StringRead where
  result : Bytes
  rest : Bytes
  failbit : Bool
  deriving DecidableEq, Repr

/-- `result.push_back(c)` before what follows. -/
def StringRead.pushed (c : UInt8) (r : StringRead) : StringRead :=
  { r with result := c :: r.result }

/-- The loop of `read_string`, from the byte that `c` holds at its head. An end of the stream
between two characters is a failure inside of quotes only; inside of an escape it always is. -/
def readStringGo (isQuoted : Bool) : Bytes → StringRead
  | [] => ⟨[], [], isQuoted⟩
  | c :: s =>
      if isQuoted ∧ c = 34 ∨ isQuoted = false ∧ c = 32 then ⟨[], s, false⟩
      else if c ≠ 92 then (readStringGo isQuoted s).pushed c
      else
        match s with
        | [] => ⟨[], [], true⟩
        | c :: s =>
            if c = 120 then
              match s with
              | c1 :: c0 :: s =>
                  let n1 := getHexDigitFromChar c1
                  let n0 := getHexDigitFromChar c0
                  (readStringGo isQuoted s).pushed ((n1 <<< 4) ||| n0)
              | _ => ⟨[], [], true⟩
            else if c ≥ 48 ∧ c ≤ 57 then
              match s with
              | c1 :: c0 :: s =>
                  let n2 := c - 48
                  let n1 := c1 - 48
                  let n0 := c0 - 48
                  (readStringGo isQuoted s).pushed ((n2 <<< 6) ||| (n1 <<< 3) ||| n0)
              | _ => ⟨[], [], true⟩
            else (readStringGo isQuoted s).pushed c

/-- `read_string`: the spaces before a word are skipped. -/
def readString : Bytes → StringRead
  | [] => ⟨[], [], true⟩
  | c :: s =>
      if c = 32 then readString s
      else if c = 34 then readStringGo true s
      else readStringGo false (c :: s)

/-! ## How a byte is written -/

/-- A byte that needs no escape: no control character, no quote, no backslash. -/
def IsRaw (c : UInt8) : Prop := 0x20 ≤ c ∧ c ≠ 0x7f ∧ c ≠ 34 ∧ c ≠ 92

/-- The three ways to write a byte. -/
inductive Spelling (c : UInt8) : Bytes → Prop
  | raw (h : IsRaw c) : Spelling c [c]
  | escaped (h : c = 63 ∨ c = 34 ∨ c = 92) : Spelling c [92, c]
  | octal : Spelling c (writeOctalCharacter c)

theorem octalDigit_range (c shift : UInt8) : 48 ≤ octalDigit c shift ∧ octalDigit c shift ≤ 55 := by
  have hall : ∀ n : Fin 256, 48 ≤ 48 + (UInt8.ofFin n &&& 7) ∧ 48 + (UInt8.ofFin n &&& 7) ≤ 55 := by
    decide +kernel
  exact hall (c >>> shift).toFin

/-- The three digits together are the byte. -/
theorem octalDigits_eq (c : UInt8) :
    ((octalDigit c 6 - 48) <<< 6 ||| (octalDigit c 3 - 48) <<< 3 |||
      (octalDigit c 0 - 48)) = c := by
  have hall : ∀ n : Fin 256, ((octalDigit (.ofFin n) 6 - 48) <<< 6 |||
      (octalDigit (.ofFin n) 3 - 48) <<< 3 ||| (octalDigit (.ofFin n) 0 - 48)) = .ofFin n := by
    decide +kernel
  exact hall c.toFin

/-- The reader undoes each of them, whatever follows. -/
theorem Spelling.read {c : UInt8} {written : Bytes} (h : Spelling c written) (s : Bytes) :
    readStringGo true (written ++ s) = (readStringGo true s).pushed c := by
  cases h with
  | raw h =>
      obtain ⟨-, -, hq, hb⟩ := h
      rw [List.cons_append, List.nil_append, readStringGo.eq_def]
      simp [hq, hb]
  | escaped h =>
      have hx : c ≠ 120 := by rcases h with rfl | rfl | rfl <;> decide
      have hd : ¬(c ≥ 48 ∧ c ≤ 57) := by rcases h with rfl | rfl | rfl <;> decide
      rw [List.cons_append, List.cons_append, List.nil_append, readStringGo.eq_def]
      simp [hx, hd]
  | octal =>
      -- the first digit is one for the reader, and no `x`
      obtain ⟨hlow, hhigh⟩ := octalDigit_range c 6
      have hx : octalDigit c 6 ≠ 120 := fun he => absurd (he ▸ hhigh) (by decide)
      have hdigit : octalDigit c 6 ≤ 57 := UInt8.le_trans hhigh (by decide)
      rw [writeOctalCharacter, List.cons_append, readStringGo.eq_def]
      simp [hx, hlow, hdigit, octalDigits_eq]

theorem Spelling.printable {c : UInt8} {written : Bytes} (h : Spelling c written) :
    ∀ b ∈ written, 0x20 ≤ b ∧ b ≠ 0x7f := by
  cases h with
  | raw h =>
      intro b hb
      rw [List.mem_singleton.mp hb]
      exact ⟨h.1, h.2.1⟩
  | escaped h =>
      have hc : 0x20 ≤ c ∧ c ≠ 0x7f := by rcases h with rfl | rfl | rfl <;> decide
      simp only [List.forall_mem_cons]
      exact ⟨⟨by decide, by decide⟩, hc, nofun⟩
  | octal =>
      have hdigit : ∀ shift, 0x20 ≤ octalDigit c shift ∧ octalDigit c shift ≠ 0x7f := fun shift =>
        ⟨UInt8.le_trans (by decide) (octalDigit_range c shift).1,
          fun he => absurd (he ▸ (octalDigit_range c shift).2) (by decide)⟩
      simp only [writeOctalCharacter, List.forall_mem_cons]
      exact ⟨⟨by decide, by decide⟩, hdigit 6, hdigit 3, hdigit 0, nofun⟩

theorem isRaw_of_isContinuation {c : UInt8} (h : isContinuation c = true) : IsRaw c := by
  have hall : ∀ n : Fin 256, isContinuation (.ofFin n) = true →
      (0x20 ≤ UInt8.ofFin n ∧ UInt8.ofFin n ≠ 0x7f ∧ UInt8.ofFin n ≠ 34 ∧ UInt8.ofFin n ≠ 92) := by
    decide +kernel
  exact hall c.toFin h

/-- What is left to copy is there, and needs no escape. -/
def Copying (left : Nat) (s : Bytes) : Prop := left ≤ s.length ∧ ∀ b ∈ s.take left, IsRaw b

theorem copying_zero (s : Bytes) : Copying 0 s := by simp [Copying]

theorem Copying.tail {left : Nat} {c : UInt8} {s : Bytes} (h : Copying (left + 1) (c :: s)) :
    IsRaw c ∧ Copying left s := by
  refine ⟨h.2 c (by simp), ?_, fun b hb => h.2 b ?_⟩
  · have := h.1
    simpa using this
  · rw [List.take_succ_cons]
    exact List.mem_cons_of_mem c hb

/-- The tests of a UTF-8 character look at all the bytes that are copied because of them. -/
theorem utf8Size_copying {c : UInt8} {s : Bytes} {size : Nat} (h : utf8Size c s = some size) :
    Copying (size - 1) s := by
  simp only [utf8Size] at h
  split at h
  · next h2 =>
      obtain ⟨-, -, hlen, h₁⟩ := h2
      cases h
      obtain ⟨b₁, s, rfl⟩ := List.exists_cons_of_length_pos hlen
      simpa [Copying] using isRaw_of_isContinuation h₁
  · split at h
    · next h3 =>
        obtain ⟨-, hlen, -, -, h₁, h₂⟩ := h3
        cases h
        match s, hlen with
        | b₁ :: b₂ :: s, _ =>
            simpa [Copying] using ⟨isRaw_of_isContinuation h₁, isRaw_of_isContinuation h₂⟩
    · split at h
      · next h4 =>
          obtain ⟨-, -, hlen, -, -, h₁, h₂, h₃⟩ := h4
          cases h
          match s, hlen with
          | b₁ :: b₂ :: b₃ :: s, _ =>
              simpa [Copying] using ⟨isRaw_of_isContinuation h₁, isRaw_of_isContinuation h₂,
                isRaw_of_isContinuation h₃⟩
      · split at h
        · cases h
        · cases h
          exact copying_zero s

/-- One round of the loop, or one byte of a character that is copied. -/
theorem writeTextGo_cons {left : Nat} {c : UInt8} {s : Bytes} (before : Option UInt8)
    (hcopy : Copying left (c :: s)) : ∃ written left', Spelling c written ∧ Copying left' s ∧
      writeTextGo before left (c :: s) = written ++ writeTextGo (some c) left' s := by
  cases left with
  | succ left => exact ⟨[c], left, .raw hcopy.tail.1, hcopy.tail.2, by rw [writeTextGo]; rfl⟩
  | zero =>
      rw [writeTextGo]
      split
      · exact ⟨_, 0, .octal, copying_zero s, rfl⟩
      · next hcontrol =>
          split
          · next h => exact ⟨[92, c], 0, .escaped (.inl h.1), copying_zero s, by rw [h.1]; rfl⟩
          · split
            · next h => exact ⟨[92, c], 0, .escaped (.inr (.inl h)), copying_zero s, by rw [h]; rfl⟩
            · next hq =>
                split
                · next h =>
                    exact ⟨[92, c], 0, .escaped (.inr (.inr h)), copying_zero s, by rw [h]; rfl⟩
                · next hb =>
                    split
                    · exact ⟨_, 0, .octal, copying_zero s, rfl⟩
                    · next size hsize =>
                        have hraw : IsRaw c := by
                          rw [not_or, UInt8.not_lt] at hcontrol
                          exact ⟨hcontrol.1, hcontrol.2, hq, hb⟩
                        exact ⟨[c], size - 1, .raw hraw, utf8Size_copying hsize, rfl⟩

/-! ## The round trip -/

@[simp] theorem writeTextGo_nil (before : Option UInt8) (left : Nat) :
    writeTextGo before left [] = [34] := by
  cases left <;> rfl

theorem readStringGo_writeTextGo (s suffix : Bytes) : ∀ before left, Copying left s →
    readStringGo true (writeTextGo before left s ++ suffix) = ⟨s, suffix, false⟩ := by
  induction s with
  | nil =>
      intro before left _
      rw [writeTextGo_nil, List.cons_append, List.nil_append, readStringGo.eq_def]
      rfl
  | cons c s ih =>
      intro before left hcopy
      obtain ⟨written, left', hc, hcopy', heq⟩ := writeTextGo_cons before hcopy
      rw [heq, List.append_assoc, hc.read, ih _ _ hcopy']
      rfl

theorem writeTextGo_printable (s : Bytes) : ∀ before left, Copying left s →
    ∀ b ∈ writeTextGo before left s, 0x20 ≤ b ∧ b ≠ 0x7f := by
  induction s with
  | nil =>
      intro before left _ b hb
      rw [writeTextGo_nil] at hb
      rw [List.mem_singleton.mp hb]
      decide
  | cons c s ih =>
      intro before left hcopy b hb
      obtain ⟨written, left', hc, hcopy', heq⟩ := writeTextGo_cons before hcopy
      rw [heq] at hb
      rcases List.mem_append.mp hb with hb | hb
      · exact hc.printable b hb
      · exact ih _ _ hcopy' b hb

/-- What is written reads back, and leaves alone what follows it; and it fits on a line. -/
theorem readString_writeString (s suffix : Bytes) :
    readString (writeString s ++ suffix) = ⟨s, suffix, false⟩ ∧
      ∀ b ∈ writeString s, 0x20 ≤ b ∧ b ≠ 0x7f := by
  constructor
  · have hgo := readStringGo_writeTextGo s suffix none 0 (copying_zero s)
    rw [writeString, List.cons_append, readString]
    simpa using hgo
  · intro b hb
    rcases List.mem_cons.mp hb with rfl | hb
    · decide
    · exact writeTextGo_printable s none 0 (copying_zero s) b hb

/-- A digit after an octal escape, a question mark after another, and a character whose last
byte is missing. -/
example : writeString [7, 49, 63, 63, 0xe2, 0x82] =
    ascii "\"\\0071?\\?\\342\\202\"" := by decide +kernel

end Joedb
