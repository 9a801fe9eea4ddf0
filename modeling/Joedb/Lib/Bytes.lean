import Mathlib.Algebra.Ring.Int.Defs
import Mathlib.Algebra.Ring.Nat
/-!
# Byte strings as random-access files

A file is the list of its bytes. `pwrite` overwrites a range, extending the
list when the range passes its end, and `slice` reads one. The lemmas say what
a write leaves alone and what a read sees of it; every other statement about
file contents is built from these.

The second half is fixed-width little-endian integers: `leDecode` undoes
`leEncode` modulo `256 ^ n`, and a signed 64-bit reading of eight bytes undoes
the writing of any integer that fits.
-/

namespace ByteFile

abbrev Bytes := List UInt8

/-- Overwrite `bs` at `off`; a gap past the end is filled with zeros. -/
def pwrite (f : Bytes) (off : Nat) (bs : Bytes) : Bytes :=
  (f ++ List.replicate (off - f.length) 0).take off ++ bs
    ++ f.drop (off + bs.length)

/-- The bytes of `[a, b)`, as far as the file has them. -/
def slice (f : Bytes) (a b : Nat) : Bytes := (f.drop a).take (b - a)

theorem length_pwrite (f : Bytes) (off : Nat) (bs : Bytes) :
    (pwrite f off bs).length = max f.length (off + bs.length) := by
  simp only [pwrite, List.length_append, List.length_take, List.length_replicate,
    List.length_drop]
  omega

theorem length_le_pwrite (f : Bytes) (off : Nat) (bs : Bytes) :
    f.length ≤ (pwrite f off bs).length := by
  rw [length_pwrite]; exact Nat.le_max_left _ _

theorem length_slice (f : Bytes) (a b : Nat) :
    (slice f a b).length = min (b - a) (f.length - a) := by
  simp only [slice, List.length_take, List.length_drop]

theorem length_slice_of_le {f : Bytes} {a b : Nat} (hb : b ≤ f.length) :
    (slice f a b).length = b - a := by
  rw [length_slice]; omega

theorem slice_self (f : Bytes) (a : Nat) : slice f a a = [] := by
  simp [slice]

theorem slice_eq_nil {f : Bytes} {a b : Nat} (h : b ≤ a) : slice f a b = [] := by
  have : b - a = 0 := by omega
  simp [slice, this]

theorem slice_append {f : Bytes} {a b c : Nat} (hab : a ≤ b) (hbc : b ≤ c) :
    slice f a b ++ slice f b c = slice f a c := by
  have hc : c - a = (b - a) + (c - b) := by omega
  have hb : f.drop b = (f.drop a).drop (b - a) := by
    rw [List.drop_drop]; congr 1; omega
  simp only [slice, hc, hb]
  rw [List.take_add]

theorem slice_take {f : Bytes} {n a b : Nat} (h : b ≤ n) :
    slice (f.take n) a b = slice f a b := by
  rw [slice, slice, List.drop_take, List.take_take]
  congr 1; omega

/-- Two files that start alike. -/
theorem slice_of_take {f g : Bytes} {n a b : Nat} (h : g.take n = f.take n) (hb : b ≤ n) :
    slice g a b = slice f a b := by
  rw [← slice_take (f := g) hb, h, slice_take hb]

theorem slice_append_left {f : Bytes} {a b : Nat} (hb : b ≤ f.length) (g : Bytes) :
    slice (f ++ g) a b = slice f a b :=
  slice_of_take (List.take_left.trans List.take_length.symm) hb

theorem slice_of_length_le_left {f : Bytes} {a : Nat} (h : f.length ≤ a) (b : Nat) :
    slice f a b = [] := by
  rw [slice, List.drop_eq_nil_of_le h, List.take_nil]

theorem slice_of_length_le_right {f : Bytes} {b : Nat} (h : f.length ≤ b) (a : Nat) :
    slice f a b = f.drop a :=
  List.take_of_length_le (by rw [List.length_drop]; omega)

theorem slice_slice {f : Bytes} {a b i j : Nat} (h : j ≤ b - a) :
    slice (slice f a b) i j = slice f (a + i) (a + j) := by
  rw [slice, slice, slice, List.drop_take, List.drop_drop, List.take_take]
  congr 1; omega

theorem slice_zero_length (f : Bytes) : slice f 0 f.length = f := by
  simp [slice]

theorem getElem?_slice (f : Bytes) (a b i : Nat) :
    (slice f a b)[i]? = if i < b - a then f[a + i]? else none := by
  simp only [slice, List.getElem?_take, List.getElem?_drop]

theorem slice_set (data : Bytes) (a b i : Nat) (c : UInt8) :
    slice (data.set (a + i) c) a b = (slice data a b).set i c := by
  rw [slice, slice, List.drop_set, if_neg (by omega), Nat.add_sub_cancel_left, List.take_set]

/-- The content of a file after a write, byte by byte. -/
theorem getElem?_pwrite {f : Bytes} {off : Nat} (hoff : off ≤ f.length)
    (bs : Bytes) (i : Nat) :
    (pwrite f off bs)[i]? =
      if off ≤ i ∧ i < off + bs.length then bs[i - off]? else f[i]? := by
  have hz : off - f.length = 0 := by omega
  simp only [pwrite, hz, List.replicate_zero, List.append_nil]
  by_cases h1 : i < off
  · rw [List.append_assoc, List.getElem?_append_left (by simp; omega),
      List.getElem?_take, if_pos h1, if_neg (by omega)]
  · by_cases h2 : i < off + bs.length
    · rw [List.append_assoc, List.getElem?_append_right (by simp; omega),
        List.getElem?_append_left (by simp; omega), if_pos (by omega)]
      congr 1
      simp only [List.length_take]; omega
    · rw [List.getElem?_append_right (by simp; omega), List.getElem?_drop,
        if_neg (by omega)]
      congr 1
      simp only [List.length_append, List.length_take]; omega

/-- A range that the write does not meet reads as before. -/
theorem slice_pwrite_of_disjoint {f : Bytes} {off : Nat} {bs : Bytes} {a b : Nat}
    (hoff : off ≤ f.length) (h : b ≤ off ∨ off + bs.length ≤ a) :
    slice (pwrite f off bs) a b = slice f a b := by
  apply List.ext_getElem?
  intro i
  rw [getElem?_slice, getElem?_slice]
  split
  · rw [getElem?_pwrite hoff, if_neg (by omega)]
  · rfl

theorem slice_pwrite_self {f : Bytes} {off : Nat} (hoff : off ≤ f.length)
    (bs : Bytes) : slice (pwrite f off bs) off (off + bs.length) = bs := by
  apply List.ext_getElem?
  intro i
  rw [getElem?_slice]
  split
  · rw [getElem?_pwrite hoff, if_pos (by omega)]
    congr 1; omega
  · rw [List.getElem?_eq_none (by omega)]

theorem take_pwrite {f : Bytes} {off n : Nat} (hoff : off ≤ f.length)
    (hn : n ≤ off) (bs : Bytes) : (pwrite f off bs).take n = f.take n := by
  have := @slice_pwrite_of_disjoint f off bs 0 n hoff (Or.inl hn)
  simpa [slice] using this

/-- A start of the file that the write lies behind, also with a gap. -/
theorem take_pwrite_of_le {f : Bytes} {off n : Nat} (hn : n ≤ off) (hf : n ≤ f.length)
    (bs : Bytes) : (pwrite f off bs).take n = f.take n := by
  have hlen : n ≤ ((f ++ List.replicate (off - f.length) 0).take off).length := by
    simp only [List.length_take, List.length_append, List.length_replicate]
    omega
  rw [pwrite, List.append_assoc, List.take_append_of_le_length hlen, List.take_take,
    Nat.min_eq_left hn, List.take_append_of_le_length hf]

theorem pwrite_nil {f : Bytes} {off : Nat} (hoff : off ≤ f.length) :
    pwrite f off [] = f := by
  have hz : off - f.length = 0 := by omega
  simp [pwrite, hz]

/-- Writing at the end of a file appends. -/
theorem pwrite_length_self (f bs : Bytes) : pwrite f f.length bs = f ++ bs := by
  have h : f.drop (f.length + bs.length) = [] := List.drop_eq_nil_of_le (by omega)
  simp [pwrite, h]

theorem pwrite_singleton {data : Bytes} {off : Nat} (h : off < data.length) (c : UInt8) :
    pwrite data off [c] = data.set off c := by
  apply List.ext_getElem?
  intro i
  rw [getElem?_pwrite (by omega), List.getElem?_set]
  by_cases hi : off = i
  · subst hi
    simp [h]
  · rw [if_neg (by simp only [List.length_singleton]; omega), if_neg hi]

/-- Two writes, the second where the first ended, are one. -/
theorem pwrite_pwrite {f : Bytes} {off : Nat} (hoff : off ≤ f.length)
    (bs cs : Bytes) :
    pwrite (pwrite f off bs) (off + bs.length) cs = pwrite f off (bs ++ cs) := by
  have hoff' : off + bs.length ≤ (pwrite f off bs).length := by
    rw [length_pwrite]; omega
  apply List.ext_getElem?
  intro i
  rw [getElem?_pwrite hoff', getElem?_pwrite hoff, getElem?_pwrite hoff,
    List.length_append]
  by_cases h1 : off + bs.length ≤ i ∧ i < off + bs.length + cs.length
  · rw [if_pos h1, if_pos (by omega), List.getElem?_append_right (by omega)]
    congr 1; omega
  · rw [if_neg h1]
    by_cases h2 : off ≤ i ∧ i < off + bs.length
    · rw [if_pos h2, if_pos (by omega), List.getElem?_append_left (by omega)]
    · rw [if_neg h2, if_neg (by omega)]

/-- The gap before a write past the end is there after the first of two writes. -/
theorem pwrite_pwrite_of_ne_nil (f : Bytes) (off : Nat) (bs cs : Bytes) (h : bs ≠ []) :
    pwrite (pwrite f off bs) (off + bs.length) cs = pwrite f off (bs ++ cs) := by
  have hpos := List.length_pos_iff.mpr h
  have hgap : ∀ ds : Bytes, ds ≠ [] →
      pwrite f off ds = pwrite (f ++ List.replicate (off - f.length) 0) off ds := by
    intro ds hds
    have hds := List.length_pos_iff.mpr hds
    rw [pwrite, pwrite, List.length_append, List.length_replicate,
      show off - (f.length + (off - f.length)) = 0 by omega, List.replicate_zero, List.append_nil]
    congr 1
    rcases Nat.le_total off f.length with hle | hle
    · rw [show off - f.length = 0 by omega, List.replicate_zero, List.append_nil]
    · rw [List.drop_eq_nil_of_le (by omega), List.drop_eq_nil_of_le (by
        rw [List.length_append, List.length_replicate]; omega)]
  rw [hgap bs h, hgap (bs ++ cs) (by simp [h]), pwrite_pwrite (by
    rw [List.length_append, List.length_replicate]; omega)]

theorem prefix_drop_iff_slice {f bs : Bytes} {p : Nat} :
    bs <+: f.drop p ↔ slice f p (p + bs.length) = bs := by
  rw [slice, Nat.add_sub_cancel_left, List.prefix_iff_eq_take]
  exact eq_comm

theorem length_le_of_prefix_drop {f bs : Bytes} {p : Nat} (h : bs <+: f.drop p) :
    bs = [] ∨ p + bs.length ≤ f.length := by
  have := h.length_le
  rw [List.length_drop] at this
  cases bs with
  | nil => exact Or.inl rfl
  | cons b bs => right; simp only [List.length_cons] at this ⊢; omega

theorem prefix_drop_append {f bs cs : Bytes} {p : Nat} :
    bs ++ cs <+: f.drop p ↔ bs <+: f.drop p ∧ cs <+: f.drop (p + bs.length) := by
  constructor
  · rintro ⟨rest, h⟩
    have hd : f.drop (p + bs.length) = cs ++ rest := by
      rw [← List.drop_drop, ← h, List.append_assoc, List.drop_left]
    exact ⟨⟨cs ++ rest, by rw [← List.append_assoc]; exact h⟩, ⟨rest, hd.symm⟩⟩
  · rintro ⟨⟨r₁, h₁⟩, ⟨r₂, h₂⟩⟩
    have hd : f.drop (p + bs.length) = r₁ := by
      rw [← List.drop_drop, ← h₁, List.drop_left]
    exact ⟨r₂, by rw [List.append_assoc, h₂, hd, h₁]⟩

/-! ## Little-endian integers -/

/-- The `n` low bytes of `x`, least significant first. -/
def leEncode : Nat → Nat → Bytes
  | 0, _ => []
  | n + 1, x => UInt8.ofNat x :: leEncode n (x / 256)

def leDecode : Bytes → Nat
  | [] => 0
  | b :: bs => b.toNat + 256 * leDecode bs

@[simp] theorem length_leEncode (n x : Nat) : (leEncode n x).length = n := by
  induction n generalizing x with
  | zero => rfl
  | succ n ih => simp [leEncode, ih]

theorem leDecode_leEncode (n x : Nat) : leDecode (leEncode n x) = x % 256 ^ n := by
  induction n generalizing x with
  | zero => simp [leEncode, leDecode, Nat.mod_one]
  | succ n ih =>
      have hpow : 256 ^ (n + 1) = 256 * 256 ^ n := by
        rw [Nat.pow_succ, Nat.mul_comm]
      rw [leEncode, leDecode, ih, UInt8.toNat_ofNat', hpow, Nat.mod_mul]

theorem leDecode_lt (bs : Bytes) : leDecode bs < 256 ^ bs.length := by
  induction bs with
  | nil => simp [leDecode]
  | cons b bs ih =>
      have hb : b.toNat < 256 := b.toNat_lt
      rw [leDecode, List.length_cons, Nat.pow_succ]
      omega

/-- An `int64_t` as it lies in memory. -/
def encodeInt64 (x : Int) : Bytes := leEncode 8 (x % 2 ^ 64).toNat

def decodeInt64 (bs : Bytes) : Int :=
  if leDecode bs < 2 ^ 63 then leDecode bs else leDecode bs - 2 ^ 64

@[simp] theorem length_encodeInt64 (x : Int) : (encodeInt64 x).length = 8 :=
  length_leEncode _ _

theorem decodeInt64_encodeInt64 {x : Int} (hlo : -(2 ^ 63) ≤ x) (hhi : x < 2 ^ 63) :
    decodeInt64 (encodeInt64 x) = x := by
  have hm : (x % 2 ^ 64).toNat % 256 ^ 8 = (x % 2 ^ 64).toNat :=
    Nat.mod_eq_of_lt (by omega)
  rw [decodeInt64, encodeInt64, leDecode_leEncode, hm]
  split <;> omega

theorem decodeInt64_range {bs : Bytes} (h : bs.length ≤ 8) :
    -(2 ^ 63) ≤ decodeInt64 bs ∧ decodeInt64 bs < 2 ^ 63 := by
  have hlt : leDecode bs < 256 ^ 8 :=
    Nat.lt_of_lt_of_le (leDecode_lt bs) (Nat.pow_le_pow_right (by decide) h)
  rw [decodeInt64]
  split <;> omega

end ByteFile
