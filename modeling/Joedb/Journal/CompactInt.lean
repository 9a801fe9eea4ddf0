import Joedb.Lib.Bytes

/-!
# Compact integers

`Buffer::compact_write` packs the number of extra bytes into the three high
bits of the first byte and the top of the value into the five low ones; the
rest of the value follows, most significant byte first. Up to 61 bits fit.

The reader here is the fold over the extra bytes, without the buffer the bytes
come from: `FileBuffer.lean` reads them one by one, along two paths.
-/

namespace Joedb

open ByteFile

/-- The `k` low bytes of `value`, most significant first. -/
def bigEndian (value : Nat) : Nat → Bytes
  | 0 => []
  | k + 1 => UInt8.ofNat (value >>> (8 * k)) :: bigEndian value k

/-- The loop that looks for the number of extra bytes. -/
def extraBytes (value : Nat) : Nat → Nat → Nat
  | 0, extra => extra
  | fuel + 1, extra =>
      if extra < 7 ∧ 0x20 ≤ value >>> (8 * extra) then
        extraBytes value fuel (extra + 1)
      else extra

def compactWrite (x : Int) : Bytes :=
  if x < 0x20 then
    if x < 0 then [0] else [UInt8.ofNat x.toNat]
  else if x < 0x20 * 0x100 then
    [UInt8.ofNat (0x20 ||| x.toNat >>> 8), UInt8.ofNat x.toNat]
  else
    let extra := extraBytes x.toNat 5 2
    UInt8.ofNat (extra <<< 5 ||| x.toNat >>> (8 * extra))
      :: bigEndian x.toNat extra

/-- One round of the reader: `result = T((result << 8) | byte)`, with `bits`
the width of `T`. -/
def compactStep (bits result : Nat) (byte : UInt8) : Nat :=
  (result <<< 8 ||| byte.toNat) % 2 ^ bits

theorem compactStep_lt (bits : Nat) {result bound : Nat} (h : result < bound) (byte : UInt8) :
    compactStep bits result byte < bound * 256 := by
  have hbyte := byte.toNat_lt
  have hor : result <<< 8 ||| byte.toNat = result * 256 + byte.toNat := by
    rw [← Nat.shiftLeft_add_eq_or_of_lt (show byte.toNat < 2 ^ 8 from hbyte), Nat.shiftLeft_eq]
  have hmod := Nat.mod_le (result * 256 + byte.toNat) (2 ^ bits)
  rw [compactStep, hor]
  omega

@[simp] theorem length_bigEndian (value k : Nat) :
    (bigEndian value k).length = k := by
  induction k with
  | zero => rfl
  | succ k ih => rw [bigEndian, List.length_cons, ih]

theorem shiftRight_bytes (value k : Nat) : value >>> (8 * k) = value / 256 ^ k := by
  rw [Nat.shiftRight_eq_div_pow, Nat.pow_mul]

/-- Below 2^61 the loop finds a number of bytes that leaves five bits. -/
theorem extraBytes_spec {value : Nat} (hv : value < 2 ^ 61) :
    ∀ fuel extra, extra ≤ 7 → 7 ≤ fuel + extra →
      extraBytes value fuel extra ≤ 7 ∧
        value / 256 ^ extraBytes value fuel extra < 0x20 := by
  have h7 : value / 256 ^ 7 < 0x20 := by omega
  intro fuel
  induction fuel with
  | zero =>
      intro extra hle hge
      obtain rfl : extra = 7 := by omega
      exact ⟨Nat.le_refl _, h7⟩
  | succ fuel ih =>
      intro extra hle hge
      rw [extraBytes, shiftRight_bytes]
      split
      · exact ih (extra + 1) (by omega) (by omega)
      · next hstop =>
          refine ⟨hle, ?_⟩
          rcases Nat.lt_or_ge extra 7 with hlt | hge7
          · omega
          · obtain rfl : extra = 7 := by omega
            exact h7

/-- The first byte, taken apart. -/
theorem firstByte_toNat {extra top : Nat} (he : extra ≤ 7) (ht : top < 0x20) :
    (UInt8.ofNat (extra <<< 5 ||| top)).toNat = extra * 32 + top := by
  have hor : extra <<< 5 ||| top = extra * 32 + top := by
    rw [← Nat.shiftLeft_add_eq_or_of_lt (show top < 2 ^ 5 from ht),
      Nat.shiftLeft_eq]
  rw [hor, UInt8.toNat_ofNat']
  omega

/-- Every branch of the writer has the same shape: a head that says how many
bytes follow, and those bytes. -/
theorem compactWrite_shape {x : Int} (hlo : 0 ≤ x) (hhi : x < 2 ^ 61) :
    ∃ extra, extra ≤ 7 ∧ x.toNat / 256 ^ extra < 0x20 ∧
      compactWrite x =
        UInt8.ofNat (extra <<< 5 ||| x.toNat / 256 ^ extra)
          :: bigEndian x.toNat extra := by
  rw [compactWrite]
  split
  · next h1 =>
      refine ⟨0, by omega, by omega, ?_⟩
      rw [if_neg (by omega)]
      simp [bigEndian]
  · next h1 =>
      split
      · next h2 =>
          refine ⟨1, by omega, by omega, ?_⟩
          simp [bigEndian, Nat.shiftRight_eq_div_pow]
      · next h2 =>
          have hspec := extraBytes_spec (show x.toNat < 2 ^ 61 by omega) 5 2
            (by omega) (by omega)
          exact ⟨_, hspec.1, hspec.2, by rw [← shiftRight_bytes]⟩

theorem compactStep_top {bits value k : Nat} (hv : value < 2 ^ bits) :
    compactStep bits (value / 256 ^ (k + 1)) (UInt8.ofNat (value >>> (8 * k)))
      = value / 256 ^ k := by
  have hle : value / 256 ^ k ≤ value := Nat.div_le_self _ _
  have hdiv : value / 256 ^ (k + 1) = value / 256 ^ k / 256 := by
    rw [Nat.pow_succ, Nat.div_div_eq_div_mul]
  rw [compactStep, shiftRight_bytes, UInt8.toNat_ofNat', hdiv,
    ← Nat.shiftLeft_add_eq_or_of_lt (show value / 256 ^ k % 2 ^ 8 < 2 ^ 8 by omega),
    Nat.shiftLeft_eq, Nat.mod_eq_of_lt] <;> omega

/-- Folding the extra bytes rebuilds the value, at any width that holds it. -/
theorem foldl_compactStep {bits value : Nat} (hv : value < 2 ^ bits) (k : Nat) :
    (bigEndian value k).foldl (compactStep bits) (value / 256 ^ k) = value := by
  induction k with
  | zero => simp [bigEndian]
  | succ k ih => rw [bigEndian, List.foldl_cons, compactStep_top hv, ih]

theorem compactWrite_ne_nil (x : Int) : compactWrite x ≠ [] := by
  rw [compactWrite]
  split
  · split <;> simp
  · split <;> simp

theorem length_compactWrite_pos (x : Int) : 1 ≤ (compactWrite x).length :=
  List.length_pos_iff.mpr (compactWrite_ne_nil x)

theorem length_compactWrite_le {x : Int} (hlo : 0 ≤ x) (hhi : x < 2 ^ 61) :
    (compactWrite x).length ≤ 8 := by
  obtain ⟨extra, he, -, heq⟩ := compactWrite_shape hlo hhi
  rw [heq, List.length_cons, length_bigEndian]
  omega

end Joedb
