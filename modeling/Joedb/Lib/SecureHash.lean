import Mathlib.Data.Nat.NthRoot.Defs
import Mathlib.Data.Nat.Prime.Defs
import Mathlib.Tactic.Ring
import Joedb.Lib.Bytes

/-!
# The Secure Hash Standard, SHA-256

The standard in its own terms: messages are bit strings, words are 32 bits wide,
and the constants are what the standard says they are, the first 32 bits of the
fractional parts of square and cube roots of primes. Nothing here is made to
run fast.

A message has fewer than 2^64 bits. For a longer one, which the standard does
not hash, the last 64 bits of the length stand in the padding.

The second half is about messages that are made of bytes. Their padding is made
of bytes too, and each of their words is four of them.
-/

namespace SecureHash

open ByteFile

abbrev Word := BitVec 32

/-! ## Functions -/

def rotr (n : Nat) (x : Word) : Word := x.rotateRight n

def shr (n : Nat) (x : Word) : Word := x >>> n

def ch (x y z : Word) : Word := (x &&& y) ^^^ (~~~x &&& z)

def maj (x y z : Word) : Word := (x &&& y) ^^^ (x &&& z) ^^^ (y &&& z)

/-- `Σ₀`. -/
def upperSigma0 (x : Word) : Word := rotr 2 x ^^^ rotr 13 x ^^^ rotr 22 x

/-- `Σ₁`. -/
def upperSigma1 (x : Word) : Word := rotr 6 x ^^^ rotr 11 x ^^^ rotr 25 x

/-- `σ₀`. -/
def lowerSigma0 (x : Word) : Word := rotr 7 x ^^^ rotr 18 x ^^^ shr 3 x

/-- `σ₁`. -/
def lowerSigma1 (x : Word) : Word := rotr 17 x ^^^ rotr 19 x ^^^ shr 10 x

/-! ## Constants -/

/-- The first sixty-four prime numbers. -/
def primes : List Nat := (List.range 312).filter Nat.Prime

/-- The first 32 bits of the fractional part of the `d`-th root of `p`. -/
def rootFraction (d p : Nat) : Word := BitVec.ofNat 32 (Nat.nthRoot d (p * 2 ^ (32 * d)))

/-- `K`. -/
def constant (t : Nat) : Word := rootFraction 3 (primes.getD t 0)

/-! ## Padding -/

/-- The `w` last bits of a number, most significant first. -/
def bitsOfNat (n : Nat) : Nat → List Bool
  | 0 => []
  | w + 1 => n.testBit w :: bitsOfNat n w

/-- The smallest number of zeros that leaves room for the length in a block. -/
def zeros (length : Nat) : Nat := (448 + 512 - (length + 1) % 512) % 512

def pad (m : List Bool) : List Bool :=
  m ++ true :: (List.replicate (zeros m.length) false ++ bitsOfNat m.length 64)

/-- A bit string as a number. -/
def ofBits (bits : List Bool) : Nat := bits.foldl (fun n b => 2 * n + b.toNat) 0

/-- The word `j` of the block `i`. -/
def blockWord (m : List Bool) (i j : Nat) : Word :=
  BitVec.ofNat 32 (ofBits ((m.drop (512 * i + 32 * j)).take 32))

/-! ## Hash -/

/-- The eight words of a hash value, and the working variables. -/
@[ext] structure State where
  a : Word
  b : Word
  c : Word
  d : Word
  e : Word
  f : Word
  g : Word
  h : Word

def State.add (s t : State) : State :=
  ⟨s.a + t.a, s.b + t.b, s.c + t.c, s.d + t.d, s.e + t.e, s.f + t.f, s.g + t.g, s.h + t.h⟩

def initial : State :=
  let root (i : Nat) : Word := rootFraction 2 (primes.getD i 0)
  ⟨root 0, root 1, root 2, root 3, root 4, root 5, root 6, root 7⟩

/-- `W`. -/
def schedule (block : Nat → Word) (t : Nat) : Word :=
  if t < 16 then block t
  else lowerSigma1 (schedule block (t - 2)) + schedule block (t - 7)
    + lowerSigma0 (schedule block (t - 15)) + schedule block (t - 16)

def round (k w : Word) (s : State) : State :=
  let t1 := s.h + upperSigma1 s.e + ch s.e s.f s.g + k + w
  let t2 := upperSigma0 s.a + maj s.a s.b s.c
  ⟨t1 + t2, s.a, s.b, s.c, s.d + t1, s.e, s.f, s.g⟩

/-- The first rounds. -/
def rounds (w : Nat → Word) : Nat → State → State
  | 0, s => s
  | t + 1, s => round (constant t) (w t) (rounds w t s)

def compress (block : Nat → Word) (s : State) : State :=
  s.add (rounds (schedule block) 64 s)

/-- The hash value after the first blocks of a padded message. -/
def hashBlocks (m : List Bool) : Nat → State
  | 0 => initial
  | i + 1 => compress (blockWord m i) (hashBlocks m i)

def hash (m : List Bool) : State := hashBlocks (pad m) ((pad m).length / 512)

/-- A block is its first sixteen words. -/
theorem schedule_congr {block block' : Nat → Word} (h : ∀ j < 16, block j = block' j) (t : Nat) :
    schedule block t = schedule block' t := by
  fun_induction schedule block t with
  | case1 t ht =>
      conv_rhs => rw [schedule, if_pos ht]
      exact h t ht
  | case2 t ht ih2 ih7 ih15 ih16 =>
      conv_rhs => rw [schedule, if_neg ht, ← ih2, ← ih7, ← ih15, ← ih16]

theorem compress_congr {block block' : Nat → Word} (h : ∀ j < 16, block j = block' j)
    (s : State) : compress block s = compress block' s := by
  rw [compress, compress, funext (schedule_congr h)]

/-! ## Lengths -/

@[simp] theorem length_bitsOfNat (n w : Nat) : (bitsOfNat n w).length = w := by
  induction w with
  | zero => rfl
  | succ w ih => rw [bitsOfNat, List.length_cons, ih]

/-! ## Bytes -/

/-- A string of bytes as a bit string. -/
def bitsOfBytes : Bytes → List Bool
  | [] => []
  | b :: bs => bitsOfNat b.toNat 8 ++ bitsOfBytes bs

theorem bitsOfBytes_append (bs cs : Bytes) :
    bitsOfBytes (bs ++ cs) = bitsOfBytes bs ++ bitsOfBytes cs := by
  induction bs with
  | nil => rfl
  | cons b bs ih => rw [List.cons_append, bitsOfBytes, bitsOfBytes, ih, List.append_assoc]

@[simp] theorem length_bitsOfBytes (bs : Bytes) : (bitsOfBytes bs).length = 8 * bs.length := by
  induction bs with
  | nil => rfl
  | cons b bs ih =>
      rw [bitsOfBytes, List.length_append, length_bitsOfNat, ih, List.length_cons]
      omega

/-- The bits of a part of the bytes. -/
theorem bitsOfBytes_part (bs : Bytes) (i n : Nat) :
    ((bitsOfBytes bs).drop (8 * i)).take (8 * n) = bitsOfBytes ((bs.drop i).take n) := by
  have hdrop : ∀ (bs : Bytes) (i : Nat),
      (bitsOfBytes bs).drop (8 * i) = bitsOfBytes (bs.drop i) := by
    intro bs i
    induction bs generalizing i with
    | nil => rw [List.drop_nil, bitsOfBytes, List.drop_nil]
    | cons b bs ih =>
        cases i with
        | zero => rfl
        | succ i =>
            rw [bitsOfBytes, List.drop_succ_cons, ← ih, show 8 * (i + 1) = 8 + 8 * i by omega,
              ← List.drop_drop, List.drop_left' (length_bitsOfNat _ _)]
  have htake : ∀ (bs : Bytes) (n : Nat),
      (bitsOfBytes bs).take (8 * n) = bitsOfBytes (bs.take n) := by
    intro bs n
    induction bs generalizing n with
    | nil => rw [List.take_nil, bitsOfBytes, List.take_nil]
    | cons b bs ih =>
        cases n with
        | zero => rfl
        | succ n =>
            rw [bitsOfBytes, List.take_succ_cons, bitsOfBytes, ← ih,
              show 8 * (n + 1) = (bitsOfNat b.toNat 8).length + 8 * n by
                rw [length_bitsOfNat]; omega, List.take_length_add_append]
  rw [hdrop, htake]

/-- The bits of a number, byte by byte. -/
theorem bitsOfNat_bytes (n k : Nat) :
    bitsOfNat n (8 * (k + 1)) = bitsOfNat (n / 256 ^ k % 256) 8 ++ bitsOfNat n (8 * k) := by
  have htop : ∀ i < 8, n.testBit (8 * k + i) = (n / 256 ^ k % 256).testBit i := by
    intro i hi
    rw [show (256 : Nat) ^ k = 2 ^ (8 * k) by rw [Nat.pow_mul], show 256 = 2 ^ 8 from rfl,
      Nat.testBit_mod_two_pow, decide_eq_true hi, Bool.true_and, Nat.testBit_div_two_pow,
      Nat.add_comm]
  rw [show 8 * (k + 1) = 8 * k + 7 + 1 by omega]
  simp only [bitsOfNat, List.cons_append, List.nil_append, htop _ (show 7 < 8 by omega),
    htop _ (show 6 < 8 by omega), htop _ (show 5 < 8 by omega), htop _ (show 4 < 8 by omega),
    htop _ (show 3 < 8 by omega), htop _ (show 2 < 8 by omega), htop _ (show 1 < 8 by omega),
    show n.testBit (8 * k) = _ from htop 0 (by omega)]

theorem foldl_bits (bits : List Bool) (n : Nat) :
    bits.foldl (fun n b => 2 * n + b.toNat) n = n * 2 ^ bits.length + ofBits bits := by
  rw [ofBits]
  induction bits generalizing n with
  | nil => simp
  | cons b bits ih =>
      rw [List.foldl_cons, List.foldl_cons, ih, ih (2 * 0 + b.toNat), List.length_cons,
        Nat.pow_succ]
      ring

theorem ofBits_append (xs ys : List Bool) :
    ofBits (xs ++ ys) = ofBits xs * 2 ^ ys.length + ofBits ys := by
  rw [ofBits, List.foldl_append, foldl_bits]
  rfl

theorem ofBits_bitsOfNat (n w : Nat) : ofBits (bitsOfNat n w) = n % 2 ^ w := by
  induction w with
  | zero => rw [Nat.pow_zero, Nat.mod_one]; rfl
  | succ w ih =>
      rw [bitsOfNat, ofBits, List.foldl_cons, foldl_bits, ih, length_bitsOfNat, Nat.mul_zero,
        Nat.zero_add, Nat.toNat_testBit, Nat.mod_pow_succ]
      ring

/-- A number from its bytes, most significant first. -/
def ofBytes (bs : Bytes) : Nat := bs.foldl (fun n b => 256 * n + b.toNat) 0

theorem ofBits_bitsOfBytes (bs : Bytes) : ofBits (bitsOfBytes bs) = ofBytes bs := by
  have hgo : ∀ (bs : Bytes) (n : Nat),
      bs.foldl (fun n b => 256 * n + b.toNat) n
        = n * 2 ^ (8 * bs.length) + ofBits (bitsOfBytes bs) := by
    intro bs
    induction bs with
    | nil => intro n; simp [bitsOfBytes, ofBits]
    | cons b bs ih =>
        intro n
        rw [List.foldl_cons, ih, bitsOfBytes, ofBits_append, length_bitsOfBytes, ofBits_bitsOfNat,
          Nat.mod_eq_of_lt b.toNat_lt, List.length_cons, show 8 * (bs.length + 1)
            = 8 * bs.length + 8 by omega, Nat.pow_add]
        ring
  have h := hgo bs 0
  rw [Nat.zero_mul, Nat.zero_add] at h
  exact h.symm

/-- A word is four bytes. -/
theorem blockWord_bitsOfBytes (bs : Bytes) (i j : Nat) :
    blockWord (bitsOfBytes bs) i j
      = BitVec.ofNat 32 (ofBytes ((bs.drop (64 * i + 4 * j)).take 4)) := by
  have hpart := bitsOfBytes_part bs (64 * i + 4 * j) 4
  rw [show 8 * (64 * i + 4 * j) = 512 * i + 32 * j by omega] at hpart
  rw [blockWord, ← ofBits_bitsOfBytes, ← hpart]

/-- The zeros behind the byte that has the closing bit. -/
def zeroBytes (length : Nat) : Nat := (55 + 64 - length % 64) % 64

/-- The `k` low bytes of a number, most significant first. -/
def bytesOfNat (n : Nat) : Nat → Bytes
  | 0 => []
  | k + 1 => UInt8.ofNat (n / 256 ^ k) :: bytesOfNat n k

def padBytes (bs : Bytes) : Bytes :=
  bs ++ 0x80 :: (List.replicate (zeroBytes bs.length) 0 ++ bytesOfNat (8 * bs.length) 8)

@[simp] theorem length_bytesOfNat (n k : Nat) : (bytesOfNat n k).length = k := by
  induction k with
  | zero => rfl
  | succ k ih => rw [bytesOfNat, List.length_cons, ih]

/-- Written from its last byte on. -/
theorem bytesOfNat_succ (n k : Nat) :
    bytesOfNat n (k + 1) = bytesOfNat (n / 256) k ++ [UInt8.ofNat n] := by
  induction k with
  | zero =>
      show UInt8.ofNat (n / 256 ^ 0) :: [] = _
      rw [Nat.pow_zero, Nat.div_one]
      rfl
  | succ k ih =>
      rw [bytesOfNat, ih, bytesOfNat, List.cons_append, Nat.pow_succ', Nat.div_div_eq_div_mul]

/-- The other bytes of the number do not matter. -/
theorem bytesOfNat_mod (n k : Nat) : bytesOfNat (n % 256 ^ k) k = bytesOfNat n k := by
  induction k generalizing n with
  | zero => rfl
  | succ k ih =>
      have hlow : UInt8.ofNat (n % 256 ^ (k + 1)) = UInt8.ofNat n := by
        apply UInt8.toNat.inj
        rw [UInt8.toNat_ofNat', UInt8.toNat_ofNat', Nat.pow_succ]
        exact Nat.mod_mod_of_dvd n (Nat.dvd_mul_left ..)
      rw [bytesOfNat_succ, bytesOfNat_succ, hlow, Nat.pow_succ', Nat.mod_mul_right_div_self, ih]

theorem length_padBytes (bs : Bytes) :
    (padBytes bs).length = bs.length + 1 + zeroBytes bs.length + 8 := by
  rw [padBytes, List.length_append, List.length_cons, List.length_append, List.length_replicate,
    length_bytesOfNat]
  omega

theorem bitsOfBytes_bytesOfNat (n k : Nat) :
    bitsOfBytes (bytesOfNat n k) = bitsOfNat n (8 * k) := by
  induction k with
  | zero => rfl
  | succ k ih => rw [bytesOfNat, bitsOfBytes, UInt8.toNat_ofNat', ih, bitsOfNat_bytes]

theorem bitsOfBytes_zeros (n : Nat) :
    bitsOfBytes (List.replicate n 0) = List.replicate (8 * n) false := by
  induction n with
  | zero => rfl
  | succ n ih =>
      rw [List.replicate_succ, bitsOfBytes, ih, show 8 * (n + 1) = 8 + 8 * n by omega,
        ← List.replicate_append_replicate]
      rfl

/-- Bytes are padded with bytes. -/
theorem pad_bitsOfBytes (bs : Bytes) : pad (bitsOfBytes bs) = bitsOfBytes (padBytes bs) := by
  have hzeros : zeros (8 * bs.length) = 7 + 8 * zeroBytes bs.length := by
    rw [zeros, zeroBytes]
    omega
  rw [pad, padBytes, length_bitsOfBytes, hzeros, bitsOfBytes_append, bitsOfBytes,
    bitsOfBytes_append, bitsOfBytes_zeros, bitsOfBytes_bytesOfNat,
    ← List.replicate_append_replicate, List.append_assoc]
  rfl

end SecureHash
