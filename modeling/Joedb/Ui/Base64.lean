import Joedb.Ui.Json

/-!
# Base64

`base64_encode` is in `Json.lean`, which is where it is used. The decoder takes anything: bytes
that are no digits count as zero, and whether there is padding is asked of the last two bytes
only. What keeps it in range is arithmetic on the size of its input, so every access to the
table, to the input and to the result is checked here, and the result is `none` where one of
them would be outside.
-/

namespace Joedb

open ByteFile

def base64Decoding : Bytes :=
  [ 0,  0,  0,  0,  0,  0,  0,  0,
    0,  0,  0,  0,  0,  0,  0,  0,

    0,  0,  0,  0,  0,  0,  0,  0,
    0,  0,  0,  0,  0,  0,  0,  0,

    0,  0,  0,  0,  0,  0,  0,  0,
    0,  0,  0, 62,  0,  0,  0, 63,

   52, 53, 54, 55, 56, 57, 58, 59,
   60, 61,  0,  0,  0,  0,  0,  0,

    0,  0,  1,  2,  3,  4,  5,  6,
    7,  8,  9, 10, 11, 12, 13, 14,

   15, 16, 17, 18, 19, 20, 21, 22,
   23, 24, 25,  0,  0,  0,  0,  0,

    0, 26, 27, 28, 29, 30, 31, 32,
   33, 34, 35, 36, 37, 38, 39, 40,

   41, 42, 43, 44, 45, 46, 47, 48,
   49, 50, 51,  0,  0,  0,  0,  0] ++ List.replicate 128 0

/-- `base64_decoding[uint8_t(input[i])]`. -/
def base64Digit (input : Bytes) (i : Nat) : Option Nat := do
  let c ← input[i]?
  let digit ← base64Decoding[c.toNat]?
  pure digit.toNat

/-- `result[i] = char(word)`. -/
def putChar (result : Bytes) (i : Nat) (word : Nat) : Option Bytes :=
  if i < result.length then some (result.set i (UInt8.ofNat word)) else none

/-- The loop over the groups of four digits. -/
def base64DecodeGo (input : Bytes) : Nat → Nat → Bytes → Option Bytes
  | 0, _, result => some result
  | left + 1, i, result => do
      let d0 ← base64Digit input (4 * i + 0)
      let d1 ← base64Digit input (4 * i + 1)
      let d2 ← base64Digit input (4 * i + 2)
      let d3 ← base64Digit input (4 * i + 3)
      let word := d0 <<< 18 ||| d1 <<< 12 ||| d2 <<< 6 ||| d3
      let result ← putChar result (3 * i + 0) (word >>> 16)
      let result ← putChar result (3 * i + 1) (word >>> 8)
      let result ← putChar result (3 * i + 2) word
      base64DecodeGo input left (i + 1) result

/-- The number of full groups, and of bytes that the padded group has. -/
def base64Sizes (input : Bytes) : Option (Nat × Nat) := do
  let n := input.length / 4
  if n > 0 then
    let last ← input[input.length - 1]?
    if last = 61 then
      let before ← input[input.length - 2]?
      pure (n - 1, if before = 61 then 1 else 2)
    else pure (n, 0)
  else pure (n, 0)

def base64Decode (input : Bytes) : Option Bytes := do
  let (n, remainder) ← base64Sizes input
  let result ← base64DecodeGo input n 0 (List.replicate (3 * n + remainder) 0)
  if remainder = 2 then
    let d0 ← base64Digit input (4 * n + 0)
    let d1 ← base64Digit input (4 * n + 1)
    let d2 ← base64Digit input (4 * n + 2)
    let word := d0 <<< 12 ||| d1 <<< 6 ||| d2
    let result ← putChar result (3 * n + 0) (word >>> 10)
    putChar result (3 * n + 1) (word >>> 2)
  else if remainder = 1 then
    let d0 ← base64Digit input (4 * n + 0)
    let d1 ← base64Digit input (4 * n + 1)
    let word := d0 <<< 6 ||| d1
    putChar result (3 * n + 0) (word >>> 4)
  else pure result

/-! ## Every access is in range -/

/-- What the table says of a byte. -/
def digitOf (c : UInt8) : Nat := (base64Decoding.getD c.toNat 0).toNat

theorem length_base64Decoding : base64Decoding.length = 256 := by decide +kernel

/-- The table has an entry for every byte. -/
theorem base64Digit_eq {input : Bytes} {i : Nat} {c : UInt8} (h : input[i]? = some c) :
    base64Digit input i = some (digitOf c) := by
  have hlt : c.toNat < base64Decoding.length := by
    rw [length_base64Decoding]
    exact c.toNat_lt
  simp [base64Digit, h, digitOf, List.getElem?_eq_getElem hlt]

theorem putChar_eq {result : Bytes} {i : Nat} (word : Nat) (h : i < result.length) :
    putChar result i word = some (result.set i (UInt8.ofNat word)) := if_pos h

/-- The three bytes of four digits. -/
def group (c0 c1 c2 c3 : UInt8) : Bytes :=
  let word := digitOf c0 <<< 18 ||| digitOf c1 <<< 12 ||| digitOf c2 <<< 6 ||| digitOf c3
  [UInt8.ofNat (word >>> 16), UInt8.ofNat (word >>> 8), UInt8.ofNat word]

/-- The bytes of so many groups. -/
def groups : Nat → Bytes → Bytes
  | left + 1, c0 :: c1 :: c2 :: c3 :: s => group c0 c1 c2 c3 ++ groups left s
  | _, _ => []

/-- Three bytes written one after the other behind what is done. -/
theorem set_three {front tail : Bytes} {x y z : UInt8} (a b c : UInt8) {i : Nat}
    (hi : i = front.length) :
    (((front ++ x :: y :: z :: tail).set (i + 0) a).set (i + 1) b).set (i + 2) c =
      (front ++ [a, b, c]) ++ tail := by
  subst hi
  simp

/-- The result fills from the front: what is done stays, and what is not yet done is not
touched. -/
theorem base64DecodeGo_eq {input : Bytes} : ∀ {left i : Nat} {s front tail : Bytes},
    input.drop (4 * i) = s → 4 * left ≤ s.length → front.length = 3 * i →
    3 * left ≤ tail.length →
    base64DecodeGo input left i (front ++ tail) =
      some (front ++ groups left s ++ tail.drop (3 * left)) := by
  intro left
  induction left with
  | zero => intro i s front tail _ _ _ _; simp [base64DecodeGo, groups]
  | succ left ih =>
      intro i s front tail hs hlen hfront htail
      match s, hlen, tail, htail with
      | c0 :: c1 :: c2 :: c3 :: s, hlen, x :: y :: z :: tail, htail =>
          have hget : ∀ k, input[4 * i + k]? = (c0 :: c1 :: c2 :: c3 :: s)[k]? := fun k => by
            rw [← hs, List.getElem?_drop]
          have hdrop : input.drop (4 * (i + 1)) = s := by
            rw [show 4 * (i + 1) = 4 * i + 4 by omega, ← List.drop_drop, hs]
            rfl
          have hnext := fun front => @ih (i + 1) s front tail hdrop
            (by simp only [List.length_cons] at hlen; omega)
          rw [base64DecodeGo, base64Digit_eq (hget 0), base64Digit_eq (hget 1),
            base64Digit_eq (hget 2), base64Digit_eq (hget 3)]
          simp only [Option.bind_eq_bind, Option.bind_some]
          rw [putChar_eq _ (by simp; omega), Option.bind_some, putChar_eq _ (by simp; omega),
            Option.bind_some, putChar_eq _ (by simp; omega), Option.bind_some,
            set_three _ _ _ hfront.symm, hnext _ (by simp; omega) (by simp at htail; omega)]
          simp [groups, group, Nat.mul_add]

/-- The bytes of the padded group. -/
def lastGroup (remainder : Nat) (s : Bytes) : Bytes :=
  match remainder, s with
  | 2, c0 :: c1 :: c2 :: _ =>
      let word := digitOf c0 <<< 12 ||| digitOf c1 <<< 6 ||| digitOf c2
      [UInt8.ofNat (word >>> 10), UInt8.ofNat (word >>> 2)]
  | 1, c0 :: c1 :: _ =>
      let word := digitOf c0 <<< 6 ||| digitOf c1
      [UInt8.ofNat (word >>> 4)]
  | _, _ => []

/-- The sizes are found, and the input has what they announce: a padded group takes the place of
a full one, and it may even have less than four bytes in the end. -/
theorem base64Sizes_spec (input : Bytes) : ∃ n remainder,
    base64Sizes input = some (n, remainder) ∧
      (remainder = 0 ∧ 4 * n ≤ input.length ∨
        (remainder = 1 ∨ remainder = 2) ∧ 4 * n + 4 ≤ input.length) := by
  unfold base64Sizes
  by_cases hn : input.length / 4 > 0
  · have hlast : input.length - 1 < input.length := by omega
    have hbefore : input.length - 2 < input.length := by omega
    simp only [if_pos hn, List.getElem?_eq_getElem hlast, List.getElem?_eq_getElem hbefore,
      Option.bind_eq_bind, Option.bind_some]
    split
    · refine ⟨_, _, rfl, .inr ⟨?_, by omega⟩⟩
      split <;> simp
    · exact ⟨_, _, rfl, .inl ⟨rfl, by omega⟩⟩
  · simp only [if_neg hn]
    exact ⟨_, _, rfl, .inl ⟨rfl, by omega⟩⟩

theorem length_groups : ∀ {n : Nat} {s : Bytes}, 4 * n ≤ s.length →
    (groups n s).length = 3 * n := by
  intro n
  induction n with
  | zero => intro s _; rfl
  | succ n ih =>
      intro s hlen
      match s, hlen with
      | c0 :: c1 :: c2 :: c3 :: s, hlen =>
          rw [groups, List.length_append, ih (by simp only [List.length_cons] at hlen; omega)]
          simp only [group, List.length_cons, List.length_nil]
          omega

/-- What the decoder returns. -/
theorem base64Decode_eq {input : Bytes} {n remainder : Nat}
    (hsizes : base64Sizes input = some (n, remainder))
    (hlen : remainder = 0 ∧ 4 * n ≤ input.length ∨
      (remainder = 1 ∨ remainder = 2) ∧ 4 * n + 4 ≤ input.length) :
    base64Decode input = some (groups n input ++ lastGroup remainder (input.drop (4 * n))) ∧
      (lastGroup remainder (input.drop (4 * n))).length = remainder := by
  have hfull : 4 * n ≤ input.length := by omega
  have hloop := @base64DecodeGo_eq input n 0 input [] (List.replicate (3 * n + remainder) 0)
    rfl hfull rfl (by simp)
  have hrest : (List.replicate (3 * n + remainder) (0 : UInt8)).drop (3 * n)
      = List.replicate remainder 0 := by
    rw [List.drop_replicate, Nat.add_sub_cancel_left]
  simp only [List.nil_append, hrest] at hloop
  rw [base64Decode, hsizes]
  simp only [Option.bind_eq_bind, Option.bind_some, hloop]
  have hdone := length_groups hfull
  rcases hlen with ⟨rfl, -⟩ | ⟨hremainder, hlen⟩
  · simp [lastGroup]
  · have hget : ∀ k, input[4 * n + k]? = (input.drop (4 * n))[k]? := fun k => by
      rw [List.getElem?_drop]
    have hthere : 4 ≤ (input.drop (4 * n)).length := by rw [List.length_drop]; omega
    generalize input.drop (4 * n) = s at hget hthere
    match s, hthere with
    | c0 :: c1 :: c2 :: c3 :: s, _ =>
        have hd0 := base64Digit_eq (hget 0)
        have hd1 := base64Digit_eq (hget 1)
        have hd2 := base64Digit_eq (hget 2)
        rcases hremainder with rfl | rfl
        · have hput := fun word =>
            @putChar_eq (groups n input ++ List.replicate 1 0) (3 * n + 0) word (by simp [hdone])
          simp only [hd0, hd1, Option.bind_some, hput]
          simp [lastGroup, ← hdone]
        · have hput := fun word =>
            @putChar_eq (groups n input ++ List.replicate 2 0) (3 * n + 0) word (by simp [hdone])
          simp only [hd0, hd1, hd2, Option.bind_some, hput]
          rw [if_pos trivial, putChar_eq _ (by simp [hdone])]
          simp [lastGroup, ← hdone]

/-! ## The round trip -/

theorem base64Code_mod (n : Nat) : base64Code n = base64Code (n % 64) := by
  have h : ∀ m, m &&& 0x3f = m % 64 := fun m => Nat.and_two_pow_sub_one_eq_mod m 6
  simp only [base64Code, h, Nat.mod_mod]

/-- The table undoes the codes, and the padding is none of them. -/
theorem base64Code_spec (n : Nat) : digitOf (base64Code n) = n % 64 ∧ base64Code n ≠ 61 := by
  have hall : ∀ m < 64, digitOf (base64Code m) = m ∧ base64Code m ≠ 61 := by decide +kernel
  rw [base64Code_mod]
  exact hall _ (Nat.mod_lt _ (by omega))

@[simp] theorem digitOf_base64Code (n : Nat) : digitOf (base64Code n) = n % 64 :=
  (base64Code_spec n).1

theorem shift_or {b k : Nat} (a : Nat) (h : b < 2 ^ k) : a <<< k ||| b = a * 2 ^ k + b := by
  rw [← Nat.shiftLeft_add_eq_or_of_lt h, Nat.shiftLeft_eq]

/-- Four digits of six bits side by side. -/
theorem digits_eq {d0 d1 d2 d3 : Nat} (h1 : d1 < 64) (h2 : d2 < 64) (h3 : d3 < 64) :
    d0 <<< 18 ||| d1 <<< 12 ||| d2 <<< 6 ||| d3 = d0 * 2 ^ 18 + d1 * 2 ^ 12 + d2 * 2 ^ 6 + d3 := by
  rw [Nat.or_assoc, Nat.or_assoc, shift_or d2 (by omega), shift_or d1 (by omega),
    shift_or d0 (by omega)]
  omega

theorem group_codes (a b c : UInt8) :
    let word := a.toNat <<< 16 ||| b.toNat <<< 8 ||| c.toNat
    group (base64Code (word >>> 18)) (base64Code (word >>> 12)) (base64Code (word >>> 6))
      (base64Code word) = [a, b, c] := by
  have ha := a.toNat_lt
  have hb := b.toNat_lt
  have hc := c.toNat_lt
  have hword : a.toNat <<< 16 ||| b.toNat <<< 8 ||| c.toNat
      = a.toNat * 2 ^ 16 + b.toNat * 2 ^ 8 + c.toNat := by
    rw [Nat.or_assoc, shift_or b.toNat (by omega), shift_or a.toNat (by omega)]
    omega
  simp only [group, hword, digitOf_base64Code]
  rw [digits_eq (Nat.mod_lt _ (by omega)) (Nat.mod_lt _ (by omega)) (Nat.mod_lt _ (by omega))]
  simp only [Nat.shiftRight_eq_div_pow, List.cons.injEq, and_true, ← UInt8.toNat_inj,
    UInt8.toNat_ofNat']
  omega

theorem lastGroup_two (a b : UInt8) (s : Bytes) :
    let word := a.toNat <<< 10 ||| b.toNat <<< 2
    lastGroup 2 (base64Code (word >>> 12) :: base64Code (word >>> 6) :: base64Code word :: s)
      = [a, b] := by
  have ha := a.toNat_lt
  have hb := b.toNat_lt
  have hword : a.toNat <<< 10 ||| b.toNat <<< 2 = a.toNat * 2 ^ 10 + b.toNat * 2 ^ 2 := by
    rw [shift_or a.toNat (by rw [Nat.shiftLeft_eq]; omega), Nat.shiftLeft_eq]
  simp only [lastGroup, hword, digitOf_base64Code]
  rw [Nat.or_assoc, shift_or _ (b := _ % 64) (Nat.mod_lt _ (by omega)), shift_or _ (by omega)]
  simp only [Nat.shiftRight_eq_div_pow, List.cons.injEq, and_true, ← UInt8.toNat_inj,
    UInt8.toNat_ofNat']
  omega

theorem lastGroup_one (a : UInt8) (s : Bytes) :
    let word := a.toNat <<< 4
    lastGroup 1 (base64Code (word >>> 6) :: base64Code word :: s) = [a] := by
  have ha := a.toNat_lt
  simp only [lastGroup, digitOf_base64Code, Nat.shiftLeft_eq a.toNat]
  rw [shift_or _ (b := _ % 64) (Nat.mod_lt _ (by omega))]
  simp only [Nat.shiftRight_eq_div_pow, List.cons.injEq, and_true, ← UInt8.toNat_inj,
    UInt8.toNat_ofNat']
  omega

/-- The groups of an encoding, and what is behind them, are what was encoded. -/
theorem groups_base64Encode (s : Bytes) :
    groups (s.length / 3) (base64Encode s) ++
      lastGroup (s.length % 3) ((base64Encode s).drop (4 * (s.length / 3))) = s := by
  induction s using base64Encode.induct with
  | case1 => rfl
  | case2 a => simpa [groups, base64Encode] using lastGroup_one a [61, 61]
  | case3 a b => simpa [groups, base64Encode] using lastGroup_two a b [61]
  | case4 a b c s ih =>
      have hdiv : (a :: b :: c :: s).length / 3 = s.length / 3 + 1 := by
        simp only [List.length_cons]; omega
      have hmod : (a :: b :: c :: s).length % 3 = s.length % 3 := by
        simp only [List.length_cons]; omega
      have hgroup := group_codes a b c
      rw [hdiv, hmod, base64Encode, groups, hgroup, Nat.mul_add, List.drop_succ_cons,
        List.drop_succ_cons, List.drop_succ_cons, List.drop_succ_cons, List.append_assoc, ih]
      rfl

/-- The last four bytes of an encoding: the padding says what is missing. -/
theorem base64Encode_last {s : Bytes} (hs : s ≠ []) : ∃ front c0 c1 c2 c3,
    base64Encode s = front ++ [c0, c1, c2, c3] ∧ front.length = 4 * ((s.length - 1) / 3) ∧
      (c3 = 61 ↔ s.length % 3 ≠ 0) ∧ (c2 = 61 ↔ s.length % 3 = 1) := by
  induction s using base64Encode.induct with
  | case1 => exact absurd rfl hs
  | case2 a => exact ⟨[], _, _, _, _, rfl, by simp, by simp, by simp⟩
  | case3 a b =>
      exact ⟨[], _, _, _, _, rfl, by simp, by simp, by simp [(base64Code_spec _).2]⟩
  | case4 a b c s ih =>
      by_cases hs' : s = []
      · subst hs'
        exact ⟨[], _, _, _, _, rfl, by simp, by simp [(base64Code_spec _).2],
          by simp [(base64Code_spec _).2]⟩
      · obtain ⟨front, c0, c1, c2, c3, heq, hlen, h3, h2⟩ := ih hs'
        have hmod : (a :: b :: c :: s).length % 3 = s.length % 3 := by
          simp only [List.length_cons]; omega
        have hpos := List.length_pos_iff.mpr hs'
        rw [base64Encode, heq, hmod]
        refine ⟨_ :: _ :: _ :: _ :: front, c0, c1, c2, c3, rfl, ?_, h3, h2⟩
        simp only [List.length_cons, hlen]
        omega

theorem base64Sizes_base64Encode (s : Bytes) :
    base64Sizes (base64Encode s) = some (s.length / 3, s.length % 3) := by
  by_cases hs : s = []
  · subst hs; rfl
  · obtain ⟨front, c0, c1, c2, c3, heq, hlen, h3, h2⟩ := base64Encode_last hs
    have hpos := List.length_pos_iff.mpr hs
    have hdiv : (front.length + 4) / 4 = (s.length - 1) / 3 + 1 := by omega
    simp only [base64Sizes, heq, List.length_append, List.length_cons, List.length_nil, hdiv]
    rw [if_pos (by omega), List.getElem?_append_right (by omega),
      List.getElem?_append_right (by omega),
      show front.length + (0 + 1 + 1 + 1 + 1) - 1 - front.length = 3 by omega,
      show front.length + (0 + 1 + 1 + 1 + 1) - 2 - front.length = 2 by omega]
    simp only [List.getElem?_cons_succ, List.getElem?_cons_zero, Option.bind_eq_bind,
      Option.bind_some]
    by_cases hmod : s.length % 3 = 0
    · rw [if_neg (by rw [h3]; omega)]
      simp only [Option.pure_def, Option.some.injEq, Prod.mk.injEq]
      omega
    · rw [if_pos (h3.mpr hmod)]
      simp only [Option.pure_def, Option.some.injEq, Prod.mk.injEq, h2]
      split <;> omega

/-- Decoding an encoding gives back what was encoded, and decoding anything stays in range:
the result then has three bytes for each full group, and what the padding announces. -/
theorem base64Decode_base64Encode :
    (∀ s, base64Decode (base64Encode s) = some s) ∧
      ∀ input, ∃ n remainder result, base64Sizes input = some (n, remainder) ∧
        base64Decode input = some result ∧ result.length = 3 * n + remainder := by
  have hdecode : ∀ input, ∃ n remainder, base64Sizes input = some (n, remainder) ∧
      base64Decode input = some (groups n input ++ lastGroup remainder (input.drop (4 * n))) ∧
      (groups n input ++ lastGroup remainder (input.drop (4 * n))).length = 3 * n + remainder := by
    intro input
    obtain ⟨n, remainder, hsizes, hlen⟩ := base64Sizes_spec input
    obtain ⟨hresult, hlast⟩ := base64Decode_eq hsizes hlen
    refine ⟨n, remainder, hsizes, hresult, ?_⟩
    rw [List.length_append, hlast, length_groups (by omega)]
  constructor
  · intro s
    obtain ⟨n, remainder, hsizes, hresult, -⟩ := hdecode (base64Encode s)
    rw [base64Sizes_base64Encode, Option.some.injEq, Prod.mk.injEq] at hsizes
    obtain ⟨rfl, rfl⟩ := hsizes
    rw [hresult, groups_base64Encode]
  · intro input
    obtain ⟨n, remainder, hsizes, hresult, hlen⟩ := hdecode input
    exact ⟨n, remainder, _, hsizes, hresult, hlen⟩

/-- Wrong characters, and padding where a group is not complete. -/
example : base64Decode (ascii "T?=u!==") = some [76] := by decide +kernel

end Joedb
