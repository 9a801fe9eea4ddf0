import Joedb.Journal.BufferSpec

/-!
# What compact integers are worth

Three bits of the first byte say how many bytes follow, so how long an encoding is does not
depend on what is behind it. No encoding is the start of another one, and a reader knows when to
stop. `compactDecode` is what any bytes say, whether or not `compact_write` writes them so; both
paths of the reader return that, wherever the buffer has to be filled again.

A reader of a narrow type drops what does not fit. That makes a value no larger, so a sequence of
bytes that is read as `x` has at least the room for `x`, and the writer looks for the first number
of bytes that has it.
-/

namespace Joedb

open ByteFile StateExcept

/-- What bytes say: the value, at some width, and how many of them it takes. -/
def compactDecode (bits : Nat) : Bytes → Option (Nat × Nat)
  | [] => none
  | first :: s =>
      let extra := first.toNat >>> 5
      if s.length < extra then none
      else some ((s.take extra).foldl (compactStep bits) (first.toNat &&& 0x1f), extra + 1)

/-! ## The first byte -/

/-- The length of an encoding is in its first byte. -/
theorem compactWrite_head {x : Int} (hlo : 0 ≤ x) (hhi : x < 2 ^ 61) :
    ∃ first s, compactWrite x = first :: s ∧ first.toNat >>> 5 = s.length ∧
      first.toNat &&& 0x1f = x.toNat / 256 ^ s.length ∧ s = bigEndian x.toNat s.length := by
  obtain ⟨extra, he, htop, heq⟩ := compactWrite_shape hlo hhi
  refine ⟨_, _, heq, ?_, ?_, ?_⟩
  · rw [firstByte_toNat he htop, length_bigEndian, Nat.shiftRight_eq_div_pow, Nat.mul_comm,
      Nat.mul_add_div (by omega), Nat.div_eq_of_lt htop, Nat.add_zero]
  · rw [firstByte_toNat he htop, length_bigEndian, show (0x1f : Nat) = 2 ^ 5 - 1 from rfl,
      Nat.and_two_pow_sub_one_eq_mod, Nat.mul_comm, Nat.mul_add_mod, Nat.mod_eq_of_lt htop]
  · rw [length_bigEndian]

/-- No encoding is the start of another one. -/
theorem compactWrite_prefix {x y : Int} (hx : 0 ≤ x) (hx' : x < 2 ^ 61) (hy : 0 ≤ y)
    (hy' : y < 2 ^ 61) (h : compactWrite x <+: compactWrite y) :
    compactWrite x = compactWrite y := by
  obtain ⟨first, s, heq, hlen, -⟩ := compactWrite_head hx hx'
  obtain ⟨first', s', heq', hlen', -⟩ := compactWrite_head hy hy'
  rw [heq, heq'] at h ⊢
  obtain ⟨rfl, hstart⟩ := List.cons_prefix_cons.mp h
  rw [hstart.eq_of_length (hlen.symm.trans hlen')]

theorem compactDecode_compactWrite (bits : Nat) {x : Int} (hlo : 0 ≤ x) (hhi : x < 2 ^ 61)
    (hbits : x.toNat < 2 ^ bits) (rest : Bytes) :
    compactDecode bits (compactWrite x ++ rest) = some (x.toNat, (compactWrite x).length) := by
  obtain ⟨first, s, heq, hlen, htop, hs⟩ := compactWrite_head hlo hhi
  have hfold := foldl_compactStep hbits s.length
  rw [← hs] at hfold
  rw [heq, List.cons_append, compactDecode]
  simp only [hlen, htop]
  rw [if_neg (by rw [List.length_append]; omega), List.take_left, hfold, List.length_cons]

/-! ## The shortest encoding -/

/-- The loop stops at the first number of bytes that leaves five bits. -/
theorem extraBytes_le_of_lt {value e : Nat} (he : value / 256 ^ e < 0x20) :
    ∀ fuel extra, extra ≤ e → extraBytes value fuel extra ≤ e := by
  intro fuel
  induction fuel with
  | zero => exact fun extra hle => hle
  | succ fuel ih =>
      intro extra hle
      rw [extraBytes, shiftRight_bytes]
      split
      · next hmore =>
          have hne : extra ≠ e := fun heq => by
            rw [heq] at hmore
            omega
          exact ih (extra + 1) (by omega)
      · exact hle

theorem length_compactWrite_of_lt {x : Int} (hlo : 0 ≤ x) {e : Nat}
    (he : x.toNat / 256 ^ e < 0x20) : (compactWrite x).length ≤ e + 1 := by
  rw [compactWrite]
  split
  · rw [if_neg (by omega), List.length_singleton]
    omega
  · next h1 =>
      have hpos : e ≠ 0 := fun h => by
        rw [h, Nat.pow_zero, Nat.div_one] at he
        omega
      split
      · simp only [List.length_cons, List.length_nil]
        omega
      · next h2 =>
          have htwo : e ≠ 1 := fun h => by
            rw [h, Nat.pow_one] at he
            omega
          have hextra := extraBytes_le_of_lt he 5 2 (by omega)
          rw [List.length_cons, length_bigEndian]
          omega

theorem foldl_compactStep_lt (bits : Nat) (s : Bytes) : ∀ {result bound : Nat}, result < bound →
    s.foldl (compactStep bits) result < bound * 256 ^ s.length := by
  induction s with
  | nil =>
      intro result bound h
      rwa [List.foldl_nil, List.length_nil, Nat.pow_zero, Nat.mul_one]
  | cons byte s ih =>
      intro result bound h
      have := ih (compactStep_lt bits h byte)
      rwa [Nat.mul_assoc, ← Nat.pow_succ'] at this

/-- Whatever is read as `x` is at least as long as what `compact_write` writes for it. -/
theorem length_compactWrite_le_decode {bits : Nat} {bs : Bytes} {x n : Nat}
    (h : compactDecode bits bs = some (x, n)) : (compactWrite x).length ≤ n := by
  cases bs with
  | nil => cases h
  | cons first s =>
      rw [compactDecode] at h
      split at h
      · cases h
      · next hlen =>
          obtain ⟨rfl, rfl⟩ := Prod.mk.inj (Option.some.inj h)
          have htop : first.toNat &&& 0x1f < 0x20 := by
            rw [show (0x1f : Nat) = 2 ^ 5 - 1 from rfl, Nat.and_two_pow_sub_one_eq_mod]
            omega
          have hbound := foldl_compactStep_lt bits (s.take (first.toNat >>> 5)) htop
          rw [List.length_take, Nat.min_eq_left (by omega)] at hbound
          refine length_compactWrite_of_lt (by omega) ?_
          rw [Int.toNat_natCast, Nat.div_lt_iff_lt_mul (Nat.pow_pos (by omega))]
          exact hbound

/-! ## The two paths -/

namespace FileBuffer

/-- Byte by byte, across any number of refills. -/
theorem compactReadWith_readByte {bits : Nat} {b : FileBuffer} (h : b.Reading) {v n : Nat}
    (hdecode : compactDecode bits (b.file.data.drop b.getPosition) = some (v, n)) :
    ∃ b', compactReadWith readByte bits b = .ok v b' ∧ b'.Reading ∧
      b'.getPosition = b.getPosition + n ∧ b'.file = b.file := by
  cases hbytes : b.file.data.drop b.getPosition with
  | nil => rw [hbytes] at hdecode; cases hdecode
  | cons first s =>
      rw [hbytes, compactDecode] at hdecode
      split at hdecode
      · cases hdecode
      · next hlen =>
          obtain ⟨rfl, rfl⟩ := Prod.mk.inj (Option.some.inj hdecode)
          have hextra : (s.take (first.toNat >>> 5)).length = first.toNat >>> 5 := by
            rw [List.length_take, Nat.min_eq_left (by omega)]
          have hloop := compactLoop_reads bits (s.take (first.toNat >>> 5)) (first.toNat &&& 0x1f)
          rw [hextra] at hloop
          have hread : Reads cursor (compactReadWith readByte bits) _ _ :=
            (readByte_reads first).bind hloop
          obtain ⟨b', hrun, ⟨hreading, hposition⟩, hfile⟩ := hread b _ ⟨h, rfl⟩ (by
            show _ <+: b.file.data.drop b.getPosition
            rw [hbytes]
            exact List.cons_prefix_cons.mpr ⟨rfl, List.take_prefix ..⟩)
          refine ⟨b', hrun, hreading, ?_, hfile⟩
          rw [hposition, List.length_append, hextra, List.length_singleton]
          omega

/-- Eight bytes at hand are enough for any value. -/
theorem compactDecode_at_hand {bits : Nat} {b : FileBuffer} (h : b.Reading)
    (hfast : b.index + 8 ≤ b.readBufferSize) :
    ∃ v n, compactDecode bits (b.file.data.drop b.getPosition) = some (v, n) := by
  have hin := h.position_le (by omega)
  have hposition := h.position_eq
  have hlen : 8 ≤ (b.file.data.drop b.getPosition).length := by
    rw [List.length_drop]
    omega
  cases hbytes : b.file.data.drop b.getPosition with
  | nil => rw [hbytes] at hlen; cases hlen
  | cons first s =>
      rw [hbytes, List.length_cons] at hlen
      have hextra : first.toNat >>> 5 ≤ 7 := by
        have := first.toNat_lt
        omega
      exact ⟨_, _, if_neg (by omega)⟩

end FileBuffer

/-- Compact integers of any width: how long they are, that none starts another one, that they
are read again from any state of the buffer, that both paths of the reader return what the bytes
say and stop behind it, and that no shorter bytes say the same. -/
theorem compact_integers {bits x : Nat} (hbits : x < 2 ^ bits) (hx : x < 2 ^ 61) :
    (1 ≤ (compactWrite x).length ∧ (compactWrite x).length ≤ 8) ∧
      (∀ b : FileBuffer, b.Writing → b.Appends (compactWrite x) (b.writeCompact x)) ∧
      (∀ y : Nat, y < 2 ^ 61 → compactWrite x <+: compactWrite y →
        compactWrite x = compactWrite y) ∧
      (∀ b : FileBuffer, b.Reading → compactWrite x <+: b.file.data.drop b.getPosition →
        ∃ b', FileBuffer.compactRead bits b = .ok x b' ∧ b'.Reading ∧
          b'.getPosition = b.getPosition + (compactWrite x).length ∧ b'.file = b.file) ∧
      (∀ b : FileBuffer, b.Reading → ∀ v n,
        compactDecode bits (b.file.data.drop b.getPosition) = some (v, n) →
        ∃ b', FileBuffer.compactReadWith FileBuffer.readByte bits b = .ok v b' ∧ b'.Reading ∧
          b'.getPosition = b.getPosition + n ∧ b'.file = b.file) ∧
      (∀ b : FileBuffer, b.Reading → b.index + 8 ≤ b.readBufferSize →
        FileBuffer.compactReadWith FileBuffer.bufferReadByte bits b
            = FileBuffer.compactReadWith FileBuffer.readByte bits b ∧
          ∃ v n, compactDecode bits (b.file.data.drop b.getPosition) = some (v, n)) ∧
      ∀ bs n, compactDecode bits bs = some (x, n) → (compactWrite x).length ≤ n := by
  have hlo : (0 : Int) ≤ x := by omega
  have hhi : (x : Int) < 2 ^ 61 := by omega
  refine ⟨⟨length_compactWrite_pos x, length_compactWrite_le hlo hhi⟩,
    fun b h => FileBuffer.writeCompact_appends h x,
    fun y hy h => compactWrite_prefix hlo hhi (by omega) (by omega) h, fun b h hprefix => ?_,
    fun b h v n hdecode => FileBuffer.compactReadWith_readByte h hdecode,
    fun b h hfast => ⟨FileBuffer.compactReadWith_fast bits hfast,
      FileBuffer.compactDecode_at_hand h hfast⟩,
    fun bs n hdecode => length_compactWrite_le_decode hdecode⟩
  obtain ⟨rest, hrest⟩ := hprefix
  have hdecode := compactDecode_compactWrite bits hlo hhi hbits rest
  rw [hrest] at hdecode
  rw [FileBuffer.compactRead_eq]
  exact FileBuffer.compactReadWith_readByte h hdecode

/-- The largest value of two bytes, as a `Table_Id`. -/
theorem compact_integers_8191 : (compactWrite 8191).length ≤ 8 ∧
    compactDecode 16 (compactWrite 8191) = some (8191, 2) ∧
      ∀ bs n, compactDecode 16 bs = some (8191, n) → (compactWrite 8191).length ≤ n := by
  obtain ⟨⟨-, hle⟩, -, -, -, -, -, hshortest⟩ :=
    @compact_integers 16 8191 (by decide) (by decide)
  exact ⟨hle, by decide, hshortest⟩

end Joedb
