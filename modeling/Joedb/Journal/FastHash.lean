import Joedb.Journal.SHA256

/-!
# Hash of a sample

`get_fast_hash` reads 256 blocks of a large range instead of all of it. The first block starts
where the range starts and the last one ends where it ends. Between them the range is scaled: the
position of a block is a fraction of the size, rounded down to a multiple of the block's size.

The range is large when it has room for 1024 blocks, so two positions before rounding are more
than four blocks apart, and rounding cannot make two of them meet. Scaling multiplies before it
divides. An overflow of `int64_t` is undefined, so the arithmetic is checked here: there is no
result where some intermediate value would not fit.
-/

namespace Joedb

open ByteFile

/-- A value of `int64_t`, if it is one. -/
def int64 (x : Int) : Option Int := if -(2 ^ 63) ≤ x ∧ x < 2 ^ 63 then some x else none

/-- The size of `buffer`. -/
def fastBufferSize : Nat := 1 <<< 12

def bufferCount : Nat := 256

/-- `buffer_position`. -/
def bufferPosition (start stop size : Int) (i : Nat) : Option Int :=
  if i = 0 then some start
  else if i = bufferCount - 1 then int64 (stop - fastBufferSize)
  else do
    let product ← int64 (i * size)
    let position ← int64 (start + product.tdiv (bufferCount - 1))
    int64 (fastBufferSize * position.tdiv fastBufferSize)

/-- The loop over the blocks, after so many of them. -/
def fastHashLoop (file : File) (start stop size : Int) : Nat → Option (Except Exn SHA256.Hash)
  | 0 => some (.ok SHA256.hashInit)
  | i + 1 => do
      match ← fastHashLoop file start stop size i with
      | .error e => some (.error e)
      | .ok hash =>
          let position ← bufferPosition start stop size i
          let read := file.fullPread fastBufferSize position.toNat
          if read.2 then
            some (.ok (SHA256.processChunks read.1 (fastBufferSize / SHA256.chunkSize) hash))
          else some (.error File.readingPastEndOfFile)

def getFastHash (file : File) (start stop : Nat) : Option (Except Exn SHA256.Hash) := do
  let size ← int64 (stop - start)
  if size < 4 * fastBufferSize * bufferCount then some (getFullHash file start stop)
  else fastHashLoop file start stop size bufferCount

/-! ## The positions -/

/-- Where a block is, without bounds. -/
def blockPosition (start stop i : Nat) : Nat :=
  if i = 0 then start
  else if i = 255 then stop - 4096
  else 4096 * ((start + i * (stop - start) / 255) / 4096)

theorem fastBufferSize_eq : fastBufferSize = 4096 := rfl

theorem int64_eq {x : Int} (h0 : 0 ≤ x) (h : x < 2 ^ 63) : int64 x = some x :=
  if_pos ⟨by omega, h⟩

section Positions

variable {start stop : Nat}

/-- Nothing overflows: the largest product is of 254 and of a size that is at most 2^55. -/
theorem bufferPosition_eq (hle : start + 4096 ≤ stop) (hstop : stop ≤ 2 ^ 55) {i : Nat}
    (hi : i < 256) :
    bufferPosition start stop (stop - start) i = some (blockPosition start stop i : Int) := by
  rw [bufferPosition, blockPosition, fastBufferSize_eq, bufferCount]
  split
  · rfl
  · split
    · rw [int64_eq (by omega) (by omega)]
      congr 1
      omega
    · have hsize : ((stop : Int) - start) = ((stop - start : Nat) : Int) := by omega
      have hproduct : i * (stop - start) ≤ 254 * 2 ^ 55 := Nat.mul_le_mul (by omega) (by omega)
      rw [hsize, ← Int.natCast_mul]
      generalize i * (stop - start) = product at hproduct
      have hscaled : Int.tdiv product 255 = ((product / 255 : Nat) : Int) :=
        (Int.ofNat_tdiv product 255).symm
      have hround : ∀ n : Nat, Int.tdiv n 4096 = ((n / 4096 : Nat) : Int) :=
        fun n => (Int.ofNat_tdiv n 4096).symm
      rw [int64_eq (by omega) (by omega), Option.bind_eq_bind, Option.bind_some,
        show ((256 : Nat) : Int) - 1 = 255 from rfl, hscaled, ← Int.natCast_add,
        int64_eq (by omega) (by omega), Option.bind_some, show ((4096 : Nat) : Int) = 4096 from rfl,
        hround, int64_eq (by omega) (by omega), Int.natCast_mul]
      rfl

variable (hsize : 4 * 4096 * 256 ≤ stop - start)

include hsize

/-- Before rounding, the next position is more than four blocks away. -/
theorem scaled_succ (i : Nat) :
    i * (stop - start) / 255 + 4 * 4096 ≤ (i + 1) * (stop - start) / 255 := by
  rw [Nat.add_mul, Nat.one_mul]
  omega

theorem blockPosition_succ {i : Nat} (hi : i < 255) :
    blockPosition start stop i + 4096 ≤ blockPosition start stop (i + 1) := by
  have hscaled := scaled_succ hsize i
  have hlast : 254 * (stop - start) / 255 + 4 * 4096 ≤ stop - start := by omega
  rw [blockPosition, blockPosition, if_neg (Nat.succ_ne_zero i)]
  by_cases h0 : i = 0
  · subst h0
    rw [if_pos rfl, if_neg (by omega)]
    omega
  · rw [if_neg h0, if_neg (by omega)]
    by_cases h254 : i = 254
    · subst h254
      rw [if_pos rfl]
      omega
    · rw [if_neg (by omega)]
      generalize i * (stop - start) / 255 = a at hscaled
      generalize (i + 1) * (stop - start) / 255 = b at hscaled
      omega

theorem blockPosition_lt {i j : Nat} (hij : i < j) (hj : j < 256) :
    blockPosition start stop i + 4096 ≤ blockPosition start stop j := by
  induction j with
  | zero => omega
  | succ j ih =>
      have hstep := blockPosition_succ hsize (i := j) (by omega)
      rcases Nat.lt_succ_iff_lt_or_eq.mp hij with h | h
      · have := ih h (by omega)
        omega
      · rw [h]
        exact hstep

theorem blockPosition_within {i : Nat} (hi : i < 256) :
    start ≤ blockPosition start stop i ∧ blockPosition start stop i + 4096 ≤ stop := by
  have hfirst : blockPosition start stop 0 = start := rfl
  have hlast : blockPosition start stop 255 = stop - 4096 := by simp [blockPosition]
  constructor
  · rcases Nat.eq_zero_or_pos i with rfl | hpos
    · omega
    · have := blockPosition_lt hsize hpos hi
      omega
  · rcases Nat.lt_or_eq_of_le (show i ≤ 255 by omega) with h | rfl
    · have := blockPosition_lt hsize h (by omega)
      omega
    · omega

end Positions

/-! ## The hash -/

/-- The hash of the blocks at these positions. -/
def hashOfBlocks (data : Bytes) (position : Nat → Nat) : Nat → SHA256.Hash
  | 0 => SHA256.hashInit
  | i + 1 => SHA256.processChunks (slice data (position i) (position i + 4096)) 64
      (hashOfBlocks data position i)

/-- What is done with a block. -/
def hashBlock (file : File) (position : Nat) (hash : SHA256.Hash) : Except Exn SHA256.Hash :=
  let read := file.fullPread 4096 position
  if read.2 then .ok (SHA256.processChunks read.1 64 hash) else .error File.readingPastEndOfFile

/-- A round of the loop, when the positions do not overflow. -/
theorem fastHashLoop_succ {start stop : Nat} (hle : start + 4096 ≤ stop) (hstop : stop ≤ 2 ^ 55)
    (file : File) {i : Nat} (hi : i < 256) {result : Except Exn SHA256.Hash}
    (h : fastHashLoop file start stop (stop - start) i = some result) :
    fastHashLoop file start stop (stop - start) (i + 1) =
      some (result.bind (hashBlock file (blockPosition start stop i))) := by
  rw [fastHashLoop, h, bufferPosition_eq hle hstop hi, Option.bind_eq_bind, Option.bind_some]
  cases result with
  | error e => rfl
  | ok hash =>
      show (if (file.fullPread 4096 (blockPosition start stop i)).2 then _ else _) =
        some (if (file.fullPread 4096 (blockPosition start stop i)).2 then _ else _)
      split <;> rfl

/-- The whole range is there, and the loop reads the blocks of it. -/
theorem fastHashLoop_ok {start stop : Nat} (hsize : 4 * 4096 * 256 ≤ stop - start)
    (hstop : stop ≤ 2 ^ 55) {file : File} (hin : stop ≤ file.data.length) {i : Nat}
    (hi : i ≤ 256) : fastHashLoop file start stop (stop - start) i =
      some (.ok (hashOfBlocks file.data (blockPosition start stop) i)) := by
  induction i with
  | zero => rfl
  | succ i ih =>
      obtain ⟨-, hend⟩ := blockPosition_within hsize (i := i) (by omega)
      have hread := file.fullPread_eq 4096 (blockPosition start stop i)
      rw [decide_eq_true (by omega)] at hread
      rw [fastHashLoop_succ (by omega) hstop file hi (ih (by omega)), Except.bind, hashBlock, hread]
      rfl

/-- One block of a range, in a file with the same bytes in the range. -/
theorem fullPread_congr {file file' : File} {start stop : Nat}
    (hsame : slice file.data start stop = slice file'.data start stop) {size off : Nat}
    (hstart : start ≤ off) (hend : off + size ≤ stop) :
    file.fullPread size off = file'.fullPread size off := by
  have hpart : ∀ data : Bytes, slice data off (off + size)
      = slice (slice data start stop) (off - start) (off - start + size) := fun data => by
    rw [slice_slice (by omega), show start + (off - start) = off by omega,
      show start + (off - start + size) = off + size by omega]
  have hlen := congrArg List.length hsame
  rw [length_slice, length_slice] at hlen
  rw [File.fullPread_eq, File.fullPread_eq, hpart file.data, hpart file'.data, hsame]
  congr 2
  apply propext
  omega

theorem fastHashLoop_congr {start stop : Nat} (hsize : 4 * 4096 * 256 ≤ stop - start)
    (hstop : stop ≤ 2 ^ 55) {file file' : File}
    (hsame : slice file.data start stop = slice file'.data start stop) {i : Nat} (hi : i ≤ 256) :
    fastHashLoop file start stop (stop - start) i =
        fastHashLoop file' start stop (stop - start) i ∧
      (fastHashLoop file start stop (stop - start) i).isSome := by
  induction i with
  | zero => exact ⟨rfl, rfl⟩
  | succ i ih =>
      obtain ⟨heq, hsome⟩ := ih (by omega)
      obtain ⟨result, hresult⟩ := Option.isSome_iff_exists.mp hsome
      obtain ⟨hfrom, hend⟩ := blockPosition_within hsize hi
      have hblock : hashBlock file (blockPosition start stop i)
          = hashBlock file' (blockPosition start stop i) := by
        funext hash
        rw [hashBlock, hashBlock, fullPread_congr hsame hfrom hend]
      rw [fastHashLoop_succ (by omega) hstop file hi hresult,
        fastHashLoop_succ (by omega) hstop file' hi (heq ▸ hresult), hblock]
      exact ⟨rfl, rfl⟩

theorem getFastHash_eq {start stop : Nat} (hsize : 4 * 4096 * 256 ≤ stop - start)
    (hstop : stop ≤ 2 ^ 55) (file : File) :
    getFastHash file start stop = fastHashLoop file start stop (stop - start) 256 := by
  have hlarge : ¬((stop : Int) - start < 4 * (4096 : Nat) * (256 : Nat)) := by omega
  rw [getFastHash, int64_eq (by omega) (by omega), fastBufferSize_eq, bufferCount]
  rw [Option.bind_eq_bind, Option.bind_some, if_neg hlarge]

/-- The blocks of a large range: all are in the range, in order and apart from each other, the
first one at its start and the last one at its end. No arithmetic on the way to them overflows;
the hash is the hash of these blocks; and it is the same in any file that has the same bytes
there. -/
theorem getFastHash_blocks {start stop : Nat} (hsize : 4 * 4096 * 256 ≤ stop - start)
    (hstop : stop ≤ 2 ^ 55) : ∃ position : Nat → Nat,
      (∀ i < 256, bufferPosition start stop (stop - start) i = some (position i : Int)) ∧
      (∀ i < 256, start ≤ position i ∧ position i + 4096 ≤ stop) ∧
      (∀ i j, i < j → j < 256 → position i + 4096 ≤ position j) ∧
      position 0 = start ∧ position 255 + 4096 = stop ∧
      (∀ file : File, stop ≤ file.data.length →
        getFastHash file start stop = some (.ok (hashOfBlocks file.data position 256))) ∧
      ∀ file file' : File, slice file.data start stop = slice file'.data start stop →
        getFastHash file start stop = getFastHash file' start stop ∧
          (getFastHash file start stop).isSome := by
  refine ⟨blockPosition start stop, fun i hi => bufferPosition_eq (by omega) hstop hi,
    fun i hi => blockPosition_within hsize hi, fun i j hij hj => blockPosition_lt hsize hij hj,
    rfl, ?_, fun file hin => ?_, fun file file' hsame => ?_⟩
  · simp only [blockPosition, if_neg (show ¬(255 = 0) by decide), if_true]
    omega
  · rw [getFastHash_eq hsize hstop]
    exact fastHashLoop_ok hsize hstop hin (Nat.le_refl _)
  · rw [getFastHash_eq hsize hstop, getFastHash_eq hsize hstop]
    exact fastHashLoop_congr hsize hstop hsame (Nat.le_refl _)

/-- At the threshold, with a start that is no multiple of a block. -/
theorem getFastHash_blocks_threshold : ∃ position : Nat → Nat,
    bufferPosition 7 4194311 (4194311 - 7) 254 = some (position 254 : Int) ∧
      position 254 + 4096 ≤ position 255 := by
  obtain ⟨position, heq, -, hapart, -⟩ :=
    @getFastHash_blocks 7 4194311 (by decide) (by decide)
  exact ⟨position, heq 254 (by decide), hapart 254 255 (by decide) (by decide)⟩

end Joedb
