import Joedb.Lib.Bytes
import Joedb.Lib.StateExcept

/-!
# Abstract_File

A file is its bytes, the way its `pread` cuts a request short, and the calls
that were made on it. The calls matter to no computation: they are what the
crash results read, since a crash may fall between any two of them.

`pread` may return fewer bytes than asked, never none before the end of the
file. `Pread` carries that contract as its fields, so that every loop over
short reads is proved for all of them at once.
-/

namespace Joedb

open ByteFile

/-- An exception, with its text. `Disconnection` is the subclass that closes
the connection. `lengthError` and `badVariantAccess` are what a `vector` and a
`variant` throw. The last two are not thrown: `undefined` is where the language
does not say what a program does (an `index_t` that overflows, an element behind
the end of a vector), and `negative` is where a number of records has become
negative, which is not followed any further. -/
inductive Exn where
  | exception (msg : String)
  | disconnection (msg : String)
  | lengthError
  | badVariantAccess
  | undefined
  | negative
  deriving DecidableEq, Repr

/-- Whether it is really thrown. -/
def Exn.isDefined : Exn → Bool
  | .undefined | .negative => false
  | _ => true

/-- What an implementation of `pread` owes its callers: a prefix of the range
asked for, empty only when there is nothing to read. -/
structure Pread where
  run : Bytes → Nat → Nat → Bytes
  isPrefix : ∀ f size off, run f size off <+: slice f off (off + size)
  progress : ∀ f size off, 0 < size → off < f.length → run f size off ≠ []

/-- `Memory_File::pread`: everything there is. -/
def Pread.whole : Pread where
  run f size off := slice f off (off + size)
  isPrefix _ _ _ := List.prefix_refl _
  progress f size off hsize hoff h := by
    have hl := congrArg List.length h
    rw [length_slice, List.length_nil] at hl
    omega

/-- A call that changes a file or makes its changes durable. -/
inductive Call where
  | pwrite (off : Nat) (bytes : Bytes)
  | sync
  | datasync
  deriving DecidableEq, Repr

inductive OpenMode where
  | readExisting
  | writeExisting
  | createNew
  | writeExistingOrCreateNew
  | sharedWrite
  | writeLock
  deriving DecidableEq, Repr

structure File where
  mode : OpenMode
  reads : Pread
  data : Bytes
  calls : List Call

namespace File

/-- A new file in memory. -/
def empty : File := ⟨.createNew, .whole, [], []⟩

def isShared (f : File) : Bool := f.mode = .sharedWrite

def isReadonly (f : File) : Bool := f.mode = .readExisting

def getSize (f : File) : Nat := f.data.length

def pread (f : File) (size off : Nat) : Bytes := f.reads.run f.data size off

def pwrite (f : File) (off : Nat) (bytes : Bytes) : File :=
  { f with data := ByteFile.pwrite f.data off bytes
           calls := f.calls ++ [.pwrite off bytes] }

def sync (f : File) : File := { f with calls := f.calls ++ [.sync] }

def datasync (f : File) : File := { f with calls := f.calls ++ [.datasync] }

/-- `reading_past_end_of_file`. -/
def readingPastEndOfFile : Exn :=
  .exception "Trying to read past the end of file"

/-- The loop of `full_pread`: the bytes delivered, and whether all of them
were. Each round delivers a byte or stops, so `size` rounds are enough. -/
def fullPreadGo (f : File) : Nat → Nat → Nat → Bytes × Bool
  | 0, size, _ => ([], size == 0)
  | fuel + 1, size, off =>
      if size = 0 then ([], true)
      else
        let got := f.pread size off
        if got.length = 0 then ([], false)
        else
          let rest := f.fullPreadGo fuel (size - got.length) (off + got.length)
          (got ++ rest.1, rest.2)

def fullPread (f : File) (size off : Nat) : Bytes × Bool :=
  f.fullPreadGo size size off

@[simp] theorem pwrite_mode (f : File) (off : Nat) (bs : Bytes) :
    (f.pwrite off bs).mode = f.mode := rfl

@[simp] theorem pwrite_reads (f : File) (off : Nat) (bs : Bytes) :
    (f.pwrite off bs).reads = f.reads := rfl

@[simp] theorem pwrite_data (f : File) (off : Nat) (bs : Bytes) :
    (f.pwrite off bs).data = ByteFile.pwrite f.data off bs := rfl

@[simp] theorem pwrite_calls (f : File) (off : Nat) (bs : Bytes) :
    (f.pwrite off bs).calls = f.calls ++ [.pwrite off bs] := rfl

@[simp] theorem sync_data (f : File) : f.sync.data = f.data := rfl

@[simp] theorem sync_mode (f : File) : f.sync.mode = f.mode := rfl

@[simp] theorem datasync_data (f : File) : f.datasync.data = f.data := rfl

@[simp] theorem datasync_mode (f : File) : f.datasync.mode = f.mode := rfl

theorem length_pread_le (f : File) (size off : Nat) :
    (f.pread size off).length ≤ size := by
  have h := (f.reads.isPrefix f.data size off).length_le
  rw [length_slice] at h
  exact Nat.le_trans h (by omega)

theorem pread_eq_slice (f : File) (size off : Nat) :
    f.pread size off = slice f.data off (off + (f.pread size off).length) := by
  have h := f.reads.isPrefix f.data size off
  have hlen := f.length_pread_le size off
  rw [List.prefix_iff_eq_take] at h
  rw [pread] at hlen ⊢
  generalize f.reads.run f.data size off = got at h hlen
  rw [slice, List.take_take] at h
  rw [slice, Nat.add_sub_cancel_left]
  rw [show min got.length (off + size - off) = got.length by omega] at h
  exact h

theorem pread_length_eq_zero {f : File} {size off : Nat} (hsize : 0 < size) :
    (f.pread size off).length = 0 ↔ f.data.length ≤ off := by
  constructor
  · intro h
    rcases Nat.lt_or_ge off f.data.length with hlt | hge
    · exact absurd (List.length_eq_zero_iff.mp h)
        (f.reads.progress f.data size off hsize hlt)
    · exact hge
  · intro h
    have hp := congrArg List.length (f.pread_eq_slice size off)
    rw [length_slice] at hp
    omega

theorem fullPreadGo_eq (f : File) : ∀ fuel size off, size ≤ fuel →
    f.fullPreadGo fuel size off
      = (slice f.data off (off + size),
          decide (size = 0 ∨ off + size ≤ f.data.length)) := by
  intro fuel
  induction fuel with
  | zero =>
      intro size off h
      obtain rfl : size = 0 := by omega
      simp [fullPreadGo, slice]
  | succ fuel ih =>
      intro size off h
      rw [fullPreadGo]
      by_cases hsize : size = 0
      · subst hsize
        simp [slice]
      · simp only [if_neg hsize]
        by_cases hz : (f.pread size off).length = 0
        · have hoff := (pread_length_eq_zero (by omega)).mp hz
          have hs : slice f.data off (off + size) = [] := by
            rw [slice, List.drop_eq_nil_of_le hoff]; simp
          rw [if_pos hz, hs, decide_eq_false (by omega)]
        · rw [if_neg hz]
          have hle := f.length_pread_le size off
          have heq := f.pread_eq_slice size off
          generalize hk : (f.pread size off).length = k at *
          rw [ih _ _ (by omega), heq]
          have hin : off + k ≤ f.data.length := by
            have hl := congrArg List.length heq
            rw [length_slice] at hl
            omega
          refine Prod.ext ?_ ?_
          · show slice f.data off (off + k)
                ++ slice f.data (off + k) (off + k + (size - k)) = _
            rw [show off + k + (size - k) = off + size by omega]
            exact slice_append (by omega) (by omega)
          · show decide _ = decide _
            congr 1
            apply propext
            omega

/-- `full_pread` delivers what the range has, and throws exactly when that is
not all of it. -/
theorem fullPread_eq (f : File) (size off : Nat) :
    f.fullPread size off = (slice f.data off (off + size),
      decide (size = 0 ∨ off + size ≤ f.data.length)) :=
  f.fullPreadGo_eq size size off (Nat.le_refl _)

end File

end Joedb
