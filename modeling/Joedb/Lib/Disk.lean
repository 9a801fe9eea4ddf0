import Joedb.Lib.Bytes

/-!
# A disk that may lose power

What is durable, and the writes that are not yet. A power failure leaves an
image: aligned words at the start of the file are written whole or not at all,
any byte behind them that a pending write touches may be anything, and the rest
of what is durable is there.

`MayHold` is the set of what a word may turn out to be. It only grows by a write
to that word, and a sync makes it a single value.
-/

namespace ByteFile

structure Disk where
  durable : Bytes
  pending : List (Nat × Bytes)

namespace Disk

/-- What a reader sees while the power is on. -/
def content (d : Disk) : Bytes := d.pending.foldl (fun f w => pwrite f w.1 w.2) d.durable

def write (d : Disk) (off : Nat) (bytes : Bytes) : Disk :=
  { d with pending := d.pending ++ [(off, bytes)] }

def sync (d : Disk) : Disk := ⟨d.content, []⟩

/-- A file, as far as `n`; bytes past its end are zero. -/
def padded (f : Bytes) (n : Nat) : Bytes := f ++ List.replicate (n - f.length) 0

/-- What the word at `off` may turn out to be: what is durable, or what a
pending write has for it. -/
def MayHold (d : Disk) (off n : Nat) (word : Bytes) : Prop :=
  word = slice (padded d.durable (off + n)) off (off + n) ∨
    ∃ w ∈ d.pending, w.1 ≤ off ∧ off + n ≤ w.1 + w.2.length ∧
      word = slice w.2 (off - w.1) (off - w.1 + n)

/-- `image` may be left by a power failure, with `k` atomic words of `n` bytes. -/
structure Survives (k n : Nat) (d : Disk) (image : Bytes) : Prop where
  length_le : d.durable.length ≤ image.length
  word : ∀ i < k, d.MayHold (n * i) n (slice (padded image (n * i + n)) (n * i) (n * i + n))
  rest : ∀ a b, k * n ≤ a → b ≤ d.durable.length →
    (∀ w ∈ d.pending, w.1 + w.2.length ≤ a ∨ b ≤ w.1) → slice image a b = slice d.durable a b

variable {d : Disk} {off n : Nat} {word bytes : Bytes}

@[simp] theorem content_write : (d.write off bytes).content = pwrite d.content off bytes := by
  simp [content, write]

@[simp] theorem content_settled (f : Bytes) : content ⟨f, []⟩ = f := rfl

@[simp] theorem content_sync : d.sync.content = d.content := rfl

theorem padded_of_le {f : Bytes} (h : n ≤ f.length) : padded f n = f := by
  rw [padded, Nat.sub_eq_zero_of_le h, List.replicate_zero, List.append_nil]

/-- Nothing is pending: every word is what it is. -/
theorem mayHold_settled {f : Bytes} (h : off + n ≤ f.length) :
    MayHold ⟨f, []⟩ off n word ↔ word = slice f off (off + n) := by
  constructor
  · rintro (heq | ⟨w, hw, -⟩)
    · rwa [padded_of_le h] at heq
    · exact absurd hw List.not_mem_nil
  · intro heq
    exact .inl (by rw [padded_of_le h]; exact heq)

theorem MayHold.write (h : d.MayHold off n word) (o : Nat) (bs : Bytes) :
    (d.write o bs).MayHold off n word := by
  rcases h with heq | ⟨w, hw, hrest⟩
  · exact .inl heq
  · exact .inr ⟨w, List.mem_append_left _ hw, hrest⟩

/-- A write to the word. -/
theorem mayHold_write_self (d : Disk) (off : Nat) (bytes : Bytes) :
    (d.write off bytes).MayHold off bytes.length bytes :=
  .inr ⟨(off, bytes), List.mem_append_right _ (List.mem_singleton_self _), Nat.le_refl _,
    Nat.le_refl _, by rw [Nat.sub_self, Nat.zero_add, slice_zero_length]⟩

/-- A write that does not cover the word gives it nothing new. -/
theorem MayHold.of_write {o : Nat} {bs : Bytes} (h : (d.write o bs).MayHold off n word) :
    d.MayHold off n word ∨
      (o ≤ off ∧ off + n ≤ o + bs.length ∧ word = slice bs (off - o) (off - o + n)) := by
  rcases h with heq | ⟨w, hw, hrest⟩
  · exact .inl (.inl heq)
  · rcases List.mem_append.mp hw with hold | hnew
    · exact .inl (.inr ⟨w, hold, hrest⟩)
    · rw [List.mem_singleton.mp hnew] at hrest
      exact .inr hrest

/-- After a power failure a word is one of those it may hold, for good. -/
theorem Survives.mayHold {k i : Nat} {image : Bytes} (h : d.Survives k n image) (hi : i < k)
    (hword : MayHold ⟨image, []⟩ (n * i) n word) : d.MayHold (n * i) n word := by
  rcases hword with rfl | ⟨w, hw, -⟩
  · exact h.word i hi
  · exact absurd hw List.not_mem_nil

end Disk

end ByteFile
