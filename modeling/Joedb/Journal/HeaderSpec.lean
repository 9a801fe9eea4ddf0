import Joedb.Journal.Header

/-!
# What a header says

`Agrees` is the relation between four checkpoint words and what a journal knows
of them: one pair holds the hard checkpoint twice, the other pair is where soft
checkpoints go. The second word of that other pair never passes the hard
checkpoint, so no half-written pair can pose as a hard checkpoint. The first
word may: it is what an interrupted hard checkpoint leaves.

From words that agree, every reader that is not ahead reads the same two
positions, and agrees with the words itself.
-/

namespace Joedb

open ByteFile

/-! ## Words in a file -/

theorem neg_of_lt {x : Int} (h : -(2 ^ 63) < x) : neg x = -x := by
  rw [neg, if_neg (by omega)]

theorem neg_le {x : Int} {C : Nat} (h : -(C : Int) ≤ x) (hC : C < 2 ^ 63) : neg x ≤ C := by
  rw [neg_of_lt (by omega)]; omega

/-- Writing one word changes that word only. -/
theorem headerWord_pwrite {f : Bytes} (hf : headerSize ≤ f.length) {i k : Nat}
    (hi : i < 4) {x : Int} (hlo : -(2 ^ 63) ≤ x) (hhi : x < 2 ^ 63) :
    headerWord (pwrite f (8 * i) (encodeInt64 x)) k
      = if k = i then x else headerWord f k := by
  have hlen := length_encodeInt64 x
  have hoff : 8 * i ≤ f.length := by rw [headerSize] at hf; omega
  split
  · next hk =>
      have hself := slice_pwrite_self hoff (encodeInt64 x)
      rw [hlen] at hself
      rw [headerWord, hk, hself, decodeInt64_encodeInt64 hlo hhi]
  · next hk =>
      rw [headerWord, slice_pwrite_of_disjoint hoff (by omega), headerWord]

/-- A write behind the words leaves them alone. -/
theorem headerWord_pwrite_of_le {f : Bytes} {off : Nat} (hoff : off ≤ f.length)
    (hle : 32 ≤ off) (bs : Bytes) {k : Nat} (hk : k < 4) :
    headerWord (pwrite f off bs) k = headerWord f k := by
  rw [headerWord, slice_pwrite_of_disjoint hoff (.inl (by omega)), headerWord]

/-- A word in a file is no write behind the header. -/
theorem slice_pwrite_word {f : Bytes} (hf : headerSize ≤ f.length) {i : Nat}
    (hi : i < 4) (x : Int) {a b : Nat} (ha : 32 ≤ a) :
    slice (pwrite f (8 * i) (encodeInt64 x)) a b = slice f a b := by
  rw [headerSize] at hf
  exact slice_pwrite_of_disjoint (by omega) (.inr (by rw [length_encodeInt64]; omega))

theorem length_pwrite_word {f : Bytes} (hf : headerSize ≤ f.length) {i : Nat}
    (hi : i < 4) (x : Int) :
    (pwrite f (8 * i) (encodeInt64 x)).length = f.length := by
  rw [headerSize] at hf
  rw [length_pwrite, length_encodeInt64]
  omega

/-! ## Agreement -/

/-- The index of word `j` of pair `i`. -/
def wordIndex (i j : Bool) : Nat := 2 * i.toNat + j.toNat

theorem wordIndex_lt (i j : Bool) : wordIndex i j < 4 := by
  cases i <;> cases j <;> decide

theorem wordIndex_inj {i j i' j' : Bool} (h : wordIndex i j = wordIndex i' j') :
    i = i' ∧ j = j' := by
  revert h
  cases i <;> cases j <;> cases i' <;> cases j' <;> decide

/-- What a header owes to the hard checkpoint alone. Before there is one, only
that no pair pretends. -/
structure HardAgrees (w : Nat → Int) (c : Checkpoints) : Prop where
  header_le : headerSize ≤ c.hardCheckpointPosition
  hard : headerSize < c.hardCheckpointPosition →
    ∀ j, w (wordIndex c.hardIndex j) = c.hardCheckpointPosition
  /-- No pretended hard checkpoint. -/
  second : ∀ i, w (wordIndex i true) ≤ c.hardCheckpointPosition

structure Agrees (w : Nat → Int) (c : Checkpoints) : Prop extends HardAgrees w c where
  hard_le : c.hardCheckpointPosition ≤ c.checkpointPosition
  lt_max : c.checkpointPosition < 2 ^ 63
  pair : ∀ j, w (wordIndex c.hardIndex j) = c.hardCheckpointPosition
  /-- No soft checkpoint ahead of the journal. -/
  soft_le : ∀ j, -(c.checkpointPosition : Int) ≤ w (wordIndex (!c.hardIndex) j)
  /-- A newer soft checkpoint is where `softIndex` says. -/
  newest : c.hardCheckpointPosition < c.checkpointPosition →
    w (wordIndex (!c.hardIndex) c.softIndex) = -(c.checkpointPosition : Int)

theorem agrees_initial : Agrees (fun _ => (headerSize : Int)) .initial where
  header_le := Nat.le_refl _
  hard _ _ := rfl
  second _ := Int.le_refl _
  hard_le := Nat.le_refl _
  lt_max := by decide
  pair _ := rfl
  soft_le _ := by decide
  newest h := absurd h (Nat.lt_irrefl _)

/-- No word tells a soft checkpoint past the last one. -/
theorem Agrees.le_word {w : Nat → Int} {c : Checkpoints} (h : Agrees w c) (i j : Bool) :
    -(c.checkpointPosition : Int) ≤ w (wordIndex i j) := by
  by_cases hi : i = c.hardIndex
  · rw [hi, h.pair j]; omega
  · rw [Bool.eq_not.mpr hi]; exact h.soft_le j

/-- Only the four words count. -/
theorem HardAgrees.congr {w w' : Nat → Int} {c : Checkpoints} (h : HardAgrees w c)
    (hw : ∀ k < 4, w' k = w k) : HardAgrees w' c where
  header_le := h.header_le
  hard hlt j := by rw [hw _ (wordIndex_lt _ _)]; exact h.hard hlt j
  second i := by rw [hw _ (wordIndex_lt _ _)]; exact h.second i

theorem Agrees.congr {w w' : Nat → Int} {c : Checkpoints} (h : Agrees w c)
    (hw : ∀ k < 4, w' k = w k) : Agrees w' c where
  toHardAgrees := h.toHardAgrees.congr hw
  hard_le := h.hard_le
  lt_max := h.lt_max
  pair j := by rw [hw _ (wordIndex_lt _ _)]; exact h.pair j
  soft_le j := by rw [hw _ (wordIndex_lt _ _)]; exact h.soft_le j
  newest hlt := by rw [hw _ (wordIndex_lt _ _)]; exact h.newest hlt

/-! ## Reading the hard checkpoint -/

namespace Checkpoints

variable {w : Nat → Int} {n : Int} {H : Nat}

theorem readHard_le {i : Bool} {c : Checkpoints} (hsecond : w (wordIndex i true) ≤ H)
    (hc : c.hardCheckpointPosition ≤ H) :
    (readHard w i c).hardCheckpointPosition ≤ H := by
  have h2 : w (2 * i.toNat + 1) ≤ H := hsecond
  rw [readHard]
  split
  · simp only []; omega
  · exact hc

theorem le_readHard (i : Bool) (c : Checkpoints) :
    c.hardCheckpointPosition ≤ (readHard w i c).hardCheckpointPosition := by
  rw [readHard]
  split
  · simp only []; omega
  · exact Nat.le_refl _

/-- The pair of the hard checkpoint is found. -/
theorem readHard_of_pair {i : Bool} {c : Checkpoints}
    (hpair : ∀ j, w (wordIndex i j) = H) (hc : c.hardCheckpointPosition ≤ H) :
    readHard w i c = { c with hardCheckpointPosition := H, hardIndex := i } := by
  have h1 : w (2 * i.toNat) = H := hpair false
  have h2 : w (2 * i.toNat + 1) = H := hpair true
  rw [readHard, if_pos ⟨h1.trans h2.symm, by omega⟩, h1]
  rfl

/-- The other pair, read later, can only repeat it. -/
theorem readHard_keeps {i : Bool} {c : Checkpoints} (hsecond : w (wordIndex i true) ≤ H)
    (hhard : c.hardCheckpointPosition = H) (hindex : ∀ j, w (wordIndex c.hardIndex j) = H) :
    (readHard w i c).hardCheckpointPosition = H ∧
      ∀ j, w (wordIndex (readHard w i c).hardIndex j) = H := by
  have h2 : w (2 * i.toNat + 1) ≤ H := hsecond
  rw [readHard]
  split
  · next heq =>
      have h1 : w (2 * i.toNat) = H := by omega
      refine ⟨by simp only []; omega, fun j => ?_⟩
      cases j with
      | false => exact h1
      | true => exact heq.1.symm.trans h1
  · exact ⟨hhard, hindex⟩

@[simp] theorem readSoft_hard (i j : Bool) (c : Checkpoints) :
    (readSoft w n i j c).hardCheckpointPosition = c.hardCheckpointPosition := by
  rw [readSoft]
  split <;> rfl

theorem le_readSoft (i j : Bool) (c : Checkpoints) :
    c.checkpointPosition ≤ (readSoft w n i j c).checkpointPosition := by
  rw [readSoft]
  split
  · simp only []; omega
  · exact Nat.le_refl _

@[simp] theorem readHard_cp (i : Bool) (c : Checkpoints) :
    (readHard w i c).checkpointPosition = c.checkpointPosition := by
  rw [readHard]
  split <;> rfl

/-- A soft checkpoint is never found in the hard pair, so it points to it. -/
theorem readSoft_index {h i : Bool} {j : Bool} {c : Checkpoints}
    (hpair : ∀ j, w (wordIndex h j) = H) (hH : 0 < H) (hcp : 0 < c.checkpointPosition)
    (hindex : ∀ j, w (wordIndex c.hardIndex j) = H) :
    ∀ j', w (wordIndex (readSoft w n i j c).hardIndex j') = H := by
  rw [readSoft]
  split
  · next hsoft =>
      have hne : i ≠ h := by
        rintro rfl
        have hw : w (2 * i.toNat + j.toNat) = H := hpair j
        rw [hw, neg] at hsoft
        split at hsoft <;> omega
      have hnot : (!i) = h := by
        cases i <;> cases h <;> simp_all
      simpa only [hnot] using hpair
  · exact hindex

theorem readPair_hard_le {i : Bool} {c : Checkpoints} (hsecond : w (wordIndex i true) ≤ H)
    (hc : c.hardCheckpointPosition ≤ H) :
    (readPair w n i c).hardCheckpointPosition ≤ H := by
  rw [readPair, readSoft_hard, readSoft_hard]
  exact readHard_le hsecond hc

theorem le_readPair_hard (i : Bool) (c : Checkpoints) :
    c.hardCheckpointPosition ≤ (readPair w n i c).hardCheckpointPosition := by
  rw [readPair, readSoft_hard, readSoft_hard]
  exact le_readHard i c

theorem le_readPair_cp (i : Bool) (c : Checkpoints) :
    c.checkpointPosition ≤ (readPair w n i c).checkpointPosition := by
  have h1 := le_readSoft (w := w) (n := n) i false (readHard w i c)
  have h2 := le_readSoft (w := w) (n := n) i true
    (readSoft w n i false (readHard w i c))
  rw [readHard_cp] at h1
  exact Nat.le_trans h1 h2

/-- Once the hard pair was read, the index stays on a pair that holds it. -/
theorem readPair_index {h i : Bool} {c : Checkpoints} (hpair : ∀ j, w (wordIndex h j) = H)
    (hH : 0 < H) (hcp : 0 < c.checkpointPosition)
    (hread : (readHard w i c).hardCheckpointPosition = H ∧
      ∀ j, w (wordIndex (readHard w i c).hardIndex j) = H) :
    (readPair w n i c).hardCheckpointPosition = H ∧
      ∀ j, w (wordIndex (readPair w n i c).hardIndex j) = H := by
  have h1 := le_readSoft (w := w) (n := n) i false (readHard w i c)
  rw [readHard_cp] at h1
  refine ⟨by rw [readPair, readSoft_hard, readSoft_hard]; exact hread.1, ?_⟩
  exact readSoft_index hpair hH (by omega)
    (readSoft_index hpair hH (by rw [readHard_cp]; exact hcp) hread.2)

@[simp] theorem readCheckpoint_hard (c : Checkpoints) :
    (readCheckpoint w n c).hardCheckpointPosition
      = (readPair w n true (readPair w n false c)).hardCheckpointPosition := by
  rw [readCheckpoint]
  split <;> rfl

@[simp] theorem readCheckpoint_index (c : Checkpoints) :
    (readCheckpoint w n c).hardIndex
      = (readPair w n true (readPair w n false c)).hardIndex := by
  rw [readCheckpoint]
  split <;> rfl

/-- With a pair that holds it, the hard checkpoint is found, and the index is
on such a pair. -/
theorem readCheckpoint_pair {h : Bool} {c₀ : Checkpoints}
    (hpair : ∀ j, w (wordIndex h j) = H) (hsecond : ∀ i, w (wordIndex i true) ≤ H)
    (hH : 0 < H) (hhard : c₀.hardCheckpointPosition ≤ H) (hcp : 0 < c₀.checkpointPosition) :
    (readCheckpoint w n c₀).hardCheckpointPosition = H ∧
      ∀ j, w (wordIndex (readCheckpoint w n c₀).hardIndex j) = H := by
  have hcp₁ := le_readPair_cp (w := w) (n := n) false c₀
  have hle₁ := readPair_hard_le (n := n) (hsecond false) hhard
  rw [readCheckpoint_hard, readCheckpoint_index]
  cases h with
  | false =>
      have hread := readHard_of_pair (c := c₀) hpair hhard
      have hfirst := readPair_index (n := n) hpair hH hcp
        (by rw [hread]; exact ⟨rfl, hpair⟩)
      exact readPair_index hpair hH (by omega)
        (readHard_keeps (hsecond true) hfirst.1 hfirst.2)
  | true =>
      have hread := readHard_of_pair (c := readPair w n false c₀) hpair hle₁
      exact readPair_index hpair hH (by omega) (by rw [hread]; exact ⟨rfl, hpair⟩)

/-- Whatever the soft checkpoints say, the hard checkpoint is read. -/
theorem readCheckpoint_hardAgrees {c b : Checkpoints} (h : HardAgrees w c)
    (hhard : b.hardCheckpointPosition ≤ c.hardCheckpointPosition)
    (hbase : headerSize ≤ b.hardCheckpointPosition) (hcp : 0 < b.checkpointPosition) :
    (readCheckpoint w n b).hardCheckpointPosition = c.hardCheckpointPosition ∧
      HardAgrees w (readCheckpoint w n b) := by
  have hH : 0 < c.hardCheckpointPosition := Nat.lt_of_lt_of_le (by decide) h.header_le
  have heq : (readCheckpoint w n b).hardCheckpointPosition
      = c.hardCheckpointPosition := by
    rcases Nat.lt_or_ge headerSize c.hardCheckpointPosition with hlt | hge
    · exact (readCheckpoint_pair (h.hard hlt) h.second hH hhard hcp).1
    · have hle₁ := readPair_hard_le (n := n) (h.second false) hhard
      have hle₂ := readPair_hard_le (n := n) (h.second true) hle₁
      have hge₁ := le_readPair_hard (w := w) (n := n) false b
      have hge₂ := le_readPair_hard (w := w) (n := n) true
        (readPair w n false b)
      have := h.header_le
      rw [readCheckpoint_hard]
      omega
  refine ⟨heq, by rw [heq]; exact h.header_le, fun hlt => ?_, fun i => ?_⟩
  · rw [heq] at hlt ⊢
    exact (readCheckpoint_pair (h.hard hlt) h.second hH hhard hcp).2
  · rw [heq]; exact h.second i

/-! ## Reading the soft checkpoint -/

variable {C : Nat}

theorem readSoft_le {i j : Bool} {c : Checkpoints}
    (hword : n < 0 ∨ neg (w (wordIndex i j)) ≤ n → neg (w (wordIndex i j)) ≤ C)
    (hc : c.checkpointPosition ≤ C) :
    (readSoft w n i j c).checkpointPosition ≤ C := by
  have hw : n < 0 ∨ neg (w (2 * i.toNat + j.toNat)) ≤ n →
      neg (w (2 * i.toNat + j.toNat)) ≤ C := hword
  rw [readSoft]
  split
  · next hsoft => have := hw hsoft.2; simp only []; omega
  · exact hc

/-- The newest checkpoint was found, in the pair across from the hard one. -/
def Found (w : Nat → Int) (C : Nat) (c : Checkpoints) : Prop :=
  c.checkpointPosition = C ∧ w (wordIndex (!c.hardIndex) c.softIndex) = -(C : Int)

theorem readSoft_found {i j : Bool} {c : Checkpoints}
    (hword : w (wordIndex i j) = -(C : Int)) (hC : C < 2 ^ 63)
    (hc : c.checkpointPosition ≤ C) (hsize : n < 0 ∨ C ≤ n) :
    Found w C (readSoft w n i j c) := by
  have hw : w (2 * i.toNat + j.toNat) = -(C : Int) := hword
  rw [readSoft, hw, neg_of_lt (by omega), if_pos (by omega)]
  exact ⟨by simp only []; omega, by simpa only [Bool.not_not] using hword⟩

/-- What is read after it is not newer. -/
theorem readSoft_found_keeps {i j : Bool} {c : Checkpoints}
    (hword : -(C : Int) ≤ w (wordIndex i j)) (hC : C < 2 ^ 63) (h : Found w C c) :
    Found w C (readSoft w n i j c) := by
  have hw : -(C : Int) ≤ w (2 * i.toNat + j.toNat) := hword
  have hcp := h.1
  rw [readSoft, neg_of_lt (by omega)]
  split
  · next hsoft =>
      have heq : w (2 * i.toNat + j.toNat) = -(C : Int) := by omega
      rw [heq]
      exact ⟨by simp only []; omega, by
        simpa only [Bool.not_not] using (show w (wordIndex i j) = _ from heq)⟩
  · exact h

theorem readPair_le {i : Bool} {c : Checkpoints}
    (hword : ∀ j, n < 0 ∨ neg (w (wordIndex i j)) ≤ n → neg (w (wordIndex i j)) ≤ C)
    (hc : c.checkpointPosition ≤ C) :
    (readPair w n i c).checkpointPosition ≤ C :=
  readSoft_le (hword true) (readSoft_le (hword false) (by rw [readHard_cp]; exact hc))

theorem readPair_found {i s : Bool} {c : Checkpoints}
    (hword : ∀ j, -(C : Int) ≤ w (wordIndex i j)) (hC : C < 2 ^ 63)
    (hc : c.checkpointPosition ≤ C) (hsize : n < 0 ∨ C ≤ n)
    (hnew : w (wordIndex i s) = -(C : Int)) :
    Found w C (readPair w n i c) := by
  have hc₁ : (readHard w i c).checkpointPosition ≤ C := by rw [readHard_cp]; exact hc
  cases s with
  | false =>
      exact readSoft_found_keeps (hword true) hC (readSoft_found hnew hC hc₁ hsize)
  | true =>
      exact readSoft_found hnew hC (readSoft_le (fun _ => neg_le (hword false) hC) hc₁) hsize

@[simp] theorem readCheckpoint_cp (c : Checkpoints) :
    (readCheckpoint w n c).checkpointPosition
      = max (readPair w n true (readPair w n false c)).checkpointPosition
          (readPair w n true (readPair w n false c)).hardCheckpointPosition := by
  rw [readCheckpoint]
  split
  · simp only []; omega
  · omega

@[simp] theorem readCheckpoint_softIndex (c : Checkpoints) :
    (readCheckpoint w n c).softIndex
      = (readPair w n true (readPair w n false c)).softIndex := by
  rw [readCheckpoint]
  split <;> rfl

/-- What bounds the words that are believed bounds what is read. -/
theorem readCheckpoint_le {b : Checkpoints}
    (hword : ∀ i j, n < 0 ∨ neg (w (wordIndex i j)) ≤ n → neg (w (wordIndex i j)) ≤ C)
    (hcp : b.checkpointPosition ≤ C)
    (hhard : (readCheckpoint w n b).hardCheckpointPosition ≤ C) :
    (readCheckpoint w n b).checkpointPosition ≤ C := by
  have hle := readPair_le (hword true) (readPair_le (hword false) hcp)
  rw [readCheckpoint_hard] at hhard
  rw [readCheckpoint_cp]
  omega

/-- A soft checkpoint past the hard one is found, wherever it is. -/
theorem readCheckpoint_found {c c₀ : Checkpoints} (h : Agrees w c)
    (hlt : c.hardCheckpointPosition < c.checkpointPosition)
    (hsize : n < 0 ∨ c.checkpointPosition ≤ n)
    (hhard : c₀.hardCheckpointPosition ≤ c.hardCheckpointPosition)
    (hcp : c₀.checkpointPosition ≤ c.checkpointPosition) :
    Found w c.checkpointPosition
      (readPair w n true (readPair w n false c₀)) := by
  have hH : (0 : Int) < c.hardCheckpointPosition := by
    have := h.header_le
    rw [headerSize] at this
    omega
  have hown : ∀ j, -(c.checkpointPosition : Int) ≤ w (wordIndex c.hardIndex j) :=
    fun j => by rw [h.pair j]; omega
  have hother := h.soft_le
  have hnew := h.newest hlt
  have hpair := h.pair
  cases hindex : c.hardIndex with
  | false =>
      rw [hindex] at hown hother hnew
      exact readPair_found hother h.lt_max
        (readPair_le (fun j _ => neg_le (hown j) h.lt_max) hcp) hsize hnew
  | true =>
      rw [hindex] at hown hpair
      rw [hindex, Bool.not_true] at hother hnew
      have hfound := readPair_found (c := c₀) hother h.lt_max hcp hsize hnew
      have hle := readPair_hard_le (n := n) (h.second false) hhard
      have hread := readHard_of_pair hpair hle
      have hindex' : (readPair w n false c₀).hardIndex = true := by
        cases hb : (readPair w n false c₀).hardIndex with
        | true => rfl
        | false =>
            have hsoft := hfound.2
            rw [hb] at hsoft
            have := hpair (readPair w n false c₀).softIndex
            rw [Bool.not_false] at hsoft
            omega
      refine readSoft_found_keeps (hown true) h.lt_max
        (readSoft_found_keeps (hown false) h.lt_max ?_)
      rw [hread]
      exact ⟨hfound.1, by
        have hsoft := hfound.2
        rw [hindex'] at hsoft
        exact hsoft⟩

/-- From words that agree with `c`, a reader that is not ahead reads the two
positions of `c`, and agrees with them. -/
theorem readCheckpoint_agrees {c c₀ : Checkpoints} (h : Agrees w c)
    (hsize : n < 0 ∨ c.checkpointPosition ≤ n)
    (hhard : c₀.hardCheckpointPosition ≤ c.hardCheckpointPosition)
    (hbase : headerSize ≤ c₀.hardCheckpointPosition)
    (hcp : c₀.checkpointPosition ≤ c.checkpointPosition)
    (hpos : 0 < c₀.checkpointPosition) :
    (readCheckpoint w n c₀).hardCheckpointPosition = c.hardCheckpointPosition ∧
      (readCheckpoint w n c₀).checkpointPosition = c.checkpointPosition ∧
      Agrees w (readCheckpoint w n c₀) := by
  have hH : 0 < c.hardCheckpointPosition := Nat.lt_of_lt_of_le (by decide) h.header_le
  obtain ⟨heq, hagrees⟩ :=
    readCheckpoint_hardAgrees (n := n) h.toHardAgrees hhard hbase hpos
  have hindex := (readCheckpoint_pair (n := n) h.pair h.second hH hhard hpos).2
  have hword := h.le_word
  have hle : (readPair w n true (readPair w n false c₀)).checkpointPosition
      ≤ c.checkpointPosition :=
    readPair_le (fun j _ => neg_le (hword true j) h.lt_max)
      (readPair_le (fun j _ => neg_le (hword false j) h.lt_max) hcp)
  have hcpeq : (readCheckpoint w n c₀).checkpointPosition
      = c.checkpointPosition := by
    have hhardle := h.hard_le
    rw [readCheckpoint_hard] at heq
    rw [readCheckpoint_cp, heq]
    rcases Nat.lt_or_ge c.hardCheckpointPosition c.checkpointPosition with hlt | hge
    · rw [(readCheckpoint_found h hlt hsize hhard hcp).1]; omega
    · omega
  refine ⟨heq, hcpeq, hagrees, ?_, ?_, ?_, fun j => ?_, fun hlt => ?_⟩
  · rw [heq, hcpeq]; exact h.hard_le
  · rw [hcpeq]; exact h.lt_max
  · rw [heq]; exact hindex
  · rw [hcpeq]; exact hword _ j
  · rw [heq, hcpeq] at hlt
    rw [hcpeq, readCheckpoint_index, readCheckpoint_softIndex]
    exact (readCheckpoint_found h hlt hsize hhard hcp).2

/-- A reader that may be ahead finds the hard checkpoint of `c`, and keeps its
own position if that one is the greater. -/
theorem readCheckpoint_max {c c₀ : Checkpoints} (h : Agrees w c)
    (hsize : n < 0 ∨ c.checkpointPosition ≤ n)
    (hhard : c₀.hardCheckpointPosition ≤ c.hardCheckpointPosition)
    (hbase : headerSize ≤ c₀.hardCheckpointPosition) (hpos : 0 < c₀.checkpointPosition) :
    (readCheckpoint w n c₀).hardCheckpointPosition = c.hardCheckpointPosition ∧
      (readCheckpoint w n c₀).checkpointPosition
        = max c₀.checkpointPosition c.checkpointPosition := by
  rcases Nat.le_total c₀.checkpointPosition c.checkpointPosition with hle | hge
  · obtain ⟨heq, hcp, -⟩ := readCheckpoint_agrees h hsize hhard hbase hle hpos
    exact ⟨heq, hcp.trans (Nat.max_eq_right hle).symm⟩
  · have heq := (readCheckpoint_hardAgrees (n := n) h.toHardAgrees hhard hbase hpos).1
    refine ⟨heq, ?_⟩
    rw [Nat.max_eq_left hge]
    have hhardle := h.hard_le
    refine Nat.le_antisymm (readCheckpoint_le (fun i j _ => ?_) (Nat.le_refl _) (by omega)) ?_
    · exact Int.le_trans (neg_le (h.le_word i j) h.lt_max) (Int.ofNat_le.mpr hge)
    · have h1 := le_readPair_cp (w := w) (n := n) false c₀
      have h2 := le_readPair_cp (w := w) (n := n) true (readPair w n false c₀)
      rw [readCheckpoint_cp]
      omega

end Checkpoints

/-! ## Writing a checkpoint -/

/-- Replace one word. -/
def setWord (w : Nat → Int) (i : Nat) (x : Int) : Nat → Int :=
  fun k => if k = i then x else w k

theorem setWord_self (w : Nat → Int) (i : Nat) (x : Int) : setWord w i x i = x :=
  if_pos rfl

theorem setWord_of_ne (w : Nat → Int) {i k : Nat} (h : k ≠ i) (x : Int) :
    setWord w i x k = w k := if_neg h

theorem setWord_pair_self (w : Nat → Int) (i j : Bool) (x : Int) :
    setWord w (wordIndex i j) x (wordIndex i j) = x := setWord_self _ _ _

theorem setWord_pair_of_ne (w : Nat → Int) {i j i' j' : Bool} (h : i' ≠ i ∨ j' ≠ j)
    (x : Int) : setWord w (wordIndex i j) x (wordIndex i' j') = w (wordIndex i' j') := by
  refine setWord_of_ne w (fun heq => ?_) x
  obtain ⟨rfl, rfl⟩ := wordIndex_inj heq
  simp at h

/-- What the fields become by a soft checkpoint. -/
def Checkpoints.soft (c : Checkpoints) (position : Nat) : Checkpoints :=
  { c with softIndex := !c.softIndex, checkpointPosition := position }

/-- What the fields become by a hard checkpoint. -/
def Checkpoints.hard (c : Checkpoints) (position : Nat) : Checkpoints :=
  { c with hardIndex := !c.hardIndex
           hardCheckpointPosition := position
           checkpointPosition := position }

/-- A soft checkpoint goes to the pair across from the hard one. -/
theorem agrees_soft {w : Nat → Int} {c : Checkpoints} (h : Agrees w c) {p : Nat}
    (hp : c.checkpointPosition < p) (hmax : p < 2 ^ 63) :
    Agrees (setWord w (wordIndex (!c.hardIndex) (!c.softIndex)) (-(p : Int)))
      (c.soft p) := by
  have hne : ∀ j, setWord w (wordIndex (!c.hardIndex) (!c.softIndex)) (-(p : Int))
      (wordIndex c.hardIndex j) = w (wordIndex c.hardIndex j) := fun j =>
    setWord_pair_of_ne w (.inl (by simp)) _
  have hle : ∀ i j, -(p : Int) ≤ setWord w (wordIndex (!c.hardIndex) (!c.softIndex))
      (-(p : Int)) (wordIndex i j) := by
    intro i j
    by_cases heq : wordIndex i j = wordIndex (!c.hardIndex) (!c.softIndex)
    · exact Int.le_of_eq (by rw [heq, setWord_self])
    · have := h.le_word i j
      rw [setWord_of_ne _ heq]
      omega
  refine ⟨⟨h.header_le, fun hlt j => ?_, fun i => ?_⟩, ?_, hmax, fun j => ?_, fun j => ?_,
    fun _ => ?_⟩
  · rw [show (c.soft p).hardIndex = c.hardIndex from rfl, hne]
    exact h.pair j
  · by_cases heq : wordIndex i true = wordIndex (!c.hardIndex) (!c.softIndex)
    · rw [heq, setWord_self]; omega
    · rw [setWord_of_ne _ heq]; exact h.second i
  · exact Nat.le_of_lt (Nat.lt_of_le_of_lt h.hard_le hp)
  · rw [show (c.soft p).hardIndex = c.hardIndex from rfl, hne]
    exact h.pair j
  · exact hle _ j
  · exact setWord_pair_self _ _ _ _

/-- A hard checkpoint stopped between its two words has overwritten the first
soft word. When the newest soft checkpoint is the second one, nothing is lost. -/
theorem agrees_torn {w : Nat → Int} {c : Checkpoints} (h : Agrees w c)
    (hkept : c.checkpointPosition = c.hardCheckpointPosition ∨ c.softIndex = true) (p : Nat) :
    Agrees (setWord w (wordIndex (!c.hardIndex) false) p) { c with softIndex := true } := by
  have hsame : ∀ i j, i ≠ !c.hardIndex ∨ j ≠ false →
      setWord w (wordIndex (!c.hardIndex) false) p (wordIndex i j) = w (wordIndex i j) :=
    fun i j hij => setWord_pair_of_ne w hij _
  have hpair : ∀ j, setWord w (wordIndex (!c.hardIndex) false) p (wordIndex c.hardIndex j)
      = c.hardCheckpointPosition := fun j => by
    rw [hsame _ _ (.inl (by simp)), h.pair j]
  refine ⟨⟨h.header_le, fun _ => hpair, fun i => ?_⟩, h.hard_le, h.lt_max, hpair, fun j => ?_,
    fun hlt => ?_⟩
  · rw [hsame _ _ (.inr Bool.noConfusion)]; exact h.second i
  · cases j with
    | false => rw [setWord_pair_self]; simp only []; omega
    | true => rw [hsame _ _ (.inr Bool.noConfusion)]; exact h.soft_le true
  · rw [hsame _ _ (.inr Bool.noConfusion)]
    rcases hkept with heq | hindex
    · exact absurd hlt (by simp only []; omega)
    · have hnew := h.newest hlt
      rwa [hindex] at hnew

/-- A hard checkpoint that ran to its end. -/
theorem agrees_hard {w : Nat → Int} {c : Checkpoints} (h : Agrees w c) {p : Nat}
    (hp : c.hardCheckpointPosition ≤ p) (hmax : p < 2 ^ 63) :
    Agrees (setWord (setWord w (wordIndex (!c.hardIndex) false) p)
      (wordIndex (!c.hardIndex) true) p) (c.hard p) := by
  have hnew : ∀ j, setWord (setWord w (wordIndex (!c.hardIndex) false) p)
      (wordIndex (!c.hardIndex) true) p (wordIndex (!c.hardIndex) j) = p := by
    intro j
    cases j with
    | false => rw [setWord_pair_of_ne _ (.inr (by decide)), setWord_pair_self]
    | true => exact setWord_pair_self _ _ _ _
  have hold : ∀ j, setWord (setWord w (wordIndex (!c.hardIndex) false) p)
      (wordIndex (!c.hardIndex) true) p (wordIndex c.hardIndex j)
        = c.hardCheckpointPosition := by
    intro j
    rw [setWord_pair_of_ne _ (.inl (by simp)), setWord_pair_of_ne _ (.inl (by simp)),
      h.pair j]
  refine ⟨⟨?_, fun _ => hnew, fun i => ?_⟩, Nat.le_refl _, hmax, hnew, fun j => ?_,
    fun hlt => absurd hlt (Nat.lt_irrefl _)⟩
  · exact Nat.le_trans h.header_le hp
  · by_cases hi : i = c.hardIndex
    · rw [hi, hold]; exact Int.ofNat_le.mpr hp
    · rw [Bool.eq_not.mpr hi, hnew]; exact Int.le_refl _
  · rw [show (!(c.hard p).hardIndex) = c.hardIndex from Bool.not_not _, hold]
    omega

end Joedb
