import Joedb.Journal.Actions

/-!
# The checkpoints that words hold

`Agrees` speaks of the words that a journal has written itself. A journal that
is opened finds any four words: what an older writer left, a crash, a file that
was cut. What they hold is a matter of each word and each pair alone, and
reading them gives the greatest checkpoint they hold, among the soft ones those
in the file.
-/

namespace Joedb

open ByteFile

/-- A pair has `p` twice. -/
def HoldsHard (w : Nat → Int) (p : Nat) : Prop :=
  headerSize ≤ p ∧ ∃ i, ∀ j, w (wordIndex i j) = p

/-- A word is the soft checkpoint `p`. -/
def HoldsSoft (w : Nat → Int) (p : Nat) : Prop :=
  headerSize ≤ p ∧ ∃ i j, neg (w (wordIndex i j)) = p

/-- The words hold `p`. The start of the journal needs no word. -/
def Holds (w : Nat → Int) (p : Nat) : Prop :=
  p = headerSize ∨ HoldsHard w p ∨ HoldsSoft w p

section Holding

variable {w w' : Nat → Int} {p : Nat}

theorem HoldsHard.congr (h : HoldsHard w p) (hw : ∀ k < 4, w' k = w k) : HoldsHard w' p := by
  obtain ⟨hbase, i, hi⟩ := h
  exact ⟨hbase, i, fun j => by rw [hw _ (wordIndex_lt i j), hi j]⟩

theorem HoldsSoft.congr (h : HoldsSoft w p) (hw : ∀ k < 4, w' k = w k) : HoldsSoft w' p := by
  obtain ⟨hbase, i, j, hij⟩ := h
  exact ⟨hbase, i, j, by rw [hw _ (wordIndex_lt i j), hij]⟩

theorem Holds.congr (h : Holds w p) (hw : ∀ k < 4, w' k = w k) : Holds w' p := by
  obtain hstart | hhard | hsoft := h
  · exact .inl hstart
  · exact .inr (.inl (hhard.congr hw))
  · exact .inr (.inr (hsoft.congr hw))

theorem Holds.header_le (h : Holds w p) : headerSize ≤ p := by
  obtain rfl | hhard | hsoft := h
  · exact Nat.le_refl _
  · exact hhard.1
  · exact hsoft.1

/-- What is held is a position of an `int64_t`. -/
theorem Holds.lt_max (h : Holds w p) (hw : ∀ k < 4, -(2 ^ 63) ≤ w k ∧ w k < 2 ^ 63) :
    p < 2 ^ 63 := by
  obtain rfl | ⟨-, i, hi⟩ | ⟨hbase, i, j, hij⟩ := h
  · decide
  · have hrange := hw _ (wordIndex_lt i false)
    have heq := hi false
    omega
  · have hrange := hw _ (wordIndex_lt i j)
    have hpos : 41 ≤ p := hbase
    rw [neg] at hij
    split at hij <;> omega

/-- A word that is written holds nothing but itself. -/
theorem HoldsSoft.of_setWord {k : Nat} {x : Int} (h : HoldsSoft (setWord w k x) p) :
    HoldsSoft w p ∨ neg x = p := by
  obtain ⟨hbase, i, j, hij⟩ := h
  rw [setWord] at hij
  split at hij
  · exact .inr hij
  · exact .inl ⟨hbase, i, j, hij⟩

theorem HoldsHard.of_setWord {k : Nat} {x : Int} (h : HoldsHard (setWord w k x) p) :
    HoldsHard w p ∨ x = p := by
  obtain ⟨hbase, i, hi⟩ := h
  by_cases hk : ∃ j, wordIndex i j = k
  · obtain ⟨j, rfl⟩ := hk
    have hj := hi j
    rw [setWord_self] at hj
    exact .inr hj
  · refine .inl ⟨hbase, i, fun j => ?_⟩
    have hj := hi j
    rwa [setWord_of_ne _ fun heq => hk ⟨j, heq⟩] at hj

theorem Holds.of_setWord {k : Nat} {x : Int} (h : Holds (setWord w k x) p) :
    Holds w p ∨ x = p ∨ neg x = p := by
  obtain hstart | hhard | hsoft := h
  · exact .inl (.inl hstart)
  · exact hhard.of_setWord.imp (fun hold => .inr (.inl hold)) .inl
  · exact hsoft.of_setWord.imp (fun hold => .inr (.inr hold)) .inr

end Holding

namespace Checkpoints

variable {w : Nat → Int} {n : Int} {c : Checkpoints} {p : Nat} {P : Nat → Prop}

/-! ## What is read is held -/

theorem readHard_of (hhard : ∀ q, HoldsHard w q → P q) (i : Bool)
    (hbase : headerSize ≤ c.hardCheckpointPosition) (hc : P c.hardCheckpointPosition) :
    P (readHard w i c).hardCheckpointPosition := by
  rw [readHard]
  split
  · next hpair =>
      have hpos : 41 ≤ c.hardCheckpointPosition := hbase
      refine hhard _ ⟨?_, i, fun j => ?_⟩
      · show 41 ≤ (w (2 * i.toNat)).toNat
        omega
      · cases j with
        | false => show w (2 * i.toNat) = _; simp only []; omega
        | true => show w (2 * i.toNat + 1) = _; simp only []; omega
  · exact hc

theorem readSoft_of (hsoft : ∀ q, HoldsSoft w q → (n < 0 ∨ q ≤ n) → P q) (i j : Bool)
    (hbase : headerSize ≤ c.checkpointPosition) (hc : P c.checkpointPosition) :
    P (readSoft w n i j c).checkpointPosition := by
  rw [readSoft]
  split
  · next hword =>
      have hpos : 41 ≤ c.checkpointPosition := hbase
      have hcast : ((neg (w (2 * i.toNat + j.toNat))).toNat : Int)
          = neg (w (2 * i.toNat + j.toNat)) := by omega
      refine hsoft _ ⟨?_, i, j, hcast.symm⟩ ?_
      · show 41 ≤ (neg (w (2 * i.toNat + j.toNat))).toNat
        omega
      · exact hword.2.imp id fun hle => by simp only []; omega
  · exact hc

theorem readPair_hard_of (hhard : ∀ q, HoldsHard w q → P q) (i : Bool)
    (hbase : headerSize ≤ c.hardCheckpointPosition) (hc : P c.hardCheckpointPosition) :
    P (readPair w n i c).hardCheckpointPosition := by
  rw [readPair, readSoft_hard, readSoft_hard]
  exact readHard_of hhard i hbase hc

theorem readPair_of (hsoft : ∀ q, HoldsSoft w q → (n < 0 ∨ q ≤ n) → P q) (i : Bool)
    (hbase : headerSize ≤ c.checkpointPosition) (hc : P c.checkpointPosition) :
    P (readPair w n i c).checkpointPosition := by
  have hfirst := le_readSoft (w := w) (n := n) i false (readHard w i c)
  rw [readHard_cp] at hfirst
  refine readSoft_of hsoft i true (Nat.le_trans hbase hfirst) ?_
  refine readSoft_of hsoft i false ?_ ?_ <;> rwa [readHard_cp]

/-- The hard checkpoint that is read was known, or a pair holds it. -/
theorem readCheckpoint_hard_of (hhard : ∀ q, HoldsHard w q → P q)
    (hbase : headerSize ≤ c.hardCheckpointPosition) (hc : P c.hardCheckpointPosition) :
    P (readCheckpoint w n c).hardCheckpointPosition := by
  rw [readCheckpoint_hard]
  exact readPair_hard_of hhard true (Nat.le_trans hbase (le_readPair_hard false c))
    (readPair_hard_of hhard false hbase hc)

/-- The checkpoint that is read was known, or the words hold it, and a soft one
within the file. -/
theorem readCheckpoint_of (hhard : ∀ q, HoldsHard w q → P q)
    (hsoft : ∀ q, HoldsSoft w q → (n < 0 ∨ q ≤ n) → P q)
    (hbase : headerSize ≤ c.hardCheckpointPosition)
    (hbase' : headerSize ≤ c.checkpointPosition)
    (hc : P c.hardCheckpointPosition) (hc' : P c.checkpointPosition) :
    P (readCheckpoint w n c).checkpointPosition := by
  have hcp : P (readPair w n true (readPair w n false c)).checkpointPosition :=
    readPair_of hsoft true (Nat.le_trans hbase' (le_readPair_cp false c))
      (readPair_of hsoft false hbase' hc')
  have hread := readCheckpoint_hard_of (n := n) hhard hbase hc
  rw [readCheckpoint_hard] at hread
  rw [readCheckpoint_cp]
  rcases Nat.le_total (readPair w n true (readPair w n false c)).checkpointPosition
    (readPair w n true (readPair w n false c)).hardCheckpointPosition with hle | hge
  · rwa [Nat.max_eq_right hle]
  · rwa [Nat.max_eq_left hge]

/-- From nothing, what is read is held. -/
theorem holds_readCheckpoint :
    Holds w (readCheckpoint w n initial).checkpointPosition :=
  readCheckpoint_of (fun _ hq => .inr (.inl hq)) (fun _ hq _ => .inr (.inr hq))
    (Nat.le_refl _) (Nat.le_refl _) (.inl rfl) (.inl rfl)

theorem holds_readCheckpoint_hard :
    Holds w (readCheckpoint w n initial).hardCheckpointPosition :=
  readCheckpoint_hard_of (fun _ hq => .inr (.inl hq)) (Nat.le_refl _) (.inl rfl)

/-! ## What is held is read -/

theorem le_readHard_of_pair {i : Bool} (hi : ∀ j, w (wordIndex i j) = p) :
    p ≤ (readHard w i c).hardCheckpointPosition := by
  have h0 : w (2 * i.toNat) = p := hi false
  have h1 : w (2 * i.toNat + 1) = p := hi true
  rw [readHard]
  split
  · simp only []; omega
  · omega

theorem le_readPair_of_pair {i : Bool} (hi : ∀ j, w (wordIndex i j) = p) :
    p ≤ (readPair w n i c).hardCheckpointPosition := by
  rw [readPair, readSoft_hard, readSoft_hard]
  exact le_readHard_of_pair hi

theorem le_readSoft_of_word {i j : Bool} (hij : neg (w (wordIndex i j)) = p)
    (hn : n < 0 ∨ p ≤ n) : p ≤ (readSoft w n i j c).checkpointPosition := by
  have hword : neg (w (2 * i.toNat + j.toNat)) = p := hij
  rw [readSoft, hword]
  split
  · simp only []; omega
  · omega

theorem le_readPair_of_word {i j : Bool} (hij : neg (w (wordIndex i j)) = p)
    (hn : n < 0 ∨ p ≤ n) : p ≤ (readPair w n i c).checkpointPosition := by
  cases j with
  | false => exact Nat.le_trans (le_readSoft_of_word hij hn) (le_readSoft i true _)
  | true => exact le_readSoft_of_word hij hn

theorem le_readCheckpoint_hard (h : HoldsHard w p) :
    p ≤ (readCheckpoint w n c).hardCheckpointPosition := by
  obtain ⟨-, i, hi⟩ := h
  rw [readCheckpoint_hard]
  cases i with
  | false => exact Nat.le_trans (le_readPair_of_pair hi) (le_readPair_hard true _)
  | true => exact le_readPair_of_pair hi

theorem hard_le_readCheckpoint : (readCheckpoint w n c).hardCheckpointPosition
    ≤ (readCheckpoint w n c).checkpointPosition := by
  rw [readCheckpoint_hard, readCheckpoint_cp]
  exact Nat.le_max_right _ _

theorem le_readCheckpoint_cp (w : Nat → Int) (n : Int) (c : Checkpoints) :
    c.checkpointPosition ≤ (readCheckpoint w n c).checkpointPosition := by
  rw [readCheckpoint_cp]
  exact Nat.le_trans (Nat.le_trans (le_readPair_cp false c) (le_readPair_cp true _))
    (Nat.le_max_left _ _)

theorem le_readCheckpoint_soft (h : HoldsSoft w p) (hn : n < 0 ∨ p ≤ n) :
    p ≤ (readCheckpoint w n c).checkpointPosition := by
  obtain ⟨-, i, j, hij⟩ := h
  rw [readCheckpoint_cp]
  refine Nat.le_trans ?_ (Nat.le_max_left _ _)
  cases i with
  | false => exact Nat.le_trans (le_readPair_of_word hij hn) (le_readPair_cp true _)
  | true => exact le_readPair_of_word hij hn

/-- What is held, as far as it lies in the file, is not ahead of what is read. -/
theorem le_readCheckpoint (h : Holds w p) (hn : n < 0 ∨ p ≤ n)
    (hc : headerSize ≤ c.checkpointPosition) :
    p ≤ (readCheckpoint w n c).checkpointPosition := by
  obtain rfl | hhard | hsoft := h
  · exact Nat.le_trans hc (le_readCheckpoint_cp w n c)
  · exact Nat.le_trans (le_readCheckpoint_hard hhard) hard_le_readCheckpoint
  · exact le_readCheckpoint_soft hsoft hn

/-- Only the four words count. -/
theorem readCheckpoint_congr {w' : Nat → Int} (hw : ∀ k < 4, w' k = w k) :
    readCheckpoint w' n c = readCheckpoint w n c := by
  have h0 := hw 0 (by decide)
  have h1 := hw 1 (by decide)
  have h2 := hw 2 (by decide)
  have h3 := hw 3 (by decide)
  simp only [readCheckpoint, readPair, readHard, readSoft, Bool.toNat_false, Bool.toNat_true,
    Nat.mul_zero, Nat.mul_one, Nat.add_zero, Nat.zero_add, Nat.reduceAdd, h0, h1, h2, h3]

end Checkpoints

/-! ## Words in a file that changes -/

/-- A write behind the words, wherever it is. -/
theorem headerWord_pwrite_behind {f : Bytes} (hf : headerSize ≤ f.length) {off : Nat}
    (hoff : 32 ≤ off) (bs : Bytes) {k : Nat} (hk : k < 4) :
    headerWord (pwrite f off bs) k = headerWord f k := by
  rw [headerSize] at hf
  have htake := take_pwrite_of_le hoff (show 32 ≤ f.length by omega) bs
  have hword : ∀ g : Bytes, headerWord g k = headerWord (g.take 32) k := fun g => by
    rw [headerWord, headerWord, slice_take (by omega)]
  rw [hword, htake, ← hword]

namespace Journal

/-- What an opening leaves of the words: none is a soft checkpoint past the end
of the file. -/
theorem headerWord_repaired {header : Header} {size checkpoint : Nat}
    (hmax : ∀ k < 4, neg (header.checkpoint k) > size → checkpoint < 2 ^ 63) {l : List Nat}
    (hl : ∀ i ∈ l, i < 4) {f : Bytes} (hf : headerSize ≤ f.length) (k : Nat) :
    headerWord ((l.flatMap (repairCalls header size checkpoint)).foldl Call.apply f) k
      = if k ∈ l ∧ neg (header.checkpoint k) > size then -(checkpoint : Int)
        else headerWord f k := by
  induction l generalizing f with
  | nil => exact (if_neg fun h => absurd h.1 List.not_mem_nil).symm
  | cons i l ih =>
      obtain ⟨hi, hl⟩ := List.forall_mem_cons.mp hl
      rw [List.flatMap_cons, List.foldl_append]
      by_cases hrepair : neg (header.checkpoint i) > size
      · have hcp : (checkpoint : Int) < 2 ^ 63 := by exact_mod_cast hmax i hi hrepair
        have hcalls : repairCalls header size checkpoint i
            = [.pwrite (8 * i) (encodeInt64 (neg checkpoint)), .datasync] := if_pos hrepair
        have hone : [Call.pwrite (8 * i) (encodeInt64 (neg checkpoint)), .datasync].foldl
            Call.apply f = pwrite f (8 * i) (encodeInt64 (-(checkpoint : Int))) := by
          rw [neg_of_lt (by omega)]; rfl
        have hlen := length_pwrite_word hf hi (-(checkpoint : Int))
        rw [hcalls, hone, ih hl (by rw [hlen]; exact hf),
          headerWord_pwrite hf hi (by omega) (by omega)]
        by_cases hki : k = i
        · subst hki
          rw [if_pos rfl, ite_self, if_pos ⟨List.mem_cons_self, hrepair⟩]
        · rw [if_neg hki]
          simp only [List.mem_cons, hki, false_or]
      · have hcalls : repairCalls header size checkpoint i = [] := if_neg hrepair
        rw [hcalls, List.foldl_nil, ih hl hf]
        by_cases hki : k = i
        · subst hki
          rw [if_neg fun h => hrepair h.2, if_neg fun h => hrepair h.2]
        · simp only [List.mem_cons, hki, false_or]

/-- A pull needs the four words, which are in any file with a header. -/
theorem pullWithoutLocking_onto {j : Journal} {data : Bytes} (hlen : headerSize ≤ data.length) :
    pullWithoutLocking (j.withFile { j.file with data })
      = .ok () { j.withFile { j.file with data } with
          checkpoints := j.checkpoints.readCheckpoint (headerWord data) (-1) } := by
  have hlen' : 0 + 32 ≤ data.length := by rw [headerSize] at hlen; omega
  have hread : (j.withFile { j.file with data }).file.fullPread 32 0
      = (slice data 0 32, true) := by
    rw [File.fullPread_eq]
    exact Prod.ext rfl (decide_eq_true (.inr hlen'))
  have hword : ∀ k < 4, headerWord (slice data 0 32) k = headerWord data k := by
    intro k hk
    rw [headerWord, slice_slice (by omega), Nat.zero_add, Nat.zero_add, headerWord]
  rw [pullWithoutLocking, hread]
  exact congrArg (fun c => EStateM.Result.ok () { j.withFile { j.file with data } with
    checkpoints := c }) (Checkpoints.readCheckpoint_congr hword)

end Journal

end Joedb
