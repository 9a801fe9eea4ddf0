import Joedb.Interpreted.FreedomKeeper

/-!
# Used records

What a `Freedom_Keeper` is for: a set of used records, all of them below a size.
`Records` says that and nothing else, and both forms of the keeper refine it:
whatever the links in the lists, and whether or not the compactness is lost, an
operation does to the set what its name says.

The tests on vectors refine it in one direction only, which is the one that
their callers lean on: what passes is used, or free, from end to end.
-/

namespace Joedb

open Containers

@[ext] structure Records where
  used : Int → Bool
  size : Nat

namespace Records

/-- The records `i`, .., `i + n - 1`. -/
def range (i : Int) (n : Nat) (x : Int) : Bool := decide (i ≤ x ∧ x < i + n)

def grow (s : Records) (n : Nat) : Records := { s with size := max s.size n }

def use (s : Records) (i : Int) (n : Nat) : Records :=
  { s with used := fun x => s.used x || range i n x }

def free (s : Records) (i : Int) (n : Nat) : Records :=
  { s with used := fun x => s.used x && !range i n x }

theorem range_one (i x : Int) : range i 1 x = decide (x = i) := by
  simp only [range]
  exact decide_eq_decide.mpr (by omega)

theorem range_succ (i : Int) (n : Nat) (x : Int) :
    range i (n + 1) x = (range i 1 x || range (i + 1) n x) := by
  simp only [range]
  rw [← Bool.decide_or]
  exact decide_eq_decide.mpr (by omega)

theorem use_zero (s : Records) (i : Int) : s.use i 0 = s := by
  refine Records.ext (funext fun x => ?_) rfl
  have hnone : range i 0 x = false := decide_eq_false (by omega)
  simp only [use, hnone, Bool.or_false]

theorem use_succ (s : Records) (i : Int) (n : Nat) :
    (s.use i 1).use (i + 1) n = s.use i (n + 1) := by
  refine Records.ext (funext fun x => ?_) rfl
  simp only [use, range_succ i n x, Bool.or_assoc]

theorem free_zero (s : Records) (i : Int) : s.free i 0 = s := by
  refine Records.ext (funext fun x => ?_) rfl
  have hnone : range i 0 x = false := decide_eq_false (by omega)
  simp only [free, hnone, Bool.not_false, Bool.and_true]

theorem free_succ (s : Records) (i : Int) (n : Nat) :
    (s.free i 1).free (i + 1) n = s.free i (n + 1) := by
  refine Records.ext (funext fun x => ?_) rfl
  simp only [free, range_succ i n x, Bool.not_or, Bool.and_assoc]

end Records

/-! ## The lists -/

namespace ListFreedomKeeper

def records (k : ListFreedomKeeper) : Records := ⟨k.isUsed, k.getSize⟩

theorem records_create : create.records = ⟨fun _ => false, 0⟩ := by
  refine Records.ext (funext fun x => ?_) rfl
  have hout : ¬ (0 ≤ x ∧ x < 0) := by omega
  rw [show create.records.used x
    = (decide (0 ≤ x) && decide (x < 0) && !create.isFreeF x) from rfl,
    ← Bool.decide_and, decide_eq_false hout, Bool.false_and]

theorem slot_inj {i x : Int} (hi : 0 ≤ i) (hx : 0 ≤ x) : slot i = slot x ↔ i = x := by
  rw [slot, slot]
  omega

theorem isFreeF_setIsFree {k : ListFreedomKeeper} {i : Int} (hi : 0 ≤ i)
    (hsize : i < k.freedomSize) (b : Bool) {x : Int} (hx : 0 ≤ x) :
    (k.setIsFree i b).isFreeF x = if x = i then b else k.isFreeF x := by
  rw [isFreeF, setIsFree, isFreeF, List.getD_eq_getElem?_getD, List.getElem?_set,
    List.getD_eq_getElem?_getD]
  have hlen := k.length_isFreeV
  by_cases heq : x = i
  · subst heq
    rw [if_pos rfl, if_pos (by rw [hlen, slot]; omega), if_pos rfl]
    rfl
  · rw [if_neg fun h => heq ((slot_inj hi hx).mp h).symm, if_neg heq]

/-- Links do not tell what is used. -/
theorem records_eq_of_isFreeF {k k' : ListFreedomKeeper} (hsize : k'.freedomSize = k.freedomSize)
    (hfree : k'.isFreeV = k.isFreeV) : k'.records = k.records := by
  refine Records.ext (funext fun x => ?_) hsize
  simp only [records, isUsed, isFreeF, hsize, hfree]

theorem records_pushBack (k : ListFreedomKeeper) :
    k.pushBack.records = k.records.grow (k.records.size + 1) := by
  have hlinks : k.pushBack.records
      = ((k.resizeVector (k.freedomSize + 1)).setIsFree k.freedomSize true).records :=
    records_eq_of_isFreeF rfl rfl
  rw [hlinks]
  refine Records.ext (funext fun x => ?_) (Nat.max_eq_right (Nat.le_succ _)).symm
  have hnew : (k.resizeVector (k.freedomSize + 1)).freedomSize = k.freedomSize + 1 := rfl
  simp only [records, isUsed, Records.grow]
  by_cases hx : 0 ≤ x
  · rw [isFreeF_setIsFree (by omega) (by rw [hnew]; omega) true hx]
    show (_ && decide (x < ((k.freedomSize + 1 : Nat) : Int)) && _) = _
    by_cases heq : x = k.freedomSize
    · rw [if_pos heq, heq, decide_eq_false (Int.lt_irrefl _)]
      simp
    · have hlt : decide (x < ((k.freedomSize + 1 : Nat) : Int))
          = decide (x < (k.freedomSize : Int)) := decide_eq_decide.mpr (by omega)
      rw [if_neg heq, hlt]
      by_cases hin : x < (k.freedomSize : Int)
      · have hold : (k.resizeVector (k.freedomSize + 1)).isFreeF x = k.isFreeF x := by
          have hslot : slot x < k.isFreeV.length := by rw [k.length_isFreeV, slot]; omega
          rw [isFreeF, isFreeF, List.getD_eq_getElem?_getD, List.getD_eq_getElem?_getD]
          show ((Containers.resize k.isFreeV _ false)[slot x]?).getD false = _
          rw [getElem?_resize_of_lt hslot (by rw [slot]; omega)]
        rw [hold]
      · rw [decide_eq_false hin, Bool.and_false, Bool.false_and, Bool.false_and]
  · rw [decide_eq_false hx, Bool.false_and, Bool.false_and, Bool.false_and, Bool.false_and]

theorem records_resizeGo (newSize fuel : Nat) (k : ListFreedomKeeper)
    (hfuel : newSize - k.getSize ≤ fuel) :
    (resizeGo newSize fuel k).records = k.records.grow newSize := by
  have hgrown : ∀ {k : ListFreedomKeeper}, newSize ≤ k.getSize →
      k.records = k.records.grow newSize := fun h =>
    Records.ext rfl (Nat.max_eq_left h).symm
  induction fuel generalizing k with
  | zero => exact hgrown (k := k) (by omega)
  | succ fuel ih =>
      rw [resizeGo]
      split
      · next hlt =>
          have hpush := k.records_pushBack
          have hsize : k.pushBack.getSize = k.getSize + 1 := rfl
          rw [ih k.pushBack (by omega), hpush]
          refine Records.ext rfl ?_
          show max (max k.getSize (k.getSize + 1)) newSize = max k.getSize newSize
          omega
      · next hge => exact hgrown (Nat.not_lt.mp hge)

theorem records_resize (k : ListFreedomKeeper) (newSize : Nat) :
    (k.resize newSize).records = k.records.grow newSize :=
  records_resizeGo newSize _ k (Nat.le_refl _)

theorem records_use (k : ListFreedomKeeper) {i : Int} (hi : 0 ≤ i)
    (hsize : i < k.records.size) : (k.use i).records = k.records.use i 1 := by
  have hlinks : (k.use i).records = (k.setIsFree i false).records :=
    records_eq_of_isFreeF rfl rfl
  rw [hlinks]
  refine Records.ext (funext fun x => ?_) rfl
  simp only [records, isUsed, Records.use, Records.range_one]
  by_cases hx : 0 ≤ x
  · rw [isFreeF_setIsFree hi hsize false hx]
    show (_ && decide (x < (k.freedomSize : Int)) && _) = _
    by_cases heq : x = i
    · subst heq
      rw [if_pos rfl, decide_eq_true hx, decide_eq_true (show x < (k.freedomSize : Int) from hsize)]
      simp
    · rw [if_neg heq, decide_eq_false heq, Bool.or_false]
  · rw [decide_eq_false hx, decide_eq_false (show ¬ x = i by omega)]
    simp

theorem records_free (k : ListFreedomKeeper) {i : Int} (hi : 0 ≤ i)
    (hsize : i < k.records.size) : (k.free i).records = k.records.free i 1 := by
  have hlinks : (k.free i).records = (k.setIsFree i true).records :=
    records_eq_of_isFreeF rfl rfl
  rw [hlinks]
  refine Records.ext (funext fun x => ?_) rfl
  simp only [records, isUsed, Records.free, Records.range_one]
  by_cases hx : 0 ≤ x
  · rw [isFreeF_setIsFree hi hsize true hx]
    show (_ && decide (x < (k.freedomSize : Int)) && _) = _
    by_cases heq : x = i
    · rw [if_pos heq, decide_eq_true heq]
      simp
    · rw [if_neg heq, decide_eq_false heq, Bool.not_false, Bool.and_true]
  · rw [decide_eq_false hx]
    simp

theorem records_useVector (k : ListFreedomKeeper) {i : Int} {n : Nat} (hi : 0 ≤ i)
    (hsize : i + n ≤ k.records.size) : (useVector i n k).records = k.records.use i n := by
  induction n generalizing k i with
  | zero => exact (Records.use_zero _ _).symm
  | succ n ih =>
      have hstep := k.records_use hi (by omega)
      have hsame : (k.use i).records.size = k.records.size := rfl
      rw [useVector, ih (k.use i) (by omega) (by rw [hsame]; omega), hstep, Records.use_succ]

theorem records_freeVector (k : ListFreedomKeeper) {i : Int} {n : Nat} (hi : 0 ≤ i)
    (hsize : i + n ≤ k.records.size) : (freeVector i n k).records = k.records.free i n := by
  induction n generalizing k i with
  | zero => exact (Records.free_zero _ _).symm
  | succ n ih =>
      have hstep := k.records_free hi (by omega)
      have hsame : (k.free i).records.size = k.records.size := rfl
      rw [freeVector, ih (k.free i) (by omega) (by rw [hsame]; omega), hstep, Records.free_succ]

theorem isFreeFrom_sound {k : ListFreedomKeeper} {i : Int} {n : Nat}
    (h : k.isFreeFrom i n = true) {x : Int} (hlo : i ≤ x) (hhi : x < i + n) :
    k.isUsed x = false := by
  induction n generalizing i with
  | zero => omega
  | succ n ih =>
      rw [isFreeFrom] at h
      split at h
      · next hend =>
          have hout : ¬ x < (k.freedomSize : Int) := by omega
          rw [isUsed, decide_eq_false hout, Bool.and_false, Bool.false_and]
      · split at h
        · cases h
        · next hfree =>
            by_cases heq : x = i
            · have hi : k.isFreeF i = true := by simpa using hfree
              rw [isUsed, heq, hi, Bool.not_true, Bool.and_false]
            · exact ih h (by omega) (by omega)

theorem isUsedFrom_sound {k : ListFreedomKeeper} {i : Int} {n : Nat}
    (h : k.isUsedFrom i n = true) (hi : 0 ≤ i) (hsize : i + n ≤ k.freedomSize) {x : Int}
    (hlo : i ≤ x) (hhi : x < i + n) : k.isUsed x = true := by
  induction n generalizing i with
  | zero => omega
  | succ n ih =>
      rw [isUsedFrom] at h
      split at h
      · cases h
      · next hfree =>
          by_cases heq : x = i
          · rw [isUsed, heq, decide_eq_true hi, decide_eq_true (by omega),
              Bool.eq_false_iff.mpr hfree]
            rfl
          · exact ih h (by omega) (by omega) (by omega) (by omega)

end ListFreedomKeeper

/-! ## The two numbers -/

namespace DenseFreedomKeeper

def records (k : DenseFreedomKeeper) : Records := ⟨k.isUsed, k.getSize⟩

theorem isUsed_eq_range (k : DenseFreedomKeeper) (x : Int) :
    k.isUsed x = Records.range 0 k.usedSize x := by
  rw [isUsed, Records.range, ← Bool.decide_and]
  exact decide_eq_decide.mpr (by omega)

theorem records_useVector {k k' : DenseFreedomKeeper} {i : Int} {n : Nat}
    (h : k.useVector i n = some k') : k'.records = k.records.use i n := by
  rw [useVector] at h
  split at h
  · next hlast =>
      obtain rfl := Option.some.inj h
      refine Records.ext (funext fun x => ?_) rfl
      simp only [records, isUsed_eq_range, Records.use, Records.range]
      rw [← Bool.decide_or]
      exact decide_eq_decide.mpr (by omega)
  · cases h

theorem records_use {k k' : DenseFreedomKeeper} {i : Int} (h : k.use i = some k') :
    k'.records = k.records.use i 1 := by
  refine records_useVector (k := k) ?_
  rw [← h, use, useVector]
  rfl

theorem records_freeVector {k k' : DenseFreedomKeeper} {i : Int} {n : Nat} (hi : 0 ≤ i)
    (h : k.freeVector i n = some k') : k'.records = k.records.free i n := by
  rw [freeVector] at h
  split at h
  · next hlast =>
      obtain rfl := Option.some.inj h
      refine Records.ext (funext fun x => ?_) rfl
      simp only [records, isUsed_eq_range, Records.free, Records.range]
      rw [← decide_not, ← Bool.decide_and]
      exact decide_eq_decide.mpr (by omega)
  · cases h

theorem records_free {k k' : DenseFreedomKeeper} {i : Int} (h : k.free i = some k') :
    k'.records = k.records.free i 1 := by
  rw [free] at h
  split at h
  · next hlast =>
      refine records_freeVector (k := k) hlast.2 ?_
      rw [freeVector, if_pos (by omega)]
      exact h
  · cases h

end DenseFreedomKeeper

/-! ## Both -/

namespace FreedomKeeper

def records (k : FreedomKeeper) : Records := ⟨k.isUsed, k.getSize⟩

theorem records_dense {k : FreedomKeeper} (h : k.dense = true) : k.records = k.dfk.records := by
  refine Records.ext (funext fun x => ?_) ?_
  · simp only [records, isUsed, h, if_true]; rfl
  · simp only [records, getSize, h, if_true]; rfl

theorem records_list {k : FreedomKeeper} (h : k.dense = false) : k.records = k.lfk.records := by
  refine Records.ext (funext fun x => ?_) ?_
  · simp only [records, isUsed, h]; rfl
  · simp only [records, getSize, h]; rfl

/-- Losing the compactness loses nothing else. -/
theorem records_copied {k : FreedomKeeper} (h : k.dense = true) :
    (ListFreedomKeeper.useVector 0 k.dfk.getUsedCount
      (k.lfk.resize k.dfk.getSize)).records = k.records := by
  have hresize : (k.lfk.resize k.dfk.getSize).records = ⟨fun _ => false, k.dfk.getSize⟩ := by
    rw [ListFreedomKeeper.records_resize, k.untouched h, ListFreedomKeeper.records_create]
    exact Records.ext rfl (Nat.zero_max _)
  rw [ListFreedomKeeper.records_useVector _ (Int.le_refl 0) (by
    rw [hresize, Int.zero_add]; exact Int.ofNat_le.mpr k.dfk.usedSize_le), hresize,
    records_dense h]
  refine Records.ext (funext fun x => ?_) rfl
  simp only [Records.use, Bool.false_or]
  exact (k.dfk.isUsed_eq_range x).symm

/-- What both forms do, the keeper does. -/
theorem records_switch (k : FreedomKeeper) {d : DenseFreedomKeeper → Option DenseFreedomKeeper}
    {l : ListFreedomKeeper → ListFreedomKeeper} {R : Records → Records → Prop}
    (hd : ∀ k k', d k = some k' → R k.records k'.records)
    (hl : ∀ k, R k.records (l k).records) : R k.records (k.switch d l).records := by
  rw [switch]
  by_cases hdense : k.dense = true
  case neg =>
      rw [if_neg hdense, records_list (Bool.eq_false_iff.mpr hdense), records_list rfl]
      exact hl _
  case pos =>
      rw [if_pos hdense]
      cases hk : d k.dfk with
      | none =>
          have hcopied := hl (ListFreedomKeeper.useVector 0 k.dfk.getUsedCount
            (k.lfk.resize k.dfk.getSize))
          rw [records_copied hdense] at hcopied
          rw [records_list (k := k.loseCompactness l) rfl]
          exact hcopied
      | some k' =>
          rw [records_dense hdense, records_dense (k := { k with dfk := k' }) hdense]
          exact hd _ _ hk

theorem records_pushBack (k : FreedomKeeper) :
    k.pushBack.records = k.records.grow (k.records.size + 1) := by
  refine k.records_switch (R := fun s s' => s' = s.grow (s.size + 1)) ?_ ?_
  · intro k k' h
    obtain rfl := Option.some.inj h
    exact Records.ext rfl (Nat.max_eq_right (Nat.le_succ _)).symm
  · exact fun k => k.records_pushBack

theorem records_resize (k : FreedomKeeper) (n : Nat) :
    (k.resize n).records = k.records.grow n := by
  refine k.records_switch (R := fun s s' => s' = s.grow n) ?_ fun k => k.records_resize n
  intro k k' h
  obtain rfl := Option.some.inj h
  rfl

theorem getSize_resize (k : FreedomKeeper) (n : Nat) : (k.resize n).getSize = max k.getSize n :=
  congrArg Records.size (k.records_resize n)

/-- A size that is not larger changes nothing. -/
theorem resize_of_le {k : FreedomKeeper} {n : Nat} (h : n ≤ k.getSize) : k.resize n = k := by
  obtain ⟨lfk, dfk, dense, untouched⟩ := k
  cases dense with
  | true =>
      have hmax : max dfk.freeSize n = dfk.freeSize := Nat.max_eq_left h
      show FreedomKeeper.mk lfk (dfk.resize n) true untouched = _
      simp only [DenseFreedomKeeper.resize, hmax]
  | false =>
      have hle : n - lfk.getSize = 0 := Nat.sub_eq_zero_of_le h
      show FreedomKeeper.mk (lfk.resize n) dfk false _ = _
      simp only [ListFreedomKeeper.resize, hle, ListFreedomKeeper.resizeGo]

theorem records_use (k : FreedomKeeper) {i : Int} (hi : 0 ≤ i)
    (hsize : i < k.records.size) : (k.use i).records = k.records.use i 1 :=
  k.records_switch (R := fun s s' => i < s.size → s' = s.use i 1)
    (fun _ _ h _ => DenseFreedomKeeper.records_use h) (fun k h => k.records_use hi h) hsize

theorem records_useVector (k : FreedomKeeper) {i : Int} {n : Nat} (hi : 0 ≤ i)
    (hsize : i + n ≤ k.records.size) : (k.useVector i n).records = k.records.use i n :=
  k.records_switch (R := fun s s' => i + n ≤ s.size → s' = s.use i n)
    (fun _ _ h _ => DenseFreedomKeeper.records_useVector h)
    (fun k h => k.records_useVector hi h) hsize

/-- A sum that fits, and one that does not: what a dense keeper of used records makes of it is
smaller than what it had. -/
theorem useVector64_cases (k : FreedomKeeper) (i : Int) (n : Nat) :
    (i + n ≤ k.getSize ∧ k.useVector64 i n = .ok (k.useVector i n)) ∨
      (k.dense = true ∧ i = k.dfk.usedSize ∧ 2 ^ 63 ≤ i + n ∧ 0 ≤ word (i + n) ∧
        ∃ h : (word (i + n)).toNat ≤ k.dfk.freeSize, k.useVector64 i n
          = .ok { k with dfk := ⟨(word (i + n)).toNat, k.dfk.freeSize, h⟩ }) ∨
      (2 ^ 63 ≤ i + n ∧ k.useVector64 i n = .error .negative) ∨
      (k.getSize < i + n ∧ k.useVector64 i n = .error .undefined) := by
  rw [useVector64]
  by_cases hdense : k.dense ∧ i = k.dfk.usedSize ∧ word (k.dfk.usedSize + n) ≤ k.dfk.freeSize
  · obtain ⟨hd, hi, hle⟩ := id hdense
    have hsize : k.getSize = k.dfk.freeSize := if_pos hd
    rw [if_pos hdense]
    rw [hi]
    by_cases hover : 2 ^ 63 ≤ (k.dfk.usedSize : Int) + n
    · by_cases hneg : 0 ≤ word (k.dfk.usedSize + n)
      · have hnat : (word (k.dfk.usedSize + n)).toNat ≤ k.dfk.freeSize := by omega
        rw [dif_pos ⟨hnat, hneg⟩]
        exact .inr (.inl ⟨hd, rfl, hover, hneg, hnat, rfl⟩)
      · rw [dif_neg fun h => hneg h.2]
        exact .inr (.inr (.inl ⟨hover, rfl⟩))
    · have hword : word (k.dfk.usedSize + n) = k.dfk.usedSize + n :=
        word_of_fits (by omega) (by omega)
      have hnat : (word (k.dfk.usedSize + n)).toNat = k.dfk.usedSize + n := by omega
      have huse : k.dfk.useVector k.dfk.usedSize n
          = some ⟨k.dfk.usedSize + n, k.dfk.freeSize, by omega⟩ :=
        dif_pos ⟨rfl, by omega⟩
      rw [dif_pos ⟨by omega, by omega⟩]
      refine .inl ⟨by omega, congrArg Except.ok ?_⟩
      rw [useVector, switch, if_pos hd, huse]
      simp only [hnat]
  · rw [if_neg hdense]
    by_cases hend : i + n ≤ k.getSize
    · rw [if_pos hend]
      exact .inl ⟨hend, rfl⟩
    · rw [if_neg hend]
      exact .inr (.inr (.inr ⟨Int.not_le.mp hend, rfl⟩))

theorem useVector64_of_le {k : FreedomKeeper} {i : Int} {n : Nat} (hdense : k.dense = true)
    (hi : i = k.dfk.usedSize) (hpos : 0 ≤ word (i + n)) (hle : word (i + n) ≤ k.dfk.usedSize) :
    ∃ k', k.useVector64 i n = .ok k' := by
  subst hi
  have hfree := k.dfk.usedSize_le
  rw [useVector64, if_pos ⟨hdense, rfl, by omega⟩, dif_pos ⟨by omega, hpos⟩]
  exact ⟨_, rfl⟩

theorem useVector64_of_fits {k : FreedomKeeper} {i : Int} {n : Nat} (hend : i + n ≤ k.getSize)
    (hfits : i + n < 2 ^ 63) : k.useVector64 i n = .ok (k.useVector i n) := by
  rcases k.useVector64_cases i n with h | ⟨-, -, hover, -⟩ | ⟨hover, -⟩ | ⟨hover, -⟩
  · exact h.2
  · exact absurd hfits (Int.not_lt.mpr hover)
  · exact absurd hfits (Int.not_lt.mpr hover)
  · exact absurd hend (Int.not_le.mpr hover)

theorem records_free (k : FreedomKeeper) {i : Int} (hi : 0 ≤ i)
    (hsize : i < k.records.size) : (k.free i).records = k.records.free i 1 :=
  k.records_switch (R := fun s s' => i < s.size → s' = s.free i 1)
    (fun _ _ h _ => DenseFreedomKeeper.records_free h) (fun k h => k.records_free hi h) hsize

theorem records_freeVector (k : FreedomKeeper) {i : Int} {n : Nat} (hi : 0 ≤ i)
    (hsize : i + n ≤ k.records.size) : (k.freeVector i n).records = k.records.free i n :=
  k.records_switch (R := fun s s' => i + n ≤ s.size → s' = s.free i n)
    (fun _ _ h _ => DenseFreedomKeeper.records_freeVector hi h)
    (fun k h => k.records_freeVector hi h) hsize

/-- What is used is below the size. -/
theorem lt_of_isUsed {k : FreedomKeeper} {x : Int} (h : k.isUsed x = true) :
    0 ≤ x ∧ x < k.getSize := by
  rw [isUsed] at h
  rw [getSize]
  cases hdense : k.dense with
  | true =>
      rw [hdense, if_pos rfl, DenseFreedomKeeper.isUsed, Bool.and_eq_true] at h
      have hle := k.dfk.usedSize_le
      have hlt := of_decide_eq_true h.2
      exact ⟨of_decide_eq_true h.1, by rw [if_pos rfl, DenseFreedomKeeper.getSize]; omega⟩
  | false =>
      rw [hdense, if_neg (by decide), ListFreedomKeeper.isUsed, Bool.and_eq_true,
        Bool.and_eq_true] at h
      exact ⟨of_decide_eq_true h.1.1, of_decide_eq_true h.1.2⟩

/-- A vector that passes for free is free. -/
theorem isFreeVector_sound {k : FreedomKeeper} {i : Int} {n : Nat}
    (h : k.isFreeVector i n = true) :
    0 ≤ i ∧ ∀ x, i ≤ x → x < i + n → k.isUsed x = false := by
  rw [isFreeVector] at h
  cases hdense : k.dense with
  | true =>
      rw [hdense, if_pos rfl, DenseFreedomKeeper.isFreeVector] at h
      have hge := of_decide_eq_true h
      refine ⟨by omega, fun x hlo _ => ?_⟩
      have hout : ¬ x < (k.dfk.usedSize : Int) := by omega
      rw [isUsed, hdense, if_pos rfl, DenseFreedomKeeper.isUsed, decide_eq_false hout,
        Bool.and_false]
  | false =>
      rw [hdense, if_neg (by decide), ListFreedomKeeper.isFreeVector] at h
      split at h
      · cases h
      · next hi =>
          refine ⟨by omega, fun x hlo hhi => ?_⟩
          rw [isUsed, hdense, if_neg (by decide)]
          exact ListFreedomKeeper.isFreeFrom_sound h hlo hhi

/-- A vector that passes for used is used, and ends below the size. -/
theorem isUsedVector_sound {k : FreedomKeeper} {i : Int} {n : Nat}
    (h : k.isUsedVector i n = true) :
    0 ≤ i ∧ i + n ≤ k.getSize ∧ ∀ x, i ≤ x → x < i + n → k.isUsed x = true := by
  rw [isUsedVector] at h
  cases hdense : k.dense with
  | true =>
      rw [hdense, if_pos rfl, DenseFreedomKeeper.isUsedVector, Bool.and_eq_true,
        Bool.and_eq_true] at h
      have hlo := of_decide_eq_true h.1.1
      have hend := of_decide_eq_true h.2
      have hle := k.dfk.usedSize_le
      refine ⟨hlo, ?_, fun x hx hn => ?_⟩
      · rw [getSize, hdense, if_pos rfl, DenseFreedomKeeper.getSize]; omega
      · rw [isUsed, hdense, if_pos rfl, DenseFreedomKeeper.isUsed, decide_eq_true (by omega),
          decide_eq_true (by omega)]
        rfl
  | false =>
      rw [hdense, if_neg (by decide), ListFreedomKeeper.isUsedVector] at h
      split at h
      · cases h
      · next hin =>
          refine ⟨by omega, ?_, fun x hlo hhi => ?_⟩
          · rw [getSize, hdense, if_neg (by decide), ListFreedomKeeper.getSize]; omega
          · rw [isUsed, hdense, if_neg (by decide)]
            exact ListFreedomKeeper.isUsedFrom_sound h (by omega) (by omega) hlo hhi

end FreedomKeeper

end Joedb
