import Joedb.Interpreted.FreedomLists

/-!
# Runs of a Freedom_Keeper

Any legal calls, one after another. In every state the keeper agrees with
`Records`, and its links are two circular lists: the used records and the free
ones.

The list of the used records comes in the order in which they were used, and
that is what a keeper that is dense has in common with one that never was. The
two predicates on vectors have it in common too, but for empty vectors: a list
asks where the size ends, two numbers ask where the used records end.
-/

namespace Joedb

open Links

/-- The integers `i`, .., `i + n - 1`. -/
def ints (i : Int) : Nat → List Int
  | 0 => []
  | n + 1 => i :: ints (i + 1) n

theorem mem_ints {i : Int} {n : Nat} {x : Int} : x ∈ ints i n ↔ i ≤ x ∧ x < i + n := by
  induction n generalizing i with
  | zero => exact ⟨fun h => (List.not_mem_nil h).elim, fun h => by omega⟩
  | succ n ih =>
      rw [ints, List.mem_cons, ih]
      omega

theorem nodup_ints (i : Int) (n : Nat) : (ints i n).Nodup := by
  induction n generalizing i with
  | zero => exact List.nodup_nil
  | succ n ih => exact List.nodup_cons.mpr ⟨fun h => by have := mem_ints.mp h; omega, ih _⟩

@[simp] theorem length_ints (i : Int) (n : Nat) : (ints i n).length = n := by
  induction n generalizing i with
  | zero => rfl
  | succ n ih => rw [ints, List.length_cons, ih]

theorem ints_add (i : Int) (m n : Nat) : ints i (m + n) = ints i m ++ ints (i + m) n := by
  induction m generalizing i with
  | zero => rw [Nat.zero_add, ints, List.nil_append, Int.natCast_zero, Int.add_zero]
  | succ m ih =>
      rw [Nat.succ_add_eq_add_succ, Nat.add_succ, ints, ints, List.cons_append, ih,
        show i + ((m + 1 : Nat) : Int) = i + 1 + m by omega]

/-- Taken out one after another, from where they start. -/
theorem foldl_erase_ints {xs : List Int} {i : Int} (n : Nat) (hxs : ∀ x ∈ xs, x < i) :
    (ints i n).foldl List.erase (xs ++ ints i n) = xs := by
  induction n generalizing i with
  | zero => rw [ints, List.foldl_nil, List.append_nil]
  | succ n ih =>
      have hnot : i ∉ xs := fun h => Int.lt_irrefl _ (hxs i h)
      rw [ints, List.foldl_cons, List.erase_append_right _ hnot, List.erase_cons_head]
      exact ih fun x hx => by have := hxs x hx; omega

/-! ## What a keeper enumerates -/

/-- Links, used records, a size and a count that fit together. -/
structure Enumerates (next prev : Int → Int) (used : Int → Bool) (size : Nat) (count : Int)
    (fs us : List Int) : Prop where
  freeCycle : Cycle next prev freeList fs
  usedCycle : Cycle next prev usedList us
  mem_free : ∀ x, x ∈ fs ↔ (0 ≤ x ∧ x < size) ∧ used x = false
  mem_used : ∀ x, x ∈ us ↔ used x = true
  count : count = us.length

namespace ListFreedomKeeper

/-- The used records in their order. -/
def Orders (k : ListFreedomKeeper) (us : List Int) : Prop := ∃ fs, k.Holds fs us

theorem Holds.enumerates {k : ListFreedomKeeper} {fs us : List Int} (h : k.Holds fs us) :
    Enumerates k.getNext k.getPrevious k.isUsed k.getSize k.getUsedCount fs us :=
  ⟨h.freeRing.1, h.usedRing.1, h.mem_free, h.mem_used, h.count⟩

namespace Orders

variable {k : ListFreedomKeeper} {us : List Int}

theorem pushBack (h : k.Orders us) : k.pushBack.Orders us :=
  let ⟨_, h⟩ := h
  ⟨_, h.pushBack⟩

theorem resizeGo (h : k.Orders us) (newSize fuel : Nat) :
    (resizeGo newSize fuel k).Orders us := by
  induction fuel generalizing k with
  | zero => exact h
  | succ fuel ih =>
      rw [ListFreedomKeeper.resizeGo]
      split
      · exact ih h.pushBack
      · exact h

theorem use (h : k.Orders us) {i : Int} (hi : 0 ≤ i ∧ i < k.getSize)
    (hfree : k.isUsed i = false) : (k.use i).Orders (us ++ [i]) :=
  let ⟨_, h⟩ := h
  ⟨_, h.use ((h.mem_free i).mpr ⟨hi, hfree⟩)⟩

theorem free (h : k.Orders us) {i : Int} (hi : k.isUsed i = true) :
    (k.free i).Orders (us.erase i) :=
  let ⟨_, h⟩ := h
  ⟨_, h.free ((h.mem_used i).mpr hi)⟩

theorem useVector {n : Nat} (h : k.Orders us) {i : Int}
    (hfree : ∀ x ∈ ints i n, (0 ≤ x ∧ x < k.getSize) ∧ k.isUsed x = false) :
    (useVector i n k).Orders (us ++ ints i n) := by
  induction n generalizing k i us with
  | zero => rw [ints, List.append_nil]; exact h
  | succ n ih =>
      obtain ⟨hi, hrest⟩ := List.forall_mem_cons.mp hfree
      have hrecords := k.records_use hi.1.1 hi.1.2
      have hstep := ih (h.use hi.1 hi.2) (i := i + 1) fun x hx => by
        obtain ⟨hin, hx'⟩ := hrest x hx
        have hne : decide (x = i) = false := decide_eq_false fun heq => by
          have := mem_ints.mp hx; omega
        have hused := congrFun (congrArg Records.used hrecords) x
        simp only [records, Records.use, Records.range_one, hne, Bool.or_false] at hused
        exact ⟨hin, hused.trans hx'⟩
      rw [List.append_assoc] at hstep
      exact hstep

theorem freeVector {n : Nat} (h : k.Orders us) {i : Int}
    (hused : ∀ x ∈ ints i n, k.isUsed x = true) :
    (freeVector i n k).Orders ((ints i n).foldl List.erase us) := by
  induction n generalizing k i us with
  | zero => exact h
  | succ n ih =>
      obtain ⟨hi, hrest⟩ := List.forall_mem_cons.mp hused
      obtain ⟨fs, hk⟩ := h
      obtain ⟨hlo, hhi⟩ := hk.lt_of_mem_used ((hk.mem_used i).mpr hi)
      have hrecords := k.records_free hlo hhi
      refine ih (Orders.free ⟨fs, hk⟩ hi) (i := i + 1) fun x hx => ?_
      have hne : decide (x = i) = false := decide_eq_false fun heq => by
        have := mem_ints.mp hx; omega
      have heq := congrFun (congrArg Records.used hrecords) x
      simp only [records, Records.free, Records.range_one, hne, Bool.not_false,
        Bool.and_true] at heq
      exact heq.trans (hrest x hx)

end Orders

end ListFreedomKeeper

namespace DenseFreedomKeeper

variable (k : DenseFreedomKeeper)

/-- The used records from `a` on. -/
theorem path_used {a : Nat} (m : Nat) (ha : a + m + 1 = k.usedSize) :
    Path k.getNext k.getPrevious a (ints (a + 1) m) usedList := by
  have hle := k.usedSize_le
  induction m generalizing a with
  | zero =>
      refine ⟨?_, ?_⟩
      · rw [getNext, if_neg (by rw [usedList]; omega), if_neg (by rw [freeList]; omega),
          if_pos (by omega)]
      · rw [getPrevious, if_pos rfl, if_neg (by omega)]
        omega
  | succ m ih =>
      have hrest := ih (a := a + 1) (by omega)
      refine ⟨?_, ?_, hrest⟩
      · rw [getNext, if_neg (by rw [usedList]; omega), if_neg (by rw [freeList]; omega),
          if_neg (by omega), if_neg (by omega)]
      · rw [getPrevious, if_neg (by rw [usedList]; omega), if_neg (by rw [freeList]; omega),
          if_neg (by omega), if_neg (by omega)]
        omega

/-- The free records from `a` on. -/
theorem path_free {a : Nat} (m : Nat) (hlo : k.usedSize ≤ a) (ha : a + m + 1 = k.freeSize) :
    Path k.getNext k.getPrevious a (ints (a + 1) m) freeList := by
  induction m generalizing a with
  | zero =>
      refine ⟨?_, ?_⟩
      · rw [getNext, if_neg (by rw [usedList]; omega), if_neg (by rw [freeList]; omega),
          if_neg (by omega), if_pos (by omega)]
      · rw [getPrevious, if_neg (by decide), if_pos rfl, if_neg (by omega)]
        omega
  | succ m ih =>
      have hrest := ih (a := a + 1) (by omega) (by omega)
      refine ⟨?_, ?_, hrest⟩
      · rw [getNext, if_neg (by rw [usedList]; omega), if_neg (by rw [freeList]; omega),
          if_neg (by omega), if_neg (by omega)]
      · rw [getPrevious, if_neg (by rw [usedList]; omega), if_neg (by rw [freeList]; omega),
          if_neg (by omega), if_neg (by omega)]
        omega

theorem enumerates : Enumerates k.getNext k.getPrevious k.isUsed k.getSize k.getUsedCount
    (ints k.usedSize (k.freeSize - k.usedSize)) (ints 0 k.usedSize) := by
  have hle := k.usedSize_le
  have hused : ∀ x, k.isUsed x = true ↔ 0 ≤ x ∧ x < k.usedSize := fun x => by
    rw [isUsed, Bool.and_eq_true, decide_eq_true_iff, decide_eq_true_iff]
  have hnodup : ∀ {h : Int} {i : Int} {n : Nat}, h < i → (h :: ints i n).Nodup :=
    fun hlt => List.nodup_cons.mpr ⟨fun hm => by have := mem_ints.mp hm; omega, nodup_ints _ _⟩
  refine ⟨⟨?_, hnodup (by rw [freeList]; omega)⟩, ⟨?_, hnodup (by decide)⟩, fun x => ?_,
    fun x => ?_, by rw [length_ints]; rfl⟩
  · rcases Nat.eq_or_lt_of_le hle with heq | hlt
    · rw [heq, Nat.sub_self]
      refine ⟨?_, ?_⟩
      · rw [getNext, if_neg (by decide), if_pos rfl, getFirstFree, if_pos heq]
      · rw [getPrevious, if_neg (by decide), if_pos rfl, if_pos heq]
    · obtain ⟨m, hm⟩ : ∃ m, k.freeSize - k.usedSize = m + 1 :=
        ⟨k.freeSize - k.usedSize - 1, by omega⟩
      rw [hm]
      refine ⟨?_, ?_, k.path_free m (Nat.le_refl _) (by omega)⟩
      · rw [getNext, if_neg (by decide), if_pos rfl, getFirstFree, if_neg (by omega)]
      · rw [getPrevious, if_neg (by rw [usedList]; omega), if_neg (by rw [freeList]; omega),
          if_pos rfl]
  · cases hm : k.usedSize with
    | zero =>
        refine ⟨?_, ?_⟩
        · rw [getNext, if_pos rfl, getFirstUsed, if_pos hm]
        · rw [getPrevious, if_pos rfl, if_pos hm]
    | succ m =>
        refine ⟨?_, ?_, k.path_used (a := 0) m (by omega)⟩
        · rw [getNext, if_pos rfl, getFirstUsed, if_neg (by omega)]
        · rw [getPrevious, if_neg (by decide), if_neg (by decide), if_neg (by omega),
            if_pos (by decide)]
  · rw [mem_ints, ← Bool.not_eq_true, hused, getSize]
    omega
  · rw [mem_ints, hused]
    omega

end DenseFreedomKeeper

namespace FreedomKeeper

/-- The used records of either form, in their order. -/
def Orders (k : FreedomKeeper) (us : List Int) : Prop :=
  if k.dense then us = ints 0 k.dfk.usedSize else k.lfk.Orders us

theorem orders_dense {k : FreedomKeeper} (h : k.dense = true) {us : List Int} :
    k.Orders us ↔ us = ints 0 k.dfk.usedSize := by rw [Orders, if_pos h]

theorem orders_list {k : FreedomKeeper} (h : k.dense = false) {us : List Int} :
    k.Orders us ↔ k.lfk.Orders us := by rw [Orders, if_neg (by rw [h]; decide)]

theorem orders_create : create.Orders [] := rfl

theorem Orders.enumerates {k : FreedomKeeper} {us : List Int} (h : k.Orders us) :
    ∃ fs, Enumerates k.getNext k.getPrevious k.isUsed k.getSize k.getUsedCount fs us := by
  have hsame : ∀ {b : Bool} {α : Type} {f g : α}, b = true → (if b then f else g) = f :=
    fun hb => if_pos hb
  cases hdense : k.dense with
  | true =>
      rw [orders_dense hdense] at h
      refine ⟨ints k.dfk.usedSize (k.dfk.freeSize - k.dfk.usedSize), ?_⟩
      have he := k.dfk.enumerates
      rw [← h] at he
      have hnext : k.getNext = k.dfk.getNext := funext fun x => hsame hdense
      have hprev : k.getPrevious = k.dfk.getPrevious := funext fun x => hsame hdense
      have hused : k.isUsed = k.dfk.isUsed := funext fun x => hsame hdense
      rw [hnext, hprev, hused, show k.getSize = k.dfk.getSize from hsame hdense,
        show k.getUsedCount = k.dfk.getUsedCount from hsame hdense]
      exact he
  | false =>
      rw [orders_list hdense] at h
      obtain ⟨fs, h⟩ := h
      have hother : ∀ {α : Type} {f g : α}, (if k.dense then f else g) = g :=
        fun {α f g} => by rw [hdense]; rfl
      have hnext : k.getNext = k.lfk.getNext := funext fun x => hother
      have hprev : k.getPrevious = k.lfk.getPrevious := funext fun x => hother
      have hused : k.isUsed = k.lfk.isUsed := funext fun x => hother
      refine ⟨fs, ?_⟩
      rw [hnext, hprev, hused, show k.getSize = k.lfk.getSize from hother,
        show k.getUsedCount = k.lfk.getUsedCount from hother]
      exact h.enumerates

/-- The lists that a dense keeper is copied to. -/
theorem orders_copied {k : FreedomKeeper} (h : k.dense = true) :
    (ListFreedomKeeper.useVector 0 k.dfk.getUsedCount
      (k.lfk.resize k.dfk.getSize)).Orders (ints 0 k.dfk.usedSize) := by
  have hcreate : ListFreedomKeeper.create.Orders [] := ⟨[], ListFreedomKeeper.holds_create⟩
  rw [k.untouched h]
  have hle := k.dfk.usedSize_le
  have hrecords := ListFreedomKeeper.create.records_resize k.dfk.getSize
  have hsize : (ListFreedomKeeper.create.resize k.dfk.getSize).getSize = k.dfk.getSize :=
    (congrArg Records.size hrecords).trans (Nat.zero_max _)
  have hall := (hcreate.resizeGo k.dfk.getSize _).useVector (i := 0) (n := k.dfk.getUsedCount)
    fun x hx => by
      have hin := mem_ints.mp hx
      rw [DenseFreedomKeeper.getUsedCount] at hin
      refine ⟨⟨hin.1, ?_⟩, ?_⟩
      · show x < ((ListFreedomKeeper.create.resize k.dfk.getSize).getSize : Int)
        rw [hsize, DenseFreedomKeeper.getSize]; omega
      · refine (congrFun (congrArg Records.used hrecords) x).trans ?_
        have hnone := ListFreedomKeeper.holds_create.mem_used x
        exact Bool.eq_false_iff.mpr fun hx => List.not_mem_nil (hnone.mpr hx)
  exact hall

/-- What an operation does, in both forms. -/
theorem Orders.switch {k : FreedomKeeper} {us us' : List Int} {s' : Records}
    {d : DenseFreedomKeeper → Option DenseFreedomKeeper}
    {l : ListFreedomKeeper → ListFreedomKeeper} (h : k.Orders us)
    (hd : ∀ dfk, k.records = k.dfk.records → us = ints 0 k.dfk.usedSize → d k.dfk = some dfk →
      dfk.records = s' ∧ us' = ints 0 dfk.usedSize)
    (hl : ∀ lfk : ListFreedomKeeper, lfk.records = k.records → lfk.Orders us →
      (l lfk).records = s' ∧ (l lfk).Orders us') :
    (k.switch d l).records = s' ∧ (k.switch d l).Orders us' := by
  rw [FreedomKeeper.switch]
  by_cases hdense : k.dense = true
  case neg =>
      have hlist := Bool.eq_false_iff.mpr hdense
      rw [if_neg hdense, orders_list rfl, records_list rfl]
      exact hl _ (records_list hlist).symm ((orders_list hlist).mp h)
  case pos =>
      rw [if_pos hdense]
      rw [orders_dense hdense] at h
      cases hk : d k.dfk with
      | none =>
          rw [orders_list (k := k.loseCompactness l) rfl,
            records_list (k := k.loseCompactness l) rfl]
          exact hl _ (records_copied hdense) (h ▸ orders_copied hdense)
      | some dfk =>
          rw [orders_dense (k := { k with dfk := dfk }) hdense,
            records_dense (k := { k with dfk := dfk }) hdense]
          exact hd _ (records_dense hdense) h hk

end FreedomKeeper

/-! ## Calls -/

/-- The calls that change a keeper. -/
inductive FreedomCall where
  | resize (size : Nat)
  | pushBack
  | getFreeRecord
  | use (index : Int)
  | free (index : Int)
  | useVector (index : Int) (size : Nat)
  | freeVector (index : Int) (size : Nat)
  deriving DecidableEq

namespace Records

def isFull (s : Records) : Bool := (List.range s.size).all fun i : Nat => s.used i

def count (s : Records) : Nat := (List.range s.size).countP fun i : Nat => s.used i

def call (s : Records) : FreedomCall → Records
  | .resize n => s.grow n
  | .pushBack => s.grow (s.size + 1)
  | .getFreeRecord => if s.isFull then s.grow (s.size + 1) else s
  | .use i => s.use i 1
  | .free i => s.free i 1
  | .useVector i n => s.use i n
  | .freeVector i n => s.free i n

/-- What is to be used is free and below the size, what is to be freed is used. -/
def Legal (s : Records) : FreedomCall → Prop
  | .resize _ => True
  | .pushBack => True
  | .getFreeRecord => True
  | .use i => (0 ≤ i ∧ i < s.size) ∧ s.used i = false
  | .free i => s.used i = true
  | .useVector i n => ∀ x ∈ ints i n, (0 ≤ x ∧ x < s.size) ∧ s.used x = false
  | .freeVector i n => ∀ x ∈ ints i n, s.used x = true

instance (s : Records) : (c : FreedomCall) → Decidable (s.Legal c)
  | .resize _ => inferInstanceAs (Decidable True)
  | .pushBack => inferInstanceAs (Decidable True)
  | .getFreeRecord => inferInstanceAs (Decidable True)
  | .use i => inferInstanceAs (Decidable ((0 ≤ i ∧ i < s.size) ∧ s.used i = false))
  | .free i => inferInstanceAs (Decidable (s.used i = true))
  | .useVector i n =>
      inferInstanceAs (Decidable (∀ x ∈ ints i n, (0 ≤ x ∧ x < s.size) ∧ s.used x = false))
  | .freeVector i n => inferInstanceAs (Decidable (∀ x ∈ ints i n, s.used x = true))

theorem isFull_iff {s : Records} :
    s.isFull = true ↔ ∀ x : Int, 0 ≤ x → x < s.size → s.used x = true := by
  rw [isFull, List.all_eq_true]
  constructor
  · intro h x hlo hhi
    have hx := h x.toNat (List.mem_range.mpr (by omega))
    rwa [Int.toNat_of_nonneg hlo] at hx
  · intro h i hi
    exact h i (Int.natCast_nonneg i) (Int.ofNat_lt.mpr (List.mem_range.mp hi))

/-- Legal vectors lie below the size. -/
theorem bound_of_ints {s : Records} {i : Int} {n : Nat} (hn : n ≠ 0)
    (h : ∀ x ∈ ints i n, 0 ≤ x ∧ x < s.size) : 0 ≤ i ∧ i + n ≤ s.size := by
  have hfirst := h i (mem_ints.mpr (by omega))
  have hlast := h (i + n - 1) (mem_ints.mpr (by omega))
  exact ⟨hfirst.1, by omega⟩

end Records

/-- The used records in their order, after a call. -/
def orderAfter (us : List Int) : FreedomCall → List Int
  | .resize _ => us
  | .pushBack => us
  | .getFreeRecord => us
  | .use i => us ++ [i]
  | .free i => us.erase i
  | .useVector i n => us ++ ints i n
  | .freeVector i n => (ints i n).foldl List.erase us

namespace ListFreedomKeeper

def call (k : ListFreedomKeeper) : FreedomCall → ListFreedomKeeper
  | .resize n => k.resize n
  | .pushBack => k.pushBack
  | .getFreeRecord => k.getFreeRecord.2
  | .use i => k.use i
  | .free i => k.free i
  | .useVector i n => useVector i n k
  | .freeVector i n => freeVector i n k

/-- The first of the free records, or a new one. -/
theorem Holds.getFreeRecord {k : ListFreedomKeeper} {fs us : List Int} (h : k.Holds fs us) :
    k.getFreeRecord = if k.records.isFull then ((k.freedomSize : Int), k.pushBack)
      else (fs.headD 0, k) := by
  have hpath := h.freeRing.1.path
  have hfull : k.records.isFull = true ↔ fs = [] := by
    rw [Records.isFull_iff]
    constructor
    · intro hall
      cases fs with
      | nil => rfl
      | cons f fs =>
          obtain ⟨hin, hunused⟩ := (h.mem_free f).mp List.mem_cons_self
          exact Bool.noConfusion ((hall f hin.1 hin.2).symm.trans hunused)
    · rintro rfl x hlo hhi
      refine Bool.of_not_eq_false fun hunused => ?_
      exact List.not_mem_nil ((h.mem_free x).mpr ⟨⟨hlo, hhi⟩, hunused⟩)
  rw [ListFreedomKeeper.getFreeRecord]
  cases fs with
  | nil =>
      have hpush := h.pushBack.freeRing.1.path
      rw [if_pos hpath.1, if_pos (hfull.mpr rfl), hpush.1]
  | cons f fs =>
      have hne : f ≠ freeList := fun heq => by
        have := ((h.mem_free f).mp List.mem_cons_self).1.1
        rw [heq] at this
        exact absurd this (by decide)
      rw [hpath.1, if_neg hne, if_neg fun hf => List.cons_ne_nil _ _ (hfull.mp hf)]
      rfl

theorem Orders.call {k : ListFreedomKeeper} {us : List Int} (h : k.Orders us)
    {c : FreedomCall} (hc : k.records.Legal c) :
    (k.call c).records = k.records.call c ∧ (k.call c).Orders (orderAfter us c) := by
  cases c with
  | resize n => exact ⟨k.records_resize n, h.resizeGo n _⟩
  | pushBack => exact ⟨k.records_pushBack, h.pushBack⟩
  | getFreeRecord =>
      obtain ⟨fs, hk⟩ := h
      rw [ListFreedomKeeper.call, hk.getFreeRecord, Records.call]
      split
      · exact ⟨k.records_pushBack, _, hk.pushBack⟩
      · exact ⟨rfl, _, hk⟩
  | use i => exact ⟨k.records_use hc.1.1 hc.1.2, h.use hc.1 hc.2⟩
  | free i =>
      obtain ⟨fs, hk⟩ := h
      obtain ⟨hlo, hhi⟩ := hk.lt_of_mem_used ((hk.mem_used i).mpr hc)
      exact ⟨k.records_free hlo hhi, Orders.free ⟨fs, hk⟩ hc⟩
  | useVector i n =>
      refine ⟨?_, h.useVector hc⟩
      by_cases hn : n = 0
      · subst hn
        exact (Records.use_zero _ _).symm
      · have hbound := Records.bound_of_ints hn fun x hx => (hc x hx).1
        exact k.records_useVector hbound.1 hbound.2
  | freeVector i n =>
      refine ⟨?_, h.freeVector hc⟩
      by_cases hn : n = 0
      · subst hn
        exact (Records.free_zero _ _).symm
      · obtain ⟨fs, hk⟩ := h
        have hbound := Records.bound_of_ints (s := k.records) hn fun x hx =>
          hk.lt_of_mem_used ((hk.mem_used x).mpr (hc x hx))
        exact k.records_freeVector hbound.1 hbound.2

end ListFreedomKeeper

theorem Enumerates.count_eq {next prev : Int → Int} {s : Records} {count : Int}
    {fs us : List Int} (h : Enumerates next prev s.used s.size count fs us)
    (hlt : ∀ x, s.used x = true → 0 ≤ x ∧ x < s.size) : count = s.count := by
  have hnodup : us.Nodup := (List.nodup_cons.mp h.usedCycle.nodup).2
  have hperm : us.Perm (((List.range s.size).filter fun i : Nat => s.used i).map Int.ofNat) := by
    refine (List.perm_ext_iff_of_nodup hnodup ?_).mpr fun x => ?_
    · exact ((List.nodup_range).filter _).map fun _ _ => Int.ofNat.inj
    · rw [h.mem_used, List.mem_map]
      constructor
      · intro hused
        obtain ⟨hlo, hhi⟩ := hlt x hused
        obtain ⟨i, rfl⟩ := Int.eq_ofNat_of_zero_le hlo
        exact ⟨i, List.mem_filter.mpr ⟨List.mem_range.mpr (Int.ofNat_lt.mp hhi), hused⟩, rfl⟩
      · rintro ⟨i, hi, rfl⟩
        exact (List.mem_filter.mp hi).2
  rw [h.count, hperm.length_eq, List.length_map, Records.count, List.countP_eq_length_filter]

namespace FreedomKeeper

def call (k : FreedomKeeper) : FreedomCall → FreedomKeeper
  | .resize n => k.resize n
  | .pushBack => k.pushBack
  | .getFreeRecord => k.getFreeRecord.2
  | .use i => k.use i
  | .free i => k.free i
  | .useVector i n => k.useVector i n
  | .freeVector i n => k.freeVector i n

/-- A dense keeper is full when its two numbers meet. -/
theorem dense_isFull (d : DenseFreedomKeeper) :
    d.records.isFull = true ↔ d.usedSize = d.freeSize := by
  have hle := d.usedSize_le
  rw [Records.isFull_iff]
  constructor
  · intro hall
    rcases Nat.eq_or_lt_of_le hle with heq | hlt
    · exact heq
    · have hused := hall d.usedSize (Int.natCast_nonneg _) (Int.ofNat_lt.mpr hlt)
      rw [show d.records.used d.usedSize = d.isUsed d.usedSize from rfl,
        DenseFreedomKeeper.isUsed, decide_eq_false (Int.lt_irrefl _), Bool.and_false] at hused
      exact Bool.noConfusion hused
  · intro heq x hlo hhi
    have hlt : x < (d.usedSize : Int) := by rw [heq]; exact hhi
    rw [show d.records.used x = d.isUsed x from rfl, DenseFreedomKeeper.isUsed,
      decide_eq_true hlo, decide_eq_true hlt]
    rfl

theorem Orders.call {k : FreedomKeeper} {us : List Int} (h : k.Orders us) {c : FreedomCall}
    (hc : k.records.Legal c) :
    (k.call c).records = k.records.call c ∧ (k.call c).Orders (orderAfter us c) := by
  have hlist : ∀ lfk : ListFreedomKeeper, lfk.records = k.records → lfk.Orders us →
      (lfk.call c).records = k.records.call c ∧ (lfk.call c).Orders (orderAfter us c) :=
    fun lfk hrecords horders => hrecords ▸ horders.call (hrecords ▸ hc)
  cases c with
  | resize n =>
      refine h.switch (fun dfk hk hus hd => ?_) hlist
      obtain rfl := Option.some.inj hd
      exact ⟨by rw [hk]; rfl, hus⟩
  | pushBack =>
      refine h.switch (fun dfk hk hus hd => ?_) hlist
      obtain rfl := Option.some.inj hd
      exact ⟨by rw [hk]; exact Records.ext rfl (Nat.max_eq_right (Nat.le_succ _)).symm, hus⟩
  | getFreeRecord =>
      refine h.switch (fun dfk hk hus hd => ?_) hlist
      obtain rfl := Option.some.inj hd
      rw [hk, Records.call, DenseFreedomKeeper.getFreeRecord]
      by_cases heq : k.dfk.usedSize = k.dfk.freeSize
      · rw [if_pos heq.symm, if_pos ((dense_isFull _).mpr heq)]
        exact ⟨Records.ext rfl (Nat.max_eq_right (Nat.le_succ _)).symm, hus⟩
      · rw [if_neg (Ne.symm heq), if_neg fun hf => heq ((dense_isFull _).mp hf)]
        exact ⟨rfl, hus⟩
  | use i =>
      refine h.switch (fun dfk hk hus hd => ⟨?_, ?_⟩) hlist
      · rw [hk]; exact DenseFreedomKeeper.records_use hd
      · rw [DenseFreedomKeeper.use] at hd
        split at hd
        · next hi =>
            obtain rfl := Option.some.inj hd
            rw [orderAfter, hus, ints_add, hi.1, Int.zero_add]
            rfl
        · cases hd
  | free i =>
      refine h.switch (fun dfk hk hus hd => ⟨?_, ?_⟩) hlist
      · rw [hk]; exact DenseFreedomKeeper.records_free hd
      · rw [DenseFreedomKeeper.free] at hd
        split at hd
        · next hi =>
            obtain rfl := Option.some.inj hd
            obtain ⟨m, hm⟩ : ∃ m, k.dfk.usedSize = m + 1 := ⟨k.dfk.usedSize - 1, by omega⟩
            have hi' : i = (0 : Int) + m := by omega
            have herase := @foldl_erase_ints (ints 0 m) i 1 fun x hx => by
              have := mem_ints.mp hx; omega
            rw [orderAfter, hus]
            show (ints 0 k.dfk.usedSize).erase i = ints 0 (k.dfk.usedSize - 1)
            rw [hm, ints_add, ← hi', Nat.add_sub_cancel]
            exact herase
        · cases hd
  | useVector i n =>
      refine h.switch (fun dfk hk hus hd => ⟨?_, ?_⟩) hlist
      · rw [hk]; exact DenseFreedomKeeper.records_useVector hd
      · rw [DenseFreedomKeeper.useVector] at hd
        split at hd
        · next hi =>
            obtain rfl := Option.some.inj hd
            rw [orderAfter, hus, ints_add, hi.1, Int.zero_add]
        · cases hd
  | freeVector i n =>
      have hlo : n ≠ 0 → 0 ≤ i := fun hn => by
        have hused := hc i (mem_ints.mpr (by omega))
        exact (lt_of_isUsed hused).1
      refine h.switch (fun dfk hk hus hd => ?_) hlist
      have hi : i + n = (k.dfk.usedSize : Int) := by
        rw [DenseFreedomKeeper.freeVector] at hd
        split at hd
        · assumption
        · cases hd
      have hnonneg : 0 ≤ i := by
        by_cases hn : n = 0
        · omega
        · exact hlo hn
      refine ⟨by rw [hk]; exact DenseFreedomKeeper.records_freeVector hnonneg hd, ?_⟩
      obtain ⟨m, rfl⟩ := Int.eq_ofNat_of_zero_le hnonneg
      have herase := @foldl_erase_ints (ints 0 m) m n fun x hx => by
        have := mem_ints.mp hx; omega
      rw [DenseFreedomKeeper.freeVector, if_pos hi] at hd
      obtain rfl := Option.some.inj hd
      rw [orderAfter, hus]
      show List.foldl List.erase (ints 0 k.dfk.usedSize) (ints m n)
        = ints 0 (k.dfk.usedSize - n)
      rw [show k.dfk.usedSize = m + n by omega, Nat.add_sub_cancel, ints_add, Int.zero_add]
      exact herase

/-- A record to be used. -/
theorem Orders.getFreeRecord {k : FreedomKeeper} {us : List Int} (h : k.Orders us) :
    (0 ≤ k.getFreeRecord.1 ∧ k.getFreeRecord.1 < (k.records.call .getFreeRecord).size) ∧
      (k.records.call .getFreeRecord).used k.getFreeRecord.1 = false := by
  cases hdense : k.dense with
  | true =>
      have hid : k.getFreeRecord.1 = k.dfk.usedSize := if_pos hdense
      have hle := k.dfk.usedSize_le
      rw [hid, records_dense hdense, Records.call]
      have hunused : k.dfk.records.used k.dfk.usedSize = false := by
        rw [show k.dfk.records.used k.dfk.usedSize = k.dfk.isUsed k.dfk.usedSize from rfl,
          DenseFreedomKeeper.isUsed, decide_eq_false (Int.lt_irrefl _), Bool.and_false]
      by_cases heq : k.dfk.usedSize = k.dfk.freeSize
      · rw [if_pos ((dense_isFull _).mpr heq)]
        refine ⟨⟨Int.natCast_nonneg _, Int.ofNat_lt.mpr ?_⟩, hunused⟩
        show k.dfk.usedSize < max k.dfk.freeSize (k.dfk.freeSize + 1)
        omega
      · rw [if_neg fun hf => heq ((dense_isFull _).mp hf)]
        refine ⟨⟨Int.natCast_nonneg _, Int.ofNat_lt.mpr ?_⟩, hunused⟩
        show k.dfk.usedSize < k.dfk.freeSize
        omega
  | false =>
      have hid : k.getFreeRecord.1 = k.lfk.getFreeRecord.1 :=
        if_neg (by rw [hdense]; decide)
      obtain ⟨fs, hk⟩ := (orders_list hdense).mp h
      rw [hid, records_list hdense, Records.call, hk.getFreeRecord]
      by_cases hf : k.lfk.records.isFull = true
      · rw [if_pos hf, if_pos hf]
        refine ⟨⟨Int.natCast_nonneg _, Int.ofNat_lt.mpr ?_⟩, ?_⟩
        · show k.lfk.freedomSize < max k.lfk.freedomSize (k.lfk.freedomSize + 1)
          omega
        · refine Bool.eq_false_iff.mpr fun hused => ?_
          have hlt := hk.lt_of_mem_used ((hk.mem_used _).mpr hused)
          exact Int.lt_irrefl _ hlt.2
      · rw [if_neg hf, if_neg hf]
        cases fs with
        | nil =>
            refine absurd (Records.isFull_iff.mpr fun x hlo hhi => ?_) hf
            refine Bool.of_not_eq_false fun hunused => ?_
            exact List.not_mem_nil ((hk.mem_free x).mpr ⟨⟨hlo, hhi⟩, hunused⟩)
        | cons f fs => exact (hk.mem_free f).mp List.mem_cons_self

/-! ## Runs -/

/-- The states that legal calls lead to, and what they stand for. -/
inductive Reach : FreedomKeeper → Records → Prop where
  | create : Reach .create ⟨fun _ => false, 0⟩
  | call {k : FreedomKeeper} {s : Records} {c : FreedomCall} (h : Reach k s) (hc : s.Legal c) :
      Reach (k.call c) (s.call c)

theorem records_create : create.records = ⟨fun _ => false, 0⟩ := by
  refine Records.ext (funext fun x => Bool.eq_false_iff.mpr fun hused => ?_) rfl
  have hin := lt_of_isUsed (k := .create) hused
  rw [show create.getSize = 0 from rfl] at hin
  omega

theorem Reach.orders {k : FreedomKeeper} {s : Records} (h : Reach k s) :
    k.records = s ∧ ∃ us, k.Orders us := by
  induction h with
  | create => exact ⟨records_create, [], orders_create⟩
  | call _ hc ih =>
      obtain ⟨hrecords, us, horders⟩ := ih
      obtain ⟨hcall, horders'⟩ := horders.call (hrecords ▸ hc)
      exact ⟨by rw [hcall, hrecords], _, horders'⟩

/-- In every state that legal calls lead to, the keeper has the size, the used
records and their count. Its links visit the used records, and the free ones,
once each, and back again. A record that it gives out is free. -/
theorem agrees_with_records {k : FreedomKeeper} {s : Records} (h : Reach k s) :
    (k.getSize = s.size ∧ k.getUsedCount = s.count ∧ ∀ x, k.isUsed x = s.used x) ∧
      (∃ us, Visits k.getNext k.getPrevious usedList us ∧ ∀ x, x ∈ us ↔ s.used x = true) ∧
      (∃ fs, Visits k.getNext k.getPrevious freeList fs ∧
        ∀ x, x ∈ fs ↔ (0 ≤ x ∧ x < s.size) ∧ s.used x = false) ∧
      (0 ≤ k.getFreeRecord.1 ∧ k.getFreeRecord.1 < k.getFreeRecord.2.getSize) ∧
        k.getFreeRecord.2.isUsed k.getFreeRecord.1 = false := by
  obtain ⟨rfl, us, horders⟩ := h.orders
  obtain ⟨fs, henum⟩ := horders.enumerates
  obtain ⟨hnext, -⟩ := horders.call (c := .getFreeRecord) trivial
  obtain ⟨hbelow, hfree⟩ := horders.getFreeRecord
  rw [← hnext] at hbelow hfree
  refine ⟨⟨rfl, ?_, fun x => rfl⟩, ⟨us, henum.usedCycle.visits, henum.mem_used⟩,
    ⟨fs, henum.freeCycle.visits, henum.mem_free⟩, hbelow, hfree⟩
  exact Enumerates.count_eq (s := k.records) henum fun x => lt_of_isUsed

/-- Three records, the second freed and used again. -/
theorem agrees_with_records_hole :
    ∃ k s, Reach k s ∧ k.dense = false ∧ k.getUsedCount = 3 ∧
      ∃ us, Visits k.getNext k.getPrevious usedList us ∧ ∀ x, x ∈ us ↔ s.used x = true := by
  have hsize := Reach.create.call (c := .resize 3) trivial
  have huse := hsize.call (c := .useVector 0 3) (by decide)
  have hfree := huse.call (c := .free 1) (by decide)
  have hagain := hfree.call (c := .use 1) (by decide)
  exact ⟨_, _, hagain, by decide, by decide, (agrees_with_records hagain).2.1⟩

end FreedomKeeper

/-! ## With and without the two numbers -/

/-- A keeper and a keeper that always has lists, after the same calls. -/
inductive Twins : FreedomKeeper → ListFreedomKeeper → Records → Prop where
  | create : Twins .create .create ⟨fun _ => false, 0⟩
  | call {k : FreedomKeeper} {l : ListFreedomKeeper} {s : Records} {c : FreedomCall}
      (h : Twins k l s) (hc : s.Legal c) (hid : c ≠ .getFreeRecord) :
      Twins (k.call c) (l.call c) (s.call c)

theorem Twins.orders {k : FreedomKeeper} {l : ListFreedomKeeper} {s : Records}
    (h : Twins k l s) :
    (k.records = s ∧ l.records = s) ∧ ∃ us, k.Orders us ∧ l.Orders us := by
  induction h with
  | create =>
      exact ⟨⟨FreedomKeeper.records_create, ListFreedomKeeper.records_create⟩, [], rfl, [],
        ListFreedomKeeper.holds_create⟩
  | call _ hc _ ih =>
      obtain ⟨⟨hk, hl⟩, us, hku, hlu⟩ := ih
      obtain ⟨hkc, hku'⟩ := hku.call (hk ▸ hc)
      obtain ⟨hlc, hlu'⟩ := hlu.call (hl ▸ hc)
      exact ⟨⟨by rw [hkc, hk], by rw [hlc, hl]⟩, _, hku', hlu'⟩

namespace ListFreedomKeeper

variable {k : ListFreedomKeeper}

theorem isFreeFrom_complete {i : Int} {n : Nat} (hi : 0 ≤ i)
    (h : ∀ x ∈ ints i n, k.isUsed x = false) : k.isFreeFrom i n = true := by
  induction n generalizing i with
  | zero => rfl
  | succ n ih =>
      obtain ⟨hfirst, hrest⟩ := List.forall_mem_cons.mp h
      rw [isFreeFrom]
      split
      · rfl
      · next hlt =>
          have hfree : k.isFreeF i = true := by
            rw [isUsed, decide_eq_true hi, decide_eq_true (by omega)] at hfirst
            simpa using hfirst
          rw [hfree, if_neg (by decide)]
          exact ih (by omega) hrest

theorem isUsedFrom_complete {i : Int} {n : Nat} (h : ∀ x ∈ ints i n, k.isUsed x = true) :
    k.isUsedFrom i n = true := by
  induction n generalizing i with
  | zero => rfl
  | succ n ih =>
      obtain ⟨hfirst, hrest⟩ := List.forall_mem_cons.mp h
      have hused : k.isFreeF i = false := by
        rw [isUsed, Bool.and_eq_true] at hfirst
        simpa using hfirst.2
      rw [isUsedFrom, hused, if_neg (by decide)]
      exact ih hrest

/-- What the two predicates of a list say. -/
theorem isUsedVector_iff {i : Int} (hi : 0 ≤ i) (n : Nat) :
    k.isUsedVector i n = true ↔
      (i ≤ k.getSize ∧ i + n ≤ k.getSize) ∧ ∀ x ∈ ints i n, k.isUsed x = true := by
  rw [isUsedVector]
  by_cases hout : i < 0 ∨ i > k.freedomSize ∨ n > k.freedomSize - i
  · rw [if_pos hout, getSize]
    exact ⟨fun h => Bool.noConfusion h, fun h => by omega⟩
  · rw [if_neg hout, getSize]
    refine ⟨fun h => ⟨by omega, fun x hx => ?_⟩, fun h => isUsedFrom_complete h.2⟩
    have hin := mem_ints.mp hx
    exact isUsedFrom_sound h hi (by omega) hin.1 hin.2

theorem isFreeVector_iff {i : Int} (hi : 0 ≤ i) (n : Nat) :
    k.isFreeVector i n = true ↔ ∀ x ∈ ints i n, k.isUsed x = false := by
  rw [isFreeVector, if_neg (by omega)]
  refine ⟨fun h x hx => ?_, isFreeFrom_complete hi⟩
  have hin := mem_ints.mp hx
  exact isFreeFrom_sound h hin.1 hin.2

end ListFreedomKeeper

namespace DenseFreedomKeeper

variable {k : DenseFreedomKeeper}

theorem isUsed_iff {x : Int} : k.isUsed x = true ↔ 0 ≤ x ∧ x < k.usedSize := by
  rw [isUsed, Bool.and_eq_true, decide_eq_true_iff, decide_eq_true_iff]

theorem isUsedVector_iff {i : Int} {n : Nat} (hi : 0 ≤ i) :
    k.isUsedVector i n = true ↔ i ≤ k.usedSize ∧ ∀ x ∈ ints i n, k.isUsed x = true := by
  rw [isUsedVector, Bool.and_eq_true, Bool.and_eq_true, decide_eq_true_iff, decide_eq_true_iff,
    decide_eq_true_iff]
  constructor
  · rintro ⟨⟨-, hle⟩, hn⟩
    refine ⟨hle, fun x hx => isUsed_iff.mpr ?_⟩
    have := mem_ints.mp hx
    omega
  · rintro ⟨hle, hall⟩
    refine ⟨⟨hi, hle⟩, ?_⟩
    by_cases hn : n = 0
    · omega
    · have := isUsed_iff.mp (hall (i + n - 1) (mem_ints.mpr (by omega)))
      omega

theorem isFreeVector_iff {i : Int} {n : Nat} :
    k.isFreeVector i n = true ↔ (k.usedSize : Int) ≤ i := by
  rw [isFreeVector, decide_eq_true_iff]

end DenseFreedomKeeper

/-- Behind all records that are used there is room. -/
theorem FreedomKeeper.isFreeVector_of_unused {k : FreedomKeeper} {i : Int} {n : Nat} (hi : 0 ≤ i)
    (h : ∀ x, i ≤ x → k.isUsed x = false) : k.isFreeVector i n = true := by
  rw [isFreeVector]
  cases hdense : k.dense with
  | true =>
      rw [if_pos rfl, DenseFreedomKeeper.isFreeVector_iff, ← Int.not_lt]
      intro hlt
      have hunused := h i (Int.le_refl i)
      rw [isUsed, hdense, if_pos rfl, DenseFreedomKeeper.isUsed_iff.mpr ⟨hi, hlt⟩] at hunused
      cases hunused
  | false =>
      rw [if_neg (by decide), ListFreedomKeeper.isFreeVector_iff hi]
      intro x hx
      have hunused := h x (mem_ints.mp hx).1
      rw [isUsed, hdense, if_neg (by decide)] at hunused
      exact hunused

/-- The two numbers cannot be told from the lists, except by empty vectors: there
the answers agree where the used records end, or on the one side of it. -/
theorem dense_unobservable {k : FreedomKeeper} {l : ListFreedomKeeper} {s : Records}
    (h : Twins k l s) :
    (k.getSize = l.getSize ∧ k.getUsedCount = l.getUsedCount ∧ ∀ x, k.isUsed x = l.isUsed x) ∧
      (∃ us, Visits k.getNext k.getPrevious usedList us ∧
        Visits l.getNext l.getPrevious usedList us) ∧
      ∀ (i : Int) (n : Nat), 0 ≤ i → i ≤ l.getSize →
        (k.isUsedVector i n = l.isUsedVector i n ↔
          n ≠ 0 ∨ k.dense = false ∨ i ≤ k.getUsedCount) ∧
        (k.isFreeVector i n = l.isFreeVector i n ↔
          n ≠ 0 ∨ k.dense = false ∨ k.getUsedCount ≤ i) := by
  obtain ⟨⟨hk, hl⟩, us, hku, fs', hlu⟩ := h.orders
  obtain ⟨fs, hke⟩ := hku.enumerates
  have hle := hlu.enumerates
  have hsize : k.getSize = l.getSize := congrArg Records.size (hk.trans hl.symm)
  have hused : ∀ x, k.isUsed x = l.isUsed x := fun x =>
    congrFun (congrArg Records.used (hk.trans hl.symm)) x
  refine ⟨⟨hsize, hke.count.trans hle.count.symm, hused⟩,
    ⟨us, hke.usedCycle.visits, hle.usedCycle.visits⟩, fun i n hlo hhi => ?_⟩
  cases hdense : k.dense with
  | false =>
      have hlist : k.lfk.records = l.records := by
        rw [← FreedomKeeper.records_list hdense, hk, hl]
      have hlused : ∀ x, k.lfk.isUsed x = l.isUsed x := fun x =>
        congrFun (congrArg Records.used hlist) x
      have hlsize : k.lfk.getSize = l.getSize := congrArg Records.size hlist
      have hkv : k.isUsedVector i n = k.lfk.isUsedVector i n := if_neg (by rw [hdense]; decide)
      have hkf : k.isFreeVector i n = k.lfk.isFreeVector i n := if_neg (by rw [hdense]; decide)
      refine ⟨iff_of_true ?_ (.inr (.inl rfl)), iff_of_true ?_ (.inr (.inl rfl))⟩
      · rw [hkv, Bool.eq_iff_iff, ListFreedomKeeper.isUsedVector_iff hlo,
          ListFreedomKeeper.isUsedVector_iff hlo, hlsize]
        simp only [hlused]
      · rw [hkf, Bool.eq_iff_iff, ListFreedomKeeper.isFreeVector_iff hlo,
          ListFreedomKeeper.isFreeVector_iff hlo]
        simp only [hlused]
  | true =>
      have hcount : k.getUsedCount = k.dfk.usedSize := if_pos hdense
      have hkv : k.isUsedVector i n = k.dfk.isUsedVector i n := if_pos hdense
      have hkf : k.isFreeVector i n = k.dfk.isFreeVector i n := if_pos hdense
      have hdused : ∀ x, k.dfk.isUsed x = l.isUsed x := fun x => by
        rw [← hused x, FreedomKeeper.isUsed, if_pos hdense]
      rw [hkv, hkf, hcount, Bool.eq_iff_iff (a := k.dfk.isUsedVector i n),
        Bool.eq_iff_iff (a := k.dfk.isFreeVector i n),
        DenseFreedomKeeper.isUsedVector_iff hlo, DenseFreedomKeeper.isFreeVector_iff,
        ListFreedomKeeper.isUsedVector_iff hlo, ListFreedomKeeper.isFreeVector_iff hlo]
      simp only [← hdused, Bool.true_eq_false, false_or, DenseFreedomKeeper.isUsed_iff]
      by_cases hn : n = 0
      · subst hn
        have hnone : ∀ {P : Int → Prop}, ∀ x ∈ ints i 0, P x := fun x hx =>
          (List.not_mem_nil hx).elim
        constructor
        · exact ⟨fun heq => .inr (heq.mpr ⟨by omega, hnone⟩).1, fun hor =>
            ⟨fun _ => ⟨by omega, hnone⟩, fun _ => ⟨by omega, hnone⟩⟩⟩
        · exact ⟨fun heq => .inr (heq.mpr fun x hx => (List.not_mem_nil hx).elim), fun hor =>
            ⟨fun _ x hx => (List.not_mem_nil hx).elim, fun _ => by omega⟩⟩
      · have hbelow : ∀ {x : Int}, x < k.dfk.usedSize → x < l.getSize := fun {x} hx => by
          have hsz : k.getSize = k.dfk.freeSize := if_pos hdense
          have := k.dfk.usedSize_le
          omega
        refine ⟨iff_of_true ⟨?_, ?_⟩ (.inl hn), iff_of_true ⟨?_, ?_⟩ (.inl hn)⟩
        · rintro ⟨hend, hall⟩
          have hlast := hbelow (hall (i + n - 1) (mem_ints.mpr (by omega))).2
          exact ⟨by omega, hall⟩
        · rintro ⟨-, hall⟩
          have hfirst := (hall i (mem_ints.mpr (by omega))).2
          exact ⟨by omega, hall⟩
        · intro hge x hx
          have hin := mem_ints.mp hx
          exact Bool.eq_false_iff.mpr fun hx => by
            have := DenseFreedomKeeper.isUsed_iff.mp hx
            omega
        · intro hall
          have hfirst := hall i (mem_ints.mpr (by omega))
          refine Int.not_lt.mp fun hlt => ?_
          rw [DenseFreedomKeeper.isUsed_iff.mpr ⟨hlo, hlt⟩] at hfirst
          exact Bool.noConfusion hfirst

/-- Two records, the first used: whether record 1 starts a used vector of two. -/
theorem dense_unobservable_two :
    ∃ k l s, Twins k l s ∧ k.dense = true ∧ k.isUsedVector 1 2 = l.isUsedVector 1 2 := by
  have hsize := Twins.create.call (c := .resize 2) trivial (by decide)
  have huse := hsize.call (c := .use 0) (by decide) (by decide)
  exact ⟨_, _, _, huse, by decide, ((dense_unobservable huse).2.2 1 2 (by decide)
    (by decide)).1.mpr (.inl (by decide))⟩

/-- One record that is not used: the empty vector behind it is used for a list,
and not for two numbers. -/
theorem dense_observable :
    ∃ k l s, Twins k l s ∧ 0 ≤ (1 : Int) ∧ (1 : Int) ≤ l.getSize ∧
      k.isUsedVector 1 0 = false ∧ l.isUsedVector 1 0 = true := by
  have hsize := Twins.create.call (c := .resize 1) trivial (by decide)
  exact ⟨_, _, _, hsize, by decide, by decide, by decide, by decide⟩

end Joedb
