import Joedb.Interpreted.Records
import Joedb.Lib.Links

/-!
# The lists of a Freedom_Keeper

The free records and the used records are two circular lists in the same arrays.
`Holds k fs us` names them: `fs` behind `freeList`, `us` behind `usedList`, and
between them every record below the size. An operation on the keeper is then an
operation on two lists. Using a record takes it out of one and puts it at the end
of the other; freeing it puts it in front.

A keeper that is dense holds two intervals. It has no links, but `getNext` and
`getPrevious` answer as if it had, and losing the compactness makes them so.
-/

namespace Joedb

open Links
open Function (update)

namespace ListFreedomKeeper

/-- What has a place in the arrays. -/
def Valid (k : ListFreedomKeeper) (x : Int) : Prop := -2 ≤ x ∧ x < k.freedomSize

theorem slot_inj_of_valid {i x : Int} (hi : -2 ≤ i) (hx : -2 ≤ x) : slot i = slot x ↔ i = x := by
  rw [slot, slot]
  omega

theorem getD_set {xs : List Int} {n : Nat} (hlen : xs.length = n + 2) {i x : Int}
    (hi : -2 ≤ i ∧ i < n) (hx : -2 ≤ x) (v : Int) :
    (xs.set (slot i) v).getD (slot x) 0 = if x = i then v else xs.getD (slot x) 0 := by
  rw [List.getD_eq_getElem?_getD, List.getElem?_set, List.getD_eq_getElem?_getD]
  by_cases heq : x = i
  · subst heq
    rw [if_pos rfl, if_pos (by rw [hlen, slot]; omega), if_pos rfl]
    rfl
  · rw [if_neg fun h => heq ((slot_inj_of_valid hi.1 hx).mp h).symm, if_neg heq]

theorem nextF_setNext {k : ListFreedomKeeper} {i x : Int} (hi : k.Valid i) (hx : k.Valid x)
    (v : Int) : (k.setNext i v).nextF x = update k.nextF i v x := by
  rw [Function.update_apply]
  exact getD_set k.length_nextV hi hx.1 v

theorem previousF_setPrevious {k : ListFreedomKeeper} {i x : Int} (hi : k.Valid i)
    (hx : k.Valid x) (v : Int) :
    (k.setPrevious i v).previousF x = update k.previousF i v x := by
  rw [Function.update_apply]
  exact getD_set k.length_previousV hi hx.1 v

@[simp] theorem previousF_setNext (k : ListFreedomKeeper) (i v x : Int) :
    (k.setNext i v).previousF x = k.previousF x := rfl

@[simp] theorem nextF_setPrevious (k : ListFreedomKeeper) (i v x : Int) :
    (k.setPrevious i v).nextF x = k.nextF x := rfl

/-- The links of a record, joined behind its back. -/
def unlink (k : ListFreedomKeeper) (index : Int) : ListFreedomKeeper :=
  let k := k.setNext (k.previousF index) (k.nextF index)
  k.setPrevious (k.nextF index) (k.previousF index)

/-- A record put behind the head of a list. -/
def linkFront (k : ListFreedomKeeper) (head index : Int) : ListFreedomKeeper :=
  let k := k.setNext index (k.nextF head)
  let k := k.setPrevious index head
  let k := k.setPrevious (k.nextF head) index
  k.setNext head index

/-- A record put in front of the head of a list. -/
def linkBack (k : ListFreedomKeeper) (head index : Int) : ListFreedomKeeper :=
  let k := k.setPrevious index (k.previousF head)
  let k := k.setNext index head
  let k := k.setNext (k.previousF index) index
  k.setPrevious head index

/-- The links of `k`, as functions, are a list. -/
def Ring (k : ListFreedomKeeper) (h : Int) (xs : List Int) : Prop :=
  Cycle k.nextF k.previousF h xs ∧ ∀ x ∈ h :: xs, k.Valid x

namespace Ring

variable {k : ListFreedomKeeper} {h : Int} {xs : List Int}

theorem valid_next (hr : k.Ring h xs) {x : Int} (hx : x ∈ h :: xs) : k.Valid (k.nextF x) :=
  hr.2 _ (hr.1.next_mem hx)

theorem valid_previous (hr : k.Ring h xs) {x : Int} (hx : x ∈ h :: xs) :
    k.Valid (k.previousF x) :=
  hr.2 _ (hr.1.prev_mem hx)

/-- What the links of two keepers have in common. -/
theorem congr {k' : ListFreedomKeeper} (hr : k.Ring h xs)
    (hsize : k.freedomSize ≤ k'.freedomSize)
    (hsame : ∀ x ∈ h :: xs, k'.nextF x = k.nextF x ∧ k'.previousF x = k.previousF x) :
    k'.Ring h xs := by
  refine ⟨hr.1.congr (fun x hx => (hsame x hx).1) fun x hx => (hsame x hx).2, fun x hx => ?_⟩
  have hv := hr.2 x hx
  exact ⟨hv.1, by have := hv.2; omega⟩

theorem unlink_apply (hr : k.Ring h xs) {i : Int} (hi : i ∈ h :: xs) {x : Int}
    (hx : k.Valid x) :
    (k.unlink i).nextF x = update k.nextF (k.previousF i) (k.nextF i) x ∧
      (k.unlink i).previousF x = update k.previousF (k.nextF i) (k.previousF i) x := by
  have hp := hr.valid_previous hi
  have hn := hr.valid_next hi
  have hnext : (k.setNext (k.previousF i) (k.nextF i)).nextF i = k.nextF i := by
    rw [nextF_setNext hp (hr.2 i hi), Function.update_apply]
    split
    · rfl
    · rfl
  constructor
  · rw [unlink, nextF_setPrevious, nextF_setNext hp hx]
  · rw [unlink, hnext, previousF_setNext,
      previousF_setPrevious (k := k.setNext (k.previousF i) (k.nextF i)) hn hx]
    rfl

/-- Out of its own list. -/
theorem unlink (hr : k.Ring h xs) {i : Int} (hi : i ∈ xs) :
    (k.unlink i).Ring h (xs.erase i) := by
  have hsub : ∀ {x}, x ∈ h :: xs.erase i → x ∈ h :: xs := fun hx =>
    (List.mem_cons.mp hx).elim (fun he => by rw [he]; exact List.mem_cons_self)
      fun hm => List.mem_cons_of_mem _ (List.mem_of_mem_erase hm)
  have happly := fun x (hx : x ∈ h :: xs.erase i) =>
    hr.unlink_apply (List.mem_cons_of_mem _ hi) (hr.2 x (hsub hx))
  exact ⟨(hr.1.unlink hi).congr (fun x hx => (happly x hx).1) fun x hx => (happly x hx).2,
    fun x hx => hr.2 x (hsub hx)⟩

/-- The other list does not notice. -/
theorem unlink_other {h' : Int} {ys : List Int} (hr : k.Ring h xs) (hr' : k.Ring h' ys)
    (hdisjoint : ∀ x ∈ h' :: ys, x ∉ h :: xs) {i : Int} (hi : i ∈ h :: xs) :
    (k.unlink i).Ring h' ys := by
  refine hr'.congr (Nat.le_refl _) fun x hx => ?_
  obtain ⟨hn, hp⟩ := hr.unlink_apply hi (hr'.2 x hx)
  have hnot := hdisjoint x hx
  rw [hn, hp, Function.update_of_ne, Function.update_of_ne]
  · exact ⟨rfl, rfl⟩
  · exact fun heq => hnot (heq ▸ hr.1.next_mem hi)
  · exact fun heq => hnot (heq ▸ hr.1.prev_mem hi)

theorem linkFront_apply (hr : k.Ring h xs) {i : Int} (hi : k.Valid i) (hne : i ≠ h) {x : Int}
    (hx : k.Valid x) :
    (k.linkFront h i).nextF x = update (update k.nextF i (k.nextF h)) h i x ∧
      (k.linkFront h i).previousF x = update (update k.previousF i h) (k.nextF h) i x := by
  have hh := hr.2 h List.mem_cons_self
  have hn := hr.valid_next (List.mem_cons_self (a := h))
  have hhead : ((k.setNext i (k.nextF h)).setPrevious i h).nextF h = k.nextF h := by
    rw [nextF_setPrevious, nextF_setNext hi hh, Function.update_of_ne hne.symm]
  rw [linkFront]
  simp only [hhead]
  constructor
  · rw [nextF_setNext (k := ((k.setNext i (k.nextF h)).setPrevious i h).setPrevious
      (k.nextF h) i) hh hx, Function.update_apply, Function.update_apply]
    split
    · rfl
    · rw [nextF_setPrevious, nextF_setPrevious, nextF_setNext hi hx]
  · rw [previousF_setNext, previousF_setPrevious (k := (k.setNext i (k.nextF h)).setPrevious i h)
      hn hx, Function.update_apply, Function.update_apply]
    split
    · rfl
    · rw [previousF_setPrevious (k := k.setNext i (k.nextF h)) hi hx, Function.update_apply,
        Function.update_apply, previousF_setNext]

theorem linkFront (hr : k.Ring h xs) {i : Int} (hi : k.Valid i) (hne : i ∉ h :: xs) :
    (k.linkFront h i).Ring h (i :: xs) := by
  have hih : i ≠ h := fun heq => hne (by rw [heq]; exact List.mem_cons_self)
  have hvalid : ∀ x ∈ h :: i :: xs, k.Valid x := fun x hx => by
    rcases List.mem_cons.mp hx with rfl | hx
    · exact hr.2 x List.mem_cons_self
    · rcases List.mem_cons.mp hx with rfl | hx
      · exact hi
      · exact hr.2 x (List.mem_cons_of_mem _ hx)
  have happly := fun x hx => hr.linkFront_apply hi hih (hvalid x hx)
  exact ⟨(hr.1.linkFront hne).congr (fun x hx => (happly x hx).1) fun x hx => (happly x hx).2,
    hvalid⟩

theorem linkFront_other {h' : Int} {ys : List Int} (hr : k.Ring h xs) (hr' : k.Ring h' ys)
    (hdisjoint : ∀ x ∈ h' :: ys, x ∉ h :: xs) {i : Int} (hi : k.Valid i) (hih : i ≠ h)
    (hnot : i ∉ h' :: ys) : (k.linkFront h i).Ring h' ys := by
  refine hr'.congr (Nat.le_refl _) fun x hx => ?_
  obtain ⟨hn, hp⟩ := hr.linkFront_apply hi hih (hr'.2 x hx)
  have hne : x ≠ i := fun heq => hnot (heq ▸ hx)
  have hout := hdisjoint x hx
  rw [hn, hp, Function.update_of_ne (fun heq => hout (by rw [heq]; exact List.mem_cons_self)),
    Function.update_of_ne hne, Function.update_of_ne, Function.update_of_ne hne]
  · exact ⟨rfl, rfl⟩
  · exact fun heq => hout (heq ▸ hr.1.next_mem List.mem_cons_self)

theorem linkBack_apply (hr : k.Ring h xs) {i : Int} (hi : k.Valid i) {x : Int}
    (hx : k.Valid x) :
    (k.linkBack h i).nextF x = update (update k.nextF i h) (k.previousF h) i x ∧
      (k.linkBack h i).previousF x = update (update k.previousF i (k.previousF h)) h i x := by
  have hh := hr.2 h List.mem_cons_self
  have hp := hr.valid_previous (List.mem_cons_self (a := h))
  have hback : ((k.setPrevious i (k.previousF h)).setNext i h).previousF i = k.previousF h := by
    rw [previousF_setNext, previousF_setPrevious hi hi, Function.update_self]
  rw [linkBack]
  simp only [hback]
  constructor
  · rw [nextF_setPrevious, nextF_setNext (k := (k.setPrevious i (k.previousF h)).setNext i h)
      hp hx, Function.update_apply, Function.update_apply]
    split
    · rfl
    · rw [nextF_setNext (k := k.setPrevious i (k.previousF h)) hi hx, Function.update_apply,
        Function.update_apply, nextF_setPrevious]
  · rw [previousF_setPrevious (k := ((k.setPrevious i (k.previousF h)).setNext i h).setNext
      (k.previousF h) i) hh hx, Function.update_apply, Function.update_apply]
    split
    · rfl
    · rw [previousF_setNext, previousF_setNext, previousF_setPrevious hi hx]

theorem linkBack (hr : k.Ring h xs) {i : Int} (hi : k.Valid i) (hne : i ∉ h :: xs) :
    (k.linkBack h i).Ring h (xs ++ [i]) := by
  have hvalid : ∀ x ∈ h :: (xs ++ [i]), k.Valid x := fun x hx => by
    rcases List.mem_cons.mp hx with rfl | hx
    · exact hr.2 x List.mem_cons_self
    · rcases List.mem_append.mp hx with hx | hx
      · exact hr.2 x (List.mem_cons_of_mem _ hx)
      · rw [List.mem_singleton.mp hx]; exact hi
  have happly := fun x hx => hr.linkBack_apply hi (hvalid x hx)
  exact ⟨(hr.1.linkBack hne).congr (fun x hx => (happly x hx).1) fun x hx => (happly x hx).2,
    hvalid⟩

theorem linkBack_other {h' : Int} {ys : List Int} (hr : k.Ring h xs) (hr' : k.Ring h' ys)
    (hdisjoint : ∀ x ∈ h' :: ys, x ∉ h :: xs) {i : Int} (hi : k.Valid i)
    (hnot : i ∉ h' :: ys) : (k.linkBack h i).Ring h' ys := by
  refine hr'.congr (Nat.le_refl _) fun x hx => ?_
  obtain ⟨hn, hp⟩ := hr.linkBack_apply hi (hr'.2 x hx)
  have hne : x ≠ i := fun heq => hnot (heq ▸ hx)
  have hout := hdisjoint x hx
  rw [hn, hp, Function.update_of_ne, Function.update_of_ne hne,
    Function.update_of_ne (fun heq => hout (by rw [heq]; exact List.mem_cons_self)),
    Function.update_of_ne hne]
  · exact ⟨rfl, rfl⟩
  · exact fun heq => hout (heq ▸ hr.1.prev_mem List.mem_cons_self)

end Ring

/-- The two lists of a keeper. -/
structure Holds (k : ListFreedomKeeper) (fs us : List Int) : Prop where
  freeRing : k.Ring freeList fs
  usedRing : k.Ring usedList us
  mem_free : ∀ x, x ∈ fs ↔ (0 ≤ x ∧ x < k.freedomSize) ∧ k.isUsed x = false
  mem_used : ∀ x, x ∈ us ↔ k.isUsed x = true
  count : k.usedCount = us.length

theorem holds_create : create.Holds [] [] := by
  have hunused : ∀ x, create.isUsed x = false := fun x => by
    have hout : ¬ (0 ≤ x ∧ x < ((create.freedomSize : Nat) : Int)) := by
      rw [show create.freedomSize = 0 from rfl]; omega
    rw [isUsed, ← Bool.decide_and, decide_eq_false hout, Bool.false_and]
  refine ⟨⟨⟨⟨rfl, rfl⟩, List.nodup_singleton _⟩, ?_⟩, ⟨⟨⟨rfl, rfl⟩, List.nodup_singleton _⟩, ?_⟩,
    fun x => ?_, fun x => ?_, rfl⟩
  · intro x hx
    rw [List.mem_singleton.mp hx]
    exact ⟨by decide, by decide⟩
  · intro x hx
    rw [List.mem_singleton.mp hx]
    exact ⟨by decide, by decide⟩
  · rw [show create.freedomSize = 0 from rfl]
    exact ⟨fun h => (List.not_mem_nil h).elim, fun h => by omega⟩
  · rw [hunused]
    exact ⟨fun h => (List.not_mem_nil h).elim, fun h => Bool.noConfusion h⟩

namespace Holds

variable {k : ListFreedomKeeper} {fs us : List Int}

theorem lt_of_mem_used (h : k.Holds fs us) {x : Int} (hx : x ∈ us) :
    0 ≤ x ∧ x < k.freedomSize := by
  have hused := (h.mem_used x).mp hx
  rw [isUsed, Bool.and_eq_true, Bool.and_eq_true] at hused
  exact ⟨of_decide_eq_true hused.1.1, of_decide_eq_true hused.1.2⟩

/-- No record is in both lists, and neither are the heads. -/
theorem disjoint (h : k.Holds fs us) : ∀ x ∈ usedList :: us, x ∉ freeList :: fs := by
  intro x hx hfree
  have hfs : ∀ {y}, y ∈ fs → 0 ≤ y := fun hy => ((h.mem_free _).mp hy).1.1
  rcases List.mem_cons.mp hx with rfl | hx
  · rcases List.mem_cons.mp hfree with heq | hmem
    · exact absurd heq (by decide)
    · exact absurd (hfs hmem) (by decide)
  · rcases List.mem_cons.mp hfree with rfl | hmem
    · exact absurd (h.lt_of_mem_used hx).1 (by decide)
    · have hused := (h.mem_used x).mp hx
      rw [((h.mem_free x).mp hmem).2] at hused
      exact Bool.noConfusion hused

theorem disjoint' (h : k.Holds fs us) : ∀ x ∈ freeList :: fs, x ∉ usedList :: us :=
  fun x hx hu => h.disjoint x hu hx

theorem nodup_free (h : k.Holds fs us) : fs.Nodup := (List.nodup_cons.mp h.freeRing.1.nodup).2

theorem nodup_used (h : k.Holds fs us) : us.Nodup := (List.nodup_cons.mp h.usedRing.1.nodup).2

/-- Fewer nodes share less. -/
theorem not_mem_cons_erase {a i x : Int} {xs : List Int} (h : x ∉ a :: xs) :
    x ∉ a :: xs.erase i := fun hm => h (by
  rcases List.mem_cons.mp hm with heq | hm
  · rw [heq]; exact List.mem_cons_self
  · exact List.mem_cons_of_mem _ (List.mem_of_mem_erase hm))

theorem use (h : k.Holds fs us) {i : Int} (hi : i ∈ fs) :
    (k.use i).Holds (fs.erase i) (us ++ [i]) := by
  obtain ⟨⟨hlo, hhi⟩, hunused⟩ := (h.mem_free i).mp hi
  have hrecords := k.records_use hlo hhi
  have hused : ∀ x, (k.use i).isUsed x = (k.isUsed x || decide (x = i)) := fun x => by
    have hx := congrFun (congrArg Records.used hrecords) x
    simpa only [records, Records.use, Records.range_one] using hx
  have hvalid : k.Valid i := ⟨by omega, hhi⟩
  have hfree : (k.setIsFree i false).Ring freeList fs := h.freeRing
  have husedRing : (k.setIsFree i false).Ring usedList us := h.usedRing
  have hmem : i ∈ freeList :: fs := List.mem_cons_of_mem _ hi
  have hout : i ∉ usedList :: us := h.disjoint' i hmem
  have hfree₂ := hfree.unlink hi
  have hused₂ := hfree.unlink_other husedRing h.disjoint hmem
  have hnot : i ∉ freeList :: fs.erase i := by
    intro hm
    rcases List.mem_cons.mp hm with heq | hm
    · exact absurd (heq ▸ hlo) (by decide)
    · exact (List.Nodup.mem_erase_iff h.nodup_free).mp hm |>.1 rfl
  refine ⟨hused₂.linkBack_other hfree₂ (fun x hx hu => ?_) hvalid hnot,
    hused₂.linkBack hvalid hout, fun x => ?_, fun x => ?_, ?_⟩
  · exact not_mem_cons_erase (h.disjoint x hu) hx
  · rw [List.Nodup.mem_erase_iff h.nodup_free, h.mem_free, hused]
    show _ ↔ (0 ≤ x ∧ x < (k.freedomSize : Int)) ∧ _
    simp only [Bool.or_eq_false_iff, decide_eq_false_iff_not]
    exact ⟨fun hx => ⟨hx.2.1, hx.2.2, hx.1⟩, fun hx => ⟨hx.2.2, hx.1, hx.2.1⟩⟩
  · rw [List.mem_append, List.mem_singleton, h.mem_used, hused, Bool.or_eq_true,
      decide_eq_true_iff]
  · show k.usedCount + 1 = ((us ++ [i]).length : Int)
    rw [h.count, List.length_append]
    rfl

theorem free (h : k.Holds fs us) {i : Int} (hi : i ∈ us) :
    (k.free i).Holds (i :: fs) (us.erase i) := by
  obtain ⟨hlo, hhi⟩ := h.lt_of_mem_used hi
  have hrecords := k.records_free hlo hhi
  have hused : ∀ x, (k.free i).isUsed x = (k.isUsed x && !decide (x = i)) := fun x => by
    have hx := congrFun (congrArg Records.used hrecords) x
    simpa only [records, Records.free, Records.range_one] using hx
  have hvalid : k.Valid i := ⟨by omega, hhi⟩
  have hfree : (k.setIsFree i true).Ring freeList fs := h.freeRing
  have husedRing : (k.setIsFree i true).Ring usedList us := h.usedRing
  have hmem : i ∈ usedList :: us := List.mem_cons_of_mem _ hi
  have hout : i ∉ freeList :: fs := h.disjoint i hmem
  have hused₂ := husedRing.unlink hi
  have hfree₂ := husedRing.unlink_other hfree h.disjoint' hmem
  have hnot : i ∉ usedList :: us.erase i := by
    intro hm
    rcases List.mem_cons.mp hm with heq | hm
    · exact absurd (heq ▸ hlo) (by decide)
    · exact (List.Nodup.mem_erase_iff h.nodup_used).mp hm |>.1 rfl
  have hih : i ≠ freeList := fun heq => hout (by rw [heq]; exact List.mem_cons_self)
  refine ⟨hfree₂.linkFront hvalid hout,
    hfree₂.linkFront_other hused₂ (fun x hx hf => ?_) hvalid hih hnot, fun x => ?_, fun x => ?_, ?_⟩
  · exact not_mem_cons_erase (h.disjoint' x hf) hx
  · rw [List.mem_cons, h.mem_free, hused]
    show _ ↔ (0 ≤ x ∧ x < (k.freedomSize : Int)) ∧ _
    rw [Bool.and_eq_false_iff, Bool.not_eq_false', decide_eq_true_iff]
    constructor
    · rintro (rfl | ⟨hin, hx⟩)
      · exact ⟨⟨hlo, hhi⟩, .inr rfl⟩
      · exact ⟨hin, .inl hx⟩
    · rintro ⟨hin, hx | hx⟩
      · exact .inr ⟨hin, hx⟩
      · exact .inl hx
  · rw [List.Nodup.mem_erase_iff h.nodup_used, h.mem_used, hused, Bool.and_eq_true,
      Bool.not_eq_true', decide_eq_false_iff_not, and_comm]
  · show k.usedCount - 1 = ((us.erase i).length : Int)
    have hpos := List.length_pos_of_mem hi
    rw [h.count, List.length_erase_of_mem hi]
    omega

/-- The links of what was there stay when the arrays grow. -/
theorem resizeVector_links (k : ListFreedomKeeper) {x : Int} (hx : k.Valid x) :
    (k.resizeVector (k.freedomSize + 1)).nextF x = k.nextF x ∧
      (k.resizeVector (k.freedomSize + 1)).previousF x = k.previousF x := by
  have hslot : ∀ {xs : List Int}, xs.length = k.freedomSize + 2 →
      (Containers.resize xs (k.freedomSize + 1 + 2) 0).getD (slot x) 0
        = xs.getD (slot x) 0 := fun {xs} hlen => by
    have hlt : slot x < xs.length := by
      have := hx.1
      have := hx.2
      rw [hlen, slot]; omega
    rw [List.getD_eq_getElem?_getD, List.getD_eq_getElem?_getD,
      Containers.getElem?_resize_of_lt hlt (by omega)]
  exact ⟨hslot k.length_nextV, hslot k.length_previousV⟩

theorem pushBack (h : k.Holds fs us) : k.pushBack.Holds ((k.freedomSize : Int) :: fs) us := by
  have hrecords := k.records_pushBack
  have hused : ∀ x, k.pushBack.isUsed x = k.isUsed x := fun x =>
    congrFun (congrArg Records.used hrecords) x
  have hunused : k.isUsed k.freedomSize = false := by
    rw [isUsed, decide_eq_false (Int.lt_irrefl _), Bool.and_false, Bool.false_and]
  have hgrow : ∀ {a : Int} {xs : List Int}, k.Ring a xs →
      ((k.resizeVector (k.freedomSize + 1)).setIsFree k.freedomSize true).Ring a xs :=
    fun hr => hr.congr (Nat.le_succ _) fun x hx => resizeVector_links k (hr.2 x hx)
  have hvalid : (k.resizeVector (k.freedomSize + 1)).Valid k.freedomSize :=
    ⟨by omega, Int.lt_succ _⟩
  have hbelow : ∀ {a : Int} {xs : List Int}, k.Ring a xs → (k.freedomSize : Int) ∉ a :: xs :=
    fun hr hm => Int.lt_irrefl _ (hr.2 _ hm).2
  have hfree := hgrow h.freeRing
  refine ⟨hfree.linkFront hvalid (hbelow h.freeRing),
    hfree.linkFront_other (hgrow h.usedRing) h.disjoint hvalid ?_ (hbelow h.usedRing),
    fun x => ?_, fun x => ?_, h.count⟩
  · exact fun heq => hbelow h.freeRing (by rw [heq]; exact List.mem_cons_self)
  · rw [List.mem_cons, h.mem_free, hused]
    show _ ↔ (0 ≤ x ∧ x < ((k.freedomSize + 1 : Nat) : Int)) ∧ _
    constructor
    · rintro (rfl | ⟨hin, hx⟩)
      · exact ⟨⟨by omega, by omega⟩, hunused⟩
      · exact ⟨⟨hin.1, by omega⟩, hx⟩
    · rintro ⟨hin, hx⟩
      by_cases heq : x = k.freedomSize
      · exact .inl heq
      · exact .inr ⟨⟨hin.1, by omega⟩, hx⟩
  · rw [h.mem_used, hused]

end Holds

end ListFreedomKeeper

end Joedb
