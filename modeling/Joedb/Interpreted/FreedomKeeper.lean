import Joedb.Journal.Operation
import Joedb.Lib.Containers

/-!
# Freedom_Keeper

Which records of a table are used. As long as the used records come first, two
numbers say it (`DenseFreedomKeeper`). The first operation that breaks the order
copies them into two linked lists over arrays (`ListFreedomKeeper`), and there
they stay.

The arrays start at -2: the heads of the two lists lie in front of record 0.
What the rest of the development needs is how each operation changes `isUsed`
and the size, and that is said once for both forms.
-/

namespace Joedb

open Containers

/-- `Freedom_Keeper_Constants::used_list`. -/
def usedList : Int := -2

/-- `Freedom_Keeper_Constants::free_list`. -/
def freeList : Int := -1

/-! ## List_Freedom_Keeper -/

structure ListFreedomKeeper where
  isFreeV : List Bool
  nextV : List Int
  previousV : List Int
  freedomSize : Nat
  usedCount : Int
  length_isFreeV : isFreeV.length = freedomSize + 2
  length_nextV : nextV.length = freedomSize + 2
  length_previousV : previousV.length = freedomSize + 2

namespace ListFreedomKeeper

def create : ListFreedomKeeper where
  isFreeV := [false, true]
  nextV := [usedList, freeList]
  previousV := [usedList, freeList]
  freedomSize := 0
  usedCount := 0
  length_isFreeV := rfl
  length_nextV := rfl
  length_previousV := rfl

/-- The place of a record in the arrays. -/
def slot (id : Int) : Nat := (id + 2).toNat

variable (k : ListFreedomKeeper)

def isFreeF (id : Int) : Bool := k.isFreeV.getD (slot id) false

def nextF (id : Int) : Int := k.nextV.getD (slot id) 0

def previousF (id : Int) : Int := k.previousV.getD (slot id) 0

def setIsFree (id : Int) (isFree : Bool) : ListFreedomKeeper :=
  { k with isFreeV := k.isFreeV.set (slot id) isFree
           length_isFreeV := by rw [List.length_set, k.length_isFreeV] }

def setNext (id next : Int) : ListFreedomKeeper :=
  { k with nextV := k.nextV.set (slot id) next
           length_nextV := by rw [List.length_set, k.length_nextV] }

def setPrevious (id previous : Int) : ListFreedomKeeper :=
  { k with previousV := k.previousV.set (slot id) previous
           length_previousV := by rw [List.length_set, k.length_previousV] }

def resizeVector (size : Nat) : ListFreedomKeeper :=
  { k with isFreeV := Containers.resize k.isFreeV (size + 2) false
           nextV := Containers.resize k.nextV (size + 2) 0
           previousV := Containers.resize k.previousV (size + 2) 0
           freedomSize := size
           length_isFreeV := length_resize _ _ _
           length_nextV := length_resize _ _ _
           length_previousV := length_resize _ _ _ }

def getUsedCount : Int := k.usedCount

def getSize : Nat := k.freedomSize

def getNext (index : Int) : Int := k.nextF index

def getPrevious (index : Int) : Int := k.previousF index

def isUsed (index : Int) : Bool :=
  decide (0 ≤ index) && decide (index < k.freedomSize) && !k.isFreeF index

/-- The loop of `is_free_vector`. -/
def isFreeFrom (index : Int) : Nat → Bool
  | 0 => true
  | size + 1 =>
      if index ≥ k.freedomSize then true
      else if !k.isFreeF index then false
      else isFreeFrom (index + 1) size

def isFreeVector (index : Int) (size : Nat) : Bool :=
  if index < 0 then false else k.isFreeFrom index size

/-- The loop of `is_used_vector`. -/
def isUsedFrom (index : Int) : Nat → Bool
  | 0 => true
  | size + 1 => if k.isFreeF index then false else isUsedFrom (index + 1) size

def isUsedVector (index : Int) (size : Nat) : Bool :=
  if index < 0 ∨ index > k.freedomSize ∨ size > k.freedomSize - index then false
  else k.isUsedFrom index size

def pushBack : ListFreedomKeeper :=
  let index : Int := k.freedomSize
  let k := k.resizeVector (k.freedomSize + 1)
  let k := k.setIsFree index true
  let k := k.setNext index (k.nextF freeList)
  let k := k.setPrevious index freeList
  let k := k.setPrevious (k.nextF freeList) index
  k.setNext freeList index

def getFreeRecord : Int × ListFreedomKeeper :=
  if k.nextF freeList = freeList then (k.pushBack.nextF freeList, k.pushBack)
  else (k.nextF freeList, k)

/-- The loop of `resize`, with as many rounds as there are records to add. -/
def resizeGo (newSize : Nat) : Nat → ListFreedomKeeper → ListFreedomKeeper
  | 0, k => k
  | fuel + 1, k => if k.getSize < newSize then resizeGo newSize fuel k.pushBack else k

def resize (newSize : Nat) : ListFreedomKeeper := resizeGo newSize (newSize - k.getSize) k

def use (index : Int) : ListFreedomKeeper :=
  let k := k.setIsFree index false
  let k := k.setNext (k.previousF index) (k.nextF index)
  let k := k.setPrevious (k.nextF index) (k.previousF index)
  let k := k.setPrevious index (k.previousF usedList)
  let k := k.setNext index usedList
  let k := k.setNext (k.previousF index) index
  let k := k.setPrevious usedList index
  { k with usedCount := k.usedCount + 1 }

def free (index : Int) : ListFreedomKeeper :=
  let k := k.setIsFree index true
  let k := k.setNext (k.previousF index) (k.nextF index)
  let k := k.setPrevious (k.nextF index) (k.previousF index)
  let k := k.setNext index (k.nextF freeList)
  let k := k.setPrevious index freeList
  let k := k.setPrevious (k.nextF freeList) index
  let k := k.setNext freeList index
  { k with usedCount := k.usedCount - 1 }

def useVector (index : Int) : Nat → ListFreedomKeeper → ListFreedomKeeper
  | 0, k => k
  | size + 1, k => useVector (index + 1) size (k.use index)

def freeVector (index : Int) : Nat → ListFreedomKeeper → ListFreedomKeeper
  | 0, k => k
  | size + 1, k => freeVector (index + 1) size (k.free index)

end ListFreedomKeeper

/-! ## Dense_Freedom_Keeper -/

structure DenseFreedomKeeper where
  usedSize : Nat
  freeSize : Nat
  usedSize_le : usedSize ≤ freeSize

namespace DenseFreedomKeeper

def create : DenseFreedomKeeper := ⟨0, 0, Nat.le_refl 0⟩

variable (k : DenseFreedomKeeper)

def getUsedCount : Nat := k.usedSize

def getSize : Nat := k.freeSize

def getFirstFree : Int := if k.usedSize = k.freeSize then freeList else k.usedSize

def getFirstUsed : Int := if k.usedSize = 0 then usedList else 0

def getNext (index : Int) : Int :=
  if index = usedList then k.getFirstUsed
  else if index = freeList then k.getFirstFree
  else if index + 1 = k.usedSize then usedList
  else if index + 1 = k.freeSize then freeList
  else index + 1

def getPrevious (index : Int) : Int :=
  if index = usedList then (if k.usedSize = 0 then usedList else k.usedSize - 1)
  else if index = freeList then (if k.usedSize = k.freeSize then freeList else k.freeSize - 1)
  else if index - 1 = k.usedSize - 1 then freeList
  else if index - 1 = -1 then usedList
  else index - 1

def isUsed (index : Int) : Bool := decide (0 ≤ index) && decide (index < k.usedSize)

def isFreeVector (index : Int) (_size : Nat) : Bool := decide (index ≥ k.usedSize)

def isUsedVector (index : Int) (size : Nat) : Bool :=
  decide (0 ≤ index) && decide (index ≤ k.usedSize) && decide (size ≤ k.usedSize - index)

def pushBack : DenseFreedomKeeper :=
  { k with freeSize := k.freeSize + 1
           usedSize_le := Nat.le_succ_of_le k.usedSize_le }

def resize (size : Nat) : DenseFreedomKeeper :=
  { k with freeSize := max k.freeSize size
           usedSize_le := Nat.le_trans k.usedSize_le (Nat.le_max_left _ _) }

def getFreeRecord : Int × DenseFreedomKeeper :=
  (k.usedSize, if k.freeSize = k.usedSize then k.pushBack else k)

/-- None of the operations below is done out of order. -/
def use (index : Int) : Option DenseFreedomKeeper :=
  if h : index = k.usedSize ∧ k.usedSize < k.freeSize then
    some { k with usedSize := k.usedSize + 1, usedSize_le := h.2 }
  else none

def free (index : Int) : Option DenseFreedomKeeper :=
  if index = k.usedSize - 1 ∧ index ≥ 0 then
    some { k with usedSize := k.usedSize - 1
                  usedSize_le := Nat.le_trans (Nat.sub_le _ _) k.usedSize_le }
  else none

def useVector (index : Int) (size : Nat) : Option DenseFreedomKeeper :=
  if h : index = k.usedSize ∧ k.usedSize + size ≤ k.freeSize then
    some { k with usedSize := k.usedSize + size, usedSize_le := h.2 }
  else none

def freeVector (index : Int) (size : Nat) : Option DenseFreedomKeeper :=
  if index + size = k.usedSize then
    some { k with usedSize := k.usedSize - size
                  usedSize_le := Nat.le_trans (Nat.sub_le _ _) k.usedSize_le }
  else none

end DenseFreedomKeeper

/-! ## Freedom_Keeper -/

/-- The two forms. The lists are empty until they are needed. -/
structure FreedomKeeper where
  lfk : ListFreedomKeeper
  dfk : DenseFreedomKeeper
  dense : Bool
  untouched : dense = true → lfk = .create

namespace FreedomKeeper

def create : FreedomKeeper := ⟨.create, .create, true, fun _ => rfl⟩

variable (k : FreedomKeeper)

def getUsedCount : Int := if k.dense then k.dfk.getUsedCount else k.lfk.getUsedCount

def getSize : Nat := if k.dense then k.dfk.getSize else k.lfk.getSize

def getNext (index : Int) : Int :=
  if k.dense then k.dfk.getNext index else k.lfk.getNext index

def getPrevious (index : Int) : Int :=
  if k.dense then k.dfk.getPrevious index else k.lfk.getPrevious index

def isUsed (index : Int) : Bool :=
  if k.dense then k.dfk.isUsed index else k.lfk.isUsed index

def isFree (index : Int) : Bool := !k.isUsed index

def isUsedVector (index : Int) (size : Nat) : Bool :=
  if k.dense then k.dfk.isUsedVector index size else k.lfk.isUsedVector index size

def isFreeVector (index : Int) (size : Nat) : Bool :=
  if k.dense then k.dfk.isFreeVector index size else k.lfk.isFreeVector index size

/-- `lose_compactness`, with what comes after it in the lists. -/
def loseCompactness (f : ListFreedomKeeper → ListFreedomKeeper) : FreedomKeeper :=
  let lfk := k.lfk.resize k.dfk.getSize
  let lfk := ListFreedomKeeper.useVector 0 k.dfk.getUsedCount lfk
  { k with lfk := f lfk, dense := false, untouched := fun h => Bool.noConfusion h }

/-- Do it densely, or lose the compactness, or do it in the lists. -/
def switch (dense : DenseFreedomKeeper → Option DenseFreedomKeeper)
    (list : ListFreedomKeeper → ListFreedomKeeper) : FreedomKeeper :=
  if k.dense then
    match dense k.dfk with
    | some dfk => { k with dfk := dfk }
    | none => k.loseCompactness list
  else { k with lfk := list k.lfk, dense := false, untouched := fun h => Bool.noConfusion h }

def pushBack : FreedomKeeper := k.switch (fun d => some d.pushBack) (·.pushBack)

def resize (newSize : Nat) : FreedomKeeper :=
  k.switch (fun d => some (d.resize newSize)) (·.resize newSize)

def getFreeRecord : Int × FreedomKeeper :=
  (if k.dense then k.dfk.getFreeRecord.1 else k.lfk.getFreeRecord.1,
    k.switch (fun d => some d.getFreeRecord.2) fun l => l.getFreeRecord.2)

def use (index : Int) : FreedomKeeper := k.switch (·.use index) (·.use index)

def free (index : Int) : FreedomKeeper := k.switch (·.free index) (·.free index)

def useVector (index : Int) (size : Nat) : FreedomKeeper :=
  k.switch (·.useVector index size) (ListFreedomKeeper.useVector index size)

/-- `use_vector` of a keeper that may be told to use more than it has. A dense one adds first,
and looks at what the sum has become; the lists are written into. -/
def useVector64 (index : Int) (size : Nat) : Except Exn FreedomKeeper :=
  if k.dense ∧ index = k.dfk.usedSize ∧ word (k.dfk.usedSize + size) ≤ k.dfk.freeSize then
    if h : (word (k.dfk.usedSize + size)).toNat ≤ k.dfk.freeSize ∧
        0 ≤ word (k.dfk.usedSize + size) then
      .ok { k with dfk := ⟨(word (k.dfk.usedSize + size)).toNat, k.dfk.freeSize, h.1⟩ }
    else .error .negative
  else if index + size ≤ k.getSize then .ok (k.useVector index size)
  else .error .undefined

def freeVector (index : Int) (size : Nat) : FreedomKeeper :=
  k.switch (·.freeVector index size) (ListFreedomKeeper.freeVector index size)

end FreedomKeeper

end Joedb
