import Mathlib.Data.List.Nodup
import Mathlib.Logic.Function.Iterate

/-!
# Circular lists in arrays of links

A circular list lives in two functions, `next` and `prev`, from nodes to nodes.
`Path` follows the links from one node to another, and `Cycle` is a path from a
head back to itself, over nodes that are all different.

Two operations move nodes between such lists: taking a node out, and putting
one behind the head. Putting one in front of the head is the same with the two
functions exchanged. A list whose nodes are not written to stays as it is, so
any number of lists may share the functions.
-/

namespace Links

variable {α : Type} {next prev next' prev' : α → α}

/-- From `a` through `xs` to `b`, with links in both directions. -/
def Path (next prev : α → α) : α → List α → α → Prop
  | a, [], b => next a = b ∧ prev b = a
  | a, x :: xs, b => next a = x ∧ prev x = a ∧ Path next prev x xs b

/-- A circular list with head `h`. -/
structure Cycle (next prev : α → α) (h : α) (xs : List α) : Prop where
  path : Path next prev h xs h
  nodup : (h :: xs).Nodup

theorem Path.congr {a b : α} {xs : List α} (h : Path next prev a xs b)
    (hnext : ∀ x ∈ a :: xs, next' x = next x) (hprev : ∀ x ∈ xs ++ [b], prev' x = prev x) :
    Path next' prev' a xs b := by
  induction xs generalizing a with
  | nil => exact ⟨(hnext a (by simp)).trans h.1, (hprev b (by simp)).trans h.2⟩
  | cons x xs ih =>
      obtain ⟨hn, hp, hrest⟩ := h
      refine ⟨(hnext a (by simp)).trans hn, (hprev x (by simp)).trans hp, ih hrest ?_ ?_⟩
      · exact fun y hy => hnext y (List.mem_cons_of_mem _ hy)
      · exact fun y hy => hprev y (List.mem_cons_of_mem _ hy)

theorem path_append {a b x : α} {xs ys : List α} :
    Path next prev a (xs ++ x :: ys) b ↔ Path next prev a xs x ∧ Path next prev x ys b := by
  induction xs generalizing a with
  | nil => simp only [List.nil_append, Path, and_assoc]
  | cons y xs ih => simp only [List.cons_append, Path, ih, and_assoc]

/-- The other way round. -/
theorem Path.reverse {a b : α} {xs : List α} (h : Path next prev a xs b) :
    Path prev next b xs.reverse a := by
  induction xs generalizing a with
  | nil => exact ⟨h.2, h.1⟩
  | cons x xs ih =>
      obtain ⟨hn, hp, hrest⟩ := h
      rw [List.reverse_cons]
      exact path_append.mpr ⟨ih hrest, hp, hn⟩

theorem Path.next_mem {a b : α} {xs : List α} (h : Path next prev a xs b) :
    next a ∈ xs ++ [b] := by
  cases xs with
  | nil => rw [h.1]; exact List.mem_singleton_self b
  | cons x xs => rw [h.1]; exact List.mem_cons_self

theorem Path.prev_mem {a b : α} {xs : List α} (h : Path next prev a xs b) :
    prev b ∈ a :: xs := by
  have hmem := h.reverse.next_mem
  rw [List.mem_append, List.mem_reverse, List.mem_singleton] at hmem
  exact List.mem_cons.mpr hmem.symm

namespace Cycle

variable {h : α} {xs : List α}

theorem congr (hc : Cycle next prev h xs) (hnext : ∀ x ∈ h :: xs, next' x = next x)
    (hprev : ∀ x ∈ h :: xs, prev' x = prev x) : Cycle next' prev' h xs := by
  refine ⟨hc.path.congr hnext fun x hx => hprev x ?_, hc.nodup⟩
  rw [List.mem_append, List.mem_singleton] at hx
  exact List.mem_cons.mpr hx.symm

theorem reverse (hc : Cycle next prev h xs) : Cycle prev next h xs.reverse := by
  refine ⟨hc.path.reverse, ?_⟩
  obtain ⟨hnot, hnodup⟩ := List.nodup_cons.mp hc.nodup
  exact List.nodup_cons.mpr ⟨fun hm => hnot (List.mem_reverse.mp hm),
    List.nodup_reverse.mpr hnodup⟩

/-- Links stay within the list. -/
theorem next_mem (hc : Cycle next prev h xs) {x : α} (hx : x ∈ h :: xs) :
    next x ∈ h :: xs := by
  have hsub : ∀ {y}, y ∈ xs ++ [h] → y ∈ h :: xs := fun hy => by
    rw [List.mem_append, List.mem_singleton] at hy
    exact List.mem_cons.mpr hy.symm
  rcases List.mem_cons.mp hx with rfl | hx
  · exact hsub hc.path.next_mem
  · obtain ⟨as, bs, rfl⟩ := List.append_of_mem hx
    have hmem := (path_append.mp hc.path).2.next_mem
    rw [List.mem_append, List.mem_singleton] at hmem
    rcases hmem with hmem | hmem
    · exact List.mem_cons_of_mem _ (by simp [hmem])
    · exact List.mem_cons.mpr (.inl hmem)

theorem prev_mem (hc : Cycle next prev h xs) {x : α} (hx : x ∈ h :: xs) :
    prev x ∈ h :: xs := by
  have hmem := hc.reverse.next_mem (x := x) (by
    rw [List.mem_cons, List.mem_reverse]; exact List.mem_cons.mp hx)
  rw [List.mem_cons, List.mem_reverse] at hmem
  exact List.mem_cons.mpr hmem

/-- Forth and back. -/
theorem prev_next (hc : Cycle next prev h xs) {x : α} (hx : x ∈ h :: xs) :
    prev (next x) = x := by
  have hpath : ∀ {a b : α} {ys : List α}, Path next prev a ys b → prev (next a) = a := by
    intro a b ys hp
    cases ys with
    | nil => rw [hp.1, hp.2]
    | cons y ys => rw [hp.1, hp.2.1]
  rcases List.mem_cons.mp hx with rfl | hx
  · exact hpath hc.path
  · obtain ⟨as, bs, rfl⟩ := List.append_of_mem hx
    exact hpath (path_append.mp hc.path).2

theorem next_prev (hc : Cycle next prev h xs) {x : α} (hx : x ∈ h :: xs) :
    next (prev x) = x :=
  hc.reverse.prev_next (by rw [List.mem_cons, List.mem_reverse]; exact List.mem_cons.mp hx)

/-- Step by step: the list, and then the head again. -/
theorem iterate (hc : Cycle next prev h xs) :
    (∀ i (hi : i < xs.length), next^[i + 1] h = xs[i]) ∧ next^[xs.length + 1] h = h := by
  have hpath : ∀ {a b : α} {ys : List α}, Path next prev a ys b →
      (∀ i (hi : i < ys.length), next^[i + 1] a = ys[i]) ∧ next^[ys.length + 1] a = b := by
    intro a b ys hp
    induction ys generalizing a with
    | nil => exact ⟨fun i hi => absurd hi (Nat.not_lt_zero i), hp.1⟩
    | cons y ys ih =>
        obtain ⟨hn, -, hrest⟩ := hp
        obtain ⟨hall, hend⟩ := ih hrest
        refine ⟨fun i hi => ?_, ?_⟩
        · cases i with
          | zero => exact hn
          | succ i =>
              rw [Function.iterate_succ_apply, hn]
              exact hall i (Nat.lt_of_succ_lt_succ hi)
        · rw [Function.iterate_succ_apply, hn]
          exact hend
  exact hpath hc.path

end Cycle

/-- What a walk along `next` sees, with `prev` the way back. -/
structure Visits (next prev : α → α) (h : α) (xs : List α) : Prop where
  nodup : xs.Nodup
  visit : ∀ i (hi : i < xs.length), next^[i + 1] h = xs[i]
  home : next^[xs.length + 1] h = h
  back : ∀ x ∈ h :: xs, prev (next x) = x ∧ next (prev x) = x

theorem Cycle.visits {h : α} {xs : List α} (hc : Cycle next prev h xs) :
    Visits next prev h xs :=
  ⟨(List.nodup_cons.mp hc.nodup).2, hc.iterate.1, hc.iterate.2,
    fun _ hx => ⟨hc.prev_next hx, hc.next_prev hx⟩⟩

/-! ## Moving nodes -/

variable [DecidableEq α]

open Function (update)

theorem path_unlink {a b x : α} {xs ys : List α} (hxs : Path next prev a xs x)
    (hys : Path next prev x ys b) (hnodup : (a :: (xs ++ ys)).Nodup) (hb : b ∉ xs ++ ys) :
    Path (update next (prev x) (next x)) (update prev (next x) (prev x)) a (xs ++ ys) b := by
  induction xs generalizing a with
  | nil =>
      obtain ⟨-, hpx⟩ := hxs
      obtain ⟨ha, hnd⟩ := List.nodup_cons.mp hnodup
      rw [List.nil_append] at ha hb hnd ⊢
      cases ys with
      | nil => exact ⟨by rw [hpx, Function.update_self, hys.1], by
          rw [← hys.1, Function.update_self, hpx]⟩
      | cons y ys =>
          obtain ⟨hn, -, hrest⟩ := hys
          obtain ⟨hy, -⟩ := List.nodup_cons.mp hnd
          refine ⟨by rw [hpx, Function.update_self, hn], by rw [hn, Function.update_self, hpx],
            hrest.congr (fun z hz => ?_) fun z hz => ?_⟩
          · exact Function.update_of_ne (fun h => ha (by rw [← hpx, ← h]; exact hz)) _ _
          · refine Function.update_of_ne (fun h => ?_) _ _
            rw [h, hn, List.mem_append, List.mem_singleton] at hz
            rcases hz with hz | hz
            · exact hy hz
            · exact hb (by rw [← hz]; exact List.mem_cons_self)
  | cons z zs ih =>
      obtain ⟨hn, hp, hrest⟩ := hxs
      rw [List.cons_append] at hnodup hb ⊢
      obtain ⟨ha, hnd⟩ := List.nodup_cons.mp hnodup
      obtain ⟨hz, -⟩ := List.nodup_cons.mp hnd
      have hpx := hrest.prev_mem
      have hnx := hys.next_mem
      refine ⟨?_, ?_, ih hrest hnd fun h => hb (List.mem_cons_of_mem _ h)⟩
      · rw [Function.update_of_ne _ _ _, hn]
        intro h
        rw [← h] at hpx
        exact ha (by
          rcases List.mem_cons.mp hpx with h | h
          · rw [h]; exact List.mem_cons_self
          · exact List.mem_cons_of_mem _ (List.mem_append_left _ h))
      · rw [Function.update_of_ne _ _ _, hp]
        intro h
        rw [← h, List.mem_append, List.mem_singleton] at hnx
        rcases hnx with h | h
        · exact hz (List.mem_append_right _ h)
        · exact hb (by rw [← h]; exact List.mem_cons_self)

namespace Cycle

variable {h x : α} {xs : List α}

/-- Taking a node out. -/
theorem unlink (hc : Cycle next prev h xs) (hx : x ∈ xs) :
    Cycle (update next (prev x) (next x)) (update prev (next x) (prev x)) h (xs.erase x) := by
  obtain ⟨as, bs, rfl⟩ := List.append_of_mem hx
  obtain ⟨hh, hnd⟩ := List.nodup_cons.mp hc.nodup
  have hsub : (as ++ bs).Sublist (as ++ x :: bs) :=
    (List.Sublist.refl as).append (List.sublist_cons_self x bs)
  have hxas : x ∉ as := fun hmem =>
    (List.nodup_append.mp hnd).2.2 x hmem x List.mem_cons_self rfl
  have herase : (as ++ x :: bs).erase x = as ++ bs := by
    rw [List.erase_append_right _ hxas, List.erase_cons_head]
  have hnot : h ∉ as ++ bs := fun hmem => hh (hsub.subset hmem)
  have hnodup : (h :: (as ++ bs)).Nodup := List.nodup_cons.mpr ⟨hnot, hnd.sublist hsub⟩
  obtain ⟨hleft, hright⟩ := path_append.mp hc.path
  rw [herase]
  exact ⟨path_unlink hleft hright hnodup hnot, hnodup⟩

/-- A new node behind the head. -/
theorem linkFront (hc : Cycle next prev h xs) (hx : x ∉ h :: xs) :
    Cycle (update (update next x (next h)) h x) (update (update prev x h) (next h) x)
      h (x :: xs) := by
  obtain ⟨hh, hnd⟩ := List.nodup_cons.mp hc.nodup
  have hxh : x ≠ h := fun heq => hx (by rw [heq]; exact List.mem_cons_self)
  have hxs : x ∉ xs := fun hmem => hx (List.mem_cons_of_mem _ hmem)
  have hnx : next h ≠ x := fun heq => hx (heq ▸ hc.next_mem List.mem_cons_self)
  refine ⟨⟨Function.update_self _ _ _, ?_, ?_⟩, List.nodup_cons.mpr ⟨?_,
    List.nodup_cons.mpr ⟨hxs, hnd⟩⟩⟩
  · rw [Function.update_of_ne hnx.symm, Function.update_self]
  · have hpath := hc.path
    have hnew : update (update next x (next h)) h x x = next h := by
      rw [Function.update_of_ne hxh, Function.update_self]
    cases xs with
    | nil =>
        obtain ⟨hn, -⟩ := hpath
        exact ⟨hnew.trans hn, by rw [hn, Function.update_self]⟩
    | cons y ys =>
        obtain ⟨hn, -, hrest⟩ := hpath
        refine ⟨hnew.trans hn, by rw [hn, Function.update_self], ?_⟩
        refine hrest.congr (fun z hz => ?_) fun z hz => ?_
        · have hzh : z ≠ h := by
            rintro rfl
            exact hh hz
          have hzx : z ≠ x := by
            rintro rfl
            exact hxs hz
          rw [Function.update_of_ne hzh, Function.update_of_ne hzx]
        · rw [List.mem_append, List.mem_singleton] at hz
          rw [Function.update_of_ne ?_, Function.update_of_ne ?_]
          · rintro rfl
            exact hx (List.mem_cons.mpr (hz.symm.imp id (List.mem_cons_of_mem _)))
          · rw [hn]
            rintro rfl
            rcases hz with hz | hz
            · exact (List.nodup_cons.mp hnd).1 hz
            · exact hh (by rw [← hz]; exact List.mem_cons_self)
  · intro hmem
    rcases List.mem_cons.mp hmem with heq | hmem
    · exact hxh heq.symm
    · exact hh hmem

/-- A new node in front of the head. -/
theorem linkBack (hc : Cycle next prev h xs) (hx : x ∉ h :: xs) :
    Cycle (update (update next x h) (prev h) x) (update (update prev x (prev h)) h x)
      h (xs ++ [x]) := by
  have hrev := (hc.reverse.linkFront (x := x) (by
    rw [List.mem_cons, List.mem_reverse, ← List.mem_cons]; exact hx)).reverse
  rwa [List.reverse_cons, List.reverse_reverse] at hrev

end Cycle

end Links
