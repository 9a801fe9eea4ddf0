import Joedb.Lib.Bytes

/-!
# Vectors and maps

The parts of the C++ containers that programs lean on, over lists. A vector is a
list; `resize` and `copyN` never reach outside it. An ordered map is the list of
its entries by ascending key, as iterators walk it. Writing through an iterator
or a reference is `assign`: it keeps every key and every other value.
-/

namespace Containers

variable {α κ : Type}

/-! ## Vectors -/

/-- `vector::resize`, with `x` in what is new. -/
def resize (xs : List α) (n : Nat) (x : α) : List α :=
  xs.take n ++ List.replicate (n - xs.length) x

@[simp] theorem length_resize (xs : List α) (n : Nat) (x : α) :
    (resize xs n x).length = n := by
  rw [resize, List.length_append, List.length_take, List.length_replicate]
  omega

/-- What was there is there, when the vector has grown. -/
theorem getElem?_resize_of_lt {xs : List α} {n i : Nat} (hi : i < xs.length) (hn : i < n)
    (x : α) : (resize xs n x)[i]? = xs[i]? := by
  rw [resize, List.getElem?_append_left (by rw [List.length_take]; omega),
    List.getElem?_take_of_lt hn]

theorem take_resize {xs : List α} {m n : Nat} {x : α} (hlen : m ≤ xs.length) (hle : m ≤ n) :
    (resize xs n x).take m = xs.take m := by
  rw [resize, List.take_append_of_le_length (by rw [List.length_take]; omega), List.take_take,
    Nat.min_eq_left hle]

/-- What is behind an index and in what is new. -/
theorem mem_drop_resize {xs : List α} {m n : Nat} {x v : α} (h : v ∈ (resize xs n x).drop m) :
    v ∈ xs.drop m ∨ v = x := by
  rw [resize, List.drop_append, List.mem_append] at h
  rcases h with h | h
  · rw [List.drop_take] at h
    exact .inl (List.mem_of_mem_take h)
  · exact .inr (List.eq_of_mem_replicate (List.mem_of_mem_drop h))

/-- A vector that has nothing but `x` behind an index grows as what is before it. -/
theorem resize_take {xs : List α} {m n : Nat} {x : α} (hlen : m ≤ xs.length) (hle : m ≤ n)
    (h : ∀ v ∈ xs.drop m, v = x) : resize (xs.take m) n x = resize xs n x := by
  have hlast := List.eq_replicate_iff.mpr ⟨rfl, h⟩
  rw [List.length_drop] at hlast
  have htake : xs.take n = xs.take m ++ List.replicate (min (n - m) (xs.length - m)) x := by
    calc xs.take n
      _ = (xs.take m ++ xs.drop m).take n := by rw [List.take_append_drop]
      _ = xs.take m ++ (xs.drop m).take (n - m) := by
          rw [List.take_append, List.take_take, Nat.min_eq_right hle, List.length_take,
            Nat.min_eq_left hlen]
      _ = _ := by rw [hlast, List.take_replicate]
  rw [resize, resize, htake, List.take_take, Nat.min_eq_right hle, List.length_take,
    Nat.min_eq_left hlen, List.append_assoc, List.replicate_append_replicate]
  congr 2
  omega

/-- The element that a pointer into a vector points to. -/
theorem headD_drop (xs : List α) (i : Nat) (x : α) : (xs.drop i).headD x = xs.getD i x := by
  rw [List.headD_eq_head?_getD, List.head?_drop, List.getD_eq_getElem?_getD]

/-- `copy_n`: values written over a vector from an index on. -/
def copyN : List α → Nat → List α → List α
  | xs, _, [] => xs
  | xs, i, v :: vs => copyN (xs.set i v) (i + 1) vs

@[simp] theorem length_copyN (xs : List α) (i : Nat) (vs : List α) :
    (copyN xs i vs).length = xs.length := by
  induction vs generalizing xs i with
  | nil => rfl
  | cons v vs ih => rw [copyN, ih, List.length_set]

theorem getElem?_copyN (xs : List α) (i : Nat) (vs : List α) (k : Nat) :
    (copyN xs i vs)[k]? =
      if i ≤ k ∧ k < i + vs.length ∧ k < xs.length then vs[k - i]? else xs[k]? := by
  induction vs generalizing xs i with
  | nil => rw [copyN, if_neg]; simp; omega
  | cons v vs ih =>
      rw [copyN, ih, List.length_set, List.getElem?_set, List.length_cons]
      by_cases hk : i = k
      · subst hk
        rw [if_neg (by omega), if_pos rfl]
        by_cases hlen : i < xs.length
        · rw [if_pos hlen, if_pos ⟨by omega, by omega, hlen⟩, Nat.sub_self]
          rfl
        · rw [if_neg hlen, if_neg (by omega), List.getElem?_eq_none (by omega)]
      · rw [if_neg hk]
        by_cases hin : i ≤ k ∧ k < i + (vs.length + 1) ∧ k < xs.length
        · rw [if_pos hin, if_pos (by omega), show k - i = (k - (i + 1)) + 1 by omega]
          rfl
        · rw [if_neg hin, if_neg (by omega)]

theorem take_copyN {xs vs : List α} {i n : Nat} (h : i + vs.length ≤ n) :
    (copyN xs i vs).take n = copyN (xs.take n) i vs := by
  refine List.ext_getElem? fun k => ?_
  rw [List.getElem?_take, getElem?_copyN, getElem?_copyN, List.length_take, List.getElem?_take]
  by_cases hk : k < n
  · rw [if_pos hk, if_pos hk]
    by_cases hin : i ≤ k ∧ k < i + vs.length ∧ k < xs.length
    · rw [if_pos hin, if_pos ⟨hin.1, hin.2.1, by omega⟩]
    · rw [if_neg hin, if_neg fun hin' => hin ⟨hin'.1, hin'.2.1, by omega⟩]
  · rw [if_neg hk, if_neg hk, if_neg (by omega)]

theorem drop_copyN {xs vs : List α} {i n : Nat} (h : i + vs.length ≤ n) :
    (copyN xs i vs).drop n = xs.drop n := by
  refine List.ext_getElem? fun k => ?_
  rw [List.getElem?_drop, List.getElem?_drop, getElem?_copyN, if_neg (by omega)]

/-- Copying twice is copying once. -/
theorem getD_modify (xs : List α) (i : Nat) (f : α → α) (k : Nat) (x : α) :
    (xs.modify i f).getD k x = if i = k ∧ k < xs.length then f (xs.getD k x) else xs.getD k x := by
  simp only [List.getD_eq_getElem?_getD, List.getElem?_modify]
  by_cases hk : k < xs.length
  · rw [List.getElem?_eq_getElem hk, Option.map_eq_map, Option.map_some, Option.getD_some]
    simp only [hk, and_true, Option.getD_some]
  · rw [List.getElem?_eq_none (Nat.not_lt.mp hk), if_neg fun h => hk h.2]
    rfl

theorem copyN_copyN (xs : List α) (i : Nat) (vs : List α) :
    copyN (copyN xs i vs) i vs = copyN xs i vs := by
  apply List.ext_getElem?
  intro k
  rw [getElem?_copyN (copyN xs i vs), length_copyN, getElem?_copyN xs]
  by_cases hin : i ≤ k ∧ k < i + vs.length ∧ k < xs.length
  · rw [if_pos hin, if_pos hin]
  · rw [if_neg hin, if_neg hin]

/-- Copying what is there already. -/
theorem copyN_eq_self {xs vs : List α} {i : Nat} :
    copyN xs i vs = xs ↔
      ∀ k v, vs[k]? = some v → i + k < xs.length → xs[i + k]? = some v := by
  refine ⟨fun h k v hv hk => ?_, fun h => List.ext_getElem? fun k => ?_⟩
  · have hlt := (List.getElem?_eq_some_iff.mp hv).1
    have hget := getElem?_copyN xs i vs (i + k)
    rw [if_pos ⟨Nat.le_add_right i k, Nat.add_lt_add_left hlt i, hk⟩, Nat.add_sub_cancel_left,
      h, hv] at hget
    exact hget
  · rw [getElem?_copyN]
    split
    · next hin =>
        obtain ⟨hlo, hhi, hlen⟩ := hin
        have hlt : k - i < vs.length := by omega
        have hk : i + (k - i) = k := by omega
        have hthere := h (k - i) vs[k - i] (List.getElem?_eq_getElem hlt) (by omega)
        rw [hk] at hthere
        rw [hthere, List.getElem?_eq_getElem hlt]
    · rfl

/-! ## Maps -/

section Maps

variable [DecidableEq κ]

/-- `find`, and what the iterator points to. -/
def find : List (κ × α) → κ → Option α
  | [], _ => none
  | (k', v) :: m, k => if k = k' then some v else find m k

/-- Writing through the iterator of a key. -/
def assign : List (κ × α) → κ → α → List (κ × α)
  | [], _, _ => []
  | (k', v') :: m, k, v => if k = k' then (k', v) :: m else (k', v') :: assign m k v

/-- `try_emplace`: an entry in its place, unless the key is there. -/
def tryEmplace [LT κ] [DecidableLT κ] : List (κ × α) → κ → α → List (κ × α)
  | [], k, v => [(k, v)]
  | (k', v') :: m, k, v =>
      if k = k' then (k', v') :: m
      else if k < k' then (k, v) :: (k', v') :: m
      else (k', v') :: tryEmplace m k v

/-- `m[k] = v`. -/
def insertOrAssign [LT κ] [DecidableLT κ] (m : List (κ × α)) (k : κ) (v : α) : List (κ × α) :=
  assign (tryEmplace m k v) k v

/-- `erase` of a key. -/
def erase (m : List (κ × α)) (k : κ) : List (κ × α) := m.filter (·.1 ≠ k)

theorem find_assign {m : List (κ × α)} {k : κ} {v : α} (h : find m k = some v) (v' : α) :
    find (assign m k v') k = some v' := by
  induction m with
  | nil => cases h
  | cons entry m ih =>
      obtain ⟨k', x⟩ := entry
      rw [find] at h
      rw [assign]
      by_cases hk : k = k'
      · rw [if_pos hk, find, if_pos hk]
      · rw [if_neg hk] at h ⊢
        rw [find, if_neg hk, ih h]

/-- Writing what is there already. -/
theorem assign_self {m : List (κ × α)} {k : κ} {v : α} (h : find m k = some v) :
    assign m k v = m := by
  induction m with
  | nil => rfl
  | cons entry m ih =>
      obtain ⟨k', x⟩ := entry
      rw [find] at h
      rw [assign]
      by_cases hk : k = k'
      · rw [if_pos hk] at h ⊢
        cases h
        rfl
      · rw [if_neg hk] at h ⊢
        rw [ih h]

/-- `m[k]`, once it is written. -/
theorem find_insertOrAssign [LT κ] [DecidableLT κ] (m : List (κ × α)) (k k' : κ) (v : α) :
    find (insertOrAssign m k v) k' = if k' = k then some v else find m k' := by
  rw [insertOrAssign]
  induction m with
  | nil =>
      rw [tryEmplace, assign, if_pos rfl]
      rfl
  | cons entry m ih =>
      obtain ⟨j, x⟩ := entry
      rw [tryEmplace]
      by_cases hj : k = j
      · rw [if_pos hj, assign, if_pos hj, find, find, hj]
        by_cases hk : k' = j
        · rw [if_pos hk, if_pos hk]
        · rw [if_neg hk, if_neg hk, if_neg hk]
      · rw [if_neg hj]
        by_cases hlt : k < j
        · rw [if_pos hlt, assign, if_pos rfl]
          rfl
        · rw [if_neg hlt, assign, if_neg hj, find, find, ih]
          by_cases hk : k' = j
          · rw [if_pos hk, if_pos hk, if_neg fun h => hj (h.symm.trans hk)]
          · rw [if_neg hk, if_neg hk]

theorem assign_assign (m : List (κ × α)) (k : κ) (v v' : α) :
    assign (assign m k v) k v' = assign m k v' := by
  induction m with
  | nil => rfl
  | cons entry m ih =>
      obtain ⟨k', x⟩ := entry
      rw [assign, assign]
      by_cases hk : k = k'
      · rw [if_pos hk, if_pos hk, assign, if_pos hk]
      · rw [if_neg hk, if_neg hk, assign, if_neg hk, ih]

theorem mem_of_find {m : List (κ × α)} {k : κ} {v : α} (h : find m k = some v) : (k, v) ∈ m := by
  induction m with
  | nil => cases h
  | cons entry m ih =>
      obtain ⟨k', x⟩ := entry
      rw [find] at h
      by_cases hk : k = k'
      · rw [if_pos hk] at h
        cases h
        rw [hk]
        exact List.mem_cons_self
      · rw [if_neg hk] at h
        exact List.mem_cons_of_mem _ (ih h)

/-- Every value of a map that was written to, and the new one. -/
theorem forall_mem_assign {P : α → Prop} {m : List (κ × α)} (h : ∀ e ∈ m, P e.2) (k : κ)
    {v : α} (hv : P v) : ∀ e ∈ assign m k v, P e.2 := by
  induction m with
  | nil => exact h
  | cons entry m ih =>
      obtain ⟨k', x⟩ := entry
      obtain ⟨hx, hm⟩ := List.forall_mem_cons.mp h
      rw [assign]
      by_cases hk : k = k'
      · rw [if_pos hk]
        exact List.forall_mem_cons.mpr ⟨hv, hm⟩
      · rw [if_neg hk]
        exact List.forall_mem_cons.mpr ⟨hx, ih hm⟩

theorem forall_mem_tryEmplace [LT κ] [DecidableLT κ] {P : α → Prop} {m : List (κ × α)}
    (h : ∀ e ∈ m, P e.2) (k : κ) {v : α} (hv : P v) : ∀ e ∈ tryEmplace m k v, P e.2 := by
  induction m with
  | nil => exact List.forall_mem_cons.mpr ⟨hv, h⟩
  | cons entry m ih =>
      obtain ⟨k', x⟩ := entry
      obtain ⟨hx, hm⟩ := List.forall_mem_cons.mp h
      rw [tryEmplace]
      split
      · exact h
      · split
        · exact List.forall_mem_cons.mpr ⟨hv, h⟩
        · exact List.forall_mem_cons.mpr ⟨hx, ih hm⟩

/-! ### A function of the values -/

section MapValues

variable {β : Type} (g : α → β)

theorem find_map (m : List (κ × α)) (k : κ) :
    find (m.map fun e => (e.1, g e.2)) k = (find m k).map g := by
  induction m with
  | nil => rfl
  | cons e m ih =>
      obtain ⟨j, v⟩ := e
      rw [List.map_cons, find, find]
      by_cases hk : k = j
      · rw [if_pos hk, if_pos hk]
        rfl
      · rw [if_neg hk, if_neg hk]
        exact ih

theorem map_assign (m : List (κ × α)) (k : κ) (v : α) :
    (assign m k v).map (fun e => (e.1, g e.2))
      = assign (m.map fun e => (e.1, g e.2)) k (g v) := by
  induction m with
  | nil => rfl
  | cons e m ih =>
      obtain ⟨j, x⟩ := e
      rw [List.map_cons, assign, assign]
      by_cases hk : k = j
      · rw [if_pos hk, if_pos hk]
        rfl
      · rw [if_neg hk, if_neg hk, List.map_cons, ih]

theorem map_tryEmplace [LT κ] [DecidableLT κ] (m : List (κ × α)) (k : κ) (v : α) :
    (tryEmplace m k v).map (fun e => (e.1, g e.2))
      = tryEmplace (m.map fun e => (e.1, g e.2)) k (g v) := by
  induction m with
  | nil => rfl
  | cons e m ih =>
      obtain ⟨j, x⟩ := e
      rw [List.map_cons, tryEmplace, tryEmplace]
      split
      · rfl
      · split
        · rfl
        · rw [List.map_cons, ih]

theorem map_erase (m : List (κ × α)) (k : κ) :
    (erase m k).map (fun e => (e.1, g e.2)) = erase (m.map fun e => (e.1, g e.2)) k := by
  rw [erase, erase, List.filter_map]
  rfl

end MapValues

/-! ### Keys -/

def keys (m : List (κ × α)) : List κ := m.map (·.1)

theorem find_isSome_iff {m : List (κ × α)} {k : κ} : (find m k).isSome ↔ k ∈ keys m := by
  induction m with
  | nil => simp [find, keys]
  | cons e m ih =>
      obtain ⟨j, v⟩ := e
      rw [find, keys, List.map_cons, List.mem_cons]
      by_cases hk : k = j
      · rw [if_pos hk]
        simp [hk]
      · rw [if_neg hk, ih]
        simp [hk, keys]

omit [DecidableEq κ] in
theorem length_of_keys {β : Type} {m : List (κ × α)} {m' : List (κ × β)}
    (h : keys m = keys m') : m.length = m'.length := by
  have hsame := congrArg List.length h
  rwa [keys, keys, List.length_map, List.length_map] at hsame

/-- A map is its keys and what is found under them. -/
theorem eq_of_find {m m' : List (κ × α)} (hkeys : keys m = keys m') (hnodup : (keys m).Nodup)
    (h : ∀ k ∈ keys m, find m k = find m' k) : m = m' := by
  induction m generalizing m' with
  | nil =>
      cases m' with
      | nil => rfl
      | cons e' m' => cases hkeys
  | cons e m ih =>
      cases m' with
      | nil => cases hkeys
      | cons e' m' =>
          obtain ⟨j, v⟩ := e
          obtain ⟨j', v'⟩ := e'
          obtain ⟨hj, hrest⟩ := List.cons.inj hkeys
          obtain rfl : j = j' := hj
          obtain ⟨hnot, hnodup⟩ := List.nodup_cons.mp hnodup
          have hv := h j List.mem_cons_self
          rw [find, find, if_pos rfl, if_pos rfl] at hv
          obtain rfl := Option.some.inj hv
          rw [ih hrest hnodup fun k hk => ?_]
          have hne : k ≠ j := by
            rintro rfl
            exact hnot hk
          have hfind := h k (List.mem_cons_of_mem _ hk)
          rwa [find, find, if_neg hne, if_neg hne] at hfind

omit [DecidableEq κ] in
/-- What an operation does to the keys does not depend on the values. -/
theorem keys_eq_map (m : List (κ × α)) : m.map (fun e => (e.1, ())) = (keys m).map (·, ()) := by
  rw [keys, List.map_map]
  rfl

omit [DecidableEq κ] in
theorem keys_map {β : Type} (m : List (κ × α)) (g : α → β) :
    keys (m.map fun e => (e.1, g e.2)) = keys m := by
  rw [keys, keys, List.map_map]
  rfl

theorem keys_assign (m : List (κ × α)) (k : κ) (v : α) : keys (assign m k v) = keys m := by
  induction m with
  | nil => rfl
  | cons e m ih =>
      obtain ⟨j, x⟩ := e
      rw [assign]
      split
      · rfl
      · exact congrArg (j :: ·) ih

theorem keys_tryEmplace_congr {β : Type} [LT κ] [DecidableLT κ] {m : List (κ × α)}
    {m' : List (κ × β)} (h : keys m = keys m') (k : κ) (v : α) (v' : β) :
    keys (tryEmplace m k v) = keys (tryEmplace m' k v') := by
  have hunit : m.map (fun e => (e.1, ())) = m'.map fun e => (e.1, ()) := by
    rw [keys_eq_map, keys_eq_map, h]
  rw [← keys_map (tryEmplace m k v) fun _ => (), ← keys_map (tryEmplace m' k v') fun _ => (),
    map_tryEmplace (fun _ => ()) m, map_tryEmplace (fun _ => ()) m', hunit]

theorem keys_erase (m : List (κ × α)) (k : κ) : keys (erase m k) = (keys m).filter (· ≠ k) := by
  rw [keys, keys, erase, List.filter_map]
  rfl

section Sorted

variable [LT κ] [DecidableLT κ] [Std.Asymm (α := κ) (· < ·)]

/-- A key behind all others. -/
theorem tryEmplace_last {m : List (κ × α)} {k : κ} (h : ∀ j ∈ keys m, j < k) (v : α) :
    tryEmplace m k v = m ++ [(k, v)] := by
  induction m with
  | nil => rfl
  | cons e m ih =>
      obtain ⟨j, x⟩ := e
      have hlt : j < k := h j List.mem_cons_self
      have hne : k ≠ j := by
        rintro rfl
        exact Std.Asymm.asymm _ _ hlt hlt
      rw [tryEmplace, if_neg hne, if_neg (Std.Asymm.asymm _ _ hlt),
        ih fun i hi => h i (List.mem_cons_of_mem _ hi)]
      rfl

/-- A key that is there. -/
theorem tryEmplace_of_mem {m : List (κ × α)} (hsorted : (keys m).Pairwise (· < ·)) {k : κ}
    (h : k ∈ keys m) (v : α) : tryEmplace m k v = m := by
  induction m with
  | nil => cases h
  | cons e m ih =>
      obtain ⟨j, x⟩ := e
      obtain ⟨hhead, htail⟩ := List.pairwise_cons.mp hsorted
      rw [tryEmplace]
      by_cases hk : k = j
      · rw [if_pos hk]
      · have hmem : k ∈ keys m := (List.mem_cons.mp h).resolve_left hk
        rw [if_neg hk, if_neg (Std.Asymm.asymm _ _ (hhead k hmem)), ih htail hmem]

end Sorted

end Maps

end Containers
