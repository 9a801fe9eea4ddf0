import Mathlib.Data.List.Basic
import Joedb.Lib.Containers

/-!
# Maps under new keys

The entries of a map under the ids 1, 2 and so on, in their order, without gaps. What is found
or written under an old key is found or written under the new one, as long as there are not
more entries than ids, and the next entry comes behind the others.
-/

namespace Containers

variable {α : Type}

/-- The entries under the ids from `n + 1` on. -/
def renumberFrom (n : Nat) : List (UInt16 × α) → List (UInt16 × α)
  | [] => []
  | e :: m => (UInt16.ofNat (n + 1), e.2) :: renumberFrom (n + 1) m

def renumbered (m : List (UInt16 × α)) : List (UInt16 × α) := renumberFrom 0 m

/-- The new key of an old one, and 0 for what is not there. -/
def newId (ks : List UInt16) (id : UInt16) : UInt16 :=
  if id ∈ ks then UInt16.ofNat (ks.idxOf id + 1) else 0

theorem newId_of_mem {ks : List UInt16} {id : UInt16} (h : id ∈ ks) :
    newId ks id = UInt16.ofNat (ks.idxOf id + 1) := if_pos h

theorem ofNat_inj {a b : Nat} (ha : a < 65536) (hb : b < 65536)
    (h : UInt16.ofNat a = UInt16.ofNat b) : a = b := by
  have hnat := congrArg UInt16.toNat h
  rwa [UInt16.toNat_ofNat_of_lt' ha, UInt16.toNat_ofNat_of_lt' hb] at hnat

/-- Different keys become different keys. -/
theorem newId_inj {ks : List UInt16} (hlen : ks.length < 65536) {id id' : UInt16} (hid : id ∈ ks)
    (hid' : id' ∈ ks) (h : newId ks id = newId ks id') : id = id' := by
  rw [newId_of_mem hid, newId_of_mem hid'] at h
  have hlt := List.idxOf_lt_length_of_mem hid
  have hlt' := List.idxOf_lt_length_of_mem hid'
  have hidx := ofNat_inj (by omega) (by omega) h
  exact (List.idxOf_inj hid).mp (by omega)

/-! ## All of it -/

theorem map_snd_renumbered (m : List (UInt16 × α)) : (renumbered m).map (·.2) = m.map (·.2) := by
  have hfrom : ∀ (n : Nat) (m : List (UInt16 × α)),
      (renumberFrom n m).map (·.2) = m.map (·.2) := by
    intro n m
    induction m generalizing n with
    | nil => rfl
    | cons e m ih => rw [renumberFrom, List.map_cons, ih, List.map_cons]
  exact hfrom 0 m

theorem map_renumbered {β : Type} (g : α → β) (m : List (UInt16 × α)) :
    (renumbered m).map (fun e => (e.1, g e.2)) = renumbered (m.map fun e => (e.1, g e.2)) := by
  have hfrom : ∀ (n : Nat) (m : List (UInt16 × α)),
      (renumberFrom n m).map (fun e => (e.1, g e.2))
        = renumberFrom n (m.map fun e => (e.1, g e.2)) := by
    intro n m
    induction m generalizing n with
    | nil => rfl
    | cons e m ih => rw [renumberFrom, List.map_cons, ih, List.map_cons, renumberFrom]
  exact hfrom 0 m

theorem renumbered_concat (m : List (UInt16 × α)) (e : UInt16 × α) :
    renumbered (m ++ [e]) = renumbered m ++ [(UInt16.ofNat (m.length + 1), e.2)] := by
  have hfrom : ∀ (n : Nat) (m : List (UInt16 × α)), renumberFrom n (m ++ [e])
      = renumberFrom n m ++ [(UInt16.ofNat (n + m.length + 1), e.2)] := by
    intro n m
    induction m generalizing n with
    | nil => rfl
    | cons d m ih =>
        rw [List.cons_append, renumberFrom, ih, renumberFrom, List.cons_append, List.length_cons,
          show n + 1 + m.length + 1 = n + (m.length + 1) + 1 by omega]
  rw [renumbered, hfrom, Nat.zero_add]
  rfl

/-! ## One entry -/

/-- The first new key is not among those of the others. -/
theorem ofNat_ne_next {n : Nat} {m : List (UInt16 × α)} (hlen : n + m.length + 1 < 65536)
    {k : UInt16} (hk : k ∈ keys m) :
    UInt16.ofNat (n + 1 + (keys m).idxOf k + 1) ≠ UInt16.ofNat (n + 1) := by
  intro heq
  have hlt := List.idxOf_lt_length_of_mem hk
  have hkeys : (keys m).length = m.length := List.length_map _
  have := ofNat_inj (by omega) (by omega) heq
  omega

theorem find_renumbered {m : List (UInt16 × α)} (hlen : m.length < 65536) {k : UInt16}
    (hk : k ∈ keys m) : find (renumbered m) (newId (keys m) k) = find m k := by
  have hfrom : ∀ (n : Nat) (m : List (UInt16 × α)), n + m.length < 65536 → k ∈ keys m →
      find (renumberFrom n m) (UInt16.ofNat (n + (keys m).idxOf k + 1)) = find m k := by
    intro n m
    induction m generalizing n with
    | nil => exact fun _ hk => absurd hk List.not_mem_nil
    | cons e m ih =>
        intro hlen hk
        rw [List.length_cons] at hlen
        have hkeys : keys (e :: m) = e.1 :: keys m := rfl
        rw [hkeys] at hk ⊢
        rw [renumberFrom, find, find]
        by_cases heq : k = e.1
        · rw [← heq, List.idxOf_cons_self, if_pos rfl, if_pos rfl]
        · have hmem : k ∈ keys m := (List.mem_cons.mp hk).resolve_left heq
          rw [List.idxOf_cons_ne _ (Ne.symm heq), Nat.succ_eq_add_one, if_neg heq,
            show n + ((keys m).idxOf k + 1) + 1 = n + 1 + (keys m).idxOf k + 1 by omega,
            if_neg (ofNat_ne_next (by omega) hmem)]
          exact ih (n + 1) (by omega) hmem
  rw [newId_of_mem hk, ← hfrom 0 m (by omega) hk, Nat.zero_add]
  rfl

theorem assign_renumbered {m : List (UInt16 × α)} (hlen : m.length < 65536) {k : UInt16}
    (hk : k ∈ keys m) (v : α) :
    assign (renumbered m) (newId (keys m) k) v = renumbered (assign m k v) := by
  have hfrom : ∀ (n : Nat) (m : List (UInt16 × α)), n + m.length < 65536 → k ∈ keys m →
      assign (renumberFrom n m) (UInt16.ofNat (n + (keys m).idxOf k + 1)) v
        = renumberFrom n (assign m k v) := by
    intro n m
    induction m generalizing n with
    | nil => exact fun _ hk => absurd hk List.not_mem_nil
    | cons e m ih =>
        intro hlen hk
        rw [List.length_cons] at hlen
        have hkeys : keys (e :: m) = e.1 :: keys m := rfl
        rw [hkeys] at hk ⊢
        rw [renumberFrom, assign, assign]
        by_cases heq : k = e.1
        · rw [← heq, List.idxOf_cons_self, if_pos rfl, if_pos rfl]
          rfl
        · have hmem : k ∈ keys m := (List.mem_cons.mp hk).resolve_left heq
          rw [List.idxOf_cons_ne _ (Ne.symm heq), Nat.succ_eq_add_one, if_neg heq,
            show n + ((keys m).idxOf k + 1) + 1 = n + 1 + (keys m).idxOf k + 1 by omega,
            if_neg (ofNat_ne_next (by omega) hmem), ih (n + 1) (by omega) hmem]
          rfl
  rw [newId_of_mem hk, renumbered, renumbered, ← hfrom 0 m (by omega) hk, Nat.zero_add]

theorem lt_next_renumbered {m : List (UInt16 × α)} (hlen : m.length < 65535) {k : UInt16}
    (hk : k ∈ keys (renumbered m)) : k < UInt16.ofNat (m.length + 1) := by
  have hfrom : ∀ (n : Nat) (m : List (UInt16 × α)), k ∈ keys (renumberFrom n m) →
      ∃ i < m.length, k = UInt16.ofNat (n + i + 1) := by
    intro n m
    induction m generalizing n with
    | nil => exact fun h => absurd h List.not_mem_nil
    | cons e m ih =>
        intro hk
        rcases List.mem_cons.mp hk with hk | hk
        · exact ⟨0, Nat.succ_pos _, hk⟩
        · obtain ⟨i, hi, heq⟩ := ih (n + 1) hk
          refine ⟨i + 1, by rw [List.length_cons]; omega, ?_⟩
          rw [heq, show n + 1 + i + 1 = n + (i + 1) + 1 by omega]
  obtain ⟨i, hi, rfl⟩ := hfrom 0 m hk
  rw [UInt16.lt_iff_toNat_lt, UInt16.toNat_ofNat_of_lt' (show 0 + i + 1 < 65536 by omega),
    UInt16.toNat_ofNat_of_lt' (show m.length + 1 < 65536 by omega)]
  omega

/-- The next entry, whatever its old key. -/
theorem tryEmplace_renumbered {m : List (UInt16 × α)} (hlen : m.length < 65535) (k : UInt16)
    (v : α) :
    tryEmplace (renumbered m) (UInt16.ofNat (m.length + 1)) v = renumbered (m ++ [(k, v)]) := by
  rw [tryEmplace_last (fun j hj => lt_next_renumbered hlen hj), renumbered_concat]

end Containers
