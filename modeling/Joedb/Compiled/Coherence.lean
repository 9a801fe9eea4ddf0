import Joedb.Compiled.Throwing
import Mathlib.Data.List.Pairwise

/-!
# Indexes in order

An index is a map, and a vector of iterators into it. They say the same: an entry
names a record that is in use, and the iterator of that record points to the entry;
an iterator that is not `end()` points to an entry of its record. Where an index is
unique, no two entries compare equal.

A failed insertion leaves the record without an entry, and the iterator at `end()`,
so nothing that throws breaks this. What it breaks is that the entries say what
the columns say.
-/

namespace Joedb.Compiled

open ByteFile Containers StateExcept

namespace Index

/-- The iterator of a record: `none` is `end()`. -/
def iterator (ix : Index) (recordId : Int) : Option Key :=
  ix.iterators.getD recordId.toNat none

/-- The map and the iterators of the records that are in use say the same. -/
structure Coherent (used : Int → Bool) (ix : Index) : Prop where
  inside : ∀ r, used r = true → 0 ≤ r ∧ r < ix.iterators.length
  entry : ∀ key (r : Int), (key, r) ∈ ix.entries → used r = true ∧ ix.iterator r = some key
  pointed : ∀ key (r : Int), used r = true → ix.iterator r = some key → (key, r) ∈ ix.entries
  nodup : ix.entries.Nodup
  distinct : ix.unique = true → ix.entries.Pairwise fun a b => ix.same b.1 a.1 = false

variable {used : Int → Bool} {ix : Index}

/-- In a map whose keys compare symmetrically, equal keys are one entry. -/
theorem Coherent.eq_of_same (h : ix.Coherent used) (hunique : ix.unique = true)
    (hsame : ∀ a b, ix.same a b = ix.same b a) {a b : Key × RecordId} (ha : a ∈ ix.entries)
    (hb : b ∈ ix.entries) (hab : ix.same a.1 b.1 = true) : a = b := by
  by_contra hne
  have : Std.Symm fun a b : Key × RecordId => ix.same b.1 a.1 = false :=
    ⟨fun a b h => (hsame a.1 b.1).trans h⟩
  have hfalse := (h.distinct hunique).forall ha hb hne
  rw [hsame, hab] at hfalse
  cases hfalse

theorem getD_set_iterator {its : List (Option Key)} {r x : Int} (hlo : 0 ≤ r)
    (hhi : r < its.length) (hx : 0 ≤ x) (v : Option Key) :
    (its.set r.toNat v).getD x.toNat none = if x = r then v else its.getD x.toNat none := by
  rw [List.getD_eq_getElem?_getD, List.getElem?_set]
  by_cases heq : x = r
  · subst heq
    rw [if_pos rfl, if_pos rfl, if_pos (by omega)]
    rfl
  · rw [if_neg (by omega), if_neg heq, List.getD_eq_getElem?_getD]

/-! ## Removing -/

theorem remove_spec (recordId : RecordId) (ix : Index) :
    (ix.remove recordId).fieldIds = ix.fieldIds ∧ (ix.remove recordId).unique = ix.unique ∧
      (ix.remove recordId).same = ix.same := by
  rw [remove]
  split
  · exact ⟨rfl, rfl, rfl⟩
  · exact ⟨rfl, rfl, rfl⟩

theorem Coherent.iterator_remove (h : ix.Coherent used) {r : Int} (hr : used r = true) {x : Int}
    (hx : 0 ≤ x) : (ix.remove r).iterator x = if x = r then none else ix.iterator x := by
  obtain ⟨hlo, hhi⟩ := h.inside r hr
  rw [remove]
  split
  · next heq =>
      split
      · next hxr => exact hxr ▸ heq
      · rfl
  · exact getD_set_iterator hlo hhi hx none

theorem Coherent.remove (h : ix.Coherent used) {r : Int} (hr : used r = true) :
    (ix.remove r).Coherent used := by
  have hiterator := fun x (hx : used x = true) =>
    h.iterator_remove hr (h.inside x hx).1
  obtain ⟨-, hunique, hsame⟩ := remove_spec r ix
  have hentries : ∀ key (x : Int), (key, x) ∈ (ix.remove r).entries ↔
      (key, x) ∈ ix.entries ∧ x ≠ r := by
    intro key x
    have hof : (key, x) ∈ ix.entries → x = r → ix.iterator r = some key :=
      fun hmem hxr => hxr ▸ (h.entry key x hmem).2
    rw [Index.remove]
    split
    · next heq =>
        refine ⟨fun hmem => ⟨hmem, fun hxr => ?_⟩, And.left⟩
        have := (hof hmem hxr).symm.trans heq
        cases this
    · next old heq =>
        rw [show ({ ix with entries := ix.entries.erase (old, r), iterators := _ } : Index).entries
          = ix.entries.erase (old, r) from rfl, h.nodup.mem_erase_iff]
        refine ⟨fun hmem => ⟨hmem.2, fun hxr => hmem.1 ?_⟩, fun hmem => ⟨fun heq' => ?_, hmem.1⟩⟩
        · have hkey := Option.some.inj ((hof hmem.2 hxr).symm.trans heq)
          rw [hkey, hxr]
        · exact hmem.2 (congrArg Prod.snd heq')
  have hsub : (ix.remove r).entries.Sublist ix.entries := by
    rw [Index.remove]
    split
    · exact List.Sublist.refl _
    · exact List.erase_sublist
  refine ⟨fun x hx => ?_, fun key x hmem => ?_, fun key x hx hit => ?_, h.nodup.sublist hsub, ?_⟩
  · rw [length_remove]
    exact h.inside x hx
  · obtain ⟨hmem', hne⟩ := (hentries key x).mp hmem
    obtain ⟨hused, hit⟩ := h.entry key x hmem'
    rw [hiterator x hused, if_neg hne]
    exact ⟨hused, hit⟩
  · rw [hiterator x hx] at hit
    by_cases hxr : x = r
    · rw [if_pos hxr] at hit
      cases hit
    · rw [if_neg hxr] at hit
      exact (hentries key x).mpr ⟨h.pointed key x hx hit, hxr⟩
  · intro hu
    rw [hsame]
    exact (h.distinct (hunique ▸ hu)).sublist hsub

/-! ## Adding -/

theorem keyOf_congr {columns columns' : List (FieldId × Column)} {ix ix' : Index} {r : RecordId}
    (hfields : ix'.fieldIds = ix.fieldIds) (hsame : ∀ f ∈ ix.fieldIds,
      (find columns' f).map (·.get r) = (find columns f).map (·.get r)) :
    ix'.keyOf columns' r = ix.keyOf columns r := by
  rw [keyOf, keyOf, hfields]
  exact List.filterMap_congr hsame

theorem add_cases (columns : List (FieldId × Column)) (recordId : RecordId) (ix : Index) :
    (∃ e, ix.unique = true ∧ ix.add columns recordId = (ix, some e)) ∨
      ((ix.unique = true → ∀ e ∈ ix.entries, ix.same (ix.keyOf columns recordId) e.1 = false) ∧
        ix.add columns recordId = ({ ix with
          entries := ix.entries ++ [(ix.keyOf columns recordId, recordId)]
          iterators := ix.iterators.set recordId.toNat (some (ix.keyOf columns recordId)) },
          none)) := by
  rw [add]
  split
  · next old heq =>
      refine .inl ⟨_, ?_, rfl⟩
      by_contra hunique
      rw [if_neg hunique] at heq
      cases heq
  · next heq =>
      refine .inr ⟨fun hunique e he => ?_, rfl⟩
      rw [if_pos hunique, List.find?_eq_none] at heq
      exact Bool.of_not_eq_true (heq e he)

/-- A record without an entry gets one, or the index throws and is what it was. -/
theorem Coherent.add (h : ix.Coherent used) {r : Int} (hr : used r = true)
    (hnone : ix.iterator r = none) (columns : List (FieldId × Column)) :
    (ix.add columns r).1.Coherent used ∧
      (ix.add columns r).1.fieldIds = ix.fieldIds ∧ (ix.add columns r).1.unique = ix.unique ∧
      (∀ x, 0 ≤ x → x ≠ r → (ix.add columns r).1.iterator x = ix.iterator x) ∧
      ((ix.add columns r).2 = none →
        (ix.add columns r).1.iterator r = some (ix.keyOf columns r)) := by
  obtain ⟨hlo, hhi⟩ := h.inside r hr
  obtain ⟨e, -, hadd⟩ | ⟨hnew, hadd⟩ := add_cases columns r ix
  · rw [hadd]
    exact ⟨h, rfl, rfl, fun _ _ _ => rfl, fun h => (by cases h)⟩
  · have hiterator : ∀ x : Int, 0 ≤ x → (ix.add columns r).1.iterator x
        = if x = r then some (ix.keyOf columns r) else ix.iterator x := by
      intro x hx
      rw [hadd]
      exact getD_set_iterator hlo hhi hx _
    have hentries : ∀ key (x : Int), (key, x) ∈ (ix.add columns r).1.entries ↔
        (key, x) ∈ ix.entries ∨ (key = ix.keyOf columns r ∧ x = r) := by
      intro key x
      rw [hadd, List.mem_append, List.mem_singleton, Prod.mk.injEq]
    have hfresh : ∀ key, (key, r) ∉ ix.entries := by
      intro key hmem
      have := (h.entry key r hmem).2.symm.trans hnone
      cases this
    refine ⟨⟨fun x hx => ?_, fun key x hmem => ?_, fun key x hx hit => ?_, ?_, ?_⟩,
      by rw [hadd], by rw [hadd], fun x hx hne => ?_, fun _ => ?_⟩
    · rw [length_add]
      exact h.inside x hx
    · obtain hmem' | ⟨rfl, rfl⟩ := (hentries key x).mp hmem
      · obtain ⟨hused, hit⟩ := h.entry key x hmem'
        have hne : x ≠ r := fun hxr => hfresh key (hxr ▸ hmem')
        rw [hiterator x (h.inside x hused).1, if_neg hne]
        exact ⟨hused, hit⟩
      · rw [hiterator x hlo, if_pos rfl]
        exact ⟨hr, rfl⟩
    · rw [hiterator x (h.inside x hx).1] at hit
      by_cases hxr : x = r
      · rw [if_pos hxr] at hit
        exact (hentries key x).mpr (.inr ⟨(Option.some.inj hit).symm, hxr⟩)
      · rw [if_neg hxr] at hit
        exact (hentries key x).mpr (.inl (h.pointed key x hx hit))
    · rw [hadd, List.nodup_append]
      refine ⟨h.nodup, List.nodup_singleton _, fun a ha b hb hab => ?_⟩
      obtain rfl := List.mem_singleton.mp hb
      exact hfresh _ (hab ▸ ha)
    · rw [hadd]
      intro hunique
      rw [List.pairwise_append]
      refine ⟨h.distinct hunique, List.pairwise_singleton _ _, fun a ha b hb => ?_⟩
      obtain rfl := List.mem_singleton.mp hb
      exact hnew hunique a ha
    · rw [hiterator x hx, if_neg hne]
    · rw [hiterator r hlo, if_pos rfl]

/-! ## Vectors of records -/

theorem Coherent.removeAll (h : ix.Coherent used) {r : Int} {n : Nat}
    (hrange : ∀ x, r ≤ x → x < r + n → used x = true) :
    (ix.removeAll r n).Coherent used ∧ (ix.removeAll r n).fieldIds = ix.fieldIds ∧
      (ix.removeAll r n).unique = ix.unique ∧
      ∀ x, 0 ≤ x → (ix.removeAll r n).iterator x
        = if r ≤ x ∧ x < r + n then none else ix.iterator x := by
  induction n generalizing r ix with
  | zero =>
      refine ⟨h, rfl, rfl, fun x hx => ?_⟩
      rw [if_neg (by omega)]
      rfl
  | succ n ih =>
      have hr : used r = true := hrange r (Int.le_refl r) (by omega)
      obtain ⟨hfields, hunique, -⟩ := remove_spec r ix
      obtain ⟨hc, hfields', hunique', hit⟩ := ih (h.remove hr) (r := r + 1)
        fun x hlo hhi => hrange x (by omega) (by omega)
      refine ⟨hc, hfields'.trans hfields, hunique'.trans hunique, fun x hx => ?_⟩
      rw [Index.removeAll, hit x hx, h.iterator_remove hr hx]
      by_cases hin : r + 1 ≤ x ∧ x < r + 1 + n
      · rw [if_pos hin, if_pos (by omega)]
      · rw [if_neg hin]
        by_cases hxr : x = r
        · rw [if_pos hxr, if_pos (by omega)]
        · rw [if_neg hxr, if_neg (by omega)]

theorem Coherent.addAll (h : ix.Coherent used) {r : Int} {n : Nat}
    (hrange : ∀ x, r ≤ x → x < r + n → used x = true ∧ ix.iterator x = none)
    (columns : List (FieldId × Column)) :
    (ix.addAll columns r n).1.Coherent used ∧
      (ix.addAll columns r n).1.fieldIds = ix.fieldIds ∧
      (ix.addAll columns r n).1.unique = ix.unique ∧
      ((ix.addAll columns r n).2 = none → ∀ x, 0 ≤ x → (ix.addAll columns r n).1.iterator x
        = if r ≤ x ∧ x < r + n then some (ix.keyOf columns x) else ix.iterator x) := by
  induction n generalizing r ix with
  | zero =>
      refine ⟨h, rfl, rfl, fun _ x hx => ?_⟩
      rw [if_neg (by omega)]
      rfl
  | succ n ih =>
      obtain ⟨hr, hnone⟩ := hrange r (Int.le_refl r) (by omega)
      obtain ⟨hc, hfields, hunique, hother, hself⟩ := h.add hr hnone columns
      rw [Index.addAll]
      cases hadd : ix.add columns r with
      | mk ix₁ thrown =>
          rw [hadd] at hc hfields hunique hother hself
          cases thrown with
          | some e => exact ⟨hc, hfields, hunique, fun h => (by cases h)⟩
          | none =>
              obtain ⟨hc', hfields', hunique', hit⟩ := ih hc (r := r + 1) fun x hlo hhi => by
                obtain ⟨hx, hxnone⟩ := hrange x (by omega) (by omega)
                exact ⟨hx, (hother x (h.inside x hx).1 (by omega)).trans hxnone⟩
              refine ⟨hc', hfields'.trans hfields, hunique'.trans hunique, fun hok x hx => ?_⟩
              rw [hit hok x hx]
              by_cases hin : r + 1 ≤ x ∧ x < r + 1 + n
              · rw [if_pos hin, if_pos (by omega)]
                exact congrArg some (keyOf_congr hfields fun _ _ => rfl)
              · rw [if_neg hin]
                by_cases hxr : x = r
                · rw [if_pos (by omega), hxr]
                  exact hself rfl
                · rw [if_neg (by omega)]
                  exact hother x hx hxr

/-! ## Records that come and go -/

theorem Coherent.resize (h : ix.Coherent used) {n : Nat} (hn : ix.iterators.length ≤ n) :
    (ix.resize n).Coherent used ∧ ∀ x, (ix.resize n).iterator x = ix.iterator x := by
  have hit : ∀ x, (ix.resize n).iterator x = ix.iterator x :=
    fun x => getD_resize hn _ _
  refine ⟨⟨fun x hx => ?_, fun key x hmem => ?_, fun key x hx hkey => ?_, h.nodup, h.distinct⟩,
    hit⟩
  · obtain ⟨hlo, hhi⟩ := h.inside x hx
    refine ⟨hlo, ?_⟩
    show x < ((Containers.resize ix.iterators n none).length : Int)
    rw [length_resize]
    omega
  · rw [hit]
    exact h.entry key x hmem
  · rw [hit] at hkey
    exact h.pointed key x hx hkey

/-- Records that were free come into use, without entries. -/
theorem Coherent.fill (h : ix.Coherent used) {r : Int} {n : Nat} (hlo : 0 ≤ r)
    (hhi : r + n ≤ ix.iterators.length) (hfree : ∀ x, r ≤ x → x < r + n → used x = false)
    {used' : Int → Bool} (hused : ∀ x, used' x = (used x || Records.range r n x)) :
    (ix.fill r n).Coherent used' ∧ ∀ x, 0 ≤ x →
      (ix.fill r n).iterator x = if r ≤ x ∧ x < r + n then none else ix.iterator x := by
  have hit : ∀ x, 0 ≤ x →
      (ix.fill r n).iterator x = if r ≤ x ∧ x < r + n then none else ix.iterator x := by
    intro x hx
    show (copyN ix.iterators r.toNat (List.replicate n none)).getD x.toNat none = _
    rw [List.getD_eq_getElem?_getD, getElem?_copyN, List.length_replicate]
    by_cases hin : r ≤ x ∧ x < r + n
    · rw [if_pos (by omega), if_pos hin, List.getElem?_replicate]
      split
      · rfl
      · rfl
    · rw [if_neg (by omega), if_neg hin, ← List.getD_eq_getElem?_getD]
      rfl
  have hcases : ∀ x, used' x = true → used x = true ∨ (r ≤ x ∧ x < r + n) := by
    intro x hx
    rw [hused, Bool.or_eq_true, Records.range, decide_eq_true_iff] at hx
    exact hx
  have hbefore : ∀ x, used x = true → ¬ (r ≤ x ∧ x < r + n) := by
    intro x hx hin
    have := hx.symm.trans (hfree x hin.1 hin.2)
    cases this
  refine ⟨⟨fun x hx => ?_, fun key x hmem => ?_, fun key x hx hkey => ?_, h.nodup, h.distinct⟩,
    hit⟩
  · rw [show (ix.fill r n).iterators.length = ix.iterators.length from length_copyN _ _ _]
    obtain hx | hx := hcases x hx
    · exact h.inside x hx
    · omega
  · obtain ⟨hx, hkey⟩ := h.entry key x hmem
    rw [hit x (h.inside x hx).1, if_neg (hbefore x hx), hused, hx]
    exact ⟨rfl, hkey⟩
  · obtain hx | hx := hcases x hx
    · rw [hit x (h.inside x hx).1, if_neg (hbefore x hx)] at hkey
      exact h.pointed key x hx hkey
    · rw [hit x (by omega), if_pos hx] at hkey
      cases hkey

/-- A record goes, after its entry. -/
theorem Coherent.less (h : ix.Coherent used) {r : Int} (hnone : ix.iterator r = none)
    {used' : Int → Bool} (hused : ∀ x, used' x = true ↔ used x = true ∧ x ≠ r) :
    ix.Coherent used' := by
  refine ⟨fun x hx => h.inside x ((hused x).mp hx).1, fun key x hmem => ?_, fun key x hx hkey =>
    h.pointed key x ((hused x).mp hx).1 hkey, h.nodup, h.distinct⟩
  obtain ⟨hx, hkey⟩ := h.entry key x hmem
  refine ⟨(hused x).mpr ⟨hx, fun hxr => ?_⟩, hkey⟩
  have := (hxr ▸ hkey).symm.trans hnone
  cases this

/-! ## Triggers -/

/-- What happens to an index that is triggered, whether or not it throws. -/
theorem trigger_forall {P Q : Index → Prop} {fieldId : FieldId}
    {g : Index → Index × Option Exn} (hkeep : ∀ ix, P ix → Q ix) (hg : ∀ ix, P ix → Q (g ix).1)
    {ixs : List Index} (h : ∀ ix ∈ ixs, P ix) : ∀ ix ∈ (trigger fieldId g ixs).1, Q ix := by
  induction ixs with
  | nil => exact fun _ hix => (by cases hix)
  | cons ix ixs ih =>
      obtain ⟨hix, hixs⟩ := List.forall_mem_cons.mp h
      have hgix := hg ix hix
      rw [trigger]
      split
      · split
        · next ix' heq =>
            rw [heq] at hgix
            exact List.forall_mem_cons.mpr ⟨hgix, ih hixs⟩
        · next ix' e heq =>
            rw [heq] at hgix
            exact List.forall_mem_cons.mpr ⟨hgix, fun ix hmem => hkeep ix (hixs ix hmem)⟩
      · exact List.forall_mem_cons.mpr ⟨hkeep ix hix, ih hixs⟩

/-- If none throws, all of them are updated. -/
theorem trigger_eq_none {fieldId : FieldId} {g : Index → Index × Option Exn} {ixs : List Index}
    (h : (trigger fieldId g ixs).2 = none) :
    (trigger fieldId g ixs).1 = (ixs.map fun ix => if ix.isTrigger fieldId then (g ix).1 else ix) ∧
      ∀ ix ∈ ixs, ix.isTrigger fieldId = true → (g ix).2 = none := by
  induction ixs with
  | nil => exact ⟨rfl, fun _ hix => (by cases hix)⟩
  | cons ix ixs ih =>
      rw [trigger] at h ⊢
      rw [List.map_cons, List.forall_mem_cons]
      by_cases htrigger : ix.isTrigger fieldId = true
      · rw [if_pos htrigger] at h
        rw [if_pos htrigger, if_pos htrigger]
        cases hgix : g ix with
        | mk ix' thrown =>
            rw [hgix] at h
            cases thrown with
            | some e => cases h
            | none =>
                obtain ⟨hmap, hall⟩ := ih h
                exact ⟨congrArg (ix' :: ·) hmap, fun _ => rfl, hall⟩
      · rw [if_neg htrigger] at h
        rw [if_neg htrigger, if_neg htrigger]
        obtain ⟨hmap, hall⟩ := ih h
        exact ⟨congrArg (ix :: ·) hmap, fun h => absurd h htrigger, hall⟩

end Index

/-! ## Tables -/

namespace Storage

variable {st st' : Storage}

/-- The table is in order, and all of its indexes are. -/
structure InOrder (st : Storage) : Prop where
  sound : st.Sound
  coherent : ∀ ix ∈ st.indexes, ix.Coherent st.freedom.isUsed

theorem InOrder.write (h : st.InOrder) (ty : Ty) (fieldId : FieldId) (recordId : Nat)
    (values : List ty.Storage) : (st.write ty fieldId recordId values).InOrder :=
  ⟨h.sound.write ty fieldId recordId values, h.coherent⟩

theorem InOrder.resize (h : st.InOrder) {n : Nat} (hn : st.freedom.getSize ≤ n)
    (hn' : n < 2 ^ 63) : (st.resize n).InOrder := by
  have hused : (st.resize n).freedom.isUsed = st.freedom.isUsed := funext (isUsed_resize st n)
  refine ⟨h.sound.resize hn hn', fun ix' hix' => ?_⟩
  obtain ⟨ix, hix, rfl⟩ := List.mem_map.mp hix'
  rw [hused]
  exact ((h.coherent ix hix).resize (h.sound.iterators ix hix ▸ hn)).1

theorem InOrder.internalInsert (h : st.InOrder) {recordId : Int}
    (hin : 0 ≤ recordId ∧ recordId < st.freedom.getSize)
    (hfree : st.freedom.isUsed recordId = false) : (internalInsert recordId st).InOrder := by
  refine ⟨h.sound.internalInsert hin hfree, fun ix' hix' => ?_⟩
  obtain ⟨ix, hix, rfl⟩ := List.mem_map.mp hix'
  have hlength := h.sound.iterators ix hix
  refine ((h.coherent ix hix).fill hin.1 (by omega) (fun x hlo hhi => ?_)
    (congrFun (congrArg Records.used (FreedomKeeper.records_use st.freedom hin.1 hin.2)))).1
  rw [show x = recordId by omega]
  exact hfree

theorem InOrder.internalVectorInsert (h : st.InOrder) {recordId : Int} {size : Nat}
    (hin : recordId + size ≤ st.freedom.getSize) :
    (after (internalVectorInsert recordId size) st).InOrder := by
  cases hrun : Storage.internalVectorInsert recordId size st with
  | error e st' =>
      rw [after_error hrun, internalVectorInsert_error hrun]
      exact h
  | ok u st' =>
      rw [after_ok hrun]
      refine ⟨h.sound.internalVectorInsert hin hrun, ?_⟩
      rw [Storage.internalVectorInsert, get_bind_run] at hrun
      obtain ⟨hfree, hrun⟩ := guard_bind_eq_ok.mp hrun
      obtain rfl := (EStateM.Result.ok.inj hrun).2
      obtain ⟨hlo, hunused⟩ := FreedomKeeper.isFreeVector_sound (Bool.of_not_eq_false hfree)
      intro ix' hix'
      obtain ⟨ix, hix, rfl⟩ := List.mem_map.mp hix'
      have hlength := h.sound.iterators ix hix
      exact ((h.coherent ix hix).fill hlo (by omega) hunused (congrFun
        (congrArg Records.used (FreedomKeeper.records_useVector st.freedom hlo hin)))).1

theorem InOrder.internalDelete (h : st.InOrder) (recordId : RecordId) :
    (after (internalDelete recordId) st).InOrder := by
  cases hused : st.freedom.isUsed recordId with
  | false =>
      obtain ⟨e, hrun⟩ := internalDelete_of_not_used hused
      rw [after_error hrun]
      exact h
  | true =>
      have hrun : ∃ st', Storage.internalDelete recordId st = .ok () st' ∧
          st'.indexes = st.indexes.map (·.remove recordId) := by
        rw [Storage.internalDelete, get_bind_run, when_neg (by rw [hused]; decide)]
        exact ⟨_, rfl, rfl⟩
      obtain ⟨st', hrun, hindexes⟩ := hrun
      obtain ⟨st₁, hrun₁, hless⟩ := internalDelete_of_used hused
      obtain rfl := (EStateM.Result.ok.inj (hrun.symm.trans hrun₁)).2
      rw [after_ok hrun]
      refine ⟨h.sound.internalDelete hrun, fun ix' hix' => ?_⟩
      rw [hindexes] at hix'
      obtain ⟨ix, hix, rfl⟩ := List.mem_map.mp hix'
      have hix := h.coherent ix hix
      refine (hix.remove hused).less ?_ hless
      rw [hix.iterator_remove hused (hix.inside _ hused).1, if_pos rfl]

theorem InOrder.insertRecord (h : st.InOrder) {nameSpace : String} {recordId : Int}
    (hlo : 0 ≤ recordId) : (after (Database.insertRecord nameSpace recordId) st).InOrder := by
  obtain ⟨r, rfl⟩ := Int.eq_ofNat_of_zero_le hlo
  cases hrun : Database.insertRecord nameSpace r st with
  | error e st' =>
      rw [after_error hrun, insertRecord_error hrun]
      exact h
  | ok u st' =>
      obtain ⟨hfree, hsmall, rfl⟩ := insertRecord_eq_ok hrun
      rw [after_ok hrun]
      by_cases hgrow : st.freedom.getSize ≤ r
      · rw [if_pos hgrow]
        refine (h.resize (Nat.le_succ_of_le hgrow) hsmall).internalInsert ⟨hlo, ?_⟩ ?_
        · rw [getSize_resize]
          omega
        · rw [isUsed_resize]
          exact hfree
      · rw [if_neg hgrow]
        exact h.internalInsert ⟨hlo, by omega⟩ hfree

theorem InOrder.insertRecords (h : st.InOrder) {recordId : Int} {size : Nat} :
    (after (Database.insertRecords recordId size) st).InOrder := by
  obtain ⟨hfits, -⟩ | ⟨e, hthrown⟩ := checkEnd_cases recordId size st
  · rw [after, insertRecords_eq hfits]
    by_cases hgrow : (st.freedom.getSize : Int) < recordId + size
    · rw [if_pos hgrow]
      refine (h.resize (by omega) (by omega)).internalVectorInsert ?_
      rw [getSize_resize]
      omega
    · rw [if_neg hgrow]
      exact h.internalVectorInsert (Int.not_lt.mp hgrow)
  · rw [after_error (show Database.insertRecords recordId size st = .error e st from
      bind_error hthrown)]
    exact h

theorem after_triggerIndexes (fieldId : FieldId)
    (g : List (FieldId × Column) → Index → Index × Option Exn) (st : Storage) :
    after (triggerIndexes fieldId g) st
      = { st with indexes := (Index.trigger fieldId (g st.columns) st.indexes).1 } := by
  rw [after, triggerIndexes, get_bind_run]
  cases (Index.trigger fieldId (g st.columns) st.indexes).2 with
  | none => rfl
  | some e => rfl

/-- An update of records that are in use, of one or of many. -/
theorem InOrder.reindex (h : st.InOrder) {fieldId : FieldId} {recordId : Int} {size : Nat}
    (hused : ∀ x, recordId ≤ x → x < recordId + size → st.freedom.isUsed x = true) :
    (after (triggerIndexes fieldId fun columns ix =>
      (ix.removeAll recordId size).addAll columns recordId size) st).InOrder := by
  rw [after_triggerIndexes]
  refine ⟨⟨h.sound.orders, h.sound.small, h.sound.columns, Index.length_trigger (fun ix => ?_)
    h.sound.iterators⟩, Index.trigger_forall (fun _ h => h) (fun ix hix => ?_) h.coherent⟩
  · rw [Index.length_addAll, Index.length_removeAll]
  · obtain ⟨hremoved, -, -, hit⟩ := hix.removeAll hused
    refine (hremoved.addAll (fun x hlo hhi => ⟨hused x hlo hhi, ?_⟩) _).1
    rw [hit x (hix.inside x (hused x hlo hhi)).1, if_pos ⟨hlo, hhi⟩]

/-- An update of one record is one of a vector. -/
theorem add_remove_eq (columns : List (FieldId × Column)) (recordId : RecordId) (ix : Index) :
    (ix.remove recordId).add columns recordId
      = (ix.removeAll recordId 1).addAll columns recordId 1 := by
  rw [Index.removeAll, Index.removeAll, Index.addAll]
  cases hadd : (ix.remove recordId).add columns recordId with
  | mk ix' thrown =>
      cases thrown with
      | none => rfl
      | some e => rfl

theorem internalUpdate_inOrder (ty : Ty) (recordId : RecordId) (fieldId : FieldId)
    (value : ty.Arg) :
    Keeps (fun st st' => st.InOrder → st'.InOrder)
      (internalUpdate ty recordId fieldId value) := by
  intro st h
  rw [after, internalUpdate, get_bind_run]
  by_cases hfree : st.freedom.isUsed recordId = false
  · rw [when_pos hfree]
    exact h
  · rw [when_neg hfree, pure_bind_run, modify_bind_run]
    simp only [add_remove_eq]
    refine (h.write ty fieldId recordId.toNat [value.val]).reindex fun x hlo hhi => ?_
    rw [show x = recordId from Int.le_antisymm (Int.lt_add_one_iff.mp hhi) hlo]
    exact Bool.of_not_eq_false hfree

theorem internalUpdateVector_inOrder (ty : Ty) (recordId : RecordId) (fieldId : FieldId)
    (values : List ty.Storage) :
    Keeps (fun st st' => st.InOrder → st'.InOrder)
      (internalUpdateVector ty recordId fieldId values) := by
  intro st h
  rw [after, internalUpdateVector, get_bind_run]
  by_cases hfree : st.freedom.isUsedVector recordId values.length = false
  · rw [when_pos hfree]
    exact h
  · rw [when_neg hfree, pure_bind_run, modify_bind_run]
    exact (h.write ty fieldId recordId.toNat values).reindex
      (FreedomKeeper.isUsedVector_sound (Bool.of_not_eq_false hfree)).2.2

end Storage

end Joedb.Compiled
