import Joedb.Lib.Bytes
import Joedb.Lib.StateExcept

/-!
# Readers that stand somewhere in a byte string

A decoder is judged by what it consumes. A `Cursor` says when a state stands at
a position of its input, whatever buffers lie between, and `Reads m bs a` says
that from any state standing in front of `bs` the computation `m` returns `a`
and stands right after them. Encodings compose by concatenation exactly as
their decoders compose by `bind`.

A decoder is often one part of a larger machine that acts on what it reads.
`Runs` follows such a machine: from machine state `t` in front of `bs` it ends
as `r` says, whatever the cursor's own state is. Steps that do not touch the
cursor are `Silent` and run as they would alone.
-/

namespace ByteFile

open StateExcept

/-- States over an input, with a position in it and a frame that reading
keeps. -/
structure Cursor (σ : Type) where
  At : σ → Nat → Prop
  input : σ → Bytes
  frame : σ → σ → Prop
  frame_refl : ∀ s, frame s s
  frame_trans : ∀ a b c, frame a b → frame b c → frame a c
  frame_input : ∀ a b, frame a b → input b = input a

variable {ε σ α β : Type}

/-- In front of `bs`, `m` returns `a` and leaves the cursor behind `bs`. -/
def Reads (C : Cursor σ) (m : EStateM ε σ α) (bs : Bytes) (a : α) : Prop :=
  ∀ s p, C.At s p → bs <+: (C.input s).drop p →
    ∃ s', m s = .ok a s' ∧ C.At s' (p + bs.length) ∧ C.frame s s'

section Rules

variable {C : Cursor σ}

theorem reads_pure (a : α) : Reads C (pure a : EStateM ε σ α) [] a := by
  intro s p hat _
  exact ⟨s, rfl, by simpa using hat, C.frame_refl s⟩

theorem Reads.bind {m : EStateM ε σ α} {f : α → EStateM ε σ β} {u v : Bytes}
    {a : α} {b : β} (hm : Reads C m u a) (hf : Reads C (f a) v b) :
    Reads C (m >>= f) (u ++ v) b := by
  intro s p hat hpre
  obtain ⟨hu, hv⟩ := prefix_drop_append.mp hpre
  obtain ⟨s₁, h₁, hat₁, hfr₁⟩ := hm s p hat hu
  obtain ⟨s₂, h₂, hat₂, hfr₂⟩ := hf s₁ _ hat₁ (by
    rw [C.frame_input _ _ hfr₁]; exact hv)
  refine ⟨s₂, (bind_ok h₁).trans h₂, ?_, C.frame_trans _ _ _ hfr₁ hfr₂⟩
  rwa [List.length_append, ← Nat.add_assoc]

/-- The last step of a decoder: what it read, wrapped. -/
theorem Reads.map {m : EStateM ε σ α} {f : α → EStateM ε σ β} {u : Bytes}
    {a : α} {b : β} (hm : Reads C m u a) (hf : f a = pure b) :
    Reads C (m >>= f) u b := by
  have h := hm.bind (f := f) (v := []) (b := b) (by rw [hf]; exact reads_pure b)
  rwa [List.append_nil] at h

end Rules

/-! ## Machines around a cursor -/

variable {τ : Type}

/-- From `t`, in front of `bs`, the machine `m` ends in `r`. When it returned,
the cursor is behind `bs`; when it threw, the cursor is somewhere within. -/
def Runs (C : Cursor σ) (put : τ → σ → τ) (m : EStateM ε τ α) (t : τ) (p : Nat)
    (bs : Bytes) (r : EStateM.Result ε τ α) : Prop :=
  ∀ s, C.At s p → bs <+: (C.input s).drop p → ∃ s', C.frame s s' ∧
    match r with
    | .ok a t' => m (put t s) = .ok a (put t' s') ∧ C.At s' (p + bs.length)
    | .error e t' => m (put t s) = .error e (put t' s') ∧
        ∃ q, C.At s' q ∧ p ≤ q ∧ q ≤ p + bs.length

/-- `m` neither reads nor moves the cursor. -/
def Silent (put : τ → σ → τ) (m : EStateM ε τ α) : Prop :=
  ∀ t s, m (put t s) =
    match m t with
    | .ok a t' => .ok a (put t' s)
    | .error e t' => .error e (put t' s)

section Machines

variable {C : Cursor σ} {put : τ → σ → τ}

theorem Runs.bind_ok {m : EStateM ε τ α} {f : α → EStateM ε τ β} {t t₁ : τ} {p : Nat}
    {u v : Bytes} {a : α} {r : EStateM.Result ε τ β}
    (hm : Runs C put m t p u (.ok a t₁))
    (hf : Runs C put (f a) t₁ (p + u.length) v r) :
    Runs C put (m >>= f) t p (u ++ v) r := by
  intro s hat hpre
  obtain ⟨hu, hv⟩ := prefix_drop_append.mp hpre
  obtain ⟨s₁, hfr₁, h₁, hat₁⟩ := hm s hat hu
  obtain ⟨s₂, hfr₂, h₂⟩ := hf s₁ hat₁ (by rw [C.frame_input _ _ hfr₁]; exact hv)
  refine ⟨s₂, C.frame_trans _ _ _ hfr₁ hfr₂, ?_⟩
  rw [StateExcept.bind_ok h₁, List.length_append, ← Nat.add_assoc]
  cases r with
  | ok b t' => exact h₂
  | error e t' =>
      obtain ⟨heq, q, hq, hlo, hhi⟩ := h₂
      exact ⟨heq, q, hq, by omega, hhi⟩

theorem Runs.bind_error {m : EStateM ε τ α} {f : α → EStateM ε τ β} {t t₁ : τ}
    {p : Nat} {u v : Bytes} {e : ε} (hm : Runs C put m t p u (.error e t₁)) :
    Runs C put (m >>= f) t p (u ++ v) (.error e t₁) := by
  intro s hat hpre
  obtain ⟨s₁, hfr₁, h₁, q, hq, hlo, hhi⟩ := hm s hat (prefix_drop_append.mp hpre).1
  exact ⟨s₁, hfr₁, StateExcept.bind_error h₁, q, hq, hlo, by
    rw [List.length_append]; omega⟩

theorem Runs.silent {m : EStateM ε τ α} (hm : Silent put m) (t : τ) (p : Nat)
    (bs : Bytes) (hbs : bs = [] ∨ ∃ e t', m t = .error e t') :
    Runs C put m t p bs (m t) := by
  intro s hat _
  have h := hm t s
  refine ⟨s, C.frame_refl s, ?_⟩
  cases hr : m t with
  | ok a t' =>
      rw [hr] at h
      rcases hbs with rfl | ⟨e, t'', he⟩
      · exact ⟨h, by simpa using hat⟩
      · rw [hr] at he; cases he
  | error e t' =>
      rw [hr] at h
      exact ⟨h, p, hat, Nat.le_refl _, Nat.le_add_right _ _⟩

theorem silent_pure (a : α) : Silent put (pure a : EStateM ε τ α) := fun _ _ => rfl

theorem silent_throw (e : ε) : Silent put (throw e : EStateM ε τ α) := fun _ _ => rfl

theorem silent_modify {f : τ → τ} (h : ∀ t s, f (put t s) = put (f t) s) :
    Silent put (modify f : EStateM ε τ PUnit) := fun t s => by
  rw [StateExcept.modify_run, StateExcept.modify_run, h]

theorem Silent.bind {m : EStateM ε τ α} {f : α → EStateM ε τ β}
    (hm : Silent put m) (hf : ∀ a, Silent put (f a)) : Silent put (m >>= f) := by
  intro t s
  have h := hm t s
  cases hr : m t with
  | ok a t' =>
      rw [hr] at h
      rw [StateExcept.bind_ok h, StateExcept.bind_ok hr]
      exact hf a t' s
  | error e t' =>
      rw [hr] at h
      rw [StateExcept.bind_error h, StateExcept.bind_error hr]

/-- Looking at the machine, but not at the cursor. -/
theorem silent_get_bind {f : τ → EStateM ε τ β}
    (hf : ∀ t, Silent put (f t)) (hview : ∀ t s, f (put t s) = f t) :
    Silent put (get >>= f) := by
  intro t s
  rw [StateExcept.get_bind_run, StateExcept.get_bind_run, hview]
  exact hf t t s

theorem silent_ite {c : Prop} [Decidable c] {m₁ m₂ : EStateM ε τ α}
    (h₁ : Silent put m₁) (h₂ : Silent put m₂) :
    Silent put (if c then m₁ else m₂) := by
  split
  · exact h₁
  · exact h₂

theorem silent_when {c : Prop} [Decidable c] {m : EStateM ε τ Unit}
    (h : Silent put m) : Silent put (when c m) := silent_ite h (silent_pure ())

end Machines

end ByteFile
