import Mathlib.Algebra.Ring.Int.Defs
/-!
# Reasoning about computations that may throw

C++ code that throws leaves behind whatever it had already changed, so a
computation is an `EStateM`: it ends in a value or an exception, and in a
state either way. This file has the equations that run one bind of such a
computation, and `Keeps`, the frame rule: a reflexive and transitive relation
between the states before and after, proved once for each primitive and
carried through binds, branches and loops. `Spares` says it of the runs that throw,
and then what comes first must not have changed anything that counts. `Maintains` is
`Keeps` for an invariant.
-/

namespace StateExcept

variable {ε σ α β : Type}

@[simp] theorem pure_run (a : α) (s : σ) :
    (pure a : EStateM ε σ α) s = .ok a s := rfl

@[simp] theorem get_run (s : σ) : (get : EStateM ε σ σ) s = .ok s s := rfl

@[simp] theorem set_run (s s' : σ) : (set s' : EStateM ε σ PUnit) s = .ok ⟨⟩ s' := rfl

@[simp] theorem modify_run (f : σ → σ) (s : σ) :
    (modify f : EStateM ε σ PUnit) s = .ok ⟨⟩ (f s) := rfl

@[simp] theorem throw_run (e : ε) (s : σ) :
    (throw e : EStateM ε σ α) s = .error e s := rfl

theorem bind_ok {m : EStateM ε σ α} {f : α → EStateM ε σ β} {s s' : σ} {a : α}
    (h : m s = .ok a s') : (m >>= f) s = f a s' := by
  show EStateM.bind m f s = _
  rw [EStateM.bind, h]

theorem bind_error {m : EStateM ε σ α} {f : α → EStateM ε σ β} {s s' : σ} {e : ε}
    (h : m s = .error e s') : (m >>= f) s = .error e s' := by
  show EStateM.bind m f s = _
  rw [EStateM.bind, h]

@[simp] theorem pure_bind_run (a : α) (f : α → EStateM ε σ β) (s : σ) :
    (pure a >>= f : EStateM ε σ β) s = f a s := rfl

@[simp] theorem get_bind_run (f : σ → EStateM ε σ β) (s : σ) :
    (get >>= f : EStateM ε σ β) s = f s s := rfl

@[simp] theorem set_bind_run (s' : σ) (f : PUnit → EStateM ε σ β) (s : σ) :
    (set s' >>= f : EStateM ε σ β) s = f ⟨⟩ s' := rfl

@[simp] theorem modify_bind_run (g : σ → σ) (f : PUnit → EStateM ε σ β) (s : σ) :
    (modify g >>= f : EStateM ε σ β) s = f ⟨⟩ (g s) := rfl

@[simp] theorem throw_bind_run (e : ε) (f : α → EStateM ε σ β) (s : σ) :
    (throw e >>= f : EStateM ε σ β) s = .error e s := rfl

/-- A statement under a condition. -/
def when (c : Prop) [Decidable c] (m : EStateM ε σ Unit) : EStateM ε σ Unit :=
  if c then m else pure ()

theorem when_pos {c : Prop} [Decidable c] (h : c) (m : EStateM ε σ Unit) :
    when c m = m := if_pos h

theorem when_neg {c : Prop} [Decidable c] (h : ¬ c) (m : EStateM ε σ Unit) :
    when c m = pure () := if_neg h

/-- A bind that succeeded did so in both halves. -/
theorem bind_eq_ok {m : EStateM ε σ α} {f : α → EStateM ε σ β} {s s'' : σ} {b : β}
    (h : (m >>= f) s = .ok b s'') :
    ∃ a s', m s = .ok a s' ∧ f a s' = .ok b s'' := by
  cases hm : m s with
  | ok a s' => exact ⟨a, s', rfl, (bind_ok hm).symm.trans h⟩
  | error e s' => rw [bind_error hm] at h; cases h

/-- A bind threw in its first half, if the second does not throw. -/
theorem bind_eq_error {m : EStateM ε σ α} {f : α → EStateM ε σ β} {s s' : σ} {e : ε}
    (hf : ∀ a s₁, f a s₁ ≠ .error e s') (h : (m >>= f) s = .error e s') :
    m s = .error e s' := by
  cases hm : m s with
  | ok a s₁ => exact absurd ((bind_ok hm).symm.trans h) (hf a s₁)
  | error e' s₁ =>
      obtain ⟨rfl, rfl⟩ := EStateM.Result.error.inj ((bind_error hm).symm.trans h)
      rfl

/-- What only throws was not done in a computation that returned. -/
theorem when_bind_eq_ok {c : Prop} [Decidable c] {m : EStateM ε σ Unit} {f : Unit → EStateM ε σ β}
    {s s' : σ} {b : β} (hm : ∀ a s', m s ≠ .ok a s') :
    (when c m >>= f) s = .ok b s' ↔ ¬ c ∧ f () s = .ok b s' := by
  by_cases h : c
  · rw [when_pos h]
    refine ⟨fun hrun => ?_, fun hrun => absurd h hrun.1⟩
    obtain ⟨a, s₁, hthrown, -⟩ := bind_eq_ok hrun
    exact absurd hthrown (hm a s₁)
  · rw [when_neg h]
    exact ⟨fun hrun => ⟨h, hrun⟩, fun hrun => hrun.2⟩

/-- A guard that throws has not thrown in a computation that returned. -/
theorem guard_bind_eq_ok {c : Prop} [Decidable c] {e : ε} {f : Unit → EStateM ε σ β}
    {s s' : σ} {b : β} :
    (when c (throw e) >>= f) s = .ok b s' ↔ ¬ c ∧ f () s = .ok b s' := when_bind_eq_ok nofun

theorem guard_eq_ok {c : Prop} [Decidable c] {e : ε} {s s' : σ} {a : Unit} :
    (when c (throw e) : EStateM ε σ Unit) s = .ok a s' ↔ ¬ c ∧ s' = s := by
  by_cases h : c
  · rw [when_pos h]
    exact ⟨fun hrun => (by cases hrun), fun hrun => absurd h hrun.1⟩
  · rw [when_neg h]
    refine ⟨fun hrun => ⟨h, (EStateM.Result.ok.inj hrun).2.symm⟩, ?_⟩
    rintro ⟨-, rfl⟩
    rfl

/-- A run that has been seen to return. -/
theorem exists_of_run' {m : EStateM ε σ α} {s : σ} {a : α} (h : m.run' s = some a) :
    ∃ s', m s = .ok a s' := by
  unfold EStateM.run' EStateM.run at h
  cases hm : m s with
  | ok b s' =>
      rw [hm] at h
      exact ⟨s', by rw [Option.some.inj h]⟩
  | error e s' =>
      rw [hm] at h
      cases h

/-- The state a computation ends in, whether it returned or threw. -/
def after (m : EStateM ε σ α) (s : σ) : σ :=
  match m s with
  | .ok _ s' => s'
  | .error _ s' => s'

theorem after_ok {m : EStateM ε σ α} {s s' : σ} {a : α} (h : m s = .ok a s') :
    after m s = s' := by rw [after, h]

theorem after_error {m : EStateM ε σ α} {s s' : σ} {e : ε} (h : m s = .error e s') :
    after m s = s' := by rw [after, h]

/-- Every run of `m`, thrown or returned, relates its two states by `R`. -/
def Keeps (R : σ → σ → Prop) (m : EStateM ε σ α) : Prop := ∀ s, R s (after m s)

section Rules

variable {R : σ → σ → Prop}

theorem Keeps.ok {m : EStateM ε σ α} (h : Keeps R m) {s s' : σ} {a : α}
    (hm : m s = .ok a s') : R s s' := after_ok hm ▸ h s

theorem Keeps.error {m : EStateM ε σ α} (h : Keeps R m) {s s' : σ} {e : ε}
    (hm : m s = .error e s') : R s s' := after_error hm ▸ h s

theorem keeps_pure (hrefl : ∀ s, R s s) (a : α) :
    Keeps R (pure a : EStateM ε σ α) := fun s => hrefl s

theorem keeps_throw (hrefl : ∀ s, R s s) (e : ε) :
    Keeps R (throw e : EStateM ε σ α) := fun s => hrefl s

theorem keeps_get (hrefl : ∀ s, R s s) : Keeps R (get : EStateM ε σ σ) :=
  fun s => hrefl s

theorem keeps_modify {f : σ → σ} (h : ∀ s, R s (f s)) :
    Keeps R (modify f : EStateM ε σ PUnit) := fun s => h s

/-- A bind, from one state. -/
theorem rel_after_bind (htrans : ∀ a b c, R a b → R b c → R a c) {m : EStateM ε σ α}
    {f : α → EStateM ε σ β} {s : σ} (hm : R s (after m s))
    (hf : ∀ a s', m s = .ok a s' → R s' (after (f a) s')) : R s (after (m >>= f) s) := by
  cases h : m s with
  | ok a s' =>
      have h₁ : after (m >>= f) s = after (f a) s' := by
        unfold after; rw [bind_ok h]
      rw [after_ok h] at hm
      rw [h₁]
      exact htrans _ _ _ hm (hf a s' h)
  | error e s' =>
      rw [after_error h] at hm
      rw [after_error (bind_error h)]
      exact hm

theorem keeps_bind (htrans : ∀ a b c, R a b → R b c → R a c)
    {m : EStateM ε σ α} {f : α → EStateM ε σ β}
    (hm : Keeps R m) (hf : ∀ a, Keeps R (f a)) : Keeps R (m >>= f) :=
  fun s => rel_after_bind htrans (hm s) fun a s' _ => hf a s'

theorem keeps_get_bind {f : σ → EStateM ε σ β} (hf : ∀ s, Keeps R (f s)) :
    Keeps R (get >>= f) := fun s => hf s s

theorem keeps_cases {c : Prop} [Decidable c] {m₁ m₂ : EStateM ε σ α}
    (h₁ : c → Keeps R m₁) (h₂ : ¬ c → Keeps R m₂) : Keeps R (if c then m₁ else m₂) := by
  split
  · exact h₁ ‹c›
  · exact h₂ ‹¬ c›

theorem keeps_ite {c : Prop} [Decidable c] {m₁ m₂ : EStateM ε σ α}
    (h₁ : Keeps R m₁) (h₂ : Keeps R m₂) : Keeps R (if c then m₁ else m₂) :=
  keeps_cases (fun _ => h₁) fun _ => h₂

theorem keeps_when (hrefl : ∀ s, R s s) {c : Prop} [Decidable c]
    {m : EStateM ε σ Unit} (h : Keeps R m) : Keeps R (when c m) :=
  keeps_ite h (keeps_pure hrefl ())

/-- What is behind a guard that throws. -/
theorem keeps_guard_bind (hrefl : ∀ s, R s s) {c : Prop} [Decidable c] {e : ε}
    {f : Unit → EStateM ε σ β} (hf : ¬ c → Keeps R (f ())) :
    Keeps R (when c (throw e) >>= f) := by
  intro s
  by_cases h : c
  · rw [when_pos h]
    exact hrefl s
  · rw [when_neg h]
    exact hf h s

end Rules

/-- What is done to a part of the state, which `part` reads and `put` replaces. -/
def onPart {τ : Type} (part : σ → τ) (put : σ → τ → σ) (m : EStateM ε τ α) : EStateM ε σ α :=
  fun s =>
    match m (part s) with
    | .ok a t => .ok a (put s t)
    | .error e t => .error e (put s t)

section Parts

variable {τ : Type} {part : σ → τ} {put : σ → τ → σ} {m : EStateM ε τ α} {s s' : σ} {t : τ} {a : α}
  {e : ε}

theorem onPart_ok (h : m (part s) = .ok a t) : onPart part put m s = .ok a (put s t) := by
  rw [onPart, h]

theorem onPart_error (h : m (part s) = .error e t) :
    onPart part put m s = .error e (put s t) := by
  rw [onPart, h]

theorem onPart_eq_ok (h : onPart part put m s = .ok a s') :
    ∃ t, m (part s) = .ok a t ∧ s' = put s t := by
  cases hm : m (part s) with
  | ok b t =>
      obtain ⟨rfl, rfl⟩ := EStateM.Result.ok.inj ((onPart_ok hm).symm.trans h)
      exact ⟨t, rfl, rfl⟩
  | error e t =>
      rw [onPart_error hm] at h
      cases h

theorem onPart_eq_error (h : onPart part put m s = .error e s') :
    ∃ t, m (part s) = .error e t ∧ s' = put s t := by
  cases hm : m (part s) with
  | ok b t =>
      rw [onPart_ok hm] at h
      cases h
  | error e' t =>
      obtain ⟨rfl, rfl⟩ := EStateM.Result.error.inj ((onPart_error hm).symm.trans h)
      exact ⟨t, rfl, rfl⟩

theorem after_onPart (m : EStateM ε τ α) (s : σ) :
    after (onPart part put m) s = put s (after m (part s)) := by
  cases hm : m (part s) with
  | ok b t => rw [after_ok hm, after_ok (onPart_ok hm)]
  | error e t => rw [after_error hm, after_error (onPart_error hm)]

end Parts

/-- Every run of `m` that throws relates its two states by `R`. -/
def Spares (R : σ → σ → Prop) (m : EStateM ε σ α) : Prop :=
  ∀ s e s', m s = .error e s' → R s s'

section Refusals

variable {R L : σ → σ → Prop}

theorem Keeps.spares {m : EStateM ε σ α} (h : Keeps R m) : Spares R m :=
  fun _ _ _ hrun => h.error hrun

theorem spares_pure (a : α) : Spares R (pure a : EStateM ε σ α) := by
  intro s e s' h
  cases h

theorem spares_modify (f : σ → σ) : Spares R (modify f : EStateM ε σ PUnit) := by
  intro s e s' h
  cases h

/-- What comes first keeps `L`, which `R` does not look at. -/
theorem spares_bind (hleft : ∀ a b c, L a b → R b c → R a c) {m : EStateM ε σ α}
    {f : α → EStateM ε σ β} (hm : Spares R m) (hok : ∀ s a s', m s = .ok a s' → L s s')
    (hf : ∀ a, Spares R (f a)) : Spares R (m >>= f) := by
  intro s e s'' hrun
  cases h : m s with
  | ok a s' =>
      rw [bind_ok h] at hrun
      exact hleft _ _ _ (hok s a s' h) (hf a s' e s'' hrun)
  | error e' s' =>
      rw [bind_error h] at hrun
      obtain ⟨-, rfl⟩ := EStateM.Result.error.inj hrun
      exact hm s e' s' h

/-- What comes last does not throw. -/
theorem spares_then {m : EStateM ε σ α} {f : α → EStateM ε σ β} (hm : Spares R m)
    (hf : ∀ a s e s', f a s ≠ .error e s') : Spares R (m >>= f) := by
  intro s e s'' hrun
  cases h : m s with
  | ok a s' =>
      rw [bind_ok h] at hrun
      exact absurd hrun (hf a s' e s'')
  | error e' s' =>
      rw [bind_error h] at hrun
      obtain ⟨-, rfl⟩ := EStateM.Result.error.inj hrun
      exact hm s e' s' h

theorem spares_get_bind {f : σ → EStateM ε σ β} (hf : ∀ s, Spares R (f s)) :
    Spares R (get >>= f) :=
  fun s e s' hrun => hf s s e s' hrun

theorem spares_guard_bind (hrefl : ∀ s, R s s) {c : Prop} [Decidable c] {e : ε}
    {f : Unit → EStateM ε σ β} (hf : Spares R (f ())) : Spares R (when c (throw e) >>= f) := by
  intro s e' s' hrun
  by_cases h : c
  · rw [when_pos h] at hrun
    obtain ⟨-, rfl⟩ := EStateM.Result.error.inj hrun
    exact hrefl s
  · rw [when_neg h] at hrun
    exact hf s e' s' hrun

theorem spares_ite {c : Prop} [Decidable c] {m₁ m₂ : EStateM ε σ α}
    (h₁ : Spares R m₁) (h₂ : Spares R m₂) : Spares R (if c then m₁ else m₂) := by
  split
  · exact h₁
  · exact h₂

end Refusals

/-- Every exception of `m` is one of `P`. -/
def Throws (P : ε → Prop) (m : EStateM ε σ α) : Prop := ∀ s e s', m s = .error e s' → P e

section Exceptions

variable {P : ε → Prop}

theorem throws_pure (a : α) : Throws P (pure a : EStateM ε σ α) := fun _ _ _ h => (by cases h)

theorem throws_throw {e : ε} (h : P e) : Throws P (throw e : EStateM ε σ α) := by
  intro s e' s' hrun
  obtain ⟨rfl, -⟩ := EStateM.Result.error.inj hrun
  exact h

theorem throws_modify (f : σ → σ) : Throws P (modify f : EStateM ε σ PUnit) :=
  fun _ _ _ h => (by cases h)

theorem throws_bind {m : EStateM ε σ α} {f : α → EStateM ε σ β} (hm : Throws P m)
    (hf : ∀ a, Throws P (f a)) : Throws P (m >>= f) := by
  intro s e s' hrun
  cases h : m s with
  | ok a s₁ => exact hf a s₁ e s' ((bind_ok h).symm.trans hrun)
  | error e' s₁ =>
      obtain ⟨rfl, -⟩ := EStateM.Result.error.inj ((bind_error h).symm.trans hrun)
      exact hm s e' s₁ h

theorem throws_when {c : Prop} [Decidable c] {m : EStateM ε σ Unit} (hm : Throws P m) :
    Throws P (when c m) := by
  intro s e s' hrun
  by_cases h : c
  · rw [when_pos h] at hrun
    exact hm s e s' hrun
  · rw [when_neg h] at hrun
    cases hrun

theorem throws_get_bind {f : σ → EStateM ε σ β} (hf : ∀ s, Throws P (f s)) :
    Throws P (get >>= f) := fun s e s' hrun => hf s s e s' hrun

theorem throws_guard_bind {c : Prop} [Decidable c] {e : ε} {f : Unit → EStateM ε σ β}
    (he : P e) (hf : ¬ c → Throws P (f ())) : Throws P (when c (throw e) >>= f) := by
  intro s e' s' hrun
  by_cases h : c
  · rw [when_pos h] at hrun
    obtain ⟨rfl, -⟩ := EStateM.Result.error.inj hrun
    exact he
  · rw [when_neg h] at hrun
    exact hf h s e' s' hrun

end Exceptions

/-- Every run of `m`, thrown or returned, leaves `P` true where it was. -/
def Maintains (P : σ → Prop) (m : EStateM ε σ α) : Prop := Keeps (fun s s' => P s → P s') m

section Invariants

variable {P : σ → Prop}

theorem Maintains.ok {m : EStateM ε σ α} (h : Maintains P m) {s s' : σ} {a : α} (hs : P s)
    (hm : m s = .ok a s') : P s' := Keeps.ok h hm hs

theorem Maintains.error {m : EStateM ε σ α} (h : Maintains P m) {s s' : σ} {e : ε} (hs : P s)
    (hm : m s = .error e s') : P s' := Keeps.error h hm hs

theorem maintains_pure (a : α) : Maintains P (pure a : EStateM ε σ α) := fun _ h => h

theorem maintains_throw (e : ε) : Maintains P (throw e : EStateM ε σ α) := fun _ h => h

theorem maintains_modify {f : σ → σ} (h : ∀ s, P s → P (f s)) :
    Maintains P (modify f : EStateM ε σ PUnit) := h

theorem maintains_bind {m : EStateM ε σ α} {f : α → EStateM ε σ β} (hm : Maintains P m)
    (hf : ∀ a, Maintains P (f a)) : Maintains P (m >>= f) :=
  keeps_bind (fun _ _ _ h h' hs => h' (h hs)) hm hf

theorem maintains_get_bind {f : σ → EStateM ε σ β} (hf : ∀ s, Maintains P (f s)) :
    Maintains P (get >>= f) := keeps_get_bind hf

theorem maintains_when {c : Prop} [Decidable c] {m : EStateM ε σ Unit} (h : Maintains P m) :
    Maintains P (when c m) := keeps_when (fun _ hs => hs) h

theorem maintains_ite {c : Prop} [Decidable c] {m₁ m₂ : EStateM ε σ α} (h₁ : Maintains P m₁)
    (h₂ : Maintains P m₂) : Maintains P (if c then m₁ else m₂) := keeps_ite h₁ h₂

/-- What is behind a guard that throws. -/
theorem maintains_guard_bind {c : Prop} [Decidable c] {e : ε} {f : Unit → EStateM ε σ β}
    (hf : Maintains P (f ())) : Maintains P (when c (throw e) >>= f) :=
  keeps_guard_bind (fun _ hs => hs) fun _ => hf

end Invariants

/-- What `m` does to a state it does to what `cut` leaves of it, and where it throws, as much is
left. `P` is what `cut` relies on. -/
structure Commutes (cut : σ → σ) (P : σ → Prop) (m : EStateM ε σ Unit) (s : σ) : Prop where
  ok : ∀ s', m s = .ok () s' → m (cut s) = .ok () (cut s') ∧ P s'
  error : ∀ e s', m s = .error e s' → cut s' = cut s ∧ P s'

section Cuts

variable {cut : σ → σ} {P : σ → Prop} {m : EStateM ε σ Unit} {s s' : σ}

theorem commutes_ok (hrun : m s = .ok () s') (hcut : m (cut s) = .ok () (cut s')) (hs : P s') :
    Commutes cut P m s := by
  refine ⟨fun s₁ hok => ?_, fun e s₁ herror => ?_⟩
  · obtain rfl := (EStateM.Result.ok.inj (hrun.symm.trans hok)).2
    exact ⟨hcut, hs⟩
  · rw [hrun] at herror
    cases herror

theorem commutes_error {e : ε} (hrun : m s = .error e s') (hcut : cut s' = cut s) (hs : P s') :
    Commutes cut P m s := by
  refine ⟨fun s₁ hok => ?_, fun e' s₁ herror => ?_⟩
  · rw [hrun] at hok
    cases hok
  · obtain ⟨-, rfl⟩ := EStateM.Result.error.inj (hrun.symm.trans herror)
    exact ⟨hcut, hs⟩

/-- What leaves everything as it is where it throws. -/
theorem commutes_of_spares (hs : P s) (hm : Spares (fun s s' => s' = s) m)
    (hok : ∀ s', m s = .ok () s' → m (cut s) = .ok () (cut s') ∧ P s') : Commutes cut P m s :=
  ⟨hok, fun e s' hrun => by rw [hm s e s' hrun]; exact ⟨rfl, hs⟩⟩

/-- A guard that the cut does not change. -/
theorem commutes_guard {c : Prop} [Decidable c] {e : ε} {f : Unit → EStateM ε σ Unit} (hs : P s)
    (hf : ¬ c → Commutes cut P (f ()) s) : Commutes cut P (when c (throw e) >>= f) s := by
  by_cases hc : c
  · exact commutes_error (by rw [when_pos hc]; rfl) rfl hs
  · rw [when_neg hc]
    exact hf hc

/-- The same where it looks at the state. -/
theorem commutes_get_guard {c : σ → Prop} [DecidablePred c] {e : ε} {n : EStateM ε σ Unit}
    (hs : P s) (hc : c (cut s) ↔ c s) (hn : ¬ c s → Commutes cut P n s) :
    Commutes cut P (get >>= fun s => when (c s) (throw e) >>= fun _ => n) s := by
  by_cases h : c s
  · refine commutes_error (e := e) ?_ rfl hs
    rw [get_bind_run, when_pos h]
    rfl
  · obtain ⟨hok, herror⟩ := hn h
    refine ⟨fun s' hrun => ?_, fun e' s' hrun => herror e' s' ?_⟩
    · rw [get_bind_run, when_neg h, pure_bind_run] at hrun
      rw [get_bind_run, when_neg (mt hc.mp h), pure_bind_run]
      exact hok s' hrun
    · rwa [get_bind_run, when_neg h, pure_bind_run] at hrun

end Cuts

end StateExcept
