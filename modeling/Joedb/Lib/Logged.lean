import Joedb.Lib.StateExcept

/-!
# Computations that keep a log

A second version of a computation notes in a log what the first one does on the
way and does not show. `Logs` says that it is the first one otherwise, whether
it returns or throws, and that every entry is allowed in the state from which
the computation starts.
-/

namespace StateExcept

variable {ε σ ρ α β : Type}

abbrev Logged (ε σ ρ : Type) := EStateM ε (σ × List ρ)

namespace Logged

/-- Nothing to note. -/
def lift (m : EStateM ε σ α) : Logged ε σ ρ α := fun s =>
  match m s.1 with
  | .ok a s' => .ok a (s', s.2)
  | .error e s' => .error e (s', s.2)

def note (r : ρ) : Logged ε σ ρ Unit := modify fun s => (s.1, s.2 ++ [r])

theorem lift_ok {m : EStateM ε σ α} {s s' : σ} {a : α} (h : m s = .ok a s') (log : List ρ) :
    lift m (s, log) = .ok a (s', log) := by
  rw [lift]
  simp only [h]

theorem lift_error {m : EStateM ε σ α} {s s' : σ} {e : ε} (h : m s = .error e s')
    (log : List ρ) : lift m (s, log) = .error e (s', log) := by
  rw [lift]
  simp only [h]

end Logged

open Logged

/-- From `s`, `m` is `p` with a log, every entry of which `B` allows. -/
def Logs (B : σ → ρ → Prop) (p : EStateM ε σ α) (m : Logged ε σ ρ α) (s : σ) : Prop :=
  ∀ log, ∃ entries, (∀ r ∈ entries, B s r) ∧ m (s, log) = lift p (s, log ++ entries)

section Rules

variable {B : σ → ρ → Prop}

theorem logs_lift (p : EStateM ε σ α) (s : σ) : Logs B p (lift p) s :=
  fun log => ⟨[], nofun, by rw [List.append_nil]⟩

theorem logs_pure (a : α) (s : σ) : Logs B (pure a : EStateM ε σ α) (pure a) s :=
  logs_lift (pure a) s

/-- What the rest may note, the whole may, when the first half takes no leave away. -/
theorem logs_bind {p : EStateM ε σ α} {f : α → EStateM ε σ β} {m : Logged ε σ ρ α}
    {g : α → Logged ε σ ρ β} {s : σ} (hm : Logs B p m s)
    (hkeeps : Keeps (fun s s' => ∀ r, B s' r → B s r) p)
    (hg : ∀ a s', p s = .ok a s' → Logs B (f a) (g a) s') :
    Logs B (p >>= f) (m >>= g) s := by
  intro log
  obtain ⟨entries, hentries, hrun⟩ := hm log
  cases hp : p s with
  | ok a s' =>
      rw [lift_ok hp] at hrun
      obtain ⟨entries', hentries', hrun'⟩ := hg a s' hp (log ++ entries)
      refine ⟨entries ++ entries', fun r hr => ?_, ?_⟩
      · rcases List.mem_append.mp hr with hr | hr
        · exact hentries r hr
        · exact hkeeps.ok hp r (hentries' r hr)
      · rw [bind_ok hrun, hrun', List.append_assoc]
        simp only [lift, bind_ok hp]
  | error e s' =>
      rw [lift_error hp] at hrun
      refine ⟨entries, hentries, ?_⟩
      rw [bind_error hrun, lift_error (bind_error hp)]

theorem logs_get_bind {f : σ → EStateM ε σ β} {g : σ → Logged ε σ ρ β} {s : σ}
    (hg : Logs B (f s) (g s) s) : Logs B (get >>= f) (lift get >>= g) s := hg

theorem logs_note_bind {p : EStateM ε σ β} {m : Logged ε σ ρ β} {r : ρ} {s : σ} (hr : B s r)
    (hm : Logs B p m s) : Logs B p (note r >>= fun _ => m) s := by
  intro log
  obtain ⟨entries, hentries, hrun⟩ := hm (log ++ [r])
  refine ⟨r :: entries, List.forall_mem_cons.mpr ⟨hr, hentries⟩, ?_⟩
  rw [List.append_cons, ← hrun]
  rfl

end Rules

end StateExcept
