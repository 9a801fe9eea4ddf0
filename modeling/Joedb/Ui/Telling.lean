import Joedb.Interpreted.Atomicity

/-!
# What a replay tells

Whatever bytes a journal has, and wherever the reader throws, a `Writable` sees nothing of them but
calls: the beginning and the end of a replay, and operations in between. So what holds of every
sequence of events holds of every journal. A `Writable` that is asked for its storage, or for a
checkpoint, could notice more. The ones here do not answer.
-/

namespace Joedb

open StateExcept Replay

inductive Event where
  | startWriting (position : Nat)
  | endWriting (position : Nat)
  | call (op : Op)

namespace Event

variable {ω : Type} (W : Writable ω)

def tell : Event → EStateM Exn ω Unit
  | startWriting position => W.startWriting position
  | endWriting position => W.endWriting position
  | call op => W.call op

/-- Up to the first that throws. -/
def tellAll : List Event → EStateM Exn ω Unit
  | [] => pure ()
  | e :: events => do
      e.tell W
      tellAll events

variable {W}

theorem tellAll_append {events events' : List Event} {w w' : ω}
    (h : tellAll W events w = .ok () w') :
    tellAll W (events ++ events') w = tellAll W events' w' := by
  induction events generalizing w with
  | nil => cases h; rfl
  | cons e events ih =>
      obtain ⟨_, w₁, he, hevents⟩ := bind_eq_ok h
      rw [List.cons_append, tellAll, bind_ok he]
      exact ih hevents

end Event

/-- Nothing but events changes it. -/
structure Writable.Listens {ω : Type} (W : Writable ω) : Prop where
  softCheckpoint : Keeps (fun w w' => w' = w) W.softCheckpoint
  ownStorage : ∀ ty t f, Keeps (fun w w' => w' = w) (W.ownStorage ty t f)
  storeOwn : ∀ ty t f r vs w, W.storeOwn ty t f r vs w = w
  storePart : ∀ ty t f r first w, W.storePart ty t f r first w = w
  onBlob : ∀ b, Keeps (fun w w' => w' = w) (W.onBlob b)

namespace Replay

variable {ω α β : Type} {W : Writable ω}

/-- A run has told some events, and when it throws it has done so behind the last of them. -/
def Reports (W : Writable ω) (m : Play ω α) : Prop :=
  ∀ t, ∃ events, match m t with
    | .ok _ t' => Event.tellAll W events t.writable = .ok () t'.writable
    | .error _ t' => t'.writable = after (Event.tellAll W events) t.writable

theorem reports_untouched {m : Play ω α} (h : Keeps Untouched m) : Reports W m := by
  intro t
  refine ⟨[], ?_⟩
  cases hm : m t with
  | ok a t' => exact congrArg (EStateM.Result.ok ()) (h.ok hm).symm
  | error e t' => exact h.error hm

theorem reports_event {m : EStateM Exn ω Unit} (e : Event) (h : e.tell W = m) :
    Reports W (tell m) := by
  subst h
  intro t
  refine ⟨[e], ?_⟩
  rw [tell_eq, onPart]
  cases he : e.tell W t.writable with
  | ok u w => exact bind_ok he
  | error exn w => exact (after_error (bind_error he)).symm

theorem reports_op (op : Op) : Reports W (tell (W.call op)) := reports_event (.call op) rfl

theorem reports_bind {m : Play ω α} {f : α → Play ω β} (hm : Reports W m)
    (hf : ∀ a, Reports W (f a)) : Reports W (m >>= f) := by
  intro t
  obtain ⟨events, hevents⟩ := hm t
  cases hrun : m t with
  | error e t' =>
      rw [hrun] at hevents
      rw [bind_error hrun]
      exact ⟨events, hevents⟩
  | ok a t' =>
      rw [hrun] at hevents
      rw [bind_ok hrun]
      obtain ⟨events', hevents'⟩ := hf a t'
      refine ⟨events ++ events', ?_⟩
      cases hrest : f a t' with
      | ok b t'' =>
          rw [hrest] at hevents'
          exact (Event.tellAll_append hevents).trans hevents'
      | error e t'' =>
          rw [hrest] at hevents'
          refine hevents'.trans ?_
          rw [StateExcept.after, StateExcept.after, Event.tellAll_append hevents]

theorem reports_get_bind {f : Replay ω → Play ω β} (hf : ∀ t, Reports W (f t)) :
    Reports W (get >>= f) := reports_bind (reports_untouched (keeps_get untouched.refl)) hf

theorem reports_pure (a : α) : Reports W (pure a) := reports_untouched (keeps_pure untouched.refl a)

theorem reports_ite {c : Prop} [Decidable c] {m m' : Play ω α} (hm : Reports W m)
    (hm' : Reports W m') :
    Reports W (if c then m else m') := by
  split
  · exact hm
  · exact hm'

theorem reports_when {c : Prop} [Decidable c] {m : Play ω Unit} (hm : Reports W m) :
    Reports W (when c m) := reports_ite hm (reports_pure ())

/-! ## One operation -/

/-- What is done before the `Writable` is told. -/
theorem reports_read {m : Play ω α} {f : α → Play ω β} (hm : Keeps Untouched m)
    (hf : ∀ a, Reports W (f a)) : Reports W (m >>= f) := reports_bind (reports_untouched hm) hf

theorem untouched_tell {m : EStateM Exn ω α} (h : Keeps (fun w w' => w' = w) m) :
    Keeps Untouched (tell m) := by
  intro t
  rw [show after (tell m) t = t.withWritable (after m t.writable) from after_onPart m t]
  exact h t.writable

theorem reports_performUpdate (ty : Ty) : Reports W (performUpdate W ty) :=
  reports_read (untouched.readMethod _) fun _ => reports_get_bind fun _ => reports_op _

theorem reports_performUpdateVector (hW : W.Listens) (ty : Ty) (size : Nat) :
    Reports W (performUpdateVector W ty size) := by
  have hguard : ∀ {c : Prop} [Decidable c] (e : Exn),
      Keeps Untouched (when c (throw e) : Play ω Unit) := fun e =>
    keeps_when untouched.refl (keeps_throw untouched.refl e)
  have hprepare : Keeps Untouched (prepareUpdateVector W ty size) :=
    untouched_bind (keeps_get untouched.refl) fun t => untouched_bind (hguard _) fun _ =>
      untouched_bind (untouched_tell (hW.ownStorage _ _ _)) fun _ =>
        untouched_bind (hguard _) fun _ => keeps_pure untouched.refl _
  refine reports_read hprepare fun capacity => reports_read (untouched.readVector _ _) fun read =>
    reports_get_bind fun t => reports_read ?_ fun _ => ?_
  · exact keeps_when untouched.refl (keeps_modify fun _ => hW.storeOwn _ _ _ _ _ _)
  · cases read.2 with
    | some stop =>
        exact reports_read (keeps_when untouched.refl
          (keeps_modify fun _ => hW.storePart _ _ _ _ _ _)) fun _ =>
            reports_untouched (keeps_throw untouched.refl stop.1)
    | none => exact reports_op _

theorem reports_performBlob (hW : W.Listens) (size : Nat) : Reports W (performBlob W size) := by
  refine reports_get_bind fun t => reports_read (untouched_tell (hW.onBlob _)) fun _ =>
    reports_get_bind fun t' => reports_ite (reports_read ?_ fun _ => reports_op _)
      (reports_untouched (keeps_modify fun t => rfl))
  exact keeps_ite (untouched.buffer _) (keeps_pure untouched.refl _)

theorem reports_perform (hW : W.Listens) (operation : Operation) :
    Reports W (perform W operation) := by
  have hid : Keeps Untouched (buffer FileBuffer.readId : Play ω UInt16) := untouched.buffer _
  have hrecord : Keeps Untouched (buffer FileBuffer.readReference : Play ω Int) :=
    untouched.buffer _
  have hsize : Keeps Untouched (buffer (FileBuffer.compactRead 64) : Play ω Nat) :=
    untouched.buffer _
  have hcontext : ∀ g : Replay ω → Context,
      Keeps Untouched (modify fun t => t.withContext (g t) : Play ω Unit) := untouched_withContext
  have hinserted : ∀ (op : Op) (t : TableId) (r : RecordId),
      Reports W (do tell (W.call op); setTable t; setRecord r) := fun op _ _ =>
    reports_bind (reports_op op) fun _ => reports_untouched
      (untouched_bind (hcontext _) fun _ => hcontext _)
  cases operation with
  | createTable => exact reports_read untouched.safeReadString fun _ => reports_op _
  | dropTable => exact reports_read hid fun _ => reports_op _
  | renameTable =>
      exact reports_read hid fun _ => reports_read untouched.safeReadString fun _ => reports_op _
  | addField =>
      exact reports_read hid fun _ => reports_read untouched.safeReadString fun _ =>
        reports_read untouched.readType fun _ => reports_op _
  | dropField => exact reports_read hid fun _ => reports_read hid fun _ => reports_op _
  | renameField =>
      exact reports_read hid fun _ => reports_read hid fun _ =>
        reports_read untouched.safeReadString fun _ => reports_op _
  | insertInto => exact reports_read hid fun _ => reports_read hrecord fun _ => hinserted _ _ _
  | deleteFrom => exact reports_read hid fun _ => reports_read hrecord fun _ => reports_op _
  | insertVector =>
      exact reports_read hid fun _ => reports_read hrecord fun _ => reports_read hsize fun _ =>
        hinserted _ _ _
  | deleteVector =>
      exact reports_read hid fun _ => reports_read hrecord fun _ => reports_read hsize fun _ =>
        reports_op _
  | append =>
      exact reports_read untouched_nextRecord fun _ => reports_get_bind fun _ => reports_op _
  | update ty =>
      exact reports_read hid fun _ => reports_read (hcontext _) fun _ =>
        reports_read hrecord fun _ => reports_read (hcontext _) fun _ =>
        reports_read hid fun _ => reports_read (hcontext _) fun _ =>
          reports_performUpdate ty
  | updateLast ty =>
      exact reports_read hid fun _ => reports_read (hcontext _) fun _ => reports_performUpdate ty
  | updateNext ty => exact reports_read untouched_nextRecord fun _ => reports_performUpdate ty
  | updateVector ty =>
      exact reports_read hid fun _ => reports_read (hcontext _) fun _ =>
        reports_read hrecord fun _ => reports_read (hcontext _) fun _ =>
        reports_read hid fun _ => reports_read (hcontext _) fun _ =>
          reports_read hsize fun size => reports_ite (reports_pure ())
            (reports_performUpdateVector hW ty size)
  | custom => exact reports_read untouched.safeReadString fun _ => reports_op _
  | comment => exact reports_read untouched.safeReadString fun _ => reports_op _
  | timestamp => exact reports_read (untouched.buffer _) fun _ => reports_op _
  | validData => exact reports_op _
  | blob => exact reports_read hsize fun size => reports_performBlob hW size

theorem reports_oneStep (hW : W.Listens) : Reports W (oneStep W) := by
  refine reports_read (untouched.buffer _) fun code => ?_
  cases Operation.ofCode code with
  | some operation => exact reports_perform hW operation
  | none =>
      exact reports_get_bind fun _ => reports_untouched (keeps_throw untouched.refl _)

/-! ## All of them -/

theorem reports_rawPlayUntilGo (hW : W.Listens) (stop fuel : Nat) :
    Reports W (rawPlayUntilGo W stop fuel) := by
  induction fuel with
  | zero => exact reports_pure ()
  | succ fuel ih =>
      exact reports_get_bind fun _ => reports_ite (reports_bind (reports_oneStep hW) fun _ => ih)
        (reports_pure ())

/-- Decoding for the context tells nothing. -/
theorem untouched_catchUp : Keeps Untouched (catchUp W) := by
  refine untouched_bind (keeps_get untouched.refl) fun t => keeps_when untouched.refl fun t' => ?_
  unfold after detour
  cases rawPlayUntil dummyWritable (W.getPosition t.writable) ⟨t'.journal, ()⟩ with
  | ok a t'' => rfl
  | error e t'' => rfl

theorem reports_playUntil (hW : W.Listens) (stop : Nat) : Reports W (playUntil W stop) := by
  have hon : Reports W (playOn W stop) :=
    reports_read untouched_catchUp fun _ => reports_get_bind fun t =>
      reports_bind (reports_event (.startWriting t.journal.getPosition) rfl) fun _ =>
        reports_bind (reports_get_bind fun _ => reports_rawPlayUntilGo hW stop _) fun _ =>
          reports_get_bind fun t =>
            reports_bind (reports_event (.endWriting t.journal.getPosition) rfl) fun _ =>
              reports_untouched (untouched_tell hW.softCheckpoint)
  exact reports_get_bind fun _ => reports_bind (reports_when hon) fun _ =>
    reports_untouched (keeps_modify fun _ => rfl)

/-- A journal is a list of events to those who listen. -/
theorem reports_replayLog (hW : W.Listens) : Reports W (replayLog W) :=
  reports_read (keeps_modify fun _ => rfl) fun _ => reports_get_bind fun _ => reports_playUntil hW _

end Replay

end Joedb
