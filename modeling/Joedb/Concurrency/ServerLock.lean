import Joedb.Concurrency.ServerFrame

/-!
# The lock of the server

A session that runs is between two waits and appears in no queue, so the
invariants are stated with the session that is running, if one is: `Queue` for
the lock and those that wait for it, `Held` for the lock of the server's own
client. Every path of a session ends in a phase, a queue or its cleanup, and
there the invariants hold of all sessions again.

The lock is handed over by cancelling the timer of the first that waits. From
there until that session runs nobody holds the lock, and `locked` stays.
-/

namespace Joedb.Server

open ByteFile

variable {ι : Type}

/-- The first that waits was woken, and has not run yet. -/
def Handoff (s : Server ι) : Prop :=
  ∃ w ws, s.lockWaiters = w :: ws ∧ s.woken w = true

def Phase.WaitsForLock : Phase → Prop
  | .waitingLock .. => True
  | _ => False

/-- A push that writes as its payload comes. -/
def Phase.Writes : Phase → Prop
  | .receiving p => p.writer.isSome = true
  | _ => False

/-- The lock and its queue, while `acting` runs. -/
structure Queue (acting : Option ι) (s : Server ι) : Prop where
  unique : ∀ i j, s.locking i = true → s.locking j = true → i = j
  locked_iff : s.locked = true ↔ (∃ i, s.locking i = true) ∨ s.Handoff
  waiting : ∀ i, acting ≠ some i → (i ∈ s.lockWaiters ↔ Phase.WaitsForLock (s.phase i))
  acting_free : ∀ i, acting = some i → i ∉ s.lockWaiters
  nodup : s.lockWaiters.Nodup
  busy : s.lockWaiters ≠ [] → s.locked = true
  free : ∀ i ∈ s.lockWaiters, s.locking i = false
  woken : ∀ i ∈ s.lockWaiters, s.woken i = true →
    s.lockWaiters.head? = some i ∧ ∀ j, s.locking j = false
  order : s.asked = s.served ++ s.lockWaiters
  writing : ∀ i, acting ≠ some i → Phase.Writes (s.phase i) → s.locking i = true

/-- The queue while nobody has the lock and nobody was woken: what `lock` finds
when it takes the lock. -/
structure Unheld (acting : Option ι) (s : Server ι) : Prop where
  nobody : ∀ i, s.locking i = false
  asleep : ∀ i ∈ s.lockWaiters, s.woken i = false
  waiting : ∀ i, acting ≠ some i → (i ∈ s.lockWaiters ↔ Phase.WaitsForLock (s.phase i))
  acting_free : ∀ i, acting = some i → i ∉ s.lockWaiters
  nodup : s.lockWaiters.Nodup
  order : s.asked = s.served ++ s.lockWaiters
  quiet : ∀ i, acting ≠ some i → ¬ Phase.Writes (s.phase i)

/-- The client lock. A server that does not share its file never gives it
back. -/
structure Owned (k : ServerOptions) (s : Server ι) : Prop where
  exclusive : k.shared = false → s.clientLock = k.writable
  released : k.shared = true → s.locked = false → s.clientLock = false

structure Held (k : ServerOptions) (s : Server ι) : Prop extends Owned k s where
  held : k.writable = true → (∃ i, s.locking i = true) → s.clientLock = true

/-- All that this module keeps. -/
structure Locks (k : ServerOptions) (acting : Option ι) (s : Server ι) : Prop where
  queue : Queue acting s
  held : Held k s

variable {k : ServerOptions} {a : Option ι} {s : Server ι}

theorem Queue.unheld (h : Queue a s) (hlocked : s.locked = false) : Unheld a s := by
  have hnone : ¬ ((∃ i, s.locking i = true) ∨ s.Handoff) := fun hx => by
    rw [h.locked_iff.mpr hx] at hlocked
    cases hlocked
  refine ⟨fun i => ?_, fun i hi => ?_, h.waiting, h.acting_free, h.nodup, h.order,
    fun i hne hw => hnone (.inl ⟨i, h.writing i hne hw⟩)⟩
  · exact Bool.eq_false_iff.mpr fun hi => hnone (.inl ⟨i, hi⟩)
  · refine Bool.eq_false_iff.mpr fun hw => ?_
    have hbusy := h.busy (List.ne_nil_of_mem hi)
    rw [hbusy] at hlocked
    cases hlocked

/-- A session that runs was in no queue. -/
theorem Queue.run (h : Queue none s) {i : ι} (hi : i ∉ s.lockWaiters) : Queue (some i) s :=
  { h with waiting := fun j _ => h.waiting j (by simp)
           acting_free := fun _ hj => Option.some.inj hj ▸ hi
           writing := fun j _ => h.writing j (by simp) }

/-- Nobody that waits: the lock is free again. -/
theorem Unheld.leave (h : Unheld a s) (hnil : s.lockWaiters = []) (c : Bool) :
    Queue a { s with locked := false, clientLock := c } where
  unique i j hi _ := by rw [show s.locking i = false from h.nobody i] at hi; cases hi
  locked_iff := by
    refine ⟨nofun, ?_⟩
    rintro (⟨i, hi⟩ | ⟨w, ws, hw, -⟩)
    · rw [show s.locking i = false from h.nobody i] at hi
      cases hi
    · rw [show s.lockWaiters = w :: ws from hw] at hnil
      cases hnil
  waiting := h.waiting
  acting_free := h.acting_free
  nodup := h.nodup
  busy hne := absurd hnil hne
  free i _ := h.nobody i
  woken i hi hw := by rw [show s.woken i = false from h.asleep i hi] at hw; cases hw
  order := h.order
  writing i hne hw := absurd hw (h.quiet i hne)

/-- A session ends where it waits for no lock, and writes only with it. -/
theorem Queue.settle {i : ι} (h : Queue (some i) s) (hp : ¬ Phase.WaitsForLock (s.phase i))
    (hw : Phase.Writes (s.phase i) → s.locking i = true) : Queue none s := by
  refine { h with waiting := fun j _ => ?_, acting_free := nofun, writing := fun j _ hj => ?_ }
  · by_cases hj : i = j
    · subst hj
      exact ⟨fun hi => absurd hi (h.acting_free i rfl), fun hw => absurd hw hp⟩
    · exact h.waiting j fun heq => hj (Option.some.inj heq)
  · by_cases hij : i = j
    · subst hij
      exact hw hj
    · exact h.writing j (fun heq => hij (Option.some.inj heq)) hj

section

variable [DecidableEq ι]

theorem Queue.withPhase {i : ι} (h : Queue (some i) s) (p : Phase) :
    Queue (some i) (s.setPhase i p) := by
  have hother : ∀ j, some i ≠ some j → Function.update s.phase i p j = s.phase j := by
    intro j hne
    exact Function.update_of_ne (fun heq => hne (congrArg some heq.symm)) _ _
  refine { h with waiting := fun j hne => ?_, writing := fun j hne hw => ?_ }
  · show j ∈ s.lockWaiters ↔ Phase.WaitsForLock (Function.update s.phase i p j)
    rw [hother j hne]
    exact h.waiting j hne
  · have hw' : Phase.Writes (Function.update s.phase i p j) := hw
    rw [hother j hne] at hw'
    exact h.writing j hne hw'

theorem Queue.setPhase {i : ι} (h : Queue (some i) s) {p : Phase}
    (hp : ¬ Phase.WaitsForLock p) (hw : Phase.Writes p → s.locking i = true) :
    Queue none (s.setPhase i p) := by
  have hself : (s.setPhase i p).phase i = p := Function.update_self ..
  exact (h.withPhase p).settle (by rw [hself]; exact hp) (by rw [hself]; exact hw)

/-- Without the one that had it, nobody has the lock. -/
theorem Queue.release {i : ι} (h : Queue (some i) s) (hi : s.locking i = true) :
    Unheld (some i) { s with locking := Function.update s.locking i false } where
  nobody j := by
    show Function.update s.locking i false j = false
    by_cases hj : j = i
    · rw [hj, Function.update_self]
    · rw [Function.update_of_ne hj]
      exact Bool.eq_false_iff.mpr fun hl => hj (h.unique j i hl hi)
  asleep j hj := Bool.eq_false_iff.mpr fun hw => by
    rw [(h.woken j hj hw).2 i] at hi
    cases hi
  waiting := h.waiting
  acting_free := h.acting_free
  nodup := h.nodup
  order := h.order
  quiet j hne hw := hne (h.unique j i (h.writing j hne hw) hi ▸ rfl)

/-- The first that waits is woken, and the lock is not free meanwhile. -/
theorem Unheld.hand (h : Unheld a s) {w : ι} {ws : List ι} (hcons : s.lockWaiters = w :: ws)
    (hlocked : s.locked = true) :
    Queue a { s with woken := Function.update s.woken w true } where
  unique i j hi _ := by rw [show s.locking i = false from h.nobody i] at hi; cases hi
  locked_iff := ⟨fun _ => .inr ⟨w, ws, hcons, Function.update_self ..⟩, fun _ => hlocked⟩
  waiting := h.waiting
  acting_free := h.acting_free
  nodup := h.nodup
  busy _ := hlocked
  free i _ := h.nobody i
  woken i hi hw := by
    refine ⟨?_, h.nobody⟩
    show s.lockWaiters.head? = some i
    by_cases hiw : i = w
    · rw [hcons, hiw]
      rfl
    · have hw' : Function.update s.woken w true i = true := hw
      rw [Function.update_of_ne hiw, h.asleep i hi] at hw'
      cases hw'
  order := h.order
  writing i hne hw := absurd hw (h.quiet i hne)

theorem Unheld.take {i : ι} (h : Unheld (some i) s) :
    Queue (some i) { s with locked := true, locking := Function.update s.locking i true } where
  unique j j' hj hj' := by
    have hone : ∀ {j}, Function.update s.locking i true j = true → j = i := by
      intro j hj
      by_contra hne
      rw [Function.update_of_ne hne, h.nobody j] at hj
      cases hj
    rw [hone hj, hone hj']
  locked_iff := ⟨fun _ => .inl ⟨i, Function.update_self ..⟩, fun _ => rfl⟩
  waiting := h.waiting
  acting_free := h.acting_free
  nodup := h.nodup
  busy _ := rfl
  free j hj := by
    have hne : j ≠ i := fun heq => h.acting_free i rfl (heq ▸ hj)
    exact (Function.update_of_ne hne _ _).trans (h.nobody j)
  woken j hj hw := by rw [show s.woken j = false from h.asleep j hj] at hw; cases hw
  order := h.order
  writing j hne hw := absurd hw (h.quiet j hne)

/-- The one that was woken leaves the queue, which is its first. -/
theorem Queue.serve (h : Queue none s) {i : ι} (hi : i ∈ s.lockWaiters)
    (hw : s.woken i = true) :
    Unheld (some i) { s with lockWaiters := s.lockWaiters.tail
                             served := s.served ++ [i]
                             woken := Function.update s.woken i false } := by
  obtain ⟨hhead, hnobody⟩ := h.woken i hi hw
  obtain ⟨ws, hcons⟩ : ∃ ws, s.lockWaiters = i :: ws := by
    cases hl : s.lockWaiters with
    | nil => rw [hl] at hi; cases hi
    | cons w ws => rw [hl] at hhead; exact ⟨ws, by rw [Option.some.inj hhead]⟩
  have hnodup : i ∉ ws ∧ ws.Nodup := List.nodup_cons.mp (hcons ▸ h.nodup)
  have htail : s.lockWaiters.tail = ws := by rw [hcons]; rfl
  refine ⟨hnobody, fun j hj => ?_, fun j hne => ?_, fun j hj => ?_, ?_, ?_, fun j _ hw => ?_⟩
  · show Function.update s.woken i false j = false
    have hj' : j ∈ ws := htail ▸ hj
    have hne : j ≠ i := fun heq => hnodup.1 (heq ▸ hj')
    rw [Function.update_of_ne hne]
    refine Bool.eq_false_iff.mpr fun hwj => hne ?_
    have hmem : j ∈ s.lockWaiters := by rw [hcons]; exact List.mem_cons_of_mem _ hj'
    exact Option.some.inj ((h.woken j hmem hwj).1.symm.trans hhead)
  · show j ∈ s.lockWaiters.tail ↔ _
    have hne' : j ≠ i := fun heq => hne (heq ▸ rfl)
    rw [htail, ← h.waiting j (by simp), hcons, List.mem_cons]
    exact ⟨.inr, fun hor => hor.resolve_left hne'⟩
  · obtain rfl := Option.some.inj hj
    show i ∉ s.lockWaiters.tail
    rw [htail]
    exact hnodup.1
  · show s.lockWaiters.tail.Nodup
    rw [htail]
    exact hnodup.2
  · show s.asked = (s.served ++ [i]) ++ s.lockWaiters.tail
    rw [h.order, htail, hcons, List.append_assoc]
    rfl
  · have hlocking := h.writing j (by simp) hw
    rw [hnobody j] at hlocking
    cases hlocking

/-- A session that finds the lock taken goes to the end of the queue. -/
theorem Queue.ask {i : ι} (h : Queue (some i) s) (hi : s.locking i = false)
    (hlocked : s.locked = true) (d : Bool) (c : Int) :
    Queue none { s with lockWaiters := s.lockWaiters ++ [i]
                        asked := s.asked ++ [i]
                        woken := Function.update s.woken i false
                        phase := Function.update s.phase i (.waitingLock d c) } := by
  have hnot := h.acting_free i rfl
  have hwoken : ∀ j ∈ s.lockWaiters, Function.update s.woken i false j = s.woken j := by
    intro j hj
    exact Function.update_of_ne (fun heq => hnot (by rw [← heq]; exact hj)) _ _
  refine ⟨h.unique, ?_, fun j _ => ?_, nofun, ?_, fun _ => hlocked, fun j hj => ?_,
    fun j hj hw => ?_, ?_, fun j _ hw => ?_⟩
  · refine ⟨fun hl => ?_, fun _ => hlocked⟩
    rcases h.locked_iff.mp hl with hsome | ⟨w, ws, hcons, hw⟩
    · exact .inl hsome
    · refine .inr ⟨w, ws ++ [i], ?_, ?_⟩
      · show s.lockWaiters ++ [i] = _
        rw [hcons]
        rfl
      · exact (hwoken w (by rw [hcons]; exact List.mem_cons_self)).trans hw
  · show j ∈ s.lockWaiters ++ [i] ↔ Phase.WaitsForLock (Function.update s.phase i _ j)
    by_cases hj : j = i
    · rw [hj, Function.update_self]
      exact ⟨fun _ => trivial, fun _ => List.mem_append_right _ List.mem_cons_self⟩
    · rw [Function.update_of_ne hj, ← h.waiting j fun heq => hj (Option.some.inj heq).symm,
        List.mem_append, List.mem_singleton]
      exact ⟨fun hor => hor.resolve_right hj, .inl⟩
  · show (s.lockWaiters ++ [i]).Nodup
    refine List.nodup_append.mpr ⟨h.nodup, List.nodup_cons.mpr ⟨List.not_mem_nil, List.nodup_nil⟩,
      fun j hj j' hj' heq => hnot ?_⟩
    rw [← List.mem_singleton.mp hj', ← heq]
    exact hj
  · rcases List.mem_append.mp hj with hj | hj
    · exact h.free j hj
    · rw [List.mem_singleton.mp hj]
      exact hi
  · have hw' : Function.update s.woken i false j = true := hw
    rcases List.mem_append.mp hj with hj | hj
    · rw [hwoken j hj] at hw'
      obtain ⟨hhead, hnobody⟩ := h.woken j hj hw'
      refine ⟨?_, hnobody⟩
      show (s.lockWaiters ++ [i]).head? = some j
      cases hl : s.lockWaiters with
      | nil => rw [hl] at hj; cases hj
      | cons w ws => rw [hl] at hhead; exact hhead
    · rw [List.mem_singleton.mp hj, Function.update_self] at hw'
      cases hw'
  · show s.asked ++ [i] = s.served ++ (s.lockWaiters ++ [i])
    rw [h.order, List.append_assoc]
  · have hw' : Phase.Writes (Function.update s.phase i (.waitingLock d c) j) := hw
    by_cases hj : j = i
    · rw [hj, Function.update_self] at hw'
      exact absurd hw' id
    · rw [Function.update_of_ne hj] at hw'
      exact h.writing j (fun heq => hj (Option.some.inj heq).symm) hw'

/-! ## Giving the lock back -/

theorem Queue.unlock {i : ι} (h : Queue (some i) s) : Queue (some i) (s.unlock k i) := by
  by_cases hi : s.locking i = true
  case neg => rw [unlock_of_not s i (Bool.eq_false_iff.mpr hi)]; exact h
  case pos =>
    have hunheld := h.release hi
    cases hl : s.lockWaiters with
    | nil => rw [unlock_nil s i hi hl]; exact hunheld.leave hl _
    | cons w ws =>
        rw [unlock_cons s i hi hl]
        exact hunheld.hand hl (h.busy (by rw [hl]; exact List.cons_ne_nil _ _))

/-- With the lock given back, nothing is owed for it. -/
theorem Held.unlock {i : ι} (hq : Queue (some i) s) (h : Owned k s)
    (hheld : s.locking i = false → Held k s) : Held k (s.unlock k i) := by
  by_cases hi : s.locking i = true
  case neg =>
    have hi' := Bool.eq_false_iff.mpr hi
    rw [unlock_of_not s i hi']
    exact hheld hi'
  case pos =>
    have hnobody := (hq.release hi).nobody
    cases hl : s.lockWaiters with
    | nil =>
        rw [unlock_nil s i hi hl]
        refine ⟨⟨fun hs => ?_, fun hs _ => ?_⟩, fun _ ⟨j, hj⟩ => ?_⟩
        · show (s.clientLock && !k.shared) = k.writable
          rw [hs, h.exclusive hs]
          simp
        · show (s.clientLock && !k.shared) = false
          rw [hs]
          simp
        · rw [show _ = false from hnobody j] at hj
          cases hj
    | cons w ws =>
        rw [unlock_cons s i hi hl]
        refine ⟨⟨h.exclusive, h.released⟩, fun _ ⟨j, hj⟩ => ?_⟩
        rw [show _ = false from hnobody j] at hj
        cases hj

/-! ## The paths of a session -/

/-- `cleanup` takes nobody else from the queue. -/
theorem Queue.cleanup {i : ι} (h : Queue (some i) s) : Queue none (s.cleanup k i) := by
  have hunlock := h.unlock (k := k)
  have herase : (s.unlock k i).lockWaiters.erase i = (s.unlock k i).lockWaiters :=
    List.erase_of_not_mem (hunlock.acting_free i rfl)
  have hphase := hunlock.setPhase (p := .absent) id (fun hw => absurd hw id)
  rw [Server.cleanup]
  simp only [herase]
  exact { hphase with }

theorem Held.cleanup {i : ι} (hq : Queue (some i) s) (h : Owned k s)
    (hheld : s.locking i = false → Held k s) : Held k (s.cleanup k i) :=
  { Held.unlock hq h hheld with }

theorem Locks.cleanup {i : ι} (h : Locks k (some i) s) : Locks k none (s.cleanup k i) :=
  ⟨h.queue.cleanup, Held.cleanup h.queue h.held.toOwned fun _ => h.held⟩

theorem Locks.reply {i : ι} (h : Locks k (some i) s) (r : Reply) :
    Locks k none (s.reply i r) :=
  ⟨h.queue.setPhase id fun hw => absurd hw id, { h.held with }⟩

theorem Locks.unlock {i : ι} (h : Locks k (some i) s) : Locks k (some i) (s.unlock k i) :=
  ⟨h.queue.unlock, Held.unlock h.queue h.held.toOwned fun _ => h.held⟩

theorem Locks.send {i : ι} (h : Locks k (some i) s) (refused : Bool) (start stop : Int) :
    Locks k none (s.send k i refused start stop) := by
  rw [Server.send]
  split
  · exact h.cleanup
  · exact h.reply _

/-- Taking the lock, with whatever the session goes on with. -/
theorem Unheld.takeLock {i : ι} (h : Unheld (some i) s) (ho : Owned k s) (acquired : Bool)
    {rest : Bool → Server ι → Server ι}
    (hrest : ∀ r s', Locks k (some i) s' → Locks k none (rest r s')) :
    Locks k none (s.takeLock k i acquired rest) := by
  have hq := h.take
  have hex : Owned k { s with locked := true, locking := Function.update s.locking i true } :=
    ⟨ho.exclusive, by simp⟩
  rw [Server.takeLock]
  simp only []
  split
  · next hc => exact hrest _ _ ⟨hq, hex, fun _ _ => hc⟩
  · next hc =>
      split
      · next hw =>
          refine hrest _ _ ⟨hq, hex, fun hwritable _ => ?_⟩
          rw [hwritable] at hw
          cases hw
      · next hw =>
          have hwritable : k.writable = true := by simpa using hw
          split
          · refine hrest _ _ ⟨{ hq with }, ⟨fun _ => hwritable.symm, by simp⟩, fun _ _ => rfl⟩
          · refine ⟨hq.cleanup, Held.cleanup hq hex fun hi => ?_⟩
            have hself : Function.update s.locking i true i = false := hi
            rw [Function.update_self] at hself
            cases hself

theorem Locks.sendTail {i : ι} (h : Locks k (some i) s) (d : Bool) (c : Int) (r : Bool) :
    Locks k none (s.sendTail k i d c r) :=
  h.send _ _ _

theorem Locks.pullOn {i : ι} (h : Locks k (some i) s) (lockBefore d : Bool) (c : Int)
    (acquired : Bool) : Locks k none (s.pullOn k i lockBefore d c acquired) := by
  rw [Server.pullOn, Server.pullLocked]
  split
  · split
    · exact h.cleanup
    · next hi =>
        have hi' := Bool.eq_false_iff.mpr hi
        split
        · next hl =>
            have hl' : s.locked = false := by simpa using hl
            exact (h.queue.unheld hl').takeLock h.held.toOwned acquired
              fun r s' h' => h'.sendTail d c r
        · next hl =>
            have hl' : s.locked = true := by simpa using hl
            exact ⟨h.queue.ask hi' hl' d c, { h.held with }⟩
  · exact h.sendTail d c false

theorem Locks.finishPush {i : ι} (hq : Queue (some i) s) (h : Owned k s) {p : Push}
    (hheld : (p.unlockAfter = true → s.locking i = false) → Held k s) :
    Locks k none (s.finishPush k i p) := by
  rw [Server.finishPush]
  split
  · next hu =>
      have hq' := hq.unlock (k := k)
      have hh' := Held.unlock hq h fun hi => hheld fun _ => hi
      exact Locks.reply (s := { s.unlock k i with pullWaiters := [] })
        ⟨{ hq' with }, { hh' with }⟩ _
  · next hu =>
      have hh' := hheld fun hu' => absurd hu' hu
      exact Locks.reply (s := { s with pullWaiters := [] }) ⟨{ hq with }, { hh' with }⟩ _

theorem Locks.checkpointPush {i : ι} (h : Locks k (some i) s) {p : Push}
    (hw : p.writer.isSome = true → s.locking i = true) (pushedOn : Bool) :
    Locks k none (s.checkpointPush k i p pushedOn) := by
  rw [Server.checkpointPush]
  split
  · exact Locks.finishPush h.queue h.held.toOwned fun _ => h.held
  · next position hsome =>
      have hi : s.locking i = true := hw (by rw [hsome]; rfl)
      split
      · next hc =>
          simp only []
          split
          · refine Locks.finishPush (s := { s with
              checkpoint := max s.checkpoint position
              pushes := s.pushes ++ [⟨i, s.checkpoint, p.received⟩]
              clientLock := !(k.shared && p.unlockAfter) }) { h.queue with } ⟨?_, ?_⟩ ?_
            · intro hs
              show (!(k.shared && p.unlockAfter)) = k.writable
              rw [hs, ← h.held.exclusive hs, hc]
              rfl
            · intro hs hl
              have hl' : s.locked = false := hl
              rw [h.queue.locked_iff.mpr (.inl ⟨i, hi⟩)] at hl'
              cases hl'
            · intro hu
              have hu' : p.unlockAfter = false := by
                cases hb : p.unlockAfter with
                | false => rfl
                | true =>
                    have hfree : s.locking i = false := hu hb
                    rw [hi] at hfree
                    cases hfree
              have hkept : (!(k.shared && p.unlockAfter)) = s.clientLock := by
                rw [hu', hc, Bool.and_false]
                rfl
              simp only [hkept]
              exact { h.held with }
          · exact Locks.cleanup (s := { s with
              checkpoint := max s.checkpoint position
              pushes := s.pushes ++ [⟨i, s.checkpoint, p.received⟩] })
              ⟨{ h.queue with }, { h.held with }⟩
      · exact Locks.finishPush h.queue h.held.toOwned fun _ => h.held

omit [DecidableEq ι] in
/-- A push that writes is one of the session that has the lock. -/
theorem newPush_locking {i : ι} {start stop : Int} {u : Bool}
    (hw : (s.newPush k i start stop u).writer.isSome = true) : s.locking i = true := by
  by_contra hi
  have hi' := Bool.eq_false_iff.mpr hi
  rw [newPush] at hw
  simp [hi'] at hw
  split at hw <;> simp at hw

theorem Locks.beginPush {i : ι} (h : Locks k (some i) s) (start stop : Int) (u : Bool) :
    Locks k none (s.beginPush k i start stop u) := by
  rw [Server.beginPush]
  split
  · exact Locks.finishPush h.queue h.held.toOwned fun _ => h.held
  · exact ⟨h.queue.setPhase id newPush_locking, { h.held with }⟩

theorem Locks.push {i : ι} (h : Locks k (some i) s) (start stop : Int) (u acquired : Bool) :
    Locks k none (s.push k i start stop u acquired) := by
  rw [Server.push]
  split
  · exact h.cleanup
  · split
    · next hl =>
        have hl' : s.locked = false := by simpa using hl
        split
        · exact h.cleanup
        · exact (h.queue.unheld hl').takeLock h.held.toOwned acquired
            fun _ s' h' => h'.beginPush start stop u
    · exact h.beginPush start stop u

omit [DecidableEq ι] in
theorem Locks.writePayload (h : Locks k a s) (p : Push) (bytes : Bytes) :
    Locks k a (s.writePayload p bytes) ∧ (s.writePayload p bytes).locking = s.locking := by
  rw [Server.writePayload]
  split
  · exact ⟨h, rfl⟩
  · exact ⟨⟨{ h.queue with }, { h.held with }⟩, rfl⟩

theorem Locks.receive {i : ι} (h : Locks k (some i) s) {p : Push}
    (hw : p.writer.isSome = true → s.locking i = true) (bytes : Bytes) (pushedOn : Bool) :
    Locks k none (s.receive k i p bytes pushedOn) := by
  obtain ⟨h', hlocking⟩ := h.writePayload p bytes
  have hw' : (p.grow bytes).writer.isSome = true →
      (s.writePayload p bytes).locking i = true := by
    intro hsome
    rw [Push.grow, Option.isSome_map] at hsome
    rw [hlocking]
    exact hw hsome
  rw [Server.receive]
  split
  · exact h'.checkpointPush hw' pushedOn
  · exact ⟨h'.queue.setPhase id hw', { h'.held with }⟩

theorem Locks.pull {i : ι} (h : Locks k (some i) s) (lockBefore d wait : Bool) (c : Int)
    (acquired : Bool) : Locks k none (s.pull k i lockBefore d wait c acquired) := by
  rw [Server.pull]
  split
  · have hq := h.queue.setPhase (p := .waitingPull lockBefore d c) id fun hw => absurd hw id
    exact ⟨{ hq with }, { h.held with }⟩
  · exact h.pullOn lockBefore d c acquired

theorem Locks.request {i : ι} (h : Locks k (some i) s) (r : Request) (acquired : Bool) :
    Locks k none (s.request k i r acquired) := by
  cases r with
  | checkHash full start stop hash =>
      rw [Server.request, Server.checkHash]
      split
      · exact h.reply _
      · exact h.reply _
  | read start stop => exact h.send _ _ _
  | pull lockBefore d wait c => exact h.pull lockBefore d wait c acquired
  | unlock => exact h.unlock.reply _
  | push start stop u => exact h.push start stop u acquired
  | quit => exact h.cleanup

/-! ## Events -/

omit [DecidableEq ι] in
/-- A session that waits for its client waits for no lock. -/
theorem Locks.run (h : Locks k none s) {i : ι} (hp : ¬ Phase.WaitsForLock (s.phase i)) :
    Locks k (some i) s :=
  ⟨h.queue.run fun hi => hp ((h.queue.waiting i (by simp)).mp hi), h.held⟩

theorem Locks.timeout (h : Locks k none s) (i : ι) : Locks k none (s.timeout k i) := by
  by_cases hi : s.locking i = true
  case neg =>
    have hi' := Bool.eq_false_iff.mpr hi
    have hsame : s.timeout k i = s := by
      rw [Server.timeout]
      split
      · next p hp =>
          split
          · next hw =>
              have := h.queue.writing i (by simp) (by rw [hp]; exact hw)
              exact absurd this hi
          · exact unlock_of_not s i hi'
      · exact unlock_of_not s i hi'
    rw [hsame]
    exact h
  case pos =>
    have hnot : i ∉ s.lockWaiters := fun hmem => by
      rw [h.queue.free i hmem] at hi
      cases hi
    have hphase : ¬ Phase.WaitsForLock (s.phase i) := fun hw =>
      hnot ((h.queue.waiting i (by simp)).mpr hw)
    have hrun := h.run hphase
    -- after the writer is dropped, the session has nothing to write
    have hend : ∀ s' : Server ι, Locks k (some i) s' → ¬ Phase.WaitsForLock (s'.phase i) →
        ¬ Phase.Writes (s'.phase i) → Locks k none (s'.unlock k i) := by
      intro s' h' hp hw
      have hu := h'.unlock
      have hsame : (s'.unlock k i).phase = s'.phase := by
        rw [Server.unlock]
        split
        · cases s'.lockWaiters <;> rfl
        · rfl
      exact ⟨hu.queue.settle (by rw [hsame]; exact hp)
        (fun hw' => absurd (by rw [hsame] at hw'; exact hw') hw), hu.held⟩
    rw [Server.timeout]
    split
    · next p hp =>
        split
        · have hself :
              (s.setPhase i (.receiving { p with writer := none, status := .timedOut })).phase i
              = .receiving { p with writer := none, status := .timedOut } :=
            Function.update_self ..
          refine hend _ ⟨hrun.queue.withPhase _, { hrun.held with }⟩ ?_ ?_
          · rw [hself]; exact id
          · rw [hself]; simp [Phase.Writes]
        · next hw =>
            refine hend s hrun hphase ?_
            rw [hp]
            exact hw
    · next hp =>
        refine hend s hrun hphase fun hw => ?_
        cases hq : s.phase i with
        | receiving p => exact hp p hq
        | _ => rw [hq] at hw; exact hw

theorem Locks.resume (h : Locks k none s) (i : ι) (acquired : Bool) :
    Locks k none (s.resume k i acquired) := by
  rw [Server.resume]
  split
  · next lockBefore d c hp =>
      have hrun := h.run (i := i) (by rw [hp]; exact id)
      exact Locks.pullOn (s := { s with pullWaiters := s.pullWaiters.erase i })
        ⟨{ hrun.queue with }, { hrun.held with }⟩ lockBefore d c acquired
  · next d c hp =>
      split
      · next hw =>
          have hmem : i ∈ s.lockWaiters :=
            (h.queue.waiting i (by simp)).mpr (by rw [hp]; trivial)
          have hlocked := h.queue.busy (List.ne_nil_of_mem hmem)
          refine (h.queue.serve hmem hw).takeLock ⟨h.held.exclusive, fun hs hl => ?_⟩ acquired
            fun r s' h' => h'.sendTail d c r
          exact h.held.released hs hl
      · exact h
  · exact h

/-- One event of any session. -/
theorem Locks.step (h : Locks k none s) (e : Event ι) : Locks k none (s.step k e) := by
  cases e with
  | connect i =>
      simp only [Server.step]
      split
      · next hp =>
          have hrun := h.run (i := i) (by rw [hp]; exact id)
          exact ⟨hrun.queue.setPhase id fun hw => absurd hw id, { hrun.held with }⟩
      · exact h
  | hello i joedb =>
      simp only [Server.step]
      split
      · next hp =>
          have hrun := h.run (i := i) (by rw [hp]; exact id)
          split
          · exact hrun.reply _
          · exact hrun.cleanup
      · exact h
  | request i r acquired =>
      simp only [Server.step]
      split
      · next hp => exact (h.run (i := i) (by rw [hp]; exact id)).request r acquired
      · exact h
  | payload i bytes pushedOn =>
      simp only [Server.step]
      split
      · next p hp =>
          split
          · refine (h.run (i := i) (by rw [hp]; exact id)).receive (fun hw => ?_) bytes pushedOn
            exact h.queue.writing i (by simp) (by rw [hp]; exact hw)
          · exact h
      · exact h
  | resume i acquired => exact h.resume i acquired
  | written i =>
      simp only [Server.step]
      split
      · next hp =>
          have hrun := h.run (i := i) (by rw [hp]; exact id)
          exact ⟨hrun.queue.setPhase id fun hw => absurd hw id, { hrun.held with }⟩
      · exact h
  | timeout i => exact h.timeout i
  | disconnect i =>
      simp only [Server.step]
      split
      · exact h
      · exact h
      · exact h
      · next hnot hpull hlock =>
          refine (h.run (i := i) fun hw => ?_).cleanup
          cases hp : s.phase i with
          | waitingLock d c => exact hlock d c hp
          | _ => rw [hp] at hw; exact hw

/-- A server and what its sessions do, event by event. -/
def run (k : ServerOptions) (s : Server ι) (es : List (Event ι)) : Server ι :=
  es.foldl (Server.step k) s

omit [DecidableEq ι] in
theorem locks_start (data : Bytes) (checkpoint : Nat) :
    Locks k none (start k data checkpoint : Server ι) where
  queue :=
    { unique := nofun
      locked_iff := by
        refine ⟨nofun, ?_⟩
        rintro (⟨i, hi⟩ | ⟨w, ws, hw, -⟩)
        · cases hi
        · cases hw
      waiting := fun i _ => ⟨nofun, fun h => h.elim⟩
      acting_free := nofun
      nodup := List.nodup_nil
      busy := fun h => absurd rfl h
      free := nofun
      woken := nofun
      order := rfl
      writing := fun i _ h => h.elim }
  held :=
    { exclusive := fun hs => by
        show (k.writable && !k.shared) = k.writable
        rw [hs]
        simp
      released := fun hs _ => by
        show (k.writable && !k.shared) = false
        rw [hs]
        simp
      held := fun _ ⟨i, hi⟩ => nomatch hi }

theorem Locks.runs (h : Locks k none s) (es : List (Event ι)) : Locks k none (s.run k es) := by
  induction es generalizing s with
  | nil => exact h
  | cons e es ih => exact ih (h.step e)

/-- The turn of a session: only the first of the queue is served, when its timer
ends, and it has the lock then or is no more. -/
theorem served_step (h : Locks k none s) (e : Event ι) :
    s.asked <+: (s.step k e).asked ∧
      ((s.step k e).served = s.served ∨
        ∃ i acquired, e = .resume i acquired ∧ s.lockWaiters.head? = some i ∧
          (s.step k e).served = s.served ++ [i] ∧
          ((s.step k e).locking i = true ∨ (s.step k e).phase i = .absent)) := by
  by_cases hpayload : ∃ i bytes b, e = .payload i bytes b
  · obtain ⟨i, bytes, b, rfl⟩ := hpayload
    simp only [Server.step]
    split
    · split
      · next p _ _ =>
          obtain ⟨hserved, hasked, -⟩ := receive_history (k := k) s i p bytes b
          exact ⟨by simp [hasked], .inl hserved⟩
      · exact ⟨List.prefix_refl _, .inl rfl⟩
    · exact ⟨List.prefix_refl _, .inl rfl⟩
  · by_cases hresume : ∃ i b d c, e = .resume i b ∧ s.phase i = .waitingLock d c
    · obtain ⟨i, b, d, c, rfl, hp⟩ := hresume
      simp only [Server.step, Server.resume, hp]
      split
      · next hw =>
          have hmem : i ∈ s.lockWaiters :=
            (h.queue.waiting i (by simp)).mpr (by rw [hp]; trivial)
          have hframe := frame_turn (k := k) s i b d c
          exact ⟨hframe.asked, .inr ⟨i, b, rfl, (h.queue.woken i hmem hw).1, hframe.served,
            takeLock_cases _ i b d c⟩⟩
      · exact ⟨List.prefix_refl _, .inl rfl⟩
    · have hframe := frame_step (k := k) s (e := e) (fun hw hi => h.held.held hw ⟨_, hi⟩)
        (fun i bytes b heq => hpayload ⟨i, bytes, b, heq⟩)
        (fun i b d c heq hp => hresume ⟨i, b, d, c, heq, hp⟩)
      exact ⟨hframe.asked, .inl hframe.served⟩

/-- Mutual exclusion and hand-off, between any two events of any run. -/
theorem lock_handOff (data : Bytes) (checkpoint : Nat) (es : List (Event ι)) :
    let s := (start k data checkpoint).run k es
    (∀ i j, s.locking i = true → s.locking j = true → i = j) ∧
    (s.locked = false ↔ (∀ i, s.locking i = false) ∧ ¬ s.Handoff) ∧
    (s.asked = s.served ++ s.lockWaiters ∧ s.lockWaiters.Nodup ∧
      (∀ i, i ∈ s.lockWaiters ↔ Phase.WaitsForLock (s.phase i)) ∧
      (s.lockWaiters ≠ [] → s.locked = true) ∧
      ∀ i ∈ s.lockWaiters, s.woken i = true →
        s.lockWaiters.head? = some i ∧ ∀ j, s.locking j = false) ∧
    (k.writable = true → (∃ i, s.locking i = true) → s.clientLock = true) ∧
    (k.shared = true → (∀ i, s.locking i = false) → s.lockWaiters = [] →
      s.clientLock = false) ∧
    ∀ e, s.asked <+: (s.step k e).asked ∧
      ((s.step k e).served = s.served ∨
        ∃ i acquired, e = .resume i acquired ∧ s.lockWaiters.head? = some i ∧
          (s.step k e).served = s.served ++ [i] ∧
          ((s.step k e).locking i = true ∨ (s.step k e).phase i = .absent)) := by
  intro s
  have h : Locks k none s := (locks_start data checkpoint).runs es
  have hfree : s.locked = false ↔ (∀ i, s.locking i = false) ∧ ¬ s.Handoff := by
    rw [← Bool.not_eq_true, h.queue.locked_iff, not_or, not_exists]
    simp only [Bool.not_eq_true]
  refine ⟨h.queue.unique, hfree,
    ⟨h.queue.order, h.queue.nodup, fun i => h.queue.waiting i (by simp),
    h.queue.busy, h.queue.woken⟩, h.held.held, fun hs hnobody hnil => ?_, served_step h⟩
  refine h.held.released hs (hfree.mpr ⟨hnobody, ?_⟩)
  rintro ⟨w, ws, hcons, -⟩
  rw [hnil] at hcons
  cases hcons

end

end Joedb.Server
