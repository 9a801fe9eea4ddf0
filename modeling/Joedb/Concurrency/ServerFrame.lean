import Joedb.Concurrency.Server

/-!
# What a session leaves alone

Most of what a session does concerns the lock, the queues and itself. The
journal is touched by the payload of a push only, a session leaves the queue of
the lock only where it is resumed, and no session moves another.

What a session comes to is stated with it: a phase that is `Fine`, of which what
it holds is right, and that is about what was asked.
-/

namespace Joedb.Server

open ByteFile

variable {ι : Type}

/-- A push that writes has written what it received, behind the checkpoint. -/
structure Writing (s : Server ι) (p : Push) (position : Nat) : Prop where
  accepted : p.status = .accepted
  start : p.start = s.checkpoint
  position_eq : position = s.checkpoint + p.received.length
  remaining : (p.received.length : Int) + p.remaining = p.stop - p.start
  written : slice s.data s.checkpoint position = p.received

/-- What the phase of session `i` holds is right: a push that was accepted is
written, a reply of bytes is of bytes below the checkpoint, a hash that matches
is of the range that was asked for, and that is below it too, and a push that is
acknowledged was done. -/
def Phase.Fine (k : ServerOptions) (s : Server ι) (i : ι) : Phase → Prop
  | .receiving p => (p.status = .accepted → p.writer.isSome = true) ∧
      ∀ position, p.writer = some position → k.writable = true ∧ Writing s p position
  | .replying (.data _ start stop bytes) =>
      stop ≤ s.checkpoint ∧ bytes = slice s.data start.toNat stop.toNat
  | .replying (.hash full start stop hash matching) => matching = true →
      0 ≤ start ∧ start ≤ stop ∧ stop ≤ s.checkpoint ∧
        hash = k.hash full (slice s.data start.toNat stop.toNat)
  | .replying (.handshake checkpoint _) => checkpoint ≤ s.checkpoint
  | .replying (.pushed start stop .accepted) => start < stop →
      ∃ q ∈ s.pushes, q.session = i ∧ q.start = start ∧ q.payload.length = stop - start
  | _ => True

/-- Only the journal counts for it. -/
theorem Phase.Fine.congr {k : ServerOptions} {s s' : Server ι} {i : ι} {p : Phase}
    (h : Phase.Fine k s i p) (hd : s'.data = s.data) (hc : s'.checkpoint = s.checkpoint)
    (hpushes : s'.pushes = s.pushes) : Phase.Fine k s' i p := by
  cases p with
  | receiving p =>
      refine ⟨h.1, fun position hsome => ?_⟩
      obtain ⟨hwritable, hw⟩ := h.2 position hsome
      refine ⟨hwritable, hw.accepted, ?_, ?_, hw.remaining, ?_⟩
      · rw [hc]; exact hw.start
      · rw [hc]; exact hw.position_eq
      · rw [hd, hc]; exact hw.written
  | replying r =>
      cases r with
      | data refused start stop bytes => simpa only [Fine, hd, hc] using h
      | hash full start stop hash matching => simpa only [Fine, hd, hc] using h
      | handshake checkpoint writable => simpa only [Fine, hc] using h
      | pushed start stop status =>
          cases status with
          | accepted => simpa only [Fine, hpushes] using h
          | _ => trivial
      | unlocked => trivial
  | _ => trivial

/-- What a session was asked for, where it matters to the one that asked. -/
inductive Topic where
  | other
  | push (start stop : Int)

/-- The phases that are about it. -/
def Topic.Covers : Topic → Phase → Prop
  | _, .absent => True
  | .other, .receiving _ => False
  | .other, _ => True
  | .push start stop, .receiving p => p.start = start ∧ p.stop = stop
  | .push start stop, .replying (.pushed start' stop' _) => start' = start ∧ stop' = stop
  | .push _ _, _ => False

theorem Topic.covers_absent (t : Topic) : t.Covers .absent := by
  cases t <;> trivial

def Request.topic : Request → Topic
  | .push start stop _ => .push start stop
  | _ => .other

/-- Nothing happened to the journal, nobody was served, who asked is remembered,
and only session `i` moved, to a phase about `t`. -/
structure Frame (k : ServerOptions) (i : ι) (t : Topic) (s s' : Server ι) : Prop where
  data : s'.data = s.data
  checkpoint : s'.checkpoint = s.checkpoint
  pushes : s'.pushes = s.pushes
  served : s'.served = s.served
  asked : s.asked <+: s'.asked
  others : ∀ j, j ≠ i → s'.phase j = s.phase j
  own : s'.phase i = s.phase i ∨ Phase.Fine k s i (s'.phase i) ∧ t.Covers (s'.phase i)

variable {k : ServerOptions} {t : Topic}

theorem Frame.of_eq {i : ι} {s s' : Server ι} (hd : s'.data = s.data)
    (hc : s'.checkpoint = s.checkpoint) (hp : s'.pushes = s.pushes)
    (hs : s'.served = s.served) (ha : s'.asked = s.asked) (hphase : s'.phase = s.phase) :
    Frame k i t s s' :=
  ⟨hd, hc, hp, hs, by simp [ha], fun j _ => congrFun hphase j,
    .inl (congrFun hphase i)⟩

theorem Frame.refl {i : ι} (s : Server ι) : Frame k i t s s := .of_eq rfl rfl rfl rfl rfl rfl

theorem Frame.trans {i : ι} {s m s' : Server ι} (h : Frame k i t s m)
    (h' : Frame k i t m s') : Frame k i t s s' := by
  refine ⟨h'.data.trans h.data, h'.checkpoint.trans h.checkpoint, h'.pushes.trans h.pushes,
    h'.served.trans h.served, h.asked.trans h'.asked,
    fun j hj => (h'.others j hj).trans (h.others j hj), ?_⟩
  rcases h'.own with heq | ⟨hfine, hcov⟩
  · rw [heq]
    exact h.own
  · exact .inr ⟨hfine.congr h.data.symm h.checkpoint.symm h.pushes.symm, hcov⟩

variable [DecidableEq ι] (s : Server ι) (i : ι)

/-! ## Giving the lock back -/

theorem unlock_of_not (hi : s.locking i = false) : s.unlock k i = s := by
  rw [unlock, if_neg (by rw [hi]; decide)]

theorem unlock_nil (hi : s.locking i = true) (hnil : s.lockWaiters = []) :
    s.unlock k i = { s with locking := Function.update s.locking i false
                            locked := false
                            clientLock := s.clientLock && !k.shared } := by
  rw [unlock, if_pos hi]
  simp only [hnil]

theorem unlock_cons {w : ι} {ws : List ι} (hi : s.locking i = true)
    (hcons : s.lockWaiters = w :: ws) :
    s.unlock k i = { s with locking := Function.update s.locking i false
                            woken := Function.update s.woken w true } := by
  rw [unlock, if_pos hi]
  simp only [hcons]


/-! ## Frames -/

theorem frame_setPhase {p : Phase} (hp : Phase.Fine k s i p) (ht : t.Covers p) :
    Frame k i t s (s.setPhase i p) := by
  have hself : (s.setPhase i p).phase i = p := Function.update_self ..
  refine ⟨rfl, rfl, rfl, rfl, List.prefix_refl _,
    fun j hj => Function.update_of_ne hj _ _, .inr ?_⟩
  rw [hself]
  exact ⟨hp, ht⟩

theorem frame_unlock : Frame k i t s (s.unlock k i) := by
  by_cases hi : s.locking i = true
  case neg => rw [unlock_of_not s i (Bool.eq_false_iff.mpr hi)]; exact .refl s
  case pos =>
    cases hl : s.lockWaiters with
    | nil => rw [unlock_nil s i hi hl]; exact .of_eq rfl rfl rfl rfl rfl rfl
    | cons w ws => rw [unlock_cons s i hi hl]; exact .of_eq rfl rfl rfl rfl rfl rfl

theorem frame_cleanup : Frame k i t s (s.cleanup k i) := by
  have hphase := (frame_unlock (k := k) (t := t) s i).trans
    (frame_setPhase _ i (p := .absent) trivial t.covers_absent)
  exact { hphase with }

theorem frame_send (refused : Bool) (start : Int) {stop : Int} (hstop : stop ≤ s.checkpoint)
    (ht : ∀ bytes, t.Covers (.replying (.data refused (min start stop) stop bytes))) :
    Frame k i t s (s.send k i refused start stop) := by
  rw [send]
  split
  · exact frame_cleanup s i
  · exact frame_setPhase s i ⟨hstop, rfl⟩ (ht _)

theorem frame_sendTail (d : Bool) (c : Int) (r : Bool) :
    Frame k i .other s (s.sendTail k i d c r) := by
  exact frame_send s i r _ (Int.le_refl _) fun _ => trivial

/-- Taking the lock leaves alone what the rest of the session leaves alone, which
has the client lock where there is one to have. -/
theorem frame_takeLock (acquired : Bool) {rest : Bool → Server ι → Server ι}
    (hrest : ∀ r s', (k.writable = true → s'.clientLock = true) → Frame k i t s' (rest r s')) :
    Frame k i t s (s.takeLock k i acquired rest) := by
  have htaken : Frame k i t s
      { s with locked := true, locking := Function.update s.locking i true } :=
    .of_eq rfl rfl rfl rfl rfl rfl
  rw [takeLock]
  split
  · next hc => exact htaken.trans (hrest _ _ fun _ => hc)
  · split
    · next hw =>
        refine htaken.trans (hrest _ _ fun hwritable => ?_)
        rw [hwritable] at hw
        cases hw
    · split
      · exact Frame.trans (m := { s with
          locked := true, locking := Function.update s.locking i true, clientLock := true })
          (.of_eq rfl rfl rfl rfl rfl rfl) (hrest _ _ fun _ => rfl)
      · exact htaken.trans (frame_cleanup _ i)

theorem frame_pullOn (lockBefore d : Bool) (c : Int) (acquired : Bool) :
    Frame k i .other s (s.pullOn k i lockBefore d c acquired) := by
  rw [pullOn, pullLocked]
  split
  · split
    · exact frame_cleanup s i
    · split
      · exact frame_takeLock s i acquired fun r s' _ => frame_sendTail s' i d c r
      · have hphase := frame_setPhase (k := k) (t := .other) s i (p := .waitingLock d c)
          trivial trivial
        exact { hphase with asked := List.prefix_append _ _ }
  · exact frame_sendTail s i d c false

/-- The end of a push that was not accepted, or for which it was done. -/
theorem frame_finishPush {p : Push}
    (hp : Phase.Fine k s i (.replying (.pushed p.start p.stop p.status))) :
    Frame k i (.push p.start p.stop) s (s.finishPush k i p) := by
  rw [finishPush]
  split
  · have hu := frame_unlock (k := k) (t := .push p.start p.stop) s i
    have hphase := hu.trans (frame_setPhase _ i
      (p := .replying (.pushed p.start p.stop p.status))
      (hp.congr hu.data hu.checkpoint hu.pushes) ⟨rfl, rfl⟩)
    exact { hphase with }
  · have hphase := frame_setPhase (k := k) (t := .push p.start p.stop) s i
      (p := .replying (.pushed p.start p.stop p.status)) hp ⟨rfl, rfl⟩
    exact { hphase with }

/-- The server after a payload that was written. -/
def pushed (i : ι) (p : Push) (position : Nat) : Server ι :=
  { s with checkpoint := max s.checkpoint position
           pushes := s.pushes ++ [⟨i, s.checkpoint, p.received⟩] }

/-- The end of a payload that was written: the checkpoint moves. -/
theorem frame_checkpointPush_some {p : Push} {position : Nat} (hsome : p.writer = some position)
    (hc : s.clientLock = true) (hstart : p.start = s.checkpoint)
    (hlen : (p.received.length : Int) = p.stop - p.start) (pushedOn : Bool) :
    Frame k i (.push p.start p.stop) (s.pushed i p position)
      (s.checkpointPush k i p pushedOn) := by
  rw [checkpointPush]
  simp only [hsome, hc, if_true]
  split
  · refine Frame.trans (m := { s.pushed i p position with
      clientLock := !(k.shared && p.unlockAfter) })
      (.of_eq rfl rfl rfl rfl rfl rfl) (frame_finishPush _ i ?_)
    cases hs : p.status with
    | accepted =>
        exact fun _ => ⟨⟨i, s.checkpoint, p.received⟩,
          List.mem_append_right _ List.mem_cons_self, rfl, hstart.symm, hlen⟩
    | _ => trivial
  · exact Frame.trans (m := s.pushed i p position)
      (.of_eq rfl rfl rfl rfl rfl rfl) (by rw [← hc]; exact frame_cleanup _ i)

/-- The end of a payload that was thrown away. -/
theorem frame_checkpointPush_none {p : Push} (hnone : p.writer = none)
    (hs : p.status ≠ .accepted) (pushedOn : Bool) :
    Frame k i (.push p.start p.stop) s (s.checkpointPush k i p pushedOn) := by
  rw [checkpointPush]
  simp only [hnone]
  refine frame_finishPush s i ?_
  cases hstatus : p.status with
  | accepted => exact absurd hstatus hs
  | _ => trivial

omit [DecidableEq ι] in
theorem newPush_accepted {start stop : Int} {u : Bool}
    (hstatus : (s.newPush k i start stop u).status = .accepted) :
    k.writable = true ∧ s.locking i = true ∧ start = s.checkpoint := by
  refine ⟨?_, ?_, ?_⟩
  · by_contra hnot
    rw [newPush] at hstatus
    simp [Bool.eq_false_iff.mpr hnot] at hstatus
  · by_contra hnot
    rw [newPush] at hstatus
    simp [Bool.eq_false_iff.mpr hnot] at hstatus
    split at hstatus <;> cases hstatus
  · by_contra hconflict
    rw [newPush] at hstatus
    simp [hconflict] at hstatus
    split at hstatus <;> cases hstatus

omit [DecidableEq ι] in
/-- A push that is accepted starts at the checkpoint, with nothing received. -/
theorem newPush_fine (hc : k.writable = true → s.locking i = true → s.clientLock = true)
    {start stop : Int} {u : Bool} (hne : (s.newPush k i start stop u).remaining ≠ 0) :
    Phase.Fine k s i (.receiving (s.newPush k i start stop u)) := by
  have hrem : (s.newPush k i start stop u).remaining = (stop - start).toNat := rfl
  have hwriter : (s.newPush k i start stop u).writer
      = if (s.newPush k i start stop u).status = .accepted ∧ s.clientLock = true
        then some s.checkpoint else none := rfl
  rw [hrem] at hne
  refine ⟨fun hstatus => ?_, fun position hsome => ?_⟩
  · obtain ⟨hwritable, hlocking, -⟩ := newPush_accepted s i hstatus
    rw [hwriter, if_pos ⟨hstatus, hc hwritable hlocking⟩]
    rfl
  · rw [hwriter] at hsome
    split at hsome
    · next hx =>
        obtain rfl := Option.some.inj hsome
        obtain ⟨hwritable, -, hstart⟩ := newPush_accepted s i hx.1
        refine ⟨hwritable, hx.1, hstart, rfl, ?_, slice_self _ _⟩
        rw [hrem]
        show ((0 : Nat) : Int) + (stop - start).toNat = stop - start
        omega
    · cases hsome

theorem frame_beginPush (hc : k.writable = true → s.locking i = true → s.clientLock = true)
    (start stop : Int) (u : Bool) :
    Frame k i (.push start stop) s (s.beginPush k i start stop u) := by
  rw [beginPush]
  split
  · next hzero =>
      have hzero' : (stop - start).toNat = 0 := hzero
      refine frame_finishPush s i (p := s.newPush k i start stop u) ?_
      cases hs : (s.newPush k i start stop u).status with
      | accepted =>
          intro hlt
          have hlt' : start < stop := hlt
          omega
      | _ => trivial
  · next hne => exact frame_setPhase s i (newPush_fine s i hc hne) ⟨rfl, rfl⟩

theorem frame_checkHash (full : Bool) (start stop : Int) (hash : Bytes) :
    Frame k i .other s (s.checkHash k i full start stop hash) := by
  rw [checkHash]
  split
  · exact frame_setPhase s i nofun trivial
  · next hrange =>
      refine frame_setPhase s i (fun hmatch => ?_) trivial
      exact ⟨by omega, by omega, by omega, of_decide_eq_true hmatch⟩

theorem frame_request (hc : k.writable = true → s.locking i = true → s.clientLock = true)
    (r : Request) (acquired : Bool) :
    Frame k i (Request.topic r) s (s.request k i r acquired) := by
  cases r with
  | checkHash full start stop hash => exact frame_checkHash s i full start stop hash
  | read start stop => exact frame_send s i _ _ (by omega) fun _ => trivial
  | pull lockBefore d wait c =>
      rw [request, pull]
      split
      · have hphase := frame_setPhase (k := k) (t := .other) s i
          (p := .waitingPull lockBefore d c) trivial trivial
        exact { hphase with }
      · exact frame_pullOn s i lockBefore d c acquired
  | unlock =>
      exact (frame_unlock s i).trans
        (frame_setPhase _ i (p := .replying .unlocked) trivial trivial)
  | push start stop u =>
      rw [request, push]
      split
      · exact frame_cleanup s i
      · split
        · split
          · exact frame_cleanup s i
          · exact frame_takeLock s i acquired fun _ s' hs' =>
              frame_beginPush s' i (fun hw _ => hs' hw) start stop u
        · exact frame_beginPush s i hc start stop u
  | quit => exact frame_cleanup s i

/-- A timeout leaves a session about what it was asked for. -/
theorem frame_timeout (ht : t.Covers (s.phase i) ∨ ∀ p, s.phase i ≠ .receiving p) :
    Frame k i t s (s.timeout k i) := by
  rw [timeout]
  split
  · next p hp =>
      split
      · refine Frame.trans (m := s.setPhase i
          (.receiving { p with writer := none, status := .timedOut }))
          (frame_setPhase s i ⟨nofun, fun _ hsome => nomatch hsome⟩ ?_) (frame_unlock _ i)
        rcases ht with hcov | hnot
        · rw [hp] at hcov
          cases t with
          | other => exact hcov
          | push start stop => exact hcov
        · exact absurd hp (hnot p)
      · exact frame_unlock s i
  · exact frame_unlock s i

/-- A session that goes on with the lock keeps it, or ends. -/
theorem takeLock_cases (acquired d : Bool) (c : Int) :
    let s' := s.takeLock k i acquired fun refused s => s.sendTail k i d c refused
    s'.locking i = true ∨ s'.phase i = .absent := by
  have hreader : ∀ (s : Server ι) (r : Bool) (x y : Int), s.locking i = true →
      (s.send k i r x y).locking i = true ∨ (s.send k i r x y).phase i = .absent := by
    intro s r x y hi
    rw [send]
    split
    · exact .inr (Function.update_self ..)
    · exact .inl hi
  have hsend : ∀ (s : Server ι) (r : Bool), s.locking i = true →
      (s.sendTail k i d c r).locking i = true ∨ (s.sendTail k i d c r).phase i = .absent :=
    fun s r hi => hreader s r _ _ hi
  have hself : Function.update s.locking i true i = true := Function.update_self ..
  intro s'
  show (s.takeLock k i acquired _).locking i = true ∨ (s.takeLock k i acquired _).phase i = .absent
  rw [takeLock]
  split
  · exact hsend _ _ hself
  · split
    · exact hsend _ _ hself
    · split
      · exact hsend _ _ hself
      · exact .inr (Function.update_self ..)

/-- The server when a session that waited for the lock has its turn. -/
def served_ : Server ι :=
  { s with lockWaiters := s.lockWaiters.tail
           served := s.served ++ [i]
           woken := Function.update s.woken i false }

/-- The turn of a session that waited for the lock: the journal is left alone. -/
theorem frame_turn (acquired d : Bool) (c : Int) :
    Frame k i .other (s.served_ i)
      ((s.served_ i).takeLock k i acquired fun refused s => s.sendTail k i d c refused) :=
  frame_takeLock _ i acquired fun r s' _ => frame_sendTail s' i d c r

/-! ## Payloads -/

omit [DecidableEq ι] in
theorem served_writePayload (p : Push) (bytes : Bytes) :
    (s.writePayload p bytes).served = s.served ∧ (s.writePayload p bytes).asked = s.asked ∧
      (s.writePayload p bytes).phase = s.phase := by
  rw [writePayload]
  split
  · exact ⟨rfl, rfl, rfl⟩
  · exact ⟨rfl, rfl, rfl⟩

omit [DecidableEq ι] in
theorem unlock_history [DecidableEq ι] :
    (s.unlock k i).served = s.served ∧ (s.unlock k i).asked = s.asked ∧
      (s.unlock k i).phase = s.phase := by
  by_cases hi : s.locking i = true
  case neg => rw [unlock_of_not s i (Bool.eq_false_iff.mpr hi)]; exact ⟨rfl, rfl, rfl⟩
  case pos =>
    cases hl : s.lockWaiters with
    | nil => rw [unlock_nil s i hi hl]; exact ⟨rfl, rfl, rfl⟩
    | cons w ws => rw [unlock_cons s i hi hl]; exact ⟨rfl, rfl, rfl⟩

/-- Where the payload of a push takes its session, and that it serves nobody. -/
theorem receive_history (p : Push) (bytes : Bytes) (pushedOn : Bool) :
    (s.receive k i p bytes pushedOn).served = s.served ∧
      (s.receive k i p bytes pushedOn).asked = s.asked ∧
      ∀ j, j ≠ i → (s.receive k i p bytes pushedOn).phase j = s.phase j := by
  have hclean : ∀ s' : Server ι, (s'.cleanup k i).served = s'.served ∧
      (s'.cleanup k i).asked = s'.asked ∧ ∀ j, j ≠ i → (s'.cleanup k i).phase j = s'.phase j := by
    intro s'
    obtain ⟨hserved, hasked, hphase⟩ := unlock_history (k := k) s' i
    refine ⟨hserved, hasked, fun j hj => ?_⟩
    show Function.update (s'.unlock k i).phase i .absent j = _
    rw [Function.update_of_ne hj, hphase]
  have hfinish : ∀ (s' : Server ι) (p : Push), (s'.finishPush k i p).served = s'.served ∧
      (s'.finishPush k i p).asked = s'.asked ∧
      ∀ j, j ≠ i → (s'.finishPush k i p).phase j = s'.phase j := by
    intro s' p
    obtain ⟨hserved, hasked, hphase⟩ := unlock_history (k := k) s' i
    rw [finishPush]
    split
    · refine ⟨hserved, hasked, fun j hj => ?_⟩
      show Function.update (s'.unlock k i).phase i _ j = _
      rw [Function.update_of_ne hj, hphase]
    · exact ⟨rfl, rfl, fun j hj => Function.update_of_ne hj _ _⟩
  obtain ⟨hserved, hasked, hphase⟩ := served_writePayload s p bytes
  rw [← hserved, ← hasked, ← hphase, receive]
  split
  · rw [checkpointPush]
    split
    · exact hfinish _ _
    · split
      · simp only []
        split
        · exact hfinish _ _
        · exact hclean _
      · exact hfinish _ _
  · exact ⟨rfl, rfl, fun j hj => Function.update_of_ne hj _ _⟩

/-! ## Events -/

/-- The session of an event. -/
def Event.session : Event ι → ι
  | .connect i => i
  | .hello i _ => i
  | .request i _ _ => i
  | .payload i _ _ => i
  | .resume i _ => i
  | .written i => i
  | .timeout i => i
  | .disconnect i => i

/-- What an event asks a session for, or what it was about that times out. -/
def Event.topic (s : Server ι) : Event ι → Topic
  | .request _ r _ => Request.topic r
  | .timeout i =>
      match s.phase i with
      | .receiving p => .push p.start p.stop
      | _ => .other
  | _ => .other

/-- What an event does that is neither the payload of a push nor the turn of a
session that waited for the lock. -/
theorem frame_step {e : Event ι}
    (hc : k.writable = true → s.locking e.session = true → s.clientLock = true)
    (hpayload : ∀ i bytes b, e ≠ .payload i bytes b)
    (hresume : ∀ i b d c, e = .resume i b → s.phase i ≠ .waitingLock d c) :
    Frame k e.session (e.topic s) s (s.step k e) := by
  cases e with
  | connect i =>
      simp only [step]
      split
      · exact frame_setPhase s i trivial trivial
      · exact .refl s
  | hello i joedb =>
      simp only [step]
      split
      · split
        · exact frame_setPhase s i (p := .replying (.handshake _ _)) (Nat.le_refl _) trivial
        · exact frame_cleanup s i
      · exact .refl s
  | request i r acquired =>
      simp only [step]
      split
      · exact frame_request s i hc r acquired
      · exact .refl s
  | payload i bytes b => exact absurd rfl (hpayload i bytes b)
  | resume i acquired =>
      cases hp : s.phase i with
      | waitingPull l d c =>
          simp only [step, resume, hp]
          exact Frame.trans (m := { s with pullWaiters := s.pullWaiters.erase i })
            (.of_eq rfl rfl rfl rfl rfl rfl) (frame_pullOn _ i l d c acquired)
      | waitingLock d c => exact absurd hp (hresume i acquired d c rfl)
      | _ =>
          simp only [step, resume, hp]
          exact .refl s
  | written i =>
      simp only [step]
      split
      · exact frame_setPhase s i trivial trivial
      · exact .refl s
  | timeout i =>
      refine frame_timeout s i ?_
      simp only [Event.topic]
      split
      · next p hp => rw [hp]; exact .inl ⟨rfl, rfl⟩
      · next hnot => exact .inr hnot
  | disconnect i =>
      simp only [step]
      split
      · exact .refl s
      · exact .refl s
      · exact .refl s
      · exact frame_cleanup s i

end Joedb.Server
