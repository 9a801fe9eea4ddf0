import Joedb.Concurrency.ServerLock

/-!
# The journal of the server

The journal below the checkpoint is what it was at the start, and behind it the
payloads of the pushes, one after the other. A push that is being received
writes behind the checkpoint, and it is the only one that does: it began with
the lock, at the checkpoint, and it writes no more once the lock is gone.
-/

namespace Joedb.Server

open ByteFile

variable {ι : Type}

/-- Where the pushes lie: each begins where the one before it ended. -/
def Tiled (start : Nat) : List (Pushed ι) → Nat → Prop
  | [], stop => start = stop
  | p :: ps, stop => p.start = start ∧ Tiled (start + p.payload.length) ps stop

theorem Tiled.snoc {start stop : Nat} {ps : List (Pushed ι)} (h : Tiled start ps stop)
    {p : Pushed ι} (hp : p.start = stop) : Tiled start (ps ++ [p]) (stop + p.payload.length) := by
  induction ps generalizing start with
  | nil =>
      obtain rfl : start = stop := h
      exact ⟨hp, rfl⟩
  | cons q qs ih => exact ⟨h.1, ih h.2⟩

/-- The bytes of the pushes. -/
def payloads (ps : List (Pushed ι)) : Bytes := (ps.map Pushed.payload).flatten

structure Journaled (k : ServerOptions) (data : Bytes) (checkpoint : Nat) (s : Server ι) :
    Prop where
  size : s.checkpoint ≤ s.data.length
  content : s.data.take s.checkpoint = data.take checkpoint ++ payloads s.pushes
  tiled : Tiled checkpoint s.pushes s.checkpoint
  fine : ∀ i, Phase.Fine k s i (s.phase i)

section

variable {k : ServerOptions} {t : Topic} {data : Bytes} {checkpoint : Nat} {s s' : Server ι}

theorem Journaled.frame {i : ι} {t : Topic} (h : Journaled k data checkpoint s)
    (hf : Frame k i t s s') : Journaled k data checkpoint s' where
  size := by rw [hf.checkpoint, hf.data]; exact h.size
  content := by rw [hf.checkpoint, hf.data, hf.pushes]; exact h.content
  tiled := by rw [hf.checkpoint, hf.pushes]; exact h.tiled
  fine j := by
    have hsame : s'.phase j = s.phase j → Phase.Fine k s' j (s'.phase j) := fun heq => by
      rw [heq]
      exact (h.fine j).congr hf.data hf.checkpoint hf.pushes
    by_cases hj : j = i
    · subst hj
      rcases hf.own with heq | ⟨hfine, -⟩
      · exact hsame heq
      · exact hfine.congr hf.data hf.checkpoint hf.pushes
    · exact hsame (hf.others j hj)

/-- A phase that writes nothing stays right when the journal grows. -/
theorem Phase.Fine.grow {i : ι} {p : Phase} (h : Phase.Fine k s i p) (hw : ¬ Phase.Writes p)
    (hcp : s.checkpoint ≤ s'.checkpoint)
    (hdata : s'.data.take s.checkpoint = s.data.take s.checkpoint)
    (hpushes : s.pushes <+: s'.pushes) : Phase.Fine k s' i p := by
  cases p with
  | receiving p =>
      refine ⟨h.1, fun position hsome => ?_⟩
      exact absurd (show p.writer.isSome = true by rw [hsome]; rfl) hw
  | replying r =>
      cases r with
      | data refused start stop bytes =>
          obtain ⟨hstop, rfl⟩ := h
          have hb : stop.toNat ≤ s.checkpoint := by omega
          exact ⟨by omega, (slice_of_take hdata hb).symm⟩
      | hash full start stop hash matching =>
          intro hmatch
          obtain ⟨hstart, hle, hstop, rfl⟩ := h hmatch
          have hb : stop.toNat ≤ s.checkpoint := by omega
          exact ⟨hstart, hle, by omega, by rw [slice_of_take hdata hb]⟩
      | handshake checkpoint writable => exact Nat.le_trans h hcp
      | pushed start stop status =>
          cases status with
          | accepted =>
              intro hlt
              obtain ⟨q, hq, hrest⟩ := h hlt
              exact ⟨q, hpushes.subset hq, hrest⟩
          | _ => trivial
      | unlocked => trivial
  | _ => trivial

/-- What an event does to the journal: nothing below the checkpoint, and a new
checkpoint only at the end of a payload. -/
structure Grows (s : Server ι) (e : Event ι) (s' : Server ι) : Prop where
  kept : s'.data.take s.checkpoint = s.data.take s.checkpoint
  pushes : (s'.checkpoint = s.checkpoint ∧ s'.pushes = s.pushes) ∨
    ∃ i bytes pushedOn p, e = .payload i bytes pushedOn ∧ s.phase i = .receiving p ∧
      s.locking i = true ∧ p.status = .accepted ∧ p.start = s.checkpoint ∧
      p.stop = s'.checkpoint ∧ s.checkpoint < s'.checkpoint ∧
      slice s'.data s.checkpoint s'.checkpoint = p.received ++ bytes ∧
      s'.pushes = s.pushes ++ [⟨i, s.checkpoint, p.received ++ bytes⟩]

theorem grows_of_frame {i : ι} {t : Topic} {e : Event ι} (hf : Frame k i t s s') : Grows s e s' :=
  ⟨by rw [hf.data], .inl ⟨hf.checkpoint, hf.pushes⟩⟩

theorem Writing.le_length {p : Push} {position : Nat} (h : Writing s p position)
    (hsize : s.checkpoint ≤ s.data.length) : position ≤ s.data.length := by
  have hl := congrArg List.length h.written
  have hpos := h.position_eq
  rw [length_slice] at hl
  rcases Nat.eq_zero_or_pos p.received.length with hz | hz
  · omega
  · omega

/-- Bytes of a payload that is written. -/
theorem Writing.grow {p : Push} {position : Nat} (h : Writing s p position)
    (hsize : s.checkpoint ≤ s.data.length) {bytes : Bytes} (hlen : bytes.length ≤ p.remaining) :
    let s' := { s with data := pwrite s.data position bytes }
    s'.data.take s.checkpoint = s.data.take s.checkpoint ∧
      position + bytes.length ≤ s'.data.length ∧
      Writing s' (p.grow bytes) (position + bytes.length) := by
  have hpos := h.position_eq
  have hposition := h.le_length hsize
  have hrem := h.remaining
  refine ⟨take_pwrite hposition (by omega) bytes, ?_, h.accepted, h.start, ?_, ?_, ?_⟩
  · show position + bytes.length ≤ (pwrite s.data position bytes).length
    rw [length_pwrite]
    omega
  · show position + bytes.length = s.checkpoint + (p.received ++ bytes).length
    rw [List.length_append]
    omega
  · show ((p.received ++ bytes).length : Int) + (p.remaining - bytes.length : Nat) = _
    rw [List.length_append]
    show _ = p.stop - p.start
    omega
  · show slice (pwrite s.data position bytes) s.checkpoint (position + bytes.length) = _
    rw [← slice_append (show s.checkpoint ≤ position by omega) (Nat.le_add_right _ _),
      slice_pwrite_self hposition, slice_pwrite_of_disjoint hposition (.inl (Nat.le_refl _)),
      h.written]
    rfl

variable [DecidableEq ι]

/-- A whole payload ends in a reply, or in the end of its session. -/
theorem checkpointPush_phase (s : Server ι) (i : ι) (p : Push) (b : Bool) :
    (s.checkpointPush k i p b).phase i = .replying (.pushed p.start p.stop p.status) ∨
      (s.checkpointPush k i p b).phase i = .absent := by
  have hfinish : ∀ s : Server ι,
      (s.finishPush k i p).phase i = .replying (.pushed p.start p.stop p.status) :=
    fun s => Function.update_self ..
  rw [checkpointPush]
  split
  · exact .inl (hfinish s)
  · split
    · simp only []
      split
      · exact .inl (hfinish _)
      · exact .inr (Function.update_self ..)
    · exact .inl (hfinish s)

/-- A payload that is thrown away. -/
theorem frame_receive_none {i : ι} {p : Push} (hnone : p.writer = none)
    (hs : p.status ≠ .accepted) (bytes : Bytes) (b : Bool) :
    Frame k i (.push p.start p.stop) s (s.receive k i p bytes b) := by
  have hgrow : (p.grow bytes).writer = none := by rw [Push.grow, hnone]; rfl
  have hsame : s.writePayload p bytes = s := by rw [writePayload, hnone]
  rw [Server.receive, hsame]
  split
  · exact frame_checkpointPush_none s i (p := p.grow bytes) hgrow hs b
  · refine frame_setPhase s i ⟨fun hacc => absurd hacc hs, fun position hx => ?_⟩ ⟨rfl, rfl⟩
    rw [hgrow] at hx
    cases hx

omit [DecidableEq ι] in
/-- The whole of a payload that was written: it is behind the checkpoint, up to
where the push said it would stop. -/
theorem Writing.stop {p : Push} {position : Nat} (h : Writing s p position)
    (hzero : p.remaining = 0) :
    p.stop = position ∧ (p.received.length : Int) = p.stop - p.start := by
  have hrem := h.remaining
  have hat := h.position_eq
  have hstart := h.start
  rw [hzero] at hrem
  omega

/-- The server when a whole payload moved the checkpoint. -/
theorem Journaled.pushed (h : Journaled k data checkpoint s) {i : ι} {p : Push} {position : Nat}
    (hw : Writing s p position) (hsize : position ≤ s.data.length)
    (hothers : ∀ j, j ≠ i → ¬ Phase.Writes (s.phase j))
    (hf : Frame k i t (s.pushed i p position) s') (hi : Phase.Fine k s' i (s'.phase i)) :
    Journaled k data checkpoint s' := by
  have hposition := hw.position_eq
  have hmax : max s.checkpoint position = position := by omega
  have hcp : s'.checkpoint = position := hf.checkpoint.trans hmax
  have hdata : s'.data = s.data := hf.data
  have hpushes : s'.pushes = s.pushes ++ [⟨i, s.checkpoint, p.received⟩] := hf.pushes
  refine ⟨by rw [hcp, hdata]; exact hsize, ?_, ?_, fun j => ?_⟩
  · have hsplit := slice_append (f := s.data) (Nat.zero_le s.checkpoint)
      (show s.checkpoint ≤ position by omega)
    rw [hw.written] at hsplit
    have hzero : ∀ (f : Bytes) n, slice f 0 n = f.take n := fun f n => rfl
    rw [hzero, hzero, h.content] at hsplit
    rw [hcp, hdata, hpushes, ← hsplit, payloads, payloads, List.map_append, List.flatten_append,
      List.append_assoc]
    simp
  · rw [hcp, hpushes, hposition]
    exact h.tiled.snoc rfl
  · by_cases hj : j = i
    · rw [hj]
      exact hi
    · rw [hf.others j hj]
      refine (h.fine j).grow (hothers j hj) ?_ (by rw [hdata]) ?_
      · rw [hcp]
        omega
      · rw [hpushes]
        exact List.prefix_append _ _

/-- The payload of a push. -/
theorem Journaled.receive (h : Journaled k data checkpoint s) (hl : Locks k none s) {i : ι}
    {p : Push} (hp : s.phase i = .receiving p) {bytes : Bytes} (hpos : 0 < bytes.length)
    (hlen : bytes.length ≤ p.remaining) (b : Bool) :
    Journaled k data checkpoint (s.receive k i p bytes b) ∧
      Grows s (.payload i bytes b) (s.receive k i p bytes b) := by
  have hfine := h.fine i
  rw [hp] at hfine
  cases hsome : p.writer with
  | none =>
      have hs : p.status ≠ .accepted := fun hacc => by
        have hwriter := hfine.1 hacc
        rw [hsome] at hwriter
        cases hwriter
      have hf := frame_receive_none (k := k) (s := s) (i := i) hsome hs bytes b
      exact ⟨h.frame hf, grows_of_frame hf⟩
  | some position =>
      obtain ⟨hwritable, hw⟩ := hfine.2 position hsome
      have hlocking : s.locking i = true :=
        hl.queue.writing i nofun (by rw [hp]; show p.writer.isSome = true; rw [hsome]; rfl)
      have hclient := hl.held.held hwritable ⟨i, hlocking⟩
      have hothers : ∀ j, j ≠ i → ¬ Phase.Writes (s.phase j) := fun j hj hwj =>
        hj (hl.queue.unique j i (hl.queue.writing j nofun hwj) hlocking)
      obtain ⟨hkept, hsize, hw'⟩ := hw.grow h.size hlen
      have hwrite : s.writePayload p bytes = { s with data := pwrite s.data position bytes } := by
        rw [writePayload, hsome]
      have hgrow : (p.grow bytes).writer = some (position + bytes.length) := by
        rw [Push.grow, hsome]
        rfl
      have hposition := hw.position_eq
      -- the session itself still waits for what it waited for
      have hgrown : Journaled k data checkpoint
          ({ s with data := pwrite s.data position bytes } : Server ι) := by
        have hlast : s.checkpoint ≤ position + bytes.length := by omega
        refine ⟨Nat.le_trans hlast hsize, hkept.trans h.content, h.tiled, fun j => ?_⟩
        by_cases hj : j = i
        · show Phase.Fine k _ j (s.phase j)
          rw [hj, hp]
          refine ⟨hfine.1, fun position' hx => ⟨hwritable, ?_⟩⟩
          rw [hsome] at hx
          obtain rfl := Option.some.inj hx
          refine ⟨hw.accepted, hw.start, hw.position_eq, hw.remaining, ?_⟩
          exact (slice_pwrite_of_disjoint (hw.le_length h.size) (.inl (Nat.le_refl _))).trans
            hw.written
        · exact (h.fine j).grow (hothers j hj) (Nat.le_refl _) hkept (List.prefix_refl _)
      rw [Server.receive, hwrite]
      split
      · next hzero =>
          obtain ⟨hstop, hreceived⟩ := hw'.stop hzero
          have hf := frame_checkpointPush_some (k := k)
            { s with data := pwrite s.data position bytes } i hgrow hclient hw'.start hreceived b
          have hi : Phase.Fine k
              (({ s with data := pwrite s.data position bytes } : Server ι).checkpointPush k i
                (p.grow bytes) b) i
              ((({ s with data := pwrite s.data position bytes } : Server ι).checkpointPush k i
                (p.grow bytes) b).phase i) := by
            rcases hf.own with heq | ⟨hown, -⟩
            · rcases checkpointPush_phase (k := k)
                { s with data := pwrite s.data position bytes } i (p.grow bytes) b with hx | hx
              · rw [hx] at heq
                have heq' : Phase.replying _ = s.phase i := heq
                rw [hp] at heq'
                cases heq'
              · rw [hx]
                trivial
            · exact hown.congr hf.data hf.checkpoint hf.pushes
          have hmax : max s.checkpoint (position + bytes.length) = position + bytes.length := by
            omega
          have hcp := hf.checkpoint.trans hmax
          refine ⟨hgrown.pushed hw' hsize (fun j hj => hothers j hj) hf hi, ?_, .inr ⟨i, bytes, b,
            p, rfl, hp, hlocking, hw.accepted, hw.start, ?_, ?_, ?_, hf.pushes⟩⟩
          · rw [hf.data]
            exact hkept
          · rw [hcp]
            exact hstop
          · rw [hcp]
            omega
          · rw [hf.data, hcp]
            exact hw'.written
      · have hf := frame_setPhase (k := k) (t := .push p.start p.stop)
          ({ s with data := pwrite s.data position bytes } : Server ι) i
          (p := .receiving (p.grow bytes)) ⟨fun _ => by rw [hgrow]; rfl, fun position' hx => by
            rw [hgrow] at hx
            obtain rfl := Option.some.inj hx
            exact ⟨hwritable, hw'⟩⟩ ⟨rfl, rfl⟩
        exact ⟨hgrown.frame hf, hkept, .inl ⟨rfl, rfl⟩⟩

/-- One event of any session. -/
theorem Journaled.step (h : Journaled k data checkpoint s) (hl : Locks k none s) (e : Event ι) :
    Journaled k data checkpoint (s.step k e) ∧ Grows s e (s.step k e) := by
  by_cases hpayload : ∃ i bytes b, e = .payload i bytes b
  · obtain ⟨i, bytes, b, rfl⟩ := hpayload
    have hsame : Grows s (.payload i bytes b) s :=
      grows_of_frame (k := k) (.refl (t := .other) (i := i) s)
    simp only [Server.step]
    split
    · next p hp =>
        split
        · next hlen => exact h.receive hl hp hlen.1 hlen.2 b
        · exact ⟨h, hsame⟩
    · exact ⟨h, hsame⟩
  · by_cases hresume : ∃ i b d c, e = .resume i b ∧ s.phase i = .waitingLock d c
    · obtain ⟨i, b, d, c, rfl, hp⟩ := hresume
      simp only [Server.step, Server.resume, hp]
      split
      · have h₁ : Journaled k data checkpoint (s.served_ i) :=
          ⟨h.size, h.content, h.tiled, fun j => (h.fine j).congr rfl rfl rfl⟩
        have hf := frame_turn (k := k) s i b d c
        exact ⟨h₁.frame hf, congrArg (List.take s.checkpoint) hf.data,
          .inl ⟨hf.checkpoint, hf.pushes⟩⟩
      · exact ⟨h, grows_of_frame (k := k) (.refl (t := .other) (i := i) s)⟩
    · have hf := frame_step (k := k) s (e := e) (fun hw hi => hl.held.held hw ⟨_, hi⟩)
        (fun i bytes b heq => hpayload ⟨i, bytes, b, heq⟩)
        (fun i b d c heq hp => hresume ⟨i, b, d, c, heq, hp⟩)
      exact ⟨h.frame hf, grows_of_frame hf⟩

omit [DecidableEq ι] in
theorem journaled_start (hsize : checkpoint ≤ data.length) :
    Journaled k data checkpoint (start k data checkpoint : Server ι) where
  size := hsize
  content := (List.append_nil _).symm
  tiled := rfl
  fine _ := trivial

theorem Journaled.runs (h : Journaled k data checkpoint s) (hl : Locks k none s)
    (es : List (Event ι)) : Journaled k data checkpoint (s.run k es) := by
  induction es generalizing s with
  | nil => exact h
  | cons e es ih => exact ih (h.step hl e).1 (hl.step e)

/-- The journal of a server, over every run of its sessions. What an event does
to it is `Grows`: nothing below the checkpoint, which moves at the end of a whole
payload only, of a push with the lock that began at the checkpoint. -/
theorem journal_safety (hsize : checkpoint ≤ data.length) (es : List (Event ι)) :
    let s := (start k data checkpoint).run k es
    s.checkpoint ≤ s.data.length ∧
    s.data.take s.checkpoint = data.take checkpoint ++ payloads s.pushes ∧
    Tiled checkpoint s.pushes s.checkpoint ∧
    (∀ i, Phase.Fine k s i (s.phase i)) ∧
    ∀ e, s.checkpoint ≤ (s.step k e).checkpoint ∧ Grows s e (s.step k e) := by
  intro s
  have hl : Locks k none s := (locks_start data checkpoint).runs es
  have h : Journaled k data checkpoint s := (journaled_start hsize).runs (locks_start _ _) es
  refine ⟨h.size, h.content, h.tiled, h.fine, fun e => ?_⟩
  have hg := (h.step hl e).2
  refine ⟨?_, hg⟩
  rcases hg.pushes with ⟨hcp, -⟩ | ⟨i, bytes, b, p, -, -, -, -, -, -, hlt, -⟩
  · exact Nat.le_of_eq hcp.symm
  · exact Nat.le_of_lt hlt

/-- A session pushes three bytes behind an empty header. -/
theorem journal_safety_push :
    let k : ServerOptions := ⟨true, false, fun _ bytes => bytes⟩
    let es : List (Event Nat) := [.connect 0, .hello 0 true, .written 0,
      .request 0 (.push 2 5 true) true, .payload 0 [1, 2] true, .payload 0 [3] true]
    let s := (start k [8, 9] 2).run k es
    s.checkpoint = 5 ∧ s.data.take s.checkpoint = [8, 9] ++ payloads s.pushes := by
  intro k es s
  have hsize : 2 ≤ ([8, 9] : Bytes).length := by decide
  exact ⟨by decide, (journal_safety (k := k) hsize es).2.1⟩

end

end Joedb.Server
