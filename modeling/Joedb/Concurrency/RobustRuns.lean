import Joedb.Concurrency.RobustConnection
import Joedb.Concurrency.ServerJournal

/-!
# At most once

A push that the server accepts starts at the checkpoint and moves it, so no two of
them share a byte of the journal, however often the client repeats itself. What is
left is that the client is told the truth: on each of its sessions at most one
thing is under way (a request, what the server makes of it, or the reply), and it
is about what the client last asked for there.
-/

namespace Joedb

open ByteFile

namespace Server

variable {ι : Type} {k : ServerOptions} {s s' : Server ι}

/-! ## What one session sees of an event -/

theorem Grows.mono {e : Event ι} (h : Grows s e s') :
    s.checkpoint ≤ s'.checkpoint ∧ s.pushes <+: s'.pushes := by
  rcases h.pushes with ⟨hcp, hp⟩ | ⟨i, bytes, b, p, -, -, -, -, -, -, hlt, -, hp⟩
  · simp [hcp, hp]
  · simp [hp, Nat.le_of_lt hlt]

/-- The session has something to do for its client. -/
def Phase.Busy : Phase → Prop
  | .absent => False
  | .connected => False
  | .ready => False
  | _ => True

variable [DecidableEq ι]

/-- An event moves its own session only. -/
theorem step_others (hl : Locks k none s) (e : Event ι) {j : ι} (hj : j ≠ e.session) :
    (s.step k e).phase j = s.phase j := by
  by_cases hpayload : ∃ i bytes b, e = .payload i bytes b
  · obtain ⟨i, bytes, b, rfl⟩ := hpayload
    simp only [Server.step]
    split
    · split
      · exact (receive_history s i _ bytes b).2.2 j hj
      · rfl
    · rfl
  · by_cases hresume : ∃ i b d c, e = .resume i b ∧ s.phase i = .waitingLock d c
    · obtain ⟨i, b, d, c, rfl, hp⟩ := hresume
      simp only [Server.step, Server.resume, hp]
      split
      · exact (frame_turn (k := k) s i b d c).others j hj
      · rfl
    · exact (frame_step (k := k) s (e := e) (fun hw hi => hl.held.held hw ⟨_, hi⟩)
        (fun i bytes b heq => hpayload ⟨i, bytes, b, heq⟩)
        (fun i b d c heq hp => hresume ⟨i, b, d, c, heq, hp⟩)).others j hj

theorem request_own (hl : Locks k none s) (i : ι) (r : Request) (b : Bool) :
    (s.step k (.request i r b)).phase i = s.phase i ∨
      (Request.topic r).Covers ((s.step k (.request i r b)).phase i) := by
  rcases (frame_step (k := k) s (e := .request i r b) (fun hw hi => hl.held.held hw ⟨_, hi⟩)
    (by simp) (by simp)).own with h | h
  · exact .inl h
  · exact .inr h.2

/-- A payload is received from its beginning on. -/
theorem beginPush_received {i : ι} {start stop : Int} {u : Bool} {p : Push}
    (h : (s.beginPush k i start stop u).phase i = .receiving p) : p.received = [] := by
  rw [beginPush] at h
  split at h
  · have hself : (s.finishPush k i (s.newPush k i start stop u)).phase i
        = .replying (.pushed start stop (s.newPush k i start stop u).status) :=
      Function.update_self ..
    rw [hself] at h
    cases h
  · have hself : (s.setPhase i (.receiving (s.newPush k i start stop u))).phase i
        = .receiving (s.newPush k i start stop u) := Function.update_self ..
    rw [hself] at h
    cases h
    rfl

theorem cleanup_phase (s : Server ι) (i : ι) : (s.cleanup k i).phase i = .absent :=
  Function.update_self ..

theorem push_received {i : ι} {start stop : Int} {u b : Bool} {p : Push}
    (h : (s.push k i start stop u b).phase i = .receiving p) : p.received = [] := by
  have hclean : ∀ s : Server ι, (s.cleanup k i).phase i ≠ .receiving p := fun s => by
    rw [cleanup_phase]
    nofun
  rw [push] at h
  split at h
  · exact absurd h (hclean _)
  · split at h
    · split at h
      · exact absurd h (hclean _)
      · rw [takeLock] at h
        simp only [] at h
        split at h
        · exact beginPush_received h
        · split at h
          · exact beginPush_received h
          · split at h
            · exact beginPush_received h
            · exact absurd h (hclean _)
    · exact beginPush_received h

/-- A timer that ends leaves a session alone that has nothing to do, and about what
it was about. -/
theorem resume_own (hl : Locks k none s) (i : ι) (b : Bool) :
    (s.step k (.resume i b)).phase i = s.phase i ∨
      (Phase.Busy (s.phase i) ∧ ¬ (∃ p, s.phase i = .receiving p) ∧
        (∀ start stop, ¬ (Topic.push start stop).Covers (s.phase i)) ∧
        Topic.other.Covers ((s.step k (.resume i b)).phase i)) := by
  cases hp : s.phase i with
  | waitingPull l d c =>
      have hf := frame_step (k := k) s (e := .resume i b)
        (fun hw hi => hl.held.held hw ⟨_, hi⟩) (by simp)
        (fun j b' d' c' heq => by cases heq; simp [hp])
      rcases hf.own with h | h
      · exact .inl (h.trans hp)
      · exact .inr ⟨trivial, by simp, fun _ _ => id, h.2⟩
  | waitingLock d c =>
      simp only [Server.step, Server.resume, hp]
      split
      · rcases (frame_turn (k := k) s i b d c).own with h | h
        · exact .inl (h.trans hp)
        · exact .inr ⟨trivial, by simp, fun _ _ => id, h.2⟩
      · exact .inl hp
  | _ => simp [Server.step, Server.resume, hp]

theorem timeout_own (s : Server ι) (i : ι) :
    (s.timeout k i).phase i = s.phase i ∨ ∃ p, s.phase i = .receiving p ∧
      (s.timeout k i).phase i = .receiving { p with writer := none, status := .timedOut } := by
  have hunlock : ∀ s : Server ι, (s.unlock k i).phase = s.phase := fun s => (unlock_history s i).2.2
  rw [timeout]
  split
  · next p hp =>
      split
      · refine .inr ⟨p, hp, ?_⟩
        rw [hunlock]
        exact Function.update_self ..
      · exact .inl (congrFun (hunlock s) i)
  · exact .inl (congrFun (hunlock s) i)

theorem disconnect_own (s : Server ι) (i : ι) :
    (s.step k (.disconnect i)).phase i = s.phase i ∨
      (s.step k (.disconnect i)).phase i = .absent := by
  simp only [Server.step]
  split
  · exact .inl rfl
  · exact .inl rfl
  · exact .inl rfl
  · exact .inr (cleanup_phase s i)

theorem receive_own (s : Server ι) (i : ι) (p : Push) (bytes : Bytes) (b : Bool) :
    (s.receive k i p bytes b).phase i = .receiving (p.grow bytes) ∨
      (s.receive k i p bytes b).phase i = .replying (.pushed p.start p.stop p.status) ∨
      (s.receive k i p bytes b).phase i = .absent := by
  rw [Server.receive]
  split
  · exact .inr (checkpointPush_phase _ i (p.grow bytes) b)
  · exact .inl (Function.update_self ..)

end Server

open Server

/-! ## A session and its wire -/

/-- What the last request of a session was about. -/
def Msg.topic : Msg → Topic
  | .hello => .other
  | .request r => Request.topic r

/-- Nothing is under way, and the server has nothing to do. -/
structure Quiet (s : Server Party) (n : Nat) (w : Line) : Prop where
  inbox : w.inbox = none
  outbox : w.outbox = none
  phase : ¬ Phase.Busy (s.phase (.mine n))

/-- At most one of a request, its treatment and its reply, and all of them about
the topic of the wire. The payload of a push is the client's journal. -/
structure Wired (k : ServerOptions) (s : Server Party) (journal : Bytes) (n : Nat) (w : Line) :
    Prop where
  unread : w.inbox ≠ none → w.outbox = none ∧ ¬ Phase.Busy (s.phase (.mine n))
  unanswered : Phase.Busy (s.phase (.mine n)) → w.outbox = none
  asked : ∀ m, w.inbox = some m → w.topic = m.topic
  covers : Phase.Busy (s.phase (.mine n)) → w.topic.Covers (s.phase (.mine n))
  reply : ∀ r, w.outbox = some r → w.topic.Covers (.replying r) ∧
    Phase.Fine k s (.mine n) (.replying r)
  sent : ∀ a b, w.topic = .push a b → b ≤ journal.length
  payload : ∀ a b, w.topic = .push a b → w.inbox ≠ none →
    w.rest = slice journal a.toNat b.toNat
  writes : ∀ p, s.phase (.mine n) = .receiving p → p.writer.isSome = true →
    p.received ++ w.rest = slice journal p.start.toNat p.stop.toNat

section

variable {k : ServerOptions} {s s' : Server Party} {journal : Bytes} {n : Nat} {w : Line}

theorem Wired.read_inbox (h : Wired k s journal n w) (hbusy : Phase.Busy (s.phase (.mine n))) :
    w.inbox = none := by
  by_contra hne
  exact (h.unread hne).2 hbusy

/-- When the reply is read, nothing is left. -/
theorem Wired.quiet (h : Wired k s journal n w) {r : Reply} (hr : w.outbox = some r) :
    Quiet s n { w with outbox := none } where
  inbox := by
    by_contra hne
    have hnone := (h.unread hne).1
    rw [hr] at hnone
    cases hnone
  outbox := rfl
  phase hbusy := by
    have hnone := h.unanswered hbusy
    rw [hr] at hnone
    cases hnone

/-- An event of another session. -/
theorem Wired.other (h : Wired k s journal n w) (hphase : s'.phase (.mine n) = s.phase (.mine n))
    {e : Server.Event Party} (hg : Grows s e s') : Wired k s' journal n w where
  unread := by rw [hphase]; exact h.unread
  unanswered := by rw [hphase]; exact h.unanswered
  asked := h.asked
  covers := by rw [hphase]; exact h.covers
  reply r hr := ⟨(h.reply r hr).1, (h.reply r hr).2.grow id hg.mono.1 hg.kept hg.mono.2⟩
  sent := h.sent
  payload := h.payload
  writes := by rw [hphase]; exact h.writes

/-- A session that waits, and has nothing to write. -/
theorem Wired.moved (h : Wired k s journal n w) {e : Server.Event Party} (hg : Grows s e s')
    (hin : w.inbox = none ∨ ¬ Phase.Busy (s'.phase (.mine n)))
    (hout : Phase.Busy (s'.phase (.mine n)) → w.outbox = none)
    (hcov : Phase.Busy (s'.phase (.mine n)) → w.topic.Covers (s'.phase (.mine n)))
    (hwrites : ∀ p, s'.phase (.mine n) = .receiving p → p.writer.isSome = true →
      p.received ++ w.rest = slice journal p.start.toNat p.stop.toNat) :
    Wired k s' journal n w where
  unread hne := ⟨(h.unread hne).1, hin.resolve_left hne⟩
  unanswered := hout
  asked := h.asked
  covers := hcov
  reply r hr := ⟨(h.reply r hr).1, (h.reply r hr).2.grow id hg.mono.1 hg.kept hg.mono.2⟩
  sent := h.sent
  payload := h.payload
  writes := hwrites

/-- The journal of the client grows. -/
theorem Wired.write (h : Wired k s journal n w) (x : Bytes) : Wired k s (journal ++ x) n w where
  unread := h.unread
  unanswered := h.unanswered
  asked := h.asked
  covers := h.covers
  reply := h.reply
  sent a b ht := by
    have hb := h.sent a b ht
    rw [List.length_append]
    omega
  payload a b ht hne := by
    have hb := h.sent a b ht
    rw [slice_append_left (by omega)]
    exact h.payload a b ht hne
  writes p hp hsome := by
    have hcov := h.covers (by rw [hp]; trivial)
    rw [hp] at hcov
    cases ht : w.topic with
    | other => rw [ht] at hcov; exact hcov.elim
    | push a b =>
        rw [ht] at hcov
        have hb := h.sent a b ht
        have hstop : p.stop = b := hcov.2
        rw [slice_append_left (by omega)]
        exact h.writes p hp hsome

/-- A wire on which nothing is under way may be used for a request. -/
theorem Quiet.wired (h : Quiet s n w) {r : Request} {rest : Bytes}
    (hstop : ∀ a b, Request.topic r = .push a b → b ≤ journal.length ∧
      rest = slice journal a.toNat b.toNat) :
    Wired k s journal n
      { inbox := some (.request r), rest := rest, outbox := none, topic := Request.topic r } where
  unread _ := ⟨rfl, h.phase⟩
  unanswered _ := rfl
  asked m hm := by cases hm; rfl
  covers hbusy := absurd hbusy h.phase
  reply r hr := by cases hr
  sent a b ht := (hstop a b ht).1
  payload a b ht _ := (hstop a b ht).2
  writes p hp := by
    have hbusy := h.phase
    rw [hp] at hbusy
    exact absurd trivial hbusy

/-- A wire on which nothing is under way may change its topic. -/
theorem Quiet.silent (h : Quiet s n w) {t : Topic} (hstop : ∀ a b, t = .push a b →
    b ≤ journal.length) : Wired k s journal n { w with topic := t } where
  unread hne := absurd h.inbox hne
  unanswered _ := h.outbox
  asked m hm := by
    have hnone : w.inbox = some m := hm
    rw [h.inbox] at hnone
    cases hnone
  covers hbusy := absurd hbusy h.phase
  reply r hr := by
    have hnone : w.outbox = some r := hr
    rw [h.outbox] at hnone
    cases hnone
  sent := hstop
  payload a b _ hne := absurd h.inbox hne
  writes p hp := by
    have hbusy := h.phase
    rw [hp] at hbusy
    exact absurd trivial hbusy

/-- A session that begins. -/
theorem Quiet.hello (h : Quiet s n w) :
    Wired k s journal n { inbox := some .hello, rest := [], outbox := none, topic := .other } where
  unread _ := ⟨rfl, h.phase⟩
  unanswered _ := rfl
  asked m hm := by cases hm; rfl
  covers hbusy := absurd hbusy h.phase
  reply r hr := by cases hr
  sent a b ht := by cases ht
  payload a b ht := by cases ht
  writes p hp := by
    have hbusy := h.phase
    rw [hp] at hbusy
    exact absurd trivial hbusy

/-- What was on a wire is lost. -/
theorem Wired.lost (h : Wired k s journal n w) : Wired k s journal n { w with inbox := none } where
  unread hne := absurd rfl hne
  unanswered := h.unanswered
  asked m hm := by cases hm
  covers := h.covers
  reply := h.reply
  sent := h.sent
  payload a b _ hne := absurd rfl hne
  writes := h.writes

end

namespace Net

/-! ## The invariant -/

/-- What holds of the server, its wires and the pushes of the client, whatever the
client waits for. -/
structure Core (k : ServerOptions) (data : Bytes) (checkpoint : Nat) (s : Net) : Prop where
  locks : Locks k none s.server
  journaled : Journaled k data checkpoint s.server
  wired : ∀ n, Wired k s.server s.client.journal n (s.wires n)
  fresh : ∀ n, s.client.session < n → Quiet s.server n (s.wires n)
  own : ∀ q ∈ s.server.pushes, ∀ n, q.session = .mine n →
    q.start + q.payload.length ≤ s.client.journal.length ∧
      q.payload = slice s.client.journal q.start (q.start + q.payload.length)
  acknowledged : ∀ a b : Int, .pushed a b ∈ s.client.outcomes → a < b →
    ∃ q ∈ s.server.pushes, (∃ n, q.session = .mine n) ∧ q.start = a ∧ q.payload.length = b - a

/-- With it, what the client waits for. -/
structure Inv (k : ServerOptions) (data : Bytes) (checkpoint : Nat) (s : Net) : Prop extends
    Core k data checkpoint s where
  quiet : s.client.stage = .idle → Quiet s.server s.client.session (s.wires s.client.session)
  topic : ∀ u x, s.client.stage = .calling (.push u x) →
    (s.wires s.client.session).topic =
      .push s.client.connectionCheckpoint (s.client.pushStop u)

section

variable {k : ServerOptions} {data : Bytes} {checkpoint : Nat} {s : Net}

/-! ## The server -/

/-- A payload that is complete is what the client has in its journal there. -/
theorem Core.pushed (h : Core k data checkpoint s) {n : Nat} {bytes : Bytes} {p : Push}
    {s' : Server Party} (hs' : Journaled k data checkpoint s')
    (hp : s.server.phase (.mine n) = .receiving p) (hacc : p.status = .accepted)
    (hstart : p.start = s.server.checkpoint) (hstop : p.stop = s'.checkpoint)
    (hlt : s.server.checkpoint < s'.checkpoint)
    (hslice : slice s'.data s.server.checkpoint s'.checkpoint = p.received ++ bytes)
    (hbytes : bytes <+: (s.wires n).rest) :
    s.server.checkpoint + (p.received ++ bytes).length ≤ s.client.journal.length ∧
      p.received ++ bytes = slice s.client.journal s.server.checkpoint
        (s.server.checkpoint + (p.received ++ bytes).length) := by
  have hfine := h.journaled.fine (.mine n)
  rw [hp] at hfine
  have hwires := (h.wired n).writes p hp (hfine.1 hacc)
  have hcov := (h.wired n).covers (by rw [hp]; trivial)
  rw [hp] at hcov
  cases ht : (s.wires n).topic with
  | other => rw [ht] at hcov; exact hcov.elim
  | push a b =>
      rw [ht] at hcov
      have hb := (h.wired n).sent a b ht
      have hstop' : p.stop = b := hcov.2
      obtain ⟨rest, hrest⟩ := hbytes
      have hlength := congrArg List.length hslice
      rw [length_slice] at hlength
      have hsize := hs'.size
      have hend : s.server.checkpoint + (p.received ++ bytes).length = s'.checkpoint := by omega
      rw [hend]
      refine ⟨by omega, ?_⟩
      have hfrom : p.start.toNat = s.server.checkpoint := by omega
      have hto : p.stop.toNat = s'.checkpoint := by omega
      rw [hfrom, hto, ← hrest, ← List.append_assoc] at hwires
      -- the range has no room for more than what was received
      have hall := congrArg List.length hwires
      rw [length_slice, List.length_append] at hall
      have hnil : rest = [] := List.eq_nil_of_length_eq_zero (by omega)
      rw [← hwires, hnil, List.append_nil]

theorem Inv.serverStep (h : Inv k data checkpoint s) (e : Server.Event Party)
    {wires : Nat → Line} (hothers : ∀ n, e.session ≠ .mine n → wires n = s.wires n)
    (hown : ∀ n, e.session = .mine n →
      Wired k (s.server.step k e) s.client.journal n (wires n) ∧
      (Quiet s.server n (s.wires n) → Quiet (s.server.step k e) n (wires n)) ∧
      (wires n).topic = (s.wires n).topic)
    (hbytes : ∀ n bytes b, e = .payload (.mine n) bytes b → bytes <+: (s.wires n).rest) :
    Inv k data checkpoint { s with server := s.server.step k e, wires := wires } := by
  obtain ⟨hj, hg⟩ := h.journaled.step h.locks e
  have hphase : ∀ n, e.session ≠ .mine n →
      (s.server.step k e).phase (.mine n) = s.server.phase (.mine n) :=
    fun n hn => step_others h.locks e (Ne.symm hn)
  have hquiet : ∀ n, Quiet s.server n (s.wires n) → Quiet (s.server.step k e) n (wires n) := by
    intro n hn
    by_cases he : e.session = .mine n
    · exact (hown n he).2.1 hn
    · rw [hothers n he]
      exact ⟨hn.inbox, hn.outbox, by rw [hphase n he]; exact hn.phase⟩
  have htopic : ∀ n, (wires n).topic = (s.wires n).topic := by
    intro n
    by_cases he : e.session = .mine n
    · exact (hown n he).2.2
    · rw [hothers n he]
  refine ⟨⟨h.locks.step e, hj, fun n => ?_, fun n hn => hquiet n (h.fresh n hn), ?_, ?_⟩, ?_, ?_⟩
  · by_cases he : e.session = .mine n
    · exact (hown n he).1
    · show Wired k (s.server.step k e) s.client.journal n (wires n)
      rw [hothers n he]
      exact (h.wired n).other (hphase n he) hg
  · intro q hq n hn
    rcases hg.pushes with ⟨-, hsame⟩ | ⟨i, bytes, b, p, he, hp, -, hacc, hstart, hstop, hlt, hslice,
      hpushes⟩
    · have hq' : q ∈ (s.server.step k e).pushes := hq
      rw [hsame] at hq'
      exact h.own q hq' n hn
    · have hq' : q ∈ (s.server.step k e).pushes := hq
      rw [hpushes] at hq'
      rcases List.mem_append.mp hq' with hold | hnew
      · exact h.own q hold n hn
      · obtain rfl := List.mem_singleton.mp hnew
        obtain rfl : i = .mine n := hn
        exact h.pushed hj hp hacc hstart hstop hlt hslice (hbytes n bytes b he)
  · intro a b hab hlt
    obtain ⟨q, hq, hrest⟩ := h.acknowledged a b hab hlt
    exact ⟨q, hg.mono.2.subset hq, hrest⟩
  · exact fun hidle => hquiet _ (h.quiet hidle)
  · intro u x hu
    exact (htopic _).trans (h.topic u x hu)

/-! ## The events of a session -/

theorem Inv.connect (h : Inv k data checkpoint s) (n : Nat) :
    Inv k data checkpoint (s.step k (.connect n)) := by
  simp only [Net.step]
  split
  · next hin =>
      have hne : (s.wires n).inbox ≠ none := by simp [hin]
      obtain ⟨hout, hidle⟩ := (h.wired n).unread hne
      have hphase : ¬ Phase.Busy ((s.server.step k (.connect (.mine n))).phase (.mine n)) := by
        simp only [Server.step]
        split
        · rw [show (s.server.setPhase (.mine n) .connected).phase (.mine n) = .connected from
            Function.update_self ..]
          exact id
        · exact hidle
      refine h.serverStep _ (fun m _ => rfl) (fun m hm => ?_) (by simp)
      obtain rfl : n = m := by injection hm
      refine ⟨(h.wired n).moved (h.journaled.step h.locks _).2 (.inr hphase)
        (fun hb => absurd hb hphase) (fun hb => absurd hb hphase) (fun p hp => ?_),
        fun hq => absurd hq.inbox hne, rfl⟩
      exact absurd (show Phase.Busy _ by rw [hp]; trivial) hphase
  · exact h

theorem Inv.hello (h : Inv k data checkpoint s) (n : Nat) :
    Inv k data checkpoint (s.step k (.hello n)) := by
  simp only [Net.step]
  split
  · next hin hp =>
      have hne : (s.wires n).inbox ≠ none := by simp [hin]
      have hout := ((h.wired n).unread hne).1
      have htopic : (s.wires n).topic = .other := (h.wired n).asked _ hin
      have hphase : (s.server.step k (.hello (.mine n) true)).phase (.mine n)
          = .replying (.handshake s.server.checkpoint k.writable) := by
        simp only [Server.step, hp]
        exact Function.update_self ..
      refine h.serverStep (.hello (.mine n) true) (fun m hm => ?_) (fun m hm => ?_) (by simp)
      · exact Function.update_of_ne (fun heq => hm (by rw [heq]; rfl)) _ _
      obtain rfl : n = m := by injection hm
      rw [Function.update_self]
      refine ⟨(h.wired n).lost.moved (h.journaled.step h.locks _).2 (.inl rfl) (fun _ => hout)
        (fun _ => ?_) (fun p hp' => ?_), fun hq => absurd hq.inbox hne, rfl⟩
      · rw [hphase]
        show (s.wires n).topic.Covers _
        rw [htopic]
        trivial
      · rw [hphase] at hp'
        cases hp'
  · exact h

theorem Inv.request (h : Inv k data checkpoint s) (n : Nat) (b : Bool) :
    Inv k data checkpoint (s.step k (.request n b)) := by
  simp only [Net.step]
  split
  · next r hin hp =>
      have hne : (s.wires n).inbox ≠ none := by simp [hin]
      have hout := ((h.wired n).unread hne).1
      have htopic : (s.wires n).topic = Request.topic r := (h.wired n).asked _ hin
      have hphase : (s.server.step k (.request (.mine n) r b)).phase (.mine n) = .ready ∨
          (Request.topic r).Covers
            ((s.server.step k (.request (.mine n) r b)).phase (.mine n)) := by
        rw [← hp]
        exact request_own h.locks (.mine n) r b
      refine h.serverStep (.request (.mine n) r b) (fun m hm => ?_) (fun m hm => ?_) (by simp)
      · exact Function.update_of_ne (fun heq => hm (by rw [heq]; rfl)) _ _
      obtain rfl : n = m := by injection hm
      rw [Function.update_self]
      refine ⟨(h.wired n).lost.moved (h.journaled.step h.locks _).2 (.inl rfl) (fun _ => hout)
        (fun hbusy => ?_) (fun p hp' hsome => ?_), fun hq => absurd hq.inbox hne, rfl⟩
      · show (s.wires n).topic.Covers _
        rw [htopic]
        rcases hphase with hready | hcov
        · rw [hready] at hbusy
          exact hbusy.elim
        · exact hcov
      · -- only a push receives anything, from its beginning on
        rw [hp'] at hphase
        rcases hphase with hready | hcov
        · cases hready
        · cases r with
          | push start stop u =>
              have hnil : p.received = [] := by
                have hpush : (s.server.push k (.mine n) start stop u b).phase (.mine n)
                    = .receiving p := by
                  rw [← hp']
                  simp only [Server.step, hp, Server.request]
                exact push_received hpush
              obtain ⟨rfl, rfl⟩ := hcov
              rw [hnil]
              exact (h.wired n).payload _ _ htopic hne
          | _ => exact hcov.elim
  · exact h

theorem Inv.payload (h : Inv k data checkpoint s) (n size : Nat) (b : Bool) :
    Inv k data checkpoint (s.step k (.payload n size b)) := by
  simp only [Net.step]
  split
  · next p hp =>
      split
      · next hsize =>
          have hbusy : Phase.Busy (s.server.phase (.mine n)) := by rw [hp]; trivial
          have hin := (h.wired n).read_inbox hbusy
          have hout := (h.wired n).unanswered hbusy
          have hcov := (h.wired n).covers hbusy
          have hlen : ((s.wires n).rest.take size).length = size := by
            rw [List.length_take]
            omega
          have hstep : s.server.step k (.payload (.mine n) ((s.wires n).rest.take size) b)
              = s.server.receive k (.mine n) p ((s.wires n).rest.take size) b := by
            simp only [Server.step, hp, hlen]
            rw [if_pos ⟨hsize.1, hsize.2.2⟩]
          have hphase := receive_own (k := k) s.server (.mine n) p ((s.wires n).rest.take size) b
          rw [← hstep] at hphase
          refine h.serverStep (.payload (.mine n) ((s.wires n).rest.take size) b)
            (fun m hm => ?_) (fun m hm => ?_) (fun m bytes b' he => ?_)
          · exact Function.update_of_ne (fun heq => hm (by rw [heq]; rfl)) _ _
          · obtain rfl : n = m := by injection hm
            rw [Function.update_self]
            refine ⟨⟨fun hne => absurd hin hne, fun _ => hout, fun m hm => ?_, fun _ => ?_,
              fun r hr => ?_, (h.wired n).sent, fun x y _ hne => absurd hin hne,
              fun p' hp' hsome => ?_⟩, fun hq => absurd hbusy hq.phase, rfl⟩
            · exact (h.wired n).asked m hm
            · rw [hp] at hcov
              show (s.wires n).topic.Covers _
              cases ht : (s.wires n).topic with
              | other => rw [ht] at hcov; exact hcov.elim
              | push x y =>
                  rw [ht] at hcov
                  rcases hphase with hx | hx | hx
                  · rw [hx]; exact hcov
                  · rw [hx]; exact hcov
                  · rw [hx]; trivial
            · rw [hout] at hr
              cases hr
            · rw [hp'] at hphase
              rcases hphase with hx | hx | hx
              · cases hx
                have hsome' : p.writer.isSome = true := by
                  rw [← Option.isSome_map (f := (· + ((s.wires n).rest.take size).length))]
                  exact hsome
                show (p.received ++ (s.wires n).rest.take size) ++ (s.wires n).rest.drop size = _
                rw [List.append_assoc, List.take_append_drop]
                exact (h.wired n).writes p hp hsome'
              · cases hx
              · cases hx
          · cases he
            exact List.take_prefix _ _
      · exact h
  · exact h

theorem Inv.written (h : Inv k data checkpoint s) (n : Nat) :
    Inv k data checkpoint (s.step k (.written n)) := by
  simp only [Net.step]
  split
  · next r hp =>
      have hbusy : Phase.Busy (s.server.phase (.mine n)) := by rw [hp]; trivial
      have hin := (h.wired n).read_inbox hbusy
      have hcov := (h.wired n).covers hbusy
      have hfine := h.journaled.fine (.mine n)
      rw [hp] at hcov hfine
      have hphase : (s.server.step k (.written (.mine n))).phase (.mine n) = .ready := by
        simp only [Server.step, hp]
        exact Function.update_self ..
      have hidle : ¬ Phase.Busy ((s.server.step k (.written (.mine n))).phase (.mine n)) := by
        rw [hphase]
        exact id
      obtain ⟨-, hg⟩ := h.journaled.step h.locks (.written (.mine n))
      refine h.serverStep (.written (.mine n)) (fun m hm => ?_) (fun m hm => ?_) (by simp)
      · exact Function.update_of_ne (fun heq => hm (by rw [heq]; rfl)) _ _
      obtain rfl : n = m := by injection hm
      rw [Function.update_self]
      refine ⟨⟨fun hne => absurd hin hne, fun hb => absurd hb hidle, (h.wired n).asked,
        fun hb => absurd hb hidle, fun r' hr => ?_, (h.wired n).sent,
        fun a b _ hne => absurd hin hne, fun p hp' => ?_⟩, fun hq => absurd hbusy hq.phase, rfl⟩
      · cases hr
        exact ⟨hcov, hfine.grow id hg.mono.1 hg.kept hg.mono.2⟩
      · rw [hphase] at hp'
        cases hp'
  · exact h

theorem Inv.resume (h : Inv k data checkpoint s) (n : Nat) (b : Bool) :
    Inv k data checkpoint (s.step k (.resume n b)) := by
  refine h.serverStep (.resume (.mine n) b) (fun m _ => rfl) (fun m hm => ?_) (by simp)
  obtain rfl : n = m := by injection hm
  obtain ⟨-, hg⟩ := h.journaled.step h.locks (.resume (.mine n) b)
  rcases resume_own h.locks (.mine n) b with hsame | ⟨hbusy, -, hpush, hcov⟩
  · exact ⟨(h.wired n).other hsame hg, fun hq => ⟨hq.inbox, hq.outbox, by
      rw [hsame]; exact hq.phase⟩, rfl⟩
  · have hin := (h.wired n).read_inbox hbusy
    have hout := (h.wired n).unanswered hbusy
    have hold := (h.wired n).covers hbusy
    refine ⟨(h.wired n).moved hg (.inl hin) (fun _ => hout) (fun _ => ?_) (fun p hp => ?_),
      fun hq => absurd hbusy hq.phase, rfl⟩
    · cases ht : (s.wires n).topic with
      | other => exact hcov
      | push x y => rw [ht] at hold; exact absurd hold (hpush x y)
    · rw [hp] at hcov
      exact hcov.elim

theorem Inv.timeout (h : Inv k data checkpoint s) (n : Nat) :
    Inv k data checkpoint (s.step k (.timeout n)) := by
  refine h.serverStep (.timeout (.mine n)) (fun m _ => rfl) (fun m hm => ?_) (by simp)
  obtain rfl : n = m := by injection hm
  obtain ⟨-, hg⟩ := h.journaled.step h.locks (.timeout (.mine n))
  rcases timeout_own (k := k) s.server (.mine n) with hsame | ⟨p, hp, hnew⟩
  · exact ⟨(h.wired n).other hsame hg, fun hq => ⟨hq.inbox, hq.outbox, by
      show ¬ Phase.Busy ((s.server.timeout k (.mine n)).phase _)
      rw [hsame]; exact hq.phase⟩, rfl⟩
  · have hbusy : Phase.Busy (s.server.phase (.mine n)) := by rw [hp]; trivial
    have hin := (h.wired n).read_inbox hbusy
    have hout := (h.wired n).unanswered hbusy
    have hold := (h.wired n).covers hbusy
    have hnew' : (s.server.step k (.timeout (.mine n))).phase (.mine n)
        = .receiving { p with writer := none, status := .timedOut } := hnew
    rw [hp] at hold
    refine ⟨(h.wired n).moved hg (.inl hin) (fun _ => hout) (fun _ => ?_) (fun p' hp' hsome => ?_),
      fun hq => absurd hbusy hq.phase, rfl⟩
    · rw [hnew']
      cases ht : (s.wires n).topic with
      | other => rw [ht] at hold; exact hold.elim
      | push x y => rw [ht] at hold; exact hold
    · rw [hnew'] at hp'
      cases hp'
      cases hsome

theorem Inv.disconnect (h : Inv k data checkpoint s) (n : Nat) :
    Inv k data checkpoint (s.step k (.disconnect n)) := by
  refine h.serverStep (.disconnect (.mine n)) (fun m hm => ?_) (fun m hm => ?_) (by simp)
  · exact Function.update_of_ne (fun heq => hm (by rw [heq]; rfl)) _ _
  obtain rfl : n = m := by injection hm
  rw [Function.update_self]
  obtain ⟨-, hg⟩ := h.journaled.step h.locks (.disconnect (.mine n))
  rcases disconnect_own (k := k) s.server (.mine n) with hsame | habsent
  · exact ⟨(h.wired n).lost.other hsame hg, fun hq => ⟨rfl, hq.outbox, by
      rw [hsame]; exact hq.phase⟩, rfl⟩
  · have hidle : ¬ Phase.Busy ((s.server.step k (.disconnect (.mine n))).phase (.mine n)) := by
      rw [habsent]
      exact id
    refine ⟨(h.wired n).lost.moved hg (.inl rfl) (fun hb => absurd hb hidle)
      (fun hb => absurd hb hidle) (fun p hp => ?_), fun hq => ⟨rfl, hq.outbox, hidle⟩, rfl⟩
    rw [habsent] at hp
    cases hp

theorem Inv.other (h : Inv k data checkpoint s) (e : Server.Event Party) :
    Inv k data checkpoint (s.step k (.other e)) := by
  simp only [Net.step]
  split
  · exact h
  · next m hm =>
      refine h.serverStep e (fun n _ => rfl) (fun n hn => ?_) (fun n bytes b he => ?_)
      · rw [hm] at hn
        cases hn
      · rw [he] at hm
        cases hm

/-! ## The client -/

/-- What the client does beside its journal, its sessions and the ends of its calls. -/
theorem Core.client (h : Core k data checkpoint s) {c : Robust}
    (hj : c.journal = s.client.journal) (hn : c.session = s.client.session)
    (ho : ∀ a b, .pushed a b ∈ c.outcomes → .pushed a b ∈ s.client.outcomes) :
    Core k data checkpoint { s with client := c } where
  locks := h.locks
  journaled := h.journaled
  wired n := by
    show Wired k s.server c.journal n (s.wires n)
    rw [hj]
    exact h.wired n
  fresh n hlt := h.fresh n (by rw [← hn]; exact hlt)
  own := by
    show ∀ q ∈ s.server.pushes, ∀ n, q.session = .mine n → _
    rw [hj]
    exact h.own
  acknowledged a b hab := h.acknowledged a b (ho a b hab)

/-- The journal of the client grows. -/
theorem Core.write (h : Core k data checkpoint s) (x : Bytes) :
    Core k data checkpoint
      { s with client := { s.client with journal := s.client.journal ++ x } } where
  locks := h.locks
  journaled := h.journaled
  wired n := (h.wired n).write x
  fresh := h.fresh
  own q hq n hn := by
    obtain ⟨hlen, heq⟩ := h.own q hq n hn
    refine ⟨?_, ?_⟩
    · show _ ≤ (s.client.journal ++ x).length
      rw [List.length_append]
      omega
    · show _ = slice (s.client.journal ++ x) _ _
      rw [slice_append_left hlen]
      exact heq
  acknowledged := h.acknowledged

/-- The end of a call that pushed nothing. -/
theorem Core.finish (h : Core k data checkpoint s)
    (hq : Quiet s.server s.client.session (s.wires s.client.session)) {o : Outcome}
    (ho : ∀ a b, o ≠ .pushed a b) : Inv k data checkpoint (s.finish o) where
  toCore := h.client rfl rfl fun a b hab => by
    rcases List.mem_append.mp hab with hold | hnew
    · exact hold
    · exact absurd (List.mem_singleton.mp hnew).symm (ho a b)
  quiet _ := hq
  topic u x hu := by cases hu

/-- A request on a session on which nothing is under way. -/
theorem Core.send (h : Core k data checkpoint s)
    (hq : Quiet s.server s.client.session (s.wires s.client.session)) {r : Request}
    (hstop : ∀ a b, Request.topic r = .push a b → b ≤ s.client.journal.length) {stage : Stage}
    (hstage : stage ≠ .idle)
    (htopic : ∀ u x, stage = .calling (.push u x) → Request.topic r =
      .push s.client.connectionCheckpoint (s.client.pushStop u)) :
    Inv k data checkpoint ((s.send r).setStage stage) := by
  have hpayload : ∀ a b, Request.topic r = .push a b → b ≤ s.client.journal.length ∧
      s.client.payload r = slice s.client.journal a.toNat b.toNat := by
    intro a b ht
    refine ⟨hstop a b ht, ?_⟩
    cases r with
    | push start stop u => cases ht; rfl
    | _ => cases ht
  have hself : ((s.send r).wires s.client.session).topic = Request.topic r ∧
      Wired k s.server s.client.journal s.client.session ((s.send r).wires s.client.session) := by
    rw [show (s.send r).wires s.client.session = _ from Function.update_self ..]
    split
    · refine ⟨rfl, ?_⟩
      rw [hq.outbox]
      exact hq.wired hpayload
    · exact ⟨rfl, hq.silent hstop⟩
  have hother : ∀ n, n ≠ s.client.session → (s.send r).wires n = s.wires n :=
    fun n hn => Function.update_of_ne hn _ _
  refine ⟨⟨h.locks, h.journaled, fun n => ?_, fun n hn => ?_, h.own, h.acknowledged⟩,
    fun hidle => absurd hidle hstage, fun u x hu => ?_⟩
  · by_cases hn : n = s.client.session
    · rw [hn]
      exact hself.2
    · show Wired k s.server s.client.journal n ((s.send r).wires n)
      rw [hother n hn]
      exact h.wired n
  · have hlt : s.client.session < n := hn
    show Quiet s.server n ((s.send r).wires n)
    rw [hother n (by omega)]
    exact h.fresh n hlt
  · exact hself.1.trans (htopic u x hu)

/-- A call that needs nothing of the server. -/
theorem Core.skip (h : Core k data checkpoint s)
    (hq : Quiet s.server s.client.session (s.wires s.client.session)) (c : ClientCall) :
    Inv k data checkpoint { s with client := s.client.skip c } := by
  cases c with
  | handshake =>
      exact (h.client (c := { s.client with
        shaken := true
        connectionCheckpoint := s.client.serverCheckpoint }) rfl rfl fun _ _ => id).finish hq
          (by simp)
  | _ => exact h.finish hq (by simp)

theorem Core.issue (h : Core k data checkpoint s)
    (hq : Quiet s.server s.client.session (s.wires s.client.session)) (c : ClientCall) :
    Inv k data checkpoint (s.issue k c) := by
  rw [Net.issue]
  split
  · exact h.skip hq c
  · next r hr =>
      have hcontent : ∀ a b, s.client.contentRequest k a b = some r →
          Request.topic r = .other := by
        intro a b hx
        rw [Robust.contentRequest] at hx
        split at hx
        · cases hx
        · split at hx
          · cases hx
          · cases hx
            rfl
      refine h.send hq (fun a b ht => ?_) nofun (fun u x hu => ?_)
      · cases c with
        | handshake => rw [hcontent _ _ hr] at ht; cases ht
        | checkMatchingContent start stop => rw [hcontent _ _ hr] at ht; cases ht
        | push u x =>
            cases hr
            cases ht
            exact Int.min_le_right _ _
        | _ => cases hr; cases ht
      · cases hu
        cases hr
        rfl

theorem Core.goOn (h : Core k data checkpoint s)
    (hq : Quiet s.server s.client.session (s.wires s.client.session))
    (call : Option ClientCall) : Inv k data checkpoint (s.goOn k call) := by
  cases call with
  | none => exact h.finish hq (by simp)
  | some c => exact h.issue hq c

theorem Core.reconnect (h : Core k data checkpoint s) (old : Int) (call : Option ClientCall) :
    Inv k data checkpoint (s.reconnect old call) := by
  have hnew := h.fresh (s.client.session + 1) (Nat.lt_succ_self _)
  have hother : ∀ n, n ≠ s.client.session + 1 → (s.reconnect old call).wires n = s.wires n :=
    fun n hn => Function.update_of_ne hn _ _
  have hself : (s.reconnect old call).wires (s.client.session + 1)
      = ⟨some .hello, [], none, .other⟩ := Function.update_self ..
  refine ⟨⟨h.locks, h.journaled, fun n => ?_, fun n hn => ?_, h.own, h.acknowledged⟩,
    fun hidle => (by cases hidle), fun u x hu => (by cases hu)⟩
  · show Wired k s.server s.client.journal n _
    by_cases hn : n = s.client.session + 1
    · rw [hn, hself]
      exact hnew.hello
    · rw [hother n hn]
      exact h.wired n
  · have hlt : s.client.session + 1 < n := hn
    show Quiet s.server n _
    rw [hother n (by omega)]
    exact h.fresh n (by omega)

theorem Core.fail (h : Core k data checkpoint s) (hstage : s.client.stage ≠ .idle) :
    Inv k data checkpoint s.fail := by
  rw [Net.fail]
  split
  · next hidle => exact absurd hidle hstage
  · exact h.reconnect _ _
  · exact h.reconnect _ _
  · -- the channel that is left is a session that never begins
    have hnext : Core k data checkpoint
        { s with client := { s.client with session := s.client.session + 1 } } :=
      ⟨h.locks, h.journaled, h.wired, fun n hn => h.fresh n (Nat.lt_of_succ_lt hn), h.own,
        h.acknowledged⟩
    exact hnext.finish (h.fresh _ (Nat.lt_succ_self _)) (by simp)
  · exact h.reconnect _ _

theorem Core.connected (h : Core k data checkpoint s)
    (hq : Quiet s.server s.client.session (s.wires s.client.session)) (old : Int)
    (call : Option ClientCall) (cp : Nat) :
    Inv k data checkpoint (s.connected k old call cp) := by
  have h' : Core k data checkpoint
      { s with client := { s.client with serverCheckpoint := cp } } :=
    h.client rfl rfl fun _ _ => id
  rw [Net.connected]
  simp only []
  split
  · exact h'.finish hq (by simp)
  · split
    · split
      · exact h'.goOn hq call
      · next r hr =>
          refine h'.send hq (fun a b ht => ?_) (by simp) (by simp)
          rw [Robust.handshakeRequest, Robust.contentRequest] at hr
          split at hr
          · cases hr
          · split at hr
            · cases hr
            · cases hr
              cases ht
    · exact h'.goOn hq call

/-- The reply to a call. It is about the call, so a push that is acknowledged is one
that was done. -/
theorem Core.answered (h : Core k data checkpoint s)
    (hq : Quiet s.server s.client.session (s.wires s.client.session)) {c : ClientCall}
    {r : Reply} (hstage : s.client.stage = .calling c)
    (hfine : Phase.Fine k s.server (.mine s.client.session) (.replying r))
    (htopic : ∀ u x, c = .push u x → Topic.Covers
      (.push s.client.connectionCheckpoint (s.client.pushStop u)) (.replying r)) :
    Inv k data checkpoint (s.answered c r) := by
  have hthrow : Inv k data checkpoint (s.finish (.threw (some c))) := h.finish hq (by simp)
  have hreturn : Inv k data checkpoint (s.finish .returned) := h.finish hq (by simp)
  unfold Net.answered
  split
  · exact h.skip hq .handshake
  · exact hreturn
  · next u x start' stop' =>
      obtain ⟨rfl, rfl⟩ := htopic u x rfl
      refine ⟨⟨h.locks, h.journaled, h.wired, h.fresh, h.own, fun a b hab hlt => ?_⟩, fun _ => hq,
        fun u x hu => (by cases hu)⟩
      rcases List.mem_append.mp hab with hold | hnew
      · exact h.acknowledged a b hold hlt
      · obtain ⟨rfl, rfl⟩ : a = s.client.connectionCheckpoint ∧ b = s.client.pushStop u := by
          simpa using hnew
        obtain ⟨q, hmem, hsession, hstart, hlength⟩ := hfine hlt
        exact ⟨q, hmem, ⟨_, hsession⟩, hstart, hlength⟩
  · exact h.fail (by simp [hstage])
  · next l w start' stop' bytes =>
      have hw := h.write bytes
      exact (hw.client (c := { s.client with
        journal := s.client.journal ++ bytes
        serverCheckpoint := stop'
        connectionCheckpoint := stop' }) rfl rfl fun _ _ => id).finish hq (by simp)
  · exact hreturn
  · exact hreturn
  · exact hreturn
  · exact hthrow

theorem Inv.receive (h : Inv k data checkpoint s) :
    Inv k data checkpoint (s.step k .receive) := by
  simp only [Net.step]
  split
  · exact h
  · next r hr =>
      have hother : ∀ n, n ≠ s.client.session → (s.setWire s.client.session
          { s.wires s.client.session with outbox := none }).wires n = s.wires n :=
        fun n hn => Function.update_of_ne hn _ _
      have hself : (s.setWire s.client.session
          { s.wires s.client.session with outbox := none }).wires s.client.session
          = { s.wires s.client.session with outbox := none } := Function.update_self ..
      have hquiet := (h.wired s.client.session).quiet hr
      obtain ⟨hcov, hfine⟩ := (h.wired s.client.session).reply r hr
      have hcore : Core k data checkpoint (s.setWire s.client.session
          { s.wires s.client.session with outbox := none }) := by
        refine ⟨h.locks, h.journaled, fun n => ?_, fun n hn => ?_, h.own, h.acknowledged⟩
        · show Wired k s.server s.client.journal n _
          by_cases hn : n = s.client.session
          · rw [hn, hself]
            exact hquiet.silent (h.wired s.client.session).sent
          · rw [hother n hn]
            exact h.wired n
        · have hlt : s.client.session < n := hn
          show Quiet s.server n _
          rw [hother n (by omega)]
          exact h.fresh n hlt
      rw [← hself] at hquiet
      rw [Net.receive]
      split
      · next hidle =>
          have hnone := (h.quiet hidle).outbox
          rw [hr] at hnone
          cases hnone
      · split
        · exact hcore.connected hquiet _ _ _
        · exact hcore.reconnect _ _
      · split
        · exact hcore.goOn hquiet _
        · exact hcore.finish hquiet (by simp)
      · next c hstage =>
          refine hcore.answered hquiet hstage hfine fun u x hc => ?_
          rw [hc] at hstage
          rw [h.topic u x hstage] at hcov
          exact hcov

/-! ## Runs -/

theorem Inv.step (h : Inv k data checkpoint s) (e : Event) :
    Inv k data checkpoint (s.step k e) := by
  cases e with
  | write bytes =>
      simp only [Net.step]
      split
      · next hidle =>
          refine ⟨h.toCore.write bytes, h.quiet, fun u x hu => ?_⟩
          have hu' : s.client.stage = .calling (.push u x) := hu
          rw [hidle] at hu'
          cases hu'
      · exact h
  | call c =>
      simp only [Net.step]
      split
      · next hidle =>
          split
          · exact h.toCore.issue (h.quiet hidle) c
          · exact h.toCore.finish (h.quiet hidle) (by simp)
      · exact h
  | receive => exact h.receive
  | fail =>
      by_cases hidle : s.client.stage = .idle
      · have hsame : s.step k .fail = s := by simp [Net.step, Net.fail, hidle]
        rw [hsame]
        exact h
      · exact h.toCore.fail hidle
  | connect n => exact h.connect n
  | hello n => exact h.hello n
  | request n b => exact h.request n b
  | payload n size b => exact h.payload n size b
  | written n => exact h.written n
  | resume n b => exact h.resume n b
  | timeout n => exact h.timeout n
  | disconnect n => exact h.disconnect n
  | other e => exact h.other e

theorem inv_start (hsize : checkpoint ≤ data.length) (journal : Bytes) (check : Option Bool) :
    Inv k data checkpoint (start k data checkpoint journal check) where
  locks := locks_start _ _
  journaled := journaled_start hsize
  wired n := by
    have hquiet : Quiet (Server.start k data checkpoint) n ⟨none, [], none, .other⟩ :=
      ⟨rfl, rfl, id⟩
    by_cases hn : n = 0
    · rw [hn] at hquiet ⊢
      exact hquiet.hello
    · show Wired _ _ _ _ ⟨if n = 0 then _ else none, _, _, _⟩
      rw [if_neg hn]
      exact hquiet.silent nofun
  fresh n hn := by
    have hlt : 0 < n := hn
    exact ⟨if_neg (by omega), rfl, id⟩
  own := nofun
  acknowledged := nofun
  quiet hidle := by cases hidle
  topic u x hu := by cases hu

theorem Inv.runs (h : Inv k data checkpoint s) (es : List Event) :
    Inv k data checkpoint (s.run k es) := by
  induction es generalizing s with
  | nil => exact h
  | cons e es ih => exact ih (h.step e)

end

end Net

/-! ## What the server's journal has of the client -/

/-- Where a push ends. -/
def Pushed.stop {ι : Type} (q : Pushed ι) : Nat := q.start + q.payload.length

namespace Server

/-- The pushes that hold position `x`. -/
def holding {ι : Type} (ps : List (Pushed ι)) (x : Nat) : List (Pushed ι) :=
  ps.filter fun q => q.start ≤ x && x < q.stop

section

variable {ι : Type} {start stop : Nat} {ps : List (Pushed ι)}

/-- The pushes lie one behind the other. -/
theorem Tiled.bounds (h : Tiled start ps stop) :
    start ≤ stop ∧ (∀ q ∈ ps, start ≤ q.start ∧ q.stop ≤ stop) ∧
      ps.Pairwise fun p q => p.stop ≤ q.start := by
  induction ps generalizing start with
  | nil =>
      have heq : start = stop := h
      exact ⟨Nat.le_of_eq heq, nofun, List.Pairwise.nil⟩
  | cons p ps ih =>
      obtain ⟨hp, hps⟩ := h
      obtain ⟨hle, hin, hpair⟩ := ih hps
      have hstop : p.stop = start + p.payload.length := by rw [Pushed.stop, hp]
      refine ⟨by omega, fun q hq => ?_, List.Pairwise.cons (fun q hq => ?_) hpair⟩
      · rcases List.mem_cons.mp hq with rfl | hq'
        · omega
        · have := hin q hq'
          omega
      · have := (hin q hq).1
        omega

theorem holding_le_one (h : Tiled start ps stop) (x : Nat) : (holding ps x).length ≤ 1 := by
  have hpair := (h.bounds.2.2).filter (fun q => q.start ≤ x && x < q.stop)
  match hl : holding ps x with
  | [] => simp
  | [q] => simp
  | p :: q :: qs =>
      rw [show ps.filter (fun q => q.start ≤ x && x < q.stop) = p :: q :: qs from hl] at hpair
      have hle := List.rel_of_pairwise_cons hpair List.mem_cons_self
      have hp : p ∈ holding ps x := by rw [hl]; exact List.mem_cons_self
      have hq : q ∈ holding ps x := by
        rw [hl]
        exact List.mem_cons_of_mem _ List.mem_cons_self
      have hp' := (List.mem_filter.mp hp).2
      have hq' := (List.mem_filter.mp hq).2
      simp only [Bool.and_eq_true, decide_eq_true_eq] at hp' hq'
      omega

/-- The journal has every push where it was put. -/
theorem Tiled.content (h : Tiled start ps stop) {data before : Bytes}
    (hdata : data.take stop = before ++ payloads ps) (hlen : before.length = start) :
    ∀ q ∈ ps, slice data q.start q.stop = q.payload := by
  induction ps generalizing start before with
  | nil => nofun
  | cons p ps ih =>
      have hbounds := h.bounds
      obtain ⟨hp, hps⟩ := h
      intro q hq
      rcases List.mem_cons.mp hq with rfl | hq'
      · have hstop := (hbounds.2.1 q List.mem_cons_self).2
        rw [← slice_take hstop, hdata, Pushed.stop, hp, ← hlen]
        simp [slice, payloads]
      · have hrest : data.take stop = (before ++ p.payload) ++ payloads ps := by
          rw [hdata]
          simp [payloads]
        exact ih hps hrest (by simp [hlen]) q hq'

end

end Server

namespace Net

/-- The call that a stage is about. -/
def call : Stage → Option ClientCall
  | .idle => none
  | .connecting _ call => call
  | .checking _ call => call
  | .calling c => some c

section

variable {k : ServerOptions} {data : Bytes} {checkpoint : Nat} {s : Net}

/-- How a push may go on: it is still under way, or it ends, well or with an
exception. -/
def PushGoesOn (s s' : Net) (u : Int) (x : Bool) : Prop :=
  (call s'.client.stage = some (.push u x) ∧ s'.client.outcomes = s.client.outcomes ∧
    s'.client.connectionCheckpoint = s.client.connectionCheckpoint ∧
    s'.client.journal = s.client.journal) ∨
  (s'.client.stage = .idle ∧ (s'.client.outcomes = s.client.outcomes ++
      [.pushed s.client.connectionCheckpoint (s.client.pushStop u)] ∨
    s'.client.outcomes = s.client.outcomes ++ [.threw (some (.push u x))]))

theorem issue_goesOn {s' : Net} {u : Int} {x : Bool} (ho : s'.client.outcomes = s.client.outcomes)
    (hc : s'.client.connectionCheckpoint = s.client.connectionCheckpoint)
    (hj : s'.client.journal = s.client.journal) :
    PushGoesOn s (s'.issue k (.push u x)) u x :=
  .inl ⟨rfl, ho, hc, hj⟩

/-- What the client makes of a reply while a push is under way. -/
theorem receive_goesOn {u : Int} {x : Bool} (h : call s.client.stage = some (.push u x))
    (r : Reply) : PushGoesOn s (s.receive k r) u x := by
  have hthrow : ∀ s' : Net, s'.client.outcomes = s.client.outcomes →
      PushGoesOn s (s'.finish (.threw (some (.push u x)))) u x := by
    intro s' ho
    refine .inr ⟨rfl, .inr ?_⟩
    rw [← ho]
    rfl
  cases hstage : s.client.stage with
  | idle => rw [hstage] at h; cases h
  | connecting old c =>
      obtain rfl : c = some (.push u x) := by rw [hstage] at h; exact h
      unfold Net.receive
      rw [hstage]
      cases r with
      | handshake cp w =>
          simp only [Net.connected]
          split
          · exact hthrow _ rfl
          · split
            · split
              · exact issue_goesOn (k := k) rfl rfl rfl
              · exact .inl ⟨rfl, rfl, rfl, rfl⟩
            · exact issue_goesOn (k := k) rfl rfl rfl
      | _ => exact .inl ⟨rfl, rfl, rfl, rfl⟩
  | checking old c =>
      obtain rfl : c = some (.push u x) := by rw [hstage] at h; exact h
      unfold Net.receive
      rw [hstage]
      simp only []
      split
      · exact issue_goesOn (k := k) rfl rfl rfl
      · exact hthrow _ rfl
  | calling c =>
      obtain rfl : c = .push u x := by rw [hstage] at h; cases h; rfl
      unfold Net.receive
      rw [hstage]
      cases r with
      | pushed a b status =>
          cases status with
          | accepted => exact .inr ⟨rfl, .inl rfl⟩
          | timedOut =>
              simp only [Net.answered, Net.fail, hstage]
              exact .inl ⟨rfl, rfl, rfl, rfl⟩
          | _ => exact hthrow _ rfl
      | _ => exact hthrow _ rfl

theorem push_goesOn {u : Int} {x : Bool} (h : call s.client.stage = some (.push u x))
    (e : Event) : PushGoesOn s (s.step k e) u x := by
  have hsame : ∀ s' : Net, s'.client = s.client → PushGoesOn s s' u x := fun s' hc =>
    .inl ⟨by rw [hc]; exact h, by rw [hc], by rw [hc], by rw [hc]⟩
  cases e with
  | write bytes =>
      simp only [Net.step]
      split
      · next hidle => rw [hidle] at h; cases h
      · exact hsame s rfl
  | call c =>
      simp only [Net.step]
      split
      · next hidle => rw [hidle] at h; cases h
      · exact hsame s rfl
  | receive =>
      simp only [Net.step]
      split
      · exact hsame s rfl
      · next r hr =>
          exact receive_goesOn (s := s.setWire s.client.session
            { s.wires s.client.session with outbox := none }) h r
  | fail =>
      simp only [Net.step, Net.fail]
      split
      · next hidle => rw [hidle] at h; cases h
      · next hstage =>
          rw [hstage] at h
          exact .inl ⟨h, rfl, rfl, rfl⟩
      · next hstage =>
          rw [hstage] at h
          exact .inl ⟨h, rfl, rfl, rfl⟩
      · next hstage => rw [hstage] at h; cases h
      · next hstage =>
          rw [hstage] at h
          exact .inl ⟨h, rfl, rfl, rfl⟩
  | connect n =>
      simp only [Net.step]
      split
      · exact hsame _ rfl
      · exact hsame s rfl
  | hello n =>
      simp only [Net.step]
      split
      · exact hsame _ rfl
      · exact hsame s rfl
  | request n b =>
      simp only [Net.step]
      split
      · exact hsame _ rfl
      · exact hsame s rfl
  | payload n size b =>
      simp only [Net.step]
      split
      · split
        · exact hsame _ rfl
        · exact hsame s rfl
      · exact hsame s rfl
  | written n =>
      simp only [Net.step]
      split
      · exact hsame _ rfl
      · exact hsame s rfl
  | resume n b => exact hsame _ rfl
  | timeout n => exact hsame _ rfl
  | disconnect n => exact hsame _ rfl
  | other e =>
      simp only [Net.step]
      split
      · exact hsame s rfl
      · exact hsame _ rfl

/-! ## A step of the client leaves the server alone -/

@[simp] theorem issue_server (s : Net) (c : ClientCall) : (s.issue k c).server = s.server := by
  rw [Net.issue]
  split
  · rfl
  · rfl

@[simp] theorem goOn_server (s : Net) (call : Option ClientCall) :
    (s.goOn k call).server = s.server := by
  cases call with
  | none => rfl
  | some c => exact issue_server s c

@[simp] theorem fail_server (s : Net) : s.fail.server = s.server := by
  rw [Net.fail]
  split
  · rfl
  · rfl
  · rfl
  · rfl
  · rfl

@[simp] theorem connected_server (s : Net) (old : Int) (call : Option ClientCall) (cp : Nat) :
    (s.connected k old call cp).server = s.server := by
  rw [Net.connected]
  simp only []
  split
  · rfl
  · split
    · split
      · simp
      · rfl
    · simp

@[simp] theorem answered_server (s : Net) (c : ClientCall) (r : Reply) :
    (s.answered c r).server = s.server := by
  unfold Net.answered
  split
  · rfl
  · rfl
  · rfl
  · simp
  · rfl
  · rfl
  · rfl
  · rfl
  · rfl

theorem receive_server (s : Net) (r : Reply) : (s.receive k r).server = s.server := by
  unfold Net.receive
  split
  · rfl
  · split
    · simp
    · rfl
  · split
    · simp
    · rfl
  · simp

/-- An event is the server's or the client's. -/
theorem step_client_or_server (s : Net) (e : Event) :
    (s.step k e).client = s.client ∨ (s.step k e).server = s.server := by
  cases e with
  | write bytes =>
      simp only [Net.step]
      split
      · exact .inr rfl
      · exact .inl rfl
  | call c =>
      simp only [Net.step]
      split
      · split
        · exact .inr (issue_server s c)
        · exact .inr rfl
      · exact .inl rfl
  | receive =>
      simp only [Net.step]
      split
      · exact .inl rfl
      · exact .inr (receive_server _ _)
  | fail => exact .inr (fail_server s)
  | connect n =>
      simp only [Net.step]
      split
      · exact .inl rfl
      · exact .inl rfl
  | hello n =>
      simp only [Net.step]
      split
      · exact .inl rfl
      · exact .inl rfl
  | request n b =>
      simp only [Net.step]
      split
      · exact .inl rfl
      · exact .inl rfl
  | payload n size b =>
      simp only [Net.step]
      split
      · split
        · exact .inl rfl
        · exact .inl rfl
      · exact .inl rfl
  | written n =>
      simp only [Net.step]
      split
      · exact .inl rfl
      · exact .inl rfl
  | resume n b => exact .inl rfl
  | timeout n => exact .inl rfl
  | disconnect n => exact .inl rfl
  | other e =>
      simp only [Net.step]
      split
      · exact .inl rfl
      · exact .inl rfl

/-- A push that was acknowledged is in the journal of the server, byte by byte, in
the one push that holds it. -/
theorem Core.acknowledged_slice (h : Core k data checkpoint s) (hsize : checkpoint ≤ data.length)
    {a b : Int} (hab : .pushed a b ∈ s.client.outcomes) (hlt : a < b) :
    ∃ q ∈ s.server.pushes, (∃ n, q.session = .mine n) ∧ q.start = a ∧ q.stop = b ∧
      q.stop ≤ s.server.checkpoint ∧
      slice s.server.data q.start q.stop = slice s.client.journal q.start q.stop ∧
      ∀ x, q.start ≤ x → x < q.stop → holding s.server.pushes x = [q] := by
  obtain ⟨q, hq, ⟨n, hn⟩, hstart, hlength⟩ := h.acknowledged a b hab hlt
  have hcontent := h.journaled.tiled.content h.journaled.content
    (by rw [List.length_take]; omega) q hq
  have hown := (h.own q hq n hn).2
  have hstop : (q.stop : Int) = b := by
    have hx : q.stop = q.start + q.payload.length := rfl
    omega
  refine ⟨q, hq, ⟨n, hn⟩, hstart, hstop, (h.journaled.tiled.bounds.2.1 q hq).2,
    hcontent.trans hown, fun x hx hx' => ?_⟩
  have hmem : q ∈ holding s.server.pushes x :=
    List.mem_filter.mpr ⟨hq, by simp [hx, hx']⟩
  have hone := holding_le_one h.journaled.tiled x
  match hl : holding s.server.pushes x with
  | [] => rw [hl] at hmem; cases hmem
  | [q'] =>
      rw [hl] at hmem
      rw [List.mem_singleton.mp hmem]
  | _ :: _ :: _ => rw [hl] at hone; simp at hone

/-- A client behind a connection that reconnects, over every run: what failed, was
lost or came late, and what the others did. No position of the server's journal is
pushed twice, what came from the client is where the client has it, a push that
returned is there once, and one that conflicts can only end with an exception. -/
theorem at_most_once (hsize : checkpoint ≤ data.length) (journal : Bytes) (check : Option Bool)
    (es : List Event) :
    let s := (start k data checkpoint journal check).run k es
    (∀ x, (holding s.server.pushes x).length ≤ 1) ∧
    (s.server.pushes.Pairwise fun p q => p.stop ≤ q.start) ∧
    (∀ q ∈ s.server.pushes, (∃ n, q.session = .mine n) →
      q.stop ≤ s.server.checkpoint ∧ q.stop ≤ s.client.journal.length ∧
      slice s.server.data q.start q.stop = slice s.client.journal q.start q.stop) ∧
    (∀ a b : Int, .pushed a b ∈ s.client.outcomes → a < b →
      ∃ q ∈ s.server.pushes, (∃ n, q.session = .mine n) ∧ q.start = a ∧ q.stop = b ∧
        q.stop ≤ s.server.checkpoint ∧
        slice s.server.data q.start q.stop = slice s.client.journal q.start q.stop ∧
        ∀ x, q.start ≤ x → x < q.stop → holding s.server.pushes x = [q]) ∧
    ∀ u x, call s.client.stage = some (.push u x) → ∀ e,
      PushGoesOn s (s.step k e) u x ∧
      ((∃ q ∈ s.server.pushes, (∀ n, q.session ≠ .mine n) ∧ ∃ y, q.start ≤ y ∧ y < q.stop ∧
        s.client.connectionCheckpoint ≤ y ∧ y < s.client.pushStop u) →
      call (s.step k e).client.stage = some (.push u x) ∨
        (s.step k e).client.outcomes = s.client.outcomes ++ [.threw (some (.push u x))]) := by
  intro s
  have h : Inv k data checkpoint s := (inv_start hsize journal check).runs es
  refine ⟨holding_le_one h.journaled.tiled, h.journaled.tiled.bounds.2.2, fun q hq ⟨n, hn⟩ => ?_,
    fun a b hab hlt => h.toCore.acknowledged_slice hsize hab hlt, fun u x hu e => ?_⟩
  · obtain ⟨hlen, hown⟩ := h.own q hq n hn
    have hcontent := h.journaled.tiled.content h.journaled.content
      (by rw [List.length_take]; omega) q hq
    exact ⟨(h.journaled.tiled.bounds.2.1 q hq).2, hlen, hcontent.trans hown⟩
  · have hgoes := push_goesOn (k := k) hu e
    refine ⟨hgoes, fun ⟨q, hq, hother, y, hy, hy', hfrom, hto⟩ => ?_⟩
    rcases hgoes with ⟨hcall, -⟩ | ⟨-, hok | hthrow⟩
    · exact .inl hcall
    · -- the other's byte would be held twice
      have h' := h.step e
      have hmem : Outcome.pushed s.client.connectionCheckpoint (s.client.pushStop u)
          ∈ (s.step k e).client.outcomes := by
        rw [hok]
        exact List.mem_append_right _ List.mem_cons_self
      obtain ⟨q', hq', ⟨n, hn⟩, hstart, hstop, -, -, honly⟩ :=
        h'.toCore.acknowledged_slice hsize hmem (by omega)
      have hserver : (s.step k e).server = s.server := by
        rcases step_client_or_server (k := k) s e with hclient | hserver
        · rw [hclient] at hok
          exact absurd (congrArg List.length hok) (by simp)
        · exact hserver
      rw [hserver] at honly
      have hheld : q ∈ holding s.server.pushes y :=
        List.mem_filter.mpr ⟨hq, by simp [hy, hy']⟩
      rw [honly y (by omega) (by omega), List.mem_singleton] at hheld
      rw [hheld] at hother
      exact absurd hn (hother n)
    · exact .inr hthrow

/-- Two bytes are pushed, and the reply is lost. The second try is in conflict with
the first, which is there once. -/
theorem at_most_once_lostReply :
    let k : ServerOptions := ⟨true, false, fun _ bytes => bytes⟩
    let header : Bytes := List.replicate 41 0
    let es : List Event := [.connect 0, .hello 0, .written 0, .receive, .call .handshake,
      .write [7, 8], .call (.push 43 true), .request 0 true, .payload 0 2 true, .written 0, .fail,
      .connect 1, .hello 1, .written 1, .receive, .request 1 true, .written 1, .receive,
      .request 1 true, .payload 1 2 true, .written 1, .receive]
    let s := (start k header 41 header (some false)).run k es
    s.server.checkpoint = 43 ∧
      s.client.outcomes = [.returned, .returned, .threw (some (.push 43 true))] ∧
      ∀ x, (holding s.server.pushes x).length ≤ 1 := by
  intro k header es
  have hsize : 41 ≤ header.length := by decide
  have honce := at_most_once (k := k) hsize header (some false) es
  exact ⟨by decide +kernel, by decide +kernel, honce.1⟩

end

end Net

end Joedb
