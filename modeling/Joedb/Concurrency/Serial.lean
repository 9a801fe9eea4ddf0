import Joedb.Concurrency.SharedCalls
import Joedb.Interpreted.DatabaseSpec
import Joedb.Multiplexer.InStep

/-!
# Clients of one file take turns

Whoever reads a shared file reads the turns of its writers, one behind the other
in the order of their locks, and of each turn what has been made a checkpoint
of. Every database is the replay of a part of that from its start, and it is the
replay of all of it when a lock is taken and when a pull returns. A client that
gave the lock back before a checkpoint has the rest of its turn as well, but it is
refused from then on.

In the invariant only the holder of the lock is tied to what is behind the
checkpoint. The others are tied to what is below it, which is never written
again, so they are served by any change that keeps it.

A client that plays has the context of a reader when it starts to write. One
that skips goes on with the context of its own last operation, and nothing in
the code keeps it from writing `append` where another client has been in
between. So what is asked of its operations is a real condition.
-/

namespace Joedb

open ByteFile StateExcept FileBuffer Replay

namespace SharedFile

variable {ι ω : Type}

/-! ## The invariant -/

section Invariant

variable (W : Writable ω) (plays : ι → Bool) (w₀ : ω)

/-- The holder of the lock has `us` in its file and its buffer. If it plays, it has the
context of whoever reads that, and the database. -/
structure Works (data : Bytes) (us : List Wire) (i : ι) (c : WritableClient ω) : Prop where
  file_eq : c.journal.file.data = data
  work : c.journal.AtWork us
  played : plays i = true →
    c.journal.context = contextAfter .reset (decodeAll .reset us) ∧
      W.hearAll (decodeAll .reset us) w₀ = .ok () c.database

/-- A client that gave the lock back before it had made a checkpoint of all that it wrote. If it
plays, its database has what the file had by then, and the rest of that turn. -/
structure Left (past : List (Turn ι)) (ws : List Wire) (i : ι) (c : WritableClient ω) :
    Prop where
  stuck : c.Stuck
  heard : plays i = true → ∃ t ∈ past, t.client = i ∧ ∃ us, us <+: ws ∧
    W.hearAll (decodeAll .reset us ++ t.fresh) w₀ = .ok () c.database

/-- The file tells `b`, has `ws` up to the checkpoint and `us` up to where the holder of the
lock is. -/
structure Good (s : SharedFile ι ω) (b : Checkpoints) (ws us : List Wire) : Prop where
  tells : Says s.data b ws
  kept : ws <+: us
  fits : ∀ w ∈ us, w.Fits
  log : decodeAll .reset ws = s.log
  written : decodeAll .reset us = s.written
  readable : ∀ op ∈ s.written, op.Readable
  heard : ∃ w, W.hearAll s.written w₀ = .ok () w
  free : s.turn = none → us = ws
  resting : ∀ i c, s.clients i = some c → ¬ s.Holds i →
    Left W plays w₀ s.past ws i c ∨ c.Follows (reading W plays i) w₀ b ws
  working : ∀ i, s.Holds i → ∃ c, s.clients i = some c ∧ Works W plays w₀ s.data us i c ∧
    c.journal.checkpoints = b
  readers : ∀ i t, s.readers i = some t → t.Reads W w₀ b ws

/-- A file that nobody has opened yet. -/
structure New (s : SharedFile ι ω) : Prop where
  data : s.data = []
  clients : ∀ i, s.clients i = none
  readers : ∀ i, s.readers i = none
  past : s.past = []
  turn : s.turn = none

end Invariant

variable {W : Writable ω} {plays : ι → Bool} {w₀ : ω} {s : SharedFile ι ω} {b : Checkpoints}
  {ws us : List Wire}

theorem Left.mono {past past' : List (Turn ι)} {i : ι} {c : WritableClient ω} {ws' : List Wire}
    (h : Left W plays w₀ past ws i c) (hpast : past <+: past') (hws : ws <+: ws') :
    Left W plays w₀ past' ws' i c := by
  refine ⟨h.stuck, fun hplays => ?_⟩
  obtain ⟨t, ht, hclient, us, hus, hheard⟩ := h.heard hplays
  exact ⟨t, hpast.subset ht, hclient, us, hus.trans hws, hheard⟩

theorem reading_eq_play {i : ι} {V : Writable ω} (h : reading W plays i = .play V) :
    plays i = true ∧ V = W := by
  rw [reading] at h
  split at h
  · next hplays =>
      cases h
      exact ⟨hplays, rfl⟩
  · cases h

theorem reading_play {i : ι} (h : plays i = true) : reading W plays i = .play W := if_pos h

theorem reading_skip {i : ι} (h : plays i = false) : reading W plays i = .skip := by
  rw [reading, if_neg (by rw [h]; exact Bool.false_ne_true)]

theorem written_of_free (h : s.turn = none) : s.written = s.log := by
  rw [written, h]
  exact List.append_nil _

/-- What the calls of a client rely on. -/
theorem Good.listens {P : ω → Prop} (hW : W.Replays P) (h : s.Good W plays w₀ b ws us) (i : ι) :
    ∀ V, reading W plays i = .play V →
      V.Passive ∧ ∃ w, V.hearAll (decodeAll .reset ws) w₀ = .ok () w := by
  intro V hV
  obtain ⟨-, rfl⟩ := reading_eq_play hV
  obtain ⟨w, hheard⟩ := h.heard
  rw [SharedFile.written, ← h.log] at hheard
  obtain ⟨w₁, hlog, -⟩ := Writable.hearAll_prefix hheard
  exact ⟨hW.passive, w₁, hlog⟩

theorem Good.fits_kept (h : s.Good W plays w₀ b ws us) : ∀ w ∈ ws, w.Fits :=
  fun w hw => h.fits w (h.kept.subset hw)

/-- At the end of the file a client may write. -/
theorem atWork_of_arrives {r : ReadJournal ω} {data : Bytes} {c : WritableClient ω}
    (htold : Says data b ws) (h : c.Arrives r w₀ b ws data) : c.journal.AtWork ws := by
  have hfile := h.knows.file_eq
  have hcp := h.knows.checkpoint
  have hidle := h.follows.waiting.idle
  have hposition : c.journal.fileBuffer.position = b.checkpointPosition := by
    rw [← hcp, ← h.position]
    exact hidle.getPosition.symm
  refine ⟨Sharing.sound_of_waiting h.follows.waiting (by rw [hfile]; exact htold.header)
    (by rw [hfile]; exact h.knows.agrees) (by rw [hcp, hfile]; exact htold.size)
    (Nat.le_of_eq h.position.symm), h.follows.shared, ?_, ?_⟩
  · rw [Journal.body, hidle.pending, List.append_nil, hfile, hposition]
    exact htold.committed
  · rw [h.position, hcp]
    exact htold.agrees.lt_max

variable [DecidableEq ι]

/-! ## Events -/

theorem update_some {α : Type} {f : ι → Option α} {i k : ι} {x y : α}
    (h : Function.update f i (some x) k = some y) : (k = i ∧ y = x) ∨ (k ≠ i ∧ f k = some y) := by
  by_cases hki : k = i
  · rw [hki, Function.update_self] at h
    exact .inl ⟨hki, (Option.some.inj h).symm⟩
  · rw [Function.update_of_ne hki] at h
    exact .inr ⟨hki, h⟩

omit [DecidableEq ι] in
theorem Holds.unique {i k : ι} (h : s.Holds i) (h' : s.Holds k) : k = i :=
  Option.some.inj (h'.symm.trans h)

omit [DecidableEq ι] in
theorem not_holds (h : s.turn = none) (i : ι) : ¬ s.Holds i := by
  rw [Holds, h]
  exact fun h => by cases h

/-- A client that does not hold the lock is replaced, and nothing is written. -/
theorem Good.setClient (h : s.Good W plays w₀ b ws us) {i : ι} (hi : ¬ s.Holds i)
    {c : WritableClient ω} (hdata : c.journal.file.data = s.data)
    (hc : Left W plays w₀ s.past ws i c ∨ c.Follows (reading W plays i) w₀ b ws) :
    (s.put i c).Good W plays w₀ b ws us := by
  have hsame : s.put i c = { s with clients := Function.update s.clients i (some c) } := by
    rw [put, hdata]
  rw [hsame]
  refine { h with resting := fun k c' hk hnot => ?_, working := fun k hk => ?_ }
  · rcases update_some hk with ⟨rfl, rfl⟩ | ⟨-, hk'⟩
    · exact hc
    · exact h.resting k c' hk' hnot
  · obtain ⟨c', hk', hworks⟩ := h.working k hk
    have hki : k ≠ i := fun heq => hi (heq ▸ hk)
    exact ⟨c', by rw [← hk']; exact Function.update_of_ne hki _ _, hworks⟩

/-- The holder of the lock goes on. -/
theorem Good.worked (h : s.Good W plays w₀ b ws us) {i : ι} (hi : s.Holds i)
    {c : WritableClient ω} (s' : SharedFile ι ω) (hdata : s'.data = c.journal.file.data)
    (hclients : s'.clients = Function.update s.clients i (some c))
    (hreaders : s'.readers = s.readers) (hpast : s'.past = s.past) (hholds : s'.Holds i)
    {ws' us' : List Wire}
    (hpre : ws <+: ws') (hkept : ws' <+: us') (hworks : Works W plays w₀ s'.data us' i c)
    (hlen : c.journal.getCheckpoint = headerSize + (wiresBytes ws').length)
    (hhard : b.hardCheckpointPosition ≤ c.journal.getHardCheckpoint)
    (hcp : b.checkpointPosition ≤ c.journal.getCheckpoint) (hfits : ∀ w ∈ us', w.Fits)
    (hlog : decodeAll .reset ws' = s'.log) (hwritten : decodeAll .reset us' = s'.written)
    (hreadable : ∀ op ∈ s'.written, op.Readable)
    (hheard : ∃ w, W.hearAll s'.written w₀ = .ok () w) :
    s'.Good W plays w₀ c.journal.checkpoints ws' us' := by
  refine ⟨hdata ▸ hworks.work.tells hkept hlen, hkept, hfits, hlog, hwritten, hreadable, hheard,
    fun hnone => absurd hholds (not_holds hnone i), fun k c' hk hnot => ?_, fun k hk => ?_,
    fun k t ht => ?_⟩
  · rw [hclients] at hk
    rcases update_some hk with ⟨rfl, -⟩ | ⟨hki, hk'⟩
    · exact absurd hholds hnot
    · exact (h.resting k c' hk' fun hk => hki (hi.unique hk)).imp
        (fun hleft => hleft.mono (hpast ▸ List.prefix_refl _) hpre)
        fun hfollows => hfollows.mono hhard hcp hpre
  · obtain rfl := hholds.unique hk
    exact ⟨c, by rw [hclients]; exact Function.update_self .., hworks, rfl⟩
  · rw [hreaders] at ht
    exact (h.readers k t ht).mono hhard hcp hpre

omit [DecidableEq ι] in
theorem onto_self {c : WritableClient ω} {data : Bytes} (h : c.journal.file.data = data) :
    c.onto data = c := by
  subst h
  rfl

omit [DecidableEq ι] in
theorem through_of {i : ι} {c : WritableClient ω} (hc : s.clients i = some c)
    (hdata : c.journal.file.data = s.data) (f : WritableClient ω → SharedFile ι ω) :
    s.through i f = f c := by
  rw [through, hc]
  simp only [onto_self hdata]

theorem put_self {i : ι} {c : WritableClient ω} (hc : s.clients i = some c)
    (hdata : c.journal.file.data = s.data) : s.put i c = s := by
  rw [put, hdata, ← hc, Function.update_eq_self]

omit [DecidableEq ι] in
theorem Holds.turn {i : ι} (h : s.Holds i) : ∃ kept fresh, s.turn = some ⟨i, kept, fresh⟩ := by
  rw [Holds, Option.map_eq_some_iff] at h
  obtain ⟨⟨k, kept, fresh⟩, hturn, rfl⟩ := h
  exact ⟨kept, fresh, hturn⟩

omit [DecidableEq ι] in
theorem write_spec {i : ι} (h : s.Holds i) (op : Op) :
    (s.write op).Holds i ∧ (s.write op).log = s.log ∧
      (s.write op).written = s.written ++ [op] := by
  obtain ⟨kept, fresh, hturn⟩ := h.turn
  refine ⟨?_, ?_, ?_⟩
  · rw [Holds, write, hturn]
    rfl
  · rw [log, write, hturn, log, hturn]
    rfl
  · simp only [written, log, write, hturn, Option.map_some, Option.elim_some, List.append_assoc]

omit [DecidableEq ι] in
theorem keep_spec {i : ι} (h : s.Holds i) (marks : List Op) :
    (s.keep marks).Holds i ∧ (s.keep marks).log = s.written ++ marks ∧
      (s.keep marks).written = s.written ++ marks := by
  obtain ⟨kept, fresh, hturn⟩ := h.turn
  refine ⟨?_, ?_, ?_⟩
  · rw [Holds, keep, hturn]
    rfl
  · simp only [written, log, keep, hturn, Option.map_some, Option.elim_some, List.append_assoc]
  · simp only [written, log, keep, hturn, Option.map_some, Option.elim_some, List.append_assoc,
      List.append_nil]

omit [DecidableEq ι] in
theorem give_spec (s : SharedFile ι ω) :
    s.give.turn = none ∧ s.give.log = s.log ∧ s.give.written = s.log := by
  refine ⟨rfl, ?_, ?_⟩
  · cases hturn : s.turn <;> simp [give, log, hturn]
  · cases hturn : s.turn <;> simp [give, written, log, hturn]

/-! ### The holder of the lock -/

/-- An operation that a reader understands and every database takes. -/
theorem Good.performed (h : s.Good W plays w₀ b ws us) {i : ι} (hi : s.Holds i)
    {c : WritableClient ω} (hworks : Works W plays w₀ s.data us i c)
    (hb : c.journal.checkpoints = b) {op : Op}
    (hbound : c.journal.getPosition + (abbreviate c.journal.context op).bytes.length < 2 ^ 63)
    (hfits : op.Fits) (hread : op.Readable)
    (hmeaning : (abbreviate c.journal.context op).meaning (contextAfter .reset s.written) = op)
    {db : ω} (hheard : ∃ w, W.hearAll (s.written ++ [op]) w₀ = .ok () w)
    (hplayed : plays i = true → W.hearAll (s.written ++ [op]) w₀ = .ok () db) :
    ((s.put i { c with journal := c.journal.perform op, database := db }).write op).Good W plays
      w₀ b ws (us ++ [abbreviate c.journal.context op]) := by
  obtain ⟨hwork, hcheckpoints, hcontext⟩ := hworks.work.perform op hbound
  obtain ⟨hholds, hlog, hwritten⟩ := write_spec
    (s := s.put i { c with journal := c.journal.perform op, database := db }) (i := i) hi op
  have hlog : _ = s.log := hlog
  have hwritten : _ = s.written ++ [op] := hwritten
  have hb' : (c.journal.perform op).checkpoints = b := hcheckpoints.trans hb
  have hdecode : decodeAll .reset (us ++ [abbreviate c.journal.context op])
      = s.written ++ [op] := by
    rw [decodeAll_append, h.written, decodeAll, hmeaning]
    rfl
  have hgood := h.worked hi (c := { c with journal := c.journal.perform op, database := db })
    ((s.put i { c with journal := c.journal.perform op, database := db }).write op)
    rfl rfl rfl rfl hholds (List.prefix_refl ws)
    (h.kept.trans (List.prefix_append us [abbreviate c.journal.context op]))
    ⟨rfl, hwork, fun hplays => ⟨?_, ?_⟩⟩ ?_ ?_ ?_ ?_ (h.log.trans hlog.symm)
    (hdecode.trans hwritten.symm) ?_ (hwritten ▸ hheard)
  · rw [← hb']
    exact hgood
  · rw [hdecode, contextAfter_append, ← h.written, ← (hworks.played hplays).1]
    exact hcontext
  · rw [hdecode]
    exact hplayed hplays
  · exact (congrArg Checkpoints.checkpointPosition hb').trans h.tells.length
  · exact Nat.le_of_eq (congrArg Checkpoints.hardCheckpointPosition hb').symm
  · exact Nat.le_of_eq (congrArg Checkpoints.checkpointPosition hb').symm
  · intro w hw
    rcases List.mem_append.mp hw with hw | hw
    · exact h.fits w hw
    · rw [List.mem_singleton.mp hw]
      exact fits_abbreviate hfits _
  · rw [hwritten]
    intro o ho
    rcases List.mem_append.mp ho with ho | ho
    · exact h.readable o ho
    · rw [List.mem_singleton.mp ho]
      exact hread

theorem Good.perform {P : ω → Prop} (hW : W.Replays P) (hw₀ : P w₀)
    (h : s.Good W plays w₀ b ws us) {i : ι} {op : Op}
    (ha : s.Allowed W plays w₀ (.perform i op)) :
    ∃ us', (s.step W plays w₀ (.perform i op)).Good W plays w₀ b ws us' := by
  obtain ⟨hi, hwrites⟩ := ha
  obtain ⟨c, hc, hworks, hb⟩ := h.working i hi
  obtain ⟨hbound, hwrites⟩ := hwrites c hc
  rw [step, through_of hc hworks.file_eq]
  cases hplays : plays i with
  | false =>
      rw [hplays, if_neg Bool.false_ne_true] at hwrites
      obtain ⟨hfits, hread, hmeaning, hhears⟩ := hwrites
      rw [reading_skip hplays]
      refine ⟨_, h.performed hi hworks hb hbound hfits hread hmeaning ?_ fun hyes => ?_⟩
      · obtain ⟨w, hw⟩ := h.heard
        obtain ⟨w', hw'⟩ := hhears w hw
        exact ⟨w', W.hearAll_snoc hw hw'⟩
      · rw [hplays] at hyes
        cases hyes
  | true =>
      rw [hplays, if_pos rfl] at hwrites
      obtain ⟨hfits, hrefuses⟩ := hwrites
      obtain ⟨hcontext, hdatabase⟩ := hworks.played hplays
      rw [h.written] at hcontext hdatabase
      have hrun := Multiplexer.call_journal W op c.database c.journal
      rw [reading_play hplays, WritableClient.perform]
      cases hsay : W.say op c.database with
      | ok u db =>
          rw [hsay] at hrun
          obtain ⟨hhear, hread⟩ := hW.say (hW.hearAll hw₀ hdatabase) hsay
          have hall := W.hearAll_snoc hdatabase hhear
          simp only [hrun]
          exact ⟨_, h.performed hi hworks hb hbound (hfits db hsay) hread
            (by rw [← hcontext]; exact meaning_abbreviate _ _) ⟨db, hall⟩ fun _ => hall⟩
      | error e db =>
          rw [hsay] at hrun
          obtain rfl := hrefuses e db hsay
          simp only [hrun]
          exact ⟨us, by rw [put_self hc hworks.file_eq]; exact h⟩

omit [DecidableEq ι] in
/-- The marks of a checkpoint are written in full, and mean nothing to a database. -/
theorem marks_spec {P : ω → Prop} (hW : W.Replays P) (c : WritableClient ω) (now : BitVec 64)
    (k k' : Context) (w : ω) :
    decodeAll k' (encodeAll k (c.marks now)) = c.marks now ∧
      (∀ w ∈ encodeAll k (c.marks now), w.Fits) ∧ (∀ op ∈ c.marks now, op.Readable) ∧
      W.hearAll (c.marks now) w = .ok () w := by
  have hone : ∀ op : Op, op = .validData ∨ op = .timestamp now →
      (abbreviate k op).meaning k' = op ∧ (abbreviate k op).Fits ∧ op.Readable ∧
        W.hear op w = .ok () w ∧ op.context k = k ∧ op.context k' = k' := by
    rintro op (rfl | rfl)
    · exact ⟨rfl, trivial, trivial, hW.validData w, rfl, rfl⟩
    · exact ⟨rfl, trivial, trivial, hW.timestamp now w, rfl, rfl⟩
  have hall : ∀ ops : List Op, (∀ op ∈ ops, op = .validData ∨ op = .timestamp now) →
      decodeAll k' (encodeAll k ops) = ops ∧ (∀ w ∈ encodeAll k ops, w.Fits) ∧
        (∀ op ∈ ops, op.Readable) ∧ W.hearAll ops w = .ok () w := by
    intro ops hops
    induction ops with
    | nil => exact ⟨rfl, fun w hw => absurd hw List.not_mem_nil,
        fun op hop => absurd hop List.not_mem_nil, rfl⟩
    | cons op ops ih =>
        obtain ⟨hop, hops⟩ := List.forall_mem_cons.mp hops
        obtain ⟨hmeaning, hfits, hread, hhear, hcontext, hcontext'⟩ := hone op hop
        obtain ⟨hdecode, hfits', hread', hhear'⟩ := ih hops
        refine ⟨?_, ?_, List.forall_mem_cons.mpr ⟨hread, hread'⟩, ?_⟩
        · rw [encodeAll, decodeAll, hmeaning, hcontext, hcontext', hdecode]
        · rw [encodeAll, hcontext]
          exact List.forall_mem_cons.mpr ⟨hfits, hfits'⟩
        · rw [Writable.hearAll, bind_ok hhear]
          exact hhear'
  refine hall _ fun op hop => ?_
  rw [WritableClient.marks, List.mem_append] at hop
  rcases hop with hop | hop
  · split at hop
    · exact .inl (List.mem_singleton.mp hop)
    · cases hop
  · split at hop
    · exact .inr (List.mem_singleton.mp hop)
    · cases hop

theorem Good.checkpoint {P : ω → Prop} (hW : W.Replays P) (h : s.Good W plays w₀ b ws us) {i : ι}
    {now : BitVec 64} (ha : s.Allowed W plays w₀ (.checkpoint i now)) :
    ∃ b' us', (s.step W plays w₀ (.checkpoint i now)).Good W plays w₀ b' us' us' := by
  obtain ⟨hi, hbound⟩ := ha
  obtain ⟨c, hc, hworks, hb⟩ := h.working i hi
  rw [step, through_of hc hworks.file_eq]
  obtain ⟨hwork, hcontext, hend, hcp, hhard⟩ :=
    WritableClient.doCheckpoint_atWork hworks.work now (hbound c hc)
  obtain ⟨w, hheard⟩ := h.heard
  obtain ⟨hdecode, hfits, hread, -⟩ :=
    marks_spec hW c now c.journal.context (contextAfter .reset s.written) w
  obtain ⟨hholds, hlog, hwritten⟩ := keep_spec (s := s.put i (c.doCheckpoint now)) (i := i) hi
    (c.marks now)
  have hlog : _ = s.written ++ c.marks now := hlog
  have hwritten : _ = s.written ++ c.marks now := hwritten
  have hall : decodeAll .reset (us ++ encodeAll c.journal.context (c.marks now))
      = s.written ++ c.marks now := by
    rw [decodeAll_append, h.written, hdecode]
  have hmarks : ∀ {w : ω}, W.hearAll s.written w₀ = .ok () w →
      W.hearAll (s.written ++ c.marks now) w₀ = .ok () w := fun {w} hw => by
    rw [W.hearAll_append hw]
    exact (marks_spec hW c now .reset .reset w).2.2.2
  refine ⟨_, _, h.worked hi (c := c.doCheckpoint now)
    ((s.put i (c.doCheckpoint now)).keep (c.marks now)) rfl rfl rfl rfl hholds
    (h.kept.trans (List.prefix_append us _)) (List.prefix_refl _)
    ⟨rfl, hwork, fun hplays => ⟨?_, ?_⟩⟩ ?_ ?_ ?_ ?_ (hall.trans hlog.symm)
    (hall.trans hwritten.symm) ?_ (hwritten ▸ ⟨w, hmarks hheard⟩)⟩
  · obtain ⟨hplayed, -⟩ := hworks.played hplays
    rw [hcontext, hall, contextAfter_append, WritableClient.contextAfter_marks, hplayed,
      h.written]
  · obtain ⟨-, hplayed⟩ := hworks.played hplays
    rw [h.written] at hplayed
    rw [hall]
    exact hmarks hplayed
  · rw [hend, hwork.position]
  · rw [← hb]
    exact hhard
  · rw [← hb]
    exact hcp
  · intro w hw
    rcases List.mem_append.mp hw with hw | hw
    · exact h.fits w hw
    · exact hfits w hw
  · rw [hwritten]
    intro op hop
    rcases List.mem_append.mp hop with hop | hop
    · exact h.readable op hop
    · exact hread op hop

/-- What a call does to a client but not to its journal and its database. -/
theorem Good.touched (h : s.Good W plays w₀ b ws us) {i : ι} {c c' : WritableClient ω}
    (hc : s.clients i = some c) (hjournal : c'.journal = (c.onto s.data).journal)
    (hdatabase : c'.database = c.database) : (s.put i c').Good W plays w₀ b ws us := by
  by_cases hi : s.Holds i
  · obtain ⟨c₁, hc₁, hworks, hb⟩ := h.working i hi
    obtain rfl := Option.some.inj (hc.symm.trans hc₁)
    rw [onto_self hworks.file_eq] at hjournal
    have hb' : c'.journal.checkpoints = b := hjournal ▸ hb
    have hgood := h.worked hi (c := c') (s.put i c') rfl rfl rfl rfl hi (List.prefix_refl ws)
      h.kept ⟨rfl, hjournal ▸ hworks.work, fun hplays => ?_⟩ ?_ ?_ ?_ h.fits h.log h.written
      h.readable h.heard
    · rw [← hb']
      exact hgood
    · rw [hjournal, hdatabase]
      exact hworks.played hplays
    · exact (congrArg Checkpoints.checkpointPosition hb').trans h.tells.length
    · exact Nat.le_of_eq (congrArg Checkpoints.hardCheckpointPosition hb').symm
    · exact Nat.le_of_eq (congrArg Checkpoints.checkpointPosition hb').symm
  · refine h.setClient hi (by rw [hjournal]; rfl) ?_
    rcases h.resting i c hc hi with hleft | hfollows
    · refine .inl ⟨?_, hdatabase ▸ hleft.heard⟩
      rw [WritableClient.Stuck, hjournal]
      exact hleft.stuck
    · have honto := hfollows.onto s.data
      obtain ⟨j, w, n, v, t, u, l⟩ := c'
      obtain rfl : j = _ := hjournal
      obtain rfl : w = _ := hdatabase
      exact .inr ⟨honto.shared, honto.waiting, honto.behind, honto.read⟩

omit [DecidableEq ι] in
/-- What the holder becomes when it gives the lock back. -/
theorem Good.given (h : s.Good W plays w₀ b ws us) {i : ι} (hi : s.Holds i)
    {c : WritableClient ω} (hworks : Works W plays w₀ s.data us i c)
    (hb : c.journal.checkpoints = b) :
    Left W plays w₀ s.give.past ws i c.unlock ∨ c.unlock.Follows (reading W plays i) w₀ b ws := by
  have hready := hworks.work.sound.ready
  rcases Nat.lt_or_ge c.journal.getCheckpoint c.journal.getPosition with hlt | hge
  · obtain ⟨kept, fresh, hturn⟩ := hi.turn
    have hpast : s.give.past = s.past ++ [⟨i, kept, fresh⟩] := by
      rw [give, hturn]
      rfl
    have hwritten : s.written = s.log ++ fresh := by
      rw [SharedFile.written, hturn]
      rfl
    refine .inl ⟨hlt, fun hplays => ⟨⟨i, kept, fresh⟩, ?_, rfl, ws, List.prefix_refl ws, ?_⟩⟩
    · rw [hpast]
      exact List.mem_append_right _ (List.mem_singleton_self _)
    · rw [h.log, ← hwritten, ← h.written]
      exact (hworks.played hplays).2
  · -- nothing is left without a checkpoint, so the client has read all of the file
    have hposition : c.journal.getPosition = c.journal.getCheckpoint :=
      Nat.le_antisymm hge (Nat.le_trans hready.checkpoint_le hready.position_le)
    have hall : ws = us := by
      refine eq_of_prefix_of_length h.kept ?_
      have hlen := hworks.work.position
      rw [hposition, Journal.getCheckpoint, hb, h.tells.length] at hlen
      omega
    subst hall
    refine .inr ⟨hworks.work.shared, Sharing.waiting_of_sound hworks.work.sound hge,
      Sharing.behind_of_agrees hworks.work.sound.agrees
        (congrArg Checkpoints.hardCheckpointPosition hb)
        (congrArg Checkpoints.checkpointPosition hb), fun V hV => ?_⟩
    obtain ⟨hplays, rfl⟩ := reading_eq_play hV
    obtain ⟨hcontext, hdatabase⟩ := hworks.played hplays
    exact ⟨ws, List.prefix_refl ws, hworks.work.position, hcontext, hdatabase⟩

theorem Good.unlock (h : s.Good W plays w₀ b ws us) {i : ι} (hi : s.Holds i) :
    (s.step W plays w₀ (.unlock i)).Good W plays w₀ b ws ws := by
  obtain ⟨c, hc, hworks, hb⟩ := h.working i hi
  rw [step, through_of hc hworks.file_eq]
  obtain ⟨hturn, hlog, hwritten⟩ := give_spec (s.put i c.unlock)
  have hlog : _ = s.log := hlog
  have hwritten : _ = s.log := hwritten
  have hdata : (s.put i c.unlock).give.data = s.data := hworks.file_eq
  refine ⟨hdata ▸ h.tells, List.prefix_refl ws, h.fits_kept, h.log.trans hlog.symm,
    h.log.trans hwritten.symm, ?_, ?_, fun _ => rfl, fun k c' hk _ => ?_,
    fun k hk => absurd hk (not_holds hturn k), h.readers⟩
  · rw [hwritten]
    exact fun op hop => h.readable op (List.mem_append_left _ hop)
  · obtain ⟨w, hheard⟩ := h.heard
    obtain ⟨w₁, hkept, -⟩ := Writable.hearAll_prefix hheard
    rw [hwritten]
    exact ⟨w₁, hkept⟩
  · rcases update_some hk with ⟨rfl, rfl⟩ | ⟨hki, hk'⟩
    · exact h.given hi hworks hb
    · exact (h.resting k c' hk' fun hk => hki (hi.unique hk)).imp_left
        fun hleft => hleft.mono (List.prefix_append _ _) (List.prefix_refl ws)

/-! ### The others -/

theorem Good.lock {P : ω → Prop} (hW : W.Replays P) (h : s.Good W plays w₀ b ws us) {i : ι}
    {x : Exchange} (ha : s.Allowed W plays w₀ (.lock i x)) :
    ∃ b', (s.step W plays w₀ (.lock i x)).Good W plays w₀ b' ws us := by
  obtain ⟨hfree, hx⟩ := ha
  obtain rfl := h.free hfree
  rw [step, through]
  cases hc : s.clients i with
  | none => exact ⟨b, h⟩
  | some c =>
      rcases h.resting i c hc (not_holds hfree i) with hleft | hfollows
      · obtain ⟨e, hrun⟩ :=
          WritableClient.lock_stuck (r := reading W plays i) hleft.stuck s.data x
        simp only [hrun]
        exact ⟨b, h.touched hc rfl rfl⟩
      · rcases WritableClient.lock_arrives hfollows h.tells h.fits (h.listens hW i) hx with
          ⟨c', hrun, harrives⟩ | ⟨e, c', hrun, hfollows', hdata, -⟩
        · simp only [hrun]
          have hknows := harrives.knows
          have hwork := atWork_of_arrives h.tells harrives
          have hlog : ((s.put i c').take i).log = s.log := by
            simp only [SharedFile.log, take, put, hfree]
            rfl
          have hwritten : ((s.put i c').take i).written = s.written := by
            rw [written_of_free hfree, SharedFile.written, hlog]
            exact List.append_nil _
          have hbehind : b.hardCheckpointPosition ≤ c'.journal.getHardCheckpoint ∧
              b.checkpointPosition ≤ c'.journal.getCheckpoint :=
            ⟨Nat.le_of_eq hknows.hard.symm, Nat.le_of_eq hknows.checkpoint.symm⟩
          refine ⟨c'.journal.checkpoints, ⟨?_, h.kept, h.fits, h.log.trans hlog.symm,
            h.written.trans hwritten.symm, hwritten.symm ▸ h.readable, hwritten.symm ▸ h.heard,
            fun hnone => absurd hnone (Option.some_ne_none _), fun k c₁ hk hnot => ?_,
            fun k hk => ?_, fun k t ht => ?_⟩⟩
          · exact hwork.tells (List.prefix_refl _) (hknows.checkpoint.trans h.tells.length)
          · rcases update_some hk with ⟨rfl, -⟩ | ⟨-, hk'⟩
            · exact absurd rfl hnot
            · exact (h.resting k c₁ hk' (not_holds hfree k)).imp_right
                fun hf => hf.mono hbehind.1 hbehind.2 (List.prefix_refl _)
          · obtain rfl : k = i := (Option.some.inj hk).symm
            refine ⟨c', Function.update_self .., ⟨rfl, hwork, fun hplays => ?_⟩, rfl⟩
            have hread := harrives.read W (reading_play hplays)
            exact ⟨hread.context, hread.heard⟩
          · exact (h.readers k t ht).mono hbehind.1 hbehind.2 (List.prefix_refl _)
        · simp only [hrun]
          exact ⟨b, h.setClient (not_holds hfree i) hdata (.inr hfollows')⟩

theorem Good.pull {P : ω → Prop} (hW : W.Replays P) (h : s.Good W plays w₀ b ws us) {i : ι}
    {x : Exchange} (ha : s.Allowed W plays w₀ (.pull i x)) :
    (s.step W plays w₀ (.pull i x)).Good W plays w₀ b ws us := by
  obtain ⟨hfree, hx⟩ := ha
  obtain rfl := h.free hfree
  have hnot := not_holds hfree i
  rw [step, through]
  cases hc : s.clients i with
  | none => exact h
  | some c =>
      rcases h.resting i c hc hnot with hleft | hfollows
      · obtain ⟨e, hrun⟩ :=
          WritableClient.pull_stuck (r := reading W plays i) hleft.stuck s.data x
        simp only [after, hrun]
        exact h.touched hc rfl rfl
      · rcases WritableClient.pull_arrives hfollows h.tells h.fits (h.listens hW i) hx with
          ⟨n, c', hrun, harrives⟩ | ⟨e, c', hrun, hfollows', hdata, -⟩
        · simp only [after, hrun]
          exact h.setClient hnot harrives.knows.file_eq (.inr harrives.follows)
        · simp only [after, hrun]
          exact h.setClient hnot hdata (.inr hfollows')

/-- The file is as it was, and there may be one more client. -/
theorem Good.opened {P : ω → Prop} (hW : W.Replays P) (h : s.Good W plays w₀ b ws us) {i : ι}
    {reads : Pread} {recovery : Recovery} {handshake : Except Exn Nat}
    (ha : s.Allowed W plays w₀ (.openClient i reads recovery handshake)) :
    (s.step W plays w₀ (.openClient i reads recovery handshake)).Good W plays w₀ b ws us := by
  obtain ⟨hfree, -, hr⟩ := ha
  obtain rfl := h.free hfree
  rw [step]
  cases hopen : Journal.openWritable ⟨.sharedWrite, reads, s.data, []⟩ recovery with
  | error e =>
      rw [WritableClient.construct, hopen]
      exact h
  | ok j =>
      have htold : Says (File.data ⟨.sharedWrite, reads, s.data, []⟩) b us := h.tells
      have hj := Journal.opened_of_openWritable htold.header htold.agrees htold.size hr hopen
      rcases WritableClient.construct_arrives hopen hj rfl h.tells h.fits (h.listens hW i)
        handshake with ⟨c, hrun, harrives⟩ | ⟨f, hrun, hdata⟩
      · rw [hrun]
        exact h.setClient (not_holds hfree i) harrives.knows.file_eq (.inr harrives.follows)
      · rw [hrun]
        simp only [hdata]
        exact h

theorem Good.setReader (h : s.Good W plays w₀ b ws us) (i : ι) {t : Replay ω}
    (ht : t.Reads W w₀ b ws) : (s.putReader i t).Good W plays w₀ b ws us := by
  refine { h with readers := fun k t' hk => ?_ }
  rcases update_some hk with ⟨-, rfl⟩ | ⟨-, hk'⟩
  · exact ht
  · exact h.readers k t' hk'

omit [DecidableEq ι] in
theorem Good.heard_log (h : s.Good W plays w₀ b ws us) :
    ∃ w, W.hearAll (decodeAll .reset ws) w₀ = .ok () w := by
  obtain ⟨w, hheard⟩ := h.heard
  obtain ⟨w₁, hlog, -⟩ := Writable.hearAll_prefix hheard
  exact ⟨w₁, h.log ▸ hlog⟩

theorem Good.close (h : s.Good W plays w₀ b ws us) {i : ι}
    (ha : s.Allowed W plays w₀ (.close i)) :
    (s.step W plays w₀ (.close i)).Good W plays w₀ b ws us := by
  obtain ⟨hi, hposition⟩ := ha
  rw [step, through]
  cases hc : s.clients i with
  | none => exact h
  | some c =>
      rcases h.resting i c hc hi with hleft | hfollows
      · exact absurd hleft.stuck (Nat.not_lt.mpr (hposition c hc))
      · have hdata : (c.onto s.data).journal.close.data = s.data := by
          rw [WritableClient.close_of_consuming (hfollows.onto s.data).waiting.idle.consuming]
          rfl
        have hone : ∀ {k c'}, Function.update s.clients i none k = some c' →
            k ≠ i ∧ s.clients k = some c' := fun {k c'} hk => by
          by_cases hki : k = i
          · rw [hki, Function.update_self] at hk
            cases hk
          · rw [Function.update_of_ne hki] at hk
            exact ⟨hki, hk⟩
        simp only [hdata]
        refine { h with resting := fun k c' hk hnot => ?_, working := fun k hk => ?_ }
        · exact h.resting k c' (hone hk).2 hnot
        · obtain ⟨c', hk', hworks⟩ := h.working k hk
          have hki : k ≠ i := fun heq => hi (heq ▸ hk)
          exact ⟨c', by rw [← hk']; exact Function.update_of_ne hki _ _, hworks⟩

/-! ## Runs -/

theorem good_step {P : ω → Prop} (hW : W.Replays P) (hw₀ : P w₀) (h : s.Good W plays w₀ b ws us)
    {e : SharedEvent ι} (ha : s.Allowed W plays w₀ e) :
    ∃ b' ws' us', (s.step W plays w₀ e).Good W plays w₀ b' ws' us' := by
  cases e with
  | openClient i reads recovery handshake => exact ⟨_, _, _, h.opened hW ha⟩
  | openReader i reads recovery =>
      obtain ⟨w, hheard⟩ := h.heard_log
      have htold : Says (File.data ⟨.readExisting, reads, s.data, []⟩) b ws := h.tells
      obtain ⟨t, hopen, ht, -⟩ := Replay.openReader_reads hW.passive h.fits_kept hheard htold ha
      rw [step, hopen]
      exact ⟨_, _, _, h.setReader i ht⟩
  | setOptions i validData timestamp hardCheckpoint =>
      rw [step, through]
      cases hc : s.clients i with
      | none => exact ⟨_, _, _, h⟩
      | some c => exact ⟨_, _, _, h.touched hc rfl rfl⟩
  | lock i x =>
      obtain ⟨b', hgood⟩ := h.lock hW ha
      exact ⟨_, _, _, hgood⟩
  | perform i op =>
      obtain ⟨us', hgood⟩ := h.perform hW hw₀ ha
      exact ⟨_, _, _, hgood⟩
  | checkpoint i now =>
      obtain ⟨b', us', hgood⟩ := h.checkpoint hW ha
      exact ⟨_, _, _, hgood⟩
  | push i reply =>
      rw [step, through]
      cases hc : s.clients i with
      | none => exact ⟨_, _, _, h⟩
      | some c => cases reply <;> exact ⟨_, _, _, h.touched hc rfl rfl⟩
  | unlock i => exact ⟨_, _, _, h.unlock ha⟩
  | pull i x => exact ⟨_, _, _, h.pull hW ha⟩
  | pullReader i =>
      rw [step]
      cases hr : s.readers i with
      | none => exact ⟨_, _, _, h⟩
      | some t =>
          obtain ⟨w, hheard⟩ := h.heard_log
          obtain ⟨n, t', hrun, ht', -⟩ := Replay.pullReader_reads hW.passive h.fits_kept hheard
            (h.readers i t hr) h.tells
          simp only [after, hrun]
          exact ⟨_, _, _, h.setReader i ht'⟩
  | close i => exact ⟨_, _, _, h.close ha⟩

/-- With a new file there is nothing to be done but to open it for writing. -/
theorem new_step {P : ω → Prop} (hW : W.Replays P) (h : s.New) {e : SharedEvent ι}
    (ha : s.Allowed W plays w₀ e) :
    (s.step W plays w₀ e).New ∨ ∃ b ws us, (s.step W plays w₀ e).Good W plays w₀ b ws us := by
  have hnobody : ∀ i f, s.through i f = s := fun i f => by rw [through, h.clients i]
  cases e with
  | openClient i reads recovery handshake =>
      have hempty : File.data ⟨.sharedWrite, reads, s.data, []⟩ = [] := h.data
      obtain ⟨j, hopen, -⟩ := Journal.openWritable_new hempty rfl recovery
      obtain ⟨hj, htold⟩ := WritableClient.opened_new h.data rfl hopen
      obtain ⟨file, hfile⟩ : ∃ file : File, file
          = File.pwrite ⟨.sharedWrite, reads, s.data, []⟩ 0 Header.initial.bytes := ⟨_, rfl⟩
      rw [← hfile] at hj htold
      have hlog : SharedFile.log { s with data := file.data } = [] := by
        simp only [SharedFile.log, h.past, h.turn]
        rfl
      have hwritten : SharedFile.written { s with data := file.data } = [] := by
        rw [SharedFile.written, hlog, h.turn]
        rfl
      have hnone : ∀ {α : Type} {x : Option α} {y : α}, x = none → x ≠ some y :=
        fun hx hy => by rw [hx] at hy; cases hy
      have hgood : Good W plays w₀ { s with data := file.data } .initial [] [] :=
        ⟨htold, List.prefix_refl _, fun w hw => absurd hw List.not_mem_nil, hlog.symm,
          hwritten.symm, fun op hop => absurd (hwritten ▸ hop) List.not_mem_nil,
          ⟨w₀, by rw [hwritten]; rfl⟩, fun _ => rfl,
          fun i c hc => absurd hc (hnone (h.clients i)), fun i hi => absurd hi (not_holds h.turn i),
          fun i t ht => absurd ht (hnone (h.readers i))⟩
      refine .inr ⟨.initial, [], [], ?_⟩
      rw [step]
      rcases WritableClient.construct_arrives hopen hj (by rw [hfile]; rfl) htold
        (fun w hw => absurd hw List.not_mem_nil) (hgood.listens hW i) handshake with
        ⟨c, hrun, harrives⟩ | ⟨f, hrun, hdata⟩
      · rw [hrun]
        exact hgood.setClient (not_holds h.turn i) harrives.knows.file_eq (.inr harrives.follows)
      · rw [hrun]
        simp only [hdata]
        exact hgood
  | openReader i reads recovery =>
      have hempty : File.data ⟨.readExisting, reads, s.data, []⟩ = [] := h.data
      rw [step, Replay.openReader, Sharing.openReadonly_empty hempty]
      exact .inl h
  | pullReader i =>
      rw [step, h.readers i]
      exact .inl h
  | _ =>
      rw [step, hnobody]
      exact .inl h

theorem Reach.good {P : ω → Prop} (hW : W.Replays P) (hw₀ : P w₀) (h : Reach W plays w₀ s) :
    s.New ∨ ∃ b ws us, s.Good W plays w₀ b ws us := by
  induction h with
  | initial => exact .inl ⟨rfl, fun _ => rfl, fun _ => rfl, rfl, rfl⟩
  | step _ ha ih =>
      rcases ih with hnew | ⟨b, ws, us, hgood⟩
      · exact new_step hW hnew ha
      · exact .inr (good_step hW hw₀ hgood ha)

/-! ## What is read -/

/-- The file, opened by some reader. -/
def readBy (s : SharedFile ι ω) (reads : Pread) : File := ⟨.readExisting, reads, s.data, []⟩

omit [DecidableEq ι] in
/-- The log is what the file says. -/
theorem Good.replayed {P : ω → Prop} (hW : W.Replays P) (h : s.Good W plays w₀ b ws us)
    (reads : Pread) :
    (∃ t, replayFile (s.readBy reads) = .ok t ∧ t.writable = s.log.flatMap Op.visible ∧
      t.journal.getPosition = t.journal.getCheckpoint) ∧
    ∃ t, replayInto W w₀ (s.readBy reads) = .ok t ∧ W.hearAll s.log w₀ = .ok () t.writable := by
  have hread : ∀ op ∈ decodeAll .reset ws, op.Readable :=
    fun op hop => h.readable op (List.mem_append_left _ (h.log ▸ hop))
  have htells : Says (s.readBy reads).data b ws := h.tells
  obtain ⟨w, hheard⟩ := h.heard_log
  constructor
  · obtain ⟨t, hplay, hheard, -, hcp, hposition⟩ := replayInto_hear recorder_passive htells.header
      htells.agrees htells.size h.fits_kept htells.committed (recorder_hearAll hread [])
    rw [h.log, List.nil_append] at hheard
    exact ⟨t, hplay, hheard, hposition.trans hcp.symm⟩
  · obtain ⟨t, hplay, hw, -⟩ := replayInto_hear hW.passive htells.header htells.agrees htells.size
      h.fits_kept htells.committed hheard
    rw [h.log] at hheard
    exact ⟨t, hplay, hw ▸ hheard⟩

omit [DecidableEq ι] in
/-- What the start of the file tells is the start of the log. -/
theorem Good.decodeAll_prefix (h : s.Good W plays w₀ b ws us) {us' : List Wire}
    (hus : us' <+: ws) : decodeAll .reset us' <+: s.log := by
  obtain ⟨vs, rfl⟩ := hus
  rw [← h.log, decodeAll_append]
  exact List.prefix_append _ _

omit [DecidableEq ι] in
/-- A database is the replay of a part of the log, and of all of it, with what was written since,
where its client holds the lock. Operations that a client gave the lock back with stay in its
database, behind a part of the log. -/
theorem Good.database (h : s.Good W plays w₀ b ws us) {i : ι} (hplays : plays i = true)
    {c : WritableClient ω} (hc : s.clients i = some c) :
    (s.Holds i → W.hearAll s.written w₀ = .ok () c.database) ∧
      (¬ s.Holds i → ¬ c.Stuck →
        ∃ ops, ops <+: s.log ∧ W.hearAll ops w₀ = .ok () c.database) ∧
      (¬ s.Holds i → c.Stuck → ∃ t ∈ s.past, t.client = i ∧
        ∃ ops, ops <+: s.log ∧ W.hearAll (ops ++ t.fresh) w₀ = .ok () c.database) := by
  refine ⟨fun hi => ?_, fun hi hstuck => ?_, fun hi hstuck => ?_⟩
  · obtain ⟨c', hc', hworks, -⟩ := h.working i hi
    obtain rfl := Option.some.inj (hc.symm.trans hc')
    rw [← h.written]
    exact (hworks.played hplays).2
  · rcases h.resting i c hc hi with hleft | hfollows
    · exact absurd hleft.stuck hstuck
    · obtain ⟨us', hus, hread⟩ := hfollows.read W (reading_play hplays)
      exact ⟨_, h.decodeAll_prefix hus, hread.heard⟩
  · rcases h.resting i c hc hi with hleft | hfollows
    · obtain ⟨t, ht, hclient, us', hus, hheard⟩ := hleft.heard hplays
      exact ⟨t, ht, hclient, _, h.decodeAll_prefix hus, hheard⟩
    · exact absurd hfollows.waiting.position_le (Nat.not_le.mpr hstuck)

omit [DecidableEq ι] in
/-- Whoever takes the lock or pulls has the replay of the log. If it cannot, this is not for what
the log has. -/
theorem Good.locked {P : ω → Prop} (hW : W.Replays P) (h : s.Good W plays w₀ b ws us) {i : ι}
    (hplays : plays i = true) {c : WritableClient ω} (hc : s.clients i = some c) {x : Exchange}
    (hfree : s.turn = none) (hx : x.transfers = []) :
    (∀ c', WritableClient.lock (.play W) x (c.onto s.data) = .ok () c' →
      W.hearAll s.log w₀ = .ok () c'.database) ∧
    (∀ n c', WritableClient.pull (.play W) x (c.onto s.data) = .ok n c' →
      W.hearAll s.log w₀ = .ok () c'.database) ∧
    ∀ e c', WritableClient.lock (.play W) x (c.onto s.data) = .error e c' ∨
        WritableClient.pull (.play W) x (c.onto s.data) = .error e c' →
      c.Stuck ∨ c.connectionCheckpoint < c.journal.getCheckpoint ∨ x.mismatch ≠ none ∨
        x.reply = .error e := by
  have hlistens := h.listens hW i
  have hresting := h.resting i c hc (not_holds hfree i)
  rw [reading_play hplays] at hlistens hresting
  rcases hresting with ⟨hstuck, -⟩ | hfollows
  · obtain ⟨e, hlock⟩ := WritableClient.lock_stuck (r := .play W) hstuck s.data x
    obtain ⟨e', hpull⟩ := WritableClient.pull_stuck (r := .play W) hstuck s.data x
    refine ⟨fun c' hrun => ?_, fun n c' hrun => ?_, fun _ _ _ => .inl hstuck⟩
    · rw [hlock] at hrun
      cases hrun
    · rw [hpull] at hrun
      cases hrun
  · have hdatabase : ∀ {c' : WritableClient ω}, c'.Arrives (.play W) w₀ b ws s.data →
        W.hearAll s.log w₀ = .ok () c'.database := fun harrives => by
      rw [← h.log]
      exact (harrives.read W rfl).heard
    have hlock := WritableClient.lock_arrives hfollows h.tells h.fits_kept hlistens hx
    have hpull := WritableClient.pull_arrives hfollows h.tells h.fits_kept hlistens hx
    refine ⟨fun c' hrun => ?_, fun n c' hrun => ?_, fun e c' hrun => .inr ?_⟩
    · rcases hlock with ⟨c₁, hrun₁, harrives⟩ | ⟨e, c₁, hrun₁, -⟩
      · obtain ⟨-, rfl⟩ := EStateM.Result.ok.inj (hrun.symm.trans hrun₁)
        exact hdatabase harrives
      · rw [hrun] at hrun₁
        cases hrun₁
    · rcases hpull with ⟨n₁, c₁, hrun₁, harrives⟩ | ⟨e, c₁, hrun₁, -⟩
      · obtain ⟨-, rfl⟩ := EStateM.Result.ok.inj (hrun.symm.trans hrun₁)
        exact hdatabase harrives
      · rw [hrun] at hrun₁
        cases hrun₁
    · rcases hrun with hrun | hrun
      · rcases hlock with ⟨c₁, hrun₁, -⟩ | ⟨e₁, c₁, hrun₁, -, -, hwhy⟩
        · rw [hrun] at hrun₁
          cases hrun₁
        · obtain ⟨rfl, -⟩ := EStateM.Result.error.inj (hrun.symm.trans hrun₁)
          exact hwhy
      · rcases hpull with ⟨n₁, c₁, hrun₁, -⟩ | ⟨e₁, c₁, hrun₁, -, -, hwhy⟩
        · rw [hrun] at hrun₁
          cases hrun₁
        · obtain ⟨rfl, -⟩ := EStateM.Result.error.inj (hrun.symm.trans hrun₁)
          exact hwhy

end SharedFile

/-! ## Databases -/

theorem Database.replays : asWritable.Replays Database.Sound where
  passive := asWritable_passive
  say {db db' op} h hsay := by
    cases op with
    | writeBlob data => exact hear_of_call h hsay
    | _ => exact hear_of_call h hsay
  hear h hhear := (h.hear hhear).1
  validData _ := rfl
  timestamp _ _ := rfl

namespace SharedFile

variable {ι : Type} [DecidableEq ι] {plays : ι → Bool} {maxRecordId : RecordId}
  {s : SharedFile ι Database}

/-- A database client in its first turn. -/
def firstTurn : List (SharedEvent Unit) :=
  [.openClient () .whole .none (.ok 41), .lock () ⟨none, [], .ok 41⟩,
    .perform () (.createTable [0x74]), .checkpoint () 0]

/-- The file after `n` events of it. -/
def first (n : Nat) : SharedFile Unit Database :=
  (firstTurn.take n).foldl (step Database.asWritable (fun _ => true) (.create (-1))) .initial

theorem reach_made : Reach Database.asWritable (fun _ => true) (.create (-1)) (first 3) := by
  have hopened : Reach Database.asWritable (fun _ => true) (.create (-1)) (first 1) :=
    Reach.initial.step (e := .openClient () .whole .none (.ok 41)) ⟨rfl, rfl, by decide⟩
  have hlocked : Reach Database.asWritable (fun _ => true) (.create (-1)) (first 2) :=
    hopened.step (e := .lock () ⟨none, [], .ok 41⟩) ⟨rfl, rfl⟩
  refine hlocked.step (e := .perform () (.createTable [0x74])) ⟨rfl, fun c hc => ?_⟩
  obtain rfl := Option.some.inj hc
  refine ⟨by decide +kernel, fun _ _ => (by decide : 1 < 2 ^ 61), fun e db hrefused => ?_⟩
  cases hrefused

theorem reach_first : Reach Database.asWritable (fun _ => true) (.create (-1)) (first 4) := by
  refine reach_made.step (e := .checkpoint () 0) ⟨rfl, fun c hc => ?_⟩
  obtain rfl := Option.some.inj hc
  decide +kernel

/-- The lock is given back with an operation that no checkpoint has. -/
def left : SharedFile Unit Database :=
  (first 3).step Database.asWritable (fun _ => true) (.create (-1)) (.unlock ())

theorem reach_left : Reach Database.asWritable (fun _ => true) (.create (-1)) left :=
  reach_made.step (e := .unlock ()) rfl

/-- At every moment of every run, in the middle of a turn as well, whoever opens the file reads
the turns in the order of their locks, and of each turn what has been made a checkpoint of. -/
theorem serializable (hs : Reach Database.asWritable plays (.create maxRecordId) s)
    (hopened : s.data ≠ []) (reads : Pread) :
    (∃ t, replayFile (s.readBy reads) = .ok t ∧ t.writable = s.log.flatMap Op.visible ∧
      t.journal.getPosition = t.journal.getCheckpoint) ∧
    ∃ t, replayInto Database.asWritable (.create maxRecordId) (s.readBy reads) = .ok t ∧
      Database.asWritable.hearAll s.log (.create maxRecordId) = .ok () t.writable := by
  rcases hs.good Database.replays (Database.sound_create maxRecordId) with
    hnew | ⟨b, ws, us, hgood⟩
  · exact absurd hnew.data hopened
  · exact hgood.replayed Database.replays reads

theorem serializable_first : ∃ t, replayFile ((first 4).readBy .whole) = .ok t ∧
    t.writable = (first 4).log.flatMap Op.visible ∧ (first 4).log = [.createTable [0x74]] := by
  obtain ⟨⟨t, hreplay, hheard, -⟩, -⟩ := serializable reach_first (by decide +kernel) .whole
  exact ⟨t, hreplay, hheard, by decide +kernel⟩

/-- Two journal clients and three turns. The first and the last are of the same client, which
inserts two records into table 1; the other one inserts a record into table 2. -/
def staleTurns : List (SharedEvent Bool) :=
  [.openClient false .whole .none (.ok 41), .openClient true .whole .none (.ok 41),
    .lock false ⟨none, [], .ok 41⟩, .perform false (.insertInto 1 0), .checkpoint false 0,
    .push false (.ok 44), .unlock false,
    .lock true ⟨none, [], .ok 44⟩, .perform true (.insertInto 2 0), .checkpoint true 0,
    .push true (.ok 47), .unlock true,
    .lock false ⟨none, [], .ok 47⟩, .perform false (.insertInto 1 1), .checkpoint false 0,
    .push false (.ok 48), .unlock false]

/-- The second insertion into table 1 is written as `append`, and a reader makes it one into
table 2. -/
theorem stale_append :
    let s := staleTurns.foldl (step dummyWritable (fun _ => false) ()) .initial
    s.log = [.insertInto 1 0, .insertInto 2 0, .insertInto 1 1] ∧
      (replayFile (s.readBy .whole)).toOption.map (·.writable)
        = some [.insertInto 1 0, .insertInto 2 0, .insertInto 2 1] := by
  decide +kernel

/-- Every database is the replay of a part of the log from its start. It is the replay of all of
it when a lock is taken, when a pull returns, and, with what was written since, as long as the
lock is held. No lock and no pull fails for what the others have written. A client that gave the
lock back with operations that are not in the log keeps them, behind its part of the log, and
gets no lock and no pull any more. -/
theorem databases_follow (hs : Reach Database.asWritable plays (.create maxRecordId) s) :
    (∀ i c, plays i = true → s.clients i = some c →
      (s.Holds i →
        Database.asWritable.hearAll s.written (.create maxRecordId) = .ok () c.database) ∧
      (¬ s.Holds i → ¬ c.Stuck → ∃ ops, ops <+: s.log ∧
        Database.asWritable.hearAll ops (.create maxRecordId) = .ok () c.database) ∧
      (¬ s.Holds i → c.Stuck →
        (∃ t ∈ s.past, t.client = i ∧ ∃ ops, ops <+: s.log ∧
          Database.asWritable.hearAll (ops ++ t.fresh) (.create maxRecordId)
            = .ok () c.database) ∧
        ∀ x, (∃ e, WritableClient.lock (.play Database.asWritable) x (c.onto s.data)
            = .error e (c.onto s.data)) ∧
          ∃ e, WritableClient.pull (.play Database.asWritable) x (c.onto s.data)
            = .error e (c.onto s.data)) ∧
      ∀ x : Exchange, s.turn = none → x.transfers = [] →
        (∀ c', WritableClient.lock (.play Database.asWritable) x (c.onto s.data) = .ok () c' →
          Database.asWritable.hearAll s.log (.create maxRecordId) = .ok () c'.database) ∧
        (∀ n c', WritableClient.pull (.play Database.asWritable) x (c.onto s.data) = .ok n c' →
          Database.asWritable.hearAll s.log (.create maxRecordId) = .ok () c'.database) ∧
        ∀ e c',
          WritableClient.lock (.play Database.asWritable) x (c.onto s.data) = .error e c' ∨
            WritableClient.pull (.play Database.asWritable) x (c.onto s.data) = .error e c' →
          c.Stuck ∨ c.connectionCheckpoint < c.journal.getCheckpoint ∨ x.mismatch ≠ none ∨
            x.reply = .error e) ∧
    ∀ i t, s.readers i = some t →
      (∃ ops, ops <+: s.log ∧
        Database.asWritable.hearAll ops (.create maxRecordId) = .ok () t.writable) ∧
      ∃ n t', Replay.pullReader Database.asWritable (t.onto s.data) = .ok n t' ∧
        Database.asWritable.hearAll s.log (.create maxRecordId) = .ok () t'.writable := by
  rcases hs.good Database.replays (Database.sound_create maxRecordId) with
    hnew | ⟨b, ws, us, hgood⟩
  · refine ⟨fun i c _ hc => ?_, fun i t ht => ?_⟩
    · rw [hnew.clients i] at hc
      cases hc
    · rw [hnew.readers i] at ht
      cases ht
  · refine ⟨fun i c hplays hc => ?_, fun i t ht => ?_⟩
    · obtain ⟨hholds, hrests, hleft⟩ := hgood.database hplays hc
      exact ⟨hholds, hrests, fun hi hstuck => ⟨hleft hi hstuck, fun x =>
          ⟨WritableClient.lock_stuck hstuck s.data x, WritableClient.pull_stuck hstuck s.data x⟩⟩,
        fun x hfree hx => hgood.locked Database.replays hplays hc hfree hx⟩
    · obtain ⟨us', hus, hread⟩ := (hgood.readers i t ht).read
      refine ⟨⟨_, hgood.decodeAll_prefix hus, hread.heard⟩, ?_⟩
      obtain ⟨w, hheard⟩ := hgood.heard_log
      obtain ⟨n, t', hrun, -, rfl⟩ := Replay.pullReader_reads Database.replays.passive
        hgood.fits_kept hheard (hgood.readers i t ht) hgood.tells
      rw [hgood.log] at hheard
      exact ⟨n, t', hrun, hheard⟩

/-- In its first turn a client has the table, and it has it still when it gives the lock back
without a checkpoint, though the log is empty. -/
theorem databases_follow_first :
    (∃ c, (first 4).clients () = some c ∧
      Database.asWritable.hearAll (first 4).written (.create (-1)) = .ok () c.database) ∧
    ∃ c, left.clients () = some c ∧ left.log = [] ∧
      ∃ t ∈ left.past, t.fresh = [.createTable [0x74]] ∧
        Database.asWritable.hearAll t.fresh (.create (-1)) = .ok () c.database := by
  refine ⟨⟨_, rfl, ((databases_follow reach_first).1 () _ rfl rfl).1 rfl⟩, ?_⟩
  obtain ⟨c, hc⟩ : ∃ c, left.clients () = some c := ⟨_, rfl⟩
  have hstuck : ∀ c ∈ left.clients (), c.journal.getCheckpoint < c.journal.getPosition := by
    decide +kernel
  obtain ⟨⟨t, ht, -, ops, hops, hheard⟩, -⟩ :=
    ((databases_follow reach_left).1 () c rfl hc).2.2.1 (by decide +kernel) (hstuck c hc)
  have hlog : left.log = [] := by decide +kernel
  rw [hlog] at hops
  obtain rfl := List.prefix_nil.mp hops
  have hfresh : ∀ t ∈ left.past, t.fresh = [.createTable [0x74]] := by decide +kernel
  exact ⟨c, hc, hlog, t, ht, hfresh t ht, hheard⟩

end SharedFile

end Joedb
