import Joedb.Journal.Actions

/-!
# Process crashes

A process stops between two calls on its file, and the file is opened again.
Nothing that was written is lost, so the question is what the header says at
that instant: at least the last checkpoint that completed, and one that was
started.

It does, but for one instant. The first half of a hard checkpoint overwrites the
first soft word of its pair. When the newest soft checkpoint is there, it is
gone, and the older one is all that a reader finds. `SoftKept` rules that out.
-/

namespace Joedb

open ByteFile FileBuffer

namespace ProcessCrash

/-- A journal, the positions of the checkpoints that were started, and that of
the last one that completed. Creation counts as the first. -/
structure State where
  journal : Journal
  started : List Nat
  completed : Nat

namespace State

def act (s : State) (a : Action) : State where
  journal := s.journal.act a
  started := s.started ++ a.target.toList
  completed := a.target.getD s.completed

/-- The file that a process leaves behind, as another one opens it. -/
def left (s : State) (cut : List Call) (mode : OpenMode) (reads : Pread) : File where
  mode := mode
  reads := reads
  data := s.journal.dataAt cut
  calls := []

end State

/-- A hard checkpoint does not go back, and starts when no soft checkpoint is
newer than the hard one or the newest is in the second word of its pair. -/
def SoftKept (j : Journal) : Action → Prop
  | .hardCheckpointAt p =>
      j.getHardCheckpoint < p → j.getCheckpoint ≤ p ∧
        (j.getCheckpoint = j.getHardCheckpoint ∨ j.checkpoints.softIndex = true)
  | _ => True

/-- The runs whose actions are all `kept`. A reopened journal goes to its
checkpoint before it is written on. -/
inductive Reach (kept : Journal → Action → Prop) : State → Prop where
  | create (file : File) (recovery : Recovery) {j : Journal} (hempty : file.data = [])
      (hmode : file.isReadonly = false)
      (hopen : Journal.openWritable file recovery = .ok j) :
      Reach kept ⟨j, [headerSize], headerSize⟩
  | act {s : State} {a : Action} (hs : Reach kept s) (ha : s.journal.Allowed a)
      (hkept : kept s.journal a) : Reach kept (s.act a)
  | reopen {s : State} {a : Action} {cut : List Call} {j : Journal} (hs : Reach kept s)
      (ha : s.journal.Allowed a) (hkept : kept s.journal a)
      (hcut : cut <+: s.journal.callsOf a) (mode : OpenMode) (reads : Pread)
      (recovery : Recovery) (hr : recovery ≠ .ignoreHeader)
      (hopen : Journal.openWritable (s.left cut mode reads) recovery = .ok j) :
      Reach kept ⟨j.skipDirectlyTo j.getCheckpoint, s.started ++ a.target.toList, s.completed⟩

structure State.Good (s : State) : Prop where
  sound : s.journal.Sound
  completed_le : s.completed ≤ s.journal.getCheckpoint
  mem_started : s.journal.getCheckpoint ∈ s.started

/-! ## Instants -/

/-- What a file at an instant says: a checkpoint `c` behind its header. -/
structure Tells (data : Bytes) (c : Checkpoints) : Prop where
  header : HasHeader data
  agrees : Agrees (headerWord data) c
  size : c.checkpointPosition ≤ data.length

theorem Tells.setWord {f : Bytes} {c c' : Checkpoints} (h : Tells f c) (i j : Bool) {x : Int}
    (hlo : -(2 ^ 63) ≤ x) (hhi : x < 2 ^ 63)
    (hw : Agrees (Joedb.setWord (headerWord f) (wordIndex i j) x) c')
    (hsize : c'.checkpointPosition ≤ f.length) :
    Tells (pwrite f (8 * wordIndex i j) (encodeInt64 x)) c' := by
  have hlen := length_pwrite_word h.header.length (wordIndex_lt i j) x
  refine ⟨h.header.pwrite_word (wordIndex_lt i j) x, ?_, by rw [hlen]; exact hsize⟩
  rw [Journal.headerWord_pwrite_setWord h.header.length i j hlo hhi]
  exact hw

open Journal in
/-- At every instant of an action, the file tells the old checkpoint or the new
one. -/
theorem instant_tells {j : Journal} (h : j.Sound) {a : Action} (ha : j.Allowed a)
    (hkept : SoftKept j a) {cut : List Call} (hcut : cut <+: j.callsOf a) :
    ∃ c, Tells (j.dataAt cut) c ∧ j.getCheckpoint ≤ c.checkpointPosition ∧
      (c.checkpointPosition = j.getCheckpoint ∨ a.target = some c.checkpointPosition) := by
  have hdata : ∀ bs, Tells (pwrite j.file.data j.fileBuffer.position bs) j.checkpoints := by
    intro bs
    obtain ⟨hheader, hagrees⟩ := h.header_pwrite bs
    exact ⟨hheader, hagrees, Nat.le_trans h.ready.checkpoint_le
      (Nat.le_trans h.ready.flushed (length_le_pwrite _ _ _))⟩
  rcases h.ready.instant hcut with ⟨ds, rfl⟩ | ⟨ds, rest, rfl, hrest, hne, hflush⟩
  · refine ⟨j.checkpoints, ?_, Nat.le_refl _, .inl rfl⟩
    rw [dataAt, foldl_callsAt h.ready.flushed]
    exact hdata _
  · have hfull : Tells j.flush.file.data j.checkpoints := by
      rw [← hflush]; exact hdata _
    have hsize : j.getPosition ≤ j.flush.file.data.length := by
      rw [← h.ready.flush_position]; exact h.ready.flush.1.flushed
    rw [dataAt, List.foldl_append, foldl_callsAt h.ready.flushed, hflush]
    cases a with
    | perform op => exact absurd (List.prefix_nil.mp hrest) hne
    | flush => exact absurd (List.prefix_nil.mp hrest) hne
    | softCheckpointAt p =>
        rw [headCalls] at hrest
        split at hrest
        · next hlt =>
            rcases List.prefix_cons_iff.mp hrest with rfl | ⟨tail, rfl, htail⟩
            · exact absurd rfl hne
            · obtain rfl := List.prefix_nil.mp htail
              refine ⟨j.checkpoints.soft p, ?_, Nat.le_of_lt hlt, .inr rfl⟩
              have hmax := ha.2
              have hp : ((p : Nat) : Int) < 2 ^ 63 := by exact_mod_cast hmax
              rw [neg_of_lt (by omega)]
              exact hfull.setWord _ _ (by omega) (by omega)
                (agrees_soft hfull.agrees hlt hmax) (Nat.le_trans ha.1 hsize)
        · exact absurd (List.prefix_nil.mp hrest) hne
    | hardCheckpointAt p =>
        rw [headCalls] at hrest
        split at hrest
        · next hlt =>
            obtain ⟨hback, hsoft⟩ := hkept hlt
            have hp : ((p : Nat) : Int) < 2 ^ 63 := by exact_mod_cast ha.2
            have htorn := hfull.setWord (!j.checkpoints.hardIndex) false (by omega) hp
              (agrees_torn hfull.agrees hsoft p) hfull.size
            have hdone : Tells _ (j.checkpoints.hard p) := htorn.setWord
              (!j.checkpoints.hardIndex) true (by omega) hp (by
                rw [headerWord_pwrite_setWord hfull.header.length _ _ (by omega) hp]
                exact agrees_hard hfull.agrees (Nat.le_of_lt hlt) ha.2) (by
                rw [length_pwrite_word hfull.header.length (wordIndex_lt _ _)]
                exact Nat.le_trans ha.1 hsize)
            -- before the second word the old checkpoint is read, behind it the new one
            have hcut : (rest = [_] ∨ rest = [_, _]) ∨ (rest = [_, _, _] ∨ rest = [_, _, _, _]) :=
              Journal.prefix_four hrest hne
            rcases hcut with hearly | hlate
            · refine ⟨{ j.checkpoints with softIndex := true }, ?_, Nat.le_refl _, .inl rfl⟩
              rcases hearly with rfl | rfl <;> exact htorn
            · refine ⟨j.checkpoints.hard p, ?_, hback, .inr rfl⟩
              rcases hlate with rfl | rfl <;> exact hdone
        · exact absurd (List.prefix_nil.mp hrest) hne

/-! ## Runs -/

namespace State.Good

variable {s : State}

theorem act (h : s.Good) {a : Action} (ha : s.journal.Allowed a) : (s.act a).Good := by
  refine ⟨h.sound.act ha, ?_, ?_⟩
  · rcases h.sound.act_checkpoint a with ⟨heq, hle⟩ | hnew
    · show a.target.getD s.completed ≤ (s.journal.act a).getCheckpoint
      rw [heq]
      cases htarget : a.target with
      | none => exact h.completed_le
      | some p => exact hle p htarget
    · show a.target.getD s.completed ≤ (s.journal.act a).getCheckpoint
      rw [hnew]
      exact Nat.le_refl _
  · show (s.journal.act a).getCheckpoint ∈ s.started ++ a.target.toList
    rcases h.sound.act_checkpoint a with ⟨heq, -⟩ | hnew
    · rw [heq]; exact List.mem_append_left _ h.mem_started
    · exact List.mem_append_right _ (by rw [hnew]; exact List.mem_singleton_self _)

/-- What is told at an instant is not behind, and was started. -/
theorem told (h : s.Good) {a : Action} {c : Checkpoints}
    (hle : s.journal.getCheckpoint ≤ c.checkpointPosition)
    (hc : c.checkpointPosition = s.journal.getCheckpoint ∨
      a.target = some c.checkpointPosition) :
    s.completed ≤ c.checkpointPosition ∧
      c.checkpointPosition ∈ s.started ++ a.target.toList := by
  refine ⟨Nat.le_trans h.completed_le hle, ?_⟩
  rcases hc with heq | hnew
  · rw [heq]; exact List.mem_append_left _ h.mem_started
  · exact List.mem_append_right _ (by rw [hnew]; exact List.mem_singleton_self _)

end State.Good

theorem Reach.good {s : State} (h : Reach SoftKept s) : s.Good := by
  induction h with
  | create file recovery hempty hmode hopen =>
      obtain ⟨hsound, hc⟩ := Journal.openWritable_sound hempty hmode hopen
      refine ⟨hsound, ?_, ?_⟩
      · rw [Journal.getCheckpoint, hc]; exact Nat.le_refl _
      · rw [Journal.getCheckpoint, hc]; exact List.mem_singleton_self _
  | act hs ha hkept ih => exact ih.act ha
  | reopen hs ha hkept hcut mode reads recovery hr hopen ih =>
      obtain ⟨c, htells, hle, hc⟩ := instant_tells ih.sound ha hkept hcut
      have hj := Journal.opened_of_openWritable htells.header htells.agrees htells.size hr hopen
      obtain ⟨hcompleted, hmem⟩ := ih.told hle hc
      have hcp := hj.checkpoint
      rw [← hcp] at hcompleted hmem
      exact ⟨hj.sound htells.header htells.size, hcompleted, hmem⟩

/-- In every run that keeps its soft checkpoints, and at every instant of every
action, the file opens at a checkpoint that was started, and not before the last
one that completed. -/
theorem reopened_checkpoint {s : State} (h : Reach SoftKept s) {a : Action}
    (ha : s.journal.Allowed a) (hkept : SoftKept s.journal a) {cut : List Call}
    (hcut : cut <+: s.journal.callsOf a) (mode : OpenMode) (reads : Pread)
    (recovery : Recovery) (hr : recovery ≠ .ignoreHeader) (forWritable : Bool) :
    ∃ j, Journal.openReadonly (s.left cut mode reads) recovery forWritable = .ok j ∧
      s.completed ≤ j.getCheckpoint ∧ j.getCheckpoint ∈ s.started ++ a.target.toList := by
  obtain ⟨c, htells, hle, hc⟩ := instant_tells h.good.sound ha hkept hcut
  obtain ⟨j, hopen, hj⟩ := Journal.openReadonly_opened
    (show HasHeader (s.left cut mode reads).data from htells.header) htells.agrees htells.size
    recovery hr forWritable
  refine ⟨j, hopen, ?_⟩
  rw [hj.checkpoint]
  exact h.good.told hle hc

/-- A hard checkpoint stopped behind its first word, with the newest soft
checkpoint in the second. -/
theorem reopened_checkpoint_torn :
    ∃ s : State, s.completed = 42 ∧ ∃ j,
      Journal.openReadonly (s.left ((s.journal.callsOf (.hardCheckpointAt 43)).take 2)
        .writeExisting .whole) .none false = .ok j ∧ 42 ≤ j.getCheckpoint := by
  have hcreate : Reach SoftKept ⟨_, [headerSize], headerSize⟩ := .create .empty .none rfl rfl rfl
  have hdata := hcreate.act (a := .perform .validData) trivial trivial
  have hsoft := hdata.act (a := .softCheckpointAt 42) ⟨by decide, by decide⟩ trivial
  have hmore := hsoft.act (a := .perform .validData) trivial trivial
  obtain ⟨j, hopen, hle, -⟩ := reopened_checkpoint hmore (a := .hardCheckpointAt 43)
    ⟨by decide, by decide⟩ (fun _ => ⟨by decide, .inr rfl⟩) (List.take_prefix 2 _)
    .writeExisting .whole .none (by decide) false
  exact ⟨_, rfl, j, hopen, hle⟩

/-- Two soft checkpoints, and a hard one that is stopped behind its first word:
the second soft checkpoint completed, and the file opens at the first. -/
theorem soft_checkpoint_lost :
    ∃ (s : State) (a : Action) (cut : List Call) (j : Journal),
      Reach (fun _ _ => True) s ∧ s.journal.Allowed a ∧ cut <+: s.journal.callsOf a ∧
      Journal.openReadonly (s.left cut .writeExisting .whole) .none false = .ok j ∧
      s.completed = 43 ∧ j.getCheckpoint = 42 := by
  have hcreate : Reach (fun _ _ => True) ⟨_, [headerSize], headerSize⟩ :=
    .create .empty .none rfl rfl rfl
  have hone := hcreate.act (a := .perform .validData) trivial trivial
  have hsoft := hone.act (a := .softCheckpointAt 42) ⟨by decide, by decide⟩ trivial
  have htwo := hsoft.act (a := .perform .validData) trivial trivial
  have hlast := htwo.act (a := .softCheckpointAt 43) ⟨by decide, by decide⟩ trivial
  exact ⟨_, .hardCheckpointAt 43, _, _, hlast, ⟨by decide, by decide⟩, List.take_prefix 1 _, rfl,
    rfl, rfl⟩

end ProcessCrash

end Joedb
