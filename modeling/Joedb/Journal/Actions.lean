import Joedb.Journal.Opening

/-!
# Actions and instants

What may happen to a journal that is being written, and the calls that it makes
on the file: first writes of data, one behind the other from the flushed
position, and then, for a checkpoint that is not idle, the header. A crash falls
between two calls, so an instant of an action is a prefix of its calls.
-/

namespace Joedb

open ByteFile FileBuffer

/-- What a call does to the bytes of a file. -/
def Call.apply (data : Bytes) : Call → Bytes
  | .pwrite off bytes => ByteFile.pwrite data off bytes
  | .sync => data
  | .datasync => data

inductive Action where
  | perform (op : Op)
  | flush
  | softCheckpointAt (position : Nat)
  | hardCheckpointAt (position : Nat)

/-- The position that a checkpoint is for. -/
def Action.target : Action → Option Nat
  | .perform _ => none
  | .flush => none
  | .softCheckpointAt p => some p
  | .hardCheckpointAt p => some p

namespace Journal

def act (j : Journal) : Action → Journal
  | .perform op => j.perform op
  | .flush => j.flush
  | .softCheckpointAt p => j.softCheckpointAt p
  | .hardCheckpointAt p => j.hardCheckpointAt p

/-- A checkpoint is for a position that was written. -/
def Allowed (j : Journal) : Action → Prop
  | .softCheckpointAt p => p ≤ j.getPosition ∧ p < 2 ^ 63
  | .hardCheckpointAt p => p ≤ j.getPosition ∧ p < 2 ^ 63
  | _ => True

/-- The calls that an action makes on the file. -/
def callsOf (j : Journal) (a : Action) : List Call :=
  (j.act a).file.calls.drop j.file.calls.length

/-- The bytes of the file at an instant of an action. -/
def dataAt (j : Journal) (cut : List Call) : Bytes := cut.foldl Call.apply j.file.data

/-- Those of the calls that are on the header. -/
def headCalls (j : Journal) : Action → List Call
  | .perform _ => []
  | .flush => []
  | .softCheckpointAt p =>
      if j.getCheckpoint < p then
        [.pwrite (8 * wordIndex (!j.checkpoints.hardIndex) (!j.checkpoints.softIndex))
          (encodeInt64 (neg p))]
      else []
  | .hardCheckpointAt p =>
      if j.getHardCheckpoint < p then
        [.pwrite (8 * wordIndex (!j.checkpoints.hardIndex) false) (encodeInt64 p), .sync,
          .pwrite (8 * wordIndex (!j.checkpoints.hardIndex) true) (encodeInt64 p), .datasync]
      else []

theorem foldl_callsAt {f : Bytes} {off : Nat} (hoff : off ≤ f.length) (cs : List Bytes) :
    (File.callsAt off cs).foldl Call.apply f = pwrite f off cs.flatten := by
  induction cs generalizing f off with
  | nil => rw [File.callsAt, List.flatten_nil, pwrite_nil hoff]; rfl
  | cons c cs ih =>
      have hlen : off + c.length ≤ (pwrite f off c).length := by
        rw [length_pwrite]; omega
      rw [File.callsAt, List.foldl_cons, Call.apply, ih hlen, pwrite_pwrite hoff,
        List.flatten_cons]

/-- Stopped within writes of data, some of them are done. -/
theorem prefix_callsAt {off : Nat} {cs : List Bytes} {cut : List Call}
    (h : cut <+: File.callsAt off cs) : ∃ ds, cut = File.callsAt off ds := by
  induction cs generalizing off cut with
  | nil => exact ⟨[], List.prefix_nil.mp h⟩
  | cons c cs ih =>
      rcases List.prefix_cons_iff.mp h with rfl | ⟨rest, rfl, hrest⟩
      · exact ⟨[], rfl⟩
      · obtain ⟨ds, rfl⟩ := ih hrest
        exact ⟨c :: ds, rfl⟩

theorem prefix_append_cases {α : Type} {cut xs ys : List α} (h : cut <+: xs ++ ys) :
    cut <+: xs ∨ ∃ rest, cut = xs ++ rest ∧ rest <+: ys := by
  obtain ⟨tail, htail⟩ := h
  rcases List.append_eq_append_iff.mp htail with ⟨as, rfl, -⟩ | ⟨rest, rfl, hrest⟩
  · exact .inl (List.prefix_append _ _)
  · exact .inr ⟨rest, rfl, tail, hrest.symm⟩

theorem prefix_four {α : Type} {xs : List α} {x y z t : α} (h : xs <+: [x, y, z, t])
    (hne : xs ≠ []) : (xs = [x] ∨ xs = [x, y]) ∨ (xs = [x, y, z] ∨ xs = [x, y, z, t]) := by
  rcases List.prefix_cons_iff.mp h with rfl | ⟨xs, rfl, hy⟩
  · exact absurd rfl hne
  · rcases List.prefix_cons_iff.mp hy with rfl | ⟨xs, rfl, hz⟩
    · exact .inl (.inl rfl)
    · rcases List.prefix_cons_iff.mp hz with rfl | ⟨xs, rfl, ht⟩
      · exact .inl (.inr rfl)
      · rcases List.prefix_cons_iff.mp ht with rfl | ⟨xs, rfl, hnil⟩
        · exact .inr (.inl rfl)
        · obtain rfl := List.prefix_nil.mp hnil
          exact .inr (.inr rfl)

/-- The data first, all of it, and the header behind it. -/
theorem Ready.callsOf_eq {j : Journal} (h : j.Ready) (a : Action) :
    ∃ cs, j.callsOf a = File.callsAt j.fileBuffer.position cs ++ j.headCalls a ∧
      (j.headCalls a ≠ [] →
        pwrite j.file.data j.fileBuffer.position cs.flatten = j.flush.file.data) ∧
      j.dataAt (j.callsOf a) = (j.act a).file.data := by
  have hdata : ∀ {j' : Journal} {bs : Bytes}, j.fileBuffer.Appends bs j'.fileBuffer →
      ∃ cs, j'.file = j.file.pwriteAll j.fileBuffer.position cs ∧
        j'.file.calls = j.file.calls ++ File.callsAt j.fileBuffer.position cs := by
    intro j' bs happ
    obtain ⟨cs, hfile, -, -⟩ := happ.chunks
    refine ⟨cs, hfile, ?_⟩
    rw [show j'.file = _ from hfile, File.pwriteAll_calls]
    rfl
  have hdrop : ∀ {cs : List Call}, (j.file.calls ++ cs).drop j.file.calls.length = cs :=
    fun {cs} => List.drop_left
  have happly : ∀ ds, j.dataAt (File.callsAt j.fileBuffer.position ds)
      = (j.file.pwriteAll j.fileBuffer.position ds).data := fun ds => by
    rw [dataAt, foldl_callsAt h.flushed, File.pwriteAll_data h.flushed]
  obtain ⟨cs, hfile, hcalls⟩ := @hdata j.flush _ (flush_appends h.writing).1
  have hflush : pwrite j.file.data j.fileBuffer.position cs.flatten = j.flush.file.data := by
    rw [hfile, File.pwriteAll_data h.flushed]
  have hidle : ∀ {a : Action}, j.act a = j → j.headCalls a = [] →
      ∃ cs, j.callsOf a = File.callsAt j.fileBuffer.position cs ++ j.headCalls a ∧
        (j.headCalls a ≠ [] →
          pwrite j.file.data j.fileBuffer.position cs.flatten = j.flush.file.data) ∧
        j.dataAt (j.callsOf a) = (j.act a).file.data := by
    intro a hact hhead
    have hnone : j.callsOf a = [] := by rw [callsOf, hact, List.drop_length]
    refine ⟨[], by rw [hnone, hhead]; rfl, fun hne => absurd hhead hne, ?_⟩
    rw [hnone, hact]
    rfl
  cases a with
  | perform op =>
      obtain ⟨ds, hperf, hds⟩ := hdata (perform_performs h.writing op).appends
      have heq : j.callsOf (.perform op) = File.callsAt j.fileBuffer.position ds := by
        rw [callsOf, act, hds, hdrop]
      refine ⟨ds, by rw [heq, headCalls, List.append_nil], fun hne => absurd rfl hne, ?_⟩
      rw [heq, happly, act, hperf]
  | flush =>
      have heq : j.callsOf .flush = File.callsAt j.fileBuffer.position cs := by
        rw [callsOf, act, hcalls, hdrop]
      refine ⟨cs, by rw [heq, headCalls, List.append_nil], fun _ => hflush, ?_⟩
      rw [heq, happly, act, hfile]
  | softCheckpointAt p =>
      rcases Nat.lt_or_ge j.getCheckpoint p with hlt | hge
      · have heq : j.callsOf (.softCheckpointAt p) = File.callsAt j.fileBuffer.position cs
            ++ j.headCalls (.softCheckpointAt p) := by
          rw [callsOf, act, headCalls, if_pos hlt, softCheckpointAt_of_lt hlt]
          show List.drop _ (j.flush.file.calls ++ _) = _
          rw [hcalls, List.append_assoc, hdrop]
        refine ⟨cs, heq, fun _ => hflush, ?_⟩
        rw [heq, dataAt, List.foldl_append, foldl_callsAt h.flushed, hflush, headCalls,
          if_pos hlt, act, softCheckpointAt_of_lt hlt]
        rfl
      · exact hidle (softCheckpointAt_of_le hge) (if_neg (Nat.not_lt.mpr hge))
  | hardCheckpointAt p =>
      rcases Nat.lt_or_ge j.getHardCheckpoint p with hlt | hge
      · have heq : j.callsOf (.hardCheckpointAt p) = File.callsAt j.fileBuffer.position cs
            ++ j.headCalls (.hardCheckpointAt p) := by
          rw [callsOf, act, headCalls, if_pos hlt, hardCheckpointAt_of_lt hlt]
          show List.drop _ ((((j.flush.file.calls ++ _) ++ _) ++ _) ++ _) = _
          rw [hcalls]
          simp only [List.append_assoc]
          rw [hdrop]
          rfl
        refine ⟨cs, heq, fun _ => hflush, ?_⟩
        rw [heq, dataAt, List.foldl_append, foldl_callsAt h.flushed, hflush, headCalls,
          if_pos hlt, act, hardCheckpointAt_of_lt hlt]
        rfl
      · exact hidle (hardCheckpointAt_of_le hge) (if_neg (Nat.not_lt.mpr hge))

/-- An instant is in the middle of the data, or somewhere in the header with all
of the data behind. -/
theorem Ready.instant {j : Journal} (h : j.Ready) {a : Action} {cut : List Call}
    (hcut : cut <+: j.callsOf a) :
    (∃ ds, cut = File.callsAt j.fileBuffer.position ds) ∨
      ∃ ds rest, cut = File.callsAt j.fileBuffer.position ds ++ rest ∧
        rest <+: j.headCalls a ∧ rest ≠ [] ∧
        pwrite j.file.data j.fileBuffer.position ds.flatten = j.flush.file.data := by
  obtain ⟨cs, hcalls, hflush, -⟩ := h.callsOf_eq a
  rw [hcalls] at hcut
  rcases prefix_append_cases hcut with hdata | ⟨rest, rfl, hrest⟩
  · exact .inl (prefix_callsAt hdata)
  · by_cases hnil : rest = []
    · exact .inl ⟨cs, by rw [hnil, List.append_nil]⟩
    · refine .inr ⟨cs, rest, rfl, hrest, hnil, hflush fun hhead => hnil ?_⟩
      exact List.prefix_nil.mp (hhead ▸ hrest)

theorem Ready.act {j : Journal} (h : j.Ready) {a : Action} (ha : j.Allowed a) :
    (j.act a).Ready := by
  cases a with
  | perform op => exact (h.perform op).1
  | flush => exact h.flush.1
  | softCheckpointAt p =>
      rcases Nat.lt_or_ge j.getCheckpoint p with hlt | hge
      · exact (h.softCheckpointAt hlt ha.1 ha.2).ready
      · rw [Journal.act, softCheckpointAt_of_le hge]; exact h
  | hardCheckpointAt p =>
      rcases Nat.lt_or_ge j.getHardCheckpoint p with hlt | hge
      · exact (h.hardCheckpointAt hlt ha.1 ha.2).ready
      · rw [Journal.act, hardCheckpointAt_of_le hge]; exact h

/-! ## Sound journals -/

/-- A journal whose header tells its checkpoints. -/
structure Sound (j : Journal) : Prop where
  ready : j.Ready
  agrees : Agrees (headerWord j.file.data) j.checkpoints
  header : HasHeader j.file.data

namespace Sound

variable {j : Journal}

theorem position_ge (h : j.Sound) : 41 ≤ j.fileBuffer.position := h.ready.header_le_position

/-- Writes of data leave the header alone. -/
theorem header_pwrite (h : j.Sound) (bs : Bytes) :
    HasHeader (pwrite j.file.data j.fileBuffer.position bs) ∧
      Agrees (headerWord (pwrite j.file.data j.fileBuffer.position bs)) j.checkpoints := by
  have hpos := h.position_ge
  refine ⟨h.header.pwrite_behind h.ready.flushed h.ready.header_le_position bs, ?_⟩
  exact h.agrees.congr fun k hk => headerWord_pwrite_of_le h.ready.flushed (by omega) bs hk

/-- What only writes data. -/
theorem writes (h : j.Sound) {j' : Journal} {bs : Bytes}
    (happ : j.fileBuffer.Appends bs j'.fileBuffer) (hc : j'.checkpoints = j.checkpoints) :
    j'.Sound := by
  obtain ⟨cs, hfile, -⟩ := happ.chunks
  have hdata : j'.file.data = pwrite j.file.data j.fileBuffer.position cs.flatten := by
    rw [show j'.file = _ from hfile]
    exact File.pwriteAll_data h.ready.flushed _
  obtain ⟨hheader, hagrees⟩ := h.header_pwrite cs.flatten
  exact ⟨(h.ready.writes happ hc).1, by rw [hdata, hc]; exact hagrees, by
    rw [hdata]; exact hheader⟩

theorem flush (h : j.Sound) : j.flush.Sound :=
  h.writes (flush_appends h.ready.writing).1 rfl

/-- What a checkpoint leaves is sound when its words are. -/
theorem checkpointed (h : j.Sound) {j' : Journal} {w : Nat → Int}
    (hj : j.Checkpointed w j') (hw : Agrees w j'.checkpoints) : j'.Sound :=
  ⟨hj.ready, hw.congr hj.words, h.flush.header.of_slice (Nat.le_of_eq hj.length.symm)
    (hj.behind 32 41 (Nat.le_refl _))⟩

theorem act (h : j.Sound) {a : Action} (ha : j.Allowed a) : (j.act a).Sound := by
  cases a with
  | perform op =>
      have hperf := perform_performs h.ready.writing op
      exact h.writes hperf.appends hperf.checkpoints
  | flush => exact h.flush
  | softCheckpointAt p =>
      rw [Journal.act]
      rcases Nat.lt_or_ge j.getCheckpoint p with hlt | hge
      · refine h.checkpointed (h.ready.softCheckpointAt hlt ha.1 ha.2) ?_
        rw [softCheckpointAt_of_lt hlt]
        exact agrees_soft h.agrees hlt ha.2
      · rw [softCheckpointAt_of_le hge]; exact h
  | hardCheckpointAt p =>
      rw [Journal.act]
      rcases Nat.lt_or_ge j.getHardCheckpoint p with hlt | hge
      · refine h.checkpointed (h.ready.hardCheckpointAt hlt ha.1 ha.2) ?_
        rw [hardCheckpointAt_of_lt hlt]
        exact agrees_hard h.agrees (Nat.le_of_lt hlt) ha.2
      · rw [hardCheckpointAt_of_le hge]; exact h

theorem act_checkpoint (h : j.Sound) (a : Action) :
    ((j.act a).getCheckpoint = j.getCheckpoint ∧ ∀ p, a.target = some p → p ≤ j.getCheckpoint) ∨
      a.target = some (j.act a).getCheckpoint := by
  cases a with
  | perform op =>
      refine .inl ⟨?_, fun p hp => nomatch hp⟩
      exact congrArg Checkpoints.checkpointPosition
        (perform_performs h.ready.writing op).checkpoints
  | flush => exact .inl ⟨rfl, fun p hp => nomatch hp⟩
  | softCheckpointAt p =>
      rw [Journal.act]
      rcases Nat.lt_or_ge j.getCheckpoint p with hlt | hge
      · rw [softCheckpointAt_of_lt hlt]; exact .inr rfl
      · rw [softCheckpointAt_of_le hge]
        exact .inl ⟨rfl, fun q hq => Option.some.inj hq ▸ hge⟩
  | hardCheckpointAt p =>
      rw [Journal.act]
      rcases Nat.lt_or_ge j.getHardCheckpoint p with hlt | hge
      · rw [hardCheckpointAt_of_lt hlt]; exact .inr rfl
      · rw [hardCheckpointAt_of_le hge]
        exact .inl ⟨rfl, fun q hq => Option.some.inj hq ▸ Nat.le_trans hge h.ready.hard_le⟩

end Sound

/-- Sent to its checkpoint, an idle journal is ready. -/
theorem ready_skip {j : Journal} (hidle : j.fileBuffer.Idle)
    (hheader : headerSize ≤ j.getHardCheckpoint) (hhard : j.getHardCheckpoint ≤ j.getCheckpoint)
    (hsize : j.getCheckpoint ≤ j.file.data.length) :
    (j.skipDirectlyTo j.getCheckpoint).Ready ∧
      (j.skipDirectlyTo j.getCheckpoint).file = j.file := by
  obtain ⟨hidle', hpos, hfile⟩ := setPosition_idle hidle j.getCheckpoint
  have hdata : (j.skipDirectlyTo j.getCheckpoint).file = j.file := hfile
  refine ⟨⟨hidle'.writing, ?_, hheader, hhard, Nat.le_of_eq hpos.symm⟩, hdata⟩
  rw [hdata, show (j.skipDirectlyTo j.getCheckpoint).fileBuffer.position = _ from hpos]
  exact hsize

/-- A journal that was opened and sent to its checkpoint. -/
theorem Opened.sound {file : File} {c : Checkpoints} {j : Journal} (hj : Opened file c j)
    (h : HasHeader file.data) (hsize : c.checkpointPosition ≤ file.data.length) :
    (j.skipDirectlyTo j.getCheckpoint).Sound := by
  obtain ⟨hready, hfile⟩ := ready_skip hj.idle hj.agrees.header_le hj.agrees.hard_le (by
    rw [hj.checkpoint, hj.file_eq]; exact hsize)
  rw [hj.file_eq] at hfile
  exact ⟨hready, by rw [hfile]; exact hj.agrees, by rw [hfile]; exact h⟩

/-- A new journal. -/
theorem openWritable_sound {file : File} {recovery : Recovery} {j : Journal}
    (hempty : file.data = []) (hmode : file.isReadonly = false)
    (hopen : openWritable file recovery = .ok j) :
    j.Sound ∧ j.checkpoints = .initial := by
  obtain ⟨j', hopen', hready, -, -, hdata, hc, -⟩ := openWritable_new hempty hmode recovery
  rw [hopen] at hopen'
  obtain rfl := Except.ok.inj hopen'
  refine ⟨⟨hready, ?_, by rw [hdata]; exact hasHeader_initial⟩, hc⟩
  rw [hdata, hc]
  exact agrees_initial.congr fun k hk => headerWord_initial hk

end Journal

end Joedb
