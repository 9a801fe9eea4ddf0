import Joedb.Packing.Packed
import Joedb.Ui.Copies

/-!
# The file that is packed into

A journal that can be replayed is packed unless it has a blob, whatever its reader does. What was
written is a history like any other, of the schema operations and of what is dumped, so it is
enough to know what a database hears of them.

A boolean of a single record is written as a `bool`. A vector may have made it a character that
is neither 0 nor 1, and this is the one thing that is not as it was.
-/

namespace Joedb

open ByteFile Containers StateExcept FileBuffer Replay

namespace Journal

variable {j : Journal}

/-- Behind what a journal has, the operations. -/
theorem Ready.performs (h : j.Ready) (ops : List Op) :
    (ops.foldl Journal.perform j).Ready ∧
      (ops.foldl Journal.perform j).body = j.body ++ wiresBytes (encodeAll j.context ops) := by
  induction ops generalizing j with
  | nil => exact ⟨h, (List.append_nil _).symm⟩
  | cons op ops ih =>
      obtain ⟨hready, hbody⟩ := h.perform op
      obtain ⟨hready', hbody'⟩ := ih hready
      refine ⟨hready', ?_⟩
      rw [List.foldl_cons, hbody', hbody, (perform_performs h.writing op).context, encodeAll,
        wiresBytes_cons, List.append_assoc]

theorem Ready.getPosition_softCheckpoint (h : j.Ready) :
    j.softCheckpoint.getPosition = j.getPosition := by
  obtain ⟨hready, hbody⟩ := h.flush
  have hflush : j.flush.getPosition = j.getPosition := by
    rw [← hready.length_body, hbody, h.length_body]
  rcases Nat.lt_or_ge j.getCheckpoint j.getPosition with hlt | hge
  · rw [softCheckpoint, softCheckpointAt_of_lt hlt]
    exact hflush
  · rw [softCheckpoint, softCheckpointAt_of_le hge]

end Journal

/-- A file with these bytes, for a reader. -/
def Journal.readBy (j : Journal) (reads : Pread) : File :=
  { j.file with mode := .readExisting, reads := reads }

namespace Dump

/-- What becomes of a journal that can be replayed. -/
theorem packFile_eq {h : History} (hr : h.Reach) (reads : Pread) {db : Database}
    (hhear : Database.asWritable.hearAll (h.ops.take h.checkpointed) (.create (-1)) = .ok () db)
    {output : File} {j₀ : Journal} (hopen : Journal.openWritable output .none = .ok j₀) :
    packFile (h.readBy reads) output
      = if (h.ops.take h.checkpointed).any Op.isBlob = true then
          .error (.exception "can't pack blobs")
        else .ok ((Database.packedOps (h.ops.take h.checkpointed) db).foldl
          Journal.perform j₀).softCheckpoint := by
  have htakes : Journal.asWritable.Takes Journal.perform := fun _ _ => rfl
  have hdb : db.Ordered := (Database.ordered_create (-1)).hearAll
    (fun op hop => hr.good.fits op (List.mem_of_mem_take hop)) hhear
  have hlisten := listenAll_packInto htakes hhear ⟨j₀, false⟩
  rw [foldl_overheard, Bool.false_or] at hlisten
  obtain ⟨j, j', hread, hplay⟩ :=
    rawPlay_of_listened (W := packInto Journal.asWritable) (fun _ => rfl) hr reads hlisten
  rw [packFile, hread]
  simp only [hopen]
  rw [pack]
  simp only [hplay]
  by_cases hfound : (h.ops.take h.checkpointed).any Op.isBlob = true
  · simp only [if_pos hfound]
  · have htell : tell (dumpData Journal.asWritable db) ⟨j', ((h.ops.take h.checkpointed).filter
          Op.isSchema).foldl Journal.perform j₀⟩
        = .ok () ⟨j', ((Database.packedOps (h.ops.take h.checkpointed) db).foldl
          Journal.perform j₀).softCheckpoint⟩ := by
      refine tell_ok ((dumpData_takes htakes hdb _).trans ?_)
      rw [Database.packedOps, List.foldl_append]
      rfl
    simp only [if_neg hfound, htell]

/-- The packed journal is a history. -/
theorem reach_packed {output : File} {j₀ : Journal} (hempty : output.data = [])
    (hmode : output.isReadonly = false) (hopen : Journal.openWritable output .none = .ok j₀)
    {ops : List Op} (hfits : ∀ op ∈ ops, op.Fits) (hread : ∀ op ∈ ops, op.Readable)
    (hbound : (ops.foldl Journal.perform j₀).softCheckpoint.getPosition < 2 ^ 63) :
    History.Reach ⟨(ops.foldl Journal.perform j₀).softCheckpoint, ops, ops.length⟩ := by
  have hcreate : History.Reach ⟨j₀, [], 0⟩ := .create output .none hempty hmode hopen
  have hready : j₀.Ready := hcreate.good.ready
  obtain ⟨hdone, hbody⟩ := hready.performs ops
  rw [show j₀.body = [] from hcreate.good.body, List.nil_append,
    show j₀.context = .reset from hcreate.good.context] at hbody
  rw [hdone.getPosition_softCheckpoint, ← hdone.length_body, hbody] at hbound
  have hreach := Reencoding.reach_foldl hcreate hfits hread hbound
  exact hreach.step (a := .softCheckpoint) trivial rfl

/-- The schema operations are what a listener hears of them, since none is kept from it. -/
theorem filter_visible (ops : List Op) :
    (ops.flatMap Op.visible).filter Op.isSchema = ops.filter Op.isSchema := by
  induction ops with
  | nil => rfl
  | cons op ops ih =>
      have hop : (Op.visible op).filter Op.isSchema = [op].filter Op.isSchema := by
        cases op with
        | updateVector ty t r f vs =>
            rw [Op.visible]
            split <;> rfl
        | _ => rfl
      rw [List.flatMap_cons, List.filter_append, ih, hop]
      exact (List.filter_append [op] ops).symm

end Dump

/-- A journal that can be replayed into a database is packed if and only if it has no blob, and
then the packed journal has the same schema operations and makes a database with the same tables,
fields, records and values, as an update would carry them. The packed journal must be a file: a
position has 63 bits, and what counts the records of a run has 61. -/
theorem packFile_preserves {h : History} (hr : h.Reach) {reads : Pread} {r : Replay Database}
    (hvalid : replayInto Database.asWritable (.create (-1)) (h.readBy reads) = .ok r)
    {output : File} (hempty : output.data = []) (hmode : output.isReadonly = false) :
    ((∃ e, packFile (h.readBy reads) output = .error e) ↔
      ∃ data, Op.writeBlob data ∈ h.ops.take h.checkpointed) ∧
    ∀ p, packFile (h.readBy reads) output = .ok p → p.getPosition < 2 ^ 63 →
      (∀ tableId t, find r.writable.tables tableId = some t → t.freedom.getSize < 2 ^ 61) →
      ∀ reads',
        (∃ r', replayInto Database.asWritable (.create (-1)) (p.readBy reads') = .ok r' ∧
          r.writable.PackedTo carried r'.writable) ∧
        ∃ s s', replayFile (h.readBy reads) = .ok s ∧
          replayFile (p.readBy reads') = .ok s' ∧
          s'.writable.filter Op.isSchema = s.writable.filter Op.isSchema := by
  have hfit : ∀ op ∈ h.ops.take h.checkpointed, op.Fits := fun op hop =>
    hr.good.fits op (List.mem_of_mem_take hop)
  have hread : ∀ op ∈ h.ops.take h.checkpointed, op.Readable := fun op hop =>
    hr.good.readable op (List.mem_of_mem_take hop)
  have hhear := heard_of_replayInto Database.asWritable_passive hr hvalid
  obtain ⟨j₀, hopen, -⟩ := Journal.openWritable_new hempty hmode .none
  have hpack := Dump.packFile_eq hr reads hhear hopen
  have hblob : (h.ops.take h.checkpointed).any Op.isBlob = true ↔
      ∃ data, Op.writeBlob data ∈ h.ops.take h.checkpointed := by
    rw [List.any_eq_true]
    constructor
    · rintro ⟨op, hop, hisBlob⟩
      cases op with
      | writeBlob data => exact ⟨data, hop⟩
      | _ => cases hisBlob
    · rintro ⟨data, hop⟩
      exact ⟨_, hop, rfl⟩
  rw [hpack, ← hblob]
  by_cases hfound : (h.ops.take h.checkpointed).any Op.isBlob = true
  · rw [if_pos hfound]
    exact ⟨⟨fun _ => hfound, fun _ => ⟨_, rfl⟩⟩, nofun⟩
  · rw [if_neg hfound]
    refine ⟨⟨nofun, fun h => absurd h hfound⟩, ?_⟩
    intro p hp hbound hsize reads'
    obtain rfl := Except.ok.inj hp
    have hdb : r.writable.Ordered := (Database.ordered_create (-1)).hearAll hfit hhear
    have hdumped := Dump.dataOps_dumped hdb.regular hsize
    have hall : ∀ op ∈ Database.packedOps (h.ops.take h.checkpointed) r.writable,
        op.Fits ∧ op.Readable := by
      intro op hop
      rcases List.mem_append.mp hop with hop | hop
      · have hmem := List.mem_of_mem_filter hop
        exact ⟨hfit op hmem, hread op hmem⟩
      · exact ⟨(hdumped op hop).fits, (hdumped op hop).readable⟩
    have hreach := Dump.reach_packed hempty hmode hopen (fun op hop => (hall op hop).1)
      (fun op hop => (hall op hop).2) hbound
    obtain ⟨db', hhear', hpacked⟩ := Database.packedOps_hears hfit hhear
    constructor
    · obtain ⟨r', hreplay, hwritable⟩ := replayInto_of_heard Database.asWritable_passive hreach
        reads' ((congrArg (Database.asWritable.hearAll · _) List.take_length).trans hhear')
      exact ⟨r', hreplay, hwritable ▸ hpacked⟩
    · obtain ⟨s, hs, hheard, -⟩ := (History.replay_roundTrip hr).1 reads
      obtain ⟨s', hs', hheard', -⟩ := (History.replay_roundTrip hreach).1 reads'
      refine ⟨s, s', hs, hs', ?_⟩
      have hnone : (Dump.dataOps r.writable).filter Op.isSchema = [] :=
        List.filter_eq_nil_iff.mpr fun op hop => by
          rw [(hdumped op hop).isSchema]
          exact Bool.false_ne_true
      rw [hheard', hheard, List.take_length, Dump.filter_visible, Dump.filter_visible,
        Database.packedOps, List.filter_append, hnone, List.append_nil, List.filter_filter]
      simp only [Bool.and_self]

namespace History

/-- A new file with these operations, and a checkpoint behind them. -/
def ofOps (ops : List Op) : History where
  journal := (ops.foldl Journal.perform
    ((Journal.blank .empty).put (·.iteratorWrite Header.initial.bytes))).softCheckpoint
  ops := ops
  checkpointed := ops.length

theorem reach_ofOps {ops : List Op} (hfits : ∀ op ∈ ops, op.Fits)
    (hread : ∀ op ∈ ops, op.Readable) (hbound : (ofOps ops).journal.getPosition < 2 ^ 63) :
    (ofOps ops).Reach :=
  Dump.reach_packed (show File.data .empty = [] from rfl) rfl
    (show Journal.openWritable .empty .none = .ok _ from rfl) hfits hread hbound

end History

/-- A dropped table, a dropped field, a hole, a run of one record and one of two. -/
def holedOps : List Op := [.createTable [0x61], .createTable [0x62], .dropTable 1,
  .addField 2 [0x78] (.plain (Ty.typeId .int8)), .addField 2 [0x79] (.reference 2),
  .dropField 2 1, .insertVector 2 0 4, .deleteFrom 2 1,
  .update .reference 2 2 2 (Ty.toArg .reference (0 : Int)), .custom [0x63]]

/-- What is found in a result that can be computed. -/
theorem exists_of_toOption {α β : Type} {x : Except Exn α} {g : α → β} {b : β}
    (h : x.toOption.map g = some b) : ∃ a, x = .ok a ∧ g a = b := by
  cases x with
  | ok a => exact ⟨a, rfl, Option.some.inj h⟩
  | error e => cases h

theorem packFile_preserves_hole : ∃ r p r',
    replayInto Database.asWritable (.create (-1)) ((History.ofOps holedOps).readBy .whole)
      = .ok r ∧
    packFile ((History.ofOps holedOps).readBy .whole) .empty = .ok p ∧
    replayInto Database.asWritable (.create (-1)) (p.readBy .whole) = .ok r' ∧
    r.writable.PackedTo carried r'.writable := by
  have hsize : ∀ {n : Nat}, n < 2 ^ 61 → SizeFits n := id
  have hid : ∀ {r : Int}, -1 ≤ r ∧ r < 2 ^ 61 - 1 → IdFits r := id
  have hfits : ∀ op ∈ holedOps, op.Fits := by
    simp only [holedOps, List.forall_mem_cons, List.not_mem_nil, false_implies, implies_true,
      and_true]
    exact ⟨hsize (by decide), hsize (by decide), trivial, hsize (by decide), hsize (by decide),
      trivial, ⟨hid (by decide), hsize (by decide)⟩, hid (by decide),
      ⟨hid (by decide), hid (r := 0) (by decide)⟩, hsize (by decide)⟩
  have hread : ∀ op ∈ holedOps, op.Readable := by
    simp [holedOps, Op.Readable]
  have hreach := History.reach_ofOps hfits hread (by decide +kernel)
  have hvalid : (replayInto Database.asWritable (.create (-1))
      ((History.ofOps holedOps).readBy .whole)).toOption.map
        (fun r => r.writable.tables.all fun e => e.2.freedom.getSize < 2 ^ 61) = some true := by
    decide +kernel
  have hpacked : (packFile ((History.ofOps holedOps).readBy .whole) .empty).toOption.map
      (fun p => decide (p.getPosition < 2 ^ 63)) = some true := by
    decide +kernel
  obtain ⟨r, hr, hsizes⟩ := exists_of_toOption hvalid
  obtain ⟨p, hp, hbound⟩ := exists_of_toOption hpacked
  obtain ⟨⟨r', hr', hsame⟩, -⟩ := (packFile_preserves hreach hr
    (show File.data .empty = [] from rfl) rfl).2 p hp (of_decide_eq_true hbound)
      (fun tableId t hfind => of_decide_eq_true (List.all_eq_true.mp hsizes _ (mem_of_find hfind)))
      .whole
  exact ⟨r, p, r', hr, hp, hr', hsame⟩

/-- The character 2 is the value of a single record, and becomes a 1. -/
theorem packFile_boolean : ¬ ∀ h : History, h.Reach → ∀ reads r,
    replayInto Database.asWritable (.create (-1)) (h.readBy reads) = .ok r →
    (∀ data, Op.writeBlob data ∉ h.ops.take h.checkpointed) →
    ∃ p, packFile (h.readBy reads) .empty = .ok p ∧
      ∃ r', replayInto Database.asWritable (.create (-1)) (p.readBy reads) = .ok r' ∧
        r.writable.PackedTo id r'.writable := by
  intro hall
  have hid : ∀ {r : Int}, -1 ≤ r ∧ r < 2 ^ 61 - 1 → IdFits r := id
  have hfits : ∀ op ∈ Dump.characterTwo, op.Fits := by
    simp only [Dump.characterTwo, List.forall_mem_cons, List.not_mem_nil, false_implies,
      implies_true, and_true]
    exact ⟨(by decide : 1 < 2 ^ 61), (by decide : 1 < 2 ^ 61), hid (by decide),
      ⟨hid (by decide), (by decide : 1 < 2 ^ 61), fun _ _ => trivial⟩⟩
  have hread : ∀ op ∈ Dump.characterTwo, op.Readable := by
    simp [Dump.characterTwo, Op.Readable]
  have htwo : (replayInto Database.asWritable (.create (-1))
      ((History.ofOps Dump.characterTwo).readBy .whole)).toOption.map
        (fun r => (Dump.firstCharacter r.writable,
          (find r.writable.tables 1).map (·.freedom.isUsed 0))) = some (some 2, some true) := by
    decide +kernel
  have hone : (packFile ((History.ofOps Dump.characterTwo).readBy .whole) .empty).toOption.map
      (fun p => (replayInto Database.asWritable (.create (-1)) (p.readBy .whole)).toOption.map
        (Dump.firstCharacter ·.writable)) = some (some (some 1)) := by
    decide +kernel
  obtain ⟨r, hr, hfacts⟩ := exists_of_toOption htwo
  obtain ⟨hcharacter, hused⟩ := Prod.mk.inj hfacts
  obtain ⟨p, hp, hreplayed⟩ := exists_of_toOption hone
  obtain ⟨r', hr', hcharacter'⟩ := exists_of_toOption hreplayed
  have hblob : ∀ data, Op.writeBlob data ∉ Dump.characterTwo := by
    simp [Dump.characterTwo]
  obtain ⟨p₁, hp₁, r₁, hr₁, hpacked⟩ := hall (History.ofOps Dump.characterTwo)
    (History.reach_ofOps hfits hread (by decide +kernel)) .whole r hr
    fun data hdata => hblob data (List.mem_of_mem_take hdata)
  obtain rfl := Except.ok.inj (hp.symm.trans hp₁)
  obtain rfl := Except.ok.inj (hr'.symm.trans hr₁)
  obtain ⟨t, hfind, hused⟩ := Option.map_eq_some_iff.mp hused
  obtain ⟨t', hfind', ht'⟩ := hpacked.tables 1 t hfind
  have hvalue := ht'.values 1 0 hused
  rw [Option.map_id] at hvalue
  have hsame : Dump.firstCharacter r'.writable = Dump.firstCharacter r.writable := by
    rw [Dump.firstCharacter, Dump.firstCharacter, hfind, hfind', Option.bind_some,
      Option.bind_some]
    exact congrArg _ hvalue
  rw [hsame, hcharacter] at hcharacter'
  cases hcharacter'

end Joedb
