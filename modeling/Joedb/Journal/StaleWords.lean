import Joedb.Journal.HeldCheckpoints
import Joedb.Journal.PowerFailure

/-!
# Words that point past the end

A file that was cut may have a header with checkpoints past its end. An opening
for writing ignores a soft one, takes it back before anything is appended, and
fails at a hard one. So nothing in the header waits for the file to grow.

`Clean` says that of a disk: whatever each word turns out to be, it holds what
was valid at the first opening or what was written since. It does not speak of
the size of the file, so growing it cannot hurt.
-/

namespace Joedb

open ByteFile PowerFailure

namespace StaleWords

/-- A checkpoint of the file `f`: its words hold it, and it lies in the file. -/
def Valid (f : Bytes) (p : Nat) : Prop := Holds (headerWord f) p ∧ p ≤ f.length

/-- The position that a call puts into the header. -/
def posted : Call → Option Nat
  | .pwrite off bytes => if off < 32 then some (decodeInt64 bytes).natAbs else none
  | .sync => none
  | .datasync => none

/-- The file on its disk, the journal that has it open if there is one, and the
positions that were put into the header since the first opening. -/
structure State where
  running : Option Journal
  disk : Disk
  written : List Nat

/-- The runs that start with an opening of the file `f`. A process may be killed
between any two calls, of a later opening too, and the power may fail whenever
none has the file open. -/
inductive Reach (f : Bytes) : State → Prop where
  | opening (hne : f ≠ []) (mode : OpenMode) (reads : Pread) (recovery : Recovery)
      (hr : recovery ≠ .ignoreHeader) {j : Journal}
      (hopen : Journal.openWritable (opened ⟨f, []⟩ mode reads) recovery = .ok j) :
      Reach f ⟨some (j.skipDirectlyTo j.getCheckpoint), runCalls ⟨f, []⟩ j.file.calls, []⟩
  | act {j : Journal} {d : Disk} {written : List Nat} {a : Action}
      (hs : Reach f ⟨some j, d, written⟩) (ha : j.Allowed a) :
      Reach f ⟨some (j.act a), runCalls d (j.callsOf a),
        written ++ (j.callsOf a).filterMap posted⟩
  | kill {j : Journal} {d : Disk} {written : List Nat} {a : Action} {cut : List Call}
      (hs : Reach f ⟨some j, d, written⟩) (ha : j.Allowed a) (hcut : cut <+: j.callsOf a) :
      Reach f ⟨none, runCalls d cut, written ++ cut.filterMap posted⟩
  | powerFailure {d : Disk} {written : List Nat} {image : Bytes}
      (hs : Reach f ⟨none, d, written⟩) (him : d.Survives 4 8 image) :
      Reach f ⟨none, ⟨image, []⟩, written⟩
  | reopen {d : Disk} {written : List Nat} {j : Journal} (hs : Reach f ⟨none, d, written⟩)
      (mode : OpenMode) (reads : Pread) (recovery : Recovery) (hr : recovery ≠ .ignoreHeader)
      (hopen : Journal.openWritable (opened d mode reads) recovery = .ok j) :
      Reach f ⟨some (j.skipDirectlyTo j.getCheckpoint), runCalls d j.file.calls, written⟩
  | killOpening {d : Disk} {written : List Nat} {j : Journal} {cut : List Call}
      (hs : Reach f ⟨none, d, written⟩) (mode : OpenMode) (reads : Pread) (recovery : Recovery)
      (hr : recovery ≠ .ignoreHeader)
      (hopen : Journal.openWritable (opened d mode reads) recovery = .ok j)
      (hcut : cut <+: j.file.calls) :
      Reach f ⟨none, runCalls d cut, written⟩

/-! ## Clean disks -/

/-- Whatever the words turn out to be, what they hold is `P`. -/
structure Clean (P : Nat → Prop) (d : Disk) : Prop where
  length : headerSize ≤ d.durable.length
  current : ∀ k < 4, Word d k (headerWord d.content k)
  soft : ∀ k < 4, ∀ v (p : Nat), Word d k v → headerSize ≤ p → neg v = p → P p
  hard : ∀ i (p : Nat), (∀ s, Word d (wordIndex i s) p) → headerSize ≤ p → P p

/-- A call on the header. -/
inductive HeaderCall : Call → Prop where
  | word {i : Nat} (hi : i < 4) {x : Int} (hlo : -(2 ^ 63) < x) (hhi : x < 2 ^ 63) :
      HeaderCall (.pwrite (8 * i) (encodeInt64 x))
  | sync : HeaderCall .sync
  | datasync : HeaderCall .datasync

theorem posted_word {i : Nat} (hi : i < 4) {x : Int} (hlo : -(2 ^ 63) < x) (hhi : x < 2 ^ 63) :
    posted (.pwrite (8 * i) (encodeInt64 x)) = some x.natAbs := by
  rw [posted, if_pos (by omega), decodeInt64_encodeInt64 (Int.le_of_lt hlo) hhi]

theorem filterMap_posted_callsAt {off : Nat} (hoff : 32 ≤ off) (cs : List Bytes) :
    (File.callsAt off cs).filterMap posted = [] := by
  induction cs generalizing off with
  | nil => rfl
  | cons c cs ih =>
      have hnone : posted (.pwrite off c) = none := if_neg (by omega)
      rw [File.callsAt, List.filterMap_cons_none hnone, ih (by omega)]

namespace Clean

variable {P Q : Nat → Prop} {d : Disk}

theorem header_le (h : Clean P d) : headerSize ≤ d.content.length :=
  Nat.le_trans h.length (length_durable_le d)

theorem mono (h : Clean P d) (hPQ : ∀ p, P p → Q p) : Clean Q d :=
  ⟨h.length, h.current, fun k hk v p hv hp heq => hPQ p (h.soft k hk v p hv hp heq),
    fun i p hv hp => hPQ p (h.hard i p hv hp)⟩

/-- What the file holds while the power is on. -/
theorem of_holds (h : Clean P d) (hstart : P headerSize) {p : Nat}
    (hp : Holds (headerWord d.content) p) : P p := by
  obtain rfl | ⟨hbase, i, hi⟩ | ⟨hbase, i, s, his⟩ := hp
  · exact hstart
  · exact h.hard i p (fun s => hi s ▸ h.current _ (wordIndex_lt i s)) hbase
  · exact h.soft _ (wordIndex_lt i s) _ p (h.current _ (wordIndex_lt i s)) hbase his

/-- A write of data. -/
theorem data (h : Clean P d) {off : Nat} (hoff : 32 ≤ off) (bytes : Bytes) :
    Clean P (d.write off bytes) := by
  refine ⟨h.length, fun k hk => ?_, fun k hk v p hv => ?_, fun i p hv => ?_⟩
  · rw [Disk.content_write, headerWord_pwrite_behind h.header_le hoff bytes hk]
    exact word_write (h.current k hk) off bytes
  · exact h.soft k hk v p (word_of_write_data hoff hk hv)
  · exact h.hard i p fun s => word_of_write_data hoff (wordIndex_lt i s) (hv s)

theorem callsAt (h : Clean P d) {off : Nat} (hoff : 32 ≤ off) (cs : List Bytes) :
    Clean P (runCalls d (File.callsAt off cs)) := by
  induction cs generalizing d off with
  | nil => exact h
  | cons bytes cs ih => exact ih (h.data hoff bytes) (Nat.le_trans hoff (Nat.le_add_right _ _))

/-- A write of a word, which may then hold it. -/
theorem word (h : Clean P d) {i : Nat} (hi : i < 4) {x : Int} (hlo : -(2 ^ 63) < x)
    (hhi : x < 2 ^ 63) (hsoft : ∀ p : Nat, headerSize ≤ p → neg x = p → P p)
    (hhard : ∀ p : Nat, headerSize ≤ p → x = p → P p) :
    Clean P (d.write (8 * i) (encodeInt64 x)) := by
  have hlo' := Int.le_of_lt hlo
  refine ⟨h.length, fun k hk => ?_, fun k hk v p hv hp heq => ?_, fun i' p hv hp => ?_⟩
  · rw [Disk.content_write, headerWord_pwrite h.header_le hi hlo' hhi]
    split
    · next hki => rw [hki]; exact word_write_self d i hlo' hhi
    · exact word_write (h.current k hk) _ _
  · rcases word_of_write_word hlo' hhi hv with hold | ⟨-, rfl⟩
    · exact h.soft k hk v p hold hp heq
    · exact hsoft p hp heq
  · by_cases hx : x = p
    · exact hhard p hp hx
    · refine h.hard i' p (fun s => ?_) hp
      exact (word_of_write_word hlo' hhi (hv s)).resolve_right fun hnew => hx hnew.2.symm

theorem sync (h : Clean P d) : Clean P d.sync := by
  have hlen := h.header_le
  have hword : ∀ k < 4, ∀ v, Word d.sync k v → Word d k v := fun k hk v hv => by
    rw [(word_settled hlen hk).mp hv]
    exact h.current k hk
  exact ⟨hlen, fun k hk => (word_settled hlen hk).mpr rfl,
    fun k hk v p hv => h.soft k hk v p (hword k hk v hv),
    fun i p hv => h.hard i p fun s => hword _ (wordIndex_lt i s) _ (hv s)⟩

theorem survives (h : Clean P d) {image : Bytes} (him : d.Survives 4 8 image) :
    Clean P ⟨image, []⟩ := by
  have hlen : headerSize ≤ image.length := Nat.le_trans h.length him.length_le
  have hword : ∀ k < 4, ∀ v, Word ⟨image, []⟩ k v → Word d k v := by
    rintro k hk v ⟨word, hword, rfl⟩
    exact ⟨word, him.mayHold hk hword, rfl⟩
  exact ⟨hlen, fun k hk => (word_settled hlen hk).mpr rfl,
    fun k hk v p hv => h.soft k hk v p (hword k hk v hv),
    fun i p hv => h.hard i p fun s => hword _ (wordIndex_lt i s) _ (hv s)⟩

/-- A call on the header adds what it posts. -/
theorem headerCall (h : Clean P d) {c : Call} (hc : HeaderCall c) :
    Clean (fun p => P p ∨ p ∈ posted c) (c.onDisk d) := by
  cases hc with
  | sync => exact h.sync.mono fun p hp => .inl hp
  | datasync => exact h.sync.mono fun p hp => .inl hp
  | word hi hlo hhi =>
      rename_i i x
      refine (h.mono fun p hp => .inl hp).word hi hlo hhi (fun p hp heq => .inr ?_)
        (fun p hp heq => .inr ?_)
      · rw [neg_of_lt hlo] at heq
        rw [posted_word hi hlo hhi]
        exact Option.mem_some_iff.mpr (by omega)
      · rw [posted_word hi hlo hhi]
        exact Option.mem_some_iff.mpr (by omega)

theorem headerCalls (h : Clean P d) {cs : List Call} (hcs : ∀ c ∈ cs, HeaderCall c) :
    Clean (fun p => P p ∨ p ∈ cs.filterMap posted) (runCalls d cs) := by
  induction cs generalizing d P with
  | nil => exact h.mono fun p hp => .inl hp
  | cons c cs ih =>
      obtain ⟨hc, hcs⟩ := List.forall_mem_cons.mp hcs
      refine (ih (h.headerCall hc) hcs).mono fun p hp => ?_
      rw [← List.singleton_append, List.filterMap_append, List.mem_append]
      obtain (hold | hone) | hrest := hp
      · exact .inl hold
      · refine .inr (.inl (List.mem_filterMap.mpr ⟨c, List.mem_singleton_self c, hone⟩))
      · exact .inr (.inr hrest)

end Clean

theorem headerCall_of_mem {j : Journal} {a : Action} (ha : j.Allowed a) {c : Call}
    (hc : c ∈ j.headCalls a) : HeaderCall c := by
  cases a with
  | perform op => exact absurd hc List.not_mem_nil
  | flush => exact absurd hc List.not_mem_nil
  | softCheckpointAt p =>
      have hmax : (p : Int) < 2 ^ 63 := by exact_mod_cast ha.2
      rw [Journal.headCalls] at hc
      split at hc
      · rw [List.mem_singleton.mp hc, neg_of_lt (by omega)]
        exact .word (wordIndex_lt _ _) (by omega) (by omega)
      · exact absurd hc List.not_mem_nil
  | hardCheckpointAt p =>
      have hmax : (p : Int) < 2 ^ 63 := by exact_mod_cast ha.2
      rw [Journal.headCalls] at hc
      split at hc
      · simp only [List.mem_cons, List.not_mem_nil, or_false] at hc
        obtain rfl | rfl | rfl | rfl := hc
        · exact .word (wordIndex_lt _ _) (by omega) hmax
        · exact .sync
        · exact .word (wordIndex_lt _ _) (by omega) hmax
        · exact .datasync
      · exact absurd hc List.not_mem_nil

/-! ## Journals on a clean disk -/

structure Running (P : Nat → Prop) (d : Disk) (j : Journal) : Prop where
  ready : j.Ready
  content : j.file.data = d.content
  clean : Clean P d

namespace Running

variable {P : Nat → Prop} {d : Disk} {j : Journal}

/-- At every instant of an action. -/
theorem instant (h : Running P d j) {a : Action} (ha : j.Allowed a) {cut : List Call}
    (hcut : cut <+: j.callsOf a) :
    Clean (fun p => P p ∨ p ∈ cut.filterMap posted) (runCalls d cut) := by
  have hpos : 32 ≤ j.fileBuffer.position := Nat.le_trans (by decide) h.ready.header_le_position
  rcases h.ready.instant hcut with ⟨ds, rfl⟩ | ⟨ds, rest, rfl, hrest, -, -⟩
  · exact (h.clean.callsAt hpos ds).mono fun p hp => .inl hp
  · rw [runCalls_append, List.filterMap_append, filterMap_posted_callsAt hpos, List.nil_append]
    exact (h.clean.callsAt hpos ds).headerCalls fun c hc =>
      headerCall_of_mem ha (hrest.subset hc)

theorem act (h : Running P d j) {a : Action} (ha : j.Allowed a) :
    Running (fun p => P p ∨ p ∈ (j.callsOf a).filterMap posted) (runCalls d (j.callsOf a))
      (j.act a) := by
  obtain ⟨cs, -, -, hdata⟩ := h.ready.callsOf_eq a
  refine ⟨h.ready.act ha, ?_, h.instant ha (List.prefix_refl _)⟩
  rw [← hdata, content_runCalls, Journal.dataAt, h.content]

end Running

/-! ## Opening -/

section Opening

variable {d : Disk} {mode : OpenMode} {reads : Pread} {j : Journal} {c : Checkpoints}

theorem Read.holds (h : Journal.Read (opened d mode reads) c j) :
    Holds (headerWord d.content) c.checkpointPosition ∧
      Holds (headerWord d.content) c.hardCheckpointPosition := by
  have hword : ∀ k < 4, headerWord d.content k
      = (Journal.lockHeader (opened d mode reads)).checkpoint k := fun k hk =>
    (Journal.lockHeader_checkpoint h.header.length hk).symm
  rw [h.checkpoints_eq]
  exact ⟨Checkpoints.holds_readCheckpoint.congr hword,
    Checkpoints.holds_readCheckpoint_hard.congr hword⟩

/-- What is held in a file is a position of an `int64_t`. -/
theorem lt_max_of_holds {f : Bytes} {p : Nat} (h : Holds (headerWord f) p) : p < 2 ^ 63 :=
  h.lt_max fun k _ => Journal.headerWord_range f k

/-- An opened journal goes to its checkpoint. -/
theorem Read.ready (h : Journal.Read (opened d mode reads) c j)
    (hgrows : d.content.length ≤ j.file.data.length) :
    (j.skipDirectlyTo j.getCheckpoint).Ready ∧
      (j.skipDirectlyTo j.getCheckpoint).file = j.file := by
  refine Journal.ready_skip h.idle ?_ ?_ ?_
  · rw [Journal.getHardCheckpoint, h.checkpoints]
    exact (Read.holds h).2.header_le
  · rw [Journal.getHardCheckpoint, Journal.getCheckpoint, h.checkpoints, h.checkpoints_eq]
    exact Checkpoints.hard_le_readCheckpoint
  · rw [Journal.getCheckpoint, h.checkpoints]
    exact Nat.le_trans h.size hgrows

theorem headerCall_of_mem_repairs {header : Header} {size checkpoint : Nat}
    (hmax : checkpoint < 2 ^ 63) {call : Call}
    (hcall : call ∈ [0, 1, 2, 3].flatMap (Journal.repairCalls header size checkpoint)) :
    (∃ i, i < 4 ∧ call = .pwrite (8 * i) (encodeInt64 (-(checkpoint : Int)))) ∨
      call = .datasync := by
  obtain ⟨k, hk, hmem⟩ := List.mem_flatMap.mp hcall
  have hlt : k < 4 := by
    have hall : ∀ k ∈ [0, 1, 2, 3], k < 4 := by decide
    exact hall k hk
  rw [Journal.repairCalls] at hmem
  split at hmem
  · rcases List.mem_cons.mp hmem with rfl | hmem
    · rw [neg_of_lt (by omega)]
      exact .inl ⟨k, hlt, rfl⟩
    · exact .inr (List.mem_singleton.mp hmem)
  · exact absurd hmem List.not_mem_nil

/-- A later opening of a clean disk repeats in its repairs what is known. -/
theorem Clean.reopen {P : Nat → Prop} (h : Clean P d) (hstart : P headerSize)
    {recovery : Recovery} (hr : recovery ≠ .ignoreHeader)
    (hopen : Journal.openWritable (opened d mode reads) recovery = .ok j) :
    (∀ cut, cut <+: j.file.calls → Clean P (runCalls d cut)) ∧
      Running P (runCalls d j.file.calls) (j.skipDirectlyTo j.getCheckpoint) := by
  have hne : (opened d mode reads).data ≠ [] :=
    List.length_pos_iff.mp (Nat.lt_of_lt_of_le (by decide) h.header_le)
  obtain ⟨c, hread, hcalls, hdata⟩ := read_of_openWritable hr hne hopen
  rw [show (opened d mode reads).calls = [] from rfl, List.nil_append] at hcalls
  have hheld := (Read.holds hread).1
  have hmax := lt_max_of_holds hheld
  have hclean : ∀ cs : List Call, (∀ call ∈ cs, call ∈ j.file.calls) → ∀ {d : Disk}, Clean P d →
      Clean P (runCalls d cs) := by
    intro cs
    induction cs with
    | nil => exact fun _ _ hd => hd
    | cons call cs ih =>
        intro hcs d hd
        obtain ⟨hcall, hcs⟩ := List.forall_mem_cons.mp hcs
        refine ih hcs ?_
        rw [hcalls] at hcall
        obtain ⟨i, hi, rfl⟩ | rfl := headerCall_of_mem_repairs hmax hcall
        · have hcp := hheld.header_le
          refine hd.word hi (by omega) (by omega) (fun p hp heq => ?_) (fun p hp heq => ?_)
          · rw [neg_of_lt (by omega)] at heq
            obtain rfl : p = c.checkpointPosition := by omega
            exact h.of_holds hstart hheld
          · rw [headerSize] at hp
            omega
        · exact hd.sync
  have hgrows : d.content.length ≤ j.file.data.length := by
    rw [hdata]; exact length_le_foldl_apply _ _
  obtain ⟨hready, hfile⟩ := Read.ready hread hgrows
  refine ⟨fun cut hcut => hclean cut (fun call hcall => hcut.subset hcall) h, hready, ?_,
    hclean _ (fun _ hcall => hcall) h⟩
  rw [hfile, content_runCalls, hdata, hcalls]
  rfl

/-- The repairs are made durable one by one. -/
theorem runCalls_repairs (header : Header) (size checkpoint : Nat) (l : List Nat) (f : Bytes) :
    runCalls ⟨f, []⟩ (l.flatMap (Journal.repairCalls header size checkpoint))
      = ⟨(l.flatMap (Journal.repairCalls header size checkpoint)).foldl Call.apply f, []⟩ := by
  induction l generalizing f with
  | nil => rfl
  | cons i l ih =>
      rw [List.flatMap_cons, runCalls_append, List.foldl_append, Journal.repairCalls]
      split
      · exact ih _
      · exact ih f

/-- The first opening leaves a clean disk: what its header held past the end is
gone. -/
theorem clean_opening {f : Bytes} (hne : f ≠ []) {recovery : Recovery}
    (hr : recovery ≠ .ignoreHeader)
    (hopen : Journal.openWritable (opened ⟨f, []⟩ mode reads) recovery = .ok j) :
    Running (Valid f) (runCalls ⟨f, []⟩ j.file.calls) (j.skipDirectlyTo j.getCheckpoint) := by
  obtain ⟨c, hread, hcalls, hdata⟩ := @read_of_openWritable (opened ⟨f, []⟩ mode reads) _
    hr hne _ hopen
  rw [show (opened ⟨f, []⟩ mode reads).calls = [] from rfl, List.nil_append] at hcalls
  have hlen : headerSize ≤ f.length := hread.header.length
  have hheld : Holds (headerWord f) c.checkpointPosition := (Read.holds hread).1
  have hmax := lt_max_of_holds hheld
  have hsize : c.checkpointPosition ≤ f.length := hread.size
  have hheader : ∀ k < 4, (Journal.lockHeader (opened ⟨f, []⟩ mode reads)).checkpoint k
      = headerWord f k := fun k hk =>
    @Journal.lockHeader_checkpoint (opened ⟨f, []⟩ mode reads) hlen k hk
  have hgrows : f.length ≤ j.file.data.length := by
    rw [hdata]; exact length_le_foldl_apply _ _
  obtain ⟨hready, hfile⟩ := Read.ready hread hgrows
  have hdisk : runCalls ⟨f, []⟩ j.file.calls = ⟨j.file.data, []⟩ := by
    rw [hcalls, runCalls_repairs, hdata]
    rfl
  have hword := @Journal.headerWord_repaired
    (Journal.lockHeader (opened ⟨f, []⟩ mode reads)) f.length c.checkpointPosition
    (fun _ _ _ => hmax) [0, 1, 2, 3] (by decide) f hlen
  rw [show ([0, 1, 2, 3].flatMap (Journal.repairCalls
    (Journal.lockHeader (opened ⟨f, []⟩ mode reads)) f.length c.checkpointPosition)).foldl
      Call.apply f = j.file.data from hdata.symm] at hword
  have hlen' := Nat.le_trans hlen hgrows
  have hall : ∀ k < 4, k ∈ [0, 1, 2, 3] := by decide
  rw [hdisk]
  refine ⟨hready, by rw [hfile]; rfl, hlen', fun k hk => (word_settled hlen' hk).mpr rfl,
    fun k hk v p hv hp heq => ?_, fun i p hv hp => ?_⟩
  · have hv' := (word_settled hlen' hk).mp hv
    rw [hword] at hv'
    have hbase := hheld.header_le
    split at hv'
    · rw [hv', neg_of_lt (by omega)] at heq
      obtain rfl : p = c.checkpointPosition := by omega
      exact ⟨hheld, hsize⟩
    · next hkept =>
        have hsmall : ¬ neg (headerWord f k) > f.length := fun hbig =>
          hkept ⟨hall k hk, by rw [hheader k hk]; exact hbig⟩
        obtain ⟨i, s, rfl⟩ : ∃ i s, k = wordIndex i s := by
          have hindex : ∀ k < 4, ∃ i s, k = wordIndex i s := by decide
          exact hindex k hk
        rw [hv'] at heq
        exact ⟨.inr (.inr ⟨hp, i, s, heq⟩), by omega⟩
  · have hpair : HoldsHard (headerWord f) p := by
      refine ⟨hp, i, fun s => ?_⟩
      have hv' := (word_settled hlen' (wordIndex_lt i s)).mp (hv s)
      rw [hword] at hv'
      rw [headerSize] at hp
      split at hv'
      · omega
      · exact hv'.symm
    have hle := Checkpoints.le_readCheckpoint_hard (n := (f.length : Int)) (c := .initial)
      (hpair.congr hheader)
    have hle' := Nat.le_trans hle Checkpoints.hard_le_readCheckpoint
    have hcp : (Checkpoints.initial.readCheckpoint
        (Journal.lockHeader (opened ⟨f, []⟩ mode reads)).checkpoint f.length).checkpointPosition
        = c.checkpointPosition := congrArg _ hread.checkpoints_eq.symm
    rw [hcp] at hle'
    exact ⟨.inr (.inl hpair), Nat.le_trans hle' hsize⟩

end Opening

/-! ## Runs -/

/-- What the header may tell in a state. -/
def Known (f : Bytes) (s : State) (p : Nat) : Prop := Valid f p ∨ p ∈ s.written

structure Good (f : Bytes) (s : State) : Prop where
  start : Valid f headerSize
  clean : Clean (Known f s) s.disk
  running : ∀ j, s.running = some j → Running (Known f s) s.disk j

theorem known_append {f : Bytes} {j j' : Option Journal} {d d' : Disk} {written more : List Nat}
    (p : Nat) (h : Known f ⟨j, d, written⟩ p ∨ p ∈ more) :
    Known f ⟨j', d', written ++ more⟩ p := by
  obtain (hvalid | hold) | hnew := h
  · exact .inl hvalid
  · exact .inr (List.mem_append_left _ hold)
  · exact .inr (List.mem_append_right _ hnew)

theorem Reach.good {f : Bytes} {s : State} (h : Reach f s) : Good f s := by
  induction h with
  | opening hne mode reads recovery hr hopen =>
      have hrun := clean_opening hne hr hopen
      refine ⟨⟨.inl rfl, ?_⟩, hrun.clean.mono fun p hp => .inl hp, fun j hj => ?_⟩
      · obtain ⟨c, hread, -⟩ := @read_of_openWritable
          (opened ⟨f, []⟩ mode reads) _ hr hne _ hopen
        exact hread.header.length
      · obtain rfl := Option.some.inj hj
        exact ⟨hrun.ready, hrun.content, hrun.clean.mono fun p hp => .inl hp⟩
  | act hs ha ih =>
      have hrun := (ih.running _ rfl).act ha
      refine ⟨ih.start, hrun.clean.mono known_append, fun j hj => ?_⟩
      obtain rfl := Option.some.inj hj
      exact ⟨hrun.ready, hrun.content, hrun.clean.mono known_append⟩
  | kill hs ha hcut ih =>
      exact ⟨ih.start, ((ih.running _ rfl).instant ha hcut).mono known_append,
        fun _ hj => nomatch hj⟩
  | powerFailure hs him ih =>
      exact ⟨ih.start, ih.clean.survives him, fun _ hj => nomatch hj⟩
  | reopen hs mode reads recovery hr hopen ih =>
      have hrun := (ih.clean.reopen (.inl ih.start) hr hopen).2
      refine ⟨ih.start, hrun.clean, fun j hj => ?_⟩
      obtain rfl := Option.some.inj hj
      exact hrun
  | killOpening hs mode reads recovery hr hopen hcut ih =>
      exact ⟨ih.start, (ih.clean.reopen (.inl ih.start) hr hopen).1 _ hcut,
        fun _ hj => nomatch hj⟩

/-- After an opening for writing, whatever is appended and however the writer
stops, the checkpoints that an opening finds were valid in the file of the first
one, or were put into the header since. -/
theorem stale_words_stay_invalid {f : Bytes} {s : State} (h : Reach f s) {mode : OpenMode}
    {reads : Pread} {recovery : Recovery} (hr : recovery ≠ .ignoreHeader) {forWritable : Bool}
    {j : Journal}
    (hopen : Journal.openReadonly (opened s.disk mode reads) recovery forWritable = .ok j) :
    (Valid f j.getCheckpoint ∨ j.getCheckpoint ∈ s.written) ∧
      (Valid f j.getHardCheckpoint ∨ j.getHardCheckpoint ∈ s.written) := by
  have hgood := h.good
  have hne : (opened s.disk mode reads).data ≠ [] :=
    List.length_pos_iff.mp (Nat.lt_of_lt_of_le (by decide) hgood.clean.header_le)
  obtain ⟨-, c, hread⟩ := Journal.read_of_openReadonly hr hne hopen
  obtain ⟨hcp, hhard⟩ := Read.holds hread
  rw [Journal.getCheckpoint, Journal.getHardCheckpoint, hread.checkpoints]
  exact ⟨hgood.clean.of_holds (.inl hgood.start) hcp,
    hgood.clean.of_holds (.inl hgood.start) hhard⟩

/-- An empty journal with a soft checkpoint past its end. -/
def cutFile : Bytes :=
  { Header.initial with checkpoint := fun k => if k = 3 then -43 else headerSize }.bytes

/-- Two operations later the file has grown to it, and it is not found. -/
theorem stale_words_stay_invalid_once : ∃ s, Reach cutFile s ∧ s.disk.content.length = 43 ∧
    s.written = [] ∧ ∃ j,
      Journal.openReadonly (opened s.disk .readExisting .whole) .none false = .ok j ∧
      (Valid cutFile j.getCheckpoint ∨ j.getCheckpoint ∈ s.written) := by
  have hopen := Reach.opening (f := cutFile) (by decide +kernel) .writeExisting .whole .none
    (by decide) rfl
  have hone := hopen.act (a := .perform .validData) trivial
  have htwo := hone.act (a := .perform .validData) trivial
  have hkill := htwo.kill (a := .flush) trivial (List.prefix_refl _)
  have hfound : ∀ s, Reach cutFile s → (∃ j, Journal.openReadonly
      (opened s.disk .readExisting .whole) .none false = .ok j) → ∃ j,
        Journal.openReadonly (opened s.disk .readExisting .whole) .none false = .ok j ∧
        (Valid cutFile j.getCheckpoint ∨ j.getCheckpoint ∈ s.written) :=
    fun s hs ⟨j, hj⟩ => ⟨j, hj, (stale_words_stay_invalid hs (by decide) hj).1⟩
  exact ⟨_, hkill, by decide +kernel, by decide +kernel, hfound _ hkill ⟨_, rfl⟩⟩

end StaleWords

end Joedb
