import Joedb.Concurrency.Server
import Joedb.Journal.Opening

/-!
# A file on a server

A `Server_File` is the journal of a server, read over the connection instead of downloaded. Two
pieces of it are in memory: the header, and behind `tail_offset` what its client has written
and not pushed yet. In between, it is what the server answers.

The server answers with as much of its journal as there is. That may be more than there was
when `tail_offset` was set, since other clients push when they like and nobody tells. So a
request that starts before `tail_offset` and ends behind it is answered with bytes that are no
part of the file, where the client may have a tail of its own. This is the one way in which
the three pieces do not add up to one file, and it is there exactly when what the server
has behind `tail_offset` is not what the tail starts with.

A call of a `Robust_Connection` may be done many times over new connections. What is left of
that here is that a connection may be made anew at any time, and that the journal of the
server may grow at any time, which is also what is left of a push whose reply was lost.
-/

namespace Joedb

open ByteFile StateExcept

/-- The answer to a request for a range: where it ends, and the bytes. -/
def serverRead (remote : Bytes) (start stop : Nat) : Nat × Bytes :=
  let stop := min stop remote.length
  (stop, slice remote (min start stop) stop)

/-- It is what a session of a server answers, of the journal as far as its checkpoint. -/
theorem Server.read_eq {ι : Type} [DecidableEq ι] (k : ServerOptions) (s : Server ι) (i : ι)
    (hcheckpoint : s.checkpoint ≤ s.data.length) (start stop : Nat) :
    ∃ current : Int, s.read k i start stop = s.reply i (.data false current
      (serverRead (s.data.take s.checkpoint) start stop).1
      (serverRead (s.data.take s.checkpoint) start stop).2) := by
  have hlen : (s.data.take s.checkpoint).length = s.checkpoint := List.length_take_of_le hcheckpoint
  have hcurrent : (min (min (start : Int) (min stop s.checkpoint)) (min stop s.checkpoint)).toNat
      = min start (min stop s.checkpoint) := by omega
  have hstop : (min (stop : Int) s.checkpoint).toNat = min stop s.checkpoint := by omega
  refine ⟨min (min (start : Int) (min stop s.checkpoint)) (min stop s.checkpoint), ?_⟩
  rw [Server.read, Server.send]
  rw [if_neg (by omega), hcurrent, hstop, serverRead, hlen, slice_take (Nat.min_le_right _ _),
    ← hstop, Int.toNat_of_nonneg (by omega)]

structure ServerFile where
  tailOffset : Nat
  head : Bytes
  tail : Bytes
  /-- `get_server_checkpoint` of the connection. -/
  serverCheckpoint : Nat
  /-- Within `pull`, where the journal reads the new checkpoint. -/
  pulling : Bool

namespace ServerFile

def getSize (f : ServerFile) : Nat := f.tailOffset + f.tail.length

def writeCheckpoint (f : ServerFile) : ServerFile :=
  let checkpoint := encodeInt64 f.serverCheckpoint
  { f with head := ByteFile.pwrite (ByteFile.pwrite f.head 0 checkpoint) 8 checkpoint }

/-- The constructor, of a server whose journal is `remote`. The head is what a new journal
writes. -/
def start (remote : Bytes) : Except Exn ServerFile :=
  if remote.length < headerSize then
    .error (.disconnection "Robust_Connection: server checkpoint rolled back")
  else
    match Journal.openWritable .empty .none with
    | .error e => .error e
    | .ok journal =>
        .ok (writeCheckpoint ⟨remote.length, journal.file.data, [], remote.length, false⟩)

/-- `Server_Connection::pread`. -/
def connectionPread (remote : Bytes) (size offset : Nat) : Except Exn Bytes :=
  let reply := serverRead remote offset (offset + size)
  if reply.1 < offset ∨ reply.1 > offset + size then
    .error (.disconnection "bad pread size from server")
  else .ok (reply.2.take (reply.1 - offset))

def pread (f : ServerFile) (remote : Bytes) (size offset : Nat) : Except Exn Bytes :=
  if offset < headerSize then .ok (Pread.whole.run f.head size offset)
  else if offset < f.tailOffset then connectionPread remote size offset
  else .ok (Pread.whole.run f.tail size (offset - f.tailOffset))

def pwrite (offset : Nat) (bytes : Bytes) : EStateM Exn ServerFile Unit := do
  let f ← get
  if offset < headerSize then
    if offset + bytes.length > headerSize then
      throw (.disconnection "Cannot write to Server_File body")
    else set { f with head := ByteFile.pwrite f.head offset bytes }
  else if offset ≥ f.tailOffset then
    set { f with tail := ByteFile.pwrite f.tail (offset - f.tailOffset) bytes }
  else throw (.disconnection "Cannot write to Server_File body")

/-- `pull`, up to where the journal reads the new checkpoint. -/
def beginPull (remote : Bytes) : EStateM Exn ServerFile Unit := do
  let f ← get
  when (f.tail.length > 0)
    (throw (.disconnection "Server_File: pulling with non-empty tail"))
  set (writeCheckpoint { f with serverCheckpoint := remote.length, pulling := true })

/-- The rest of `pull`, if the journal returns. -/
def endPull : EStateM Exn ServerFile Unit :=
  modify fun f => { f with tailOffset := f.serverCheckpoint, pulling := false }

/-- What `push` does when the server has taken the bytes. -/
def pushed (stop : Nat) : EStateM Exn ServerFile Unit := do
  let f ← get
  set { f with serverCheckpoint := stop }
  if stop = f.getSize then
    set { f with serverCheckpoint := stop, tailOffset := stop, tail := [] }
  else throw (.disconnection "Server_File could not truncate tail after push")

/-- A new connection. -/
def reconnect (remote : Bytes) : EStateM Exn ServerFile Unit := do
  let f ← get
  when (remote.length < f.serverCheckpoint)
    (throw (.disconnection "Robust_Connection: server checkpoint rolled back"))
  set { f with serverCheckpoint := remote.length }

end ServerFile

/-- A file and its server, as far as the checkpoint of its journal. -/
structure Served where
  file : ServerFile
  remote : Bytes

namespace Served

inductive Event where
  /-- A push of another client, or of this one by a connection that broke. -/
  | extend (payload : Bytes)
  | reconnect
  | beginPull
  /-- The journal has read the new checkpoint, or thrown. -/
  | endPull (returned : Bool)
  /-- With the bytes that were read for it. -/
  | push (start stop : Nat) (payload : Bytes)
  | pwrite (offset : Nat) (bytes : Bytes)

/-- What an event does, whether or not it throws. Within a pull there is nothing but the
reads of the journal, and the server takes a push that starts where its journal ends. -/
def step (s : Served) : Event → Served
  | .extend payload => { s with remote := s.remote ++ payload }
  | .reconnect => { s with file := after (ServerFile.reconnect s.remote) s.file }
  | .beginPull =>
      if s.file.pulling then s else { s with file := after (ServerFile.beginPull s.remote) s.file }
  | .endPull returned =>
      if s.file.pulling then
        if returned then { s with file := after ServerFile.endPull s.file }
        else { s with file := { s.file with pulling := false } }
      else s
  | .push start stop payload =>
      if s.file.pulling then s
      else if start = s.remote.length ∧ payload.length = stop - start then
        { file := after (ServerFile.pushed stop) s.file, remote := s.remote ++ payload }
      else s
  | .pwrite offset bytes =>
      if s.file.pulling then s else { s with file := after (ServerFile.pwrite offset bytes) s.file }

def run (s : Served) (events : List Event) : Served := events.foldl step s

/-- The one file that the three pieces are. -/
def view (s : Served) (offset : Nat) : Option UInt8 :=
  if offset < headerSize then s.file.head[offset]?
  else if offset < s.file.tailOffset then s.remote[offset]?
  else s.file.tail[offset - s.file.tailOffset]?

/-- What a read should return: bytes of the file, and none behind its end. -/
def Reads (s : Served) (offset : Nat) (bytes : Bytes) : Prop :=
  ∀ i < bytes.length, bytes[i]? = s.view (offset + i) ∧ offset + i < s.file.getSize

/-- When a read does not show what is behind the part of the file that is on the server. -/
def Within (s : Served) (size offset : Nat) : Prop :=
  offset < headerSize ∨ s.file.tailOffset ≤ offset ∨ offset + size ≤ s.file.tailOffset ∨
    slice s.remote s.file.tailOffset (offset + size) <+: s.file.tail

/-! ## What holds in every run -/

structure Sound (s : Served) : Prop where
  head : s.file.head.length = headerSize
  header_le : headerSize ≤ s.file.tailOffset
  tailOffset_le : s.file.tailOffset ≤ s.remote.length
  serverCheckpoint_le : s.file.serverCheckpoint ≤ s.remote.length
  /-- A connection knows of what it has pulled. -/
  pulling : s.file.pulling = true → headerSize ≤ s.file.serverCheckpoint

theorem length_writeCheckpoint {f : ServerFile} (h : f.head.length = headerSize) :
    f.writeCheckpoint.head.length = headerSize := by
  rw [headerSize] at h
  simp only [ServerFile.writeCheckpoint, length_pwrite, length_encodeInt64, h, headerSize]
  omega

theorem sound_start {remote : Bytes} {f : ServerFile} (hstart : ServerFile.start remote = .ok f) :
    Sound ⟨f, remote⟩ := by
  rw [ServerFile.start] at hstart
  split at hstart
  · cases hstart
  · next hlen =>
      obtain ⟨journal, hopen, -, -, -, hdata, -⟩ :=
        @Journal.openWritable_new .empty rfl rfl .none
      rw [hopen] at hstart
      obtain rfl := Except.ok.inj hstart
      have hhead : journal.file.data.length = headerSize := by rw [hdata]; decide
      exact ⟨length_writeCheckpoint hhead, Nat.not_lt.mp hlen, Nat.le_refl _, Nat.le_refl _,
        fun h => (by cases h)⟩

namespace Sound

variable {s : Served}

theorem extend (h : s.Sound) (payload : Bytes) :
    Sound { s with remote := s.remote ++ payload } where
  head := h.head
  header_le := h.header_le
  tailOffset_le := by
    rw [List.length_append]
    exact Nat.le_add_right_of_le h.tailOffset_le
  serverCheckpoint_le := by
    rw [List.length_append]
    exact Nat.le_add_right_of_le h.serverCheckpoint_le
  pulling := h.pulling

theorem reconnect (h : s.Sound) :
    Sound { s with file := after (ServerFile.reconnect s.remote) s.file } := by
  have hheader := h.header_le
  have hoffset := h.tailOffset_le
  by_cases hback : s.remote.length < s.file.serverCheckpoint
  · exact absurd h.serverCheckpoint_le (Nat.not_le.mpr hback)
  · have hrun : ServerFile.reconnect s.remote s.file
        = .ok ⟨⟩ { s.file with serverCheckpoint := s.remote.length } := by
      rw [ServerFile.reconnect, get_bind_run, when_neg hback]
      rfl
    rw [after_ok hrun]
    exact ⟨h.head, hheader, hoffset, Nat.le_refl _, fun _ => Nat.le_trans hheader hoffset⟩

theorem beginPull (h : s.Sound) :
    Sound { s with file := after (ServerFile.beginPull s.remote) s.file } := by
  by_cases htail : s.file.tail.length > 0
  · have hrun : ServerFile.beginPull s.remote s.file
        = .error (.disconnection "Server_File: pulling with non-empty tail") s.file := by
      rw [ServerFile.beginPull, get_bind_run, when_pos htail]
      rfl
    rw [after_error hrun]
    exact h
  · have hrun : ServerFile.beginPull s.remote s.file = .ok ⟨⟩
        (ServerFile.writeCheckpoint
          { s.file with serverCheckpoint := s.remote.length, pulling := true }) := by
      rw [ServerFile.beginPull, get_bind_run, when_neg htail]
      rfl
    rw [after_ok hrun]
    exact ⟨length_writeCheckpoint h.head, h.header_le, h.tailOffset_le, Nat.le_refl _,
      fun _ => Nat.le_trans h.header_le h.tailOffset_le⟩

theorem endPull (h : s.Sound) (hpulling : s.file.pulling = true) (returned : Bool) :
    Sound (s.step (.endPull returned)) := by
  rw [step, if_pos hpulling]
  cases returned with
  | true =>
      exact ⟨h.head, h.pulling hpulling, h.serverCheckpoint_le, h.serverCheckpoint_le,
        fun h => (by cases h)⟩
  | false =>
      exact ⟨h.head, h.header_le, h.tailOffset_le, h.serverCheckpoint_le, fun h => (by cases h)⟩

theorem push (h : s.Sound) (hpulling : s.file.pulling = false) {start stop : Nat}
    {payload : Bytes} (hstart : start = s.remote.length) (hlen : payload.length = stop - start) :
    Sound { file := after (ServerFile.pushed stop) s.file, remote := s.remote ++ payload } := by
  have hstop : stop ≤ (s.remote ++ payload).length := by rw [List.length_append]; omega
  by_cases hend : stop = s.file.getSize
  · have hrun : ServerFile.pushed stop s.file
        = .ok ⟨⟩ { s.file with serverCheckpoint := stop, tailOffset := stop, tail := [] } := by
      rw [ServerFile.pushed, get_bind_run, set_bind_run, if_pos hend]
      rfl
    have hle : s.file.tailOffset ≤ stop := by
      rw [hend, ServerFile.getSize]
      exact Nat.le_add_right _ _
    rw [after_ok hrun]
    exact ⟨h.head, Nat.le_trans h.header_le hle, hstop, hstop,
      fun hp => Bool.noConfusion (hpulling ▸ hp)⟩
  · have hrun : ServerFile.pushed stop s.file
        = .error (.disconnection "Server_File could not truncate tail after push")
            { s.file with serverCheckpoint := stop } := by
      rw [ServerFile.pushed, get_bind_run, set_bind_run, if_neg hend]
      rfl
    rw [after_error hrun]
    exact ⟨h.head, h.header_le, (h.extend payload).tailOffset_le, hstop,
      fun hp => Bool.noConfusion (hpulling ▸ hp)⟩

theorem pwrite (h : s.Sound) (hpulling : s.file.pulling = false) (offset : Nat) (bytes : Bytes) :
    Sound { s with file := after (ServerFile.pwrite offset bytes) s.file } := by
  have hset : ∀ f : ServerFile, f.head.length = headerSize → f.tailOffset = s.file.tailOffset →
      f.serverCheckpoint = s.file.serverCheckpoint → f.pulling = s.file.pulling →
      Sound { s with file := f } := fun f hhead htail hcheckpoint hpull =>
    ⟨hhead, htail ▸ h.header_le, htail ▸ h.tailOffset_le, hcheckpoint ▸ h.serverCheckpoint_le,
      fun hp => Bool.noConfusion (hpulling ▸ hpull ▸ hp)⟩
  rw [ServerFile.pwrite, after, get_bind_run]
  by_cases hoffset : offset < headerSize
  · rw [if_pos hoffset]
    by_cases hbody : offset + bytes.length > headerSize
    · rw [if_pos hbody]
      exact h
    · rw [if_neg hbody]
      refine hset _ ?_ rfl rfl rfl
      show (ByteFile.pwrite s.file.head offset bytes).length = headerSize
      rw [length_pwrite, h.head]
      omega
  · rw [if_neg hoffset]
    by_cases htail : offset ≥ s.file.tailOffset
    · rw [if_pos htail]
      exact hset _ h.head rfl rfl rfl
    · rw [if_neg htail]
      exact h

/-- Every event keeps the pieces in order. -/
theorem step (h : s.Sound) (e : Event) : (s.step e).Sound := by
  cases e with
  | extend payload => exact h.extend payload
  | reconnect => exact h.reconnect
  | beginPull =>
      rw [Served.step]
      split
      · exact h
      · exact h.beginPull
  | endPull returned =>
      by_cases hpulling : s.file.pulling = true
      · exact h.endPull hpulling returned
      · rw [Served.step, if_neg hpulling]
        exact h
  | push start stop payload =>
      rw [Served.step]
      split
      · exact h
      · next hpulling =>
          split
          · next hserver => exact h.push (Bool.eq_false_iff.mpr hpulling) hserver.1 hserver.2
          · exact h
  | pwrite offset bytes =>
      rw [Served.step]
      split
      · exact h
      · next hpulling => exact h.pwrite (Bool.eq_false_iff.mpr hpulling) offset bytes

theorem run (h : s.Sound) (events : List Event) : (s.run events).Sound := by
  induction events generalizing s with
  | nil => exact h
  | cons e events ih => exact ih (h.step e)

end Sound

/-! ## What a read returns -/

theorem prefix_iff_forall_getElem?_eq {a b : Bytes} :
    a <+: b ↔ ∀ i < a.length, b[i]? = a[i]? := by
  rw [List.prefix_iff_getElem?]
  exact forall₂_congr fun i hi => by rw [List.getElem?_eq_getElem hi]

section Reading

variable {s : Served} {size offset : Nat}

theorem pread_head (size : Nat) (h : s.Sound) (hoffset : offset < headerSize) :
    s.file.pread s.remote size offset = .ok (slice s.file.head offset (offset + size)) ∧
      s.Reads offset (slice s.file.head offset (offset + size)) := by
  refine ⟨by rw [ServerFile.pread, if_pos hoffset]; rfl, fun i hi => ?_⟩
  have hheader := h.header_le
  rw [length_slice, h.head] at hi
  refine ⟨?_, by rw [ServerFile.getSize]; omega⟩
  rw [view, if_pos (by omega), getElem?_slice, if_pos (by omega)]

theorem pread_tail (size : Nat) (h : s.Sound) (hoffset : s.file.tailOffset ≤ offset) :
    s.file.pread s.remote size offset = .ok (slice s.file.tail (offset - s.file.tailOffset)
        (offset - s.file.tailOffset + size)) ∧
      s.Reads offset (slice s.file.tail (offset - s.file.tailOffset)
        (offset - s.file.tailOffset + size)) := by
  have hheader := h.header_le
  refine ⟨by rw [ServerFile.pread, if_neg (by omega), if_neg (by omega)]; rfl, fun i hi => ?_⟩
  rw [length_slice] at hi
  refine ⟨?_, by rw [ServerFile.getSize]; omega⟩
  rw [view, if_neg (by omega), if_neg (by omega), getElem?_slice, if_pos (by omega)]
  congr 1
  omega

/-- Between the two it is the server that decides where the answer ends. -/
theorem pread_server (h : s.Sound) (hheader : ¬ offset < headerSize)
    (hoffset : offset < s.file.tailOffset) :
    s.file.pread s.remote size offset
      = .ok (slice s.remote offset (min (offset + size) s.remote.length)) := by
  have htail := h.tailOffset_le
  have hstart : min offset (min (offset + size) s.remote.length) = offset := by omega
  rw [ServerFile.pread, if_neg hheader, if_pos hoffset, ServerFile.connectionPread]
  simp only [serverRead, hstart]
  rw [if_neg (by omega), List.take_of_length_le (by rw [length_slice]; omega)]

/-- What the server has behind `tail_offset` is in the answer as far as it was asked for. -/
theorem reads_server_iff (h : s.Sound) (hheader : ¬ offset < headerSize)
    (hoffset : offset < s.file.tailOffset) :
    s.Reads offset (slice s.remote offset (min (offset + size) s.remote.length)) ↔
      offset + size ≤ s.file.tailOffset ∨
        slice s.remote s.file.tailOffset (offset + size) <+: s.file.tail := by
  have htail := h.tailOffset_le
  have hlen : (slice s.remote offset (min (offset + size) s.remote.length)).length
      = min (offset + size) s.remote.length - offset := by rw [length_slice]; omega
  have hget : ∀ i < min (offset + size) s.remote.length - offset,
      (slice s.remote offset (min (offset + size) s.remote.length))[i]? = s.remote[offset + i]? :=
    fun i hi => by rw [getElem?_slice, if_pos hi]
  have hview : ∀ j, s.view (s.file.tailOffset + j) = s.file.tail[j]? := fun j => by
    have := h.header_le
    rw [view, if_neg (by omega), if_neg (by omega), Nat.add_sub_cancel_left]
  constructor
  · intro hreads
    refine or_iff_not_imp_left.mpr fun hsize => prefix_iff_forall_getElem?_eq.mpr fun j hj => ?_
    rw [length_slice] at hj
    -- The place of the byte in the answer.
    have hi : s.file.tailOffset + j - offset < min (offset + size) s.remote.length - offset := by
      omega
    have hbyte := (hreads _ (hlen ▸ hi)).1
    rw [hget _ hi, Nat.add_sub_of_le (by omega), hview] at hbyte
    rw [getElem?_slice, if_pos (by omega), hbyte]
  · intro hwithin i hi
    rw [hlen] at hi
    rw [hget i hi]
    by_cases hbefore : offset + i < s.file.tailOffset
    · refine ⟨?_, by rw [ServerFile.getSize]; omega⟩
      rw [view, if_neg (by omega), if_pos hbefore]
    · obtain ⟨j, hj⟩ := Nat.exists_eq_add_of_le (Nat.not_lt.mp hbefore)
      have hprefix := hwithin.resolve_left (by omega)
      have hlong := hprefix.length_le
      have hbyte := prefix_iff_forall_getElem?_eq.mp hprefix j (by rw [length_slice]; omega)
      rw [length_slice] at hlong
      rw [getElem?_slice, if_pos (by omega), ← hj] at hbyte
      exact ⟨by rw [hj, hview, ← hj, hbyte], by rw [ServerFile.getSize]; omega⟩

end Reading

/-- A read is answered in every run, and what it returns is the file exactly if it stays within
one piece, or the server has behind `tail_offset` what the tail starts with. -/
theorem pread_reads_iff {remote : Bytes} {f : ServerFile}
    (hstart : ServerFile.start remote = .ok f) (events : List Event) (size offset : Nat) :
    ∃ bytes, (run ⟨f, remote⟩ events).file.pread (run ⟨f, remote⟩ events).remote size offset
        = .ok bytes ∧
      ((run ⟨f, remote⟩ events).Reads offset bytes ↔
        (run ⟨f, remote⟩ events).Within size offset) := by
  have h := (sound_start hstart).run events
  by_cases hheader : offset < headerSize
  · obtain ⟨hpread, hreads⟩ := pread_head size h hheader
    exact ⟨_, hpread, iff_of_true hreads (.inl hheader)⟩
  by_cases hoffset : (run ⟨f, remote⟩ events).file.tailOffset ≤ offset
  · obtain ⟨hpread, hreads⟩ := pread_tail size h hoffset
    exact ⟨_, hpread, iff_of_true hreads (.inr (.inl hoffset))⟩
  · refine ⟨_, pread_server h hheader (Nat.not_le.mp hoffset), ?_⟩
    rw [reads_server_iff h hheader (Nat.not_le.mp hoffset), Within, or_iff_right hheader,
      or_iff_right hoffset]

/-- A header and one byte. -/
def oneByte : Bytes := Header.initial.bytes ++ [1]

/-- A client that has the whole of the server's journal reads it up to the end. -/
theorem pread_reads_iff_oneByte :
    ∃ f, ServerFile.start oneByte = .ok f ∧ ∃ bytes,
      (run ⟨f, oneByte⟩ [.pwrite 42 [5]]).file.pread
          (run ⟨f, oneByte⟩ [.pwrite 42 [5]]).remote 1 41 = .ok bytes ∧
        ((run ⟨f, oneByte⟩ [.pwrite 42 [5]]).Reads 41 bytes ↔
          (run ⟨f, oneByte⟩ [.pwrite 42 [5]]).Within 1 41) := by
  obtain ⟨f, hf⟩ : ∃ f, ServerFile.start oneByte = .ok f := ⟨_, rfl⟩
  exact ⟨f, hf, pread_reads_iff hf [.pwrite 42 [5]] 1 41⟩

/-- Another client pushes a byte: it is read at `get_size()`. -/
theorem pread_behind_size :
    ∃ f, ServerFile.start oneByte = .ok f ∧
      (run ⟨f, oneByte⟩ [.extend [7]]).file.getSize = 42 ∧
      (run ⟨f, oneByte⟩ [.extend [7]]).file.pread
          (run ⟨f, oneByte⟩ [.extend [7]]).remote 2 41 = .ok [1, 7] ∧
      ¬ (run ⟨f, oneByte⟩ [.extend [7]]).Reads 41 [1, 7] :=
  ⟨_, rfl, rfl, rfl, fun h => absurd (h 1 (by decide)).2 (by decide)⟩

end Served

end Joedb
