import Joedb.Journal.Actions
import Joedb.Journal.RoundTrip
import Joedb.Ui.DumpReplay

/-!
# A file of text behind a journal

An `Interpreted_File` is read and written in binary, and is stored as text. The binary file is in
memory. What an interpreter finds in the text goes there through a journal of its own, and a
checkpoint that appears in the header is played by the same journal into a dump, which is appended
to the text with an empty line at its end.

So two journals work on the file in memory, the one that is inside and the one of the user, and they
hear of each other by the header only. The one inside reads the header whenever it is written to. A
hard checkpoint writes to it twice, and in between there is no new checkpoint to be seen.

Every lock of the file reads what was added to the text behind what has been seen. Here nobody else
adds to it. The streams over the text are at its end whenever something is written.
-/

namespace Joedb

open ByteFile StateExcept

/-- `Abstract_Interpreted_File`: the text of its file, how much of it was read or written, and the
journal, whose file is the one in memory. -/
structure InterpretedFile where
  text : Bytes
  seen : Nat
  journal : Journal
  db : Database
  lastLineEmpty : Bool

/-- A write to the header. -/
def Call.onHeader : Call → Bool
  | .pwrite offset _ => offset < headerSize
  | _ => false

namespace InterpretedFile

/-- `Interpreter(db, Multiplexer{db, journal}, Record_Id::null)`. -/
def interpreter : Target (Database × Journal) :=
  .ofDatabase Journal.asWritable (modify Journal.flush) (modify Journal.hardCheckpoint) (-1)

variable (X : Surroundings)

/-- `read_data`. -/
def readData : EStateM Exn InterpretedFile Unit := fun f =>
  match Shell.mainLoop interpreter X true Shell.maxRecursionDepth (f.text.drop f.seen)
      ⟨(f.db, f.journal), f.lastLineEmpty⟩ with
  | .error e s => .error e { f with db := s.target.1, journal := s.target.2 }
  | .ok _ s =>
      if s.lastLineEmpty = false then
        .error (.exception "Interpreted_File: last line of joedbi file must be empty")
          { f with db := s.target.1, journal := s.target.2 }
      else .ok () ⟨f.text, f.text.length, s.target.2.softCheckpoint, s.target.1, s.lastLineEmpty⟩

/-- The constructor. -/
def create (text : Bytes) : Except Exn InterpretedFile :=
  match Journal.openWritable .empty .none with
  | .error e => .error e
  | .ok j =>
      match readData X ⟨text, 0, j, .create (-1), true⟩ with
      | .error e _ => .error e
      | .ok _ f => .ok f

/-- The file in memory, with another content. -/
def withFile (f : InterpretedFile) (file : File) : InterpretedFile :=
  { f with journal := f.journal.withFile file }

def onJournal {α : Type} : EStateM Exn Journal α → EStateM Exn InterpretedFile α :=
  onPart (·.journal) fun f journal => { f with journal }

/-- `journal.play_until_checkpoint(writing_multiplexer)`, and the stream to its end. -/
def play : EStateM Exn InterpretedFile Unit := fun f =>
  match Replay.playUntilCheckpoint (InterpreterDump.writingMultiplexer X.floatText)
      ⟨f.journal, ⟨f.db, f.text⟩⟩ with
  | .ok _ t => .ok () { f with
      text := t.writable.out, seen := t.writable.out.length
      journal := t.journal, db := t.writable.schema }
  | .error e t => .error e { f with
      text := t.writable.out, journal := t.journal, db := t.writable.schema }

def pwrite (offset : Nat) (bytes : Bytes) : EStateM Exn InterpretedFile Unit := do
  modify fun f => f.withFile (f.journal.file.pwrite offset bytes)
  when (offset < headerSize) do
    let pulled ← onJournal Journal.pull
    when (pulled ≠ 0) (play X)

/-- A call on the file. The two synchronisations are for the file of the text. -/
def answer : Call → EStateM Exn InterpretedFile Unit
  | .pwrite offset bytes => pwrite X offset bytes
  | .sync => pure ()
  | .datasync => pure ()

/-- Every call, up to the first that throws. -/
def answerAll : List Call → EStateM Exn InterpretedFile Unit
  | [] => pure ()
  | c :: cs => do
      answer X c
      answerAll cs

end InterpretedFile

/-! ## A journal on it -/

/-- A file of text and the journal of a user, with what was performed on it. -/
structure Edited where
  file : InterpretedFile
  history : History

namespace Edited

/-- What may happen to the two. Both are closed and opened again from the text. -/
inductive Event where
  | perform (op : Op)
  | flush
  | softCheckpoint
  | hardCheckpoint
  | lock
  | reopen (mode : OpenMode) (reads : Pread)

/-- `File_Head_Lock`, and any other lock. -/
def lock (X : Surroundings) (s : Edited) : Except Exn Edited :=
  match InterpretedFile.readData X s.file with
  | .error e _ => .error e
  | .ok _ f => .ok { s with file := f }

/-- The calls on the file by which a history went on. The header is written to at the end, under a
lock. -/
def follow (X : Surroundings) (s : Edited) (history : History) : Except Exn Edited :=
  let calls := history.journal.file.calls.drop s.history.journal.file.calls.length
  let head := calls.dropWhile (!·.onHeader)
  let answers : EStateM Exn InterpretedFile Unit := do
    InterpretedFile.answerAll X (calls.takeWhile (!·.onHeader))
    when (head ≠ []) (InterpretedFile.readData X)
    InterpretedFile.answerAll X head
  match answers s.file with
  | .error e _ => .error e
  | .ok _ f => .ok ⟨f, history⟩

/-- A new file over the text, and a new journal on it, which is played to its checkpoint. Only
what was checkpointed is left. -/
def opened (X : Surroundings) (text : Bytes) (ops : List Op) (mode : OpenMode) (reads : Pread) :
    Except Exn Edited :=
  match InterpretedFile.create X text with
  | .error e => .error e
  | .ok f =>
      match lock X ⟨f, ⟨f.journal, ops, ops.length⟩⟩ with
      | .error e => .error e
      | .ok s =>
          match s.history.reopen mode reads with
          | .error e => .error e
          | .ok history => .ok ⟨s.file, history⟩

def step (X : Surroundings) (s : Edited) : Event → Except Exn Edited
  | .perform op => s.history.step (.perform op) >>= s.follow X
  | .flush => s.history.step .flush >>= s.follow X
  | .softCheckpoint => s.history.step .softCheckpoint >>= s.follow X
  | .hardCheckpoint => s.history.step .hardCheckpoint >>= s.follow X
  | .lock => s.lock X
  | .reopen mode reads =>
      opened X s.file.text (s.history.ops.take s.history.checkpointed) mode reads

end Edited

end Joedb
