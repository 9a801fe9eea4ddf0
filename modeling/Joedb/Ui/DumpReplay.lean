import Joedb.Ui.ReadBack

/-!
# A journal played into a dump

What a journal says is told to a dump operation by operation, with a line for the place of a blob
before its data, and an empty line at the end. The values of a vector are stored before the call,
where the database that hears the dump has storage of its own. That changes no names, so the line
is the one that a call by itself would have written.
-/

namespace Joedb

open ByteFile Containers StateExcept FileBuffer Replay

namespace Replay

variable {ω : Type} {W : Writable ω}

/-- Playing on to a checkpoint that is ahead, for a `Writable` without a position. -/
theorem playUntilCheckpoint_listens (hW : ∀ w, W.getPosition w = 0) {j : Journal}
    {w₀ w₁ w₂ w₃ w₄ : ω} {ws : List Wire} (hfit : ∀ w ∈ ws, w.Fits)
    (hidle : j.fileBuffer.Reading)
    (hcp : j.getCheckpoint = j.getPosition + (wiresBytes ws).length)
    (hahead : j.getPosition < j.getCheckpoint)
    (hbody : wiresBytes ws <+: j.file.data.drop j.getPosition)
    (hstart : W.startWriting j.getPosition w₀ = .ok () w₁)
    (hlisten : W.listenFrom j.getPosition j.context ws w₁ = .ok () w₂)
    (hend : W.endWriting j.getCheckpoint w₂ = .ok () w₃)
    (hcheckpoint : W.softCheckpoint w₃ = .ok () w₄) :
    ∃ b : FileBuffer, b.file = j.file ∧ b.Idle ∧ b.position = j.getCheckpoint ∧
      playUntilCheckpoint W ⟨j, w₀⟩ = .ok () ⟨⟨b, j.checkpoints,
        contextAfter j.context (decodeAll j.context ws)⟩, w₄⟩ := by
  have hcatch : catchUp W ⟨j, w₀⟩ = .ok () ⟨j, w₀⟩ := by
    rw [catchUp, get_bind_run, hW, when_neg (Nat.not_lt_zero _)]
    rfl
  have hall : runAll W j.getPosition ws ⟨j, w₁⟩ = .ok () ⟨⟨j.fileBuffer, j.checkpoints,
      contextAfter j.context (decodeAll j.context ws)⟩, w₂⟩ := by
    have hrun := runAll_listensFrom (W := W) ws (t := ⟨j, w₁⟩) j.getPosition
      (show _ ≤ j.getCheckpoint by omega)
    rw [Tells] at hrun
    simp only [context, hlisten] at hrun
    exact hrun
  obtain ⟨b, hfile, hraw⟩ := rawPlayUntil_runs (W := W) (t := ⟨j, w₁⟩) hfit hcp (Nat.le_refl _)
    j.fileBuffer ⟨hidle, rfl⟩ hbody
  rw [hall] at hraw
  obtain ⟨hraw, hread, hposition⟩ := hraw
  obtain ⟨hidle', hposition', hfile'⟩ := flush_idle_of_reading hread
  refine ⟨b.flush, hfile'.trans hfile, hidle', ?_, ?_⟩
  · rw [hposition', hposition, ← hcp]
  · have hat : b.getPosition = j.getCheckpoint := by rw [hposition, ← hcp]
    have hend' : W.endWriting b.getPosition w₂ = .ok () w₃ := by rw [hat, hend]
    have hon : playOn W j.getCheckpoint ⟨j, w₀⟩ = .ok () ⟨⟨b, j.checkpoints,
        contextAfter j.context (decodeAll j.context ws)⟩, w₄⟩ := by
      rw [playOn, bind_ok hcatch, get_bind_run, bind_ok (tell_ok hstart)]
      refine (bind_ok hraw).trans ?_
      rw [get_bind_run]
      refine (bind_ok (tell_ok hend')).trans ?_
      exact tell_ok hcheckpoint
    have hgoal : playUntilCheckpoint W ⟨j, w₀⟩ = playUntil W j.getCheckpoint ⟨j, w₀⟩ := rfl
    rw [hgoal, playUntil, get_bind_run, when_pos hahead]
    exact bind_ok hon

end Replay

/-! ## The dump -/

namespace InterpreterDump

/-- The `writing_multiplexer` of an `Interpreted_File`. -/
def writingMultiplexer (F : FloatText) : Writable InterpreterDump :=
  asWritable F true Database.asWritable

variable {F : FloatText} {db db' : Database} {out : Bytes} {op : Op} {limit : RecordId}

/-- What a database takes is written as it is called. -/
theorem call_taken (hfit : op.Fits) (hrun : Database.call op db = .ok () db') :
    (writingMultiplexer F).call op ⟨db, out⟩
      = .ok () ⟨db', out ++ InterpreterWritable.call F db op⟩ := by
  have hsaid : (Told.call op).op? true = some op := by cases op <;> rfl
  obtain ⟨schema, htell, rfl⟩ := tell_said (F := F) (d := ⟨db, out⟩) tracks_database rfl hsaid hfit
    hrun
  exact htell

/-- Storage that is written to beforehand has no names. -/
theorem hear_taken (h : db.Sound) (hfit : op.Fits) (hsay : op.Sayable limit db)
    (hrun : Database.call op db = .ok () db') :
    (writingMultiplexer F).hear op ⟨db, out⟩
      = .ok () ⟨db', out ++ InterpreterWritable.call F db op⟩ := by
  cases op with
  | updateVector ty t r f vs =>
      have hsize : vs.length ≠ 0 := mt List.length_eq_zero_iff.mp hsay.1
      have hhear := (Database.hear_of_call h hrun).1
      rw [Writable.hear_updateVector, when_pos hsize] at hhear ⊢
      obtain ⟨capacity, db₁, hown, hhear⟩ := bind_eq_ok hhear
      obtain ⟨hrange, hhear⟩ := guard_bind_eq_ok.mp hhear
      obtain ⟨_, db₂, hstore, hcall⟩ := bind_eq_ok hhear
      have hkept : Database.Kept db db₂ := by
        refine Database.Kept.trans _ _ _ ((Database.withTable_kept
          (Table.getOwnStorage_kept ty f)).ok hown) ?_
        refine (keeps_when Database.Kept.refl (keeps_modify fun db => ?_)).ok hstore
        exact Database.withTable_kept
          (Table.withField_kept (Field.setVector_kept ty _ hfit.2.2)) db
      have htext : InterpreterWritable.call F db₂ (.updateVector ty t r f vs)
          = InterpreterWritable.call F db (.updateVector ty t r f vs) :=
        congrArg InterpreterWritable.line (InterpreterWritable.words_congr F
          (Database.getTableName_congr hkept.1) (Database.getFieldName_congr hkept.1) _)
      have hown' : (writingMultiplexer F).ownStorage ty t f ⟨db, out⟩
          = .ok capacity ⟨db₁, out⟩ :=
        show inSchema (Database.asWritable.ownStorage ty t f) ⟨db, out⟩ = _ from onPart_ok hown
      have hstore' : (when capacity.isSome (modify ((writingMultiplexer F).storeOwn ty t f
          r.toNat vs)) : EStateM Exn InterpreterDump Unit) ⟨db₁, out⟩
            = .ok () ⟨db₂, out⟩ := by
        cases capacity with
        | none =>
            obtain rfl := (EStateM.Result.ok.inj hstore).2
            rfl
        | some n =>
            obtain rfl := (EStateM.Result.ok.inj hstore).2
            rfl
      rw [← htext, Writable.hearVector, bind_ok hown', when_neg hrange, pure_bind_run,
        bind_ok hstore']
      exact call_taken hfit hcall
  | writeBlob data => exact call_taken hfit hrun
  | _ => exact call_taken hfit hrun

/-- An operation that is read is told. -/
theorem listenAt_told (h : db.Sound) (hfit : op.Fits) (hsay : op.Sayable limit db)
    (hrun : Database.call op db = .ok () db') (p : Nat) (out : Bytes) :
    ∃ told out', Told.ops true told = [op] ∧
      (writingMultiplexer F).listenAt p op ⟨db, out⟩ = .ok () ⟨db', out'⟩ ∧
      Told.tellAll (writingMultiplexer F) told ⟨db, out⟩ = .ok () ⟨db', out'⟩ := by
  have hone : ∀ out, Told.tellAll (writingMultiplexer F) [.call op] ⟨db, out⟩
      = .ok () ⟨db', out ++ InterpreterWritable.call F db op⟩ := fun out =>
    bind_ok (call_taken hfit hrun)
  cases op with
  | writeBlob data =>
      have hblob : ∀ b, (writingMultiplexer F).onBlob b ⟨db, out⟩
          = .ok () ⟨db, out ++ InterpreterWritable.onBlob b⟩ := fun b => rfl
      exact ⟨[.onBlob _, .call (.writeBlob data)], _, rfl,
        (bind_ok (hblob _)).trans (hear_taken h hfit hsay hrun),
        (bind_ok (hblob _)).trans (hone _)⟩
  | _ => exact ⟨[.call _], _, rfl, hear_taken h hfit hsay hrun, hone out⟩

/-- A stretch that is read is told. -/
theorem listenFrom_told {ops : List Op} (h : db.Proper) (hfit : ∀ op ∈ ops, op.Fits)
    (hsay : Database.SayAll limit ops db)
    (hrun : Database.asWritable.callAll ops db = .ok () db') (p : Nat) (c : Context)
    (out : Bytes) :
    ∃ told out', Told.ops true told = ops ∧
      (writingMultiplexer F).listenFrom p c (encodeAll c ops) ⟨db, out⟩ = .ok () ⟨db', out'⟩ ∧
      Told.tellAll (writingMultiplexer F) told ⟨db, out⟩ = .ok () ⟨db', out'⟩ := by
  induction ops generalizing db p c out with
  | nil =>
      obtain rfl := (EStateM.Result.ok.inj hrun).2
      exact ⟨[], out, rfl, rfl, rfl⟩
  | cons op ops ih =>
      obtain ⟨_, db₁, hop, hops⟩ := bind_eq_ok hrun
      have hop : Database.call op db = .ok () db₁ := hop
      obtain ⟨hfit, hfits⟩ := List.forall_mem_cons.mp hfit
      obtain ⟨hsay, hsays⟩ := hsay
      rw [after_ok hop] at hsays
      obtain ⟨told, out₁, htold, hlisten, htell⟩ :=
        listenAt_told (F := F) h.sound hfit hsay hop p out
      obtain ⟨told', out', htold', hlisten', htell'⟩ := ih (h.call hop) hfits hsays hops
        (p + (abbreviate c op).bytes.length) (op.context c) out₁
      refine ⟨told ++ told', out', ?_, ?_, ?_⟩
      · rw [Told.ops_append, htold, htold']
        rfl
      · rw [encodeAll, Writable.listenFrom, meaning_abbreviate, bind_ok hlisten, hlisten']
      · rw [Told.tellAll_append, bind_ok htell, htell']

end InterpreterDump

end Joedb
