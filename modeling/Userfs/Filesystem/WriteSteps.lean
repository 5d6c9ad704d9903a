import Userfs.Filesystem.FileWrite

namespace Userfs.Filesystem

open Word

/-!
# A file write in steps

Two handles on one file have a lock each, so that two calls of
`userfs_file_write` run interleaved.  What one call does is cut here into the
steps that another call can come between: the two reads of the inode size at the
start, each section between `ilock` and `iunlock`, and the store of the size at
the end.  The last one is made outside every lock and stores a value computed from
the first two.

A call that runs alone through its steps does what `userfsFileWrite` does.
-/

/-! ## The steps of a call -/

/-- Where a call of `userfs_file_write` stands. -/
inductive WritePhase where
  | sample
  | compare
  | prepend
  | aligned
  | append
  | store
  | returned (result : Int)
deriving DecidableEq, Repr

/-- The local variables of a call. -/
structure Writer where
  file : File
  buf : Nat -> UInt8
  count : Nat
  offsetEnd : Nat
  fileSize : Nat
  sizePrepended : Nat
  sizeAppended : Nat
  done : Nat
  phase : WritePhase

/-- A call that has not taken a step. -/
def Writer.start (file : File) (buf : Nat -> UInt8) (count : Nat) : Writer where
  file := file
  buf := buf
  count := count
  offsetEnd := file.off + count
  fileSize := 0
  sizePrepended := 0
  sizeAppended := 0
  done := 0
  phase := .sample

/-- Behind a piece, with the position and the bytes done. -/
def Writer.advance (writer : Writer) (off done : Nat) (phase : WritePhase) : Writer :=
  { writer with file := { writer.file with off := off }, done := done, phase := phase }

/-- The unaligned piece before or behind the loop. -/
def Writer.edge (piece : PieceWrite) (writer : Writer) (size : Nat) (next : WritePhase) :
    Fs Writer := do
  let (off, done) ← writeEdge piece writer.file.ip writer.buf size writer.file.off writer.done
  pure (writer.advance off done next)

/-- One iteration of the loop over whole blocks, or its end. -/
def Writer.iterate (piece : PieceWrite) (writer : Writer) : Fs Writer := do
  let off := writer.file.off
  let limit := writer.count - writer.sizeAppended
  if writer.done < limit then
    if off % gBlockSizeBytes ≠ 0 then
      throw (.assertion "(f->off % g_block_size_bytes) == 0")
    else do
      let ioSize := nextIoSize off (limit - writer.done)
      let written ← piece writer.file.ip (fun index => writer.buf (writer.done + index)) off ioSize
      if 0 < written then growSize writer.file.ip (off + written.toNat) else pure PUnit.unit
      if written < 0 then pure (writer.advance off writer.done .append)
      else if written ≠ ioSize then throw (.panic "short filewrite")
      else pure (writer.advance (off + written.toNat) (writer.done + written.toNat) .aligned)
  else pure (writer.advance off writer.done .append)

/-- One step of a call. -/
def Writer.step (piece : PieceWrite) (writer : Writer) : Fs Writer :=
  match writer.phase with
  | .sample =>
      if writer.file.writable = false then pure { writer with phase := .returned (-1) }
      else do
        let inode ← readInode writer.file.ip
        pure { writer with fileSize := inode.size, phase := .compare }
  | .compare => do
      let inode ← readInode writer.file.ip
      let fileSize := if 0 < writer.count ∧ inode.size < writer.offsetEnd then writer.offsetEnd
        else writer.fileSize
      if writer.file.isInode = false then throw (.panic "filewrite")
      else
        let split := splitRequest writer.file.off writer.count
        if gBlockSizeBytes ≤ split.1 then
          throw (.assertion "size_prepended < g_block_size_bytes")
        else pure { writer with
          fileSize := fileSize
          sizePrepended := split.1
          sizeAppended := split.2
          phase := .prepend }
  | .prepend => writer.edge piece writer.sizePrepended .aligned
  | .aligned => writer.iterate piece
  | .append => writer.edge piece writer.sizeAppended .store
  | .store => do
      modifyInode writer.file.ip (fun inode => { inode with size := writer.fileSize })
      pure { writer with
        phase := .returned (if writer.done = writer.count then writer.count else -1) }
  | .returned _ => pure writer

section Steps

variable {piece : PieceWrite} {store : Store} {done : Writer -> Store -> Prop}
  {failed : Fault -> Store -> Prop} {writer : Writer}

theorem Writer.ensures_sample (phase : writer.phase = .sample) :
    Ensures (writer.step piece) store done failed <->
      if writer.file.writable = false then done { writer with phase := .returned (-1) } store
      else done { writer with fileSize := (store.inode writer.file.ip).size, phase := .compare }
        store := by
  simp only [Writer.step, phase, Ensures.ite_iff, Ensures.bind_iff, ensures_readInode,
    Ensures.pure_iff]

/-- A call behind its second reading of the size. -/
def Writer.decided (writer : Writer) (size : Nat) : Writer :=
  { writer with
    fileSize := if 0 < writer.count ∧ size < writer.offsetEnd then writer.offsetEnd
      else writer.fileSize
    sizePrepended := (splitRequest writer.file.off writer.count).1
    sizeAppended := (splitRequest writer.file.off writer.count).2
    phase := .prepend }

theorem Writer.ensures_compare (phase : writer.phase = .compare) :
    Ensures (writer.step piece) store done failed <->
      if writer.file.isInode = false then failed (.panic "filewrite") store
      else if gBlockSizeBytes ≤ (splitRequest writer.file.off writer.count).1 then
        failed (.assertion "size_prepended < g_block_size_bytes") store
      else done (writer.decided (store.inode writer.file.ip).size) store := by
  simp only [Writer.step, phase, Ensures.ite_iff, Ensures.bind_iff, ensures_readInode,
    Ensures.pure_iff, Ensures.throw_iff]
  rfl

theorem Writer.ensures_store (phase : writer.phase = .store) :
    Ensures (writer.step piece) store done failed <->
      done { writer with
          phase := .returned (if writer.done = writer.count then writer.count else -1) }
        (store.updateInode writer.file.ip (fun inode => { inode with size := writer.fileSize })) := by
  simp only [Writer.step, phase, Ensures.bind_iff, ensures_modifyInode, Ensures.pure_iff]

end Steps

/-! ## A call alone -/

/-- A call that runs alone until it returns. -/
def Writer.run (piece : PieceWrite) : Nat -> Writer -> Fs (Int × File)
  | 0, writer =>
      match writer.phase with
      | .returned result => pure (result, writer.file)
      | _ => throw .outOfFuel
  | fuel + 1, writer =>
      match writer.phase with
      | .returned result => pure (result, writer.file)
      | _ => do
          let next ← writer.step piece
          next.run piece fuel

section Alone

variable {piece : PieceWrite} {store : Store} {done : Int × File -> Store -> Prop}
  {failed : Fault -> Store -> Prop}

/-- What is left of `userfs_file_write` after the loop. -/
def Writer.finish (piece : PieceWrite) (writer : Writer) (position : Nat × Nat) :
    Fs (Int × File) := do
  let (off, done) ← writeEdge piece writer.file.ip writer.buf writer.sizeAppended position.1 position.2
  modifyInode writer.file.ip (fun inode => { inode with size := writer.fileSize })
  pure (if done = writer.count then writer.count else -1, { writer.file with off := off })

theorem Writer.run_finish {writer : Writer} {off bytes : Nat} (fuel : Nat) :
    Ensures ((writer.advance off bytes .append).run piece (fuel + 2)) store done failed <->
      Ensures (writer.finish piece (off, bytes)) store done failed := by
  cases fuel <;> simp only [Writer.run, Writer.step, Writer.edge, Writer.finish, Writer.advance, Ensures.bind_iff,
    Ensures.pure_iff, ensures_modifyInode]

theorem Writer.run_returned {writer : Writer} {fuel : Nat} {result : Int}
    (phase : writer.phase = .returned result) :
    Ensures (writer.run piece fuel) store done failed <-> done (result, writer.file) store := by
  cases fuel <;> rw [Writer.run, phase] <;> exact Ensures.pure_iff

theorem Writer.run_step {writer : Writer} (fuel : Nat)
    (underway : forall result, writer.phase ≠ .returned result) :
    Ensures (writer.run piece (fuel + 1)) store done failed <->
      Ensures (writer.step piece) store
        (fun next middle => Ensures (next.run piece fuel) middle done failed) failed := by
  rw [Writer.run]
  split
  · exact absurd ‹_› (underway _)
  · exact Ensures.bind_iff

/-- The loop: as long as the budget of the function lasts, the steps follow it. -/
theorem Writer.run_loop (neverOut : forall next, ¬ failed .outOfFuel next) {fuel : Nat}
    {writer : Writer} (phase : writer.phase = .aligned)
    (looped : Ensures (writeLoop piece writer.file.ip writer.buf
        (writer.count - writer.sizeAppended) fuel writer.file.off writer.done) store
      (fun position middle => Ensures (writer.finish piece position) middle done failed) failed) :
    Ensures (writer.run piece (fuel + 2)) store done failed := by
  induction fuel generalizing writer store with
  | zero =>
      unfold writeLoop at looped
      exact absurd (Ensures.throw_iff.mp looped) (neverOut store)
  | succ fuel ih =>
      rw [Writer.run_step (fuel + 2) (by simp [phase])]
      unfold writeLoop at looped
      simp only [Writer.step, phase, Writer.iterate]
      simp only [Ensures.ite_iff, Ensures.bind_iff, Ensures.pure_iff, Ensures.throw_iff] at looped ⊢
      by_cases more : writer.done < writer.count - writer.sizeAppended
      · rw [if_pos more] at looped ⊢
        split at looped
        · rw [if_pos ‹_›]
          exact looped
        · rw [if_neg ‹_›]
          refine looped.mono ?_ (fun _ _ fault => fault)
          intro written middle after
          simp only [Writer.run_finish]
          by_cases raised : 0 < written
          · rw [if_pos raised] at after ⊢
            refine after.mono ?_ (fun _ _ fault => fault)
            intro _ grown after
            rw [if_neg (by omega)] at after ⊢
            split at after
            · rw [if_pos ‹_›]
              exact after
            · rw [if_neg ‹_›]
              exact ih rfl after
          · rw [if_neg raised] at after ⊢
            split at after
            · rw [if_pos ‹_›]
              exact after
            · rw [if_neg ‹_›]
              split at after
              · rw [if_pos ‹_›]
                exact after
              · rw [if_neg ‹_›]
                exact ih rfl after
      · rw [if_neg more] at looped ⊢
        exact (Writer.run_finish fuel).mpr looped

/-- A call that runs alone through its steps does what `userfsFileWrite` does, as
long as the loop of the function does not exceed its budget. -/
theorem Writer.run_of_userfsFileWrite {file : File} {buf : Nat -> UInt8} {count : Nat}
    (neverOut : forall next, ¬ failed .outOfFuel next)
    (whole : Ensures (userfsFileWrite piece file buf count) store done failed) :
    Ensures ((Writer.start file buf count).run piece (count + 6)) store done failed := by
  unfold userfsFileWrite at whole
  simp only [Ensures.ite_iff, Ensures.bind_iff, ensures_readInode, Ensures.pure_iff,
    Ensures.throw_iff] at whole
  rw [Writer.run_step (count + 5) (by simp [Writer.start]), Writer.ensures_sample rfl]
  by_cases refused : file.writable = false
  · rw [if_pos refused] at whole
    exact Eq.mpr (if_pos refused) ((Writer.run_returned rfl).mpr whole)
  · rw [if_neg refused] at whole
    refine Eq.mpr (if_neg refused) ?_
    rw [Writer.run_step (count + 4) (by simp), Writer.ensures_compare rfl]
    by_cases other : file.isInode = false
    · rw [if_pos other] at whole
      exact Eq.mpr (if_pos other) whole
    · rw [if_neg other] at whole
      refine Eq.mpr (if_neg other) ?_
      by_cases wide : gBlockSizeBytes ≤ (splitRequest file.off count).1
      · rw [if_pos wide] at whole
        exact Eq.mpr (if_pos wide) whole
      · rw [if_neg wide] at whole
        refine Eq.mpr (if_neg wide) ?_
        rw [Writer.run_step (count + 3) (by simp [Writer.decided])]
        simp only [Writer.step, Writer.decided, Writer.edge, Ensures.bind_iff, Ensures.pure_iff]
        refine whole.mono ?_ (fun _ _ fault => fault)
        intro position middle looped
        refine Writer.run_loop neverOut rfl (looped.mono ?_ (fun _ _ fault => fault))
        intro position middle after
        simp only [Writer.finish, Ensures.bind_iff, Ensures.pure_iff]
        exact after

end Alone

end Userfs.Filesystem
