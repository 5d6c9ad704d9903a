import Userfs.Filesystem.WriteSplit

namespace Userfs.Filesystem

open Word

/-!
# File writes of any length

The parameter of `userfs_file_write` is a `size_t`, the file position has 64 bits,
and the size of a piece has 32.  This file follows the arithmetic of the source to
the ends of these ranges: `ALIGN` and the next 2 MB boundary wrap at `2^64`, and the
remaining length is narrowed to 32 bits in every round of the loop.  Away from the
end of the 64-bit range this is the function of `FileWrite`.

Once the remaining length is a positive multiple of `2^32`, the narrowed size is
zero, and the loop calls `snfs_write` for no bytes for ever.
-/

/-- `ALIGN` to the block size on an `offset_t`. -/
def align64 (value : Nat) : Nat :=
  low 64 (value + 4095) / 4096 * 4096

/-- `size_prepended` and `size_appended` of a request. -/
def splitRequest64 (off count : Nat) : Nat × Nat :=
  if add64 off count < align64 off then (count, 0)
  else
    let padding := sub64 (align64 (add64 off count)) (add64 off count)
    (if off < align64 off then align64 off - off else 0,
      if 0 < padding then gBlockSizeBytes - padding else 0)

/-- The size of the next piece of the loop. -/
def nextIoSize64 (off remaining : Nat) : Nat :=
  let ioSize := if chunkSize < low 32 remaining then chunkSize else low 32 remaining
  let upper := add64 off chunkSize / chunkSize * chunkSize
  if upper ≤ add64 off ioSize then low 32 (sub64 upper off) else ioSize

/-- The loop over whole blocks. -/
def writeLoop64 (piece : PieceWrite) (ip : Nat) (buf : Nat -> UInt8) (limit : Nat) :
    Nat -> Nat -> Nat -> Fs (Nat × Nat)
  | 0, _, _ => throw .outOfFuel
  | fuel + 1, off, done => do
      if done < limit then
        if off % gBlockSizeBytes ≠ 0 then
          throw (.assertion "(f->off % g_block_size_bytes) == 0")
        else do
          let ioSize := nextIoSize64 off (sub64 limit done)
          let written ← piece ip (fun index => buf (done + index)) off ioSize
          if 0 < written then growSize ip (add64 off written.toNat) else pure PUnit.unit
          if written < 0 then pure (off, done)
          else if written ≠ ioSize then throw (.panic "short filewrite")
          else
            writeLoop64 piece ip buf limit fuel (add64 off written.toNat) (add64 done written.toNat)
      else pure (off, done)

/-- `userfs_file_write` with a given bound on the iterations of its loop.  The count that
is returned is not narrowed to the `int` of the source. -/
def userfsFileWrite64 (piece : PieceWrite) (fuel : Nat) (file : File) (buf : Nat -> UInt8)
    (count : Nat) : Fs (Int × File) := do
  if file.writable = false then pure (-1, file)
  else if file.isInode = false then throw (.panic "filewrite")
  else do
    let inode ← readInode file.ip
    let fileSize := if 0 < count ∧ inode.size < add64 file.off count then add64 file.off count
      else inode.size
    let (prepended, appended) := splitRequest64 file.off count
    if gBlockSizeBytes ≤ prepended then
      throw (.assertion "size_prepended < g_block_size_bytes")
    else do
      let (off, done) ← writeEdge piece file.ip buf prepended file.off 0
      let (off, done) ← writeLoop64 piece file.ip buf (sub64 count appended) fuel off done
      let (off, done) ← writeEdge piece file.ip buf appended off done
      modifyInode file.ip (fun inode => { inode with size := fileSize })
      pure (if done = count then count else -1, { file with off := off })

/-! ## Away from the end of the range -/

theorem align64_of_lt {value : Nat} (small : value + 4095 < 2 ^ 64) :
    align64 value = blockCeil value := by
  unfold align64 blockCeil
  rw [low_of_lt small]

/-- The padding behind a request, also when the end of its last block wraps. -/
theorem sub64_align64 {value : Nat} (small : value < 2 ^ 64) :
    sub64 (align64 value) value = blockCeil value - value := by
  have behind : value ≤ blockCeil value := by
    unfold blockCeil
    omega
  by_cases far : value + 4095 < 2 ^ 64
  · rw [align64_of_lt far]
    apply sub64_of_le behind
    unfold blockCeil
    omega
  · unfold align64 sub64 blockCeil low
    omega

/-- The split of the natural numbers, unless the start lies in the last block of
the 64-bit range. -/
theorem splitRequest64_eq {off count : Nat} (start : off + 4095 < 2 ^ 64)
    (range : off + count < 2 ^ 64) : splitRequest64 off count = splitRequest off count := by
  have startCeil := align64_of_lt start
  have stop : add64 off count = off + count := add64_of_lt range
  have padding := sub64_align64 range
  have prepended : (if off < blockCeil off then blockCeil off - off else 0) = blockCeil off - off := by
    split <;> omega
  unfold splitRequest64 splitRequest
  simp only [startCeil, stop, padding, prepended]

theorem nextIoSize64_eq {off : Nat} (remaining : Nat) (range : off + chunkSize < 2 ^ 64) :
    nextIoSize64 off remaining = nextIoSize off remaining := by
  have chunk : chunkSize = 2097152 := rfl
  have upper : add64 off chunkSize = off + chunkSize := add64_of_lt range
  have capped : (if chunkSize < low 32 remaining then chunkSize else low 32 remaining) ≤ chunkSize := by
    split <;> omega
  unfold nextIoSize64 nextIoSize
  simp only
  generalize (if chunkSize < low 32 remaining then chunkSize else low 32 remaining) = ioSize
    at capped ⊢
  have reach : add64 off ioSize = off + ioSize := add64_of_lt (by omega)
  have boundary : (off + chunkSize) / chunkSize * chunkSize ≤ off + chunkSize :=
    Nat.div_mul_le_self _ _
  have above : off ≤ (off + chunkSize) / chunkSize * chunkSize := by
    rw [chunk]
    omega
  have difference := sub64_of_le above (by omega)
  rw [upper, reach, difference]

section Near

variable {piece : PieceWrite} {ip : Nat} {buf : Nat -> UInt8} {store : Store}

/-- The loop of `FileWrite`, as long as the request ends a chunk before the end of
the range. -/
theorem writeLoop64_of_writeLoop (returns : piece.ReturnsSize) {limit fuel off position : Nat}
    {done : Nat × Nat -> Store -> Prop} {failed : Fault -> Store -> Prop} (bound : limit < 2 ^ 64)
    (range : off + (limit - position) + chunkSize < 2 ^ 64)
    (looped : Ensures (writeLoop piece ip buf limit fuel off position) store done failed) :
    Ensures (writeLoop64 piece ip buf limit fuel off position) store done failed := by
  induction fuel generalizing off position store with
  | zero => exact looped
  | succ fuel ih =>
      unfold writeLoop at looped
      unfold writeLoop64
      by_cases more : position < limit
      · have remaining : sub64 limit position = limit - position := sub64_of_le (by omega) bound
        have small := nextIoSize_le off (limit - position)
        rw [if_pos more] at looped ⊢
        rw [remaining, nextIoSize64_eq _ (by omega)]
        generalize nextIoSize off (limit - position) = size at small looped ⊢
        have reach : add64 off size = off + size := add64_of_lt (by omega)
        have count : add64 position size = position + size := add64_of_lt (by omega)
        by_cases start : off % gBlockSizeBytes ≠ 0
        · rw [if_pos start] at looped ⊢
          exact looped
        · rw [if_neg start, Ensures.bind_iff] at looped ⊢
          refine (looped.and (returns _ _ _ _ store)).mono ?_ (fun _ _ fault => fault.1)
          rintro written middle ⟨after, equal⟩
          subst equal
          have notNegative : ¬ (size : Int) < 0 := by omega
          have exactly : ¬ (size : Int) ≠ size := fun different => different rfl
          have onward : forall grown, Ensures (writeLoop piece ip buf limit fuel (off + size)
              (position + size)) grown done failed ->
              Ensures (writeLoop64 piece ip buf limit fuel (off + size) (position + size)) grown done
                failed := fun grown => ih (by omega)
          by_cases positive : (0 : Int) < size
          · rw [if_pos positive, Ensures.bind_iff, Int.toNat_natCast] at after ⊢
            rw [reach, count]
            refine after.mono ?_ (fun _ _ fault => fault)
            intro _ grown after
            rw [if_neg notNegative, if_neg exactly] at after ⊢
            exact onward grown after
          · rw [if_neg positive] at after ⊢
            beta_reduce at after ⊢
            rw [if_neg notNegative, if_neg exactly, Int.toNat_natCast] at after ⊢
            rw [reach, count]
            exact onward middle after
      · rw [if_neg more] at looped ⊢
        exact looped

/-- `userfs_file_write`, away from the end of the 64-bit range. -/
theorem userfsFileWrite64_run (returns : piece.ReturnsSize) (file : File) (count : Nat)
    (range : file.off + count + chunkSize < 2 ^ 64) (store : Store) :
    (userfsFileWrite64 piece (count + 1) file buf count).run store =
      (userfsFileWrite piece file buf count).run store := by
  have chunk : chunkSize = 2097152 := rfl
  have split := splitRequest_le file.off count
  apply run_eq_of_ensures
  intro done failed whole
  have stop : add64 file.off count = file.off + count := add64_of_lt (by omega)
  have limit : sub64 count (splitRequest file.off count).2 =
      count - (splitRequest file.off count).2 := sub64_of_le (by omega) (by omega)
  unfold userfsFileWrite at whole
  unfold userfsFileWrite64
  rw [Ensures.ite_iff] at whole ⊢
  by_cases refused : file.writable = false
  · rw [if_pos refused] at whole ⊢
    exact whole
  · rw [if_neg refused, Ensures.ite_iff] at whole ⊢
    by_cases other : file.isInode = false
    · rw [if_pos other] at whole ⊢
      exact whole
    · rw [if_neg other, Ensures.bind_iff, ensures_readInode] at whole ⊢
      rw [stop, splitRequest64_eq (by omega) (by omega)]
      rw [Ensures.ite_iff] at whole ⊢
      by_cases wide : gBlockSizeBytes ≤ (splitRequest file.off count).1
      · rw [if_pos wide] at whole ⊢
        exact whole
      · rw [if_neg wide, Ensures.bind_iff] at whole ⊢
        have first := @writeEdge_returns piece file.ip buf returns
          (splitRequest file.off count).1 file.off 0 store
        refine (whole.and first).mono ?_ (fun _ _ fault => fault.1)
        rintro position middle ⟨after, equal⟩
        subst equal
        rw [limit]
        rw [Ensures.bind_iff] at after ⊢
        exact writeLoop64_of_writeLoop returns (by omega) (by omega) after

end Near

/-! ## Whether the loop ends -/

/-- In the last chunk of the range the next boundary wraps to zero, and the piece
reaches to the end of the range. -/
theorem nextIoSize64_last {off : Nat} (remaining : Nat) (small : off < 2 ^ 64)
    (last : 2 ^ 64 ≤ off + chunkSize) : nextIoSize64 off remaining = 2 ^ 64 - off := by
  have chunk : chunkSize = 2097152 := rfl
  have wrapped : add64 off chunkSize / chunkSize * chunkSize = 0 := by
    unfold add64 low
    rw [chunk] at last ⊢
    omega
  have distance : low 32 (sub64 0 off) = 2 ^ 64 - off := by
    unfold sub64 low
    rw [chunk] at last
    omega
  unfold nextIoSize64
  simp only [wrapped, distance, Nat.zero_le, ↓reduceIte]

/-- A piece consists of whole blocks and is not larger than the narrowed length. -/
theorem nextIoSize_narrow {off remaining : Nat} (start : off % gBlockSizeBytes = 0)
    (length : remaining % gBlockSizeBytes = 0) :
    nextIoSize off remaining % gBlockSizeBytes = 0 ∧
      nextIoSize off remaining ≤ remaining % 2 ^ 32 := by
  have chunk : chunkSize = 2097152 := rfl
  unfold gBlockSizeBytes at *
  have narrowed : low 32 remaining % 4096 = 0 ∧ low 32 remaining = remaining % 2 ^ 32 := by
    unfold low
    omega
  have capped : (if chunkSize < low 32 remaining then chunkSize else low 32 remaining) ≤
        remaining % 2 ^ 32 ∧
      (if chunkSize < low 32 remaining then chunkSize else low 32 remaining) % 4096 = 0 := by
    split <;> omega
  unfold nextIoSize
  simp only
  generalize (if chunkSize < low 32 remaining then chunkSize else low 32 remaining) = ioSize
    at capped ⊢
  split
  · unfold low
    rw [chunk] at *
    omega
  · exact ⟨capped.2, capped.1⟩

section Ends

variable {piece : PieceWrite} {ip : Nat} {buf : Nat -> UInt8} {store : Store}
  {done : Nat × Nat -> Store -> Prop} {failed : Fault -> Store -> Prop}

/-- One round of the loop, for an operation that returns its size: the next round
starts behind the piece. -/
theorem writeLoop64_round (returns : piece.ReturnsSize) {limit fuel off position size : Nat}
    (more : position < limit) (start : off % gBlockSizeBytes = 0)
    (sized : nextIoSize64 off (sub64 limit position) = size)
    (onward : forall next, Ensures (writeLoop64 piece ip buf limit fuel (add64 off size)
      (add64 position size)) next done failed) :
    Ensures (writeLoop64 piece ip buf limit (fuel + 1) off position) store done failed := by
  unfold writeLoop64
  rw [if_pos more, if_neg (by simp [start]), sized, Ensures.bind_iff]
  refine (returns _ _ _ _ store).mono ?_ (fun _ _ fault => fault.elim)
  intro written middle equal
  subst equal
  have notNegative : ¬ (size : Int) < 0 := by omega
  have exactly : ¬ (size : Int) ≠ size := fun different => different rfl
  by_cases positive : (0 : Int) < size
  · rw [if_pos positive, Ensures.bind_iff, Int.toNat_natCast]
    unfold growSize
    rw [ensures_modifyInode, if_neg notNegative, if_neg exactly]
    exact onward _
  · rw [if_neg positive]
    beta_reduce
    rw [if_neg notNegative, if_neg exactly, Int.toNat_natCast]
    exact onward middle

theorem writeLoop64_finished {limit fuel off position : Nat} (finished : ¬ position < limit)
    (meets : done (off, position) store) :
    Ensures (writeLoop64 piece ip buf limit (fuel + 1) off position) store done failed := by
  unfold writeLoop64
  rw [if_neg finished]
  exact Ensures.pure_iff.mpr meets

/-- Less than `2^32` bytes of whole blocks are done in finitely many rounds. -/
theorem writeLoop64_ends (returns : piece.ReturnsSize) {limit fuel off position : Nat}
    (enough : limit - position < fuel) (small : limit - position < 2 ^ 32)
    (machine : limit + chunkSize < 2 ^ 64) (start : off % gBlockSizeBytes = 0)
    (length : (limit - position) % gBlockSizeBytes = 0) (range : off + (limit - position) < 2 ^ 64) :
    Ensures (writeLoop64 piece ip buf limit fuel off position) store (fun _ _ => True)
      (fun _ _ => False) := by
  have chunk : chunkSize = 2097152 := rfl
  induction fuel generalizing off position store with
  | zero => omega
  | succ fuel ih =>
      by_cases more : position < limit
      · have remaining : sub64 limit position = limit - position := sub64_of_le (by omega) (by omega)
        by_cases last : 2 ^ 64 ≤ off + chunkSize
        · have sized := nextIoSize64_last (sub64 limit position) (by omega) last
          refine writeLoop64_round returns more start sized ?_
          intro next
          have count : add64 position (2 ^ 64 - off) = position + (2 ^ 64 - off) :=
            add64_of_lt (by omega)
          rw [count]
          cases fuel with
          | zero => omega
          | succ fuel => exact writeLoop64_finished (by omega) trivial
        · have sized := nextIoSize_whole start (by omega : 0 < limit - position) length small
          have whole := nextIoSize64_eq (sub64 limit position) (by omega : off + chunkSize < 2 ^ 64)
          rw [← remaining] at sized
          refine writeLoop64_round returns more start whole ?_
          intro next
          generalize nextIoSize off (sub64 limit position) = size at sized ⊢
          have sizePositive := sized.1.positive
          have sizeLength := sized.1.length
          have fits := sized.2
          rw [add64_of_lt (by omega : off + size < 2 ^ 64),
            add64_of_lt (by omega : position + size < 2 ^ 64)]
          unfold gBlockSizeBytes at *
          exact ih (by omega) (by omega) (by omega) (by omega) (by omega)
      · exact writeLoop64_finished more trivial

/-- With `2^32` bytes of whole blocks or more the loop does not end: the narrowed
size never passes below a multiple of `2^32`. -/
theorem writeLoop64_stuck (returns : piece.ReturnsSize) {limit fuel off position : Nat}
    (large : 2 ^ 32 ≤ limit - position) (machine : limit < 2 ^ 64)
    (start : off % gBlockSizeBytes = 0) (length : (limit - position) % gBlockSizeBytes = 0)
    (range : off + (limit - position) < 2 ^ 64) :
    Ensures (writeLoop64 piece ip buf limit fuel off position) store (fun _ _ => False)
      (fun fault _ => fault = .outOfFuel) := by
  have chunk : chunkSize = 2097152 := rfl
  induction fuel generalizing off position store with
  | zero => exact Ensures.throw_iff.mpr rfl
  | succ fuel ih =>
      have remaining : sub64 limit position = limit - position := sub64_of_le (by omega) machine
      have whole := nextIoSize64_eq (sub64 limit position) (by omega : off + chunkSize < 2 ^ 64)
      refine writeLoop64_round returns (by omega) start whole ?_
      intro next
      have sized := nextIoSize_narrow start length
      rw [← remaining] at sized
      generalize nextIoSize off (sub64 limit position) = size at sized ⊢
      rw [remaining] at sized
      rw [add64_of_lt (by omega : off + size < 2 ^ 64),
        add64_of_lt (by omega : position + size < 2 ^ 64)]
      unfold gBlockSizeBytes at *
      exact ih (by omega) (by omega) (by omega) (by omega)

end Ends

/-- The bytes of whole blocks in a request. -/
def wholeBytes (off count : Nat) : Nat :=
  blockFloor (off + count) - blockCeil off

theorem wholeBytes_eq (off count : Nat) :
    wholeBytes off count = count - (splitRequest off count).2 - (splitRequest off count).1 := by
  unfold wholeBytes splitRequest gBlockSizeBytes blockFloor blockCeil
  split
  · simp only
    omega
  · simp only
    split <;> omega

/-- A request that starts in the last block of the range: nothing is left of the
head, and the length of the loop wraps. -/
theorem splitRequest64_last {off count : Nat} (start : 2 ^ 64 ≤ off + 4095)
    (range : off + count < 2 ^ 64) :
    (splitRequest64 off count).1 = 0 ∧ 0 < sub64 count (splitRequest64 off count).2 := by
  have stop : add64 off count = off + count := add64_of_lt range
  have wrapped : align64 off = 0 := by
    unfold align64 low
    omega
  have padding := sub64_align64 range
  unfold splitRequest64 gBlockSizeBytes
  simp only [stop, wrapped, padding, Nat.not_lt_zero, ↓reduceIte]
  refine ⟨trivial, ?_⟩
  unfold blockCeil sub64 low
  split <;> omega

section Whole

variable {piece : PieceWrite} {file : File} {buf : Nat -> UInt8} {count fuel : Nat} {store : Store}
  {failed : Fault -> Store -> Prop}

/-- The call up to its loop, for an operation that returns its size: what the loop
guarantees for the rest is what the call guarantees. -/
theorem userfsFileWrite64_loop (returns : piece.ReturnsSize) (writable : file.writable = true)
    (isInode : file.isInode = true) (short : (splitRequest64 file.off count).1 < 4096)
    {finished : Prop}
    (looped : forall middle, Ensures (writeLoop64 piece file.ip buf
      (sub64 count (splitRequest64 file.off count).2) fuel
      (file.off + (splitRequest64 file.off count).1) (splitRequest64 file.off count).1) middle
      (fun _ _ => finished) failed) :
    Ensures (userfsFileWrite64 piece fuel file buf count) store (fun _ _ => finished) failed := by
  have notWide : ¬ gBlockSizeBytes ≤ (splitRequest64 file.off count).1 := by
    unfold gBlockSizeBytes
    omega
  unfold userfsFileWrite64
  rw [if_neg (by simp [writable]), if_neg (by simp [isInode]), Ensures.bind_iff, ensures_readInode,
    Ensures.ite_iff, if_neg notWide, Ensures.bind_iff]
  have first := @writeEdge_returns piece file.ip buf returns (splitRequest64 file.off count).1
    file.off 0 store
  refine first.mono ?_ (fun _ _ impossible => impossible.elim)
  intro position middle equal
  rw [equal, Nat.zero_add, Ensures.bind_iff]
  refine (looped middle).mono ?_ (fun _ _ fault => fault)
  intro position after ended
  rw [Ensures.bind_iff]
  have last := @writeEdge_returns piece file.ip buf returns (splitRequest64 file.off count).2
    position.1 position.2 after
  refine last.mono ?_ (fun _ _ impossible => impossible.elim)
  intro position behind _
  rw [Ensures.bind_iff, ensures_modifyInode]
  exact Ensures.pure_iff.mpr ended

/-- Fewer than `2^32` bytes of whole blocks. -/
theorem userfsFileWrite64_ends (returns : piece.ReturnsSize) (writable : file.writable = true)
    (isInode : file.isInode = true) (range : file.off + count < 2 ^ 64)
    (start : file.off + 4095 < 2 ^ 64) (small : wholeBytes file.off count < 2 ^ 32) :
    Ensures (userfsFileWrite64 piece (count + 1) file buf count) store (fun _ _ => True)
      (fun _ _ => False) := by
  have chunk : chunkSize = 2097152 := rfl
  have split := splitRequest_split file.off count
  have equal := splitRequest64_eq start range
  have fits := split.fits
  have tail := split.tail
  have short := split.short
  rw [wholeBytes_eq] at small
  have limit : sub64 count (splitRequest file.off count).2 =
      count - (splitRequest file.off count).2 := sub64_of_le (by omega) (by omega)
  apply userfsFileWrite64_loop returns writable isInode
  · rw [equal]
    exact short
  · intro middle
    rw [equal, limit]
    by_cases more : (splitRequest file.off count).1 < count - (splitRequest file.off count).2
    · exact writeLoop64_ends returns (by omega) (by omega) (by omega) (split.aligned (by omega))
        split.whole (by omega)
    · exact writeLoop64_finished more trivial

/-- With `2^32` bytes of whole blocks or more, no number of rounds is enough. -/
theorem userfsFileWrite64_stuck (returns : piece.ReturnsSize) (writable : file.writable = true)
    (isInode : file.isInode = true) (range : file.off + count < 2 ^ 64)
    (start : file.off + 4095 < 2 ^ 64) (large : 2 ^ 32 ≤ wholeBytes file.off count) :
    Ensures (userfsFileWrite64 piece fuel file buf count) store (fun _ _ => False)
      (fun fault _ => fault = .outOfFuel) := by
  have split := splitRequest_split file.off count
  have equal := splitRequest64_eq start range
  have fits := split.fits
  rw [wholeBytes_eq] at large
  have limit : sub64 count (splitRequest file.off count).2 =
      count - (splitRequest file.off count).2 := sub64_of_le (by omega) (by omega)
  apply userfsFileWrite64_loop returns writable isInode
  · rw [equal]
    exact split.short
  · intro middle
    rw [equal, limit]
    exact writeLoop64_stuck returns large (by omega) (split.aligned (by omega)) split.whole (by omega)

/-- In the last block of the range the first round finds the position unaligned. -/
theorem userfsFileWrite64_last (returns : piece.ReturnsSize) (writable : file.writable = true)
    (isInode : file.isInode = true) (range : file.off + count < 2 ^ 64)
    (start : 2 ^ 64 ≤ file.off + 4095) :
    Ensures (userfsFileWrite64 piece fuel file buf count) store (fun _ _ => False)
      (fun _ _ => True) := by
  rcases splitRequest64_last start range with ⟨head, more⟩
  apply userfsFileWrite64_loop returns writable isInode
  · omega
  · intro middle
    rw [head]
    have unaligned : file.off % gBlockSizeBytes ≠ 0 := by
      unfold gBlockSizeBytes
      omega
    cases fuel with
    | zero => exact Ensures.throw_iff.mpr trivial
    | succ fuel =>
        unfold writeLoop64
        rw [if_pos more, Nat.add_zero, if_pos unaligned]
        exact Ensures.throw_iff.mpr trivial

end Whole

/-- When a write returns.  For a position and a length whose end fits 64 bits, and
an `snfs_write` that returns its size argument, some number of rounds of the loop is
enough for `userfs_file_write` to return exactly when the request holds less than
`2^32` bytes of whole blocks and does not start in the last block of the 64-bit
range. -/
theorem write_returns_iff (piece : PieceWrite) (file : File) (buf : Nat -> UInt8) (count : Nat)
    (store : Store) (writable : file.writable = true) (isInode : file.isInode = true)
    (range : file.off + count < 2 ^ 64) (returns : piece.ReturnsSize) :
    (Exists fun fuel => Ensures (userfsFileWrite64 piece fuel file buf count) store (fun _ _ => True)
      (fun _ _ => False)) <->
      file.off ≤ 2 ^ 64 - 4096 ∧ wholeBytes file.off count < 2 ^ 32 := by
  constructor
  · rintro ⟨fuel, ended⟩
    by_cases start : file.off + 4095 < 2 ^ 64
    · refine ⟨by omega, ?_⟩
      by_contra large
      have stuck := @userfsFileWrite64_stuck piece file buf count fuel store returns writable isInode
        range start (by omega)
      exact ((ended.and stuck).mono (fun _ _ both => both.2) (fun _ _ both => both.1)).const
    · have last := @userfsFileWrite64_last piece file buf count fuel store returns writable isInode
        range (by omega)
      exact ((ended.and last).mono (fun _ _ both => both.2.elim) (fun _ _ both => both.1.elim)).const
  · rintro ⟨start, small⟩
    exact ⟨count + 1, userfsFileWrite64_ends returns writable isInode range (by omega) small⟩

/-- A write of 5000000 bytes at position 100: a first piece up to the block boundary, three
rounds of the loop, and the rest. -/
theorem write_returns_iff_three_rounds :
    Exists fun fuel =>
      Ensures (userfsFileWrite64 echoSize fuel ⟨0, 100, true, true⟩ (fun _ => 0) 5000000)
        freshStore (fun _ _ => True) (fun _ _ => False) :=
  (write_returns_iff echoSize ⟨0, 100, true, true⟩ (fun _ => 0) 5000000 freshStore rfl rfl (by decide)
    echoSize_returnsSize).mpr ⟨by decide, by decide⟩

/-- A write of `2^32` bytes to an empty file runs out of every budget. -/
theorem write_of_four_gigabytes_stuck :
    ¬ Exists fun fuel => Ensures (userfsFileWrite64 echoSize fuel ⟨0, 0, true, true⟩ (fun _ => 0)
      (2 ^ 32)) freshStore (fun _ _ => True) (fun _ _ => False) := by
  rintro ⟨fuel, ended⟩
  have stuck := @userfsFileWrite64_stuck echoSize ⟨0, 0, true, true⟩ (fun _ => 0) (2 ^ 32) fuel
    freshStore echoSize_returnsSize rfl rfl (by decide) (by decide) (by decide)
  exact ((ended.and stuck).mono (fun _ _ both => both.2) (fun _ _ both => both.1)).const

end Userfs.Filesystem
