import Userfs.Filesystem.Write

namespace Userfs.Filesystem

open Word

/-!
# File writes

`userfs_file_write` cuts a request at 4 KiB and 2 MB boundaries of the file and
gives the pieces to `snfs_write` one by one: a first piece up to the next block
boundary, whole blocks in a loop, and the rest of the last block.  After each
piece it moves the file position and grows the inode size.

The function is written over an arbitrary piece operation; the file system uses
`snfsWrite`.  Its loop carries a budget of one iteration per byte, since every
iteration that returns a positive count advances.
-/

/-- The part of `struct file` that the data path uses. -/
structure File where
  ip : Nat
  off : Nat
  writable : Bool
  isInode : Bool
deriving DecidableEq, Repr

/-- An operation that writes one piece: inode, data, file offset, size. -/
abbrev PieceWrite := Nat -> (Nat -> UInt8) -> Nat -> Nat -> Fs Int

/-- Raise the inode size to the end of a piece. -/
def growSize (ip newEnd : Nat) : Fs PUnit :=
  modifyInode ip (fun inode => { inode with size := if inode.size < newEnd then newEnd else inode.size })

/-- The size of the next piece of the loop: at most 2 MB, cut at the next 2 MB
boundary of the file.  The variable `io_size` has 32 bits. -/
def nextIoSize (off remaining : Nat) : Nat :=
  let ioSize := if chunkSize < low 32 remaining then chunkSize else low 32 remaining
  let upper := (off + chunkSize) / chunkSize * chunkSize
  if upper ≤ off + ioSize then low 32 (upper - off) else ioSize

/-- The loop over whole blocks: the file position and the bytes done. -/
def writeLoop (piece : PieceWrite) (ip : Nat) (buf : Nat -> UInt8) (limit : Nat) :
    Nat -> Nat -> Nat -> Fs (Nat × Nat)
  | 0, _, _ => throw .outOfFuel
  | fuel + 1, off, done => do
      if done < limit then
        if off % gBlockSizeBytes ≠ 0 then
          throw (.assertion "(f->off % g_block_size_bytes) == 0")
        else do
          let ioSize := nextIoSize off (limit - done)
          let written ← piece ip (fun index => buf (done + index)) off ioSize
          if 0 < written then growSize ip (off + written.toNat) else pure PUnit.unit
          if written < 0 then pure (off, done)
          else if written ≠ ioSize then throw (.panic "short filewrite")
          else writeLoop piece ip buf limit fuel (off + written.toNat) (done + written.toNat)
      else pure (off, done)

/-- The unaligned piece before or behind the loop, if there is one. -/
def writeEdge (piece : PieceWrite) (ip : Nat) (buf : Nat -> UInt8) (size off done : Nat) :
    Fs (Nat × Nat) := do
  if 0 < size then do
    let written ← piece ip (fun index => buf (done + index)) off size
    if 0 < written then do
      growSize ip (off + written.toNat)
      pure (off + written.toNat, done + written.toNat)
    else throw (.assertion "r > 0")
  else pure (off, done)

/-- `size_prepended` and `size_appended` of a request. -/
def splitRequest (off count : Nat) : Nat × Nat :=
  if off + count < blockCeil off then (count, 0)
  else
    let padding := blockCeil (off + count) - (off + count)
    (blockCeil off - off, if 0 < padding then gBlockSizeBytes - padding else 0)

/-- `userfs_file_write`: the return value and the file with its new position. -/
def userfsFileWrite (piece : PieceWrite) (file : File) (buf : Nat -> UInt8) (count : Nat) :
    Fs (Int × File) := do
  if file.writable = false then pure (-1, file)
  else if file.isInode = false then throw (.panic "filewrite")
  else do
    let inode ← readInode file.ip
    let fileSize := if 0 < count ∧ inode.size < file.off + count then file.off + count else inode.size
    let (prepended, appended) := splitRequest file.off count
    if gBlockSizeBytes ≤ prepended then
      throw (.assertion "size_prepended < g_block_size_bytes")
    else do
      let (off, done) ← writeEdge piece file.ip buf prepended file.off 0
      let (off, done) ← writeLoop piece file.ip buf (count - appended) (count + 1) off done
      let (off, done) ← writeEdge piece file.ip buf appended off done
      modifyInode file.ip (fun inode => { inode with size := fileSize })
      pure (if done = count then count else -1, { file with off := off })

/-- Both parts of a split request fit in it together. -/
theorem splitRequest_le (off count : Nat) :
    (splitRequest off count).1 + (splitRequest off count).2 ≤ count := by
  unfold splitRequest gBlockSizeBytes
  split
  · exact Nat.le_refl count
  · simp only
    unfold blockCeil at *
    split <;> omega

theorem nextIoSize_le (off remaining : Nat) : nextIoSize off remaining ≤ remaining := by
  have narrow : low 32 remaining ≤ remaining := Nat.mod_le _ _
  have capped : (if chunkSize < low 32 remaining then chunkSize else low 32 remaining) ≤ remaining := by
    split <;> omega
  unfold nextIoSize
  simp only
  generalize (if chunkSize < low 32 remaining then chunkSize else low 32 remaining) = ioSize at capped ⊢
  generalize (off + chunkSize) / chunkSize * chunkSize = upper
  split
  · have cut : low 32 (upper - off) ≤ upper - off := Nat.mod_le _ _
    omega
  · exact capped

/-! ## Requests of whole blocks -/

/-- A piece of whole blocks inside one 2 MB chunk of the file. -/
structure WholePiece (off size : Nat) : Prop where
  positive : 0 < size
  start : off % gBlockSizeBytes = 0
  length : size % gBlockSizeBytes = 0
  inChunk : off % chunkSize + size ≤ chunkSize

/-- The loop cuts a request of whole blocks into whole pieces. -/
theorem nextIoSize_whole {off remaining : Nat} (start : off % gBlockSizeBytes = 0)
    (positive : 0 < remaining) (length : remaining % gBlockSizeBytes = 0)
    (small : remaining < 2 ^ 32) :
    WholePiece off (nextIoSize off remaining) ∧ nextIoSize off remaining ≤ remaining := by
  have fits : low 32 remaining = remaining := low_of_lt small
  unfold nextIoSize
  rw [fits]
  unfold gBlockSizeBytes at *
  have chunk : chunkSize = 2097152 := rfl
  have upper : (off + chunkSize) / chunkSize * chunkSize - off = chunkSize - off % chunkSize := by
    rw [chunk]
    omega
  have short : low 32 (chunkSize - off % chunkSize) = chunkSize - off % chunkSize :=
    low_of_lt (by rw [chunk]; omega)
  simp only [upper, short]
  have cutAt : (off + chunkSize) / chunkSize * chunkSize = off + (chunkSize - off % chunkSize) := by
    rw [chunk]
    omega
  rw [cutAt, chunk]
  refine ⟨⟨?_, start, ?_, ?_⟩, ?_⟩
  · split <;> split <;> omega
  · unfold gBlockSizeBytes
    split <;> split <;> omega
  · rw [chunk]
    split <;> split <;> omega
  · split <;> split <;> omega

/-- A piece ends at a 2 MB boundary of the file or with the request. -/
theorem nextIoSize_cut {off remaining : Nat} (small : remaining < 2 ^ 32) :
    off % chunkSize + nextIoSize off remaining = chunkSize ∨ nextIoSize off remaining = remaining := by
  have fits : low 32 remaining = remaining := low_of_lt small
  unfold nextIoSize
  rw [fits]
  have chunk : chunkSize = 2097152 := rfl
  have cutAt : (off + chunkSize) / chunkSize * chunkSize = off + (chunkSize - off % chunkSize) := by
    rw [chunk]
    omega
  have short : low 32 (off + (chunkSize - off % chunkSize) - off) = chunkSize - off % chunkSize := by
    rw [Nat.add_sub_cancel_left]
    exact low_of_lt (by rw [chunk]; omega)
  simp only [cutAt, short]
  rw [chunk]
  split <;> split <;> omega

/-- The invariant rule of the loop.  The invariant speaks about the file
position, the bytes done and the store, and every piece must return its size and
establish it at the next position once the inode size is raised.  A piece ends at a
2 MB boundary or is the last one. -/
theorem ensures_writeLoop_cut {piece : PieceWrite} {ip : Nat} {buf : Nat -> UInt8} {limit : Nat}
    {invariant : Nat -> Nat -> Store -> Prop} {failed : Fault -> Store -> Prop}
    (small : limit < 2 ^ 32)
    (step : forall off done size store, invariant off done store -> WholePiece off size ->
      done + size ≤ limit -> off % chunkSize + size = chunkSize ∨ done + size = limit ->
      Ensures (piece ip (fun index => buf (done + index)) off size) store
        (fun written next => written = size ∧ Ensures (growSize ip (off + size)) next
          (fun _ grown => invariant (off + size) (done + size) grown) failed)
        failed)
    {fuel off done : Nat} {store : Store} (enough : limit - done < fuel) (bound : done ≤ limit)
    (start : off % gBlockSizeBytes = 0) (length : (limit - done) % gBlockSizeBytes = 0)
    (kept : invariant off done store) :
    Ensures (writeLoop piece ip buf limit fuel off done) store
      (fun result next => result = (off + (limit - done), limit) ∧
        invariant (off + (limit - done)) limit next) failed := by
  induction fuel generalizing off done store with
  | zero => omega
  | succ fuel ih =>
      unfold writeLoop
      simp only [Ensures.ite_iff, Ensures.bind_iff]
      by_cases more : done < limit
      · rw [if_pos more, if_neg (by simp [start])]
        have cut := nextIoSize_whole start (by omega : 0 < limit - done) length (by omega)
        have ends := @nextIoSize_cut off (limit - done) (by omega)
        -- from here on only the properties of the size matter
        generalize nextIoSize off (limit - done) = size at cut ends ⊢
        rcases cut with ⟨whole, within⟩
        have last : off % chunkSize + size = chunkSize ∨ done + size = limit := by omega
        refine (step off done size store kept whole (by omega) last).mono ?_ (fun _ _ fault => fault)
        rintro written next ⟨equal, grown⟩
        have positive : (0 : Int) < (size : Int) := Int.natCast_pos.mpr whole.positive
        subst equal
        refine Eq.mpr (if_pos positive) ?_
        have count : (size : Int).toNat = size := Int.toNat_natCast size
        rw [count]
        refine grown.mono ?_ (fun _ _ fault => fault)
        intro _ after kept
        refine Eq.mpr (if_neg (Int.not_lt.mpr (Int.le_of_lt positive))) ?_
        refine Eq.mpr (if_neg (fun different => different rfl)) ?_
        have sizePositive := whole.positive
        have sizeLength := whole.length
        have total : off + size + (limit - (done + size)) = off + (limit - done) := by omega
        unfold gBlockSizeBytes at *
        rw [← total]
        exact ih (by omega) (by omega) (by omega) (by omega) kept
      · rw [if_neg more]
        have finished : done = limit := by omega
        subst finished
        simpa using kept

theorem splitRequest_whole {off count : Nat} (start : off % gBlockSizeBytes = 0)
    (length : count % gBlockSizeBytes = 0) : splitRequest off count = (0, 0) := by
  unfold gBlockSizeBytes at start length
  have sameStart : blockCeil off = off := by
    unfold blockCeil
    omega
  have sameEnd : blockCeil (off + count) = off + count := by
    unfold blockCeil
    omega
  have notShort : ¬ off + count < off := by omega
  simp only [splitRequest, sameStart, sameEnd, notShort, Nat.sub_self, Nat.lt_irrefl, ↓reduceIte]

/-- The size a successful write leaves in the inode. -/
def finalSize (size off count : Nat) : Nat :=
  if 0 < count ∧ size < off + count then off + count else size

/-- A request of whole blocks is carried out by the loop alone: it returns its
count, moves the position behind the request, and the final store is one that
meets the loop invariant, with the inode size set. -/
theorem ensures_userfsFileWrite_cut {piece : PieceWrite} {file : File} {buf : Nat -> UInt8}
    {count : Nat} {invariant : Nat -> Nat -> Store -> Prop} {failed : Fault -> Store -> Prop}
    {store : Store} (writable : file.writable = true) (isInode : file.isInode = true)
    (start : file.off % gBlockSizeBytes = 0) (length : count % gBlockSizeBytes = 0)
    (small : count < 2 ^ 31)
    (step : forall off done size store, invariant off done store -> WholePiece off size ->
      done + size ≤ count -> off % chunkSize + size = chunkSize ∨ done + size = count ->
      Ensures (piece file.ip (fun index => buf (done + index)) off size) store
        (fun written next => written = size ∧ Ensures (growSize file.ip (off + size)) next
          (fun _ grown => invariant (off + size) (done + size) grown) failed)
        failed)
    (kept : invariant file.off 0 store) :
    Ensures (userfsFileWrite piece file buf count) store
      (fun result next => result = ((count : Int), { file with off := file.off + count }) ∧
        Exists fun middle => invariant (file.off + count) count middle ∧
          next = middle.updateInode file.ip (fun inode =>
            { inode with size := finalSize (store.inode file.ip).size file.off count }))
      failed := by
  unfold userfsFileWrite
  simp only [writable, isInode, splitRequest_whole start length, Ensures.ite_iff,
    Ensures.bind_iff, ensures_readInode, Bool.true_eq_false, ↓reduceIte, Nat.sub_zero]
  rw [if_neg (by decide)]
  simp only [writeEdge, Nat.lt_irrefl, ↓reduceIte, Ensures.pure_iff]
  have loop := ensures_writeLoop_cut (by omega : count < 2 ^ 32) step
    (by omega : count - 0 < count + 1) (Nat.zero_le _) start (by simpa using length) kept
  refine loop.mono ?_ (fun _ _ fault => fault)
  rintro result middle ⟨equal, kept⟩
  subst equal
  simp only [Nat.sub_zero, ensures_modifyInode, ↓reduceIte]
  exact ⟨trivial, middle, by simpa using kept, rfl⟩

/-- The same rule, when it does not matter where the pieces end. -/
theorem ensures_userfsFileWrite_whole {piece : PieceWrite} {file : File} {buf : Nat -> UInt8}
    {count : Nat} {invariant : Nat -> Nat -> Store -> Prop} {failed : Fault -> Store -> Prop}
    {store : Store} (writable : file.writable = true) (isInode : file.isInode = true)
    (start : file.off % gBlockSizeBytes = 0) (length : count % gBlockSizeBytes = 0)
    (small : count < 2 ^ 31)
    (step : forall off done size store, invariant off done store -> WholePiece off size ->
      done + size ≤ count ->
      Ensures (piece file.ip (fun index => buf (done + index)) off size) store
        (fun written next => written = size ∧ Ensures (growSize file.ip (off + size)) next
          (fun _ grown => invariant (off + size) (done + size) grown) failed)
        failed)
    (kept : invariant file.off 0 store) :
    Ensures (userfsFileWrite piece file buf count) store
      (fun result next => result = ((count : Int), { file with off := file.off + count }) ∧
        Exists fun middle => invariant (file.off + count) count middle ∧
          next = middle.updateInode file.ip (fun inode =>
            { inode with size := finalSize (store.inode file.ip).size file.off count }))
      failed :=
  ensures_userfsFileWrite_cut writable isInode start length small
    (fun off done size store kept whole within _ => step off done size store kept whole within) kept

/-! ## Requests inside one block -/

/-- Only the last size set counts. -/
theorem resize_resize (store : Store) (ip : Nat) (first : Inode -> Nat) (size : Nat) :
    (store.updateInode ip (fun inode => { inode with size := first inode })).updateInode ip
      (fun inode => { inode with size := size }) =
      store.updateInode ip (fun inode => { inode with size := size }) := by
  simp [Store.updateInode]

/-- The one piece of a request inside a block stands before the loop if it starts inside
the block, and behind it otherwise. -/
theorem splitRequest_inBlock {off count : Nat} (short : count < 4096)
    (inBlock : off % 4096 + count ≤ 4096) :
    splitRequest off count = if off % 4096 = 0 then (0, count) else (count, 0) := by
  unfold splitRequest blockCeil gBlockSizeBytes
  by_cases start : off % 4096 = 0
  · rw [if_pos start, if_neg (by omega)]
    simp only [Prod.mk.injEq]
    refine ⟨by omega, ?_⟩
    split <;> omega
  · rw [if_neg start]
    split
    · rfl
    · simp only [Prod.mk.injEq]
      refine ⟨by omega, ?_⟩
      rw [if_neg (by omega)]

/-- A request inside one block is one piece. -/
theorem ensures_userfsFileWrite_inBlock {piece : PieceWrite} {file : File} {buf : Nat -> UInt8}
    {count : Nat} {done : Int × File -> Store -> Prop} {failed : Fault -> Store -> Prop}
    {store : Store} (writable : file.writable = true) (isInode : file.isInode = true)
    (positive : 0 < count) (short : count < 4096) (inBlock : file.off % 4096 + count ≤ 4096)
    (step : Ensures (piece file.ip buf file.off count) store
      (fun written next => written = count ∧
        done ((count : Int), { file with off := file.off + count })
          (next.updateInode file.ip (fun inode =>
            { inode with size := finalSize (store.inode file.ip).size file.off count })))
      failed) :
    Ensures (userfsFileWrite piece file buf count) store done failed := by
  have edge : Ensures (writeEdge piece file.ip buf count file.off 0) store
      (fun position next => position = (file.off + count, count) ∧
        done ((count : Int), { file with off := file.off + count })
          (next.updateInode file.ip (fun inode =>
            { inode with size := finalSize (store.inode file.ip).size file.off count })))
      failed := by
    simp only [writeEdge, if_pos positive, Nat.zero_add, Ensures.bind_iff]
    refine step.mono ?_ (fun _ _ fault => fault)
    rintro written next ⟨equal, finished⟩
    have cast : (0 : Int) < (count : Int) := Int.natCast_pos.mpr positive
    simp only [equal, if_pos cast, Int.toNat_natCast, Ensures.bind_iff, growSize,
      ensures_modifyInode, Ensures.pure_iff, resize_resize]
    exact ⟨trivial, finished⟩
  unfold userfsFileWrite
  simp only [writable, isInode, splitRequest_inBlock short inBlock, Ensures.ite_iff,
    Ensures.bind_iff, ensures_readInode, Bool.true_eq_false, ↓reduceIte]
  by_cases start : file.off % 4096 = 0
  · simp only [if_pos start]
    rw [if_neg (by decide)]
    simp only [writeEdge, Nat.lt_irrefl, ↓reduceIte, Ensures.pure_iff, writeLoop, Nat.sub_self] at edge ⊢
    refine edge.mono ?_ (fun _ _ fault => fault)
    rintro position next ⟨equal, finished⟩
    subst equal
    rw [writable, isInode] at finished
    simp only [ensures_modifyInode, ↓reduceIte]
    exact finished
  · simp only [if_neg start]
    rw [if_neg (by unfold gBlockSizeBytes; omega)]
    refine edge.mono ?_ (fun _ _ fault => fault)
    rintro position next ⟨equal, finished⟩
    subst equal
    rw [writable, isInode] at finished
    simp only [writeLoop, Nat.sub_zero, Nat.lt_irrefl, ↓reduceIte, Ensures.pure_iff, writeEdge,
      ensures_modifyInode]
    exact finished

end Userfs.Filesystem
