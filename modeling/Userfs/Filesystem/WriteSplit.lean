import Userfs.Filesystem.FileWrite
import Userfs.Library.Tiling

namespace Userfs.Filesystem

open Word

/-!
# How a write is split

`userfs_file_write` cuts a request into a piece up to the next block boundary,
pieces of whole blocks that end at 2 MB boundaries of the file, and the rest of the
last block.  The list of pieces depends on the position and the length only.  If
`snfs_write` returns its size argument, the function does what the list says: one
call of `snfs_write` for each piece, with the buffer advanced by the bytes before
it, and the inode size raised behind it.

Offsets are natural numbers here, which is what the 64-bit arithmetic of the source
computes below `2^63`.
-/

/-- The pieces of the loop over whole blocks. -/
def loopPieces (limit : Nat) : Nat -> Nat -> Nat -> List Piece
  | 0, _, _ => []
  | fuel + 1, off, done =>
      if done < limit then
        ⟨off, done, nextIoSize off (limit - done)⟩ ::
          loopPieces limit fuel (off + nextIoSize off (limit - done))
            (done + nextIoSize off (limit - done))
      else []

/-- The pieces of a request. -/
def writePieces (off count : Nat) : List Piece :=
  let prepended := (splitRequest off count).1
  let appended := (splitRequest off count).2
  pieceOf off 0 prepended ++
    (loopPieces (count - appended) (count + 1) (off + prepended) prepended ++
      pieceOf (off + (count - appended)) (count - appended) appended)

/-- Carry out pieces one by one. -/
def carryOut (piece : PieceWrite) (ip : Nat) (buf : Nat -> UInt8) : List Piece -> Fs PUnit
  | [] => pure PUnit.unit
  | cut :: rest => do
      let _ ← piece ip (fun index => buf (cut.position + index)) cut.off cut.size
      growSize ip (cut.off + cut.size)
      carryOut piece ip buf rest

/-- A piece that `snfs_write` accepts: it does not start inside a block and end
behind it. -/
def AcceptedPiece (cut : Piece) : Prop :=
  ¬ (blockFloor cut.off < cut.off ∧ 4096 < low 32 (cut.size + cut.off - blockFloor cut.off))

/-! ## The pieces of the loop -/

/-- How a request is split: the part before the first block boundary, whole
blocks, and the part behind the last one. -/
structure Split (off count prepended appended : Nat) : Prop where
  fits : prepended + appended ≤ count
  short : prepended < 4096
  aligned : prepended < count -> (off + prepended) % 4096 = 0
  whole : (count - appended - prepended) % 4096 = 0
  tail : appended < 4096
  inside : prepended ≠ 0 -> off / 4096 = (off + prepended - 1) / 4096

theorem splitRequest_split (off count : Nat) :
    Split off count (splitRequest off count).1 (splitRequest off count).2 := by
  unfold splitRequest gBlockSizeBytes
  by_cases short : off + count < blockCeil off
  · rw [if_pos short]
    unfold blockCeil at short
    constructor <;> simp only <;> omega
  · rw [if_neg short]
    unfold blockCeil at short ⊢
    simp only
    split
    · constructor <;> omega
    · constructor <;> omega

theorem loopPieces_nil {limit done : Nat} (finished : ¬ done < limit) (fuel off : Nat) :
    loopPieces limit fuel off done = [] := by
  cases fuel with
  | zero => rfl
  | succ fuel => exact if_neg finished

theorem loopPieces_whole {limit fuel off done : Nat} (start : off % gBlockSizeBytes = 0)
    (length : (limit - done) % gBlockSizeBytes = 0) (small : limit < 2 ^ 32) :
    forall cut, cut ∈ loopPieces limit fuel off done -> WholePiece cut.off cut.size := by
  induction fuel generalizing off done with
  | zero => exact fun cut member => nomatch member
  | succ fuel ih =>
      intro cut member
      unfold loopPieces at member
      by_cases more : done < limit
      · rw [if_pos more] at member
        have sized := nextIoSize_whole start (by omega : 0 < limit - done) length (by omega)
        generalize nextIoSize off (limit - done) = size at sized member
        have sizeLength := sized.1.length
        rcases List.mem_cons.mp member with here | later
        · rw [here]
          exact sized.1
        · unfold gBlockSizeBytes at *
          exact ih (by omega) (by omega) cut later
      · rw [if_neg more] at member
        exact nomatch member

theorem tiles_loopPieces {limit fuel off done : Nat} (enough : limit - done < fuel)
    (start : off % gBlockSizeBytes = 0) (length : (limit - done) % gBlockSizeBytes = 0)
    (small : limit < 2 ^ 32) : Tiles (loopPieces limit fuel off done) off done (limit - done) := by
  induction fuel generalizing off done with
  | zero => omega
  | succ fuel ih =>
      unfold loopPieces
      by_cases more : done < limit
      · rw [if_pos more]
        have sized := nextIoSize_whole start (by omega : 0 < limit - done) length (by omega)
        generalize nextIoSize off (limit - done) = size at sized ⊢
        have sizePositive := sized.1.positive
        have sizeLength := sized.1.length
        refine ⟨rfl, rfl, sized.1.positive, sized.2, ?_⟩
        unfold gBlockSizeBytes at *
        have tail := @ih (off + size) (done + size) (by omega) (by omega) (by omega)
        have rest : limit - (done + size) = limit - done - size := by omega
        rw [rest] at tail
        exact tail
      · rw [if_neg more]
        exact Nat.sub_eq_zero_of_le (Nat.le_of_not_lt more)

/-! ## Carrying out the pieces -/

/-- An operation that always returns its size argument. -/
def PieceWrite.ReturnsSize (piece : PieceWrite) : Prop :=
  forall ip data off size store,
    Ensures (piece ip data off size) store (fun written _ => written = size) (fun _ _ => False)

section CarryOut

variable {piece : PieceWrite} {ip : Nat} {buf : Nat -> UInt8} {store : Store}
  {done : Nat × Nat -> Store -> Prop} {failed : Fault -> Store -> Prop}

theorem writeEdge_carryOut (returns : piece.ReturnsSize) {size off position : Nat}
    (carried : Ensures (carryOut piece ip buf (pieceOf off position size)) store
      (fun _ next => done (off + size, position + size) next) failed) :
    Ensures (writeEdge piece ip buf size off position) store done failed := by
  unfold writeEdge
  unfold pieceOf at carried
  rw [Ensures.ite_iff]
  by_cases positive : 0 < size
  · rw [if_pos positive] at carried ⊢
    simp only [carryOut, Ensures.bind_iff, Ensures.pure_iff] at carried ⊢
    refine (carried.and (returns _ _ _ _ store)).mono ?_ (fun _ _ fault => fault.1)
    rintro written middle ⟨grown, equal⟩
    subst equal
    have counted : (0 : Int) < size := by omega
    simp only [Ensures.ite_iff, Ensures.bind_iff, Ensures.pure_iff, Int.toNat_natCast]
    rw [if_pos counted]
    exact grown
  · have empty : size = 0 := by omega
    rw [if_neg positive] at carried ⊢
    subst empty
    simpa [carryOut] using carried

theorem writeLoop_carryOut (returns : piece.ReturnsSize) {limit fuel off position : Nat}
    (enough : limit - position < fuel) (bound : position ≤ limit)
    (start : off % gBlockSizeBytes = 0) (length : (limit - position) % gBlockSizeBytes = 0)
    (small : limit < 2 ^ 32)
    (carried : Ensures (carryOut piece ip buf (loopPieces limit fuel off position)) store
      (fun _ next => done (off + (limit - position), limit) next) failed) :
    Ensures (writeLoop piece ip buf limit fuel off position) store done failed := by
  induction fuel generalizing off position store with
  | zero => omega
  | succ fuel ih =>
      unfold writeLoop
      unfold loopPieces at carried
      by_cases more : position < limit
      · rw [if_pos more] at carried ⊢
        rw [if_neg (by simp [start])]
        have sized := nextIoSize_whole start (by omega : 0 < limit - position) length (by omega)
        generalize nextIoSize off (limit - position) = size at sized carried ⊢
        have sizePositive := sized.1.positive
        have sizeLength := sized.1.length
        simp only [carryOut, Ensures.bind_iff] at carried ⊢
        refine (carried.and (returns _ _ _ _ store)).mono ?_ (fun _ _ fault => fault.1)
        rintro written middle ⟨grown, equal⟩
        subst equal
        have counted : (0 : Int) < size := by omega
        have notNegative : ¬ (size : Int) < 0 := by omega
        have exactly : ¬ (size : Int) ≠ size := fun different => different rfl
        rw [if_pos counted, Ensures.bind_iff, Int.toNat_natCast]
        refine grown.mono ?_ (fun _ _ fault => fault)
        intro _ after carried
        rw [if_neg notNegative, if_neg exactly]
        have total : off + size + (limit - (position + size)) = off + (limit - position) := by omega
        rw [← total] at carried
        unfold gBlockSizeBytes at *
        exact ih (by omega) (by omega) (by omega) (by omega) carried
      · rw [if_neg more] at carried ⊢
        have finished : position = limit := by omega
        subst finished
        simpa [carryOut] using carried

theorem ensures_carryOut_append {first second : List Piece} {done : PUnit -> Store -> Prop} :
    Ensures (carryOut piece ip buf (first ++ second)) store done failed <->
      Ensures (carryOut piece ip buf first) store
        (fun _ middle => Ensures (carryOut piece ip buf second) middle done failed) failed := by
  induction first generalizing store with
  | nil => simp [carryOut]
  | cons cut rest ih => simp only [List.cons_append, carryOut, Ensures.bind_iff, ih]

/-- The pieces of a request, carried out one by one, return. -/
theorem carryOut_returns (returns : piece.ReturnsSize) (cuts : List Piece) (store : Store) :
    Ensures (carryOut piece ip buf cuts) store (fun _ _ => True) (fun _ _ => False) := by
  induction cuts generalizing store with
  | nil => exact Ensures.pure_iff.mpr trivial
  | cons cut rest ih =>
      simp only [carryOut, growSize, Ensures.bind_iff, ensures_modifyInode]
      refine (returns _ _ _ _ store).mono ?_ (fun _ _ fault => fault)
      exact fun _ middle _ => ih _

theorem writeEdge_returns (returns : piece.ReturnsSize) (size off position : Nat) (store : Store) :
    Ensures (writeEdge piece ip buf size off position) store
      (fun result _ => result = (off + size, position + size)) (fun _ _ => False) := by
  refine writeEdge_carryOut returns ((carryOut_returns returns _ store).mono ?_ (fun _ _ fault => fault))
  exact fun _ _ _ => rfl

end CarryOut

/-- `userfs_file_write` as the list of its pieces says. -/
def fileWritePieces (piece : PieceWrite) (file : File) (buf : Nat -> UInt8) (count : Nat) :
    Fs (Int × File) := do
  let inode ← readInode file.ip
  carryOut piece file.ip buf (writePieces file.off count)
  modifyInode file.ip (fun after => { after with size := finalSize inode.size file.off count })
  pure (count, { file with off := file.off + count })

section Whole

variable {piece : PieceWrite} {file : File} {buf : Nat -> UInt8} {off count : Nat} {store : Store}

theorem writePieces_tiles (small : count < 2 ^ 31) : Tiles (writePieces off count) off 0 count := by
  have split := splitRequest_split off count
  unfold writePieces
  generalize (splitRequest off count).1 = prepended at split ⊢
  generalize (splitRequest off count).2 = appended at split ⊢
  have fits := split.fits
  have middle : Tiles (loopPieces (count - appended) (count + 1) (off + prepended) prepended)
      (off + prepended) prepended (count - appended - prepended) := by
    by_cases more : prepended < count - appended
    · exact tiles_loopPieces (by omega) (split.aligned (by omega)) split.whole (by omega)
    · rw [loopPieces_nil more]
      exact Nat.sub_eq_zero_of_le (Nat.le_of_not_lt more)
  have last := tiles_pieceOf (off + (count - appended)) (count - appended) appended
  have sameOff : off + prepended + (count - appended - prepended) = off + (count - appended) := by
    omega
  have samePosition : prepended + (count - appended - prepended) = count - appended := by omega
  have rest := middle.append (by rw [sameOff, samePosition]; exact last)
  have all := (tiles_pieceOf off 0 prepended).append (by rw [Nat.zero_add]; exact rest)
  have total : prepended + (count - appended - prepended + appended) = count := by omega
  rw [total] at all
  exact all

/-- Every piece is accepted by `snfs_write`. -/
theorem accepted_of_inBlock {cut : Piece} (positive : 0 < cut.size) (inBlock : cut.InUnit 4096) :
    AcceptedPiece cut := by
  unfold Piece.InUnit at inBlock
  unfold AcceptedPiece blockFloor low
  omega

theorem accepted_of_whole {cut : Piece} (whole : WholePiece cut.off cut.size) :
    AcceptedPiece cut := by
  have start := whole.start
  unfold gBlockSizeBytes at start
  unfold AcceptedPiece blockFloor
  omega

/-- Every piece lies in one block or consists of whole blocks of one chunk. -/
theorem writePieces_shape (small : count < 2 ^ 31) :
    forall cut, cut ∈ writePieces off count ->
      (cut.InUnit 4096 ∨ WholePiece cut.off cut.size) ∧ AcceptedPiece cut := by
  have split := splitRequest_split off count
  unfold writePieces
  generalize (splitRequest off count).1 = prepended at split ⊢
  generalize (splitRequest off count).2 = appended at split ⊢
  intro cut member
  rcases List.mem_append.mp member with first | member
  · rcases mem_pieceOf first with ⟨equal, positive⟩
    have inBlock : cut.InUnit 4096 := by
      rw [equal]
      exact split.inside (by omega)
    exact ⟨.inl inBlock, accepted_of_inBlock (by rw [equal]; exact positive) inBlock⟩
  · rcases List.mem_append.mp member with middle | last
    · by_cases more : prepended < count - appended
      · have whole := loopPieces_whole (split.aligned (by omega)) split.whole (by omega) cut middle
        exact ⟨.inr whole, accepted_of_whole whole⟩
      · rw [loopPieces_nil more] at middle
        exact nomatch middle
    · rcases mem_pieceOf last with ⟨equal, positive⟩
      have inBlock : cut.InUnit 4096 := by
        rw [equal]
        have fits := split.fits
        have tail := split.tail
        have whole := split.whole
        have aligned := split.aligned (by omega)
        unfold Piece.InUnit
        simp only
        omega
      exact ⟨.inl inBlock, accepted_of_inBlock (by rw [equal]; exact positive) inBlock⟩

theorem userfsFileWrite_pieces (returns : piece.ReturnsSize) (writable : file.writable = true)
    (isInode : file.isInode = true) (small : count < 2 ^ 31)
    {done : Int × File -> Store -> Prop} {failed : Fault -> Store -> Prop}
    (carried : Ensures (fileWritePieces piece file buf count) store done failed) :
    Ensures (userfsFileWrite piece file buf count) store done failed := by
  have split := splitRequest_split file.off count
  unfold fileWritePieces writePieces at carried
  unfold userfsFileWrite
  simp only [Ensures.ite_iff, Ensures.bind_iff, ensures_readInode, Ensures.pure_iff,
    Ensures.throw_iff, ensures_modifyInode, ensures_carryOut_append] at carried ⊢
  generalize (splitRequest file.off count).1 = prepended at split carried ⊢
  generalize (splitRequest file.off count).2 = appended at split carried ⊢
  have fits := split.fits
  have short := split.short
  rw [if_neg (by simp [writable]), if_neg (by simp [isInode]),
    if_neg (by unfold gBlockSizeBytes; omega)]
  refine writeEdge_carryOut returns (carried.mono ?_ (fun _ _ fault => fault))
  intro _ middle carried
  rw [Nat.zero_add]
  have looped : Ensures (writeLoop piece file.ip buf (count - appended) (count + 1)
      (file.off + prepended) prepended) middle
      (fun position after => position = (file.off + (count - appended), count - appended) ∧
        Ensures (carryOut piece file.ip buf (pieceOf (file.off + (count - appended))
          (count - appended) appended)) after
          (fun _ last => done ((count : Int), { file with off := file.off + count })
            (last.updateInode file.ip (fun inode =>
              { inode with size := finalSize (store.inode file.ip).size file.off count }))) failed)
      failed := by
    by_cases more : prepended < count - appended
    · refine writeLoop_carryOut returns (by omega) (by omega) (split.aligned (by omega)) split.whole
        (by omega) (carried.mono ?_ (fun _ _ fault => fault))
      intro _ after carried
      have ended : file.off + prepended + (count - appended - prepended) =
          file.off + (count - appended) := by omega
      exact ⟨by rw [ended], carried⟩
    · rw [loopPieces_nil more, carryOut, Ensures.pure_iff] at carried
      unfold writeLoop
      rw [if_neg more]
      have ended : prepended = count - appended := by omega
      rw [ended]
      exact Ensures.pure_iff.mpr ⟨rfl, carried⟩
  refine looped.mono ?_ (fun _ _ fault => fault)
  rintro position after ⟨equal, carried⟩
  subst equal
  refine writeEdge_carryOut returns (carried.mono ?_ (fun _ _ fault => fault))
  intro _ last finished
  have total : count - appended + appended = count := by omega
  have totalOff : file.off + (count - appended) + appended = file.off + count := by omega
  rw [if_pos total, totalOff]
  exact finished

end Whole

/-- How a write is split.  If every call of `snfs_write` returns its size
argument, `userfs_file_write` of `count` bytes at a position carries out the pieces
of `writePieces`: they tile the range of the request in order, with matching buffer
positions, and each is acceptable to `snfs_write`, being inside one block or made of
whole blocks of one chunk.  The function returns its count without a fault, with
the position behind the request and the size of the inode at the maximum of the old
size and the end of the request. -/
theorem write_is_split (piece : PieceWrite) (file : File) (buf : Nat -> UInt8) (count : Nat)
    (store : Store) (writable : file.writable = true) (isInode : file.isInode = true)
    (positive : 0 < count) (small : count < 2 ^ 31) (returns : piece.ReturnsSize) :
    Tiles (writePieces file.off count) file.off 0 count ∧
      (forall cut, cut ∈ writePieces file.off count ->
        (cut.InUnit 4096 ∨ WholePiece cut.off cut.size) ∧ AcceptedPiece cut) ∧
      (userfsFileWrite piece file buf count).run store =
        (fileWritePieces piece file buf count).run store ∧
      Ensures (userfsFileWrite piece file buf count) store
        (fun result next => result = ((count : Int), { file with off := file.off + count }) ∧
          (next.inode file.ip).size = max (store.inode file.ip).size (file.off + count))
        (fun _ _ => False) := by
  refine ⟨writePieces_tiles small, writePieces_shape small, ?_, ?_⟩
  · exact run_eq_of_ensures (fun _ _ => userfsFileWrite_pieces returns writable isInode small)
  · apply userfsFileWrite_pieces returns writable isInode small
    simp only [fileWritePieces, Ensures.bind_iff, ensures_readInode, ensures_modifyInode,
      Ensures.pure_iff, updateInode_inode_self]
    refine (carryOut_returns returns _ store).mono ?_ (fun _ _ fault => fault)
    intro _ middle _
    refine ⟨trivial, ?_⟩
    unfold finalSize
    split <;> omega

/-- An operation that returns its size and does nothing. -/
def echoSize : PieceWrite :=
  fun _ _ _ size => pure (size : Int)

theorem echoSize_returnsSize : echoSize.ReturnsSize :=
  fun _ _ _ _ _ => Ensures.pure_iff.mpr rfl

/-- A request of 5000 bytes from the middle of a block. -/
theorem write_is_split_head_and_tail :
    writePieces 100 5000 = [⟨100, 0, 3996⟩, ⟨4096, 3996, 1004⟩] ∧
      Tiles (writePieces 100 5000) 100 0 5000 :=
  ⟨by decide +kernel,
    (write_is_split echoSize ⟨0, 100, true, true⟩ (fun _ => 0) 5000 freshStore rfl rfl (by decide)
      (by decide) echoSize_returnsSize).1⟩

end Userfs.Filesystem
