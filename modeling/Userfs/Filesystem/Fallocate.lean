import Userfs.Filesystem.FileSize
import Userfs.Filesystem.FileWrite

namespace Userfs.Filesystem

open Word

/-!
# Preallocation

`userfs_posix_fallocate` writes zeros in rounds of 64 KiB.  Before each round it moves the
position of the file behind the range of the round, and `userfs_file_write` moves it on from
there.  So each round skips as many bytes as it writes: the call returns 0, but the file grows
by twice the length, and the first round of the range is never written.

At the end of the file every round starts behind the end, where `aligned_write` has no branch.
Nothing is written at all then, and only the size changes.
-/

/-- `ALLOC_IO_SIZE`. -/
def allocIoSize : Nat := 65536

/-- The loop of `userfs_posix_fallocate`.  Positions and the counter have 64 bits. -/
def fallocateLoop (len : Nat) : Nat -> Nat -> File -> Fs File
  | 0, _, _ => throw .outOfFuel
  | fuel + 1, i, file =>
      if i < len then do
        let ioSize := min (len - i) allocIoSize
        let (ret, file) ← userfsFileWrite snfsWrite { file with off := add64 file.off ioSize }
          (fun _ => 0) ioSize
        if ret < 0 then throw (.panic "fail to do fallocate\n")
        else fallocateLoop len fuel (add64 i allocIoSize) file
      else pure file

/-- `userfs_posix_fallocate` for an open file. -/
def userfsPosixFallocate (file : File) (offset len : Nat) : Fs (Int × File) := do
  let inode ← readInode file.ip
  if inode.size < offset then throw (.panic "does not support sparse file\n")
  else do
    let file ← fallocateLoop len (len + 1) 0 { file with off := offset }
    pure (0, file)

/-! ## Writes behind a bound -/

/-- Every write on the way goes to a file offset at or behind the bound. -/
def WritesBehind (bound : Nat) (store next : Store) : Prop :=
  Exists fun added => next.events = store.events ++ added ∧
    forall ip off bh, Event.write ip off bh ∈ added -> bound ≤ off

section Behind

variable {bound : Nat}

instance : Std.Refl (WritesBehind bound) where
  refl := fun store => ⟨[], (List.append_nil store.events).symm, fun _ _ _ none => by cases none⟩

instance : IsTrans Store (WritesBehind bound) where
  trans := by
    rintro first second third ⟨before, firstEvents, early⟩ ⟨after, secondEvents, late⟩
    refine ⟨before ++ after, by rw [secondEvents, firstEvents, List.append_assoc], ?_⟩
    intro ip off bh member
    rcases List.mem_append.mp member with inBefore | inAfter
    · exact early ip off bh inBefore
    · exact late ip off bh inAfter

theorem WritesBehind.of_events_eq {store next : Store} (same : next.events = store.events) :
    WritesBehind bound store next :=
  ⟨[], by rw [same, List.append_nil], fun _ _ _ none => by cases none⟩

theorem WritesBehind.of_event {store next : Store} {event : Event}
    (added : next.events = store.events ++ [event])
    (behind : forall ip off bh, event = .write ip off bh -> bound ≤ off) :
    WritesBehind bound store next := by
  refine ⟨[event], added, fun ip off bh member => ?_⟩
  exact behind ip off bh (List.mem_singleton.mp member).symm

theorem behind_readInode (ip : Nat) : Follows (WritesBehind bound) (readInode ip) :=
  fun store => ensures_readInode.mpr (Std.Refl.refl store)

theorem behind_modifyInode (ip : Nat) (change : Inode -> Inode) :
    Follows (WritesBehind bound) (modifyInode ip change) :=
  fun _ => ensures_modifyInode.mpr (WritesBehind.of_events_eq rfl)

theorem behind_bhGetSyncIo (dev blocknr size : Nat) (data : Nat -> UInt8) (offset : Nat) :
    Follows (WritesBehind bound) (bhGetSyncIo dev blocknr size data offset) :=
  Follows.ite (fun _ => Follows.pure _) (fun _ => Follows.throw _)

theorem behind_allocateWhen (due : Inode -> Prop) [DecidablePred due] (ip : Nat) (cursor : Cursor) :
    Follows (WritesBehind bound) (allocateWhen due ip cursor) := by
  intro store
  rw [ensures_allocateWhen]
  by_cases isDue : due (store.inode ip)
  · rw [allocateIf_pos cursor isDue]
    exact WritesBehind.of_event rfl (fun _ _ _ impossible => by cases impossible)
  · rw [allocateIf_neg cursor isDue]
    exact Std.Refl.refl store

theorem behind_submitWrite (ip : Nat) {off : Nat} (bh : Io.BufferHead) (behind : bound ≤ off) :
    Follows (WritesBehind bound) (submitWrite ip off bh) := by
  have issued : forall {store next : Store}, next.events = (store.issued ip off bh).events ->
      WritesBehind bound store next := by
    intro store next added
    refine WritesBehind.of_event added (fun _ _ _ same => ?_)
    cases same
    exact behind
  intro store
  rw [ensures_submitWrite]
  split
  · exact issued rfl
  · exact issued rfl

theorem behind_appendFsextent (ip off : Nat) (bh : Io.BufferHead) (append : Nat) :
    Follows (WritesBehind bound) (appendFsextent ip off bh append) := by
  intro store
  rw [ensures_appendFsextent]
  refine Ensures.always.mono ?_ ?_
  · exact fun _ _ _ => WritesBehind.of_event rfl (fun _ _ _ impossible => by cases impossible)
  · exact fun _ _ _ => WritesBehind.of_events_eq rfl

theorem behind_transferRecorded (ip : Nat) {off : Nat} (append : Nat) (bh : Io.BufferHead)
    (move : Inode -> Inode) (behind : bound ≤ off) :
    Follows (WritesBehind bound) (transferRecorded ip move off bh append) :=
  Follows.bind (behind_modifyInode ip move) (fun _ =>
    Follows.bind (behind_submitWrite ip bh behind) (fun _ => behind_appendFsextent ip off bh append))

theorem behind_alignedAppend (ip pieceOff : Nat) {off : Nat} (size : Nat) (data : Nat -> UInt8)
    (behind : bound ≤ off) : Follows (WritesBehind bound) (alignedAppend ip pieceOff off size data) := by
  refine Follows.bind (behind_allocateWhen _ ip .append) (fun _ => ?_)
  refine Follows.bind ?_ (fun _ => ?_)
  · exact Follows.bind (behind_readInode ip)
      (fun _ => Follows.ite (fun _ => Follows.throw _) (fun _ => Follows.pure _))
  · refine Follows.bind (behind_readInode ip) (fun inode => ?_)
    refine Follows.bind (behind_bhGetSyncIo _ _ _ _ _) (fun bh => ?_)
    refine Follows.bind (behind_transferRecorded ip 1 bh _ behind) (fun _ => ?_)
    exact Follows.modify (fun _ => WritesBehind.of_events_eq rfl)

theorem behind_overwriteAtCursor (ip dev : Nat) {off : Nat} (size advance : Nat) (data : Nat -> UInt8)
    (behind : bound ≤ off) :
    Follows (WritesBehind bound) (overwriteAtCursor ip dev off size advance data) :=
  Follows.bind (behind_readInode ip) (fun _ =>
    Follows.bind (behind_bhGetSyncIo _ _ _ _ _) (fun bh => behind_transferRecorded ip 0 bh _ behind))

theorem behind_alignedWrite (ip : Nat) (buf : Nat -> UInt8) {off : Nat} (size : Nat)
    (behind : bound ≤ off) : Follows (WritesBehind bound) (alignedWrite ip buf off size) := by
  refine Follows.bind (behind_readInode ip) (fun inode => ?_)
  refine Follows.ite (fun _ => ?_) (fun _ => Follows.ite (fun _ => ?_) (fun _ => Follows.pure size))
  · exact Follows.bind (behind_alignedAppend _ _ _ _ behind) (fun _ => Follows.pure size)
  · refine Follows.ite (fun _ => ?_) (fun _ => ?_)
    · refine Follows.bind (behind_allocateWhen _ ip .overwrite) (fun _ => ?_)
      refine Follows.bind (behind_overwriteAtCursor _ _ _ _ _ behind) (fun _ => ?_)
      exact Follows.bind (behind_alignedAppend _ _ _ _ (Nat.le_trans behind (Nat.le_add_right _ _)))
        (fun _ => Follows.pure size)
    · refine Follows.bind (behind_allocateWhen _ ip .overwrite) (fun _ => ?_)
      refine Follows.bind (behind_readInode ip) (fun _ => ?_)
      exact Follows.bind (behind_overwriteAtCursor _ _ _ _ _ behind) (fun _ => Follows.pure size)

end Behind

/-! ## Rounds -/

section Rounds

variable {file : File} {bound len i fuel off : Nat} {store : Store}

/-- A piece of whole blocks is left to `aligned_write`. -/
theorem snfsWrite_whole {size : Nat} (whole : WholePiece off size) (ip : Nat) (buf : Nat -> UInt8) :
    snfsWrite ip buf off size = (do
      let written ← alignedWrite ip buf off size
      pure (written : Int)) := by
  have start := whole.start
  have positive := whole.positive
  have length := whole.length
  unfold gBlockSizeBytes at start length
  have aligned : ¬ blockFloor off < off := by
    unfold blockFloor
    omega
  rw [snfsWrite, if_neg (fun both => aligned both.1), if_neg aligned, if_neg (by omega)]

/-- A whole piece returns its size and writes no earlier byte. -/
theorem ensures_whole_behind {size ip : Nat} {buf : Nat -> UInt8} (whole : WholePiece off size)
    (behind : bound ≤ off) :
    Ensures (snfsWrite ip buf off size) store
      (fun written next => written = (size : Int) ∧ WritesBehind bound store next) (fun _ _ => True) := by
  have follows : Ensures (snfsWrite ip buf off size) store (fun _ next => WritesBehind bound store next)
      (fun _ _ => True) := by
    rw [snfsWrite_whole whole, Ensures.bind_iff]
    exact (behind_alignedWrite ip buf size behind store).mono
      (fun _ _ related => Ensures.pure_iff.mpr related) (fun _ _ _ => trivial)
  exact ((returns_snfsWrite ip buf off size store).and follows).mono
    (fun _ _ both => ⟨both.1.1, both.2⟩) (fun _ _ _ => trivial)

/-- Multiples of 64 KiB are multiples of the block size. -/
theorem block_aligned (aligned : off % allocIoSize = 0) : (off + allocIoSize) % gBlockSizeBytes = 0 := by
  unfold allocIoSize at *
  unfold gBlockSizeBytes
  omega

/-- Every round has the full size. -/
theorem round_full (length : len % allocIoSize = 0) (counted : i % allocIoSize = 0) (more : i < len) :
    i + allocIoSize ≤ len ∧ min (len - i) allocIoSize = allocIoSize := by
  unfold allocIoSize at *
  omega

theorem finalSize_round (size off : Nat) :
    finalSize size (off + allocIoSize) allocIoSize = max size (off + 2 * allocIoSize) := by
  unfold finalSize allocIoSize
  split <;> omega

/-- The rounds, for a property of the position and the store that each round keeps. -/
theorem ensures_fallocateLoop {reached : Nat -> Store -> Prop} {failed : Fault -> Store -> Prop}
    {last : Nat} (length : len % allocIoSize = 0) (counted : i % allocIoSize = 0)
    (aligned : file.off % allocIoSize = 0) (ends : file.off + 2 * (len - i) = last)
    (range : last < 2 ^ 64) (small : len + allocIoSize < 2 ^ 64) (enough : len - i < fuel)
    (round : forall off store, reached off store -> off % allocIoSize = 0 ->
      Ensures (userfsFileWrite snfsWrite { file with off := off + allocIoSize } (fun _ => 0) allocIoSize)
        store
        (fun result next =>
          result = ((allocIoSize : Int), { file with off := off + 2 * allocIoSize }) ∧
            reached (off + 2 * allocIoSize) next) failed)
    (start : reached file.off store) :
    Ensures (fallocateLoop len fuel i file) store
      (fun result next => result = { file with off := last } ∧ reached last next) failed := by
  induction fuel generalizing file i store with
  | zero => exact absurd enough (Nat.not_lt_zero _)
  | succ fuel ih =>
      unfold fallocateLoop
      by_cases more : i < len
      · rcases round_full length counted more with ⟨fits, ioSize⟩
        have positive : 0 < allocIoSize := by decide
        have moved : add64 file.off allocIoSize = file.off + allocIoSize := add64_of_lt (by omega)
        have stepped : add64 i allocIoSize = i + allocIoSize := add64_of_lt (by omega)
        rw [if_pos more]
        simp only [ioSize, moved, stepped, Ensures.bind_iff]
        refine (round file.off store start aligned).mono ?_ (fun _ _ fault => fault)
        rintro result next ⟨same, kept⟩
        rw [same]
        simp only [Ensures.ite_iff]
        rw [if_neg (by decide)]
        refine @ih { file with off := file.off + 2 * allocIoSize } (i + allocIoSize) next ?_ ?_ ?_ ?_
          round kept
        · rw [Nat.add_mod_right]
          exact counted
        · change (file.off + 2 * allocIoSize) % allocIoSize = 0
          rw [Nat.add_mul_mod_self_right]
          exact aligned
        · change file.off + 2 * allocIoSize + 2 * (len - (i + allocIoSize)) = last
          omega
        · omega
      · rw [if_neg more, Ensures.pure_iff]
        have finished : file.off = last := by omega
        rw [← finished]
        exact ⟨rfl, start⟩

/-- A round in or behind the file writes only behind the position it starts from. -/
theorem ensures_round_behind (writable : file.writable = true) (isInode : file.isInode = true)
    (aligned : off % allocIoSize = 0) (behind : bound ≤ off + allocIoSize) :
    Ensures (userfsFileWrite snfsWrite { file with off := off + allocIoSize } (fun _ => 0) allocIoSize)
      store
      (fun result next => result = ((allocIoSize : Int), { file with off := off + 2 * allocIoSize }) ∧
        (next.inode file.ip).size = max (store.inode file.ip).size (off + 2 * allocIoSize) ∧
        WritesBehind bound store next)
      (fun _ _ => True) := by
  have written := @ensures_userfsFileWrite_whole snfsWrite { file with off := off + allocIoSize }
    (fun _ => 0) allocIoSize (fun position _ next => bound ≤ position ∧ WritesBehind bound store next)
    (fun _ _ => True) store writable isInode (block_aligned aligned) (by decide)
    (by decide) ?_ ⟨behind, Std.Refl.refl store⟩
  · refine written.mono ?_ (fun _ _ fault => fault)
    rintro result next ⟨same, middle, ⟨_, kept⟩, resized⟩
    have total : off + allocIoSize + allocIoSize = off + 2 * allocIoSize := by omega
    refine ⟨?_, ?_, ?_⟩
    · rw [same]
      change ((allocIoSize : Int), { file with off := off + allocIoSize + allocIoSize }) = _
      rw [total]
    · rw [resized, updateInode_inode_self]
      exact finalSize_round _ off
    · rw [resized]
      exact IsTrans.trans _ _ _ kept (WritesBehind.of_events_eq rfl)
  · rintro position done size current ⟨reached, kept⟩ whole _
    refine (ensures_whole_behind whole reached).mono ?_ (fun _ _ fault => fault)
    rintro result next ⟨same, later⟩
    refine ⟨same, ?_⟩
    rw [growSize, ensures_modifyInode]
    exact ⟨Nat.le_trans reached (Nat.le_add_right _ _),
      IsTrans.trans _ _ _ kept (IsTrans.trans _ _ _ later (WritesBehind.of_events_eq rfl))⟩

/-- A round behind the end of the file is one piece that `aligned_write` ignores. -/
theorem ensures_round_ignored (writable : file.writable = true) (isInode : file.isInode = true)
    (aligned : off % allocIoSize = 0) (beyond : (store.inode file.ip).size < off + allocIoSize) :
    Ensures (userfsFileWrite snfsWrite { file with off := off + allocIoSize } (fun _ => 0) allocIoSize)
      store
      (fun result next => result = ((allocIoSize : Int), { file with off := off + 2 * allocIoSize }) ∧
        next = store.updateInode file.ip (fun inode => { inode with size := off + 2 * allocIoSize }))
      (fun _ _ => False) := by
  have chunk : chunkSize = 2097152 := rfl
  have total : off + allocIoSize + allocIoSize = off + 2 * allocIoSize := by omega
  have written := @ensures_userfsFileWrite_cut snfsWrite { file with off := off + allocIoSize }
    (fun _ => 0) allocIoSize (fun position done next => position = off + allocIoSize + done ∧
      (done = 0 ∧ next = store ∨ done = allocIoSize ∧ Exists fun size : Inode -> Nat =>
        next = store.updateInode file.ip (fun inode => { inode with size := size inode })))
    (fun _ _ => False) store writable isInode (block_aligned aligned) (by decide)
    (by decide) ?_ ⟨rfl, .inl ⟨rfl, rfl⟩⟩
  · refine written.mono ?_ (fun _ _ fault => fault)
    rintro result next ⟨same, middle, ⟨_, ended⟩, resized⟩
    refine ⟨?_, ?_⟩
    · rw [same]
      change ((allocIoSize : Int), { file with off := off + allocIoSize + allocIoSize }) = _
      rw [total]
    · have final : finalSize (store.inode file.ip).size (off + allocIoSize) allocIoSize =
          off + 2 * allocIoSize := by
        rw [finalSize_round]
        omega
      rcases ended with ⟨zero, _⟩ | ⟨_, size, grown⟩
      · cases zero
      · rw [resized, grown]
        change Store.updateInode (store.updateInode file.ip _) file.ip (fun inode =>
          { inode with size := finalSize (store.inode file.ip).size (off + allocIoSize) allocIoSize }) = _
        rw [resize_resize, final]
  · rintro position done size current ⟨located, stage⟩ whole within cut
    have positive := whole.positive
    rcases stage with ⟨none, same⟩ | ⟨all, _⟩
    · -- 2 MB is a multiple of 64 KiB, so the piece is the whole round
      have entire : size = allocIoSize := by
        rw [chunk] at cut
        unfold allocIoSize at *
        omega
      rw [snfsWrite_whole whole, Ensures.bind_iff]
      have ignored : ¬ position = (current.inode file.ip).size ∧ ¬ position < (current.inode file.ip).size := by
        rw [same]
        omega
      simp only [alignedWrite, Ensures.bind_iff, ensures_readInode, if_neg ignored.1, if_neg ignored.2,
        Ensures.pure_iff, growSize, ensures_modifyInode, true_and]
      refine ⟨by omega, .inr ⟨by omega, fun inode =>
        if inode.size < position + size then position + size else inode.size, ?_⟩⟩
      rw [same]
    · omega

end Rounds

/-- A call of `userfs_posix_fallocate` inside the file with an offset and a length that are
multiples of 64 KiB.  If it returns, it returns 0 with the position and the end of the file
`2 * len` behind the offset, and it has written nothing in the first 64 KiB of the range.  If the
file ends in the first 64 KiB of the range, it returns, and it writes nothing at all. -/
theorem fallocate_skips_and_doubles (file : File) (offset len : Nat) (store : Store)
    (writable : file.writable = true) (isInode : file.isInode = true)
    (within : offset ≤ (store.inode file.ip).size) (aligned : offset % allocIoSize = 0)
    (length : len % allocIoSize = 0) (range : offset + 2 * len + chunkSize < 2 ^ 64) :
    Ensures (userfsPosixFallocate file offset len) store
        (fun result next => result = (0, { file with off := offset + 2 * len }) ∧
          (next.inode file.ip).size = max (store.inode file.ip).size (offset + 2 * len) ∧
          WritesBehind (offset + allocIoSize) store next)
        (fun _ _ => True) ∧
      ((store.inode file.ip).size < offset + allocIoSize ->
        Ensures (userfsPosixFallocate file offset len) store
          (fun result next => result = (0, { file with off := offset + 2 * len }) ∧
            next = store.updateInode file.ip (fun inode =>
              { inode with size := max (store.inode file.ip).size (offset + 2 * len) }))
          (fun _ _ => False)) := by
  have chunk : chunkSize = 2097152 := rfl
  have numeral : allocIoSize = 65536 := rfl
  have loop := fun reached failed => @ensures_fallocateLoop { file with off := offset } len 0 (len + 1)
    store reached failed (offset + 2 * len) length rfl aligned rfl (by omega) (by omega) (by omega)
  unfold userfsPosixFallocate
  simp only [Ensures.bind_iff, ensures_readInode, if_neg (Nat.not_lt.mpr within), Ensures.pure_iff]
  constructor
  · refine (loop (fun off next => offset ≤ off ∧
      (next.inode file.ip).size = max (store.inode file.ip).size off ∧
      WritesBehind (offset + allocIoSize) store next) (fun _ _ => True) ?_ ⟨Nat.le_refl _, ?_, ?_⟩).mono ?_
      (fun _ _ fault => fault)
    · rintro off next ⟨later, size, kept⟩ multiple
      refine (@ensures_round_behind file (offset + allocIoSize) off next writable isInode multiple
        (by omega)).mono ?_ (fun _ _ fault => fault)
      rintro result last ⟨same, grown, after⟩
      exact ⟨same, by omega, by rw [grown, size]; omega, IsTrans.trans _ _ _ kept after⟩
    · exact (Nat.max_eq_left within).symm
    · exact Std.Refl.refl store
    · rintro result next ⟨rfl, _, size, kept⟩
      exact ⟨rfl, size, kept⟩
  · intro ending
    refine (loop (fun off next => offset ≤ off ∧ next = store.updateInode file.ip
      (fun inode => { inode with size := max (store.inode file.ip).size off })) (fun _ _ => False) ?_
      ⟨Nat.le_refl _, ?_⟩).mono ?_ (fun _ _ fault => fault)
    · rintro off next ⟨later, shape⟩ multiple
      have size : (next.inode file.ip).size = max (store.inode file.ip).size off := by
        rw [shape, updateInode_inode_self]
      refine (@ensures_round_ignored file off next writable isInode multiple
        (by rw [size]; omega)).mono ?_ (fun _ _ fault => fault)
      rintro result last ⟨same, grown⟩
      refine ⟨same, by omega, ?_⟩
      have beyond : max (store.inode file.ip).size (off + 2 * allocIoSize) = off + 2 * allocIoSize := by
        omega
      rw [grown, shape, resize_resize, beyond]
    · simp only [Nat.max_eq_left within, Store.updateInode, Function.update_eq_self]
    · rintro result next ⟨rfl, _, shape⟩
      exact ⟨rfl, shape⟩

/-- A file of 64 KiB is preallocated at its end: two rounds write nothing, and the file has four
times 64 KiB more. -/
theorem fallocate_skips_and_doubles_at_end :
    Ensures (userfsPosixFallocate ⟨3, 0, true, true⟩ 65536 131072)
      (freshStore.updateInode 3 (fun inode => { inode with size := 65536 }))
      (fun result next => result = (0, ⟨3, 327680, true, true⟩) ∧ (next.inode 3).size = 327680 ∧
        next.events = [] ∧ next.disk = freshStore.disk)
      (fun _ _ => False) := by
  have both := fallocate_skips_and_doubles ⟨3, 0, true, true⟩ 65536 131072
    (freshStore.updateInode 3 (fun inode => { inode with size := 65536 })) rfl rfl (by decide)
    (by decide) (by decide) (by decide)
  refine (both.2 (by decide)).mono ?_ (fun _ _ fault => fault)
  rintro result next ⟨same, shape⟩
  refine ⟨same, ?_, ?_, ?_⟩
  · rw [shape, updateInode_inode_self]
    rfl
  · rw [shape]
    rfl
  · rw [shape]
    rfl

end Userfs.Filesystem
