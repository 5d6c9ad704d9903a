import Userfs.Io.Storage

namespace Userfs.Io

open Memory
open Word

/-!
# Writes inside one block

The DAX engine stores the bytes of a partial write where they belong.  The HDD engine
sends whole blocks: `hdd_write_unaligned` reads the bytes before the offset into a fresh
buffer, puts the data behind them, and writes all 4096 bytes of the buffer, so the rest of
the block becomes what the allocation contained.  `writtenBlock` is the block after either
engine, and the two agree where the fresh bytes happen to be the old ones.
-/

/-- The contents of the block after a write inside it. -/
def writtenBlock (fresh : Nat -> UInt8) (disk : Disk) (bh : BufferHead) : Nat -> UInt8 :=
  fun index =>
    if bh.offset ≤ index ∧ index < bh.offset + bh.size then bh.data (index - bh.offset)
    else if gBdev bh.dev = some .hdd ∧ bh.offset ≠ 0 ∧ bh.offset + bh.size ≤ index then fresh index
    else disk bh.dev (shl64 bh.blocknr 12 + index)

section InBlock

variable {fresh : Nat -> UInt8} {disk : Disk} {bh : BufferHead}

/-- A transfer to its address replaces the block by one with the bytes exchanged. -/
theorem transfer_inBlock (inBlock : bh.offset + bh.size ≤ 4096)
    (fits : shl64 bh.blocknr 12 + 4096 ≤ devSize bh.dev)
    (direct : gBdev bh.dev = some .hdd -> bh.offset = 0) :
    transfer disk bh = .ok (disk.update bh.dev
      (copy (disk bh.dev) (shl64 bh.blocknr 12) (writtenBlock fresh disk bh) 4096)) := by
  have room : bh.address + bh.size ≤ devSize bh.dev := by
    unfold BufferHead.address
    omega
  rw [transfer, if_pos room]
  congr 2
  funext address
  by_cases inside : shl64 bh.blocknr 12 ≤ address ∧ address < shl64 bh.blocknr 12 + 4096
  · have index : shl64 bh.blocknr 12 + (address - shl64 bh.blocknr 12) = address := by omega
    rw [copy_inside _ (writtenBlock fresh disk bh) inside.1 inside.2]
    unfold writtenBlock BufferHead.address
    by_cases written : bh.offset ≤ address - shl64 bh.blocknr 12 ∧
        address - shl64 bh.blocknr 12 < bh.offset + bh.size
    · rw [if_pos written, copy_inside _ _ (by omega) (by omega), Nat.sub_add_eq]
    · rw [if_neg written, if_neg (fun other => other.2.1 (direct other.1)),
        copy_outside _ _ (by omega), index]
  · unfold BufferHead.address
    rw [copy_outside _ (writtenBlock fresh disk bh) (by omega), copy_outside _ _ (by omega)]

/-- The block image of the HDD engine. -/
theorem blockImage_eq (engine : gBdev bh.dev = some .hdd) (partially : bh.offset ≠ 0) :
    blockImage fresh disk bh = writtenBlock fresh disk bh := by
  funext index
  unfold blockImage writtenBlock
  by_cases before : index < bh.offset
  · rw [if_pos before, if_neg (by omega), if_neg (by omega)]
  · rw [if_neg before]
    by_cases written : index < bh.offset + bh.size
    · rw [if_pos written, if_pos ⟨Nat.le_of_not_lt before, written⟩]
    · rw [if_neg written, if_neg (fun both => written both.2),
        if_pos ⟨engine, partially, Nat.le_of_not_lt written⟩]

/-- What `userfs_write` makes of a write inside one block of a device. -/
theorem userfsWrite_eq_writtenBlock (positive : 0 < bh.size)
    (inBlock : bh.offset + bh.size ≤ 4096)
    (fits : shl64 bh.blocknr 12 + 4096 ≤ devSize bh.dev) :
    userfsWrite fresh disk bh = .ok (disk.update bh.dev
      (copy (disk bh.dev) (shl64 bh.blocknr 12) (writtenBlock fresh disk bh) 4096)) := by
  have present := gBdev_isSome (Nat.lt_of_lt_of_le (Nat.lt_add_left _ (by decide)) fits)
  unfold userfsWrite
  rw [if_neg (Nat.pos_iff_ne_zero.mp positive)]
  cases engine : gBdev bh.dev with
  | none => simp [engine] at present
  | some kind =>
      cases kind with
      | dax =>
          refine transfer_inBlock inBlock fits (fun other => ?_)
          cases engine.symm.trans other
      | hdd =>
          by_cases aligned : bh.offset = 0
          · simp only [ne_eq, aligned, not_true_eq_false, ↓reduceIte]
            exact transfer_inBlock inBlock fits (fun _ => aligned)
          · have short : ¬ gBlockSizeBytes < bh.offset + bh.size := Nat.not_lt.mpr inBlock
            have room : shl64 bh.blocknr 12 + gBlockSizeBytes ≤ devSize bh.dev := fits
            simp only [ne_eq, aligned, not_false_eq_true, ↓reduceIte]
            rw [hddWriteUnaligned, if_neg short, if_pos room, blockImage_eq engine aligned]
            rfl

end InBlock

/-! ## The two engines against one meaning -/

/-- A block write as it is meant: the bytes of the range are replaced, the rest of the block
and every other block keep their contents. -/
def PatchesBlock (fresh : Nat -> UInt8) (disk : Disk) (bh : BufferHead) : Prop :=
  Exists fun next => userfsWrite fresh disk bh = .ok next ∧
    (forall index, index < 4096 -> next bh.dev (bh.blocknr * 4096 + index) =
      if bh.offset ≤ index ∧ index < bh.offset + bh.size then bh.data (index - bh.offset)
      else disk bh.dev (bh.blocknr * 4096 + index)) ∧
    forall dev address,
      ¬ (dev = bh.dev ∧ bh.blocknr * 4096 ≤ address ∧ address < bh.blocknr * 4096 + 4096) ->
        next dev address = disk dev address

/-- Both engines do what is meant, except that a partial write of the HDD engine behind the
start of a block must find the old bytes behind its data in the buffer it allocates.  An
empty write stops at the assertion. -/
theorem partial_write_patches_iff (fresh : Nat -> UInt8) (disk : Disk) (bh : BufferHead)
    (inBlock : bh.offset + bh.size ≤ 4096)
    (onDevice : bh.blocknr * 4096 + 4096 ≤ devSize bh.dev) :
    PatchesBlock fresh disk bh <->
      0 < bh.size ∧ (gBdev bh.dev = some .dax ∨ bh.offset = 0 ∨
        forall index, bh.offset + bh.size ≤ index -> index < 4096 ->
          fresh index = disk bh.dev (bh.blocknr * 4096 + index)) := by
  have base : shl64 bh.blocknr 12 = bh.blocknr * 4096 := by
    have bound := devSize_lt bh.dev
    unfold shl64 low
    omega
  have fits : shl64 bh.blocknr 12 + 4096 ≤ devSize bh.dev := by rw [base]; exact onDevice
  have engines : gBdev bh.dev = some .dax ∨ gBdev bh.dev = some .hdd := by
    have present := gBdev_isSome (Nat.lt_of_lt_of_le (Nat.lt_add_left _ (by decide)) onDevice)
    cases engine : gBdev bh.dev with
    | none => simp [engine] at present
    | some kind => cases kind <;> simp
  -- the block after the write, byte by byte
  have stored : forall index, index < 4096 ->
      (disk.update bh.dev (copy (disk bh.dev) (shl64 bh.blocknr 12)
        (writtenBlock fresh disk bh) 4096)) bh.dev (bh.blocknr * 4096 + index) =
          writtenBlock fresh disk bh index := by
    intro index bound
    rw [base, Disk.update, if_pos rfl, copy_inside _ _ (Nat.le_add_right _ _) (by omega),
      Nat.add_sub_cancel_left]
  constructor
  · rintro ⟨next, done, block, _⟩
    have positive : 0 < bh.size := by
      by_contra empty
      rw [userfsWrite, if_pos (Nat.eq_zero_of_not_pos empty)] at done
      cases done
    refine ⟨positive, ?_⟩
    rw [userfsWrite_eq_writtenBlock positive inBlock fits] at done
    by_cases aligned : bh.offset = 0
    · exact Or.inr (Or.inl aligned)
    · rcases engines with dax | hdd
      · exact Or.inl dax
      · refine Or.inr (Or.inr (fun index behind bound => ?_))
        have byte := block index bound
        rw [← Except.ok.inj done, stored index bound, writtenBlock, if_neg (by omega),
          if_pos ⟨hdd, aligned, behind⟩, if_neg (by omega)] at byte
        exact byte
  · rintro ⟨positive, agree⟩
    refine ⟨_, userfsWrite_eq_writtenBlock positive inBlock fits, ?_, ?_⟩
    · intro index bound
      rw [stored index bound, writtenBlock, base]
      by_cases written : bh.offset ≤ index ∧ index < bh.offset + bh.size
      · rw [if_pos written, if_pos written]
      · rw [if_neg written, if_neg written]
        by_cases clobbered : gBdev bh.dev = some .hdd ∧ bh.offset ≠ 0 ∧ bh.offset + bh.size ≤ index
        · rw [if_pos clobbered]
          rcases agree with dax | aligned | same
          · cases dax.symm.trans clobbered.1
          · exact absurd aligned clobbered.2.1
          · exact same index clobbered.2.2 bound
        · rw [if_neg clobbered]
    · intro dev address outside
      by_cases same : dev = bh.dev
      · subst same
        rw [Disk.update, if_pos rfl, base, copy_outside _ _ (by omega)]
      · rw [Disk.update, if_neg same]

/-- A partial write to the first SSD, with a buffer that happens to hold the bytes of the
device behind the data. -/
theorem partial_write_patches_ssd :
    PatchesBlock (fun index => if index < 200 then 0 else 1) (fun _ _ => 1)
      ⟨2, 512, 100, 100, fun _ => 2⟩ :=
  (partial_write_patches_iff (fun index => if index < 200 then 0 else 1) (fun _ _ => 1)
    ⟨2, 512, 100, 100, fun _ => 2⟩ (by decide) (by decide)).mpr
      ⟨by decide, Or.inr (Or.inr (fun _ behind _ => if_neg (Nat.not_lt.mpr behind)))⟩

/-- The same write to the first SSD, with a zeroed buffer: the byte behind the data is
lost. -/
theorem partial_write_clobbers_ssd :
    ¬ PatchesBlock (fun _ => 0) (fun _ _ => 1) ⟨2, 512, 100, 100, fun _ => 2⟩ := by
  rintro ⟨next, done, block, _⟩
  have byte := block 200 (by decide)
  have image : userfsWrite (fun _ => 0) (fun _ _ => 1) ⟨2, 512, 100, 100, fun _ => 2⟩ =
      .ok _ := rfl
  rw [← Except.ok.inj (image.symm.trans done)] at byte
  revert byte
  decide

end Userfs.Io
