import Userfs.Filesystem.Built

namespace Userfs.Filesystem

open Ds
open Io
open Word

/-!
# Overwrites inside a block

A request that lies inside one block of a file is a read-modify-write in the source: a
buffer of one block is allocated, a buffer head for the old block is set up, the new
bytes are copied over the buffer, and the buffer is written.  The read itself is never
issued.  The image that reaches the device therefore has the new bytes in their place
and whatever the allocator left in the buffer everywhere else, so the rest of the block
survives exactly when the buffer happens to hold it already.
-/

/-- The transfer an event issued. -/
def Event.issuedHead : Event -> Option BufferHead
  | .write _ _ bh => some bh
  | .alloc _ _ _ _ => none
  | .logged _ _ => none

/-- The device writes of a session, oldest first. -/
def issuedHeads (events : List Event) : List BufferHead :=
  events.filterMap Event.issuedHead

/-- Between two states one device write was issued, of a whole block with these bytes. -/
def IssuesBlock (store next : Store) (image : Nat -> Option UInt8) : Prop :=
  Exists fun bh => issuedHeads next.events = issuedHeads store.events ++ [bh] ∧ bh.size = 4096 ∧
    forall index, index < 4096 -> some (bh.data index) = image index

/-- The content of the block of an offset, with new bytes from that offset on. -/
def Store.patchedContent (store : Store) (ip : Nat) (buf : Nat -> UInt8) (off size : Nat) :
    Nat -> Option UInt8 :=
  Memory.copy (fun index => store.fileByte ip (blockFloor off + index)) (off % 4096)
    (fun index => some (buf index)) size

section Image

variable {store : Store} {ip off size : Nat} {buf : Nat -> UInt8}

theorem issuedHeads_append (past new : List Event) :
    issuedHeads (past ++ new) = issuedHeads past ++ issuedHeads new :=
  List.filterMap_append

/-- The allocation step issues no device write. -/
theorem issuedHeads_allocateIf (store : Store) (due : Inode -> Prop) [DecidablePred due] (ip : Nat)
    (cursor : Cursor) :
    issuedHeads (store.allocateIf due ip cursor).events = issuedHeads store.events := by
  by_cases isDue : due (store.inode ip)
  · rw [allocateIf_pos cursor isDue, allocateChunk_events, issuedHeads_append]
    exact List.append_nil _
  · rw [allocateIf_neg cursor isDue]

theorem allocateIf_environment (store : Store) (due : Inode -> Prop) [DecidablePred due] (ip : Nat)
    (cursor : Cursor) : (store.allocateIf due ip cursor).environment = store.environment := by
  by_cases isDue : due (store.inode ip)
  · rw [allocateIf_pos cursor isDue]
    rfl
  · rw [allocateIf_neg cursor isDue]

theorem allocateIf_log (store : Store) (due : Inode -> Prop) [DecidablePred due] (ip : Nat)
    (cursor : Cursor) : (store.allocateIf due ip cursor).log = store.log := by
  by_cases isDue : due (store.inode ip)
  · rw [allocateIf_pos cursor isDue]
    rfl
  · rw [allocateIf_neg cursor isDue]

theorem ensures_lookupBlock_found {block : Block} {done : Option Block × Nat -> Store -> Prop}
    {failed : Fault -> Store -> Prop}
    (found : blockSearch (store.inode ip).blktree off = some block) :
    Ensures (lookupBlock ip off) store done failed <-> done (some block, off) store := by
  simp only [lookupBlock, Ensures.bind_iff, ensures_readInode, found, Ensures.pure_iff]

/-- The transfer step of a small overwrite issues the block it is given. -/
theorem ensures_overwriteBlock (layout : Layout store.log) (image : Nat -> UInt8) :
    Ensures (overwriteAtCursor ip 1 off 4096 4096 image)
      (store.allocateIf Inode.SmallOverwriteDue ip .overwrite)
      (fun _ next => IssuesBlock store next (fun index => some (image index)))
      (fun _ next => IssuesBlock store next (fun index => some (image index))) := by
  have ready : Layout (store.allocateIf Inode.SmallOverwriteDue ip .overwrite).log := by
    rw [allocateIf_log]
    exact layout
  have before := issuedHeads_allocateIf store Inode.SmallOverwriteDue ip .overwrite
  have sent : forall {next : Store} {new : List Event},
      issuedHeads new = [((store.allocateIf Inode.SmallOverwriteDue ip .overwrite).inode ip).overwriteHead
        1 4096 image] ->
      next.events = (store.allocateIf Inode.SmallOverwriteDue ip .overwrite).events ++ new ->
      IssuesBlock store next (fun index => some (image index)) := by
    intro next new one events
    refine ⟨((store.allocateIf Inode.SmallOverwriteDue ip .overwrite).inode ip).overwriteHead
      1 4096 image, ?_, rfl, fun _ _ => rfl⟩
    rw [events, issuedHeads_append, before, one]
  refine (@ensures_overwriteAtCursor _ ip 0 off 4096 4096 image ready (by decide)
    (by decide)).mono ?_ ?_
  · intro _ next made
    rcases made.events with ⟨extent, events⟩
    exact sent rfl events
  · intro _ next stopped
    exact sent rfl stopped.events

/-- An aligned small overwrite of a block that the extent holds sends a whole block. -/
theorem Covering.smallReadsize {block : Block} (covering : Covering (store.inode ip) off block)
    (aligned : (store.inode ip).size % 4096 = 0) (start : off % 4096 = 0)
    (below : off < (store.inode ip).size) :
    Filesystem.smallReadsize block off = 4096 := by
  have limit := covering.limit
  have word := covering.word
  have total : add64 block.fileoff block.size = block.fileoff + block.size := low_of_lt word
  have rest : off + 4096 ≤ block.fileoff + block.size ∧
      block.fileoff + block.size ≤ off + chunkSize := by
    rw [limit]
    unfold chunkSize
    omega
  have readsize : low 32 (sub64 (add64 block.fileoff block.size) off) =
      block.fileoff + block.size - off := by
    rw [total]
    unfold sub64 low
    unfold chunkSize at rest
    omega
  unfold Filesystem.smallReadsize
  simp only [readsize]
  exact if_pos (by omega)

/-- A request inside one block passes the check for a straddled block. -/
theorem not_straddling (inBlock : off % 4096 + size ≤ 4096) :
    ¬ (blockFloor off < off ∧ 4096 < low 32 (size + off - blockFloor off)) := by
  have narrow : low 32 (size + off - blockFloor off) ≤ size + off - blockFloor off :=
    Nat.mod_le _ _
  unfold blockFloor at *
  omega

theorem sub_blockFloor (off : Nat) : off - blockFloor off = off % 4096 := by
  unfold blockFloor
  omega

/-- A block that starts below the end of a file of whole blocks ends before the extent. -/
theorem Covering.room {block : Block} (covering : Covering (store.inode ip) off block)
    (aligned : (store.inode ip).size % 4096 = 0) (start : off % 4096 = 0)
    (below : off < (store.inode ip).size) (short : size < 4096) :
    off + size < add64 block.fileoff block.size := by
  rw [add64, low_of_lt covering.word, covering.limit]
  clear covering
  unfold chunkSize
  omega

end Image

section Files

variable {files : List Nat} {calls : List AppendCall} {store : Store} {ip off size : Nat}
  {buf : Nat -> UInt8}

/-- What every overwrite inside a block sends: the new bytes over the fresh buffer. -/
theorem Built.ensures_smallOverwrite (built : Built files calls store) (member : ip ∈ files)
    (short : size < 4096) (inBlock : off % 4096 + size ≤ 4096)
    (below : off < (store.inode ip).size) :
    Ensures (snfsWrite ip buf off size) store
      (fun written next => written = size ∧ IssuesBlock store next (fun index =>
        some (patchedBlock store.environment.fresh buf (off % 4096) size index)))
      (fun _ next => IssuesBlock store next (fun index =>
        some (patchedBlock store.environment.fresh buf (off % 4096) size index))) := by
  have layout := built.filed.all.sound.layout
  have aligned := built.aligned member
  simp only [snfsWrite, if_neg (not_straddling inBlock)]
  by_cases inside : blockFloor off < off
  · -- unaligned_smallwrite looks the block up under its start
    rw [if_pos inside, Ensures.bind_iff, unalignedSmallwrite, Ensures.bind_iff]
    have floorBelow : blockFloor off < (store.inode ip).size := Nat.lt_trans inside below
    rcases built.covering member floorBelow with ⟨block, covering⟩
    rcases covering.device with ⟨devid, device, equal⟩
    rw [ensures_lookupBlock_found covering.found]
    simp only [Ensures.bind_iff, ensures_readInode, if_neg (Nat.ne_of_lt below), if_pos below,
      ensures_allocateWhen, Ensures.get_iff, Ensures.pure_iff, equal,
      ensures_bhGetSyncIo (gBdev_devid device).2, sub_blockFloor, allocateIf_environment]
    refine (ensures_overwriteBlock layout _).mono ?_ (fun _ _ issued => issued)
    exact fun _ _ issued => ⟨trivial, issued⟩
  · rw [if_neg inside, if_pos short, Ensures.bind_iff, alignedSmallwrite]
    have start : off % 4096 = 0 := by
      rw [← sub_blockFloor]
      exact Nat.sub_eq_zero_of_le (Nat.le_of_not_lt inside)
    rcases built.covering member below with ⟨block, covering⟩
    rcases covering.device with ⟨devid, device, equal⟩
    -- the extent ends at a block boundary, so the request is never dropped
    have room := covering.room aligned start below short
    simp only [Ensures.bind_iff, ensures_readInode, if_pos below,
      ensures_lookupBlock_found covering.found, if_pos room, equal,
      ensures_bhGetSyncIo (gBdev_devid device).2, Ensures.get_iff, ensures_allocateWhen,
      Ensures.pure_iff, covering.smallReadsize aligned start below, start]
    refine (ensures_overwriteBlock layout _).mono ?_ (fun _ _ issued => issued)
    exact fun _ _ issued => ⟨trivial, issued⟩

/-- One device write has one image. -/
theorem IssuesBlock.image_eq {next : Store} {image other : Nat -> Option UInt8}
    (issued : IssuesBlock store next image) (again : IssuesBlock store next other) {index : Nat}
    (bound : index < 4096) : image index = other index := by
  rcases issued with ⟨bh, events, _, bytes⟩
  rcases again with ⟨second, eventsAgain, _, bytesAgain⟩
  have same : bh = second :=
    List.singleton_inj.mp (List.append_cancel_left (events.symm.trans eventsAgain))
  rw [← bytes index bound, ← bytesAgain index bound, same]

/-- If the image sent is the patched block, the fresh buffer held the rest of the block. -/
theorem Built.fresh_of_patched (built : Built files calls store) (member : ip ∈ files)
    (short : size < 4096) (inBlock : off % 4096 + size ≤ 4096)
    (below : off < (store.inode ip).size)
    (right : Ensures (snfsWrite ip buf off size) store
      (fun written next => written = size ∧
        IssuesBlock store next (store.patchedContent ip buf off size))
      (fun _ next => IssuesBlock store next (store.patchedContent ip buf off size)))
    {index : Nat} (bound : index < 4096) (outside : index < off % 4096 ∨ off % 4096 + size ≤ index) :
    store.fileByte ip (blockFloor off + index) = some (store.environment.fresh index) := by
  have sent := @Built.ensures_smallOverwrite files calls store ip off size buf built member
    short inBlock below
  have both := sent.and right
  have same := (both.mono (fun _ _ result => result.1.2.image_eq result.2.2 bound)
    (fun _ _ result => result.1.image_eq result.2 bound)).const
  simp only [patchedBlock, Store.patchedContent, Memory.copy_outside _ _ outside] at same
  exact same.symm

/-- A write inside a block below the end of a file built by appends issues one device
write, and its image is the block's content with the new bytes laid over it if and only
if the freshly allocated buffer already holds the rest of the block. -/
theorem small_overwrite_keeps_block_iff (built : Built files calls store) (member : ip ∈ files)
    (short : size < 4096) (inBlock : off % 4096 + size ≤ 4096)
    (below : off < (store.inode ip).size) :
    Ensures (snfsWrite ip buf off size) store
        (fun written next => written = size ∧
          IssuesBlock store next (store.patchedContent ip buf off size))
        (fun _ next => IssuesBlock store next (store.patchedContent ip buf off size)) <->
      forall index, index < 4096 -> index < off % 4096 ∨ off % 4096 + size ≤ index ->
        store.fileByte ip (blockFloor off + index) = some (store.environment.fresh index) := by
  constructor
  · intro right index bound outside
    exact built.fresh_of_patched member short inBlock below right bound outside
  · intro holds
    have sent := @Built.ensures_smallOverwrite files calls store ip off size buf built member
      short inBlock below
    have image : forall next, IssuesBlock store next (fun index =>
        some (patchedBlock store.environment.fresh buf (off % 4096) size index)) ->
        IssuesBlock store next (store.patchedContent ip buf off size) := by
      rintro next ⟨bh, events, whole, bytes⟩
      refine ⟨bh, events, whole, fun index bound => (bytes index bound).trans ?_⟩
      simp only [patchedBlock, Store.patchedContent]
      by_cases new : off % 4096 ≤ index ∧ index < off % 4096 + size
      · rw [Memory.copy_inside _ _ new.1 new.2, Memory.copy_inside _ _ new.1 new.2]
      · have outside : index < off % 4096 ∨ off % 4096 + size ≤ index := by omega
        rw [Memory.copy_outside _ _ outside, Memory.copy_outside _ _ outside]
        exact (holds index bound outside).symm
    exact sent.mono (fun _ next result => ⟨result.1, image next result.2⟩)
      (fun _ next issued => image next issued)

end Files

/-- The second byte of the block is overwritten. -/
theorem small_overwrite_keeps_block_ones :
    Exists fun store => Built [0] [onesCall] store ∧
      (Ensures (snfsWrite 0 (fun _ => 2) 1 1) store
          (fun written next => written = 1 ∧
            IssuesBlock store next (store.patchedContent 0 (fun _ => 2) 1 1))
          (fun _ next => IssuesBlock store next (store.patchedContent 0 (fun _ => 2) 1 1)) <->
        forall index, index < 4096 -> index < 1 ∨ 2 ≤ index ->
          store.fileByte 0 (0 + index) = some (store.environment.fresh index)) := by
  have ⟨store, built, below⟩ := @exists_built [onesCall] (fun store => 1 < (store.inode 0).size)
    admissible_onesCall (by decide +kernel)
  exact ⟨store, built, small_overwrite_keeps_block_iff built (List.mem_singleton_self 0) (by decide)
    (by decide) below⟩

/-- The first byte of the block was one and is sent as zero. -/
theorem small_overwrite_loses_block :
    Exists fun store => Built [0] [onesCall] store ∧
      ¬ Ensures (snfsWrite 0 (fun _ => 2) 1 1) store
        (fun written next => written = 1 ∧
          IssuesBlock store next (store.patchedContent 0 (fun _ => 2) 1 1))
        (fun _ next => IssuesBlock store next (store.patchedContent 0 (fun _ => 2) 1 1)) := by
  have ⟨store, built, content, zeroed, below⟩ := @exists_built [onesCall]
    (fun store => store.fileByte 0 0 = some 1 ∧ store.environment.fresh 0 = 0 ∧
      1 < (store.inode 0).size)
    admissible_onesCall (by decide +kernel)
  refine ⟨store, built, fun right => ?_⟩
  have same := @Built.fresh_of_patched _ _ _ _ _ _ _ built (List.mem_singleton_self 0) (by decide)
    (by decide) below right 0 (by decide) (by decide)
  change store.fileByte 0 0 = _ at same
  rw [content, zeroed] at same
  cases same

end Userfs.Filesystem
