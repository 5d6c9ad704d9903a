import Userfs.Io.PartialWrite
import Userfs.Filesystem.LogTruth
import Userfs.Filesystem.SmallOverwrite

namespace Userfs.Filesystem

open Ds
open Io
open SearchTree
open Word

/-!
# Filling a partial last block

When a file does not end at a block boundary, an append that stays inside the last block
is to be written right behind the last byte.  `unaligned_smallwrite` looks up the extent
at the start of that block and computes the device block from the distance between the
two.  It takes the difference the wrong way round, so the block number moves backwards
as the start of the extent moves backwards.  The result is right exactly for an extent
that begins at the last block boundary.
-/

/-- The extents of a file follow one another, cover it up to its size and lie on their
devices. -/
structure Tiled (tree : BinaryTree Block) (size : Nat) : Prop where
  formed : WellFormed tree
  covered : forall offset, (Exists fun block => block ∈ inorder tree ∧ block.Covers offset) <->
    offset < size
  onDevice : forall block, block ∈ inorder tree -> block.addr * 4096 + block.size ≤ devSize block.devid

/-- What an append behind the last extent must do: one write goes to the device address
behind the last byte, the bytes are there afterwards, and the extent covers them. -/
structure FillsBehind (store next : Store) (ip : Nat) (buf : Nat -> UInt8) (count : Nat)
    (last : Block) : Prop where
  written : Exists fun new => Exists fun bh => next.events = store.events ++ new ∧
    .write ip (store.inode ip).size bh ∈ new ∧ bh.dev = last.devid ∧
    bh.address = last.addr * 4096 + ((store.inode ip).size - last.fileoff) ∧ bh.size = count ∧
    forall index, index < count -> bh.data index = buf index
  stored : forall index, index < count ->
    next.disk last.devid (last.addr * 4096 + ((store.inode ip).size - last.fileoff) + index) =
      buf index
  covers : { last with size := last.size + count } ∈ inorder (next.inode ip).blktree

section Device

theorem devSize_blocks (dev : Nat) : devSize dev % 4096 = 0 := by
  unfold devSize
  split <;> decide

/-- A transfer inside a block of a device puts its bytes there, also when the engine
sends the whole block. -/
theorem userfsWrite_inBlock {fresh : Nat -> UInt8} {disk : Disk} {bh : BufferHead}
    (positive : 0 < bh.size) (inBlock : bh.offset + bh.size ≤ 4096)
    (fits : shl64 bh.blocknr 12 + 4096 ≤ devSize bh.dev) :
    Exists fun next => userfsWrite fresh disk bh = .ok next ∧
      forall index, index < bh.size -> next bh.dev (bh.address + index) = bh.data index := by
  refine ⟨_, userfsWrite_eq_writtenBlock positive inBlock fits, fun index bound => ?_⟩
  unfold BufferHead.address
  rw [Disk.update, if_pos rfl, Memory.copy_inside _ _ (by omega) (by omega), Nat.add_assoc,
    Nat.add_sub_cancel_left, writtenBlock, if_pos (by omega), Nat.add_sub_cancel_left]

end Device

section Transfer

variable {store : Store} {ip off append : Nat} {bh : BufferHead} {move : Inode -> Inode}

/-- The log takes one more record. -/
def LogAccepts (log : Log) : Prop :=
  forall entry, Ensures (appendEntryLog entry) log (fun _ _ => True) (fun _ _ => False)

theorem Layout.accepts {log : Log} (layout : Layout log) : LogAccepts log :=
  fun entry => (ensures_appendEntryLog layout entry).mono (fun _ _ _ => trivial)
    (fun _ _ impossible => impossible)

/-- What a recorded transfer leaves on the devices, in the inodes and as events. -/
theorem ensures_transferRecorded_accepted (accepts : LogAccepts store.log) :
    Ensures (transferRecorded ip move off bh append) store
      (fun _ next => userfsWrite store.environment.fresh store.disk bh = .ok next.disk ∧
        next.inode = Function.update store.inode ip
          ((move (store.inode ip)).noteAppend bh.dev append) ∧
        Exists fun extent => next.events = store.events ++ [.write ip off bh, .logged ip extent])
      (fun fault _ => userfsWrite store.environment.fresh store.disk bh = .error fault) := by
  simp only [transferRecorded, Ensures.bind_iff, ensures_modifyInode, ensures_submitWrite]
  rw [show (store.updateInode ip move).environment.fresh = store.environment.fresh from rfl,
    show (store.updateInode ip move).disk = store.disk from rfl]
  cases outcome : userfsWrite store.environment.fresh store.disk bh with
  | ok disk =>
      simp only [ensures_appendFsextent]
      refine (accepts _).mono ?_ (fun _ _ impossible => impossible.elim)
      intro _ log _
      exact ⟨rfl, by simp [Store.updateInode, Store.issued],
        ⟨_, by simp only [Store.issued, List.append_assoc]; rfl⟩⟩
  | error fault => rfl

end Transfer

section Extent

variable {tree : BinaryTree Block} {size : Nat} {last : Block}

/-- An extent of a tiled file is short enough for exact arithmetic. -/
theorem Tiled.small (tiled : Tiled tree size) (member : last ∈ inorder tree) :
    last.addr * 4096 + last.size < 2 ^ 48 ∧ low 8 last.devid = last.devid ∧
      (gBdev (low 8 last.devid)).isSome = true := by
  have room := tiled.onDevice last member
  have nonempty := tiled.formed.separated.nonempty last member
  have bound := devSize_lt last.devid
  have positive : 0 < last.size := by
    change last.fileoff < last.fileoff + last.size at nonempty
    omega
  have device : last.devid < 5 := by
    apply Nat.lt_of_not_le
    intro large
    have none : devSize last.devid = 0 := by
      unfold devSize
      split <;> omega
    omega
  have narrow : low 8 last.devid = last.devid := low_of_lt (by omega)
  refine ⟨by omega, narrow, ?_⟩
  rw [narrow]
  exact gBdev_isSome (by omega)

/-- The extent with the last byte ends at the size. -/
theorem Tiled.ends (tiled : Tiled tree size) (member : last ∈ inorder tree)
    (holds : last.Covers (size - 1)) (positive : 0 < size) : last.fileoff + last.size = size := by
  have lower : last.fileoff ≤ size - 1 := holds.1
  have upper : size - 1 < last.fileoff + last.size := holds.2
  have inside := (tiled.covered (last.fileoff + last.size - 1)).mp
    ⟨last, member, by omega, by
      change _ < last.fileoff + last.size
      omega⟩
  omega

/-- The target of the append is the byte behind the extent only when the extent begins
at the last block boundary. -/
theorem appendTarget_right {block : Block} (small : block.addr * 4096 + block.size < 2 ^ 48)
    (ends : block.fileoff + block.size = size) (start : block.fileoff ≤ blockFloor size)
    (right : shl64 (appendTarget block size) 12 + (size - blockFloor size) =
      block.addr * 4096 + (size - block.fileoff)) :
    block.fileoff = blockFloor size := by
  unfold appendTarget add64 sub64 shl64 low at right
  have floor : blockFloor size % 4096 = 0 := by
    unfold blockFloor
    omega
  have near : blockFloor size ≤ size := by
    unfold blockFloor
    omega
  omega

theorem appendTarget_boundary {block : Block} (small : block.addr * 4096 + block.size < 2 ^ 48)
    (start : block.fileoff = blockFloor size) :
    shl64 (appendTarget block size) 12 = block.addr * 4096 := by
  unfold appendTarget add64 sub64 shl64 low
  rw [start]
  omega

end Extent

section Append

variable {store : Store} {ip count : Nat} {buf : Nat -> UInt8} {block : Block}

/-- The transfer that fills the last block, by the extent found at its start. -/
def fillHead (block : Block) (size count : Nat) (buf : Nat -> UInt8) : BufferHead :=
  ⟨low 8 block.devid, appendTarget block size, count, size - blockFloor size, buf⟩

/-- Everything an append inside the last block can do. -/
theorem ensures_unalignedAppend_completed (accepts : LogAccepts store.log)
    (found : blockSearch (store.inode ip).blktree (blockFloor (store.inode ip).size) = some block)
    (present : (gBdev (low 8 block.devid)).isSome = true) :
    Ensures (unalignedSmallwrite ip buf (store.inode ip).size count) store
      (fun written next => written = count ∧
        userfsWrite store.environment.fresh store.disk
          (fillHead block (store.inode ip).size count buf) = .ok next.disk ∧
        (next.inode ip).blktree = blockModify (store.inode ip).blktree
          (blockFloor (store.inode ip).size)
          (fun block => { block with size := add64 block.size count }) ∧
        Exists fun extent => next.events = store.events ++
          [.write ip (store.inode ip).size (fillHead block (store.inode ip).size count buf),
            .logged ip extent])
      (fun fault _ => userfsWrite store.environment.fresh store.disk
        (fillHead block (store.inode ip).size count buf) = .error fault) := by
  rw [unalignedSmallwrite, Ensures.bind_iff, ensures_lookupBlock_found found]
  simp only [Ensures.bind_iff, ensures_readInode, ↓reduceIte, ensures_bhGetSyncIo present,
    ensures_modifyInode, Ensures.pure_iff]
  refine (ensures_transferRecorded_accepted accepts).mono ?_ (fun _ _ fault => fault)
  rintro _ middle ⟨disk, made, events⟩
  refine ⟨trivial, disk, ?_, events⟩
  rw [updateInode_inode_self, made, Function.update_self]
  unfold Inode.noteAppend
  split <;> rfl

/-- Appended bytes that stay inside the last block of a file are written right behind
its last byte, and its extent covers them, if and only if that extent begins at the last
block boundary. -/
theorem partial_block_filled_iff (accepts : LogAccepts store.log)
    (tiled : Tiled (store.inode ip).blktree (store.inode ip).size)
    (partly : (store.inode ip).size % 4096 ≠ 0) (positive : 0 < count)
    (inBlock : (store.inode ip).size % 4096 + count ≤ 4096) {last : Block}
    (member : last ∈ inorder (store.inode ip).blktree)
    (holds : last.Covers ((store.inode ip).size - 1)) :
    Ensures (unalignedSmallwrite ip buf (store.inode ip).size count) store
        (fun written next => written = count ∧ FillsBehind store next ip buf count last)
        (fun _ _ => False) <->
      last.fileoff = blockFloor (store.inode ip).size := by
  have floor : blockFloor (store.inode ip).size + (store.inode ip).size % 4096 =
      (store.inode ip).size := by
    unfold blockFloor
    omega
  have lastEnds := tiled.ends member holds (by omega)
  rcases (tiled.covered (blockFloor (store.inode ip).size)).mpr (by omega) with
    ⟨block, found, covers⟩
  have search := tiled.formed.blockSearch_eq_some.mpr ⟨found, covers⟩
  have lower : last.fileoff ≤ (store.inode ip).size - 1 := holds.1
  -- an extent that begins before the boundary is the one that the search finds
  have same : last.fileoff ≤ blockFloor (store.inode ip).size -> block = last := by
    intro before
    refine tiled.formed.separated.unique found member covers ⟨before, ?_⟩
    change _ < last.fileoff + last.size
    omega
  have smallBlock := tiled.small found
  have run := @ensures_unalignedAppend_completed store ip count buf block accepts search smallBlock.2.2
  have small := tiled.small member
  constructor
  · intro right
    refine ((run.and right).mono ?_ (fun _ _ fault => fault.2.elim)).const
    rintro _ next ⟨⟨_, _, _, extent, events⟩, _, fills⟩
    rcases fills.written with ⟨new, bh, eventsNew, written, _, address, _⟩
    rw [events] at eventsNew
    rw [← List.append_cancel_left eventsNew] at written
    have head : bh = fillHead block (store.inode ip).size count buf := by
      simp only [List.mem_cons, Event.write.injEq, true_and, reduceCtorEq, List.not_mem_nil,
        or_false] at written
      exact written
    rw [head] at address
    change shl64 (appendTarget block (store.inode ip).size) 12 +
      ((store.inode ip).size - blockFloor (store.inode ip).size) = _ at address
    have whole : shl64 (appendTarget block (store.inode ip).size) 12 % 4096 = 0 := by
      unfold shl64 low
      omega
    have before : last.fileoff ≤ blockFloor (store.inode ip).size := by
      have boundary : blockFloor (store.inode ip).size % 4096 = 0 := by
        unfold blockFloor
        omega
      omega
    rw [same before] at address
    exact appendTarget_right small.1 lastEnds before address
  · intro start
    have equal := same (Nat.le_of_eq start)
    subst equal
    have target := appendTarget_boundary small.1 start
    have room : block.addr * 4096 + 4096 ≤ devSize block.devid := by
      have onDevice := tiled.onDevice block found
      have blocks := devSize_blocks block.devid
      omega
    have address : (fillHead block (store.inode ip).size count buf).address =
        block.addr * 4096 + ((store.inode ip).size - block.fileoff) := by
      rw [start]
      exact congrArg (fun base => base + _) target
    have fits : shl64 (fillHead block (store.inode ip).size count buf).blocknr 12 + 4096 ≤
        devSize (fillHead block (store.inode ip).size count buf).dev := by
      change shl64 (appendTarget block (store.inode ip).size) 12 + 4096 ≤ devSize (low 8 block.devid)
      rw [target, small.2.1]
      exact room
    have inside : (fillHead block (store.inode ip).size count buf).offset + count ≤ 4096 := by
      change (store.inode ip).size - blockFloor (store.inode ip).size + count ≤ 4096
      omega
    rcases @userfsWrite_inBlock store.environment.fresh store.disk
      (fillHead block (store.inode ip).size count buf) positive inside fits with ⟨disk, wrote, bytes⟩
    refine run.mono ?_ (fun fault _ refused => ?_)
    · rintro written next ⟨returned, outcome, tree, extent, events⟩
      have equal : next.disk = disk := Except.ok.inj (outcome.symm.trans wrote)
      refine ⟨returned, ⟨_, _, events, List.mem_cons_self, small.2.1, address, rfl, fun _ _ => rfl⟩,
        ?_, ?_⟩
      · intro index bound
        have byte := bytes index bound
        rw [address] at byte
        change disk (low 8 block.devid) _ = _ at byte
        rw [small.2.1] at byte
        rw [equal]
        exact byte
      · rcases tiled.formed.blockModify_inorder search
          (fun block => { block with size := add64 block.size count }) with ⟨before, after, _, after_eq⟩
        have sum : add64 block.size count = block.size + count := add64_of_lt (by omega)
        rw [tree, after_eq, sum]
        exact List.mem_append_right _ List.mem_cons_self
    · cases wrote.symm.trans refused

end Append

/-- A session in which the first file has one extent on the NVM. -/
def singleStore (size : Nat) : Store :=
  freshStore.updateInode 0 (fun inode =>
    { inode with size := size, blktree := .node ⟨1, 0, size, 512⟩ .nil .nil })

theorem tiled_singleStore {size : Nat} (positive : 0 < size) (room : size ≤ chunkSize) :
    Tiled ((singleStore size).inode 0).blktree ((singleStore size).inode 0).size := by
  have tree : ((singleStore size).inode 0).blktree = .node ⟨1, 0, size, 512⟩ .nil .nil := rfl
  have length : ((singleStore size).inode 0).size = size := rfl
  have only : inorder (BinaryTree.node (Block.mk 1 0 size 512) .nil .nil) = [⟨1, 0, size, 512⟩] := rfl
  unfold chunkSize at room
  rw [tree, length]
  refine ⟨⟨⟨?_, ?_⟩, ?_⟩, ?_, ?_⟩ <;> rw [only]
  · intro block member
    rw [List.mem_singleton.mp member]
    change 0 < 0 + size
    omega
  · exact List.pairwise_singleton _ _
  · intro block member
    rw [List.mem_singleton.mp member]
    change 0 + size < 2 ^ 64
    omega
  · intro offset
    constructor
    · rintro ⟨block, member, covers⟩
      rw [List.mem_singleton.mp member] at covers
      have upper : offset < 0 + size := covers.2
      omega
    · intro inside
      refine ⟨_, List.mem_singleton_self _, Nat.zero_le _, ?_⟩
      change offset < 0 + size
      omega
  · intro block member
    rw [List.mem_singleton.mp member]
    change 512 * 4096 + size ≤ 107374182400
    omega

/-- A file of one hundred bytes grows by ten. -/
theorem partial_block_filled_hundred :
    Ensures (unalignedSmallwrite 0 (fun _ => 2) 100 10) (singleStore 100)
      (fun written next => written = 10 ∧
        FillsBehind (singleStore 100) next 0 (fun _ => 2) 10 ⟨1, 0, 100, 512⟩)
      (fun _ _ => False) :=
  (partial_block_filled_iff (layout_loginit _).accepts (tiled_singleStore (by decide) (by decide))
    (by decide) (by decide) (by decide) (List.mem_singleton_self _) (by decide)).mpr rfl

/-- A write of five thousand bytes leaves one extent, and the next ten bytes go to the
block before it. -/
theorem partial_block_missed :
    Ensures (userfsFileWrite snfsWrite ⟨0, 0, true, true⟩ (fun _ => 1) 5000) freshStore
        (fun _ store => (store.inode 0).blktree = ((singleStore 5000).inode 0).blktree ∧
          (store.inode 0).size = 5000) (fun _ _ => False) ∧
      Ensures (unalignedSmallwrite 0 (fun _ => 2) 5000 10) (singleStore 5000)
        (fun _ next => (issuedHeads next.events).map (fun bh => (bh.dev, bh.address)) =
            [(1, 511 * 4096 + 904)])
        (fun _ _ => False) ∧
      ¬ Ensures (unalignedSmallwrite 0 (fun _ => 2) 5000 10) (singleStore 5000)
        (fun written next => written = 10 ∧
          FillsBehind (singleStore 5000) next 0 (fun _ => 2) 10 ⟨1, 0, 5000, 512⟩)
        (fun _ _ => False) := by
  have sent : Ensures (unalignedSmallwrite 0 (fun _ => 2) 5000 10) (singleStore 5000)
      (fun _ next => (issuedHeads next.events).map (fun bh => (bh.dev, bh.address)) =
        [(1, 511 * 4096 + 904)]) (fun _ _ => False) := by
    decide +kernel
  refine ⟨by decide +kernel, sent, fun right => ?_⟩
  refine ((sent.and right).mono ?_ (fun _ _ fault => fault.1)).const
  rintro _ next ⟨heads, _, fills⟩
  rcases fills.written with ⟨new, bh, events, written, _, address, _⟩
  have issued : bh ∈ issuedHeads next.events := by
    rw [events]
    exact List.mem_filterMap.mpr ⟨_, List.mem_append_right _ written, rfl⟩
  have listed := List.mem_map_of_mem (f := fun bh => (bh.dev, bh.address)) issued
  rw [heads, List.mem_singleton, Prod.mk.injEq, address] at listed
  exact absurd listed.2 (by decide)

end Userfs.Filesystem
