import Userfs.Filesystem.Bmap
import Userfs.Filesystem.Space

namespace Userfs.Filesystem

open Ds
open Io
open Word

/-!
# Write pieces

`snfs_write` receives a piece of a file write that lies in one 4 KiB block or
consists of whole blocks of one 2 MB chunk, and places it on a device.  There are
three ways, by alignment and size.  Each appends at the cursor `ssdoff` or
redirects an overwrite to the cursor `rwoff`, writes the device, appends a
`FILE_WRITE` record to the log, and, for appends only, enters the extent in the
block tree.  This is the build without `CONCURRENT`.
-/

/-! ## Steps shared by the write paths -/

/-- `bh_get_sync_IO`, with the fields the callers then set.  The device number is
one byte wide, and its entry in `g_bdev` is dereferenced. -/
def bhGetSyncIo (dev blocknr size : Nat) (data : Nat -> UInt8) (offset : Nat) : Fs BufferHead :=
  if (gBdev (low 8 dev)).isSome then pure ⟨low 8 dev, blocknr, size, offset, data⟩
  else throw .segfault

/-- `userfs_write` of a buffer head that holds file data from `off` on. -/
def submitWrite (ip off : Nat) (bh : BufferHead) : Fs PUnit := do
  observe (.write ip off bh)
  let store ← get
  match userfsWrite store.environment.fresh store.disk bh with
  | .ok disk => modify (fun store => { store with disk := disk })
  | .error fault => throw fault

/-- The record that `append_fsextent` builds.  The start address is computed
from the block number and the file offset; `b_offset` is not used. -/
def fsextentOf (inode : Inode) (clock off : Nat) (bh : BufferHead) (append : Nat) : FsExtent where
  ino := inode.inum
  entryType := 1
  deviceId := low 8 (bh.dev + 255)
  blkoffHi := if append = 1 ∧ 0 < bh.dev then low 8 (inode.ssdoff / 2 ^ 32) else 0
  isappend := 1
  mtime := low 32 clock
  extBlock := low 32 (off / 4096)
  extLen := low 16 (low 32 (bh.size + 4095) / 4096)
  extStartHi := low 16 (shl64 bh.blocknr 12 / 2 ^ 32)
  extStartLo := low 32 (low 32 (shl64 bh.blocknr 12) + off % 4096)
  size := bh.size
  blkoffLo := if append = 1 ∧ 0 < bh.dev then low 32 inode.ssdoff else 0

/-- An append on the NVM sets `nvmoff` to the cursor. -/
def Inode.noteAppend (inode : Inode) (dev append : Nat) : Inode :=
  if append = 1 ∧ dev = 1 then { inode with nvmoff := inode.ssdoff } else inode

/-- `append_fsextent`. -/
def appendFsextent (ip off : Nat) (bh : BufferHead) (append : Nat) : Fs PUnit := do
  modifyInode ip (fun inode => inode.noteAppend bh.dev append)
  let inode ← readInode ip
  let store ← get
  let extent := fsextentOf inode store.environment.clock off bh append
  onLog (appendEntryLog extent.entry)
  observe (.logged ip extent)

/-- The middle part of every write path: move the cursor, write the device and
append the record. -/
def transferRecorded (ip : Nat) (move : Inode -> Inode) (off : Nat) (bh : BufferHead)
    (append : Nat) : Fs PUnit := do
  modifyInode ip move
  submitWrite ip off bh
  appendFsextent ip off bh append

/-- The tree part of `insert_blktree`: an extent that already contains the
offset is overwritten in place, otherwise a new one is inserted. -/
def enterBlock (rb : SearchTree.Rebalancing Block) (tree : BinaryTree Block) (block : Block) :
    BinaryTree Block :=
  match blockSearch tree block.fileoff with
  | none => (blockInsert rb tree block).1
  | some _ => blockModify tree block.fileoff (fun _ => block)

/-- `insert_blktree`. -/
def insertBlktree (ip devid addr off size : Nat) : Fs PUnit :=
  modify (fun store => store.updateInode ip (fun inode =>
    { inode with
      blktree := enterBlock store.environment.rebalancing inode.blktree
        ⟨low 8 devid, off, size, addr / 4096⟩ }))

/-- `off` rounded down to the block. -/
def blockFloor (off : Nat) : Nat :=
  off / 4096 * 4096

/-- `ALIGN` to the block size. -/
def blockCeil (off : Nat) : Nat :=
  (off + 4095) / 4096 * 4096

/-- The block of the tree that holds an offset, fetched from the kernel's tree
if necessary, and the offset it was found under. -/
def lookupBlock (ip off : Nat) : Fs (Option Block × Nat) := do
  let inode ← readInode ip
  match blockSearch inode.blktree off with
  | some block => pure (some block, off)
  | none => do
      let (_, request) ← bmap ip ⟨off, 0, 0, 0⟩
      let inode ← readInode ip
      pure (blockSearch inode.blktree request.startOffset, request.startOffset)

/-- The checks and the transfer of an append at the cursor `ssdoff`. -/
def appendAtCursor (ip off size : Nat) (data : Nat -> UInt8) : Fs PUnit := do
  let inode ← readInode ip
  let bh ← bhGetSyncIo (inode.devid + 1) (inode.ssdoff / 4096) size data 0
  transferRecorded ip (fun inode => { inode with ssdoff := inode.ssdoff + size }) off bh 1
  insertBlktree ip (inode.devid + 1) inode.ssdoff off size

/-- The comparison of the cursor with the file offset inside the 2 MB chunk. -/
def checkWriteAddr (ip off : Nat) : Fs PUnit := do
  let inode ← readInode ip
  if inode.ssdoff % chunkSize ≠ off % chunkSize then throw (.panic "write addr error\n")
  else pure PUnit.unit

/-- The transfer of an overwrite at the cursor `rwoff` to a given device. -/
def overwriteAtCursor (ip dev off size advance : Nat) (data : Nat -> UInt8) : Fs PUnit := do
  let inode ← readInode ip
  let bh ← bhGetSyncIo dev (inode.rwoff / 4096) size data 0
  transferRecorded ip (fun inode => { inode with rwoff := inode.rwoff + advance }) off bh 0

/-! ## The three write paths -/

/-- The image an unaligned overwrite sends: the old block is never read, so
the bytes around the new data are those of the fresh buffer. -/
def patchedBlock (fresh buf : Nat -> UInt8) (start size : Nat) : Nat -> UInt8 :=
  Memory.copy fresh start buf size

/-- `unaligned_smallwrite`. -/
def unalignedSmallwrite (ip : Nat) (buf : Nat -> UInt8) (off size : Nat) : Fs Nat := do
  let offAligned := blockFloor off
  let (found, searched) ← lookupBlock ip offAligned
  match found with
  | none => throw (.panic "unaligned_smallwrite bug!!")
  | some block => do
      let inode ← readInode ip
      if off = inode.size then do
        let bh ← bhGetSyncIo block.devid
          (add64 block.addr (sub64 block.fileoff offAligned / 4096)) size buf (off - offAligned)
        transferRecorded ip (fun inode => { inode with ssdoff := inode.ssdoff + size }) off bh 1
        modifyInode ip (fun inode => { inode with
          blktree := blockModify inode.blktree searched
            (fun block => { block with size := add64 block.size size }) })
        pure size
      else if off < inode.size then do
        allocateWhen Inode.SmallOverwriteDue ip .overwrite
        let store ← get
        let _ ← bhGetSyncIo block.devid 0 4096 buf 0
        overwriteAtCursor ip 1 off 4096 4096
          (patchedBlock store.environment.fresh buf (off - offAligned) size)
        pure size
      else throw (.panic "write not supported\n")

/-- The byte count an aligned small overwrite sends: what the extent holds
from `off` on, or a whole block.  The comparison is with the block shift. -/
def smallReadsize (block : Block) (off : Nat) : Nat :=
  let readsize := low 32 (sub64 (add64 block.fileoff block.size) off)
  if 12 ≤ readsize then 4096 else readsize

/-- `aligned_smallwrite`.  An overwrite that reaches the end of its extent is
not carried out; a missing extent is dereferenced. -/
def alignedSmallwrite (ip : Nat) (buf : Nat -> UInt8) (off size : Nat) : Fs Nat := do
  let inode ← readInode ip
  if off < inode.size then do
    let (found, _) ← lookupBlock ip off
    match found with
    | none => throw .segfault
    | some block =>
        if off + size < add64 block.fileoff block.size then do
          let _ ← bhGetSyncIo block.devid 0 4096 buf 0
          let store ← get
          allocateWhen Inode.SmallOverwriteDue ip .overwrite
          overwriteAtCursor ip 1 off (smallReadsize block off) 4096
            (patchedBlock store.environment.fresh buf 0 size)
          pure size
        else pure size
  else do
    allocateWhen Inode.AppendDue ip .append
    let inode ← readInode ip
    if inode.devid ≠ 0 then checkWriteAddr ip off else pure PUnit.unit
    appendAtCursor ip off size buf
    pure size

/-- The append branch of `aligned_write`, also its second half when a piece
straddles the end of the file.  The address check uses the start of the whole
piece. -/
def alignedAppend (ip pieceOff off size : Nat) (data : Nat -> UInt8) : Fs PUnit := do
  allocateWhen Inode.AppendDue ip .append
  checkWriteAddr ip pieceOff
  appendAtCursor ip off size data

/-- `aligned_write`.  A piece behind the end of the file is not written.  The
in-place part of a straddling piece goes to device 1 whatever device the
overwrite chunk was allocated on; no overwrite enters the block tree. -/
def alignedWrite (ip : Nat) (buf : Nat -> UInt8) (off size : Nat) : Fs Nat := do
  let inode ← readInode ip
  if off = inode.size then do
    alignedAppend ip off off size buf
    pure size
  else if off < inode.size then
    if blockCeil inode.size < blockCeil (off + size) then do
      let inplace := low 32 (blockCeil inode.size - off)
      allocateWhen (fun inode => inode.OverwriteDue inplace) ip .overwrite
      overwriteAtCursor ip 1 off inplace inplace buf
      alignedAppend ip off (off + inplace) (size - inplace) (fun index => buf (inplace + index))
      pure size
    else do
      allocateWhen (fun inode => inode.OverwriteDue size) ip .overwrite
      let inode ← readInode ip
      overwriteAtCursor ip (inode.devid + 1) off size size buf
      pure size
  else pure size

/-- `snfs_write`: a piece that starts inside a block must end in it. -/
def snfsWrite (ip : Nat) (buf : Nat -> UInt8) (off size : Nat) : Fs Int := do
  if blockFloor off < off ∧ 4096 < low 32 (size + off - blockFloor off) then
    throw (.panic "write exist bug\n")
  else if blockFloor off < off then do
    let written ← unalignedSmallwrite ip buf off size
    pure written
  else if size < 4096 then do
    let written ← alignedSmallwrite ip buf off size
    pure written
  else do
    let written ← alignedWrite ip buf off size
    pure written

/-! ## Rules for the shared steps -/

section Rules

variable {store : Store} {failed : Fault -> Store -> Prop}

/-- The store after a write was issued. -/
def Store.issued (store : Store) (ip off : Nat) (bh : BufferHead) : Store :=
  { store with events := store.events ++ [.write ip off bh] }

theorem ensures_bhGetSyncIo {dev blocknr size offset : Nat} {data : Nat -> UInt8}
    {done : BufferHead -> Store -> Prop} (present : (gBdev (low 8 dev)).isSome = true) :
    Ensures (bhGetSyncIo dev blocknr size data offset) store done failed <->
      done ⟨low 8 dev, blocknr, size, offset, data⟩ store := by
  unfold bhGetSyncIo
  rw [if_pos present, Ensures.pure_iff]

theorem consulted_lookupBlock (ip off : Nat) : Follows (Consulted ip) (lookupBlock ip off) := by
  refine Follows.bind (consulted_readInode ip) (fun inode => ?_)
  cases blockSearch inode.blktree off with
  | some block => exact Follows.pure _
  | none =>
      refine Follows.bind (consulted_bmap ip _) (fun request => ?_)
      exact Follows.bind (consulted_readInode ip) (fun inode => Follows.pure _)

theorem looked_lookupBlock (ip off : Nat) : Follows Looked (lookupBlock ip off) :=
  fun store => (consulted_lookupBlock ip off store).mono (fun _ _ consulted => consulted.looked)
    (fun _ _ consulted => consulted.looked)

theorem ensures_submitWrite {ip off : Nat} {bh : BufferHead} {done : PUnit -> Store -> Prop} :
    Ensures (submitWrite ip off bh) store done failed <->
      match userfsWrite store.environment.fresh store.disk bh with
      | .ok disk => done PUnit.unit { store.issued ip off bh with disk := disk }
      | .error fault => failed fault (store.issued ip off bh) := by
  simp only [submitWrite, Ensures.bind_iff, ensures_observe, Ensures.get_iff]
  cases userfsWrite store.environment.fresh store.disk bh with
  | ok disk => exact Ensures.modify_iff
  | error fault => exact Ensures.throw_iff

/-- The record of a write made from the inode as it stands. -/
def Store.extentFor (store : Store) (ip off : Nat) (bh : BufferHead) (append : Nat) : FsExtent :=
  fsextentOf (store.inode ip) store.environment.clock off bh append

theorem fsextentOf_noteAppend (inode : Inode) (clock off : Nat) (bh : BufferHead) (append : Nat) :
    fsextentOf (inode.noteAppend bh.dev append) clock off bh append =
      fsextentOf inode clock off bh append := by
  unfold Inode.noteAppend
  split <;> rfl

theorem ensures_appendFsextent {ip off append : Nat} {bh : BufferHead}
    {done : PUnit -> Store -> Prop} :
    Ensures (appendFsextent ip off bh append) store done failed <->
      Ensures (appendEntryLog (store.extentFor ip off bh append).entry) store.log
        (fun _ log => done PUnit.unit
          { store.updateInode ip (fun inode => inode.noteAppend bh.dev append) with
            log := log
            events := store.events ++ [.logged ip (store.extentFor ip off bh append)] })
        (fun fault log => failed fault
          { store.updateInode ip (fun inode => inode.noteAppend bh.dev append) with log := log }) := by
  simp only [appendFsextent, Ensures.bind_iff, ensures_modifyInode, ensures_readInode,
    Ensures.get_iff, ensures_onLog, ensures_observe, updateInode_inode_self,
    fsextentOf_noteAppend]
  rfl

/-- The transfer that an append makes from the inode as it stands. -/
def Inode.appendHead (inode : Inode) (size : Nat) (data : Nat -> UInt8) : BufferHead :=
  ⟨low 8 (inode.devid + 1), inode.ssdoff / 4096, size, 0, data⟩

/-- The inode after a completed append at the cursor. -/
def Inode.afterAppend (inode : Inode) (rb : SearchTree.Rebalancing Block) (off size : Nat) : Inode :=
  { Inode.noteAppend { inode with ssdoff := inode.ssdoff + size } (low 8 (inode.devid + 1)) 1 with
    blktree := enterBlock rb inode.blktree
      ⟨low 8 (inode.devid + 1), off, size, inode.ssdoff / 4096⟩ }

/-- A completed append changes the cursor and the tree only. -/
theorem Inode.afterAppend_fields (inode : Inode) (rb : SearchTree.Rebalancing Block)
    (off size : Nat) :
    (inode.afterAppend rb off size).size = inode.size ∧
      (inode.afterAppend rb off size).wrthdnum = inode.wrthdnum ∧
      (inode.afterAppend rb off size).devid = inode.devid ∧
      (inode.afterAppend rb off size).usednvms = inode.usednvms ∧
      (inode.afterAppend rb off size).ssdoff = inode.ssdoff + size := by
  unfold Inode.afterAppend Inode.noteAppend
  split <;> exact ⟨rfl, rfl, rfl, rfl, rfl⟩

/-- The transfer that an overwrite makes from the inode as it stands. -/
def Inode.overwriteHead (inode : Inode) (dev size : Nat) (data : Nat -> UInt8) : BufferHead :=
  ⟨low 8 dev, inode.rwoff / 4096, size, 0, data⟩

/-- A completed write that was recorded in a laid-out log, whatever it did to the
device: the new inode and the two events. -/
structure Completed (store next : Store) (ip off : Nat) (bh : BufferHead) (inode : Inode) :
    Prop where
  environment : next.environment = store.environment
  inode : next.inode = Function.update store.inode ip inode
  addrinfo : next.addrinfo = store.addrinfo
  nvmstartblock : next.nvmstartblock = store.nvmstartblock
  layout : Layout next.log
  events : Exists fun extent =>
    next.events = store.events ++ [.write ip off bh, .logged ip extent]

/-- Everything a transfer can do while the log is laid out, for any buffer head. -/
theorem ensures_transferRecorded_completed {ip off append : Nat} {bh : BufferHead}
    {move : Inode -> Inode} (layout : Layout store.log) :
    Ensures (transferRecorded ip move off bh append) store
      (fun _ next => Completed store next ip off bh
        ((move (store.inode ip)).noteAppend bh.dev append))
      (fun fault next => (Exists fun fresh => Exists fun disk =>
          userfsWrite fresh disk bh = .error fault) ∧
        next.events = store.events ++ [.write ip off bh]) := by
  simp only [transferRecorded, Ensures.bind_iff, ensures_modifyInode, ensures_submitWrite]
  split
  · simp only [ensures_appendFsextent]
    refine (ensures_appendEntryLog layout _).mono ?_ (fun _ _ impossible => impossible.elim)
    intro _ log appended
    exact {
      environment := rfl
      inode := by simp [Store.updateInode, Store.issued]
      addrinfo := rfl
      nvmstartblock := rfl
      layout := appended.layout
      events := ⟨_, by simp only [Store.issued, List.append_assoc]; rfl⟩ }
  · rename_i fault refused
    exact ⟨⟨_, _, refused⟩, rfl⟩

/-- A completed transfer that was recorded in a laid-out log: the new inode,
the device contents, and the two events. -/
structure Transferred (store next : Store) (ip off : Nat) (bh : BufferHead) (inode : Inode) :
    Prop where
  environment : next.environment = store.environment
  inode : next.inode = Function.update store.inode ip inode
  addrinfo : next.addrinfo = store.addrinfo
  nvmstartblock : next.nvmstartblock = store.nvmstartblock
  layout : Layout next.log
  disk : next.disk =
    store.disk.update bh.dev (Memory.copy (store.disk bh.dev) bh.address bh.data bh.size)
  events : Exists fun extent =>
    next.events = store.events ++ [.write ip off bh, .logged ip extent]
  fits : bh.address + bh.size ≤ devSize bh.dev

theorem Transferred.completed {next : Store} {ip off : Nat} {bh : BufferHead} {inode : Inode}
    (made : Transferred store next ip off bh inode) : Completed store next ip off bh inode :=
  ⟨made.environment, made.inode, made.addrinfo, made.nvmstartblock, made.layout, made.events⟩

theorem Transferred.apart {next : Store} {ip off : Nat} {bh : BufferHead} {inode : Inode}
    (made : Transferred store next ip off bh inode) : Apart ip store next := by
  rcases made.events with ⟨extent, events⟩
  refine ⟨?_, _, events, by simp [Event.inode]⟩
  intro other different
  rw [made.inode, Function.update_of_ne different]

/-- The process stopped at a transfer that ends behind its device. -/
structure Stopped (store : Store) (ip off : Nat) (bh : BufferHead) (fault : Fault) (next : Store) :
    Prop where
  fault : fault = .storage bh.dev
  events : next.events = store.events ++ [.write ip off bh]
  behind : devSize bh.dev < bh.address + bh.size

/-- Everything a block-aligned transfer can do while the log is laid out: it is
made and recorded, or it does not fit the device and the process stops. -/
theorem ensures_transferRecorded {ip off append : Nat} {bh : BufferHead} {move : Inode -> Inode}
    (layout : Layout store.log) (present : (gBdev bh.dev).isSome = true) (aligned : bh.offset = 0)
    (positive : 0 < bh.size) :
    Ensures (transferRecorded ip move off bh append) store
      (fun _ next => Transferred store next ip off bh
        ((move (store.inode ip)).noteAppend bh.dev append))
      (Stopped store ip off bh) := by
  simp only [transferRecorded, Ensures.bind_iff, ensures_modifyInode, ensures_submitWrite]
  rw [userfsWrite_eq_transfer aligned (Nat.pos_iff_ne_zero.mp positive) present]
  unfold transfer
  by_cases fits : bh.address + bh.size ≤ devSize bh.dev
  · rw [if_pos fits]
    simp only [ensures_appendFsextent]
    refine (ensures_appendEntryLog layout _).mono ?_ (fun _ _ impossible => impossible.elim)
    intro _ log appended
    exact {
      environment := rfl
      inode := by simp [Store.updateInode, Store.issued]
      addrinfo := rfl
      nvmstartblock := rfl
      layout := appended.layout
      disk := rfl
      events := ⟨_, by simp only [Store.issued, List.append_assoc]; rfl⟩
      fits := fits }
  · rw [if_neg fits]
    exact ⟨rfl, rfl, Nat.lt_of_not_le fits⟩

theorem gBdev_devid {devid : Nat} (device : devid < 4) :
    low 8 (devid + 1) = devid + 1 ∧ (gBdev (low 8 (devid + 1))).isSome = true := by
  have narrow : low 8 (devid + 1) = devid + 1 := low_of_lt (by omega)
  refine ⟨narrow, ?_⟩
  rw [narrow]
  have devices : devid = 0 ∨ devid = 1 ∨ devid = 2 ∨ devid = 3 := by omega
  rcases devices with equal | equal | equal | equal <;> rw [equal] <;> rfl

/-- Everything an append at the cursor can do while the log is laid out. -/
theorem ensures_appendAtCursor {ip off size : Nat} {data : Nat -> UInt8}
    (layout : Layout store.log) (device : (store.inode ip).devid < 4) (positive : 0 < size) :
    Ensures (appendAtCursor ip off size data) store
      (fun _ next => Transferred store next ip off ((store.inode ip).appendHead size data)
        ((store.inode ip).afterAppend store.environment.rebalancing off size))
      (Stopped store ip off ((store.inode ip).appendHead size data)) := by
  have present := (gBdev_devid device).2
  simp only [appendAtCursor, Ensures.bind_iff, ensures_readInode, ensures_bhGetSyncIo present]
  refine (ensures_transferRecorded layout present rfl positive).mono ?_ (fun _ _ fault => fault)
  intro _ next made
  rcases made.events with ⟨extent, events⟩
  simp only [insertBlktree, Ensures.modify_iff]
  exact {
    environment := made.environment
    inode := by
      simp only [Store.updateInode, made.inode, made.environment, Function.update_self,
        Function.update_idem]
      unfold Inode.afterAppend Inode.noteAppend
      split <;> rfl
    addrinfo := made.addrinfo
    nvmstartblock := made.nvmstartblock
    layout := made.layout
    disk := made.disk
    events := ⟨extent, events⟩
    fits := made.fits }

/-- Everything an overwrite at the cursor can do while the log is laid out. -/
theorem ensures_overwriteAtCursor {ip devid off size advance : Nat} {data : Nat -> UInt8}
    (layout : Layout store.log) (device : devid < 4) (positive : 0 < size) :
    Ensures (overwriteAtCursor ip (devid + 1) off size advance data) store
      (fun _ next => Transferred store next ip off
        ((store.inode ip).overwriteHead (devid + 1) size data)
        { store.inode ip with rwoff := (store.inode ip).rwoff + advance })
      (Stopped store ip off ((store.inode ip).overwriteHead (devid + 1) size data)) := by
  have present := (gBdev_devid device).2
  simp only [overwriteAtCursor, Ensures.bind_iff, ensures_readInode, ensures_bhGetSyncIo present]
  exact ensures_transferRecorded layout present rfl positive

end Rules

end Userfs.Filesystem
