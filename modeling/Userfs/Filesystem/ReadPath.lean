import Userfs.Filesystem.ReadCache
import Userfs.Filesystem.FileWrite
import Userfs.Library.Bitmap

namespace Userfs.Filesystem

open Ds
open Io
open Word

/-!
# The read path

`readi` cuts a request into parts inside one block, read by `do_unaligned_read`, and
whole blocks, read by `do_align_read_cache1`.  Both ask the read cache first, then
the block tree of the inode, and at last the kernel's block tree through `bmap`.
What comes from the NVM goes to the caller's buffer directly; what comes from an SSD
goes to a buffer of the read cache, from which it is copied.

The aligned read first collects its transfers and copies and carries them out
afterwards.  Its local variables are part of the state here, so that they can be
inspected also when the process stops in the middle of the search.  Positions in the
caller's buffer are counted from the start of the buffer that was given to `readi`.
This is the build without `CONCURRENT`.
-/

/-- An entry of `copy_list`: bytes that go from a cache buffer to the caller. -/
structure Copy where
  dst : Nat
  buffer : Nat
  source : Nat
  size : Nat
deriving DecidableEq, Repr

/-- Where the data of a device read goes. -/
inductive Target where
  | user (position : Nat)
  | buffer (address : Nat)
deriving DecidableEq, Repr

/-- A device read on `io_list`. -/
structure Transfer where
  bh : BufferHead
  target : Target

/-- The local variables of `do_align_read_cache1`.  The index `l` of the source is
the number of copies; `weight` is `bitmapweight`. -/
structure Search where
  bitmap : List Bool
  remain : Nat
  copies : List Copy
  ios : List Transfer
  ioToBeDone : Nat
  weight : Nat

/-- The state of the read path: the file system, the read cache, the buffer of
the caller, and the search of the aligned read. -/
structure Reading where
  store : Store
  cache : ReadCache
  user : Nat -> UInt8
  search : Search

/-- Programs of the read path. -/
abbrev Rd := EStateM Fault Reading

/-- Run a program of the data path. -/
def onStore {X : Type} (program : Fs X) : Rd X := fun reading =>
  match program.run reading.store with
  | .ok result store => .ok result { reading with store := store }
  | .error fault store => .error fault { reading with store := store }

/-- Run a program of the read cache. -/
def onCache {X : Type} (program : Cached X) : Rd X := fun reading =>
  match program.run reading.cache with
  | .ok result cache => .ok result { reading with cache := cache }
  | .error fault cache => .error fault { reading with cache := cache }

/-- Change the local variables of the search. -/
def modifySearch (change : Search -> Search) : Rd PUnit :=
  modify (fun reading => { reading with search := change reading.search })

/-- The cached block of a key, if the hash table of the inode has one. -/
def cachedBlock (ip key : Nat) : Rd (Option (Nat × FcacheBlock)) := do
  let found ← onCache (fcacheFind ip key)
  match found with
  | none => pure none
  | some address => do
      let block ← onCache (derefBlock address)
      pure (some (address, block))

/-- A data buffer from `malloc` or `posix_memalign`. -/
def newBuffer : Rd Nat := do
  let reading ← get
  onCache (allocBuffer reading.store.environment.fresh)

/-- `bh_get_sync_IO` for a read. -/
def readHead (dev blocknr size offset : Nat) : Rd BufferHead :=
  onStore (bhGetSyncIo dev blocknr size (fun _ => 0) offset)

/-! ## Carrying out transfers and copies -/

/-- Carry out one device read. -/
def submitRead (transfer : Transfer) : Rd PUnit := do
  let reading ← get
  match bhSubmitReadSyncIo reading.store.disk transfer.bh with
  | .error fault => throw fault
  | .ok bytes =>
      match transfer.target with
      | .user position =>
          modify (fun reading =>
            { reading with user := Memory.copy reading.user position bytes transfer.bh.size })
      | .buffer address =>
          match reading.cache.buffer address with
          | none => throw .segfault
          | some contents =>
              modify (fun reading =>
                { reading with
                  cache := { reading.cache with
                    buffer := Function.update reading.cache.buffer address
                      (some (Memory.copy contents 0 bytes transfer.bh.size)) } })

/-- `memmove` from a data buffer to the caller. -/
def copyOut (copy : Copy) : Rd PUnit := do
  let reading ← get
  match reading.cache.buffer copy.buffer with
  | none => throw .segfault
  | some contents =>
      modify (fun reading =>
        { reading with
          user := Memory.copy reading.user copy.dst
            (fun index => contents (copy.source + index)) copy.size })

/-- Carry out a list of device reads. -/
def submitAll : List Transfer -> Rd PUnit
  | [] => pure PUnit.unit
  | transfer :: rest => do
      submitRead transfer
      submitAll rest

/-- Carry out the copies, with the check behind each of them. -/
def copyAll (limit : Nat) : List Copy -> Rd PUnit
  | [] => pure PUnit.unit
  | copy :: rest => do
      copyOut copy
      if limit < copy.dst + copy.size then
        throw (.panic "read request overruns the user buffer\n")
      else copyAll limit rest

/-! ## The aligned read -/

/-- The copies of consecutive blocks. -/
def blockCopies (dst buffer source count : Nat) : List Copy :=
  (List.range count).map (fun index => ⟨dst + index * 4096, buffer, source + index * 4096, 4096⟩)

/-- Add the copies of consecutive blocks of a cached block to `copy_list`. -/
def addCopies (dst address source count : Nat) : Rd PUnit := do
  if count = 0 then pure PUnit.unit
  else do
    let block ← onCache (derefBlock address)
    modifySearch (fun search =>
      { search with copies := search.copies ++ blockCopies dst block.data source count })

/-- Add a device read to `io_list`. -/
def addIo (transfer : Transfer) : Rd PUnit :=
  modifySearch (fun search => { search with ios := search.ios ++ [transfer] })

/-- Account for bytes that are taken care of, from a bit of the bitmap on. -/
def account (bit readSize blocks : Nat) : Rd PUnit :=
  modifySearch (fun search =>
    { search with
      bitmap := Bitmap.clear search.bitmap bit (readSize / 4096)
      remain := search.remain - readSize
      ioToBeDone := search.ioToBeDone + blocks })

/-- How a round of the search ends: with a jump to `do_global_search`, or to
`do_io_aligned`. -/
inductive RoundEnd where
  | again
  | io
deriving DecidableEq, Repr

/-- The check behind a round: a round that cleared no bit is an error. -/
def progress : Rd RoundEnd := do
  let reading ← get
  if reading.search.weight = Bitmap.weight reading.search.bitmap then throw (.panic "read error\n")
  else if Bitmap.weight reading.search.bitmap ≠ 0 then do
    modifySearch (fun search => { search with weight := Bitmap.weight search.bitmap })
    pure .again
  else pure .io

/-- The check behind a round that was served by the block tree: no error if all
bits are clear. -/
def progressUnlessDone : Rd RoundEnd := do
  let reading ← get
  if Bitmap.weight reading.search.bitmap ≠ 0 then progress else pure .io

/-- `read_size`: what remains of the request, or less. -/
def readSizeOf (remain available : Nat) : Nat :=
  if remain < available then remain else available

/-- The start of the search: all bits set, nothing collected. -/
def Search.start (ioSize : Nat) : Search where
  bitmap := Bitmap.full (ioSize / 4096)
  remain := ioSize
  copies := []
  ios := []
  ioToBeDone := 0
  weight := 0

/-- The part of the request that the cached chunk of its first block serves. -/
def searchCache (ip dst off ioSize : Nat) : Rd PUnit := do
  let found ← cachedBlock ip (off / chunkSize * 512)
  match found with
  | none => pure PUnit.unit
  | some (address, block) =>
      let displacement := off - chunkFloor off
      if displacement + 4096 ≤ block.size then do
        let readSize := readSizeOf ioSize (low 32 (block.size - displacement))
        addCopies dst address displacement (readSize / 4096)
        onCache (listMove address)
        account 0 readSize (block.size / 4096)
      else pure PUnit.unit

/-- A round that finds an extent at its offset.  From an SSD the extent is read to
a new cache buffer, from the displacement of the offset on; the copies start at this
displacement in the buffer.  From the NVM the caller's buffer is read to directly,
as many bytes as the extent has. -/
def readExtent (ip dst bit pos here : Nat) (block : Block) : Rd RoundEnd := do
  let bufSize := low 32 (block.size / 4096 * 4096)
  let displacement := here - block.fileoff
  let bh ← readHead block.devid (add64 block.addr (displacement / 4096)) bufSize 0
  let reading ← get
  if block.devid ≠ 1 then do
    let buffer ← newBuffer
    let readSize := readSizeOf reading.search.remain (low 32 (block.size - displacement))
    let address ← onCache (addToReadCache ip block.fileoff bufSize buffer)
    addCopies (dst + pos) address displacement (readSize / 4096)
    addIo ⟨bh, .buffer buffer⟩
    account bit readSize (bufSize / 4096)
    progressUnlessDone
  else do
    let readSize := readSizeOf reading.search.remain bufSize
    addIo ⟨{ bh with size := readSize }, .user (dst + pos)⟩
    account bit readSize (bufSize / 4096)
    progressUnlessDone

/-- A round that finds an extent at the 2 MB boundary before the request only.
Data from the NVM is read to a buffer that nobody looks at. -/
def readBase (ip dst off bit pos : Nat) (block : Block) : Rd RoundEnd := do
  let bufSize := low 32 (block.size / 4096 * 4096)
  let displacement := off - block.fileoff
  let bh ← readHead block.devid (add64 block.addr (displacement / 4096)) bufSize 0
  let reading ← get
  let buffer ← newBuffer
  addIo ⟨bh, .buffer buffer⟩
  let readSize := readSizeOf reading.search.remain bufSize
  if block.devid ≠ 1 then do
    let address ← onCache (addToReadCache ip (chunkFloor off) bufSize buffer)
    addCopies (dst + pos) address displacement (readSize / 4096)
  else pure PUnit.unit
  account bit readSize (bufSize / 4096)
  progress

/-- The transfers for what `bmap` found. -/
def readFound (ip dst off pos here : Nat) (request : BmapRequest) : Rd PUnit := do
  let bytes := low 32 (request.blkCountFound * 4096)
  let bh ← readHead request.dev request.blockNo bytes 0
  let reading ← get
  if request.dev = 1 then addIo ⟨bh, .user (dst + pos)⟩
  else do
    let buffer ← newBuffer
    let readSize := readSizeOf reading.search.remain bytes
    if request.blkCountFound = 512 then do
      let address ← onCache (addToReadCache ip (chunkFloor off) chunkSize buffer)
      addCopies (dst + pos) address (off - chunkFloor off) (readSize / 4096)
    else if request.blkCountFound = 1 then do
      let address ← onCache (addToReadCache ip here 4096 buffer)
      addCopies (dst + pos) address 0 1
    else pure PUnit.unit
    addIo ⟨bh, .buffer buffer⟩

/-- A round that asks `bmap`, label `read_from_device`.  The codes are `EIO` and
`EAGAIN`. -/
def readFromDevice (ip dst off ioSize bit pos here : Nat) : Rd RoundEnd := do
  let (ret, request) ← onStore (bmap ip ⟨here, 0, 0, 0⟩)
  if ret = -5 then pure .io
  else do
    readFound ip dst off pos here request
    let reading ← get
    let readSize := readSizeOf reading.search.remain (low 32 (request.blkCountFound * 4096))
    account bit readSize request.blkCountFound
    if ret = -11 then pure .again
    else do
      let next ← progress
      let reading ← get
      if next = .io ∧ reading.search.ioToBeDone < ioSize / 4096 then
        throw (.assertion "io_to_be_done >= (io_size >> g_block_size_shift)")
      else pure next

/-- One round of the search, label `do_global_search`: where the first block that
is still missing can be read. -/
def globalSearch (ip dst off ioSize : Nat) : Rd RoundEnd := do
  let reading ← get
  let bit := Bitmap.findFirst reading.search.bitmap
  let pos := low 32 (bit * 4096)
  let here := add64 off pos
  let tree := (reading.store.inode ip).blktree
  match blockSearch tree here with
  | some block => readExtent ip dst bit pos here block
  | none =>
      if here ≠ chunkFloor off then
        match blockSearch tree (chunkFloor off) with
        | some block =>
            if off - chunkFloor off + ioSize ≤ block.size then readBase ip dst off bit pos block
            else readFromDevice ip dst off ioSize bit pos here
        | none => readFromDevice ip dst off ioSize bit pos here
      else readFromDevice ip dst off ioSize bit pos here

/-- The rounds of the search, with a bound on their number. -/
def searchRounds (ip dst off ioSize : Nat) : Nat -> Rd PUnit
  | 0 => throw .outOfFuel
  | fuel + 1 => do
      let next ← globalSearch ip dst off ioSize
      match next with
      | .again => searchRounds ip dst off ioSize fuel
      | .io => pure PUnit.unit

/-- The search of an aligned read: first the cache, then the rounds.  At most one
round is made for each block of the request. -/
def searchAll (ip dst off ioSize : Nat) : Rd PUnit := do
  modifySearch (fun _ => Search.start ioSize)
  searchCache ip dst off ioSize
  let reading ← get
  if Bitmap.weight reading.search.bitmap = 0 then pure PUnit.unit
  else do
    modifySearch (fun search => { search with weight := Bitmap.weight search.bitmap })
    searchRounds ip dst off ioSize (ioSize / 4096)

/-- `do_align_read_cache1`. -/
def doAlignReadCache1 (ip dst off ioSize : Nat) : Rd Int := do
  searchAll ip dst off ioSize
  let reading ← get
  submitAll reading.search.ios
  copyAll (dst + ioSize) reading.search.copies
  pure ioSize

/-! ## The unaligned read -/

/-- Serve a read inside one block from the cached block of its key, or from the
cached chunk. -/
def unalignedFromCache (ip dst off ioSize : Nat) : Rd Bool := do
  let found ← cachedBlock ip (off / 4096)
  match found with
  | some (address, block) =>
      if off - blockFloor off + ioSize ≤ block.size then do
        copyOut ⟨dst, block.data, off - blockFloor off, ioSize⟩
        onCache (listMove address)
        pure true
      else pure false
  | none =>
      if off / chunkSize * 512 ≠ off / 4096 then do
        let found ← cachedBlock ip (off / chunkSize * 512)
        match found with
        | some (address, block) =>
            if off - chunkFloor off + ioSize ≤ block.size then do
              copyOut ⟨dst, block.data, off - chunkFloor off, ioSize⟩
              onCache (listMove address)
              pure true
            else pure false
        | none => pure false
      else pure false

/-- Cache a buffer, read a transfer to it, and copy a part of it to the caller. -/
def readThrough (ip dst cacheOff cacheSize source ioSize : Nat) (bh : BufferHead) : Rd PUnit := do
  let buffer ← newBuffer
  let address ← onCache (addToReadCache ip cacheOff cacheSize buffer)
  submitRead ⟨bh, .buffer buffer⟩
  let block ← onCache (derefBlock address)
  copyOut ⟨dst, block.data, source, ioSize⟩

/-- Read a part of a block from an extent.  The displacement in bytes is added to
a block number, and the sum is shifted. -/
def unalignedFromExtent (ip dst off ioSize : Nat) (block : Block) : Rd PUnit := do
  let left := sub64 (add64 block.fileoff block.size) (blockFloor off)
  let readSize := if 4096 ≤ left then 4096 else low 32 (off + ioSize - blockFloor off)
  let bh ← readHead block.devid
    (add64 block.addr (sub64 (blockFloor off) block.fileoff) / 4096) readSize 0
  readThrough ip dst (blockFloor off) readSize (off - blockFloor off) ioSize bh

/-- Read a part of a block that only the kernel knows.  The device and the block
number of the request are not initialised. -/
def unalignedFromDevice (ip dst off ioSize : Nat) : Rd PUnit := do
  let reading ← get
  let fresh := reading.store.environment.fresh
  let (ret, request) ← onStore (bmap ip ⟨blockFloor off, leValue fresh 8 8, (fresh 0).toNat, 0⟩)
  if ret = -5 then pure PUnit.unit
  else if request.dev = 1 then do
    let bh ← readHead request.dev request.blockNo ioSize (off - blockFloor off)
    readThrough ip dst (blockFloor off) 4096 (off - blockFloor off) ioSize bh
  else do
    let bh ← readHead request.dev request.blockNo chunkSize 0
    readThrough ip dst (chunkFloor off) chunkSize (off - chunkFloor off) ioSize bh

/-- The part of `do_unaligned_read` behind the cache.  If neither the block nor the
2 MB boundary before it has an extent, a null pointer is followed. -/
def unalignedFromTree (ip dst off ioSize : Nat) : Rd PUnit := do
  let reading ← get
  let tree := (reading.store.inode ip).blktree
  match blockSearch tree (blockFloor off) with
  | some block =>
      if off + ioSize ≤ add64 block.fileoff block.size then unalignedFromExtent ip dst off ioSize block
      else unalignedFromDevice ip dst off ioSize
  | none =>
      if blockFloor off ≠ chunkFloor off then
        match blockSearch tree (chunkFloor off) with
        | none => throw .segfault
        | some block =>
            if off - chunkFloor off + ioSize ≤ block.size then
              unalignedFromExtent ip dst off ioSize block
            else unalignedFromDevice ip dst off ioSize
      else unalignedFromDevice ip dst off ioSize

/-- `do_unaligned_read`. -/
def doUnalignedRead (ip dst off ioSize : Nat) : Rd Int := do
  if gBlockSizeBytes ≤ ioSize then throw (.assertion "io_size < g_block_size_bytes")
  else do
    let served ← unalignedFromCache ip dst off ioSize
    if served then pure ioSize
    else do
      unalignedFromTree ip dst off ioSize
      pure ioSize

/-! ## Whole requests -/

/-- An operation that reads a part of a request: inode, position in the caller's
buffer, file offset, size. -/
abbrev SubRead := Nat -> Nat -> Nat -> Nat -> Rd Int

/-- The sizes of the parts of a request that was cut at the end of the file:
inside one block, before the first block boundary, whole blocks, behind the last
boundary. -/
structure ReadParts where
  small : Nat
  prepended : Nat
  aligned : Nat
  appended : Nat
deriving DecidableEq, Repr

/-- How `readi` cuts a request. -/
def readParts (off ioSize : Nat) : ReadParts :=
  if blockCeil off = off ∧ off + ioSize = blockCeil (off + ioSize) then ⟨0, 0, ioSize, 0⟩
  else if (blockCeil off = off ∧ ioSize < 4096) ∨ off + ioSize < blockCeil off then
    ⟨ioSize, 0, 0, 0⟩
  else
    let prepended := if off < blockCeil off then blockCeil off - off else 0
    let padding := blockCeil (off + ioSize) - (off + ioSize)
    let appended := if 0 < padding then 4096 - padding else 0
    ⟨0, prepended, ioSize - prepended - appended, appended⟩

/-- One unaligned part of a request; the count it returns is checked. -/
def readEdge (unaligned : SubRead) (ip dst off size : Nat) (check : String) : Rd PUnit := do
  if 0 < size then do
    let ioDone ← unaligned ip dst off size
    if ioDone ≠ size then throw (.assertion check) else pure PUnit.unit
  else pure PUnit.unit

/-- A value of the type `int`. -/
def toInt32 (value : Nat) : Int :=
  if low 32 value < 2 ^ 31 then low 32 value else (low 32 value : Int) - 2 ^ 32

/-- `readi`. -/
def readi (unaligned aligned : SubRead) (ip off ioSize : Nat) : Rd Int := do
  let inode ← onStore (readInode ip)
  if inode.size ≤ off then throw (.assertion "off < ip->size")
  else do
    let size := if inode.size < off + ioSize then inode.size - off else ioSize
    let parts := readParts off size
    readEdge unaligned ip 0 off parts.small "size_small == io_done"
    readEdge unaligned ip parts.small (off + parts.small) parts.prepended
      "size_prepended == io_done"
    let done := parts.small + parts.prepended
    if 0 < parts.aligned then do
      let _ ← aligned ip done (off + done) parts.aligned
    else pure PUnit.unit
    let done := done + parts.aligned
    readEdge unaligned ip done (off + done) parts.appended "size_appended == io_done"
    pure (toInt32 (done + parts.appended))

/-- An open file as the read calls see it. -/
structure ReadFile extends File where
  readable : Bool
deriving DecidableEq, Repr

/-- `userfs_file_read`: the return value and the file with its new position. -/
def userfsFileRead (file : ReadFile) (count : Nat) : Rd (Int × ReadFile) := do
  if file.readable = false then pure (-1, file)
  else if file.isInode = false then throw (.panic "userfs_file_read\n")
  else do
    let inode ← onStore (readInode file.ip)
    if inode.size ≤ file.off then pure (0, file)
    else do
      let r ← readi doUnalignedRead doAlignReadCache1 file.ip file.off (low 32 count)
      if r < 0 then throw (.panic "read error\n")
      else pure (r, { file with off := file.off + r.toNat })

/-- `userfs_file_read_offset`.  The end of the file is tested at the position of
the handle. -/
def userfsFileReadOffset (file : ReadFile) (count off : Nat) : Rd (Int × ReadFile) := do
  if file.readable = false then pure (-1, file)
  else if file.isInode = false then pure (-1, file)
  else do
    let inode ← onStore (readInode file.ip)
    if inode.size ≤ file.off then pure (0, file)
    else do
      let r ← readi doUnalignedRead doAlignReadCache1 file.ip off (low 32 count)
      if r < 0 then throw (.panic "read error\n")
      else pure (r, file)

/-- The origins of `userfs_posix_lseek`. -/
inductive Whence where
  | seekSet
  | seekCur
  | seekEnd
deriving DecidableEq, Repr

/-- `userfs_posix_lseek` on a file that is open.  With `SEEK_END` the size of the
inode is changed. -/
def userfsPosixLseek (file : ReadFile) (offset : Nat) (origin : Whence) : Rd ReadFile := do
  match origin with
  | .seekSet => pure { file with off := offset }
  | .seekCur => pure { file with off := add64 file.off offset }
  | .seekEnd => do
      onStore (modifyInode file.ip (fun inode => { inode with size := add64 inode.size offset }))
      let inode ← onStore (readInode file.ip)
      pure { file with off := inode.size }

/-! ## Rules -/

section Rules

variable {X : Type} {reading : Reading} {failed : Fault -> Reading -> Prop}

@[simp]
theorem ensures_onStore {program : Fs X} {done : X -> Reading -> Prop} :
    Ensures (onStore program) reading done failed <->
      Ensures program reading.store
        (fun result store => done result { reading with store := store })
        (fun fault store => failed fault { reading with store := store }) := by
  unfold Ensures
  simp only [onStore, EStateM.run]
  cases program reading.store <;> rfl

@[simp]
theorem ensures_onCache {program : Cached X} {done : X -> Reading -> Prop} :
    Ensures (onCache program) reading done failed <->
      Ensures program reading.cache
        (fun result cache => done result { reading with cache := cache })
        (fun fault cache => failed fault { reading with cache := cache }) := by
  unfold Ensures
  simp only [onCache, EStateM.run]
  cases program reading.cache <;> rfl

@[simp]
theorem ensures_modifySearch {change : Search -> Search} {done : PUnit -> Reading -> Prop} :
    Ensures (modifySearch change) reading done failed <->
      done PUnit.unit { reading with search := change reading.search } :=
  Ensures.modify_iff

end Rules

end Userfs.Filesystem
