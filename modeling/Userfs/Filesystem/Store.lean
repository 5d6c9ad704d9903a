import Userfs.Ds.BlockTree
import Userfs.Filesystem.Log
import Userfs.Io.Storage

namespace Userfs.Filesystem

open Ds
open Io
open SearchTree
open Word

/-!
# The state of the data path

An inode keeps two write cursors: `ssdoff` for appends and `rwoff` for
overwrites.  Both share the field `devid`, the device of the chunk allocated last.
The store holds the inodes, the allocation counters, the log, the devices and the
list of observable events; the environment collects what the process does not
control.
-/

/-- The inode fields of the data path, under the names of `shared.h`. -/
structure Inode where
  inum : Nat
  size : Nat
  ksize : Nat
  nvmoff : Nat
  wrthdnum : Nat
  devid : Nat
  ssdoff : Nat
  usednvms : Nat
  rwoff : Nat
  rwsoff : Nat
  rwnvmsize : Nat
  height : Nat
  root : Nat
  blktree : BinaryTree Block

/-- An inode as the create path of `userfs_open_file` leaves it.  The fields
`usednvms`, `rwnvmsize` and `height` are not set there and keep what the
allocation contained. -/
def Inode.created (inum usednvms rwnvmsize height : Nat) : Inode where
  inum := inum
  size := 0
  ksize := 0
  nvmoff := 0
  wrthdnum := 0
  devid := 0
  ssdoff := 0
  usednvms := usednvms
  rwoff := 0
  rwsoff := 0
  rwnvmsize := rwnvmsize
  height := height
  root := 0
  blktree := .nil

/-- The counters of `struct fuckfs_addr_info`: the next free 4 KiB block of the
NVM and the next free 2 MB block of each SSD. -/
structure AddrInfo where
  nvmBlockAddr : Nat
  ssd1BlockAddr : Nat
  ssd2BlockAddr : Nat
  ssd3BlockAddr : Nat
deriving DecidableEq, Repr

/-- A `FILE_WRITE` record, `struct fuckfs_extent`. -/
structure FsExtent where
  ino : Nat
  entryType : Nat
  deviceId : Nat
  blkoffHi : Nat
  isappend : Nat
  mtime : Nat
  extBlock : Nat
  extLen : Nat
  extStartHi : Nat
  extStartLo : Nat
  size : Nat
  blkoffLo : Nat
deriving DecidableEq, Repr

namespace FsExtent

/-- The packed little-endian image of a record. -/
def bytes (extent : FsExtent) : List UInt8 :=
  leBytes 4 extent.ino ++ leBytes 1 extent.entryType ++ leBytes 1 extent.deviceId ++
    leBytes 1 extent.blkoffHi ++ leBytes 1 extent.isappend ++ leBytes 4 extent.mtime ++
    leBytes 4 extent.extBlock ++ leBytes 2 extent.extLen ++ leBytes 2 extent.extStartHi ++
    leBytes 4 extent.extStartLo ++ leBytes 4 extent.size ++ leBytes 4 extent.blkoffLo

/-- The record as `append_entry_log` receives it. -/
def entry (extent : FsExtent) : LogEntry where
  flag := 0
  bytes := extent.bytes
  length_bytes := by simp [bytes, recordSize]

/-- The byte address a record names. -/
def extStart (extent : FsExtent) : Nat :=
  extent.extStartHi * 2 ^ 32 + extent.extStartLo

end FsExtent

/-- Which of the two cursors of an inode a chunk was allocated for. -/
inductive Cursor where
  | append
  | overwrite
deriving DecidableEq, Repr

/-- What an observer of the device interface and of the log sees.  An
allocation names the inode field `devid`, so the chunk lies on device
`devid + 1`; a write carries the file offset of its first byte. -/
inductive Event where
  | alloc (inode : Nat) (cursor : Cursor) (devid base : Nat)
  | write (inode : Nat) (off : Nat) (bh : BufferHead)
  | logged (inode : Nat) (extent : FsExtent)

/-- What the process does not control: the shape-restoring rotations of the
red-black tree, the clock, the contents of freshly allocated memory, and the
block-tree root and height the kernel reports for an inode number. -/
structure Environment where
  rebalancing : Rebalancing Block
  clock : Nat
  fresh : Nat -> UInt8
  fetchInode : Nat -> Option (Nat × Nat)

/-- The state of the data path.  Inodes are named by their address. -/
structure Store where
  environment : Environment
  inode : Nat -> Inode
  addrinfo : AddrInfo
  nvmstartblock : Nat
  log : Log
  disk : Disk
  events : List Event

/-- A session with inodes just created and empty devices. -/
def freshStore : Store where
  environment := ⟨Rebalancing.keep Block, 0, fun _ => 0, fun _ => none⟩
  inode := fun ip => Inode.created ip 0 0 0
  addrinfo := ⟨512, 0, 0, 0⟩
  nvmstartblock := 512
  log := loginit (fun _ => 0)
  disk := fun _ _ => 0
  events := []

/-- Programs of the data path. -/
abbrev Fs := EStateM Fault Store

/-- Read an inode. -/
def readInode (ip : Nat) : Fs Inode := do
  let store ← get
  pure (store.inode ip)

/-- Change the inode at one address. -/
def Store.updateInode (store : Store) (ip : Nat) (change : Inode -> Inode) : Store :=
  { store with inode := Function.update store.inode ip (change (store.inode ip)) }

/-- Change an inode. -/
def modifyInode (ip : Nat) (change : Inode -> Inode) : Fs PUnit :=
  modify (fun store => store.updateInode ip change)

/-- Append to the list of events. -/
def observe (event : Event) : Fs PUnit :=
  modify (fun store => { store with events := store.events ++ [event] })

/-- Run a log program on the log of the store. -/
def onLog (program : LogM PUnit) : Fs PUnit := fun store =>
  match program.run store.log with
  | .ok result log => .ok result { store with log := log }
  | .error fault log => .error fault { store with log := log }

@[simp]
theorem ensures_onLog {program : LogM PUnit} {store : Store} {done : PUnit -> Store -> Prop}
    {failed : Fault -> Store -> Prop} :
    Ensures (onLog program) store done failed <->
      Ensures program store.log (fun result log => done result { store with log := log })
        (fun fault log => failed fault { store with log := log }) := by
  unfold Ensures
  simp only [onLog, EStateM.run]
  cases program store.log <;> rfl

@[simp]
theorem ensures_readInode {ip : Nat} {store : Store} {done : Inode -> Store -> Prop}
    {failed : Fault -> Store -> Prop} :
    Ensures (readInode ip) store done failed <-> done (store.inode ip) store := by
  simp only [readInode, Ensures.bind_iff, Ensures.get_iff, Ensures.pure_iff]

@[simp]
theorem ensures_modifyInode {ip : Nat} {change : Inode -> Inode} {store : Store}
    {done : PUnit -> Store -> Prop} {failed : Fault -> Store -> Prop} :
    Ensures (modifyInode ip change) store done failed <->
      done PUnit.unit (store.updateInode ip change) :=
  Ensures.modify_iff

@[simp]
theorem ensures_observe {event : Event} {store : Store} {done : PUnit -> Store -> Prop}
    {failed : Fault -> Store -> Prop} :
    Ensures (observe event) store done failed <->
      done PUnit.unit { store with events := store.events ++ [event] } :=
  Ensures.modify_iff

@[simp]
theorem updateInode_inode_self (store : Store) (ip : Nat) (change : Inode -> Inode) :
    (store.updateInode ip change).inode ip = change (store.inode ip) := by
  simp [Store.updateInode]

theorem updateInode_inode_other (store : Store) {ip other : Nat} (change : Inode -> Inode)
    (different : other ≠ ip) : (store.updateInode ip change).inode other = store.inode other := by
  simp [Store.updateInode, different]

end Userfs.Filesystem
