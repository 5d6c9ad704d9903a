import Userfs.Library.Encoding
import Userfs.Filesystem.Write

namespace Userfs.Filesystem

open Encoding
open Io
open Memory
open Word

/-!
# Reading extent records back

The kernel reads a `FILE_WRITE` record from the log by the layout of
`struct fuckfs_extent`.  Addresses are split over a 16-bit and a 32-bit field and cursors
over an 8-bit and a 32-bit one, each truncated by itself, and the offset inside the block
is added to the low half of the address only.  Because a block number shifted by 12 leaves
the low 12 bits free, that addition never carries.
-/

namespace FsExtent

/-- The fields of `struct fuckfs_extent` with their widths, in the order of the struct. -/
def fields (extent : FsExtent) : List (Nat × Nat) :=
  [(4, extent.ino), (1, extent.entryType), (1, extent.deviceId), (1, extent.blkoffHi),
    (1, extent.isappend), (4, extent.mtime), (4, extent.extBlock), (2, extent.extLen),
    (2, extent.extStartHi), (4, extent.extStartLo), (4, extent.size), (4, extent.blkoffLo)]

/-- The packed `struct fuckfs_extent` at an address. -/
def read (memory : Nat -> UInt8) (address : Nat) : FsExtent where
  ino := leValue memory address 4
  entryType := leValue memory (address + 4) 1
  deviceId := leValue memory (address + 5) 1
  blkoffHi := leValue memory (address + 6) 1
  isappend := leValue memory (address + 7) 1
  mtime := leValue memory (address + 8) 4
  extBlock := leValue memory (address + 12) 4
  extLen := leValue memory (address + 16) 2
  extStartHi := leValue memory (address + 18) 2
  extStartLo := leValue memory (address + 20) 4
  size := leValue memory (address + 24) 4
  blkoffLo := leValue memory (address + 28) 4

/-- A record whose fields are cut to the widths of the struct. -/
def narrow (extent : FsExtent) : FsExtent where
  ino := low 32 extent.ino
  entryType := low 8 extent.entryType
  deviceId := low 8 extent.deviceId
  blkoffHi := low 8 extent.blkoffHi
  isappend := low 8 extent.isappend
  mtime := low 32 extent.mtime
  extBlock := low 32 extent.extBlock
  extLen := low 16 extent.extLen
  extStartHi := low 16 extent.extStartHi
  extStartLo := low 32 extent.extStartLo
  size := low 32 extent.size
  blkoffLo := low 32 extent.blkoffLo

theorem bytes_eq_pack (extent : FsExtent) : extent.bytes = pack extent.fields := by
  simp only [bytes, pack, fields, List.flatMap_cons, List.flatMap_nil, List.append_nil,
    List.append_assoc]

/-- A record in memory is read with its fields cut to their widths. -/
theorem read_bytes {memory : Nat -> UInt8} {address : Nat} {extent : FsExtent}
    (held : slice memory address 32 = extent.bytes) : read memory address = extent.narrow := by
  have values := @unpack_pack memory address extent.fields (held.trans extent.bytes_eq_pack)
  simp only [fields, List.map_cons, List.map_nil, unpack, Nat.add_assoc, List.cons.injEq] at values
  rcases values with
    ⟨ino, entryType, deviceId, blkoffHi, isappend, mtime, extBlock, extLen, startHi, startLo, size,
      blkoffLo, _⟩
  unfold read narrow
  congr 1

end FsExtent

/-! ## The record in the log -/

/-- The position in the window where the next record of 32 bytes goes. -/
def Log.nextPosition (log : Log) : Nat :=
  log.start + if logspace < log.offset + 64 then 0 else log.offset

/-- A 32-byte record lies at the end of the log, unless the window ends before. -/
theorem ensures_appendEntryLog_short (entry : LogEntry) (short : entry.flag = 0) (log : Log) :
    Ensures (appendEntryLog entry) log
      (fun _ next => next.start + next.offset = log.nextPosition + 32 ∧
        slice next.window log.nextPosition 32 = entry.bytes)
      (fun fault _ => fault = .segfault ∧ logspace < log.nextPosition + 32) := by
  have size : entry.size = 32 := by
    unfold LogEntry.size recordSize
    rw [if_pos short]
  have bytes := slice_entry entry
  rw [size] at bytes
  have copied : forall before : Log, Ensures (placeRecord entry) before
      (fun _ next => next.start + next.offset = before.start + before.offset + 32 ∧
        slice next.window (before.start + before.offset) 32 = entry.bytes)
      (fun fault _ => fault = .segfault ∧ logspace < before.start + before.offset + 32) := by
    intro before
    simp only [placeRecord, copyRecord, storeLog, Ensures.bind_iff, Ensures.get_iff, Ensures.ite_iff,
      Ensures.modify_iff, Ensures.throw_iff, if_pos short, size]
    split
    case isTrue fits =>
      refine ⟨by omega, ?_⟩
      refine (slice_congr (fun index bound => ?_)).trans bytes
      rw [copy_inside _ _ (by omega) (by omega), Nat.add_sub_cancel_left, Nat.zero_add]
    case isFalse behind => exact ⟨trivial, Nat.lt_of_not_le behind⟩
  simp only [appendEntryLog, Ensures.bind_iff, Ensures.get_iff, Ensures.ite_iff, Ensures.modify_iff,
    Log.nextPosition]
  split
  · exact copied { log with offset := 0, slots := [] }
  · exact copied log

/-! ## What a record says -/

/-- A record tells where a transfer went, what part of the file it holds and, for an append,
the cursor it was made at. -/
structure Describes (extent : FsExtent) (cursor off : Nat) (bh : BufferHead) (append : Nat) : Prop where
  start : extent.extStartHi * 2 ^ 32 + extent.extStartLo = bh.blocknr * 4096 + off % 4096
  block : extent.extBlock = off / 4096
  length : extent.extLen = (bh.size + 4095) / 4096
  size : extent.size = bh.size
  device : extent.deviceId = bh.dev - 1
  cursor : extent.blkoffHi * 2 ^ 32 + extent.blkoffLo = if append = 1 then cursor else 0

/-- The record of a transfer within the limits of the format loses nothing in its fields. -/
theorem describes_fsextentOf {inode : Inode} {clock off append : Nat} {bh : BufferHead}
    (offset : off < 2 ^ 44) (address : bh.blocknr < 2 ^ 36) (device : 1 ≤ bh.dev ∧ bh.dev ≤ 4)
    (size : bh.size ≤ chunkSize) (cursor : inode.ssdoff < 2 ^ 40) :
    Describes (fsextentOf inode clock off bh append).narrow inode.ssdoff off bh append := by
  unfold chunkSize at size
  constructor <;> simp only [FsExtent.narrow, fsextentOf, shl64, low]
  case start => omega
  case block => omega
  case length => omega
  case size => omega
  case device => omega
  case cursor =>
    by_cases appended : append = 1
    · rw [if_pos ⟨appended, device.1⟩, if_pos ⟨appended, device.1⟩, if_pos appended]
      omega
    · rw [if_neg (fun both => appended both.1), if_neg (fun both => appended both.1),
        if_neg appended]
      rfl

/-- `append_fsextent` leaves at the end of the log a record that reads back as what it was
given.  It fails only if the window has no room for the record. -/
theorem appendFsextent_describes (store : Store) (ip off append : Nat) (bh : BufferHead)
    (offset : off < 2 ^ 44) (address : bh.blocknr < 2 ^ 36) (device : 1 ≤ bh.dev ∧ bh.dev ≤ 4)
    (size : 1 ≤ bh.size ∧ bh.size ≤ chunkSize) (cursor : (store.inode ip).ssdoff < 2 ^ 40) :
    Ensures (appendFsextent ip off bh append) store
      (fun _ next => next.log.start + next.log.offset = store.log.nextPosition + 32 ∧
        Describes (FsExtent.read next.log.window store.log.nextPosition)
          (store.inode ip).ssdoff off bh append)
      (fun fault _ => fault = .segfault ∧ logspace < store.log.nextPosition + 32) := by
  rw [ensures_appendFsextent]
  refine (ensures_appendEntryLog_short _ rfl store.log).mono ?_ (fun _ _ full => full)
  rintro _ log ⟨ending, held⟩
  refine ⟨ending, ?_⟩
  rw [FsExtent.read_bytes held]
  exact describes_fsextentOf offset address device size.2 cursor

/-- The record of a partial block behind four gigabytes, at the end of the address space of
the format. -/
theorem appendFsextent_describes_last :
    Ensures (appendFsextent 0 (2 ^ 32 + 4095) ⟨4, 2 ^ 36 - 1, 1, 0, fun _ => 0⟩ 1) freshStore
      (fun _ next => next.log.start + next.log.offset = 32 ∧
        Describes (FsExtent.read next.log.window 0) 0 (2 ^ 32 + 4095)
          ⟨4, 2 ^ 36 - 1, 1, 0, fun _ => 0⟩ 1)
      (fun fault _ => fault = .segfault ∧ logspace < 32) :=
  appendFsextent_describes freshStore 0 (2 ^ 32 + 4095) 1 ⟨4, 2 ^ 36 - 1, 1, 0, fun _ => 0⟩
    (by decide) (by decide) (by decide) (by decide) (by decide)

end Userfs.Filesystem
