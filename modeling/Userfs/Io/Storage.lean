import Userfs.Global.Defs
import Userfs.Library.Memory
import Userfs.Library.Word

namespace Userfs.Io

open Memory
open Word

/-!
# Block devices

Device 1 is byte-addressable memory behind the DAX engine; devices 2 to 4 are
block devices behind the HDD engine.  Transfers inside a device move exactly the
requested bytes.  A transfer behind the end of a device stops the process: it
leaves the mapping on DAX, and makes `userfs_write` panic after a failed
`hdd_write`.  Only `hdd_write_unaligned` does not notice, since it returns its
argument whatever `pwrite` said.
-/

/-- The contents of the devices: device number, byte address. -/
abbrev Disk := Nat -> Nat -> UInt8

/-- `dev_size` of `storage.h`, in bytes. -/
def devSize : Nat -> Nat
  | 1 => 107374182400
  | 2 => 500107862016
  | 3 => 512110190592
  | 4 => 250059350016
  | _ => 0

/-- The storage engine a device is served by. -/
inductive StorageEngine where
  | dax
  | hdd
deriving DecidableEq, Repr

/-- The table `g_bdev` that `device_init` fills. -/
def gBdev : Nat -> Option StorageEngine
  | 1 => some .dax
  | 2 => some .hdd
  | 3 => some .hdd
  | 4 => some .hdd
  | _ => none

/-- A buffer head: the target of one synchronous transfer and its data. -/
structure BufferHead where
  dev : Nat
  blocknr : Nat
  size : Nat
  offset : Nat
  data : Nat -> UInt8

/-- The device byte address of the start of a transfer. -/
def BufferHead.address (bh : BufferHead) : Nat :=
  shl64 bh.blocknr 12 + bh.offset

/-- Replace the contents of one device. -/
def Disk.update (disk : Disk) (dev : Nat) (contents : Nat -> UInt8) : Disk :=
  fun other => if other = dev then contents else disk other

/-- A transfer that is carried out at its address or stops the process. -/
def transfer (disk : Disk) (bh : BufferHead) : Except Fault Disk :=
  if bh.address + bh.size ≤ devSize bh.dev then
    .ok (disk.update bh.dev (copy (disk bh.dev) bh.address bh.data bh.size))
  else .error (.storage bh.dev)

/-- `dax_write` and `dax_write_unaligned`, which add the offset alike. -/
def daxWrite (disk : Disk) (bh : BufferHead) : Except Fault Disk :=
  transfer disk bh

/-- `hdd_write`, which is called for a zero offset only.  The file is opened with
`O_DIRECT`; that a kernel refuses a length which is no multiple of its sector size is not
modelled. -/
def hddWrite (disk : Disk) (bh : BufferHead) : Except Fault Disk :=
  transfer disk bh

/-- The block image `hdd_write_unaligned` assembles in a fresh buffer: the
bytes before the offset are read back, those behind the data are what the
allocation happened to contain. -/
def blockImage (fresh : Nat -> UInt8) (disk : Disk) (bh : BufferHead) : Nat -> UInt8 :=
  fun index =>
    if index < bh.offset then disk bh.dev (shl64 bh.blocknr 12 + index)
    else if index < bh.offset + bh.size then bh.data (index - bh.offset)
    else fresh index

/-- `hdd_write_unaligned`.  Data that does not fit the block overruns the
buffer; the result of `pwrite` is not looked at.  Nor are refusals of `O_DIRECT` for a
buffer or a read that is not aligned to the sector size. -/
def hddWriteUnaligned (fresh : Nat -> UInt8) (disk : Disk) (bh : BufferHead) : Except Fault Disk :=
  if gBlockSizeBytes < bh.offset + bh.size then .error .segfault
  else if shl64 bh.blocknr 12 + gBlockSizeBytes ≤ devSize bh.dev then
    .ok (disk.update bh.dev
      (copy (disk bh.dev) (shl64 bh.blocknr 12) (blockImage fresh disk bh) gBlockSizeBytes))
  else .ok disk

/-- `userfs_write`.  A device number without an entry in `g_bdev` is a null
dereference. -/
def userfsWrite (fresh : Nat -> UInt8) (disk : Disk) (bh : BufferHead) : Except Fault Disk :=
  if bh.size = 0 then .error (.assertion "b->b_size > 0")
  else
    match gBdev bh.dev with
    | none => .error .segfault
    | some .dax => daxWrite disk bh
    | some .hdd => if bh.offset ≠ 0 then hddWriteUnaligned fresh disk bh else hddWrite disk bh

/-! ## Reads -/

/-- A read that delivers the bytes of its range or stops the process. -/
def fetch (disk : Disk) (bh : BufferHead) : Except Fault (Nat -> UInt8) :=
  if bh.size = 0 ∨ bh.address + bh.size ≤ devSize bh.dev then
    .ok (fun index => disk bh.dev (bh.address + index))
  else .error (.storage bh.dev)

/-- `dax_read` and `dax_read_unaligned`. -/
def daxRead (disk : Disk) (bh : BufferHead) : Except Fault (Nat -> UInt8) :=
  fetch disk bh

/-- `hdd_read`.  One `pread` moves at most `0x7ffff000` bytes, and the caller
panics when it moved fewer than it was asked for. -/
def hddRead (disk : Disk) (bh : BufferHead) : Except Fault (Nat -> UInt8) :=
  if bh.size ≤ 0x7ffff000 then fetch disk bh else .error (.panic "fail to read storage\n")

/-- `bh_submit_read_sync_IO`: the bytes that are stored in the buffer.  The table of
the HDD engine has no entry for a read with an in-block offset. -/
def bhSubmitReadSyncIo (disk : Disk) (bh : BufferHead) : Except Fault (Nat -> UInt8) :=
  match gBdev bh.dev with
  | none => .error .segfault
  | some .dax => daxRead disk bh
  | some .hdd => if bh.offset ≠ 0 then .error .segfault else hddRead disk bh

theorem devSize_lt (dev : Nat) : devSize dev < 2 ^ 48 := by
  unfold devSize
  split <;> decide

theorem gBdev_isSome {dev : Nat} (room : 0 < devSize dev) : (gBdev dev).isSome = true := by
  unfold devSize at room
  unfold gBdev
  split at room <;> simp_all

/-- A transfer without an in-block offset to a present device is `transfer`. -/
theorem userfsWrite_eq_transfer {fresh : Nat -> UInt8} {disk : Disk} {bh : BufferHead}
    (aligned : bh.offset = 0) (nonempty : bh.size ≠ 0) (present : (gBdev bh.dev).isSome = true) :
    userfsWrite fresh disk bh = transfer disk bh := by
  unfold userfsWrite
  rw [if_neg nonempty]
  cases engine : gBdev bh.dev with
  | none => simp [engine] at present
  | some kind =>
      cases kind with
      | dax => rfl
      | hdd => simp [aligned, hddWrite]

/-- What a completed transfer without an in-block offset has done. -/
theorem userfsWrite_ok {fresh : Nat -> UInt8} {disk next : Disk} {bh : BufferHead}
    (aligned : bh.offset = 0) (done : userfsWrite fresh disk bh = .ok next) :
    0 < bh.size ∧ bh.address + bh.size ≤ devSize bh.dev ∧
      next = disk.update bh.dev (copy (disk bh.dev) bh.address bh.data bh.size) := by
  by_cases empty : bh.size = 0
  · simp [userfsWrite, empty] at done
  · cases engine : gBdev bh.dev with
    | none => simp [userfsWrite, empty, engine] at done
    | some kind =>
        rw [userfsWrite_eq_transfer aligned empty (by simp [engine])] at done
        unfold transfer at done
        split at done
        · rename_i fits
          exact ⟨Nat.pos_of_ne_zero empty, fits, (Except.ok.inj done).symm⟩
        · cases done

end Userfs.Io
