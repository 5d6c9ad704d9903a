import Userfs.Filesystem.Store

namespace Userfs.Filesystem

open Word

/-!
# Allocation of device space

Space is handed out in chunks of 2 MB: 512 blocks of the NVM, or one large block
of an SSD.  No chunk is ever returned.  The NVM counter starts again at
`nvmstartblock` when the next request would pass `NVMSIZE`; the SSD counters only
grow.

The write paths allocate for one of two cursors of an inode, and rotate over the
four devices by the counter `wrthdnum`.
-/

/-- `NVMSIZE`, in blocks of 4 KiB. -/
def nvmSize : Nat := 10 * 1024 * 1024

/-- `writethdnum`: one NVM and three SSDs. -/
def writethdnum : Nat := 4

/-- `allocate_nvmblock`: a byte address, and the counters afterwards. -/
def allocateNvmblock (nvmstartblock blocks : Nat) (info : AddrInfo) : Nat × AddrInfo :=
  if add64 info.nvmBlockAddr blocks ≤ nvmSize then
    (shl64 info.nvmBlockAddr 12, { info with nvmBlockAddr := add64 info.nvmBlockAddr blocks })
  else
    (shl64 nvmstartblock 12, { info with nvmBlockAddr := add64 nvmstartblock blocks })

/-- `allocate_ssd1block`. -/
def allocateSsd1block (info : AddrInfo) : Nat × AddrInfo :=
  (shl64 info.ssd1BlockAddr 21, { info with ssd1BlockAddr := info.ssd1BlockAddr + 1 })

/-- `allocate_ssd2block`. -/
def allocateSsd2block (info : AddrInfo) : Nat × AddrInfo :=
  (shl64 info.ssd2BlockAddr 21, { info with ssd2BlockAddr := info.ssd2BlockAddr + 1 })

/-- `allocate_ssd3block`. -/
def allocateSsd3block (info : AddrInfo) : Nat × AddrInfo :=
  (shl64 info.ssd3BlockAddr 21, { info with ssd3BlockAddr := info.ssd3BlockAddr + 1 })

/-- The device field the switch over `wrthdnum` selects. -/
def threadDevid (wrthdnum : Nat) : Nat :=
  match wrthdnum with
  | 1 => 1
  | 2 => 2
  | 3 => 3
  | _ => 0

/-- The allocation made for a device field. -/
def allocateOn (nvmstartblock : Nat) (info : AddrInfo) (devid : Nat) : Nat × AddrInfo :=
  match devid with
  | 1 => allocateSsd1block info
  | 2 => allocateSsd2block info
  | 3 => allocateSsd3block info
  | _ => allocateNvmblock nvmstartblock 512 info

/-- The assignments of one branch of the switch: a new chunk becomes the
target of one cursor and the current device of the inode. -/
def Inode.place (inode : Inode) (cursor : Cursor) (devid base : Nat) : Inode :=
  match cursor, devid with
  | .append, 0 =>
      { inode with nvmoff := base, ssdoff := base, usednvms := base, devid := 0 }
  | .append, device =>
      { inode with ssdoff := base, devid := device }
  | .overwrite, 0 =>
      { inode with nvmoff := base, rwoff := base, rwnvmsize := base, rwsoff := base, devid := 0 }
  | .overwrite, device =>
      { inode with rwoff := base, rwsoff := base, devid := device }

/-- The allocation block that every write path contains: reduce `wrthdnum`,
switch over it, and advance it. -/
def Store.allocateChunk (store : Store) (ip : Nat) (cursor : Cursor) : Store :=
  let thread := (store.inode ip).wrthdnum % writethdnum
  let devid := threadDevid thread
  let allocated := allocateOn store.nvmstartblock store.addrinfo devid
  { store.updateInode ip (fun inode =>
      { inode.place cursor devid allocated.1 with wrthdnum := thread + 1 }) with
    addrinfo := allocated.2
    events := store.events ++ [.alloc ip cursor devid allocated.1] }

/-- When an append needs a new chunk: the cursor stands at the start of a large
block on an SSD, or it was never set or has used 512 blocks of the NVM. -/
def Inode.AppendDue (inode : Inode) : Prop :=
  (shl64 inode.ssdoff 43 = 0 ∧ 0 < inode.devid) ∨
    (inode.devid = 0 ∧ (inode.ssdoff = 0 ∨ 512 ≤ sub64 inode.ssdoff inode.usednvms / 4096))

/-- The blocks used of the current overwrite chunk. -/
def Inode.rwDelta (inode : Inode) : Nat :=
  sub64 inode.rwoff inode.rwsoff / 4096

/-- When a small overwrite needs a new chunk. -/
def Inode.SmallOverwriteDue (inode : Inode) : Prop :=
  (shl64 inode.rwoff 43 = 0 ∧ 0 < inode.devid) ∨
    (inode.devid = 0 ∧ (inode.rwoff = 0 ∨ 512 ≤ inode.rwDelta))

/-- When an overwrite of whole blocks needs a new chunk: also when it would
not fit the current one. -/
def Inode.OverwriteDue (inode : Inode) (size : Nat) : Prop :=
  512 < inode.rwDelta + size / 4096 ∨ inode.SmallOverwriteDue

instance (inode : Inode) : Decidable inode.AppendDue :=
  inferInstanceAs (Decidable (_ ∨ _))

instance (inode : Inode) : Decidable inode.SmallOverwriteDue :=
  inferInstanceAs (Decidable (_ ∨ _))

instance (inode : Inode) (size : Nat) : Decidable (inode.OverwriteDue size) :=
  inferInstanceAs (Decidable (_ ∨ _))

/-- The allocation step of a write path: allocate when it is due. -/
def Store.allocateIf (store : Store) (due : Inode -> Prop) [DecidablePred due] (ip : Nat)
    (cursor : Cursor) : Store :=
  if due (store.inode ip) then store.allocateChunk ip cursor else store

/-- The allocation step as a program. -/
def allocateWhen (due : Inode -> Prop) [DecidablePred due] (ip : Nat) (cursor : Cursor) :
    Fs PUnit :=
  modify (fun store => store.allocateIf due ip cursor)

@[simp]
theorem ensures_allocateWhen {due : Inode -> Prop} [DecidablePred due] {ip : Nat} {cursor : Cursor}
    {store : Store} {done : PUnit -> Store -> Prop} {failed : Fault -> Store -> Prop} :
    Ensures (allocateWhen due ip cursor) store done failed <->
      done PUnit.unit (store.allocateIf due ip cursor) :=
  Ensures.modify_iff

theorem allocateIf_pos {store : Store} {due : Inode -> Prop} [DecidablePred due] {ip : Nat}
    (cursor : Cursor) (isDue : due (store.inode ip)) :
    store.allocateIf due ip cursor = store.allocateChunk ip cursor :=
  if_pos isDue

theorem allocateIf_neg {store : Store} {due : Inode -> Prop} [DecidablePred due] {ip : Nat}
    (cursor : Cursor) (notDue : ¬ due (store.inode ip)) :
    store.allocateIf due ip cursor = store :=
  if_neg notDue

/-- An allocation leaves the size and the block tree alone. -/
theorem Inode.place_size (inode : Inode) (cursor : Cursor) (devid base : Nat) :
    (inode.place cursor devid base).size = inode.size ∧
      (inode.place cursor devid base).blktree = inode.blktree := by
  unfold Inode.place
  split <;> exact ⟨rfl, rfl⟩

/-! ## What an allocation returns -/

theorem threadDevid_mod (thread : Nat) : threadDevid (thread % writethdnum) = thread % 4 := by
  have residues : thread % 4 = 0 ∨ thread % 4 = 1 ∨ thread % 4 = 2 ∨ thread % 4 = 3 := by omega
  change threadDevid (thread % 4) = thread % 4
  rcases residues with residue | residue | residue | residue <;> rw [residue] <;> rfl

/-- A chunk starts on a 2 MB boundary, provided the NVM counters do. -/
theorem allocateOn_aligned {nvmstartblock : Nat} {info : AddrInfo} (devid : Nat)
    (start : 512 ∣ nvmstartblock) (counter : 512 ∣ info.nvmBlockAddr) :
    (allocateOn nvmstartblock info devid).1 % chunkSize = 0 ∧
      512 ∣ (allocateOn nvmstartblock info devid).2.nvmBlockAddr := by
  unfold allocateOn chunkSize
  split
  · exact ⟨by simp only [allocateSsd1block, shl64, low]; omega, counter⟩
  · exact ⟨by simp only [allocateSsd2block, shl64, low]; omega, counter⟩
  · exact ⟨by simp only [allocateSsd3block, shl64, low]; omega, counter⟩
  · unfold allocateNvmblock
    split
    · simp only [shl64, add64, low]
      omega
    · simp only [shl64, add64, low]
      omega

theorem allocateOn_lt (nvmstartblock : Nat) (info : AddrInfo) (devid : Nat) :
    (allocateOn nvmstartblock info devid).1 < 2 ^ 64 := by
  unfold allocateOn
  split
  · exact low_lt 64 _
  · exact low_lt 64 _
  · exact low_lt 64 _
  · unfold allocateNvmblock
    split <;> exact low_lt 64 _

theorem allocateOn_ssd1BlockAddr (nvmstartblock : Nat) (info : AddrInfo) (devid : Nat) :
    (allocateOn nvmstartblock info devid).2.ssd1BlockAddr =
      info.ssd1BlockAddr + if devid = 1 then 1 else 0 := by
  unfold allocateOn
  split
  · rfl
  · rfl
  · rfl
  · rename_i notFirst _ _
    rw [if_neg notFirst]
    unfold allocateNvmblock
    split <;> rfl

/-- A shift by 21 places keeps the low 43 bits of a block number. -/
theorem shl64_chunk (block : Nat) : shl64 block 21 = block % 2 ^ 43 * chunkSize := by
  unfold shl64 low chunkSize
  omega

/-! ## The allocation step on the store -/

/-- The device field and the base of the chunk the next allocation returns. -/
def Store.nextChunk (store : Store) (ip : Nat) : Nat × Nat :=
  ((store.inode ip).wrthdnum % 4,
    (allocateOn store.nvmstartblock store.addrinfo ((store.inode ip).wrthdnum % 4)).1)

theorem allocateChunk_events (store : Store) (ip : Nat) (cursor : Cursor) :
    (store.allocateChunk ip cursor).events =
      store.events ++ [.alloc ip cursor (store.nextChunk ip).1 (store.nextChunk ip).2] := by
  simp only [Store.allocateChunk, threadDevid_mod, Store.nextChunk]

theorem allocateChunk_inode_self (store : Store) (ip : Nat) (cursor : Cursor) :
    (store.allocateChunk ip cursor).inode ip =
      { (store.inode ip).place cursor (store.nextChunk ip).1 (store.nextChunk ip).2 with
        wrthdnum := (store.inode ip).wrthdnum % 4 + 1 } := by
  simp only [Store.allocateChunk, threadDevid_mod, Store.nextChunk, updateInode_inode_self]
  rfl

theorem allocateIf_size (store : Store) (due : Inode -> Prop) [DecidablePred due] (ip : Nat)
    (cursor : Cursor) :
    ((store.allocateIf due ip cursor).inode ip).size = (store.inode ip).size := by
  by_cases isDue : due (store.inode ip)
  · rw [allocateIf_pos cursor isDue, allocateChunk_inode_self]
    exact (Inode.place_size _ _ _ _).1
  · rw [allocateIf_neg cursor isDue]

theorem allocateChunk_addrinfo (store : Store) (ip : Nat) (cursor : Cursor) :
    (store.allocateChunk ip cursor).addrinfo =
      (allocateOn store.nvmstartblock store.addrinfo (store.nextChunk ip).1).2 := by
  simp only [Store.allocateChunk, threadDevid_mod, Store.nextChunk]

/-- The state that does not belong to one file: aligned NVM counters and a
laid-out log. -/
structure Sound (store : Store) : Prop where
  start : 512 ∣ store.nvmstartblock
  counter : 512 ∣ store.addrinfo.nvmBlockAddr
  layout : Layout store.log

/-- A sound store stays sound when it allocates, and its chunk starts on a
2 MB boundary. -/
theorem Sound.allocateChunk {store : Store} (sound : Sound store) (ip : Nat) (cursor : Cursor) :
    Sound (store.allocateChunk ip cursor) ∧ (store.nextChunk ip).2 % chunkSize = 0 := by
  have aligned := allocateOn_aligned (store.nextChunk ip).1 sound.start sound.counter
  refine ⟨⟨sound.start, ?_, sound.layout⟩, aligned.1⟩
  rw [allocateChunk_addrinfo]
  exact aligned.2

/-! ## The chunks of an inode -/

/-- The inode an event belongs to. -/
def Event.inode : Event -> Nat
  | .alloc inode _ _ _ => inode
  | .write inode _ _ => inode
  | .logged inode _ => inode

/-- The chunk an event allocates for a cursor of an inode. -/
def Event.chunkFor (ip : Nat) (cursor : Cursor) : Event -> Option (Nat × Nat)
  | .alloc inode target devid base =>
      if inode = ip ∧ target = cursor then some (devid, base) else none
  | .write _ _ _ => none
  | .logged _ _ => none

/-- The chunks allocated for a cursor of an inode, in order, each with its
device field and its base address. -/
def chunks (ip : Nat) (cursor : Cursor) (events : List Event) : List (Nat × Nat) :=
  events.filterMap (Event.chunkFor ip cursor)

theorem chunks_append (ip : Nat) (cursor : Cursor) (first second : List Event) :
    chunks ip cursor (first ++ second) = chunks ip cursor first ++ chunks ip cursor second :=
  List.filterMap_append

/-- Events of another inode allocate no chunk for this one. -/
theorem chunks_of_other {ip other : Nat} (cursor : Cursor) (different : other ≠ ip)
    {events : List Event} (owned : forall event, event ∈ events -> event.inode = ip) :
    chunks other cursor events = [] := by
  refine List.filterMap_eq_nil_iff.mpr ?_
  intro event member
  have owner := owned event member
  cases event with
  | alloc inode target devid base =>
      change inode = ip at owner
      have notHere : ¬ (inode = other ∧ target = cursor) := fun both =>
        different (both.1.symm.trans owner)
      simp [Event.chunkFor, notHere]
  | write inode off bh => rfl
  | logged inode extent => rfl

@[simp]
theorem chunks_transfer (ip other off : Nat) (cursor : Cursor) (bh : Io.BufferHead)
    (extent : FsExtent) : chunks ip cursor [.write other off bh, .logged other extent] = [] :=
  rfl

/-! ## Steps on behalf of one inode -/

/-- A step on behalf of one inode leaves the other inodes and their events
alone. -/
structure Apart (ip : Nat) (store next : Store) : Prop where
  inode : forall other, other ≠ ip -> next.inode other = store.inode other
  events : Exists fun new => next.events = store.events ++ new ∧
    forall event, event ∈ new -> event.inode = ip

namespace Apart

theorem refl (ip : Nat) (store : Store) : Apart ip store store :=
  ⟨fun _ _ => rfl, [], by simp, by simp⟩

theorem trans {ip : Nat} {first second third : Store} (before : Apart ip first second)
    (after : Apart ip second third) : Apart ip first third := by
  rcases before.events with ⟨new, equal, owned⟩
  rcases after.events with ⟨later, equal', owned'⟩
  refine ⟨?_, new ++ later, by rw [equal', equal, List.append_assoc], ?_⟩
  · intro other different
    rw [after.inode other different, before.inode other different]
  · intro event member
    rcases List.mem_append.mp member with early | late
    · exact owned event early
    · exact owned' event late

theorem updateInode (store : Store) (ip : Nat) (change : Inode -> Inode) :
    Apart ip store (store.updateInode ip change) :=
  ⟨fun _ different => updateInode_inode_other store change different, [],
    by simp [Store.updateInode], by simp⟩

theorem allocateChunk (store : Store) (ip : Nat) (cursor : Cursor) :
    Apart ip store (store.allocateChunk ip cursor) := by
  refine ⟨?_, _, allocateChunk_events store ip cursor, by simp [Event.inode]⟩
  intro other different
  simp only [Store.allocateChunk]
  exact updateInode_inode_other store _ different

/-- The chunks of another inode stay what they were. -/
theorem chunks_other {ip other : Nat} {store next : Store} (apart : Apart ip store next)
    (different : other ≠ ip) (cursor : Cursor) :
    chunks other cursor next.events = chunks other cursor store.events := by
  rcases apart.events with ⟨new, equal, owned⟩
  rw [equal, chunks_append, chunks_of_other cursor different owned, List.append_nil]

/-- The writes of another inode stay what they were. -/
theorem write_mem_other {ip other : Nat} {store next : Store} (apart : Apart ip store next)
    (different : other ≠ ip) (off : Nat) (bh : Io.BufferHead) :
    .write other off bh ∈ next.events <-> .write other off bh ∈ store.events := by
  rcases apart.events with ⟨new, equal, owned⟩
  rw [equal, List.mem_append]
  constructor
  · rintro (old | late)
    · exact old
    · exact absurd (owned _ late) different
  · exact Or.inl

end Apart

end Userfs.Filesystem
