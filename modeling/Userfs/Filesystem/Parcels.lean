import Userfs.Filesystem.Space

namespace Userfs.Filesystem

open Io
open Word

/-!
# Chunks do not overlap

The counters hand out each device from one end to the other, so the chunks of a
device follow one another.  For an SSD this needs that the chunks lie on the
device, because the shift that turns a counter into an address loses its high bits;
for the NVM it holds until the allocator starts again at `nvmstartblock`.
-/

/-- A chunk of a device with its owner. -/
structure Parcel where
  inode : Nat
  base : Nat
deriving DecidableEq, Repr

/-- The first address behind a parcel. -/
def Parcel.limit (parcel : Parcel) : Nat :=
  parcel.base + chunkSize

/-- The parcel an event allocates on a device. -/
def Event.parcelOn (devid : Nat) : Event -> Option Parcel
  | .alloc inode _ device base => if device = devid then some ⟨inode, base⟩ else none
  | .write _ _ _ => none
  | .logged _ _ => none

/-- The parcels of a device in the order of their allocation. -/
def parcels (devid : Nat) (events : List Event) : List Parcel :=
  events.filterMap (Event.parcelOn devid)

theorem parcels_append (devid : Nat) (first second : List Event) :
    parcels devid (first ++ second) = parcels devid first ++ parcels devid second :=
  List.filterMap_append

@[simp]
theorem parcels_transfer (devid ip off : Nat) (bh : BufferHead) (extent : FsExtent) :
    parcels devid [.write ip off bh, .logged ip extent] = [] :=
  rfl

/-- The NVM allocator has not started again. -/
def Store.Unwrapped (store : Store) : Prop :=
  store.nvmstartblock + 512 * (parcels 0 store.events).length ≤ nvmSize

/-- The chunks of a device are known not to overlap: always for an SSD, and for
the NVM before its allocator wraps. -/
def Store.Unused (store : Store) (devid : Nat) : Prop :=
  devid = 0 -> store.Unwrapped

/-- The counter of a device. -/
def AddrInfo.counter (info : AddrInfo) : Nat -> Nat
  | 1 => info.ssd1BlockAddr
  | 2 => info.ssd2BlockAddr
  | 3 => info.ssd3BlockAddr
  | _ => info.nvmBlockAddr

/-- The address from which on a device has not been handed out. -/
def Store.frontier (store : Store) (devid : Nat) : Nat :=
  if devid = 0 then store.addrinfo.counter devid * 4096
  else shl64 (store.addrinfo.counter devid) 21

/-- The parcels of every device follow one another. -/
structure Parcelled (store : Store) : Prop where
  separated : forall devid, devid < 4 -> store.Unused devid ->
    Interval.Separated Parcel.base Parcel.limit (parcels devid store.events)
  counter : store.Unwrapped -> store.addrinfo.counter 0 =
    store.nvmstartblock + 512 * (parcels 0 store.events).length

/-- The parcels of every device lie before its frontier. -/
def Fronted (store : Store) : Prop :=
  forall devid, devid < 4 -> store.Unused devid ->
    forall parcel, parcel ∈ parcels devid store.events -> parcel.limit ≤ store.frontier devid

section Allocation

variable {store : Store} {ip : Nat}

theorem nextChunk_lt (store : Store) (ip : Nat) : (store.nextChunk ip).1 < 4 :=
  Nat.mod_lt _ (by decide)

theorem allocateChunk_nvmstartblock (store : Store) (ip : Nat) (cursor : Cursor) :
    (store.allocateChunk ip cursor).nvmstartblock = store.nvmstartblock :=
  rfl

theorem parcels_allocateChunk (store : Store) (ip : Nat) (cursor : Cursor) (devid : Nat) :
    parcels devid (store.allocateChunk ip cursor).events =
      parcels devid store.events ++
        if (store.nextChunk ip).1 = devid then [⟨ip, (store.nextChunk ip).2⟩] else [] := by
  rw [allocateChunk_events, parcels_append]
  by_cases same : (store.nextChunk ip).1 = devid <;> simp [parcels, Event.parcelOn, same]

theorem device_cases {devid : Nat} (device : devid < 4) :
    devid = 0 ∨ devid = 1 ∨ devid = 2 ∨ devid = 3 := by
  omega

theorem allocateNvmblock_counter {start : Nat} {info : AddrInfo} {other : Nat} (device : other < 4)
    (different : other ≠ 0) :
    (allocateNvmblock start 512 info).2.counter other = info.counter other := by
  unfold allocateNvmblock
  by_cases room : add64 info.nvmBlockAddr 512 ≤ nvmSize
  · rw [if_pos room]
    rcases device_cases device with equal | equal | equal | equal
    · exact absurd equal different
    all_goals simp only [equal, AddrInfo.counter]
  · rw [if_neg room]
    rcases device_cases device with equal | equal | equal | equal
    · exact absurd equal different
    all_goals simp only [equal, AddrInfo.counter]

/-- An allocation moves the counter of its own device only. -/
theorem allocateOn_counter_other {start : Nat} {info : AddrInfo} {devid other : Nat}
    (turn : devid < 4) (device : other < 4) (different : other ≠ devid) :
    (allocateOn start info devid).2.counter other = info.counter other := by
  rcases device_cases turn with equal | equal | equal | equal
  · rw [equal] at different ⊢
    exact allocateNvmblock_counter device different
  all_goals
    rw [equal] at different ⊢
    rcases device_cases device with same | same | same | same <;> rw [same] at different ⊢ <;>
      first | rfl | exact absurd rfl different

theorem allocateOn_counter_ssd {start : Nat} {info : AddrInfo} {devid : Nat} (turn : devid < 4)
    (onSsd : devid ≠ 0) :
    (allocateOn start info devid).1 = shl64 (info.counter devid) 21 ∧
      (allocateOn start info devid).2.counter devid = info.counter devid + 1 := by
  rcases device_cases turn with equal | equal | equal | equal
  · exact absurd equal onSsd
  all_goals rw [equal]; exact ⟨rfl, rfl⟩

theorem allocateOn_counter_nvm {start : Nat} {info : AddrInfo}
    (room : info.counter 0 + 512 ≤ nvmSize) :
    (allocateOn start info 0).1 = info.counter 0 * 4096 ∧
      (allocateOn start info 0).2.counter 0 = info.counter 0 + 512 := by
  change (allocateNvmblock start 512 info).1 = _ ∧ (allocateNvmblock start 512 info).2.counter 0 = _
  change info.nvmBlockAddr + 512 ≤ nvmSize at room
  have sum : add64 info.nvmBlockAddr 512 = info.nvmBlockAddr + 512 := by
    apply add64_of_lt
    unfold nvmSize at room
    omega
  unfold allocateNvmblock
  rw [sum, if_pos room]
  refine ⟨?_, rfl⟩
  apply low_of_lt
  unfold nvmSize at room
  omega

/-- The allocation on one device leaves the frontier of the others. -/
theorem frontier_allocateChunk_other (cursor : Cursor) {devid : Nat} (device : devid < 4)
    (different : (store.nextChunk ip).1 ≠ devid) :
    (store.allocateChunk ip cursor).frontier devid = store.frontier devid := by
  unfold Store.frontier
  rw [allocateChunk_addrinfo,
    allocateOn_counter_other (nextChunk_lt store ip) device (Ne.symm different)]

/-- An allocation on an SSD starts at its frontier, and so does one on the NVM as
long as there is room. -/
theorem nextChunk_base (room : (store.nextChunk ip).1 = 0 ->
      store.addrinfo.counter 0 + 512 ≤ nvmSize) :
    (store.nextChunk ip).2 = store.frontier (store.nextChunk ip).1 := by
  have turn := nextChunk_lt store ip
  change (allocateOn store.nvmstartblock store.addrinfo (store.nextChunk ip).1).1 = _
  unfold Store.frontier
  by_cases onNvm : (store.nextChunk ip).1 = 0
  · rw [if_pos onNvm, onNvm]
    exact (allocateOn_counter_nvm (room onNvm)).1
  · rw [if_neg onNvm]
    exact (allocateOn_counter_ssd turn onNvm).1

theorem unwrapped_of_allocateChunk (cursor : Cursor)
    (unwrapped : (store.allocateChunk ip cursor).Unwrapped) : store.Unwrapped := by
  unfold Store.Unwrapped at *
  rw [allocateChunk_nvmstartblock, parcels_allocateChunk, List.length_append] at unwrapped
  omega

theorem unused_of_allocateChunk (cursor : Cursor) {devid : Nat}
    (unused : (store.allocateChunk ip cursor).Unused devid) : store.Unused devid :=
  fun onNvm => unwrapped_of_allocateChunk cursor (unused onNvm)

/-- Before a wrap there is room for the chunk that was allocated. -/
theorem Parcelled.room (parcelled : Parcelled store) (cursor : Cursor)
    (unused : (store.allocateChunk ip cursor).Unused (store.nextChunk ip).1) :
    (store.nextChunk ip).1 = 0 -> store.addrinfo.counter 0 + 512 ≤ nvmSize := by
  intro onNvm
  have unwrapped := unused onNvm
  have counter := parcelled.counter (unwrapped_of_allocateChunk cursor unwrapped)
  have longer : (parcels 0 (store.allocateChunk ip cursor).events).length =
      (parcels 0 store.events).length + 1 := by
    rw [parcels_allocateChunk, if_pos onNvm, List.length_append, List.length_singleton]
  unfold Store.Unwrapped at unwrapped
  rw [allocateChunk_nvmstartblock, longer] at unwrapped
  rw [counter, Nat.add_assoc, ← Nat.mul_succ]
  exact unwrapped

/-- A new chunk lies behind the old ones. -/
theorem Parcelled.allocateChunk (parcelled : Parcelled store) (fronted : Fronted store)
    (ip : Nat) (cursor : Cursor) : Parcelled (store.allocateChunk ip cursor) := by
  constructor
  · intro devid device unused
    have before := parcelled.separated devid device (unused_of_allocateChunk cursor unused)
    rw [parcels_allocateChunk]
    by_cases same : (store.nextChunk ip).1 = devid
    · subst same
      have base := nextChunk_base (parcelled.room cursor unused)
      rw [if_pos rfl]
      have separated : Interval.Separated Parcel.base Parcel.limit
          (parcels (store.nextChunk ip).1 store.events ++ []) := by simpa using before
      refine separated.insert ?_ ?_ (by simp)
      · exact Nat.lt_add_of_pos_right (by decide)
      · intro parcel member
        change parcel.limit ≤ (store.nextChunk ip).2
        rw [base]
        exact fronted _ device (unused_of_allocateChunk cursor unused) parcel member
    · rw [if_neg same, List.append_nil]
      exact before
  · intro unwrapped
    have counter := parcelled.counter (unwrapped_of_allocateChunk cursor unwrapped)
    rw [allocateChunk_nvmstartblock, parcels_allocateChunk, allocateChunk_addrinfo,
      List.length_append]
    by_cases onNvm : (store.nextChunk ip).1 = 0
    · have room := parcelled.room cursor (fun _ => unwrapped) onNvm
      rw [onNvm, if_pos rfl, List.length_singleton, (allocateOn_counter_nvm room).2]
      omega
    · rw [if_neg onNvm, List.length_nil, Nat.add_zero, ← counter,
        allocateOn_counter_other (nextChunk_lt store ip) (by decide) (Ne.symm onNvm)]

/-- The frontier moves behind a new chunk, if the chunk lies on its device. -/
theorem frontier_allocateChunk_self (cursor : Cursor)
    (room : (store.nextChunk ip).1 = 0 -> store.addrinfo.counter 0 + 512 ≤ nvmSize)
    (onDevice : (store.nextChunk ip).2 < devSize ((store.nextChunk ip).1 + 1)) :
    (store.allocateChunk ip cursor).frontier (store.nextChunk ip).1 =
      (store.nextChunk ip).2 + chunkSize := by
  have base := nextChunk_base room
  have turn := nextChunk_lt store ip
  have small := Nat.lt_trans onDevice (devSize_lt ((store.nextChunk ip).1 + 1))
  rw [base] at small ⊢
  unfold Store.frontier at *
  rw [allocateChunk_addrinfo]
  by_cases onNvm : (store.nextChunk ip).1 = 0
  · rw [if_pos onNvm, if_pos onNvm, onNvm, (allocateOn_counter_nvm (room onNvm)).2]
    unfold chunkSize
    omega
  · rw [if_neg onNvm] at small
    rw [if_neg onNvm, if_neg onNvm, (allocateOn_counter_ssd turn onNvm).2]
    rw [shl64_chunk] at small ⊢
    rw [shl64_chunk]
    unfold chunkSize at *
    omega

theorem Fronted.allocateChunk (fronted : Fronted store) (parcelled : Parcelled store)
    (cursor : Cursor) (onDevice : (store.nextChunk ip).2 < devSize ((store.nextChunk ip).1 + 1)) :
    Fronted (store.allocateChunk ip cursor) := by
  intro devid device unused parcel member
  have before := fronted devid device (unused_of_allocateChunk cursor unused) parcel
  rw [parcels_allocateChunk, List.mem_append] at member
  by_cases same : (store.nextChunk ip).1 = devid
  · subst same
    have room := parcelled.room cursor unused
    rw [frontier_allocateChunk_self cursor room onDevice]
    rw [if_pos rfl, List.mem_singleton] at member
    rcases member with old | new
    · have below := before old
      rw [← nextChunk_base room] at below
      omega
    · subst new
      simp only [Parcel.limit, Nat.le_refl]
  · rw [frontier_allocateChunk_other cursor device same]
    rw [if_neg same] at member
    rcases member with old | new
    · exact before old
    · cases new

end Allocation

end Userfs.Filesystem
