import Userfs.Filesystem.Extents
import Userfs.Filesystem.Parcels

namespace Userfs.Filesystem

open Ds
open Io
open SearchTree

/-!
# What the devices hold

As long as the chunks of all files are disjoint, an append changes no byte that was
appended before, neither in its own file nor in another one.  After a run of appends
the devices hold, at the places that the block trees name, exactly the bytes that the
callers gave.  The chunks are disjoint until the NVM allocator starts again.
-/

/-! ## Chunks of files are disjoint -/

section Disjoint

variable {store : Store} {ip other : Nat}

theorem Event.parcelOn_of_chunkFor {event : Event} {cursor : Cursor} {chunk : Nat × Nat}
    (allocated : event.chunkFor ip cursor = some chunk) :
    event.parcelOn chunk.1 = some ⟨ip, chunk.2⟩ := by
  cases event with
  | alloc inode target devid base =>
      simp only [Event.chunkFor] at allocated
      split at allocated
      · rename_i both
        cases allocated
        simp [Event.parcelOn, both.1]
      · cases allocated
  | write inode off bh => cases allocated
  | logged inode extent => cases allocated

/-- Two chunks of one file that lie on the same device, in the order of their
allocation. -/
theorem Parcelled.stripes_ordered (parcelled : Parcelled store) (ip : Nat) :
    (store.stripes ip).Pairwise (fun first second => first.1 = second.1 -> first.1 < 4 ->
      store.Unused first.1 -> first.2 + chunkSize ≤ second.2) := by
  unfold Store.stripes chunks
  rw [List.pairwise_filterMap, List.pairwise_iff_forall_sublist]
  intro first second sublist chunk allocated later allocatedLater same device unused
  have ordered := (parcelled.separated chunk.1 device unused).ordered
  unfold parcels at ordered
  rw [List.pairwise_filterMap, List.pairwise_iff_forall_sublist] at ordered
  have second := Event.parcelOn_of_chunkFor allocatedLater
  rw [← same] at second
  exact ordered sublist _ (Event.parcelOn_of_chunkFor allocated) _ second

/-- Different chunks of one file share no address of a device. -/
theorem Parcelled.stripes_apart (parcelled : Parcelled store) {first second : Nat}
    {chunk later : Nat × Nat} (found : (store.stripes ip)[first]? = some chunk)
    (foundLater : (store.stripes ip)[second]? = some later) (different : first ≠ second)
    (same : chunk.1 = later.1) (device : chunk.1 < 4) (unused : store.Unused chunk.1) :
    chunk.2 + chunkSize ≤ later.2 ∨ later.2 + chunkSize ≤ chunk.2 := by
  have pairwise := List.pairwise_iff_getElem.mp (parcelled.stripes_ordered ip)
  rcases List.getElem?_eq_some_iff.mp found with ⟨bound, equal⟩
  rcases List.getElem?_eq_some_iff.mp foundLater with ⟨boundLater, equalLater⟩
  rcases Nat.lt_or_gt_of_ne different with before | behind
  · have ordered := pairwise first second bound boundLater before
    rw [equal, equalLater] at ordered
    exact .inl (ordered same device unused)
  · have ordered := pairwise second first boundLater bound behind
    rw [equal, equalLater] at ordered
    exact .inr (ordered same.symm (same ▸ device) (same ▸ unused))

/-- A chunk of a file is a parcel of its device. -/
theorem mem_parcels_of_stripe {index : Nat} {chunk : Nat × Nat}
    (found : (store.stripes ip)[index]? = some chunk) :
    (⟨ip, chunk.2⟩ : Parcel) ∈ parcels chunk.1 store.events := by
  rcases List.mem_filterMap.mp (List.mem_of_getElem? found) with ⟨event, member, allocated⟩
  exact List.mem_filterMap.mpr ⟨event, member, Event.parcelOn_of_chunkFor allocated⟩

/-- Chunks of different files share no address of a device. -/
theorem Parcelled.files_apart (parcelled : Parcelled store) {first second : Nat}
    {chunk foreign : Nat × Nat} (found : (store.stripes ip)[first]? = some chunk)
    (foundForeign : (store.stripes other)[second]? = some foreign) (different : other ≠ ip)
    (same : chunk.1 = foreign.1) (device : chunk.1 < 4) (unused : store.Unused chunk.1) :
    chunk.2 + chunkSize ≤ foreign.2 ∨ foreign.2 + chunkSize ≤ chunk.2 := by
  have separated := parcelled.separated chunk.1 device unused
  have member := mem_parcels_of_stripe found
  have memberForeign := mem_parcels_of_stripe foundForeign
  rw [← same] at memberForeign
  by_contra meets
  have point : Interval.Covers Parcel.base Parcel.limit ⟨ip, chunk.2⟩ (max chunk.2 foreign.2) := by
    unfold Interval.Covers Parcel.limit
    simp only
    unfold chunkSize at *
    omega
  have pointForeign : Interval.Covers Parcel.base Parcel.limit ⟨other, foreign.2⟩
      (max chunk.2 foreign.2) := by
    unfold Interval.Covers Parcel.limit
    simp only
    unfold chunkSize at *
    omega
  have equal := separated.unique memberForeign member pointForeign point
  exact different (congrArg Parcel.inode equal)

end Disjoint

/-! ## Appended bytes stay -/

/-- The devices hold the bytes of a file at the places of its chunks, unless the NVM
allocator has started again. -/
def Held (store : Store) (ip : Nat) (bytes : List UInt8) : Prop :=
  store.Unwrapped -> forall offset byte, bytes[offset]? = some byte ->
    forall location, LocatedAt (store.stripes ip) offset location ->
      store.disk location.1 location.2 = byte

section Transfer

variable {store next : Store} {ip other off size : Nat} {data : Nat -> UInt8} {inode : Inode}
  {bytes : List UInt8} {bh : BufferHead}

theorem Transferred.parcels_eq (made : Transferred store next ip off bh inode) (devid : Nat) :
    parcels devid next.events = parcels devid store.events := by
  rcases made.events with ⟨extent, events⟩
  rw [events, parcels_append, parcels_transfer, List.append_nil]

theorem Transferred.unwrapped_iff (made : Transferred store next ip off bh inode) :
    next.Unwrapped <-> store.Unwrapped := by
  unfold Store.Unwrapped
  rw [made.parcels_eq, made.nvmstartblock]

theorem Transferred.unused_iff (made : Transferred store next ip off bh inode) (devid : Nat) :
    next.Unused devid <-> store.Unused devid := by
  unfold Store.Unused
  rw [made.unwrapped_iff]

theorem Parcelled.transferred (parcelled : Parcelled store)
    (made : Transferred store next ip off bh inode) : Parcelled next := by
  constructor
  · intro devid device unused
    rw [made.parcels_eq]
    exact parcelled.separated devid device ((made.unused_iff devid).mp unused)
  · intro unwrapped
    rw [made.addrinfo, made.nvmstartblock, made.parcels_eq]
    exact parcelled.counter (made.unwrapped_iff.mp unwrapped)

theorem Fronted.transferred (fronted : Fronted store)
    (made : Transferred store next ip off bh inode) : Fronted next := by
  intro devid device unused
  have frontier : next.frontier devid = store.frontier devid := by
    unfold Store.frontier
    rw [made.addrinfo]
  rw [made.parcels_eq, frontier]
  exact fronted devid device ((made.unused_iff devid).mp unused)

/-- A transfer changes its own range only. -/
theorem Transferred.disk_outside (made : Transferred store next ip off bh inode) {dev address : Nat}
    (outside : dev = bh.dev -> address < bh.address ∨ bh.address + bh.size ≤ address) :
    next.disk dev address = store.disk dev address := by
  rw [made.disk]
  unfold Disk.update
  split
  · rename_i same
    rw [Memory.copy_outside _ _ (outside same), same]
  · rfl

theorem Transferred.disk_inside (made : Transferred store next ip off bh inode) {address : Nat}
    (lower : bh.address ≤ address) (upper : address < bh.address + bh.size) :
    next.disk bh.dev address = bh.data (address - bh.address) := by
  rw [made.disk]
  unfold Disk.update
  rw [if_pos rfl, Memory.copy_inside _ _ lower upper]

/-- A transfer to the current chunk of a file keeps what lies in another chunk. -/
theorem Place.keeps {chunk foreign : Nat × Nat} (place : Place store ip off chunk)
    (whole : WholePiece off size)
    (made : Transferred store next ip off ((store.inode ip).appendHead size data) inode)
    (apart : chunk.1 = foreign.1 -> chunk.2 + chunkSize ≤ foreign.2 ∨ foreign.2 + chunkSize ≤ chunk.2)
    (offset : Nat) :
    next.disk (foreign.1 + 1) (foreign.2 + offset % chunkSize) =
      store.disk (foreign.1 + 1) (foreign.2 + offset % chunkSize) := by
  have inChunk := whole.inChunk
  have within : offset % chunkSize < chunkSize := Nat.mod_lt _ (by decide)
  have dev : ((store.inode ip).appendHead size data).dev = chunk.1 + 1 := place.dev
  apply made.disk_outside
  intro same
  rw [dev] at same
  rw [place.address whole.start]
  change _ ∨ chunk.2 + off % chunkSize + size ≤ _
  rcases apart (by omega) with before | behind <;> omega

/-- An append keeps the bytes of its file and adds the new ones. -/
theorem Held.transferred (held : Held store ip bytes) (length : bytes.length = off)
    (parcelled : Parcelled store) {chunk : Nat × Nat} (place : Place store ip off chunk)
    (whole : WholePiece off size)
    (made : Transferred store next ip off ((store.inode ip).appendHead size data) inode) :
    Held next ip (bytes ++ Memory.slice data 0 size) := by
  intro unwrapped offset byte found location located
  have inChunk := whole.inChunk
  rw [made.stripes] at located
  rcases located with ⟨itsChunk, foundChunk, equal⟩
  subst equal
  by_cases old : offset < bytes.length
  · rw [List.getElem?_append_left old] at found
    have before := held (made.unwrapped_iff.mp unwrapped) offset byte found _
      ⟨itsChunk, foundChunk, rfl⟩
    rw [← before]
    by_cases current : offset / chunkSize = off / chunkSize
    · -- in the current chunk, before the piece
      rw [current, place.found] at foundChunk
      cases foundChunk
      have dev : ((store.inode ip).appendHead size data).dev = chunk.1 + 1 := place.dev
      apply made.disk_outside
      intro _
      rw [place.address whole.start]
      left
      unfold chunkSize at *
      omega
    · apply place.keeps whole made
      intro same
      exact parcelled.stripes_apart place.found foundChunk (fun equal => current equal.symm) same
        place.device (fun _ => made.unwrapped_iff.mp unwrapped)
  · rw [List.getElem?_append_right (Nat.le_of_not_lt old), length] at found
    rcases List.getElem?_eq_some_iff.mp found with ⟨bound, value⟩
    rw [Memory.length_slice] at bound
    have same := whole.same_chunk (by omega : off ≤ offset) (by omega)
    rw [same.1, place.found] at foundChunk
    cases foundChunk
    have dev : ((store.inode ip).appendHead size data).dev = chunk.1 + 1 := place.dev
    have address := @Place.address store ip off chunk place whole.start size data
    have position : chunk.2 + offset % chunkSize = chunk.2 + off % chunkSize + (offset - off) := by
      rw [same.2, Nat.add_assoc]
    have inside : next.disk ((store.inode ip).appendHead size data).dev (chunk.2 + offset % chunkSize) =
        data (chunk.2 + offset % chunkSize - ((store.inode ip).appendHead size data).address) := by
      apply made.disk_inside
      · rw [address]
        omega
      · rw [address]
        change _ < chunk.2 + off % chunkSize + size
        omega
    rw [dev, address, position, Nat.add_sub_cancel_left] at inside
    rw [position, inside, ← value, Memory.getElem_slice, Nat.zero_add]

/-- An append to one file keeps the bytes of another. -/
theorem Held.transferred_other (held : Held store other bytes) (different : other ≠ ip)
    (parcelled : Parcelled store) {chunk : Nat × Nat} (place : Place store ip off chunk)
    (whole : WholePiece off size)
    (made : Transferred store next ip off ((store.inode ip).appendHead size data) inode) :
    Held next other bytes := by
  intro unwrapped offset byte found location located
  rw [made.stripes] at located
  have before := held (made.unwrapped_iff.mp unwrapped) offset byte found location located
  rcases located with ⟨foreign, foundForeign, equal⟩
  subst equal
  rw [← before]
  apply place.keeps whole made
  intro same
  exact parcelled.files_apart place.found foundForeign different same place.device
    (fun _ => made.unwrapped_iff.mp unwrapped)

theorem unwrapped_of_appendReady (unwrapped : (store.appendReady ip).Unwrapped) : store.Unwrapped := by
  by_cases due : (store.inode ip).AppendDue
  · rw [appendReady_pos due] at unwrapped
    exact unwrapped_of_allocateChunk .append unwrapped
  · rw [appendReady_neg due] at unwrapped
    exact unwrapped

theorem appendReady_disk (store : Store) (ip : Nat) : (store.appendReady ip).disk = store.disk := by
  by_cases due : (store.inode ip).AppendDue
  · rw [appendReady_pos due]
    rfl
  · rw [appendReady_neg due]

/-- The allocation step keeps the places of the bytes that a file has. -/
theorem Held.appendReady (held : Held store ip bytes)
    (covered : bytes.length ≤ (store.stripes ip).length * chunkSize) :
    Held (store.appendReady ip) ip bytes := by
  intro unwrapped offset byte found location located
  rw [appendReady_disk]
  refine held (unwrapped_of_appendReady unwrapped) offset byte found location ?_
  have bound := (List.getElem?_eq_some_iff.mp found).1
  by_cases due : (store.inode ip).AppendDue
  · rw [appendReady_pos due, stripes_allocateChunk] at located
    rcases located with ⟨chunk, foundChunk, equal⟩
    rw [List.getElem?_append_left (by unfold chunkSize at *; omega)] at foundChunk
    exact ⟨chunk, foundChunk, equal⟩
  · rw [appendReady_neg due] at located
    exact located

theorem Held.appendReady_other (held : Held store other bytes) (different : other ≠ ip) :
    Held (store.appendReady ip) other bytes := by
  intro unwrapped
  have same : (store.appendReady ip).stripes other = store.stripes other := by
    by_cases due : (store.inode ip).AppendDue
    · rw [appendReady_pos due]
      exact (Apart.allocateChunk store ip .append).chunks_other different .append
    · rw [appendReady_neg due]
  rw [same, appendReady_disk]
  exact held (unwrapped_of_appendReady unwrapped)

theorem Parcelled.appendReady (parcelled : Parcelled store) (fronted : Fronted store) :
    Parcelled (store.appendReady ip) := by
  by_cases due : (store.inode ip).AppendDue
  · rw [appendReady_pos due]
    exact parcelled.allocateChunk fronted ip .append
  · rw [appendReady_neg due]
    exact parcelled

theorem Fronted.appendReady (fronted : Fronted store) (parcelled : Parcelled store)
    (onDevice : (store.inode ip).AppendDue ->
      (store.nextChunk ip).2 < devSize ((store.nextChunk ip).1 + 1)) :
    Fronted (store.appendReady ip) := by
  by_cases due : (store.inode ip).AppendDue
  · rw [appendReady_pos due]
    exact fronted.allocateChunk parcelled .append (onDevice due)
  · rw [appendReady_neg due]
    exact fronted

end Transfer

/-! ## Runs -/

/-- The bytes that a sequence of requests appends to a file. -/
def contents (ip : Nat) (calls : List AppendCall) : List UInt8 :=
  calls.flatMap (fun call => if call.ip = ip then Memory.slice call.buf 0 call.count else [])

/-- The state between two pieces of a request for one file: its extents, and the
bytes of all files. -/
structure Stocked (files : List Nat) (bytes : Nat -> List UInt8) (ip off : Nat) (store : Store) :
    Prop where
  packed : Packed store ip off
  parcelled : Parcelled store
  fronted : Fronted store
  length : (bytes ip).length = off
  held : forall other, other ∈ files -> Held store other (bytes other)

section Request

variable {files : List Nat} {bytes : Nat -> List UInt8} {store next : Store} {ip off size : Nat}
  {data : Nat -> UInt8}

/-- A completed piece. -/
theorem Stocked.made (stocked : Stocked files bytes ip off store) (sound : Sound store)
    (striped : Striped store ip off) (whole : WholePiece off size)
    (made : AppendMade store next ip off size data) :
    Stocked files (Function.update bytes ip (bytes ip ++ Memory.slice data 0 size)) ip (off + size)
      next := by
  rcases (striped.ready sound).place with ⟨chunk, place, _⟩
  have fits := place.fits whole.start made
  have positive := whole.positive
  have onDevice : (store.inode ip).AppendDue ->
      (store.nextChunk ip).2 < devSize ((store.nextChunk ip).1 + 1) := by
    intro due
    rw [striped.nextChunk_eq place due]
    omega
  have parcelled := @Parcelled.appendReady store ip stocked.parcelled stocked.fronted
  have length := stocked.length
  refine ⟨stocked.packed.made sound striped whole made, parcelled.transferred made,
    (stocked.fronted.appendReady stocked.parcelled onDevice).transferred made, ?_, ?_⟩
  · rw [Function.update_self, List.length_append, Memory.length_slice, length]
  · intro other member
    by_cases same : other = ip
    · subst same
      rw [Function.update_self]
      have covered := striped.tracked.covered
      exact ((stocked.held other member).appendReady (by omega)).transferred length parcelled place
        whole made
    · rw [Function.update_of_ne same]
      exact ((stocked.held other member).appendReady_other same).transferred_other same parcelled
        place whole made

theorem Stocked.resize (stocked : Stocked files bytes ip off store) (newSize : Inode -> Nat) :
    Stocked files bytes ip off
      (store.updateInode ip (fun inode => { inode with size := newSize inode })) :=
  ⟨stocked.packed.resize newSize, ⟨stocked.parcelled.separated, stocked.parcelled.counter⟩,
    stocked.fronted, stocked.length, stocked.held⟩

end Request

/-- A session of appends between two requests: every file is striped and has one
extent for each chunk, and the devices hold its bytes. -/
structure Filed (files : List Nat) (bytes : Nat -> List UInt8) (store : Store) : Prop where
  all : AllStriped files store
  packed : forall ip, ip ∈ files -> Packed store ip (store.inode ip).size
  parcelled : Parcelled store
  fronted : Fronted store
  length : forall ip, ip ∈ files -> (bytes ip).length = (store.inode ip).size
  held : forall ip, ip ∈ files -> Held store ip (bytes ip)

theorem NewFiles.filed {files : List Nat} {store : Store} (new : NewFiles files store) :
    Filed files (fun _ => []) store := by
  have stripes : forall ip, store.stripes ip = [] := by
    intro ip
    unfold Store.stripes
    rw [new.events]
    rfl
  have none : forall devid, parcels devid store.events = [] := by
    intro devid
    rw [new.events]
    rfl
  refine ⟨new.allStriped, ?_, ⟨?_, ?_⟩, ?_, ?_, ?_⟩
  · intro ip member
    rcases new.created ip member with ⟨inum, usednvms, rwnvmsize, height, created⟩
    constructor
    · rw [created]
      simp [Inode.created, inorder]
    · simp [stripes]
  · intro devid _ _
    rw [none]
    exact ⟨by simp, List.Pairwise.nil⟩
  · intro _
    rw [none]
    exact new.start.symm
  · intro devid _ _
    simp [none]
  · intro ip member
    rcases new.created ip member with ⟨inum, usednvms, rwnvmsize, height, created⟩
    rw [created]
    rfl
  · intro ip _ _ offset byte found
    cases found

theorem ensures_execute_filed {files : List Nat} {bytes : Nat -> List UInt8} {store : Store}
    {call : AppendCall} (filed : Filed files bytes store) (admissible : call.Admissible files) :
    Ensures call.execute store
      (fun _ next => Filed files
        (Function.update bytes call.ip (bytes call.ip ++ Memory.slice call.buf 0 call.count)) next)
      OffDevice := by
  have own := filed.all.striped call.ip admissible.member
  unfold AppendCall.execute AppendCall.write
  simp only [Ensures.bind_iff, ensures_readInode, Ensures.pure_iff]
  -- the request has appended a first part of its data to the file
  have request := @ensures_append_request_keeping store call.ip _ filed.all.sound own rfl call.buf
    call.count admissible.length admissible.small
    (fun done middle => Stocked files
      (Function.update bytes call.ip (bytes call.ip ++ Memory.slice call.buf 0 done)) call.ip
      ((store.inode call.ip).size + done) middle) ?_ ?_ ?_
  · apply request.mono
    · rintro _ next ⟨_, growing, stocked⟩
      refine ⟨⟨growing.sound, ?_⟩, ?_, stocked.parcelled, stocked.fronted, ?_, stocked.held⟩
      all_goals
        intro ip member
        by_cases same : ip = call.ip
      · rw [same, growing.size]
        exact growing.striped
      · rw [growing.framed.inode ip same]
        exact (filed.all.striped ip member).frame growing.framed same
      · rw [same, growing.size]
        exact stocked.packed
      · rw [growing.framed.inode ip same]
        exact (filed.packed ip member).frame growing.framed.toApart same
      · rw [same, growing.size]
        exact stocked.length
      · rw [Function.update_of_ne same, growing.framed.inode ip same]
        exact filed.length ip member
    · exact fun _ _ fault => fault
  · intro done size middle next growing stocked whole made
    have after := stocked.made growing.sound growing.striped whole made
    rw [Function.update_self, Function.update_idem, List.append_assoc] at after
    have joined : Memory.slice call.buf 0 (done + size) =
        Memory.slice call.buf 0 done ++ Memory.slice (fun index => call.buf (done + index)) 0 size := by
      rw [Memory.slice_append]
      congr 1
      exact Memory.slice_congr (fun index _ => by simp)
    rw [joined, ← Nat.add_assoc]
    exact after
  · exact fun _ _ newSize stocked => stocked.resize newSize
  · have same : Function.update bytes call.ip (bytes call.ip ++ Memory.slice call.buf 0 0) = bytes := by
      rw [Memory.slice_zero, List.append_nil, Function.update_eq_self]
    rw [same]
    exact ⟨filed.packed call.ip admissible.member, filed.parcelled, filed.fronted,
      filed.length call.ip admissible.member, filed.held⟩

/-- After a run of appends the devices hold what was appended. -/
theorem ensures_appends_filed {files : List Nat} {store : Store} {calls : List AppendCall}
    (new : NewFiles files store)
    (admissible : forall call, call ∈ calls -> call.Admissible files) :
    Ensures (runAll AppendCall.execute calls) store
      (fun _ next => Filed files (fun ip => contents ip calls) next)
      OffDevice := by
  apply @Ensures.runAll _ _ _ AppendCall.execute (AppendCall.Admissible files)
    (fun past next => Filed files (fun ip => contents ip past) next)
  · intro past call middle filed allowed
    apply (ensures_execute_filed filed allowed).mono
    · intro _ next after
      have bytes : Function.update (fun ip => contents ip past) call.ip
          (contents call.ip past ++ Memory.slice call.buf 0 call.count) =
          fun ip => contents ip (past ++ [call]) := by
        funext ip
        unfold contents
        rw [List.flatMap_append]
        by_cases same : ip = call.ip
        · subst same
          simp
        · have other : call.ip ≠ ip := fun equal => same equal.symm
          simp [same, other]
      rw [← bytes]
      exact after
    · exact fun _ _ fault => fault
  · exact new.filed
  · exact admissible

end Userfs.Filesystem
