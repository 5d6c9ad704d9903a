import Userfs.Filesystem.FileWrite
import Userfs.Filesystem.Striping

namespace Userfs.Filesystem

open Ds
open Io
open Word

/-!
# The overwrite cursor

Overwrites do not go where the bytes are: they are sent to the cursor `rwoff`, which
walks through chunks of its own.  Four copies of the code decide when such a chunk is
used up, by one formula if `devid` is zero and by another if it is not, and `devid`
belongs to whichever cursor allocated last.  Both formulas are right for both kinds of
chunk, because a chunk starts on a 2 MB boundary and every overwrite advances the cursor
by whole blocks.

The addresses therefore stay inside the chunk.  The device need not be the chunk's:
three of the four copies always write to device 1, and the fourth one to the device of
`devid`, which an append may have changed since the chunk was allocated.  The results
below take a proposition `aimed`; where it holds, every overwrite is sent to the device
of its chunk.

The ranges are read off the list of events.  A write of the file is an overwrite if it
starts below the size that the appends before it gave the file.
-/

/-! ## Overwrites in the list of events -/

/-- The device range of an overwrite, with the number, the device and the base of the
overwrite chunk that was allocated last before it. -/
structure OverwriteRange where
  chunk : Nat
  chunkDev : Nat
  base : Nat
  dev : Nat
  start : Nat
  size : Nat
deriving DecidableEq, Repr

/-- What the events say about the overwrites of a file: the size its appends gave it, the
number of overwrite chunks, the device field and the base of the last one, and the
ranges, latest first. -/
structure OverwriteTrace where
  size : Nat
  chunk : Nat
  devid : Nat
  base : Nat
  ranges : List OverwriteRange

/-- Take one event into account. -/
def OverwriteTrace.see (ip : Nat) (trace : OverwriteTrace) : Event -> OverwriteTrace
  | .alloc inode .overwrite devid base =>
      if inode = ip then { trace with chunk := trace.chunk + 1, devid := devid, base := base }
      else trace
  | .alloc _ .append _ _ => trace
  | .write inode off bh =>
      if inode = ip then
        if off < trace.size then
          { trace with
            ranges := ⟨trace.chunk, trace.devid + 1, trace.base, bh.dev, bh.address, bh.size⟩ ::
              trace.ranges }
        else { trace with size := off + bh.size }
      else trace
  | .logged _ _ => trace

/-- The overwrites of a file in a list of events. -/
def overwriteTrace (ip : Nat) (events : List Event) : OverwriteTrace :=
  events.foldl (OverwriteTrace.see ip) ⟨0, 0, 0, 0, []⟩

/-- The addresses are those of the chunk that was allocated last. -/
structure OverwriteRange.Addressed (range : OverwriteRange) : Prop where
  allocated : 0 < range.chunk
  lower : range.base ≤ range.start
  upper : range.start + range.size ≤ range.base + chunkSize

/-- A range inside the chunk that was allocated last, on its device. -/
structure OverwriteRange.InChunk (range : OverwriteRange) : Prop extends range.Addressed where
  device : range.dev = range.chunkDev

/-- The ranges of one chunk are disjoint, the later ones behind the earlier ones. -/
def Increasing (ranges : List OverwriteRange) : Prop :=
  ranges.Pairwise (fun later earlier =>
    later.chunk = earlier.chunk -> earlier.start + earlier.size ≤ later.start)

theorem overwriteTrace_append (ip : Nat) (first second : List Event) :
    overwriteTrace ip (first ++ second) =
      second.foldl (OverwriteTrace.see ip) (overwriteTrace ip first) :=
  List.foldl_append

/-- Events of other inodes are not seen. -/
theorem overwriteTrace_unseen {ip : Nat} {events : List Event}
    (unseen : forall event, event ∈ events -> event.inode ≠ ip) :
    overwriteTrace ip events = ⟨0, 0, 0, 0, []⟩ := by
  have steps : forall trace, events.foldl (OverwriteTrace.see ip) trace = trace := by
    induction events with
    | nil => exact fun _ => rfl
    | cons event rest ih =>
        intro trace
        have other := unseen event List.mem_cons_self
        have same : trace.see ip event = trace := by
          cases event with
          | alloc inode cursor devid base =>
              cases cursor with
              | append => rfl
              | overwrite => exact if_neg other
          | write inode off bh => exact if_neg other
          | logged inode extent => rfl
        rw [List.foldl_cons, same]
        exact ih (fun event member => unseen event (List.mem_cons_of_mem _ member)) trace
  exact steps _

/-! ## The invariant -/

/-- The events up to now are in order, and the cursor is behind the last range. -/
structure Traced (aimed : Prop) (store : Store) (ip size : Nat) : Prop where
  sound : Sound store
  device : (store.inode ip).devid < 4
  seen : (overwriteTrace ip store.events).size = size
  inside : forall range, range ∈ (overwriteTrace ip store.events).ranges ->
    range.Addressed ∧ range.chunk ≤ (overwriteTrace ip store.events).chunk
  onDevice : aimed -> forall range, range ∈ (overwriteTrace ip store.events).ranges ->
    range.dev = range.chunkDev
  increasing : Increasing (overwriteTrace ip store.events).ranges
  behind : forall range, range ∈ (overwriteTrace ip store.events).ranges ->
    range.chunk = (overwriteTrace ip store.events).chunk ->
    range.start + range.size ≤ (store.inode ip).rwoff

/-- The cursor stands on a block of the chunk that was allocated last. -/
structure AtChunk (store : Store) (ip : Nat) : Prop where
  allocated : 0 < (overwriteTrace ip store.events).chunk
  base : (store.inode ip).rwsoff = (overwriteTrace ip store.events).base
  aligned : (store.inode ip).rwsoff % chunkSize = 0
  small : (store.inode ip).rwsoff < 2 ^ 64
  block : (store.inode ip).rwoff % 4096 = 0

/-- Between two writes: no overwrite chunk yet, or the cursor has moved in it. -/
structure Cursored (aimed : Prop) (store : Store) (ip size : Nat) : Prop
    extends Traced aimed store ip size where
  unset : (overwriteTrace ip store.events).chunk = 0 ->
    (store.inode ip).rwoff = 0 ∧ (store.inode ip).rwsoff = 0
  current : 0 < (overwriteTrace ip store.events).chunk -> AtChunk store ip ∧
    (store.inode ip).rwsoff < (store.inode ip).rwoff ∧
      (store.inode ip).rwoff ≤ (store.inode ip).rwsoff + chunkSize

/-- Before the transfer of an overwrite: the chunk has room for it. -/
structure Roomy (aimed : Prop) (store : Store) (ip size room : Nat) : Prop
    extends Traced aimed store ip size where
  chunk : AtChunk store ip
  lower : (store.inode ip).rwsoff ≤ (store.inode ip).rwoff
  upper : (store.inode ip).rwoff + room ≤ (store.inode ip).rwsoff + chunkSize

/-! ## Where an overwrite is sent -/

section Aim

variable (store : Store) (ip : Nat) (due : Inode -> Prop) [DecidablePred due]

/-- Behind the allocation step the overwrite chunk is on the NVM: the chunk that is due
goes there, or the last one is there and has room. -/
def OnNvm : Prop :=
  if due (store.inode ip) then (store.inode ip).wrthdnum % 4 = 0
  else (overwriteTrace ip store.events).devid = 0

instance : Decidable (OnNvm store ip due) :=
  inferInstanceAs (Decidable (ite _ _ _))

/-- `devid` belongs to the overwrite chunk that was allocated last. -/
def ChunkDevid : Prop :=
  (store.inode ip).devid = (overwriteTrace ip store.events).devid

instance : Decidable (ChunkDevid store ip) :=
  inferInstanceAs (Decidable (_ = _))

/-- A request of whole blocks is sent to the devices of its chunks.  Its first piece is
the part of the request inside one 2 MB chunk of the file.  If it straddles the end of
the file, the part below goes to device 1; otherwise it goes to the device of `devid`, and
no later piece straddles. -/
def RequestAimed (off count : Nat) : Prop :=
  if (store.inode ip).size < off + min count (chunkSize - off % chunkSize) then
    OnNvm store ip (fun inode => inode.OverwriteDue ((store.inode ip).size - off))
  else
    ((store.inode ip).OverwriteDue (min count (chunkSize - off % chunkSize)) ∨ ChunkDevid store ip) ∧
      (off + count ≤ (store.inode ip).size ∨ (store.inode ip).size % chunkSize = 0)

instance (off count : Nat) : Decidable (RequestAimed store ip off count) :=
  inferInstanceAs (Decidable (ite _ _ _))

end Aim

section Allocation

variable {aimed : Prop} {store : Store} {ip size : Nat}

/-- Without a due chunk a small overwrite fits: the two formulas agree on a cursor that
stands on a block of an aligned chunk. -/
theorem Cursored.small_room (cursored : Cursored aimed store ip size)
    (notDue : ¬ (store.inode ip).SmallOverwriteDue) :
    0 < (overwriteTrace ip store.events).chunk ∧
      (store.inode ip).rwoff + 4096 ≤ (store.inode ip).rwsoff + chunkSize := by
  rw [Inode.SmallOverwriteDue, shl64_43_eq_zero] at notDue
  have allocated : 0 < (overwriteTrace ip store.events).chunk := by
    rcases Nat.eq_zero_or_pos (overwriteTrace ip store.events).chunk with none | some
    · have unset := cursored.unset none
      exfalso
      rw [unset.1, Nat.zero_mod] at notDue
      omega
    · exact some
  rcases cursored.current allocated with ⟨chunk, lower, upper⟩
  refine ⟨allocated, ?_⟩
  have aligned := chunk.aligned
  have block := chunk.block
  have used : sub64 (store.inode ip).rwoff (store.inode ip).rwsoff =
      (store.inode ip).rwoff - (store.inode ip).rwsoff := by
    have step := @sub64_add_left (store.inode ip).rwsoff
      ((store.inode ip).rwoff - (store.inode ip).rwsoff) (by unfold chunkSize at *; omega)
    rwa [Nat.add_sub_of_le (Nat.le_of_lt lower)] at step
  rw [Inode.rwDelta, used] at notDue
  unfold chunkSize at *
  omega

/-- Without a due chunk an overwrite of whole blocks fits. -/
theorem Cursored.whole_room (cursored : Cursored aimed store ip size) {length : Nat}
    (blocks : length % 4096 = 0) (notDue : ¬ (store.inode ip).OverwriteDue length) :
    0 < (overwriteTrace ip store.events).chunk ∧
      (store.inode ip).rwoff + length ≤ (store.inode ip).rwsoff + chunkSize := by
  rw [Inode.OverwriteDue, not_or] at notDue
  have allocated := (cursored.small_room notDue.2).1
  rcases cursored.current allocated with ⟨chunk, lower, upper⟩
  refine ⟨allocated, ?_⟩
  have aligned := chunk.aligned
  have block := chunk.block
  have fits := notDue.1
  have used := @sub64_add_left (store.inode ip).rwsoff
    ((store.inode ip).rwoff - (store.inode ip).rwsoff) (by unfold chunkSize at *; omega)
  rw [Nat.add_sub_of_le (Nat.le_of_lt lower)] at used
  rw [Inode.rwDelta, used] at fits
  unfold chunkSize at *
  omega

/-- An overwrite chunk becomes the target of the cursor. -/
theorem Inode.place_overwrite (inode : Inode) (devid base : Nat) :
    (inode.place .overwrite devid base).rwoff = base ∧
      (inode.place .overwrite devid base).rwsoff = base ∧
      (inode.place .overwrite devid base).devid = devid := by
  unfold Inode.place
  split <;> simp_all

/-- A chunk for appends does not touch the overwrite cursor. -/
theorem Inode.place_append_rw (inode : Inode) (devid base : Nat) :
    (inode.place .append devid base).rwoff = inode.rwoff ∧
      (inode.place .append devid base).rwsoff = inode.rwsoff ∧
      (inode.place .append devid base).devid = devid := by
  unfold Inode.place
  split <;> simp_all

theorem Traced.allocateChunk_seen (store : Store) (ip : Nat) :
    overwriteTrace ip (store.allocateChunk ip .overwrite).events =
      { overwriteTrace ip store.events with
        chunk := (overwriteTrace ip store.events).chunk + 1
        devid := (store.nextChunk ip).1
        base := (store.nextChunk ip).2 } := by
  rw [allocateChunk_events, overwriteTrace_append]
  exact if_pos rfl

theorem nextChunk_lt_word (store : Store) (ip : Nat) : (store.nextChunk ip).2 < 2 ^ 64 :=
  allocateOn_lt _ _ _

/-- Behind the allocation step, on the NVM. -/
theorem OnNvm.ready {due : Inode -> Prop} [DecidablePred due] (onNvm : OnNvm store ip due) :
    (overwriteTrace ip (store.allocateIf due ip .overwrite).events).devid = 0 := by
  unfold OnNvm at onNvm
  by_cases isDue : due (store.inode ip)
  · rw [if_pos isDue] at onNvm
    rw [allocateIf_pos .overwrite isDue, Traced.allocateChunk_seen]
    exact onNvm
  · rw [if_neg isDue] at onNvm
    rw [allocateIf_neg .overwrite isDue]
    exact onNvm

/-- A new overwrite chunk takes `devid` with it. -/
theorem chunkDevid_ready {due : Inode -> Prop} [DecidablePred due]
    (aim : due (store.inode ip) ∨ ChunkDevid store ip) :
    ChunkDevid (store.allocateIf due ip .overwrite) ip := by
  by_cases isDue : due (store.inode ip)
  · rw [allocateIf_pos .overwrite isDue, ChunkDevid, Traced.allocateChunk_seen, allocateChunk_inode_self]
    exact (Inode.place_overwrite _ _ _).2.2
  · rw [allocateIf_neg .overwrite isDue]
    exact aim.resolve_left isDue

/-- The allocation step of an overwrite makes room for it. -/
theorem Cursored.roomy (cursored : Cursored aimed store ip size) {due : Inode -> Prop}
    [DecidablePred due] {room : Nat} (small : room ≤ chunkSize)
    (fits : ¬ due (store.inode ip) -> 0 < (overwriteTrace ip store.events).chunk ∧
      (store.inode ip).rwoff + room ≤ (store.inode ip).rwsoff + chunkSize) :
    Roomy aimed (store.allocateIf due ip .overwrite) ip size room := by
  by_cases isDue : due (store.inode ip)
  · rw [allocateIf_pos .overwrite isDue]
    have seen := Traced.allocateChunk_seen store ip
    have allocated := cursored.sound.allocateChunk ip .overwrite
    have placed := Inode.place_overwrite (store.inode ip) (store.nextChunk ip).1 (store.nextChunk ip).2
    have inode := allocateChunk_inode_self store ip .overwrite
    have word := nextChunk_lt_word store ip
    constructor
    case toTraced =>
      constructor
      · exact allocated.1
      · rw [inode]
        change ((store.inode ip).place _ _ _).devid < 4
        rw [placed.2.2]
        exact Nat.mod_lt _ (by decide)
      · rw [seen]
        exact cursored.seen
      · rw [seen]
        intro range member
        have old := cursored.inside range member
        exact ⟨old.1, Nat.le_succ_of_le old.2⟩
      · rw [seen]
        exact cursored.onDevice
      · rw [seen]
        exact cursored.increasing
      · -- the new chunk has no range yet
        rw [seen]
        intro range member last
        have old := (cursored.inside range member).2
        have last : range.chunk = (overwriteTrace ip store.events).chunk + 1 := last
        omega
    case chunk =>
      constructor
      · rw [seen]
        exact Nat.succ_pos _
      · rw [seen, inode]
        exact placed.2.1
      · rw [inode]
        change ((store.inode ip).place _ _ _).rwsoff % _ = 0
        rw [placed.2.1]
        exact allocated.2
      · rw [inode]
        change ((store.inode ip).place _ _ _).rwsoff < _
        rw [placed.2.1]
        exact word
      · rw [inode]
        change ((store.inode ip).place _ _ _).rwoff % _ = 0
        rw [placed.1]
        have aligned := allocated.2
        unfold chunkSize at aligned
        omega
    case lower =>
      rw [inode]
      change ((store.inode ip).place _ _ _).rwsoff ≤ ((store.inode ip).place _ _ _).rwoff
      rw [placed.1, placed.2.1]
    case upper =>
      rw [inode]
      change ((store.inode ip).place _ _ _).rwoff + room ≤ ((store.inode ip).place _ _ _).rwsoff + _
      rw [placed.1, placed.2.1]
      omega
  · rw [allocateIf_neg .overwrite isDue]
    rcases fits isDue with ⟨allocated, upper⟩
    rcases cursored.current allocated with ⟨chunk, lower, _⟩
    exact ⟨cursored.toTraced, chunk, Nat.le_of_lt lower, upper⟩

end Allocation

/-! ## Steps that leave the cursor alone -/

section Transport

variable {aimed : Prop} {store next : Store} {ip size : Nat}

/-- A step that adds no range, allocates no overwrite chunk and keeps the cursor. -/
theorem Cursored.transport (cursored : Cursored aimed store ip size) {newSize : Nat} (sound : Sound next)
    (device : (next.inode ip).devid < 4)
    (seen : overwriteTrace ip next.events =
      { overwriteTrace ip store.events with size := newSize })
    (rwoff : (next.inode ip).rwoff = (store.inode ip).rwoff)
    (rwsoff : (next.inode ip).rwsoff = (store.inode ip).rwsoff) : Cursored aimed next ip newSize := by
  constructor
  case toTraced =>
    refine ⟨sound, device, by rw [seen], ?_, ?_, ?_, ?_⟩
    · rw [seen]
      exact cursored.inside
    · rw [seen]
      exact cursored.onDevice
    · rw [seen]
      exact cursored.increasing
    · rw [seen, rwoff]
      exact cursored.behind
  case unset =>
    rw [seen, rwoff, rwsoff]
    exact cursored.unset
  case current =>
    rw [seen, rwoff, rwsoff]
    intro allocated
    rcases cursored.current allocated with ⟨chunk, lower, upper⟩
    refine ⟨⟨?_, ?_, ?_, ?_, ?_⟩, lower, upper⟩
    · rw [seen]
      exact allocated
    · rw [seen, rwsoff]
      exact chunk.base
    · rw [rwsoff]
      exact chunk.aligned
    · rw [rwsoff]
      exact chunk.small
    · rw [rwoff]
      exact chunk.block

theorem Cursored.seen_same (cursored : Cursored aimed store ip size)
    (same : overwriteTrace ip next.events = overwriteTrace ip store.events) :
    overwriteTrace ip next.events = { overwriteTrace ip store.events with size := size } := by
  rw [same, ← cursored.seen]

/-- A chunk for appends. -/
theorem Cursored.allocateAppend (cursored : Cursored aimed store ip size) {due : Inode -> Prop}
    [DecidablePred due] : Cursored aimed (store.allocateIf due ip .append) ip size := by
  by_cases isDue : due (store.inode ip)
  · rw [allocateIf_pos .append isDue]
    have placed := Inode.place_append_rw (store.inode ip) (store.nextChunk ip).1 (store.nextChunk ip).2
    have inode := allocateChunk_inode_self store ip .append
    refine cursored.transport (cursored.sound.allocateChunk ip .append).1 ?_
      (cursored.seen_same ?_) ?_ ?_
    · rw [inode]
      change ((store.inode ip).place _ _ _).devid < 4
      rw [placed.2.2]
      exact Nat.mod_lt _ (by decide)
    · rw [allocateChunk_events, overwriteTrace_append]
      rfl
    · rw [inode]
      exact placed.1
    · rw [inode]
      exact placed.2.1
  · rw [allocateIf_neg .append isDue]
    exact cursored

/-- A lookup in the block tree. -/
theorem Cursored.consulted (cursored : Cursored aimed store ip size) (consulted : Consulted ip store next) :
    Cursored aimed next ip size := by
  rcases consulted.self with ⟨_, _, _, inode⟩
  have sound : Sound next := by
    rw [consulted.rest]
    exact ⟨cursored.sound.start, cursored.sound.counter, cursored.sound.layout⟩
  refine cursored.transport sound ?_ (cursored.seen_same ?_) ?_ ?_
  · rw [inode]
    exact cursored.device
  · rw [consulted.looked.events]
  · rw [inode]
  · rw [inode]

/-- A change of the size. -/
theorem Cursored.resize (cursored : Cursored aimed store ip size) (newSize : Inode -> Nat) :
    Cursored aimed (store.updateInode ip (fun inode => { inode with size := newSize inode })) ip size := by
  refine cursored.transport ⟨cursored.sound.start, cursored.sound.counter, cursored.sound.layout⟩ ?_
    (cursored.seen_same rfl) ?_ ?_
  · rw [updateInode_inode_self]
    exact cursored.device
  · rw [updateInode_inode_self]
  · rw [updateInode_inode_self]

theorem Completed.sound {off : Nat} {bh : BufferHead} {inode : Inode} (sound : Sound store)
    (made : Completed store next ip off bh inode) : Sound next := by
  refine ⟨?_, ?_, made.layout⟩
  · rw [made.nvmstartblock]
    exact sound.start
  · rw [made.addrinfo]
    exact sound.counter

/-- The transfer of an append, which starts at the size or behind it. -/
theorem Cursored.appended (cursored : Cursored aimed store ip size) {off length : Nat}
    {data : Nat -> UInt8} (atEnd : size ≤ off)
    (made : Transferred store next ip off ((store.inode ip).appendHead length data)
      ((store.inode ip).afterAppend store.environment.rebalancing off length)) :
    Cursored aimed next ip (off + length) := by
  have self : next.inode ip =
      (store.inode ip).afterAppend store.environment.rebalancing off length := by
    rw [made.inode, Function.update_self]
  have fields := Inode.afterAppend_fields (store.inode ip) store.environment.rebalancing off length
  rcases made.events with ⟨extent, events⟩
  refine cursored.transport (made.completed.sound cursored.sound) ?_ ?_ ?_ ?_
  · rw [self, fields.2.2.1]
    exact cursored.device
  · rw [events, overwriteTrace_append]
    have notBelow : ¬ off < (overwriteTrace ip store.events).size := by
      rw [cursored.seen]
      omega
    simp only [List.foldl_cons, List.foldl_nil, OverwriteTrace.see, if_true, if_neg notBelow]
    rfl
  · rw [self]
    unfold Inode.afterAppend Inode.noteAppend
    split <;> rfl
  · rw [self]
    unfold Inode.afterAppend Inode.noteAppend
    split <;> rfl

end Transport

/-! ## The transfer of an overwrite -/

section Overwrite

variable {aimed : Prop} {store next : Store} {ip size room : Nat}

theorem Roomy.address (roomy : Roomy aimed store ip size room) (positive : 0 < room) (dev length : Nat)
    (data : Nat -> UInt8) :
    ((store.inode ip).overwriteHead dev length data).address = (store.inode ip).rwoff := by
  have block := roomy.chunk.block
  have aligned := roomy.chunk.aligned
  have small := roomy.chunk.small
  have upper := roomy.upper
  unfold Inode.overwriteHead BufferHead.address shl64
  change low 64 ((store.inode ip).rwoff / 4096 * 4096) = _
  have whole : (store.inode ip).rwoff / 4096 * 4096 = (store.inode ip).rwoff := by omega
  rw [whole]
  refine low_of_lt ?_
  unfold chunkSize at *
  omega

/-- The range of the transfer is in the chunk and behind the ranges before it. -/
theorem Roomy.overwritten (roomy : Roomy aimed store ip size room) {dev off length : Nat}
    {data : Nat -> UInt8} (below : off < size) (positive : 0 < room) (blocks : room % 4096 = 0)
    (short : length ≤ room) (aim : aimed -> low 8 dev = (overwriteTrace ip store.events).devid + 1)
    (made : Completed store next ip off ((store.inode ip).overwriteHead dev length data)
      { store.inode ip with rwoff := (store.inode ip).rwoff + room }) :
    Cursored aimed next ip size ∧ (ChunkDevid store ip -> ChunkDevid next ip) := by
  have self : next.inode ip = { store.inode ip with rwoff := (store.inode ip).rwoff + room } := by
    rw [made.inode, Function.update_self]
  have address := roomy.address positive dev length data
  have lower := roomy.lower
  have upper := roomy.upper
  rcases made.events with ⟨extent, events⟩
  have seen : overwriteTrace ip next.events =
      { overwriteTrace ip store.events with
        ranges := ⟨(overwriteTrace ip store.events).chunk, (overwriteTrace ip store.events).devid + 1,
          (overwriteTrace ip store.events).base, low 8 dev, (store.inode ip).rwoff, length⟩ ::
            (overwriteTrace ip store.events).ranges } := by
    rw [events, overwriteTrace_append]
    have isBelow : off < (overwriteTrace ip store.events).size := by
      rw [roomy.seen]
      exact below
    simp only [List.foldl_cons, List.foldl_nil, OverwriteTrace.see, if_true, if_pos isBelow, address]
    rfl
  have base := roomy.chunk.base
  refine ⟨?_, fun settled => by rw [ChunkDevid, seen, self]; exact settled⟩
  constructor
  case toTraced =>
    constructor
    · exact made.sound roomy.sound
    · rw [self]
      exact roomy.device
    · rw [seen]
      exact roomy.seen
    · rw [seen]
      intro range member
      rcases List.mem_cons.mp member with new | old
      · rw [new]
        refine ⟨⟨roomy.chunk.allocated, ?_, ?_⟩, Nat.le_refl _⟩
        · rw [← base]
          exact lower
        · rw [← base]
          exact Nat.le_trans (Nat.add_le_add_left short _) upper
      · exact roomy.inside range old
    · rw [seen]
      intro isAimed range member
      rcases List.mem_cons.mp member with new | old
      · rw [new]
        exact aim isAimed
      · exact roomy.onDevice isAimed range old
    · rw [seen]
      refine List.pairwise_cons.mpr ⟨?_, roomy.increasing⟩
      intro earlier member same
      exact roomy.behind earlier member same.symm
    · rw [seen, self]
      intro range member last
      rcases List.mem_cons.mp member with new | old
      · rw [new]
        exact Nat.add_le_add_left short _
      · exact Nat.le_trans (roomy.behind range old last) (Nat.le_add_right _ _)
  case unset =>
    rw [seen]
    intro none
    exact absurd none (Nat.pos_iff_ne_zero.mp roomy.chunk.allocated)
  case current =>
    rw [self]
    intro _
    refine ⟨⟨?_, ?_, ?_, ?_, ?_⟩, ?_, upper⟩
    · rw [seen]
      exact roomy.chunk.allocated
    · rw [seen, self]
      exact base
    · rw [self]
      exact roomy.chunk.aligned
    · rw [self]
      exact roomy.chunk.small
    · rw [self]
      have block := roomy.chunk.block
      change ((store.inode ip).rwoff + room) % 4096 = 0
      omega
    · change (store.inode ip).rwsoff < (store.inode ip).rwoff + room
      omega

/-- The transfer step of every overwrite. -/
theorem Roomy.ensures_overwriteAtCursor (roomy : Roomy aimed store ip size room) {dev off length : Nat}
    {data : Nat -> UInt8} (below : off < size) (positive : 0 < room) (blocks : room % 4096 = 0)
    (short : length ≤ room) (aim : aimed -> low 8 dev = (overwriteTrace ip store.events).devid + 1) :
    Ensures (overwriteAtCursor ip dev off length room data) store
      (fun _ next => Cursored aimed next ip size ∧ (next.inode ip).size = (store.inode ip).size ∧
        (ChunkDevid store ip -> ChunkDevid next ip))
      (fun _ _ => True) := by
  simp only [overwriteAtCursor, bhGetSyncIo, Ensures.bind_iff, ensures_readInode, Ensures.ite_iff,
    Ensures.pure_iff, Ensures.throw_iff]
  split
  · refine (ensures_transferRecorded_completed roomy.sound.layout).mono ?_ (fun _ _ _ => trivial)
    intro _ next made
    rcases roomy.overwritten below positive blocks short aim made with ⟨kept, settled⟩
    refine ⟨kept, ?_, settled⟩
    rw [made.inode, Function.update_self]
    rfl
  · trivial

end Overwrite

/-! ## Pieces -/

section Pieces

variable {aimed : Prop} {store : Store} {ip size off length : Nat} {buf : Nat -> UInt8}

/-- The append branch of `aligned_write`. -/
theorem Cursored.ensures_alignedAppend (cursored : Cursored aimed store ip size) (pieceOff : Nat)
    (atEnd : size ≤ off) (positive : 0 < length) :
    Ensures (alignedAppend ip pieceOff off length buf) store
      (fun _ next => Cursored aimed next ip (off + length) ∧
        (next.inode ip).size = (store.inode ip).size)
      (fun _ _ => True) := by
  have ready := @Cursored.allocateAppend aimed store ip size cursored Inode.AppendDue _
  have readySize := allocateIf_size store Inode.AppendDue ip .append
  simp only [alignedAppend, checkWriteAddr, Ensures.bind_iff, ensures_allocateWhen, ensures_readInode,
    Ensures.ite_iff, Ensures.throw_iff, Ensures.pure_iff]
  split
  · trivial
  · refine (ensures_appendAtCursor ready.sound.layout ready.device positive).mono ?_
      (fun _ _ _ => trivial)
    intro _ next made
    refine ⟨ready.appended atEnd made, ?_⟩
    rw [made.inode, Function.update_self, (Inode.afterAppend_fields _ _ _ _).1, readySize]

/-- A piece of whole blocks that starts in the file or at its end. -/
theorem Cursored.ensures_wholePiece (cursored : Cursored aimed store ip size)
    (current : (store.inode ip).size = size) (aligned : size % 4096 = 0) (reached : off ≤ size)
    (whole : WholePiece off length)
    (straddling : aimed -> off < size -> size < off + length ->
      OnNvm store ip (fun inode => inode.OverwriteDue (size - off)))
    (inPlace : aimed -> off < size -> off + length ≤ size ->
      (store.inode ip).OverwriteDue length ∨ ChunkDevid store ip) :
    Ensures (snfsWrite ip buf off length) store
      (fun written next => written = length ∧ Cursored aimed next ip (max size (off + length)) ∧
        (next.inode ip).size = size ∧ (aimed -> off + length ≤ size -> ChunkDevid next ip))
      (fun _ _ => True) := by
  have start := whole.start
  have blocks := whole.length
  have positive := whole.positive
  have inChunk := whole.inChunk
  unfold gBlockSizeBytes at start blocks
  have floor : blockFloor off = off := by
    unfold blockFloor
    omega
  have large : ¬ length < 4096 := by omega
  simp only [snfsWrite, floor, Nat.lt_irrefl, false_and, ↓reduceIte, large, Ensures.bind_iff,
    alignedWrite, ensures_readInode, current]
  by_cases atEnd : off = size
  · rw [if_pos atEnd]
    simp only [Ensures.bind_iff, Ensures.pure_iff]
    refine (cursored.ensures_alignedAppend off (Nat.le_of_eq atEnd.symm) positive).mono ?_
      (fun _ _ _ => trivial)
    rintro _ next ⟨kept, same⟩
    rw [Nat.max_eq_right (by omega)]
    exact ⟨trivial, kept, same.trans current, fun _ inside => by omega⟩
  · have below : off < size := by omega
    rw [if_neg atEnd, if_pos below]
    have ceil : blockCeil size = size := by
      unfold blockCeil
      omega
    have ceilEnd : blockCeil (off + length) = off + length := by
      unfold blockCeil
      omega
    simp only [ceil, ceilEnd]
    by_cases straddles : size < off + length
    · -- the part below the size goes to the overwrite cursor, the rest is appended
      rw [if_pos straddles]
      have short : low 32 (size - off) = size - off := by
        refine low_of_lt ?_
        unfold chunkSize at inChunk
        omega
      simp only [short, Ensures.bind_iff, ensures_allocateWhen, Ensures.pure_iff]
      have inplace : low 32 (blockCeil (store.inode ip).size - off) = size - off := by
        rw [current, ceil, short]
      have roomy := @Cursored.roomy aimed store ip size cursored
        (fun inode => inode.OverwriteDue (low 32 (blockCeil (store.inode ip).size - off))) _
        (size - off) (by omega)
        (fun notDue => cursored.whole_room (by omega) (by rw [inplace] at notDue; exact notDue))
      have aim : aimed -> low 8 1 = (overwriteTrace ip (store.allocateIf
          (fun inode => inode.OverwriteDue (low 32 (blockCeil (store.inode ip).size - off))) ip
          .overwrite).events).devid + 1 := by
        intro isAimed
        have onNvm := straddling isAimed below straddles
        rw [← inplace] at onNvm
        rw [onNvm.ready]
        rfl
      refine (roomy.ensures_overwriteAtCursor below (by omega) (by omega)
        (Nat.le_refl _) aim).mono ?_ (fun _ _ _ => trivial)
      rintro _ middle ⟨kept, same, _⟩
      have same := same.trans (allocateIf_size store _ ip .overwrite)
      refine (kept.ensures_alignedAppend off (by omega) (by omega)).mono ?_ (fun _ _ _ => trivial)
      rintro _ next ⟨appended, sameEnd⟩
      have total : off + (size - off) + (length - (size - off)) = off + length := by omega
      rw [total] at appended
      rw [Nat.max_eq_right (by omega)]
      exact ⟨trivial, appended, sameEnd.trans (same.trans current), fun _ inside => by omega⟩
    · rw [if_neg straddles]
      simp only [Ensures.bind_iff, ensures_allocateWhen, ensures_readInode, Ensures.pure_iff]
      have roomy := @Cursored.roomy aimed store ip size cursored
        (fun inode => inode.OverwriteDue length) _ length (by omega)
        (fun notDue => cursored.whole_room blocks notDue)
      have settled : aimed -> ChunkDevid (store.allocateIf (fun inode => inode.OverwriteDue length) ip
          .overwrite) ip :=
        fun isAimed => chunkDevid_ready (inPlace isAimed below (by omega))
      refine (roomy.ensures_overwriteAtCursor below positive blocks
        (Nat.le_refl _) ?_).mono ?_ (fun _ _ _ => trivial)
      · intro isAimed
        rw [(gBdev_devid roomy.device).1, settled isAimed]
      rintro _ next ⟨kept, same, after⟩
      have same := same.trans (allocateIf_size store _ ip .overwrite)
      rw [Nat.max_eq_left (by omega)]
      exact ⟨trivial, kept, same.trans current, fun isAimed _ => after (settled isAimed)⟩

theorem smallReadsize_le (block : Block) (off : Nat) : smallReadsize block off ≤ 4096 := by
  unfold smallReadsize
  simp only
  split <;> omega

/-- A lookup does not move the overwrite cursor. -/
theorem Consulted.onNvm {next : Store} (consulted : Consulted ip store next)
    (onNvm : OnNvm store ip Inode.SmallOverwriteDue) : OnNvm next ip Inode.SmallOverwriteDue := by
  rcases consulted.self with ⟨_, _, _, inode⟩
  unfold OnNvm at *
  rw [inode, consulted.looked.events]
  exact onNvm

/-- A piece inside a block of the file. -/
theorem Cursored.ensures_subBlock (cursored : Cursored aimed store ip size)
    (current : (store.inode ip).size = size) (below : off < size) (short : length < 4096)
    (inBlock : off % 4096 + length ≤ 4096)
    (aim : aimed -> OnNvm store ip Inode.SmallOverwriteDue) :
    Ensures (snfsWrite ip buf off length) store
      (fun written next => written = length ∧ Cursored aimed next ip size ∧
        (next.inode ip).size = size)
      (fun _ _ => True) := by
  have accepted : ¬ (blockFloor off < off ∧ 4096 < low 32 (length + off - blockFloor off)) := by
    have narrow : low 32 (length + off - blockFloor off) ≤ length + off - blockFloor off :=
      Nat.mod_le _ _
    unfold blockFloor at *
    omega
  have room : forall {middle : Store}, Cursored aimed middle ip size ->
      Roomy aimed (middle.allocateIf Inode.SmallOverwriteDue ip .overwrite) ip size 4096 :=
    fun kept => kept.roomy (by decide) (fun notDue => kept.small_room notDue)
  have sent : forall {middle : Store}, Consulted ip store middle -> aimed ->
      low 8 1 = (overwriteTrace ip
        (middle.allocateIf Inode.SmallOverwriteDue ip .overwrite).events).devid + 1 := by
    intro middle consulted isAimed
    rw [(consulted.onNvm (aim isAimed)).ready]
    rfl
  simp only [snfsWrite, if_neg accepted]
  split
  · -- unaligned_smallwrite
    rw [Ensures.bind_iff, unalignedSmallwrite, Ensures.bind_iff]
    refine (consulted_lookupBlock ip (blockFloor off) store).mono ?_ (fun _ _ _ => trivial)
    rintro ⟨found, searched⟩ middle consulted
    have kept := cursored.consulted consulted
    have same := (consulted.looked.size ip).trans current
    cases found with
    | none => exact Ensures.throw_iff.mpr trivial
    | some block =>
        simp only [Ensures.bind_iff, ensures_readInode, same, if_neg (Nat.ne_of_lt below),
          if_pos below, ensures_allocateWhen, Ensures.get_iff, bhGetSyncIo, Ensures.ite_iff,
          Ensures.throw_iff, Ensures.pure_iff]
        split
        · refine ((room kept).ensures_overwriteAtCursor below (by decide) (by decide)
            (Nat.le_refl _) (sent consulted)).mono ?_ (fun _ _ _ => trivial)
          rintro _ next ⟨done, sameNext, _⟩
          exact ⟨trivial, done, sameNext.trans ((allocateIf_size middle _ ip .overwrite).trans same)⟩
        · trivial
  · -- aligned_smallwrite
    rw [Ensures.bind_iff, alignedSmallwrite]
    simp only [Ensures.bind_iff, ensures_readInode, current, if_pos below]
    refine (consulted_lookupBlock ip off store).mono ?_ (fun _ _ _ => trivial)
    rintro ⟨found, searched⟩ middle consulted
    have kept := cursored.consulted consulted
    have same := (consulted.looked.size ip).trans current
    cases found with
    | none => exact Ensures.throw_iff.mpr trivial
    | some block =>
        simp only [Ensures.ite_iff, Ensures.bind_iff, Ensures.get_iff, ensures_allocateWhen,
          bhGetSyncIo, Ensures.throw_iff, Ensures.pure_iff]
        split
        · split
          · refine ((room kept).ensures_overwriteAtCursor below (by decide) (by decide)
              (smallReadsize_le block off) (sent consulted)).mono ?_ (fun _ _ _ => trivial)
            rintro _ next ⟨done, sameNext, _⟩
            exact ⟨trivial, done, sameNext.trans ((allocateIf_size middle _ ip .overwrite).trans same)⟩
          · trivial
        · exact ⟨trivial, kept, same⟩

end Pieces

/-! ## Runs -/

/-- The writes of a run on one file: at its end, over its blocks, and inside a block. -/
inductive WriteCommand where
  | append (buf : Nat -> UInt8) (count : Nat)
  | overwrite (buf : Nat -> UInt8) (off count : Nat)
  | patch (buf : Nat -> UInt8) (off count : Nat)

/-- Execute a write. -/
def WriteCommand.execute (ip : Nat) : WriteCommand -> Fs PUnit
  | append buf count => do
      let inode ← readInode ip
      let _ ← userfsFileWrite snfsWrite ⟨ip, inode.size, true, true⟩ buf count
      pure PUnit.unit
  | overwrite buf off count => do
      let _ ← userfsFileWrite snfsWrite ⟨ip, off, true, true⟩ buf count
      pure PUnit.unit
  | patch buf off count => do
      let _ ← userfsFileWrite snfsWrite ⟨ip, off, true, true⟩ buf count
      pure PUnit.unit

/-- Appends and overwrites of whole blocks, and overwrites inside a block; overwrites
start below the size. -/
def WriteCommand.Allowed (ip : Nat) : WriteCommand -> Store -> Prop
  | append _ count, _ => 0 < count ∧ count % 4096 = 0 ∧ count < 2 ^ 31
  | overwrite _ off count, store =>
      off % 4096 = 0 ∧ 0 < count ∧ count % 4096 = 0 ∧ count < 2 ^ 31 ∧ off < (store.inode ip).size
  | patch _ off count, store =>
      0 < count ∧ count < 4096 ∧ off % 4096 + count ≤ 4096 ∧ off < (store.inode ip).size

instance (ip : Nat) : (command : WriteCommand) -> (store : Store) ->
    Decidable (command.Allowed ip store)
  | .append _ _, _ => inferInstanceAs (Decidable (_ ∧ _))
  | .overwrite _ _ _, _ => inferInstanceAs (Decidable (_ ∧ _))
  | .patch _ _ _, _ => inferInstanceAs (Decidable (_ ∧ _))

/-- Overwrites that are sent to the devices of their chunks. -/
def WriteCommand.Aimed (ip : Nat) : WriteCommand -> Store -> Prop
  | append _ _, _ => True
  | overwrite _ off count, store => RequestAimed store ip off count
  | patch _ _ _, store => OnNvm store ip Inode.SmallOverwriteDue

instance (ip : Nat) : (command : WriteCommand) -> (store : Store) ->
    Decidable (command.Aimed ip store)
  | .append _ _, _ => inferInstanceAs (Decidable True)
  | .overwrite _ off count, store => inferInstanceAs (Decidable (RequestAimed store ip off count))
  | .patch _ _ _, store => inferInstanceAs (Decidable (OnNvm store ip Inode.SmallOverwriteDue))

/-- The state between two requests. -/
structure Resting (aimed : Prop) (store : Store) (ip : Nat) : Prop where
  cursored : Cursored aimed store ip (store.inode ip).size
  aligned : (store.inode ip).size % 4096 = 0

section Runs

variable {aimed : Prop} {store : Store} {ip off count : Nat} {buf : Nat -> UInt8}

theorem Resting.resize {size : Nat} (cursored : Cursored aimed store ip size) (aligned : size % 4096 = 0)
    {newSize : Inode -> Nat} (equal : newSize (store.inode ip) = size) :
    Resting aimed (store.updateInode ip (fun inode => { inode with size := newSize inode })) ip := by
  have kept := cursored.resize newSize
  constructor
  · rw [updateInode_inode_self]
    change Cursored aimed _ ip (newSize (store.inode ip))
    rw [equal]
    exact kept
  · rw [updateInode_inode_self]
    change newSize (store.inode ip) % 4096 = 0
    rw [equal]
    exact aligned

theorem ChunkDevid.resize (settled : ChunkDevid store ip) (newSize : Inode -> Nat) :
    ChunkDevid (store.updateInode ip (fun inode => { inode with size := newSize inode })) ip := by
  rw [ChunkDevid, updateInode_inode_self]
  exact settled

/-- The device condition on the way through a request: the request has not started, or
`devid` belongs to the overwrite chunk and no later piece straddles. -/
def Aiming (start store : Store) (ip off count position done : Nat) : Prop :=
  position < (start.inode ip).size ->
    (done = 0 ∧ store = start ∧ RequestAimed start ip off count) ∨
      (ChunkDevid store ip ∧
        (off + count ≤ (start.inode ip).size ∨ (start.inode ip).size % chunkSize = 0))

/-- A piece that the loop cuts off below the size of the file: it is the first one and the
condition on the request is about it, or it lies below the size and `devid` is settled. -/
theorem Aiming.piece {start : Store} {done length : Nat}
    (aiming : Aiming start store ip off count (off + done) done)
    (below : off + done < (start.inode ip).size) (whole : WholePiece (off + done) length)
    (within : done + length ≤ count)
    (cut : (off + done) % chunkSize + length = chunkSize ∨ done + length = count) :
    ((start.inode ip).size < off + done + length ∧ store = start ∧
        OnNvm store ip (fun inode => inode.OverwriteDue ((start.inode ip).size - (off + done)))) ∨
      (off + done + length ≤ (start.inode ip).size ∧
        ((store.inode ip).OverwriteDue length ∨ ChunkDevid store ip) ∧
        (off + count ≤ (start.inode ip).size ∨ (start.inode ip).size % chunkSize = 0)) := by
  have inChunk := whole.inChunk
  rcases aiming below with ⟨first, same, aimed⟩ | ⟨settled, later⟩
  · have length_eq : min count (chunkSize - off % chunkSize) = length := by
      rw [first, Nat.add_zero] at inChunk cut
      omega
    rw [RequestAimed, length_eq] at aimed
    rw [first, same, Nat.add_zero]
    by_cases straddles : (start.inode ip).size < off + length
    · rw [if_pos straddles] at aimed
      exact Or.inl ⟨straddles, rfl, aimed⟩
    · rw [if_neg straddles] at aimed
      exact Or.inr ⟨Nat.le_of_not_lt straddles, aimed⟩
  · refine Or.inr ⟨?_, Or.inr settled, later⟩
    rcases later with inside | boundary
    · omega
    · unfold chunkSize at *
      omega

/-- A request of whole blocks that starts in the file or at its end. -/
theorem Resting.ensures_wholeRequest (resting : Resting aimed store ip) (start : off % 4096 = 0)
    (length : count % 4096 = 0) (small : count < 2 ^ 31) (reached : off ≤ (store.inode ip).size)
    (aim : aimed -> off < (store.inode ip).size -> RequestAimed store ip off count) :
    Ensures (userfsFileWrite snfsWrite ⟨ip, off, true, true⟩ buf count) store
      (fun _ next => Resting aimed next ip) (fun _ _ => True) := by
  -- every piece starts at or below the size, which follows the position once it is passed
  have step : forall position done length middle,
      (position = off + done ∧ Resting aimed middle ip ∧
        (middle.inode ip).size = max (store.inode ip).size position ∧
        (aimed -> Aiming store middle ip off count position done)) ->
      WholePiece position length -> done + length ≤ count ->
      position % chunkSize + length = chunkSize ∨ done + length = count ->
      Ensures (snfsWrite ip (fun index => buf (done + index)) position length) middle
        (fun written next => written = length ∧ Ensures (growSize ip (position + length)) next
          (fun _ grown => position + length = off + (done + length) ∧ Resting aimed grown ip ∧
            (grown.inode ip).size = max (store.inode ip).size (position + length) ∧
            (aimed -> Aiming store grown ip off count (position + length) (done + length)))
          (fun _ _ => True))
        (fun _ _ => True) := by
    rintro position done length middle ⟨equal, kept, current, aiming⟩ whole within cut
    subst equal
    have piece := fun isAimed below => (aiming isAimed).piece below whole within cut
    refine (kept.cursored.ensures_wholePiece rfl kept.aligned (by omega) whole ?_ ?_).mono ?_
      (fun _ _ _ => trivial)
    · intro isAimed below straddles
      have size : (middle.inode ip).size = (store.inode ip).size := by omega
      rw [size] at below straddles ⊢
      rcases piece isAimed below with ⟨_, _, onNvm⟩ | ⟨inside, _⟩
      · exact onNvm
      · omega
    · intro isAimed below inside
      rcases piece isAimed (by omega) with ⟨straddles, _⟩ | ⟨_, aimed, _⟩
      · omega
      · exact aimed
    rintro written next ⟨returned, after, same, settled⟩
    have pieceStart := whole.start
    have pieceLength := whole.length
    have positive := whole.positive
    have alignedBefore := kept.aligned
    unfold gBlockSizeBytes at pieceStart pieceLength
    have grows : (if (next.inode ip).size < off + done + length then off + done + length
        else (next.inode ip).size) = max (middle.inode ip).size (off + done + length) := by
      rw [same]
      split <;> omega
    refine ⟨returned, ?_⟩
    rw [growSize, ensures_modifyInode]
    refine ⟨Nat.add_assoc _ _ _, Resting.resize after (by omega) grows, ?_, ?_⟩
    · rw [updateInode_inode_self]
      change (if (next.inode ip).size < off + done + length then off + done + length
        else (next.inode ip).size) = _
      omega
    · intro isAimed below
      rcases piece isAimed (by omega) with ⟨straddles, _⟩ | ⟨inside, _, later⟩
      · omega
      · exact Or.inr ⟨(settled isAimed (by omega)).resize _, later⟩
  have loop : Ensures (userfsFileWrite snfsWrite ⟨ip, off, true, true⟩ buf count) store _ _ :=
    ensures_userfsFileWrite_cut rfl rfl start length small step
      ⟨rfl, resting, (Nat.max_eq_left reached).symm,
        fun isAimed below => Or.inl ⟨rfl, rfl, aim isAimed below⟩⟩
  refine loop.mono ?_ (fun _ _ fault => fault)
  rintro _ next ⟨_, middle, ⟨_, kept, current, _⟩, final⟩
  rw [final]
  refine Resting.resize kept.cursored kept.aligned ?_
  change finalSize (store.inode ip).size off count = _
  change (middle.inode ip).size = max (store.inode ip).size (off + count) at current
  rw [current, finalSize]
  split <;> omega

/-- A request inside a block of the file. -/
theorem Resting.ensures_patchRequest (resting : Resting aimed store ip) (positive : 0 < count)
    (short : count < 4096) (inBlock : off % 4096 + count ≤ 4096)
    (below : off < (store.inode ip).size)
    (aim : aimed -> OnNvm store ip Inode.SmallOverwriteDue) :
    Ensures (userfsFileWrite snfsWrite ⟨ip, off, true, true⟩ buf count) store
      (fun _ next => Resting aimed next ip) (fun _ _ => True) := by
  refine ensures_userfsFileWrite_inBlock rfl rfl positive short inBlock ?_
  refine (resting.cursored.ensures_subBlock rfl below short inBlock aim).mono ?_ (fun _ _ _ => trivial)
  rintro written next ⟨returned, kept, _⟩
  refine ⟨returned, Resting.resize kept resting.aligned ?_⟩
  have aligned := resting.aligned
  unfold finalSize
  rw [if_neg (by simp only; omega)]

theorem Resting.execute (resting : Resting aimed store ip) (command : WriteCommand)
    (allowed : command.Allowed ip store) (aim : aimed -> command.Aimed ip store) :
    Ensures (command.execute ip) store (fun _ next => Resting aimed next ip) (fun _ _ => True) := by
  cases command with
  | append buf count =>
      rcases allowed with ⟨_, length, small⟩
      simp only [WriteCommand.execute, Ensures.bind_iff, ensures_readInode, Ensures.pure_iff]
      exact resting.ensures_wholeRequest resting.aligned length small (Nat.le_refl _)
        (fun _ below => absurd below (Nat.lt_irrefl _))
  | overwrite buf off count =>
      rcases allowed with ⟨start, _, length, small, below⟩
      simp only [WriteCommand.execute, Ensures.bind_iff, Ensures.pure_iff]
      exact resting.ensures_wholeRequest start length small (Nat.le_of_lt below)
        (fun isAimed _ => aim isAimed)
  | patch buf off count =>
      rcases allowed with ⟨positive, short, inBlock, below⟩
      simp only [WriteCommand.execute, Ensures.bind_iff, Ensures.pure_iff]
      exact resting.ensures_patchRequest positive short inBlock below aim

end Runs

/-- A file just created, in a session that knows nothing of it yet. -/
structure NewFile (ip : Nat) (store : Store) : Prop where
  created : Exists fun inum => Exists fun usednvms => Exists fun rwnvmsize => Exists fun height =>
    store.inode ip = Inode.created inum usednvms rwnvmsize height
  unseen : forall event, event ∈ store.events -> event.inode ≠ ip
  sound : Sound store

theorem NewFile.resting {ip : Nat} {store : Store} (new : NewFile ip store) (aimed : Prop) :
    Resting aimed store ip := by
  have trace := overwriteTrace_unseen new.unseen
  rcases new.created with ⟨_, _, _, _, created⟩
  constructor
  · rw [created]
    constructor
    case toTraced =>
      refine ⟨new.sound, by rw [created]; exact Nat.zero_lt_succ 3, by rw [trace]; rfl, ?_, ?_, ?_, ?_⟩
      · rw [trace]
        exact fun range member => nomatch member
      · rw [trace]
        exact fun _ range member => nomatch member
      · rw [trace]
        exact List.Pairwise.nil
      · rw [trace]
        exact fun range member => nomatch member
    case unset =>
      rw [created]
      exact fun _ => ⟨rfl, rfl⟩
    case current =>
      rw [trace]
      exact fun none => absurd none (Nat.lt_irrefl 0)
  · rw [created]
    rfl

/-- The run lemma, for any set of devices that the overwrites are aimed at. -/
theorem NewFile.ensures_writes {ip : Nat} {store : Store} (new : NewFile ip store) {aimed : Prop}
    {commands : List WriteCommand}
    (allowed : Guarded (WriteCommand.execute ip)
      (fun command store => command.Allowed ip store ∧ (aimed -> command.Aimed ip store))
      commands store) :
    Ensures (runAll (WriteCommand.execute ip) commands) store
      (fun _ next => Resting aimed next ip) (fun _ _ => True) :=
  Ensures.runAll_guarded_state
    (fun command _ (resting : Resting aimed _ ip) allowed =>
      resting.execute command allowed.1 allowed.2)
    (new.resting aimed) allowed

/-- The cursor between two requests is a multiple of the block size and stands in the
overwrite chunk allocated last. -/
theorem Resting.cursor {aimed : Prop} {store : Store} {ip : Nat} (resting : Resting aimed store ip) :
    (store.inode ip).rwoff % 4096 = 0 ∧
      (0 < (overwriteTrace ip store.events).chunk ->
        (store.inode ip).rwsoff = (overwriteTrace ip store.events).base ∧
        (store.inode ip).rwsoff ≤ (store.inode ip).rwoff ∧
        (store.inode ip).rwoff ≤ (store.inode ip).rwsoff + chunkSize) := by
  have cursored := resting.cursored
  constructor
  · rcases Nat.eq_zero_or_pos (overwriteTrace ip store.events).chunk with none | some
    · rw [(cursored.unset none).1]
    · exact (cursored.current some).1.block
  · intro some
    rcases cursored.current some with ⟨chunk, lower, upper⟩
    exact ⟨chunk.base, Nat.le_of_lt lower, upper⟩

/-- Whatever devices the overwrites are sent to, in every run of appends and overwrites on
a new file their addresses are those of the overwrite chunk allocated last before them,
and inside one chunk they are disjoint and increase. -/
theorem overwrite_addresses_stay_in_chunk {ip : Nat} {store : Store} (new : NewFile ip store)
    (commands : List WriteCommand)
    (allowed : Guarded (WriteCommand.execute ip) (WriteCommand.Allowed ip) commands store) :
    Ensures (runAll (WriteCommand.execute ip) commands) store
      (fun _ next =>
        (forall range, range ∈ (overwriteTrace ip next.events).ranges -> range.Addressed) ∧
        Increasing (overwriteTrace ip next.events).ranges)
      (fun _ _ => True) := by
  have run := @NewFile.ensures_writes ip store new False commands
    (allowed.mono (fun _ _ allowed => ⟨allowed, False.elim⟩))
  refine run.mono ?_ (fun _ _ fault => fault)
  intro _ next resting
  exact ⟨fun range member => (resting.cursored.inside range member).1, resting.cursored.increasing⟩

/-- In every run of appends and overwrites on a new file in which the overwrites are aimed
at the devices of their chunks, each overwrite lies inside the overwrite chunk allocated
last before it, on its device, the ranges inside one chunk are disjoint and increase, and
the cursor is a multiple of the block size and stands in the last chunk. -/
theorem overwrites_stay_in_chunk {ip : Nat} {store : Store} (new : NewFile ip store)
    (commands : List WriteCommand)
    (allowed : Guarded (WriteCommand.execute ip)
      (fun command store => command.Allowed ip store ∧ command.Aimed ip store) commands store) :
    Ensures (runAll (WriteCommand.execute ip) commands) store
      (fun _ next =>
        (forall range, range ∈ (overwriteTrace ip next.events).ranges -> range.InChunk) ∧
        Increasing (overwriteTrace ip next.events).ranges ∧
        (next.inode ip).rwoff % 4096 = 0 ∧
        (0 < (overwriteTrace ip next.events).chunk ->
          (next.inode ip).rwsoff = (overwriteTrace ip next.events).base ∧
          (next.inode ip).rwsoff ≤ (next.inode ip).rwoff ∧
          (next.inode ip).rwoff ≤ (next.inode ip).rwsoff + chunkSize))
      (fun _ _ => True) := by
  have run := @NewFile.ensures_writes ip store new True commands
    (allowed.mono (fun _ _ allowed => ⟨allowed.1, fun _ => allowed.2⟩))
  refine run.mono ?_ (fun _ _ fault => fault)
  intro _ next resting
  refine ⟨?_, resting.cursored.increasing, resting.cursor⟩
  intro range member
  exact ⟨(resting.cursored.inside range member).1, resting.cursored.onDevice trivial range member⟩

theorem newFile_freshStore (ip : Nat) : NewFile ip freshStore where
  created := ⟨ip, 0, 0, 0, rfl⟩
  unseen := fun event member => nomatch member
  sound := ⟨by decide, by decide, layout_loginit _⟩

/-- Four chunks are appended, so that the next one is on the NVM again; a part of the
second block is overwritten, and then the first block. -/
theorem overwrites_stay_in_chunk_mixed :
    Ensures (runAll (WriteCommand.execute 0)
        [.append (fun _ => 1) 8388608, .patch (fun _ => 3) 5000 7, .overwrite (fun _ => 2) 0 4096])
      freshStore
      (fun _ next => (overwriteTrace 0 next.events).ranges.length = 2 ∧
        forall range, range ∈ (overwriteTrace 0 next.events).ranges -> range.InChunk)
      (fun _ _ => False) := by
  have returns : Ensures (runAll (WriteCommand.execute 0)
      [.append (fun _ => 1) 8388608, .patch (fun _ => 3) 5000 7, .overwrite (fun _ => 2) 0 4096])
      freshStore (fun _ next => (overwriteTrace 0 next.events).ranges.length = 2)
      (fun _ _ => False) := by
    decide +kernel
  have general := overwrites_stay_in_chunk (newFile_freshStore 0)
    [.append (fun _ => 1) 8388608, .patch (fun _ => 3) 5000 7, .overwrite (fun _ => 2) 0 4096]
    (by decide +kernel)
  exact (returns.and general).mono (fun _ _ both => ⟨both.1, both.2.1⟩) (fun _ _ fault => fault.1)

/-- Two blocks are appended, the first is overwritten, and a part of the second as well.
The overwrite chunk is on the first SSD, and the second overwrite goes to its addresses
on the NVM. -/
theorem small_overwrite_leaves_device :
    Ensures (runAll (WriteCommand.execute 0)
        [.append (fun _ => 1) 8192, .overwrite (fun _ => 2) 0 4096, .patch (fun _ => 3) 5000 7])
      freshStore
      (fun _ next => Exists fun range => (overwriteTrace 0 next.events).ranges.head? = some range ∧
        range.chunkDev = 2 ∧ range.dev = 1)
      (fun _ _ => False) := by
  have trace : Ensures (runAll (WriteCommand.execute 0)
      [.append (fun _ => 1) 8192, .overwrite (fun _ => 2) 0 4096, .patch (fun _ => 3) 5000 7])
      freshStore
      (fun _ next => (overwriteTrace 0 next.events).ranges.head?.map
        (fun range => (range.chunkDev, range.dev)) = some (2, 1))
      (fun _ _ => False) := by
    decide +kernel
  refine trace.mono ?_ (fun _ _ impossible => impossible)
  intro _ next seen
  rcases Option.map_eq_some_iff.mp seen with ⟨range, first, devices⟩
  exact ⟨range, first, congrArg Prod.fst devices, congrArg Prod.snd devices⟩

end Userfs.Filesystem
