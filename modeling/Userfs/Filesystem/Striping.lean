import Userfs.Filesystem.FileWrite

namespace Userfs.Filesystem

open Ds
open Io
open SearchTree
open Word

/-!
# Files built by appends

A file that only grows by whole blocks is striped over the devices: its `k`-th
2 MB chunk lies in a chunk allocated on device `k mod 4`, and the block tree maps
every offset to its place there.  Whether the next append needs a new chunk is
decided by bit tests on the cursor; under the invariant of this file they say
exactly that the size is a multiple of 2 MB.

The invariant is first stated for the part that an allocation leaves alone
(`Tracked`), then for a file between two writes (`Striped`) and for a file whose
current chunk has room (`Ready`).  The counter of the first SSD bounds the size of
every file, since each fourth chunk uses it up.
-/

/-- The device location of an offset in a striped file. -/
def LocatedAt (placement : List (Nat × Nat)) (offset : Nat) (location : Nat × Nat) : Prop :=
  Exists fun chunk => placement[offset / chunkSize]? = some chunk ∧
    location = (chunk.1 + 1, chunk.2 + offset % chunkSize)

theorem LocatedAt.append {placement : List (Nat × Nat)} {offset : Nat} {location : Nat × Nat}
    (located : LocatedAt placement offset location) (more : List (Nat × Nat)) :
    LocatedAt (placement ++ more) offset location := by
  rcases located with ⟨chunk, found, equal⟩
  exact ⟨chunk, by rw [List.getElem?_append_left (List.getElem?_eq_some_iff.mp found).1, found],
    equal⟩

theorem LocatedAt.unique {placement : List (Nat × Nat)} {offset : Nat} {first second : Nat × Nat}
    (located : LocatedAt placement offset first) (other : LocatedAt placement offset second) :
    first = second := by
  rcases located with ⟨chunk, found, equal⟩
  rcases other with ⟨chunk', found', equal'⟩
  rw [found] at found'
  cases found'
  rw [equal, equal']

/-- The chunks of the append cursor of an inode. -/
abbrev Store.stripes (store : Store) (ip : Nat) : List (Nat × Nat) :=
  chunks ip .append store.events

/-- The block number the next allocation on the first SSD turns into an
address. -/
def Store.ssd1Block (store : Store) : Nat :=
  store.addrinfo.ssd1BlockAddr % 2 ^ 43

/-! ## The invariants -/

/-- What relates the chunks, the block tree and the writes of a file up to a
given size. -/
structure Tracked (store : Store) (ip size : Nat) : Prop where
  aligned : size % gBlockSizeBytes = 0
  covered : size ≤ (store.stripes ip).length * chunkSize
  placed : forall index chunk, (store.stripes ip)[index]? = some chunk ->
    chunk.1 = index % 4 ∧ chunk.2 % chunkSize = 0 ∧ chunk.2 < 2 ^ 64
  turn : (store.inode ip).wrthdnum % 4 = (store.stripes ip).length % 4
  formed : WellFormed (store.inode ip).blktree
  assigns : forall offset location,
    Assigns (inorder (store.inode ip).blktree) offset location <->
      offset < size ∧ LocatedAt (store.stripes ip) offset location
  within : forall off bh, .write ip off bh ∈ store.events ->
    off + bh.size ≤ size ∧ forall offset, off ≤ offset -> offset < off + bh.size ->
      LocatedAt (store.stripes ip) offset (bh.dev, bh.address + (offset - off))
  written : forall offset, offset < size -> Exists fun off => Exists fun bh =>
    .write ip off bh ∈ store.events ∧ off ≤ offset ∧ offset < off + bh.size

/-- The chunks lie on their devices, and the counter of the first SSD has
passed one block for each of them that is there. -/
structure Accounted (store : Store) (ip : Nat) : Prop where
  onDevice : forall chunk, chunk ∈ store.stripes ip -> chunk.2 < devSize (chunk.1 + 1)
  quota : ((store.stripes ip).length + 2) / 4 ≤ store.ssd1Block
  bounded : 2 ≤ (store.stripes ip).length -> store.ssd1Block ≤ 2 ^ 18

/-- The append cursor of an inode stands in a chunk, a number of bytes behind
its base. -/
structure CursorIn (inode : Inode) (chunk : Nat × Nat) (used : Nat) : Prop where
  devid : inode.devid = chunk.1
  ssdoff : inode.ssdoff = chunk.2 + used
  usednvms : chunk.1 = 0 -> inode.usednvms = chunk.2

/-- A file of some size between two appends: it has as many chunks as its size
needs, and the cursor stands behind its last byte. -/
structure Striped (store : Store) (ip size : Nat) : Prop where
  tracked : Tracked store ip size
  accounted : Accounted store ip
  count : (store.stripes ip).length = (size + (chunkSize - 1)) / chunkSize
  fresh : store.stripes ip = [] -> (store.inode ip).ssdoff = 0 ∧ (store.inode ip).devid = 0
  cursor : forall chunk, (store.stripes ip)[(store.stripes ip).length - 1]? = some chunk ->
    CursorIn (store.inode ip) chunk (size - ((store.stripes ip).length - 1) * chunkSize)

/-- A file whose current chunk has room at its size.  The accounting holds as
soon as that chunk is known to lie on its device. -/
structure Ready (store : Store) (ip size : Nat) : Prop where
  tracked : Tracked store ip size
  count : (store.stripes ip).length = size / chunkSize + 1
  current : Exists fun chunk => (store.stripes ip)[size / chunkSize]? = some chunk ∧
    CursorIn (store.inode ip) chunk (size % chunkSize) ∧
      (chunk.2 < devSize (chunk.1 + 1) -> Accounted store ip)

/-- The counter of the first SSD has advanced without passing its bound. -/
structure Advanced (store next : Store) : Prop where
  le : store.ssd1Block ≤ next.ssd1Block
  bounded : store.ssd1Block ≤ 2 ^ 18 -> next.ssd1Block ≤ 2 ^ 18

/-- A step on behalf of one inode as the other inodes see it. -/
structure Framed (ip : Nat) (store next : Store) : Prop extends Apart ip store next where
  advanced : Advanced store next

theorem Framed.refl (ip : Nat) (store : Store) : Framed ip store store :=
  ⟨Apart.refl ip store, Nat.le_refl _, id⟩

theorem Framed.trans {ip : Nat} {first second third : Store} (before : Framed ip first second)
    (after : Framed ip second third) : Framed ip first third := by
  refine ⟨before.toApart.trans after.toApart, ?_, ?_⟩
  · exact Nat.le_trans before.advanced.le after.advanced.le
  · intro bound
    exact after.advanced.bounded (before.advanced.bounded bound)

/-- The invariant of a file survives the steps of other inodes. -/
theorem Striped.frame {ip other size : Nat} {store next : Store} (striped : Striped store other size)
    (framed : Framed ip store next) (different : other ≠ ip) : Striped next other size := by
  have stripes : next.stripes other = store.stripes other :=
    framed.toApart.chunks_other different .append
  have writes := framed.toApart.write_mem_other different
  have inode := framed.inode other different
  rcases striped with ⟨tracked, accounted, count, fresh, cursor⟩
  refine ⟨⟨tracked.aligned, ?_, ?_, ?_, ?_, ?_, ?_, ?_⟩, ⟨?_, ?_, ?_⟩, ?_, ?_, ?_⟩
  · rw [stripes]
    exact tracked.covered
  · rw [stripes]
    exact tracked.placed
  · rw [stripes, inode]
    exact tracked.turn
  · rw [inode]
    exact tracked.formed
  · rw [stripes, inode]
    exact tracked.assigns
  · intro off bh member
    rw [stripes]
    exact tracked.within off bh ((writes off bh).mp member)
  · intro offset bound
    rcases tracked.written offset bound with ⟨off, bh, member, lower, upper⟩
    exact ⟨off, bh, (writes off bh).mpr member, lower, upper⟩
  · rw [stripes]
    exact accounted.onDevice
  · rw [stripes]
    exact Nat.le_trans accounted.quota framed.advanced.le
  · intro many
    rw [stripes] at many
    exact framed.advanced.bounded (accounted.bounded many)
  · rw [stripes]
    exact count
  · rw [stripes, inode]
    exact fresh
  · rw [stripes, inode]
    exact cursor

/-! ## The allocation test -/

/-- The bit test on an SSD cursor: the low 21 bits are zero. -/
theorem shl64_43_eq_zero (value : Nat) : shl64 value 43 = 0 <-> value % chunkSize = 0 := by
  unfold shl64 low chunkSize
  omega

theorem sub64_add_left {base used : Nat} (small : used < 2 ^ 64) : sub64 (base + used) base = used := by
  unfold sub64 low
  omega

/-- In a chunk that is neither untouched nor overrun, a new chunk is due exactly
when this one is full. -/
theorem CursorIn.appendDue_iff {inode : Inode} {chunk : Nat × Nat} {used : Nat}
    (cursor : CursorIn inode chunk used) (aligned : chunk.2 % chunkSize = 0) (positive : 0 < used)
    (bound : used ≤ chunkSize) : inode.AppendDue <-> used = chunkSize := by
  unfold Inode.AppendDue
  rw [shl64_43_eq_zero, cursor.devid, cursor.ssdoff]
  by_cases onNvm : chunk.1 = 0
  · have length : sub64 (chunk.2 + used) chunk.2 = used :=
      sub64_add_left (by unfold chunkSize at bound; omega)
    rw [cursor.usednvms onNvm, length]
    unfold chunkSize at *
    omega
  · unfold chunkSize at *
    omega

/-- The last chunk of a striped file, and how much of it is used. -/
theorem Striped.last {store : Store} {ip size : Nat} (striped : Striped store ip size)
    (nonempty : store.stripes ip ≠ []) :
    Exists fun chunk =>
      (store.stripes ip)[(store.stripes ip).length - 1]? = some chunk ∧
        CursorIn (store.inode ip) chunk (size - ((store.stripes ip).length - 1) * chunkSize) ∧
        chunk.2 % chunkSize = 0 := by
  have positive : 0 < (store.stripes ip).length := List.length_pos_iff.mpr nonempty
  have found := List.getElem?_eq_getElem (Nat.sub_one_lt_of_lt positive)
  exact ⟨_, found, striped.cursor _ found, (striped.tracked.placed _ _ found).2.1⟩

/-- A new chunk is due exactly at the multiples of 2 MB. -/
theorem Striped.appendDue_iff {store : Store} {ip size : Nat} (striped : Striped store ip size) :
    (store.inode ip).AppendDue <-> size % chunkSize = 0 := by
  have count := striped.count
  by_cases empty : store.stripes ip = []
  · rcases striped.fresh empty with ⟨ssdoff, devid⟩
    rw [empty] at count
    have zero : size = 0 := by
      simp only [List.length_nil] at count
      unfold chunkSize at count
      omega
    simp [Inode.AppendDue, ssdoff, devid, zero]
  · rcases striped.last empty with ⟨chunk, _, cursor, aligned⟩
    have positive : 0 < (store.stripes ip).length := List.length_pos_iff.mpr empty
    unfold chunkSize at count
    rw [cursor.appendDue_iff aligned (by unfold chunkSize; omega) (by unfold chunkSize; omega)]
    unfold chunkSize
    omega

/-! ## Allocation -/

section Allocation

variable {store : Store} {ip size : Nat}

theorem allocateChunk_ssd1Block (store : Store) (ip : Nat) (cursor : Cursor) :
    (store.allocateChunk ip cursor).ssd1Block =
      (store.addrinfo.ssd1BlockAddr + if (store.nextChunk ip).1 = 1 then 1 else 0) % 2 ^ 43 := by
  unfold Store.ssd1Block
  rw [allocateChunk_addrinfo, allocateOn_ssd1BlockAddr]

/-- A chunk of the first SSD that lies on the device uses up one block. -/
theorem nextChunk_ssd1 (onSsd1 : (store.nextChunk ip).1 = 1)
    (onDevice : (store.nextChunk ip).2 < devSize ((store.nextChunk ip).1 + 1)) (cursor : Cursor) :
    (store.allocateChunk ip cursor).ssd1Block = store.ssd1Block + 1 ∧ store.ssd1Block < 2 ^ 18 := by
  have base : (store.nextChunk ip).2 = store.ssd1Block * chunkSize := by
    unfold Store.nextChunk at *
    simp only at onSsd1
    rw [onSsd1]
    exact shl64_chunk store.addrinfo.ssd1BlockAddr
  rw [allocateChunk_ssd1Block, if_pos onSsd1]
  have capacity : devSize (1 + 1) = 500107862016 := rfl
  rw [base, onSsd1, capacity] at onDevice
  unfold chunkSize Store.ssd1Block at *
  omega

/-- An allocation advances the counter of the first SSD, if its chunk lies on
the device. -/
theorem advanced_allocateChunk (cursor : Cursor)
    (onDevice : (store.nextChunk ip).2 < devSize ((store.nextChunk ip).1 + 1)) :
    Advanced store (store.allocateChunk ip cursor) := by
  by_cases onSsd1 : (store.nextChunk ip).1 = 1
  · rcases nextChunk_ssd1 onSsd1 onDevice cursor with ⟨stepped, below⟩
    exact ⟨by omega, fun _ => by omega⟩
  · have same : (store.allocateChunk ip cursor).ssd1Block = store.ssd1Block := by
      rw [allocateChunk_ssd1Block, if_neg onSsd1]
      rfl
    exact ⟨by omega, fun bound => by omega⟩

theorem stripes_allocateChunk (store : Store) (ip : Nat) :
    (store.allocateChunk ip .append).stripes ip = store.stripes ip ++ [store.nextChunk ip] := by
  unfold Store.stripes
  rw [allocateChunk_events, chunks_append]
  simp [chunks, Event.chunkFor]

theorem Inode.place_append (inode : Inode) (devid base : Nat) :
    CursorIn (inode.place .append devid base) (devid, base) 0 := by
  cases devid with
  | zero => exact ⟨rfl, rfl, fun _ => rfl⟩
  | succ device => exact ⟨rfl, rfl, fun onNvm => absurd onNvm (Nat.succ_ne_zero device)⟩

/-- The tracked part is not touched by an allocation for the append cursor. -/
theorem Tracked.allocateChunk (sound : Sound store) (tracked : Tracked store ip size) :
    Tracked (store.allocateChunk ip .append) ip size := by
  have stripes := stripes_allocateChunk store ip
  have aligned := (sound.allocateChunk ip .append).2
  have inode := allocateChunk_inode_self store ip .append
  have tree : ((store.allocateChunk ip .append).inode ip).blktree = (store.inode ip).blktree := by
    rw [inode]
    exact (Inode.place_size _ _ _ _).2
  have longer : forall offset location, offset < size ->
      (LocatedAt (store.stripes ip ++ [store.nextChunk ip]) offset location <->
        LocatedAt (store.stripes ip) offset location) := by
    intro offset location bound
    have inside : offset / chunkSize < (store.stripes ip).length :=
      Nat.div_lt_of_lt_mul (by rw [Nat.mul_comm]; exact Nat.lt_of_lt_of_le bound tracked.covered)
    unfold LocatedAt
    rw [List.getElem?_append_left inside]
  have writes : forall off bh, .write ip off bh ∈ (store.allocateChunk ip .append).events <->
      .write ip off bh ∈ store.events := by
    intro off bh
    rw [allocateChunk_events]
    simp
  refine ⟨tracked.aligned, ?_, ?_, ?_, by rw [tree]; exact tracked.formed, ?_, ?_, ?_⟩
  · rw [stripes, List.length_append]
    exact Nat.le_trans tracked.covered (Nat.mul_le_mul_right _ (Nat.le_add_right _ _))
  · intro index chunk found
    rw [stripes] at found
    by_cases old : index < (store.stripes ip).length
    · rw [List.getElem?_append_left old] at found
      exact tracked.placed index chunk found
    · rw [List.getElem?_append_right (Nat.le_of_not_lt old)] at found
      have last : index - (store.stripes ip).length = 0 := by
        have bound := (List.getElem?_eq_some_iff.mp found).1
        simpa using bound
      rw [last] at found
      have same : store.nextChunk ip = chunk := Option.some.inj found
      have position : index = (store.stripes ip).length := by omega
      rw [← same, position]
      exact ⟨tracked.turn, aligned, allocateOn_lt _ _ _⟩
  · rw [stripes, inode, List.length_append, List.length_singleton]
    have turn := tracked.turn
    change ((store.inode ip).wrthdnum % 4 + 1) % 4 = _
    omega
  · intro offset location
    rw [tree, stripes, tracked.assigns]
    constructor
    · rintro ⟨bound, located⟩
      exact ⟨bound, (longer offset location bound).mpr located⟩
    · rintro ⟨bound, located⟩
      exact ⟨bound, (longer offset location bound).mp located⟩
  · intro off bh member
    have old := tracked.within off bh ((writes off bh).mp member)
    refine ⟨old.1, ?_⟩
    intro offset lower upper
    rw [stripes]
    exact (old.2 offset lower upper).append _
  · intro offset bound
    rcases tracked.written offset bound with ⟨off, bh, member, inside⟩
    exact ⟨off, bh, (writes off bh).mpr member, inside⟩

/-- A chunk that lies on its device keeps the accounts of its file. -/
theorem Accounted.allocateChunk (accounted : Accounted store ip)
    (turn : (store.inode ip).wrthdnum % 4 = (store.stripes ip).length % 4)
    (onDevice : (store.nextChunk ip).2 < devSize ((store.nextChunk ip).1 + 1)) :
    Accounted (store.allocateChunk ip .append) ip := by
  have stripes := stripes_allocateChunk store ip
  have devid : (store.nextChunk ip).1 = (store.stripes ip).length % 4 := turn
  have quota := accounted.quota
  have bounded := accounted.bounded
  refine ⟨?_, ?_, ?_⟩
  · intro chunk member
    rw [stripes] at member
    rcases List.mem_append.mp member with old | new
    · exact accounted.onDevice chunk old
    · rw [List.mem_singleton.mp new]
      exact onDevice
  all_goals
    rw [stripes, List.length_append, List.length_singleton]
    by_cases onSsd1 : (store.nextChunk ip).1 = 1
    · rcases nextChunk_ssd1 onSsd1 onDevice .append with ⟨stepped, below⟩
      rw [stepped]
      omega
    · have same : (store.allocateChunk ip .append).ssd1Block = store.ssd1Block := by
        rw [allocateChunk_ssd1Block, if_neg onSsd1]
        rfl
      rw [same]
      omega

/-- The store after the allocation step of an append. -/
abbrev Store.appendReady (store : Store) (ip : Nat) : Store :=
  store.allocateIf Inode.AppendDue ip .append

theorem appendReady_pos (due : (store.inode ip).AppendDue) :
    store.appendReady ip = store.allocateChunk ip .append :=
  allocateIf_pos .append due

theorem appendReady_neg (notDue : ¬ (store.inode ip).AppendDue) : store.appendReady ip = store :=
  allocateIf_neg .append notDue

/-- The allocation step before an append makes a striped file ready. -/
theorem Striped.ready (sound : Sound store) (striped : Striped store ip size) :
    Ready (store.appendReady ip) ip size := by
  have count := striped.count
  by_cases due : (store.inode ip).AppendDue
  · rw [appendReady_pos due]
    have full := striped.appendDue_iff.mp due
    have stripes := stripes_allocateChunk store ip
    have position : size / chunkSize = (store.stripes ip).length := by
      unfold chunkSize at *
      omega
    refine ⟨striped.tracked.allocateChunk sound, by rw [stripes, position]; simp, ?_⟩
    refine ⟨store.nextChunk ip, by rw [stripes, position]; simp, ?_, ?_⟩
    · rw [allocateChunk_inode_self, full]
      have placed := Inode.place_append (store.inode ip) (store.nextChunk ip).1
        (store.nextChunk ip).2
      exact ⟨placed.devid, placed.ssdoff, placed.usednvms⟩
    · intro onDevice
      exact striped.accounted.allocateChunk striped.tracked.turn onDevice
  · rw [appendReady_neg due]
    have partly : size % chunkSize ≠ 0 := fun full => due (striped.appendDue_iff.mpr full)
    have position : (store.stripes ip).length - 1 = size / chunkSize := by
      unfold chunkSize at *
      omega
    have nonempty : store.stripes ip ≠ [] := by
      intro empty
      rw [empty] at count
      simp only [List.length_nil] at count
      unfold chunkSize at *
      omega
    rcases striped.last nonempty with ⟨chunk, found, cursor, _⟩
    have used : size - ((store.stripes ip).length - 1) * chunkSize = size % chunkSize := by
      rw [position]
      unfold chunkSize at *
      omega
    rw [position] at found
    rw [used] at cursor
    refine ⟨striped.tracked, ?_, chunk, found, cursor, fun _ => striped.accounted⟩
    unfold chunkSize at *
    omega

end Allocation

/-! ## One append -/

section Append

variable {store next : Store} {ip off size : Nat} {data : Nat -> UInt8}

/-- The place of the next byte of a file that is ready. -/
structure Place (store : Store) (ip off : Nat) (chunk : Nat × Nat) : Prop where
  found : (store.stripes ip)[off / chunkSize]? = some chunk
  cursor : CursorIn (store.inode ip) chunk (off % chunkSize)
  device : chunk.1 < 4
  base : chunk.2 % chunkSize = 0
  range : chunk.2 + chunkSize ≤ 2 ^ 64

theorem Ready.place (ready : Ready store ip off) :
    Exists fun chunk => Place store ip off chunk ∧
      (chunk.2 < devSize (chunk.1 + 1) -> Accounted store ip) := by
  rcases ready.current with ⟨chunk, found, cursor, accounted⟩
  rcases ready.tracked.placed _ _ found with ⟨devid, aligned, bound⟩
  refine ⟨chunk, ⟨found, cursor, ?_, aligned, ?_⟩, accounted⟩
  · omega
  · unfold chunkSize at *
    omega

theorem Place.dev {chunk : Nat × Nat} (place : Place store ip off chunk) :
    low 8 ((store.inode ip).devid + 1) = chunk.1 + 1 := by
  have device := place.device
  rw [place.cursor.devid]
  exact low_of_lt (by omega)

theorem Place.blocks {chunk : Nat × Nat} (place : Place store ip off chunk)
    (aligned : off % gBlockSizeBytes = 0) :
    (store.inode ip).ssdoff / 4096 * 4096 = chunk.2 + off % chunkSize := by
  have base := place.base
  rw [place.cursor.ssdoff]
  unfold gBlockSizeBytes chunkSize at *
  omega

/-- The transfer of the append starts at the cursor. -/
theorem Place.address {chunk : Nat × Nat} (place : Place store ip off chunk)
    (aligned : off % gBlockSizeBytes = 0) (size : Nat) (data : Nat -> UInt8) :
    ((store.inode ip).appendHead size data).address = chunk.2 + off % chunkSize := by
  have range := place.range
  unfold Inode.appendHead BufferHead.address shl64
  change low 64 ((store.inode ip).ssdoff / 4096 * 4096) = _
  rw [place.blocks aligned]
  refine low_of_lt ?_
  unfold chunkSize at *
  omega

/-- The offsets of a whole piece lie in the chunk of its first one. -/
theorem WholePiece.same_chunk (whole : WholePiece off size) {offset : Nat} (lower : off ≤ offset)
    (upper : offset < off + size) :
    offset / chunkSize = off / chunkSize ∧
      offset % chunkSize = off % chunkSize + (offset - off) := by
  have inChunk := whole.inChunk
  unfold chunkSize at *
  omega

/-- The extent that the append enters assigns every offset of the piece its
place in the chunk. -/
theorem Place.translate {chunk : Nat × Nat} (place : Place store ip off chunk)
    (whole : WholePiece off size) {offset : Nat} (lower : off ≤ offset)
    (upper : offset < off + size) :
    Block.translate ⟨low 8 ((store.inode ip).devid + 1), off, size, (store.inode ip).ssdoff / 4096⟩
      offset = (chunk.1 + 1, chunk.2 + offset % chunkSize) := by
  rcases whole.same_chunk lower upper with ⟨_, remainder⟩
  have range := place.range
  unfold Block.translate
  simp only [place.blocks whole.start]
  refine Prod.ext place.dev ?_
  change low 64 (chunk.2 + off % chunkSize + (offset - off)) = chunk.2 + offset % chunkSize
  rw [remainder, Nat.add_assoc]
  refine low_of_lt ?_
  have inChunk := whole.inChunk
  unfold chunkSize at *
  omega

/-- The counter of the first SSD bounds every file. -/
theorem Accounted.length_lt (accounted : Accounted store ip) :
    (store.stripes ip).length < 2 ^ 21 := by
  have quota := accounted.quota
  have bounded := accounted.bounded
  omega

/-- The piece of an append lies behind all extents. -/
theorem Ready.fits (ready : Ready store ip off) (accounted : Accounted store ip)
    (whole : WholePiece off size) :
    blockSearch (store.inode ip).blktree off = none ∧
      Fits (store.inode ip).blktree
        ⟨low 8 ((store.inode ip).devid + 1), off, size, (store.inode ip).ssdoff / 4096⟩ := by
  have formed := ready.tracked.formed
  have below : forall old, old ∈ inorder (store.inode ip).blktree -> forall point,
      old.Covers point -> point < off := by
    intro old member point covers
    exact ((ready.tracked.assigns point _).mp ⟨old, member, covers, rfl⟩).1
  refine ⟨?_, whole.positive, ?_, ?_⟩
  · cases found : blockSearch (store.inode ip).blktree off with
    | none => rfl
    | some old =>
        rcases formed.blockSearch_eq_some.mp found with ⟨member, covers⟩
        exact absurd (below old member off covers) (Nat.lt_irrefl off)
  · have length := accounted.length_lt
    have count := ready.count
    have inChunk := whole.inChunk
    change off + size < 2 ^ 64
    unfold chunkSize at *
    omega
  · intro old member point inOld inNew
    exact absurd (below old member point inOld) (Nat.not_lt.mpr inNew.1)

/-- The new extent is inserted next to the old ones. -/
theorem Ready.enterBlock (ready : Ready store ip off) (accounted : Accounted store ip)
    (whole : WholePiece off size) (rb : Rebalancing Block) :
    Extended (store.inode ip).blktree
      (Filesystem.enterBlock rb (store.inode ip).blktree
        ⟨low 8 ((store.inode ip).devid + 1), off, size, (store.inode ip).ssdoff / 4096⟩)
      ⟨low 8 ((store.inode ip).devid + 1), off, size, (store.inode ip).ssdoff / 4096⟩ := by
  rcases ready.fits accounted whole with ⟨absent, fits⟩
  unfold Filesystem.enterBlock
  rw [absent]
  exact blockInsert_extended rb ready.tracked.formed fits

theorem Transferred.stripes {bh : BufferHead} {inode : Inode}
    (made : Transferred store next ip off bh inode) (other : Nat) :
    next.stripes other = store.stripes other := by
  rcases made.events with ⟨extent, events⟩
  unfold Store.stripes
  rw [events, chunks_append, chunks_transfer, List.append_nil]

theorem Transferred.write_mem {bh : BufferHead} {inode : Inode}
    (made : Transferred store next ip off bh inode) (other : Nat) (start : Nat) (head : BufferHead) :
    .write other start head ∈ next.events <->
      .write other start head ∈ store.events ∨ (other = ip ∧ start = off ∧ head = bh) := by
  rcases made.events with ⟨extent, events⟩
  rw [events]
  simp

/-- A completed append extends the tracked part of the file by its piece. -/
theorem Ready.tracked_appended (ready : Ready store ip off) (accounted : Accounted store ip)
    (whole : WholePiece off size) {chunk : Nat × Nat} (place : Place store ip off chunk)
    (made : Transferred store next ip off ((store.inode ip).appendHead size data)
      ((store.inode ip).afterAppend store.environment.rebalancing off size)) :
    Tracked next ip (off + size) := by
  have stripes := made.stripes ip
  have inode : next.inode ip =
      (store.inode ip).afterAppend store.environment.rebalancing off size := by
    rw [made.inode, Function.update_self]
  have extended := ready.enterBlock accounted whole store.environment.rebalancing
  have inChunk := whole.inChunk
  have count := ready.count
  have inPiece : forall offset, off ≤ offset -> offset < off + size ->
      LocatedAt (store.stripes ip) offset (chunk.1 + 1, chunk.2 + offset % chunkSize) := by
    intro offset lower upper
    exact ⟨chunk, by rw [(whole.same_chunk lower upper).1]; exact place.found, rfl⟩
  refine ⟨?_, ?_, ?_, ?_, ?_, ?_, ?_, ?_⟩
  · have start := whole.start
    have length := whole.length
    unfold gBlockSizeBytes at *
    omega
  · rw [stripes, count]
    unfold chunkSize at *
    omega
  · rw [stripes]
    exact ready.tracked.placed
  · rw [stripes, inode, ← ready.tracked.turn, (Inode.afterAppend_fields _ _ _ _).2.1]
  · rw [inode]
    exact extended.formed
  · intro offset location
    rw [inode, stripes]
    refine (extended.assigns offset location).trans ?_
    rw [ready.tracked.assigns]
    constructor
    · rintro (⟨bound, located⟩ | ⟨covers, equal⟩)
      · exact ⟨by omega, located⟩
      · rw [place.translate whole covers.1 covers.2] at equal
        exact ⟨covers.2, equal ▸ inPiece offset covers.1 covers.2⟩
    · rintro ⟨bound, located⟩
      by_cases old : offset < off
      · exact Or.inl ⟨old, located⟩
      · have lower := Nat.le_of_not_lt old
        refine Or.inr ⟨⟨lower, bound⟩, ?_⟩
        rw [place.translate whole lower bound]
        exact (inPiece offset lower bound).unique located
  · intro start head member
    rw [stripes]
    rcases (made.write_mem ip start head).mp member with old | ⟨_, sameStart, sameHead⟩
    · have before := ready.tracked.within start head old
      exact ⟨by omega, before.2⟩
    · subst sameStart
      subst sameHead
      refine ⟨Nat.le_refl _, ?_⟩
      intro offset lower upper
      have location : ((store.inode ip).appendHead size data).dev = chunk.1 + 1 ∧
          ((store.inode ip).appendHead size data).address + (offset - start) =
            chunk.2 + offset % chunkSize := by
        refine ⟨place.dev, ?_⟩
        rw [place.address whole.start, (whole.same_chunk lower upper).2, Nat.add_assoc]
      rw [location.1, location.2]
      exact inPiece offset lower upper
  · intro offset bound
    by_cases old : offset < off
    · rcases ready.tracked.written offset old with ⟨start, head, member, inside⟩
      exact ⟨start, head, (made.write_mem ip start head).mpr (Or.inl member), inside⟩
    · exact ⟨off, _, (made.write_mem ip off _).mpr (Or.inr ⟨rfl, rfl, rfl⟩),
        Nat.le_of_not_lt old, bound⟩

/-- A completed append leaves a striped file. -/
theorem Ready.appended (ready : Ready store ip off) (whole : WholePiece off size)
    (made : Transferred store next ip off ((store.inode ip).appendHead size data)
      ((store.inode ip).afterAppend store.environment.rebalancing off size)) :
    Striped next ip (off + size) := by
  rcases ready.place with ⟨chunk, place, account⟩
  have onDevice : chunk.2 < devSize (chunk.1 + 1) := by
    have fits := made.fits
    rw [place.address whole.start] at fits
    have dev : ((store.inode ip).appendHead size data).dev = chunk.1 + 1 := place.dev
    rw [dev] at fits
    have positive : 0 < ((store.inode ip).appendHead size data).size := whole.positive
    omega
  have accounted := account onDevice
  have stripes := made.stripes ip
  have block : next.ssd1Block = store.ssd1Block := by
    unfold Store.ssd1Block
    rw [made.addrinfo]
  have count := ready.count
  have positive := whole.positive
  have inChunk := whole.inChunk
  refine ⟨ready.tracked_appended accounted whole place made, ⟨?_, ?_, ?_⟩, ?_, ?_, ?_⟩
  · rw [stripes]
    exact accounted.onDevice
  · rw [stripes, block]
    exact accounted.quota
  · rw [stripes, block]
    exact accounted.bounded
  · rw [stripes, count]
    unfold chunkSize at *
    omega
  · intro empty
    rw [stripes] at empty
    rw [empty] at count
    simp at count
  · intro last found
    rw [stripes, count, Nat.add_sub_cancel, place.found] at found
    cases found
    have used : off + size - ((next.stripes ip).length - 1) * chunkSize =
        off % chunkSize + size := by
      rw [stripes, count]
      unfold chunkSize at *
      omega
    rw [used, made.inode, Function.update_self]
    have cursor := place.cursor
    rcases Inode.afterAppend_fields (store.inode ip) store.environment.rebalancing off size with
      ⟨_, _, devid, usednvms, ssdoff⟩
    exact ⟨by rw [devid, cursor.devid], by rw [ssdoff, cursor.ssdoff, Nat.add_assoc],
      fun onNvm => by rw [usednvms, cursor.usednvms onNvm]⟩

end Append

end Userfs.Filesystem
