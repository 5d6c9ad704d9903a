import Userfs.Filesystem.AppendRun

namespace Userfs.Filesystem

open Ds
open Io
open SearchTree
open Word

/-!
# One extent for each chunk

Pieces that an append puts into one chunk continue each other on the device, so the
extent of the chunk grows with them.  The chunk before it lies on another device, so
the first piece of a chunk always starts an extent.  A file built by appends therefore
has one extent for each 2 MB chunk, the last one cut at the end of the file.
-/

/-- The extent of a chunk in a file of some size. -/
def extentOf (size index : Nat) (chunk : Nat × Nat) : Block :=
  ⟨chunk.1 + 1, index * chunkSize, min chunkSize (size - index * chunkSize), chunk.2 / 4096⟩

/-- A block is the extent of one of the chunks that a file of some size needs. -/
def IsExtent (placement : List (Nat × Nat)) (size : Nat) (block : Block) : Prop :=
  Exists fun index => Exists fun chunk => placement[index]? = some chunk ∧
    index * chunkSize < size ∧ block = extentOf size index chunk

/-- The block tree holds the extents of the chunks, and they lie on their devices. -/
structure Packed (store : Store) (ip size : Nat) : Prop where
  extents : forall block, block ∈ inorder (store.inode ip).blktree ->
    IsExtent (store.stripes ip) size block
  fits : forall index chunk, (store.stripes ip)[index]? = some chunk -> index * chunkSize < size ->
    chunk.2 + min chunkSize (size - index * chunkSize) ≤ devSize (chunk.1 + 1)

section Append

variable {store next : Store} {ip off size : Nat} {data : Nat -> UInt8}

/-- The extent of a chunk that is full does not change any more. -/
theorem extentOf_full {index : Nat} (full : (index + 1) * chunkSize ≤ off) (chunk : Nat × Nat) :
    extentOf (off + size) index chunk = extentOf off index chunk := by
  unfold extentOf
  have before : min chunkSize (off - index * chunkSize) = chunkSize := by
    unfold chunkSize at *
    omega
  have after : min chunkSize (off + size - index * chunkSize) = chunkSize := by
    unfold chunkSize at *
    omega
  rw [before, after]

/-- A chunk other than the one that receives the piece is full. -/
theorem full_of_ne {index : Nat} (inside : index * chunkSize < off) (other : index ≠ off / chunkSize) :
    (index + 1) * chunkSize ≤ off := by
  unfold chunkSize at *
  omega

/-- The chunks before the last one are full. -/
theorem full_of_count {length index : Nat} (count : length = off / chunkSize + 1) (bound : index < length)
    (other : index ≠ off / chunkSize) : (index + 1) * chunkSize ≤ off := by
  unfold chunkSize at *
  omega

theorem min_full {index off : Nat} (full : (index + 1) * chunkSize ≤ off) :
    min chunkSize (off - index * chunkSize) = chunkSize := by
  unfold chunkSize at *
  omega

theorem start_lt_next (index : Nat) : index * chunkSize < (index + 1) * chunkSize := by
  unfold chunkSize
  omega

/-- The extent that the current chunk has after a piece. -/
theorem Place.extent {chunk : Nat × Nat} (place : Place store ip off chunk) (whole : WholePiece off size) :
    extentOf (off + size) (off / chunkSize) chunk =
      ⟨low 8 ((store.inode ip).devid + 1), off - off % chunkSize, off % chunkSize + size,
        chunk.2 / 4096⟩ := by
  have inChunk := whole.inChunk
  unfold extentOf
  rw [place.dev]
  have start : off / chunkSize * chunkSize = off - off % chunkSize := by
    unfold chunkSize
    omega
  have length : min chunkSize (off + size - (off - off % chunkSize)) = off % chunkSize + size := by
    unfold chunkSize at *
    omega
  rw [start, length]

/-- The piece that starts a chunk continues no extent: the chunk before it is on
another device. -/
theorem Packed.alone (packed : Packed store ip off) (tracked : Tracked store ip off)
    {chunk : Nat × Nat} (place : Place store ip off chunk) (starts : off % chunkSize = 0)
    {this : Block} (member : this ∈ inorder (store.inode ip).blktree)
    (meets : this.fileend = off) (addr : Nat) :
    mergeInto ⟨low 8 ((store.inode ip).devid + 1), off, size, addr⟩ this = none := by
  rcases packed.extents this member with ⟨index, other, found, inside, equal⟩
  have turn := (tracked.placed _ _ place.found).1
  have otherTurn := (tracked.placed _ _ found).1
  unfold mergeInto
  apply if_neg
  rintro ⟨sameDevice, _⟩
  rw [place.dev, equal] at sameDevice
  rw [equal] at meets
  change other.1 + 1 = chunk.1 + 1 at sameDevice
  change index * chunkSize + min chunkSize (off - index * chunkSize) = off at meets
  have next : index + 1 = off / chunkSize := by
    unfold chunkSize at *
    omega
  omega

/-- The piece that continues a chunk makes its extent grow. -/
theorem Place.merges {chunk : Nat × Nat} (place : Place store ip off chunk)
    (whole : WholePiece off size) (bounded : off + size < 2 ^ 64) :
    mergeInto ⟨low 8 ((store.inode ip).devid + 1), off, size, (store.inode ip).ssdoff / 4096⟩
        (extentOf off (off / chunkSize) chunk) =
      some (extentOf (off + size) (off / chunkSize) chunk) := by
  have start := whole.start
  have base := place.base
  have range := place.range
  have inChunk := whole.inChunk
  have floor : off / chunkSize * chunkSize = off - off % chunkSize := by
    unfold chunkSize
    omega
  have used : min chunkSize (off - (off - off % chunkSize)) = off % chunkSize := by
    unfold chunkSize
    omega
  have before : extentOf off (off / chunkSize) chunk =
      ⟨low 8 ((store.inode ip).devid + 1), off - off % chunkSize, off % chunkSize, chunk.2 / 4096⟩ := by
    unfold extentOf
    rw [place.dev, floor, used]
  have distance : shl64 (sub64 ((store.inode ip).ssdoff / 4096) (chunk.2 / 4096)) 12 =
      off % chunkSize := by
    rw [place.cursor.ssdoff]
    unfold gBlockSizeBytes chunkSize shl64 sub64 low at *
    omega
  have length : sub64 (add64 off size) (off - off % chunkSize) = off % chunkSize + size := by
    rw [add64_of_lt bounded, sub64_of_le (by omega) bounded]
    unfold chunkSize at *
    omega
  rw [place.extent whole, before]
  unfold mergeInto
  rw [if_pos ⟨rfl, distance⟩]
  simp only [length]

/-- The extents after a piece. -/
theorem Packed.enterBlock (packed : Packed store ip off) (ready : Ready store ip off)
    (accounted : Accounted store ip) {chunk : Nat × Nat} (place : Place store ip off chunk)
    (whole : WholePiece off size) (rb : Rebalancing Block) {block : Block}
    (member : block ∈ inorder (Filesystem.enterBlock rb (store.inode ip).blktree
      ⟨low 8 ((store.inode ip).devid + 1), off, size, (store.inode ip).ssdoff / 4096⟩)) :
    IsExtent (store.stripes ip) (off + size) block := by
  have formed := ready.tracked.formed
  have positive := whole.positive
  rcases ready.fits accounted whole with ⟨absent, fits⟩
  unfold Filesystem.enterBlock at member
  rw [absent] at member
  simp only at member
  have current : off / chunkSize * chunkSize < off + size := by
    unfold chunkSize
    omega
  have old : forall other, other ∈ inorder (store.inode ip).blktree ->
      other ≠ extentOf off (off / chunkSize) chunk ->
      IsExtent (store.stripes ip) (off + size) other := by
    intro other inTree different
    rcases packed.extents other inTree with ⟨index, itsChunk, found, inside, equal⟩
    have notCurrent : index ≠ off / chunkSize := by
      intro same
      subst same
      rw [place.found] at found
      cases found
      exact different equal
    refine ⟨index, itsChunk, found, by omega, ?_⟩
    rw [equal, extentOf_full (full_of_ne inside notCurrent)]
  by_cases starts : off % chunkSize = 0
  · -- the piece starts the chunk: it gets an extent of its own
    have alone := fun this inTree meets => @Packed.alone store ip off size packed ready.tracked
      chunk place starts this inTree meets ((store.inode ip).ssdoff / 4096)
    rcases blockInsert_links rb formed fits alone with ⟨before, after, first, second⟩
    rw [second] at member
    have others : forall other, other ∈ before ++ after ->
        IsExtent (store.stripes ip) (off + size) other := by
      intro other kept
      rw [← first] at kept
      refine old other kept ?_
      rintro rfl
      have nonempty := formed.separated.nonempty _ kept
      change off / chunkSize * chunkSize < off / chunkSize * chunkSize +
        min chunkSize (off - off / chunkSize * chunkSize) at nonempty
      unfold chunkSize at *
      omega
    rcases List.mem_append.mp member with inBefore | inRest
    · exact others block (List.mem_append_left _ inBefore)
    · rcases List.mem_cons.mp inRest with new | inAfter
      · refine ⟨off / chunkSize, chunk, place.found, current, ?_⟩
        rw [new, place.extent whole, place.cursor.ssdoff, starts]
        simp
      · exact others block (List.mem_append_right _ inAfter)
  · -- the piece continues the extent of the chunk
    have last : off - 1 < off := by
      unfold chunkSize at starts
      omega
    have located : LocatedAt (store.stripes ip) (off - 1)
        (chunk.1 + 1, chunk.2 + (off - 1) % chunkSize) := by
      refine ⟨chunk, ?_, rfl⟩
      have same : (off - 1) / chunkSize = off / chunkSize := by
        unfold chunkSize at *
        omega
      rw [same]
      exact place.found
    rcases (ready.tracked.assigns _ _).mpr ⟨last, located⟩ with ⟨this, inTree, covers, _⟩
    rcases packed.extents this inTree with ⟨index, itsChunk, found, inside, equal⟩
    have ends := covers.2
    have begins := covers.1
    rw [equal] at ends begins
    change off - 1 < index * chunkSize + min chunkSize (off - index * chunkSize) at ends
    change index * chunkSize ≤ off - 1 at begins
    have position : index = off / chunkSize := by
      unfold chunkSize at *
      omega
    subst position
    rw [place.found] at found
    cases found
    have meets : this.fileend = off := by
      rw [equal]
      change off / chunkSize * chunkSize + min chunkSize (off - off / chunkSize * chunkSize) = off
      unfold chunkSize at *
      omega
    have merged := place.merges whole fits.bounded
    rw [← equal] at merged
    rcases blockInsert_merges rb formed fits inTree meets merged with ⟨before, after, first, second⟩
    rw [second] at member
    have others : forall other, other ∈ before ++ after ->
        IsExtent (store.stripes ip) (off + size) other := by
      intro other kept
      refine old other ?_ ?_
      · rw [first]
        rcases List.mem_append.mp kept with inBefore | inAfter
        · exact List.mem_append_left _ inBefore
        · exact List.mem_append_right _ (List.mem_cons_of_mem _ inAfter)
      · rw [← equal]
        exact (first ▸ formed.separated).ne_of_mem kept
    rcases List.mem_append.mp member with inBefore | inRest
    · exact others block (List.mem_append_left _ inBefore)
    · rcases List.mem_cons.mp inRest with grown | inAfter
      · exact ⟨off / chunkSize, chunk, place.found, current, grown⟩
      · exact others block (List.mem_append_right _ inAfter)

/-- A completed piece leaves one extent for each chunk. -/
theorem Packed.appended (packed : Packed store ip off) (ready : Ready store ip off)
    (whole : WholePiece off size)
    (made : Transferred store next ip off ((store.inode ip).appendHead size data)
      ((store.inode ip).afterAppend store.environment.rebalancing off size)) :
    Packed next ip (off + size) := by
  rcases ready.place with ⟨chunk, place, account⟩
  have onDevice := place.fits whole.start made
  have positive := whole.positive
  have inChunk := whole.inChunk
  have stripes := made.stripes ip
  have inode : next.inode ip =
      (store.inode ip).afterAppend store.environment.rebalancing off size := by
    rw [made.inode, Function.update_self]
  constructor
  · intro block member
    rw [stripes]
    rw [inode] at member
    exact packed.enterBlock ready (account (by omega)) place whole _ member
  · intro index other found inside
    rw [stripes] at found
    by_cases current : index = off / chunkSize
    · subst current
      rw [place.found] at found
      cases found
      have used : min chunkSize (off + size - off / chunkSize * chunkSize) = off % chunkSize + size := by
        unfold chunkSize at *
        omega
      rw [used]
      omega
    · have full := full_of_count ready.count (List.getElem?_eq_some_iff.mp found).1 current
      have before := packed.fits index other found (Nat.lt_of_lt_of_le (start_lt_next index) full)
      rw [min_full full] at before
      rw [min_full (Nat.le_trans full (Nat.le_add_right off size))]
      exact before

/-- An allocation for the append cursor leaves the extents alone. -/
theorem Packed.appendReady (packed : Packed store ip off) (striped : Striped store ip off) :
    Packed (store.appendReady ip) ip off := by
  by_cases due : (store.inode ip).AppendDue
  · rw [appendReady_pos due]
    have stripes := stripes_allocateChunk store ip
    have tree : ((store.allocateChunk ip .append).inode ip).blktree = (store.inode ip).blktree := by
      rw [allocateChunk_inode_self]
      exact (Inode.place_size _ _ _ _).2
    have covered := striped.tracked.covered
    have old : forall index, index * chunkSize < off ->
        (store.stripes ip ++ [store.nextChunk ip])[index]? = (store.stripes ip)[index]? := by
      intro index inside
      apply List.getElem?_append_left
      unfold chunkSize at *
      omega
    constructor
    · intro block member
      rw [tree] at member
      rcases packed.extents block member with ⟨index, chunk, found, inside, equal⟩
      refine ⟨index, chunk, ?_, inside, equal⟩
      rw [stripes, old index inside]
      exact found
    · intro index chunk found inside
      rw [stripes, old index inside] at found
      exact packed.fits index chunk found inside
  · rw [appendReady_neg due]
    exact packed

theorem Packed.made (packed : Packed store ip off) (sound : Sound store)
    (striped : Striped store ip off) (whole : WholePiece off size)
    (made : AppendMade store next ip off size data) : Packed next ip (off + size) :=
  (packed.appendReady striped).appended (striped.ready sound) whole made

end Append

/-- The extents of a file survive the steps of other files. -/
theorem Packed.frame {store next : Store} {ip other size : Nat} (packed : Packed store other size)
    (apart : Apart ip store next) (different : other ≠ ip) : Packed next other size := by
  have stripes : next.stripes other = store.stripes other := apart.chunks_other different .append
  constructor
  · rw [stripes, apart.inode other different]
    exact packed.extents
  · rw [stripes]
    exact packed.fits

/-- The extents do not depend on the size stored in the inode. -/
theorem Packed.resize {store : Store} {ip size : Nat} (packed : Packed store ip size)
    (newSize : Inode -> Nat) :
    Packed (store.updateInode ip (fun inode => { inode with size := newSize inode })) ip size := by
  constructor
  · rw [updateInode_inode_self]
    exact packed.extents
  · exact packed.fits

/-- The extent that holds an offset. -/
theorem Packed.blockSearch {store : Store} {ip size : Nat} (packed : Packed store ip size)
    (tracked : Tracked store ip size) {offset : Nat} (inside : offset < size) :
    Exists fun chunk => (store.stripes ip)[offset / chunkSize]? = some chunk ∧
      blockSearch (store.inode ip).blktree offset = some (extentOf size (offset / chunkSize) chunk) := by
  have bound : offset / chunkSize < (store.stripes ip).length :=
    Nat.div_lt_of_lt_mul (by rw [Nat.mul_comm]; exact Nat.lt_of_lt_of_le inside tracked.covered)
  have here := List.getElem?_eq_getElem bound
  rcases (tracked.assigns offset _).mpr ⟨inside, _, here, rfl⟩ with ⟨block, member, covers, _⟩
  rcases packed.extents block member with ⟨index, chunk, found, _, equal⟩
  have begins := covers.1
  have ends := covers.2
  rw [equal] at begins ends
  change index * chunkSize ≤ offset at begins
  change offset < index * chunkSize + min chunkSize (size - index * chunkSize) at ends
  have position : index = offset / chunkSize := by
    unfold chunkSize at *
    omega
  subst position
  refine ⟨chunk, found, ?_⟩
  rw [← equal]
  exact tracked.formed.blockSearch_eq_some.mpr ⟨member, covers⟩

end Userfs.Filesystem
