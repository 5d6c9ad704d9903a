import Userfs.Filesystem.Built

namespace Userfs.Filesystem

open Ds
open Io
open Word

/-!
# Writes across the end of a file

A piece that starts below the end of a file and ends behind it is split by
`aligned_write`: the part below the end goes to the overwrite cursor, the rest is
appended.  Both parts share the device field.  The first overwrite of a file built by
appends allocates an overwrite chunk on the next device of the rotation, so the append
part meets a device field that is not that of its chunk.  Its address check moreover
compares the cursor, which stands at the end of the file, with the start of the piece.
-/

/-- What a piece across the end must have done with its bytes behind the end: they were
written where the append cursor stood, and the block tree leads there. -/
def AppendContinued (store next : Store) (ip stop : Nat) (data : Nat -> UInt8) : Prop :=
  Exists fun new => Exists fun bh => next.events = store.events ++ new ∧
    .write ip (store.inode ip).size bh ∈ new ∧
    bh.dev = (store.inode ip).devid + 1 ∧ bh.address = (store.inode ip).ssdoff ∧
    (store.inode ip).size + bh.size = stop ∧
    (forall index, index < bh.size -> bh.data index = data index) ∧
    forall offset, (store.inode ip).size ≤ offset -> offset < stop ->
      translation (next.inode ip).blktree offset =
        some (bh.dev, bh.address + (offset - (store.inode ip).size))

section Straddle

variable {files : List Nat} {calls : List AppendCall} {store next : Store} {ip off size : Nat}
  {buf : Nat -> UInt8}

/-- A chunk for overwrites does not touch the append cursor. -/
theorem Inode.place_overwrite_ssdoff (inode : Inode) (devid base : Nat) :
    (inode.place .overwrite devid base).ssdoff = inode.ssdoff := by
  unfold Inode.place
  split <;> simp_all

/-- A cursor inside a 2 MB block is due for a new chunk only while the device field names
the NVM. -/
theorem Inode.AppendDue.onNvm {inode : Inode} (due : inode.AppendDue)
    (inside : inode.ssdoff % chunkSize ≠ 0) : inode.devid = 0 := by
  rcases due with ⟨boundary, _⟩ | ⟨onNvm, _⟩
  · exact absurd ((shl64_43_eq_zero _).mp boundary) inside
  · exact onNvm

/-- The cursor of a built file whose last chunk is not full. -/
theorem Built.cursor (built : Built files calls store) (member : ip ∈ files)
    (partly : (store.inode ip).size % chunkSize ≠ 0) :
    (store.inode ip).ssdoff % chunkSize = (store.inode ip).size % chunkSize ∧
      (store.inode ip).devid < 4 ∧
      (store.inode ip).wrthdnum % 4 = ((store.inode ip).devid + 1) % 4 := by
  have striped := built.filed.all.striped ip member
  have count := striped.count
  have turn := striped.tracked.turn
  have nonempty : store.stripes ip ≠ [] := by
    intro empty
    rw [empty] at count
    simp only [List.length_nil] at count
    unfold chunkSize at *
    omega
  have positive : 0 < (store.stripes ip).length := List.length_pos_iff.mpr nonempty
  rcases striped.last nonempty with ⟨chunk, found, cursor, aligned⟩
  have device := (striped.tracked.placed _ chunk found).1
  rw [cursor.devid, cursor.ssdoff, turn]
  unfold chunkSize at *
  omega

/-- The first overwrite of a built file allocates a chunk. -/
theorem Built.overwriteDue (built : Built files calls store) (member : ip ∈ files) (length : Nat) :
    (store.inode ip).OverwriteDue length := by
  have untouched := built.untouched member
  refine Or.inr ?_
  unfold Inode.SmallOverwriteDue
  rw [untouched.1]
  by_cases onNvm : (store.inode ip).devid = 0
  · exact Or.inr ⟨onNvm, Or.inl rfl⟩
  · exact Or.inl ⟨rfl, Nat.pos_of_ne_zero onNvm⟩

/-- The append part, when the device field has been moved away from the chunk of the
cursor: it stops at the address check, or it starts a chunk on the first SSD. -/
theorem ensures_alignedAppend_moved {pieceOff : Nat} (layout : Layout store.log)
    (inside : (store.inode ip).ssdoff % chunkSize ≠ 0)
    (apart : (store.inode ip).ssdoff % chunkSize ≠ pieceOff % chunkSize)
    (turn : (store.inode ip).devid = 0 -> (store.inode ip).wrthdnum % 4 = 1)
    (positive : 0 < size) :
    Ensures (alignedAppend ip pieceOff off size buf) store
      (fun _ next => (store.inode ip).devid = 0 ∧ Exists fun bh => Exists fun extent => bh.dev = 2 ∧
        next.events = store.events ++
          [.alloc ip .append 1 (store.nextChunk ip).2, .write ip off bh, .logged ip extent])
      (fun _ _ => True) := by
  simp only [alignedAppend, checkWriteAddr, Ensures.bind_iff, ensures_allocateWhen,
    ensures_readInode, Ensures.ite_iff, Ensures.throw_iff, Ensures.pure_iff]
  by_cases due : (store.inode ip).AppendDue
  · rw [allocateIf_pos .append due]
    have onNvm := due.onNvm inside
    have next : (store.nextChunk ip).1 = 1 := turn onNvm
    have devid : ((store.allocateChunk ip .append).inode ip).devid = 1 := by
      rw [allocateChunk_inode_self]
      exact (Inode.place_append_rw _ _ _).2.2.trans next
    have ready : Layout (store.allocateChunk ip .append).log := layout
    have device : ((store.allocateChunk ip .append).inode ip).devid < 4 := by
      rw [devid]
      decide
    split
    · trivial
    · refine (ensures_appendAtCursor ready device positive).mono ?_ (fun _ _ _ => trivial)
      intro _ last made
      rcases made.events with ⟨extent, events⟩
      rw [allocateChunk_events, List.append_assoc, next] at events
      exact ⟨onNvm, _, extent, congrArg (fun devid => low 8 (devid + 1)) devid, events⟩
  · rw [allocateIf_neg .append due, if_pos apart]
    trivial

/-- No piece across the end of a file built by appends is carried out as it should: the
call stops, or it puts the bytes behind the end on another device than the chunk that
the file was growing in. -/
theorem straddling_write_never_continues (built : Built files calls store) (member : ip ∈ files)
    (whole : WholePiece off size) (below : off < (store.inode ip).size)
    (beyond : (store.inode ip).size < off + size) :
    ¬ Ensures (alignedWrite ip buf off size) store
      (fun written next => written = size ∧ AppendContinued store next ip (off + size)
        (fun index => buf ((store.inode ip).size - off + index)))
      (fun _ _ => False) := by
  have inChunk := whole.inChunk
  have start := whole.start
  have length := whole.length
  have aligned := built.aligned member
  unfold gBlockSizeBytes at start length
  have partly : (store.inode ip).size % chunkSize ≠ 0 ∧
      (store.inode ip).size % chunkSize ≠ off % chunkSize := by
    unfold chunkSize at *
    omega
  rcases built.cursor member partly.1 with ⟨ssdoff, device, turn⟩
  have due := built.overwriteDue member
    (low 32 (blockCeil (store.inode ip).size - off))
  have layout : Layout (store.allocateChunk ip .overwrite).log := built.filed.all.sound.layout
  have placed := Inode.place_overwrite (store.inode ip) (store.nextChunk ip).1 (store.nextChunk ip).2
  have kept := Inode.place_overwrite_ssdoff (store.inode ip) (store.nextChunk ip).1
    (store.nextChunk ip).2
  have inode := allocateChunk_inode_self store ip .overwrite
  have ceil : blockCeil (store.inode ip).size = (store.inode ip).size := by
    unfold blockCeil
    omega
  have ceilEnd : blockCeil (off + size) = off + size := by
    unfold blockCeil
    omega
  have short : low 32 ((store.inode ip).size - off) = (store.inode ip).size - off := by
    refine low_of_lt ?_
    unfold chunkSize at inChunk
    omega
  have misplaced : Ensures (alignedWrite ip buf off size) store
      (fun _ next => ¬ AppendContinued store next ip (off + size)
        (fun index => buf ((store.inode ip).size - off + index))) (fun _ _ => True) := by
    simp only [alignedWrite, Ensures.bind_iff, ensures_readInode, if_neg (Nat.ne_of_lt below),
      if_pos below, ceilEnd]
    rw [if_pos (by rw [ceil]; exact beyond)]
    simp only [Ensures.bind_iff, ensures_allocateWhen, Ensures.pure_iff]
    rw [allocateIf_pos .overwrite due]
    simp only [ceil, short]
    refine (@ensures_overwriteAtCursor _ ip 0 off _ _ buf layout (by decide) (by omega)).mono ?_
      (fun _ _ _ => trivial)
    intro _ middle made
    rcases made.events with ⟨extent, events⟩
    have middleInode : middle.inode ip =
        { (store.allocateChunk ip .overwrite).inode ip with
          rwoff := ((store.allocateChunk ip .overwrite).inode ip).rwoff +
            ((store.inode ip).size - off) } := by
      rw [made.inode, Function.update_self]
    have middleSsdoff : (middle.inode ip).ssdoff = (store.inode ip).ssdoff := by
      rw [middleInode, inode]
      exact kept
    have middleDevid : (middle.inode ip).devid = (store.inode ip).wrthdnum % 4 := by
      rw [middleInode, inode]
      exact placed.2.2
    have middleTurn : (middle.inode ip).wrthdnum = (store.inode ip).wrthdnum % 4 + 1 := by
      rw [middleInode, inode]
    refine (ensures_alignedAppend_moved made.layout ?_ ?_ ?_ (by omega)).mono ?_
      (fun _ _ _ => trivial)
    · rw [middleSsdoff, ssdoff]
      exact partly.1
    · rw [middleSsdoff, ssdoff]
      exact partly.2
    · rw [middleDevid, middleTurn]
      omega
    · rintro _ next ⟨onNvm, bh, last, onSsd1, eventsNext⟩ continued
      rcases continued with ⟨new, head, eventsNew, written, dev, _⟩
      rw [middleDevid] at onNvm
      rw [eventsNext, events, allocateChunk_events, List.append_assoc, List.append_assoc] at eventsNew
      rw [← List.append_cancel_left eventsNew] at written
      -- the piece itself starts elsewhere, so the write behind the end is the append
      have same : head = bh := by
        simp only [List.cons_append, List.nil_append, List.mem_cons, reduceCtorEq, Event.write.injEq,
          List.not_mem_nil, false_or, or_false, true_and] at written
        rcases written with first | second
        · omega
        · exact second.2
      rw [same, onSsd1] at dev
      omega
  intro right
  refine ((misplaced.and right).mono ?_ (fun _ _ fault => fault.2)).const
  exact fun _ _ both => both.1 both.2.2

end Straddle

/-- A block is there, and two are written over it and behind it. -/
theorem straddling_write_never_continues_two_blocks :
    Exists fun store => Built [0] [onesCall] store ∧
      ¬ Ensures (alignedWrite 0 (fun _ => 2) 0 8192) store
        (fun written next => written = 8192 ∧ AppendContinued store next 0 8192
          (fun index => (fun _ => 2) ((store.inode 0).size - 0 + index)))
        (fun _ _ => False) := by
  have ⟨store, built, size⟩ := @exists_built [onesCall] (fun store => (store.inode 0).size = 4096)
    admissible_onesCall (by decide +kernel)
  exact ⟨store, built, straddling_write_never_continues built (List.mem_singleton_self 0)
    ⟨by decide, by decide, by decide, by decide⟩ (by omega) (by omega)⟩

/-- The call stops at the address check. -/
theorem straddling_write_panics :
    Exists fun store => Built [0] [onesCall] store ∧
      Ensures (alignedWrite 0 (fun _ => 2) 0 8192) store (fun _ _ => False)
        (fun fault _ => fault = .panic "write addr error\n") :=
  @exists_built [onesCall] (fun store => Ensures (alignedWrite 0 (fun _ => 2) 0 8192) store
    (fun _ _ => False) (fun fault _ => fault = .panic "write addr error\n"))
    admissible_onesCall (by decide +kernel)

end Userfs.Filesystem
