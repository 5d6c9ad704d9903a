import Userfs.Filesystem.FileWrite

namespace Userfs.Filesystem

open Ds
open Io
open SearchTree
open Word

/-!
# What the records say about the device

Replaying the log maps file data to the bytes that were written only if each
`FILE_WRITE` record names the device, the first byte and the length of the device
write it accompanies.  `append_fsextent` takes the displacement inside the block
from the file offset.  This is the displacement of the write for pieces that start
on a block boundary and for unaligned appends; an unaligned overwrite sends a whole
block, and its record is off by the displacement.

Nothing is assumed about the file: its block tree, its cursors and the log may be
in any state.
-/

/-- A record names the device, the first byte and the length of a write. -/
def FsExtent.Names (extent : FsExtent) (bh : BufferHead) : Prop :=
  extent.deviceId + 1 = bh.dev ∧ extent.extStart = bh.address ∧ extent.size = bh.size

instance (extent : FsExtent) (bh : BufferHead) : Decidable (extent.Names bh) :=
  inferInstanceAs (Decidable (_ ∧ _ ∧ _))

/-- Every record follows a write of its inode and names it; `last` is the write
just before the events. -/
def TruthfulAfter (last : Option (Nat × BufferHead)) : List Event -> Prop
  | [] => True
  | .alloc _ _ _ _ :: rest => TruthfulAfter none rest
  | .write inode _ bh :: rest => TruthfulAfter (some (inode, bh)) rest
  | .logged inode extent :: rest =>
      (match last with
        | none => False
        | some (writer, bh) => inode = writer ∧ extent.Names bh) ∧ TruthfulAfter none rest

/-- Every record names the write it accompanies. -/
abbrev Truthful (events : List Event) : Prop :=
  TruthfulAfter none events

/-- The truth of a list of events can be evaluated. -/
def TruthfulAfter.decide : (last : Option (Nat × BufferHead)) -> (events : List Event) ->
    Decidable (TruthfulAfter last events)
  | _, [] => .isTrue trivial
  | _, .alloc _ _ _ _ :: rest => TruthfulAfter.decide none rest
  | _, .write inode _ bh :: rest => TruthfulAfter.decide (some (inode, bh)) rest
  | none, .logged _ _ :: _ => .isFalse (fun truthful => truthful.1)
  | some (writer, bh), .logged inode extent :: rest =>
      have := TruthfulAfter.decide none rest
      inferInstanceAs (Decidable ((inode = writer ∧ extent.Names bh) ∧ TruthfulAfter none rest))

instance (last : Option (Nat × BufferHead)) : DecidablePred (TruthfulAfter last) :=
  TruthfulAfter.decide last

theorem TruthfulAfter.weaken {last : Option (Nat × BufferHead)} {events : List Event}
    (truthful : Truthful events) : TruthfulAfter last events := by
  cases events with
  | nil => trivial
  | cons event rest =>
      cases event with
      | alloc inode cursor devid base => exact truthful
      | write inode off bh => exact truthful
      | logged inode extent => exact truthful.1.elim

theorem TruthfulAfter.append {last : Option (Nat × BufferHead)} {first second : List Event}
    (before : TruthfulAfter last first) (after : Truthful second) :
    TruthfulAfter last (first ++ second) := by
  induction first generalizing last with
  | nil => exact after.weaken
  | cons event rest ih =>
      cases event with
      | alloc inode cursor devid base => exact ih before
      | write inode off bh => exact ih before
      | logged inode extent => exact ⟨before.1, ih before.2⟩

/-- The events added between two states are truthful. -/
def Told (store next : Store) : Prop :=
  Exists fun new => next.events = store.events ++ new ∧ Truthful new

instance : Std.Refl Told where
  refl := fun _ => ⟨[], by simp, trivial⟩

theorem Told.of_events {store next : Store} (same : next.events = store.events) :
    Told store next :=
  ⟨[], by simp [same], trivial⟩

instance : IsTrans Store Told where
  trans := by
    rintro first second third ⟨new, events, truthful⟩ ⟨later, events', truthful'⟩
    exact ⟨new ++ later, by rw [events', events, List.append_assoc], truthful.append truthful'⟩

/-! ## The record of one write -/

/-- The start address a record names, for any block number. -/
theorem fsextentOf_extStart (inode : Inode) (clock off : Nat) (bh : BufferHead) (append : Nat) :
    (fsextentOf inode clock off bh append).extStart =
      low 48 (shl64 bh.blocknr 12) + off % 4096 := by
  have aligned : shl64 bh.blocknr 12 % 4096 = 0 := by
    unfold shl64 low
    omega
  simp only [FsExtent.extStart, fsextentOf]
  unfold low
  omega

/-- On a present device, a record is right exactly when its address is. -/
theorem names_fsextentOf {bh : BufferHead} (present : (gBdev bh.dev).isSome = true) (inode : Inode)
    (clock off append : Nat) :
    (fsextentOf inode clock off bh append).Names bh <->
      low 48 (shl64 bh.blocknr 12) + off % 4096 = shl64 bh.blocknr 12 + bh.offset := by
  have device : (fsextentOf inode clock off bh append).deviceId + 1 = bh.dev := by
    change low 8 (bh.dev + 255) + 1 = bh.dev
    revert present
    unfold gBdev
    split <;> simp_all [low]
  unfold FsExtent.Names
  rw [fsextentOf_extStart]
  exact ⟨fun names => names.2.1, fun start => ⟨device, start, rfl⟩⟩

theorem userfsWrite_present {fresh : Nat -> UInt8} {disk next : Disk} {bh : BufferHead}
    (done : userfsWrite fresh disk bh = .ok next) : (gBdev bh.dev).isSome = true := by
  unfold userfsWrite at done
  split at done
  · cases done
  · split at done
    · cases done
    · simp_all
    · simp_all

/-- A completed write with its record: two events, and the device accepted the
write. -/
structure Recorded (store next : Store) (ip off : Nat) (bh : BufferHead) : Prop where
  events : Exists fun inode => Exists fun clock => Exists fun append =>
    next.events = store.events ++ [.write ip off bh, .logged ip (fsextentOf inode clock off bh append)]
  accepted : Exists fun fresh => Exists fun disk => Exists fun written =>
    userfsWrite fresh disk bh = .ok written

theorem ensures_transferRecorded_any {store : Store} {ip off append : Nat} {bh : BufferHead}
    {move : Inode -> Inode} :
    Ensures (transferRecorded ip move off bh append) store
      (fun _ next => Recorded store next ip off bh)
      (fun _ next => next.events = store.events ++ [.write ip off bh]) := by
  simp only [transferRecorded, Ensures.bind_iff, ensures_modifyInode, ensures_submitWrite]
  split
  · rename_i disk accepted
    rw [ensures_appendFsextent]
    unfold Ensures
    split
    · refine ⟨⟨(store.updateInode ip move).inode ip, store.environment.clock, append, ?_⟩,
        ⟨_, _, _, accepted⟩⟩
      simp only [Store.issued, List.append_assoc]
      rfl
    · rfl
  · rfl

/-- The record of a completed write is right exactly when the address is. -/
theorem Recorded.truthful_iff {store next : Store} {ip off : Nat} {bh : BufferHead}
    (made : Recorded store next ip off bh) :
    Exists fun new => next.events = store.events ++ new ∧
      (Truthful new <->
        low 48 (shl64 bh.blocknr 12) + off % 4096 = shl64 bh.blocknr 12 + bh.offset) := by
  rcases made.events with ⟨inode, clock, append, events⟩
  rcases made.accepted with ⟨fresh, disk, written, accepted⟩
  refine ⟨_, events, ?_⟩
  rw [← names_fsextentOf (userfsWrite_present accepted) inode clock off append]
  exact ⟨fun truthful => truthful.1.2, fun names => ⟨⟨rfl, names⟩, trivial⟩⟩

/-- A write that the device accepted without an offset lies below `2^48`. -/
theorem Recorded.address_lt {store next : Store} {ip off : Nat} {bh : BufferHead}
    (made : Recorded store next ip off bh) (aligned : bh.offset = 0) :
    shl64 bh.blocknr 12 < 2 ^ 48 := by
  rcases made.accepted with ⟨fresh, disk, written, accepted⟩
  rcases userfsWrite_ok aligned accepted with ⟨positive, fits, _⟩
  have capacity := devSize_lt bh.dev
  unfold BufferHead.address at fits
  omega

/-- The record of a block-aligned write is right exactly when the file offset is
aligned as well. -/
theorem Recorded.aligned_truthful_iff {store next : Store} {ip off : Nat} {bh : BufferHead}
    (made : Recorded store next ip off bh) (aligned : bh.offset = 0) :
    Exists fun new => next.events = store.events ++ new ∧ (Truthful new <-> off % 4096 = 0) := by
  rcases made.truthful_iff with ⟨new, events, truthful⟩
  have small := made.address_lt aligned
  refine ⟨new, events, truthful.trans ?_⟩
  rw [low_of_lt small, aligned]
  omega

/-! ## Pieces that start on a block boundary -/

section Aligned

theorem follows_transferRecorded {ip off append : Nat} {bh : BufferHead} {move : Inode -> Inode}
    (aligned : bh.offset = 0) (start : off % 4096 = 0) :
    Follows Told (transferRecorded ip move off bh append) := by
  intro store
  refine ensures_transferRecorded_any.mono ?_ ?_
  · intro _ next made
    rcases made.aligned_truthful_iff aligned with ⟨new, events, truthful⟩
    exact ⟨new, events, truthful.mpr start⟩
  · intro _ next events
    exact ⟨_, events, trivial⟩

theorem follows_bhGetSyncIo (dev blocknr size : Nat) (data : Nat -> UInt8) (offset : Nat) :
    Follows Told (bhGetSyncIo dev blocknr size data offset) :=
  Follows.ite (fun _ => Follows.pure _) (fun _ => Follows.throw _)

theorem follows_readInode (ip : Nat) : Follows Told (readInode ip) :=
  fun store => ensures_readInode.mpr (Std.Refl.refl store)

theorem follows_allocateWhen (due : Inode -> Prop) [DecidablePred due] (ip : Nat)
    (cursor : Cursor) : Follows Told (allocateWhen due ip cursor) := by
  intro store
  rw [ensures_allocateWhen]
  by_cases isDue : due (store.inode ip)
  · rw [allocateIf_pos cursor isDue]
    exact ⟨_, rfl, trivial⟩
  · rw [allocateIf_neg cursor isDue]
    exact Std.Refl.refl store

theorem follows_lookupBlock (ip off : Nat) : Follows Told (lookupBlock ip off) := by
  intro store
  refine (looked_lookupBlock ip off store).mono ?_ ?_
  · intro _ next looked
    exact Told.of_events looked.events
  · intro _ next looked
    exact Told.of_events looked.events

/-- A device write that starts a block, by its cursor. -/
theorem follows_overwriteAtCursor {ip dev off size advance : Nat} {data : Nat -> UInt8}
    (start : off % 4096 = 0) : Follows Told (overwriteAtCursor ip dev off size advance data) := by
  intro store
  simp only [overwriteAtCursor, bhGetSyncIo, Ensures.bind_iff, ensures_readInode, Ensures.ite_iff,
    Ensures.pure_iff, Ensures.throw_iff]
  split
  · exact follows_transferRecorded rfl start store
  · exact Std.Refl.refl store

theorem follows_appendAtCursor {ip off size : Nat} {data : Nat -> UInt8}
    (start : off % 4096 = 0) : Follows Told (appendAtCursor ip off size data) := by
  intro store
  simp only [appendAtCursor, bhGetSyncIo, insertBlktree, Ensures.bind_iff, ensures_readInode,
    Ensures.ite_iff, Ensures.pure_iff, Ensures.throw_iff, Ensures.modify_iff]
  split
  · exact follows_transferRecorded rfl start store
  · exact Std.Refl.refl store

theorem follows_checkWriteAddr (ip off : Nat) : Follows Told (checkWriteAddr ip off) :=
  Follows.bind (follows_readInode ip)
    (fun _ => Follows.ite (fun _ => Follows.throw _) (fun _ => Follows.pure _))

theorem follows_alignedAppend {ip pieceOff off size : Nat} {data : Nat -> UInt8}
    (start : off % 4096 = 0) : Follows Told (alignedAppend ip pieceOff off size data) :=
  Follows.bind (follows_allocateWhen _ ip .append) (fun _ =>
    Follows.bind (follows_checkWriteAddr ip pieceOff) (fun _ => follows_appendAtCursor start))

theorem follows_alignedWrite {ip off size : Nat} {buf : Nat -> UInt8} (start : off % 4096 = 0) :
    Follows Told (alignedWrite ip buf off size) := by
  refine Follows.bind (follows_readInode ip) (fun inode => ?_)
  refine Follows.ite (fun _ => ?_) (fun _ => Follows.ite (fun inside => ?_) (fun _ => ?_))
  · exact Follows.bind (follows_alignedAppend start) (fun _ => Follows.pure _)
  · refine Follows.ite (fun _ => ?_) (fun _ => ?_)
    · have rest : (off + low 32 (blockCeil inode.size - off)) % 4096 = 0 := by
        unfold low blockCeil
        omega
      refine Follows.bind (follows_allocateWhen _ ip .overwrite) (fun _ => ?_)
      refine Follows.bind (follows_overwriteAtCursor start) (fun _ => ?_)
      exact Follows.bind (follows_alignedAppend rest) (fun _ => Follows.pure _)
    · refine Follows.bind (follows_allocateWhen _ ip .overwrite) (fun _ => ?_)
      refine Follows.bind (follows_readInode ip) (fun _ => ?_)
      exact Follows.bind (follows_overwriteAtCursor start) (fun _ => Follows.pure _)
  · exact Follows.pure _

theorem follows_alignedSmallwrite {ip off size : Nat} {buf : Nat -> UInt8}
    (start : off % 4096 = 0) : Follows Told (alignedSmallwrite ip buf off size) := by
  refine Follows.bind (follows_readInode ip) (fun inode => ?_)
  refine Follows.ite (fun _ => ?_) (fun _ => ?_)
  · refine Follows.bind (follows_lookupBlock ip off) (fun looked => ?_)
    rcases looked with ⟨found, searched⟩
    cases found with
    | none => exact Follows.throw _
    | some block =>
        refine Follows.ite (fun _ => ?_) (fun _ => Follows.pure _)
        refine Follows.bind (follows_bhGetSyncIo _ _ _ _ _) (fun _ => ?_)
        refine Follows.bind Follows.get (fun _ => ?_)
        refine Follows.bind (follows_allocateWhen _ ip .overwrite) (fun _ => ?_)
        exact Follows.bind (follows_overwriteAtCursor start) (fun _ => Follows.pure _)
  · refine Follows.bind (follows_allocateWhen _ ip .append) (fun _ => ?_)
    refine Follows.bind (follows_readInode ip) (fun _ => ?_)
    have last : Follows Told (appendAtCursor ip off size buf >>= fun _ => pure size) :=
      Follows.bind (follows_appendAtCursor start) (fun _ => Follows.pure _)
    exact Follows.ite (fun _ => Follows.bind (follows_checkWriteAddr ip off) (fun _ => last))
      (fun _ => last)

end Aligned

/-! ## Pieces that start inside a block -/

/-- The block number to which an unaligned append goes, by the extent found for
its block. -/
def appendTarget (block : Block) (off : Nat) : Nat :=
  add64 block.addr (sub64 block.fileoff (blockFloor off) / 4096)

/-- The block lookup of the file places the offset below byte address `2^48`, as
far as a record can name it. -/
def TargetNameable (store : Store) (ip off : Nat) : Prop :=
  Ensures (lookupBlock ip (blockFloor off)) store
    (fun looked _ => forall block, looked.1 = some block ->
      shl64 (appendTarget block off) 12 < 2 ^ 48)
    (fun _ _ => True)

/-- The events between two states are truthful exactly under a condition. -/
def ToldIff (store next : Store) (condition : Prop) : Prop :=
  Exists fun new => next.events = store.events ++ new ∧ (Truthful new <-> condition)

theorem ToldIff.of_allocateIf {store next : Store} {due : Inode -> Prop} [DecidablePred due]
    {ip : Nat} {cursor : Cursor} {condition : Prop}
    (told : ToldIff (store.allocateIf due ip cursor) next condition) :
    ToldIff store next condition := by
  rcases told with ⟨new, events, truthful⟩
  by_cases isDue : due (store.inode ip)
  · rw [allocateIf_pos cursor isDue] at events
    simp only [Store.allocateChunk, List.append_assoc] at events
    exact ⟨_, events, truthful⟩
  · rw [allocateIf_neg cursor isDue] at events
    exact ⟨new, events, truthful⟩

/-- An unaligned append: the write carries the displacement as the record does, so
that only an address the record cannot hold makes it wrong. -/
theorem ensures_unalignedAppend {store : Store} {ip off size append : Nat} {buf : Nat -> UInt8}
    {move : Inode -> Inode} {dev : Nat} {block : Block} :
    Ensures (do
        let bh ← bhGetSyncIo dev (appendTarget block off) size buf (off - blockFloor off)
        transferRecorded ip move off bh append) store
      (fun _ next => ToldIff store next (shl64 (appendTarget block off) 12 < 2 ^ 48))
      (fun _ next => Told store next) := by
  have displacement : off % 4096 = off - blockFloor off := by
    unfold blockFloor
    omega
  simp only [bhGetSyncIo, Ensures.bind_iff, Ensures.ite_iff, Ensures.pure_iff, Ensures.throw_iff]
  split
  · refine ensures_transferRecorded_any.mono ?_ ?_
    · intro _ next made
      rcases made.truthful_iff with ⟨new, events, truthful⟩
      refine ⟨new, events, truthful.trans ?_⟩
      simp only [displacement]
      unfold low
      omega
    · intro _ next events
      exact ⟨_, events, trivial⟩
  · exact Std.Refl.refl store

/-- An unaligned overwrite sends the block from its start, and its record says
otherwise. -/
theorem ensures_unalignedOverwrite {store : Store} {ip off : Nat} {dev : Nat}
    {data : Nat -> UInt8} (inside : off % 4096 ≠ 0) :
    Ensures (overwriteAtCursor ip dev off 4096 4096 data) store
      (fun _ next => ToldIff store next False) (fun _ next => Told store next) := by
  simp only [overwriteAtCursor, bhGetSyncIo, Ensures.bind_iff, ensures_readInode, Ensures.ite_iff,
    Ensures.pure_iff, Ensures.throw_iff]
  split
  · refine ensures_transferRecorded_any.mono ?_ ?_
    · intro _ next made
      rcases made.aligned_truthful_iff rfl with ⟨new, events, truthful⟩
      exact ⟨new, events, truthful.trans ⟨inside, False.elim⟩⟩
    · intro _ next events
      exact ⟨_, events, trivial⟩
  · exact Std.Refl.refl store

theorem ensures_unalignedSmallwrite {store : Store} {ip off size : Nat} {buf : Nat -> UInt8}
    (inside : off % 4096 ≠ 0) :
    Ensures (unalignedSmallwrite ip buf off size) store
      (fun _ next => ToldIff store next
        (off = (store.inode ip).size ∧ TargetNameable store ip off))
      (fun _ next => Told store next) := by
  have looked := looked_lookupBlock ip (blockFloor off) store
  unfold unalignedSmallwrite
  rw [Ensures.bind_iff]
  -- both sides speak about the same lookup, so its outcome is fixed first
  cases outcome : (lookupBlock ip (blockFloor off)).run store with
  | error fault middle =>
      rw [Ensures.error_iff outcome] at looked ⊢
      exact Told.of_events looked.events
  | ok result middle =>
      have nameable : TargetNameable store ip off <-> forall block, result.1 = some block ->
          shl64 (appendTarget block off) 12 < 2 ^ 48 := Ensures.ok_iff outcome
      rw [Ensures.ok_iff outcome] at looked ⊢
      rcases result with ⟨found, searched⟩
      have told : Told store middle := Told.of_events looked.events
      have shift : forall next, Told middle next -> Told store next :=
        fun next later => IsTrans.trans _ _ _ told later
      have shiftIff : forall next condition, ToldIff middle next condition ->
          ToldIff store next condition := by
        rintro next condition ⟨new, events, truthful⟩
        exact ⟨new, by rw [events, looked.events], truthful⟩
      cases found with
      | none => exact Ensures.throw_iff.mpr told
      | some block =>
          have target : TargetNameable store ip off <->
              shl64 (appendTarget block off) 12 < 2 ^ 48 := by
            rw [nameable]
            simp
          simp only [Ensures.bind_iff, ensures_readInode, looked.size, Ensures.ite_iff,
            Ensures.throw_iff]
          by_cases atEnd : off = (store.inode ip).size
          · rw [if_pos atEnd, ← Ensures.bind_iff]
            simp only [ensures_modifyInode, Ensures.pure_iff]
            refine ensures_unalignedAppend.mono ?_ (fun _ next => shift next)
            intro _ next appended
            rw [target]
            rcases shiftIff next _ appended with ⟨new, events, truthful⟩
            exact ⟨new, events, truthful.trans ⟨fun small => ⟨atEnd, small⟩, fun both => both.2⟩⟩
          · rw [if_neg atEnd]
            by_cases below : off < (store.inode ip).size
            · rw [if_pos below]
              have allocated : Told store (middle.allocateIf Inode.SmallOverwriteDue ip .overwrite) :=
                shift _ (ensures_allocateWhen.mp (follows_allocateWhen _ ip .overwrite middle))
              simp only [ensures_allocateWhen, Ensures.get_iff, bhGetSyncIo, Ensures.ite_iff,
                Ensures.pure_iff, Ensures.throw_iff]
              split
              · refine (ensures_unalignedOverwrite inside).mono ?_ ?_
                · intro _ next written
                  rcases shiftIff next _ (ToldIff.of_allocateIf written) with
                    ⟨new, events, truthful⟩
                  exact ⟨new, events, truthful.trans ⟨False.elim, fun both => atEnd both.1⟩⟩
                · intro _ next written
                  exact IsTrans.trans _ _ _ allocated written
              · exact allocated
            · rw [if_neg below]
              exact told

/-- The log tells the truth about the device: from any state of the file, the
records of a completed piece name the writes they accompany exactly when the piece
starts on a block boundary, or is an unaligned append to a block whose address a
record can hold.  A piece that stops with a fault leaves no wrong record. -/
theorem records_name_writes_iff (store : Store) (ip : Nat) (buf : Nat -> UInt8) (off size : Nat) :
    Ensures (snfsWrite ip buf off size) store
      (fun _ next => Exists fun new => next.events = store.events ++ new ∧
        (Truthful new <->
          off % 4096 = 0 ∨ (off = (store.inode ip).size ∧ TargetNameable store ip off)))
      (fun _ next => Exists fun new => next.events = store.events ++ new ∧ Truthful new) := by
  have boundary : blockFloor off < off <-> off % 4096 ≠ 0 := by
    unfold blockFloor
    omega
  unfold snfsWrite
  simp only [boundary, Ensures.ite_iff, Ensures.throw_iff, Ensures.bind_iff, Ensures.pure_iff]
  by_cases start : off % 4096 = 0
  · simp only [start, ne_eq, not_true_eq_false, false_and, ↓reduceIte, true_or, iff_true]
    split
    · exact follows_alignedSmallwrite start store
    · exact follows_alignedWrite start store
  · simp only [start, ne_eq, not_false_eq_true, true_and, ↓reduceIte, false_or]
    split
    · exact ⟨[], by simp, trivial⟩
    · exact ensures_unalignedSmallwrite start

/-- A file of one block, and an overwrite of its second byte: the block image goes
to the start of a block, and the record names the byte behind it. -/
theorem unaligned_overwrite_record_shifted :
    Ensures (do
        let _ ← userfsFileWrite snfsWrite ⟨0, 0, true, true⟩ (fun _ => 1) 4096
        snfsWrite 0 (fun _ => 2) 1 1) freshStore
      (fun _ next => ¬ Truthful next.events) (fun _ _ => False) := by
  decide +kernel

end Userfs.Filesystem
