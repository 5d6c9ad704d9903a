import Userfs.Filesystem.LogTruth

namespace Userfs.Filesystem

open Word

/-!
# The file size and the pieces of a write

`snfs_write` and everything below it leave the size of the inode to
`userfs_file_write`.  A piece that returns at all returns its own size: the write
paths have no other result than the whole piece or a fault.
-/

/-- No file size differs between two states. -/
def SameSize (store next : Store) : Prop :=
  forall ip, (next.inode ip).size = (store.inode ip).size

instance : Std.Refl SameSize where
  refl := fun _ _ => rfl

instance : IsTrans Store SameSize where
  trans := fun _ _ _ before after ip => (after ip).trans (before ip)

theorem SameSize.updateInode (store : Store) (ip : Nat) {change : Inode -> Inode}
    (keeps : forall inode, (change inode).size = inode.size) :
    SameSize store (store.updateInode ip change) :=
  (Looked.updateInode store ip keeps).size

/-- A program that returns a given count and changes no file size. -/
def Returns {X : Type} (size : X) (program : Fs X) : Prop :=
  forall store, Ensures program store (fun result next => result = size ∧ SameSize store next)
    (fun _ _ => True)

section Returns

variable {X Y : Type} {size : X}

theorem Returns.pure (size : X) : Returns size (Pure.pure size : Fs X) :=
  fun store => Ensures.pure_iff.mpr ⟨rfl, Std.Refl.refl store⟩

theorem Returns.throw (fault : Fault) : Returns size (MonadExcept.throw fault : Fs X) :=
  fun _ => Ensures.throw_iff.mpr trivial

theorem Returns.ite {condition : Prop} [Decidable condition] {first second : Fs X}
    (yes : condition -> Returns size first) (no : ¬ condition -> Returns size second) :
    Returns size (if condition then first else second) := by
  split
  · exact yes ‹_›
  · exact no ‹_›

theorem Returns.bind {program : Fs Y} {next : Y -> Fs X} (first : Follows SameSize program)
    (second : forall result, Returns size (next result)) : Returns size (program >>= next) := by
  intro store
  rw [Ensures.bind_iff]
  refine (first store).mono ?_ (fun _ _ _ => trivial)
  intro result middle before
  refine (second result middle).mono ?_ (fun _ _ _ => trivial)
  rintro written next ⟨equal, after⟩
  exact ⟨equal, IsTrans.trans _ _ _ before after⟩

end Returns

section Sizes

theorem sameSize_readInode (ip : Nat) : Follows SameSize (readInode ip) :=
  fun store => ensures_readInode.mpr (Std.Refl.refl store)

theorem sameSize_modifyInode (ip : Nat) {change : Inode -> Inode}
    (keeps : forall inode, (change inode).size = inode.size) :
    Follows SameSize (modifyInode ip change) :=
  fun store => ensures_modifyInode.mpr (SameSize.updateInode store ip keeps)

theorem sameSize_bhGetSyncIo (dev blocknr size : Nat) (data : Nat -> UInt8) (offset : Nat) :
    Follows SameSize (bhGetSyncIo dev blocknr size data offset) :=
  Follows.ite (fun _ => Follows.pure _) (fun _ => Follows.throw _)

theorem sameSize_allocateWhen (due : Inode -> Prop) [DecidablePred due] (ip : Nat)
    (cursor : Cursor) : Follows SameSize (allocateWhen due ip cursor) := by
  intro store
  rw [ensures_allocateWhen]
  by_cases isDue : due (store.inode ip)
  · rw [allocateIf_pos cursor isDue]
    have placed := fun devid base thread => @SameSize.updateInode store ip
      (fun inode => { inode.place cursor devid base with wrthdnum := thread })
      (fun inode => (inode.place_size cursor devid base).1)
    exact placed _ _ _
  · rw [allocateIf_neg cursor isDue]
    exact Std.Refl.refl store

theorem sameSize_submitWrite (ip off : Nat) (bh : Io.BufferHead) :
    Follows SameSize (submitWrite ip off bh) := by
  intro store
  rw [ensures_submitWrite]
  split
  · exact fun _ => rfl
  · exact fun _ => rfl

theorem Inode.noteAppend_size (inode : Inode) (dev append : Nat) :
    (inode.noteAppend dev append).size = inode.size := by
  unfold Inode.noteAppend
  split <;> rfl

theorem sameSize_appendFsextent (ip off : Nat) (bh : Io.BufferHead) (append : Nat) :
    Follows SameSize (appendFsextent ip off bh append) := by
  intro store
  rw [ensures_appendFsextent]
  have noted := SameSize.updateInode store ip
    (fun inode => inode.noteAppend_size bh.dev append)
  refine Ensures.always.mono ?_ ?_
  · exact fun _ _ _ => noted
  · exact fun _ _ _ => noted

theorem sameSize_transferRecorded (ip off append : Nat) (bh : Io.BufferHead) {move : Inode -> Inode}
    (keeps : forall inode, (move inode).size = inode.size) :
    Follows SameSize (transferRecorded ip move off bh append) :=
  Follows.bind (sameSize_modifyInode ip keeps) (fun _ =>
    Follows.bind (sameSize_submitWrite ip off bh) (fun _ => sameSize_appendFsextent ip off bh append))

theorem sameSize_lookupBlock (ip off : Nat) : Follows SameSize (lookupBlock ip off) := by
  intro store
  refine (looked_lookupBlock ip off store).mono ?_ ?_
  · exact fun _ _ looked => looked.size
  · exact fun _ _ looked => looked.size

theorem sameSize_appendAtCursor (ip off size : Nat) (data : Nat -> UInt8) :
    Follows SameSize (appendAtCursor ip off size data) := by
  refine Follows.bind (sameSize_readInode ip) (fun inode => ?_)
  refine Follows.bind (sameSize_bhGetSyncIo _ _ _ _ _) (fun bh => ?_)
  refine Follows.bind (sameSize_transferRecorded ip off 1 bh (fun _ => rfl)) (fun _ => ?_)
  exact Follows.modify (fun store => SameSize.updateInode store ip (fun _ => rfl))

theorem sameSize_checkWriteAddr (ip off : Nat) : Follows SameSize (checkWriteAddr ip off) :=
  Follows.bind (sameSize_readInode ip)
    (fun _ => Follows.ite (fun _ => Follows.throw _) (fun _ => Follows.pure _))

theorem sameSize_overwriteAtCursor (ip dev off size advance : Nat) (data : Nat -> UInt8) :
    Follows SameSize (overwriteAtCursor ip dev off size advance data) :=
  Follows.bind (sameSize_readInode ip) (fun _ =>
    Follows.bind (sameSize_bhGetSyncIo _ _ _ _ _) (fun bh =>
      sameSize_transferRecorded ip off 0 bh (fun _ => rfl)))

theorem sameSize_alignedAppend (ip pieceOff off size : Nat) (data : Nat -> UInt8) :
    Follows SameSize (alignedAppend ip pieceOff off size data) :=
  Follows.bind (sameSize_allocateWhen _ ip .append) (fun _ =>
    Follows.bind (sameSize_checkWriteAddr ip pieceOff) (fun _ => sameSize_appendAtCursor ip off size data))

theorem returns_alignedWrite (ip : Nat) (buf : Nat -> UInt8) (off size : Nat) :
    Returns size (alignedWrite ip buf off size) := by
  refine Returns.bind (sameSize_readInode ip) (fun inode => ?_)
  refine Returns.ite (fun _ => ?_) (fun _ => Returns.ite (fun _ => ?_) (fun _ => Returns.pure size))
  · exact Returns.bind (sameSize_alignedAppend _ _ _ _ _) (fun _ => Returns.pure size)
  · refine Returns.ite (fun _ => ?_) (fun _ => ?_)
    · refine Returns.bind (sameSize_allocateWhen _ ip .overwrite) (fun _ => ?_)
      refine Returns.bind (sameSize_overwriteAtCursor _ _ _ _ _ _) (fun _ => ?_)
      exact Returns.bind (sameSize_alignedAppend _ _ _ _ _) (fun _ => Returns.pure size)
    · refine Returns.bind (sameSize_allocateWhen _ ip .overwrite) (fun _ => ?_)
      refine Returns.bind (sameSize_readInode ip) (fun _ => ?_)
      exact Returns.bind (sameSize_overwriteAtCursor _ _ _ _ _ _) (fun _ => Returns.pure size)

theorem returns_alignedSmallwrite (ip : Nat) (buf : Nat -> UInt8) (off size : Nat) :
    Returns size (alignedSmallwrite ip buf off size) := by
  refine Returns.bind (sameSize_readInode ip) (fun inode => ?_)
  refine Returns.ite (fun _ => ?_) (fun _ => ?_)
  · refine Returns.bind (sameSize_lookupBlock ip off) (fun looked => ?_)
    rcases looked with ⟨found, searched⟩
    cases found with
    | none => exact Returns.throw _
    | some block =>
        refine Returns.ite (fun _ => ?_) (fun _ => Returns.pure size)
        refine Returns.bind (sameSize_bhGetSyncIo _ _ _ _ _) (fun _ => ?_)
        refine Returns.bind Follows.get (fun _ => ?_)
        refine Returns.bind (sameSize_allocateWhen _ ip .overwrite) (fun _ => ?_)
        exact Returns.bind (sameSize_overwriteAtCursor _ _ _ _ _ _) (fun _ => Returns.pure size)
  · refine Returns.bind (sameSize_allocateWhen _ ip .append) (fun _ => ?_)
    refine Returns.bind (sameSize_readInode ip) (fun _ => ?_)
    have last : Returns size (appendAtCursor ip off size buf >>= fun _ => pure size) :=
      Returns.bind (sameSize_appendAtCursor _ _ _ _) (fun _ => Returns.pure size)
    exact Returns.ite (fun _ => Returns.bind (sameSize_checkWriteAddr ip off) (fun _ => last))
      (fun _ => last)

theorem returns_unalignedSmallwrite (ip : Nat) (buf : Nat -> UInt8) (off size : Nat) :
    Returns size (unalignedSmallwrite ip buf off size) := by
  refine Returns.bind (sameSize_lookupBlock ip _) (fun looked => ?_)
  rcases looked with ⟨found, searched⟩
  cases found with
  | none => exact Returns.throw _
  | some block =>
      refine Returns.bind (sameSize_readInode ip) (fun inode => ?_)
      refine Returns.ite (fun _ => ?_) (fun _ => Returns.ite (fun _ => ?_) (fun _ => Returns.throw _))
      · refine Returns.bind (sameSize_bhGetSyncIo _ _ _ _ _) (fun bh => ?_)
        refine Returns.bind (sameSize_transferRecorded ip off 1 bh (fun _ => rfl)) (fun _ => ?_)
        exact Returns.bind (sameSize_modifyInode ip (fun _ => rfl)) (fun _ => Returns.pure size)
      · refine Returns.bind (sameSize_allocateWhen _ ip .overwrite) (fun _ => ?_)
        refine Returns.bind Follows.get (fun _ => ?_)
        refine Returns.bind (sameSize_bhGetSyncIo _ _ _ _ _) (fun _ => ?_)
        exact Returns.bind (sameSize_overwriteAtCursor _ _ _ _ _ _) (fun _ => Returns.pure size)

/-- Whatever a piece does to the device and the tree, it returns its size and
leaves every file size as it was. -/
theorem returns_snfsWrite (ip : Nat) (buf : Nat -> UInt8) (off size : Nat) :
    Returns (size : Int) (snfsWrite ip buf off size) := by
  have widen : forall {program : Fs Nat}, Returns size program ->
      Returns (size : Int) (program >>= fun written => pure (written : Int)) := by
    intro program returns store
    rw [Ensures.bind_iff]
    refine (returns store).mono ?_ (fun _ _ _ => trivial)
    rintro written next ⟨equal, same⟩
    exact Ensures.pure_iff.mpr ⟨by rw [equal], same⟩
  refine Returns.ite (fun _ => Returns.throw _) (fun _ => Returns.ite (fun _ => ?_) (fun _ =>
    Returns.ite (fun _ => ?_) (fun _ => ?_)))
  · exact widen (returns_unalignedSmallwrite ip buf off size)
  · exact widen (returns_alignedSmallwrite ip buf off size)
  · exact widen (returns_alignedWrite ip buf off size)

end Sizes

end Userfs.Filesystem
