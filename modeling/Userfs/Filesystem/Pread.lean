import Userfs.Filesystem.ReadSplit

namespace Userfs.Filesystem

open Io
open Word

/-!
# Reads at an offset

`userfs_file_read_offset` tests the end of the file at the position of the handle,
not at the offset it is given.  Its result is the one of a seek followed by a read
exactly when both lie on the same side of the end of the file, or when there is
nothing to read.  A read changes neither the position nor the size of the file.
-/

/-! ## What a read leaves alone -/

/-- A read may enter extents in block trees and fetch roots. -/
def Inspected (reading next : Reading) : Prop :=
  Looked reading.store next.store

instance : Std.Refl Inspected where
  refl := fun reading => Std.Refl.refl reading.store

instance : IsTrans Reading Inspected where
  trans := fun first second third before after =>
    IsTrans.trans first.store second.store third.store before after

section Inspected

variable {X : Type}

theorem inspected_onStore {program : Fs X} (looked : Follows Looked program) :
    Follows Inspected (onStore program) :=
  fun reading => ensures_onStore.mpr (looked reading.store)

theorem inspected_onCache (program : Cached X) : Follows Inspected (onCache program) := by
  intro reading
  rw [ensures_onCache]
  exact Ensures.always.mono (fun _ _ _ => Std.Refl.refl reading.store)
    (fun _ _ _ => Std.Refl.refl reading.store)

theorem inspected_modifySearch (change : Search -> Search) : Follows Inspected (modifySearch change) :=
  Follows.modify (fun reading => Std.Refl.refl reading.store)

theorem inspected_readHead (dev blocknr size offset : Nat) :
    Follows Inspected (readHead dev blocknr size offset) := by
  refine inspected_onStore (Follows.ite (fun _ => Follows.pure _) (fun _ => Follows.throw _))

theorem inspected_cachedBlock (ip key : Nat) : Follows Inspected (cachedBlock ip key) := by
  refine Follows.bind (inspected_onCache _) (fun found => ?_)
  cases found with
  | none => exact Follows.pure _
  | some address => exact Follows.bind (inspected_onCache _) (fun _ => Follows.pure _)

theorem inspected_newBuffer : Follows Inspected newBuffer :=
  Follows.bind Follows.get (fun _ => inspected_onCache _)

theorem inspected_submitRead (transfer : Transfer) : Follows Inspected (submitRead transfer) := by
  refine Follows.bind Follows.get (fun reading => ?_)
  split
  · exact Follows.throw _
  · split
    · exact Follows.modify (fun reading => Std.Refl.refl reading.store)
    · split
      · exact Follows.throw _
      · exact Follows.modify (fun reading => Std.Refl.refl reading.store)

theorem inspected_copyOut (copy : Copy) : Follows Inspected (copyOut copy) := by
  refine Follows.bind Follows.get (fun reading => ?_)
  split
  · exact Follows.throw _
  · exact Follows.modify (fun reading => Std.Refl.refl reading.store)

theorem inspected_submitAll (transfers : List Transfer) : Follows Inspected (submitAll transfers) := by
  induction transfers with
  | nil => exact Follows.pure _
  | cons transfer rest ih => exact Follows.bind (inspected_submitRead transfer) (fun _ => ih)

theorem inspected_copyAll (limit : Nat) (copies : List Copy) :
    Follows Inspected (copyAll limit copies) := by
  induction copies with
  | nil => exact Follows.pure _
  | cons copy rest ih =>
      refine Follows.bind (inspected_copyOut copy) (fun _ => ?_)
      exact Follows.ite (fun _ => Follows.throw _) (fun _ => ih)

theorem inspected_addCopies (dst address source count : Nat) :
    Follows Inspected (addCopies dst address source count) := by
  refine Follows.ite (fun _ => Follows.pure _) (fun _ => ?_)
  exact Follows.bind (inspected_onCache _) (fun _ => inspected_modifySearch _)

theorem inspected_progress : Follows Inspected progress := by
  refine Follows.bind Follows.get (fun reading => ?_)
  refine Follows.ite (fun _ => Follows.throw _) (fun _ => ?_)
  refine Follows.ite (fun _ => ?_) (fun _ => Follows.pure _)
  exact Follows.bind (inspected_modifySearch _) (fun _ => Follows.pure _)

theorem inspected_progressUnlessDone : Follows Inspected progressUnlessDone := by
  refine Follows.bind Follows.get (fun reading => ?_)
  exact Follows.ite (fun _ => inspected_progress) (fun _ => Follows.pure _)

end Inspected

theorem inspected_searchCache (ip dst off ioSize : Nat) :
    Follows Inspected (searchCache ip dst off ioSize) := by
  refine Follows.bind (inspected_cachedBlock _ _) (fun found => ?_)
  cases found with
  | none => exact Follows.pure _
  | some entry =>
      refine Follows.ite (fun _ => ?_) (fun _ => Follows.pure _)
      refine Follows.bind (inspected_addCopies _ _ _ _) (fun _ => ?_)
      exact Follows.bind (inspected_onCache _) (fun _ => inspected_modifySearch _)

theorem inspected_readExtent (ip dst bit pos here : Nat) (block : Ds.Block) :
    Follows Inspected (readExtent ip dst bit pos here block) := by
  refine Follows.bind (inspected_readHead _ _ _ _) (fun bh => ?_)
  refine Follows.bind Follows.get (fun reading => ?_)
  refine Follows.ite (fun _ => ?_) (fun _ => ?_)
  · refine Follows.bind inspected_newBuffer (fun buffer => ?_)
    refine Follows.bind (inspected_onCache _) (fun address => ?_)
    refine Follows.bind (inspected_addCopies _ _ _ _) (fun _ => ?_)
    refine Follows.bind (inspected_modifySearch _) (fun _ => ?_)
    exact Follows.bind (inspected_modifySearch _) (fun _ => inspected_progressUnlessDone)
  · refine Follows.bind (inspected_modifySearch _) (fun _ => ?_)
    exact Follows.bind (inspected_modifySearch _) (fun _ => inspected_progressUnlessDone)

theorem inspected_readBase (ip dst off bit pos : Nat) (block : Ds.Block) :
    Follows Inspected (readBase ip dst off bit pos block) := by
  refine Follows.bind (inspected_readHead _ _ _ _) (fun bh => ?_)
  refine Follows.bind Follows.get (fun reading => ?_)
  refine Follows.bind inspected_newBuffer (fun buffer => ?_)
  refine Follows.bind (inspected_modifySearch _) (fun _ => ?_)
  refine Follows.ite (fun _ => ?_) (fun _ => ?_)
  · refine Follows.bind (inspected_onCache _) (fun address => ?_)
    refine Follows.bind (inspected_addCopies _ _ _ _) (fun _ => ?_)
    exact Follows.bind (inspected_modifySearch _) (fun _ => inspected_progress)
  · exact Follows.bind (inspected_modifySearch _) (fun _ => inspected_progress)

theorem inspected_readFound (ip dst off pos here : Nat) (request : BmapRequest) :
    Follows Inspected (readFound ip dst off pos here request) := by
  refine Follows.bind (inspected_readHead _ _ _ _) (fun bh => ?_)
  refine Follows.bind Follows.get (fun reading => ?_)
  refine Follows.ite (fun _ => inspected_modifySearch _) (fun _ => ?_)
  refine Follows.bind inspected_newBuffer (fun buffer => ?_)
  refine Follows.ite (fun _ => ?_) (fun _ => Follows.ite (fun _ => ?_) (fun _ => ?_))
  · refine Follows.bind (inspected_onCache _) (fun address => ?_)
    exact Follows.bind (inspected_addCopies _ _ _ _) (fun _ => inspected_modifySearch _)
  · refine Follows.bind (inspected_onCache _) (fun address => ?_)
    exact Follows.bind (inspected_addCopies _ _ _ _) (fun _ => inspected_modifySearch _)
  · exact inspected_modifySearch _

theorem inspected_readFromDevice (ip dst off ioSize bit pos here : Nat) :
    Follows Inspected (readFromDevice ip dst off ioSize bit pos here) := by
  refine Follows.bind (inspected_onStore (looked_bmap _ _)) (fun answer => ?_)
  refine Follows.ite (fun _ => Follows.pure _) (fun _ => ?_)
  refine Follows.bind (inspected_readFound _ _ _ _ _ _) (fun _ => ?_)
  refine Follows.bind Follows.get (fun reading => ?_)
  refine Follows.bind (inspected_modifySearch _) (fun _ => ?_)
  refine Follows.ite (fun _ => Follows.pure _) (fun _ => ?_)
  refine Follows.bind inspected_progress (fun next => ?_)
  refine Follows.bind Follows.get (fun reading => ?_)
  exact Follows.ite (fun _ => Follows.throw _) (fun _ => Follows.pure _)

theorem inspected_globalSearch (ip dst off ioSize : Nat) :
    Follows Inspected (globalSearch ip dst off ioSize) := by
  refine Follows.bind Follows.get (fun reading => ?_)
  simp only
  split
  · exact inspected_readExtent _ _ _ _ _ _
  · refine Follows.ite (fun _ => ?_) (fun _ => inspected_readFromDevice _ _ _ _ _ _ _)
    split
    · exact Follows.ite (fun _ => inspected_readBase _ _ _ _ _ _)
        (fun _ => inspected_readFromDevice _ _ _ _ _ _ _)
    · exact inspected_readFromDevice _ _ _ _ _ _ _

theorem inspected_searchRounds (ip dst off ioSize fuel : Nat) :
    Follows Inspected (searchRounds ip dst off ioSize fuel) := by
  induction fuel with
  | zero => exact Follows.throw _
  | succ fuel ih =>
      refine Follows.bind (inspected_globalSearch _ _ _ _) (fun next => ?_)
      cases next with
      | again => exact ih
      | io => exact Follows.pure _

theorem inspected_doAlignReadCache1 (ip dst off ioSize : Nat) :
    Follows Inspected (doAlignReadCache1 ip dst off ioSize) := by
  refine Follows.bind ?_ (fun _ => ?_)
  · refine Follows.bind (inspected_modifySearch _) (fun _ => ?_)
    refine Follows.bind (inspected_searchCache _ _ _ _) (fun _ => ?_)
    refine Follows.bind Follows.get (fun reading => ?_)
    refine Follows.ite (fun _ => Follows.pure _) (fun _ => ?_)
    exact Follows.bind (inspected_modifySearch _) (fun _ => inspected_searchRounds _ _ _ _ _)
  · refine Follows.bind Follows.get (fun reading => ?_)
    refine Follows.bind (inspected_submitAll _) (fun _ => ?_)
    exact Follows.bind (inspected_copyAll _ _) (fun _ => Follows.pure _)

theorem inspected_readThrough (ip dst cacheOff cacheSize source ioSize : Nat) (bh : BufferHead) :
    Follows Inspected (readThrough ip dst cacheOff cacheSize source ioSize bh) := by
  refine Follows.bind inspected_newBuffer (fun buffer => ?_)
  refine Follows.bind (inspected_onCache _) (fun address => ?_)
  refine Follows.bind (inspected_submitRead _) (fun _ => ?_)
  exact Follows.bind (inspected_onCache _) (fun _ => inspected_copyOut _)

theorem inspected_unalignedFromCache (ip dst off ioSize : Nat) :
    Follows Inspected (unalignedFromCache ip dst off ioSize) := by
  have serve : forall copy address, Follows Inspected (do
      copyOut copy
      onCache (listMove address)
      pure true) := by
    intro copy address
    refine Follows.bind (inspected_copyOut _) (fun _ => ?_)
    exact Follows.bind (inspected_onCache _) (fun _ => Follows.pure _)
  refine Follows.bind (inspected_cachedBlock _ _) (fun found => ?_)
  cases found with
  | some entry => exact Follows.ite (fun _ => serve _ _) (fun _ => Follows.pure _)
  | none =>
      refine Follows.ite (fun _ => ?_) (fun _ => Follows.pure _)
      refine Follows.bind (inspected_cachedBlock _ _) (fun found => ?_)
      cases found with
      | some entry => exact Follows.ite (fun _ => serve _ _) (fun _ => Follows.pure _)
      | none => exact Follows.pure _

theorem inspected_unalignedFromExtent (ip dst off ioSize : Nat) (block : Ds.Block) :
    Follows Inspected (unalignedFromExtent ip dst off ioSize block) :=
  Follows.bind (inspected_readHead _ _ _ _) (fun _ => inspected_readThrough _ _ _ _ _ _ _)

theorem inspected_unalignedFromDevice (ip dst off ioSize : Nat) :
    Follows Inspected (unalignedFromDevice ip dst off ioSize) := by
  refine Follows.bind Follows.get (fun reading => ?_)
  refine Follows.bind (inspected_onStore (looked_bmap _ _)) (fun answer => ?_)
  refine Follows.ite (fun _ => Follows.pure _) (fun _ => ?_)
  refine Follows.ite (fun _ => ?_) (fun _ => ?_)
  · exact Follows.bind (inspected_readHead _ _ _ _) (fun _ => inspected_readThrough _ _ _ _ _ _ _)
  · exact Follows.bind (inspected_readHead _ _ _ _) (fun _ => inspected_readThrough _ _ _ _ _ _ _)

theorem inspected_unalignedFromTree (ip dst off ioSize : Nat) :
    Follows Inspected (unalignedFromTree ip dst off ioSize) := by
  refine Follows.bind Follows.get (fun reading => ?_)
  simp only
  split
  · exact Follows.ite (fun _ => inspected_unalignedFromExtent _ _ _ _ _)
      (fun _ => inspected_unalignedFromDevice _ _ _ _)
  · refine Follows.ite (fun _ => ?_) (fun _ => inspected_unalignedFromDevice _ _ _ _)
    split
    · exact Follows.throw _
    · exact Follows.ite (fun _ => inspected_unalignedFromExtent _ _ _ _ _)
        (fun _ => inspected_unalignedFromDevice _ _ _ _)

theorem inspected_doUnalignedRead (ip dst off ioSize : Nat) :
    Follows Inspected (doUnalignedRead ip dst off ioSize) := by
  refine Follows.ite (fun _ => Follows.throw _) (fun _ => ?_)
  refine Follows.bind (inspected_unalignedFromCache _ _ _ _) (fun served => ?_)
  refine Follows.ite (fun _ => Follows.pure _) (fun _ => ?_)
  exact Follows.bind (inspected_unalignedFromTree _ _ _ _) (fun _ => Follows.pure _)

theorem inspected_readEdge (ip dst off size : Nat) (check : String) :
    Follows Inspected (readEdge doUnalignedRead ip dst off size check) := by
  refine Follows.ite (fun _ => ?_) (fun _ => Follows.pure _)
  refine Follows.bind (inspected_doUnalignedRead _ _ _ _) (fun ioDone => ?_)
  exact Follows.ite (fun _ => Follows.throw _) (fun _ => Follows.pure _)

theorem inspected_readi (ip off ioSize : Nat) :
    Follows Inspected (readi doUnalignedRead doAlignReadCache1 ip off ioSize) := by
  have last : forall done (parts : ReadParts), Follows Inspected (do
      readEdge doUnalignedRead ip done (off + done) parts.appended "size_appended == io_done"
      pure (toInt32 (done + parts.appended))) :=
    fun _ _ => Follows.bind (inspected_readEdge _ _ _ _ _) (fun _ => Follows.pure _)
  refine Follows.bind (inspected_onStore (looked_readInode ip)) (fun inode => ?_)
  refine Follows.ite (fun _ => Follows.throw _) (fun _ => ?_)
  refine Follows.bind (inspected_readEdge _ _ _ _ _) (fun _ => ?_)
  refine Follows.bind (inspected_readEdge _ _ _ _ _) (fun _ => ?_)
  refine Follows.ite (fun _ => ?_) (fun _ => last _ _)
  exact Follows.bind (inspected_doAlignReadCache1 _ _ _ _) (fun _ => last _ _)

/-! ## The count that a read returns -/

theorem doUnalignedRead_returnsSize : SubRead.ReturnsSize doUnalignedRead := by
  intro ip dst off size reading
  unfold doUnalignedRead
  rw [Ensures.ite_iff]
  split
  · exact Ensures.throw_iff.mpr trivial
  · rw [Ensures.bind_iff]
    refine Ensures.always.mono ?_ (fun _ _ _ => trivial)
    intro served middle _
    rw [Ensures.ite_iff]
    split
    · exact Ensures.pure_iff.mpr rfl
    · rw [Ensures.bind_iff]
      exact Ensures.always.mono (fun _ _ _ => Ensures.pure_iff.mpr rfl) (fun _ _ _ => trivial)

/-- A read in the file returns the number of bytes up to the end of the request or
of the file, as an `int`. -/
theorem ensures_readi_count {ip off ioSize : Nat} {reading : Reading}
    (inside : off < (reading.store.inode ip).size) :
    Ensures (readi doUnalignedRead doAlignReadCache1 ip off ioSize) reading
      (fun result _ => result = toInt32 (clampedSize (reading.store.inode ip).size off ioSize))
      (fun _ _ => True) := by
  refine readi_pieces doUnalignedRead_returnsSize inside ?_
  exact Ensures.always.mono (fun _ _ _ => rfl) (fun _ _ _ => trivial)

/-- A read of no bytes does nothing. -/
theorem ensures_readi_zero {ip off : Nat} {reading : Reading} {done : Int -> Reading -> Prop}
    {failed : Fault -> Reading -> Prop} (inside : off < (reading.store.inode ip).size)
    (meets : done 0 reading) :
    Ensures (readi doUnalignedRead doAlignReadCache1 ip off 0) reading done failed := by
  refine readi_pieces doUnalignedRead_returnsSize inside ?_
  have none : clampedSize (reading.store.inode ip).size off 0 = 0 := Nat.zero_min _
  have pieces : readPieces off 0 = [] := by
    have total := (readParts_parted off 0).total
    unfold readPieces
    generalize readParts off 0 = parts at total ⊢
    have parted : parts = ⟨0, 0, 0, 0⟩ := by
      rcases parts with ⟨small, prepended, aligned, appended⟩
      simp only at total
      simp only [ReadParts.mk.injEq]
      omega
    rw [parted]
    rfl
  rw [none, pieces]
  exact Ensures.pure_iff.mpr meets

theorem toInt32_ne_zero {value : Nat} (positive : 0 < value) (small : value < 2 ^ 32) :
    toInt32 value ≠ 0 := by
  unfold toInt32
  rw [low_of_lt small]
  split <;> omega

/-! ## Comparison with a seek and a read -/

/-- What a read at an offset is meant to do: nothing behind the end of the file, and
otherwise a seek to the offset and a read.  The handle keeps its position. -/
def seekAndRead (file : ReadFile) (count off : Nat) : Rd (Int × ReadFile) := do
  let inode ← onStore (readInode file.ip)
  if inode.size ≤ off then pure (0, file)
  else do
    let seeked ← userfsPosixLseek file off .seekSet
    let (r, _) ← userfsFileRead seeked count
    pure (r, file)

/-- A read at an offset has the outcome of a seek and a read, bytes and cache
included, and leaves the position of the handle and the size of the file. -/
structure PreadRight (file : ReadFile) (count off : Nat) (reading : Reading) : Prop where
  agrees : (userfsFileReadOffset file count off).run reading =
    (seekAndRead file count off).run reading
  keeps : Ensures (userfsFileReadOffset file count off) reading
    (fun result next => result.2 = file ∧
      (next.store.inode file.ip).size = (reading.store.inode file.ip).size)
    (fun _ next => (next.store.inode file.ip).size = (reading.store.inode file.ip).size)

section Compare

variable {file : ReadFile} {count off : Nat} {reading : Reading}
  {done : Int × ReadFile -> Reading -> Prop} {failed : Fault -> Reading -> Prop}

theorem ensures_userfsFileReadOffset (readable : file.readable = true)
    (isInode : file.isInode = true) :
    Ensures (userfsFileReadOffset file count off) reading done failed <->
      if (reading.store.inode file.ip).size ≤ file.off then done (0, file) reading
      else Ensures (readi doUnalignedRead doAlignReadCache1 file.ip off (low 32 count)) reading
        (fun r next =>
          if r < 0 then failed (.panic "read error\n") next else done (r, file) next) failed := by
  simp only [userfsFileReadOffset, readable, isInode, Bool.true_eq_false, ↓reduceIte,
    Ensures.bind_iff, ensures_onStore, ensures_readInode, Ensures.ite_iff, Ensures.pure_iff,
    Ensures.throw_iff]

theorem ensures_seekAndRead (readable : file.readable = true) (isInode : file.isInode = true) :
    Ensures (seekAndRead file count off) reading done failed <->
      if (reading.store.inode file.ip).size ≤ off then done (0, file) reading
      else Ensures (readi doUnalignedRead doAlignReadCache1 file.ip off (low 32 count)) reading
        (fun r next =>
          if r < 0 then failed (.panic "read error\n") next else done (r, file) next) failed := by
  by_cases behind : (reading.store.inode file.ip).size ≤ off
  · simp only [seekAndRead, Ensures.bind_iff, ensures_onStore, ensures_readInode, Ensures.ite_iff,
      if_pos behind, Ensures.pure_iff]
  · simp only [seekAndRead, userfsPosixLseek, userfsFileRead, readable, isInode,
      Bool.true_eq_false, ↓reduceIte, Ensures.bind_iff, ensures_onStore, ensures_readInode,
      Ensures.ite_iff, if_neg behind, Ensures.pure_iff, Ensures.throw_iff]

theorem userfsFileReadOffset_keeps (readable : file.readable = true) (isInode : file.isInode = true) :
    Ensures (userfsFileReadOffset file count off) reading
      (fun result next => result.2 = file ∧
        (next.store.inode file.ip).size = (reading.store.inode file.ip).size)
      (fun _ next => (next.store.inode file.ip).size = (reading.store.inode file.ip).size) := by
  rw [ensures_userfsFileReadOffset readable isInode]
  split
  · exact ⟨rfl, rfl⟩
  · refine (inspected_readi _ _ _ reading).mono ?_ (fun _ _ looked => looked.size _)
    intro r next looked
    split
    · exact looked.size _
    · exact ⟨rfl, looked.size _⟩

end Compare

/-- A read at an offset depends on the position of the handle.  For every readable
regular file it agrees with a seek and a read exactly when the offset and the
position both lie before the end of the file or both do not, or when no byte is
asked for at an offset in the file.  The sums of `readi` are natural numbers here, which is
the code for sizes at least `2^32` below the end of the 64-bit range. -/
theorem pread_agrees_iff (file : ReadFile) (count off : Nat) (reading : Reading)
    (readable : file.readable = true) (isInode : file.isInode = true) :
    PreadRight file count off reading <->
      (off < (reading.store.inode file.ip).size <-> file.off < (reading.store.inode file.ip).size) ∨
        (off < (reading.store.inode file.ip).size ∧ count % 2 ^ 32 = 0) := by
  generalize length : (reading.store.inode file.ip).size = size
  constructor
  · intro right
    have same : forall (done : Int × ReadFile -> Reading -> Prop) (failed : Fault -> Reading -> Prop),
        Ensures (userfsFileReadOffset file count off) reading done failed <->
          Ensures (seekAndRead file count off) reading done failed :=
      fun _ _ => Ensures.congr_run right.agrees
    simp only [ensures_userfsFileReadOffset readable isInode, ensures_seekAndRead readable isInode,
      length] at same
    by_cases inside : off < size
    · by_cases before : file.off < size
      · exact .inl ⟨fun _ => before, fun _ => inside⟩
      · refine .inr ⟨inside, ?_⟩
        -- nothing was read, but the seek would have found some byte
        by_contra some
        have nothing := same (fun result _ => result.1 ≠ 0) (fun _ _ => True)
        rw [if_pos (by omega), if_neg (by omega)] at nothing
        refine nothing.mpr ?_ rfl
        have counted := @ensures_readi_count file.ip off (low 32 count) reading (by omega)
        refine counted.mono ?_ (fun _ _ _ => trivial)
        intro r next equal
        rw [length] at equal
        have positive : 0 < clampedSize size off (low 32 count) := by
          have asked : 0 < low 32 count := Nat.pos_of_ne_zero some
          unfold clampedSize
          omega
        have small : clampedSize size off (low 32 count) < 2 ^ 32 :=
          Nat.lt_of_le_of_lt (Nat.min_le_left _ _) (low_lt 32 count)
        split
        · trivial
        · rw [equal]
          exact toInt32_ne_zero positive small
    · by_cases before : file.off < size
      · -- the check of `readi` fails where nothing should happen
        have stopped := same (fun _ _ => False) (fun _ _ => True)
        rw [if_neg (by omega), if_pos (by omega)] at stopped
        refine (stopped.mp ?_).elim
        simp only [readi, Ensures.bind_iff, ensures_onStore, ensures_readInode, Ensures.ite_iff]
        rw [if_pos (by omega)]
        exact Ensures.throw_iff.mpr trivial
      · exact .inl ⟨fun h => absurd h inside, fun h => absurd h before⟩
  · intro allowed
    refine ⟨run_eq_of_ensures ?_, userfsFileReadOffset_keeps readable isInode⟩
    intro done failed
    rw [ensures_userfsFileReadOffset readable isInode, ensures_seekAndRead readable isInode, length]
    rcases allowed with sameSide | ⟨inside, nothing⟩
    · by_cases inside : off < size
      · have before := sameSide.mp inside
        rw [if_neg (by omega), if_neg (by omega)]
        exact id
      · have behind : ¬ file.off < size := fun before => inside (sameSide.mpr before)
        rw [if_pos (by omega), if_pos (by omega)]
        exact id
    · have zero : low 32 count = 0 := nothing
      rw [if_neg (by omega), zero]
      intro sought
      have kept : done (0, file) reading := by
        have unchanged := @ensures_readi_zero file.ip off reading (fun r next => r = 0 ∧ next = reading)
          (fun _ _ => False) (by omega) ⟨rfl, rfl⟩
        rcases (sought.and unchanged).mono (fun _ _ both => both) (fun _ _ fault => fault.2)
          |>.exists_ok with ⟨r, next, _, met, rfl, rfl⟩
        rwa [if_neg (Int.lt_irrefl 0)] at met
      split
      · exact kept
      · refine ensures_readi_zero (by omega) ?_
        rw [if_neg (Int.lt_irrefl 0)]
        exact kept

/-- A file of one block on the NVM. -/
def oneBlockStore : Store :=
  { freshStore with
    inode := fun ip =>
      { Inode.created ip 0 0 0 with size := 4096, blktree := .node ⟨1, 0, 4096, 512⟩ .nil .nil } }

/-- Right after it was opened, a handle reads at an offset as it should. -/
theorem pread_agrees_iff_at_start :
    PreadRight ⟨⟨0, 0, true, true⟩, true⟩ 4096 0 (Reading.of oneBlockStore (fun _ => 0)) :=
  (pread_agrees_iff _ _ _ _ rfl rfl).mpr (.inl (by decide))

/-- Once a handle has reached the end of the file, a read of the first block at its
offset returns 0 bytes; a seek and a read return the block. -/
theorem pread_at_end_reads_nothing :
    Ensures (userfsFileReadOffset ⟨⟨0, 4096, true, true⟩, true⟩ 4096 0)
        (Reading.of oneBlockStore (fun _ => 0)) (fun result _ => result.1 = 0) (fun _ _ => False) ∧
      Ensures (seekAndRead ⟨⟨0, 4096, true, true⟩, true⟩ 4096 0)
        (Reading.of oneBlockStore (fun _ => 0)) (fun result _ => result.1 = 4096)
        (fun _ _ => False) := by
  decide +kernel

end Userfs.Filesystem
