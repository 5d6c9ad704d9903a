import Userfs.Filesystem.ReadPath
import Userfs.Library.Tiling

namespace Userfs.Filesystem

open Word

/-!
# How a read is split

`readi` cuts a request at the end of the file and gives the rest to its two sub-reads:
a request inside one block as a whole, any other request as the part before the first
block boundary, the whole blocks, and the part behind the last boundary.  The parts
depend on the offset and the length only.

Offsets are natural numbers here, which is what the 64-bit arithmetic of the source
computes for files below `2^63`.
-/

/-- The two kinds of sub-reads. -/
inductive ReadKind where
  | unaligned
  | aligned
deriving DecidableEq, Repr

/-- The sub-reads of a request that ends in the file. -/
def readPieces (off size : Nat) : List (ReadKind × Piece) :=
  let parts := readParts off size
  let done := parts.small + parts.prepended
  (pieceOf off 0 parts.small).map (fun cut => (.unaligned, cut)) ++
    ((pieceOf (off + parts.small) parts.small parts.prepended).map
        (fun cut => (.unaligned, cut)) ++
      ((pieceOf (off + done) done parts.aligned).map (fun cut => (.aligned, cut)) ++
        (pieceOf (off + (done + parts.aligned)) (done + parts.aligned) parts.appended).map
          (fun cut => (.unaligned, cut))))

/-- Carry out sub-reads one by one. -/
def carryOutReads (unaligned aligned : SubRead) (ip : Nat) : List (ReadKind × Piece) -> Rd PUnit
  | [] => pure PUnit.unit
  | (.unaligned, cut) :: rest => do
      let _ ← unaligned ip cut.position cut.off cut.size
      carryOutReads unaligned aligned ip rest
  | (.aligned, cut) :: rest => do
      let _ ← aligned ip cut.position cut.off cut.size
      carryOutReads unaligned aligned ip rest

/-- A range that `do_unaligned_read` takes: shorter than a block and inside one. -/
def InBlock (cut : Piece) : Prop :=
  cut.size < 4096 ∧ cut.InUnit 4096

/-- A range that `do_align_read_cache1` takes: it starts and ends at block
boundaries. -/
def WholeBlocks (cut : Piece) : Prop :=
  cut.off % 4096 = 0 ∧ (cut.off + cut.size) % 4096 = 0

/-- The range that a sub-read of some kind takes. -/
def ReadKind.Takes : ReadKind -> Piece -> Prop
  | .unaligned, cut => InBlock cut
  | .aligned, cut => WholeBlocks cut

/-- A sub-read that returns its size whenever it returns. -/
def SubRead.ReturnsSize (subread : SubRead) : Prop :=
  forall ip dst off size reading,
    Ensures (subread ip dst off size) reading (fun done _ => done = size) (fun _ _ => True)

/-! ## The parts -/

/-- What the parts of a request add up to, and where they lie. -/
structure Parted (off size : Nat) (parts : ReadParts) : Prop where
  total : parts.small + parts.prepended + parts.aligned + parts.appended = size
  atMost : parts.small = 0 ∨ parts.prepended = 0 ∧ parts.aligned = 0 ∧ parts.appended = 0
  small : 0 < parts.small -> InBlock ⟨off, 0, parts.small⟩
  prepended : 0 < parts.prepended -> InBlock ⟨off, 0, parts.prepended⟩
  aligned : 0 < parts.aligned -> WholeBlocks ⟨off + parts.prepended, parts.prepended, parts.aligned⟩
  appended : 0 < parts.appended ->
    InBlock ⟨off + (parts.prepended + parts.aligned), parts.prepended + parts.aligned,
      parts.appended⟩

theorem readParts_parted (off size : Nat) : Parted off size (readParts off size) := by
  unfold readParts
  by_cases whole : blockCeil off = off ∧ off + size = blockCeil (off + size)
  · rw [if_pos whole]
    unfold blockCeil at whole
    refine ⟨by simp, .inl rfl, ?_, ?_, ?_, ?_⟩
    all_goals
      intro positive
      simp only [InBlock, WholeBlocks, Piece.InUnit] at positive ⊢
      omega
  · rw [if_neg whole]
    by_cases short : (blockCeil off = off ∧ size < 4096) ∨ off + size < blockCeil off
    · rw [if_pos short]
      unfold blockCeil at whole short
      refine ⟨by simp, .inr ⟨rfl, rfl, rfl⟩, ?_, ?_, ?_, ?_⟩
      all_goals
        intro positive
        simp only [InBlock, WholeBlocks, Piece.InUnit] at positive ⊢
        omega
    · rw [if_neg short]
      unfold blockCeil at *
      simp only
      generalize before : (if off < (off + 4095) / 4096 * 4096 then (off + 4095) / 4096 * 4096 - off
        else 0) = prepended
      generalize behind : (if 0 < (off + size + 4095) / 4096 * 4096 - (off + size)
        then 4096 - ((off + size + 4095) / 4096 * 4096 - (off + size)) else 0) = appended
      have first : prepended < 4096 ∧ (off + prepended) % 4096 = 0 := by
        rw [← before]
        split <;> omega
      have last : appended < 4096 ∧ (off + size - appended) % 4096 = 0 ∧
          prepended + appended ≤ size := by
        rw [← behind, ← before]
        split <;> split <;> omega
      refine ⟨by simp only; omega, .inl rfl, ?_, ?_, ?_, ?_⟩
      all_goals
        intro positive
        simp only [InBlock, WholeBlocks, Piece.InUnit] at positive ⊢
        omega

theorem readPieces_tiles (off size : Nat) :
    Tiles ((readPieces off size).map Prod.snd) off 0 size := by
  have parted := readParts_parted off size
  have total := parted.total
  unfold readPieces
  simp only [List.map_append, List.map_map, Function.comp_def, List.map_id']
  generalize readParts off size = parts at total ⊢
  have sum : parts.small + (parts.prepended + (parts.aligned + parts.appended)) = size := by omega
  rw [← sum]
  refine (tiles_pieceOf off 0 parts.small).append ?_
  rw [Nat.zero_add]
  refine (tiles_pieceOf _ _ parts.prepended).append ?_
  rw [Nat.add_assoc off]
  refine (tiles_pieceOf _ _ parts.aligned).append ?_
  rw [Nat.add_assoc off]
  exact tiles_pieceOf _ _ parts.appended

/-- Every sub-read gets a range of its kind. -/
theorem readPieces_takes {off size : Nat} {kind : ReadKind} {cut : Piece}
    (member : (kind, cut) ∈ readPieces off size) : kind.Takes cut := by
  have parted := readParts_parted off size
  unfold readPieces at member
  simp only [List.mem_append, List.mem_map, Prod.mk.injEq] at member
  generalize readParts off size = parts at parted member
  have atMost := parted.atMost
  rcases member with ⟨_, here, rfl, rfl⟩ | ⟨_, here, rfl, rfl⟩ | ⟨_, here, rfl, rfl⟩ | ⟨_, here, rfl, rfl⟩
  · rcases mem_pieceOf here with ⟨equal, positive⟩
    rw [equal]
    exact parted.small positive
  · rcases mem_pieceOf here with ⟨equal, positive⟩
    have none : parts.small = 0 := by omega
    rw [equal, none]
    exact parted.prepended positive
  · rcases mem_pieceOf here with ⟨equal, positive⟩
    have none : parts.small = 0 := by omega
    rw [equal, none, Nat.zero_add]
    exact parted.aligned positive
  · rcases mem_pieceOf here with ⟨equal, positive⟩
    have none : parts.small = 0 := by omega
    rw [equal, none, Nat.zero_add]
    exact parted.appended positive

theorem length_pieceOf (off position size : Nat) :
    (pieceOf off position size).length = if 0 < size then 1 else 0 := by
  unfold pieceOf
  split <;> rfl

theorem readPieces_length (off size : Nat) : (readPieces off size).length ≤ 3 := by
  have atMost := (readParts_parted off size).atMost
  unfold readPieces
  simp only [List.length_append, List.length_map, length_pieceOf]
  generalize readParts off size = parts at atMost ⊢
  split <;> split <;> split <;> split <;> omega

/-! ## Carrying out the parts -/

section CarryOut

variable {unaligned aligned : SubRead} {ip : Nat} {reading : Reading}
  {failed : Fault -> Reading -> Prop}

theorem ensures_carryOutReads_append {first second : List (ReadKind × Piece)}
    {done : PUnit -> Reading -> Prop} :
    Ensures (carryOutReads unaligned aligned ip (first ++ second)) reading done failed <->
      Ensures (carryOutReads unaligned aligned ip first) reading
        (fun _ middle => Ensures (carryOutReads unaligned aligned ip second) middle done failed)
        failed := by
  induction first generalizing reading with
  | nil => simp [carryOutReads]
  | cons head rest ih =>
      rcases head with ⟨kind, cut⟩
      cases kind <;> simp only [List.cons_append, carryOutReads, Ensures.bind_iff, ih]

/-- An unaligned part is carried out without a failing check. -/
theorem readEdge_carryOut (returns : unaligned.ReturnsSize) {dst off size : Nat} {check : String}
    {done : PUnit -> Reading -> Prop}
    (carried : Ensures (carryOutReads unaligned aligned ip
      ((pieceOf off dst size).map (fun cut => (.unaligned, cut)))) reading done failed) :
    Ensures (readEdge unaligned ip dst off size check) reading done failed := by
  unfold readEdge
  unfold pieceOf at carried
  by_cases positive : 0 < size
  · rw [if_pos positive] at carried ⊢
    simp only [List.map_cons, List.map_nil, carryOutReads, Ensures.bind_iff, Ensures.pure_iff]
      at carried ⊢
    have both := (returns ip dst off size reading).and carried
    refine both.mono ?_ (fun _ _ fault => fault.2)
    rintro result next ⟨equal, finished⟩
    rw [if_neg (fun different => different equal)]
    exact Ensures.pure_iff.mpr finished
  · rw [if_neg positive] at carried ⊢
    exact carried

theorem readAligned_carryOut {dst off size : Nat} {done : Reading -> Prop}
    (carried : Ensures (carryOutReads unaligned aligned ip
      ((pieceOf off dst size).map (fun cut => (.aligned, cut)))) reading (fun _ next => done next)
      failed) :
    if 0 < size then Ensures (aligned ip dst off size) reading (fun _ next => done next) failed
    else done reading := by
  unfold pieceOf at carried
  by_cases positive : 0 < size
  · rw [if_pos positive] at carried ⊢
    simpa only [List.map_cons, List.map_nil, carryOutReads, Ensures.bind_iff, Ensures.pure_iff]
      using carried
  · rw [if_neg positive] at carried ⊢
    exact Ensures.pure_iff.mp carried

/-- The number of bytes that a request gets. -/
def clampedSize (size off ioSize : Nat) : Nat :=
  min ioSize (size - off)

theorem readi_pieces (returns : unaligned.ReturnsSize) {off ioSize : Nat}
    (inside : off < (reading.store.inode ip).size) {done : Int -> Reading -> Prop}
    (carried : Ensures (carryOutReads unaligned aligned ip
      (readPieces off (clampedSize (reading.store.inode ip).size off ioSize))) reading
      (fun _ next => done (toInt32 (clampedSize (reading.store.inode ip).size off ioSize)) next)
      failed) :
    Ensures (readi unaligned aligned ip off ioSize) reading done failed := by
  have clamped : (if (reading.store.inode ip).size < off + ioSize
      then (reading.store.inode ip).size - off else ioSize) =
      clampedSize (reading.store.inode ip).size off ioSize := by
    unfold clampedSize
    split <;> omega
  unfold readi
  simp only [Ensures.bind_iff, ensures_onStore, ensures_readInode, Ensures.ite_iff]
  rw [if_neg (Nat.not_le.mpr inside), clamped]
  generalize clampedSize (reading.store.inode ip).size off ioSize = size at carried ⊢
  have parted := readParts_parted off size
  have total := parted.total
  unfold readPieces at carried
  simp only [ensures_carryOutReads_append] at carried
  generalize readParts off size = parts at total carried ⊢
  refine readEdge_carryOut returns (carried.mono ?_ (fun _ _ fault => fault))
  intro _ first carried
  refine readEdge_carryOut returns (carried.mono ?_ (fun _ _ fault => fault))
  intro _ second carried
  refine readAligned_carryOut (carried.mono ?_ (fun _ _ fault => fault))
  intro _ third carried
  refine readEdge_carryOut returns (carried.mono ?_ (fun _ _ fault => fault))
  intro _ last finished
  rw [Ensures.pure_iff, total]
  exact finished

end CarryOut

theorem toInt32_of_lt {value : Nat} (small : value < 2 ^ 31) : toInt32 value = value := by
  unfold toInt32
  rw [low_of_lt (by omega : value < 2 ^ 32), if_pos small]

/-- How a read is split.  For an offset in the file `readi` takes the shorter of the
request and the rest of the file, and issues at most three sub-reads: they tile the
range in order, with matching positions in the caller's buffer, those of
`do_unaligned_read` are shorter than a block and inside one, and those of
`do_align_read_cache1` start and end at block boundaries.  If the unaligned sub-reads
return their sizes, `readi` does nothing else, no check of it fails, and it returns
the number of bytes. -/
theorem read_is_split (unaligned aligned : SubRead) (ip off ioSize : Nat) (reading : Reading)
    (inside : off < (reading.store.inode ip).size) (small : ioSize < 2 ^ 31)
    (returns : unaligned.ReturnsSize) :
    (readPieces off (min ioSize ((reading.store.inode ip).size - off))).length ≤ 3 ∧
      Tiles ((readPieces off (min ioSize ((reading.store.inode ip).size - off))).map Prod.snd) off 0
        (min ioSize ((reading.store.inode ip).size - off)) ∧
      (forall kind cut,
        (kind, cut) ∈ readPieces off (min ioSize ((reading.store.inode ip).size - off)) ->
          kind.Takes cut) ∧
      (readi unaligned aligned ip off ioSize).run reading =
        (do
          carryOutReads unaligned aligned ip
            (readPieces off (min ioSize ((reading.store.inode ip).size - off)))
          pure ((min ioSize ((reading.store.inode ip).size - off) : Nat) : Int)).run reading := by
  refine ⟨readPieces_length _ _, readPieces_tiles _ _, fun _ _ => readPieces_takes, ?_⟩
  refine run_eq_of_ensures ?_
  intro done failed carried
  refine readi_pieces returns inside ?_
  rw [Ensures.bind_iff] at carried
  have value : toInt32 (clampedSize (reading.store.inode ip).size off ioSize) =
      ((min ioSize ((reading.store.inode ip).size - off) : Nat) : Int) :=
    toInt32_of_lt (Nat.lt_of_le_of_lt (Nat.min_le_left _ _) small)
  rw [value]
  exact carried.mono (fun _ _ finished => Ensures.pure_iff.mp finished) (fun _ _ fault => fault)

/-- A sub-read that returns its size and does nothing. -/
def echoRead : SubRead :=
  fun _ _ _ size => pure (size : Int)

theorem echoRead_returnsSize : echoRead.ReturnsSize :=
  fun _ _ _ _ _ => Ensures.pure_iff.mpr rfl

/-- A reading process with an empty cache. -/
def Reading.of (store : Store) (user : Nat -> UInt8) : Reading :=
  ⟨store, ReadCache.empty, user, Search.start 0⟩

/-- A file of 10000 bytes, and a request of 9950 bytes from its byte 100 on. -/
theorem read_is_split_three_parts :
    readPieces 100 9900 =
        [(.unaligned, ⟨100, 0, 3996⟩), (.aligned, ⟨4096, 3996, 4096⟩),
          (.unaligned, ⟨8192, 8092, 1808⟩)] ∧
      Tiles ((readPieces 100 9900).map Prod.snd) 100 0 9900 := by
  refine ⟨by decide +kernel, ?_⟩
  have split := read_is_split echoRead echoRead 0 100 9950
    (Reading.of { freshStore with inode := fun ip => { Inode.created ip 0 0 0 with size := 10000 } }
      (fun _ => 0)) (by decide) (by decide) echoRead_returnsSize
  exact split.2.1

end Userfs.Filesystem
