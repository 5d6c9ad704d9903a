import Userfs.Filesystem.ReadSplit

namespace Userfs.Filesystem

open Ds
open Io
open Word

/-!
# The search of an aligned read

Whatever the block tree, the cache and the kernel's tree contain, a round of the
search that does not stop the process clears at least one bit, so that there are at
most as many rounds as blocks.  The cleared bits are always those at the front, the
bytes that remain are at most those of the bits that are set, and there is at most
one copy for each cleared bit.  This keeps all transfers to the caller and all copies
inside the caller's buffer, for extents and cached blocks of any size.
-/

/-! ## Rules for the steps -/

section Rules

variable {reading : Reading} {failed : Fault -> Reading -> Prop}

theorem ensures_readHead {dev blocknr size offset : Nat} {done : BufferHead -> Reading -> Prop} :
    Ensures (readHead dev blocknr size offset) reading done failed <->
      if (gBdev (low 8 dev)).isSome then
        done ⟨low 8 dev, blocknr, size, offset, fun _ => 0⟩ reading
      else failed .segfault reading := by
  unfold readHead bhGetSyncIo
  rw [ensures_onStore]
  split
  · exact Ensures.pure_iff
  · exact Ensures.throw_iff

/-- The cache after a data buffer was allocated. -/
def ReadCache.withBuffer (cache : ReadCache) (contents : Nat -> UInt8) : ReadCache :=
  { cache with
    buffer := Function.update cache.buffer cache.bufferEnd (some contents)
    bufferEnd := cache.bufferEnd + 1 }

theorem ensures_newBuffer {done : Nat -> Reading -> Prop} :
    Ensures newBuffer reading done failed <->
      done reading.cache.bufferEnd
        { reading with
          cache := reading.cache.withBuffer reading.store.environment.fresh } := by
  simp only [newBuffer, allocBuffer, Ensures.bind_iff, Ensures.get_iff, ensures_onCache,
    Ensures.modify_iff, Ensures.pure_iff, ReadCache.withBuffer]

end Rules

/-! ## What a step of the search adds -/

/-- A device read whose target, if it is the caller's buffer, lies in a range. -/
def Transfer.Within (transfer : Transfer) (lower upper : Nat) : Prop :=
  match transfer.target with
  | .user position => lower ≤ position ∧ position + transfer.bh.size ≤ upper
  | .buffer _ => True

/-- A copy whose destination lies in a range. -/
def Copy.Within (copy : Copy) (lower upper : Nat) : Prop :=
  lower ≤ copy.dst ∧ copy.dst + copy.size ≤ upper

/-- The search has collected transfers and copies with destinations in a range.
Buffers that existed before are kept or freed, and are no targets; the caller's buffer
and the devices are as before. -/
structure Collects (lower upper : Nat) (reading next : Reading) : Prop where
  copies : Exists fun new => next.search.copies = reading.search.copies ++ new ∧
    forall copy, copy ∈ new -> copy.Within lower upper
  ios : Exists fun new => next.search.ios = reading.search.ios ++ new ∧
    forall transfer, transfer ∈ new -> transfer.Within lower upper ∧
      forall address, transfer.target = .buffer address -> reading.cache.bufferEnd ≤ address
  bufferEnd : reading.cache.bufferEnd ≤ next.cache.bufferEnd
  buffer : forall address, address < reading.cache.bufferEnd ->
    next.cache.buffer address = reading.cache.buffer address ∨ next.cache.buffer address = none
  user : next.user = reading.user
  devices : SameDevices reading.store next.store

namespace Collects

variable {lower upper : Nat}

theorem refl (reading : Reading) : Collects lower upper reading reading where
  copies := ⟨[], by simp, by simp⟩
  ios := ⟨[], by simp, by simp⟩
  bufferEnd := Nat.le_refl _
  buffer := fun _ _ => .inl rfl
  user := rfl
  devices := Std.Refl.refl _

theorem trans {first second third : Reading} {later : Nat} (before : Collects lower upper first second)
    (after : Collects later upper second third) (ordered : lower ≤ later) :
    Collects lower upper first third := by
  rcases before.copies with ⟨copies, copiesEqual, copiesIn⟩
  rcases after.copies with ⟨moreCopies, moreCopiesEqual, moreCopiesIn⟩
  rcases before.ios with ⟨ios, iosEqual, iosIn⟩
  rcases after.ios with ⟨moreIos, moreIosEqual, moreIosIn⟩
  refine ⟨⟨copies ++ moreCopies, ?_, ?_⟩, ⟨ios ++ moreIos, ?_, ?_⟩,
    Nat.le_trans before.bufferEnd after.bufferEnd, ?_, after.user.trans before.user,
    IsTrans.trans _ _ _ before.devices after.devices⟩
  · rw [moreCopiesEqual, copiesEqual, List.append_assoc]
  · intro copy member
    rcases List.mem_append.mp member with early | late
    · exact copiesIn copy early
    · exact ⟨Nat.le_trans ordered (moreCopiesIn copy late).1, (moreCopiesIn copy late).2⟩
  · rw [moreIosEqual, iosEqual, List.append_assoc]
  · intro transfer member
    rcases List.mem_append.mp member with early | late
    · exact iosIn transfer early
    · rcases moreIosIn transfer late with ⟨within, fresh⟩
      refine ⟨?_, fun address target => Nat.le_trans before.bufferEnd (fresh address target)⟩
      unfold Transfer.Within at *
      split at within
      · exact ⟨Nat.le_trans ordered within.1, within.2⟩
      · trivial
  · intro address old
    have newer := Nat.lt_of_lt_of_le old before.bufferEnd
    rcases after.buffer address newer with same | freed
    · rw [same]
      exact before.buffer address old
    · exact .inr freed

/-- A change of the bookkeeping in the search alone. -/
theorem account (reading : Reading) (change : Search -> Search)
    (copies : (change reading.search).copies = reading.search.copies)
    (ios : (change reading.search).ios = reading.search.ios) :
    Collects lower upper reading { reading with search := change reading.search } where
  copies := ⟨[], by simp [copies], by simp⟩
  ios := ⟨[], by simp [ios], by simp⟩
  bufferEnd := Nat.le_refl _
  buffer := fun _ _ => .inl rfl
  user := rfl
  devices := Std.Refl.refl _

theorem addIo (reading : Reading) {transfer : Transfer} (within : transfer.Within lower upper)
    (fresh : forall address, transfer.target = .buffer address -> reading.cache.bufferEnd ≤ address) :
    Collects lower upper reading
      { reading with
        search := { reading.search with ios := reading.search.ios ++ [transfer] } } where
  copies := ⟨[], by simp, by simp⟩
  ios := ⟨[transfer], rfl, by simpa using ⟨within, fresh⟩⟩
  bufferEnd := Nat.le_refl _
  buffer := fun _ _ => .inl rfl
  user := rfl
  devices := Std.Refl.refl _

theorem addCopies (reading : Reading) {new : List Copy}
    (within : forall copy, copy ∈ new -> copy.Within lower upper) :
    Collects lower upper reading
      { reading with
        search := { reading.search with copies := reading.search.copies ++ new } } where
  copies := ⟨new, rfl, within⟩
  ios := ⟨[], by simp, by simp⟩
  bufferEnd := Nat.le_refl _
  buffer := fun _ _ => .inl rfl
  user := rfl
  devices := Std.Refl.refl _

theorem frees (reading : Reading) {cache : ReadCache} (freed : Frees reading.cache cache) :
    Collects lower upper reading { reading with cache := cache } where
  copies := ⟨[], by simp, by simp⟩
  ios := ⟨[], by simp, by simp⟩
  bufferEnd := Nat.le_of_eq freed.bufferEnd.symm
  buffer := fun address _ => freed.buffer address
  user := rfl
  devices := Std.Refl.refl _

theorem devices_only (reading : Reading) {store : Store} (same : SameDevices reading.store store) :
    Collects lower upper reading { reading with store := store } where
  copies := ⟨[], by simp, by simp⟩
  ios := ⟨[], by simp, by simp⟩
  bufferEnd := Nat.le_refl _
  buffer := fun _ _ => .inl rfl
  user := rfl
  devices := same

theorem newBuffer (reading : Reading) (contents : Nat -> UInt8) :
    Collects lower upper reading { reading with cache := reading.cache.withBuffer contents } where
  copies := ⟨[], by simp, by simp⟩
  ios := ⟨[], by simp, by simp⟩
  bufferEnd := Nat.le_succ _
  buffer := fun address old => .inl (Function.update_of_ne (Nat.ne_of_lt old) _ _)
  user := rfl
  devices := Std.Refl.refl _

end Collects

/-! ## The end of a round -/

/-- The counters of the search between two rounds, with some number of cleared
bits. -/
structure Counted (ioSize cleared : Nat) (search : Search) : Prop where
  front : Bitmap.Front search.bitmap cleared (ioSize / 4096)
  remain : search.remain + cleared * 4096 ≤ ioSize
  few : search.copies.length ≤ cleared

/-- The state before a round: some bit is set, and `bitmapweight` is their number. -/
structure RoundStarts (ioSize cleared : Nat) (search : Search) : Prop extends
    Counted ioSize cleared search where
  more : cleared < ioSize / 4096
  weight : search.weight = ioSize / 4096 - cleared

/-- The faults that the claims about the search exclude do not occur. -/
def Benign (fault : Fault) : Prop :=
  fault ≠ .outOfFuel ∧ fault ≠ .panic "read request overruns the user buffer\n"

/-- What a round leaves behind: before another round some bit was cleared. -/
def RoundLeaves (ioSize cleared : Nat) : RoundEnd -> Reading -> Prop
  | .again, next => Exists fun later => cleared < later ∧ RoundStarts ioSize later next.search
  | .io, next => next.search.copies.length ≤ ioSize / 4096

/-- The part of a round that starts in some state keeps the search in bounds. -/
def RoundKept (dst ioSize cleared : Nat) (reading : Reading) (program : Rd RoundEnd)
    (start : Reading) : Prop :=
  Ensures program start
    (fun next after => Collects (dst + cleared * 4096) (dst + ioSize) reading after ∧
      RoundLeaves ioSize cleared next after)
    (fun fault after => Collects (dst + cleared * 4096) (dst + ioSize) reading after ∧
      after.search.copies.length ≤ ioSize / 4096 ∧ Benign fault)

/-- The search after a round has collected its transfers, before it accounts for
them. -/
structure Unaccounted (ioSize cleared readSize : Nat) (search : Search) : Prop where
  front : Bitmap.Front search.bitmap cleared (ioSize / 4096)
  remain : search.remain + cleared * 4096 ≤ ioSize
  more : cleared < ioSize / 4096
  weight : search.weight = ioSize / 4096 - cleared
  fits : readSize ≤ search.remain
  few : 0 < readSize / 4096 -> search.copies.length ≤ cleared + readSize / 4096
  length : search.copies.length ≤ ioSize / 4096

section RoundEnd

variable {dst ioSize cleared readSize : Nat} {reading start : Reading}

theorem Unaccounted.blocks_le {search : Search} (pending : Unaccounted ioSize cleared readSize search) :
    cleared + readSize / 4096 ≤ ioSize / 4096 := by
  have remain := pending.remain
  have fits := pending.fits
  omega

/-- The search after the bytes of a round were accounted for. -/
def Search.accounted (search : Search) (bit readSize blocks : Nat) : Search :=
  { search with
    bitmap := Bitmap.clear search.bitmap bit (readSize / 4096)
    remain := search.remain - readSize
    ioToBeDone := search.ioToBeDone + blocks }

theorem ensures_account {bit blocks : Nat} {done : PUnit -> Reading -> Prop}
    {failed : Fault -> Reading -> Prop} :
    Ensures (account bit readSize blocks) reading done failed <->
      done PUnit.unit { reading with search := reading.search.accounted bit readSize blocks } :=
  ensures_modifySearch

theorem Unaccounted.weight_accounted {search : Search} (pending : Unaccounted ioSize cleared readSize search)
    (blocks : Nat) :
    Bitmap.weight (search.accounted cleared readSize blocks).bitmap =
      ioSize / 4096 - (cleared + readSize / 4096) :=
  (pending.front.clear pending.blocks_le).weight_eq

/-- The search that a successful round hands to the next one. -/
theorem Unaccounted.starts {search : Search} (pending : Unaccounted ioSize cleared readSize search)
    (blocks : Nat) (progress : 0 < readSize / 4096)
    (more : cleared + readSize / 4096 < ioSize / 4096) :
    RoundStarts ioSize (cleared + readSize / 4096)
      { search.accounted cleared readSize blocks with
        weight := Bitmap.weight (search.accounted cleared readSize blocks).bitmap } := by
  have remain := pending.remain
  have fits := pending.fits
  refine ⟨⟨pending.front.clear pending.blocks_le, ?_, pending.few progress⟩, more,
    pending.weight_accounted blocks⟩
  change search.remain - readSize + (cleared + readSize / 4096) * 4096 ≤ ioSize
  omega

/-- The check behind a round stops a round without progress. -/
theorem Collects.progress (collected : Collects (dst + cleared * 4096) (dst + ioSize) reading start)
    (pending : Unaccounted ioSize cleared readSize start.search) (blocks : Nat) :
    RoundKept dst ioSize cleared reading progress
      { start with search := start.search.accounted cleared readSize blocks } := by
  have weight := pending.weight_accounted blocks
  have bound := pending.blocks_le
  have more := pending.more
  have kept : Collects (dst + cleared * 4096) (dst + ioSize) reading
      { start with search := start.search.accounted cleared readSize blocks } :=
    collected.trans (Collects.account start (fun search => search.accounted cleared readSize blocks)
      rfl rfl) (Nat.le_refl _)
  unfold RoundKept Filesystem.progress
  rw [Ensures.bind_iff, Ensures.get_iff, Ensures.ite_iff, Ensures.ite_iff, Ensures.bind_iff]
  simp only [weight]
  split
  · exact Ensures.throw_iff.mpr ⟨kept, pending.length, by simp [Benign]⟩
  · rename_i advanced
    have positive : 0 < readSize / 4096 := by
      have same : (start.search.accounted cleared readSize blocks).weight = start.search.weight := rfl
      rw [same, pending.weight] at advanced
      omega
    split
    · rw [ensures_modifySearch]
      refine Ensures.pure_iff.mpr ⟨?_, cleared + readSize / 4096, by omega,
        pending.starts blocks positive (by omega)⟩
      exact kept.trans (Collects.account _ (fun search =>
        { search with weight := Bitmap.weight search.bitmap }) rfl rfl) (Nat.le_refl _)
    · exact Ensures.pure_iff.mpr ⟨kept, pending.length⟩

theorem Collects.progressUnlessDone (collected : Collects (dst + cleared * 4096) (dst + ioSize) reading start)
    (pending : Unaccounted ioSize cleared readSize start.search) (blocks : Nat) :
    RoundKept dst ioSize cleared reading progressUnlessDone
      { start with search := start.search.accounted cleared readSize blocks } := by
  unfold RoundKept Filesystem.progressUnlessDone
  rw [Ensures.bind_iff, Ensures.get_iff, Ensures.ite_iff]
  split
  · exact collected.progress pending blocks
  · refine Ensures.pure_iff.mpr ⟨?_, pending.length⟩
    exact collected.trans (Collects.account start
      (fun search => search.accounted cleared readSize blocks) rfl rfl) (Nat.le_refl _)

end RoundEnd

/-! ## The rounds -/

section Rounds

variable {ip dst off ioSize cleared : Nat} {reading start : Reading}

/-- `copy_list` entries of consecutive blocks, or an access to a freed block. -/
theorem ensures_addCopies (target address source count : Nat) :
    Ensures (addCopies target address source count) reading
      (fun _ next => Exists fun buffer => next =
        { reading with
          search := { reading.search with
            copies := reading.search.copies ++ blockCopies target buffer source count } })
      (fun fault next => fault = .segfault ∧ next = reading) := by
  unfold addCopies
  rw [Ensures.ite_iff]
  split
  · rename_i none
    subst none
    exact Ensures.pure_iff.mpr ⟨0, by simp [blockCopies]⟩
  · simp only [derefBlock, Ensures.bind_iff, ensures_onCache, Ensures.get_iff]
    cases found : reading.cache.block address with
    | none => exact Ensures.throw_iff.mpr ⟨rfl, rfl⟩
    | some block =>
        rw [Ensures.pure_iff, ensures_modifySearch]
        exact ⟨block.data, rfl⟩

theorem blockCopies_within {target buffer source count lower upper : Nat} (start : lower ≤ target)
    (stop : target + count * 4096 ≤ upper) :
    forall copy, copy ∈ blockCopies target buffer source count -> copy.Within lower upper := by
  intro copy member
  rcases List.mem_map.mp member with ⟨index, below, made⟩
  have bound := List.mem_range.mp below
  subst made
  unfold Copy.Within
  simp only
  omega

theorem benign_segfault : Benign .segfault := by
  simp [Benign]

theorem readSizeOf_le (remain available : Nat) : readSizeOf remain available ≤ remain := by
  unfold readSizeOf
  split <;> omega

/-- The position of a round in the caller's buffer. -/
theorem RoundStarts.position {search : Search} (starts : RoundStarts ioSize cleared search)
    (small : ioSize < 2 ^ 31) :
    Bitmap.findFirst search.bitmap = cleared ∧ low 32 (cleared * 4096) = cleared * 4096 := by
  have more := starts.more
  refine ⟨starts.front.findFirst_eq, low_of_lt ?_⟩
  omega

/-- Insertions into the cache and copies from the inserted block, as several branches
of a round make them: the bookkeeping is kept, and the copies are added. -/
theorem ensures_cacheAndCopy {program : Cached Nat} {target source count : Nat}
    {failed : Fault -> Reading -> Prop} {done : PUnit -> Reading -> Prop}
    (frees : Follows Frees program) (raises : Raises (fun fault => fault = .segfault) program)
    (stops : forall cache, Frees start.cache cache -> failed .segfault { start with cache := cache })
    (copied : forall cache buffer, Frees start.cache cache -> done PUnit.unit
      { start with
        cache := cache
        search := { start.search with
          copies := start.search.copies ++ blockCopies target buffer source count } }) :
    Ensures (onCache program) start
      (fun address middle => Ensures (addCopies target address source count) middle done failed)
      failed := by
  rw [ensures_onCache]
  have both := (frees start.cache).and (raises start.cache)
  apply both.mono
  · rintro address cache ⟨freed, _⟩
    apply (ensures_addCopies target address source count).mono
    · rintro _ next ⟨buffer, made⟩
      rw [made]
      exact copied cache buffer freed
    · rintro fault next ⟨isFault, same⟩
      rw [isFault, same]
      exact stops cache freed
  · rintro fault cache ⟨freed, isFault⟩
    rw [isFault]
    exact stops cache freed

theorem RoundStarts.length_le {search : Search} (starts : RoundStarts ioSize cleared search) :
    search.copies.length ≤ ioSize / 4096 :=
  Nat.le_trans starts.few (Nat.le_of_lt starts.more)

/-- The counters of the search once copies were added that the round accounts for. -/
theorem RoundStarts.unaccounted {search : Search} (starts : RoundStarts ioSize cleared search)
    {readSize : Nat} (fits : readSize ≤ search.remain) (copies : List Copy) (ios : List Transfer)
    (length : copies.length ≤ readSize / 4096) :
    Unaccounted ioSize cleared readSize
      { search with copies := search.copies ++ copies, ios := ios } := by
  have few := starts.few
  have remain := starts.remain
  have more := starts.more
  refine ⟨starts.front, starts.remain, starts.more, starts.weight, fits, ?_, ?_⟩
  · intro _
    simp only [List.length_append]
    omega
  · simp only [List.length_append]
    omega

/-- One copy is within the bounds also if the round accounts for no whole block: it is
then the last one. -/
theorem RoundStarts.unaccounted_one {search : Search} (starts : RoundStarts ioSize cleared search)
    {readSize : Nat} (fits : readSize ≤ search.remain) (copies : List Copy) (ios : List Transfer)
    (length : copies.length = 1) :
    Unaccounted ioSize cleared readSize
      { search with copies := search.copies ++ copies, ios := ios } := by
  have few := starts.few
  have more := starts.more
  refine ⟨starts.front, starts.remain, starts.more, starts.weight, fits, ?_, ?_⟩
  · intro positive
    simp only [List.length_append]
    omega
  · simp only [List.length_append]
    omega

theorem RoundStarts.unaccounted_nil {search : Search} (starts : RoundStarts ioSize cleared search)
    {readSize : Nat} (fits : readSize ≤ search.remain) (ios : List Transfer) :
    Unaccounted ioSize cleared readSize { search with ios := ios } := by
  have pending := starts.unaccounted fits [] ios (Nat.zero_le _)
  rw [List.append_nil] at pending
  exact pending

theorem length_blockCopies (target buffer source count : Nat) :
    (blockCopies target buffer source count).length = count := by
  simp [blockCopies]

/-- The state of a round after a buffer was allocated, the cache was changed, and
copies and a device read to the buffer were added. -/
theorem Collects.throughBuffer (reading : Reading) {lower upper : Nat} {cache : ReadCache}
    (contents : Nat -> UInt8) (freed : Frees (reading.cache.withBuffer contents) cache)
    {copies : List Copy} (within : forall copy, copy ∈ copies -> copy.Within lower upper)
    (bh : BufferHead) :
    Collects lower upper reading
      { reading with
        cache := cache
        search := { reading.search with
          copies := reading.search.copies ++ copies
          ios := reading.search.ios ++ [⟨bh, .buffer reading.cache.bufferEnd⟩] } } where
  copies := ⟨copies, rfl, within⟩
  ios := ⟨_, rfl, by simp [Transfer.Within]⟩
  bufferEnd := Nat.le_trans (Nat.le_succ _) (Nat.le_of_eq freed.bufferEnd.symm)
  buffer := by
    intro address old
    rcases freed.buffer address with same | gone
    · exact .inl (same.trans (Function.update_of_ne (Nat.ne_of_lt old) _ _))
    · exact .inr gone
  user := rfl
  devices := Std.Refl.refl _

/-- The state after a buffer was allocated and a device read to it was added. -/
theorem Collects.bufferQueued (reading : Reading) {lower upper : Nat} (contents : Nat -> UInt8)
    (bh : BufferHead) :
    Collects lower upper reading
      { reading with
        cache := reading.cache.withBuffer contents
        search := { reading.search with
          ios := reading.search.ios ++ [⟨bh, .buffer reading.cache.bufferEnd⟩] } } where
  copies := ⟨[], by simp, by simp⟩
  ios := ⟨_, rfl, by simp [Transfer.Within]⟩
  bufferEnd := Nat.le_succ _
  buffer := fun address old => .inl (Function.update_of_ne (Nat.ne_of_lt old) _ _)
  user := rfl
  devices := Std.Refl.refl _

theorem Collects.bufferMade (reading : Reading) {lower upper : Nat} {cache : ReadCache}
    (contents : Nat -> UInt8) (freed : Frees (reading.cache.withBuffer contents) cache) :
    Collects lower upper reading { reading with cache := cache } :=
  (Collects.newBuffer reading contents).trans (Collects.frees _ freed) (Nat.le_refl lower)

/-- A round that finds an extent at its offset. -/
theorem RoundStarts.readExtent (starts : RoundStarts ioSize cleared reading.search) (here : Nat)
    (block : Block) :
    RoundKept dst ioSize cleared reading
      (readExtent ip dst cleared (cleared * 4096) here block) reading := by
  have remain := starts.remain
  unfold RoundKept Filesystem.readExtent
  simp only [Ensures.bind_iff, ensures_readHead, Ensures.get_iff, Ensures.ite_iff]
  split
  · split
    · -- from an SSD, through a cache buffer
      rw [ensures_newBuffer]
      have fits := readSizeOf_le reading.search.remain
        (low 32 (block.size - (here - block.fileoff)))
      generalize readSizeOf reading.search.remain
        (low 32 (block.size - (here - block.fileoff))) = readSize at fits ⊢
      apply ensures_cacheAndCopy (frees_addToReadCache _ _ _ _) (raises_addToReadCache _ _ _ _)
      · intro cache freed
        exact ⟨Collects.bufferMade reading _ freed, starts.length_le, benign_segfault⟩
      · intro cache buffer freed
        simp only [addIo, ensures_modifySearch, ensures_account]
        have within := @blockCopies_within (dst + cleared * 4096) buffer (here - block.fileoff)
          (readSize / 4096) (dst + cleared * 4096) (dst + ioSize) (Nat.le_refl _) (by omega)
        have collected := Collects.throughBuffer reading _ freed within
          ⟨low 8 block.devid, add64 block.addr ((here - block.fileoff) / 4096),
            low 32 (block.size / 4096 * 4096), 0, fun _ => 0⟩
        exact collected.progressUnlessDone (starts.unaccounted fits _ _
          (Nat.le_of_eq (length_blockCopies _ _ _ _))) _
    · -- from the NVM, directly
      have fits := readSizeOf_le reading.search.remain (low 32 (block.size / 4096 * 4096))
      generalize readSizeOf reading.search.remain (low 32 (block.size / 4096 * 4096)) = readSize
        at fits ⊢
      simp only [addIo, ensures_modifySearch, ensures_account]
      have within : Transfer.Within ⟨⟨low 8 block.devid,
          add64 block.addr ((here - block.fileoff) / 4096), readSize, 0, fun _ => 0⟩,
          .user (dst + cleared * 4096)⟩ (dst + cleared * 4096) (dst + ioSize) := by
        refine ⟨Nat.le_refl _, ?_⟩
        change dst + cleared * 4096 + readSize ≤ dst + ioSize
        omega
      have collected := Collects.addIo reading within (fun _ impossible => by cases impossible)
      exact collected.progressUnlessDone (starts.unaccounted_nil fits _) _
  · exact ⟨Collects.refl reading, starts.length_le, benign_segfault⟩

/-- A round that finds an extent at the 2 MB boundary before the request. -/
theorem RoundStarts.readBase (starts : RoundStarts ioSize cleared reading.search) (block : Block) :
    RoundKept dst ioSize cleared reading
      (readBase ip dst off cleared (cleared * 4096) block) reading := by
  have remain := starts.remain
  unfold RoundKept Filesystem.readBase
  simp only [Ensures.bind_iff, ensures_readHead, Ensures.get_iff, Ensures.ite_iff]
  split
  · rw [ensures_newBuffer]
    have fits := readSizeOf_le reading.search.remain (low 32 (block.size / 4096 * 4096))
    generalize readSizeOf reading.search.remain (low 32 (block.size / 4096 * 4096)) = readSize
      at fits ⊢
    simp only [addIo, ensures_modifySearch]
    have queued := @Collects.bufferQueued reading (dst + cleared * 4096) (dst + ioSize)
      reading.store.environment.fresh ⟨low 8 block.devid,
        add64 block.addr ((off - block.fileoff) / 4096), low 32 (block.size / 4096 * 4096), 0,
        fun _ => 0⟩
    split
    · apply ensures_cacheAndCopy (frees_addToReadCache _ _ _ _) (raises_addToReadCache _ _ _ _)
      · intro cache freed
        exact ⟨queued.trans (Collects.frees _ freed) (Nat.le_refl _), starts.length_le,
          benign_segfault⟩
      · intro cache buffer freed
        rw [ensures_account]
        have within := @blockCopies_within (dst + cleared * 4096) buffer (off - block.fileoff)
          (readSize / 4096) (dst + cleared * 4096) (dst + ioSize) (Nat.le_refl _) (by omega)
        have collected := (queued.trans (Collects.frees _ freed) (Nat.le_refl _)).trans
          (Collects.addCopies _ within) (Nat.le_refl _)
        exact collected.progress (starts.unaccounted fits _ _
          (Nat.le_of_eq (length_blockCopies _ _ _ _))) _
    · rw [ensures_account]
      exact queued.progress (starts.unaccounted_nil fits _) _
  · exact ⟨Collects.refl reading, starts.length_le, benign_segfault⟩

/-- The requests that `bmap` can leave behind: a chunk of an SSD, one block, or a
request without a device. -/
def Answered (request : BmapRequest) : Prop :=
  (request.blkCountFound = 512 ∧ 1 < request.dev) ∨ request.blkCountFound = 1 ∨ request.dev = 0

/-- The transfers for what `bmap` found. -/
theorem RoundStarts.readFound (starts : RoundStarts ioSize cleared reading.search) (here : Nat)
    {request : BmapRequest} (answered : Answered request) :
    Ensures (readFound ip dst off (cleared * 4096) here request) reading
      (fun _ next => Collects (dst + cleared * 4096) (dst + ioSize) reading next ∧
        next.search.remain = reading.search.remain ∧
        Unaccounted ioSize cleared
          (readSizeOf reading.search.remain (low 32 (request.blkCountFound * 4096))) next.search)
      (fun fault next => Collects (dst + cleared * 4096) (dst + ioSize) reading next ∧
        next.search.copies.length ≤ ioSize / 4096 ∧ Benign fault) := by
  have remain := starts.remain
  have more := starts.more
  have fits := readSizeOf_le reading.search.remain (low 32 (request.blkCountFound * 4096))
  unfold Filesystem.readFound
  simp only [Ensures.bind_iff, ensures_readHead, Ensures.get_iff, Ensures.ite_iff]
  generalize readSizeOf reading.search.remain (low 32 (request.blkCountFound * 4096)) = readSize
    at fits ⊢
  split
  · rename_i device
    have found : (request.blkCountFound = 512 ∧ 1 < request.dev) ∨ request.blkCountFound = 1 := by
      rcases answered with chunk | one | none
      · exact .inl chunk
      · exact .inr one
      · rw [none] at device
        exact absurd device (by decide)
    split
    · -- one block of the NVM, to the caller
      rename_i nvm
      have one : request.blkCountFound = 1 := found.resolve_left (by omega)
      rw [one, addIo, ensures_modifySearch]
      have within : Transfer.Within ⟨⟨low 8 request.dev, request.blockNo, low 32 (1 * 4096), 0,
          fun _ => 0⟩, .user (dst + cleared * 4096)⟩ (dst + cleared * 4096) (dst + ioSize) := by
        refine ⟨Nat.le_refl _, ?_⟩
        change dst + cleared * 4096 + 4096 ≤ dst + ioSize
        omega
      exact ⟨Collects.addIo reading within (fun _ impossible => by cases impossible), rfl,
        starts.unaccounted_nil fits _⟩
    · rw [ensures_newBuffer]
      have stops : forall cache, Frees (reading.cache.withBuffer reading.store.environment.fresh) cache ->
          Collects (dst + cleared * 4096) (dst + ioSize) reading { reading with cache := cache } ∧
            reading.search.copies.length ≤ ioSize / 4096 ∧ Benign .segfault :=
        fun cache freed => ⟨Collects.bufferMade reading _ freed, starts.length_le, benign_segfault⟩
      split
      · apply ensures_cacheAndCopy (frees_addToReadCache _ _ _ _) (raises_addToReadCache _ _ _ _) stops
        intro cache buffer freed
        rw [addIo, ensures_modifySearch]
        have within := @blockCopies_within (dst + cleared * 4096) buffer (off - chunkFloor off)
          (readSize / 4096) (dst + cleared * 4096) (dst + ioSize) (Nat.le_refl _) (by omega)
        exact ⟨Collects.throughBuffer reading _ freed within _, rfl,
          starts.unaccounted fits _ _ (Nat.le_of_eq (length_blockCopies _ _ _ _))⟩
      · rename_i notChunk
        have one : request.blkCountFound = 1 := found.resolve_left (fun chunk => notChunk chunk.1)
        rw [if_pos one]
        apply ensures_cacheAndCopy (frees_addToReadCache _ _ _ _) (raises_addToReadCache _ _ _ _) stops
        intro cache buffer freed
        rw [addIo, ensures_modifySearch]
        have within := @blockCopies_within (dst + cleared * 4096) buffer 0 1
          (dst + cleared * 4096) (dst + ioSize) (Nat.le_refl _) (by omega)
        exact ⟨Collects.throughBuffer reading _ freed within _, rfl,
          starts.unaccounted_one fits _ _ (length_blockCopies _ _ _ _)⟩
  · exact ⟨Collects.refl reading, starts.length_le, benign_segfault⟩

/-- What `bmap` leaves behind when it is asked with an empty request. -/
theorem ensures_bmap_answered (ip here : Nat) (store : Store) :
    Ensures (bmap ip ⟨here, 0, 0, 0⟩) store
      (fun result next => SameDevices store next ∧ (result.1 = 0 ∨ result.1 = -6) ∧
        Answered result.2)
      (fun fault next => SameDevices store next ∧ Benign fault) := by
  have both := ((sameDevices_bmap ip ⟨here, 0, 0, 0⟩ store).and
    (raises_bmap ip ⟨here, 0, 0, 0⟩ store)).and (ensures_bmap_answer ip ⟨here, 0, 0, 0⟩ store)
  apply both.mono
  · rintro result next ⟨⟨same, _⟩, answer⟩
    refine ⟨same, answer.code, ?_⟩
    rcases answer.found with untouched | chunk | one
    · exact .inr (.inr (by rw [untouched]))
    · exact .inl chunk
    · exact .inr (.inl one)
  · rintro fault next ⟨⟨same, isFault⟩, _⟩
    refine ⟨same, ?_⟩
    rcases isFault with isFault | isFault <;> simp [Benign, isFault]

/-- A round that asks `bmap`. -/
theorem RoundStarts.readFromDevice (starts : RoundStarts ioSize cleared reading.search) (here : Nat) :
    RoundKept dst ioSize cleared reading
      (readFromDevice ip dst off ioSize cleared (cleared * 4096) here) reading := by
  unfold RoundKept Filesystem.readFromDevice
  simp only [Ensures.bind_iff, ensures_onStore]
  apply (ensures_bmap_answered ip here reading.store).mono
  · rintro ⟨ret, request⟩ store ⟨same, code, answered⟩
    have moved : Collects (dst + cleared * 4096) (dst + ioSize) reading
        { reading with store := store } := Collects.devices_only reading same
    have noError : ret ≠ -5 := by rintro rfl; simp at code
    have noRetry : ret ≠ -11 := by rintro rfl; simp at code
    simp only [if_neg noError, if_neg noRetry, Ensures.bind_iff, Ensures.get_iff, ensures_account]
    have restarts : RoundStarts ioSize cleared { reading with store := store }.search := starts
    apply (restarts.readFound here answered).mono
    · rintro _ next ⟨collected, sameRemain, pending⟩
      rw [sameRemain]
      apply ((moved.trans collected (Nat.le_refl _)).progress pending request.blkCountFound).mono
      · rintro roundEnd after ⟨kept, leaves⟩
        rw [Ensures.ite_iff]
        split
        · rename_i last
          rw [last.1] at leaves
          exact Ensures.throw_iff.mpr ⟨kept, leaves, by simp [Benign]⟩
        · exact Ensures.pure_iff.mpr ⟨kept, leaves⟩
      · exact fun _ _ kept => kept
    · rintro fault next ⟨collected, length, benign⟩
      exact ⟨moved.trans collected (Nat.le_refl _), length, benign⟩
  · rintro fault store ⟨same, benign⟩
    exact ⟨Collects.devices_only reading same, starts.length_le, benign⟩

/-- One round, whatever it finds. -/
theorem RoundStarts.globalSearch (starts : RoundStarts ioSize cleared reading.search)
    (small : ioSize < 2 ^ 31) :
    RoundKept dst ioSize cleared reading (globalSearch ip dst off ioSize) reading := by
  rcases starts.position small with ⟨bit, position⟩
  unfold RoundKept Filesystem.globalSearch
  rw [Ensures.bind_iff, Ensures.get_iff, bit]
  simp only [position]
  split
  · exact starts.readExtent _ _
  · rw [Ensures.ite_iff]
    split
    · split
      · rw [Ensures.ite_iff]
        split
        · exact starts.readBase _
        · exact starts.readFromDevice _
      · exact starts.readFromDevice _
    · exact starts.readFromDevice _

end Rounds

/-! ## The whole search -/

section Search

variable {ip dst off ioSize cleared : Nat} {reading : Reading}

/-- The search has collected what it needs, or the process stopped before: all
destinations lie in the caller's buffer and there are at most as many copies as
blocks. -/
structure Bounded (dst ioSize : Nat) (reading next : Reading) : Prop where
  collected : Collects dst (dst + ioSize) reading next
  length : next.search.copies.length ≤ ioSize / 4096

/-- The rounds, with a bound on their number that is never reached. -/
theorem RoundStarts.searchRounds (small : ioSize < 2 ^ 31) (fuel : Nat) :
    forall {cleared : Nat} {reading : Reading}, RoundStarts ioSize cleared reading.search ->
      ioSize / 4096 ≤ cleared + fuel ->
      Ensures (searchRounds ip dst off ioSize fuel) reading
        (fun _ next => Bounded dst ioSize reading next)
        (fun fault next => Bounded dst ioSize reading next ∧ Benign fault) := by
  induction fuel with
  | zero =>
      intro cleared reading starts enough
      have more := starts.more
      omega
  | succ fuel ih =>
      intro cleared reading starts enough
      rw [Filesystem.searchRounds, Ensures.bind_iff]
      apply (starts.globalSearch small).mono
      · rintro roundEnd next ⟨kept, leaves⟩
        have all : Collects dst (dst + ioSize) reading next :=
          (Collects.refl reading).trans kept (Nat.le_add_right dst _)
        cases roundEnd with
        | again =>
            rcases leaves with ⟨later, advanced, restarts⟩
            apply (ih restarts (by omega)).mono
            · intro _ last bounded
              exact ⟨all.trans bounded.collected (Nat.le_refl _), bounded.length⟩
            · rintro fault last ⟨bounded, benign⟩
              exact ⟨⟨all.trans bounded.collected (Nat.le_refl _), bounded.length⟩, benign⟩
        | io => exact Ensures.pure_iff.mpr ⟨all, leaves⟩
      · rintro fault next ⟨kept, length, benign⟩
        exact ⟨⟨(Collects.refl reading).trans kept (Nat.le_add_right dst _), length⟩, benign⟩

theorem ensures_cachedBlock {key : Nat} {done : Option (Nat × FcacheBlock) -> Reading -> Prop}
    {failed : Fault -> Reading -> Prop} :
    Ensures (cachedBlock ip key) reading done failed <->
      match reading.cache.hash ip key with
      | none => done none reading
      | some address =>
          match reading.cache.block address with
          | none => failed .segfault reading
          | some block => done (some (address, block)) reading := by
  simp only [cachedBlock, fcacheFind, Ensures.bind_iff, ensures_onCache, Ensures.get_iff,
    Ensures.pure_iff]
  cases reading.cache.hash ip key with
  | none => exact Ensures.pure_iff
  | some address =>
      simp only [derefBlock, Ensures.bind_iff, ensures_onCache, Ensures.get_iff]
      cases reading.cache.block address with
      | none => exact Ensures.throw_iff
      | some block => simp only [Ensures.pure_iff]

theorem counted_start (ioSize : Nat) : Counted ioSize 0 (Search.start ioSize) :=
  ⟨Bitmap.front_full _, by simp [Search.start], Nat.zero_le _⟩

/-- The part that the cache serves. -/
theorem ensures_searchCache {reading : Reading} (started : reading.search = Search.start ioSize) :
    Ensures (searchCache ip dst off ioSize) reading
      (fun _ next => Collects dst (dst + ioSize) reading next ∧
        Exists fun cleared => Counted ioSize cleared next.search)
      (fun fault next => Bounded dst ioSize reading next ∧ Benign fault) := by
  have counted : Counted ioSize 0 reading.search := started ▸ counted_start ioSize
  have stopped : Bounded dst ioSize reading reading ∧ Benign .segfault :=
    ⟨⟨Collects.refl reading, Nat.le_trans counted.few (Nat.zero_le _)⟩, benign_segfault⟩
  unfold searchCache
  rw [Ensures.bind_iff, ensures_cachedBlock]
  split
  · exact Ensures.pure_iff.mpr ⟨Collects.refl reading, 0, counted⟩
  · split
    · exact stopped
    · rename_i address _ _ block _
      simp only [Ensures.ite_iff]
      split
      · have fits := readSizeOf_le ioSize (low 32 (block.size - (off - chunkFloor off)))
        generalize readSizeOf ioSize (low 32 (block.size - (off - chunkFloor off))) = readSize
          at fits ⊢
        rw [Ensures.bind_iff]
        apply (ensures_addCopies dst address (off - chunkFloor off) (readSize / 4096)).mono
        · rintro _ next ⟨buffer, made⟩
          simp only [listMove, Ensures.bind_iff, ensures_onCache, Ensures.modify_iff, ensures_account,
            made]
          have within := @blockCopies_within dst buffer (off - chunkFloor off) (readSize / 4096)
            dst (dst + ioSize) (Nat.le_refl _) (by omega)
          refine ⟨⟨⟨_, rfl, within⟩, ⟨[], by simp [Search.accounted], by simp⟩, Nat.le_refl _,
            fun _ _ => .inl rfl, rfl, Std.Refl.refl _⟩, readSize / 4096, ?_⟩
          have front := counted.front.clear (Nat.le_trans (Nat.le_of_eq (Nat.zero_add _))
            (Nat.div_le_div_right fits))
          rw [Nat.zero_add] at front
          refine ⟨front, ?_, ?_⟩
          · change reading.search.remain - readSize + readSize / 4096 * 4096 ≤ ioSize
            rw [started]
            change ioSize - readSize + readSize / 4096 * 4096 ≤ ioSize
            omega
          · change (reading.search.copies ++ _).length ≤ _
            rw [started, List.length_append, length_blockCopies]
            exact Nat.le_of_eq (Nat.zero_add _)
        · rintro fault next ⟨isFault, same⟩
          rw [isFault, same]
          exact stopped
      · exact Ensures.pure_iff.mpr ⟨Collects.refl reading, 0, counted⟩

/-- The search of a request, from any state of the file, the cache and the kernel's
tree. -/
theorem ensures_searchAll (small : ioSize < 2 ^ 31) (reading : Reading) :
    Ensures (searchAll ip dst off ioSize) reading
      (fun _ next => Bounded dst ioSize { reading with search := Search.start ioSize } next)
      (fun fault next => Bounded dst ioSize { reading with search := Search.start ioSize } next ∧
        Benign fault) := by
  unfold searchAll
  rw [Ensures.bind_iff, ensures_modifySearch, Ensures.bind_iff]
  apply (ensures_searchCache rfl).mono
  · rintro _ next ⟨collected, cleared, counted⟩
    have weight := counted.front.weight_eq
    have length : next.search.copies.length ≤ ioSize / 4096 := Nat.le_trans counted.few counted.front.2
    rw [Ensures.bind_iff, Ensures.get_iff, Ensures.ite_iff, weight]
    split
    · exact Ensures.pure_iff.mpr ⟨collected, length⟩
    · rename_i more
      rw [Ensures.bind_iff, ensures_modifySearch]
      have starts : RoundStarts ioSize cleared
          { next.search with weight := Bitmap.weight next.search.bitmap } :=
        ⟨⟨counted.front, counted.remain, counted.few⟩, by omega, weight⟩
      have weighed := collected.trans (Collects.account next
        (fun search => { search with weight := Bitmap.weight search.bitmap }) rfl rfl) (Nat.le_refl _)
      apply (RoundStarts.searchRounds small (ioSize / 4096) starts (Nat.le_add_left _ _)).mono
      · intro _ last bounded
        exact ⟨weighed.trans bounded.collected (Nat.le_refl _), bounded.length⟩
      · rintro fault last ⟨bounded, benign⟩
        exact ⟨⟨weighed.trans bounded.collected (Nat.le_refl _), bounded.length⟩, benign⟩
  · exact fun _ _ stopped => stopped

end Search

/-! ## The transfers -/

section Transfers

variable {lower upper : Nat}

/-- The caller's buffer has changed in a range only, and the search is as it was. -/
structure Settled (lower upper : Nat) (reading next : Reading) : Prop where
  search : next.search = reading.search
  outside : forall position, position < lower ∨ upper ≤ position ->
    next.user position = reading.user position

instance : Std.Refl (Settled lower upper) where
  refl := fun _ => ⟨rfl, fun _ _ => rfl⟩

instance : IsTrans Reading (Settled lower upper) where
  trans := fun _ _ _ before after => ⟨after.search.trans before.search,
    fun position outside => (after.outside position outside).trans (before.outside position outside)⟩

theorem bhSubmitReadSyncIo_benign {disk : Disk} {bh : BufferHead} {fault : Fault}
    (failed : bhSubmitReadSyncIo disk bh = .error fault) : Benign fault := by
  unfold bhSubmitReadSyncIo daxRead hddRead fetch at failed
  split at failed <;> (try split at failed) <;> (try split at failed) <;> (try split at failed) <;>
    cases failed <;> simp [Benign]

/-- A copy to a place in the range changes the range only. -/
theorem copy_settles {user source : Nat -> UInt8} {start size : Nat} (first : lower ≤ start)
    (last : start + size ≤ upper) (position : Nat) (outside : position < lower ∨ upper ≤ position) :
    Memory.copy user start source size position = user position :=
  Memory.copy_outside user source (by omega)

theorem ensures_submitRead {transfer : Transfer} (within : transfer.Within lower upper)
    (reading : Reading) :
    Ensures (submitRead transfer) reading (fun _ next => Settled lower upper reading next)
      (fun fault next => Settled lower upper reading next ∧ Benign fault) := by
  unfold submitRead
  rw [Ensures.bind_iff, Ensures.get_iff]
  split
  · rename_i fault failed
    exact Ensures.throw_iff.mpr ⟨Std.Refl.refl _, bhSubmitReadSyncIo_benign failed⟩
  · unfold Transfer.Within at within
    split
    · rename_i position target
      rw [target] at within
      exact Ensures.modify_iff.mpr ⟨rfl, copy_settles within.1 within.2⟩
    · split
      · exact Ensures.throw_iff.mpr ⟨Std.Refl.refl _, benign_segfault⟩
      · exact Ensures.modify_iff.mpr ⟨rfl, fun _ _ => rfl⟩

theorem ensures_submitAll {transfers : List Transfer}
    (within : forall transfer, transfer ∈ transfers -> transfer.Within lower upper) :
    forall reading, Ensures (submitAll transfers) reading
      (fun _ next => Settled lower upper reading next)
      (fun fault next => Settled lower upper reading next ∧ Benign fault) := by
  induction transfers with
  | nil => exact fun reading => Ensures.pure_iff.mpr (Std.Refl.refl reading)
  | cons transfer rest ih =>
      intro reading
      rw [submitAll, Ensures.bind_iff]
      apply (ensures_submitRead (within transfer (List.mem_cons_self ..)) reading).mono
      · intro _ middle before
        apply (ih (fun other member => within other (List.mem_cons_of_mem _ member)) middle).mono
        · exact fun _ last after => IsTrans.trans _ _ _ before after
        · exact fun _ last after => ⟨IsTrans.trans _ _ _ before after.1, after.2⟩
      · exact fun _ _ stopped => stopped

theorem ensures_copyOut {copy : Copy} (within : copy.Within lower upper) (reading : Reading) :
    Ensures (copyOut copy) reading (fun _ next => Settled lower upper reading next)
      (fun fault next => Settled lower upper reading next ∧ Benign fault) := by
  unfold copyOut
  rw [Ensures.bind_iff, Ensures.get_iff]
  split
  · exact Ensures.throw_iff.mpr ⟨Std.Refl.refl _, benign_segfault⟩
  · rename_i contents _
    exact Ensures.modify_iff.mpr ⟨rfl, @copy_settles lower upper reading.user
      (fun index => contents (copy.source + index)) copy.dst copy.size within.1 within.2⟩

/-- The check behind a copy never finds an overrun. -/
theorem ensures_copyAll {copies : List Copy}
    (within : forall copy, copy ∈ copies -> copy.Within lower upper) :
    forall reading, Ensures (copyAll upper copies) reading
      (fun _ next => Settled lower upper reading next)
      (fun fault next => Settled lower upper reading next ∧ Benign fault) := by
  induction copies with
  | nil => exact fun reading => Ensures.pure_iff.mpr (Std.Refl.refl reading)
  | cons copy rest ih =>
      intro reading
      have here := within copy (List.mem_cons_self ..)
      rw [copyAll, Ensures.bind_iff]
      apply (ensures_copyOut here reading).mono
      · intro _ middle before
        rw [if_neg (Nat.not_lt.mpr here.2)]
        apply (ih (fun other member => within other (List.mem_cons_of_mem _ member)) middle).mono
        · exact fun _ last after => IsTrans.trans _ _ _ before after
        · exact fun _ last after => ⟨IsTrans.trans _ _ _ before after.1, after.2⟩
      · exact fun _ _ stopped => stopped

end Transfers

/-! ## The aligned read -/

/-- What an aligned read did when it returned or stopped: the device reads to the
caller and the copies stay in the range of the request, the copies fit the array
`copy_list`, and the caller's memory outside the range is as before. -/
structure InsideBuffer (dst ioSize : Nat) (reading next : Reading) : Prop where
  ios : forall transfer, transfer ∈ next.search.ios -> transfer.Within dst (dst + ioSize)
  copies : forall copy, copy ∈ next.search.copies -> copy.Within dst (dst + ioSize)
  length : next.search.copies.length ≤ ioSize / 4096
  outside : forall position, position < dst ∨ dst + ioSize ≤ position ->
    next.user position = reading.user position

section AlignedRead

variable {ip dst off ioSize : Nat} {reading : Reading}

theorem Bounded.insideBuffer {next : Reading}
    (bounded : Bounded dst ioSize { reading with search := Search.start ioSize } next) :
    InsideBuffer dst ioSize reading next := by
  rcases bounded.collected.ios with ⟨ios, iosEqual, iosIn⟩
  rcases bounded.collected.copies with ⟨copies, copiesEqual, copiesIn⟩
  refine ⟨?_, ?_, bounded.length, fun _ _ => congrFun bounded.collected.user _⟩
  · intro transfer member
    rw [iosEqual] at member
    exact (iosIn transfer member).1
  · intro copy member
    rw [copiesEqual] at member
    exact copiesIn copy member

theorem InsideBuffer.settle {middle next : Reading} (inside : InsideBuffer dst ioSize reading middle)
    (settled : Settled dst (dst + ioSize) middle next) : InsideBuffer dst ioSize reading next := by
  refine ⟨?_, ?_, ?_, ?_⟩
  · rw [settled.search]
    exact inside.ios
  · rw [settled.search]
    exact inside.copies
  · rw [settled.search]
    exact inside.length
  · exact fun position outside =>
      (settled.outside position outside).trans (inside.outside position outside)

theorem ensures_doAlignReadCache1 (small : ioSize < 2 ^ 31) :
    Ensures (doAlignReadCache1 ip dst off ioSize) reading
      (fun _ next => InsideBuffer dst ioSize reading next)
      (fun fault next => InsideBuffer dst ioSize reading next ∧ Benign fault) := by
  unfold doAlignReadCache1
  rw [Ensures.bind_iff]
  apply (ensures_searchAll small reading).mono
  · intro _ searched bounded
    have inside := bounded.insideBuffer
    rw [Ensures.bind_iff, Ensures.get_iff, Ensures.bind_iff]
    apply (ensures_submitAll inside.ios searched).mono
    · intro _ submitted settled
      rw [Ensures.bind_iff]
      apply (ensures_copyAll inside.copies submitted).mono
      · intro _ last copied
        exact Ensures.pure_iff.mpr ((inside.settle settled).settle copied)
      · exact fun fault last stopped => ⟨(inside.settle settled).settle stopped.1, stopped.2⟩
    · exact fun fault last stopped => ⟨inside.settle stopped.1, stopped.2⟩
  · exact fun fault stopped bounded => ⟨bounded.1.insideBuffer, bounded.2⟩

/-- For every block tree, cache and kernel tree, the search makes at most one round
for each block of the request: the bound on the number of rounds is never exceeded. -/
theorem aligned_read_rounds (ip dst off ioSize : Nat) (reading : Reading)
    (small : ioSize < 2 ^ 31) :
    Ensures (doAlignReadCache1 ip dst off ioSize) reading (fun _ _ => True)
      (fun fault _ => fault ≠ .outOfFuel) :=
  (ensures_doAlignReadCache1 small).mono (fun _ _ _ => trivial) (fun _ _ stopped => stopped.2.1)

/-- Four blocks of which two extents hold the first three, and only the kernel would know
the last, with no kernel tree. -/
theorem aligned_read_rounds_two_extents :
    Ensures (doAlignReadCache1 0 0 0 16384)
      (Reading.of { freshStore with inode := fun ip =>
        { Inode.created ip 0 0 0 with
          size := 16384
          blktree := .node ⟨2, 0, 8192, 0⟩ .nil (.node ⟨3, 8192, 4096, 7⟩ .nil .nil) } }
        (fun _ => 0)) (fun _ _ => True)
      (fun fault _ => fault ≠ .outOfFuel) :=
  aligned_read_rounds 0 0 0 16384 _ (by decide)

/-- For every block tree, cache and kernel tree, an aligned read stays inside the
caller's buffer and never reports that it overran it. -/
theorem aligned_read_in_bounds (ip dst off ioSize : Nat) (reading : Reading)
    (small : ioSize < 2 ^ 31) :
    Ensures (doAlignReadCache1 ip dst off ioSize) reading
      (fun _ next => InsideBuffer dst ioSize reading next)
      (fun fault next => InsideBuffer dst ioSize reading next ∧
        fault ≠ .panic "read request overruns the user buffer\n") :=
  (ensures_doAlignReadCache1 small).mono (fun _ _ inside => inside)
    (fun _ _ stopped => ⟨stopped.1, stopped.2.2⟩)

/-- A file whose only extent is longer than the request. -/
theorem aligned_read_in_bounds_long_extent :
    Ensures (doAlignReadCache1 0 100 0 4096)
      (Reading.of { freshStore with inode := fun ip =>
        { Inode.created ip 0 0 0 with size := 8292, blktree := .node ⟨2, 0, 8292, 0⟩ .nil .nil } }
        (fun _ => 0))
      (fun _ next => next.search.copies = [⟨100, 0, 0, 4096⟩] ∧
        forall position, position < 100 ∨ 4196 ≤ position -> next.user position = 0)
      (fun _ _ => False) := by
  have bounds := aligned_read_in_bounds 0 100 0 4096
    (Reading.of { freshStore with inode := fun ip =>
        { Inode.created ip 0 0 0 with size := 8292, blktree := .node ⟨2, 0, 8292, 0⟩ .nil .nil } }
        (fun _ => 0)) (by decide)
  have returned : Ensures (doAlignReadCache1 0 100 0 4096)
      (Reading.of { freshStore with inode := fun ip =>
        { Inode.created ip 0 0 0 with size := 8292, blktree := .node ⟨2, 0, 8292, 0⟩ .nil .nil } }
        (fun _ => 0))
      (fun _ next => next.search.copies = [⟨100, 0, 0, 4096⟩]) (fun _ _ => False) := by
    decide +kernel
  exact (returned.and bounds).mono (fun _ _ both => ⟨both.1, both.2.outside⟩) (fun _ _ both => both.1)

end AlignedRead

end Userfs.Filesystem
