import Userfs.Filesystem.Striping
import Userfs.Library.Refinement

namespace Userfs.Filesystem

open Ds
open Io
open SearchTree

/-!
# Runs of appends

Any number of new files grow by requests of whole blocks, in any order.  Every
piece of a request finds its file striped and leaves it striped, and does not
touch the other files; the run keeps the invariant of all files.  The only way a
run ends early is a transfer that does not fit its device.
-/

section Piece

variable {store next : Store} {ip off size : Nat} {data : Nat -> UInt8}

theorem Sound.appendReady (sound : Sound store) (ip : Nat) : Sound (store.appendReady ip) := by
  by_cases due : (store.inode ip).AppendDue
  · rw [appendReady_pos due]
    exact (sound.allocateChunk ip .append).1
  · rw [appendReady_neg due]
    exact sound

theorem appendReady_size (store : Store) (ip : Nat) :
    ((store.appendReady ip).inode ip).size = (store.inode ip).size := by
  by_cases due : (store.inode ip).AppendDue
  · rw [appendReady_pos due, allocateChunk_inode_self]
    exact (Inode.place_size _ _ _ _).1
  · rw [appendReady_neg due]

/-- The chunk that is allocated for an append is the place of its first byte. -/
theorem Striped.nextChunk_eq (striped : Striped store ip off) {chunk : Nat × Nat}
    (place : Place (store.appendReady ip) ip off chunk) (due : (store.inode ip).AppendDue) :
    store.nextChunk ip = chunk := by
  have full := striped.appendDue_iff.mp due
  have count := striped.count
  have position : off / chunkSize = (store.stripes ip).length := by
    unfold chunkSize at *
    omega
  have found := place.found
  rw [appendReady_pos due, stripes_allocateChunk, position] at found
  simpa using found

/-- The allocation step belongs to its inode, if the chunk it makes current
lies on its device. -/
theorem Striped.framed_appendReady (striped : Striped store ip off) {chunk : Nat × Nat}
    (place : Place (store.appendReady ip) ip off chunk)
    (onDevice : chunk.2 < devSize (chunk.1 + 1)) : Framed ip store (store.appendReady ip) := by
  by_cases due : (store.inode ip).AppendDue
  · have same := striped.nextChunk_eq place due
    rw [appendReady_pos due]
    exact ⟨Apart.allocateChunk store ip .append, advanced_allocateChunk .append (same ▸ onDevice)⟩
  · rw [appendReady_neg due]
    exact Framed.refl ip store

theorem Transferred.framed {bh : BufferHead} {inode : Inode}
    (made : Transferred store next ip off bh inode) : Framed ip store next := by
  have block : next.ssd1Block = store.ssd1Block := by
    unfold Store.ssd1Block
    rw [made.addrinfo]
  exact ⟨made.apart, Nat.le_of_eq block.symm, fun bound => block ▸ bound⟩

/-- What a piece of an append achieves. -/
structure Extends (store next : Store) (ip off size : Nat) : Prop where
  sound : Sound next
  striped : Striped next ip (off + size)
  framed : Framed ip store next
  size : (next.inode ip).size = (store.inode ip).size

/-- A completed append: the chunk that was due is allocated, the piece is transferred
to the cursor, recorded and entered in the block tree. -/
abbrev AppendMade (store next : Store) (ip off size : Nat) (data : Nat -> UInt8) : Prop :=
  Transferred (store.appendReady ip) next ip off
    (((store.appendReady ip).inode ip).appendHead size data)
    (((store.appendReady ip).inode ip).afterAppend
      (store.appendReady ip).environment.rebalancing off size)

/-- A transfer to a place ends on the device of its chunk. -/
theorem Place.fits {chunk : Nat × Nat} (place : Place store ip off chunk)
    (aligned : off % gBlockSizeBytes = 0) {inode : Inode}
    (made : Transferred store next ip off ((store.inode ip).appendHead size data) inode) :
    chunk.2 + off % chunkSize + size ≤ devSize (chunk.1 + 1) := by
  have fits := made.fits
  have dev : ((store.inode ip).appendHead size data).dev = chunk.1 + 1 := place.dev
  rw [place.address aligned, dev] at fits
  exact fits

theorem AppendMade.extends (sound : Sound store) (striped : Striped store ip off)
    (whole : WholePiece off size) (made : AppendMade store next ip off size data) :
    Extends store next ip off size := by
  have ready := striped.ready sound
  have readySound := sound.appendReady ip
  rcases ready.place with ⟨chunk, place, _⟩
  have fits := place.fits whole.start made
  have positive := whole.positive
  refine ⟨⟨?_, ?_, made.layout⟩, ready.appended whole made,
    (striped.framed_appendReady place (by omega)).trans made.framed, ?_⟩
  · rw [made.nvmstartblock]
    exact readySound.start
  · rw [made.addrinfo]
    exact readySound.counter
  · rw [made.inode, Function.update_self, (Inode.afterAppend_fields _ _ _ _).1]
    exact appendReady_size store ip

/-- The last transfer that was issued ends behind its device. -/
def OffDevice (fault : Fault) (store : Store) : Prop :=
  Exists fun ip => Exists fun off => Exists fun bh => fault = .storage bh.dev ∧
    store.events.getLast? = some (.write ip off bh) ∧ devSize bh.dev < bh.address + bh.size

theorem Stopped.offDevice {bh : BufferHead} {fault : Fault}
    (stopped : Stopped store ip off bh fault next) : OffDevice fault next := by
  refine ⟨ip, off, bh, stopped.fault, ?_, stopped.behind⟩
  rw [stopped.events, List.getLast?_concat]

/-- With the cursor where the offset asks for it, the address check passes and the
transfer is made at the cursor, or it does not fit the device. -/
theorem ensures_checkedAppend (layout : Layout store.log) (device : (store.inode ip).devid < 4)
    (addressed : (store.inode ip).ssdoff % chunkSize = off % chunkSize) (positive : 0 < size) :
    Ensures (do
        checkWriteAddr ip off
        appendAtCursor ip off size data) store
      (fun _ next => Transferred store next ip off ((store.inode ip).appendHead size data)
        ((store.inode ip).afterAppend store.environment.rebalancing off size))
      OffDevice := by
  have passes : ¬ (store.inode ip).ssdoff % chunkSize ≠ off % chunkSize := not_not_intro addressed
  simp only [checkWriteAddr, Ensures.bind_iff, ensures_readInode, Ensures.ite_iff, passes,
    ↓reduceIte, Ensures.pure_iff]
  exact (ensures_appendAtCursor layout device positive).mono (fun _ _ made => made)
    (fun _ _ stopped => stopped.offDevice)

/-- `snfs_write` of a whole piece at the end of a file is the append branch of
`aligned_write`. -/
theorem ensures_snfsWrite_atEnd {done : Int -> Store -> Prop} {failed : Fault -> Store -> Prop}
    (atEnd : (store.inode ip).size = off) (whole : WholePiece off size) :
    Ensures (snfsWrite ip data off size) store done failed <->
      Ensures (do
        checkWriteAddr ip off
        appendAtCursor ip off size data) (store.appendReady ip)
        (fun _ next => done size next) failed := by
  have start := whole.start
  have length := whole.length
  have positive := whole.positive
  unfold gBlockSizeBytes at start length
  have floor : blockFloor off = off := by
    unfold blockFloor
    omega
  have large : ¬ size < 4096 := by omega
  simp only [snfsWrite, alignedWrite, alignedAppend, floor, Nat.lt_irrefl, false_and, ↓reduceIte,
    large, Ensures.bind_iff, ensures_readInode, ensures_allocateWhen, atEnd, Ensures.pure_iff]

/-- The piece is appended when the cursor stands where its offset asks for it. -/
theorem ensures_snfsWrite_addressed (layout : Layout (store.appendReady ip).log)
    (device : ((store.appendReady ip).inode ip).devid < 4)
    (addressed : ((store.appendReady ip).inode ip).ssdoff % chunkSize = off % chunkSize)
    (atEnd : (store.inode ip).size = off) (whole : WholePiece off size) :
    Ensures (snfsWrite ip data off size) store
      (fun written next => written = size ∧ AppendMade store next ip off size data)
      OffDevice := by
  rw [ensures_snfsWrite_atEnd atEnd whole]
  exact (ensures_checkedAppend layout device addressed whole.positive).mono
    (fun _ _ made => ⟨rfl, made⟩) (fun _ _ fault => fault)

/-- The cursor of a striped file stands where the append asks for it. -/
theorem ensures_snfsWrite_made (sound : Sound store) (striped : Striped store ip off)
    (atEnd : (store.inode ip).size = off) (whole : WholePiece off size) :
    Ensures (snfsWrite ip data off size) store
      (fun written next => written = size ∧ AppendMade store next ip off size data)
      OffDevice := by
  rcases (striped.ready sound).place with ⟨chunk, place, _⟩
  have device : ((store.appendReady ip).inode ip).devid < 4 := by
    rw [place.cursor.devid]
    exact place.device
  have addressed : ((store.appendReady ip).inode ip).ssdoff % chunkSize = off % chunkSize := by
    have base := place.base
    rw [place.cursor.ssdoff]
    unfold chunkSize at *
    omega
  exact ensures_snfsWrite_addressed (sound.appendReady ip).layout device addressed atEnd whole

end Piece

/-! ## One request -/

section Request

variable {start store : Store} {ip off size : Nat}

/-- The invariant does not depend on the size stored in the inode. -/
theorem Striped.resize (striped : Striped store ip off) (newSize : Inode -> Nat) :
    Striped (store.updateInode ip (fun inode => { inode with size := newSize inode })) ip off := by
  rcases striped with ⟨tracked, accounted, count, fresh, cursor⟩
  refine ⟨⟨tracked.aligned, tracked.covered, tracked.placed, ?_, ?_, ?_, tracked.within,
    tracked.written⟩, ⟨accounted.onDevice, accounted.quota, accounted.bounded⟩, count, ?_, ?_⟩
  all_goals rw [updateInode_inode_self]
  · exact tracked.turn
  · exact tracked.formed
  · exact tracked.assigns
  · exact fresh
  · intro chunk found
    have standing := cursor chunk found
    exact ⟨standing.devid, standing.ssdoff, standing.usednvms⟩

theorem framed_updateInode (store : Store) (ip : Nat) (change : Inode -> Inode) :
    Framed ip store (store.updateInode ip change) :=
  ⟨Apart.updateInode store ip change, Nat.le_refl _, id⟩

/-- The state between two pieces of a request: the file is striped up to the
position, which is also its size, and other files were not touched since the
request started. -/
structure Growing (start store : Store) (ip off : Nat) : Prop where
  sound : Sound store
  striped : Striped store ip off
  size : (store.inode ip).size = off
  framed : Framed ip start store

/-- Setting the size keeps the state, up to the new size. -/
theorem Growing.resize (sound : Sound store) (striped : Striped store ip off)
    (framed : Framed ip start store) {newSize : Inode -> Nat}
    (equal : newSize (store.inode ip) = off) :
    Growing start (store.updateInode ip (fun inode => { inode with size := newSize inode })) ip off := by
  refine ⟨⟨sound.start, sound.counter, sound.layout⟩, striped.resize newSize, ?_,
    framed.trans (framed_updateInode store ip _)⟩
  rw [updateInode_inode_self]
  exact equal

/-- One piece moves the state to the end of the piece. -/
theorem Growing.made (growing : Growing start store ip off) (whole : WholePiece off size)
    {data : Nat -> UInt8} {next : Store} (made : AppendMade store next ip off size data) :
    Ensures (growSize ip (off + size)) next
      (fun _ grown => Growing start grown ip (off + size) ∧ Exists fun newSize : Inode -> Nat =>
        grown = next.updateInode ip (fun inode => { inode with size := newSize inode }))
      OffDevice := by
  have extended := AppendMade.extends growing.sound growing.striped whole made
  have positive := whole.positive
  have size := extended.size.trans growing.size
  unfold growSize
  rw [ensures_modifyInode]
  refine ⟨Growing.resize extended.sound extended.striped (growing.framed.trans extended.framed) ?_,
    _, rfl⟩
  rw [size]
  exact if_pos (by omega)

/-- A request of whole blocks at the end of a striped file, with a further property
that every completed piece and every change of the size keeps. -/
theorem ensures_append_request_keeping (sound : Sound store) (striped : Striped store ip off)
    (atEnd : (store.inode ip).size = off) (buf : Nat -> UInt8) {count : Nat}
    (length : count % gBlockSizeBytes = 0) (small : count < 2 ^ 31) {keeps : Nat -> Store -> Prop}
    (piece : forall done size middle next, Growing store middle ip (off + done) -> keeps done middle ->
      WholePiece (off + done) size ->
      AppendMade middle next ip (off + done) size (fun index => buf (done + index)) ->
      keeps (done + size) next)
    (resize : forall done middle (newSize : Inode -> Nat), keeps done middle ->
      keeps done (middle.updateInode ip (fun inode => { inode with size := newSize inode })))
    (initial : keeps 0 store) :
    Ensures (userfsFileWrite snfsWrite ⟨ip, off, true, true⟩ buf count) store
      (fun result next => result.1 = count ∧ Growing store next ip (off + count) ∧ keeps count next)
      OffDevice := by
  have step : forall position done size middle,
      (position = off + done ∧ Growing store middle ip position ∧ keeps done middle) ->
      WholePiece position size -> done + size ≤ count ->
      Ensures (snfsWrite ip (fun index => buf (done + index)) position size) middle
        (fun written next => written = size ∧ Ensures (growSize ip (position + size)) next
          (fun _ grown => position + size = off + (done + size) ∧
            Growing store grown ip (position + size) ∧ keeps (done + size) grown)
          OffDevice)
        OffDevice := by
    rintro position done size middle ⟨equal, growing, kept⟩ whole _
    subst equal
    apply (ensures_snfsWrite_made growing.sound growing.striped growing.size whole).mono
    · rintro written next ⟨returned, made⟩
      refine ⟨returned, (growing.made whole made).mono ?_ (fun _ _ fault => fault)⟩
      rintro _ grown ⟨grows, newSize, resized⟩
      refine ⟨Nat.add_assoc off done size, grows, ?_⟩
      rw [resized]
      exact resize _ _ _ (piece done size middle next growing kept whole made)
    · exact fun _ _ fault => fault
  have loop : Ensures (userfsFileWrite snfsWrite ⟨ip, off, true, true⟩ buf count) store _ _ :=
    ensures_userfsFileWrite_whole rfl rfl striped.tracked.aligned length small step
      ⟨rfl, ⟨sound, striped, atEnd, Framed.refl ip store⟩, initial⟩
  have sum : finalSize off off count = off + count := by
    unfold finalSize
    split <;> omega
  refine loop.mono ?_ (fun _ _ fault => fault)
  rintro result next ⟨equal, middle, ⟨_, growing, kept⟩, final⟩
  refine ⟨by rw [equal], ?_⟩
  rw [final]
  refine ⟨Growing.resize growing.sound growing.striped growing.framed ?_, resize _ _ _ kept⟩
  rw [atEnd]
  exact sum

/-- A request of whole blocks at the end of a striped file. -/
theorem ensures_append_request (sound : Sound store) (striped : Striped store ip off)
    (atEnd : (store.inode ip).size = off) (buf : Nat -> UInt8) {count : Nat}
    (length : count % gBlockSizeBytes = 0) (small : count < 2 ^ 31) :
    Ensures (userfsFileWrite snfsWrite ⟨ip, off, true, true⟩ buf count) store
      (fun result next => result.1 = count ∧ Growing store next ip (off + count))
      OffDevice := by
  have kept := @ensures_append_request_keeping _ _ _ sound striped atEnd buf _ length small
    (fun _ _ => True) (fun _ _ _ _ _ _ _ _ => trivial) (fun _ _ _ _ => trivial) trivial
  exact kept.mono (fun _ _ made => ⟨made.1, made.2.1⟩) (fun _ _ fault => fault)

end Request

/-! ## Whole runs -/

/-- An append request: a file, its data and their number. -/
structure AppendCall where
  ip : Nat
  buf : Nat -> UInt8
  count : Nat

namespace AppendCall

/-- The request at the end of the file, with what `userfs_file_write` returns. -/
def write (call : AppendCall) : Fs Int := do
  let inode ← readInode call.ip
  let result ← userfsFileWrite snfsWrite ⟨call.ip, inode.size, true, true⟩ call.buf call.count
  pure result.1

/-- The request as a step of a run. -/
def execute (call : AppendCall) : Fs PUnit := do
  let _ ← call.write
  pure PUnit.unit

/-- A request for one of the files, of a positive number of whole blocks. -/
structure Admissible (files : List Nat) (call : AppendCall) : Prop where
  member : call.ip ∈ files
  positive : 0 < call.count
  length : call.count % gBlockSizeBytes = 0
  small : call.count < 2 ^ 31

end AppendCall

/-- A session in which the given files were just created: no space has been
handed out yet, and the kernel's NVM counter is a multiple of 512 blocks. -/
structure NewFiles (files : List Nat) (store : Store) : Prop where
  created : forall ip, ip ∈ files -> Exists fun inum => Exists fun usednvms =>
    Exists fun rwnvmsize => Exists fun height =>
      store.inode ip = Inode.created inum usednvms rwnvmsize height
  counter : 512 ∣ store.addrinfo.nvmBlockAddr
  start : store.nvmstartblock = store.addrinfo.nvmBlockAddr
  layout : Layout store.log
  events : store.events = []

/-- All files of a session are striped up to their size. -/
structure AllStriped (files : List Nat) (store : Store) : Prop where
  sound : Sound store
  striped : forall ip, ip ∈ files -> Striped store ip (store.inode ip).size

theorem NewFiles.allStriped {files : List Nat} {store : Store} (new : NewFiles files store) :
    AllStriped files store := by
  refine ⟨⟨new.start ▸ new.counter, new.counter, new.layout⟩, ?_⟩
  intro ip member
  rcases new.created ip member with ⟨inum, usednvms, rwnvmsize, height, created⟩
  have stripes : store.stripes ip = [] := by
    unfold Store.stripes
    rw [new.events]
    rfl
  rw [created]
  refine ⟨⟨rfl, Nat.zero_le _, ?_, ?_, ?_, ?_, ?_, ?_⟩, ⟨?_, ?_, ?_⟩, ?_, ?_, ?_⟩
  · simp [stripes]
  · rw [stripes, created]
    rfl
  · rw [created]
    exact WellFormed.nil
  · intro offset location
    rw [created]
    simp [Assigns, Inode.created, inorder]
  · simp [new.events]
  · simp [Inode.created]
  · simp [stripes]
  · simp [stripes]
  · simp [stripes]
  · rw [stripes]
    change 0 = (0 + (chunkSize - 1)) / chunkSize
    decide
  · intro _
    rw [created]
    exact ⟨rfl, rfl⟩
  · simp [stripes]

/-- The bytes that a run of requests appends to a file. -/
def appended (ip : Nat) (calls : List AppendCall) : Nat :=
  ((calls.filter (fun call => call.ip = ip)).map AppendCall.count).sum

theorem appended_concat (ip : Nat) (past : List AppendCall) (call : AppendCall) :
    appended ip (past ++ [call]) = appended ip past + if call.ip = ip then call.count else 0 := by
  unfold appended
  by_cases same : call.ip = ip
  · simp [same]
  · simp [same]

/-- After the requests so far all files are striped, and each is as long as its requests
together. -/
structure Grown (files : List Nat) (past : List AppendCall) (store : Store) : Prop where
  all : AllStriped files store
  size : forall ip, ip ∈ files -> (store.inode ip).size = appended ip past

theorem NewFiles.grown {files : List Nat} {store : Store} (new : NewFiles files store) :
    Grown files [] store := by
  refine ⟨new.allStriped, ?_⟩
  intro ip member
  rcases new.created ip member with ⟨inum, usednvms, rwnvmsize, height, created⟩
  rw [created]
  rfl

/-- One request returns its count, keeps all files striped and lengthens its own. -/
theorem ensures_write_allStriped {files : List Nat} {store : Store} {call : AppendCall}
    (all : AllStriped files store) (admissible : call.Admissible files) :
    Ensures call.write store
      (fun result next => result = call.count ∧ AllStriped files next ∧
        forall ip, (next.inode ip).size =
          (store.inode ip).size + if call.ip = ip then call.count else 0)
      OffDevice := by
  have own := all.striped call.ip admissible.member
  unfold AppendCall.write
  simp only [Ensures.bind_iff, ensures_readInode, Ensures.pure_iff]
  refine (ensures_append_request all.sound own rfl call.buf admissible.length
    admissible.small).mono ?_ (fun _ _ fault => fault)
  rintro _ next ⟨returned, growing⟩
  refine ⟨returned, ⟨growing.sound, ?_⟩, ?_⟩
  · intro ip member
    by_cases same : ip = call.ip
    · rw [same, growing.size]
      exact growing.striped
    · rw [growing.framed.inode ip same]
      exact (all.striped ip member).frame growing.framed same
  · intro ip
    by_cases same : call.ip = ip
    · rw [if_pos same, ← same, growing.size]
    · rw [if_neg same, growing.framed.inode ip (Ne.symm same)]
      rfl

theorem ensures_execute_allStriped {files : List Nat} {store : Store} {call : AppendCall}
    (all : AllStriped files store) (admissible : call.Admissible files) :
    Ensures call.execute store (fun _ next => AllStriped files next) OffDevice := by
  simp only [AppendCall.execute, Ensures.bind_iff, Ensures.pure_iff]
  exact (ensures_write_allStriped all admissible).mono (fun _ _ result => result.2.1)
    (fun _ _ fault => fault)

/-- The run lemma: every request returns its count. -/
theorem ensures_writes_grown {files : List Nat} {store : Store} {calls : List AppendCall}
    (new : NewFiles files store)
    (admissible : forall call, call ∈ calls -> call.Admissible files) :
    Ensures (runAnswers AppendCall.write calls) store
      (fun results next => results = calls.map (fun call => (call.count : Int)) ∧
        Grown files calls next)
      OffDevice := by
  apply Ensures.runAnswers (fun past call middle (grown : Grown files past middle) allowed => ?_)
    new.grown admissible
  refine (ensures_write_allStriped grown.all allowed).mono ?_ (fun _ _ fault => fault)
  rintro result next ⟨returned, all, sizes⟩
  refine ⟨returned, all, ?_⟩
  intro ip member
  rw [sizes ip, grown.size ip member, appended_concat]

/-- Append striping.  In any sequence of appends of whole blocks to new files every
call returns its count, and afterwards every file is as long as its calls together.
The extents of every file are disjoint and cover exactly the offsets below its
size, its `k`-th chunk was allocated on device `k mod 4`, the block tree translates
every offset to its place in the chunk allocated for it, and this is where the
byte was written.  A run that does not finish was stopped by a transfer that ends
behind its device; in particular no address check panics. -/
theorem append_runs_stripe (files : List Nat) (store : Store) (calls : List AppendCall)
    (new : NewFiles files store)
    (admissible : forall call, call ∈ calls -> call.Admissible files) :
    Ensures (runAnswers AppendCall.write calls) store
      (fun results next => results = calls.map (fun call => (call.count : Int)) ∧
        forall ip, ip ∈ files ->
          (next.inode ip).size =
            ((calls.filter (fun call => call.ip = ip)).map AppendCall.count).sum ∧
          (inorder (next.inode ip).blktree).Pairwise Block.Disjoint ∧
          (forall offset,
            (Exists fun block => block ∈ inorder (next.inode ip).blktree ∧ block.Covers offset) <->
              offset < (next.inode ip).size) ∧
          (forall index chunk, (chunks ip .append next.events)[index]? = some chunk ->
            chunk.1 = index % 4) ∧
          (forall offset, offset < (next.inode ip).size -> Exists fun chunk =>
            (chunks ip .append next.events)[offset / chunkSize]? = some chunk ∧
              translation (next.inode ip).blktree offset =
                some (chunk.1 + 1, chunk.2 + offset % chunkSize)) ∧
          (forall offset, offset < (next.inode ip).size -> Exists fun off => Exists fun bh =>
            .write ip off bh ∈ next.events ∧ off ≤ offset ∧ offset < off + bh.size) ∧
          (forall off bh offset, .write ip off bh ∈ next.events -> off ≤ offset ->
            offset < off + bh.size ->
            translation (next.inode ip).blktree offset =
              some (bh.dev, bh.address + (offset - off))))
      OffDevice := by
  refine (ensures_writes_grown new admissible).mono ?_ (fun _ _ fault => fault)
  rintro _ next ⟨returned, grown⟩
  refine ⟨returned, ?_⟩
  intro ip member
  have tracked := (grown.all.striped ip member).tracked
  have formed := tracked.formed
  have lookup : forall offset location, translation (next.inode ip).blktree offset = some location <->
      offset < (next.inode ip).size ∧ LocatedAt (next.stripes ip) offset location := by
    intro offset location
    rw [formed.translation_eq_some, tracked.assigns]
  have present : forall offset, offset < (next.inode ip).size -> Exists fun chunk =>
      (next.stripes ip)[offset / chunkSize]? = some chunk := by
    intro offset bound
    have inside : offset / chunkSize < (next.stripes ip).length :=
      Nat.div_lt_of_lt_mul (by
        rw [Nat.mul_comm]
        exact Nat.lt_of_lt_of_le bound tracked.covered)
    exact ⟨_, List.getElem?_eq_getElem inside⟩
  refine ⟨grown.size ip member, formed.separated.disjoint, ?_, ?_, ?_, tracked.written, ?_⟩
  · intro offset
    constructor
    · rintro ⟨block, blockMember, covers⟩
      exact ((tracked.assigns offset _).mp ⟨block, blockMember, covers, rfl⟩).1
    · intro bound
      rcases present offset bound with ⟨chunk, found⟩
      rcases (tracked.assigns offset _).mpr ⟨bound, chunk, found, rfl⟩ with
        ⟨block, blockMember, covers, _⟩
      exact ⟨block, blockMember, covers⟩
  · intro index chunk found
    exact (tracked.placed index chunk found).1
  · intro offset bound
    rcases present offset bound with ⟨chunk, found⟩
    exact ⟨chunk, found, (lookup offset _).mpr ⟨bound, chunk, found, rfl⟩⟩
  · intro off bh offset member lower upper
    have inside := tracked.within off bh member
    exact (lookup offset _).mpr ⟨by omega, inside.2 offset lower upper⟩

theorem newFiles_freshStore (files : List Nat) : NewFiles files freshStore where
  created := fun ip _ => ⟨ip, 0, 0, 0, rfl⟩
  counter := ⟨1, rfl⟩
  start := rfl
  layout := layout_loginit _
  events := rfl

/-- Two files that grow by one block and by two, in turn. -/
@[irreducible]
def twoFileCalls : List AppendCall :=
  [⟨0, fun _ => 1, 4096⟩, ⟨1, fun _ => 2, 8192⟩, ⟨0, fun _ => 3, 8192⟩]

theorem append_runs_stripe_two_files :
    (forall call, call ∈ twoFileCalls -> call.Admissible [0, 1]) ∧
      Ensures (runAnswers AppendCall.write twoFileCalls) freshStore
        (fun results next => results = [4096, 8192, 8192] ∧
          (next.inode 0).size = 12288 ∧ (next.inode 1).size = 8192 ∧
          forall ip, ip ∈ [0, 1] ->
            (inorder (next.inode ip).blktree).Pairwise Block.Disjoint ∧
            forall offset, offset < (next.inode ip).size -> Exists fun chunk =>
              (chunks ip .append next.events)[offset / chunkSize]? = some chunk ∧
                translation (next.inode ip).blktree offset =
                  some (chunk.1 + 1, chunk.2 + offset % chunkSize))
        (fun _ _ => False) := by
  have admissible : forall call, call ∈ twoFileCalls -> call.Admissible [0, 1] := by
    intro call member
    unfold twoFileCalls at member
    simp only [List.mem_cons, List.not_mem_nil, or_false] at member
    rcases member with same | same | same <;> subst same <;>
      exact ⟨by simp, by simp, rfl, by simp⟩
  have sizes : appended 0 twoFileCalls = 12288 ∧ appended 1 twoFileCalls = 8192 ∧
      twoFileCalls.map (fun call => (call.count : Int)) = [4096, 8192, 8192] := by
    unfold twoFileCalls
    decide
  -- no transfer of the run is behind its device
  have returns : Ensures (runAnswers AppendCall.write twoFileCalls) freshStore (fun _ _ => True)
      (fun _ _ => False) := by
    unfold twoFileCalls
    decide +kernel
  refine ⟨admissible, ?_⟩
  refine (returns.and (append_runs_stripe [0, 1] freshStore twoFileCalls (newFiles_freshStore [0, 1])
    admissible)).mono ?_ (fun _ _ fault => fault.1)
  rintro results next ⟨_, returned, striped⟩
  refine ⟨returned.trans sizes.2.2, (striped 0 (by simp)).1.trans sizes.1,
    (striped 1 (by simp)).1.trans sizes.2.1, ?_⟩
  intro ip member
  rcases striped ip member with ⟨_, disjoint, _, _, translated, _⟩
  exact ⟨disjoint, translated⟩

end Userfs.Filesystem
