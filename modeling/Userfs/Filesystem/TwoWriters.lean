import Userfs.Filesystem.FileSize
import Userfs.Filesystem.WriteSteps
import Userfs.Library.SampledMaximum

namespace Userfs.Filesystem

open SampledMaximum
open Word

/-!
# Two writers on one file

The steps of a write call are moves of a sampled maximum: the call reads the inode
size twice, raises it piece by piece, and stores what it decided on.  Two calls on
handles of one file leave the size at least at both ends if a call that ends while
the other one is under way has the smaller end offset, or ends inside the file as
it was before both.  Otherwise a file can shrink below a completed write.
-/

/-! ## The steps as moves of a sampled maximum -/

/-- The stage of a call: what it has read of the size, or what it will store. -/
def Writer.stage (writer : Writer) : Stage Nat :=
  match writer.phase with
  | .sample => .idle
  | .compare => .sampled writer.fileSize
  | .prepend => .busy writer.fileSize
  | .aligned => .busy writer.fileSize
  | .append => .busy writer.fileSize
  | .store => .busy writer.fileSize
  | .returned _ => .returned

/-- Bytes that a call is sure to write still: all of them at first, later the
unaligned parts that are left. -/
def Writer.reserve (writer : Writer) : Nat :=
  match writer.phase with
  | .sample => writer.count
  | .compare => writer.count
  | .prepend => writer.sizePrepended + writer.sizeAppended
  | .aligned => writer.sizeAppended
  | .append => writer.sizeAppended
  | _ => 0

section Reserve

variable (writer : Writer) (off done : Nat)

theorem Writer.reserve_aligned : (writer.advance off done .aligned).reserve = writer.sizeAppended :=
  rfl

theorem Writer.reserve_append : (writer.advance off done .append).reserve = writer.sizeAppended :=
  rfl

theorem Writer.reserve_store : (writer.advance off done .store).reserve = 0 :=
  rfl

theorem Writer.stage_aligned : (writer.advance off done .aligned).stage = .busy writer.fileSize :=
  rfl

theorem Writer.stage_append : (writer.advance off done .append).stage = .busy writer.fileSize :=
  rfl

end Reserve

/-- The end of the bytes that a request writes. -/
def writtenEnd (off count : Nat) : Nat :=
  if 0 < count then off + count else 0

/-- A call for a given request whose position agrees with its progress. -/
structure Writer.Placed (writer : Writer) (ip off count : Nat) : Prop where
  ip : writer.file.ip = ip
  writable : writer.file.writable = true
  counted : writer.count = count
  offsetEnd : writer.offsetEnd = off + count
  position : writer.file.off = off + writer.done
  room : writer.done + writer.reserve ≤ count

theorem Writer.placed_start {file : File} (buf : Nat -> UInt8) (count : Nat)
    (writable : file.writable = true) :
    (Writer.start file buf count).Placed file.ip file.off count :=
  ⟨rfl, writable, rfl, rfl, rfl, Nat.le_of_eq (Nat.zero_add count)⟩

/-- What the pieces do to the size of the file: nothing, or raise it to an offset
that is not beyond a bound. -/
def Raised (bound size next : Nat) : Prop :=
  next = size ∨ Exists fun reached => reached ≤ bound ∧ next = max size reached

theorem Raised.moves {initial bound other size next target : Nat} {theirs : Stage Nat}
    (raised : Raised bound size next) :
    Moves initial bound other theirs size (.busy target) next (.busy target) := by
  rcases raised with same | ⟨reached, bounded, equal⟩
  · rw [same]
    exact .wait _ _
  · rw [equal]
    exact .raise _ _ _ bounded

/-- The size raised behind a piece. -/
theorem growSize_raised {ip reached bound : Nat} {store middle : Store}
    (same : SameSize store middle) (within : reached ≤ bound) :
    Ensures (growSize ip reached) middle
      (fun _ next => Raised bound (store.inode ip).size (next.inode ip).size) (fun _ _ => True) := by
  unfold growSize
  rw [ensures_modifyInode, updateInode_inode_self, same ip]
  refine .inr ⟨reached, within, ?_⟩
  simp only
  split <;> omega

theorem writeEdge_raised {ip size off done bound : Nat} {buf : Nat -> UInt8} {store : Store}
    (within : 0 < size -> off + size ≤ bound) :
    Ensures (writeEdge snfsWrite ip buf size off done) store
      (fun position next => position = (off + size, done + size) ∧
        Raised bound (store.inode ip).size (next.inode ip).size) (fun _ _ => True) := by
  unfold writeEdge
  rw [Ensures.ite_iff]
  by_cases positive : 0 < size
  · rw [if_pos positive, Ensures.bind_iff]
    refine (returns_snfsWrite _ _ _ _ store).mono ?_ (fun _ _ _ => trivial)
    rintro written middle ⟨equal, same⟩
    subst equal
    simp only [Ensures.ite_iff, Ensures.bind_iff, Ensures.throw_iff, Ensures.pure_iff,
      Int.toNat_natCast]
    split
    · refine (growSize_raised same (within positive)).mono ?_ (fun _ _ _ => trivial)
      exact fun _ _ raised => ⟨trivial, raised⟩
    · trivial
  · have empty : size = 0 := by omega
    rw [if_neg positive, empty]
    exact Ensures.pure_iff.mpr ⟨rfl, .inl rfl⟩

section Moves

variable {writer : Writer} {ip off count : Nat} {store : Store}

/-- A placed call that has moved on inside its request. -/
theorem Writer.Placed.advance {size rest : Nat} {next : WritePhase}
    (placed : writer.Placed ip off count)
    (left : (writer.advance (writer.file.off + size) (writer.done + size) next).reserve = rest)
    (room : writer.done + size + rest ≤ count) :
    (writer.advance (writer.file.off + size) (writer.done + size) next).Placed ip off count := by
  have position := placed.position
  have ended : writer.file.off + size = off + (writer.done + size) := by omega
  exact ⟨placed.ip, placed.writable, placed.counted, placed.offsetEnd, ended, by rw [left]; exact room⟩

theorem Writer.Placed.within {size : Nat} (placed : writer.Placed ip off count)
    (room : writer.done + size ≤ count) (positive : 0 < count) :
    writer.file.off + size ≤ writtenEnd off count := by
  have position := placed.position
  unfold writtenEnd
  rw [if_pos positive]
  omega

/-- An unaligned piece of a placed call. -/
theorem Writer.edge_raised {size rest : Nat} {next : WritePhase}
    (placed : writer.Placed ip off count)
    (left : (writer.advance (writer.file.off + size) (writer.done + size) next).reserve = rest)
    (room : writer.done + size + rest ≤ count) :
    Ensures (writer.edge snfsWrite size next) store
      (fun after end' => after.Placed ip off count ∧
        after = writer.advance (writer.file.off + size) (writer.done + size) next ∧
        Raised (writtenEnd off count) (store.inode ip).size (end'.inode ip).size)
      (fun _ _ => True) := by
  unfold Writer.edge
  rw [Ensures.bind_iff, placed.ip]
  have within : 0 < size -> writer.file.off + size ≤ writtenEnd off count :=
    fun positive => placed.within (by omega) (by omega)
  refine (writeEdge_raised within).mono ?_ (fun _ _ _ => trivial)
  rintro position after ⟨equal, raised⟩
  subst equal
  exact Ensures.pure_iff.mpr ⟨placed.advance left room, rfl, raised⟩

/-- An iteration of the loop of a placed call. -/
theorem Writer.iterate_raised (placed : writer.Placed ip off count) (phase : writer.phase = .aligned) :
    Ensures (writer.iterate snfsWrite) store
      (fun next after => next.Placed ip off count ∧ next.stage = .busy writer.fileSize ∧
        Raised (writtenEnd off count) (store.inode ip).size (after.inode ip).size)
      (fun _ _ => True) := by
  have room : writer.done + writer.sizeAppended ≤ count := by
    have room := placed.room
    rwa [Writer.reserve, phase] at room
  have counted := placed.counted
  unfold Writer.iterate
  simp only [Ensures.ite_iff, Ensures.throw_iff, Ensures.bind_iff, Ensures.pure_iff]
  by_cases more : writer.done < writer.count - writer.sizeAppended
  · rw [if_pos more]
    by_cases start : writer.file.off % gBlockSizeBytes ≠ 0
    · rw [if_pos start]
      trivial
    · rw [if_neg start]
      have size := nextIoSize_le writer.file.off (writer.count - writer.sizeAppended - writer.done)
      generalize nextIoSize writer.file.off (writer.count - writer.sizeAppended - writer.done) = ioSize
        at size ⊢
      refine (returns_snfsWrite _ _ _ _ store).mono ?_ (fun _ _ _ => trivial)
      rintro written middle ⟨equal, same⟩
      subst equal
      have notNegative : ¬ (ioSize : Int) < 0 := by omega
      have exactly : ¬ (ioSize : Int) ≠ ioSize := fun different => different rfl
      have ahead := @Writer.Placed.advance writer ip off count ioSize writer.sizeAppended .aligned
        placed (writer.reserve_aligned _ _) (by omega)
      have within := @Writer.Placed.within writer ip off count ioSize placed (by omega) (by omega)
      rw [if_neg notNegative, if_neg exactly, Int.toNat_natCast, placed.ip]
      by_cases positive : 0 < (ioSize : Int)
      · rw [if_pos positive]
        refine (growSize_raised same within).mono ?_ (fun _ _ _ => trivial)
        intro _ after raised
        rw [if_neg notNegative, if_neg exactly]
        exact ⟨ahead, writer.stage_aligned _ _, raised⟩
      · rw [if_neg positive]
        exact ⟨ahead, writer.stage_aligned _ _, .inl (same ip)⟩
  · rw [if_neg more]
    have ended := @Writer.Placed.advance writer ip off count 0 writer.sizeAppended .append placed
      (writer.reserve_append _ _) (by omega)
    exact ⟨ended, writer.stage_append _ _, .inl rfl⟩

/-- The decision of `userfs_file_write`, by the end of the bytes written. -/
theorem decide_size (off count size first : Nat) :
    (if 0 < count ∧ size < off + count then off + count else first) =
      if size < writtenEnd off count then writtenEnd off count else first := by
  unfold writtenEnd
  by_cases positive : 0 < count
  · simp only [positive, true_and, if_true]
  · simp only [positive, false_and, if_false, Nat.not_lt_zero]

/-- One step of a placed call is a move of the sampled maximum.  The final store
has to respect the order of the two ends. -/
theorem Writer.step_moves {initial other : Nat} {theirs : Stage Nat}
    (placed : writer.Placed ip off count)
    (ordered : writer.phase = .store -> theirs.Inside ->
      writtenEnd off count < other ∨ writtenEnd off count ≤ initial) :
    Ensures (writer.step snfsWrite) store
      (fun next after => next.Placed ip off count ∧
        Moves initial (writtenEnd off count) other theirs (store.inode ip).size writer.stage
          (after.inode ip).size next.stage)
      (fun _ _ => True) := by
  have room := placed.room
  have counted := placed.counted
  cases phase : writer.phase with
  | sample =>
      rw [Writer.ensures_sample phase, if_neg (by simp [placed.writable]), placed.ip]
      refine ⟨⟨placed.ip, placed.writable, counted, placed.offsetEnd, placed.position, ?_⟩, ?_⟩
      · simpa only [Writer.reserve, phase] using room
      · simp only [Writer.stage, phase]
        exact .sample _
  | compare =>
      rw [Writer.ensures_compare phase]
      by_cases other : writer.file.isInode = false
      · rw [if_pos other]
        trivial
      · rw [if_neg other]
        by_cases wide : gBlockSizeBytes ≤ (splitRequest writer.file.off writer.count).1
        · rw [if_pos wide]
          trivial
        · rw [if_neg wide, placed.ip]
          have small := splitRequest_le writer.file.off writer.count
          rw [Writer.reserve, phase] at room
          refine ⟨⟨placed.ip, placed.writable, counted, placed.offsetEnd, placed.position, ?_⟩, ?_⟩
          · simp only [Writer.reserve, Writer.decided] at room ⊢
            omega
          · simp only [Writer.stage, Writer.decided, phase, counted, placed.offsetEnd]
            rw [decide_size]
            exact .compare _ _
  | prepend =>
      simp only [Writer.reserve, phase] at room
      simp only [Writer.step, phase]
      refine (@Writer.edge_raised writer ip off count store writer.sizePrepended
        writer.sizeAppended .aligned placed (writer.reserve_aligned _ _) (by omega)).mono ?_ (fun _ _ _ => trivial)
      rintro next after ⟨ahead, equal, raised⟩
      subst equal
      simp only [Writer.stage, Writer.advance, phase]
      exact ⟨ahead, raised.moves⟩
  | aligned =>
      have stage : writer.stage = .busy writer.fileSize := by simp only [Writer.stage, phase]
      simp only [Writer.step, phase]
      refine (Writer.iterate_raised placed phase).mono ?_ (fun _ _ _ => trivial)
      rintro next after ⟨ahead, same, raised⟩
      rw [stage, same]
      exact ⟨ahead, raised.moves⟩
  | append =>
      simp only [Writer.reserve, phase] at room
      simp only [Writer.step, phase]
      refine (@Writer.edge_raised writer ip off count store writer.sizeAppended 0 .store placed
        (writer.reserve_store _ _) (by omega)).mono ?_ (fun _ _ _ => trivial)
      rintro next after ⟨ahead, equal, raised⟩
      subst equal
      simp only [Writer.stage, Writer.advance, phase]
      exact ⟨ahead, raised.moves⟩
  | store =>
      rw [Writer.ensures_store phase, placed.ip, updateInode_inode_self]
      refine ⟨⟨placed.ip, placed.writable, counted, placed.offsetEnd, placed.position, ?_⟩, ?_⟩
      · simpa only [Writer.reserve, phase] using room
      · simp only [Writer.stage, phase]
        exact .store _ _ (ordered phase)
  | returned result =>
      simp only [Writer.step, phase, Ensures.pure_iff]
      exact ⟨placed, .wait _ _⟩

end Moves

/-! ## Calls on a handle that is not writable -/

/-- A call that is refused or about to be. -/
def Writer.Refused (writer : Writer) : Prop :=
  writer.file.writable = false ∧ (writer.phase = .sample ∨ writer.phase = .returned (-1))

theorem Writer.Refused.step {writer : Writer} (refused : writer.Refused) (store : Store) :
    Ensures (writer.step snfsWrite) store (fun next after => next.Refused ∧ after = store)
      (fun _ _ => True) := by
  rcases refused with ⟨readOnly, phase | phase⟩
  · rw [Writer.ensures_sample phase, if_pos readOnly]
    exact ⟨⟨readOnly, .inr rfl⟩, rfl⟩
  · simp only [Writer.step, phase, Ensures.pure_iff]
    exact ⟨⟨readOnly, .inr phase⟩, trivial⟩

theorem Writer.Refused.phase_ne {writer : Writer} (refused : writer.Refused) (count : Nat) :
    writer.phase ≠ .returned (count : Int) := by
  rcases refused.2 with phase | phase
  · rw [phase]
    exact fun equal => WritePhase.noConfusion equal
  · rw [phase]
    intro equal
    have negative : (-1 : Int) = count := WritePhase.returned.inj equal
    omega

/-! ## The two calls -/

/-- Two calls under way on one store. -/
structure WritePair where
  store : Store
  first : Writer
  second : Writer

/-- Which call takes the next step. -/
inductive Turn where
  | first
  | second
deriving DecidableEq, Repr

namespace Turn

def other : Turn -> Turn
  | .first => .second
  | .second => .first

end Turn

namespace WritePair

/-- The call whose turn it is. -/
def writer (pair : WritePair) : Turn -> Writer
  | .first => pair.first
  | .second => pair.second

/-- The calls behind a step of one of them. -/
def put (pair : WritePair) (turn : Turn) (writer : Writer) (store : Store) : WritePair :=
  match turn with
  | .first => ⟨store, writer, pair.second⟩
  | .second => ⟨store, pair.first, writer⟩

@[simp]
theorem put_writer_self (pair : WritePair) (turn : Turn) (writer : Writer) (store : Store) :
    (pair.put turn writer store).writer turn = writer := by
  cases turn <;> rfl

@[simp]
theorem put_writer_other (pair : WritePair) (turn : Turn) (writer : Writer) (store : Store) :
    (pair.put turn writer store).writer turn.other = pair.writer turn.other := by
  cases turn <;> rfl

@[simp]
theorem put_store (pair : WritePair) (turn : Turn) (writer : Writer) (store : Store) :
    (pair.put turn writer store).store = store := by
  cases turn <;> rfl

/-- One step of one of the calls. -/
def take (turn : Turn) : EStateM Fault WritePair PUnit := fun pair =>
  match ((pair.writer turn).step snfsWrite).run pair.store with
  | .ok next store => .ok PUnit.unit (pair.put turn next store)
  | .error fault store => .error fault { pair with store := store }

theorem ensures_take {turn : Turn} {pair : WritePair} {done : PUnit -> WritePair -> Prop}
    {failed : Fault -> WritePair -> Prop} :
    Ensures (take turn) pair done failed <->
      Ensures ((pair.writer turn).step snfsWrite) pair.store
        (fun next store => done PUnit.unit (pair.put turn next store))
        (fun fault store => failed fault { pair with store := store }) := by
  unfold Ensures
  simp only [take, EStateM.run]
  cases (pair.writer turn).step snfsWrite pair.store <;> rfl

/-- The condition on a step: a call that stores the size while the other one has
read it and not stored it yet ends before the other one, or inside the file as it
was before both. -/
def Ordered (initial : Nat) (turn : Turn) (pair : WritePair) : Prop :=
  (pair.writer turn).phase = .store -> (pair.writer turn.other).stage.Inside ->
    (pair.writer turn).offsetEnd < (pair.writer turn.other).offsetEnd ∨
      (pair.writer turn).offsetEnd ≤ initial

instance (initial : Nat) (turn : Turn) (pair : WritePair) : Decidable (Ordered initial turn pair) :=
  inferInstanceAs (Decidable (_ -> _ -> _))

/-- Two calls for requests on one file, before either takes a step. -/
def start (store : Store) (files : Turn -> File) (bufs : Turn -> Nat -> UInt8)
    (counts : Turn -> Nat) : WritePair where
  store := store
  first := Writer.start (files .first) (bufs .first) (counts .first)
  second := Writer.start (files .second) (bufs .second) (counts .second)

/-- The size of the file both calls write. -/
def size (pair : WritePair) (ip : Nat) : Nat :=
  (pair.store.inode ip).size

section Run

variable {initial ip : Nat} {offs counts : Turn -> Nat} {pair : WritePair} {turn : Turn}

/-- Both calls are on their way through their requests, and the size is a maximum
that they have sampled. -/
structure Running (initial ip : Nat) (offs counts : Turn -> Nat) (pair : WritePair) : Prop where
  placed : forall turn, (pair.writer turn).Placed ip (offs turn) (counts turn)
  kept : forall turn, Kept initial (writtenEnd (offs turn) (counts turn))
    (writtenEnd (offs turn.other) (counts turn.other)) (pair.size ip) (pair.writer turn).stage
    (pair.writer turn.other).stage

theorem other_other (turn : Turn) : turn.other.other = turn := by
  cases turn <;> rfl

theorem eq_or_other (turn asked : Turn) : asked = turn ∨ asked = turn.other := by
  cases turn <;> cases asked <;> simp [Turn.other]

/-- The order of the end offsets is the order of the bytes written: a request of
no bytes starts inside the file. -/
theorem Running.ordered (running : Running initial ip offs counts pair)
    (reached : forall turn, counts turn = 0 -> offs turn ≤ initial)
    (ordered : Ordered initial turn pair) :
    (pair.writer turn).phase = .store -> (pair.writer turn.other).stage.Inside ->
      writtenEnd (offs turn) (counts turn) < writtenEnd (offs turn.other) (counts turn.other) ∨
        writtenEnd (offs turn) (counts turn) ≤ initial := by
  intro phase inside
  have ends := ordered phase inside
  rw [(running.placed turn).offsetEnd, (running.placed turn.other).offsetEnd] at ends
  have empty := reached turn.other
  unfold writtenEnd
  split <;> split <;> omega

/-- A step of either call. -/
theorem Running.take (running : Running initial ip offs counts pair)
    (reached : forall turn, counts turn = 0 -> offs turn ≤ initial)
    (ordered : Ordered initial turn pair) :
    Ensures (WritePair.take turn) pair (fun _ next => Running initial ip offs counts next)
      (fun _ _ => True) := by
  rw [ensures_take]
  have moved := @Writer.step_moves (pair.writer turn) ip (offs turn) (counts turn) pair.store initial
    (writtenEnd (offs turn.other) (counts turn.other)) (pair.writer turn.other).stage
    (running.placed turn) (running.ordered reached ordered)
  refine moved.mono ?_ (fun _ _ _ => trivial)
  rintro next store ⟨placed, moves⟩
  have mine := (running.kept turn).move moves
  constructor
  case placed =>
    intro asked
    rcases eq_or_other turn asked with same | same
    · rw [same, put_writer_self]
      exact placed
    · rw [same, put_writer_other]
      exact running.placed turn.other
  case kept =>
    intro asked
    unfold size
    rw [put_store]
    rcases eq_or_other turn asked with same | same
    · rw [same, put_writer_self, put_writer_other]
      exact mine
    · rw [same, other_other, put_writer_self, put_writer_other]
      exact mine.symm

/-- The invariant of an interleaving: a call was refused and cannot return its
count, or both run. -/
def Proceeds (initial ip : Nat) (offs counts : Turn -> Nat) (pair : WritePair) : Prop :=
  (Exists fun turn => (pair.writer turn).Refused) ∨ Running initial ip offs counts pair

theorem Proceeds.take (proceeds : Proceeds initial ip offs counts pair)
    (reached : forall turn, counts turn = 0 -> offs turn ≤ initial)
    (ordered : Ordered initial turn pair) :
    Ensures (WritePair.take turn) pair (fun _ next => Proceeds initial ip offs counts next)
      (fun _ _ => True) := by
  rcases proceeds with ⟨asked, refused⟩ | running
  · rcases eq_or_other turn asked with same | same
    · rw [ensures_take, ← same]
      refine (refused.step pair.store).mono ?_ (fun _ _ _ => trivial)
      rintro next store ⟨still, _⟩
      exact .inl ⟨asked, by rw [put_writer_self]; exact still⟩
    · rw [ensures_take]
      refine Ensures.always.mono ?_ (fun _ _ _ => trivial)
      intro next store _
      exact .inl ⟨asked, by rw [same, put_writer_other, ← same]; exact refused⟩
  · exact (running.take reached ordered).mono (fun _ _ kept => .inr kept) (fun _ _ _ => trivial)

theorem proceeds_start (store : Store) {files : Turn -> File} (bufs : Turn -> Nat -> UInt8)
    (counts : Turn -> Nat) (oneFile : (files .first).ip = (files .second).ip) :
    Proceeds (store.inode (files .first).ip).size (files .first).ip
      (fun turn => (files turn).off) counts (start store files bufs counts) := by
  by_cases firstWritable : (files .first).writable = true
  · by_cases secondWritable : (files .second).writable = true
    · refine .inr ⟨?_, ?_⟩
      · intro turn
        cases turn with
        | first => exact Writer.placed_start _ _ firstWritable
        | second =>
            rw [oneFile]
            exact Writer.placed_start _ _ secondWritable
      · intro turn
        cases turn <;> exact Kept.start _ _ _
    · exact .inl ⟨.second, (Bool.not_eq_true _).mp secondWritable, .inl rfl⟩
  · exact .inl ⟨.first, (Bool.not_eq_true _).mp firstWritable, .inl rfl⟩

theorem Proceeds.returned (proceeds : Proceeds initial ip offs counts pair)
    (reached : forall turn, counts turn = 0 -> offs turn ≤ initial)
    (returned : forall turn, (pair.writer turn).phase = .returned (counts turn : Int)) :
    initial ≤ pair.size ip ∧ forall turn, offs turn + counts turn ≤ pair.size ip := by
  rcases proceeds with ⟨turn, refused⟩ | running
  · exact absurd (returned turn) (refused.phase_ne _)
  · have stages : forall turn, (pair.writer turn).stage = .returned := by
      intro turn
      unfold Writer.stage
      rw [returned turn]
    refine ⟨(running.kept .first).lower, ?_⟩
    intro turn
    have kept := running.kept turn
    rw [stages, stages] at kept
    have bounds := kept.returned
    have empty := reached turn
    unfold writtenEnd at bounds
    split at bounds <;> omega

end Run

end WritePair

/-- Two writers never shrink a file as long as their final stores are in order.
For every interleaving of two calls of `userfs_file_write` on handles of one file
in which a call that stores the size while the other one is under way has the
smaller end offset, or ends inside the file as it was: once both have returned
their counts, the size is at least the end of each write and at least the size
before both.  A write of no bytes must start inside the file. -/
theorem two_writers_keep_size (store : Store) (files : Turn -> File) (bufs : Turn -> Nat -> UInt8)
    (counts : Turn -> Nat) (oneFile : (files .first).ip = (files .second).ip)
    (reached : forall turn, counts turn = 0 ->
      (files turn).off ≤ (store.inode (files .first).ip).size)
    (turns : List Turn)
    (guarded : Guarded WritePair.take (WritePair.Ordered (store.inode (files .first).ip).size) turns
      (WritePair.start store files bufs counts)) :
    Ensures (runAll WritePair.take turns) (WritePair.start store files bufs counts)
      (fun _ pair => (forall turn, (pair.writer turn).phase = .returned (counts turn : Int)) ->
        (store.inode (files .first).ip).size ≤ pair.size (files .first).ip ∧
          forall turn, (files turn).off + counts turn ≤ pair.size (files .first).ip)
      (fun _ _ => True) := by
  have run := Ensures.runAll_guarded_state
    (fun turn pair proceeds ordered => WritePair.Proceeds.take proceeds reached ordered)
    (WritePair.proceeds_start store bufs counts oneFile) guarded
  refine run.mono ?_ (fun _ _ _ => trivial)
  intro _ pair proceeds returned
  exact proceeds.returned reached returned

/-- Two handles at the start of file 0. -/
def twoHandles (_ : Turn) : File :=
  ⟨0, 0, true, true⟩

/-- The second call reads the size twice, the first one runs to its end, and the
second one follows. -/
def sampleFirst : List Turn :=
  List.replicate 2 .second ++ List.replicate 7 .first ++ List.replicate 5 .second

/-- A handle at the start of file 0 and one at its second block. -/
def adjacentHandles (turn : Turn) : File :=
  ⟨0, if turn = .first then 0 else 4096, true, true⟩

/-- Each call writes one block.  The second one has read the size before the first one
starts, both return their counts, and the call that stores last is the one that ends
last. -/
theorem two_writers_keep_size_longer_last :
    Ensures (runAll WritePair.take sampleFirst)
      (WritePair.start freshStore adjacentHandles (fun _ _ => 1) (fun _ => 4096))
      (fun _ pair => (forall turn, (pair.writer turn).phase = .returned 4096) ∧
        (freshStore.inode (adjacentHandles .first).ip).size ≤ pair.size (adjacentHandles .first).ip ∧
          forall turn, (adjacentHandles turn).off + 4096 ≤ pair.size (adjacentHandles .first).ip)
      (fun _ _ => False) := by
  have returns : Ensures (runAll WritePair.take sampleFirst)
      (WritePair.start freshStore adjacentHandles (fun _ _ => 1) (fun _ => 4096))
      (fun _ pair => (pair.writer .first).phase = .returned 4096 ∧
        (pair.writer .second).phase = .returned 4096)
      (fun _ _ => False) := by
    decide +kernel
  have general := two_writers_keep_size freshStore adjacentHandles (fun _ _ => 1) (fun _ => 4096) rfl
    (fun _ empty => absurd empty (by decide)) sampleFirst (by decide +kernel)
  refine (returns.and general).mono ?_ (fun _ _ fault => fault.1)
  rintro _ pair ⟨⟨first, second⟩, kept⟩
  have both : forall turn, (pair.writer turn).phase = .returned 4096 := by
    intro turn
    cases turn with
    | first => exact first
    | second => exact second
  exact ⟨both, kept both⟩

/-- With 8192 bytes by the first call and 4096 by the second, both return their
counts, and the file of 8192 bytes ends with a size of 4096. -/
theorem second_store_shrinks_file :
    Ensures (runAll WritePair.take sampleFirst)
      (WritePair.start freshStore twoHandles (fun _ _ => 1)
        (fun turn => if turn = .first then 8192 else 4096))
      (fun _ pair => (pair.writer .first).phase = .returned 8192 ∧
        (pair.writer .second).phase = .returned 4096 ∧ pair.size 0 = 4096)
      (fun _ _ => False) := by
  decide +kernel

end Userfs.Filesystem
