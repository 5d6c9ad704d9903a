import Mathlib.Data.List.Perm.Basic
import Mathlib.Data.List.Nodup
import Userfs.Global.Defs
import Userfs.Library.Program
import Userfs.Library.Word

namespace Userfs.Filesystem

open Word

/-!
# The table of free inode numbers

`init_fs` fills `fsinode_table` with 30000 numbers.  `find_inode_bitmap` takes the
first number at or above the cursor `bitmapnum`, `put_inode_bitmap` stores a number
in the first empty slot below it.  Both scans stop at once: the slots below the
cursor are empty and those above it are full, so the table is a stack.

The shutdown record keeps the number on top of the stack as the base from which the
next session numbers its files.  This is right while numbers come back in the
opposite order in which they were handed out.
-/

/-- The length of `fsinode_table`. -/
def inonum : Nat := 30000

/-- `fsinode_table` with its cursor.  The cells behind the array are the memory
that follows it. -/
structure InodeTable where
  slots : Nat -> Nat
  bitmapnum : Nat

/-- The table that `init_fs` builds. -/
def InodeTable.init (inodeBase : Nat) (behind : Nat -> Nat) : InodeTable where
  slots := fun index => if index < inonum then add64 inodeBase (128 * index) else behind index
  bitmapnum := 0

/-- The upward scan of `find_inode_bitmap` over a number of slots. -/
def scanUp (slots : Nat -> Nat) : Nat -> Nat -> Option Nat
  | 0, _ => none
  | count + 1, index => if slots index ≠ 0 then some index else scanUp slots count (index + 1)

/-- The downward scan of `put_inode_bitmap`, from the slot before the argument. -/
def scanDown (slots : Nat -> Nat) : Nat -> Option Nat
  | 0 => none
  | index + 1 => if slots index = 0 then some index else scanDown slots index

/-- `find_inode_bitmap`: the number, or 0, and the table afterwards. -/
def findInodeBitmap (table : InodeTable) : Nat × InodeTable :=
  match scanUp table.slots (inonum - table.bitmapnum) table.bitmapnum with
  | none => (0, table)
  | some index =>
      (low 32 (table.slots index), ⟨Function.update table.slots index 0, index + 1⟩)

/-- `put_inode_bitmap`: the number, or 0 if there is no empty slot, and the table
afterwards. -/
def putInodeBitmap (table : InodeTable) (ino : Nat) : Nat × InodeTable :=
  match scanDown table.slots table.bitmapnum with
  | none => (0, table)
  | some index => (ino, ⟨Function.update table.slots index ino, index⟩)

/-- The `free_inode_base` that `append_addrinfo_log` records.  With every number in
use it is read behind the array. -/
def InodeTable.freeInodeBase (table : InodeTable) : Nat :=
  table.slots table.bitmapnum

/-- The numbers in the table. -/
def InodeTable.free (table : InodeTable) : List Nat :=
  ((List.range inonum).map table.slots).filter (fun ino => ino ≠ 0)

/-- The numbers of the table that `init_fs` builds, in order. -/
def sessionNumbers (inodeBase : Nat) : List Nat :=
  (List.range inonum).map (fun index => inodeBase + 128 * index)

/-! ## Sessions -/

/-- The table together with the numbers that are in use: those handed out and not
put back since. -/
structure NumberSession where
  table : InodeTable
  live : List Nat

/-- A new session. -/
def NumberSession.start (inodeBase : Nat) (behind : Nat -> Nat) : NumberSession where
  table := InodeTable.init inodeBase behind
  live := []

/-- The calls of a session. -/
inductive NumberCommand where
  | find
  | put (ino : Nat)
deriving DecidableEq, Repr

namespace NumberCommand

/-- Execute one call. -/
def execute : NumberCommand -> EStateM Fault NumberSession PUnit
  | find => modify (fun session =>
      ⟨(findInodeBitmap session.table).2,
        if (findInodeBitmap session.table).1 = 0 then session.live
        else (findInodeBitmap session.table).1 :: session.live⟩)
  | put ino => modify (fun session =>
      ⟨(putInodeBitmap session.table ino).2, session.live.erase ino⟩)

/-- Only a number in use is put back. -/
def Allowed : NumberCommand -> NumberSession -> Prop
  | find, _ => True
  | put ino, session => ino ∈ session.live

instance : (command : NumberCommand) -> (session : NumberSession) ->
    Decidable (command.Allowed session)
  | find, _ => .isTrue trivial
  | put ino, session => inferInstanceAs (Decidable (ino ∈ session.live))

/-- The number put back is in use and the greatest one that is. -/
def Latest : NumberCommand -> NumberSession -> Prop
  | find, _ => True
  | put ino, session => ino ∈ session.live ∧ forall other, other ∈ session.live -> other ≤ ino

instance : (command : NumberCommand) -> (session : NumberSession) ->
    Decidable (command.Latest session)
  | find, _ => .isTrue trivial
  | put _, _ => inferInstanceAs (Decidable (_ ∧ _))

end NumberCommand

/-! ## The table is a stack -/

/-- The slots from the cursor on. -/
def InodeTable.stack (table : InodeTable) : List Nat :=
  (List.range (inonum - table.bitmapnum)).map (fun index => table.slots (table.bitmapnum + index))

/-- The slots below the cursor are empty and the others hold numbers of 32 bits. -/
structure Stacked (table : InodeTable) : Prop where
  bound : table.bitmapnum ≤ inonum
  empty : forall index, index < table.bitmapnum -> table.slots index = 0
  full : forall index, table.bitmapnum ≤ index -> index < inonum ->
    0 < table.slots index ∧ table.slots index < 2 ^ 32

section Stack

variable {table : InodeTable}

/-- The stack of a table that is not used up starts at the cursor. -/
theorem InodeTable.stack_cons (room : table.bitmapnum < inonum) :
    table.stack = table.slots table.bitmapnum ::
      (List.range (inonum - (table.bitmapnum + 1))).map
        (fun index => table.slots (table.bitmapnum + 1 + index)) := by
  unfold InodeTable.stack
  have length : inonum - table.bitmapnum = inonum - (table.bitmapnum + 1) + 1 := by omega
  rw [length, List.range_succ_eq_map, List.map_cons, List.map_map]
  congr 1
  apply List.map_congr_left
  intro index _
  change table.slots (table.bitmapnum + (index + 1)) = _
  rw [Nat.add_assoc, Nat.add_comm 1 index]

theorem Stacked.free_eq (stacked : Stacked table) : table.free = table.stack := by
  have bound := stacked.bound
  have split : inonum = table.bitmapnum + (inonum - table.bitmapnum) := by omega
  unfold InodeTable.free InodeTable.stack
  -- the slots are cut at the cursor: the lower part is dropped, the upper part kept
  conv_lhs => rw [split, List.range_add, List.map_append, List.filter_append]
  have lower : ((List.range table.bitmapnum).map table.slots).filter (fun ino => ino ≠ 0) = [] := by
    apply List.filter_eq_nil_iff.mpr
    intro ino member
    rcases List.mem_map.mp member with ⟨index, inRange, equal⟩
    have zero := stacked.empty index (List.mem_range.mp inRange)
    simp [← equal, zero]
  rw [lower, List.nil_append, List.map_map]
  apply List.filter_eq_self.mpr
  intro ino member
  rcases List.mem_map.mp member with ⟨index, inRange, equal⟩
  have above := List.mem_range.mp inRange
  have positive := (stacked.full (table.bitmapnum + index) (by omega) (by omega)).1
  change table.slots (table.bitmapnum + index) = ino at equal
  simp only [ne_eq, decide_eq_true_eq]
  omega

/-- On a stack with room `find_inode_bitmap` pops. -/
theorem Stacked.find (stacked : Stacked table) (room : table.bitmapnum < inonum) :
    findInodeBitmap table = (table.slots table.bitmapnum,
      ⟨Function.update table.slots table.bitmapnum 0, table.bitmapnum + 1⟩) := by
  have here := stacked.full table.bitmapnum (Nat.le_refl _) room
  have scan : scanUp table.slots (inonum - table.bitmapnum) table.bitmapnum =
      some table.bitmapnum := by
    have length : inonum - table.bitmapnum = inonum - (table.bitmapnum + 1) + 1 := by omega
    rw [length, scanUp, if_pos (Nat.pos_iff_ne_zero.mp here.1)]
  unfold findInodeBitmap
  rw [scan]
  simp only [low_of_lt here.2]

theorem findInodeBitmap_exhausted (used : inonum ≤ table.bitmapnum) :
    findInodeBitmap table = (0, table) := by
  have none : inonum - table.bitmapnum = 0 := by omega
  unfold findInodeBitmap
  rw [none]
  rfl

/-- Below the cursor of a stack `put_inode_bitmap` pushes. -/
theorem Stacked.put (stacked : Stacked table) (positive : 0 < table.bitmapnum) (ino : Nat) :
    putInodeBitmap table ino =
      (ino, ⟨Function.update table.slots (table.bitmapnum - 1) ino, table.bitmapnum - 1⟩) := by
  have scan : scanDown table.slots table.bitmapnum = some (table.bitmapnum - 1) := by
    have length : table.bitmapnum = table.bitmapnum - 1 + 1 := by omega
    rw [length, scanDown, if_pos (stacked.empty _ (by omega)), Nat.add_sub_cancel]
  unfold putInodeBitmap
  rw [scan]

theorem Stacked.popped (stacked : Stacked table) (room : table.bitmapnum < inonum) :
    Stacked ⟨Function.update table.slots table.bitmapnum 0, table.bitmapnum + 1⟩ := by
  refine ⟨room, ?_, ?_⟩
  · intro index below
    change Function.update table.slots table.bitmapnum 0 index = 0
    by_cases same : index = table.bitmapnum
    · rw [same, Function.update_self]
    · rw [Function.update_of_ne same]
      exact stacked.empty index (by change index < table.bitmapnum + 1 at below; omega)
  · intro index above inside
    change table.bitmapnum + 1 ≤ index at above
    change 0 < Function.update table.slots table.bitmapnum 0 index ∧
      Function.update table.slots table.bitmapnum 0 index < 2 ^ 32
    rw [Function.update_of_ne (by omega)]
    exact stacked.full index (by omega) inside

theorem Stacked.pushed (stacked : Stacked table) (positive : 0 < table.bitmapnum) {ino : Nat}
    (nonzero : 0 < ino) (small : ino < 2 ^ 32) :
    Stacked ⟨Function.update table.slots (table.bitmapnum - 1) ino, table.bitmapnum - 1⟩ := by
  have bound := stacked.bound
  refine ⟨by change table.bitmapnum - 1 ≤ inonum; omega, ?_, ?_⟩
  · intro index below
    change index < table.bitmapnum - 1 at below
    change Function.update table.slots (table.bitmapnum - 1) ino index = 0
    rw [Function.update_of_ne (by omega)]
    exact stacked.empty index (by omega)
  · intro index above inside
    change table.bitmapnum - 1 ≤ index at above
    change 0 < Function.update table.slots (table.bitmapnum - 1) ino index ∧
      Function.update table.slots (table.bitmapnum - 1) ino index < 2 ^ 32
    by_cases same : index = table.bitmapnum - 1
    · rw [same, Function.update_self]
      exact ⟨nonzero, small⟩
    · rw [Function.update_of_ne same]
      exact stacked.full index (by omega) inside

/-- Popping takes the first number off the stack. -/
theorem InodeTable.stack_popped (room : table.bitmapnum < inonum) :
    table.stack = table.slots table.bitmapnum ::
      InodeTable.stack ⟨Function.update table.slots table.bitmapnum 0, table.bitmapnum + 1⟩ := by
  rw [InodeTable.stack_cons room]
  congr 1
  apply List.map_congr_left
  intro index _
  change _ = Function.update table.slots table.bitmapnum 0 (table.bitmapnum + 1 + index)
  rw [Function.update_of_ne (by omega)]

/-- Pushing puts a number in front of the stack. -/
theorem InodeTable.stack_pushed (bound : table.bitmapnum ≤ inonum)
    (positive : 0 < table.bitmapnum) (ino : Nat) :
    InodeTable.stack ⟨Function.update table.slots (table.bitmapnum - 1) ino, table.bitmapnum - 1⟩ =
      ino :: table.stack := by
  rw [InodeTable.stack_cons (by change table.bitmapnum - 1 < inonum; omega)]
  change Function.update table.slots (table.bitmapnum - 1) ino (table.bitmapnum - 1) :: _ = _
  rw [Function.update_self]
  congr 1
  have next : table.bitmapnum - 1 + 1 = table.bitmapnum := by omega
  change (List.range (inonum - (table.bitmapnum - 1 + 1))).map (fun index =>
    Function.update table.slots (table.bitmapnum - 1) ino (table.bitmapnum - 1 + 1 + index)) = _
  rw [next]
  apply List.map_congr_left
  intro index _
  rw [Function.update_of_ne (by omega)]

end Stack

/-! ## No number is lost or shared -/

/-- The first and the last number of the table are numbers of 32 bits. -/
structure ValidBase (inodeBase : Nat) : Prop where
  positive : 0 < inodeBase
  small : inodeBase + 128 * (inonum - 1) < 2 ^ 32

/-- The table is a stack, and its numbers and those in use are together the numbers
of the session. -/
structure Conserved (inodeBase : Nat) (session : NumberSession) : Prop where
  stacked : Stacked session.table
  whole : (session.live ++ session.table.stack).Perm (sessionNumbers inodeBase)

section Conservation

variable {inodeBase : Nat} {session : NumberSession}

theorem mem_sessionNumbers {ino : Nat} (base : ValidBase inodeBase)
    (member : ino ∈ sessionNumbers inodeBase) : 0 < ino ∧ ino < 2 ^ 32 := by
  rcases List.mem_map.mp member with ⟨index, inRange, equal⟩
  have bound := List.mem_range.mp inRange
  have positive := base.positive
  have small := base.small
  unfold inonum at *
  omega

theorem sessionNumbers_nodup (inodeBase : Nat) : (sessionNumbers inodeBase).Nodup := by
  apply List.Nodup.map_on
  · intro first _ second _ equal
    omega
  · exact List.nodup_range

/-- The slots of the table of `init_fs`. -/
theorem init_slots (base : ValidBase inodeBase) (behind : Nat -> Nat) {index : Nat}
    (bound : index < inonum) :
    (InodeTable.init inodeBase behind).slots index = inodeBase + 128 * index := by
  have small := base.small
  change (if index < inonum then add64 inodeBase (128 * index) else behind index) = _
  rw [if_pos bound]
  apply add64_of_lt
  unfold inonum at *
  omega

theorem stacked_init (base : ValidBase inodeBase) (behind : Nat -> Nat) :
    Stacked (InodeTable.init inodeBase behind) := by
  refine ⟨Nat.zero_le _, ?_, ?_⟩
  · intro index below
    exact absurd below (Nat.not_lt_zero index)
  · intro index _ bound
    rw [init_slots base behind bound]
    apply mem_sessionNumbers base
    exact List.mem_map.mpr ⟨index, List.mem_range.mpr bound, rfl⟩

theorem conserved_start (base : ValidBase inodeBase) (behind : Nat -> Nat) :
    Conserved inodeBase (NumberSession.start inodeBase behind) := by
  refine ⟨stacked_init base behind, ?_⟩
  have cursor : (InodeTable.init inodeBase behind).bitmapnum = 0 := rfl
  have stack : (InodeTable.init inodeBase behind).stack = sessionNumbers inodeBase := by
    unfold InodeTable.stack sessionNumbers
    rw [cursor, Nat.sub_zero]
    apply List.map_congr_left
    intro index member
    rw [Nat.zero_add]
    exact init_slots base behind (List.mem_range.mp member)
  unfold NumberSession.start
  rw [stack, List.nil_append]

/-- As many numbers are in use as the cursor has passed. -/
theorem Conserved.length_live (conserved : Conserved inodeBase session) :
    session.live.length = session.table.bitmapnum := by
  have bound := conserved.stacked.bound
  have length := conserved.whole.length_eq
  simp only [List.length_append, sessionNumbers, InodeTable.stack, List.length_map,
    List.length_range] at length
  omega

theorem Conserved.live_valid (base : ValidBase inodeBase) (conserved : Conserved inodeBase session)
    {ino : Nat} (member : ino ∈ session.live) : 0 < ino ∧ ino < 2 ^ 32 := by
  apply mem_sessionNumbers base
  exact conserved.whole.subset (List.mem_append_left _ member)

theorem Conserved.positive (conserved : Conserved inodeBase session) {ino : Nat}
    (member : ino ∈ session.live) : 0 < session.table.bitmapnum := by
  rw [← conserved.length_live]
  exact List.length_pos_of_mem member

theorem Conserved.find (conserved : Conserved inodeBase session) :
    Ensures (NumberCommand.execute .find) session (fun _ next => Conserved inodeBase next)
      (fun _ _ => False) := by
  refine Ensures.modify_iff.mpr ?_
  by_cases room : session.table.bitmapnum < inonum
  · have positive := (conserved.stacked.full _ (Nat.le_refl _) room).1
    rw [conserved.stacked.find room, if_neg (Nat.pos_iff_ne_zero.mp positive)]
    refine ⟨conserved.stacked.popped room, ?_⟩
    have whole := conserved.whole
    rw [InodeTable.stack_popped room] at whole
    exact List.perm_middle.symm.trans whole
  · rw [findInodeBitmap_exhausted (Nat.le_of_not_lt room), if_pos rfl]
    exact conserved

theorem Conserved.put (base : ValidBase inodeBase) (conserved : Conserved inodeBase session)
    {ino : Nat} (member : ino ∈ session.live) :
    Ensures (NumberCommand.execute (.put ino)) session (fun _ next => Conserved inodeBase next)
      (fun _ _ => False) := by
  have valid := conserved.live_valid base member
  have positive := conserved.positive member
  refine Ensures.modify_iff.mpr ?_
  rw [conserved.stacked.put positive]
  refine ⟨conserved.stacked.pushed positive valid.1 valid.2, ?_⟩
  rw [InodeTable.stack_pushed conserved.stacked.bound positive]
  have back : (ino :: session.live.erase ino).Perm session.live := (List.perm_cons_erase member).symm
  exact List.perm_middle.trans ((back.append_right session.table.stack).trans conserved.whole)

theorem Conserved.execute (base : ValidBase inodeBase) (command : NumberCommand)
    (conserved : Conserved inodeBase session) (allowed : command.Allowed session) :
    Ensures command.execute session (fun _ next => Conserved inodeBase next)
      (fun _ _ => False) := by
  cases command with
  | find => exact conserved.find
  | put ino => exact conserved.put base allowed

/-- The number just put back is the next one handed out. -/
theorem Conserved.put_then_find (base : ValidBase inodeBase)
    (conserved : Conserved inodeBase session) {ino : Nat} (member : ino ∈ session.live) :
    (putInodeBitmap session.table ino).1 = ino ∧
      (findInodeBitmap (putInodeBitmap session.table ino).2).1 = ino := by
  have valid := conserved.live_valid base member
  have positive := conserved.positive member
  have bound := conserved.stacked.bound
  have pushed := conserved.stacked.pushed positive valid.1 valid.2
  rw [conserved.stacked.put positive]
  refine ⟨rfl, ?_⟩
  rw [pushed.find (by change session.table.bitmapnum - 1 < inonum; omega)]
  exact Function.update_self ..

/-- The table is used up exactly when every number of the session is in use. -/
theorem Conserved.find_eq_zero_iff (conserved : Conserved inodeBase session) :
    (findInodeBitmap session.table).1 = 0 <->
      forall ino, ino ∈ sessionNumbers inodeBase -> ino ∈ session.live := by
  have nodup : (session.live ++ session.table.stack).Nodup :=
    conserved.whole.nodup_iff.mpr (sessionNumbers_nodup inodeBase)
  by_cases room : session.table.bitmapnum < inonum
  · have positive := (conserved.stacked.full _ (Nat.le_refl _) room).1
    have top : session.table.slots session.table.bitmapnum ∈ session.table.stack := by
      rw [InodeTable.stack_cons room]
      exact List.mem_cons_self
    rw [conserved.stacked.find room]
    constructor
    · intro zero
      exact absurd zero (Nat.pos_iff_ne_zero.mp positive)
    · intro all
      have inUse := all _ (conserved.whole.subset (List.mem_append_right _ top))
      exact absurd rfl ((List.nodup_append.mp nodup).2.2 _ inUse _ top)
  · rw [findInodeBitmap_exhausted (Nat.le_of_not_lt room)]
    refine ⟨fun _ => ?_, fun _ => rfl⟩
    intro ino member
    have none : session.table.stack = [] := by
      unfold InodeTable.stack
      rw [Nat.sub_eq_zero_of_le (Nat.le_of_not_lt room)]
      rfl
    have whole := conserved.whole
    rw [none, List.append_nil] at whole
    exact whole.symm.subset member

end Conservation

/-- Inode numbers are neither lost nor shared.  After any sequence of calls that
puts back numbers in use only, the free numbers are distinct and not in use, with
those in use they are the initial numbers, the table is used up exactly when all
numbers are in use, every number in use can be put back, and is then the next one
handed out. -/
theorem inode_numbers_conserved (inodeBase : Nat) (behind : Nat -> Nat)
    (commands : List NumberCommand) (base : ValidBase inodeBase)
    (allowed : Guarded NumberCommand.execute NumberCommand.Allowed commands
      (NumberSession.start inodeBase behind)) :
    Ensures (runAll NumberCommand.execute commands) (NumberSession.start inodeBase behind)
      (fun _ session =>
        session.table.free.Nodup ∧ session.live.Nodup ∧
          (forall ino, ino ∈ session.live -> ino ∉ session.table.free) ∧
          (session.live ++ session.table.free).Perm (sessionNumbers inodeBase) ∧
          ((findInodeBitmap session.table).1 = 0 <->
            forall ino, ino ∈ sessionNumbers inodeBase -> ino ∈ session.live) ∧
          (forall ino, ino ∈ session.live ->
            0 < ino ∧ (putInodeBitmap session.table ino).1 = ino ∧
              (findInodeBitmap (putInodeBitmap session.table ino).2).1 = ino))
      (fun _ _ => False) := by
  have run : Ensures (runAll NumberCommand.execute commands)
      (NumberSession.start inodeBase behind) (fun _ next => Conserved inodeBase next)
      (fun _ _ => False) :=
    Ensures.runAll_guarded_state
      (fun command _ conserved allowed => conserved.execute base command allowed)
      (conserved_start base behind) allowed
  refine run.mono ?_ (fun _ _ impossible => impossible)
  intro _ session conserved
  have nodup : (session.live ++ session.table.stack).Nodup :=
    conserved.whole.nodup_iff.mpr (sessionNumbers_nodup inodeBase)
  rcases List.nodup_append.mp nodup with ⟨liveNodup, freeNodup, apart⟩
  rw [conserved.stacked.free_eq]
  refine ⟨freeNodup, liveNodup, ?_, conserved.whole, conserved.find_eq_zero_iff, ?_⟩
  · intro ino inUse free
    exact absurd rfl (apart ino inUse ino free)
  · intro ino inUse
    exact ⟨(conserved.live_valid base inUse).1, conserved.put_then_find base inUse⟩

/-- Numbers from 128 on: two are handed out, and the first one is put back. -/
theorem inode_numbers_conserved_reuse :
    ValidBase 128 ∧
      Ensures (runAll NumberCommand.execute [.find, .find, .put 128]) (NumberSession.start 128 id)
        (fun _ session => (session.live ++ session.table.free).Perm (sessionNumbers 128))
        (fun _ _ => False) := by
  have base : ValidBase 128 := ⟨by decide, by decide⟩
  refine ⟨base, (inode_numbers_conserved 128 id [.find, .find, .put 128] base
    (by decide +kernel)).mono ?_ (fun _ _ impossible => impossible)⟩
  intro _ session conserved
  exact conserved.2.2.2.1

/-! ## The base of the next session -/

/-- The free numbers are still in their original places. -/
structure InPlace (inodeBase : Nat) (session : NumberSession) : Prop where
  conserved : Conserved inodeBase session
  placed : forall index, session.table.bitmapnum ≤ index -> index < inonum ->
    session.table.slots index = inodeBase + 128 * index

section Order

variable {inodeBase : Nat} {session : NumberSession}

/-- Then exactly the numbers below the cursor are in use. -/
theorem InPlace.mem_live_iff (inPlace : InPlace inodeBase session) {ino : Nat} :
    ino ∈ session.live <->
      Exists fun index => index < session.table.bitmapnum ∧ ino = inodeBase + 128 * index := by
  have whole := inPlace.conserved.whole
  have bound := inPlace.conserved.stacked.bound
  have nodup : (session.live ++ session.table.stack).Nodup :=
    whole.nodup_iff.mpr (sessionNumbers_nodup inodeBase)
  have inStack : forall number, number ∈ session.table.stack <-> Exists fun index =>
      session.table.bitmapnum ≤ index ∧ index < inonum ∧ number = inodeBase + 128 * index := by
    intro number
    unfold InodeTable.stack
    rw [List.mem_map]
    constructor
    · rintro ⟨index, inRange, equal⟩
      have above := List.mem_range.mp inRange
      refine ⟨session.table.bitmapnum + index, by omega, by omega, ?_⟩
      rw [← equal]
      exact inPlace.placed _ (by omega) (by omega)
    · rintro ⟨index, above, inside, equal⟩
      refine ⟨index - session.table.bitmapnum, List.mem_range.mpr (by omega), ?_⟩
      rw [equal, ← inPlace.placed index above inside]
      congr 1
      omega
  constructor
  · intro inUse
    rcases List.mem_map.mp (whole.subset (List.mem_append_left _ inUse)) with
      ⟨index, inRange, equal⟩
    refine ⟨index, ?_, equal.symm⟩
    by_contra above
    have free := (inStack ino).mpr
      ⟨index, Nat.le_of_not_lt above, List.mem_range.mp inRange, equal.symm⟩
    exact absurd rfl ((List.nodup_append.mp nodup).2.2 ino inUse ino free)
  · rintro ⟨index, below, equal⟩
    have present : ino ∈ sessionNumbers inodeBase :=
      List.mem_map.mpr ⟨index, List.mem_range.mpr (by omega), equal.symm⟩
    rcases List.mem_append.mp (whole.symm.subset present) with inUse | free
    · exact inUse
    · rcases (inStack ino).mp free with ⟨other, above, _, equal'⟩
      omega

/-- The greatest number in use is the one just below the cursor. -/
theorem InPlace.latest (inPlace : InPlace inodeBase session) {ino : Nat}
    (member : ino ∈ session.live) (greatest : forall other, other ∈ session.live -> other ≤ ino) :
    ino = inodeBase + 128 * (session.table.bitmapnum - 1) := by
  rcases inPlace.mem_live_iff.mp member with ⟨index, below, equal⟩
  have last := greatest _ (inPlace.mem_live_iff.mpr
    ⟨session.table.bitmapnum - 1, by omega, rfl⟩)
  omega

theorem InPlace.execute (base : ValidBase inodeBase) (command : NumberCommand)
    (inPlace : InPlace inodeBase session) (latest : command.Latest session) :
    Ensures command.execute session (fun _ next => InPlace inodeBase next) (fun _ _ => False) := by
  cases command with
  | find =>
      have conserved := Ensures.modify_iff.mp inPlace.conserved.find
      refine Ensures.modify_iff.mpr ⟨conserved, ?_⟩
      by_cases room : session.table.bitmapnum < inonum
      · rw [inPlace.conserved.stacked.find room]
        intro index above inside
        change session.table.bitmapnum + 1 ≤ index at above
        change Function.update session.table.slots session.table.bitmapnum 0 index = _
        rw [Function.update_of_ne (by omega)]
        exact inPlace.placed index (by omega) inside
      · rw [findInodeBitmap_exhausted (Nat.le_of_not_lt room)]
        exact inPlace.placed
  | put ino =>
      rcases latest with ⟨member, greatest⟩
      have conserved := Ensures.modify_iff.mp (inPlace.conserved.put base member)
      refine Ensures.modify_iff.mpr ⟨conserved, ?_⟩
      rw [inPlace.conserved.stacked.put (inPlace.conserved.positive member)]
      intro index above inside
      change session.table.bitmapnum - 1 ≤ index at above
      change Function.update session.table.slots (session.table.bitmapnum - 1) ino index = _
      by_cases same : index = session.table.bitmapnum - 1
      · rw [same, Function.update_self]
        exact inPlace.latest member greatest
      · rw [Function.update_of_ne same]
        exact inPlace.placed index (by omega) inside

end Order

/-- Inode numbers across sessions.  When only the greatest number in use is put
back, and not all numbers are in use at the end, no number in use is among those
that the next session counts from the recorded base. -/
theorem free_inode_base_unused (inodeBase : Nat) (behind : Nat -> Nat)
    (commands : List NumberCommand) (base : ValidBase inodeBase)
    (latest : Guarded NumberCommand.execute NumberCommand.Latest commands
      (NumberSession.start inodeBase behind)) :
    Ensures (runAll NumberCommand.execute commands) (NumberSession.start inodeBase behind)
      (fun _ session => session.live.length < inonum ->
        forall ino index, ino ∈ session.live ->
          ino ≠ session.table.freeInodeBase + 128 * index)
      (fun _ _ => False) := by
  have start : InPlace inodeBase (NumberSession.start inodeBase behind) :=
    ⟨conserved_start base behind, fun _ _ inside => init_slots base behind inside⟩
  have run : Ensures (runAll NumberCommand.execute commands)
      (NumberSession.start inodeBase behind) (fun _ next => InPlace inodeBase next)
      (fun _ _ => False) :=
    Ensures.runAll_guarded_state
      (fun command _ inPlace latest => inPlace.execute base command latest) start latest
  refine run.mono ?_ (fun _ _ impossible => impossible)
  intro _ session inPlace room ino index inUse equal
  rw [inPlace.conserved.length_live] at room
  rcases inPlace.mem_live_iff.mp inUse with ⟨position, below, number⟩
  have recorded : session.table.freeInodeBase = inodeBase + 128 * session.table.bitmapnum :=
    inPlace.placed _ (Nat.le_refl _) room
  rw [recorded] at equal
  omega

/-- Two numbers are handed out and the second one is put back. -/
theorem free_inode_base_unused_single :
    ValidBase 128 ∧
      Ensures (runAll NumberCommand.execute [.find, .find, .put 256]) (NumberSession.start 128 id)
        (fun _ session => session.live.length < inonum -> forall ino index, ino ∈ session.live ->
          ino ≠ session.table.freeInodeBase + 128 * index)
        (fun _ _ => False) := by
  have base : ValidBase 128 := ⟨by decide, by decide⟩
  exact ⟨base, free_inode_base_unused 128 id [.find, .find, .put 256] base (by decide +kernel)⟩

/-- Two files are created and the first one is removed: the recorded base is its
number, and the number of the second file is the next one after it. -/
theorem free_inode_base_reaches_live_number :
    Guarded NumberCommand.execute NumberCommand.Allowed [.find, .find, .put 128]
        (NumberSession.start 128 id) ∧
      Ensures (runAll NumberCommand.execute [.find, .find, .put 128]) (NumberSession.start 128 id)
        (fun _ session => session.live.length < inonum ∧ 256 ∈ session.live ∧
          256 = session.table.freeInodeBase + 128 * 1)
        (fun _ _ => False) := by
  decide +kernel

end Userfs.Filesystem
