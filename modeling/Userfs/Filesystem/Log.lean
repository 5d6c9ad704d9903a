import Userfs.Global.Defs
import Userfs.Library.Memory
import Userfs.Library.Program

namespace Userfs.Filesystem

open Memory

/-!
# The operation log

Metadata records are appended to an 8 MiB window that is mapped from the log
file.  Positions are counted from `logbase`, the start of the mapping, which
`mmap` places on a page boundary.  Records have 32 bytes (extents and attribute
changes, flag 0) or 64 bytes (directory entries, any other flag).

`synclog` and `shutdown_fs` hand a byte range of the log file to the kernel.  The
model keeps every such range with the bytes it held at that moment.
-/

/-- `logspace`, the size of the mapped window. -/
def logspace : Nat := 8 * 1024 * 1024

/-- The bytes `append_entry_log` copies for a record of a given flag. -/
def recordSize (flag : Nat) : Nat :=
  if flag = 0 then 32 else 64

/-- A packed record as `append_entry_log` receives it: a flag and as many
bytes as that flag makes the function copy. -/
structure LogEntry where
  flag : Nat
  bytes : List UInt8
  length_bytes : bytes.length = recordSize flag
deriving DecidableEq

/-- The size of a record. -/
def LogEntry.size (entry : LogEntry) : Nat :=
  recordSize entry.flag

/-- A byte range given to the kernel, with its contents at that time. -/
structure HandedRange where
  first : Nat
  last : Nat
  contents : List UInt8

/-- The log: `start` is `logstart - logbase`, `offset` is `logoffset`, and
`window` the mapped memory.  The last two fields only observe: the ranges handed
to the kernel, and the records appended since the last wrap with the positions
they were copied to. -/
structure Log where
  start : Nat
  offset : Nat
  window : Nat -> UInt8
  handed : List HandedRange
  slots : List (Nat × LogEntry)

/-- The log after `loginit`, over any old contents of the log file. -/
def loginit (window : Nat -> UInt8) : Log where
  start := 0
  offset := 0
  window := window
  handed := []
  slots := []

/-- Programs over the log. -/
abbrev LogM := EStateM Fault Log

/-- Copy bytes to a position behind `logstart`.  Outside the mapping the
access is not backed by memory. -/
def storeLog (position : Nat) (source : Nat -> UInt8) (count : Nat) : LogM PUnit := do
  let log ← get
  if log.start + position + count ≤ logspace then
    modify (fun log => { log with window := copy log.window (log.start + position) source count })
  else throw .segfault

/-- The part of `append_entry_log` that copies the record and advances. -/
def copyRecord (entry : LogEntry) : LogM PUnit := do
  let log ← get
  storeLog log.offset (fun index => entry.bytes.getD index 0) entry.size
  modify (fun log => { log with
    offset := log.offset + entry.size
    slots := log.slots ++ [(log.start + log.offset, entry)] })

/-- Zero the rest of the page and move to the next one. -/
def padPage : LogM PUnit := do
  let log ← get
  storeLog log.offset (fun _ => 0) (gBlockSizeBytes - log.offset % gBlockSizeBytes)
  modify (fun log => { log with
    offset := log.offset / gBlockSizeBytes * gBlockSizeBytes + gBlockSizeBytes })

/-- The two branches of `append_entry_log`: only a 64-byte record is kept from
straddling a page. -/
def placeRecord (entry : LogEntry) : LogM PUnit := do
  let log ← get
  if entry.flag = 0 then
    copyRecord entry
  else if gBlockSizeBytes < log.offset % gBlockSizeBytes + 64 then do
    padPage
    copyRecord entry
  else
    copyRecord entry

/-- `append_entry_log`.  The capacity test comes first, with the larger record
size for both kinds. -/
def appendEntryLog (entry : LogEntry) : LogM PUnit := do
  let log ← get
  if logspace < log.offset + 64 then do
    modify (fun log => { log with offset := 0, slots := [] })
    placeRecord entry
  else
    placeRecord entry

/-- Give the kernel the range from `logstart` to `logstart + logoffset`, then
move `logstart`; `logoffset` stays. -/
def handRange : LogM PUnit :=
  modify (fun log => { log with
    handed := log.handed ++
      [⟨log.start, log.start + log.offset, slice log.window log.start log.offset⟩]
    start := log.offset })

/-- `synclog`. -/
def synclog : LogM PUnit :=
  handRange

/-- `append_addrinfo_log`: the 40-byte allocation record is copied behind the
log.  Near the end of a page it should go to the next page; the precedence of
`+` over `>>` makes the shift 13 instead. -/
def appendAddrinfoLog (addrinfo : Nat -> UInt8) : LogM PUnit := do
  let log ← get
  if gBlockSizeBytes - 40 < log.offset % gBlockSizeBytes then
    storeLog (log.offset >>> (12 + 1) <<< 12) addrinfo 40
  else
    storeLog log.offset addrinfo 40

/-- `shutdown_fs` after initialisation.  `munmap` rejects an address that is not
on a page boundary, and the mapping starts on one. -/
def shutdownFs (addrinfo : Nat -> UInt8) : LogM PUnit := do
  appendAddrinfoLog addrinfo
  let log ← get
  if log.start % gBlockSizeBytes ≠ 0 then
    throw (.panic "cannot unmap shared memory\n")
  handRange

/-! ## The layout between two wraps -/

/-- The records since the last wrap lie one behind the other below `offset`,
hold their bytes, and everything between them is zero.  `logstart` has not been
moved. -/
structure Layout (log : Log) : Prop where
  start_eq : log.start = 0
  aligned : 32 ∣ log.offset
  bounded : log.offset ≤ logspace
  below : forall slot, slot ∈ log.slots -> slot.1 + slot.2.size ≤ log.offset
  inPage : forall slot, slot ∈ log.slots -> slot.2.flag ≠ 0 ->
    slot.1 % gBlockSizeBytes + 64 ≤ gBlockSizeBytes
  ordered : log.slots.Pairwise (fun first second => first.1 + first.2.size ≤ second.1)
  stored : forall slot, slot ∈ log.slots -> slice log.window slot.1 slot.2.size = slot.2.bytes
  padded : forall position, position < log.offset ->
    (forall slot, slot ∈ log.slots ->
      position < slot.1 ∨ slot.1 + slot.2.size ≤ position) -> log.window position = 0

theorem layout_loginit (window : Nat -> UInt8) : Layout (loginit window) where
  start_eq := rfl
  aligned := Nat.dvd_zero 32
  bounded := Nat.zero_le _
  below := by simp [loginit]
  inPage := by simp [loginit]
  ordered := List.Pairwise.nil
  stored := by simp [loginit]
  padded := by simp [loginit]

theorem recordSize_cases (flag : Nat) :
    (flag = 0 ∧ recordSize flag = 32) ∨ (flag ≠ 0 ∧ recordSize flag = 64) := by
  unfold recordSize
  split <;> simp_all

theorem slice_entry (entry : LogEntry) :
    slice (fun index => entry.bytes.getD index 0) 0 entry.size = entry.bytes := by
  unfold slice LogEntry.size
  rw [← entry.length_bytes]
  apply List.ext_getElem
  · simp
  · intro index first second
    simp [List.getD_eq_getElem?_getD, List.getElem?_eq_getElem second]

/-- A store inside the window changes exactly the cells it covers. -/
theorem ensures_storeLog {log : Log} {position count : Nat} {source : Nat -> UInt8}
    {done : PUnit -> Log -> Prop} {failed : Fault -> Log -> Prop}
    (fits : log.start + position + count ≤ logspace)
    (after : done PUnit.unit
      { log with window := copy log.window (log.start + position) source count }) :
    Ensures (storeLog position source count) log done failed := by
  simp only [storeLog, Ensures.bind_iff, Ensures.get_iff, Ensures.ite_iff, if_pos fits,
    Ensures.modify_iff]
  exact after

/-- A wrap forgets the records; an empty log has a layout. -/
theorem Layout.wrap {log : Log} (layout : Layout log) :
    Layout { log with offset := 0, slots := [] } where
  start_eq := layout.start_eq
  aligned := Nat.dvd_zero 32
  bounded := Nat.zero_le _
  below := by simp
  inPage := by simp
  ordered := List.Pairwise.nil
  stored := by simp
  padded := by simp

/-- Writing zeros behind the last record and moving there keeps the layout. -/
theorem Layout.pad {log : Log} (layout : Layout log) {count : Nat} (aligned : 32 ∣ count)
    (fits : log.offset + count ≤ logspace) :
    Layout { log with
      window := copy log.window log.offset (fun _ => 0) count
      offset := log.offset + count } where
  start_eq := layout.start_eq
  aligned := Nat.dvd_add layout.aligned aligned
  bounded := fits
  below := fun slot member => Nat.le_trans (layout.below slot member) (Nat.le_add_right _ _)
  inPage := layout.inPage
  ordered := layout.ordered
  stored := by
    intro slot member
    refine Eq.trans ?_ (layout.stored slot member)
    exact slice_copy_outside log.window (fun _ => 0) (Or.inl (layout.below slot member))
  padded := by
    intro position bound outside
    change position < log.offset + count at bound
    by_cases old : position < log.offset
    · refine Eq.trans ?_ (layout.padded position old outside)
      exact copy_outside log.window (fun _ => 0) (Or.inl old)
    · exact copy_inside log.window (fun _ => 0) (Nat.le_of_not_lt old) bound

/-- Copying a record behind the last one keeps the layout. -/
theorem Layout.record {log : Log} (layout : Layout log) {entry : LogEntry}
    (fits : log.offset + entry.size ≤ logspace)
    (inPage : entry.flag ≠ 0 -> log.offset % gBlockSizeBytes + 64 ≤ gBlockSizeBytes) :
    Layout { log with
      window := copy log.window log.offset (fun index => entry.bytes.getD index 0) entry.size
      offset := log.offset + entry.size
      slots := log.slots ++ [(log.offset, entry)] } where
  start_eq := layout.start_eq
  aligned := by
    refine Nat.dvd_add layout.aligned ?_
    unfold LogEntry.size
    rcases recordSize_cases entry.flag with small | large <;> omega
  bounded := fits
  below := by
    intro slot member
    rcases List.mem_append.mp member with old | new
    · exact Nat.le_trans (layout.below slot old) (Nat.le_add_right _ _)
    · have same := List.mem_singleton.mp new
      exact Nat.le_of_eq (by rw [same])
  inPage := by
    intro slot member flagged
    rcases List.mem_append.mp member with old | new
    · exact layout.inPage slot old flagged
    · rw [List.mem_singleton.mp new] at flagged ⊢
      exact inPage flagged
  ordered := by
    refine List.pairwise_append.mpr ⟨layout.ordered, List.pairwise_singleton _ _, ?_⟩
    intro first member second new
    rw [List.mem_singleton.mp new]
    exact layout.below first member
  stored := by
    intro slot member
    rcases List.mem_append.mp member with old | new
    · refine Eq.trans ?_ (layout.stored slot old)
      exact slice_copy_outside log.window (fun index => entry.bytes.getD index 0)
        (Or.inl (layout.below slot old))
    · rw [List.mem_singleton.mp new]
      exact (slice_copy_inside log.window _ log.offset entry.size).trans (slice_entry entry)
  padded := by
    intro position bound outside
    change position < log.offset + entry.size at bound
    have notNew := outside (log.offset, entry) (by simp)
    have old : position < log.offset := by
      rcases notNew with before | behind
      · exact before
      · exact absurd bound (Nat.not_lt.mpr behind)
    refine Eq.trans ?_ (layout.padded position old (fun slot member =>
      outside slot (List.mem_append_left _ member)))
    exact copy_outside log.window (fun index => entry.bytes.getD index 0) (Or.inl old)

/-- A record was placed behind the given slots: the layout holds again, nothing is
handed over, and `logoffset` stands behind the record. -/
structure Placed (slots : List (Nat × LogEntry)) (handed : List HandedRange) (entry : LogEntry)
    (next : Log) : Prop where
  layout : Layout next
  handed : next.handed = handed
  last : Exists fun position => next.slots = slots ++ [(position, entry)] ∧
    next.offset = position + entry.size

/-- The slots that one more append keeps: a wrap forgets them all. -/
def Log.keptSlots (log : Log) : List (Nat × LogEntry) :=
  if logspace < log.offset + 64 then [] else log.slots

theorem ensures_copyRecord {log : Log} (layout : Layout log) (entry : LogEntry)
    (fits : log.offset + entry.size ≤ logspace)
    (inPage : entry.flag ≠ 0 -> log.offset % gBlockSizeBytes + 64 ≤ gBlockSizeBytes) :
    Ensures (copyRecord entry) log (fun _ next => Placed log.slots log.handed entry next)
      (fun _ _ => False) := by
  simp only [copyRecord, Ensures.bind_iff, Ensures.get_iff, Ensures.modify_iff]
  have start := layout.start_eq
  refine ensures_storeLog (by omega) ⟨?_, rfl, log.offset, ?_, rfl⟩
  · simpa only [start, Nat.zero_add] using layout.record fits inPage
  · simp only [start, Nat.zero_add]

/-- Padding a nearly full page ends at the start of a page inside the window. -/
theorem ensures_padPage {log : Log} (layout : Layout log)
    (crossing : gBlockSizeBytes < log.offset % gBlockSizeBytes + 64)
    (room : log.offset + 64 ≤ logspace) :
    Ensures padPage log
      (fun _ next => Layout next ∧ next.handed = log.handed ∧ next.slots = log.slots ∧
        next.offset % gBlockSizeBytes = 0 ∧ next.offset + 64 ≤ logspace)
      (fun _ _ => False) := by
  have start := layout.start_eq
  have aligned := layout.aligned
  unfold logspace gBlockSizeBytes at *
  have fits : log.offset + (4096 - log.offset % 4096) ≤ 8 * 1024 * 1024 := by omega
  have nextPage : log.offset / 4096 * 4096 + 4096 = log.offset + (4096 - log.offset % 4096) := by
    omega
  simp only [padPage, Ensures.bind_iff, Ensures.get_iff, Ensures.modify_iff]
  refine ensures_storeLog (by unfold logspace gBlockSizeBytes; omega) ⟨?_, rfl, rfl, ?_, ?_⟩
  · unfold gBlockSizeBytes
    simpa only [start, Nat.zero_add, nextPage] using layout.pad (by omega) fits
  · unfold gBlockSizeBytes
    simp only
    omega
  · unfold gBlockSizeBytes
    simp only
    omega

/-- The record part of an append, once there is room for 64 bytes. -/
theorem ensures_placeRecord {log : Log} (layout : Layout log) (entry : LogEntry)
    (room : log.offset + 64 ≤ logspace) :
    Ensures (placeRecord entry) log (fun _ next => Placed log.slots log.handed entry next)
      (fun _ _ => False) := by
  have size : entry.size ≤ 64 := by
    unfold LogEntry.size
    rcases recordSize_cases entry.flag with small | large <;> omega
  simp only [placeRecord, Ensures.bind_iff, Ensures.get_iff, Ensures.ite_iff]
  split
  · rename_i small
    exact ensures_copyRecord layout entry (by omega) (fun flagged => absurd small flagged)
  · split
    · rename_i crossing
      refine (ensures_padPage layout crossing room).mono ?_ (fun _ _ impossible => impossible)
      rintro _ middle ⟨kept, handed, slots, pageStart, stillRoom⟩
      have placed := ensures_copyRecord kept entry (by omega)
        (fun _ => by rw [pageStart]; decide)
      rw [handed, slots] at placed
      exact placed
    · rename_i inside
      exact ensures_copyRecord layout entry (by omega) (fun _ => Nat.le_of_not_lt inside)

/-- `append_entry_log` never leaves the window and keeps the layout; the slots are
forgotten exactly if 64 bytes more do not fit. -/
theorem ensures_appendEntryLog {log : Log} (layout : Layout log) (entry : LogEntry) :
    Ensures (appendEntryLog entry) log (fun _ next => Placed log.keptSlots log.handed entry next)
      (fun _ _ => False) := by
  simp only [appendEntryLog, Log.keptSlots, Ensures.bind_iff, Ensures.get_iff, Ensures.ite_iff,
    Ensures.modify_iff]
  split
  case isTrue =>
    have room : 0 + 64 ≤ logspace := by decide
    exact ensures_placeRecord layout.wrap entry room
  case isFalse room => exact ensures_placeRecord layout entry (Nat.le_of_not_lt room)

/-- The record that was placed last holds its bytes. -/
theorem Placed.bytes {slots : List (Nat × LogEntry)} {handed : List HandedRange} {entry : LogEntry}
    {next : Log} (placed : Placed slots handed entry next) :
    Exists fun position => next.slots = slots ++ [(position, entry)] ∧
      next.offset = position + entry.size ∧ slice next.window position entry.size = entry.bytes := by
  rcases placed.last with ⟨position, last, offset⟩
  refine ⟨position, last, offset, placed.layout.stored (position, entry) ?_⟩
  rw [last]
  exact List.mem_append_right _ (List.mem_singleton_self _)

/-- The layout holds and the slots are the latest of the records appended. -/
def LaidOut (past : List LogEntry) (log : Log) : Prop :=
  Layout log ∧ Exists fun dropped => past = dropped ++ log.slots.map Prod.snd

theorem ensures_appendEntryLog_laidOut (past : List LogEntry) (entry : LogEntry) (log : Log)
    (kept : LaidOut past log) :
    Ensures (appendEntryLog entry) log (fun _ next => LaidOut (past ++ [entry]) next)
      (fun _ _ => False) := by
  refine (ensures_appendEntryLog kept.1 entry).mono ?_ (fun _ _ impossible => impossible)
  intro _ next placed
  rcases kept.2 with ⟨dropped, whole⟩
  rcases placed.last with ⟨_, last, _⟩
  refine ⟨placed.layout, ?_⟩
  rw [last, Log.keptSlots]
  split
  · exact ⟨past, by simp⟩
  · exact ⟨dropped, by simp [whole]⟩

/-- The log layout after any number of appends.  `logoffset` stays a multiple
of 32 inside the window, every record lies in the window and a 64-byte record in
one page.  The records since the last wrap, which are the latest ones appended,
occupy disjoint slots in increasing order, hold their bytes, and are separated
by zeros only.  One more append never fails, puts its record behind the slots that are
there, with `logoffset` moved to its end, and forgets the slots exactly if `logoffset`
leaves less than 64 bytes of the window. -/
theorem appendEntryLog_layout (window : Nat -> UInt8) (entries : List LogEntry) :
    Ensures (runAll appendEntryLog entries) (loginit window)
      (fun _ log =>
        32 ∣ log.offset ∧ log.offset ≤ logspace ∧
          (Exists fun dropped => entries = dropped ++ log.slots.map Prod.snd) ∧
          (forall slot, slot ∈ log.slots ->
            slot.1 + slot.2.size ≤ logspace ∧
              (slot.2.flag ≠ 0 -> slot.1 % gBlockSizeBytes + 64 ≤ gBlockSizeBytes) ∧
              slice log.window slot.1 slot.2.size = slot.2.bytes) ∧
          log.slots.Pairwise (fun first second => first.1 + first.2.size ≤ second.1) ∧
          (forall position, position < log.offset ->
            (forall slot, slot ∈ log.slots ->
              position < slot.1 ∨ slot.1 + slot.2.size ≤ position) ->
            log.window position = 0) ∧
          forall entry, Ensures (appendEntryLog entry) log
            (fun _ next => Exists fun position =>
              next.slots =
                (if logspace < log.offset + 64 then [] else log.slots) ++ [(position, entry)] ∧
              next.offset = position + entry.size ∧
              slice next.window position entry.size = entry.bytes)
            (fun _ _ => False))
      (fun _ _ => False) := by
  have kept := Ensures.runAll
    (fun past entry log kept (_ : True) => ensures_appendEntryLog_laidOut past entry log kept)
    ⟨layout_loginit window, [], rfl⟩ (fun entry (_ : entry ∈ entries) => trivial)
  refine kept.mono ?_ (fun _ _ impossible => impossible)
  rintro _ log ⟨layout, latest⟩
  refine ⟨layout.aligned, layout.bounded, latest, ?_, layout.ordered, layout.padded, ?_⟩
  · intro slot member
    exact ⟨Nat.le_trans (layout.below slot member) layout.bounded, layout.inPage slot member,
      layout.stored slot member⟩
  · intro entry
    exact (ensures_appendEntryLog layout entry).mono (fun _ _ placed => placed.bytes)
      (fun _ _ impossible => impossible)

end Userfs.Filesystem
