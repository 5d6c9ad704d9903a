import Userfs.Filesystem.Log

namespace Userfs.Filesystem

open Memory

/-!
# What the kernel receives

A session appends records, calls `synclog` now and then, and ends with
`shutdown_fs`.  The kernel should receive every record once, separated by zero
padding at most.  `synclog` moves `logstart` but leaves `logoffset`, so the next
record is copied twice as far from `logbase` as the range just handed over
reaches; later ranges then start with bytes that were never written and overlap
each other.

Delivery is proved for the sessions in which none of the three hazards occurs:
no record is appended when the log would wrap, `synclog` is called on an empty
log only, and the allocation record of `shutdown_fs` has room in the page behind
the last record.
-/

/-- Records one after another in a byte sequence, with zeros in between. -/
inductive Arranged : List (List UInt8) -> List UInt8 -> Prop where
  | padding {pad : List UInt8} (zero : forall byte, byte ∈ pad -> byte = 0) : Arranged [] pad
  | record {pad bytes tail : List UInt8} {rest : List (List UInt8)}
      (zero : forall byte, byte ∈ pad -> byte = 0) (later : Arranged rest tail) :
      Arranged (bytes :: rest) (pad ++ (bytes ++ tail))

/-- The kernel received every record exactly once, in some order, and nothing
else but zeros. -/
def Delivered (records : List LogEntry) (log : Log) : Prop :=
  Exists fun order => order.Perm (records.map LogEntry.bytes) ∧
    Arranged order (log.handed.map HandedRange.contents).flatten

/-- The operations of a session before its end. -/
inductive LogCommand where
  | append (entry : LogEntry)
  | synclog
deriving DecidableEq

namespace LogCommand

/-- Execute one operation. -/
def execute : LogCommand -> LogM PUnit
  | append entry => appendEntryLog entry
  | synclog => Filesystem.synclog

/-- The records a list of operations appends. -/
def records : List LogCommand -> List LogEntry
  | [] => []
  | append entry :: rest => entry :: records rest
  | synclog :: rest => records rest

theorem records_append (first second : List LogCommand) :
    records (first ++ second) = records first ++ records second := by
  induction first with
  | nil => rfl
  | cons command rest ih =>
      cases command with
      | append entry => simp [records, ih]
      | synclog => simpa [records] using ih

/-- An operation that avoids the hazards: no wrap, and no `synclog` once
something was appended. -/
def Quiet : LogCommand -> Log -> Prop
  | append _, log => log.offset + 64 ≤ logspace
  | synclog, log => log.offset = 0

instance : (command : LogCommand) -> (log : Log) -> Decidable (command.Quiet log)
  | append _, log => inferInstanceAs (Decidable (log.offset + 64 ≤ logspace))
  | synclog, log => inferInstanceAs (Decidable (log.offset = 0))

end LogCommand

/-- The allocation record fits between the last record and the page end. -/
def ShutdownFits (log : Log) : Prop :=
  log.offset % gBlockSizeBytes ≤ gBlockSizeBytes - 40 ∧ log.offset < logspace

instance (log : Log) : Decidable (ShutdownFits log) :=
  inferInstanceAs (Decidable (_ ∧ _))

/-- A whole session. -/
def session (commands : List LogCommand) (addrinfo : Nat -> UInt8) : LogM PUnit := do
  runAll LogCommand.execute commands
  shutdownFs addrinfo

/-! ## Delivery by quiet sessions -/

/-- Ordered slots that hold their records in a range of zeros otherwise are an
arrangement of that range. -/
theorem arranged_slots (window : Nat -> UInt8) {slots : List (Nat × LogEntry)} {first last : Nat}
    (range : first ≤ last)
    (inside : forall slot, slot ∈ slots -> first ≤ slot.1 ∧ slot.1 + slot.2.size ≤ last)
    (ordered : slots.Pairwise (fun earlier later => earlier.1 + earlier.2.size ≤ later.1))
    (stored : forall slot, slot ∈ slots -> slice window slot.1 slot.2.size = slot.2.bytes)
    (padded : forall position, first ≤ position -> position < last ->
      (forall slot, slot ∈ slots -> position < slot.1 ∨ slot.1 + slot.2.size ≤ position) ->
      window position = 0) :
    Arranged (slots.map (fun slot => slot.2.bytes)) (slice window first (last - first)) := by
  induction slots generalizing first with
  | nil =>
      refine Arranged.padding ?_
      intro byte member
      rcases List.mem_map.mp member with ⟨index, bound, equal⟩
      have bound := List.mem_range.mp bound
      rw [← equal]
      exact padded (first + index) (by omega) (by omega) (by simp)
  | cons slot rest ih =>
      have here := inside slot List.mem_cons_self
      have order := List.pairwise_cons.mp ordered
      have split : slice window first (last - first) =
          slice window first (slot.1 - first) ++
            (slice window slot.1 slot.2.size ++
              slice window (slot.1 + slot.2.size) (last - (slot.1 + slot.2.size))) := by
        have start : slot.1 = first + (slot.1 - first) := by omega
        have length : last - first = (slot.1 - first) +
            (slot.2.size + (last - (slot.1 + slot.2.size))) := by omega
        rw [length, slice_append, slice_append, ← start]
      rw [split, stored slot List.mem_cons_self]
      refine Arranged.record ?_ (ih here.2 ?_ order.2 ?_ ?_)
      · intro byte member
        rcases List.mem_map.mp member with ⟨index, bound, equal⟩
        have bound := List.mem_range.mp bound
        rw [← equal]
        refine padded (first + index) (by omega) (by omega) ?_
        intro other otherMember
        rcases List.mem_cons.mp otherMember with same | later
        · rw [same]
          omega
        · have behind := order.1 other later
          omega
      · intro other member
        exact ⟨order.1 other member, (inside other (List.mem_cons_of_mem _ member)).2⟩
      · intro other member
        exact stored other (List.mem_cons_of_mem _ member)
      · intro position lower upper outside
        refine padded position (by omega) upper ?_
        intro other member
        rcases List.mem_cons.mp member with same | later
        · rw [same]
          exact Or.inr lower
        · exact outside other later

theorem Layout.arranged {log : Log} (layout : Layout log) :
    Arranged ((log.slots.map Prod.snd).map LogEntry.bytes) (slice log.window 0 log.offset) := by
  have arranged := arranged_slots log.window (Nat.zero_le log.offset)
    (fun slot member => ⟨Nat.zero_le _, layout.below slot member⟩) layout.ordered layout.stored
    (fun position _ bound outside => layout.padded position bound outside)
  simpa [Function.comp_def] using arranged

/-- Handing over an empty log leaves `logstart` at `logbase`. -/
theorem Layout.restart {log : Log} (layout : Layout log) (empty : log.offset = 0)
    (handed : List HandedRange) : Layout { log with handed := handed, start := log.offset } where
  start_eq := empty
  aligned := layout.aligned
  bounded := layout.bounded
  below := layout.below
  inPage := layout.inPage
  ordered := layout.ordered
  stored := layout.stored
  padded := layout.padded

/-- During a quiet session all records are in the log and none was handed
over. -/
structure Pending (past : List LogCommand) (log : Log) : Prop where
  layout : Layout log
  entries : log.slots.map Prod.snd = LogCommand.records past
  handed : (log.handed.map HandedRange.contents).flatten = []

theorem pending_loginit (window : Nat -> UInt8) : Pending [] (loginit window) :=
  ⟨layout_loginit window, rfl, rfl⟩

theorem ensures_execute_pending (past : List LogCommand) (command : LogCommand) (log : Log)
    (pending : Pending past log) (quiet : command.Quiet log) :
    Ensures command.execute log (fun _ next => Pending (past ++ [command]) next)
      (fun _ _ => False) := by
  cases command with
  | append entry =>
      refine (ensures_appendEntryLog pending.layout entry).mono ?_ (fun _ _ impossible => impossible)
      intro _ next placed
      have room : ¬ logspace < log.offset + 64 := Nat.not_lt.mpr quiet
      rcases placed.last with ⟨_, last, _⟩
      refine ⟨placed.layout, ?_, by rw [placed.handed, pending.handed]⟩
      rw [last, Log.keptSlots, if_neg room, List.map_append, pending.entries,
        LogCommand.records_append]
      rfl
  | synclog =>
      -- an empty range is handed over and `logstart` stays at `logbase`
      have empty : log.offset = 0 := quiet
      refine Ensures.modify_iff.mpr ?_
      refine ⟨?_, ?_, ?_⟩
      · exact pending.layout.restart empty _
      · rw [LogCommand.records_append]
        simpa [LogCommand.records] using pending.entries
      · simp [empty, pending.handed]

/-- When the allocation record fits, `shutdown_fs` hands over the whole log. -/
theorem ensures_shutdownFs {past : List LogCommand} {log : Log} (pending : Pending past log)
    (fits : ShutdownFits log) (addrinfo : Nat -> UInt8) :
    Ensures (shutdownFs addrinfo) log
      (fun _ next => next.slots = log.slots ∧
        (next.handed.map HandedRange.contents).flatten = slice log.window 0 log.offset)
      (fun _ _ => False) := by
  have start := pending.layout.start_eq
  have aligned := pending.layout.aligned
  have room : log.start + log.offset + 40 ≤ logspace := by
    rcases fits with ⟨inPage, inWindow⟩
    unfold gBlockSizeBytes logspace at *
    omega
  have notNear : ¬ gBlockSizeBytes - 40 < log.offset % gBlockSizeBytes :=
    Nat.not_lt.mpr fits.1
  simp only [shutdownFs, appendAddrinfoLog, handRange, Ensures.bind_iff, Ensures.get_iff,
    Ensures.ite_iff, if_neg notNear]
  refine ensures_storeLog room ?_
  have onPage : ¬ log.start % gBlockSizeBytes ≠ 0 := by simp [start]
  simp only [Ensures.modify_iff, if_neg onPage]
  refine ⟨trivial, ?_⟩
  rw [List.map_append, List.flatten_append, pending.handed]
  simp only [List.map_cons, List.map_nil, List.flatten_cons, List.flatten_nil, List.nil_append,
    List.append_nil, start, Nat.zero_add]
  exact slice_copy_outside log.window addrinfo (by omega)

/-- A session whose appends never meet a full log, whose `synclog` calls find
the log empty, and whose `shutdown_fs` finds room for the allocation record
behind the last record, keeps every record in the window and delivers each one
exactly once with nothing but zeros in between. -/
theorem session_delivers (window addrinfo : Nat -> UInt8) (commands : List LogCommand)
    (quiet : Guarded LogCommand.execute LogCommand.Quiet commands (loginit window))
    (fits : Ensures (runAll LogCommand.execute commands) (loginit window)
      (fun _ log => ShutdownFits log) (fun _ _ => True)) :
    Ensures (session commands addrinfo) (loginit window)
      (fun _ log =>
        log.slots.map Prod.snd = LogCommand.records commands ∧
          (forall slot, slot ∈ log.slots -> slot.1 + slot.2.size ≤ logspace) ∧
          Delivered (LogCommand.records commands) log)
      (fun _ _ => False) := by
  unfold session
  rw [Ensures.bind_iff]
  have run := Ensures.runAll_guarded ensures_execute_pending (pending_loginit window) quiet
  refine (run.and fits).mono ?_ (fun _ _ impossible => impossible.1)
  rintro _ middle ⟨pending, room⟩
  rw [List.nil_append] at pending
  refine (ensures_shutdownFs pending room addrinfo).mono ?_ (fun _ _ impossible => impossible)
  rintro _ log ⟨slots, contents⟩
  refine ⟨by rw [slots, pending.entries], ?_, ?_⟩
  · intro slot member
    rw [slots] at member
    exact Nat.le_trans (pending.layout.below slot member) pending.layout.bounded
  · refine ⟨_, List.Perm.refl _, ?_⟩
    rw [contents, ← pending.entries]
    exact pending.layout.arranged

/-- A session that calls `synclog` before its first record and then appends a short and a
long one satisfies the conditions. -/
theorem session_delivers_two :
    Ensures (session [.synclog, .append ⟨0, List.replicate 32 1, rfl⟩,
        .append ⟨1, List.replicate 64 2, rfl⟩] (fun _ => 7)) (loginit (fun _ => 9))
      (fun _ log => Delivered [⟨0, List.replicate 32 1, rfl⟩, ⟨1, List.replicate 64 2, rfl⟩] log)
      (fun _ _ => False) :=
  (session_delivers (fun _ => 9) (fun _ => 7) [.synclog, .append ⟨0, List.replicate 32 1, rfl⟩,
      .append ⟨1, List.replicate 64 2, rfl⟩]
    (by decide +kernel) (by decide +kernel)).mono
      (fun _ _ delivered => delivered.2.2) (fun _ _ impossible => impossible)

/-! ## A session that hands a record over twice -/

theorem Arranged.count_eq {order : List (List UInt8)} {bytes : List UInt8}
    (arranged : Arranged order bytes) {byte : UInt8} (nonzero : byte ≠ 0) :
    bytes.count byte = order.flatten.count byte := by
  have none : forall pad : List UInt8, (forall other, other ∈ pad -> other = 0) ->
      pad.count byte = 0 := by
    intro pad zero
    refine List.count_eq_zero.mpr ?_
    intro member
    exact nonzero (zero byte member)
  induction arranged with
  | padding zero => simp [none _ zero]
  | record zero later ih => simp [none _ zero, ih]

/-- Delivered records contribute each nonzero byte exactly as often as they
contain it. -/
theorem Delivered.count_eq {records : List LogEntry} {log : Log} (delivered : Delivered records log)
    {byte : UInt8} (nonzero : byte ≠ 0) :
    ((log.handed.map HandedRange.contents).flatten).count byte =
      (records.map LogEntry.bytes).flatten.count byte := by
  rcases delivered with ⟨order, permuted, arranged⟩
  rw [arranged.count_eq nonzero]
  exact permuted.flatten.count_eq byte

/-- After `append, synclog, append, synclog, synclog` the second record, copied to
position 64, lies in the ranges `[32, 96)` and `[64, 128)` that the last two calls
hand over. -/
theorem synclog_hands_record_twice :
    Ensures (session [.append ⟨0, List.replicate 32 1, rfl⟩, .synclog,
        .append ⟨0, List.replicate 32 2, rfl⟩, .synclog, .synclog] (fun _ => 0))
      (loginit (fun _ => 0))
      (fun _ _ => False)
      (fun _ log =>
        ¬ Delivered [⟨0, List.replicate 32 1, rfl⟩, ⟨0, List.replicate 32 2, rfl⟩] log) := by
  have twice : Ensures (session [.append ⟨0, List.replicate 32 1, rfl⟩, .synclog,
        .append ⟨0, List.replicate 32 2, rfl⟩, .synclog, .synclog] (fun _ => 0))
      (loginit (fun _ => 0)) (fun _ _ => False)
      (fun _ log => ((log.handed.map HandedRange.contents).flatten).count 2 ≠ 32) := by
    decide +kernel
  refine twice.mono (fun _ _ impossible => impossible) ?_
  intro _ log count delivered
  exact count (delivered.count_eq (show (2 : UInt8) ≠ 0 by decide))

end Userfs.Filesystem
