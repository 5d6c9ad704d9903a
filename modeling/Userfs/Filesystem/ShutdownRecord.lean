import Userfs.Filesystem.Log

namespace Userfs.Filesystem

open Memory

/-!
# The record written at shutdown

`append_addrinfo_log` copies the allocation counters behind the log.  Its position is
`logoffset`, unless the record would not fit the page: then the next page is meant, but
`>>` binds weaker than `+`, so the offset is halved before it is rounded.  The capacity
of the window is not tested at all.  The position is therefore right exactly when the
record fits both the page and the window at `logoffset`.
-/

/-- The offset at which `append_addrinfo_log` copies its record. -/
def addrinfoOffset (offset : Nat) : Nat :=
  if gBlockSizeBytes - 40 < offset % gBlockSizeBytes then offset >>> (12 + 1) <<< 12 else offset

/-- The record was copied behind the log, inside the window and inside a page, and the
records of the log still hold their bytes. -/
structure WrittenBehind (addrinfo : Nat -> UInt8) (log next : Log) : Prop where
  behind : log.offset ≤ addrinfoOffset log.offset
  inWindow : addrinfoOffset log.offset + 40 ≤ logspace
  inPage : addrinfoOffset log.offset % gBlockSizeBytes + 40 ≤ gBlockSizeBytes
  window : next.window = copy log.window (addrinfoOffset log.offset) addrinfo 40
  records : forall slot, slot ∈ log.slots -> slice next.window slot.1 slot.2.size = slot.2.bytes

section Record

variable {log : Log} {addrinfo : Nat -> UInt8}

theorem ensures_appendAddrinfoLog {done : PUnit -> Log -> Prop} {failed : Fault -> Log -> Prop} :
    Ensures (appendAddrinfoLog addrinfo) log done failed <->
      Ensures (storeLog (addrinfoOffset log.offset) addrinfo 40) log done failed := by
  simp only [appendAddrinfoLog, Ensures.bind_iff, Ensures.get_iff, Ensures.ite_iff, addrinfoOffset]
  split
  · exact Iff.rfl
  · exact Iff.rfl

/-- The rounded half of a positive offset lies before it. -/
theorem addrinfoOffset_lt {offset : Nat} (crossing : gBlockSizeBytes - 40 < offset % gBlockSizeBytes) :
    addrinfoOffset offset < offset := by
  unfold addrinfoOffset
  rw [if_pos crossing, Nat.shiftRight_eq_div_pow, Nat.shiftLeft_eq]
  unfold gBlockSizeBytes at crossing
  omega

theorem addrinfoOffset_eq {offset : Nat} (fits : offset % gBlockSizeBytes ≤ gBlockSizeBytes - 40) :
    addrinfoOffset offset = offset :=
  if_neg (Nat.not_lt.mpr fits)

/-- A record that fits the page and the window at `logoffset` is written there. -/
theorem Layout.writtenBehind (layout : Layout log)
    (inPage : log.offset % gBlockSizeBytes ≤ gBlockSizeBytes - 40)
    (inWindow : log.offset < logspace) :
    Ensures (appendAddrinfoLog addrinfo) log (fun _ next => WrittenBehind addrinfo log next)
      (fun _ _ => False) := by
  have same := addrinfoOffset_eq inPage
  have start := layout.start_eq
  have fits : log.offset + 40 ≤ logspace := by
    unfold gBlockSizeBytes logspace at *
    omega
  rw [ensures_appendAddrinfoLog, same]
  refine ensures_storeLog (by omega) ?_
  constructor
  · exact Nat.le_of_eq same.symm
  · rw [same]
    exact fits
  · rw [same]
    unfold gBlockSizeBytes at *
    omega
  · rw [same, start, Nat.zero_add]
  · intro slot member
    rw [start, Nat.zero_add]
    refine Eq.trans ?_ (layout.stored slot member)
    exact slice_copy_outside log.window addrinfo (Or.inl (layout.below slot member))

theorem Layout.writtenBehind_iff (layout : Layout log) :
    Ensures (appendAddrinfoLog addrinfo) log (fun _ next => WrittenBehind addrinfo log next)
        (fun _ _ => False) <->
      log.offset % gBlockSizeBytes ≤ gBlockSizeBytes - 40 ∧ log.offset < logspace := by
  constructor
  · intro right
    -- where the record goes does not depend on the outcome
    have placed : log.offset ≤ addrinfoOffset log.offset ∧
        addrinfoOffset log.offset + 40 ≤ logspace :=
      (right.mono (fun _ _ written => ⟨written.behind, written.inWindow⟩)
        (fun _ _ fault => fault.elim)).const
    have inPage : log.offset % gBlockSizeBytes ≤ gBlockSizeBytes - 40 := by
      apply Nat.le_of_not_lt
      intro crossing
      exact absurd placed.1 (Nat.not_le.mpr (addrinfoOffset_lt crossing))
    exact ⟨inPage, by omega⟩
  · rintro ⟨inPage, inWindow⟩
    exact layout.writtenBehind inPage inWindow

end Record

/-- After any appends since the initialisation, the shutdown record is written behind the
log, inside the window and a page, with every record unchanged, if and only if it fits
the page at `logoffset` and `logoffset` has not reached the end of the window. -/
theorem shutdown_record_behind_iff (window addrinfo : Nat -> UInt8) (entries : List LogEntry) :
    Ensures (runAll appendEntryLog entries) (loginit window)
      (fun _ log =>
        Ensures (appendAddrinfoLog addrinfo) log (fun _ next => WrittenBehind addrinfo log next)
            (fun _ _ => False) <->
          log.offset % gBlockSizeBytes ≤ gBlockSizeBytes - 40 ∧ log.offset < logspace)
      (fun _ _ => False) := by
  have run := Ensures.runAll_state
    (fun entry log (layout : Layout log) (_ : True) =>
      (ensures_appendEntryLog layout entry).mono (fun _ _ appended => appended.layout)
        (fun _ _ impossible => impossible))
    (layout_loginit window) (fun entry (_ : entry ∈ entries) => trivial)
  exact run.mono (fun _ log layout => layout.writtenBehind_iff) (fun _ _ impossible => impossible)

/-- A record of ones. -/
def onesEntry : LogEntry where
  flag := 0
  bytes := List.replicate 32 1
  length_bytes := rfl

/-- After 127 records the shutdown record overwrites the first of them. -/
theorem shutdown_record_destroys :
    Ensures (do
        runAll appendEntryLog (List.replicate 127 onesEntry)
        appendAddrinfoLog (fun _ => 0)) (loginit (fun _ => 0))
      (fun _ next => next.slots.head?.map Prod.fst = some 0 ∧
        slice next.window 0 32 ≠ onesEntry.bytes) (fun _ _ => False) := by
  decide +kernel

end Userfs.Filesystem
