import Mathlib.Algebra.BigOperators.Group.Finset.Basic
import Mathlib.Algebra.Order.BigOperators.Group.Finset
import Userfs.Filesystem.Directory

namespace Userfs.Filesystem

open Word

/-!
# The size of a directory

The size of a directory is the sum of the record lengths of its entries, kept up to date
by two functions that do not compute the length alike: a creation adds the record length
of the name, a removal subtracts that of `sizeof(name)`, the size of a pointer.  The two
agree on names of five to eight bytes.  There are no more live entries than inode
numbers, so the sum stays far below the sixty-four bits of the field.
-/

/-- A name that has an entry which is not a tombstone. -/
def LiveEntry (ns : Namespace) (dir : Nat) (name : Name) : Prop :=
  Exists fun tree => Exists fun uden => (ns.inode dir).dentryTree = some tree ∧
    tree name = some uden ∧ uden.addordel ≠ .delden

/-- The record lengths of `.`, of `..` and of the live names. -/
def recorded (live : Finset Name) : Nat :=
  dirRecLen 1 + dirRecLen 2 + ∑ name ∈ live, dirRecLen name.length

/-- The removals whose record length is the one that is subtracted. -/
def DirCommand.Balanced : DirCommand -> Prop
  | create _ _ _ => True
  | lookup _ => True
  | remove name => 5 ≤ name.length ∧ name.length ≤ 8

instance : (command : DirCommand) -> Decidable command.Balanced
  | .create _ _ _ => inferInstanceAs (Decidable True)
  | .lookup _ => inferInstanceAs (Decidable True)
  | .remove _ => inferInstanceAs (Decidable (_ ∧ _))

/-- The live names of a history, and a size that accounts for them. -/
def SizeAccounts (dir : Nat) (session : DirSession) : Prop :=
  Exists fun live : Finset Name =>
    (forall name, name ∈ live <-> (standing name session.history).inode ≠ none) ∧
    (forall name, name ∈ live -> name.length < dirsiz) ∧
    (session.ns.inode dir).size = recorded live

section Steps

variable {dir inodeBase : Nat} {held : List Nat} {session : DirSession} {name : Name}

/-- A name is live in the tree when the history says so. -/
theorem Mirrors.liveEntry_iff (mirrors : Mirrors dir inodeBase held session) (name : Name) :
    LiveEntry session.ns dir name <-> (standing name session.history).inode ≠ none := by
  rcases mirrors.names with ⟨tree, set, represents⟩
  have represents := represents name
  cases state : standing name session.history with
  | absent =>
      rw [state] at represents
      refine ⟨?_, fun live => absurd rfl live⟩
      rintro ⟨other, uden, setOther, entered, _⟩
      rw [set] at setOther
      cases setOther
      rw [represents.1] at entered
      cases entered
  | live ip =>
      rw [state] at represents
      rcases represents with ⟨_, _, type, entered⟩
      refine ⟨fun _ => Option.some_ne_none ip, fun _ => ⟨tree, _, set, entered, ?_⟩⟩
      exact fun dead => nomatch dead
  | gone =>
      rw [state] at represents
      rcases represents with ⟨_, uden, entered, dead⟩
      refine ⟨?_, fun live => absurd rfl live⟩
      rintro ⟨other, found, setOther, enteredOther, alive⟩
      rw [set] at setOther
      cases setOther
      rw [entered] at enteredOther
      cases enteredOther
      exact absurd dead alive

/-- Every live name holds an inode number. -/
theorem Mirrors.card_live (mirrors : Mirrors dir inodeBase held session) {live : Finset Name}
    (members : forall name, name ∈ live -> (standing name session.history).inode ≠ none) :
    live.card ≤ inonum := by
  rcases mirrors.numbers with ⟨entries, listed, conserved⟩
  have included : live ⊆ (entries.map Prod.fst).toFinset := by
    intro name member
    have alive := members name member
    cases state : standing name session.history with
    | absent =>
        rw [state] at alive
        exact absurd rfl alive
    | gone =>
        rw [state] at alive
        exact absurd rfl alive
    | live ip =>
        exact List.mem_toFinset.mpr (List.mem_map.mpr ⟨_, listed name ip state, rfl⟩)
  have whole := conserved.whole.length_eq
  simp only [List.length_append, List.length_map, sessionNumbers, List.length_range] at whole
  calc live.card ≤ (entries.map Prod.fst).toFinset.card := Finset.card_le_card included
    _ ≤ (entries.map Prod.fst).length := List.toFinset_card_le _
    _ = entries.length := List.length_map _
    _ ≤ inonum := by omega

/-- The recorded lengths do not overflow. -/
theorem Mirrors.recorded_lt (mirrors : Mirrors dir inodeBase held session) {live : Finset Name}
    (members : forall name, name ∈ live -> (standing name session.history).inode ≠ none)
    (short : forall name, name ∈ live -> name.length < dirsiz) : recorded live < 2 ^ 64 := by
  have each : forall name, name ∈ live -> dirRecLen name.length ≤ 44 := by
    intro name member
    have bound := short name member
    unfold dirsiz at bound
    unfold dirRecLen
    omega
  have sum : ∑ name ∈ live, dirRecLen name.length ≤ live.card * 44 :=
    Finset.sum_le_card_nsmul live _ 44 each
  have card := mirrors.card_live members
  unfold inonum at card
  rw [recorded]
  change 16 + 16 + _ < _
  omega

theorem recorded_insert {live : Finset Name} (new : name ∉ live) :
    recorded (insert name live) = recorded live + dirRecLen name.length := by
  rw [recorded, recorded, Finset.sum_insert new]
  omega

theorem recorded_erase {live : Finset Name} (member : name ∈ live) :
    recorded live = recorded (live.erase name) + dirRecLen name.length := by
  rw [recorded, recorded, ← Finset.add_sum_erase live (fun name => dirRecLen name.length) member]
  omega

/-- An event that changes neither the size nor what is live. -/
theorem SizeAccounts.unchanged (accounted : SizeAccounts dir session) {ns : Namespace}
    {history : List DirEvent} (size : (ns.inode dir).size = (session.ns.inode dir).size)
    (same : forall name, (standing name history).inode ≠ none <->
      (standing name session.history).inode ≠ none) :
    SizeAccounts dir ⟨ns, history⟩ := by
  rcases accounted with ⟨live, members, short, total⟩
  exact ⟨live, fun name => (members name).trans (same name).symm, short, size.trans total⟩

/-- A creation adds the record length of a name that was not live. -/
theorem SizeAccounts.create (accounted : SizeAccounts dir session)
    (mirrors : Mirrors dir inodeBase held session) {path : List Char} {type : FileType}
    (nameFits : name.length < dirsiz) (short : path.length < maxPath) :
    Ensures (openIn dir name name path type) session.ns
      (fun ip ns => SizeAccounts dir ⟨ns, .created name ip :: session.history⟩)
      (fun fault _ => fault = .panic "cannot allocate inode\n") := by
  refine (mirrors.ensures_openIn_exact short).mono ?_ (fun _ _ exhausted => exhausted.1)
  intro ip ns outcome
  rcases outcome with ⟨state, same⟩ | ⟨unnamed, address, room, same⟩
  · apply accounted.unchanged
    · rw [same]
      exact size_takeRef dir session.ns ip
    · intro other
      by_cases here : name = other
      · rw [← here, standing, if_pos rfl, state]
      · rw [standing, if_neg here]
  · rcases accounted with ⟨live, members, fits, total⟩
    have made := @Mirrors.created dir inodeBase held session name path type mirrors room
    have fresh : name ∉ live := fun member => (members name).mp member unnamed
    have insertMembers : forall other, other ∈ insert name live <->
        (standing other (.created name session.ns.next :: session.history)).inode ≠ none := by
      intro other
      rw [Finset.mem_insert, members other]
      by_cases here : name = other
      · rw [standing, if_pos here]
        simp [Standing.inode, here]
      · rw [standing, if_neg here]
        simp [Ne.symm here]
    have insertFits : forall other, other ∈ insert name live -> other.length < dirsiz := by
      intro other member
      rcases Finset.mem_insert.mp member with here | old
      · rw [here]
        exact nameFits
      · exact fits other old
    have bound := made.recorded_lt (fun other member => (insertMembers other).mp member) insertFits
    rw [recorded_insert fresh] at bound
    rw [address, same]
    refine ⟨insert name live, insertMembers, insertFits, ?_⟩
    change ((session.ns.grown dir name path type).inode dir).size = _
    rw [grown_inode_self session.ns (Nat.ne_of_lt mirrors.allocated), total,
      recorded_insert fresh]
    exact add64_of_lt bound

/-- A removal subtracts the record length of a name of eight bytes. -/
theorem SizeAccounts.remove (base : ValidBase inodeBase) (accounted : SizeAccounts dir session)
    (mirrors : Mirrors dir inodeBase held session)
    (balanced : 5 ≤ name.length ∧ name.length ≤ 8) :
    Ensures (dirRemoveEntry dir name) session.ns
      (fun _ ns => SizeAccounts dir ⟨ns, .removed name :: session.history⟩)
      (fun _ _ => False) := by
  refine (mirrors.ensures_dirRemoveEntry_exact base).mono ?_ (fun _ _ impossible => impossible)
  intro status ns outcome
  -- only a live name stops being live
  have later : forall other, (standing other (.removed name :: session.history)).inode =
      if name = other then none else (standing other session.history).inode := by
    intro other
    rw [standing]
    by_cases here : name = other
    · rw [if_pos here, if_pos here]
      cases standing other session.history <;> rfl
    · rw [if_neg here, if_neg here]
  have untouched : (standing name session.history).inode = none -> ns = session.ns ->
      SizeAccounts dir ⟨ns, .removed name :: session.history⟩ := by
    intro dead same
    apply accounted.unchanged (by rw [same])
    intro other
    rw [later]
    by_cases here : name = other
    · rw [if_pos here, ← here, dead]
    · rw [if_neg here]
  cases state : standing name session.history with
  | absent =>
      rw [state] at outcome untouched
      exact untouched rfl outcome.2
  | gone =>
      rw [state] at outcome untouched
      exact untouched rfl outcome.2
  | live ip =>
      rw [state] at outcome
      rcases outcome with ⟨_, type, same⟩
      rcases accounted with ⟨live, members, fits, total⟩
      have member : name ∈ live := (members name).mpr (by rw [state]; exact Option.some_ne_none ip)
      have bound := mirrors.recorded_lt (fun other member => (members other).mp member) fits
      have length : dirRecLen name.length = dirRecLen 8 := by
        unfold dirRecLen
        omega
      have whole := recorded_erase member
      rw [length] at whole
      rw [same]
      refine ⟨live.erase name, ?_, fun other kept => fits other (Finset.mem_of_mem_erase kept), ?_⟩
      · intro other
        rw [Finset.mem_erase, members other, later]
        by_cases here : name = other
        · simp [here]
        · simp [here, Ne.symm here]
      · change ((session.ns.withoutEntry dir name _).inode dir).size = _
        rw [withoutEntry_inode_self, total]
        change sub64 (recorded live) (dirRecLen 8) = _
        rw [sub64_of_le (by omega) bound]
        omega

theorem SizeAccounts.execute (base : ValidBase inodeBase) (accounted : SizeAccounts dir session)
    (mirrors : Mirrors dir inodeBase held session) (command : DirCommand)
    (admissible : command.Admissible) (balanced : command.Balanced) :
    Ensures (command.execute dir) session (fun _ next => SizeAccounts dir next)
      (fun fault _ => fault = .panic "cannot allocate inode\n") := by
  cases command with
  | create name path type =>
      exact ensures_recording.mpr (accounted.create mirrors admissible.2.1 admissible.2.2)
  | lookup name =>
      refine ensures_recording.mpr (mirrors.ensures_dirLookup.mono ?_ (fun _ _ none => none.elim))
      intro _ ns looked
      exact accounted.unchanged looked.2.2 (fun _ => Iff.rfl)
  | remove name =>
      refine ensures_recording.mpr ?_
      exact (accounted.remove base mirrors balanced).mono (fun _ _ done => done)
        (fun _ _ impossible => impossible.elim)

end Steps

/-- In a new directory, after creations, lookups and removals of names of five to eight
bytes, the size is the sum of the record lengths of the live entries. -/
theorem directory_size_accounts {dir inodeBase : Nat} {held : List Nat} {ns : Namespace}
    (base : ValidBase inodeBase) (conserved : Conserved inodeBase ⟨ns.table, held⟩)
    (new : NewDirectory dir ns) (size : (ns.inode dir).size = dirRecLen 1 + dirRecLen 2)
    (commands : List DirCommand)
    (admissible : forall command, command ∈ commands -> command.Admissible)
    (balanced : forall command, command ∈ commands -> command.Balanced) :
    Ensures (runAll (DirCommand.execute dir) commands) ⟨ns, []⟩
      (fun _ session => Exists fun live : Finset Name =>
        (forall name, name ∈ live <-> LiveEntry session.ns dir name) ∧
        (session.ns.inode dir).size = recorded live)
      (fun fault _ => fault = .panic "cannot allocate inode\n") := by
  have start : Mirrors dir inodeBase held ⟨ns, []⟩ ∧ SizeAccounts dir ⟨ns, []⟩ := by
    refine ⟨new.mirrors conserved, ∅, fun name => ?_, fun name none => ?_, size⟩
    · simp [standing, Standing.inode]
    · exact absurd none (Finset.notMem_empty name)
  have run := Ensures.runAll_state
    (fun command session (invariant : Mirrors dir inodeBase held session ∧ SizeAccounts dir session)
        (allowed : command.Admissible ∧ command.Balanced) =>
      ((invariant.1.execute base command allowed.1).and
        (invariant.2.execute base invariant.1 command allowed.1 allowed.2)).mono
          (fun _ _ both => both) (fun _ _ fault => fault.2))
    start (fun command member => ⟨admissible command member, balanced command member⟩)
  refine run.mono ?_ (fun _ _ fault => fault)
  rintro _ session ⟨mirrors, live, members, _, total⟩
  exact ⟨live, fun name => (members name).trans (mirrors.liveEntry_iff name).symm, total⟩

/-- A name of five bytes is created and removed, one of a single byte stays. -/
theorem directory_size_accounts_five_bytes :
    Ensures (runAll (DirCommand.execute 0)
        [.create ['a'] ['/', 'a'] .file, .create ['b', 'r', 'i', 'e', 'f'] ['/', 'b'] .file,
          .remove ['b', 'r', 'i', 'e', 'f']])
      ⟨Namespace.start Kernel.bare (fun _ => 0) 32 0, []⟩
      (fun _ session => Exists fun live : Finset Name =>
        (forall name, name ∈ live <-> LiveEntry session.ns 0 name) ∧
        (session.ns.inode 0).size = recorded live)
      (fun fault _ => fault = .panic "cannot allocate inode\n") :=
  directory_size_accounts Kernel.bare.validBase
    (conserved_start Kernel.bare.validBase (fun _ => 0)) ⟨by decide, rfl, rfl, rfl, rfl⟩ rfl _
    (by decide) (by decide)

/-- A name of one byte is created and removed: the directory is empty again and four
bytes smaller than at the start. -/
theorem directory_size_drifts :
    Ensures (runAll (DirCommand.execute 0) [.create ['a'] ['/', 'a'] .file, .remove ['a']])
      ⟨Namespace.start Kernel.bare (fun _ => 0) 32 0, []⟩
      (fun _ session => (session.ns.inode 0).size = 28 ∧ recorded ∅ = 32 ∧
        standing ['a'] session.history = .gone)
      (fun _ _ => False) := by
  decide +kernel

end Userfs.Filesystem
