import Userfs.Filesystem.Namespace

namespace Userfs.Filesystem

/-!
# A directory is a finite map

A directory created in the session has no entries on disk.  Its names are spread over
the radix tree, in which a removed entry stays as a tombstone, the name cache and the
table of free inode numbers.  The history of creations and removals says what a name
stands for; the invariant `Mirrors` says that the three structures agree with it.
-/

/-- The operations on the entries of a directory.  A creation carries the path under
which the new inode is entered in the path cache. -/
inductive DirCommand where
  | create (name : Name) (path : List Char) (type : FileType)
  | lookup (name : Name)
  | remove (name : Name)
deriving DecidableEq, Repr

/-- What an operation did. -/
inductive DirEvent where
  | created (name : Name) (ip : Nat)
  | looked (name : Name)
  | removed (name : Name)
deriving DecidableEq, Repr

/-- The name space and what happened to the directory so far, latest event first. -/
structure DirSession where
  ns : Namespace
  history : List DirEvent

/-- Run a program of the name space and record an event. -/
def recording {X : Type} (program : Ns X) (event : X -> DirEvent) : EStateM Fault DirSession PUnit :=
  fun session =>
    match program.run session.ns with
    | .ok result ns => .ok PUnit.unit ⟨ns, event result :: session.history⟩
    | .error fault ns => .error fault ⟨ns, session.history⟩

theorem ensures_recording {X : Type} {program : Ns X} {event : X -> DirEvent} {session : DirSession}
    {done : PUnit -> DirSession -> Prop} {failed : Fault -> DirSession -> Prop} :
    Ensures (recording program event) session done failed <->
      Ensures program session.ns
        (fun result ns => done PUnit.unit ⟨ns, event result :: session.history⟩)
        (fun fault ns => failed fault ⟨ns, session.history⟩) := by
  unfold Ensures
  simp only [recording, EStateM.run]
  cases program session.ns <;> rfl

/-- Execute an operation on a directory. -/
def DirCommand.execute (dir : Nat) : DirCommand -> EStateM Fault DirSession PUnit
  | create name path type => recording (openIn dir name name path type) (DirEvent.created name)
  | lookup name => recording (dirLookup dir name) (fun _ => .looked name)
  | remove name => recording (dirRemoveEntry dir name) (fun _ => .removed name)

/-- The operations of interest: names are not empty and shorter than `DIRSIZ`, paths
fit their buffer. -/
def DirCommand.Admissible : DirCommand -> Prop
  | create name path _ => name ≠ [] ∧ name.length < dirsiz ∧ path.length < maxPath
  | lookup name => name ≠ [] ∧ name.length < dirsiz
  | remove name => name ≠ [] ∧ name.length < dirsiz

instance : (command : DirCommand) -> Decidable command.Admissible
  | .create _ _ _ => inferInstanceAs (Decidable (_ ∧ _))
  | .lookup _ => inferInstanceAs (Decidable (_ ∧ _))
  | .remove _ => inferInstanceAs (Decidable (_ ∧ _))

/-- What a name stands for. -/
inductive Standing where
  | absent
  | live (ip : Nat)
  | gone
deriving DecidableEq, Repr

/-- A removal leaves a name that never existed alone. -/
def Standing.afterRemoval : Standing -> Standing
  | absent => absent
  | live _ => gone
  | gone => gone

/-- The inode a name stands for. -/
def Standing.inode : Standing -> Option Nat
  | absent => none
  | live ip => some ip
  | gone => none

/-- What a name stands for after a history: the last creation or removal decides. -/
def standing (name : Name) : List DirEvent -> Standing
  | [] => .absent
  | .created other ip :: past => if other = name then .live ip else standing name past
  | .looked _ :: past => standing name past
  | .removed other :: past =>
      if other = name then (standing name past).afterRemoval else standing name past

/-! ## The invariant -/

/-- The entry of the tree and of the name cache that a name must have. -/
def Represents (ns : Namespace) (tree : Name -> Option Dentry) (cache : Name -> Option Nat)
    (name : Name) : Standing -> Prop
  | .absent => tree name = none ∧ cache name = none
  | .live ip => cache name = some ip ∧ ip < ns.next ∧
      Exists fun type => tree name = some ⟨.addden, (ns.inode ip).inum, type⟩
  | .gone => cache name = none ∧
      Exists fun uden => tree name = some uden ∧ uden.addordel = .delden

/-- The three structures agree with the history.  The list `entries` has the live names
with their numbers, `held` the numbers in use elsewhere. -/
structure Mirrors (dir inodeBase : Nat) (held : List Nat) (session : DirSession) : Prop where
  allocated : dir < session.ns.next
  directory : (session.ns.inode dir).itype = .dir
  memory : (session.ns.inode dir).root = 0
  names : Exists fun tree => (session.ns.inode dir).dentryTree = some tree ∧
    forall name, Represents session.ns tree (session.ns.inode dir).deCache name
      (standing name session.history)
  numbers : Exists fun entries : List (Name × Nat) =>
    (forall name ip, standing name session.history = .live ip ->
      (name, (session.ns.inode ip).inum) ∈ entries) ∧
    Conserved inodeBase ⟨session.ns.table, entries.map Prod.snd ++ held⟩

/-- A step that changes reference counts only. -/
structure Unmoved (dir : Nat) (ns next : Namespace) : Prop where
  addresses : next.next = ns.next
  table : next.table = ns.table
  itype : (next.inode dir).itype = (ns.inode dir).itype
  root : (next.inode dir).root = (ns.inode dir).root
  tree : (next.inode dir).dentryTree = (ns.inode dir).dentryTree
  cache : (next.inode dir).deCache = (ns.inode dir).deCache
  inum : forall ip, (next.inode ip).inum = (ns.inode ip).inum

theorem Unmoved.refl (dir : Nat) (ns : Namespace) : Unmoved dir ns ns :=
  ⟨rfl, rfl, rfl, rfl, rfl, rfl, fun _ => rfl⟩

theorem size_takeRef (dir : Nat) (ns : Namespace) (ip : Nat) :
    ((ns.update ip (fun inode => { inode with iRef := inode.iRef + 1 })).inode dir).size =
      (ns.inode dir).size := by
  by_cases here : dir = ip
  · rw [here, update_inode_self]
  · rw [update_inode_other ns _ here]

theorem unmoved_takeRef (dir : Nat) (ns : Namespace) (ip : Nat) :
    Unmoved dir ns (ns.update ip (fun inode => { inode with iRef := inode.iRef + 1 })) := by
  have same : forall other, Exists fun iRef =>
      (ns.update ip (fun inode => { inode with iRef := inode.iRef + 1 })).inode other =
        { ns.inode other with iRef := iRef } := by
    intro other
    by_cases here : other = ip
    · rw [here, update_inode_self]
      exact ⟨_, rfl⟩
    · rw [update_inode_other ns _ here]
      exact ⟨_, rfl⟩
  rcases same dir with ⟨iRef, equal⟩
  refine ⟨rfl, rfl, ?_, ?_, ?_, ?_, ?_⟩
  · rw [equal]
  · rw [equal]
  · rw [equal]
  · rw [equal]
  · intro other
    rcases same other with ⟨iRef, equal⟩
    rw [equal]

section Steps

variable {dir inodeBase : Nat} {held : List Nat} {session : DirSession} {name : Name}

theorem Represents.transport {ns next : Namespace} {tree : Name -> Option Dentry}
    {cache : Name -> Option Nat} {state : Standing} (addresses : ns.next ≤ next.next)
    (inum : forall ip, ip < ns.next -> (next.inode ip).inum = (ns.inode ip).inum)
    (represents : Represents ns tree cache name state) :
    Represents next tree cache name state := by
  cases state with
  | absent => exact represents
  | gone => exact represents
  | live ip =>
      rcases represents with ⟨cached, bound, type, entered⟩
      refine ⟨cached, Nat.lt_of_lt_of_le bound addresses, type, ?_⟩
      rw [inum ip bound]
      exact entered

/-- Only the entries of the name itself matter. -/
theorem Represents.of_eq {ns : Namespace} {tree otherTree : Name -> Option Dentry}
    {cache otherCache : Name -> Option Nat} {state : Standing}
    (treeEq : otherTree name = tree name) (cacheEq : otherCache name = cache name)
    (represents : Represents ns tree cache name state) :
    Represents ns otherTree otherCache name state := by
  cases state with
  | absent => exact ⟨treeEq.trans represents.1, cacheEq.trans represents.2⟩
  | gone =>
      rcases represents with ⟨uncached, uden, entered, dead⟩
      exact ⟨cacheEq.trans uncached, uden, treeEq.trans entered, dead⟩
  | live ip =>
      rcases represents with ⟨cached, bound, type, entered⟩
      exact ⟨cacheEq.trans cached, bound, type, treeEq.trans entered⟩

/-- A step that moves nothing and a history that says the same. -/
theorem Mirrors.unmoved {ns : Namespace} {history : List DirEvent}
    (mirrors : Mirrors dir inodeBase held session) (unmoved : Unmoved dir session.ns ns)
    (same : forall name, standing name history = standing name session.history) :
    Mirrors dir inodeBase held ⟨ns, history⟩ := by
  rcases mirrors.names with ⟨tree, set, represents⟩
  rcases mirrors.numbers with ⟨entries, listed, conserved⟩
  constructor
  case allocated =>
    change dir < ns.next
    rw [unmoved.addresses]
    exact mirrors.allocated
  case directory => exact unmoved.itype.trans mirrors.directory
  case memory => exact unmoved.root.trans mirrors.memory
  case names =>
    refine ⟨tree, unmoved.tree.trans set, ?_⟩
    intro name
    change Represents ns tree (ns.inode dir).deCache name (standing name history)
    rw [unmoved.cache, same]
    exact (represents name).transport (Nat.le_of_eq unmoved.addresses.symm)
      (fun ip _ => unmoved.inum ip)
  case numbers =>
    refine ⟨entries, ?_, ?_⟩
    · intro name ip live
      change standing name history = _ at live
      rw [same] at live
      change (name, (ns.inode ip).inum) ∈ entries
      rw [unmoved.inum]
      exact listed name ip live
    · change Conserved inodeBase ⟨ns.table, _⟩
      rw [unmoved.table]
      exact conserved

theorem Mirrors.not_unread (mirrors : Mirrors dir inodeBase held session) :
    ¬ (session.ns.inode dir).Unread := by
  intro unread
  have root := unread.1
  rw [mirrors.memory] at root
  exact Nat.lt_irrefl 0 root

/-- A tree without an entry on disk finds what is in memory. -/
theorem Mirrors.ensures_dirSearch (mirrors : Mirrors dir inodeBase held session)
    {tree : Name -> Option Dentry} (set : (session.ns.inode dir).dentryTree = some tree)
    {done : Option Dentry -> Namespace -> Prop} {failed : Fault -> Namespace -> Prop} :
    Ensures (dirSearch dir name) session.ns done failed <-> done (tree name) session.ns := by
  rw [dirSearch, Ensures.bind_iff, ensures_artSearch set]
  cases found : tree name with
  | some uden => exact Ensures.pure_iff
  | none =>
      simp only [searchAgain, Ensures.bind_iff, ensures_nsInode, if_neg mirrors.not_unread,
        Ensures.pure_iff, ensures_artSearch set, found, mirrors.memory, Nat.lt_irrefl, if_false]

/-- `dir_lookup` finds the inode a name stands for and moves nothing. -/
theorem Mirrors.ensures_dirLookup (mirrors : Mirrors dir inodeBase held session) :
    Ensures (dirLookup dir name) session.ns
      (fun found ns => found = (standing name session.history).inode ∧
        Unmoved dir session.ns ns ∧ (ns.inode dir).size = (session.ns.inode dir).size)
      (fun _ _ => False) := by
  rcases mirrors.names with ⟨tree, set, represents⟩
  have represents := represents name
  rw [dirLookup, lookupHolding, Ensures.bind_iff, ensures_nsInode,
    if_neg (not_not.mpr mirrors.directory)]
  cases state : standing name session.history with
  | live ip =>
      rw [state] at represents
      rw [represents.1]
      simp only [takeRef, Ensures.bind_iff, ensures_onInode, Ensures.pure_iff]
      exact ⟨rfl, unmoved_takeRef dir session.ns ip, size_takeRef dir session.ns ip⟩
  | absent =>
      rw [state] at represents
      rw [represents.2]
      simp only [Ensures.bind_iff, mirrors.ensures_dirSearch set, represents.1, Ensures.pure_iff]
      exact ⟨rfl, Unmoved.refl dir session.ns, trivial⟩
  | gone =>
      rw [state] at represents
      rcases represents with ⟨uncached, uden, entered, dead⟩
      rw [uncached]
      simp only [Ensures.bind_iff, mirrors.ensures_dirSearch set, entered, useDentry, if_pos dead,
        Ensures.pure_iff]
      exact ⟨rfl, Unmoved.refl dir session.ns, trivial⟩

/-! ### Removal -/

theorem Mirrors.live_number (base : ValidBase inodeBase)
    (mirrors : Mirrors dir inodeBase held session) {ip : Nat}
    (live : standing name session.history = .live ip) : 0 < (session.ns.inode ip).inum := by
  rcases mirrors.numbers with ⟨entries, listed, conserved⟩
  have member : (session.ns.inode ip).inum ∈ entries.map Prod.snd ++ held :=
    List.mem_append_left _ (List.mem_map.mpr ⟨_, listed name ip live, rfl⟩)
  exact (conserved.live_valid base member).1

theorem withoutEntry_inode_self (ns : Namespace) (dir : Nat) (name : Name) (uden : Dentry) :
    (ns.withoutEntry dir name uden).inode dir =
      { (ns.inode dir).artInsert name { uden with addordel := .delden } with
        size := Word.sub64 (ns.inode dir).size (dirRecLen 8)
        deCache := Function.update (ns.inode dir).deCache name none } := by
  unfold Namespace.withoutEntry
  rw [update_inode_self]

theorem withoutEntry_inum (ns : Namespace) (dir : Nat) (name : Name) (uden : Dentry) (ip : Nat) :
    ((ns.withoutEntry dir name uden).inode ip).inum = (ns.inode ip).inum := by
  by_cases here : ip = dir
  · rw [here, withoutEntry_inode_self]
    rfl
  · unfold Namespace.withoutEntry
    rw [update_inode_other _ _ here]

/-- The numbers in use without the one that is put back. -/
theorem Conserved.put_entry {table : InodeTable} {entries : List (Name × Nat)} {ino : Nat}
    (base : ValidBase inodeBase)
    (conserved : Conserved inodeBase ⟨table, entries.map Prod.snd ++ held⟩)
    (member : (name, ino) ∈ entries) :
    Conserved inodeBase
      ⟨(putInodeBitmap table ino).2, (entries.erase (name, ino)).map Prod.snd ++ held⟩ := by
  have listed : ino ∈ entries.map Prod.snd ++ held :=
    List.mem_append_left _ (List.mem_map.mpr ⟨_, member, rfl⟩)
  have put := Ensures.modify_iff.mp (conserved.put base listed)
  refine ⟨put.stacked, List.Perm.trans ?_ put.whole⟩
  apply List.Perm.append_right
  -- taking the entry out of the list takes its number out of the numbers
  have split : (entries.map Prod.snd ++ held).Perm
      (ino :: ((entries.erase (name, ino)).map Prod.snd ++ held)) := by
    have front := (List.perm_cons_erase member).map Prod.snd
    exact front.append_right held
  have erased := split.erase ino
  rw [List.erase_cons_head] at erased
  exact erased.symm

theorem Mirrors.removed (base : ValidBase inodeBase) (mirrors : Mirrors dir inodeBase held session)
    {ip : Nat} (live : standing name session.history = .live ip) (type : FileType) :
    Mirrors dir inodeBase held
      ⟨session.ns.withoutEntry dir name ⟨.addden, (session.ns.inode ip).inum, type⟩,
        .removed name :: session.history⟩ := by
  rcases mirrors.names with ⟨tree, set, represents⟩
  rcases mirrors.numbers with ⟨entries, listed, conserved⟩
  have self := withoutEntry_inode_self session.ns dir name
    ⟨.addden, (session.ns.inode ip).inum, type⟩
  have inum := withoutEntry_inum session.ns dir name ⟨.addden, (session.ns.inode ip).inum, type⟩
  have addresses : session.ns.next ≤ (session.ns.withoutEntry dir name
      ⟨.addden, (session.ns.inode ip).inum, type⟩).next := Nat.le_refl _
  constructor
  case allocated => exact mirrors.allocated
  case directory =>
    rw [self]
    exact mirrors.directory
  case memory =>
    rw [self]
    exact mirrors.memory
  case names =>
    refine ⟨Function.update tree name (some ⟨.delden, (session.ns.inode ip).inum, type⟩), ?_, ?_⟩
    · rw [self]
      simp only [NsInode.artInsert, set, Option.map_some]
    · intro other
      rw [self]
      by_cases same : name = other
      · rw [← same, standing, if_pos rfl, live]
        exact ⟨Function.update_self .., _, Function.update_self .., rfl⟩
      · rw [standing, if_neg same]
        apply Represents.of_eq (Function.update_of_ne (Ne.symm same) ..)
          (Function.update_of_ne (Ne.symm same) ..)
        exact (represents other).transport addresses (fun ip _ => inum ip)
  case numbers =>
    refine ⟨entries.erase (name, (session.ns.inode ip).inum), ?_,
      conserved.put_entry base (listed name ip live)⟩
    intro other otherIp otherLive
    have different : name ≠ other := by
      intro same
      rw [← same, standing, if_pos rfl, live] at otherLive
      cases otherLive
    rw [standing, if_neg different] at otherLive
    change (other, (Namespace.inode _ otherIp).inum) ∈ _
    rw [inum]
    exact (List.mem_erase_of_ne (fun equal => different (congrArg Prod.fst equal).symm)).mpr
      (listed other otherIp otherLive)

/-- What `dir_remove_entry` returns and does: nothing, unless the name is live. -/
theorem Mirrors.ensures_dirRemoveEntry_exact (base : ValidBase inodeBase)
    (mirrors : Mirrors dir inodeBase held session) :
    Ensures (dirRemoveEntry dir name) session.ns
      (fun status ns =>
        match standing name session.history with
        | .absent => status = 0 ∧ ns = session.ns
        | .live ip => status = 0 ∧ Exists fun type =>
            ns = session.ns.withoutEntry dir name ⟨.addden, (session.ns.inode ip).inum, type⟩
        | .gone => status < 0 ∧ ns = session.ns)
      (fun _ _ => False) := by
  rcases mirrors.names with ⟨tree, set, represents⟩
  have represents := represents name
  rw [dirRemoveEntry, Ensures.bind_iff, ensures_ownSearch_memory set mirrors.not_unread]
  cases state : standing name session.history with
  | absent =>
      rw [state] at represents
      rw [represents.1]
      exact Ensures.pure_iff.mpr ⟨rfl, rfl⟩
  | gone =>
      rw [state] at represents
      rcases represents with ⟨_, uden, entered, dead⟩
      rw [entered]
      simp only [if_pos dead, Ensures.pure_iff]
      exact ⟨by decide, trivial⟩
  | live ip =>
      rw [state] at represents
      rcases represents with ⟨_, _, type, entered⟩
      have number := mirrors.live_number base state
      rw [entered]
      simp only [reduceCtorEq, if_false, ensures_removeFound,
        if_neg (Nat.pos_iff_ne_zero.mp number)]
      exact ⟨trivial, type, rfl⟩

theorem Mirrors.ensures_dirRemoveEntry (base : ValidBase inodeBase)
    (mirrors : Mirrors dir inodeBase held session) :
    Ensures (dirRemoveEntry dir name) session.ns
      (fun status ns =>
        match standing name session.history with
        | .absent => status = 0 ∧ ns = session.ns
        | .live _ => status = 0 ∧
            Mirrors dir inodeBase held ⟨ns, .removed name :: session.history⟩
        | .gone => status < 0 ∧ ns = session.ns)
      (fun _ _ => False) := by
  refine (mirrors.ensures_dirRemoveEntry_exact base).mono ?_ (fun _ _ impossible => impossible)
  intro status ns outcome
  cases state : standing name session.history with
  | absent =>
      rw [state] at outcome
      exact outcome
  | gone =>
      rw [state] at outcome
      exact outcome
  | live ip =>
      rw [state] at outcome
      rcases outcome with ⟨zero, type, same⟩
      rw [same]
      exact ⟨zero, mirrors.removed base state type⟩

/-! ### Creation -/

section Creation

variable {path : List Char} {type : FileType}

/-- The name space after the creation of an entry. -/
abbrev Namespace.grown (ns : Namespace) (dir : Nat) (name : Name) (path : List Char)
    (type : FileType) : Namespace :=
  (ns.withEntry dir name type).named dir name path ns.next

theorem grown_inode (ns : Namespace) :
    (ns.grown dir name path type).inode =
      ((ns.withEntry dir name type).update dir (fun inode =>
        { inode with
          iRef := inode.iRef - 1
          deCache := Function.update inode.deCache name (some ns.next) })).inode :=
  rfl

theorem grown_inode_self (ns : Namespace) (different : dir ≠ ns.next) :
    (ns.grown dir name path type).inode dir =
      { (ns.inode dir).artInsert name ⟨.addden, (findInodeBitmap ns.table).1, type⟩ with
        iRef := (ns.inode dir).iRef - 1
        size := Word.add64 (ns.inode dir).size (dirRecLen name.length)
        deCache := Function.update (ns.inode dir).deCache name (some ns.next) } := by
  rw [grown_inode, update_inode_self, withEntry_inode_self name type different]
  rfl

theorem grown_inum_next (ns : Namespace) (different : dir ≠ ns.next) :
    ((ns.grown dir name path type).inode ns.next).inum = (findInodeBitmap ns.table).1 := by
  rw [grown_inode, update_inode_other _ _ (Ne.symm different),
    withEntry_inode_next name type different]
  rfl

theorem grown_inum_other (ns : Namespace) {ip : Nat} (bound : ip < ns.next) :
    ((ns.grown dir name path type).inode ip).inum = (ns.inode ip).inum := by
  have old : ip ≠ ns.next := Nat.ne_of_lt bound
  by_cases here : ip = dir
  · rw [here] at old ⊢
    rw [grown_inode_self ns old]
    rfl
  · rw [grown_inode, update_inode_other _ _ here, withEntry_inode_other name type here old]

theorem Mirrors.created (mirrors : Mirrors dir inodeBase held session)
    (room : (findInodeBitmap session.ns.table).1 ≠ 0) :
    Mirrors dir inodeBase held
      ⟨session.ns.grown dir name path type, .created name session.ns.next :: session.history⟩ := by
  have different : dir ≠ session.ns.next := Nat.ne_of_lt mirrors.allocated
  rcases mirrors.names with ⟨tree, set, represents⟩
  rcases mirrors.numbers with ⟨entries, listed, conserved⟩
  have self := @grown_inode_self dir name path type session.ns different
  have fresh := @grown_inum_next dir name path type session.ns different
  have addresses : session.ns.next ≤ (session.ns.grown dir name path type).next :=
    Nat.le_succ _
  constructor
  case allocated => exact Nat.lt_succ_of_lt mirrors.allocated
  case directory =>
    rw [self]
    exact mirrors.directory
  case memory =>
    rw [self]
    exact mirrors.memory
  case names =>
    refine ⟨Function.update tree name
      (some ⟨.addden, (findInodeBitmap session.ns.table).1, type⟩), ?_, ?_⟩
    · rw [self]
      simp only [NsInode.artInsert, set, Option.map_some]
    · intro other
      rw [self]
      by_cases same : name = other
      · rw [← same, standing, if_pos rfl]
        refine ⟨Function.update_self .., Nat.lt_succ_self _, type, ?_⟩
        rw [fresh]
        exact Function.update_self ..
      · rw [standing, if_neg same]
        apply Represents.of_eq (Function.update_of_ne (Ne.symm same) ..)
          (Function.update_of_ne (Ne.symm same) ..)
        exact (represents other).transport addresses
          (fun ip bound => grown_inum_other session.ns bound)
  case numbers =>
    have found := Ensures.modify_iff.mp conserved.find
    rw [if_neg room] at found
    refine ⟨(name, (findInodeBitmap session.ns.table).1) :: entries, ?_, found⟩
    intro other ip live
    by_cases same : name = other
    · rw [standing, if_pos same] at live
      cases live
      rw [fresh, same]
      exact List.mem_cons_self
    · rw [standing, if_neg same] at live
      have bound : ip < session.ns.next := by
        have represented := represents other
        rw [live] at represented
        exact represented.2.1
      rw [grown_inum_other session.ns bound]
      exact List.mem_cons_of_mem _ (listed other ip live)

/-- The create path enters a name that is not live, tombstone or not, and returns the
inode of one that is. -/
theorem Mirrors.ensures_openIn_exact (mirrors : Mirrors dir inodeBase held session)
    (short : path.length < maxPath) :
    Ensures (openIn dir name name path type) session.ns
      (fun ip ns =>
        (standing name session.history = .live ip ∧
          ns = session.ns.update ip (fun inode => { inode with iRef := inode.iRef + 1 })) ∨
        ((standing name session.history).inode = none ∧ ip = session.ns.next ∧
          (findInodeBitmap session.ns.table).1 ≠ 0 ∧ ns = session.ns.grown dir name path type))
      (fun fault ns => fault = .panic "cannot allocate inode\n" ∧
        (findInodeBitmap ns.table).1 = 0) := by
  rcases mirrors.names with ⟨tree, set, represents⟩
  have represents := represents name
  have fits : ¬ maxPath ≤ path.length := Nat.not_le.mpr short
  have creates : Ensures
      (createEntry dir name type >>= fun ip => enterNames dir name path ip) session.ns
      (fun ip ns => ip = session.ns.next ∧
        (findInodeBitmap session.ns.table).1 ≠ 0 ∧ ns = session.ns.grown dir name path type)
      (fun fault ns => fault = .panic "cannot allocate inode\n" ∧
        (findInodeBitmap ns.table).1 = 0) := by
    rw [Ensures.bind_iff, ensures_createEntry]
    by_cases room : (findInodeBitmap session.ns.table).1 = 0
    · rw [if_pos room]
      exact ⟨rfl, room⟩
    · rw [if_neg room, ensures_enterNames, if_neg (fun long => fits long.2)]
      exact ⟨rfl, room, rfl⟩
  rw [openIn, Ensures.bind_iff, ensures_nsInode]
  cases state : standing name session.history with
  | live ip =>
      rw [state] at represents
      rw [represents.1]
      simp only [takeRef, Ensures.bind_iff, ensures_onInode, Ensures.pure_iff]
      exact Or.inl ⟨trivial, trivial⟩
  | absent =>
      rw [state] at represents
      rw [represents.2]
      simp only [openEntry]
      rw [Ensures.bind_iff, ensures_ownSearch_memory set mirrors.not_unread, represents.1]
      exact creates.mono (fun _ _ made => Or.inr ⟨rfl, made⟩) (fun _ _ exhausted => exhausted)
  | gone =>
      rw [state] at represents
      rcases represents with ⟨uncached, uden, entered, dead⟩
      rw [uncached]
      simp only [openEntry]
      rw [Ensures.bind_iff, ensures_ownSearch_memory set mirrors.not_unread, entered]
      simp only [if_pos dead]
      exact creates.mono (fun _ _ made => Or.inr ⟨rfl, made⟩) (fun _ _ exhausted => exhausted)

theorem Mirrors.ensures_openIn (mirrors : Mirrors dir inodeBase held session)
    (short : path.length < maxPath) :
    Ensures (openIn dir name name path type) session.ns
      (fun ip ns => Mirrors dir inodeBase held ⟨ns, .created name ip :: session.history⟩)
      (fun fault ns => fault = .panic "cannot allocate inode\n" ∧
        (findInodeBitmap ns.table).1 = 0) := by
  refine (mirrors.ensures_openIn_exact short).mono ?_ (fun _ _ exhausted => exhausted)
  intro ip ns outcome
  rcases outcome with ⟨state, same⟩ | ⟨_, address, room, same⟩
  · rw [same]
    apply mirrors.unmoved (unmoved_takeRef dir session.ns ip)
    intro other
    by_cases here : name = other
    · rw [← here, standing, if_pos rfl, state]
    · rw [standing, if_neg here]
  · rw [address, same]
    exact mirrors.created room

end Creation

theorem Mirrors.execute (base : ValidBase inodeBase) (mirrors : Mirrors dir inodeBase held session)
    (command : DirCommand) (admissible : command.Admissible) :
    Ensures (command.execute dir) session (fun _ next => Mirrors dir inodeBase held next)
      (fun fault next => fault = .panic "cannot allocate inode\n" ∧
        (findInodeBitmap next.ns.table).1 = 0) := by
  cases command with
  | create name path type => exact ensures_recording.mpr (mirrors.ensures_openIn admissible.2.2)
  | lookup name =>
      refine ensures_recording.mpr ?_
      refine mirrors.ensures_dirLookup.mono ?_ (fun _ _ impossible => impossible.elim)
      intro _ ns looked
      exact mirrors.unmoved looked.2.1 (fun _ => rfl)
  | remove name =>
      refine ensures_recording.mpr ?_
      refine (mirrors.ensures_dirRemoveEntry base).mono ?_ (fun _ _ impossible => impossible.elim)
      intro _ ns outcome
      cases state : standing name session.history with
      | live ip =>
          rw [state] at outcome
          exact outcome.2
      | absent =>
          rw [state] at outcome
          rw [outcome.2]
          apply mirrors.unmoved (Unmoved.refl dir session.ns)
          intro other
          by_cases same : name = other
          · rw [← same, standing, if_pos rfl, state]
            rfl
          · rw [standing, if_neg same]
      | gone =>
          rw [state] at outcome
          rw [outcome.2]
          apply mirrors.unmoved (Unmoved.refl dir session.ns)
          intro other
          by_cases same : name = other
          · rw [← same, standing, if_pos rfl, state]
            rfl
          · rw [standing, if_neg same]

/-- Names that stand for inodes stand for inodes with different numbers. -/
theorem Mirrors.numbers_differ (mirrors : Mirrors dir inodeBase held session) {other : Name}
    {ip otherIp : Nat} (different : name ≠ other)
    (live : standing name session.history = .live ip)
    (otherLive : standing other session.history = .live otherIp) :
    (session.ns.inode ip).inum ≠ (session.ns.inode otherIp).inum := by
  rcases mirrors.numbers with ⟨entries, listed, conserved⟩
  have nodup : (entries.map Prod.snd).Nodup := by
    have whole := conserved.whole.nodup_iff.mpr (sessionNumbers_nodup inodeBase)
    exact (List.nodup_append.mp (List.nodup_append.mp whole).1).1
  intro equal
  have first := listed name ip live
  have second := listed other otherIp otherLive
  have same := List.inj_on_of_nodup_map nodup first second equal
  exact different (congrArg Prod.fst same)

end Steps

/-! ## Every run -/

/-- A directory as its creation leaves it. -/
structure NewDirectory (dir : Nat) (ns : Namespace) : Prop where
  allocated : dir < ns.next
  directory : (ns.inode dir).itype = .dir
  memory : (ns.inode dir).root = 0
  cache : (ns.inode dir).deCache = fun _ => none
  tree : (ns.inode dir).dentryTree = some (fun _ => none)

theorem NewDirectory.mirrors {dir inodeBase : Nat} {held : List Nat} {ns : Namespace}
    (new : NewDirectory dir ns) (conserved : Conserved inodeBase ⟨ns.table, held⟩) :
    Mirrors dir inodeBase held ⟨ns, []⟩ where
  allocated := new.allocated
  directory := new.directory
  memory := new.memory
  names := ⟨fun _ => none, new.tree, fun _ => ⟨rfl, by rw [new.cache]⟩⟩
  numbers := ⟨[], (fun _ _ live => nomatch live), conserved⟩

/-- After any sequence of operations on a directory created in the session, a lookup
returns the inode of the last creation unless the name was removed since; live names
have different inode numbers; a live name can be removed, and the removal of a removed
name fails and changes nothing.  Only the exhaustion of the inode numbers stops a run. -/
theorem directory_is_finite_map {dir inodeBase : Nat} {held : List Nat} {ns : Namespace}
    (base : ValidBase inodeBase) (conserved : Conserved inodeBase ⟨ns.table, held⟩)
    (new : NewDirectory dir ns) (commands : List DirCommand)
    (admissible : forall command, command ∈ commands -> command.Admissible) :
    Ensures (runAll (DirCommand.execute dir) commands) ⟨ns, []⟩
      (fun _ session =>
        (forall name, Ensures (dirLookup dir name) session.ns
          (fun found _ => found = (standing name session.history).inode) (fun _ _ => False)) ∧
        (forall name other ip otherIp, name ≠ other ->
          standing name session.history = .live ip ->
          standing other session.history = .live otherIp ->
          (session.ns.inode ip).inum ≠ (session.ns.inode otherIp).inum) ∧
        (forall name ip, standing name session.history = .live ip ->
          Ensures (dirRemoveEntry dir name) session.ns (fun status _ => status = 0)
            (fun _ _ => False)) ∧
        forall name, standing name session.history = .gone ->
          Ensures (dirRemoveEntry dir name) session.ns
            (fun status next => status < 0 ∧ next = session.ns) (fun _ _ => False))
      (fun fault session => fault = .panic "cannot allocate inode\n" ∧
        (findInodeBitmap session.ns.table).1 = 0) := by
  have run := Ensures.runAll_state
    (fun command session (mirrors : Mirrors dir inodeBase held session) allowed =>
      mirrors.execute base command allowed) (new.mirrors conserved) admissible
  refine run.mono ?_ (fun _ _ exhausted => exhausted)
  intro _ session mirrors
  refine ⟨?_, ?_, ?_, ?_⟩
  · intro name
    exact mirrors.ensures_dirLookup.mono (fun _ _ looked => looked.1) (fun _ _ absurd => absurd)
  · intro name other ip otherIp different live otherLive
    exact mirrors.numbers_differ different live otherLive
  · intro name ip live
    have removal := @Mirrors.ensures_dirRemoveEntry dir inodeBase held session name base mirrors
    rw [live] at removal
    exact removal.mono (fun _ _ outcome => outcome.1) (fun _ _ absurd => absurd)
  · intro name gone
    have removal := @Mirrors.ensures_dirRemoveEntry dir inodeBase held session name base mirrors
    rw [gone] at removal
    exact removal

theorem newDirectory_freshNamespace : NewDirectory 0 freshNamespace where
  allocated := by decide
  directory := rfl
  memory := rfl
  cache := rfl
  tree := rfl

/-- A name is created, removed, found missing and created again. -/
theorem directory_is_finite_map_recreated :
    Ensures (runAll (DirCommand.execute 0)
        [.create ['a'] ['/', 'a'] .file, .remove ['a'], .lookup ['a'], .create ['a'] ['/', 'b'] .file])
      ⟨freshNamespace, []⟩
      (fun _ session => Ensures (dirLookup 0 ['a']) session.ns
        (fun found _ => found = (standing ['a'] session.history).inode) (fun _ _ => False))
      (fun fault _ => fault = .panic "cannot allocate inode\n") :=
  (directory_is_finite_map Kernel.bare.validBase (conserved_start Kernel.bare.validBase (fun _ => 0))
    newDirectory_freshNamespace _ (by decide)).mono
    (fun _ _ map => map.1 ['a']) (fun _ _ exhausted => exhausted.1)

end Userfs.Filesystem
