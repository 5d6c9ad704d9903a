import Userfs.Filesystem.PathCache

namespace Userfs.Filesystem

open Word

/-!
# Creating a name

`userfs_open_file` with a name that does not exist takes a number, makes an inode,
adds an entry to the tree of the parent and enters the name and the path.  With a name
that is on disk but not in memory it makes an inode for the number of the entry, with
the type that the caller asked for and with flags that are never cleared.  So the path
cache stays coherent only if the kernel has no entry of that name that disagrees.  Nor
is the type of the parent tested: below a regular file that the path cache knows, a name
is entered that no walk finds.
-/

/-- The kernel's entries of a name have the type asked for, none of them is the root,
and fresh memory does not look like an inode that is being deleted. -/
def Kernel.Admits (kernel : Kernel) (name : Name) (type : FileType) : Prop :=
  forall ino, kernel.Lists name ino ->
    kernel.itype ino = type ∧ ino ≠ rootIno ∧ forall ip, kernel.freshDeleting ip = false

section Entries

variable {ns : Namespace} {parent : Nat} {name : Name} {path : List Char}

theorem Names.take (names : Names ns) (created : List Nat) :
    Names { ns with table := (findInodeBitmap ns.table).2, created := created } where
  toLinked := names.toLinked.take created
  root := names.root
  well := fun dir inside => (names.well dir inside).transport
    { ns with table := (findInodeBitmap ns.table).2, created := created } rfl
    (fun name ip edge => ⟨(names.well dir inside).live name ip edge, rfl⟩)
  unique := names.unique

/-- The name space with a new entry and its name, before the path is entered. -/
def Namespace.withName (ns : Namespace) (parent : Nat) (name : Name) (type : FileType) :
    Namespace :=
  (ns.withEntry parent name type).update parent (fun inode =>
    { inode with
      iRef := inode.iRef - 1
      deCache := Function.update inode.deCache name (some ns.next) })

/-- The parent with the new entry. -/
theorem wellNamed_withName (names : Names ns) (bound : parent < ns.next) {inum : Nat}
    {type : FileType} {size : Nat} {count : Int} {taken : Namespace}
    (kernel : taken.kernel = ns.kernel)
    (old : forall ip, ip < ns.next -> taken.inode ip = ns.inode ip)
    {zeroed : Bool} (new : taken.inode ns.next = NsInode.new inum type zeroed)
    (unnamed : (ns.inode parent).deCache name = none) (read : ¬ (ns.inode parent).Unread)
    (set : (ns.inode parent).dentryTree ≠ none) :
    WellNamed taken
      { (ns.inode parent).artInsert name ⟨.addden, inum, type⟩ with
        size := size
        iRef := count
        deCache := Function.update (ns.inode parent).deCache name (some ns.next) } := by
  have well := names.well parent bound
  rcases Option.ne_none_iff_exists'.mp set with ⟨tree, set⟩
  constructor
  case ondisk =>
    rw [kernel]
    exact well.ondisk
  case live =>
    intro other ip edge
    rcases update_eq_some edge with ⟨_, same⟩ | ⟨_, before⟩
    · rw [same, new]
      rfl
    · rw [old ip (names.cached parent other ip bound before)]
      exact well.live other ip before
  case added =>
    apply NsInode.EntriesAll.artInsert
    · intro tree other uden set found added
      have known := well.added tree other uden set found added
      have different : other ≠ name := by
        intro same
        rw [same] at known
        exact known unnamed
      change Function.update (ns.inode parent).deCache name (some ns.next) other ≠ none
      rw [Function.update_of_ne different]
      exact known
    · intro _
      change Function.update (ns.inode parent).deCache name (some ns.next) name ≠ none
      rw [Function.update_self]
      exact Option.some_ne_none _
  case fetched =>
    rw [kernel]
    apply NsInode.EntriesAll.artInsert well.fetched
    exact fun impossible => by cases impossible
  case named =>
    intro other ip edge
    rw [kernel]
    rcases update_eq_some edge with ⟨here, same⟩ | ⟨different, before⟩
    · refine ⟨Function.update tree name (some ⟨.addden, inum, type⟩), ⟨.addden, inum, type⟩, ?_, ?_,
        ?_, ?_⟩
      · simp only [NsInode.artInsert, set, Option.map_some]
      · rw [here, Function.update_self]
      · exact fun impossible => by cases impossible
      · intro _
        rw [same, new]
        rfl
    · rcases well.named other ip before with ⟨known, uden, knownSet, found, live⟩
      rw [set] at knownSet
      cases knownSet
      rw [old ip (names.cached parent other ip bound before)]
      refine ⟨Function.update tree name (some ⟨.addden, inum, type⟩), uden, ?_, ?_, live⟩
      · simp only [NsInode.artInsert, set, Option.map_some]
      · rw [Function.update_of_ne different]
        exact found
  case unread => exact fun unread => absurd unread read

/-- The new inode, before it has a name. -/
theorem Names.newInode (names : Names ns) (number : (findInodeBitmap ns.table).1 ≠ 0)
    (type : FileType) (created : List Nat) :
    Names ({ ns with table := (findInodeBitmap ns.table).2, created := created }.icacheAdd
      (NsInode.new (findInodeBitmap ns.table).1 type (ns.kernel.zeroed ns.next))) := by
  have session := (names.reserved.find ns.kernel.validBase).1 number
  apply (names.take created).icacheAdd rfl
  · intro same
    apply ns.kernel.reserved_root
    rw [← same]
    exact session
  · exact wellNamed_loaded (fun foreign => absurd session foreign)

/-- A creation adds one name. -/
theorem Coherent.withName (coherent : Coherent ns) (bound : parent < ns.next) (type : FileType)
    (number : (findInodeBitmap ns.table).1 ≠ 0)
    (unnamed : (ns.inode parent).deCache name = none) (read : ¬ (ns.inode parent).Unread)
    (set : (ns.inode parent).dentryTree ≠ none) :
    Coherent (ns.withName parent name type) ∧ Grows ns (ns.withName parent name type) ∧
      ((ns.withName parent name type).inode parent).deCache name = some ns.next := by
  have names := coherent.toNames
  rw [Namespace.withName, Namespace.withEntry, update_update]
  have taken := names.newInode number type
    (if type = FileType.file then ns.created ++ [ns.next] else ns.created)
  generalize baseEq : { ns with
    table := (findInodeBitmap ns.table).2
    created := if type = FileType.file then ns.created ++ [ns.next] else ns.created }.icacheAdd
    (NsInode.new (findInodeBitmap ns.table).1 type (ns.kernel.zeroed ns.next)) = base at taken ⊢
  have old : forall ip, ip < ns.next -> base.inode ip = ns.inode ip := by
    intro ip inside
    rw [← baseEq]
    exact icacheAdd_inode_other { ns with
      table := (findInodeBitmap ns.table).2
      created := if type = FileType.file then ns.created ++ [ns.next] else ns.created } _
      (Nat.ne_of_lt inside)
  have new : base.inode ns.next =
      NsInode.new (findInodeBitmap ns.table).1 type (ns.kernel.zeroed ns.next) := by
    rw [← baseEq]
    exact icacheAdd_inode_next { ns with
      table := (findInodeBitmap ns.table).2
      created := if type = FileType.file then ns.created ++ [ns.next] else ns.created } _
  have next : base.next = ns.next + 1 := by rw [← baseEq]; rfl
  have kernel : base.kernel = ns.kernel := by rw [← baseEq]; rfl
  have hash : base.dlookupHash = ns.dlookupHash := by rw [← baseEq]; rfl
  -- the new inode has no name yet
  have nameless : forall dir other, dir < base.next -> (base.inode dir).deCache other ≠ some ns.next := by
    intro dir other inside edge
    rw [next] at inside
    by_cases here : dir = ns.next
    · rw [here, new] at edge
      cases edge
    · have older := Nat.lt_of_le_of_ne (Nat.le_of_lt_succ inside) here
      rw [old dir older] at edge
      exact Nat.lt_irrefl _ (names.cached dir other ns.next older edge)
  have grown : Grows ns (base.update parent (fun inode =>
      { { inode.artInsert name ⟨.addden, (findInodeBitmap ns.table).1, type⟩ with
          size := add64 inode.size (dirRecLen name.length) } with
        iRef := inode.iRef - 1
        deCache := Function.update inode.deCache name (some ns.next) })) := by
    constructor
    case kernel => exact kernel
    case bound =>
      change ns.next ≤ base.next
      rw [next]
      exact Nat.le_succ _
    case inum =>
      intro dir inside
      by_cases here : dir = parent
      · rw [here, update_inode_self, old parent bound]
        rfl
      · rw [update_inode_other base _ here, old dir inside]
    case itype =>
      intro dir inside
      by_cases here : dir = parent
      · rw [here, update_inode_self, old parent bound]
        rfl
      · rw [update_inode_other base _ here, old dir inside]
    case edges =>
      intro dir other ip inside edge
      by_cases here : dir = parent
      · rw [here] at edge ⊢
        have different : other ≠ name := by
          intro same
          rw [same, unnamed] at edge
          cases edge
        rw [update_inode_self, old parent bound]
        change Function.update (ns.inode parent).deCache name (some ns.next) other = some ip
        rw [Function.update_of_ne different]
        exact edge
      · rw [update_inode_other base _ here, old dir inside]
        exact edge
  refine ⟨coherent.carry ?_ grown hash, grown, ?_⟩
  · apply taken.rename name rfl rfl
    · intro other ip edge
      rcases update_eq_some edge with ⟨here, same⟩ | ⟨_, before⟩
      · have inside : ns.next < base.next := by
          rw [next]
          exact Nat.lt_succ_self _
        rw [same]
        exact Or.inr ⟨inside, Or.inr ⟨here, nameless⟩⟩
      · exact Or.inl before
    · intro _
      have well := @wellNamed_withName ns parent name names bound (findInodeBitmap ns.table).1 type
        (add64 (ns.inode parent).size (dirRecLen name.length)) ((ns.inode parent).iRef - 1) base
        kernel old _ new unnamed read set
      rw [old parent bound]
      exact well
  · rw [update_inode_self]
    exact Function.update_self ..

/-- The path of a name is entered, unless it is known. -/
theorem Coherent.named (coherent : Coherent ns) (spelled : Spelled path) {ip : Nat}
    (walk : ns.resolve 0 (below path) = some ip) :
    Coherent { ns with
      dlookupHash := if ns.dlookupHash path = none then
        Function.update ns.dlookupHash path (some ip) else ns.dlookupHash } := by
  split
  · exact coherent.enter spelled walk
  · exact coherent

/-- A new inode for an entry on disk gets the name of the entry. -/
theorem Names.visit_load (names : Names ns) {uden entry : Dentry} {inode : NsInode}
    (bound : parent < ns.next) (unnamed : (ns.inode parent).deCache name = none)
    (read : ¬ (ns.inode parent).Unread) (has : ns.HasEntry parent name entry)
    (live : entry.addordel ≠ .delden) (listed : ns.kernel.Lists name uden.ino)
    (other : uden.ino ≠ rootIno) (inum : inode.inum = uden.ino)
    (nameless : inode.deCache = fun _ => none) (well : WellNamed ns inode) :
    Visited ns ((ns.icacheAdd inode).update parent (fun inode =>
      { inode with
        iRef := inode.iRef - 1
        deCache := Function.update inode.deCache name (some ns.next) })) := by
  have loaded : Visited ns (ns.icacheAdd inode) :=
    ⟨Lookup.icacheAdd nameless, names.icacheAdd nameless (by rw [inum]; exact other) well, rfl⟩
  have dropped : Visited (ns.icacheAdd inode) ((ns.icacheAdd inode).update parent (fun inode =>
      { inode with iRef := inode.iRef - 1 })) := loaded.names.visit_refs _
  have here := icacheAdd_inode_other ns inode (Nat.ne_of_lt bound)
  rcases has with ⟨tree, set, found⟩
  refine loaded.trans ?_
  have named := dropped.trans (@Names.visit_cache _ parent name dropped.names ns.next entry
    (Nat.lt_succ_of_lt bound) (Nat.lt_succ_self _) ?_ ?_ ?_ ?_ live)
  · rw [update_update] at named
    exact named
  · rw [update_inode_self, here]
    exact unnamed
  · rw [update_inode_self, here]
    exact read
  · rw [update_inode_other _ _ (Ne.symm (Nat.ne_of_lt bound)), icacheAdd_inode_next, inum]
    exact listed
  · refine ⟨tree, ?_, found⟩
    rw [update_inode_self, here]
    exact set

theorem openEntry_coherent (coherent : Coherent ns) (spelled : Spelled path) {front : List Name}
    (split : below path = front ++ [name]) (walk : ns.resolve 0 front = some parent)
    (isDir : (ns.inode parent).itype = .dir)
    (unnamed : (ns.inode parent).deCache name = none) {type : FileType}
    (admits : ns.kernel.Admits name type) :
    Ensures (openEntry parent name name path type) ns
      (fun _ next => Coherent next) (fun _ _ => True) := by
  have bound := coherent.resolve_bound coherent.root_alive.1 walk
  simp only [openEntry, Ensures.bind_iff]
  refine (ownSearch_visits coherent.toNames bound unnamed).mono ?_ (fun _ _ fault => fault)
  rintro found next ⟨visited, cache, read, set, entries⟩
  have kept := coherent.visit visited
  have inside := Nat.lt_of_lt_of_le bound visited.bound
  have unnamed' : (next.inode parent).deCache name = none := by
    rw [cache]
    exact unnamed
  have isDir' := (visited.itype parent bound).trans isDir
  have walk' := visited.resolve coherent.toLinked coherent.root_alive.1 walk
  -- the name entered last completes the walk along the path
  have whole : forall last ip, Grows next last -> (last.inode parent).deCache name = some ip ->
      last.resolve 0 (below path) = some ip := by
    intro last ip grows edge
    rw [split]
    apply resolve_concat.mpr
    exact ⟨parent, grows.resolve kept.toLinked kept.root_alive.1 walk',
      (grows.itype parent inside).trans isDir', edge⟩
  have create : Ensures (createEntry parent name type) next
      (fun ip last => Ensures (enterNames parent name path ip) last (fun _ next => Coherent next)
        (fun _ _ => True)) (fun _ _ => True) := by
    rw [ensures_createEntry]
    split
    · trivial
    case isFalse number =>
      rw [ensures_enterNames]
      split
      · trivial
      · have made := kept.withName inside type number unnamed' read set
        exact made.1.named spelled (whole _ _ made.2.1 made.2.2)
  cases found with
  | none =>
      rw [Ensures.bind_iff]
      exact create
  | some uden =>
      simp only [Ensures.ite_iff, Ensures.bind_iff]
      split
      case isTrue => exact create
      case isFalse live =>
        rcases entries uden rfl live with ⟨ondisk, entry, has, entryLive⟩
        have agrees := admits uden.ino ondisk.listed
        simp only [loadEntry, fetchRecord, Ensures.bind_iff, Ensures.get_iff]
        cases next.kernel.record uden.ino with
        | none => exact Ensures.throw_iff.mpr trivial
        | some record =>
            simp only [Ensures.pure_iff, ensures_icacheAdd, ensures_enterNames]
            split
            · trivial
            · have loaded := @Names.visit_load next parent name kept.toNames uden entry
                (NsInode.loaded uden.ino type (next.kernel.freshDeleting next.next) record.1 record.2
                  (next.kernel.zeroed next.next))
                inside unnamed' read has entryLive (by rw [visited.kernel]; exact ondisk.listed)
                agrees.2.1 rfl rfl ?_
              · have after := kept.visit loaded
                refine after.named spelled (whole _ _ loaded.toGrows ?_)
                rw [update_inode_self]
                exact Function.update_self ..
              · apply wellNamed_loaded
                intro _
                rw [visited.kernel]
                exact ⟨agrees.2.2 _, agrees.1.symm⟩

theorem openIn_coherent (coherent : Coherent ns) (spelled : Spelled path) {front : List Name}
    (split : below path = front ++ [name]) (walk : ns.resolve 0 front = some parent)
    (isDir : (ns.inode parent).itype = .dir)
    {type : FileType} (admits : ns.kernel.Admits name type) :
    Ensures (openIn parent name name path type) ns (fun _ next => Coherent next)
      (fun _ _ => True) := by
  rw [openIn, Ensures.bind_iff, ensures_nsInode]
  cases known : (ns.inode parent).deCache name with
  | some ip =>
      simp only [takeRef, Ensures.bind_iff, ensures_onInode, Ensures.pure_iff]
      exact coherent.visit (coherent.toNames.visit_refs _)
  | none => exact openEntry_coherent coherent spelled split walk isDir known admits

theorem userfsOpenFile_coherent (coherent : Coherent ns) (spelled : Spelled path)
    {front : List Name} (split : below path = front ++ [name]) (plain : ¬ ZeroEnd path)
    {type : FileType} (admits : ns.kernel.Admits name type) (directories : ParentDirectory ns path) :
    Ensures (userfsOpenFile path type) ns (fun _ next => Coherent next) (fun _ _ => True) := by
  rcases spelled.getParentPath split plain with ⟨parentPath, cut, _, _⟩
  rw [userfsOpenFile, Ensures.bind_iff, Ensures.get_iff]
  cases known : ns.dlookupHash path with
  | some ip =>
      simp only [takeRef, Ensures.bind_iff, ensures_onInode, Ensures.pure_iff]
      exact coherent.visit (coherent.toNames.visit_refs _)
  | none =>
      simp only [cut, Ensures.bind_iff]
      refine (nameiparent_coherent coherent spelled split plain).mono ?_ (fun _ _ fault => fault)
      rintro found next ⟨kept, lookup, reached⟩
      cases found with
      | none => exact Ensures.pure_iff.mpr kept
      | some result =>
          rcases reached result.1 result.2 rfl with ⟨nameEq, walk, isDir⟩
          simp only [Ensures.bind_iff, Ensures.pure_iff, nameEq]
          apply openIn_coherent kept spelled split walk (isDir directories)
          rw [lookup.kernel]
          exact admits

end Entries

end Userfs.Filesystem
