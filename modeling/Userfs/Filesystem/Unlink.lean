import Userfs.Filesystem.PathCache

namespace Userfs.Filesystem

open Word

/-!
# Removing a name

`userfs_posix_unlink` looks up the parent and the file, turns the entry into a
tombstone, forgets the path string it was called with and marks the inode as deleted.
The lookup of a path that is in memory changes nothing but references and the path
cache, so the whole call can be followed exactly.
-/

/-- The name space after a file was removed: the entry, the path, the two references
and the inode. -/
def Namespace.unlinked (ns : Namespace) (dir ip : Nat) (last : Name) (uden : Dentry)
    (path : List Char) : Namespace :=
  ((({ ns.withoutEntry dir last uden with
      dlookupHash := Function.update ns.dlookupHash path none }.update dir
        (fun inode => { inode with iRef := inode.iRef - 1 })).update ip
        (fun inode => { inode with iRef := inode.iRef - 1 })).update ip (fun inode =>
          { inode with
            dentryTree := if inode.itype = FileType.dir then none else inode.dentryTree
            size := 0
            deleting := true
            itype := .none }))

/-- A path that is in memory and leads to a file of the session. -/
structure Removable (ns : Namespace) (path : List Char) (front : List Name) (last : Name)
    (dir ip : Nat) : Prop where
  split : below path = front ++ [last]
  walk : ns.resolve 0 front = some dir
  isDir : (ns.inode dir).itype = .dir
  edge : (ns.inode dir).deCache last = some ip
  file : (ns.inode ip).itype = .file
  session : (ns.inode ip).inum ∈ sessionNumbers ns.kernel.inodeBase

/-- No other path is remembered for the inode. -/
def Sole (ns : Namespace) (path : List Char) (ip : Nat) : Prop :=
  forall other, ns.dlookupHash other = some ip -> other = path

section Removal

variable {ns : Namespace} {path : List Char} {front : List Name} {last : Name} {dir ip : Nat}

theorem Removable.ne (removable : Removable ns path front last dir ip) : dir ≠ ip := by
  intro same
  have isDir := removable.isDir
  rw [same, removable.file] at isDir
  cases isDir

theorem Removable.whole (removable : Removable ns path front last dir ip) :
    ns.resolve 0 (below path) = some ip := by
  rw [removable.split]
  exact resolve_concat.mpr ⟨dir, removable.walk, removable.isDir, removable.edge⟩

/-- The directory of the removed file. -/
theorem unlinked_inode_dir (uden : Dentry) (different : dir ≠ ip) :
    (ns.unlinked dir ip last uden path).inode dir =
      { (ns.inode dir).artInsert last { uden with addordel := .delden } with
        size := sub64 (ns.inode dir).size (dirRecLen 8)
        iRef := (ns.inode dir).iRef - 1
        deCache := Function.update (ns.inode dir).deCache last none } := by
  rw [Namespace.unlinked, update_inode_other _ _ different, update_inode_other _ _ different,
    update_inode_self]
  change { ((ns.withoutEntry dir last uden).inode dir) with
    iRef := ((ns.withoutEntry dir last uden).inode dir).iRef - 1 } = _
  rw [Namespace.withoutEntry, update_inode_self]
  rfl

/-- The removed file. -/
theorem unlinked_inode_self (uden : Dentry) (different : dir ≠ ip)
    (file : (ns.inode ip).itype = .file) :
    (ns.unlinked dir ip last uden path).inode ip =
      { ns.inode ip with
        iRef := (ns.inode ip).iRef - 1
        size := 0
        deleting := true
        itype := .none } := by
  have before : (({ ns.withoutEntry dir last uden with
      dlookupHash := Function.update ns.dlookupHash path none }.update dir
        (fun inode => { inode with iRef := inode.iRef - 1 })).inode ip) = ns.inode ip := by
    rw [update_inode_other _ _ (Ne.symm different)]
    change (ns.withoutEntry dir last uden).inode ip = _
    rw [Namespace.withoutEntry, update_inode_other _ _ (Ne.symm different)]
  rw [Namespace.unlinked, update_inode_self, update_inode_self, before]
  simp only [file, reduceCtorEq, if_false]

theorem unlinked_inode_other (uden : Dentry) {other : Nat} (notDir : other ≠ dir)
    (notFile : other ≠ ip) :
    (ns.unlinked dir ip last uden path).inode other = ns.inode other := by
  rw [Namespace.unlinked, update_inode_other _ _ notFile, update_inode_other _ _ notFile,
    update_inode_other _ _ notDir]
  change (ns.withoutEntry dir last uden).inode other = _
  rw [Namespace.withoutEntry, update_inode_other _ _ notDir]

theorem Removable.unlinked_inum (removable : Removable ns path front last dir ip) (uden : Dentry)
    (other : Nat) :
    ((ns.unlinked dir ip last uden path).inode other).inum = (ns.inode other).inum := by
  by_cases isDir : other = dir
  · rw [isDir, unlinked_inode_dir uden removable.ne]
    rfl
  by_cases isFile : other = ip
  · rw [isFile, unlinked_inode_self uden removable.ne removable.file]
  · rw [unlinked_inode_other uden isDir isFile]

/-- The names that are left. -/
theorem Removable.unlinked_edge (removable : Removable ns path front last dir ip) (uden : Dentry)
    {parent target : Nat} {name : Name}
    (edge : ((ns.unlinked dir ip last uden path).inode parent).deCache name = some target) :
    (ns.inode parent).deCache name = some target ∧ ¬ (parent = dir ∧ name = last) := by
  by_cases isDir : parent = dir
  · rw [isDir, unlinked_inode_dir uden removable.ne] at edge
    change Function.update (ns.inode dir).deCache last none name = some target at edge
    by_cases here : name = last
    · rw [here, Function.update_self] at edge
      cases edge
    · rw [Function.update_of_ne here] at edge
      rw [isDir]
      exact ⟨edge, fun both => here both.2⟩
  · refine ⟨?_, fun both => isDir both.1⟩
    by_cases isFile : parent = ip
    · rw [isFile, unlinked_inode_self uden removable.ne removable.file] at edge
      rw [isFile]
      exact edge
    · rw [unlinked_inode_other uden isDir isFile] at edge
      exact edge

/-- No name that is left leads to the removed file. -/
theorem Removable.unlinked_target (removable : Removable ns path front last dir ip)
    (coherent : Coherent ns) (uden : Dentry) {parent target : Nat} {name : Name}
    (bound : parent < ns.next)
    (edge : ((ns.unlinked dir ip last uden path).inode parent).deCache name = some target) :
    target ≠ ip := by
  have left := removable.unlinked_edge uden edge
  have inside := coherent.resolve_bound coherent.root_alive.1 removable.walk
  intro same
  rw [same] at left
  exact left.2 (coherent.unique parent dir name last ip bound inside left.1 removable.edge
    removable.session)

/-- Walks to other inodes are not affected. -/
theorem Removable.unlinked_resolve (removable : Removable ns path front last dir ip)
    (uden : Dentry) {start target : Nat} {elements : List Name} (other : target ≠ ip)
    (walk : ns.resolve start elements = some target) :
    (ns.unlinked dir ip last uden path).resolve start elements = some target := by
  induction elements generalizing start with
  | nil => exact walk
  | cons name rest ih =>
      rcases resolve_cons.mp walk with ⟨isDir, child, edge, later⟩
      have notFile : start ≠ ip := by
        intro same
        rw [same, removable.file] at isDir
        cases isDir
      -- the removed file is no directory, so a walk through it ends there
      have childOther : child ≠ ip := by
        intro same
        rw [same] at later
        cases rest with
        | nil =>
            cases later
            exact other rfl
        | cons next rest =>
            have fileDir := (resolve_cons.mp later).1
            rw [removable.file] at fileDir
            cases fileDir
      apply resolve_cons.mpr
      by_cases here : start = dir
      · rw [here] at edge isDir ⊢
        have different : name ≠ last := by
          intro same
          rw [same, removable.edge] at edge
          cases edge
          exact childOther rfl
        rw [unlinked_inode_dir uden removable.ne]
        refine ⟨isDir, child, ?_, ih later⟩
        change Function.update (ns.inode dir).deCache last none name = some child
        rw [Function.update_of_ne different]
        exact edge
      · rw [unlinked_inode_other uden here notFile]
        exact ⟨isDir, child, edge, ih later⟩

/-- What is left of the directory. -/
theorem Removable.wellNamed_dir (removable : Removable ns path front last dir ip)
    (coherent : Coherent ns) {uden : Dentry} :
    WellNamed ns ((ns.unlinked dir ip last uden path).inode dir) := by
  have inside := coherent.resolve_bound coherent.root_alive.1 removable.walk
  have well := coherent.well dir inside
  rcases well.named last ip removable.edge with ⟨tree, _, set, _⟩
  rw [unlinked_inode_dir uden removable.ne]
  have old : forall name child,
      Function.update (ns.inode dir).deCache last none name = some child ->
      name ≠ last ∧ (ns.inode dir).deCache name = some child := by
    intro name child edge
    by_cases here : name = last
    · rw [here, Function.update_self] at edge
      cases edge
    · rw [Function.update_of_ne here] at edge
      exact ⟨here, edge⟩
  constructor
  case ondisk => exact well.ondisk
  case live => exact fun name child edge => well.live name child (old name child edge).2
  case added =>
    intro after name entry afterSet found added
    change ((ns.inode dir).dentryTree.map _) = some after at afterSet
    rw [set, Option.map_some] at afterSet
    cases afterSet
    rcases update_eq_some found with ⟨_, same⟩ | ⟨different, before⟩
    · rw [same] at added
      cases added
    · have known := well.added tree name entry set before added
      change Function.update (ns.inode dir).deCache last none name ≠ none
      rw [Function.update_of_ne different]
      exact known
  case fetched =>
    apply NsInode.EntriesAll.artInsert well.fetched
    exact fun impossible => by cases impossible
  case named =>
    intro name child edge
    have before := old name child edge
    rcases well.named name child before.2 with ⟨known, entry, knownSet, found, live⟩
    rw [set] at knownSet
    cases knownSet
    refine ⟨Function.update tree last (some { uden with addordel := .delden }), entry, ?_, ?_, live⟩
    · simp only [NsInode.artInsert, set, Option.map_some]
    · rw [Function.update_of_ne before.1]
      exact found
  case unread =>
    intro unread
    have none := (well.unread unread).1 last
    rw [removable.edge] at none
    cases none

/-- A removal keeps the paths coherent. -/
theorem Removable.coherent_unlinked (removable : Removable ns path front last dir ip)
    (coherent : Coherent ns) (spelled : Spelled path) (sole : Sole ns path ip) {uden : Dentry}
    (number : uden.ino ∈ sessionNumbers ns.kernel.inodeBase) :
    Coherent (ns.unlinked dir ip last uden path) := by
  have inside := coherent.resolve_bound coherent.root_alive.1 removable.walk
  have ipBound := coherent.resolve_bound coherent.root_alive.1 removable.whole
  have inums := removable.unlinked_inum uden
  have dead := @unlinked_inode_self ns path last dir ip uden removable.ne removable.file
  -- the keys that are left are other paths to other inodes
  have keys : forall key target, (ns.unlinked dir ip last uden path).dlookupHash key = some target ->
      key ≠ path ∧ ns.dlookupHash key = some target := by
    intro key target found
    change Function.update ns.dlookupHash path none key = some target at found
    by_cases here : key = path
    · rw [here, Function.update_self] at found
      cases found
    · rw [Function.update_of_ne here] at found
      exact ⟨here, found⟩
  constructor
  case mount =>
    change Function.update ns.dlookupHash path none mountpoint = some 0
    rw [Function.update_of_ne (Ne.symm spelled.ne_mountpoint)]
    exact coherent.mount
  case paths =>
    intro key target found different
    have known := keys key target found
    have before := coherent.paths key target known.2 different
    refine ⟨before.1, removable.unlinked_resolve uden ?_ before.2⟩
    intro same
    rw [same] at known
    exact known.1 (sole key known.2)
  case toNames =>
    constructor
    case root => exact coherent.root
    case toLinked =>
      constructor
      case hash =>
        intro number target found
        rw [inums target]
        exact coherent.hash number target found
      case lookup => exact fun key target found => coherent.lookup key target (keys key target found).2
      case cached =>
        exact fun parent name target bound edge =>
          coherent.cached parent name target bound (removable.unlinked_edge uden edge).1
      case reserved => exact coherent.reserved.put number
    case unique =>
      intro first second name other target firstBound secondBound one two session
      rw [inums target] at session
      exact coherent.unique first second name other target firstBound secondBound
        (removable.unlinked_edge uden one).1 (removable.unlinked_edge uden two).1 session
    case well =>
      intro parent bound
      have here : WellNamed ns ((ns.unlinked dir ip last uden path).inode parent) := by
        by_cases isDir : parent = dir
        · rw [isDir]
          exact removable.wellNamed_dir coherent
        by_cases isFile : parent = ip
        · rw [isFile, dead]
          have before := coherent.well ip ipBound
          exact ⟨fun foreign => absurd removable.session foreign, before.live, before.added,
            before.fetched, before.named, before.unread⟩
        · rw [unlinked_inode_other uden isDir isFile]
          exact coherent.well parent bound
      apply here.transport (ns.unlinked dir ip last uden path) rfl
      intro name target edge
      refine ⟨?_, inums target⟩
      have alive := here.live name target edge
      have notFile := removable.unlinked_target coherent uden bound edge
      by_cases isDir : target = dir
      · rw [isDir] at alive ⊢
        rw [unlinked_inode_dir uden removable.ne]
        exact alive
      · rw [unlinked_inode_other uden isDir notFile]
        exact alive

end Removal

/-! ## The call -/

section Call

variable {ns next : Namespace} {path : List Char} {front : List Name} {last : Name} {dir ip : Nat}

/-- Only the references and the path cache differ, by one reference. -/
def TookRef (ns next : Namespace) (ip : Nat) : Prop :=
  next = { ns.addRef ip 1 with dlookupHash := next.dlookupHash }

theorem TookRef.iRef (took : TookRef ns next ip) (other : Nat) :
    (next.inode other).iRef = (ns.inode other).iRef + if other = ip then 1 else 0 := by
  have inode := congrArg Namespace.inode took
  change next.inode = (ns.addRef ip 1).inode at inode
  rw [inode, addRef_inode_iRef]

/-- Which keys a lookup adds to the path cache, and the only fault it can end in. -/
theorem Coherent.dlookupAllocAdd_exact {key : List Char}
    (fits : key.length ≤ path.length) :
    Ensures (dlookupAllocAdd ip key) (ns.addRef ip 1)
      (fun _ next => TookRef ns next ip ∧ forall other target,
        next.dlookupHash other = some target ->
          ns.dlookupHash other = some target ∨ (other = key ∧ target = ip))
      (fun fault _ => fault = .segfault ∧ maxPath ≤ path.length) := by
  rw [ensures_dlookupAllocAdd]
  split
  case isTrue long => exact ⟨rfl, Nat.le_trans long fits⟩
  case isFalse =>
    refine ⟨rfl, ?_⟩
    intro other target found
    rcases update_eq_some found with here | ⟨_, before⟩
    · exact Or.inr here
    · exact Or.inl before

theorem Coherent.nameiparent_exact (coherent : Coherent ns) (spelled : Spelled path)
    (split : below path = front ++ [last]) (plain : ¬ ZeroEnd path)
    (walk : ns.resolve 0 front = some dir) (isDir : (ns.inode dir).itype = .dir) :
    Ensures (nameiparent path) ns
      (fun found next => found = some (dir, last) ∧ TookRef ns next dir ∧
        forall other target, next.dlookupHash other = some target ->
          ns.dlookupHash other = some target ∨ target = dir)
      (fun fault _ => fault = .segfault ∧ maxPath ≤ path.length) := by
  rcases spelled.getParentPath split plain with ⟨parent, cut, fits, kind⟩
  simp only [nameiparent, cut, Ensures.bind_iff, Ensures.get_iff]
  cases known : ns.dlookupHash parent with
  | some remembered =>
      have same := coherent.remembered known kind
      rw [walk] at same
      cases same
      simp only [coherent.alive known, Bool.false_eq_true, if_false, takeRef, Ensures.bind_iff,
        ensures_onInode, Ensures.pure_iff]
      exact ⟨trivial, rfl, fun _ _ found => Or.inl found⟩
  | none =>
      simp only [Ensures.bind_iff]
      refine (coherent.namex_resolves_parent spelled split walk isDir).mono ?_
        (fun _ _ impossible => impossible.elim)
      rintro found next ⟨result, state⟩
      rw [result, state]
      simp only [Ensures.bind_iff, Ensures.pure_iff, true_and]
      refine (Coherent.dlookupAllocAdd_exact fits).mono ?_ (fun _ _ fault => fault)
      rintro _ final ⟨took, keys⟩
      refine ⟨took, ?_⟩
      intro other target found
      rcases keys other target found with before | new
      · exact Or.inl before
      · exact Or.inr new.2

theorem Coherent.namei_exact (coherent : Coherent ns) (spelled : Spelled path)
    (walk : ns.resolve 0 (below path) = some ip) :
    Ensures (namei path) ns
      (fun found next => found = some ip ∧ TookRef ns next ip ∧
        forall other target, next.dlookupHash other = some target ->
          ns.dlookupHash other = some target ∨ other = path)
      (fun fault _ => fault = .segfault ∧ maxPath ≤ path.length) := by
  rw [namei, Ensures.bind_iff, Ensures.get_iff]
  cases known : ns.dlookupHash path with
  | some remembered =>
      have same := (coherent.paths path remembered known spelled.ne_mountpoint).2
      rw [walk] at same
      cases same
      simp only [coherent.alive known, Bool.false_eq_true, if_false, takeRef, Ensures.bind_iff,
        ensures_onInode, Ensures.pure_iff]
      exact ⟨trivial, rfl, fun _ _ found => Or.inl found⟩
  | none =>
      simp only [Ensures.bind_iff]
      refine (coherent.namex_resolves spelled walk).mono ?_ (fun _ _ impossible => impossible.elim)
      rintro found next ⟨⟨name, result⟩, state⟩
      rw [result, state]
      simp only [Ensures.bind_iff, Ensures.pure_iff, true_and]
      refine (Coherent.dlookupAllocAdd_exact (Nat.le_refl path.length)).mono ?_ (fun _ _ fault => fault)
      rintro _ final ⟨took, keys⟩
      refine ⟨took, ?_⟩
      intro other target found
      rcases keys other target found with before | new
      · exact Or.inl before
      · exact Or.inr new.1

/-- What makes a path removable survives lookups. -/
theorem Removable.carry (removable : Removable ns path front last dir ip) (coherent : Coherent ns)
    (grows : Grows ns next) : Removable next path front last dir ip := by
  have inside := coherent.resolve_bound coherent.root_alive.1 removable.walk
  have ipBound := coherent.cached dir last ip inside removable.edge
  constructor
  case split => exact removable.split
  case walk => exact grows.resolve coherent.toLinked coherent.root_alive.1 removable.walk
  case isDir => exact (grows.itype dir inside).trans removable.isDir
  case edge => exact grows.edges dir last ip inside removable.edge
  case file => exact (grows.itype ip ipBound).trans removable.file
  case session =>
    rw [grows.inum ip ipBound, grows.kernel]
    exact removable.session

/-- The call from the search of the entry on. -/
theorem Removable.finish (removable : Removable ns path front last dir ip)
    (coherent : Coherent ns) (spelled : Spelled path) :
    Ensures (do
      let removed ← dirRemoveEntry dir last
      if removed < 0 then pure removed
      else do
        dlookupDel path
        iput dir
        iput ip
        idealloc ip
        pure 0) ns
      (fun status next => status = 0 ∧ (Sole ns path ip -> Coherent next) ∧
        (ns.inode ip).iRef < 3 ∧ forall other, other ≠ ip ->
          (next.inode other).iRef = (ns.inode other).iRef - if other = dir then 1 else 0)
      (fun fault _ => fault = .assertion "inode->i_ref < 2" ∧ 3 ≤ (ns.inode ip).iRef) := by
  have inside := coherent.resolve_bound coherent.root_alive.1 removable.walk
  rcases (coherent.well dir inside).named last ip removable.edge with
    ⟨tree, uden, set, found, live, number⟩
  have session := number removable.session ▸ removable.session
  have positive := (mem_sessionNumbers ns.kernel.validBase session).1
  have searched : Ensures (dirRemoveEntry dir last) ns
      (fun removed next => removed = 0 ∧ next = ns.withoutEntry dir last uden)
      (fun _ _ => False) := by
    rw [dirRemoveEntry, ownSearch, Ensures.bind_iff, Ensures.bind_iff, ensures_artSearch set, found]
    simp only [Ensures.pure_iff, if_neg live, ensures_removeFound,
      if_neg (Nat.ne_of_gt positive), and_self]
  rw [Ensures.bind_iff]
  refine searched.mono ?_ (fun _ _ impossible => impossible.elim)
  rintro removed middle ⟨zero, state⟩
  rw [zero, state]
  -- the references on the file when `idealloc` looks at them
  have count : (((({ ns.withoutEntry dir last uden with
      dlookupHash := Function.update ns.dlookupHash path none }.update dir
        (fun inode => { inode with iRef := inode.iRef - 1 })).update ip
        (fun inode => { inode with iRef := inode.iRef - 1 })).inode ip).iRef) =
      (ns.inode ip).iRef - 1 := by
    rw [update_inode_self, update_inode_other _ _ (Ne.symm removable.ne)]
    change ((ns.withoutEntry dir last uden).inode ip).iRef - 1 = _
    rw [Namespace.withoutEntry, update_inode_other _ _ (Ne.symm removable.ne)]
  simp only [Int.lt_irrefl, if_false, dlookupDel, iput, idealloc, Ensures.bind_iff,
    Ensures.modify_iff, ensures_onInode, ensures_nsInode, Ensures.ite_iff, Ensures.throw_iff,
    Ensures.pure_iff]
  split
  case isTrue many =>
    have many : 2 ≤ (ns.inode ip).iRef - 1 := by
      rw [← count]
      exact many
    exact ⟨trivial, by omega⟩
  case isFalse few =>
    have few : ¬ 2 ≤ (ns.inode ip).iRef - 1 := by
      rw [← count]
      exact few
    refine ⟨trivial, fun sole => removable.coherent_unlinked coherent spelled sole session, by omega, ?_⟩
    intro other notFile
    change ((ns.unlinked dir ip last uden path).inode other).iRef = _
    by_cases here : other = dir
    · rw [here, unlinked_inode_dir uden removable.ne, if_pos rfl]
    · rw [unlinked_inode_other uden here notFile, if_neg here, Int.sub_zero]

/-- `userfs_posix_unlink` of a file of the session that is in memory: it succeeds if
nobody holds a reference and stops at the assertion of `idealloc` otherwise. -/
theorem Removable.posixUnlink_exact (removable : Removable ns path front last dir ip)
    (coherent : Coherent ns) (spelled : Spelled path) (plain : ¬ ZeroEnd path) :
    Ensures (posixUnlink path) ns
      (fun status next => status = 0 ∧ (Sole ns path ip -> Coherent next) ∧
        (ns.inode ip).iRef < 1 ∧ forall other, other ≠ ip -> (next.inode other).iRef = (ns.inode other).iRef)
      (fun fault _ => (fault = .assertion "inode->i_ref < 2" ∧ 1 ≤ (ns.inode ip).iRef) ∨
        (fault = .segfault ∧ maxPath ≤ path.length)) := by
  have different := removable.ne
  have parent := (coherent.nameiparent_exact spelled removable.split plain removable.walk
    removable.isDir).and (nameiparent_coherent coherent spelled removable.split plain)
  rw [posixUnlink, Ensures.bind_iff]
  refine parent.mono ?_ (fun _ _ fault => Or.inr fault.1)
  rintro found first ⟨⟨result, tookDir, dirKeys⟩, firstCoherent, firstLookup, _⟩
  rw [result]
  have firstRemovable := removable.carry coherent firstLookup.toGrows
  have target := (firstCoherent.namei_exact spelled firstRemovable.whole).and
    (namei_coherent firstCoherent spelled)
  refine Ensures.bind_iff.mpr ?_
  rw [unlinkTarget, Ensures.bind_iff]
  refine target.mono ?_ (fun _ _ fault => Or.inr fault.1)
  rintro found second ⟨⟨result, tookIp, ipKeys⟩, secondCoherent, secondLookup, _⟩
  rw [result]
  have taken : Visited second (second.update ip (fun inode =>
      { inode with iRef := inode.iRef + 1 })) := secondCoherent.toNames.visit_refs _
  have thirdRemovable := firstRemovable.carry firstCoherent
    (secondLookup.trans taken.toLookup secondCoherent.toLinked).toGrows
  have thirdSole : Sole ns path ip -> Sole (second.update ip (fun inode =>
      { inode with iRef := inode.iRef + 1 })) path ip := by
    intro sole other known
    rcases ipKeys other ip known with before | same
    · rcases dirKeys other ip before with before | same
      · exact sole other before
      · exact absurd same.symm different
    · exact same
  -- the references taken so far: one on the directory, two on the file
  have refs : forall other, ((second.update ip (fun inode =>
      { inode with iRef := inode.iRef + 1 })).inode other).iRef =
      (ns.inode other).iRef + (if other = dir then 1 else 0) + if other = ip then 2 else 0 := by
    intro other
    have one := tookDir.iRef other
    have two := tookIp.iRef other
    by_cases here : other = ip
    · rw [here, update_inode_self]
      rw [here] at one two
      simp only [Ne.symm different, if_false, if_true] at one two ⊢
      omega
    · rw [update_inode_other _ _ here]
      simp only [here, if_false] at two ⊢
      omega
  have fileRefs := refs ip
  simp only [Ne.symm different, if_false, if_true] at fileRefs
  refine Ensures.bind_iff.mpr (ensures_onInode.mpr (Ensures.pure_iff.mpr ?_))
  refine (thirdRemovable.finish (secondCoherent.visit taken) spelled).mono ?_ ?_
  · rintro status last ⟨zero, kept, few, others⟩
    refine ⟨zero, fun sole => kept (thirdSole sole), by omega, ?_⟩
    intro other notFile
    have after := others other notFile
    have before := refs other
    rw [if_neg notFile] at before
    omega
  · rintro fault last ⟨same, many⟩
    exact Or.inl ⟨same, by omega⟩

end Call

end Userfs.Filesystem
