import Userfs.Filesystem.Links

namespace Userfs.Filesystem

/-!
# Names and the inodes they lead to

A walk through the directories follows the table `de_cache` where it can and fills it
otherwise, so after a walk all its steps are in these tables.  `resolve` is the walk
in memory.  The invariant `Names` relates the two records that a directory keeps of an
entry, and says that an inode with a name is not one that is being deleted.
-/

/-- The kernel knows an entry of this name with this number. -/
def Kernel.Lists (kernel : Kernel) (name : Name) (ino : Nat) : Prop :=
  (ino ≠ 0 ∧ Exists fun inum => kernel.entry inum name = ino) ∨
    Exists fun root => (name, ino) ∈ kernel.block root

/-- The kernel's numbers are not those of the session. -/
theorem Kernel.Lists.reserved {kernel : Kernel} {name : Name} {ino : Nat}
    (lists : kernel.Lists name ino) : ino ∉ sessionNumbers kernel.inodeBase := by
  rcases lists with ⟨_, inum, equal⟩ | ⟨root, listed⟩
  · rw [← equal]
    exact kernel.reserved_entry inum name
  · exact kernel.reserved_block root _ listed

/-- An entry read from the kernel. -/
structure OndiskEntry (kernel : Kernel) (name : Name) (uden : Dentry) : Prop where
  listed : kernel.Lists name uden.ino
  fileType : uden.fileType = kernel.itype uden.ino

/-- What holds for one inode: the kernel's inodes keep their type, the names in `de_cache` have live entries in the tree and lead to inodes
that are not being deleted, and nothing is known before the entries on disk are read. -/
structure WellNamed (ns : Namespace) (inode : NsInode) : Prop where
  ondisk : inode.inum ∉ sessionNumbers ns.kernel.inodeBase ->
    inode.deleting = false ∧ inode.itype = ns.kernel.itype inode.inum
  live : forall name ip, inode.deCache name = some ip -> (ns.inode ip).deleting = false
  added : inode.EntriesAll (fun name uden =>
    uden.addordel = .addden -> inode.deCache name ≠ none)
  fetched : inode.EntriesAll (fun name uden =>
    uden.addordel = .ondisk -> OndiskEntry ns.kernel name uden)
  named : forall name ip, inode.deCache name = some ip ->
    Exists fun tree => Exists fun uden => inode.dentryTree = some tree ∧ tree name = some uden ∧
      uden.addordel ≠ .delden ∧
      ((ns.inode ip).inum ∈ sessionNumbers ns.kernel.inodeBase -> uden.ino = (ns.inode ip).inum)
  unread : inode.Unread ->
    (forall name, inode.deCache name = none) ∧ inode.EntriesAll (fun _ _ => False)

/-- The names of a session.  An inode created in it has one name at most. -/
structure Names (ns : Namespace) : Prop extends Linked ns where
  root : ns.inodeHash rootIno = some 0
  well : forall dir, dir < ns.next -> WellNamed ns (ns.inode dir)
  unique : forall first second name other ip, first < ns.next -> second < ns.next ->
    (ns.inode first).deCache name = some ip -> (ns.inode second).deCache other = some ip ->
    (ns.inode ip).inum ∈ sessionNumbers ns.kernel.inodeBase -> first = second ∧ name = other

/-- The walk along names that are all in memory. -/
def Namespace.resolve (ns : Namespace) : Nat -> List Name -> Option Nat
  | dir, [] => some dir
  | dir, name :: rest =>
      if (ns.inode dir).itype = .dir then
        match (ns.inode dir).deCache name with
        | none => none
        | some next => ns.resolve next rest
      else none

/-! ## Walks -/

section Walks

variable {ns next : Namespace} {dir ip : Nat} {name : Name} {path rest : List Name}

/-- The first step of a walk. -/
theorem resolve_cons : ns.resolve dir (name :: rest) = some ip <->
    (ns.inode dir).itype = .dir ∧
      Exists fun child => (ns.inode dir).deCache name = some child ∧
        ns.resolve child rest = some ip := by
  rw [Namespace.resolve]
  by_cases isDir : (ns.inode dir).itype = .dir
  · rw [if_pos isDir]
    cases (ns.inode dir).deCache name with
    | none => simp [isDir]
    | some child => simp [isDir]
  · simp [isDir]

/-- The last step of a walk. -/
theorem resolve_concat : ns.resolve dir (path ++ [name]) = some ip <->
    Exists fun parent => ns.resolve dir path = some parent ∧
      (ns.inode parent).itype = .dir ∧ (ns.inode parent).deCache name = some ip := by
  induction path generalizing dir with
  | nil =>
      rw [List.nil_append, resolve_cons]
      simp [Namespace.resolve]
  | cons first rest ih =>
      rw [List.cons_append, resolve_cons]
      constructor
      · rintro ⟨isDir, child, edge, walk⟩
        rcases ih.mp walk with ⟨parent, before, last⟩
        exact ⟨parent, resolve_cons.mpr ⟨isDir, child, edge, before⟩, last⟩
      · rintro ⟨parent, walk, last⟩
        rcases resolve_cons.mp walk with ⟨isDir, child, edge, before⟩
        exact ⟨isDir, child, edge, ih.mpr ⟨parent, before, last⟩⟩

theorem Linked.resolve_bound (linked : Linked ns) (bound : dir < ns.next)
    (walk : ns.resolve dir path = some ip) : ip < ns.next := by
  induction path generalizing dir with
  | nil =>
      cases walk
      exact bound
  | cons name rest ih =>
      rcases resolve_cons.mp walk with ⟨_, child, edge, later⟩
      exact ih (linked.cached dir name child bound edge) later

/-- A change of the name space that takes nothing away: types, numbers and names
stay. -/
structure Grows (ns next : Namespace) : Prop where
  kernel : next.kernel = ns.kernel
  bound : ns.next ≤ next.next
  inum : forall dir, dir < ns.next -> (next.inode dir).inum = (ns.inode dir).inum
  itype : forall dir, dir < ns.next -> (next.inode dir).itype = (ns.inode dir).itype
  edges : forall dir name ip, dir < ns.next -> (ns.inode dir).deCache name = some ip ->
    (next.inode dir).deCache name = some ip

/-- A change by lookups: every new name is one that the kernel knows. -/
structure Lookup (ns next : Namespace) : Prop extends Grows ns next where
  listed : forall dir name ip, dir < next.next -> (next.inode dir).deCache name = some ip ->
    (dir < ns.next ∧ (ns.inode dir).deCache name = some ip) ∨
      ns.kernel.Lists name (next.inode ip).inum

theorem Grows.refl (ns : Namespace) : Grows ns ns where
  kernel := rfl
  bound := Nat.le_refl _
  inum := fun _ _ => rfl
  itype := fun _ _ => rfl
  edges := fun _ _ _ _ edge => edge

theorem Grows.trans {last : Namespace} (first : Grows ns next) (second : Grows next last) :
    Grows ns last where
  kernel := second.kernel.trans first.kernel
  bound := Nat.le_trans first.bound second.bound
  inum := fun dir bound =>
    (second.inum dir (Nat.lt_of_lt_of_le bound first.bound)).trans (first.inum dir bound)
  itype := fun dir bound =>
    (second.itype dir (Nat.lt_of_lt_of_le bound first.bound)).trans (first.itype dir bound)
  edges := fun dir name ip bound edge =>
    second.edges dir name ip (Nat.lt_of_lt_of_le bound first.bound) (first.edges dir name ip bound edge)

theorem Lookup.refl (ns : Namespace) : Lookup ns ns where
  toGrows := Grows.refl ns
  listed := fun _ _ _ bound edge => Or.inl ⟨bound, edge⟩

theorem Lookup.trans {last : Namespace} (first : Lookup ns next) (second : Lookup next last)
    (linked : Linked next) : Lookup ns last where
  toGrows := first.toGrows.trans second.toGrows
  listed := by
    intro dir name ip bound edge
    rcases second.listed dir name ip bound edge with ⟨inside, before⟩ | listed
    · rcases first.listed dir name ip inside before with old | listed
      · exact Or.inl old
      · rw [← second.inum ip (linked.cached dir name ip inside before)] at listed
        exact Or.inr listed
    · rw [first.kernel] at listed
      exact Or.inr listed

/-- Walks stay walks. -/
theorem Grows.resolve (grows : Grows ns next) (linked : Linked ns) (bound : dir < ns.next)
    (walk : ns.resolve dir path = some ip) : next.resolve dir path = some ip := by
  induction path generalizing dir with
  | nil => exact walk
  | cons name rest ih =>
      rcases resolve_cons.mp walk with ⟨isDir, child, edge, later⟩
      apply resolve_cons.mpr
      refine ⟨(grows.itype dir bound).trans isDir, child, grows.edges dir name child bound edge, ?_⟩
      exact ih (linked.cached dir name child bound edge) later

end Walks

/-! ## Changes of one inode -/

section Changes

variable {ns next : Namespace} {dir : Nat} {change : NsInode -> NsInode} {inode : NsInode}

/-- What holds for an inode survives a change elsewhere that keeps the numbers and does
not start to delete an inode with a name. -/
theorem WellNamed.transport (well : WellNamed ns inode) (next : Namespace)
    (kernel : next.kernel = ns.kernel)
    (targets : forall name ip, inode.deCache name = some ip ->
      (next.inode ip).deleting = false ∧ (next.inode ip).inum = (ns.inode ip).inum) :
    WellNamed next inode where
  ondisk := by
    rw [kernel]
    exact well.ondisk
  live := fun name ip edge => (targets name ip edge).1
  added := well.added
  fetched := by
    rw [kernel]
    exact well.fetched
  named := by
    intro name ip edge
    rw [kernel, (targets name ip edge).2]
    exact well.named name ip edge
  unread := well.unread

/-- A change of one inode.  Its names are old ones, names of the kernel's inodes, or one
new name of an inode that had none. -/
theorem Names.rename (names : Names ns) (new : Name)
    (inum : (change (ns.inode dir)).inum = (ns.inode dir).inum)
    (deleting : (change (ns.inode dir)).deleting = (ns.inode dir).deleting)
    (edges : forall name ip, (change (ns.inode dir)).deCache name = some ip ->
      (ns.inode dir).deCache name = some ip ∨
        (ip < ns.next ∧ ((ns.inode ip).inum ∉ sessionNumbers ns.kernel.inodeBase ∨
          (name = new ∧ forall parent other, parent < ns.next ->
            (ns.inode parent).deCache other ≠ some ip))))
    (well : dir < ns.next -> WellNamed ns (change (ns.inode dir))) :
    Names (ns.update dir change) := by
  have inums : forall ip, ((ns.update dir change).inode ip).inum = (ns.inode ip).inum := by
    intro ip
    by_cases here : ip = dir
    · rw [here, update_inode_self, inum]
    · rw [update_inode_other ns change here]
  have flags : forall ip, ((ns.update dir change).inode ip).deleting = (ns.inode ip).deleting := by
    intro ip
    by_cases here : ip = dir
    · rw [here, update_inode_self, deleting]
    · rw [update_inode_other ns change here]
  -- a name of an inode of the session was there before, or it is the new one
  have old : forall parent name ip, ((ns.update dir change).inode parent).deCache name = some ip ->
      (ns.inode ip).inum ∈ sessionNumbers ns.kernel.inodeBase ->
      (ns.inode parent).deCache name = some ip ∨
        (parent = dir ∧ name = new ∧ forall other entry, other < ns.next ->
          (ns.inode other).deCache entry ≠ some ip) := by
    intro parent name ip edge session
    by_cases here : parent = dir
    · rw [here, update_inode_self] at edge
      rw [here]
      rcases edges name ip edge with before | ⟨_, foreign | fresh⟩
      · exact Or.inl before
      · exact absurd session foreign
      · exact Or.inr ⟨rfl, fresh⟩
    · rw [update_inode_other ns change here] at edge
      exact Or.inl edge
  constructor
  case toLinked =>
    apply names.toLinked.update inum
    intro name ip bound edge
    rcases edges name ip edge with before | new
    · exact names.cached dir name ip bound before
    · exact new.1
  case root => exact names.root
  case well =>
    intro parent bound
    have here : WellNamed ns ((ns.update dir change).inode parent) := by
      by_cases here : parent = dir
      · rw [here] at bound ⊢
        rw [update_inode_self]
        exact well bound
      · rw [update_inode_other ns change here]
        exact names.well parent bound
    apply here.transport (ns.update dir change) rfl
    intro name ip edge
    exact ⟨(flags ip).trans (here.live name ip edge), inums ip⟩
  case unique =>
    intro first second name other ip firstBound secondBound one two session
    rw [inums ip] at session
    rcases old first name ip one session with left | ⟨left, leftNew, none⟩
    · rcases old second other ip two session with right | ⟨_, _, none⟩
      · exact names.unique first second name other ip firstBound secondBound left right session
      · exact absurd left (none first name firstBound)
    · rcases old second other ip two session with right | ⟨right, rightNew, _⟩
      · exact absurd right (none second other secondBound)
      · exact ⟨left.trans right.symm, leftNew.trans rightNew.symm⟩

/-- A change of one inode that gives it no name for an inode created in the session. -/
theorem Names.update (names : Names ns)
    (inum : (change (ns.inode dir)).inum = (ns.inode dir).inum)
    (deleting : (change (ns.inode dir)).deleting = (ns.inode dir).deleting)
    (edges : forall name ip, (change (ns.inode dir)).deCache name = some ip ->
      (ns.inode dir).deCache name = some ip ∨
        (ip < ns.next ∧ (ns.inode ip).inum ∉ sessionNumbers ns.kernel.inodeBase))
    (well : dir < ns.next -> WellNamed ns (change (ns.inode dir))) :
    Names (ns.update dir change) := by
  apply names.rename [] inum deleting ?_ well
  intro name ip edge
  rcases edges name ip edge with before | foreign
  · exact Or.inl before
  · exact Or.inr ⟨foreign.1, Or.inl foreign.2⟩

/-- Only the references change. -/
theorem Names.refs (names : Names ns) (count : NsInode -> Int) :
    Names (ns.update dir (fun inode => { inode with iRef := count inode })) := by
  apply names.update rfl rfl
  · exact fun _ _ edge => Or.inl edge
  · intro bound
    have before := names.well dir bound
    exact ⟨before.ondisk, before.live, before.added, before.fetched, before.named,
      before.unread⟩

theorem Lookup.update (inum : (change (ns.inode dir)).inum = (ns.inode dir).inum)
    (itype : (change (ns.inode dir)).itype = (ns.inode dir).itype)
    (edges : forall name ip, (ns.inode dir).deCache name = some ip ->
      (change (ns.inode dir)).deCache name = some ip)
    (new : forall name ip, dir < ns.next -> (change (ns.inode dir)).deCache name = some ip ->
      (ns.inode dir).deCache name = some ip ∨ ns.kernel.Lists name (ns.inode ip).inum) :
    Lookup ns (ns.update dir change) := by
  have inums : forall ip, ((ns.update dir change).inode ip).inum = (ns.inode ip).inum := by
    intro ip
    by_cases here : ip = dir
    · rw [here, update_inode_self, inum]
    · rw [update_inode_other ns change here]
  constructor
  case toGrows =>
    constructor
    case kernel => rfl
    case bound => exact Nat.le_refl _
    case inum => exact fun ip _ => inums ip
    case itype =>
      intro ip _
      by_cases here : ip = dir
      · rw [here, update_inode_self, itype]
      · rw [update_inode_other ns change here]
    case edges =>
      intro parent name ip _ edge
      by_cases here : parent = dir
      · rw [here] at edge ⊢
        rw [update_inode_self]
        exact edges name ip edge
      · rw [update_inode_other ns change here]
        exact edge
  case listed =>
    intro parent name ip bound edge
    by_cases here : parent = dir
    · rw [here] at bound edge ⊢
      rw [update_inode_self] at edge
      rw [inums ip]
      rcases new name ip bound edge with before | listed
      · exact Or.inl ⟨bound, before⟩
      · exact Or.inr listed
    · rw [update_inode_other ns change here] at edge
      exact Or.inl ⟨bound, edge⟩

theorem Lookup.refs (count : NsInode -> Int) :
    Lookup ns (ns.update dir (fun inode => { inode with iRef := count inode })) :=
  Lookup.update rfl rfl (fun _ _ edge => edge) (fun _ _ _ edge => Or.inl edge)

/-- A new inode without names. -/
theorem Names.icacheAdd (names : Names ns) (unnamed : inode.deCache = fun _ => none)
    (other : inode.inum ≠ rootIno) (well : WellNamed ns inode) : Names (ns.icacheAdd inode) := by
  -- a name belongs to an older directory and leads to an older inode
  have old : forall dir name ip, dir < ns.next + 1 ->
      ((ns.icacheAdd inode).inode dir).deCache name = some ip ->
      dir < ns.next ∧ (ns.inode dir).deCache name = some ip ∧ ip < ns.next := by
    intro dir name ip bound edge
    by_cases here : dir = ns.next
    · rw [here, icacheAdd_inode_next, unnamed] at edge
      cases edge
    · rw [icacheAdd_inode_other ns inode here] at edge
      have inside := Nat.lt_of_le_of_ne (Nat.le_of_lt_succ bound) here
      exact ⟨inside, edge, names.cached dir name ip inside edge⟩
  constructor
  case toLinked => exact names.toLinked.icacheAdd unnamed
  case root =>
    change Function.update ns.inodeHash inode.inum (some ns.next) rootIno = some 0
    rw [Function.update_of_ne (Ne.symm other)]
    exact names.root
  case well =>
    intro dir bound
    have here : WellNamed ns ((ns.icacheAdd inode).inode dir) := by
      by_cases here : dir = ns.next
      · rw [here, icacheAdd_inode_next]
        exact well
      · rw [icacheAdd_inode_other ns inode here]
        exact names.well dir (Nat.lt_of_le_of_ne (Nat.le_of_lt_succ bound) here)
    apply here.transport (ns.icacheAdd inode) rfl
    intro name ip edge
    have before := old dir name ip bound edge
    rw [icacheAdd_inode_other ns inode (Nat.ne_of_lt before.2.2)]
    exact ⟨here.live name ip edge, rfl⟩
  case unique =>
    intro first second name other ip firstBound secondBound one two session
    have left := old first name ip firstBound one
    have right := old second other ip secondBound two
    rw [icacheAdd_inode_other ns inode (Nat.ne_of_lt left.2.2)] at session
    exact names.unique first second name other ip left.1 right.1 left.2.1 right.2.1 session

theorem Lookup.icacheAdd (unnamed : inode.deCache = fun _ => none) :
    Lookup ns (ns.icacheAdd inode) := by
  have same : forall dir, dir < ns.next -> (ns.icacheAdd inode).inode dir = ns.inode dir :=
    fun dir bound => icacheAdd_inode_other ns inode (Nat.ne_of_lt bound)
  constructor
  case toGrows =>
    constructor
    case kernel => rfl
    case bound => exact Nat.le_succ _
    case inum => exact fun dir bound => congrArg NsInode.inum (same dir bound)
    case itype => exact fun dir bound => congrArg NsInode.itype (same dir bound)
    case edges =>
      intro dir name ip bound edge
      rw [same dir bound]
      exact edge
  case listed =>
    intro dir name ip bound edge
    by_cases here : dir = ns.next
    · rw [here, icacheAdd_inode_next, unnamed] at edge
      cases edge
    · have inside := Nat.lt_of_le_of_ne (Nat.le_of_lt_succ bound) here
      rw [same dir inside] at edge
      exact Or.inl ⟨inside, edge⟩

end Changes

/-! ## Inodes and trees -/

section Trees

variable {ns : Namespace} {inode after : NsInode} {name : Name} {uden : Dentry}

theorem wellNamed_loaded {inum size root : Nat} {itype : FileType} {deleting zeroed : Bool}
    (right : inum ∉ sessionNumbers ns.kernel.inodeBase ->
      deleting = false ∧ itype = ns.kernel.itype inum) :
    WellNamed ns (NsInode.loaded inum itype deleting size root zeroed) where
  ondisk := right
  live := fun _ _ edge => nomatch edge
  added := fun tree name uden set found => (loaded_entries tree name uden set found).elim
  fetched := fun tree name uden set found => (loaded_entries tree name uden set found).elim
  named := fun _ _ edge => nomatch edge
  unread := fun _ => ⟨fun _ => rfl, loaded_entries⟩

/-- An entry of the kernel is entered under a name that has none. -/
theorem WellNamed.insertOndisk (well : WellNamed ns inode)
    (absent : forall tree, inode.dentryTree = some tree -> tree name = none)
    (state : uden.addordel = .ondisk) (entry : OndiskEntry ns.kernel name uden)
    (read : ¬ inode.Unread) : WellNamed ns (inode.artInsert name uden) where
  ondisk := well.ondisk
  live := well.live
  added := by
    apply NsInode.EntriesAll.artInsert well.added
    intro added
    rw [state] at added
    cases added
  fetched := NsInode.EntriesAll.artInsert well.fetched (fun _ => entry)
  named := by
    intro other ip edge
    rcases well.named other ip edge with ⟨tree, entry, set, found, live⟩
    have different : other ≠ name := by
      intro same
      rw [same, absent tree set] at found
      cases found
    refine ⟨Function.update tree name (some uden), entry, ?_, ?_, live⟩
    · simp only [NsInode.artInsert, set, Option.map_some]
    · rw [Function.update_of_ne different]
      exact found
  unread := fun unread => absurd unread read

/-- The entries on disk are read into an empty tree. -/
theorem WellNamed.fill (well : WellNamed ns inode) (unread : inode.Unread)
    (same : after = { inode with inmemDen := true, dentryTree := after.dentryTree })
    (entries : after.EntriesAll (fun name uden =>
      uden.addordel = .ondisk ∧ OndiskEntry ns.kernel name uden)) : WellNamed ns after := by
  have unnamed : forall name, after.deCache name = none := by
    intro name
    rw [same]
    exact (well.unread unread).1 name
  constructor
  case ondisk =>
    rw [same]
    exact well.ondisk
  case live =>
    intro name ip edge
    rw [unnamed name] at edge
    cases edge
  case added =>
    intro tree name uden set found added
    rw [(entries tree name uden set found).1] at added
    cases added
  case fetched => exact fun tree name uden set found _ => (entries tree name uden set found).2
  case named =>
    intro name ip edge
    rw [unnamed name] at edge
    cases edge
  case unread =>
    rintro ⟨_, unset⟩
    rw [same] at unset
    cases unset

/-- The entries of a directory block are all on disk. -/
theorem filled_ondisk {root : Nat} (kernel : Kernel)
    (all : inode.EntriesAll (fun name uden =>
      uden.addordel = .ondisk ∧ OndiskEntry kernel name uden)) :
    (inode.filled kernel (kernel.block root)).EntriesAll (fun name uden =>
      uden.addordel = .ondisk ∧ OndiskEntry kernel name uden) := by
  apply NsInode.EntriesAll.filled all
  intro listed member
  exact ⟨rfl, Or.inr ⟨root, member⟩, rfl⟩

/-- Reading a block keeps an entry or replaces it by one on disk. -/
theorem filled_entry (kernel : Kernel) (listing : List (Name × Nat))
    {tree : Name -> Option Dentry} (set : inode.dentryTree = some tree) :
    Exists fun filled => (inode.filled kernel listing).dentryTree = some filled ∧
      forall name uden, tree name = some uden ->
        Exists fun entry => filled name = some entry ∧ (entry = uden ∨ entry.addordel = .ondisk) := by
  induction listing generalizing inode tree with
  | nil => exact ⟨tree, set, fun _ uden found => ⟨uden, found, Or.inl rfl⟩⟩
  | cons listed rest ih =>
      have inserted : (inode.artInsert listed.1 ⟨.ondisk, listed.2, kernel.itype listed.2⟩).dentryTree =
          some (Function.update tree listed.1
            (some ⟨.ondisk, listed.2, kernel.itype listed.2⟩)) := by
        simp only [NsInode.artInsert, set, Option.map_some]
      rcases ih inserted with ⟨filled, after, entries⟩
      refine ⟨filled, after, ?_⟩
      intro name uden found
      by_cases here : name = listed.1
      · rcases entries name _ (by rw [here]; exact Function.update_self ..) with ⟨entry, last, kind⟩
        refine ⟨entry, last, Or.inr ?_⟩
        rcases kind with same | ondisk
        · rw [same]
        · exact ondisk
      · apply entries name uden
        rw [Function.update_of_ne here]
        exact found

end Trees

/-! ## Lookups in a directory -/

/-- A lookup that leaves the path cache alone. -/
structure Visited (ns next : Namespace) : Prop extends Lookup ns next where
  names : Names next
  paths : next.dlookupHash = ns.dlookupHash

section Directories

variable {ns next : Namespace} {dir : Nat} {name : Name}

theorem Visited.refl (names : Names ns) : Visited ns ns where
  toLookup := Lookup.refl ns
  names := names
  paths := rfl

theorem Visited.trans {last : Namespace} (first : Visited ns next) (second : Visited next last) :
    Visited ns last where
  toLookup := first.toLookup.trans second.toLookup first.names.toLinked
  names := second.names
  paths := second.paths.trans first.paths

theorem Names.visit_refs (names : Names ns) (count : NsInode -> Int) :
    Visited ns (ns.update dir (fun inode => { inode with iRef := count inode })) where
  toLookup := Lookup.refs count
  names := names.refs count
  paths := rfl

/-- A directory of which only the tree changes. -/
theorem Names.visit_tree (names : Names ns) {change : NsInode -> NsInode}
    (same : Exists fun flag => Exists fun tree => change (ns.inode dir) =
      { ns.inode dir with inmemDen := flag, dentryTree := tree })
    (well : WellNamed ns (change (ns.inode dir))) : Visited ns (ns.update dir change) := by
  rcases same with ⟨flag, tree, same⟩
  constructor
  case toLookup =>
    apply Lookup.update <;> rw [same]
    · exact fun _ _ edge => edge
    · exact fun _ _ _ edge => Or.inl edge
  case names =>
    apply names.update
    · rw [same]
    · rw [same]
    · rw [same]
      exact fun _ _ edge => Or.inl edge
    · exact fun _ => well
  case paths => rfl

/-- `iget` of a number of the kernel changes nothing but references. -/
theorem iget_visits (names : Names ns) (holder : Option Nat) {inum : Nat}
    (foreign : inum ∉ sessionNumbers ns.kernel.inodeBase) :
    Ensures (igetHolding holder inum) ns
      (fun got next => Visited ns next ∧
        (forall dir, dir < ns.next -> Exists fun count =>
          next.inode dir = { ns.inode dir with iRef := count }) ∧
        Exists fun ip => got = some ip ∧ ip < next.next ∧ (next.inode ip).inum = inum)
      (fun _ _ => True) := by
  rw [igetHolding, Ensures.bind_iff, Ensures.get_iff]
  cases known : ns.inodeHash inum with
  | some ip =>
      have found := names.hash inum ip known
      have alive : (ns.inode ip).deleting = false := by
        apply ((names.well ip found.1).ondisk ?_).1
        rw [found.2]
        exact foreign
      simp only [alive, Bool.false_eq_true, if_false, takeRef, Ensures.bind_iff, ensures_onInode,
        Ensures.pure_iff, Ensures.ite_iff, Ensures.throw_iff]
      split
      · trivial
      refine ⟨names.visit_refs _, ?_, ip, rfl, found.1, ?_⟩
      · intro dir _
        by_cases here : dir = ip
        · rw [here, update_inode_self]
          exact ⟨_, rfl⟩
        · rw [update_inode_other ns _ here]
          exact ⟨_, rfl⟩
      · rw [update_inode_self]
        exact found.2
  | none =>
      simp only [fetchRecord, Ensures.bind_iff, Ensures.get_iff]
      cases ns.kernel.record inum with
      | none => exact Ensures.throw_iff.mpr trivial
      | some record =>
          simp only [Ensures.pure_iff, ensures_icacheAdd]
          have other : inum ≠ rootIno := by
            intro same
            rw [same, names.root] at known
            cases known
          refine ⟨⟨Lookup.icacheAdd rfl, ?_, rfl⟩, ?_, ns.next, rfl, Nat.lt_succ_self _, ?_⟩
          · exact names.icacheAdd rfl other (wellNamed_loaded (fun _ => ⟨rfl, rfl⟩))
          · intro dir bound
            rw [icacheAdd_inode_other ns _ (Nat.ne_of_lt bound)]
            exact ⟨_, rfl⟩
          · rw [icacheAdd_inode_next]
            rfl

/-- An entry found in the tree of a directory. -/
def Namespace.HasEntry (ns : Namespace) (dir : Nat) (name : Name) (uden : Dentry) : Prop :=
  Exists fun tree => (ns.inode dir).dentryTree = some tree ∧ tree name = some uden

/-- `art_search` finds what the tree has; the tree of an unread directory is empty. -/
theorem artSearch_finds (names : Names ns) (bound : dir < ns.next) :
    Ensures (artSearch dir name) ns
      (fun found next => next = ns ∧ (ns.inode dir).dentryTree ≠ none ∧
        (forall uden, found = some uden ->
          ns.HasEntry dir name uden ∧ ¬ (ns.inode dir).Unread) ∧
        (found = none -> forall tree, (ns.inode dir).dentryTree = some tree -> tree name = none))
      (fun _ _ => True) := by
  rw [artSearch, Ensures.bind_iff, ensures_nsInode]
  cases set : (ns.inode dir).dentryTree with
  | none => exact Ensures.throw_iff.mpr trivial
  | some tree =>
      refine Ensures.pure_iff.mpr ⟨rfl, Option.some_ne_none _, ?_, ?_⟩
      · intro uden found
        refine ⟨⟨tree, set, found⟩, ?_⟩
        intro unread
        exact ((names.well dir bound).unread unread).2 tree name uden set found
      · intro absent other same
        cases same
        exact absent

/-- The entries of an unread directory are read. -/
theorem fetchOndiskDentry_visits (names : Names ns) (bound : dir < ns.next)
    (unread : (ns.inode dir).Unread) :
    Ensures (fetchOndiskDentry dir) ns
      (fun _ next => Visited ns next ∧ next.next = ns.next ∧ ¬ (next.inode dir).Unread ∧
        (next.inode dir).deCache = (ns.inode dir).deCache)
      (fun _ _ => False) := by
  rw [ensures_fetchOndiskDentry]
  have well := names.well dir bound
  refine ⟨?_, rfl, ?_, ?_⟩
  · apply names.visit_tree
    · exact ⟨true, _, rfl⟩
    · apply well.fill unread rfl
      apply filled_ondisk
      exact fun tree name uden set found => ((well.unread unread).2 tree name uden set found).elim
  · rw [update_inode_self]
    rintro ⟨_, unset⟩
    cases unset
  · rw [update_inode_self]
    rfl

/-- The kernel is asked for an entry that the tree does not have. -/
theorem fetchOndiskDentryFromKernel_visits (names : Names ns) (bound : dir < ns.next)
    (read : ¬ (ns.inode dir).Unread)
    (absent : forall tree, (ns.inode dir).dentryTree = some tree -> tree name = none)
    (set : (ns.inode dir).dentryTree ≠ none) :
    Ensures (fetchOndiskDentryFromKernel dir name) ns
      (fun found next => Visited ns next ∧ ¬ (next.inode dir).Unread ∧
        (next.inode dir).deCache = (ns.inode dir).deCache ∧
        forall uden, found = some uden -> next.HasEntry dir name uden)
      (fun _ _ => True) := by
  simp only [fetchOndiskDentryFromKernel, Ensures.bind_iff, Ensures.get_iff, Ensures.ite_iff,
    Ensures.pure_iff, ensures_onInode]
  split
  case isTrue => exact ⟨Visited.refl names, read, trivial, fun _ impossible => by cases impossible⟩
  case isFalse nonzero =>
    refine ⟨?_, ?_, ?_, ?_⟩
    · apply names.visit_tree
      · exact ⟨_, _, rfl⟩
      · exact (names.well dir bound).insertOndisk absent rfl ⟨Or.inl ⟨nonzero, _, rfl⟩, rfl⟩ read
    · rw [update_inode_self]
      exact read
    · rw [update_inode_self]
      rfl
    · intro uden same
      cases same
      rcases Option.ne_none_iff_exists'.mp set with ⟨tree, set⟩
      refine ⟨Function.update tree name _, ?_, Function.update_self ..⟩
      rw [update_inode_self]
      simp only [NsInode.artInsert, set, Option.map_some]

theorem dirSearch_visits (names : Names ns) (bound : dir < ns.next) :
    Ensures (dirSearch dir name) ns
      (fun found next => Visited ns next ∧
        (next.inode dir).deCache = (ns.inode dir).deCache ∧
        forall uden, found = some uden ->
          next.HasEntry dir name uden ∧ ¬ (next.inode dir).Unread)
      (fun _ _ => True) := by
  rw [dirSearch, Ensures.bind_iff]
  refine (artSearch_finds names bound).mono ?_ (fun _ _ fault => fault)
  rintro found middle ⟨same, set, entries, _⟩
  rw [same]
  cases found with
  | some uden => exact Ensures.pure_iff.mpr ⟨Visited.refl names, rfl, entries⟩
  | none =>
      have tail : forall next, Visited ns next -> dir < next.next -> ¬ (next.inode dir).Unread ->
          (next.inode dir).deCache = (ns.inode dir).deCache ->
          Ensures (searchAgain dir name (ns.inode dir).root) next
            (fun found next => Visited ns next ∧
              (next.inode dir).deCache = (ns.inode dir).deCache ∧
              forall uden, found = some uden ->
                next.HasEntry dir name uden ∧ ¬ (next.inode dir).Unread)
            (fun _ _ => True) := by
        intro next visited inside read unnamed
        rw [searchAgain, Ensures.bind_iff]
        refine (artSearch_finds visited.names inside).mono ?_ (fun _ _ fault => fault)
        rintro again last ⟨same, set, entries, absent⟩
        rw [same]
        cases again with
        | some uden => exact Ensures.pure_iff.mpr ⟨visited, unnamed, entries⟩
        | none =>
            simp only [Ensures.ite_iff, Ensures.pure_iff]
            split
            · refine (fetchOndiskDentryFromKernel_visits visited.names inside read (absent rfl)
                set).mono ?_ (fun _ _ fault => fault)
              rintro fetched end' ⟨later, stillRead, same, entry⟩
              exact ⟨visited.trans later, same.trans unnamed,
                fun uden found => ⟨entry uden found, stillRead⟩⟩
            · exact ⟨visited, unnamed, fun _ impossible => by cases impossible⟩
      simp only [Ensures.bind_iff, ensures_nsInode]
      split
      case isTrue unread =>
        rw [Ensures.bind_iff]
        refine (fetchOndiskDentry_visits names bound unread).mono ?_ (fun _ _ fault => fault.elim)
        rintro _ next ⟨visited, same, read, unnamed⟩
        exact tail next visited (by rw [same]; exact bound) read unnamed
      case isFalse read => exact tail ns (Visited.refl names) bound read rfl

/-- A name becomes known for an inode of the kernel. -/
theorem Names.visit_cache (names : Names ns) {ip : Nat} {uden : Dentry} (bound : dir < ns.next)
    (target : ip < ns.next) (unnamed : (ns.inode dir).deCache name = none)
    (read : ¬ (ns.inode dir).Unread) (listed : ns.kernel.Lists name (ns.inode ip).inum)
    (entry : ns.HasEntry dir name uden) (live : uden.addordel ≠ .delden) :
    Visited ns (ns.update dir (fun inode =>
      { inode with deCache := Function.update inode.deCache name (some ip) })) := by
  have well := names.well dir bound
  have foreign := listed.reserved
  constructor
  case toLookup =>
    apply Lookup.update rfl rfl
    · intro other child edge
      have different : other ≠ name := by
        intro same
        rw [same, unnamed] at edge
        cases edge
      change Function.update (ns.inode dir).deCache name (some ip) other = some child
      rw [Function.update_of_ne different]
      exact edge
    · intro other child _ edge
      rcases update_eq_some edge with ⟨here, same⟩ | ⟨_, before⟩
      · rw [here, same]
        exact Or.inr listed
      · exact Or.inl before
  case names =>
    apply names.update rfl rfl
    · intro other child edge
      rcases update_eq_some edge with ⟨_, same⟩ | ⟨_, before⟩
      · rw [same]
        exact Or.inr ⟨target, foreign⟩
      · exact Or.inl before
    · intro _
      refine ⟨well.ondisk, ?_, ?_, well.fetched, ?_, fun unread => absurd unread read⟩
      · intro other child edge
        rcases update_eq_some edge with ⟨_, same⟩ | ⟨_, before⟩
        · rw [same]
          exact ((names.well ip target).ondisk foreign).1
        · exact well.live other child before
      · intro tree other entry set found added
        have known := well.added tree other entry set found added
        change Function.update (ns.inode dir).deCache name (some ip) other ≠ none
        by_cases here : other = name
        · rw [here, Function.update_self]
          exact Option.some_ne_none _
        · rw [Function.update_of_ne here]
          exact known
      · intro other child edge
        rcases update_eq_some edge with ⟨here, same⟩ | ⟨_, before⟩
        · rcases entry with ⟨tree, set, found⟩
          rw [here, same]
          exact ⟨tree, uden, set, found, live, fun session => absurd session foreign⟩
        · exact well.named other child before
  case paths => rfl

theorem update_update (first second : NsInode -> NsInode) :
    (ns.update dir first).update dir second = ns.update dir (fun inode => second (first inode)) := by
  simp [Namespace.update]

theorem update_of_eq {ip : Nat} {change : NsInode -> NsInode}
    (same : change (ns.inode ip) = ns.inode ip) : ns.update ip change = ns := by
  rw [Namespace.update, same, Function.update_eq_self]

theorem useDentry_visits (names : Names ns) (holder : Option Nat) (bound : dir < ns.next)
    {uden : Dentry}
    (unnamed : (ns.inode dir).deCache name = none) (entry : ns.HasEntry dir name uden)
    (read : ¬ (ns.inode dir).Unread) :
    Ensures (useDentry holder dir name uden) ns
      (fun found next => Visited ns next ∧
        forall ip, found = some ip -> (next.inode dir).deCache name = some ip)
      (fun _ _ => True) := by
  simp only [useDentry, Ensures.ite_iff, Ensures.pure_iff, Ensures.bind_iff]
  split
  · exact ⟨Visited.refl names, fun _ impossible => by cases impossible⟩
  split
  · exact ⟨Visited.refl names, fun _ impossible => by cases impossible⟩
  rename_i live _
  have well := names.well dir bound
  -- an entry that the session added would be in `de_cache`
  have ondisk : OndiskEntry ns.kernel name uden := by
    rcases entry with ⟨tree, set, found⟩
    cases state : uden.addordel with
    | ondisk => exact well.fetched tree name uden set found state
    | addden => exact absurd unnamed (well.added tree name uden set found state)
    | delden => exact absurd state live
  refine (iget_visits names holder ondisk.listed.reserved).mono ?_ (fun _ _ fault => fault)
  rintro got next ⟨visited, same, ip, gotIp, target, inum⟩
  rw [gotIp]
  rcases same dir bound with ⟨count, same⟩
  have inside := Nat.lt_of_lt_of_le bound visited.bound
  have typed : ((next.inode ip).itype = uden.fileType) := by
    have foreign := ondisk.listed.reserved
    rw [← visited.kernel, ← inum] at foreign
    rw [((visited.names.well ip target).ondisk foreign).2, visited.kernel, inum, ondisk.fileType]
  have retyped : next.update ip (fun inode => { inode with itype := uden.fileType }) = next := by
    apply update_of_eq
    rw [← typed]
  simp only [deCacheAllocAdd, Ensures.bind_iff, ensures_onInode, Ensures.pure_iff, retyped]
  refine ⟨visited.trans (visited.names.visit_cache inside target ?_ ?_ ?_ ?_ live), ?_⟩
  · rw [same]
    exact unnamed
  · rw [same]
    exact read
  · rw [visited.kernel, inum]
    exact ondisk.listed
  · rcases entry with ⟨tree, set, found⟩
    refine ⟨tree, ?_, found⟩
    rw [same]
    exact set
  · intro other equal
    cases equal
    rw [update_inode_self]
    exact Function.update_self ..

/-- A lookup that finds something leaves its result in `de_cache`. -/
theorem lookupHolding_visits (names : Names ns) (holder : Option Nat) (bound : dir < ns.next) :
    Ensures (lookupHolding holder dir name) ns
      (fun found next => Visited ns next ∧ (ns.inode dir).itype = .dir ∧
        forall ip, found = some ip -> (next.inode dir).deCache name = some ip)
      (fun _ _ => True) := by
  simp only [lookupHolding, Ensures.bind_iff, ensures_nsInode, Ensures.ite_iff, Ensures.throw_iff]
  split
  · trivial
  case isFalse notOther =>
    have isDir : (ns.inode dir).itype = .dir := by
      by_contra other
      exact notOther other
    cases known : (ns.inode dir).deCache name with
    | some ip =>
        simp only [takeRef, Ensures.bind_iff, ensures_onInode, Ensures.pure_iff]
        have visited : Visited ns (ns.update ip (fun inode =>
            { inode with iRef := inode.iRef + 1 })) := names.visit_refs _
        refine ⟨visited, isDir, ?_⟩
        intro other same
        cases same
        exact visited.edges dir name ip bound known
    | none =>
        rw [Ensures.bind_iff]
        refine (dirSearch_visits names bound).mono ?_ (fun _ _ fault => fault)
        rintro found next ⟨visited, cache, entries⟩
        cases found with
        | none =>
            exact Ensures.pure_iff.mpr ⟨visited, isDir, fun _ impossible => by cases impossible⟩
        | some uden =>
            have entry := entries uden rfl
            refine (useDentry_visits visited.names holder (Nat.lt_of_lt_of_le bound visited.bound) ?_
              entry.1 entry.2).mono ?_ (fun _ _ fault => fault)
            · rw [cache]
              exact known
            · rintro result last ⟨later, edge⟩
              exact ⟨visited.trans later, isDir, edge⟩

theorem dirLookup_visits (names : Names ns) (bound : dir < ns.next) :
    Ensures (dirLookup dir name) ns
      (fun found next => Visited ns next ∧ (ns.inode dir).itype = .dir ∧
        forall ip, found = some ip -> (next.inode dir).deCache name = some ip)
      (fun _ _ => True) :=
  lookupHolding_visits names none bound

/-- The search that precedes a creation reads the directory and leaves its names
alone.  What it finds is a tombstone or an entry on disk. -/
theorem ownSearch_visits (names : Names ns) (bound : dir < ns.next)
    (unnamed : (ns.inode dir).deCache name = none) :
    Ensures (ownSearch dir name name) ns
      (fun found next => Visited ns next ∧
        (next.inode dir).deCache = (ns.inode dir).deCache ∧ ¬ (next.inode dir).Unread ∧
        (next.inode dir).dentryTree ≠ none ∧
        forall uden, found = some uden -> uden.addordel ≠ .delden ->
          OndiskEntry ns.kernel name uden ∧
            Exists fun entry => next.HasEntry dir name entry ∧ entry.addordel ≠ .delden)
      (fun _ _ => True) := by
  have well := names.well dir bound
  rw [ownSearch, Ensures.bind_iff]
  refine (artSearch_finds names bound).mono ?_ (fun _ _ fault => fault)
  rintro found middle ⟨same, set, entries, _⟩
  rw [same]
  cases found with
  | some uden =>
      have entry := entries uden rfl
      refine Ensures.pure_iff.mpr ⟨Visited.refl names, rfl, entry.2, set, ?_⟩
      intro other same live
      cases same
      refine ⟨?_, uden, entry.1, live⟩
      rcases entry.1 with ⟨tree, set, found⟩
      cases state : uden.addordel with
      | ondisk => exact well.fetched tree name uden set found state
      | addden => exact absurd unnamed (well.added tree name uden set found state)
      | delden => exact absurd state live
  | none =>
      simp only [Ensures.bind_iff, ensures_nsInode, Ensures.ite_iff, Ensures.pure_iff]
      split
      case isFalse read =>
        exact ⟨Visited.refl names, trivial, read, set, fun _ impossible => by cases impossible⟩
      case isTrue unread =>
        have empty := (well.unread unread).2
        rcases Option.ne_none_iff_exists'.mp set with ⟨tree, set⟩
        simp only [fetchOndiskDentryFromKernel, Ensures.bind_iff, Ensures.get_iff, Ensures.ite_iff,
          Ensures.pure_iff, ensures_onInode, ensures_fetchOndiskDentry]
        split
        case isTrue =>
          rw [update_inode_self]
          rcases filled_entry ns.kernel (ns.kernel.block (ns.inode dir).root) set with
            ⟨filled, after, _⟩
          refine ⟨?_, rfl, ?_, ?_, fun _ impossible => by cases impossible⟩
          · apply names.visit_tree
            · exact ⟨true, _, rfl⟩
            · apply well.fill unread rfl
              apply filled_ondisk
              exact fun tree name uden set found => (empty tree name uden set found).elim
          · rintro ⟨_, unset⟩
            cases unset
          · exact Option.ne_none_iff_exists'.mpr ⟨filled, after⟩
        case isFalse nonzero =>
          have ondisk : OndiskEntry ns.kernel name
              ⟨.ondisk, ns.kernel.entry (ns.inode dir).inum name,
                ns.kernel.itype (ns.kernel.entry (ns.inode dir).inum name)⟩ :=
            ⟨Or.inl ⟨nonzero, _, rfl⟩, rfl⟩
          rw [update_update, update_inode_self]
          have inserted : ((ns.inode dir).artInsert name
              ⟨.ondisk, ns.kernel.entry (ns.inode dir).inum name,
                ns.kernel.itype (ns.kernel.entry (ns.inode dir).inum name)⟩).dentryTree =
              some (Function.update tree name (some
                ⟨.ondisk, ns.kernel.entry (ns.inode dir).inum name,
                  ns.kernel.itype (ns.kernel.entry (ns.inode dir).inum name)⟩)) := by
            simp only [NsInode.artInsert, set, Option.map_some]
          rcases filled_entry ns.kernel (ns.kernel.block (ns.inode dir).root) inserted with
            ⟨filled, after, entries⟩
          refine ⟨?_, rfl, ?_, ?_, ?_⟩
          · apply names.visit_tree
            · exact ⟨true, _, rfl⟩
            · apply well.fill unread rfl
              apply filled_ondisk
              apply NsInode.EntriesAll.artInsert
              · exact fun tree name uden set found => (empty tree name uden set found).elim
              · exact ⟨rfl, ondisk⟩
          · rintro ⟨_, unset⟩
            cases unset
          · exact Option.ne_none_iff_exists'.mpr ⟨filled, after⟩
          · intro uden same _
            cases same
            refine ⟨ondisk, ?_⟩
            rcases entries name _ (Function.update_self ..) with ⟨entry, last, kind⟩
            refine ⟨entry, ⟨filled, ?_, last⟩, ?_⟩
            · rw [update_inode_self]
              exact after
            · rcases kind with same | state
              · rw [same]
                exact fun impossible => by cases impossible
              · rw [state]
                exact fun impossible => by cases impossible

end Directories

end Userfs.Filesystem
