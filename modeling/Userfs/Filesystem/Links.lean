import Userfs.Filesystem.Namespace

namespace Userfs.Filesystem

open Word

/-!
# Addresses in the tables of the name space

The tables of the name space hold addresses of inodes.  An address in a table is
always that of an inode that was allocated before, and the table of free numbers
holds numbers of the session only.  Every result about lookups rests on these two
facts.
-/

/-- What a table returns after one key was set. -/
theorem update_eq_some {K V : Type} [DecidableEq K] {table : K -> Option V} {key other : K}
    {value target : V} (found : Function.update table key (some value) other = some target) :
    (other = key ∧ target = value) ∨ (other ≠ key ∧ table other = some target) := by
  by_cases here : other = key
  · rw [here, Function.update_self] at found
    cases found
    exact Or.inl ⟨here, rfl⟩
  · rw [Function.update_of_ne here] at found
    exact Or.inr ⟨here, found⟩

/-- The table holds numbers of the session. -/
def Reserved (inodeBase : Nat) (table : InodeTable) : Prop :=
  forall index, index < inonum -> table.slots index ≠ 0 ->
    table.slots index ∈ sessionNumbers inodeBase

section Table

variable {inodeBase : Nat} {table : InodeTable}

theorem reserved_init (base : ValidBase inodeBase) (behind : Nat -> Nat) :
    Reserved inodeBase (InodeTable.init inodeBase behind) := by
  intro index bound _
  rw [init_slots base behind bound]
  exact List.mem_map.mpr ⟨index, List.mem_range.mpr bound, rfl⟩

/-- The slot that an upward scan finds. -/
theorem scanUp_eq_some {slots : Nat -> Nat} {count start index : Nat}
    (found : scanUp slots count start = some index) :
    start ≤ index ∧ index < start + count ∧ slots index ≠ 0 := by
  induction count generalizing start with
  | zero => cases found
  | succ count ih =>
      rw [scanUp] at found
      split at found
      case isTrue full =>
        cases found
        exact ⟨Nat.le_refl _, by omega, full⟩
      case isFalse =>
        have later := ih found
        exact ⟨by omega, by omega, later.2.2⟩

theorem Reserved.write (reserved : Reserved inodeBase table) {index number cursor : Nat}
    (allowed : number = 0 ∨ number ∈ sessionNumbers inodeBase) :
    Reserved inodeBase ⟨Function.update table.slots index number, cursor⟩ := by
  intro other bound full
  by_cases same : other = index
  · change Function.update table.slots index number other ∈ _
    change Function.update table.slots index number other ≠ 0 at full
    rw [same, Function.update_self] at full ⊢
    exact allowed.resolve_left full
  · change Function.update table.slots index number other ∈ _
    change Function.update table.slots index number other ≠ 0 at full
    rw [Function.update_of_ne same] at full ⊢
    exact reserved other bound full

/-- `find_inode_bitmap` hands out a number of the session and keeps the others. -/
theorem Reserved.find (base : ValidBase inodeBase) (reserved : Reserved inodeBase table) :
    ((findInodeBitmap table).1 ≠ 0 -> (findInodeBitmap table).1 ∈ sessionNumbers inodeBase) ∧
      Reserved inodeBase (findInodeBitmap table).2 := by
  unfold findInodeBitmap
  cases scan : scanUp table.slots (inonum - table.bitmapnum) table.bitmapnum with
  | none => exact ⟨fun nonzero => absurd rfl nonzero, reserved⟩
  | some index =>
      have found := scanUp_eq_some scan
      have member := reserved index (by omega) found.2.2
      have small : low 32 (table.slots index) = table.slots index :=
        Nat.mod_eq_of_lt (mem_sessionNumbers base member).2
      simp only [small]
      exact ⟨fun _ => member, reserved.write (Or.inl rfl)⟩

/-- `put_inode_bitmap` of a number of the session. -/
theorem Reserved.put (reserved : Reserved inodeBase table) {ino : Nat}
    (member : ino ∈ sessionNumbers inodeBase) :
    Reserved inodeBase (putInodeBitmap table ino).2 := by
  unfold putInodeBitmap
  cases scanDown table.slots table.bitmapnum with
  | none => exact reserved
  | some index => exact reserved.write (Or.inr member)

end Table

/-! ## Entries of a tree -/

/-- Every entry in the tree of an inode has a property. -/
def NsInode.EntriesAll (inode : NsInode) (property : Name -> Dentry -> Prop) : Prop :=
  forall tree name uden, inode.dentryTree = some tree -> tree name = some uden ->
    property name uden

section Trees

variable {inode : NsInode} {name : Name} {uden : Dentry} {property : Name -> Dentry -> Prop}

theorem NsInode.EntriesAll.artInsert (all : inode.EntriesAll property) (new : property name uden) :
    (inode.artInsert name uden).EntriesAll property := by
  intro tree other entry set found
  rw [NsInode.artInsert] at set
  rcases Option.map_eq_some_iff.mp set with ⟨old, before, equal⟩
  rw [← equal] at found
  rcases update_eq_some found with ⟨here, same⟩ | ⟨_, known⟩
  · rw [here, same]
    exact new
  · exact all old other entry before known

/-- An inode after the entries of a directory block have been entered. -/
def NsInode.filled (inode : NsInode) (kernel : Kernel) (listing : List (Name × Nat)) : NsInode :=
  listing.foldl (fun inode listed =>
    inode.artInsert listed.1 ⟨.ondisk, listed.2, kernel.itype listed.2⟩) inode

theorem NsInode.EntriesAll.filled {kernel : Kernel} {listing : List (Name × Nat)}
    (all : inode.EntriesAll property)
    (new : forall listed, listed ∈ listing ->
      property listed.1 ⟨.ondisk, listed.2, kernel.itype listed.2⟩) :
    (inode.filled kernel listing).EntriesAll property := by
  induction listing generalizing inode with
  | nil => exact all
  | cons listed rest ih =>
      exact ih (all.artInsert (new listed List.mem_cons_self))
        (fun other member => new other (List.mem_cons_of_mem _ member))

/-- Reading a directory block changes nothing but the tree. -/
theorem NsInode.filled_eq (inode : NsInode) (kernel : Kernel) (listing : List (Name × Nat)) :
    inode.filled kernel listing =
      { inode with dentryTree := (inode.filled kernel listing).dentryTree } := by
  induction listing generalizing inode with
  | nil => rfl
  | cons listed rest ih => exact ih (inode.artInsert listed.1 _)

/-- An inode after its entries on disk have been read. -/
def NsInode.read (inode : NsInode) (kernel : Kernel) : NsInode :=
  { inode with
    inmemDen := true
    dentryTree := (inode.filled kernel (kernel.block inode.root)).dentryTree }

theorem ensures_fetchOndiskDentry {ns : Namespace} {dir : Nat} {done : PUnit -> Namespace -> Prop}
    {failed : Fault -> Namespace -> Prop} :
    Ensures (fetchOndiskDentry dir) ns done failed <->
      done PUnit.unit (ns.update dir (fun inode => inode.read ns.kernel)) := by
  simp only [fetchOndiskDentry, Ensures.bind_iff, Ensures.get_iff, ensures_onInode]
  have same : (fun inode : NsInode =>
      { inode.filled ns.kernel (ns.kernel.block inode.root) with inmemDen := true }) =
      fun inode => inode.read ns.kernel := by
    funext inode
    rw [NsInode.filled_eq]
    rfl
  rw [← same]
  rfl

theorem loaded_entries {inum size root : Nat} {itype : FileType} {deleting zeroed : Bool} :
    (NsInode.loaded inum itype deleting size root zeroed).EntriesAll (fun _ _ => False) := by
  intro tree name uden set found
  change (if itype = .dir ∨ zeroed = true then some (fun _ => none) else none) = some tree at set
  split at set
  · cases set
    cases found
  · cases set

end Trees

/-! ## Addresses -/

/-- The addresses in the tables are those of allocated inodes. -/
structure Linked (ns : Namespace) : Prop where
  hash : forall inum ip, ns.inodeHash inum = some ip -> ip < ns.next ∧ (ns.inode ip).inum = inum
  lookup : forall path ip, ns.dlookupHash path = some ip -> ip < ns.next
  cached : forall dir name ip, dir < ns.next -> (ns.inode dir).deCache name = some ip ->
    ip < ns.next
  reserved : Reserved ns.kernel.inodeBase ns.table

section Steps

variable {ns : Namespace}

theorem linked_start (kernel : Kernel) (behind : Nat -> Nat) (size root : Nat) :
    Linked (Namespace.start kernel behind size root) where
  hash := by
    intro inum ip found
    change Function.update (fun _ => none) rootIno (some 0) inum = some ip at found
    rcases update_eq_some found with ⟨here, same⟩ | ⟨_, known⟩
    · rw [same]
      exact ⟨Nat.one_pos, here.symm⟩
    · cases known
  lookup := by
    intro path ip found
    change Function.update (fun _ => none) mountpoint (some 0) path = some ip at found
    rcases update_eq_some found with ⟨_, same⟩ | ⟨_, known⟩
    · rw [same]
      exact Nat.one_pos
    · cases known
  cached := fun _ _ _ _ found => nomatch found
  reserved := reserved_init kernel.validBase behind

/-- A change of one inode that keeps its number. -/
theorem Linked.update (linked : Linked ns) {dir : Nat} {change : NsInode -> NsInode}
    (inum : (change (ns.inode dir)).inum = (ns.inode dir).inum)
    (cached : forall name ip, dir < ns.next -> (change (ns.inode dir)).deCache name = some ip ->
      ip < ns.next) :
    Linked (ns.update dir change) where
  hash := by
    intro number ip found
    have before := linked.hash number ip found
    by_cases here : ip = dir
    · rw [here] at before ⊢
      rw [update_inode_self, inum]
      exact before
    · rw [update_inode_other ns change here]
      exact before
  lookup := linked.lookup
  cached := by
    intro parent name ip bound found
    by_cases here : parent = dir
    · rw [here] at bound found
      rw [update_inode_self] at found
      exact cached name ip bound found
    · rw [update_inode_other ns change here] at found
      exact linked.cached parent name ip bound found
  reserved := linked.reserved

/-- A new inode without names. -/
theorem Linked.icacheAdd (linked : Linked ns) {inode : NsInode}
    (unnamed : inode.deCache = fun _ => none) : Linked (ns.icacheAdd inode) where
  hash := by
    intro number ip found
    rcases update_eq_some found with ⟨here, same⟩ | ⟨_, known⟩
    · rw [same, icacheAdd_inode_next]
      exact ⟨Nat.lt_succ_self _, here.symm⟩
    · have before := linked.hash number ip known
      rw [icacheAdd_inode_other ns inode (Nat.ne_of_lt before.1)]
      exact ⟨Nat.lt_succ_of_lt before.1, before.2⟩
  lookup := fun path ip found => Nat.lt_succ_of_lt (linked.lookup path ip found)
  cached := by
    intro dir name ip bound found
    by_cases here : dir = ns.next
    · rw [here, icacheAdd_inode_next, unnamed] at found
      cases found
    · rw [icacheAdd_inode_other ns inode here] at found
      exact Nat.lt_succ_of_lt (linked.cached dir name ip
        (Nat.lt_of_le_of_ne (Nat.le_of_lt_succ bound) here) found)
  reserved := linked.reserved

/-- A new path in the path cache. -/
theorem Linked.enter (linked : Linked ns) {path : List Char} {ip : Nat} (bound : ip < ns.next) :
    Linked { ns with dlookupHash := Function.update ns.dlookupHash path (some ip) } where
  hash := linked.hash
  lookup := by
    intro other target found
    rcases update_eq_some found with ⟨_, same⟩ | ⟨_, known⟩
    · rw [same]
      exact bound
    · exact linked.lookup other target known
  cached := linked.cached
  reserved := linked.reserved

/-- A number is handed out. -/
theorem Linked.take (linked : Linked ns) (created : List Nat) :
    Linked { ns with table := (findInodeBitmap ns.table).2, created := created } where
  hash := linked.hash
  lookup := linked.lookup
  cached := linked.cached
  reserved := (linked.reserved.find ns.kernel.validBase).2

end Steps

/-- The path cache knows no parent of the path that is not a directory. -/
def ParentDirectory (ns : Namespace) (path : List Char) : Prop :=
  forall parent, parent ∈ getParentPath path -> forall ip, ip ∈ ns.dlookupHash parent.1 ->
    (ns.inode ip).itype = .dir

instance (ns : Namespace) (path : List Char) : Decidable (ParentDirectory ns path) :=
  inferInstanceAs (Decidable (forall parent, parent ∈ getParentPath path -> _))

end Userfs.Filesystem
