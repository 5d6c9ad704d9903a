import Mathlib.Data.Finset.Card
import Mathlib.Data.Finset.Range
import Userfs.Filesystem.Links

namespace Userfs.Filesystem

/-!
# Reference counts and open handles

Lookups take a reference on the inode they return and their callers drop it, so
between two calls the references on a file should be those of its open handles.  The
proof gives every function a specification with the list of references held by the
running call: a lookup adds its result to the list, `iput` takes an inode off it.
-/

/-- The open handles of an inode. -/
def Namespace.handles (ns : Namespace) (ip : Nat) : Finset Nat :=
  (Finset.range gMaxOpenFiles).filter
    (fun index => (ns.openFiles index).ref ≠ 0 ∧ (ns.openFiles index).ip = ip)

/-- A regular file of the session: it has a number of the session and no names. -/
structure CreatedFile (ns : Namespace) (ip : Nat) : Prop where
  bound : ip < ns.next
  itype : (ns.inode ip).itype = .file
  number : (ns.inode ip).inum ∈ sessionNumbers ns.kernel.inodeBase
  unnamed : (ns.inode ip).deCache = fun _ => none

/-- An entry with a number of the session is that of a regular file. -/
def FileEntry (ns : Namespace) (uden : Dentry) : Prop :=
  uden.ino ∈ sessionNumbers ns.kernel.inodeBase -> uden.fileType = .file

/-- The references on the files created so far are the open handles and the ones held
by the running call. -/
structure Accounts (held : List Nat) (ns : Namespace) : Prop extends Linked ns where
  balanced : forall ip, ip ∈ ns.created ->
    (ns.inode ip).iRef = (ns.handles ip).card + held.count ip
  file : forall ip, ip ∈ ns.created -> CreatedFile ns ip
  held : forall ip, ip ∈ held -> ip < ns.next
  opened : forall index, (ns.openFiles index).ref ≠ 0 ->
    (ns.openFiles index).ip < ns.next ∧ (ns.openFiles index).ref = 1 ∧
      ((ns.openFiles index).ip ∈ ns.created -> (ns.openFiles index).type = .inode)
  entries : forall dir, dir < ns.next -> (ns.inode dir).EntriesAll (fun _ => FileEntry ns)

/-- The state still has the same created files and the same kernel. -/
structure SameFiles (before after : Namespace) : Prop where
  created : after.created = before.created
  kernel : after.kernel = before.kernel

namespace Accounts

variable {held after : List Nat} {ns : Namespace}

/-! ## Small steps -/

/-- A change of one inode together with a change of the references held.  Of a created
file only the size may change, and the references as the list does. -/
theorem update (accounts : Accounts held ns) {dir : Nat} {change : NsInode -> NsInode}
    (bound : forall ip, ip ∈ after -> ip < ns.next)
    (others : forall ip, ip ≠ dir -> ip ∈ ns.created -> after.count ip = held.count ip)
    (inum : (change (ns.inode dir)).inum = (ns.inode dir).inum)
    (created : dir ∈ ns.created ->
      (change (ns.inode dir)).iRef + held.count dir = (ns.inode dir).iRef + after.count dir ∧
      (change (ns.inode dir)).itype = .file ∧ (change (ns.inode dir)).deCache = fun _ => none)
    (cached : forall name ip, dir < ns.next -> (change (ns.inode dir)).deCache name = some ip ->
      ip < ns.next)
    (entries : dir < ns.next -> (change (ns.inode dir)).EntriesAll (fun _ => FileEntry ns)) :
    Accounts after (ns.update dir change) := by
  have self := update_inode_self ns dir change
  have other : forall ip, ip ≠ dir -> (ns.update dir change).inode ip = ns.inode ip :=
    fun ip different => update_inode_other ns change different
  constructor
  case toLinked => exact accounts.toLinked.update inum cached
  case balanced =>
    intro ip member
    have before := accounts.balanced ip member
    by_cases here : ip = dir
    · rw [here] at member before ⊢
      have step := (created member).1
      rw [self]
      change _ = ((ns.handles dir).card : Int) + after.count dir
      omega
    · rw [other ip here, others ip here member]
      exact before
  case file =>
    intro ip member
    have before := accounts.file ip member
    by_cases here : ip = dir
    · rw [here] at member before ⊢
      have step := (created member).2
      refine ⟨before.bound, ?_, ?_, ?_⟩ <;> rw [self]
      · exact step.1
      · rw [inum]
        exact before.number
      · exact step.2
    · refine ⟨before.bound, ?_, ?_, ?_⟩ <;> rw [other ip here]
      · exact before.itype
      · exact before.number
      · exact before.unnamed
  case held => exact bound
  case opened => exact accounts.opened
  case entries =>
    intro parent inside
    by_cases here : parent = dir
    · rw [here] at inside ⊢
      rw [self]
      exact entries inside
    · rw [other parent here]
      exact accounts.entries parent inside

/-- A lookup takes a reference. -/
theorem takeRef (accounts : Accounts held ns) {ip : Nat} (bound : ip < ns.next) :
    Accounts (ip :: held)
      (ns.update ip (fun inode => { inode with iRef := inode.iRef + 1 })) := by
  refine accounts.update ?_ ?_ rfl ?_ ?_ ?_
  · intro other member
    rcases List.mem_cons.mp member with same | before
    · rw [same]
      exact bound
    · exact accounts.held other before
  · intro other different _
    exact List.count_cons_of_ne (Ne.symm different)
  · intro member
    have file := accounts.file ip member
    refine ⟨?_, file.itype, file.unnamed⟩
    rw [List.count_cons_self]
    push_cast
    omega
  · exact fun name target => accounts.cached ip name target
  · exact accounts.entries ip

/-- `iput` of a reference that is held. -/
theorem iput {ip : Nat} (accounts : Accounts (ip :: held) ns) :
    Accounts held (ns.update ip (fun inode => { inode with iRef := inode.iRef - 1 })) := by
  refine accounts.update ?_ ?_ rfl ?_ ?_ ?_
  · intro other member
    exact accounts.held other (List.mem_cons_of_mem _ member)
  · intro other different _
    exact (List.count_cons_of_ne (Ne.symm different)).symm
  · intro member
    have file := accounts.file ip member
    refine ⟨?_, file.itype, file.unnamed⟩
    rw [List.count_cons_self]
    push_cast
    omega
  · exact fun name target => accounts.cached ip name target
  · exact accounts.entries ip

/-- The order of the references held does not matter. -/
theorem swap {first second : Nat} (accounts : Accounts (first :: second :: held) ns) :
    Accounts (second :: first :: held) ns where
  toLinked := accounts.toLinked
  balanced := by
    intro ip member
    rw [(List.Perm.swap first second held).count_eq]
    exact accounts.balanced ip member
  file := accounts.file
  held := fun ip member => accounts.held ip ((List.Perm.swap first second held).subset member)
  opened := accounts.opened
  entries := accounts.entries

/-- A reference on something else than a created file may be lost. -/
theorem lose {ip : Nat} (accounts : Accounts (ip :: held) ns) (other : ip ∉ ns.created) :
    Accounts held ns where
  toLinked := accounts.toLinked
  balanced := by
    intro file member
    have different : ip ≠ file := by
      intro same
      exact other (same ▸ member)
    rw [accounts.balanced file member, List.count_cons_of_ne different]
  file := accounts.file
  held := fun file member => accounts.held file (List.mem_cons_of_mem _ member)
  opened := accounts.opened
  entries := accounts.entries

/-- Change an inode that is not a created file, but keep its number and its names. -/
theorem onDirectory (accounts : Accounts held ns) {dir : Nat} {change : NsInode -> NsInode}
    (other : dir ∉ ns.created) (inum : (change (ns.inode dir)).inum = (ns.inode dir).inum)
    (cached : forall name ip, dir < ns.next -> (change (ns.inode dir)).deCache name = some ip ->
      ip < ns.next)
    (entries : dir < ns.next -> (change (ns.inode dir)).EntriesAll (fun _ => FileEntry ns)) :
    Accounts held (ns.update dir change) :=
  accounts.update accounts.held (fun _ _ _ => rfl) inum (fun member => absurd member other) cached
    entries

/-- A created file is no directory. -/
theorem not_created (accounts : Accounts held ns) {dir : Nat}
    (isDir : (ns.inode dir).itype = .dir) : dir ∉ ns.created := by
  intro member
  have regular := (accounts.file dir member).itype
  rw [isDir] at regular
  cases regular

/-- A created file is older than the next allocation. -/
theorem next_not_created (accounts : Accounts held ns) : ns.next ∉ ns.created :=
  fun member => Nat.lt_irrefl _ (accounts.file _ member).bound

/-- An inode that is not a created file gets an address. -/
theorem icacheAdd (accounts : Accounts held ns) {inode : NsInode}
    (unnamed : inode.deCache = fun _ => none)
    (empty : inode.EntriesAll (fun _ _ => False)) :
    Accounts (ns.next :: held) (ns.icacheAdd inode) := by
  have fresh : forall ip, ip ∈ ns.created -> ip ≠ ns.next := by
    intro ip member same
    exact accounts.next_not_created (same ▸ member)
  constructor
  case toLinked => exact accounts.toLinked.icacheAdd unnamed
  case balanced =>
    intro ip member
    rw [icacheAdd_inode_other ns inode (fresh ip member),
      List.count_cons_of_ne (Ne.symm (fresh ip member))]
    exact accounts.balanced ip member
  case file =>
    intro ip member
    have before := accounts.file ip member
    have same := icacheAdd_inode_other ns inode (fresh ip member)
    refine ⟨Nat.lt_succ_of_lt before.bound, ?_, ?_, ?_⟩ <;> rw [same]
    · exact before.itype
    · exact before.number
    · exact before.unnamed
  case held =>
    intro ip member
    rcases List.mem_cons.mp member with same | before
    · rw [same]
      exact Nat.lt_succ_self _
    · exact Nat.lt_succ_of_lt (accounts.held ip before)
  case opened =>
    intro index used
    have before := accounts.opened index used
    exact ⟨Nat.lt_succ_of_lt before.1, before.2⟩
  case entries =>
    intro dir bound
    by_cases here : dir = ns.next
    · rw [here, icacheAdd_inode_next]
      exact fun tree name uden set found => (empty tree name uden set found).elim
    · rw [icacheAdd_inode_other ns inode here]
      exact accounts.entries dir (Nat.lt_of_le_of_ne (Nat.le_of_lt_succ bound) here)

/-- A path is remembered. -/
theorem enter (accounts : Accounts held ns) {path : List Char} {ip : Nat} (bound : ip < ns.next) :
    Accounts held { ns with dlookupHash := Function.update ns.dlookupHash path (some ip) } where
  toLinked := accounts.toLinked.enter bound
  balanced := accounts.balanced
  file := fun ip member =>
    have before := accounts.file ip member
    ⟨before.bound, before.itype, before.number, before.unnamed⟩
  held := accounts.held
  opened := accounts.opened
  entries := accounts.entries

end Accounts

/-! ## Lookups

A function that fails stops the run, so nothing is said about its state then. -/

section Lookups

variable {held : List Nat} {ns : Namespace}

theorem SameFiles.trans {first second third : Namespace} (before : SameFiles first second)
    (after : SameFiles second third) : SameFiles first third :=
  ⟨after.created.trans before.created, after.kernel.trans before.kernel⟩

theorem igetHolding_accounts (accounts : Accounts held ns) (holder : Option Nat) (inum : Nat) :
    Ensures (igetHolding holder inum) ns
      (fun got next => SameFiles ns next ∧ Accounts (got.toList ++ held) next ∧
        forall ip, got = some ip -> (next.inode ip).inum = inum)
      (fun _ _ => True) := by
  rw [igetHolding, Ensures.bind_iff, Ensures.get_iff]
  cases known : ns.inodeHash inum with
  | some ip =>
      have found := accounts.hash inum ip known
      simp only [Ensures.ite_iff, Ensures.pure_iff, Ensures.throw_iff]
      split
      · exact ⟨⟨rfl, rfl⟩, accounts, fun _ impossible => by cases impossible⟩
      split
      · trivial
      · simp only [takeRef, Ensures.bind_iff, ensures_onInode, Ensures.pure_iff]
        refine ⟨⟨rfl, rfl⟩, accounts.takeRef found.1, ?_⟩
        intro other same
        cases same
        rw [update_inode_self]
        exact found.2
  | none =>
      simp only [fetchRecord, Ensures.bind_iff, Ensures.get_iff]
      cases ns.kernel.record inum with
      | none => exact Ensures.throw_iff.mpr trivial
      | some record =>
          simp only [Ensures.pure_iff, ensures_icacheAdd]
          refine ⟨⟨rfl, rfl⟩, accounts.icacheAdd rfl loaded_entries, ?_⟩
          intro other same
          cases same
          rw [icacheAdd_inode_next]
          rfl

/-- An entry is set in a tree, and the size of the directory may change. -/
theorem Accounts.insert (accounts : Accounts held ns) {dir : Nat} {name : Name} {uden : Dentry}
    {size : NsInode -> Nat} (allowed : FileEntry ns uden) :
    Accounts held (ns.update dir (fun inode =>
      { inode.artInsert name uden with size := size inode })) := by
  refine accounts.update accounts.held (fun _ _ _ => rfl) rfl ?_ ?_ ?_
  · intro member
    have file := accounts.file dir member
    exact ⟨rfl, file.itype, file.unnamed⟩
  · exact fun other ip => accounts.cached dir other ip
  · exact fun bound => (accounts.entries dir bound).artInsert allowed

theorem fetchOndiskDentryFromKernel_accounts (accounts : Accounts held ns) (dir : Nat)
    (name : Name) :
    Ensures (fetchOndiskDentryFromKernel dir name) ns
      (fun found next => SameFiles ns next ∧ Accounts held next ∧
        forall uden, found = some uden -> FileEntry next uden)
      (fun _ _ => True) := by
  have allowed : FileEntry ns ⟨.ondisk, ns.kernel.entry (ns.inode dir).inum name,
      ns.kernel.itype (ns.kernel.entry (ns.inode dir).inum name)⟩ :=
    fun member => absurd member (ns.kernel.reserved_entry _ _)
  simp only [fetchOndiskDentryFromKernel, Ensures.bind_iff, Ensures.get_iff, Ensures.ite_iff,
    Ensures.pure_iff, ensures_onInode]
  split
  · exact ⟨⟨rfl, rfl⟩, accounts, fun _ impossible => by cases impossible⟩
  · refine ⟨⟨rfl, rfl⟩, @Accounts.insert held ns accounts dir name _ NsInode.size allowed, ?_⟩
    intro uden same
    cases same
    exact allowed

theorem fetchOndiskDentry_accounts (accounts : Accounts held ns) (dir : Nat) :
    Ensures (fetchOndiskDentry dir) ns (fun _ next => SameFiles ns next ∧ Accounts held next)
      (fun _ _ => True) := by
  rw [ensures_fetchOndiskDentry]
  refine ⟨⟨rfl, rfl⟩, accounts.update accounts.held (fun _ _ _ => rfl) rfl ?_ ?_ ?_⟩
  · intro member
    have file := accounts.file dir member
    exact ⟨rfl, file.itype, file.unnamed⟩
  · exact fun name ip => accounts.cached dir name ip
  · intro bound
    exact (accounts.entries dir bound).filled
      (fun listed member session => absurd session (ns.kernel.reserved_block _ listed member))

theorem artSearch_accounts (accounts : Accounts held ns) {dir : Nat} (bound : dir < ns.next)
    (name : Name) :
    Ensures (artSearch dir name) ns
      (fun found next => next = ns ∧ forall uden, found = some uden -> FileEntry ns uden)
      (fun _ _ => True) := by
  rw [artSearch, Ensures.bind_iff, ensures_nsInode]
  cases set : (ns.inode dir).dentryTree with
  | none => exact Ensures.throw_iff.mpr trivial
  | some tree =>
      exact Ensures.pure_iff.mpr ⟨rfl, fun uden => accounts.entries dir bound tree name uden set⟩

theorem dirSearch_accounts {dir : Nat} (accounts : Accounts (dir :: held) ns) (name : Name) :
    Ensures (dirSearch dir name) ns
      (fun found next => SameFiles ns next ∧ Accounts (dir :: held) next ∧
        forall uden, found = some uden -> FileEntry next uden)
      (fun _ _ => True) := by
  have bound := accounts.held dir List.mem_cons_self
  rw [dirSearch, Ensures.bind_iff]
  refine (artSearch_accounts accounts bound name).mono ?_ (fun _ _ fault => fault)
  rintro found middle ⟨same, honest⟩
  rw [same]
  cases found with
  | some uden => exact Ensures.pure_iff.mpr ⟨⟨rfl, rfl⟩, accounts, honest⟩
  | none =>
      have tail : forall next, SameFiles ns next -> Accounts (dir :: held) next ->
          Ensures (searchAgain dir name (ns.inode dir).root) next
            (fun found next => SameFiles ns next ∧ Accounts (dir :: held) next ∧
              forall uden, found = some uden -> FileEntry next uden)
            (fun _ _ => True) := by
        intro next files kept
        rw [searchAgain, Ensures.bind_iff]
        refine (artSearch_accounts kept (kept.held dir List.mem_cons_self) name).mono ?_
          (fun _ _ fault => fault)
        rintro again last ⟨same, honest⟩
        rw [same]
        cases again with
        | some uden => exact Ensures.pure_iff.mpr ⟨files, kept, honest⟩
        | none =>
            simp only [Ensures.ite_iff, Ensures.pure_iff]
            split
            · refine (fetchOndiskDentryFromKernel_accounts kept dir name).mono ?_
                (fun _ _ fault => fault)
              rintro fetched end' ⟨later, after, honest⟩
              exact ⟨files.trans later, after, honest⟩
            · exact ⟨files, kept, fun _ impossible => by cases impossible⟩
      simp only [Ensures.bind_iff, ensures_nsInode]
      split
      · rw [Ensures.bind_iff]
        refine (fetchOndiskDentry_accounts accounts dir).mono ?_ (fun _ _ fault => fault)
        rintro _ next ⟨files, kept⟩
        exact tail next files kept
      · exact tail ns ⟨rfl, rfl⟩ accounts

theorem useDentry_accounts {dir : Nat} (accounts : Accounts (dir :: held) ns)
    (directory : dir ∉ ns.created) (holder : Option Nat) (name : Name) {uden : Dentry}
    (honest : FileEntry ns uden) :
    Ensures (useDentry holder dir name uden) ns
      (fun found next => SameFiles ns next ∧ Accounts (found.toList ++ dir :: held) next)
      (fun _ _ => True) := by
  simp only [useDentry, Ensures.ite_iff, Ensures.pure_iff, Ensures.bind_iff]
  split
  · exact ⟨⟨rfl, rfl⟩, accounts⟩
  split
  · exact ⟨⟨rfl, rfl⟩, accounts⟩
  refine (igetHolding_accounts accounts holder uden.ino).mono ?_ (fun _ _ fault => fault)
  rintro got next ⟨files, kept, number⟩
  cases got with
  | none => exact Ensures.throw_iff.mpr trivial
  | some ip =>
      have inum := number ip rfl
      have bound := kept.held ip List.mem_cons_self
      simp only [deCacheAllocAdd, Ensures.bind_iff, ensures_onInode, Ensures.pure_iff]
      -- the type of a created file is set to what it is
      have typed : Accounts (ip :: dir :: held)
          (next.update ip (fun inode => { inode with itype := uden.fileType })) := by
        refine kept.update kept.held (fun _ _ _ => rfl) rfl ?_ (fun name => kept.cached ip name)
          (kept.entries ip)
        intro member
        have file := kept.file ip member
        have session := file.number
        rw [inum, files.kernel] at session
        exact ⟨rfl, honest session, file.unnamed⟩
      have other : dir ∉ next.created := by
        rw [files.created]
        exact directory
      refine ⟨files.trans ⟨rfl, rfl⟩, typed.onDirectory other rfl ?_ (typed.entries dir)⟩
      intro entry target inside found
      rcases update_eq_some found with ⟨_, same⟩ | ⟨_, before⟩
      · rw [same]
        exact bound
      · exact typed.cached dir entry target inside before

theorem lookupHolding_accounts {dir : Nat} (accounts : Accounts (dir :: held) ns)
    (holder : Option Nat) (name : Name) :
    Ensures (lookupHolding holder dir name) ns
      (fun found next => SameFiles ns next ∧ Accounts (found.toList ++ dir :: held) next)
      (fun _ _ => True) := by
  have inside := accounts.held dir List.mem_cons_self
  simp only [lookupHolding, Ensures.bind_iff, ensures_nsInode, Ensures.ite_iff, Ensures.throw_iff]
  split
  · trivial
  case isFalse isDir =>
    have directory : dir ∉ ns.created := accounts.not_created (not_not.mp isDir)
    cases known : (ns.inode dir).deCache name with
    | some ip =>
        simp only [takeRef, Ensures.bind_iff, ensures_onInode, Ensures.pure_iff]
        exact ⟨⟨rfl, rfl⟩, accounts.takeRef (accounts.cached dir name ip inside known)⟩
    | none =>
        rw [Ensures.bind_iff]
        refine (dirSearch_accounts accounts name).mono ?_ (fun _ _ fault => fault)
        rintro found next ⟨files, kept, honest⟩
        cases found with
        | none => exact Ensures.pure_iff.mpr ⟨files, kept⟩
        | some uden =>
            have other : dir ∉ next.created := by
              rw [files.created]
              exact directory
            refine (useDentry_accounts kept other holder name (honest uden rfl)).mono ?_
              (fun _ _ fault => fault)
            rintro result last ⟨later, after⟩
            exact ⟨files.trans later, after⟩

/-- The walk to a parent ends at a directory. -/
theorem namexLoop_accounts {ip : Nat} (accounts : Accounts (ip :: held) ns) (parent : Bool)
    (rounds : Nat) (path : List Char) (name : Name) :
    Ensures (namexLoop parent rounds ip path name) ns
      (fun found next => Accounts ((found.map Prod.fst).toList ++ held) next ∧
        (parent = true -> forall target, target ∈ found.map Prod.fst -> target ∉ next.created))
      (fun _ _ => True) := by
  have nothing : parent = true -> forall target, target ∈ (none : Option Nat) -> target ∉ ns.created :=
    fun _ _ impossible => by cases impossible
  induction rounds generalizing ns ip path name with
  | zero => exact Ensures.throw_iff.mpr trivial
  | succ rounds ih =>
      rw [namexLoop]
      cases getNextName path with
      | none =>
          simp only [iput, Ensures.ite_iff, Ensures.bind_iff, ensures_onInode, Ensures.pure_iff]
          split
          · exact ⟨accounts.iput, nothing⟩
          case isFalse child =>
            exact ⟨accounts, fun isTrue => absurd isTrue child⟩
      | some cut =>
          simp only [iput, Ensures.bind_iff, ensures_nsInode, Ensures.ite_iff, ensures_onInode,
            Ensures.pure_iff]
          split
          · exact ⟨accounts.iput, nothing⟩
          case isFalse isDir =>
            split
            · refine ⟨accounts, fun _ target same => ?_⟩
              cases same
              exact accounts.not_created (not_not.mp isDir)
            refine (lookupHolding_accounts accounts (some ip) cut.1).mono ?_ (fun _ _ fault => fault)
            rintro found next ⟨files, kept⟩
            cases found with
            | none => exact Ensures.pure_iff.mpr ⟨kept.iput, fun _ _ impossible => by cases impossible⟩
            | some child =>
                exact ih kept.swap.iput cut.2 cut.1 (fun _ _ impossible => by cases impossible)

theorem namex_accounts (accounts : Accounts held ns) (path : List Char) (parent : Bool) :
    Ensures (namex path parent) ns
      (fun found next => Accounts ((found.map Prod.fst).toList ++ held) next ∧
        (parent = true -> forall target, target ∈ found.map Prod.fst -> target ∉ next.created))
      (fun _ _ => True) := by
  unfold namex
  split
  · rw [Ensures.bind_iff]
    refine (igetHolding_accounts accounts none rootIno).mono ?_ (fun _ _ fault => fault)
    rintro got next ⟨_, kept, _⟩
    cases got with
    | none => exact Ensures.throw_iff.mpr trivial
    | some ip => exact namexLoop_accounts kept parent _ _ _
  · exact Ensures.throw_iff.mpr trivial

theorem dlookupAllocAdd_accounts {ip : Nat} (accounts : Accounts (ip :: held) ns)
    (path : List Char) :
    Ensures (dlookupAllocAdd ip path) ns
      (fun _ next => SameFiles ns next ∧ Accounts (ip :: held) next) (fun _ _ => True) := by
  rw [ensures_dlookupAllocAdd]
  split
  · trivial
  · exact ⟨⟨rfl, rfl⟩, accounts.enter (accounts.held ip List.mem_cons_self)⟩

theorem namei_accounts (accounts : Accounts held ns) (path : List Char) :
    Ensures (namei path) ns (fun found next => Accounts (found.toList ++ held) next)
      (fun _ _ => True) := by
  rw [namei, Ensures.bind_iff, Ensures.get_iff]
  cases known : ns.dlookupHash path with
  | some ip =>
      simp only [takeRef, Ensures.ite_iff, Ensures.pure_iff, Ensures.bind_iff, ensures_onInode]
      split
      · exact accounts
      · exact accounts.takeRef (accounts.lookup path ip known)
  | none =>
      rw [Ensures.bind_iff]
      refine (namex_accounts accounts path false).mono ?_ (fun _ _ fault => fault)
      rintro found next ⟨kept, _⟩
      cases found with
      | none => exact Ensures.pure_iff.mpr kept
      | some result =>
          simp only [Ensures.bind_iff, Ensures.pure_iff]
          exact (dlookupAllocAdd_accounts kept path).mono (fun _ _ after => after.2)
            (fun _ _ fault => fault)

theorem nameiparent_accounts (accounts : Accounts held ns) (path : List Char)
    (directories : ParentDirectory ns path) :
    Ensures (nameiparent path) ns
      (fun found next => Accounts ((found.map Prod.fst).toList ++ held) next ∧
        forall target, target ∈ found.map Prod.fst -> target ∉ next.created)
      (fun _ _ => True) := by
  have nothing : forall next : Namespace, forall target, target ∈ (none : Option Nat) ->
      target ∉ next.created := fun _ _ impossible => by cases impossible
  unfold nameiparent
  split
  · exact Ensures.throw_iff.mpr trivial
  case h_2 parentPath name cut =>
    rw [Ensures.bind_iff, Ensures.get_iff]
    cases known : ns.dlookupHash parentPath with
    | some ip =>
        simp only [takeRef, Ensures.ite_iff, Ensures.pure_iff, Ensures.bind_iff, ensures_onInode]
        split
        · exact ⟨accounts, nothing ns⟩
        · refine ⟨accounts.takeRef (accounts.lookup parentPath ip known), fun target same => ?_⟩
          cases same
          exact accounts.not_created (directories _ cut ip known)
    | none =>
        rw [Ensures.bind_iff]
        refine (namex_accounts accounts path true).mono ?_ (fun _ _ fault => fault)
        rintro found next ⟨kept, directory⟩
        cases found with
        | none => exact Ensures.pure_iff.mpr ⟨kept, nothing next⟩
        | some result =>
            simp only [Ensures.bind_iff, Ensures.pure_iff]
            refine (dlookupAllocAdd_accounts kept parentPath).mono ?_ (fun _ _ fault => fault)
            rintro _ last ⟨files, after⟩
            rw [files.created]
            exact ⟨after, directory rfl⟩

end Lookups

/-! ## Creating a file -/

section Creation

variable {held : List Nat} {ns : Namespace} {parent : Nat}

theorem ownSearch_accounts (accounts : Accounts (parent :: held) ns)
    (directory : parent ∉ ns.created) (filename name : Name) :
    Ensures (ownSearch parent filename name) ns
      (fun _ next => Accounts (parent :: held) next ∧ parent ∉ next.created)
      (fun _ _ => True) := by
  rw [ownSearch, Ensures.bind_iff]
  refine (artSearch_accounts accounts (accounts.held parent List.mem_cons_self) filename).mono ?_
    (fun _ _ fault => fault)
  rintro found middle ⟨same, _⟩
  rw [same]
  cases found with
  | some uden => exact Ensures.pure_iff.mpr ⟨accounts, directory⟩
  | none =>
      simp only [Ensures.bind_iff, ensures_nsInode, Ensures.ite_iff, Ensures.pure_iff]
      split
      · refine (fetchOndiskDentryFromKernel_accounts accounts parent name).mono ?_
          (fun _ _ fault => fault)
        rintro fetched next ⟨files, kept, _⟩
        refine (fetchOndiskDentry_accounts kept parent).mono ?_ (fun _ _ fault => fault)
        rintro _ last ⟨later, after⟩
        refine ⟨after, ?_⟩
        rw [(files.trans later).created]
        exact directory
      · exact ⟨accounts, directory⟩

/-- A created file starts with the reference of its creator. -/
theorem Accounts.create (accounts : Accounts held ns) (number : (findInodeBitmap ns.table).1 ≠ 0)
    (zeroed : Bool) :
    Accounts (ns.next :: held)
      ({ ns with
          table := (findInodeBitmap ns.table).2
          created := ns.created ++ [ns.next] }.icacheAdd
        (NsInode.new (findInodeBitmap ns.table).1 .file zeroed)) := by
  have session := (accounts.reserved.find ns.kernel.validBase).1 number
  have fresh : forall ip, ip ∈ ns.created -> ip ≠ ns.next := by
    intro ip member same
    exact accounts.next_not_created (same ▸ member)
  have unheld : held.count ns.next = 0 :=
    List.count_eq_zero.mpr (fun member => Nat.lt_irrefl _ (accounts.held _ member))
  have unopened : ns.handles ns.next = ∅ := by
    apply Finset.filter_eq_empty_iff.mpr
    rintro index _ ⟨used, same⟩
    exact Nat.ne_of_lt (accounts.opened index used).1 same
  have same : forall ip, ip ≠ ns.next -> ({ ns with
      table := (findInodeBitmap ns.table).2
      created := ns.created ++ [ns.next] }.icacheAdd
      (NsInode.new (findInodeBitmap ns.table).1 .file zeroed)).inode ip = ns.inode ip :=
    fun ip different => icacheAdd_inode_other
      { ns with table := (findInodeBitmap ns.table).2, created := ns.created ++ [ns.next] } _ different
  constructor
  case toLinked => exact (accounts.toLinked.take _).icacheAdd rfl
  case balanced =>
    intro ip member
    rcases List.mem_append.mp member with old | new
    · rw [same ip (fresh ip old), List.count_cons_of_ne (Ne.symm (fresh ip old))]
      exact accounts.balanced ip old
    · rw [List.mem_singleton.mp new, icacheAdd_inode_next, List.count_cons_self, unheld]
      change 1 = ((ns.handles ns.next).card : Int) + _
      rw [unopened]
      rfl
  case file =>
    intro ip member
    rcases List.mem_append.mp member with old | new
    · have before := accounts.file ip old
      refine ⟨Nat.lt_succ_of_lt before.bound, ?_, ?_, ?_⟩ <;> rw [same ip (fresh ip old)]
      · exact before.itype
      · exact before.number
      · exact before.unnamed
    · rw [List.mem_singleton.mp new]
      refine ⟨Nat.lt_succ_self _, ?_, ?_, ?_⟩ <;> rw [icacheAdd_inode_next]
      · rfl
      · exact session
      · rfl
  case held =>
    intro ip member
    rcases List.mem_cons.mp member with same | before
    · rw [same]
      exact Nat.lt_succ_self _
    · exact Nat.lt_succ_of_lt (accounts.held ip before)
  case opened =>
    intro index used
    have before := accounts.opened index used
    refine ⟨Nat.lt_succ_of_lt before.1, before.2.1, ?_⟩
    intro member
    rcases List.mem_append.mp member with old | new
    · exact before.2.2 old
    · exact absurd (List.mem_singleton.mp new) (Nat.ne_of_lt before.1)
  case entries =>
    intro dir bound
    by_cases here : dir = ns.next
    · rw [here, icacheAdd_inode_next]
      exact fun tree name uden set found => (loaded_entries tree name uden set found).elim
    · rw [same dir here]
      exact accounts.entries dir (Nat.lt_of_le_of_ne (Nat.le_of_lt_succ bound) here)

theorem createEntry_accounts (accounts : Accounts (parent :: held) ns)
    (directory : parent ∉ ns.created) (filename : Name) :
    Ensures (createEntry parent filename .file) ns
      (fun ip next => Accounts (ip :: parent :: held) next ∧ parent ∉ next.created)
      (fun _ _ => True) := by
  rw [ensures_createEntry]
  split
  · trivial
  case isFalse number =>
    have created := accounts.create number (ns.kernel.zeroed ns.next)
    refine ⟨created.insert (fun _ => rfl), ?_⟩
    intro member
    rcases List.mem_append.mp member with old | new
    · exact directory old
    · exact Nat.ne_of_lt (accounts.held parent List.mem_cons_self) (List.mem_singleton.mp new)

theorem loadEntry_accounts (accounts : Accounts (parent :: held) ns)
    (directory : parent ∉ ns.created) (uden : Dentry) (type : FileType) :
    Ensures (loadEntry uden type) ns
      (fun ip next => Accounts (ip :: parent :: held) next ∧ parent ∉ next.created)
      (fun _ _ => True) := by
  simp only [loadEntry, fetchRecord, Ensures.bind_iff, Ensures.get_iff]
  cases ns.kernel.record uden.ino with
  | none => exact Ensures.throw_iff.mpr trivial
  | some record =>
      simp only [Ensures.pure_iff, ensures_icacheAdd]
      exact ⟨accounts.icacheAdd rfl loaded_entries, directory⟩

theorem enterNames_accounts {ip : Nat} (accounts : Accounts (ip :: parent :: held) ns)
    (directory : parent ∉ ns.created) (name : Name) (path : List Char) :
    Ensures (enterNames parent name path ip) ns
      (fun result next => result = ip ∧ Accounts (ip :: held) next) (fun _ _ => True) := by
  have bound := accounts.held ip List.mem_cons_self
  simp only [enterNames, iput, deCacheAllocAdd, Ensures.bind_iff, ensures_onInode,
    Ensures.get_iff]
  have dropped := accounts.swap.iput
  have named : Accounts (ip :: held) ((ns.update parent (fun inode =>
      { inode with iRef := inode.iRef - 1 })).update parent (fun inode =>
      { inode with deCache := Function.update inode.deCache name (some ip) })) := by
    refine dropped.onDirectory directory rfl ?_ (dropped.entries parent)
    intro entry target inside found
    rcases update_eq_some found with ⟨_, same⟩ | ⟨_, before⟩
    · rw [same]
      exact bound
    · exact dropped.cached parent entry target inside before
  split
  · exact Ensures.pure_iff.mpr ⟨rfl, named⟩
  · simp only [Ensures.bind_iff, Ensures.pure_iff, true_and]
    exact (dlookupAllocAdd_accounts named path).mono (fun _ _ after => after.2)
      (fun _ _ fault => fault)

/-- The reference on a directory may be lost, where the name table knows the file. -/
theorem openIn_accounts (accounts : Accounts (parent :: held) ns)
    (directory : parent ∉ ns.created) (name filename : Name) (path : List Char) :
    Ensures (openIn parent name filename path .file) ns
      (fun ip next => Accounts (ip :: held) next) (fun _ _ => True) := by
  have inside := accounts.held parent List.mem_cons_self
  rw [openIn, Ensures.bind_iff, ensures_nsInode]
  cases known : (ns.inode parent).deCache name with
  | some ip =>
      simp only [takeRef, Ensures.bind_iff, ensures_onInode, Ensures.pure_iff]
      -- the reference on the parent is not dropped here
      exact (accounts.takeRef (accounts.cached parent name ip inside known)).swap.lose directory
  | none =>
      have finish : forall ip next, Accounts (ip :: parent :: held) next ∧ parent ∉ next.created ->
          Ensures (enterNames parent name path ip) next
            (fun result last => Accounts (result :: held) last) (fun _ _ => True) := by
        rintro ip next ⟨kept, still⟩
        refine (enterNames_accounts kept still name path).mono ?_ (fun _ _ fault => fault)
        rintro result last ⟨same, after⟩
        rw [same]
        exact after
      simp only [openEntry, Ensures.bind_iff]
      refine (ownSearch_accounts accounts directory filename name).mono ?_ (fun _ _ fault => fault)
      rintro found next ⟨kept, still⟩
      cases found with
      | none =>
          rw [Ensures.bind_iff]
          exact (createEntry_accounts kept still filename).mono finish (fun _ _ fault => fault)
      | some uden =>
          simp only [Ensures.ite_iff, Ensures.bind_iff]
          split
          · exact (createEntry_accounts kept still filename).mono finish
              (fun _ _ fault => fault)
          · exact (loadEntry_accounts kept still uden .file).mono finish
              (fun _ _ fault => fault)

theorem userfsOpenFile_accounts (accounts : Accounts held ns) (path : List Char)
    (directories : ParentDirectory ns path) :
    Ensures (userfsOpenFile path .file) ns
      (fun found next => Accounts (found.toList ++ held) next) (fun _ _ => True) := by
  rw [userfsOpenFile, Ensures.bind_iff, Ensures.get_iff]
  cases known : ns.dlookupHash path with
  | some ip =>
      simp only [takeRef, Ensures.bind_iff, ensures_onInode, Ensures.pure_iff]
      exact accounts.takeRef (accounts.lookup path ip known)
  | none =>
      simp only []
      split
      · exact Ensures.throw_iff.mpr trivial
      · rw [Ensures.bind_iff]
        refine (nameiparent_accounts accounts path directories).mono ?_ (fun _ _ fault => fault)
        rintro found next ⟨kept, directory⟩
        cases found with
        | none => exact Ensures.pure_iff.mpr kept
        | some result =>
            simp only [Ensures.bind_iff, Ensures.pure_iff]
            exact openIn_accounts kept (directory result.1 rfl) _ _ path

end Creation

/-! ## Handles -/

section Handles

variable {held : List Nat} {ns : Namespace} {index : Nat}

/-- The slot that `userfs_file_alloc` finds. -/
theorem freeFile_eq_some {files : Nat -> OpenFile} {count start : Nat}
    (found : freeFile files count start = some index) :
    start ≤ index ∧ index < start + count ∧ (files index).ref = 0 := by
  induction count generalizing start with
  | zero => cases found
  | succ count ih =>
      rw [freeFile] at found
      split at found
      case isTrue free =>
        cases found
        exact ⟨Nat.le_refl _, by omega, free⟩
      case isFalse =>
        have later := ih found
        exact ⟨by omega, by omega, later.2.2⟩

/-- The handles after one slot of the table was written. -/
theorem mem_handles_update {file : OpenFile} {ip other : Nat} :
    other ∈ { ns with openFiles := Function.update ns.openFiles index file }.handles ip <->
      if other = index then index < gMaxOpenFiles ∧ file.ref ≠ 0 ∧ file.ip = ip
      else other ∈ ns.handles ip := by
  unfold Namespace.handles
  rw [Finset.mem_filter, Finset.mem_range, Finset.mem_filter, Finset.mem_range]
  change other < gMaxOpenFiles ∧ (Function.update ns.openFiles index file other).ref ≠ 0 ∧
    (Function.update ns.openFiles index file other).ip = ip <-> _
  by_cases here : other = index
  · rw [here, if_pos rfl, Function.update_self]
  · rw [if_neg here, Function.update_of_ne here]

theorem card_handles_open {file : OpenFile} {ip : Nat} (inside : index < gMaxOpenFiles)
    (used : file.ref ≠ 0) (target : file.ip = ip) (free : (ns.openFiles index).ref = 0) :
    ({ ns with openFiles := Function.update ns.openFiles index file }.handles ip).card =
      (ns.handles ip).card + 1 := by
  have absent : index ∉ ns.handles ip := by
    intro member
    exact (Finset.mem_filter.mp member).2.1 free
  have same : { ns with openFiles := Function.update ns.openFiles index file }.handles ip =
      insert index (ns.handles ip) := by
    ext other
    rw [mem_handles_update, Finset.mem_insert]
    by_cases here : other = index
    · simp only [here, if_pos, inside, used, target, ne_eq, not_false_eq_true, and_self, true_or]
    · simp only [here, if_false, false_or]
  rw [same, Finset.card_insert_of_notMem absent]

theorem card_handles_close {file : OpenFile} {ip : Nat} (inside : index < gMaxOpenFiles)
    (used : (ns.openFiles index).ref ≠ 0) (target : (ns.openFiles index).ip = ip)
    (free : file.ref = 0) :
    ({ ns with openFiles := Function.update ns.openFiles index file }.handles ip).card + 1 =
      (ns.handles ip).card := by
  have present : index ∈ ns.handles ip :=
    Finset.mem_filter.mpr ⟨Finset.mem_range.mpr inside, used, target⟩
  have same : { ns with openFiles := Function.update ns.openFiles index file }.handles ip =
      (ns.handles ip).erase index := by
    ext other
    rw [mem_handles_update, Finset.mem_erase]
    by_cases here : other = index
    · simp only [here, if_pos, free, ne_eq, not_true_eq_false, false_and, and_false]
    · simp only [here, if_false, ne_eq, not_false_eq_true, true_and]
  rw [same, Finset.card_erase_add_one present]

/-- A slot without a handle on an inode does not count for it. -/
theorem handles_other {file : OpenFile} {ip : Nat} (after : ¬ (file.ref ≠ 0 ∧ file.ip = ip))
    (before : ¬ ((ns.openFiles index).ref ≠ 0 ∧ (ns.openFiles index).ip = ip)) :
    { ns with openFiles := Function.update ns.openFiles index file }.handles ip =
      ns.handles ip := by
  ext other
  rw [mem_handles_update]
  by_cases here : other = index
  · rw [here, if_pos rfl]
    constructor
    · exact fun counted => absurd counted.2 after
    · exact fun member => absurd (Finset.mem_filter.mp member).2 before
  · rw [if_neg here]

/-- A slot of the file table is written and the references held change with it. -/
theorem Accounts.writeSlot {after : List Nat} {file : OpenFile} (accounts : Accounts held ns)
    (bound : forall ip, ip ∈ after -> ip < ns.next)
    (opened : file.ref ≠ 0 -> file.ip < ns.next ∧ file.ref = 1 ∧
      (file.ip ∈ ns.created -> file.type = .inode))
    (balance : forall ip, ip ∈ ns.created ->
      ({ ns with openFiles := Function.update ns.openFiles index file }.handles ip).card +
        after.count ip = (ns.handles ip).card + held.count ip) :
    Accounts after { ns with openFiles := Function.update ns.openFiles index file } where
  hash := accounts.hash
  lookup := accounts.lookup
  cached := accounts.cached
  reserved := accounts.reserved
  balanced := by
    intro ip member
    have before := accounts.balanced ip member
    have step := balance ip member
    change (ns.inode ip).iRef = _
    omega
  file := fun ip member =>
    have before := accounts.file ip member
    ⟨before.bound, before.itype, before.number, before.unnamed⟩
  held := bound
  opened := by
    intro other used
    change (Function.update ns.openFiles index file other).ref ≠ 0 at used
    change (Function.update ns.openFiles index file other).ip < ns.next ∧
      (Function.update ns.openFiles index file other).ref = 1 ∧
      ((Function.update ns.openFiles index file other).ip ∈ ns.created ->
        (Function.update ns.openFiles index file other).type = .inode)
    by_cases here : other = index
    · rw [here, Function.update_self] at used ⊢
      exact opened used
    · rw [Function.update_of_ne here] at used ⊢
      exact accounts.opened other used
  entries := accounts.entries

/-- The reference of the opener becomes that of the handle. -/
theorem installFile_accounts {ip : Nat} (accounts : Accounts (ip :: held) ns) (directory : Bool)
    (regular : ip ∈ ns.created -> directory = false) {path : List Char}
    (fits : path.length < filenameSize) :
    Ensures (installFile ip directory path) ns (fun _ next => Accounts held next) (fun _ _ => True) := by
  rw [installFile, Ensures.bind_iff, Ensures.get_iff]
  cases found : freeFile ns.openFiles gMaxOpenFiles 0 with
  | none =>
      simp only [iput, Ensures.bind_iff, ensures_onInode, Ensures.pure_iff]
      exact accounts.iput
  | some index =>
      simp only [Ensures.bind_iff, Ensures.modify_iff, Ensures.pure_iff, Namespace.copyFilename,
        if_pos fits]
      have slot := freeFile_eq_some found
      have inside : index < gMaxOpenFiles := by omega
      refine accounts.writeSlot ?_ ?_ ?_
      · exact fun other member => accounts.held other (List.mem_cons_of_mem _ member)
      · intro _
        refine ⟨accounts.held ip List.mem_cons_self, rfl, ?_⟩
        intro member
        change (if directory = true then FdType.dir else FdType.inode) = FdType.inode
        rw [regular member]
        rfl
      · intro other member
        by_cases here : other = ip
        · rw [here, List.count_cons_self]
          have opened := @card_handles_open ns index
            ⟨1, if directory = true then .dir else .inode, ip⟩ ip inside Nat.one_ne_zero rfl slot.2.2
          omega
        · rw [handles_other (fun counted => here counted.2.symm) (fun counted => counted.1 slot.2.2),
            List.count_cons_of_ne (Ne.symm here)]

theorem posixOpen_accounts (accounts : Accounts [] ns) (path : List Char) {flags : OpenFlags}
    (plain : flags.directory = false) (fits : path.length < filenameSize)
    (directories : flags.creat = true -> ParentDirectory ns path) :
    Ensures (posixOpen path flags) ns (fun _ next => Accounts [] next) (fun _ _ => True) := by
  simp only [posixOpen, Ensures.ite_iff, Ensures.bind_iff, plain, Bool.false_eq_true, if_false,
    Bool.false_or]
  split
  case isTrue creating =>
    refine (userfsOpenFile_accounts accounts path (directories creating)).mono ?_
      (fun _ _ fault => fault)
    rintro found next kept
    cases found with
    | none => exact Ensures.pure_iff.mpr kept
    | some ip => exact installFile_accounts kept false (fun _ => rfl) fits
  case isFalse =>
    refine (namei_accounts accounts path).mono ?_ (fun _ _ fault => fault)
    rintro found next kept
    cases found with
    | none => exact Ensures.pure_iff.mpr kept
    | some ip =>
        rw [Ensures.bind_iff, ensures_nsInode]
        refine installFile_accounts kept _ (fun member => ?_) fits
        rw [(kept.file ip member).itype]
        rfl

theorem ensures_fileIndex {fd : Int} {done : Nat -> Namespace -> Prop}
    (done' : forall index, index < gMaxOpenFiles -> index = (fd - gFdStart).toNat -> done index ns) :
    Ensures (fileIndex fd) ns done (fun _ _ => True) := by
  unfold fileIndex
  rw [Ensures.ite_iff]
  split
  · refine Ensures.pure_iff.mpr (done' _ ?_ rfl)
    omega
  · exact Ensures.throw_iff.mpr trivial

/-- The handle's reference is dropped, unless the handle is on something else than a
created file. -/
theorem posixClose_accounts (accounts : Accounts [] ns) (fd : Int) :
    Ensures (posixClose fd) ns (fun _ next => Accounts [] next) (fun _ _ => True) := by
  rw [posixClose, Ensures.bind_iff]
  apply ensures_fileIndex
  intro index inside _
  simp only [Ensures.bind_iff, Ensures.get_iff, Ensures.ite_iff, Ensures.throw_iff,
    Ensures.modify_iff]
  split
  · trivial
  case isFalse used =>
    have file := accounts.opened index used
    have last : (ns.openFiles index).ref - 1 = 0 := by omega
    have closed : Accounts [(ns.openFiles index).ip]
        { ns with
          openFiles := Function.update ns.openFiles index
            ⟨(ns.openFiles index).ref - 1,
              if 1 < (ns.openFiles index).ref then (ns.openFiles index).type else .none,
              (ns.openFiles index).ip⟩ } := by
      refine accounts.writeSlot ?_ (fun open' => absurd last open') ?_
      · intro ip member
        rw [List.mem_singleton.mp member]
        exact file.1
      · intro ip member
        by_cases here : ip = (ns.openFiles index).ip
        · have step := @card_handles_close ns index ⟨(ns.openFiles index).ref - 1,
            if 1 < (ns.openFiles index).ref then (ns.openFiles index).type else .none,
            (ns.openFiles index).ip⟩ ip inside used here.symm last
          have once : [(ns.openFiles index).ip].count ip = 1 := by
            rw [here, List.count_singleton_self]
          rw [once, List.count_nil]
          omega
        · rw [handles_other (fun counted => counted.1 last) (fun counted => here counted.2.symm),
            List.count_nil, List.count_eq_zero.mpr (by simpa using here)]
    simp only [iput]
    split
    · simp only [ensures_onInode, Ensures.pure_iff]
      exact closed.iput
    case isFalse other =>
      exact Ensures.pure_iff.mpr (closed.lose (fun member => other (file.2.2 member)))

end Handles

/-! ## Calls -/

section Calls

variable {ns : Namespace}

/-- The calls that keep the account, in the state they are made in: `O_DIRECTORY` is
not used, the path fits into the file structure, a file is not created below one that the
path cache knows, and `fstat` is not called on a handle of a created file. -/
def Call.Counted : Call -> Namespace -> Prop
  | .open path flags, ns => flags.directory = false ∧ path.length < filenameSize ∧
      (flags.creat = true -> ParentDirectory ns path)
  | .close _, _ => True
  | .access _, _ => True
  | .stat _, _ => True
  | .fstat fd, ns => (ns.openFiles (fd - gFdStart).toNat).ref = 0 ∨
      (ns.openFiles (fd - gFdStart).toNat).ip ∉ ns.created
  | .truncate _ _, _ => True
  | .ftruncate _ _, _ => True
  | .mkdir _, _ => False
  | .lookup _, _ => False
  | .unlink _, _ => False
  | .rename _ _, _ => False

instance : (call : Call) -> (ns : Namespace) -> Decidable (call.Counted ns)
  | .open _ _, _ => inferInstanceAs (Decidable (_ ∧ _ ∧ (_ -> _)))
  | .close _, _ => .isTrue trivial
  | .access _, _ => .isTrue trivial
  | .stat _, _ => .isTrue trivial
  | .fstat _, _ => inferInstanceAs (Decidable (_ ∨ _))
  | .truncate _ _, _ => .isTrue trivial
  | .ftruncate _ _, _ => .isTrue trivial
  | .mkdir _, _ => .isFalse id
  | .lookup _, _ => .isFalse id
  | .unlink _, _ => .isFalse id
  | .rename _ _, _ => .isFalse id

theorem itrunc_accounts {held : List Nat} (accounts : Accounts held ns) (ip length : Nat) :
    Ensures (itrunc ip length) ns (fun _ next => Accounts held next) (fun _ _ => True) := by
  simp only [itrunc, Ensures.bind_iff, ensures_nsInode, Ensures.ite_iff, Ensures.throw_iff,
    ensures_onInode]
  split
  · trivial
  · refine accounts.update accounts.held (fun _ _ _ => rfl) rfl ?_ (fun name => accounts.cached ip name)
      (accounts.entries ip)
    intro member
    have file := accounts.file ip member
    exact ⟨rfl, file.itype, file.unnamed⟩

/-- The step lemma: every counted call keeps the account. -/
theorem Call.execute_accounts (accounts : Accounts [] ns) (call : Call) (counted : call.Counted ns) :
    Ensures call.execute ns (fun _ next => Accounts [] next) (fun _ _ => True) := by
  cases call with
  | «open» path flags =>
      simp only [Call.execute, Ensures.bind_iff, Ensures.pure_iff]
      exact posixOpen_accounts accounts path counted.1 counted.2.1 counted.2.2
  | close fd =>
      simp only [Call.execute, Ensures.bind_iff, Ensures.pure_iff]
      exact posixClose_accounts accounts fd
  | access path =>
      simp only [Call.execute, posixAccess, Ensures.bind_iff, Ensures.pure_iff]
      refine (namei_accounts accounts path).mono ?_ (fun _ _ fault => fault)
      rintro found next kept
      cases found with
      | none => exact Ensures.pure_iff.mpr kept
      | some ip =>
          simp only [iput, Ensures.bind_iff, ensures_onInode, Ensures.pure_iff]
          exact kept.iput
  | stat path =>
      simp only [Call.execute, posixStat, Ensures.bind_iff, Ensures.pure_iff]
      refine (namei_accounts accounts path).mono ?_ (fun _ _ fault => fault)
      rintro found next kept
      cases found with
      | none => exact Ensures.pure_iff.mpr kept
      | some ip =>
          simp only [stati, iput, Ensures.bind_iff, ensures_nsInode, ensures_onInode,
            Ensures.pure_iff]
          exact kept.iput
  | fstat fd =>
      simp only [Call.execute, posixFstat, Ensures.bind_iff, Ensures.pure_iff]
      apply ensures_fileIndex
      intro index _ same
      rw [same]
      simp only [Ensures.get_iff, Ensures.ite_iff, Ensures.pure_iff, stati, iput, Ensures.bind_iff,
        ensures_nsInode, ensures_onInode]
      split
      · exact accounts
      case isFalse used =>
        -- `stati` drops a reference nobody took; the inode is no created file
        have other := counted.resolve_left used
        exact accounts.onDirectory other rfl (fun name => accounts.cached _ name)
          (accounts.entries _)
  | truncate path length =>
      simp only [Call.execute, posixTruncate, Ensures.bind_iff, Ensures.pure_iff]
      refine (namei_accounts accounts path).mono ?_ (fun _ _ fault => fault)
      rintro found next kept
      cases found with
      | none => exact Ensures.pure_iff.mpr kept
      | some ip =>
          simp only [iput, Ensures.bind_iff, ensures_onInode, Ensures.pure_iff]
          refine (itrunc_accounts kept ip length).mono ?_ (fun _ _ fault => fault)
          exact fun _ last after => after.iput
  | ftruncate fd length =>
      simp only [Call.execute, posixFtruncate, Ensures.bind_iff, Ensures.pure_iff]
      apply ensures_fileIndex
      intro index _ _
      simp only [Ensures.get_iff, Ensures.ite_iff, Ensures.pure_iff, Ensures.bind_iff]
      split
      · exact accounts
      · exact itrunc_accounts accounts _ length
  | mkdir path => exact absurd counted id
  | lookup path => exact absurd counted id
  | unlink path => exact absurd counted id
  | rename oldpath newpath => exact absurd counted id

theorem accounts_start (kernel : Kernel) (behind : Nat -> Nat) (size root : Nat) :
    Accounts [] (Namespace.start kernel behind size root) where
  toLinked := linked_start kernel behind size root
  balanced := fun _ member => absurd member List.not_mem_nil
  file := fun _ member => absurd member List.not_mem_nil
  held := fun _ member => absurd member List.not_mem_nil
  opened := fun _ used => absurd rfl used
  entries := fun _ _ tree name uden set found => (loaded_entries tree name uden set found).elim

end Calls

/-- Reference counts.  After any run of calls in which `O_DIRECTORY` is not used, the
paths opened fit into the file structure, no file is created below a known regular file
and `fstat` is not called on a created file, the references on every file that the
session created are its open handles. -/
theorem references_are_handles (kernel : Kernel) (behind : Nat -> Nat) (size root : Nat)
    (calls : List Call)
    (counted : Guarded Call.execute Call.Counted calls (Namespace.start kernel behind size root)) :
    Ensures (runAll Call.execute calls) (Namespace.start kernel behind size root)
      (fun _ ns => forall ip, ip ∈ ns.created -> (ns.inode ip).iRef = (ns.handles ip).card)
      (fun _ _ => True) := by
  have run : Ensures (runAll Call.execute calls) (Namespace.start kernel behind size root)
      (fun _ ns => Accounts [] ns) (fun _ _ => True) :=
    Ensures.runAll_guarded_state
      (fun call _ accounts counted => call.execute_accounts accounts counted)
      (accounts_start kernel behind size root) counted
  refine run.mono ?_ (fun _ _ fault => fault)
  intro _ ns accounts ip member
  have balanced := accounts.balanced ip member
  rw [List.count_nil] at balanced
  omega

/-- A file is created, opened a second time, inspected by path and closed once. -/
theorem references_are_handles_two :
    Ensures (runAll Call.execute
        [.open (mountpoint ++ ['/', 'a']) ⟨true, false⟩, .open (mountpoint ++ ['/', 'a']) ⟨false, false⟩,
          .stat (mountpoint ++ ['/', '/', 'a']), .close 1000000])
      freshNamespace
      (fun _ ns => forall ip, ip ∈ ns.created -> (ns.inode ip).iRef = (ns.handles ip).card)
      (fun _ _ => True) :=
  references_are_handles Kernel.bare (fun _ => 0) 0 0 _ (by decide +kernel)

/-- A file is created and inspected by its handle: the open handle has no reference. -/
theorem fstat_drops_reference :
    Ensures (runAll Call.execute [.open (mountpoint ++ ['/', 'a']) ⟨true, false⟩, .fstat 1000000])
      freshNamespace
      (fun _ ns => 1 ∈ ns.created ∧ (ns.inode 1).iRef = 0 ∧ (ns.handles 1).card = 1)
      (fun _ _ => False) := by
  decide +kernel

end Userfs.Filesystem
