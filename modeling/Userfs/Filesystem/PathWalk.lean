import Userfs.Filesystem.PathCache

namespace Userfs.Filesystem

/-!
# A path walk is a fold of lookups

In a tree that is in memory a lookup has a meaning of its own: `child` reads it off the
name table and the radix tree, without taking references and without remembering what it
found.  Lookups leave `child` as it is, although each of them may enter a name into the
table, so the walk of `namex` is the fold of `child` in the state before the call.  The
loop hands its reference from one directory to the next and gives it back at each of its
exits but the successful ones.

The walk holds the mutex of the directory it looks into.  A name that is only in the tree
costs the mutex of the inode it leads to, so that a walk through an entry for the
directory itself, such as `.`, never returns.
-/

/-- What a name in a directory leads to: the name table first, then the radix tree. -/
def Namespace.child (ns : Namespace) (dir : Nat) (name : Name) : Option Nat :=
  match (ns.inode dir).deCache name with
  | some ip => some ip
  | none =>
      match (ns.inode dir).dentryTree.bind (fun tree => tree name) with
      | none => none
      | some uden =>
          if uden.addordel = .delden ∨ uden.ino = 0 then none else ns.inodeHash uden.ino

/-- The same, for an inode that may not be a directory. -/
def Namespace.lookupIn (ns : Namespace) (dir : Nat) (name : Name) : Option Nat :=
  if (ns.inode dir).itype = .dir then ns.child dir name else none

/-- The inode at the end of a list of names. -/
def Namespace.walk (ns : Namespace) (dir : Nat) (names : List Name) : Option Nat :=
  names.foldlM ns.lookupIn dir

/-- The directory of the last of a list of names, with that name. -/
def Namespace.walkParent (ns : Namespace) (dir : Nat) (names : List Name) : Option (Nat × Name) :=
  match names.getLast? with
  | none => none
  | some last =>
      match ns.walk dir names.dropLast with
      | none => none
      | some parent => if (ns.inode parent).itype = .dir then some (parent, last) else none

/-- The mutex is taken twice: the name is only in the tree, and it leads back to the
directory. -/
def Namespace.Blocked (ns : Namespace) (dir : Nat) (name : Name) : Prop :=
  (ns.inode dir).deCache name = none ∧ ns.lookupIn dir name = some dir

instance (ns : Namespace) (dir : Nat) (name : Name) : Decidable (ns.Blocked dir name) :=
  inferInstanceAs (Decidable (_ ∧ _))

/-- No lookup of the walk is blocked. -/
def Namespace.Clear (ns : Namespace) : Nat -> List Name -> Prop
  | _, [] => True
  | dir, name :: rest =>
      ¬ ns.Blocked dir name ∧ forall next, next ∈ ns.lookupIn dir name -> ns.Clear next rest

instance Namespace.Clear.decide (ns : Namespace) :
    (dir : Nat) -> (names : List Name) -> Decidable (ns.Clear dir names)
  | _, [] => .isTrue trivial
  | dir, name :: rest =>
      have : forall next, Decidable (ns.Clear next rest) := fun next => Namespace.Clear.decide ns next rest
      inferInstanceAs (Decidable (¬ ns.Blocked dir name ∧
        forall next, next ∈ ns.lookupIn dir name -> ns.Clear next rest))

/-- The names that `namex` looks up: all of them, or all but the last. -/
def walked (parent : Bool) (names : List Name) : List Name :=
  if parent = true then names.dropLast else names

/-- A directory tree in memory.  The entries on disk have been read, or there are none;
a live entry has its inode in the inode table, with the type the entry says, and that
inode is not being deleted. -/
structure InMemory (ns : Namespace) : Prop where
  root : Exists fun ip => ns.inodeHash rootIno = some ip ∧ (ns.inode ip).deleting = false
  hash : forall inum ip, ns.inodeHash inum = some ip -> ip < ns.next
  cached : forall dir name ip, dir < ns.next -> (ns.inode dir).deCache name = some ip -> ip < ns.next
  read : forall dir, dir < ns.next -> (ns.inode dir).itype = .dir -> ¬ (ns.inode dir).Unread
  tree : forall dir, dir < ns.next -> (ns.inode dir).itype = .dir ->
    Exists fun tree => (ns.inode dir).dentryTree = some tree ∧
      (forall name, tree name = none -> 0 < (ns.inode dir).root ->
        ns.kernel.entry (ns.inode dir).inum name = 0) ∧
      forall name uden, tree name = some uden -> uden.addordel ≠ .delden -> uden.ino ≠ 0 ->
        Exists fun ip => ns.inodeHash uden.ino = some ip ∧
          (ns.inode ip).deleting = false ∧ (ns.inode ip).itype = uden.fileType

/-- A reference more on one inode, and on no other. -/
def RefTaken (ns next : Namespace) (found : Option Nat) : Prop :=
  forall ip, (next.inode ip).iRef = (ns.inode ip).iRef + if found = some ip then 1 else 0

/-! ## What lookups change -/

/-- References change, and names of the tree are entered into the name tables, but none
that leads back to its directory. -/
structure Remembers (ns next : Namespace) : Prop where
  kernel : next.kernel = ns.kernel
  addresses : next.next = ns.next
  hash : next.inodeHash = ns.inodeHash
  inode : forall ip, Exists fun iRef => Exists fun deCache =>
    next.inode ip = { ns.inode ip with iRef := iRef, deCache := deCache }
  kept : forall dir name ip, (ns.inode dir).deCache name = some ip ->
    (next.inode dir).deCache name = some ip
  added : forall dir name ip, (next.inode dir).deCache name = some ip -> ns.child dir name = some ip
  away : forall dir name ip, (next.inode dir).deCache name = some ip ->
    (ns.inode dir).deCache name = some ip ∨ ip ≠ dir

section Frame

variable {ns next last : Namespace}

theorem child_of_cached {dir ip : Nat} {name : Name}
    (cached : (ns.inode dir).deCache name = some ip) : ns.child dir name = some ip := by
  simp only [Namespace.child, cached]

theorem Remembers.itype (remembers : Remembers ns next) (ip : Nat) :
    (next.inode ip).itype = (ns.inode ip).itype := by
  rcases remembers.inode ip with ⟨_, _, same⟩
  rw [same]

/-- What a name leads to does not depend on what has been remembered. -/
theorem Remembers.child (remembers : Remembers ns next) : next.child = ns.child := by
  funext dir name
  cases after : (next.inode dir).deCache name with
  | some ip => rw [child_of_cached after, remembers.added dir name ip after]
  | none =>
      cases before : (ns.inode dir).deCache name with
      | some ip =>
          rw [remembers.kept dir name ip before] at after
          cases after
      | none =>
          rcases remembers.inode dir with ⟨_, _, same⟩
          have tree : (next.inode dir).dentryTree = (ns.inode dir).dentryTree := by rw [same]
          simp only [Namespace.child, after, before, tree, remembers.hash]

theorem Remembers.lookupIn (remembers : Remembers ns next) : next.lookupIn = ns.lookupIn := by
  funext dir name
  rw [Namespace.lookupIn, Namespace.lookupIn, remembers.itype, remembers.child]

/-- What blocked a walk still does. -/
theorem Remembers.blocked (remembers : Remembers ns next) {dir : Nat} {name : Name} :
    next.Blocked dir name <-> ns.Blocked dir name := by
  rw [Namespace.Blocked, Namespace.Blocked, remembers.lookupIn]
  constructor
  · rintro ⟨uncached, back⟩
    refine ⟨?_, back⟩
    cases before : (ns.inode dir).deCache name with
    | none => rfl
    | some ip =>
        rw [remembers.kept dir name ip before] at uncached
        cases uncached
  · rintro ⟨uncached, back⟩
    refine ⟨?_, back⟩
    cases after : (next.inode dir).deCache name with
    | none => rfl
    | some ip =>
        have led := remembers.added dir name ip after
        rw [Namespace.lookupIn] at back
        split at back
        · rw [led] at back
          rcases remembers.away dir name ip after with old | away
          · rw [uncached] at old
            cases old
          · exact absurd (Option.some.inj back) away
        · cases back

theorem Remembers.clear (remembers : Remembers ns next) {dir : Nat} {names : List Name} :
    next.Clear dir names <-> ns.Clear dir names := by
  induction names generalizing dir with
  | nil => exact Iff.rfl
  | cons name rest ih =>
      simp only [Namespace.Clear, remembers.blocked, remembers.lookupIn, ih]

theorem Remembers.walk (remembers : Remembers ns next) : next.walk = ns.walk := by
  funext dir names
  rw [Namespace.walk, Namespace.walk, remembers.lookupIn]

theorem Remembers.walkParent (remembers : Remembers ns next) :
    next.walkParent = ns.walkParent := by
  funext dir names
  simp only [Namespace.walkParent, remembers.walk, remembers.itype]

theorem Remembers.refl (ns : Namespace) : Remembers ns ns where
  kernel := rfl
  addresses := rfl
  hash := rfl
  inode := fun ip => ⟨(ns.inode ip).iRef, (ns.inode ip).deCache, rfl⟩
  kept := fun _ _ _ cached => cached
  added := fun _ _ _ cached => child_of_cached cached
  away := fun _ _ _ cached => Or.inl cached

theorem Remembers.trans (first : Remembers ns next) (second : Remembers next last) :
    Remembers ns last where
  kernel := second.kernel.trans first.kernel
  addresses := second.addresses.trans first.addresses
  hash := second.hash.trans first.hash
  inode := by
    intro ip
    rcases first.inode ip with ⟨_, _, middle⟩
    rcases second.inode ip with ⟨iRef, deCache, final⟩
    exact ⟨iRef, deCache, by rw [final, middle]⟩
  kept := fun dir name ip cached => second.kept dir name ip (first.kept dir name ip cached)
  added := by
    intro dir name ip cached
    rw [← first.child]
    exact second.added dir name ip cached
  away := by
    intro dir name ip cached
    rcases second.away dir name ip cached with old | away
    · exact first.away dir name ip old
    · exact Or.inr away

/-- One inode changes. -/
theorem Remembers.update {ip : Nat} {change : NsInode -> NsInode} {iRef : Int}
    {deCache : Name -> Option Nat}
    (shape : change (ns.inode ip) = { ns.inode ip with iRef := iRef, deCache := deCache })
    (kept : forall name other, (ns.inode ip).deCache name = some other -> deCache name = some other)
    (added : forall name other, deCache name = some other -> ns.child ip name = some other)
    (away : forall name other, deCache name = some other ->
      (ns.inode ip).deCache name = some other ∨ other ≠ ip) :
    Remembers ns (ns.update ip change) where
  kernel := rfl
  addresses := rfl
  hash := rfl
  inode := by
    intro other
    by_cases here : other = ip
    · rw [here, update_inode_self]
      exact ⟨iRef, deCache, shape⟩
    · rw [update_inode_other ns change here]
      exact ⟨(ns.inode other).iRef, (ns.inode other).deCache, rfl⟩
  kept := by
    intro dir name other cached
    by_cases here : dir = ip
    · rw [here] at cached ⊢
      rw [update_inode_self, shape]
      exact kept name other cached
    · rw [update_inode_other ns change here]
      exact cached
  added := by
    intro dir name other cached
    by_cases here : dir = ip
    · rw [here] at cached ⊢
      rw [update_inode_self, shape] at cached
      exact added name other cached
    · rw [update_inode_other ns change here] at cached
      exact child_of_cached cached
  away := by
    intro dir name other cached
    by_cases here : dir = ip
    · rw [here] at cached ⊢
      rw [update_inode_self, shape] at cached
      exact away name other cached
    · rw [update_inode_other ns change here] at cached
      exact Or.inl cached

theorem Remembers.addRef (ns : Namespace) (ip : Nat) (step : Int) :
    Remembers ns (ns.addRef ip step) :=
  Remembers.update rfl (fun _ _ cached => cached) (fun _ _ cached => child_of_cached cached)
    (fun _ _ cached => Or.inl cached)

theorem InMemory.child_bound (inMemory : InMemory ns) {dir ip : Nat} {name : Name}
    (bound : dir < ns.next) (edge : ns.child dir name = some ip) : ip < ns.next := by
  cases known : (ns.inode dir).deCache name with
  | some other =>
      rw [child_of_cached known] at edge
      rw [← Option.some.inj edge]
      exact inMemory.cached dir name other bound known
  | none =>
      simp only [Namespace.child, known] at edge
      split at edge
      · cases edge
      split at edge
      · cases edge
      · exact inMemory.hash _ ip edge

/-- The tree stays in memory. -/
theorem InMemory.remember (inMemory : InMemory ns) (remembers : Remembers ns next) :
    InMemory next := by
  have field : forall ip, (next.inode ip).deleting = (ns.inode ip).deleting ∧
      (next.inode ip).root = (ns.inode ip).root ∧ (next.inode ip).inum = (ns.inode ip).inum ∧
      (next.inode ip).dentryTree = (ns.inode ip).dentryTree ∧
      (next.inode ip).inmemDen = (ns.inode ip).inmemDen := by
    intro ip
    rcases remembers.inode ip with ⟨_, _, same⟩
    rw [same]
    exact ⟨rfl, rfl, rfl, rfl, rfl⟩
  constructor
  case root =>
    rcases inMemory.root with ⟨ip, found, alive⟩
    exact ⟨ip, by rw [remembers.hash]; exact found, by rw [(field ip).1]; exact alive⟩
  case hash =>
    intro inum ip found
    rw [remembers.hash] at found
    rw [remembers.addresses]
    exact inMemory.hash inum ip found
  case cached =>
    intro dir name ip bound known
    rw [remembers.addresses] at bound ⊢
    exact inMemory.child_bound bound (remembers.added dir name ip known)
  case read =>
    intro dir bound isDir
    rw [remembers.addresses] at bound
    rw [remembers.itype] at isDir
    have read := inMemory.read dir bound isDir
    rw [NsInode.Unread] at read ⊢
    rw [(field dir).2.1, (field dir).2.2.2.2]
    exact read
  case tree =>
    intro dir bound isDir
    rw [remembers.addresses] at bound
    rw [remembers.itype] at isDir
    rcases inMemory.tree dir bound isDir with ⟨tree, set, complete, held⟩
    refine ⟨tree, ?_, ?_, ?_⟩
    · rw [(field dir).2.2.2.1]
      exact set
    · rw [(field dir).2.1, (field dir).2.2.1, remembers.kernel]
      exact complete
    · intro name uden entered alive numbered
      rcases held name uden entered alive numbered with ⟨ip, found, living, typed⟩
      refine ⟨ip, ?_, ?_, ?_⟩
      · rw [remembers.hash]
        exact found
      · rw [(field ip).1]
        exact living
      · rw [remembers.itype]
        exact typed

end Frame

/-! ## One lookup -/

section Lookup

variable {ns : Namespace} {dir : Nat} {name : Name}

/-- The search in memory ends at the entry of the tree. -/
theorem InMemory.ensures_dirSearch (inMemory : InMemory ns) (bound : dir < ns.next)
    (isDir : (ns.inode dir).itype = .dir) {tree : Name -> Option Dentry}
    (set : (ns.inode dir).dentryTree = some tree) :
    Ensures (dirSearch dir name) ns (fun found next => found = tree name ∧ next = ns)
      (fun _ _ => False) := by
  rw [dirSearch, Ensures.bind_iff, ensures_artSearch set]
  cases entered : tree name with
  | some uden => exact Ensures.pure_iff.mpr ⟨rfl, rfl⟩
  | none =>
      rcases inMemory.tree dir bound isDir with ⟨other, setOther, complete, _⟩
      rw [set] at setOther
      cases setOther
      simp only [searchAgain, Ensures.bind_iff, ensures_nsInode,
        if_neg (inMemory.read dir bound isDir), ensures_artSearch set, entered]
      split
      · rename_i onDisk
        simp only [fetchOndiskDentryFromKernel, Ensures.bind_iff, Ensures.get_iff,
          if_pos (complete name entered onDisk), Ensures.pure_iff, and_self]
      · exact Ensures.pure_iff.mpr ⟨rfl, rfl⟩

/-- Without the reference on it, an inode is as if a walk had just found it. -/
theorem refTaken_held (ns : Namespace) (ip : Nat) : RefTaken (ns.addRef ip (-1)) ns (some ip) := by
  intro other
  rw [addRef_inode_iRef]
  by_cases here : other = ip
  · simp [here]
  · simp [here, Ne.symm here]

theorem refTaken_none (ns : Namespace) : RefTaken ns ns none :=
  fun _ => (Int.add_zero _).symm

/-- What a lookup returns, and what it leaves behind if its caller holds the mutex of the
directory. -/
structure LookedUp (ns : Namespace) (holder : Option Nat) (dir : Nat) (name : Name)
    (found : Option Nat) (next : Namespace) : Prop where
  child : found = ns.child dir name
  taken : RefTaken ns next found
  holding : holder = some dir -> Remembers ns next ∧ ¬ ns.Blocked dir name

/-- A name that leads nowhere. -/
theorem LookedUp.nowhere {holder : Option Nat} (isDir : (ns.inode dir).itype = .dir)
    (missing : ns.child dir name = none) : LookedUp ns holder dir name none ns := by
  refine ⟨missing.symm, refTaken_none ns, fun _ => ⟨Remembers.refl ns, ?_⟩⟩
  rintro ⟨_, back⟩
  rw [Namespace.lookupIn, if_pos isDir, missing] at back
  cases back

theorem refTaken_addRef (ns : Namespace) (ip : Nat) : RefTaken ns (ns.addRef ip 1) (some ip) := by
  intro other
  rw [addRef_inode_iRef]
  simp only [Option.some.injEq, eq_comm]

/-- The name of an inode other than the directory is remembered. -/
theorem remembers_name {ip : Nat} (known : (ns.inode dir).deCache name = none)
    (meaning : ns.child dir name = some ip) (away : ip ≠ dir) :
    Remembers ns ((ns.addRef ip 1).update dir (fun inode =>
      { inode with deCache := Function.update inode.deCache name (some ip) })) := by
  refine (Remembers.addRef ns ip 1).trans (Remembers.update rfl ?_ ?_ ?_)
  · intro other target cached
    rw [addRef_inode_iRef] at cached
    have different : other ≠ name := by
      intro same
      rw [same, known] at cached
      cases cached
    rw [Function.update_of_ne different, addRef_inode_iRef]
    exact cached
  · intro other target cached
    rw [(Remembers.addRef ns ip 1).child]
    rcases update_eq_some cached with ⟨same, equal⟩ | ⟨_, old⟩
    · rw [same, equal]
      exact meaning
    · rw [addRef_inode_iRef] at old
      exact child_of_cached old
  · intro other target cached
    rcases update_eq_some cached with ⟨_, equal⟩ | ⟨_, old⟩
    · rw [equal]
      exact Or.inr away
    · exact Or.inl old

/-- A live entry of a tree in memory. -/
theorem InMemory.entry (inMemory : InMemory ns) (bound : dir < ns.next)
    (isDir : (ns.inode dir).itype = .dir) {tree : Name -> Option Dentry} {uden : Dentry}
    (set : (ns.inode dir).dentryTree = some tree) (entered : tree name = some uden)
    (alive : uden.addordel ≠ .delden) (numbered : uden.ino ≠ 0) :
    Exists fun ip => ns.inodeHash uden.ino = some ip ∧
      (ns.inode ip).deleting = false ∧ (ns.inode ip).itype = uden.fileType := by
  rcases inMemory.tree dir bound isDir with ⟨other, same, _, held⟩
  rw [Option.some.inj (set.symm.trans same)] at entered
  exact held name uden entered alive numbered

/-- A name that is only in the tree. -/
theorem InMemory.ensures_useDentry (inMemory : InMemory ns) (bound : dir < ns.next)
    (isDir : (ns.inode dir).itype = .dir) {holder : Option Nat}
    (own : holder = none ∨ holder = some dir) {tree : Name -> Option Dentry} {uden : Dentry}
    (set : (ns.inode dir).dentryTree = some tree) (known : (ns.inode dir).deCache name = none)
    (entered : tree name = some uden) :
    Ensures (useDentry holder dir name uden) ns (LookedUp ns holder dir name)
      (fun fault _ => fault = .deadlock ∧ holder = some dir ∧ ns.Blocked dir name) := by
  have meaning : ns.child dir name =
      if uden.addordel = .delden ∨ uden.ino = 0 then none else ns.inodeHash uden.ino := by
    simp only [Namespace.child, known, set, Option.bind_some, entered]
  rw [useDentry]
  by_cases dead : uden.addordel = .delden
  · rw [if_pos (Or.inl dead)] at meaning
    rw [if_pos dead]
    exact Ensures.pure_iff.mpr (LookedUp.nowhere isDir meaning)
  by_cases unnumbered : uden.ino = 0
  · rw [if_pos (Or.inr unnumbered)] at meaning
    rw [if_neg dead, if_pos unnumbered]
    exact Ensures.pure_iff.mpr (LookedUp.nowhere isDir meaning)
  rcases inMemory.entry bound isDir set entered dead unnumbered with ⟨ip, hashed, alive, typed⟩
  simp only [dead, unnumbered, or_self, if_false, hashed] at meaning
  simp only [if_neg dead, if_neg unnumbered, igetHolding, Ensures.bind_iff, Ensures.get_iff,
    hashed, alive, Bool.false_eq_true, if_false, takeRef, ensures_onInode, Ensures.pure_iff,
    deCacheAllocAdd, Ensures.ite_iff, Ensures.throw_iff]
  have back : ns.Blocked dir name <-> ip = dir := by
    rw [Namespace.Blocked, Namespace.lookupIn, if_pos isDir, meaning, Option.some_inj]
    exact and_iff_right known
  by_cases locked : holder = some ip
  · -- the caller holds the mutex of the inode that the entry names
    rw [if_pos locked]
    rcases own with free | same
    · rw [locked] at free
      cases free
    · rw [back]
      exact ⟨trivial, same, Option.some.inj (locked.symm.trans same)⟩
  rw [if_neg locked]
  -- the type is set to what it is, so only the reference and the name are new
  have typing : (ns.addRef ip 1).update ip
      (fun inode => { inode with itype := uden.fileType }) = ns.addRef ip 1 := by
    apply update_of_eq
    rw [addRef_inode_iRef, ← typed]
  change LookedUp ns holder dir name (some ip)
    (Namespace.update (Namespace.update (ns.addRef ip 1) ip _) dir _)
  rw [typing]
  refine ⟨meaning.symm, ?_, ?_⟩
  · intro other
    rw [← refTaken_addRef ns ip other]
    by_cases here : other = dir
    · rw [here, update_inode_self]
    · rw [update_inode_other _ _ here]
  · intro holding
    have away : ip ≠ dir := fun same => locked (by rw [holding, same])
    exact ⟨remembers_name known meaning away, fun blocked => away (back.mp blocked)⟩

/-- A lookup in memory returns what the name leads to, with a reference on it, unless it
is blocked by the mutex that its caller holds. -/
theorem InMemory.ensures_lookupHolding (inMemory : InMemory ns) (bound : dir < ns.next)
    (isDir : (ns.inode dir).itype = .dir) {holder : Option Nat}
    (own : holder = none ∨ holder = some dir) :
    Ensures (lookupHolding holder dir name) ns (LookedUp ns holder dir name)
      (fun fault _ => fault = .deadlock ∧ holder = some dir ∧ ns.Blocked dir name) := by
  cases known : (ns.inode dir).deCache name with
  | some ip =>
      rw [ensures_lookupHolding_known isDir known]
      refine ⟨(child_of_cached known).symm, refTaken_addRef ns ip,
        fun _ => ⟨Remembers.addRef ns ip 1, ?_⟩⟩
      rintro ⟨uncached, _⟩
      rw [known] at uncached
      cases uncached
  | none =>
      rcases inMemory.tree dir bound isDir with ⟨tree, set, _⟩
      simp only [lookupHolding, Ensures.bind_iff, ensures_nsInode, isDir, ne_eq, not_true_eq_false,
        if_false, known]
      refine (inMemory.ensures_dirSearch bound isDir set).mono ?_
        (fun _ _ impossible => impossible.elim)
      rintro result next ⟨resultEq, nextEq⟩
      rw [resultEq, nextEq]
      cases entered : tree name with
      | none =>
          have missing : ns.child dir name = none := by
            simp only [Namespace.child, known, set, Option.bind_some, entered]
          exact Ensures.pure_iff.mpr (LookedUp.nowhere isDir missing)
      | some uden => exact inMemory.ensures_useDentry bound isDir own set known entered

end Lookup

/-! ## The loop -/

section Loop

variable {ns : Namespace} {ip : Nat}

theorem walkParent_single (ns : Namespace) (dir : Nat) (last : Name) :
    ns.walkParent dir [last] =
      if (ns.inode dir).itype = .dir then some (dir, last) else none :=
  rfl

theorem walkParent_cons (ns : Namespace) (dir : Nat) (name : Name) {rest : List Name}
    (more : rest ≠ []) :
    ns.walkParent dir (name :: rest) =
      (ns.lookupIn dir name).bind (fun next => ns.walkParent next rest) := by
  cases rest with
  | nil => exact absurd rfl more
  | cons head tail =>
      simp only [Namespace.walkParent, List.getLast?_cons_cons, List.dropLast_cons_cons, Namespace.walk,
        List.foldlM_cons]
      cases ns.lookupIn dir name with
      | none => cases (head :: tail).getLast? <;> rfl
      | some next => rfl

theorem addRef_back (ns : Namespace) (ip : Nat) : (ns.addRef ip 1).addRef ip (-1) = ns := by
  rw [Namespace.addRef, Namespace.addRef, update_update]
  apply update_of_eq
  simp

theorem clear_nowhere {name : Name} {rest : List Name} (missing : ns.lookupIn ip name = none) :
    ns.Clear ip (name :: rest) := by
  simp only [Namespace.Clear, Namespace.Blocked, missing, reduceCtorEq, and_false, not_false_eq_true,
    Option.not_mem_none, false_implies, implies_true, and_self]

theorem walked_cons (parent : Bool) (name : Name) {rest : List Name}
    (more : parent = true -> rest ≠ []) :
    walked parent (name :: rest) = name :: walked parent rest := by
  cases parent with
  | false => rfl
  | true => exact List.dropLast_cons_of_ne_nil (more rfl)

/-- The loop consumes the reference on its directory and returns one on what it finds.
It ends in a deadlock exactly if a lookup on its way is blocked. -/
theorem namexLoop_folds (inMemory : InMemory ns) (bound : ip < ns.next) (parent : Bool)
    {rounds : Nat} {path : List Char} (name : Name)
    (short : forall element, element ∈ elements path -> element.length < dirsiz)
    (enough : path.length < rounds) :
    Ensures (namexLoop parent rounds ip path name) ns
      (fun found next =>
        (parent = false -> found.map Prod.fst = ns.walk ip (elements path)) ∧
        (parent = true -> found = ns.walkParent ip (elements path)) ∧
        RefTaken (ns.addRef ip (-1)) next (found.map Prod.fst) ∧
        ns.Clear ip (walked parent (elements path)))
      (fun fault _ => fault = .deadlock ∧ ¬ ns.Clear ip (walked parent (elements path))) := by
  induction rounds generalizing ns ip path name with
  | zero => exact absurd enough (Nat.not_lt_zero _)
  | succ rounds ih =>
      rw [namexLoop]
      cases cut : getNextName path with
      | none =>
          rw [getNextName_eq_none.mp cut]
          cases parent with
          | true =>
              simp only [if_true, iput, Ensures.bind_iff, ensures_onInode, Ensures.pure_iff]
              exact ⟨(fun impossible => by cases impossible), fun _ => rfl, refTaken_none _, trivial⟩
          | false =>
              simp only [Bool.false_eq_true, if_false, Ensures.pure_iff]
              exact ⟨fun _ => rfl, (fun impossible => by cases impossible), refTaken_held ns ip, trivial⟩
      | some pair =>
          have first := getNextName_short cut short
          have shorter := first.shorter
          rw [first.elements] at short ⊢
          simp only [Ensures.bind_iff, ensures_nsInode]
          by_cases isDir : (ns.inode ip).itype = .dir
          · have found : ns.lookupIn ip pair.1 = ns.child ip pair.1 := if_pos isDir
            simp only [isDir, ne_eq, not_true_eq_false, if_false]
            by_cases stops : parent = true ∧ pair.2 = []
            · -- one element is left, and the walk is for its directory
              rw [if_pos stops, first.last.mp stops.2, walkParent_single, if_pos isDir]
              rw [stops.1]
              exact Ensures.pure_iff.mpr
                ⟨(fun impossible => by cases impossible), fun _ => rfl, refTaken_held ns ip, trivial⟩
            · have later : parent = true -> elements pair.2 ≠ [] := fun isTrue none =>
                stops ⟨isTrue, first.last.mpr none⟩
              rw [if_neg stops, Ensures.bind_iff, walked_cons parent pair.1 later]
              refine (inMemory.ensures_lookupHolding bound isDir (Or.inr rfl)).mono ?_ ?_
              case refine_2 =>
                rintro fault _ ⟨deadlock, _, blocked⟩
                exact ⟨deadlock, fun clear => clear.1 blocked⟩
              rintro _ next ⟨rfl, taken, holding⟩
              rcases holding rfl with ⟨remembers, open'⟩
              simp only [iput, Ensures.bind_iff, ensures_onInode]
              have released := remembers.trans (Remembers.addRef next ip (-1))
              cases edge : ns.child ip pair.1 with
              | none =>
                  rw [edge] at taken found
                  refine Ensures.pure_iff.mpr ⟨?_, ?_, ?_, clear_nowhere found⟩
                  · intro _
                    rw [Namespace.walk, List.foldlM_cons, found]
                    rfl
                  · intro isTrue
                    rw [walkParent_cons ns ip pair.1 (later isTrue), found]
                    rfl
                  · intro other
                    change ((next.addRef ip (-1)).inode other).iRef = _
                    have same := taken other
                    rw [addRef_inode_iRef, addRef_inode_iRef, same]
                    simp
              | some child =>
                  rw [edge] at taken found
                  have childBound := inMemory.child_bound bound edge
                  -- the walk is clear if the rest of it is
                  have onward : ns.Clear ip (pair.1 :: walked parent (elements pair.2)) <->
                      ns.Clear child (walked parent (elements pair.2)) := by
                    simp only [Namespace.Clear, found, Option.mem_some_iff, forall_eq']
                    exact and_iff_right open'
                  rw [onward]
                  refine (@ih (next.addRef ip (-1)) child (inMemory.remember released) ?_ pair.2 pair.1
                    (fun other member => short other (List.mem_cons_of_mem _ member)) (by omega)).mono
                    ?_ ?_
                  · rw [released.addresses]
                    exact childBound
                  case refine_3 =>
                    rintro fault _ ⟨deadlock, stuck⟩
                    exact ⟨deadlock, fun clear => stuck (released.clear.mpr clear)⟩
                  rintro result final ⟨onWalk, onParent, refs, clear⟩
                  rw [released.walk] at onWalk
                  rw [released.walkParent] at onParent
                  refine ⟨?_, ?_, ?_, released.clear.mp clear⟩
                  · intro isFalse
                    rw [onWalk isFalse, Namespace.walk, Namespace.walk, List.foldlM_cons, found]
                    rfl
                  · intro isTrue
                    rw [onParent isTrue, walkParent_cons ns ip pair.1 (later isTrue), found]
                    rfl
                  · -- the reference the lookup took is the one the rest of the walk consumes
                    intro other
                    rw [refs other]
                    have same := taken other
                    simp only [addRef_inode_iRef, same, Option.some.injEq, @eq_comm _ child other]
                    split <;> omega
          · have nothing : ns.lookupIn ip pair.1 = none := if_neg isDir
            rw [if_pos isDir]
            simp only [iput, Ensures.bind_iff, ensures_onInode, Ensures.pure_iff]
            refine ⟨?_, ?_, refTaken_none _, ?_⟩
            · intro _
              rw [Namespace.walk, List.foldlM_cons, nothing]
              rfl
            · intro _
              by_cases single : elements pair.2 = []
              · rw [single, walkParent_single, if_neg isDir]
              · rw [walkParent_cons ns ip pair.1 single, nothing]
                rfl
            · by_cases single : parent = true ∧ elements pair.2 = []
              · rw [single.1, single.2]
                exact trivial
              · rw [walked_cons parent pair.1 (fun isTrue none => single ⟨isTrue, none⟩)]
                exact clear_nowhere nothing

end Loop

/-- On a directory tree in memory a lookup returns the child.  `namex` with `parent` zero
returns the fold of the lookups over the components, with `parent` one the fold over all
but the last together with the last, and either takes a reference on the inode it
returns and on no other, exactly if no name that it looks up is only in the tree and
leads back to its directory. -/
theorem namex_folds_lookups {ns : Namespace} (inMemory : InMemory ns) {rest : List Char}
    (short : forall element, element ∈ elements rest -> element.length < dirsiz) :
    (forall dir name, dir < ns.next -> (ns.inode dir).itype = .dir ->
      Ensures (dirLookup dir name) ns (fun found _ => found = ns.lookupIn dir name)
        (fun _ _ => False)) ∧
    Exists fun root => ns.inodeHash rootIno = some root ∧
      (Ensures (namex (mountpoint ++ '/' :: rest) false) ns
        (fun found next => found.map Prod.fst = ns.walk root (elements rest) ∧
          RefTaken ns next (found.map Prod.fst))
        (fun _ _ => False) <-> ns.Clear root (elements rest)) ∧
      (Ensures (namex (mountpoint ++ '/' :: rest) true) ns
        (fun found next => found = ns.walkParent root (elements rest) ∧
          RefTaken ns next (found.map Prod.fst))
        (fun _ _ => False) <-> ns.Clear root (elements rest).dropLast) := by
  constructor
  · intro dir name bound isDir
    refine (inMemory.ensures_lookupHolding bound isDir (Or.inl rfl)).mono ?_ ?_
    · rintro found _ ⟨same, _⟩
      rw [same, Namespace.lookupIn, if_pos isDir]
    · rintro _ _ ⟨_, impossible, _⟩
      cases impossible
  · rcases inMemory.root with ⟨root, found, alive⟩
    have taken := Remembers.addRef ns root 1
    have bound : root < (ns.addRef root 1).next := inMemory.hash rootIno root found
    have loop := fun parent => @namexLoop_folds (ns.addRef root 1) root (inMemory.remember taken)
      bound parent (rest.length + 2) ('/' :: rest) []
      (by rw [elements_slash]; exact short) (by rw [List.length_cons]; omega)
    simp only [taken.walk, taken.walkParent, elements_slash, addRef_back, taken.clear] at loop
    have start : forall (parent : Bool) done failed, Ensures (namexLoop parent (rest.length + 2) root
        ('/' :: rest) []) (ns.addRef root 1) done failed ->
        Ensures (namex (mountpoint ++ '/' :: rest) parent) ns done failed := by
      intro parent done failed ensured
      rw [namex, stripMountpoint_mounted]
      simp only [Ensures.bind_iff, iget, igetHolding, Ensures.get_iff, found, alive,
        Bool.false_eq_true, reduceCtorEq, if_false, takeRef, ensures_onInode, Ensures.pure_iff]
      exact ensured
    refine ⟨root, found, ?_, ?_⟩
    · exact Ensures.iff_of_outcome (start false _ _ (loop false))
        (fun _ _ result => ⟨result.2.2.2, result.1 rfl, result.2.2.1⟩) (fun _ _ stuck => stuck.2)
    · exact Ensures.iff_of_outcome (start true _ _ (loop true))
        (fun _ _ result => ⟨result.2.2.2, result.2.1 rfl, result.2.2.1⟩) (fun _ _ stuck => stuck.2)

/-- A root directory that lists itself, as `fetch_ondisk_dentry` enters it. -/
def selfListed : Namespace :=
  freshNamespace.update 0 (fun inode => inode.artInsert ['.'] ⟨.ondisk, rootIno, .dir⟩)

theorem number_selfListed : (findInodeBitmap selfListed.table).1 = 256 := by
  decide +kernel

/-- What the root directory lists is in memory. -/
theorem inMemory_selfListed : InMemory selfListed := by
  have address : forall dir, dir < selfListed.next -> dir = 0 := by
    intro dir bound
    change dir < 1 at bound
    omega
  constructor
  case root => exact ⟨0, by decide, rfl⟩
  case hash =>
    intro inum ip found
    change Function.update (fun _ => none) rootIno (some 0) inum = some ip at found
    rcases update_eq_some found with ⟨_, same⟩ | ⟨_, none⟩
    · rw [same]
      exact Nat.one_pos
    · cases none
  case cached =>
    intro dir name ip bound known
    rw [address dir bound] at known
    cases known
  case read =>
    intro dir bound _ unread
    rw [address dir bound] at unread
    exact absurd unread.1 (Nat.lt_irrefl 0)
  case tree =>
    intro dir bound _
    rw [address dir bound]
    refine ⟨Function.update (fun _ => none) ['.'] (some ⟨.ondisk, rootIno, .dir⟩), rfl,
      fun _ _ onDisk => absurd onDisk (Nat.lt_irrefl 0), ?_⟩
    intro name uden entered _ _
    rcases update_eq_some entered with ⟨_, same⟩ | ⟨_, none⟩
    · rw [same]
      exact ⟨0, by decide, rfl, rfl⟩
    · cases none

/-- The root directory that lists itself, with one directory in it. -/
theorem inMemory_withEntry_selfListed : InMemory (selfListed.withEntry 0 ['a'] .dir) := by
  have old := inMemory_selfListed
  have top := @withEntry_inode_self selfListed 0 ['a'] .dir (by decide)
  have below := @withEntry_inode_next selfListed 0 ['a'] .dir (by decide)
  rw [number_selfListed] at top below
  have hash : (selfListed.withEntry 0 ['a'] .dir).inodeHash =
      Function.update selfListed.inodeHash 256 (some 1) := by
    change Function.update _ (findInodeBitmap selfListed.table).1 _ = _
    rw [number_selfListed]
    rfl
  have address : forall dir, dir < (selfListed.withEntry 0 ['a'] .dir).next -> dir = 0 ∨ dir = 1 := by
    intro dir bound
    change dir < 2 at bound
    omega
  constructor
  case root =>
    refine ⟨0, ?_, ?_⟩
    · rw [hash]
      decide
    · rw [top]
      rfl
  case hash =>
    intro inum ip found
    change ip < 2
    rw [hash] at found
    rcases update_eq_some found with ⟨_, same⟩ | ⟨_, before⟩
    · omega
    · exact Nat.lt_succ_of_lt (old.hash inum ip before)
  case cached =>
    intro dir name ip bound known
    rcases address dir bound with here | here
    · rw [here, top] at known
      cases known
    · rw [here] at known
      change ((selfListed.withEntry 0 ['a'] .dir).inode selfListed.next).deCache name = _ at known
      rw [below] at known
      cases known
  case read =>
    intro dir bound _ unread
    rcases address dir bound with here | here
    · rw [here, top] at unread
      exact absurd unread.1 (Nat.lt_irrefl 0)
    · rw [here] at unread
      change ((selfListed.withEntry 0 ['a'] .dir).inode selfListed.next).Unread at unread
      rw [below] at unread
      exact absurd unread.1 (Nat.lt_irrefl 0)
  case tree =>
    intro dir bound _
    rcases address dir bound with here | here
    · rw [here, top]
      refine ⟨Function.update (Function.update (fun _ => none) ['.'] (some ⟨.ondisk, rootIno, .dir⟩))
        ['a'] (some ⟨.addden, 256, .dir⟩), rfl, fun _ _ onDisk => absurd onDisk (Nat.lt_irrefl 0), ?_⟩
      intro name uden entered _ _
      rcases update_eq_some entered with ⟨_, same⟩ | ⟨_, before⟩
      · rw [same]
        refine ⟨1, ?_, ?_⟩
        · rw [hash]
          exact Function.update_self ..
        · change ((selfListed.withEntry 0 ['a'] .dir).inode selfListed.next).deleting = _ ∧
            ((selfListed.withEntry 0 ['a'] .dir).inode selfListed.next).itype = _
          rw [below]
          exact ⟨rfl, rfl⟩
      rcases update_eq_some before with ⟨_, same⟩ | ⟨_, none⟩
      · rw [same]
        refine ⟨0, ?_, ?_⟩
        · rw [hash]
          decide
        · rw [top]
          exact ⟨rfl, rfl⟩
      · cases none
    · rw [here]
      change Exists fun tree => ((selfListed.withEntry 0 ['a'] .dir).inode
        selfListed.next).dentryTree = some tree ∧ _
      rw [below]
      refine ⟨fun _ => none, rfl, fun _ _ onDisk => absurd onDisk (Nat.lt_irrefl 0), ?_⟩
      intro _ _ none
      cases none

/-- The path `/a/b` in a tree that lists the root directory as well: the walk ends at `a`,
which is not in the name table. -/
theorem namex_folds_lookups_parent :
    Ensures (namex (mountpoint ++ ['/', 'a', '/', 'b']) true) (selfListed.withEntry 0 ['a'] .dir)
      (fun found next => found = some (1, ['b']) ∧
        RefTaken (selfListed.withEntry 0 ['a'] .dir) next (found.map Prod.fst))
      (fun _ _ => False) := by
  rcases (@namex_folds_lookups _ inMemory_withEntry_selfListed ['a', '/', 'b'] (by decide)).2 with
    ⟨root, found, _, walked⟩
  have atRoot : (selfListed.withEntry 0 ['a'] .dir).inodeHash rootIno = some 0 := by decide +kernel
  rw [atRoot] at found
  cases found
  have parent : (selfListed.withEntry 0 ['a'] .dir).walkParent 0 (elements ['a', '/', 'b']) =
      some (1, ['b']) := by decide +kernel
  have clear : (selfListed.withEntry 0 ['a'] .dir).Clear 0 (elements ['a', '/', 'b']).dropLast := by
    decide +kernel
  rw [parent] at walked
  exact walked.mpr clear

/-- The path `/.`: the mutex of the root directory is held when its entry is looked up, and
the call does not return. -/
theorem self_entry_deadlocks :
    InMemory selfListed ∧
      Ensures (namex (mountpoint ++ ['/', '.']) false) selfListed (fun _ _ => False)
        (fun fault _ => fault = .deadlock) :=
  ⟨inMemory_selfListed, by decide +kernel⟩

end Userfs.Filesystem
