import Userfs.Filesystem.Names

namespace Userfs.Filesystem

/-!
# The path cache

`dlookup_hash` remembers the inode of a whole path string.  It is meant to agree with
the walk `namex` through the directories, which is the meaning of a path.  The
invariant `Coherent` says that every remembered path is one whose walk is in memory
and ends at the remembered inode; lookups and creations keep it, and a removal keeps
it when the path it names is the only one that is remembered for the inode.
-/

/-- The elements of a path behind the mount point. -/
def below (path : List Char) : List Name :=
  elements (path.drop mountpoint.length)

/-- A path under the mount point whose elements fit into a name buffer. -/
def Spelled (path : List Char) : Prop :=
  (mountpoint ++ ['/']) <+: path ∧ forall element, element ∈ below path -> element.length < dirsiz

instance (path : List Char) : Decidable (Spelled path) :=
  inferInstanceAs (Decidable (_ ∧ _))

/-- The remembered paths are walks in memory. -/
structure Coherent (ns : Namespace) : Prop extends Names ns where
  mount : ns.dlookupHash mountpoint = some 0
  paths : forall path ip, ns.dlookupHash path = some ip -> path ≠ mountpoint ->
    Spelled path ∧ ns.resolve 0 (below path) = some ip

/-! ## Path strings -/

section Strings

variable {path : List Char}

theorem Spelled.exists_rest (spelled : Spelled path) :
    Exists fun rest => path = mountpoint ++ '/' :: rest ∧ below path = elements rest := by
  rcases spelled.1 with ⟨rest, split⟩
  have split : path = mountpoint ++ '/' :: rest := by
    rw [← split]
    simp
  refine ⟨rest, split, ?_⟩
  rw [below, split, List.drop_left, elements_slash]

theorem below_mounted (rest : List Char) : below (mountpoint ++ '/' :: rest) = elements rest := by
  rw [below, List.drop_left, elements_slash]

theorem spelled_mounted {rest : List Char}
    (short : forall element, element ∈ elements rest -> element.length < dirsiz) :
    Spelled (mountpoint ++ '/' :: rest) := by
  constructor
  · exact ⟨rest, by simp⟩
  · rw [below_mounted]
    exact short

theorem Spelled.ne_mountpoint (spelled : Spelled path) : path ≠ mountpoint := by
  rcases spelled.exists_rest with ⟨rest, split, _⟩
  intro same
  rw [same] at split
  have length := congrArg List.length split
  rw [List.length_append, List.length_cons] at length
  omega

theorem stripMountpoint_mounted (rest : List Char) :
    stripMountpoint (mountpoint ++ '/' :: rest) = '/' :: rest := by
  have isPrefix : mountpoint.isPrefixOf (mountpoint ++ '/' :: rest) = true :=
    List.isPrefixOf_iff_prefix.mpr ⟨_, rfl⟩
  rw [stripMountpoint, if_pos isPrefix, List.drop_left]

/-- The parent string and the name that `get_parent_path` returns for a path with
elements. -/
theorem Spelled.getParentPath (spelled : Spelled path) {front : List Name} {last : Name}
    (split : below path = front ++ [last]) (plain : ¬ ZeroEnd path) :
    Exists fun parent => Userfs.getParentPath path = some (parent, last) ∧
      parent.length ≤ path.length ∧
      ((parent = mountpoint ∧ front = []) ∨ (Spelled parent ∧ below parent = front)) := by
  rcases spelled.exists_rest with ⟨rest, whole, inner⟩
  have some : elements rest ≠ [] := by
    rw [← inner, split]
    simp
  rcases exists_lastElement some with ⟨parent, slashes, element, tail, ending, start⟩
  -- the mount point does not end with a slash either
  have mounted : LastElement path (mountpoint ++ parent) slashes element tail := by
    constructor
    case split =>
      rw [whole, ending.split]
      simp
    case parentEnd =>
      intro others equal
      rw [List.reverse_append] at equal
      cases backwards : parent.reverse with
      | nil =>
          rw [backwards, List.nil_append] at equal
          cases equal
      | cons char others =>
          rw [backwards, List.cons_append] at equal
          apply ending.parentEnd others
          rw [backwards, (List.cons.inj equal).1]
    case separated => exact ending.separated
    case slashes => exact ending.slashes
    case nonempty => exact ending.nonempty
    case solid => exact ending.solid
    case tail => exact ending.tail
  have cut := ending.elements_eq
  rw [elements_slash, ← inner, split] at cut
  rcases List.append_inj' cut rfl with ⟨frontEq, lastEq⟩
  have lastEq : last = element := List.singleton_inj.mp lastEq
  have short : element.length < dirsiz := by
    apply spelled.2
    rw [split, lastEq]
    simp
  refine ⟨mountpoint ++ parent, ?_, ?_, ?_⟩
  · rw [mounted.getParentPath_eq plain, List.take_of_length_le (Nat.le_of_lt short), lastEq]
  · rw [mounted.split]
    simp only [List.length_append]
    omega
  · rcases start with empty | ⟨behind, slash⟩
    · refine Or.inl ⟨?_, ?_⟩
      · rw [empty, List.append_nil]
      · rw [frontEq, empty]
        rfl
    · have inside : elements behind = front := by
        rw [frontEq, slash, elements_slash]
      refine Or.inr ?_
      rw [slash]
      refine ⟨spelled_mounted ?_, ?_⟩
      · intro other member
        apply spelled.2
        rw [split, ← inside]
        exact List.mem_append_left _ member
      · rw [below_mounted, inside]

end Strings

/-! ## Walks with references -/

/-- A number of references more on one inode. -/
def Namespace.addRef (ns : Namespace) (ip : Nat) (step : Int) : Namespace :=
  ns.update ip (fun inode => { inode with iRef := inode.iRef + step })

section Exact

variable {ns : Namespace} {ip : Nat} {failed : Fault -> Namespace -> Prop}

theorem addRef_inode_iRef (ns : Namespace) (ip other : Nat) (step : Int) :
    (ns.addRef ip step).inode other =
      { ns.inode other with
        iRef := (ns.inode other).iRef + if other = ip then step else 0 } := by
  by_cases here : other = ip
  · rw [here, Namespace.addRef, update_inode_self, if_pos rfl]
  · rw [Namespace.addRef, update_inode_other ns _ here, if_neg here, Int.add_zero]

/-- A reference moves from a directory to its child. -/
theorem addRef_move (ns : Namespace) (ip child : Nat) :
    ((ns.addRef ip 1).update child (fun inode => { inode with iRef := inode.iRef + 1 })).update ip
      (fun inode => { inode with iRef := inode.iRef - 1 }) = ns.addRef child 1 := by
  have moved : forall other,
      (((ns.addRef ip 1).addRef child 1).addRef ip (-1)).inode other = (ns.addRef child 1).inode other := by
    intro other
    simp only [addRef_inode_iRef]
    congr 1
    split <;> omega
  have same := funext moved
  simp only [Namespace.addRef, Namespace.update] at same ⊢
  simp only [Int.sub_eq_add_neg]
  rw [same]

theorem Names.root_alive (names : Names ns) : 0 < ns.next ∧ (ns.inode 0).deleting = false := by
  have found := names.hash rootIno 0 names.root
  refine ⟨found.1, ((names.well 0 found.1).ondisk ?_).1⟩
  rw [found.2]
  exact ns.kernel.reserved_root

theorem Names.ensures_iget_root (names : Names ns) {done : Option Nat -> Namespace -> Prop} :
    Ensures (iget rootIno) ns done failed <-> done (some 0) (ns.addRef 0 1) := by
  simp only [iget, igetHolding, Ensures.bind_iff, Ensures.get_iff, names.root, names.root_alive.2,
    Bool.false_eq_true, reduceCtorEq, if_false, takeRef, ensures_onInode, Ensures.pure_iff]
  rfl

/-- One round of the walk that stays in memory. -/
theorem ensures_lookupHolding_known {holder : Option Nat} {dir child : Nat} {name : Name}
    {done : Option Nat -> Namespace -> Prop} (isDir : (ns.inode dir).itype = .dir)
    (edge : (ns.inode dir).deCache name = some child) :
    Ensures (lookupHolding holder dir name) ns done failed <->
      done (some child) (ns.update child (fun inode => { inode with iRef := inode.iRef + 1 })) := by
  simp only [lookupHolding, Ensures.bind_iff, ensures_nsInode, isDir, ne_eq, not_true_eq_false, if_false,
    edge, takeRef, ensures_onInode, Ensures.pure_iff]

/-- The walk of `namex` where all names are in memory: it ends at the inode, and its
reference is the only change. -/
theorem namexLoop_resolves {rounds target : Nat} {path : List Char} {name : Name}
    (short : forall element, element ∈ elements path -> element.length < dirsiz)
    (walk : ns.resolve ip (elements path) = some target) (enough : path.length < rounds) :
    Ensures (namexLoop false rounds ip path name) (ns.addRef ip 1)
      (fun found next => (Exists fun last => found = some (target, last)) ∧
        next = ns.addRef target 1)
      (fun _ _ => False) := by
  induction rounds generalizing ip path name with
  | zero => exact absurd enough (Nat.not_lt_zero _)
  | succ rounds ih =>
      rw [namexLoop]
      cases cut : getNextName path with
      | none =>
          rw [getNextName_eq_none.mp cut] at walk
          cases walk
          simp only [Bool.false_eq_true, if_false, Ensures.pure_iff]
          exact ⟨⟨name, rfl⟩, trivial⟩
      | some pair =>
          have first := getNextName_short cut short
          rw [first.elements] at walk short
          rcases resolve_cons.mp walk with ⟨isDir, child, edge, later⟩
          have here := addRef_inode_iRef ns ip ip 1
          have isDir' : ((ns.addRef ip 1).inode ip).itype = .dir := by
            rw [here]
            exact isDir
          have edge' : ((ns.addRef ip 1).inode ip).deCache pair.1 = some child := by
            rw [here]
            exact edge
          simp only [Ensures.bind_iff, ensures_nsInode, isDir', ne_eq, not_true_eq_false, if_false,
            Bool.false_eq_true, false_and, ensures_lookupHolding_known isDir' edge', iput,
            ensures_onInode, addRef_move]
          have shorter := first.shorter
          exact ih (fun other member => short other (List.mem_cons_of_mem _ member)) later (by omega)

/-- The same walk up to the parent. -/
theorem namexLoop_resolves_parent {rounds dir : Nat} {path : List Char} {name last : Name}
    {front : List Name} (split : elements path = front ++ [last])
    (short : forall element, element ∈ elements path -> element.length < dirsiz)
    (walk : ns.resolve ip front = some dir) (isDir : (ns.inode dir).itype = .dir)
    (enough : path.length < rounds) :
    Ensures (namexLoop true rounds ip path name) (ns.addRef ip 1)
      (fun found next => found = some (dir, last) ∧ next = ns.addRef dir 1)
      (fun _ _ => False) := by
  induction rounds generalizing ip path name front with
  | zero => exact absurd enough (Nat.not_lt_zero _)
  | succ rounds ih =>
      rw [namexLoop]
      cases cut : getNextName path with
      | none =>
          rw [getNextName_eq_none.mp cut] at split
          simp at split
      | some pair =>
          have first := getNextName_short cut short
          have here := addRef_inode_iRef ns ip ip 1
          cases front with
          | nil =>
              -- one element is left: the walk stops before it
              cases walk
              rw [first.elements, List.nil_append] at split
              rcases List.cons.inj split with ⟨elementEq, restEq⟩
              have isDir' : ((ns.addRef dir 1).inode dir).itype = .dir := by
                rw [here]
                exact isDir
              simp only [Ensures.bind_iff, ensures_nsInode, isDir', ne_eq, not_true_eq_false,
                if_false, first.last.mpr restEq, and_self, if_true, Ensures.pure_iff, elementEq]
          | cons head front =>
              rcases resolve_cons.mp walk with ⟨headDir, child, edge, later⟩
              rw [first.elements] at split short
              rcases List.cons.inj split with ⟨elementEq, restEq⟩
              have more : pair.2 ≠ [] := by
                intro empty
                have none := first.last.mp empty
                rw [restEq] at none
                simp at none
              have isDir' : ((ns.addRef ip 1).inode ip).itype = .dir := by
                rw [here]
                exact headDir
              have edge' : ((ns.addRef ip 1).inode ip).deCache pair.1 = some child := by
                rw [here, elementEq]
                exact edge
              simp only [Ensures.bind_iff, ensures_nsInode, isDir', ne_eq, not_true_eq_false,
                if_false, more, and_false, ensures_lookupHolding_known isDir' edge', iput,
                ensures_onInode, addRef_move]
              have shorter := first.shorter
              exact ih restEq (fun other member => short other (List.mem_cons_of_mem _ member)) later
                (by omega)

/-- `namex` on a path that is in memory. -/
theorem Names.namex_resolves (names : Names ns) {path : List Char} {target : Nat}
    (spelled : Spelled path) (walk : ns.resolve 0 (below path) = some target) :
    Ensures (namex path false) ns
      (fun found next => (Exists fun last => found = some (target, last)) ∧
        next = ns.addRef target 1)
      (fun _ _ => False) := by
  rcases spelled.exists_rest with ⟨rest, split, inner⟩
  have short := spelled.2
  rw [inner] at walk short
  rw [namex, split, stripMountpoint_mounted]
  simp only [Ensures.bind_iff, names.ensures_iget_root]
  apply namexLoop_resolves
  · rw [elements_slash]
    exact short
  · rw [elements_slash]
    exact walk
  · rw [List.length_cons]
    omega

theorem Names.namex_resolves_parent (names : Names ns) {path : List Char} {dir : Nat} {last : Name}
    {front : List Name} (spelled : Spelled path) (split : below path = front ++ [last])
    (walk : ns.resolve 0 front = some dir) (isDir : (ns.inode dir).itype = .dir) :
    Ensures (namex path true) ns
      (fun found next => found = some (dir, last) ∧ next = ns.addRef dir 1)
      (fun _ _ => False) := by
  rcases spelled.exists_rest with ⟨rest, whole, inner⟩
  have short := spelled.2
  rw [inner] at split short
  rw [namex, whole, stripMountpoint_mounted]
  simp only [Ensures.bind_iff, names.ensures_iget_root]
  refine namexLoop_resolves_parent (by rw [elements_slash]; exact split) ?_ walk isDir ?_
  · rw [elements_slash]
    exact short
  · rw [List.length_cons]
    omega

end Exact

/-! ## Walks that load what is missing -/

section Loading

variable {ns : Namespace} {ip : Nat}

/-- The walk of `namex`: afterwards the path is in memory. -/
theorem namexLoop_visits (names : Names ns) (bound : ip < ns.next) (parent : Bool) (rounds : Nat)
    {path : List Char} (name : Name)
    (short : forall element, element ∈ elements path -> element.length < dirsiz) :
    Ensures (namexLoop parent rounds ip path name) ns
      (fun found next => Visited ns next ∧ forall target last, found = some (target, last) ->
        (parent = false -> next.resolve ip (elements path) = some target) ∧
        (parent = true -> (next.inode target).itype = .dir ∧ Exists fun front =>
          elements path = front ++ [last] ∧ next.resolve ip front = some target))
      (fun _ _ => True) := by
  induction rounds generalizing ns ip path name with
  | zero => exact Ensures.throw_iff.mpr trivial
  | succ rounds ih =>
      rw [namexLoop]
      cases cut : getNextName path with
      | none =>
          have empty := getNextName_eq_none.mp cut
          simp only [iput, Ensures.ite_iff, Ensures.bind_iff, ensures_onInode, Ensures.pure_iff]
          split
          · exact ⟨names.visit_refs _, fun _ _ impossible => by cases impossible⟩
          case isFalse whole =>
            refine ⟨Visited.refl names, ?_⟩
            intro target last same
            cases same
            rw [empty]
            exact ⟨fun _ => rfl, fun isParent => absurd isParent whole⟩
      | some pair =>
          have first := getNextName_short cut short
          rw [first.elements] at short ⊢
          simp only [iput, Ensures.bind_iff, ensures_nsInode, Ensures.ite_iff, ensures_onInode,
            Ensures.pure_iff]
          split
          · exact ⟨names.visit_refs _, fun _ _ impossible => by cases impossible⟩
          rename_i isDir
          split
          case isTrue stop =>
            refine ⟨Visited.refl names, ?_⟩
            intro target last same
            cases same
            refine ⟨fun isChild => ?_, fun _ => ⟨not_not.mp isDir, [], ?_, rfl⟩⟩
            · rw [stop.1] at isChild
              cases isChild
            · rw [first.last.mp stop.2]
              rfl
          · refine (lookupHolding_visits names (some ip) bound).mono ?_ (fun _ _ fault => fault)
            rintro found next ⟨visited, isDir, edge⟩
            have dropped : Visited next (next.update ip (fun inode =>
                { inode with iRef := inode.iRef - 1 })) := visited.names.visit_refs _
            have inside := Nat.lt_of_lt_of_le bound visited.bound
            cases found with
            | none =>
                exact Ensures.pure_iff.mpr
                  ⟨visited.trans dropped, fun _ _ impossible => by cases impossible⟩
            | some child =>
                have known := edge child rfl
                have childBound := visited.names.cached ip pair.1 child inside known
                refine (ih dropped.names childBound pair.1
                  (fun other member => short other (List.mem_cons_of_mem _ member))).mono ?_
                  (fun _ _ fault => fault)
                rintro result last ⟨later, result'⟩
                have rest := dropped.trans later
                have all := visited.trans rest
                -- the first step is still in memory at the end
                have step : forall path target, last.resolve child path = some target ->
                    last.resolve ip (pair.1 :: path) = some target := by
                  intro path target walk
                  apply resolve_cons.mpr
                  exact ⟨(all.itype ip bound).trans isDir, child,
                    rest.edges ip pair.1 child inside known, walk⟩
                refine ⟨all, ?_⟩
                intro target final same
                have reached := result' target final same
                refine ⟨fun isChild => step _ _ (reached.1 isChild), ?_⟩
                intro isParent
                rcases reached.2 isParent with ⟨targetDir, front, split, walk⟩
                exact ⟨targetDir, pair.1 :: front, by rw [split]; rfl, step front target walk⟩

theorem namex_visits (names : Names ns) {path : List Char} (spelled : Spelled path)
    (parent : Bool) :
    Ensures (namex path parent) ns
      (fun found next => Visited ns next ∧ forall target last, found = some (target, last) ->
        (parent = false -> next.resolve 0 (below path) = some target) ∧
        (parent = true -> (next.inode target).itype = .dir ∧ Exists fun front =>
          below path = front ++ [last] ∧ next.resolve 0 front = some target))
      (fun _ _ => True) := by
  rcases spelled.exists_rest with ⟨rest, split, inner⟩
  have short := spelled.2
  rw [inner] at short ⊢
  rw [namex, split, stripMountpoint_mounted]
  simp only [Ensures.bind_iff, names.ensures_iget_root]
  have taken : Visited ns (ns.addRef 0 1) := names.visit_refs _
  have walk := @namexLoop_visits (ns.addRef 0 1) 0 taken.names names.root_alive.1 parent
    (rest.length + 2) ('/' :: rest) [] (by rw [elements_slash]; exact short)
  refine walk.mono ?_ (fun _ _ fault => fault)
  rintro found next ⟨visited, reached⟩
  rw [elements_slash] at reached
  exact ⟨taken.trans visited, reached⟩

end Loading

/-! ## Keeping the paths coherent -/

section Paths

variable {ns next : Namespace} {ip : Nat} {path : List Char}

/-- A change that takes nothing away and leaves the path cache alone. -/
theorem Coherent.carry (coherent : Coherent ns) (names : Names next) (grows : Grows ns next)
    (paths : next.dlookupHash = ns.dlookupHash) : Coherent next where
  toNames := names
  mount := by
    rw [paths]
    exact coherent.mount
  paths := by
    intro path ip found other
    rw [paths] at found
    have before := coherent.paths path ip found other
    exact ⟨before.1, grows.resolve coherent.toLinked coherent.root_alive.1 before.2⟩

theorem Coherent.visit (coherent : Coherent ns) (visited : Visited ns next) : Coherent next :=
  coherent.carry visited.names visited.toGrows visited.paths

theorem Names.setPaths (names : Names ns) {table : List Char -> Option Nat}
    (bound : forall path ip, table path = some ip -> ip < ns.next) :
    Names { ns with dlookupHash := table } where
  hash := names.hash
  lookup := bound
  cached := names.cached
  reserved := names.reserved
  root := names.root
  well := fun dir inside => (names.well dir inside).transport { ns with dlookupHash := table } rfl
    (fun name ip edge => ⟨(names.well dir inside).live name ip edge, rfl⟩)
  unique := names.unique

theorem Lookup.setPaths (ns : Namespace) (table : List Char -> Option Nat) :
    Lookup ns { ns with dlookupHash := table } where
  kernel := rfl
  bound := Nat.le_refl _
  inum := fun _ _ => rfl
  itype := fun _ _ => rfl
  edges := fun _ _ _ _ edge => edge
  listed := fun _ _ _ bound edge => Or.inl ⟨bound, edge⟩

/-- A path is remembered whose walk is in memory. -/
theorem Coherent.enter (coherent : Coherent ns) (spelled : Spelled path)
    (walk : ns.resolve 0 (below path) = some ip) :
    Coherent { ns with dlookupHash := Function.update ns.dlookupHash path (some ip) } := by
  have bound := coherent.resolve_bound coherent.root_alive.1 walk
  have grows := (Lookup.setPaths ns (Function.update ns.dlookupHash path (some ip))).toGrows
  constructor
  case toNames =>
    apply coherent.toNames.setPaths
    intro other target found
    rcases update_eq_some found with ⟨_, same⟩ | ⟨_, before⟩
    · rw [same]
      exact bound
    · exact coherent.lookup other target before
  case mount =>
    change Function.update ns.dlookupHash path (some ip) mountpoint = some 0
    rw [Function.update_of_ne (Ne.symm spelled.ne_mountpoint)]
    exact coherent.mount
  case paths =>
    intro other target found different
    have step := fun path target => @Grows.resolve ns _ 0 target path grows coherent.toLinked
      coherent.root_alive.1
    rcases update_eq_some found with ⟨here, same⟩ | ⟨_, before⟩
    · rw [here, same]
      exact ⟨spelled, step _ _ walk⟩
    · have known := coherent.paths other target before different
      exact ⟨known.1, step _ _ known.2⟩

/-- A path other than the mount point is forgotten. -/
theorem Coherent.forget (coherent : Coherent ns) (other : path ≠ mountpoint) :
    Coherent { ns with dlookupHash := Function.update ns.dlookupHash path none } := by
  have grows := (Lookup.setPaths ns (Function.update ns.dlookupHash path none)).toGrows
  have old : forall key target, Function.update ns.dlookupHash path none key = some target ->
      ns.dlookupHash key = some target := by
    intro key target found
    by_cases here : key = path
    · rw [here, Function.update_self] at found
      cases found
    · rw [Function.update_of_ne here] at found
      exact found
  constructor
  case toNames =>
    exact coherent.toNames.setPaths (fun key target found => coherent.lookup key target (old key target found))
  case mount =>
    change Function.update ns.dlookupHash path none mountpoint = some 0
    rw [Function.update_of_ne (Ne.symm other)]
    exact coherent.mount
  case paths =>
    intro key target found different
    have known := coherent.paths key target (old key target found) different
    exact ⟨known.1, grows.resolve coherent.toLinked coherent.root_alive.1 known.2⟩

/-- An inode at the end of a walk is not being deleted. -/
theorem Names.resolve_alive (names : Names ns) {elements : List Name}
    (walk : ns.resolve 0 elements = some ip) : (ns.inode ip).deleting = false := by
  rcases List.eq_nil_or_concat elements with empty | ⟨front, last, split⟩
  · rw [empty] at walk
    cases walk
    exact names.root_alive.2
  · rw [split, List.concat_eq_append, resolve_concat] at walk
    rcases walk with ⟨parent, before, _, edge⟩
    exact (names.well parent (names.resolve_bound names.root_alive.1 before)).live last ip edge

/-- Remembered inodes are not being deleted. -/
theorem Coherent.alive (coherent : Coherent ns) (found : ns.dlookupHash path = some ip) :
    (ns.inode ip).deleting = false := by
  by_cases here : path = mountpoint
  · rw [here, coherent.mount] at found
    cases found
    exact coherent.root_alive.2
  · exact coherent.resolve_alive (coherent.paths path ip found here).2

theorem dlookupAllocAdd_coherent (coherent : Coherent ns) (spelled : Spelled path)
    (walk : ns.resolve 0 (below path) = some ip) :
    Ensures (dlookupAllocAdd ip path) ns (fun _ next => Coherent next ∧ Lookup ns next)
      (fun _ _ => True) := by
  rw [ensures_dlookupAllocAdd]
  split
  · trivial
  · exact ⟨coherent.enter spelled walk, Lookup.setPaths ns _⟩

theorem namei_coherent (coherent : Coherent ns) (spelled : Spelled path) :
    Ensures (namei path) ns
      (fun found next => Coherent next ∧ Lookup ns next ∧
        forall ip, found = some ip -> next.resolve 0 (below path) = some ip)
      (fun _ _ => True) := by
  rw [namei, Ensures.bind_iff, Ensures.get_iff]
  cases known : ns.dlookupHash path with
  | some ip =>
      simp only [coherent.alive known, Bool.false_eq_true, if_false, takeRef, Ensures.bind_iff,
        ensures_onInode, Ensures.pure_iff]
      have taken : Visited ns (ns.update ip (fun inode => { inode with iRef := inode.iRef + 1 })) :=
        coherent.toNames.visit_refs _
      refine ⟨coherent.visit taken, taken.toLookup, ?_⟩
      intro other same
      cases same
      exact ((coherent.visit taken).paths path ip known spelled.ne_mountpoint).2
  | none =>
      rw [Ensures.bind_iff]
      refine (namex_visits coherent.toNames spelled false).mono ?_ (fun _ _ fault => fault)
      rintro found next ⟨visited, reached⟩
      have kept := coherent.visit visited
      cases found with
      | none =>
          exact Ensures.pure_iff.mpr ⟨kept, visited.toLookup, fun _ impossible => by cases impossible⟩
      | some result =>
          have walk := (reached result.1 result.2 rfl).1 rfl
          simp only [Ensures.bind_iff, Ensures.pure_iff]
          refine (dlookupAllocAdd_coherent kept spelled walk).mono ?_ (fun _ _ fault => fault)
          rintro _ last ⟨after, entered⟩
          refine ⟨after, visited.toLookup.trans entered kept.toLinked, ?_⟩
          intro other same
          cases same
          exact entered.resolve kept.toLinked kept.root_alive.1 walk

/-- A remembered parent is at the end of the walk to it. -/
theorem Coherent.remembered (coherent : Coherent ns) {parent : List Char} {front : List Name}
    {dir : Nat} (known : ns.dlookupHash parent = some dir)
    (kind : (parent = mountpoint ∧ front = []) ∨ (Spelled parent ∧ below parent = front)) :
    ns.resolve 0 front = some dir := by
  rcases kind with ⟨mount, empty⟩ | ⟨spelled, inner⟩
  · rw [mount, coherent.mount] at known
    cases known
    rw [empty]
    rfl
  · rw [← inner]
    exact (coherent.paths parent dir known spelled.ne_mountpoint).2

/-- `nameiparent` returns the inode before the last element.  It is a directory if the
walk finds it, and otherwise what the path cache has. -/
theorem nameiparent_coherent (coherent : Coherent ns) (spelled : Spelled path) {front : List Name}
    {last : Name} (split : below path = front ++ [last]) (plain : ¬ ZeroEnd path) :
    Ensures (nameiparent path) ns
      (fun found next => Coherent next ∧ Lookup ns next ∧
        forall dir name, found = some (dir, name) ->
          name = last ∧ next.resolve 0 front = some dir ∧
            (ParentDirectory ns path -> (next.inode dir).itype = .dir))
      (fun _ _ => True) := by
  rcases spelled.getParentPath split plain with ⟨parent, cut, _, kind⟩
  simp only [nameiparent, cut, Ensures.bind_iff, Ensures.get_iff]
  cases known : ns.dlookupHash parent with
  | some dir =>
      simp only [coherent.alive known, Bool.false_eq_true, if_false, takeRef, Ensures.bind_iff,
        ensures_onInode, Ensures.pure_iff]
      have taken : Visited ns (ns.update dir (fun inode => { inode with iRef := inode.iRef + 1 })) :=
        coherent.toNames.visit_refs _
      refine ⟨coherent.visit taken, taken.toLookup, ?_⟩
      intro other name same
      cases same
      refine ⟨rfl, taken.resolve coherent.toLinked coherent.root_alive.1
        (coherent.remembered known kind), ?_⟩
      intro directories
      rw [taken.itype dir (coherent.lookup parent dir known)]
      exact directories (parent, last) cut dir known
  | none =>
      rw [Ensures.bind_iff]
      refine (namex_visits coherent.toNames spelled true).mono ?_ (fun _ _ fault => fault)
      rintro found next ⟨visited, reached⟩
      have kept := coherent.visit visited
      cases found with
      | none =>
          exact Ensures.pure_iff.mpr
            ⟨kept, visited.toLookup, fun _ _ impossible => by cases impossible⟩
      | some result =>
          rcases (reached result.1 result.2 rfl).2 rfl with ⟨isDir, walked, walkSplit, walk⟩
          rw [split] at walkSplit
          rcases List.append_inj' walkSplit rfl with ⟨frontEq, lastEq⟩
          rw [← frontEq] at walk
          have lastEq : last = result.2 := List.singleton_inj.mp lastEq
          simp only [Ensures.bind_iff, Ensures.pure_iff]
          -- the parent is not remembered, so it is not the mount point
          have below : Spelled parent ∧ next.resolve 0 (below parent) = some result.1 := by
            rcases kind with ⟨mount, _⟩ | ⟨parentSpelled, inner⟩
            · rw [mount, coherent.mount] at known
              cases known
            · rw [inner]
              exact ⟨parentSpelled, walk⟩
          refine (dlookupAllocAdd_coherent kept below.1 below.2).mono ?_ (fun _ _ fault => fault)
          rintro _ final ⟨after, entered⟩
          refine ⟨after, visited.toLookup.trans entered kept.toLinked, ?_⟩
          intro dir name same
          cases same
          refine ⟨lastEq.symm, entered.resolve kept.toLinked kept.root_alive.1 walk, fun _ => ?_⟩
          have bound := kept.resolve_bound kept.root_alive.1 walk
          exact (entered.itype result.1 bound).trans isDir

end Paths

end Userfs.Filesystem
