import Userfs.Filesystem.Creation
import Userfs.Filesystem.Unlink

namespace Userfs.Filesystem

/-!
# Runs of calls by path

The calls of a session, each with the condition under which it keeps the path cache
coherent.  Four slips of the code have to be kept out: a removal forgets only the
spelling it was called with, a last element of zeros makes `get_parent_path` return the
wrong parent, an inode made for an entry on disk takes its type from the caller and
its flags from fresh memory, and a name is created below a regular file if the path
cache knows the file.
-/

/-- A path with a last element that `get_parent_path` finds. -/
structure Proper (path : List Char) : Prop where
  spelled : Spelled path
  some : below path ≠ []
  plain : ¬ ZeroEnd path

/-- The parent is a directory, and the kernel agrees with the type of what is created. -/
def Creatable (ns : Namespace) (path : List Char) (type : FileType) : Prop :=
  Proper path ∧ ParentDirectory ns path ∧
    forall front last, below path = front ++ [last] -> ns.kernel.Admits last type

/-- The parent is in memory, and neither memory nor the kernel has the last name. -/
structure Missing (ns : Namespace) (path : List Char) (front : List Name) (last : Name)
    (dir : Nat) : Prop where
  split : below path = front ++ [last]
  walk : ns.resolve 0 front = some dir
  isDir : (ns.inode dir).itype = .dir
  unnamed : (ns.inode dir).deCache last = none
  unlisted : forall ino, ¬ ns.kernel.Lists last ino

/-- The path leads to a file of the session that is remembered under no other path, or
to nothing. -/
def Unlinkable (ns : Namespace) (path : List Char) : Prop :=
  Proper path ∧ Exists fun front => Exists fun last => Exists fun dir =>
    (Exists fun ip => Removable ns path front last dir ip ∧ Sole ns path ip) ∨
      Missing ns path front last dir

/-- The calls that keep the path cache coherent, in the state they are made in. -/
def Call.Orderly : Call -> Namespace -> Prop
  | .open path flags, ns => Spelled path ∧ (flags.creat = true -> Creatable ns path .file)
  | .close _, _ => True
  | .access _, _ => False
  | .stat _, _ => False
  | .fstat _, _ => False
  | .truncate _ _, _ => False
  | .ftruncate _ _, _ => False
  | .mkdir path, ns => Creatable ns path .dir
  | .lookup path, _ => Spelled path
  | .unlink path, ns => Unlinkable ns path
  | .rename oldpath newpath, _ => Proper oldpath ∧ Proper newpath

section Calls

variable {ns : Namespace} {path : List Char}

theorem Proper.exists_split (proper : Proper path) :
    Exists fun front => Exists fun last => below path = front ++ [last] := by
  rcases List.eq_nil_or_concat (below path) with empty | ⟨front, last, split⟩
  · exact absurd empty proper.some
  · rw [List.concat_eq_append] at split
    exact ⟨front, last, split⟩

/-- The file table does not matter for names. -/
theorem Coherent.setFiles (coherent : Coherent ns) (files : Nat -> OpenFile) :
    Coherent { ns with openFiles := files } := by
  refine coherent.carry ?_ ⟨rfl, Nat.le_refl _, fun _ _ => rfl, fun _ _ => rfl,
    fun _ _ _ _ edge => edge⟩ rfl
  constructor
  case toLinked => exact ⟨coherent.hash, coherent.lookup, coherent.cached, coherent.reserved⟩
  case root => exact coherent.root
  case well =>
    intro dir bound
    have well := coherent.well dir bound
    exact well.transport { ns with openFiles := files } rfl
      (fun name ip edge => ⟨well.live name ip edge, rfl⟩)
  case unique => exact coherent.unique

theorem Coherent.copyFilename (coherent : Coherent ns) (path : List Char) :
    Coherent (ns.copyFilename path) := by
  unfold Namespace.copyFilename
  split
  · exact coherent
  · exact coherent.setFiles _

theorem installFile_coherent (coherent : Coherent ns) (ip : Nat) (directory : Bool)
    (path : List Char) :
    Ensures (installFile ip directory path) ns (fun _ next => Coherent next) (fun _ _ => True) := by
  rw [installFile, Ensures.bind_iff, Ensures.get_iff]
  cases freeFile ns.openFiles gMaxOpenFiles 0 with
  | none =>
      simp only [iput, Ensures.bind_iff, ensures_onInode, Ensures.pure_iff]
      exact coherent.visit (coherent.toNames.visit_refs _)
  | some index =>
      simp only [Ensures.bind_iff, Ensures.modify_iff, Ensures.pure_iff]
      exact (coherent.setFiles _).copyFilename path

theorem posixOpen_coherent (coherent : Coherent ns) {flags : OpenFlags} (spelled : Spelled path)
    (creatable : flags.creat = true -> Creatable ns path .file) :
    Ensures (posixOpen path flags) ns (fun _ next => Coherent next) (fun _ _ => True) := by
  simp only [posixOpen, Ensures.ite_iff, Ensures.throw_iff, Ensures.bind_iff]
  split
  case isTrue creat =>
    split
    · trivial
    · rcases creatable creat with ⟨proper, directories, admits⟩
      rcases proper.exists_split with ⟨front, last, cut⟩
      refine (userfsOpenFile_coherent coherent spelled cut proper.plain (admits front last cut)
        directories).mono ?_ (fun _ _ fault => fault)
      rintro found next kept
      cases found with
      | none => exact Ensures.pure_iff.mpr kept
      | some ip => exact installFile_coherent kept ip false path
  case isFalse =>
    refine (namei_coherent coherent spelled).mono ?_ (fun _ _ fault => fault)
    rintro found next ⟨kept, _, _⟩
    cases found with
    | none => exact Ensures.pure_iff.mpr kept
    | some ip =>
        rw [Ensures.bind_iff, ensures_nsInode]
        exact installFile_coherent kept ip _ path

theorem posixClose_coherent (coherent : Coherent ns) (fd : Int) :
    Ensures (posixClose fd) ns (fun _ next => Coherent next) (fun _ _ => True) := by
  rw [posixClose, fileIndex, Ensures.bind_iff, Ensures.ite_iff]
  split
  · simp only [Ensures.pure_iff, Ensures.bind_iff, Ensures.get_iff, Ensures.ite_iff,
      Ensures.throw_iff, Ensures.modify_iff]
    split
    · trivial
    · have closed := coherent.setFiles (Function.update ns.openFiles (fd - gFdStart).toNat
        ⟨(ns.openFiles (fd - gFdStart).toNat).ref - 1,
          if 1 < (ns.openFiles (fd - gFdStart).toNat).ref then
            (ns.openFiles (fd - gFdStart).toNat).type else .none,
          (ns.openFiles (fd - gFdStart).toNat).ip⟩)
      simp only [iput]
      split
      · rw [ensures_onInode]
        exact closed.visit (closed.toNames.visit_refs _)
      · exact closed
  · exact Ensures.throw_iff.mpr trivial

/-- A name that neither memory nor the kernel has is not found. -/
theorem Missing.not_found {next : Namespace} {front : List Name} {last : Name} {dir ip : Nat}
    (missing : Missing ns path front last dir) (lookup : Lookup ns next) (bound : dir < next.next)
    (edge : (next.inode dir).deCache last = some ip) : False := by
  rcases lookup.listed dir last ip bound edge with ⟨_, before⟩ | listed
  · rw [missing.unnamed] at before
    cases before
  · exact missing.unlisted _ listed

/-- The removal of a name that is not there. -/
theorem Missing.posixUnlink_coherent {front : List Name} {last : Name} {dir : Nat}
    (missing : Missing ns path front last dir) (coherent : Coherent ns) (proper : Proper path) :
    Ensures (posixUnlink path) ns (fun _ next => Coherent next) (fun _ _ => True) := by
  have inside := coherent.resolve_bound coherent.root_alive.1 missing.walk
  rw [posixUnlink, Ensures.bind_iff]
  refine (nameiparent_coherent coherent proper.spelled missing.split proper.plain).mono ?_
    (fun _ _ fault => fault)
  rintro found first ⟨firstKept, firstLookup, reached⟩
  cases found with
  | none => exact Ensures.pure_iff.mpr firstKept
  | some result =>
      rcases reached result.1 result.2 rfl with ⟨nameEq, walk, _⟩
      have same := firstLookup.resolve coherent.toLinked coherent.root_alive.1 missing.walk
      rw [walk] at same
      have dirEq : result.1 = dir := Option.some.inj same
      have pairEq : result = (dir, last) := Prod.ext dirEq nameEq
      rw [pairEq]
      refine Ensures.bind_iff.mpr ?_
      rw [unlinkTarget, Ensures.bind_iff]
      refine (namei_coherent firstKept proper.spelled).mono ?_ (fun _ _ fault => fault)
      rintro found second ⟨secondKept, secondLookup, known⟩
      have lookup := firstLookup.trans secondLookup firstKept.toLinked
      have bound := Nat.lt_of_lt_of_le inside lookup.bound
      cases found with
      | some ip =>
          have whole := known ip rfl
          rw [missing.split, resolve_concat] at whole
          rcases whole with ⟨parent, walk, _, edge⟩
          have same := lookup.resolve coherent.toLinked coherent.root_alive.1 missing.walk
          rw [walk] at same
          rw [Option.some.inj same] at edge
          exact (missing.not_found lookup bound edge).elim
      | none =>
          refine (dirLookup_visits secondKept.toNames bound).mono ?_ (fun _ _ fault => fault)
          rintro found third ⟨visited, _, edge⟩
          cases found with
          | some ip =>
              exact (missing.not_found (lookup.trans visited.toLookup secondKept.toLinked)
                (Nat.lt_of_lt_of_le bound visited.bound) (edge ip rfl)).elim
          | none => exact Ensures.pure_iff.mpr (secondKept.visit visited)

theorem posixUnlink_coherent (coherent : Coherent ns) (unlinkable : Unlinkable ns path) :
    Ensures (posixUnlink path) ns (fun _ next => Coherent next) (fun _ _ => True) := by
  rcases unlinkable with ⟨proper, front, last, dir, ⟨ip, removable, sole⟩ | missing⟩
  · refine (removable.posixUnlink_exact coherent proper.spelled proper.plain).mono ?_
      (fun _ _ _ => trivial)
    rintro status next ⟨_, kept, _, _⟩
    exact kept sole
  · exact missing.posixUnlink_coherent coherent proper

/-- `dir_change_entry` looks up both names and gives up. -/
theorem dirChangeEntry_coherent (coherent : Coherent ns) {dir : Nat} (bound : dir < ns.next)
    (oldname newname : Name) :
    Ensures (dirChangeEntry dir oldname newname) ns
      (fun changed next => changed = -2 ∧ Coherent next) (fun _ _ => True) := by
  simp only [dirChangeEntry, Ensures.bind_iff, Ensures.get_iff]
  refine (dirLookup_visits coherent.toNames bound).mono ?_ (fun _ _ fault => fault)
  rintro existing next ⟨visited, _, _⟩
  simp only [Ensures.ite_iff, Ensures.throw_iff, Ensures.bind_iff, Ensures.pure_iff]
  split
  · trivial
  · refine (dirLookup_visits visited.names (Nat.lt_of_lt_of_le bound visited.bound)).mono ?_
      (fun _ _ fault => fault)
    rintro _ last ⟨later, _, _⟩
    split
    · trivial
    · exact ⟨trivial, coherent.visit (visited.trans later)⟩

/-- `userfs_posix_rename` forgets paths and changes no entry. -/
theorem posixRename_coherent (coherent : Coherent ns) {oldpath newpath : List Char}
    (old : Proper oldpath) (new : Proper newpath) :
    Ensures (posixRename oldpath newpath) ns (fun _ next => Coherent next) (fun _ _ => True) := by
  rcases old.exists_split with ⟨oldFront, oldLast, oldSplit⟩
  rcases new.exists_split with ⟨newFront, newLast, newSplit⟩
  rw [posixRename, Ensures.bind_iff]
  refine (nameiparent_coherent coherent old.spelled oldSplit old.plain).mono ?_
    (fun _ _ fault => fault)
  rintro oldFound first ⟨firstKept, firstLookup, oldReached⟩
  rw [Ensures.bind_iff]
  refine (nameiparent_coherent firstKept new.spelled newSplit new.plain).mono ?_
    (fun _ _ fault => fault)
  rintro newFound second ⟨secondKept, secondLookup, _⟩
  cases oldFound with
  | none => exact Ensures.throw_iff.mpr trivial
  | some oldResult =>
      cases newFound with
      | none => exact Ensures.throw_iff.mpr trivial
      | some newResult =>
          have walk := (oldReached oldResult.1 oldResult.2 rfl).2.1
          have bound := Nat.lt_of_lt_of_le
            (firstKept.resolve_bound firstKept.root_alive.1 walk) secondLookup.bound
          have forgotten := secondKept.forget new.spelled.ne_mountpoint
          simp only [Ensures.ite_iff, Ensures.throw_iff, Ensures.bind_iff, dlookupDel,
            Ensures.modify_iff]
          split
          · trivial
          · refine (dirChangeEntry_coherent forgotten bound oldResult.2 newResult.2).mono ?_
              (fun _ _ fault => fault)
            rintro changed third ⟨minus, kept⟩
            rw [minus]
            simp only [iput, ensures_onInode, Ensures.pure_iff]
            have first := kept.visit (@Names.visit_refs _ oldResult.1 kept.toNames
              (fun inode => inode.iRef - 1))
            have both := first.visit (@Names.visit_refs _ newResult.1 first.toNames
              (fun inode => inode.iRef - 1))
            exact both.forget old.spelled.ne_mountpoint

/-- The step lemma: every orderly call keeps the path cache coherent. -/
theorem Call.execute_coherent (coherent : Coherent ns) (call : Call) (orderly : call.Orderly ns) :
    Ensures call.execute ns (fun _ next => Coherent next) (fun _ _ => True) := by
  cases call with
  | «open» path flags =>
      simp only [Call.execute, Ensures.bind_iff, Ensures.pure_iff]
      exact posixOpen_coherent coherent orderly.1 orderly.2
  | close fd =>
      simp only [Call.execute, Ensures.bind_iff, Ensures.pure_iff]
      exact posixClose_coherent coherent fd
  | mkdir path =>
      rcases orderly with ⟨proper, directories, admits⟩
      rcases proper.exists_split with ⟨front, last, split⟩
      simp only [Call.execute, posixMkdir, Ensures.bind_iff, Ensures.pure_iff]
      refine (userfsOpenFile_coherent coherent proper.spelled split proper.plain
        (admits front last split) directories).mono ?_ (fun _ _ fault => fault)
      rintro found next kept
      cases found with
      | none => exact Ensures.pure_iff.mpr kept
      | some ip => exact Ensures.pure_iff.mpr kept
  | lookup path =>
      simp only [Call.execute, Ensures.bind_iff, Ensures.pure_iff]
      refine (namei_coherent coherent orderly).mono ?_ (fun _ _ fault => fault)
      exact fun _ _ kept => kept.1
  | unlink path =>
      simp only [Call.execute, Ensures.bind_iff, Ensures.pure_iff]
      exact posixUnlink_coherent coherent orderly
  | rename oldpath newpath =>
      simp only [Call.execute, Ensures.bind_iff, Ensures.pure_iff]
      exact posixRename_coherent coherent orderly.1 orderly.2
  | access path => exact absurd orderly id
  | stat path => exact absurd orderly id
  | fstat fd => exact absurd orderly id
  | truncate path length => exact absurd orderly id
  | ftruncate fd length => exact absurd orderly id

theorem coherent_start (kernel : Kernel) (behind : Nat -> Nat) (size root : Nat) :
    Coherent (Namespace.start kernel behind size root) where
  toLinked := linked_start kernel behind size root
  root := by
    change Function.update (fun _ => none) rootIno (some 0) rootIno = some 0
    rw [Function.update_self]
  well := fun _ _ => wellNamed_loaded (fun _ => ⟨rfl, rfl⟩)
  unique := fun _ _ _ _ _ _ _ edge => nomatch edge
  mount := by
    change Function.update (fun _ => none) mountpoint (some 0) mountpoint = some 0
    rw [Function.update_self]
  paths := by
    intro path ip found other
    change Function.update (fun _ => none) mountpoint (some 0) path = some ip at found
    rw [Function.update_of_ne other] at found
    cases found

/-- The run lemma. -/
theorem runAll_coherent (kernel : Kernel) (behind : Nat -> Nat) (size root : Nat) {calls : List Call}
    (orderly : Guarded Call.execute Call.Orderly calls (Namespace.start kernel behind size root)) :
    Ensures (runAll Call.execute calls) (Namespace.start kernel behind size root)
      (fun _ ns => Coherent ns) (fun _ _ => True) :=
  Ensures.runAll_guarded_state
    (fun call _ coherent orderly => call.execute_coherent coherent orderly)
    (coherent_start kernel behind size root) orderly

/-- A path that the walk resolves is not missing for `namei`. -/
theorem Coherent.namei_finds (coherent : Coherent ns) (path : List Char) :
    Ensures (namex path false) ns
      (fun found _ => found ≠ none ->
        Ensures (namei path) ns (fun result _ => result ≠ none) (fun _ _ => True))
      (fun _ _ => True) := by
  apply Ensures.of_run
  · intro found next outcome nonempty
    rw [namei, Ensures.bind_iff, Ensures.get_iff]
    cases known : ns.dlookupHash path with
    | some ip =>
        simp only [coherent.alive known, Bool.false_eq_true, if_false, takeRef, Ensures.bind_iff,
          ensures_onInode, Ensures.pure_iff]
        exact Option.some_ne_none _
    | none =>
        simp only [Ensures.bind_iff]
        rw [Ensures.ok_iff outcome]
        cases found with
        | none => exact absurd rfl nonempty
        | some result =>
            simp only [Ensures.bind_iff, Ensures.pure_iff, ensures_dlookupAllocAdd]
            split
            · trivial
            · exact Option.some_ne_none _
  · exact fun _ _ _ => trivial

end Calls

/-- Coherence of the path cache.  After every run of orderly calls the walk along a
remembered path below the mount point ends at the remembered inode, and a path that the
walk resolves is not reported missing. -/
theorem path_cache_coherent (kernel : Kernel) (behind : Nat -> Nat) (size root : Nat)
    (calls : List Call)
    (orderly : Guarded Call.execute Call.Orderly calls (Namespace.start kernel behind size root)) :
    Ensures (runAll Call.execute calls) (Namespace.start kernel behind size root)
      (fun _ ns =>
        (forall path ip, ns.dlookupHash path = some ip -> path ≠ mountpoint ->
          Ensures (namex path false) ns
            (fun found _ => Exists fun name => found = some (ip, name)) (fun _ _ => False)) ∧
        forall path, Ensures (namex path false) ns
          (fun found _ => found ≠ none ->
            Ensures (namei path) ns (fun result _ => result ≠ none) (fun _ _ => True))
          (fun _ _ => True))
      (fun _ _ => True) := by
  refine (runAll_coherent kernel behind size root orderly).mono ?_ (fun _ _ fault => fault)
  intro _ ns coherent
  constructor
  · intro path ip known other
    have before := coherent.paths path ip known other
    exact (coherent.namex_resolves before.1 before.2).mono (fun _ _ found => found.1)
      (fun _ _ impossible => impossible)
  · exact coherent.namei_finds

theorem lists_bare (name : Name) (ino : Nat) : ¬ Kernel.bare.Lists name ino := by
  rintro (⟨nonzero, _, equal⟩ | ⟨_, member⟩)
  · exact nonzero equal.symm
  · cases member

/-! ## What a session remembers -/

section Paths

variable {ns : Namespace} {path : List Char}

theorem installFile_paths (ip : Nat) (directory : Bool) :
    Ensures (installFile ip directory path) ns (fun _ next => next.dlookupHash = ns.dlookupHash)
      (fun _ _ => True) := by
  rw [installFile, Ensures.bind_iff, Ensures.get_iff]
  cases freeFile ns.openFiles gMaxOpenFiles 0 with
  | none =>
      simp only [iput, Ensures.bind_iff, ensures_onInode, Ensures.pure_iff]
      rfl
  | some index =>
      simp only [Ensures.bind_iff, Ensures.modify_iff, Ensures.pure_iff, Namespace.copyFilename]
      split <;> rfl

theorem posixClose_paths (fd : Int) :
    Ensures (posixClose fd) ns (fun _ next => next.dlookupHash = ns.dlookupHash)
      (fun _ _ => True) := by
  simp only [posixClose, fileIndex, iput, Ensures.bind_iff, Ensures.ite_iff, Ensures.throw_iff,
    Ensures.get_iff, Ensures.modify_iff, Ensures.pure_iff, ensures_onInode]
  split
  · split
    · trivial
    · split
      · rfl
      · trivial
  · trivial

/-- A file that is new in a directory of the path cache is remembered under its path. -/
theorem posixOpen_new_paths {parent : List Char} {filename : Name} {dir : Nat}
    {tree : Name -> Option Dentry} (absent : ns.dlookupHash path = none)
    (cut : getParentPath path = some (parent, filename)) (known : ns.dlookupHash parent = some dir)
    (alive : (ns.inode dir).deleting = false) (unnamed : (ns.inode dir).deCache filename = none)
    (set : (ns.inode dir).dentryTree = some tree) (read : ¬ (ns.inode dir).Unread)
    (missing : tree filename = none) :
    Ensures (posixOpen path ⟨true, false⟩) ns
      (fun _ next => next.dlookupHash = Function.update ns.dlookupHash path (some ns.next))
      (fun _ _ => True) := by
  have same := update_inode_self ns dir (fun inode => { inode with iRef := inode.iRef + 1 })
  simp only [posixOpen, userfsOpenFile, nameiparent, openIn, openEntry, Ensures.bind_iff,
    Ensures.get_iff, absent, cut, known, alive, Bool.false_eq_true, if_false, if_true, takeRef,
    ensures_onInode, Ensures.pure_iff, ensures_nsInode, same, unnamed]
  rw [@ensures_ownSearch_memory _ _ _ _ _ tree _ (by rw [same]; exact set)
    (by rw [same]; exact read), missing, Ensures.bind_iff, ensures_createEntry]
  split
  · trivial
  rw [ensures_enterNames]
  split
  · trivial
  refine (installFile_paths _ false).mono ?_ (fun _ _ fault => fault)
  intro _ last kept
  rw [kept]
  exact if_pos absent

end Paths

/-- A file is created, closed and removed by the same spelling, and then it is looked
up. -/
theorem path_cache_coherent_removed :
    Ensures (runAll Call.execute
        [.open (mountpoint ++ ['/', 'a']) ⟨true, false⟩, .close 1000000,
          .unlink (mountpoint ++ ['/', 'a']), .lookup (mountpoint ++ ['/', 'a'])]) freshNamespace
      (fun _ ns =>
        (forall path ip, ns.dlookupHash path = some ip -> path ≠ mountpoint ->
          Ensures (namex path false) ns
            (fun found _ => Exists fun name => found = some (ip, name)) (fun _ _ => False)) ∧
        forall path, Ensures (namex path false) ns
          (fun found _ => found ≠ none ->
            Ensures (namei path) ns (fun result _ => result ≠ none) (fun _ _ => True))
          (fun _ _ => True))
      (fun _ _ => False) := by
  have proper : Proper (mountpoint ++ ['/', 'a']) := ⟨by decide, by decide, by decide⟩
  have creatable : Creatable freshNamespace (mountpoint ++ ['/', 'a']) .file :=
    ⟨proper, by decide, fun _ last _ ino listed => absurd listed (lists_bare last ino)⟩
  have remembered : Ensures (Call.execute (.open (mountpoint ++ ['/', 'a']) ⟨true, false⟩)) freshNamespace
      (fun _ ns => ns.dlookupHash = Function.update (Function.update (fun _ => none) mountpoint (some 0))
        (mountpoint ++ ['/', 'a']) (some 1)) (fun _ _ => True) := by
    simp only [Call.execute, Ensures.bind_iff, Ensures.pure_iff]
    exact @posixOpen_new_paths freshNamespace _ mountpoint ['a'] 0 (fun _ => none) (by decide)
      (by decide) (by decide) rfl rfl rfl (by decide) rfl
  have still : forall ns, Ensures (Call.execute (.close 1000000)) ns
      (fun _ next => next.dlookupHash = ns.dlookupHash) (fun _ _ => True) := by
    intro ns
    simp only [Call.execute, Ensures.bind_iff, Ensures.pure_iff]
    exact posixClose_paths 1000000
  have removable : Ensures (Call.execute (.open (mountpoint ++ ['/', 'a']) ⟨true, false⟩)) freshNamespace
      (fun _ ns => Ensures (Call.execute (.close 1000000)) ns
        (fun _ ns => ns.resolve 0 [] = some 0 ∧ (ns.inode 0).itype = .dir ∧
          (ns.inode 0).deCache ['a'] = some 1 ∧ (ns.inode 1).itype = .file ∧
          (ns.inode 1).inum ∈ sessionNumbers ns.kernel.inodeBase) (fun _ _ => True))
      (fun _ _ => True) := by
    decide +kernel
  have orderly : Guarded Call.execute Call.Orderly
      [.open (mountpoint ++ ['/', 'a']) ⟨true, false⟩, .close 1000000,
        .unlink (mountpoint ++ ['/', 'a']), .lookup (mountpoint ++ ['/', 'a'])] freshNamespace := by
    refine ⟨⟨proper.spelled, fun _ => creatable⟩, ?_⟩
    refine (removable.and remembered).mono ?_ (fun _ _ _ => trivial)
    rintro _ opened ⟨closing, paths⟩
    refine ⟨trivial, ?_⟩
    refine (closing.and (still opened)).mono ?_ (fun _ _ _ => trivial)
    rintro _ closed ⟨⟨walk, isDir, edge, file, session⟩, kept⟩
    refine ⟨⟨proper, [], ['a'], 0, Or.inl ⟨1, ⟨by decide, walk, isDir, edge, file, session⟩, ?_⟩⟩,
      Ensures.always.mono (fun _ _ _ => ⟨proper.spelled, Ensures.always⟩) (fun _ _ fault => fault)⟩
    intro other known
    rw [kept, paths] at known
    rcases update_eq_some known with ⟨same, _⟩ | ⟨_, before⟩
    · exact same
    · rcases update_eq_some before with ⟨_, root⟩ | ⟨_, none⟩
      · cases root
      · cases none
  have returns : Ensures (runAll Call.execute
      [.open (mountpoint ++ ['/', 'a']) ⟨true, false⟩, .close 1000000,
        .unlink (mountpoint ++ ['/', 'a']), .lookup (mountpoint ++ ['/', 'a'])]) freshNamespace
      (fun _ _ => True) (fun _ _ => False) := by
    decide +kernel
  exact (returns.and (path_cache_coherent Kernel.bare (fun _ => 0) 0 0 _ orderly)).mono
    (fun _ _ both => both.2) (fun _ _ both => both.1)

/-- A file is created, opened by a second spelling and removed: the second spelling
stays in the path cache.  After the file is created again, the walk along the second
spelling finds the new file and `namei` finds nothing. -/
theorem unlink_leaves_second_spelling :
    Ensures (runAll Call.execute
        [.open (mountpoint ++ ['/', 'a']) ⟨true, false⟩, .close 1000000,
          .open (mountpoint ++ ['/', '/', 'a']) ⟨false, false⟩, .close 1000000,
          .unlink (mountpoint ++ ['/', 'a']), .open (mountpoint ++ ['/', 'a']) ⟨true, false⟩])
      freshNamespace
      (fun _ ns => ns.dlookupHash (mountpoint ++ ['/', '/', 'a']) = some 1 ∧
        Ensures (namex (mountpoint ++ ['/', '/', 'a']) false) ns
          (fun found _ => found = some (2, ['a'])) (fun _ _ => False) ∧
        Ensures (namei (mountpoint ++ ['/', '/', 'a'])) ns
          (fun found _ => found = none) (fun _ _ => False))
      (fun _ _ => False) := by
  decide +kernel

/-- Removal.  In every state that orderly calls lead to, `userfs_posix_unlink` of a file
of the session returns 0 and leaves the references on the directory as they were
exactly if nobody holds a reference on the file. -/
theorem unlink_succeeds_iff_unreferenced (kernel : Kernel) (behind : Nat -> Nat) (size root : Nat)
    (calls : List Call)
    (orderly : Guarded Call.execute Call.Orderly calls (Namespace.start kernel behind size root)) :
    Ensures (runAll Call.execute calls) (Namespace.start kernel behind size root)
      (fun _ ns => forall path front last dir ip, Proper path -> path.length < maxPath ->
        Removable ns path front last dir ip ->
          (Ensures (posixUnlink path) ns
            (fun status next => status = 0 ∧ (next.inode dir).iRef = (ns.inode dir).iRef)
            (fun _ _ => False) <-> (ns.inode ip).iRef < 1))
      (fun _ _ => True) := by
  refine (runAll_coherent kernel behind size root orderly).mono ?_ (fun _ _ fault => fault)
  intro _ ns coherent path front last dir ip proper fits removable
  have exact' := removable.posixUnlink_exact coherent proper.spelled proper.plain
  constructor
  · intro succeeds
    have few : Ensures (posixUnlink path) ns (fun _ _ => (ns.inode ip).iRef < 1)
        (fun _ _ => (ns.inode ip).iRef < 1) :=
      (succeeds.and exact').mono (fun _ _ both => both.2.2.2.1) (fun _ _ both => both.1.elim)
    exact few.const
  · intro unreferenced
    refine exact'.mono ?_ ?_
    · rintro status next ⟨zero, _, _, others⟩
      exact ⟨zero, others dir removable.ne⟩
    · rintro fault next (⟨_, referenced⟩ | ⟨_, long⟩)
      · omega
      · omega

/-- A file is created, closed and removed. -/
theorem unlink_succeeds_iff_unreferenced_closed :
    Ensures (runAll Call.execute [.open (mountpoint ++ ['/', 'a']) ⟨true, false⟩, .close 1000000])
      freshNamespace
      (fun _ ns => (ns.inode 1).iRef < 1 ∧
        Ensures (posixUnlink (mountpoint ++ ['/', 'a'])) ns
          (fun status next => status = 0 ∧ (next.inode 0).iRef = (ns.inode 0).iRef)
          (fun _ _ => False))
      (fun _ _ => False) := by
  have proper : Proper (mountpoint ++ ['/', 'a']) := ⟨by decide, by decide, by decide⟩
  have general := unlink_succeeds_iff_unreferenced Kernel.bare (fun _ => 0) 0 0
    [.open (mountpoint ++ ['/', 'a']) ⟨true, false⟩, .close 1000000]
    ⟨⟨proper.spelled, fun _ => ⟨proper, by decide,
        fun _ last _ ino listed => absurd listed (lists_bare last ino)⟩⟩,
      Ensures.always.mono (fun _ _ _ => ⟨trivial, Ensures.always⟩) (fun _ _ fault => fault)⟩
  have reached : Ensures (runAll Call.execute
      [.open (mountpoint ++ ['/', 'a']) ⟨true, false⟩, .close 1000000])
      freshNamespace
      (fun _ ns => (ns.inode 1).iRef < 1 ∧ below (mountpoint ++ ['/', 'a']) = [] ++ [['a']] ∧
        ns.resolve 0 [] = some 0 ∧ (ns.inode 0).itype = .dir ∧
        (ns.inode 0).deCache ['a'] = some 1 ∧ (ns.inode 1).itype = .file ∧
        (ns.inode 1).inum ∈ sessionNumbers ns.kernel.inodeBase)
      (fun _ _ => False) := by
    decide +kernel
  refine (reached.and general).mono ?_ (fun _ _ both => both.1)
  rintro _ ns ⟨⟨few, split, walk, isDir, edge, file, session⟩, unlink⟩
  exact ⟨few, (unlink _ _ _ _ _ proper (by decide) ⟨split, walk, isDir, edge, file, session⟩).mpr few⟩

/-- A file is created and removed while its handle is open: the assertion fails. -/
theorem unlink_of_open_file_aborts :
    Ensures (runAll Call.execute [.open (mountpoint ++ ['/', 'a']) ⟨true, false⟩]) freshNamespace
      (fun _ ns => Ensures (posixUnlink (mountpoint ++ ['/', 'a'])) ns (fun _ _ => False)
        (fun fault _ => fault = .assertion "inode->i_ref < 2"))
      (fun _ _ => False) := by
  decide +kernel

end Userfs.Filesystem
