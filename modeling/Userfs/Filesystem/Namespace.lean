import Userfs.Filesystem.InodeTable
import Userfs.Global.Path

namespace Userfs.Filesystem

open Word

/-!
# The name space

A directory keeps its entries in two places: the radix tree `dentry_tree`, in which
a removed entry stays as a tombstone, and the table `de_cache` of the inodes that
were looked up by name.  Two further tables are global: `inode_hash` finds an inode
by number, and `dlookup_hash` finds one by the string of a whole path.  Every
function that returns an inode takes a reference on it, which somebody has to drop.

The radix tree and the hash tables are maps here; the code enters a key only after
it has not found it.  Log records are left out, and so are the fields that belong to
the data path.

Calls do not overlap, so a mutex is only in the way of its own holder.  The one place
where that happens is `namex`, which holds the mutex of a directory while it looks up a
name there: `iget` takes the mutex of the inode it finds.
-/

/-- The name of a directory entry. -/
abbrev Name := List Char

/-- `itype`: the constants `T_DIR`, `T_FILE` and `T_DEV`, or zero. -/
inductive FileType where
  | none
  | dir
  | file
  | dev
deriving DecidableEq, Repr

/-- `addordel` of a directory entry. -/
inductive EntryState where
  | ondisk
  | addden
  | delden
deriving DecidableEq, Repr

/-- `struct ufs_direntry` with the entry it points to. -/
structure Dentry where
  addordel : EntryState
  ino : Nat
  fileType : FileType
deriving DecidableEq, Repr

/-- The inode fields of the name space.  Only directories have their tree set up; the
tree of another inode is the memory that was allocated for it, an empty tree if that is
zero and no tree otherwise. -/
structure NsInode where
  inum : Nat
  itype : FileType
  iRef : Int
  deleting : Bool
  size : Nat
  root : Nat
  inmemDen : Bool
  deCache : Name -> Option Nat
  dentryTree : Option (Name -> Option Dentry)

/-- `ROOTINO`. -/
def rootIno : Nat := 128

/-- `g_max_open_files`. -/
def gMaxOpenFiles : Nat := 10000

/-- `g_fd_start`. -/
def gFdStart : Int := 1000000

/-- `FUCKFS_DIR_REC_LEN`. -/
def dirRecLen (nameLen : Nat) : Nat :=
  (nameLen + 15) / 4 * 4

/-- `type` of an open file. -/
inductive FdType where
  | none
  | inode
  | dir
deriving DecidableEq, Repr

/-- An entry of `g_fd_table`. -/
structure OpenFile where
  ref : Nat
  type : FdType
  ip : Nat
deriving DecidableEq, Repr

/-- What the kernel knows: the first inode number reserved for the session, the type
of each of its own inodes, the size and the root it reports for one, its directory
entries by single lookup (0 for none) and by directory block.  Further fields are the
contents of memory that the code does not control: the bit `I_DELETING` of an inode
allocated at an address, whether the memory of its tree is zero there, whether the
uninitialised pointer `uden` of `dir_change_entry` is wild, and what the file table
holds after a path was copied that does not fit into `filename`.  The numbers reserved
for the session have 32 bits and are not those of the kernel's own inodes. -/
structure Kernel where
  inodeBase : Nat
  itype : Nat -> FileType
  record : Nat -> Option (Nat × Nat)
  entry : Nat -> Name -> Nat
  block : Nat -> List (Name × Nat)
  freshDeleting : Nat -> Bool
  zeroed : Nat -> Bool
  wildUden : Bool
  overrun : List Char -> (Nat -> OpenFile) -> Nat -> OpenFile
  validBase : ValidBase inodeBase
  reserved_root : rootIno ∉ sessionNumbers inodeBase
  reserved_entry : forall inum name, entry inum name ∉ sessionNumbers inodeBase
  reserved_block : forall root listed, listed ∈ block root -> listed.2 ∉ sessionNumbers inodeBase

/-- The state of the name space.  Inodes are named by their address, and `next` is
the address of the next allocation.  The list `created` records the regular files
that the session creates. -/
structure Namespace where
  kernel : Kernel
  inode : Nat -> NsInode
  next : Nat
  inodeHash : Nat -> Option Nat
  dlookupHash : List Char -> Option Nat
  openFiles : Nat -> OpenFile
  table : InodeTable
  created : List Nat

/-- Programs of the name space. -/
abbrev Ns := EStateM Fault Namespace

/-! ## Inodes -/

/-- Change the inode at one address. -/
def Namespace.update (ns : Namespace) (ip : Nat) (change : NsInode -> NsInode) : Namespace :=
  { ns with inode := Function.update ns.inode ip (change (ns.inode ip)) }

/-- Read an inode. -/
def nsInode (ip : Nat) : Ns NsInode := do
  let ns ← get
  pure (ns.inode ip)

/-- Change an inode. -/
def onInode (ip : Nat) (change : NsInode -> NsInode) : Ns PUnit :=
  modify (fun ns => ns.update ip change)

/-- The increment of `i_ref` that the lookups do in place. -/
def takeRef (ip : Nat) : Ns PUnit :=
  onInode ip (fun inode => { inode with iRef := inode.iRef + 1 })

/-- `iput`. -/
def iput (ip : Nat) : Ns PUnit :=
  onInode ip (fun inode => { inode with iRef := inode.iRef - 1 })

/-- Put an inode at the next address and into `inode_hash`. -/
def Namespace.icacheAdd (ns : Namespace) (inode : NsInode) : Namespace :=
  { ns with
    inode := Function.update ns.inode ns.next inode
    next := ns.next + 1
    inodeHash := Function.update ns.inodeHash inode.inum (some ns.next) }

/-- `icache_add`. -/
def icacheAdd (inode : NsInode) : Ns Nat := do
  let ns ← get
  modify (fun ns => ns.icacheAdd inode)
  pure ns.next

/-- An inode without names, in memory that is zero or not. -/
def NsInode.loaded (inum : Nat) (itype : FileType) (deleting : Bool) (size root : Nat)
    (zeroed : Bool) : NsInode where
  inum := inum
  itype := itype
  iRef := 1
  deleting := deleting
  size := size
  root := root
  inmemDen := false
  deCache := fun _ => none
  dentryTree := if itype = .dir ∨ zeroed = true then some (fun _ => none) else none

/-- The system call behind `read_ondisk_inode` and `read_ondisk_inode_from_kernel`. -/
def fetchRecord (inum : Nat) : Ns (Nat × Nat) := do
  let ns ← get
  match ns.kernel.record inum with
  | none => throw (.panic "syscall fetch inode error\n")
  | some record => pure record

/-- `iget` by a caller that may hold the mutex of an inode: the inode with a number,
loaded if it is not in memory.  The mutex of an inode in memory is taken to count the
reference. -/
def igetHolding (held : Option Nat) (inum : Nat) : Ns (Option Nat) := do
  let ns ← get
  match ns.inodeHash inum with
  | some ip =>
      if (ns.inode ip).deleting = true then pure none
      else if held = some ip then throw .deadlock
      else do
        takeRef ip
        pure (some ip)
  | none => do
      let record ← fetchRecord inum
      let ip ← icacheAdd (NsInode.loaded inum (ns.kernel.itype inum) false record.1 record.2
        (ns.kernel.zeroed ns.next))
      pure (some ip)

/-- `iget`. -/
def iget (inum : Nat) : Ns (Option Nat) :=
  igetHolding none inum

/-- `stati`, which drops a reference. -/
def stati (ip : Nat) : Ns (Nat × Nat) := do
  let inode ← nsInode ip
  iput ip
  pure (inode.inum, inode.size)

/-- `itrunc`, without the read cache: the blocks it drops there are those of
`Filesystem.Truncation`. -/
def itrunc (ip length : Nat) : Ns PUnit := do
  let inode ← nsInode ip
  if inode.itype ≠ .file then throw (.assertion "ip->itype == T_FILE")
  else onInode ip (fun inode => { inode with size := length })

/-- `idealloc`, without the read cache. -/
def idealloc (ip : Nat) : Ns PUnit := do
  let inode ← nsInode ip
  if 2 ≤ inode.iRef then throw (.assertion "inode->i_ref < 2")
  else onInode ip (fun inode =>
    { inode with
      dentryTree := if inode.itype = .dir then none else inode.dentryTree
      size := 0
      deleting := true
      itype := .none })

/-! ## Directories -/

/-- `art_search` in the tree of an inode.  A tree that was never set up is what the
memory holds: nothing is found where it is zero, and a wild pointer is followed
otherwise. -/
def artSearch (dir : Nat) (name : Name) : Ns (Option Dentry) := do
  let inode ← nsInode dir
  match inode.dentryTree with
  | none => throw .segfault
  | some tree => pure (tree name)

/-- Set an entry of a tree. -/
def NsInode.artInsert (inode : NsInode) (name : Name) (uden : Dentry) : NsInode :=
  { inode with dentryTree := inode.dentryTree.map (fun tree => Function.update tree name (some uden)) }

/-- `de_cache_alloc_add`. -/
def deCacheAllocAdd (dir : Nat) (name : Name) (ip : Nat) : Ns PUnit :=
  onInode dir (fun inode => { inode with deCache := Function.update inode.deCache name (some ip) })

/-- `fetch_ondisk_dentry_from_kernel`. -/
def fetchOndiskDentryFromKernel (dir : Nat) (name : Name) : Ns (Option Dentry) := do
  let ns ← get
  let ino := ns.kernel.entry (ns.inode dir).inum name
  if ino = 0 then pure none
  else do
    onInode dir (fun inode => inode.artInsert name ⟨.ondisk, ino, ns.kernel.itype ino⟩)
    pure (some ⟨.ondisk, ino, ns.kernel.itype ino⟩)

/-- `fetch_ondisk_dentry` together with the assignment to `inmem_den` that follows
every call. -/
def fetchOndiskDentry (dir : Nat) : Ns PUnit := do
  let ns ← get
  onInode dir (fun inode =>
    { (ns.kernel.block inode.root).foldl (fun inode listed =>
        inode.artInsert listed.1 ⟨.ondisk, listed.2, ns.kernel.itype listed.2⟩) inode with
      inmemDen := true })

/-- Whether the entries on disk have still to be read: `root > 0` and `inmem_den` is
zero. -/
def NsInode.Unread (inode : NsInode) : Prop :=
  0 < inode.root ∧ inode.inmemDen = false

instance (inode : NsInode) : Decidable inode.Unread :=
  inferInstanceAs (Decidable (_ ∧ _))

/-- The search of `dir_lookup` once the first block of the directory has been read: the
tree a second time, then the kernel. -/
def searchAgain (dir : Nat) (name : Name) (root : Nat) : Ns (Option Dentry) := do
  let again ← artSearch dir name
  match again with
  | some uden => pure (some uden)
  | none => if 0 < root then fetchOndiskDentryFromKernel dir name else pure none

/-- The search of `dir_lookup` in the tree, on disk and in the kernel. -/
def dirSearch (dir : Nat) (name : Name) : Ns (Option Dentry) := do
  let found ← artSearch dir name
  match found with
  | some uden => pure (some uden)
  | none => do
      let inode ← nsInode dir
      if inode.Unread then fetchOndiskDentry dir else pure PUnit.unit
      searchAgain dir name inode.root

/-- The end of `dir_lookup`: get the inode of an entry and remember its name. -/
def useDentry (held : Option Nat) (dir : Nat) (name : Name) (uden : Dentry) : Ns (Option Nat) :=
  if uden.addordel = .delden then pure none
  else if uden.ino = 0 then pure none
  else do
    let got ← igetHolding held uden.ino
    match got with
    | none => throw .segfault
    | some ip => do
        onInode ip (fun inode => { inode with itype := uden.fileType })
        deCacheAllocAdd dir name ip
        pure (some ip)

/-- `dir_lookup` by a caller that may hold the mutex of an inode.  A name in the table
costs no mutex. -/
def lookupHolding (held : Option Nat) (dir : Nat) (name : Name) : Ns (Option Nat) := do
  let inode ← nsInode dir
  if inode.itype ≠ .dir then throw (.panic "lookup for non DIR")
  else
    match inode.deCache name with
    | some ip => do
        takeRef ip
        pure (some ip)
    | none => do
        let found ← dirSearch dir name
        match found with
        | none => pure none
        | some uden => useDentry held dir name uden

/-- `dir_lookup`. -/
def dirLookup (dir : Nat) (name : Name) : Ns (Option Nat) :=
  lookupHolding none dir name

/-- The search that the create path and `dir_remove_entry` share: the tree, then the
kernel, and the entries on disk are read as well. -/
def ownSearch (dir : Nat) (name lookupName : Name) : Ns (Option Dentry) := do
  let found ← artSearch dir name
  match found with
  | some uden => pure (some uden)
  | none => do
      let inode ← nsInode dir
      if inode.Unread then do
        let fetched ← fetchOndiskDentryFromKernel dir lookupName
        fetchOndiskDentry dir
        pure fetched
      else pure none

/-- The part of `dir_remove_entry` behind the label `dirent_found`.  The entry stays in
the tree as a tombstone. -/
def removeFound (dir : Nat) (name : Name) (uden : Dentry) : Ns Int := do
  if uden.ino = 0 then throw (.assertion "pde->ino != 0")
  else do
    modify (fun ns => { ns with table := (putInodeBitmap ns.table uden.ino).2 })
    onInode dir (fun inode =>
      { inode.artInsert name { uden with addordel := .delden } with
        size := sub64 inode.size (dirRecLen 8)
        deCache := Function.update inode.deCache name none })
    pure 0

/-- `dir_remove_entry`. -/
def dirRemoveEntry (dir : Nat) (name : Name) : Ns Int := do
  let found ← ownSearch dir name name
  match found with
  | none => pure 0
  | some uden => if uden.addordel = .delden then pure (-1) else removeFound dir name uden

/-! ## Paths -/

/-- The loop of `namex`.  Every round cuts an element off the path, so its length
bounds their number.  The mutex of the directory is held from `ilock` on until its
reference is dropped. -/
def namexLoop (parent : Bool) : Nat -> Nat -> List Char -> Name -> Ns (Option (Nat × Name))
  | 0, _, _, _ => throw .outOfFuel
  | rounds + 1, ip, path, name =>
      match getNextName path with
      | none =>
          if parent = true then do
            iput ip
            pure none
          else pure (some (ip, name))
      | some (element, rest) => do
          let inode ← nsInode ip
          if inode.itype ≠ .dir then do
            iput ip
            pure none
          else if parent = true ∧ rest = [] then pure (some (ip, element))
          else do
            let next ← lookupHolding (some ip) ip element
            iput ip
            match next with
            | none => pure none
            | some next => namexLoop parent rounds next rest element

/-- The path behind the mount point. -/
def stripMountpoint (path : List Char) : List Char :=
  if mountpoint.isPrefixOf path = true then path.drop mountpoint.length else path

/-- `namex`: the inode and the last name. -/
def namex (path : List Char) (parent : Bool) : Ns (Option (Nat × Name)) :=
  match stripMountpoint path with
  | '/' :: rest => do
      let root ← iget rootIno
      match root with
      | none => throw .segfault
      | some ip => namexLoop parent (rest.length + 2) ip ('/' :: rest) []
  | _ => throw (.panic "relative path is not yet implemented\n")

/-- `dlookup_alloc_add`.  A longer path overruns the buffer. -/
def dlookupAllocAdd (ip : Nat) (path : List Char) : Ns PUnit :=
  if maxPath ≤ path.length then throw .segfault
  else modify (fun ns => { ns with dlookupHash := Function.update ns.dlookupHash path (some ip) })

/-- `dlookup_del`. -/
def dlookupDel (path : List Char) : Ns PUnit :=
  modify (fun ns => { ns with dlookupHash := Function.update ns.dlookupHash path none })

/-- `namei`. -/
def namei (path : List Char) : Ns (Option Nat) := do
  let ns ← get
  match ns.dlookupHash path with
  | some ip =>
      if (ns.inode ip).deleting = true then pure none
      else do
        takeRef ip
        pure (some ip)
  | none => do
      let found ← namex path false
      match found with
      | none => pure none
      | some (ip, _) => do
          dlookupAllocAdd ip path
          pure (some ip)

/-- `nameiparent`: the parent directory and the name in it. -/
def nameiparent (path : List Char) : Ns (Option (Nat × Name)) :=
  match getParentPath path with
  | none => throw .segfault
  | some (parentPath, name) => do
      let ns ← get
      match ns.dlookupHash parentPath with
      | some ip =>
          if (ns.inode ip).deleting = true then pure none
          else do
            takeRef ip
            pure (some (ip, name))
      | none => do
          let found ← namex path true
          match found with
          | none => pure none
          | some (ip, last) => do
              dlookupAllocAdd ip parentPath
              pure (some (ip, last))

/-! ## Opening by name -/

/-- The inode of a new file or directory. -/
def NsInode.new (inum : Nat) (type : FileType) (zeroed : Bool) : NsInode :=
  NsInode.loaded inum type false (if type = .dir then dirRecLen 1 + dirRecLen 2 else 0) 0 zeroed

/-- The branch of `userfs_open_file` for a name that does not exist. -/
def createEntry (parent : Nat) (filename : Name) (type : FileType) : Ns Nat := do
  let ns ← get
  let inum := (findInodeBitmap ns.table).1
  if inum = 0 then throw (.panic "cannot allocate inode\n")
  else do
    modify (fun ns =>
      { ns with
        table := (findInodeBitmap ns.table).2
        created := if type = .file then ns.created ++ [ns.next] else ns.created })
    let ip ← icacheAdd (NsInode.new inum type (ns.kernel.zeroed ns.next))
    onInode parent (fun inode =>
      { inode.artInsert filename ⟨.addden, inum, type⟩ with
        size := add64 inode.size (dirRecLen filename.length) })
    pure ip

/-- The branch of `userfs_open_file` for a name that exists but is not cached.  The
flags of the new inode are not cleared. -/
def loadEntry (uden : Dentry) (type : FileType) : Ns Nat := do
  let record ← fetchRecord uden.ino
  let ns ← get
  icacheAdd (NsInode.loaded uden.ino type (ns.kernel.freshDeleting ns.next) record.1 record.2
    (ns.kernel.zeroed ns.next))

/-- The end of `userfs_open_file`: drop the parent, remember the name and the path. -/
def enterNames (parent : Nat) (name : Name) (path : List Char) (ip : Nat) : Ns Nat := do
  iput parent
  deCacheAllocAdd parent name ip
  let ns ← get
  match ns.dlookupHash path with
  | some _ => pure ip
  | none => do
      dlookupAllocAdd ip path
      pure ip

/-- The part of `userfs_open_file` from the search in the parent's tree on. -/
def openEntry (parent : Nat) (name filename : Name) (path : List Char) (type : FileType) :
    Ns Nat := do
  let found ← ownSearch parent filename name
  let ip ←
    match found with
    | none => createEntry parent filename type
    | some uden =>
        if uden.addordel = .delden then createEntry parent filename type
        else loadEntry uden type
  enterNames parent name path ip

/-- The part of `userfs_open_file` after the parent has been found.  An entry of the
name table is returned at once, with the parent still referenced. -/
def openIn (parent : Nat) (name filename : Name) (path : List Char) (type : FileType) :
    Ns Nat := do
  let inode ← nsInode parent
  match inode.deCache name with
  | some ip => do
      takeRef ip
      pure ip
  | none => openEntry parent name filename path type

/-- `userfs_open_file`. -/
def userfsOpenFile (path : List Char) (type : FileType) : Ns (Option Nat) := do
  let ns ← get
  match ns.dlookupHash path with
  | some ip => do
      takeRef ip
      pure (some ip)
  | none =>
      match getParentPath path with
      | none => throw .segfault
      | some (_, filename) => do
          let found ← nameiparent path
          match found with
          | none => pure none
          | some (parent, name) => do
              let ip ← openIn parent name filename path type
              pure (some ip)

/-! ## The interface -/

/-- The flags of `userfs_posix_open` that matter here. -/
structure OpenFlags where
  creat : Bool
  directory : Bool
deriving DecidableEq, Repr

/-- The scan of `userfs_file_alloc`. -/
def freeFile (files : Nat -> OpenFile) : Nat -> Nat -> Option Nat
  | 0, _ => none
  | count + 1, index =>
      if (files index).ref = 0 then some index else freeFile files count (index + 1)

/-- The bytes of `filename` in an open file. -/
def filenameSize : Nat := 256

/-- The copy of a path into `filename`: a longer path runs over the slots behind. -/
def Namespace.copyFilename (ns : Namespace) (path : List Char) : Namespace :=
  if path.length < filenameSize then ns
  else { ns with openFiles := ns.kernel.overrun path ns.openFiles }

/-- The end of `userfs_posix_open`: a file structure for the inode, with the path copied
into it. -/
def installFile (ip : Nat) (directory : Bool) (path : List Char) : Ns Int := do
  let ns ← get
  match freeFile ns.openFiles gMaxOpenFiles 0 with
  | none => do
      iput ip
      pure (-12)
  | some index => do
      modify (fun ns =>
        { ns with
          openFiles := Function.update ns.openFiles index
            ⟨1, if directory = true then .dir else .inode, ip⟩ })
      modify (fun ns => ns.copyFilename path)
      pure (index + gFdStart)

/-- `userfs_posix_open`. -/
def posixOpen (path : List Char) (flags : OpenFlags) : Ns Int :=
  if flags.creat = true then
    if flags.directory = true then throw (.panic "O_DIRECTORY cannot be set with O_CREAT\n")
    else do
      let found ← userfsOpenFile path .file
      match found with
      | none => pure (-1)
      | some ip => installFile ip false path
  else do
    let found ← namei path
    match found with
    | none => pure (-2)
    | some ip => do
        let inode ← nsInode ip
        installFile ip (flags.directory || decide (inode.itype = .dir)) path

/-- `userfs_posix_creat`. -/
def posixCreat (path : List Char) : Ns Int :=
  posixOpen path ⟨true, false⟩

/-- The entry of the file table a descriptor stands for; others are outside the
table. -/
def fileIndex (fd : Int) : Ns Nat :=
  if gFdStart ≤ fd ∧ fd < gFdStart + gMaxOpenFiles then pure (fd - gFdStart).toNat
  else throw .segfault

/-- `userfs_file_close`. -/
def posixClose (fd : Int) : Ns Int := do
  let index ← fileIndex fd
  let ns ← get
  let file := ns.openFiles index
  if file.ref = 0 then throw (.assertion "f->ref > 0")
  else do
    modify (fun ns =>
      { ns with
        openFiles := Function.update ns.openFiles index
          ⟨file.ref - 1, if 1 < file.ref then file.type else .none, file.ip⟩ })
    if file.type = .inode then iput file.ip else pure PUnit.unit
    pure 0

/-- `userfs_posix_access` with `F_OK`. -/
def posixAccess (path : List Char) : Ns Int := do
  let found ← namei path
  match found with
  | none => pure (-2)
  | some ip => do
      iput ip
      pure 0

/-- `userfs_posix_stat`: the status and number and size. -/
def posixStat (path : List Char) : Ns (Int × Nat × Nat) := do
  let found ← namei path
  match found with
  | none => pure (-2, 0, 0)
  | some ip => do
      let status ← stati ip
      pure (0, status)

/-- `userfs_posix_fstat`. -/
def posixFstat (fd : Int) : Ns (Int × Nat × Nat) := do
  let index ← fileIndex fd
  let ns ← get
  if (ns.openFiles index).ref = 0 then pure (-2, 0, 0)
  else do
    let status ← stati (ns.openFiles index).ip
    pure (0, status)

/-- `userfs_posix_truncate`. -/
def posixTruncate (path : List Char) (length : Nat) : Ns Int := do
  let found ← namei path
  match found with
  | none => pure (-2)
  | some ip => do
      itrunc ip length
      iput ip
      pure 0

/-- `userfs_posix_ftruncate`. -/
def posixFtruncate (fd : Int) (length : Nat) : Ns Int := do
  let index ← fileIndex fd
  let ns ← get
  if (ns.openFiles index).ref = 0 then pure (-9)
  else do
    itrunc (ns.openFiles index).ip length
    pure 0

/-- `userfs_posix_mkdir`. -/
def posixMkdir (path : List Char) : Ns Int := do
  let found ← userfsOpenFile path .dir
  match found with
  | none => pure (-2)
  | some _ => pure 0

/-- The inode that `userfs_posix_unlink` removes: `namei` with one reference more, or
what the directory knows. -/
def unlinkTarget (dir : Nat) (name : Name) (path : List Char) : Ns (Option Nat) := do
  let found ← namei path
  match found with
  | some ip => do
      takeRef ip
      pure (some ip)
  | none => dirLookup dir name

/-- `userfs_posix_unlink`. -/
def posixUnlink (path : List Char) : Ns Int := do
  let found ← nameiparent path
  match found with
  | none => pure (-2)
  | some (dir, name) => do
      let target ← unlinkTarget dir name path
      match target with
      | none => pure (-2)
      | some ip => do
          let removed ← dirRemoveEntry dir name
          if removed < 0 then pure removed
          else do
            dlookupDel path
            iput dir
            iput ip
            idealloc ip
            pure 0

/-- `dir_change_entry`.  It hands its uninitialised pointer `uden` to `dir_lookup` by
value and tests it afterwards: a null pointer ends in `-ENOENT`, another one is
dereferenced. -/
def dirChangeEntry (dir : Nat) (oldname newname : Name) : Ns Int := do
  let ns ← get
  let existing ← dirLookup dir newname
  if ns.kernel.wildUden = true ∧ existing.isSome = true then throw .segfault
  else do
    let _ ← dirLookup dir oldname
    if ns.kernel.wildUden = true then throw .segfault else pure (-2)

/-- `userfs_posix_rename`. -/
def posixRename (oldpath newpath : List Char) : Ns Int := do
  let old ← nameiparent oldpath
  let new ← nameiparent newpath
  match old, new with
  | none, _ => throw (.assertion "old_dir_inode")
  | some _, none => throw (.assertion "new_dir_inode")
  | some (oldDir, oldname), some (newDir, newname) =>
      if oldDir ≠ newDir then throw (.panic "Only support rename in a same directory\n")
      else do
        dlookupDel newpath
        let changed ← dirChangeEntry oldDir oldname newname
        if changed < 0 then do
          iput oldDir
          iput newDir
          dlookupDel oldpath
          pure changed
        else do
          dlookupAllocAdd oldDir newname
          dlookupDel oldpath
          iput oldDir
          iput newDir
          pure 0

/-- The calls of a session. -/
inductive Call where
  | open (path : List Char) (flags : OpenFlags)
  | close (fd : Int)
  | access (path : List Char)
  | stat (path : List Char)
  | fstat (fd : Int)
  | truncate (path : List Char) (length : Nat)
  | ftruncate (fd : Int) (length : Nat)
  | mkdir (path : List Char)
  | lookup (path : List Char)
  | unlink (path : List Char)
  | rename (oldpath newpath : List Char)
deriving DecidableEq, Repr

/-- Execute a call and drop its result. -/
def Call.execute : Call -> Ns PUnit
  | .open path flags => do
      let _ ← posixOpen path flags
      pure PUnit.unit
  | close fd => do
      let _ ← posixClose fd
      pure PUnit.unit
  | access path => do
      let _ ← posixAccess path
      pure PUnit.unit
  | stat path => do
      let _ ← posixStat path
      pure PUnit.unit
  | fstat fd => do
      let _ ← posixFstat fd
      pure PUnit.unit
  | truncate path length => do
      let _ ← posixTruncate path length
      pure PUnit.unit
  | ftruncate fd length => do
      let _ ← posixFtruncate fd length
      pure PUnit.unit
  | mkdir path => do
      let _ ← posixMkdir path
      pure PUnit.unit
  | lookup path => do
      let _ ← namei path
      pure PUnit.unit
  | unlink path => do
      let _ ← posixUnlink path
      pure PUnit.unit
  | rename oldpath newpath => do
      let _ ← posixRename oldpath newpath
      pure PUnit.unit

/-- The name space after `init_fs`: the root inode, known by its number and by the
mount point. -/
def Namespace.start (kernel : Kernel) (behind : Nat -> Nat) (size root : Nat) : Namespace where
  kernel := kernel
  inode := fun _ => NsInode.loaded rootIno (kernel.itype rootIno) false size root (kernel.zeroed 0)
  next := 1
  inodeHash := Function.update (fun _ => none) rootIno (some 0)
  dlookupHash := Function.update (fun _ => none) mountpoint (some 0)
  openFiles := fun _ => ⟨0, .none, 0⟩
  table := InodeTable.init kernel.inodeBase behind
  created := []

/-- A kernel without directory entries; fresh memory is zero. -/
def Kernel.bare : Kernel where
  inodeBase := 256
  itype := fun _ => .dir
  record := fun _ => none
  entry := fun _ _ => 0
  block := fun _ => []
  freshDeleting := fun _ => false
  zeroed := fun _ => true
  wildUden := false
  overrun := fun _ files => files
  validBase := ⟨by decide, by decide⟩
  reserved_root := by
    unfold sessionNumbers rootIno
    simp only [List.mem_map, List.mem_range, not_exists, not_and]
    omega
  reserved_entry := by
    unfold sessionNumbers
    simp only [List.mem_map, List.mem_range, not_exists, not_and]
    omega
  reserved_block := fun _ _ listed => absurd listed List.not_mem_nil

/-- A session with an empty root directory. -/
def freshNamespace : Namespace :=
  Namespace.start Kernel.bare (fun _ => 0) 0 0

/-! ## Rules for the small steps -/

section Rules

variable {ns : Namespace} {ip : Nat} {failed : Fault -> Namespace -> Prop}

@[simp]
theorem update_inode_self (ns : Namespace) (ip : Nat) (change : NsInode -> NsInode) :
    (ns.update ip change).inode ip = change (ns.inode ip) := by
  simp [Namespace.update]

theorem update_inode_other (ns : Namespace) {ip other : Nat} (change : NsInode -> NsInode)
    (different : other ≠ ip) : (ns.update ip change).inode other = ns.inode other := by
  simp [Namespace.update, different]

@[simp]
theorem icacheAdd_inode_next (ns : Namespace) (inode : NsInode) :
    (ns.icacheAdd inode).inode ns.next = inode := by
  simp [Namespace.icacheAdd]

theorem icacheAdd_inode_other (ns : Namespace) (inode : NsInode) (different : ip ≠ ns.next) :
    (ns.icacheAdd inode).inode ip = ns.inode ip := by
  simp [Namespace.icacheAdd, different]

@[simp]
theorem ensures_nsInode {done : NsInode -> Namespace -> Prop} :
    Ensures (nsInode ip) ns done failed <-> done (ns.inode ip) ns := by
  simp only [nsInode, Ensures.bind_iff, Ensures.get_iff, Ensures.pure_iff]

@[simp]
theorem ensures_onInode {change : NsInode -> NsInode} {done : PUnit -> Namespace -> Prop} :
    Ensures (onInode ip change) ns done failed <-> done PUnit.unit (ns.update ip change) :=
  Ensures.modify_iff

@[simp]
theorem ensures_icacheAdd {inode : NsInode} {done : Nat -> Namespace -> Prop} :
    Ensures (icacheAdd inode) ns done failed <-> done ns.next (ns.icacheAdd inode) := by
  simp only [icacheAdd, Ensures.bind_iff, Ensures.get_iff, Ensures.modify_iff, Ensures.pure_iff]

theorem ensures_artSearch {dir : Nat} {name : Name} {tree : Name -> Option Dentry}
    {done : Option Dentry -> Namespace -> Prop} (set : (ns.inode dir).dentryTree = some tree) :
    Ensures (artSearch dir name) ns done failed <-> done (tree name) ns := by
  simp only [artSearch, Ensures.bind_iff, ensures_nsInode, set, Ensures.pure_iff]

/-- The name space with a new entry in a directory: a number is taken, the inode stands
at the next address. -/
def Namespace.withEntry (ns : Namespace) (parent : Nat) (filename : Name) (type : FileType) :
    Namespace :=
  ({ ns with
      table := (findInodeBitmap ns.table).2
      created := if type = FileType.file then ns.created ++ [ns.next] else ns.created }.icacheAdd
    (NsInode.new (findInodeBitmap ns.table).1 type (ns.kernel.zeroed ns.next))).update parent (fun inode =>
      { inode.artInsert filename ⟨.addden, (findInodeBitmap ns.table).1, type⟩ with
        size := add64 inode.size (dirRecLen filename.length) })

theorem ensures_createEntry {parent : Nat} {filename : Name} {type : FileType}
    {done : Nat -> Namespace -> Prop} :
    Ensures (createEntry parent filename type) ns done failed <->
      if (findInodeBitmap ns.table).1 = 0 then failed (.panic "cannot allocate inode\n") ns
      else done ns.next (ns.withEntry parent filename type) := by
  simp only [createEntry, Ensures.bind_iff, Ensures.get_iff, Ensures.ite_iff, Ensures.throw_iff,
    Ensures.modify_iff, ensures_icacheAdd, ensures_onInode, Ensures.pure_iff]
  rfl

theorem withEntry_inode_self {parent : Nat} (filename : Name) (type : FileType)
    (different : parent ≠ ns.next) :
    (ns.withEntry parent filename type).inode parent =
      { (ns.inode parent).artInsert filename ⟨.addden, (findInodeBitmap ns.table).1, type⟩ with
        size := add64 (ns.inode parent).size (dirRecLen filename.length) } := by
  rw [Namespace.withEntry, update_inode_self]
  simp only [Namespace.icacheAdd, Function.update_of_ne different]

theorem withEntry_inode_next {parent : Nat} (filename : Name) (type : FileType)
    (different : parent ≠ ns.next) :
    (ns.withEntry parent filename type).inode ns.next =
      NsInode.new (findInodeBitmap ns.table).1 type (ns.kernel.zeroed ns.next) := by
  rw [Namespace.withEntry, update_inode_other _ _ (Ne.symm different)]
  simp only [Namespace.icacheAdd, Function.update_self]

theorem withEntry_inode_other {parent : Nat} (filename : Name) (type : FileType)
    (different : ip ≠ parent) (old : ip ≠ ns.next) :
    (ns.withEntry parent filename type).inode ip = ns.inode ip := by
  rw [Namespace.withEntry, update_inode_other _ _ different]
  simp only [Namespace.icacheAdd, Function.update_of_ne old]

/-- The name space after `enterNames`. -/
def Namespace.named (ns : Namespace) (parent : Nat) (name : Name) (path : List Char) (ip : Nat) :
    Namespace :=
  { ns.update parent (fun inode =>
      { inode with
        iRef := inode.iRef - 1
        deCache := Function.update inode.deCache name (some ip) }) with
    dlookupHash := if ns.dlookupHash path = none then Function.update ns.dlookupHash path (some ip)
      else ns.dlookupHash }

theorem ensures_ownSearch_memory {dir : Nat} {name lookupName : Name}
    {tree : Name -> Option Dentry} {done : Option Dentry -> Namespace -> Prop}
    (set : (ns.inode dir).dentryTree = some tree) (read : ¬ (ns.inode dir).Unread) :
    Ensures (ownSearch dir name lookupName) ns done failed <-> done (tree name) ns := by
  rw [ownSearch, Ensures.bind_iff, ensures_artSearch set]
  cases tree name with
  | some uden => exact Ensures.pure_iff
  | none => simp only [Ensures.bind_iff, ensures_nsInode, if_neg read, Ensures.pure_iff]

/-- The name space with an entry of a directory turned into a tombstone. -/
def Namespace.withoutEntry (ns : Namespace) (dir : Nat) (name : Name) (uden : Dentry) : Namespace :=
  { ns with table := (putInodeBitmap ns.table uden.ino).2 }.update dir (fun inode =>
    { inode.artInsert name { uden with addordel := .delden } with
      size := sub64 inode.size (dirRecLen 8)
      deCache := Function.update inode.deCache name none })

theorem ensures_removeFound {dir : Nat} {name : Name} {uden : Dentry}
    {done : Int -> Namespace -> Prop} :
    Ensures (removeFound dir name uden) ns done failed <->
      if uden.ino = 0 then failed (.assertion "pde->ino != 0") ns
      else done 0 (ns.withoutEntry dir name uden) := by
  simp only [removeFound, Ensures.bind_iff, Ensures.ite_iff, Ensures.throw_iff, Ensures.modify_iff,
    ensures_onInode, Ensures.pure_iff]
  rfl

theorem ensures_dlookupAllocAdd {path : List Char} {done : PUnit -> Namespace -> Prop} :
    Ensures (dlookupAllocAdd ip path) ns done failed <->
      if maxPath ≤ path.length then failed .segfault ns
      else done PUnit.unit
        { ns with dlookupHash := Function.update ns.dlookupHash path (some ip) } := by
  simp only [dlookupAllocAdd, Ensures.ite_iff, Ensures.throw_iff, Ensures.modify_iff]

theorem ensures_enterNames {parent : Nat} {name : Name} {path : List Char}
    {done : Nat -> Namespace -> Prop} :
    Ensures (enterNames parent name path ip) ns done failed <->
      if ns.dlookupHash path = none ∧ maxPath ≤ path.length then
        failed .segfault (ns.update parent (fun inode =>
          { inode with
            iRef := inode.iRef - 1
            deCache := Function.update inode.deCache name (some ip) }))
      else done ip (ns.named parent name path ip) := by
  have merged : (ns.update parent (fun inode => { inode with iRef := inode.iRef - 1 })).update parent
      (fun inode => { inode with deCache := Function.update inode.deCache name (some ip) }) =
      ns.update parent (fun inode =>
        { inode with
          iRef := inode.iRef - 1
          deCache := Function.update inode.deCache name (some ip) }) := by
    simp [Namespace.update]
  simp only [enterNames, iput, deCacheAllocAdd, Ensures.bind_iff, ensures_onInode, Ensures.get_iff,
    merged]
  have hash : (ns.update parent (fun inode =>
      { inode with
        iRef := inode.iRef - 1
        deCache := Function.update inode.deCache name (some ip) })).dlookupHash = ns.dlookupHash := rfl
  rw [hash]
  cases found : ns.dlookupHash path with
  | some other =>
      simp only [Ensures.pure_iff, Namespace.named, found, reduceCtorEq, false_and, if_false]
      rfl
  | none =>
      simp only [Ensures.bind_iff, ensures_dlookupAllocAdd, Ensures.pure_iff, Namespace.named, found,
        true_and, if_true]
      rfl

end Rules

end Userfs.Filesystem
