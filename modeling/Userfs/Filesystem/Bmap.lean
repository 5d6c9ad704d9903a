import Userfs.Filesystem.Store

namespace Userfs.Filesystem

open Ds
open Io
open SearchTree
open Word

/-!
# Lookup in the kernel's block tree

Below `ksize` the location of file data may be known to the kernel only, which
keeps it in a radix tree of 4 KiB tables on the NVM.  `bmap` walks this tree
through the DAX mapping and copies what it finds into the block tree of the inode.
A pointer carries the device in its two top bits: a tagged leaf names a 2 MB chunk
of an SSD, an untagged one a table of 512 single blocks.
-/

/-- `struct bmap_request`. -/
structure BmapRequest where
  startOffset : Nat
  blockNo : Nat
  dev : Nat
  blkCountFound : Nat
deriving DecidableEq, Repr

/-- Copy a table of the radix tree from the NVM mapping. -/
def readNode (address : Nat) : Fs (Nat -> Nat) := do
  let store ← get
  if address + gBlockSizeBytes ≤ devSize 1 then
    pure (fun index => leValue (store.disk 1) (address + 8 * index) 8)
  else throw .segfault

/-- The device bits of a pointer. -/
def tagOf (pointer : Nat) : Nat :=
  pointer / 2 ^ 62

/-- A pointer without its device bits. -/
def untag (pointer : Nat) : Nat :=
  pointer % 2 ^ 62

/-- `ALIGN_FLOOR` to the 2 MB boundary. -/
def chunkFloor (offset : Nat) : Nat :=
  offset / chunkSize * chunkSize

/-- Insert extents into a block tree one after another. -/
def insertAll (rb : Rebalancing Block) (tree : BinaryTree Block) (blocks : List Block) :
    BinaryTree Block :=
  blocks.foldl (fun tree block => (blockInsert rb tree block).1) tree

/-- Insert extents into the block tree of an inode. -/
def insertBlocks (ip : Nat) (blocks : List Block) : Fs PUnit :=
  modify (fun store => store.updateInode ip (fun inode =>
    { inode with blktree := insertAll store.environment.rebalancing inode.blktree blocks }))

/-- A tagged leaf: one extent for the whole chunk. -/
def bmapChunk (ip pointer : Nat) (request : BmapRequest) : Fs BmapRequest := do
  let start := chunkFloor request.startOffset
  insertBlocks ip [⟨tagOf pointer + 1, start, chunkSize, untag pointer / 4096⟩]
  pure ⟨start, untag pointer / 4096, tagOf pointer + 1, 512⟩

/-- The extent `bmap` builds from entry `index` of a table.  The device of all
entries is taken from the entry of the request. -/
def tableBlock (node : Nat -> Nat) (key start index : Nat) : Block where
  devid := tagOf (node key) + 1
  fileoff := start + index * 4096
  size := 4096
  addr := if 0 < tagOf (node key) then untag (node index) / 4096 else node index / 4096

/-- A table of single blocks: 512 extents. -/
def bmapTable (ip : Nat) (node : Nat -> Nat) (request : BmapRequest) : Fs BmapRequest := do
  let key := request.startOffset / 4096 % 512
  let start := chunkFloor request.startOffset
  insertBlocks ip ((List.range 512).map (tableBlock node key start))
  pure { request with
    blockNo := (tableBlock node key start key).addr
    dev := (tableBlock node key start key).devid
    blkCountFound := 1 }

/-- Descend from a table of some height to the pointer of the 2 MB region; a
null pointer on the way gives `none`.  An index behind the table is read outside
the local array. -/
def radixWalk : Nat -> Nat -> Nat -> Fs (Option Nat)
  | 0, pointer, _ => pure (some pointer)
  | height + 1, pointer, blocknr => do
      let node ← readNode pointer
      let index := blocknr / 2 ^ ((height + 1) * 9)
      if 512 ≤ index then throw .segfault
      else if node index = 0 then pure none
      else radixWalk height (node index) (blocknr % 2 ^ ((height + 1) * 9))

/-- Insert what a leaf pointer says and complete the request. -/
def bmapLeaf (ip pointer : Nat) (request : BmapRequest) : Fs BmapRequest := do
  if 0 < tagOf pointer then bmapChunk ip pointer request
  else do
    let node ← readNode pointer
    bmapTable ip node request

/-- Fetch root and height from the kernel when the inode has neither. -/
def fetchRoot (ip : Nat) : Fs PUnit := do
  let store ← get
  let inode ← readInode ip
  if inode.height = 0 ∧ inode.root = 0 then
    match store.environment.fetchInode inode.inum with
    | none => throw (.panic "syscall fetch inode error\n")
    | some (root, height) =>
        modifyInode ip (fun inode => { inode with root := root, height := height })
  else pure PUnit.unit

/-- `bmap`: the return value and the request as it is left. -/
def bmap (ip : Nat) (request : BmapRequest) : Fs (Int × BmapRequest) := do
  let inode ← readInode ip
  if inode.ksize ≤ request.startOffset then pure (-6, request)
  else do
    fetchRoot ip
    let inode ← readInode ip
    let leaf ← radixWalk inode.height inode.root (request.startOffset / 4096)
    match leaf with
    | none => pure (0, request)
    | some pointer => do
        let found ← bmapLeaf ip pointer request
        pure (0, found)

/-! ## What a lookup leaves alone -/

/-- A lookup fetches root and height and enters extents in the tree of its inode;
everything else stays. -/
structure Consulted (ip : Nat) (store next : Store) : Prop where
  rest : next = { store with inode := next.inode }
  other : forall other, other ≠ ip -> next.inode other = store.inode other
  self : Exists fun root => Exists fun height => Exists fun blktree =>
    next.inode ip = { store.inode ip with root := root, height := height, blktree := blktree }

instance (ip : Nat) : Std.Refl (Consulted ip) where
  refl := fun store => ⟨rfl, fun _ _ => rfl, (store.inode ip).root, (store.inode ip).height,
    (store.inode ip).blktree, rfl⟩

instance (ip : Nat) : IsTrans Store (Consulted ip) where
  trans := by
    rintro first second third ⟨rest, other, _, _, _, self⟩ ⟨rest', other', root, height, blktree, self'⟩
    refine ⟨?_, fun inode different => (other' inode different).trans (other inode different), root,
      height, blktree, ?_⟩
    · rw [rest', rest]
    · rw [self', self]

theorem Consulted.updateInode {ip : Nat} (store : Store) {change : Inode -> Inode}
    {root height : Nat} {blktree : BinaryTree Block}
    (fills : change (store.inode ip) =
      { store.inode ip with root := root, height := height, blktree := blktree }) :
    Consulted ip store (store.updateInode ip change) := by
  refine ⟨rfl, fun other different => updateInode_inode_other store change different, root, height,
    blktree, ?_⟩
  rw [updateInode_inode_self, fills]

theorem consulted_readInode (ip : Nat) : Follows (Consulted ip) (readInode ip) :=
  fun store => ensures_readInode.mpr (Std.Refl.refl store)

theorem consulted_bmap (ip : Nat) (request : BmapRequest) :
    Follows (Consulted ip) (bmap ip request) := by
  have inode := consulted_readInode ip
  have node : forall address, Follows (Consulted ip) (readNode address) := fun address =>
    Follows.bind Follows.get (fun _ => Follows.ite (fun _ => Follows.pure _) (fun _ => Follows.throw _))
  have insert : forall blocks, Follows (Consulted ip) (insertBlocks ip blocks) :=
    fun blocks => Follows.modify (fun store => Consulted.updateInode store rfl)
  have walk : forall height pointer blocknr,
      Follows (Consulted ip) (radixWalk height pointer blocknr) := by
    intro height
    induction height with
    | zero => exact fun _ _ => Follows.pure _
    | succ height ih =>
        intro pointer blocknr
        apply Follows.bind (node pointer)
        intro table
        apply Follows.ite
        · exact fun _ => Follows.throw _
        · exact fun _ => Follows.ite (fun _ => Follows.pure _) (fun _ => ih _ _)
  have leaf : forall pointer, Follows (Consulted ip) (bmapLeaf ip pointer request) := by
    intro pointer
    apply Follows.ite
    · exact fun _ => Follows.bind (insert _) (fun _ => Follows.pure _)
    · exact fun _ => Follows.bind (node pointer)
        (fun _ => Follows.bind (insert _) (fun _ => Follows.pure _))
  have root : Follows (Consulted ip) (fetchRoot ip) := by
    refine Follows.bind Follows.get (fun store => Follows.bind inode (fun _ => ?_))
    refine Follows.ite (fun _ => ?_) (fun _ => Follows.pure _)
    split
    · exact Follows.throw _
    · exact Follows.modify (fun store => Consulted.updateInode store rfl)
  refine Follows.bind inode (fun _ => Follows.ite (fun _ => Follows.pure _) (fun _ => ?_))
  refine Follows.bind root (fun _ => Follows.bind inode (fun _ => Follows.bind (walk _ _ _) ?_))
  intro found
  cases found with
  | none => exact Follows.pure _
  | some pointer => exact Follows.bind (leaf pointer) (fun _ => Follows.pure _)

/-- A lookup may enter extents in block trees and fetch roots; it causes no event
and changes no file size. -/
structure Looked (store next : Store) : Prop where
  events : next.events = store.events
  size : forall ip, (next.inode ip).size = (store.inode ip).size

instance : Std.Refl Looked where
  refl := fun _ => ⟨rfl, fun _ => rfl⟩

instance : IsTrans Store Looked where
  trans := fun _ _ _ before after =>
    ⟨after.events.trans before.events, fun ip => (after.size ip).trans (before.size ip)⟩

theorem Looked.updateInode (store : Store) (ip : Nat) {change : Inode -> Inode}
    (keeps : forall inode, (change inode).size = inode.size) :
    Looked store (store.updateInode ip change) := by
  refine ⟨rfl, ?_⟩
  intro other
  by_cases same : other = ip
  · rw [same, updateInode_inode_self, keeps]
  · rw [updateInode_inode_other store change same]

theorem looked_readInode (ip : Nat) : Follows Looked (readInode ip) :=
  fun store => ensures_readInode.mpr (Std.Refl.refl store)

theorem Consulted.looked {ip : Nat} {store next : Store} (consulted : Consulted ip store next) :
    Looked store next := by
  refine ⟨by rw [consulted.rest], ?_⟩
  intro other
  by_cases same : other = ip
  · rcases consulted.self with ⟨_, _, _, equal⟩
    rw [same, equal]
  · rw [consulted.other other same]

theorem looked_bmap (ip : Nat) (request : BmapRequest) : Follows Looked (bmap ip request) :=
  fun store => (consulted_bmap ip request store).mono (fun _ _ consulted => consulted.looked)
    (fun _ _ consulted => consulted.looked)

/-- The devices and the environment stay as they are. -/
structure SameDevices (store next : Store) : Prop where
  disk : next.disk = store.disk
  environment : next.environment = store.environment

instance : Std.Refl SameDevices where
  refl := fun _ => ⟨rfl, rfl⟩

instance : IsTrans Store SameDevices where
  trans := fun _ _ _ before after =>
    ⟨after.disk.trans before.disk, after.environment.trans before.environment⟩

theorem Consulted.sameDevices {ip : Nat} {store next : Store} (consulted : Consulted ip store next) :
    SameDevices store next :=
  ⟨by rw [consulted.rest], by rw [consulted.rest]⟩

/-- A lookup does not touch the devices. -/
theorem sameDevices_bmap (ip : Nat) (request : BmapRequest) : Follows SameDevices (bmap ip request) :=
  fun store => (consulted_bmap ip request store).mono (fun _ _ consulted => consulted.sameDevices)
    (fun _ _ consulted => consulted.sameDevices)

/-- The faults of a lookup: an address outside the mapping, or the panic behind the
system call. -/
theorem raises_bmap (ip : Nat) (request : BmapRequest) :
    Raises (fun fault => fault = .segfault ∨ fault = .panic "syscall fetch inode error\n")
      (bmap ip request) := by
  have inode : Raises (fun fault => fault = .segfault ∨
      fault = .panic "syscall fetch inode error\n") (readInode ip) :=
    Raises.bind Raises.get (fun _ => Raises.pure _)
  have node : forall address, Raises (fun fault => fault = .segfault ∨
      fault = .panic "syscall fetch inode error\n") (readNode address) := fun address =>
    Raises.bind Raises.get (fun _ => Raises.ite (fun _ => Raises.pure _) (fun _ => Raises.throw (.inl rfl)))
  have walk : forall height pointer blocknr, Raises (fun fault => fault = .segfault ∨
      fault = .panic "syscall fetch inode error\n") (radixWalk height pointer blocknr) := by
    intro height
    induction height with
    | zero => exact fun _ _ => Raises.pure _
    | succ height ih =>
        intro pointer blocknr
        apply Raises.bind (node pointer)
        intro table
        apply Raises.ite
        · exact fun _ => Raises.throw (.inl rfl)
        · exact fun _ => Raises.ite (fun _ => Raises.pure _) (fun _ => ih _ _)
  have leaf : forall pointer, Raises (fun fault => fault = .segfault ∨
      fault = .panic "syscall fetch inode error\n") (bmapLeaf ip pointer request) := by
    intro pointer
    apply Raises.ite
    · exact fun _ => Raises.bind (Raises.modify _) (fun _ => Raises.pure _)
    · exact fun _ => Raises.bind (node pointer)
        (fun _ => Raises.bind (Raises.modify _) (fun _ => Raises.pure _))
  have root : Raises (fun fault => fault = .segfault ∨
      fault = .panic "syscall fetch inode error\n") (fetchRoot ip) := by
    refine Raises.bind Raises.get (fun store => Raises.bind inode (fun _ => ?_))
    refine Raises.ite (fun _ => ?_) (fun _ => Raises.pure _)
    split
    · exact Raises.throw (.inr rfl)
    · exact Raises.modify _
  refine Raises.bind inode (fun _ => Raises.ite (fun _ => Raises.pure _) (fun _ => ?_))
  refine Raises.bind root (fun _ => Raises.bind inode (fun _ => Raises.bind (walk _ _ _) ?_))
  intro found
  cases found with
  | none => exact Raises.pure _
  | some pointer => exact Raises.bind (leaf pointer) (fun _ => Raises.pure _)

/-- What a lookup can answer: the code is 0 or `-ENXIO`, and the request is left
alone, or completed with a chunk of an SSD or with one block. -/
structure BmapAnswer (request : BmapRequest) (result : Int × BmapRequest) : Prop where
  code : result.1 = 0 ∨ result.1 = -6
  found : result.2 = request ∨ (result.2.blkCountFound = 512 ∧ 1 < result.2.dev) ∨
    result.2.blkCountFound = 1

theorem ensures_bmap_answer (ip : Nat) (request : BmapRequest) (store : Store) :
    Ensures (bmap ip request) store (fun result _ => BmapAnswer request result)
      (fun _ _ => True) := by
  unfold bmap
  rw [Ensures.bind_iff, ensures_readInode, Ensures.ite_iff]
  split
  · exact Ensures.pure_iff.mpr ⟨.inr rfl, .inl rfl⟩
  · rw [Ensures.bind_iff]
    refine Ensures.always.mono (fun _ rooted _ => ?_) (fun _ _ _ => trivial)
    rw [Ensures.bind_iff, ensures_readInode, Ensures.bind_iff]
    refine Ensures.always.mono (fun found walked _ => ?_) (fun _ _ _ => trivial)
    cases found with
    | none => exact Ensures.pure_iff.mpr ⟨.inl rfl, .inl rfl⟩
    | some pointer =>
        simp only [bmapLeaf, Ensures.bind_iff, Ensures.ite_iff, Ensures.pure_iff]
        split
        · rename_i tagged
          simp only [bmapChunk, insertBlocks, Ensures.bind_iff, Ensures.modify_iff, Ensures.pure_iff]
          exact ⟨.inl rfl, .inr (.inl ⟨rfl, Nat.succ_lt_succ tagged⟩)⟩
        · refine Ensures.always.mono (fun node read _ => ?_) (fun _ _ _ => trivial)
          simp only [bmapTable, insertBlocks, Ensures.bind_iff, Ensures.modify_iff, Ensures.pure_iff]
          exact ⟨.inl rfl, .inr (.inr rfl)⟩

end Userfs.Filesystem
