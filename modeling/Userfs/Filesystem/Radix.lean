import Userfs.Filesystem.Bmap

namespace Userfs.Filesystem

open Ds
open Io
open SearchTree
open Word

/-!
# The kernel's radix tree

The kernel keeps the block addresses of a file in a radix tree: the base-512
digits of a block number, from the most significant one on, select the entries
that lead from the root to the pointer of a 2 MB region.  `radixPath` states this
with the digits of the block number itself; the walk of `bmap` divides a running
remainder instead.  Both agree for every height, and a leaf pointer is then
reported as its tag says.
-/

/-- An entry of a table on the NVM. -/
def Store.entry (store : Store) (address index : Nat) : Nat :=
  leValue (store.disk 1) (address + 8 * index) 8

/-- The digit of a block number that selects an entry at some height. -/
def radixDigit (blocknr level : Nat) : Nat :=
  blocknr / 512 ^ level % 512

/-- The pointer of the 2 MB region of a block number; `none` behind a null
pointer. -/
def Store.radixPath (store : Store) (blocknr : Nat) : Nat -> Nat -> Option Nat
  | 0, pointer => some pointer
  | height + 1, pointer =>
      if store.entry pointer (radixDigit blocknr (height + 1)) = 0 then none
      else store.radixPath blocknr height (store.entry pointer (radixDigit blocknr (height + 1)))

/-- A radix tree of some height: interior tables lie in the mapping, and a
pointer of a 2 MB region names a chunk of an SSD or a table in the mapping. -/
def Store.RadixTree (store : Store) : Nat -> Nat -> Prop
  | 0, pointer => 0 < tagOf pointer ∨ pointer + gBlockSizeBytes ≤ devSize 1
  | height + 1, pointer =>
      pointer + gBlockSizeBytes ≤ devSize 1 ∧
        forall index, index < 512 -> store.entry pointer index ≠ 0 ->
          store.RadixTree height (store.entry pointer index)

/-- Root and height as the process knows them, or as the kernel reports them. -/
def Store.radixRoot (store : Store) (ip : Nat) : Option (Nat × Nat) :=
  if (store.inode ip).height = 0 ∧ (store.inode ip).root = 0 then
    store.environment.fetchInode (store.inode ip).inum
  else some ((store.inode ip).root, (store.inode ip).height)

/-- The extents that a leaf pointer stands for. -/
def Store.leafBlocks (store : Store) (pointer offset : Nat) : List Block :=
  if 0 < tagOf pointer then
    [⟨tagOf pointer + 1, chunkFloor offset, chunkSize, untag pointer / 4096⟩]
  else
    (List.range 512).map (tableBlock (store.entry pointer) (offset / 4096 % 512) (chunkFloor offset))

/-- What `bmap` reports for a leaf pointer: the chunk with the device of its tag,
or the entry of the block with the device of the entry's own tag. -/
def Store.leafAnswer (store : Store) (pointer : Nat) (request : BmapRequest) : BmapRequest :=
  if 0 < tagOf pointer then
    ⟨chunkFloor request.startOffset, untag pointer / 4096, tagOf pointer + 1, 512⟩
  else
    { request with
      blockNo := untag (store.entry pointer (request.startOffset / 4096 % 512)) / 4096
      dev := tagOf (store.entry pointer (request.startOffset / 4096 % 512)) + 1
      blkCountFound := 1 }

/-! ## The walk -/

theorem radixDigit_of_mod (blocknr height : Nat) :
    blocknr % 512 ^ (height + 2) / 2 ^ ((height + 1) * 9) = radixDigit blocknr (height + 1) := by
  have power : 2 ^ ((height + 1) * 9) = 512 ^ (height + 1) := by
    rw [Nat.mul_comm, Nat.pow_mul]
  have wider : 512 ^ (height + 2) = 512 ^ (height + 1) * 512 := Nat.pow_succ 512 (height + 1)
  unfold radixDigit
  rw [power, wider, Nat.mod_mul_right_div_self]

theorem radixDigit_rest (blocknr height : Nat) :
    blocknr % 512 ^ (height + 2) % 2 ^ ((height + 1) * 9) = blocknr % 512 ^ (height + 1) := by
  have power : 2 ^ ((height + 1) * 9) = 512 ^ (height + 1) := by
    rw [Nat.mul_comm, Nat.pow_mul]
  rw [power]
  exact Nat.mod_mod_of_dvd blocknr (Nat.pow_dvd_pow 512 (Nat.le_succ (height + 1)))

section Walk

variable {store : Store} {failed : Fault -> Store -> Prop}

theorem ensures_readNode {address : Nat} {done : (Nat -> Nat) -> Store -> Prop}
    (mapped : address + gBlockSizeBytes ≤ devSize 1) :
    Ensures (readNode address) store done failed <-> done (store.entry address) store := by
  simp only [readNode, Ensures.bind_iff, Ensures.get_iff, Ensures.ite_iff]
  rw [if_pos mapped]
  exact Ensures.pure_iff

/-- The walk with the running remainder follows the digits of the block number. -/
theorem ensures_radixWalk {height pointer : Nat} (blocknr : Nat)
    {done : Option Nat -> Store -> Prop} (tree : store.RadixTree height pointer)
    (meets : done (store.radixPath blocknr height pointer) store) :
    Ensures (radixWalk height pointer (blocknr % 512 ^ (height + 1))) store done failed := by
  induction height generalizing pointer with
  | zero => exact Ensures.pure_iff.mpr meets
  | succ height ih =>
      rw [radixWalk, Ensures.bind_iff, ensures_readNode tree.1]
      simp only [radixDigit_of_mod, radixDigit_rest]
      have narrow : radixDigit blocknr (height + 1) < 512 := Nat.mod_lt _ (by decide)
      rw [Ensures.ite_iff, if_neg (Nat.not_le.mpr narrow), Ensures.ite_iff]
      rw [Store.radixPath] at meets
      have below := tree.2 _ narrow
      -- only the entry matters from here on
      generalize store.entry pointer (radixDigit blocknr (height + 1)) = next at meets below ⊢
      rcases Nat.eq_zero_or_pos next with null | present
      · rw [if_pos null] at meets ⊢
        exact Ensures.pure_iff.mpr meets
      · rw [if_neg (Nat.ne_of_gt present)] at meets ⊢
        exact ih (below (Nat.ne_of_gt present)) meets

/-- The inode after a leaf was entered in its block tree. -/
def Store.withBlocks (store : Store) (ip : Nat) (blocks : List Block) : Store :=
  store.updateInode ip (fun inode =>
    { inode with blktree := insertAll store.environment.rebalancing inode.blktree blocks })

theorem untag_of_untagged {pointer : Nat} (untagged : ¬ 0 < tagOf pointer) :
    untag pointer = pointer := by
  unfold tagOf at untagged
  unfold untag
  omega

theorem tableBlock_self (node : Nat -> Nat) (key start : Nat) :
    (tableBlock node key start key).addr = untag (node key) / 4096 := by
  unfold tableBlock
  simp only
  generalize node key = entry
  rcases Nat.eq_zero_or_pos (tagOf entry) with untagged | tagged
  · rw [if_neg (by omega), untag_of_untagged (by omega)]
  · rw [if_pos tagged]

theorem ensures_bmapLeaf {ip pointer : Nat} {request : BmapRequest}
    {done : BmapRequest -> Store -> Prop} (tree : store.RadixTree 0 pointer) :
    Ensures (bmapLeaf ip pointer request) store done failed <->
      done (store.leafAnswer pointer request)
        (store.withBlocks ip (store.leafBlocks pointer request.startOffset)) := by
  unfold bmapLeaf Store.leafAnswer Store.leafBlocks
  rw [Ensures.ite_iff]
  rcases Nat.eq_zero_or_pos (tagOf pointer) with untagged | tagged
  · have plain : ¬ 0 < tagOf pointer := by omega
    have mapped := tree.resolve_left plain
    rw [if_neg plain, if_neg plain, if_neg plain, Ensures.bind_iff, ensures_readNode mapped]
    simp only [bmapTable, insertBlocks, Ensures.bind_iff, Ensures.modify_iff, Ensures.pure_iff]
    rw [tableBlock_self]
    rfl
  · rw [if_pos tagged, if_pos tagged, if_pos tagged]
    simp only [bmapChunk, insertBlocks, Ensures.bind_iff, Ensures.modify_iff, Ensures.pure_iff]
    rfl

/-- The inode once root and height are known. -/
def Store.rooted (store : Store) (ip root height : Nat) : Store :=
  store.updateInode ip (fun inode => { inode with root := root, height := height })

theorem rooted_self (store : Store) (ip : Nat) :
    store.rooted ip (store.inode ip).root (store.inode ip).height = store := by
  unfold Store.rooted Store.updateInode
  rw [Function.update_eq_self_iff.mpr rfl]

theorem ensures_fetchRoot {ip root height : Nat} {done : PUnit -> Store -> Prop}
    (known : store.radixRoot ip = some (root, height)) :
    Ensures (fetchRoot ip) store done failed <->
      done PUnit.unit (store.rooted ip root height) := by
  simp only [fetchRoot, Ensures.bind_iff, Ensures.get_iff, ensures_readInode]
  unfold Store.radixRoot at known
  rw [Ensures.ite_iff]
  by_cases unknown : (store.inode ip).height = 0 ∧ (store.inode ip).root = 0
  · rw [if_pos unknown] at known ⊢
    rw [known]
    exact ensures_modifyInode
  · rw [if_neg unknown] at known ⊢
    cases known
    rw [rooted_self]
    exact Ensures.pure_iff

end Walk

/-! ## The lookup -/

/-- A kernel tree that `bmap` can reach: the file offset lies below `ksize` and in
the range of the tree, whose root is known or reported. -/
structure Reachable (store : Store) (ip offset root height : Nat) : Prop where
  below : offset < (store.inode ip).ksize
  known : store.radixRoot ip = some (root, height)
  tree : store.RadixTree height root
  range : offset < 4096 * 512 ^ (height + 1)

theorem radixPath_rooted (store : Store) (ip root height blocknr level pointer : Nat) :
    (store.rooted ip root height).radixPath blocknr level pointer =
      store.radixPath blocknr level pointer := by
  induction level generalizing pointer with
  | zero => rfl
  | succ level ih =>
      rw [Store.radixPath, Store.radixPath, ih]
      rfl

theorem radixTree_rooted (store : Store) (ip root height level pointer : Nat) :
    (store.rooted ip root height).RadixTree level pointer <-> store.RadixTree level pointer := by
  induction level generalizing pointer with
  | zero => rfl
  | succ level ih =>
      rw [Store.RadixTree, Store.RadixTree]
      simp only [ih]
      rfl

/-- The pointer at the end of a path stands for a chunk or a table. -/
theorem Store.RadixTree.leaf {store : Store} {blocknr height pointer leaf : Nat}
    (tree : store.RadixTree height pointer)
    (path : store.radixPath blocknr height pointer = some leaf) : store.RadixTree 0 leaf := by
  induction height generalizing pointer with
  | zero =>
      cases path
      exact tree
  | succ height ih =>
      have narrow : radixDigit blocknr (height + 1) < 512 := Nat.mod_lt _ (by decide)
      have below := tree.2 _ narrow
      rw [Store.radixPath] at path
      generalize store.entry pointer (radixDigit blocknr (height + 1)) = next at path below
      rcases Nat.eq_zero_or_pos next with null | present
      · rw [if_pos null] at path
        exact nomatch path
      · rw [if_neg (Nat.ne_of_gt present)] at path
        exact ih (below (Nat.ne_of_gt present)) path

/-- Everything `bmap` does on a tree it can reach. -/
theorem ensures_bmap {store : Store} {ip root height : Nat} {request : BmapRequest}
    (reachable : Reachable store ip request.startOffset root height) :
    Ensures (bmap ip request) store
      (fun result next => result.1 = 0 ∧
        match store.radixPath (request.startOffset / 4096) height root with
        | none => result.2 = request ∧ next = store.rooted ip root height
        | some pointer => result.2 = store.leafAnswer pointer request ∧
            next = (store.rooted ip root height).withBlocks ip
              (store.leafBlocks pointer request.startOffset))
      (fun _ _ => False) := by
  have digits : request.startOffset / 4096 =
      request.startOffset / 4096 % 512 ^ (height + 1) := by
    have range := reachable.range
    rw [Nat.mod_eq_of_lt]
    exact Nat.div_lt_of_lt_mul range
  have rootedInode : (store.rooted ip root height).inode ip =
      { store.inode ip with root := root, height := height } :=
    updateInode_inode_self store ip _
  have tree := (radixTree_rooted store ip root height height root).mpr reachable.tree
  have walk : forall done : Option Nat -> Store -> Prop,
      done (store.radixPath (request.startOffset / 4096) height root)
        (store.rooted ip root height) ->
      Ensures (radixWalk height root (request.startOffset / 4096)) (store.rooted ip root height) done
        (fun _ _ => False) := by
    intro done meets
    rw [digits]
    refine ensures_radixWalk _ tree ?_
    rw [radixPath_rooted]
    exact meets
  unfold bmap
  rw [Ensures.bind_iff, ensures_readInode, Ensures.ite_iff,
    if_neg (Nat.not_le.mpr reachable.below), Ensures.bind_iff, ensures_fetchRoot reachable.known,
    Ensures.bind_iff, ensures_readInode, rootedInode, Ensures.bind_iff]
  refine walk _ ?_
  cases path : store.radixPath (request.startOffset / 4096) height root with
  | none =>
      exact Ensures.pure_iff.mpr ⟨rfl, rfl, rfl⟩
  | some pointer =>
      simp only [Ensures.bind_iff]
      rw [ensures_bmapLeaf ((radixTree_rooted _ _ _ _ _ _).mpr (reachable.tree.leaf path))]
      exact Ensures.pure_iff.mpr ⟨rfl, rfl, rfl⟩

/-- `bmap` walks the kernel's radix tree by the base-512 digits of the block
number.  For an offset below `ksize` and in the range of the tree it returns 0: with
the request untouched where the path meets a null pointer, and otherwise with the
chunk that the leaf pointer names, or with the entry of the block in the table that
it points to, each under its own tag.  This is the code for heights up to 3: above, its
shift of an `int` runs out of 32 bits. -/
theorem bmap_follows_digits (store : Store) (ip root height : Nat) (request : BmapRequest)
    (below : request.startOffset < (store.inode ip).ksize)
    (known : store.radixRoot ip = some (root, height)) (tree : store.RadixTree height root)
    (range : request.startOffset < 4096 * 512 ^ (height + 1)) :
    Ensures (bmap ip request) store
      (fun result _ => result.1 = 0 ∧
        result.2 =
          match store.radixPath (request.startOffset / 4096) height root with
          | none => request
          | some pointer => store.leafAnswer pointer request)
      (fun _ _ => False) := by
  refine (ensures_bmap ⟨below, known, tree, range⟩).mono ?_ (fun _ _ fault => fault)
  rintro result next ⟨zero, found⟩
  refine ⟨zero, ?_⟩
  split at found
  · exact found.1
  · exact found.1

/-- A file whose kernel tree has height 1: the first region has a table at 8192,
whose second entry is the block at 12288 of the second SSD. -/
def tableStore : Store :=
  { freshStore with
    inode := fun ip => { Inode.created ip 0 0 1 with ksize := 8192, root := 4096 }
    disk := fun _ address =>
      if address = 4097 then 32 else if address = 8201 then 48 else if address = 8207 then 128 else 0 }

theorem tableStore_tree : tableStore.RadixTree 1 4096 := by
  refine ⟨by decide, ?_⟩
  have entries : forall index, index < 512 -> tableStore.entry 4096 index ≠ 0 ->
      0 < tagOf (tableStore.entry 4096 index) ∨
        tableStore.entry 4096 index + gBlockSizeBytes ≤ devSize 1 := by
    decide +kernel
  exact entries

theorem bmap_follows_digits_table :
    Ensures (bmap 0 ⟨4096, 0, 0, 0⟩) tableStore
      (fun result _ => result.1 = 0 ∧ result.2 = ⟨4096, 3, 3, 1⟩) (fun _ _ => False) := by
  have walked := bmap_follows_digits tableStore 0 4096 1 ⟨4096, 0, 0, 0⟩ (by decide) (by decide)
    tableStore_tree (by decide)
  refine walked.mono ?_ (fun _ _ fault => fault)
  rintro result next ⟨zero, found⟩
  exact ⟨zero, found.trans (by decide +kernel)⟩

end Userfs.Filesystem
