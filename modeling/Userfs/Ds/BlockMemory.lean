import Mathlib.Data.List.Perm.Subperm
import Userfs.Ds.BlockTree
import Userfs.Ds.RbInsert
import Userfs.Library.MappedTree
import Userfs.Library.Refinement

namespace Userfs.Ds

open RedBlack SearchTree

/-!
# The block tree in memory

`blktree.h` links `struct block_node` records, each with an `rb_node` inside, into the
red-black tree of an inode.  The functions below walk the nodes in memory and call
`rb_link_node` and `rb_insert_color`; `Ds.BlockTree` has the same functions on a plain
tree, with the rebalancing left open.

Memory refines that tree: what `block_insert` does in memory is what `blockInsert` does for
some rebalancing, and with it the map from file offsets to device locations that every
later lookup computes.
-/

/-- The tree nodes, and the other fields of the block node at each address. -/
structure BlockHeap where
  tree : RbMemory
  block : Nat -> Block

abbrev BlockM := EStateM Fault BlockHeap

def onTree {X : Type} (program : Rb X) : BlockM X :=
  onPart BlockHeap.tree (fun tree heap => { heap with tree := tree }) program

/-- The loops of `block_search` and of the first half of `block_insert`: the node where a
comparison stops the walk, or `NULL`. -/
def walkTo (side : Block -> Ordering) : Nat -> Nat -> BlockM Nat
  | 0, _ => throw .outOfFuel
  | fuel + 1, node => do
      if node = 0 then pure 0
      else do
        let content ← onTree (loadNode node)
        let heap ← get
        match side (heap.block node) with
        | .lt => walkTo side fuel content.left
        | .gt => walkTo side fuel content.right
        | .eq => pure node

/-- `block_search` on memory. -/
def blockSearchNode (fuel offset : Nat) : BlockM Nat := do
  let heap ← get
  walkTo (fun block => fileoffcmp offset block.fileoff block.size) fuel heap.tree.root

/-- The second half of `block_insert`: a walk by starting offset and a new node. -/
def blockLinkNode (fuel pointer : Nat) : BlockM Nat := do
  let heap ← get
  let link ← onTree (rbFindLink
    (fun this => compare (heap.block pointer).fileoff (heap.block this).fileoff) fuel 0 .left)
  match link with
  | none => pure 0
  | some (parent, side) => onTree (do
      rbLinkNode pointer parent side
      rbInsertColor fuel pointer
      pure 1)

/-- `block_insert` on memory, for the block node at an address. -/
def blockInsertNode (fuel pointer : Nat) : BlockM Nat := do
  let heap ← get
  let block := heap.block pointer
  let this ← walkTo (fun this => nodecmp block.fileoff this.fileoff this.size) fuel heap.tree.root
  match if this = 0 then none else mergeInto block (heap.block this) with
  | some grown => do
      modify (fun heap => { heap with block := Function.update heap.block this grown })
      pure 0
  | none => blockLinkNode fuel pointer

/-- The extents of a linked tree. -/
def extents (heap : BlockHeap) (linked : ColorTree Nat) : BinaryTree Block :=
  linked.shape.map heap.block

section Memory

variable {heap : BlockHeap} {linked : ColorTree Nat} {frames : List (Frame Nat)}
  {fuel pointer count : Nat} {failed : Fault -> BlockHeap -> Prop}

theorem ensures_onTree {X : Type} {program : Rb X} {done : X -> BlockHeap -> Prop} :
    Ensures (onTree program) heap done failed <->
      Ensures program heap.tree (fun result tree => done result { heap with tree := tree })
        (fun fault tree => failed fault { heap with tree := tree }) :=
  Ensures.onPart_iff

/-- A walk in memory is a search in the linked tree. -/
theorem ensures_walkTo {side : Block -> Ordering} {parent : Nat} {done : Nat -> BlockHeap -> Prop}
    (stored : Stored heap.tree.node parent linked) (enough : linked.height < fuel) :
    Ensures (walkTo side fuel (address linked)) heap done failed <->
      done ((search (fun node => side (heap.block node)) linked.shape).getD 0) heap := by
  induction fuel generalizing linked parent with
  | zero => exact absurd enough (Nat.not_lt_zero _)
  | succ fuel ih =>
      rw [walkTo]
      cases linked with
      | nil =>
          rw [address, if_pos rfl, Ensures.pure_iff]
          exact Iff.rfl
      | node color node left right =>
          rcases stored with ⟨aligned, found, first, second⟩
          have valid : address (.node color node left right) ≠ 0 := aligned.1
          simp only [ColorTree.height] at enough
          rw [if_neg valid, Ensures.bind_iff, ensures_onTree, ensures_loadNode valid, Ensures.bind_iff,
            Ensures.get_iff, address, found, ColorTree.shape, search]
          cases side (heap.block node) with
          | lt => exact ih first (by omega)
          | gt => exact ih second (by omega)
          | eq => exact Ensures.pure_iff

/-- The rebalancing that takes one tree to another one with the same sequence. -/
def rebalancingOf {X : Type} [DecidableEq X] (before after : BinaryTree X)
    (same : inorder after = inorder before) : Rebalancing X where
  insertColor tree := if tree = before then after else tree
  inorder_insertColor := by
    intro tree
    split
    · rename_i equal
      rw [equal, same]
    · rfl

/-- The growth in place, seen on the linked tree. -/
theorem adjust_extents (block : Block) (distinct : linked.values.Nodup) :
    adjust (fun this => nodecmp block.fileoff this.fileoff this.size) (mergeInto block)
        (extents heap linked) =
      (search (fun node => nodecmp block.fileoff (heap.block node).fileoff (heap.block node).size)
        linked.shape).bind (fun place => (mergeInto block (heap.block place)).map (fun grown =>
          extents { heap with block := Function.update heap.block place grown } linked)) := by
  rw [← ColorTree.inorder_shape] at distinct
  exact adjust_map _ _ heap.block distinct

/-- The second half of `blockInsert`. -/
def blockLink (rb : Rebalancing Block) (tree : BinaryTree Block) (block : Block) :
    BinaryTree Block × Nat :=
  match link (fun this => compare block.fileoff this.fileoff) block tree with
  | some linked => (rb.insertColor linked, 1)
  | none => (tree, 0)

/-- Memory after an operation that gave the extents and the answer of a pair. -/
def Reached (next : BlockHeap) (answer : Nat) (result : BinaryTree Block × Nat) (nodes : List Nat) :
    Prop :=
  answer = result.2 ∧ Exists fun after => Exists fun more =>
    Holds next.tree [] after ∧ Balanced .black more after ∧ extents next after = result.1 ∧
      forall node, node ∈ after.values -> node ∈ nodes

theorem ensures_blockLinkNode (balanced : Balanced .black count linked)
    (holds : Holds heap.tree [] linked) (aligned : Aligned pointer) (fresh : pointer ∉ linked.values)
    (enough : linked.height < fuel) :
    Exists fun rb : Rebalancing Block =>
      Ensures (blockLinkNode fuel pointer) heap
        (fun answer next => Reached next answer (blockLink rb (extents heap linked) (heap.block pointer))
          (pointer :: linked.values))
        (fun _ _ => False) := by
  have linking := link_map (fun this => compare (heap.block pointer).fileoff this.fileoff) heap.block
    pointer linked.shape
  have within : forall node, node ∈ linked.values -> node ∈ pointer :: linked.values :=
    fun node member => List.mem_cons_of_mem _ member
  unfold blockLinkNode blockLink
  simp only [Ensures.bind_iff, Ensures.get_iff, ensures_onTree]
  cases reached : descend
      (fun this => compare (heap.block pointer).fileoff (heap.block this).fileoff) linked [] with
  | none =>
      rw [link_of_descend_none pointer reached] at linking
      refine ⟨.keep Block, (ensures_rbFindLink holds enough).mpr ?_⟩
      rw [reached, extents, linking]
      exact Ensures.pure_iff.mpr ⟨rfl, linked, count, holds, balanced, rfl, within⟩
  | some path =>
      have whole : plug path .nil = linked := plug_descend reached
      rcases link_of_descend pointer reached with ⟨hung, done, same⟩
      rw [plug] at same
      rw [done] at linking
      rcases balanced_insert (whole.symm ▸ balanced) pointer with ⟨more, restored⟩
      have sequence : inorder ((fixRed path (.node .red pointer .nil .nil)).shape.map heap.block) =
          inorder (hung.shape.map heap.block) := by
        rw [inorder_map, inorder_map, ColorTree.inorder_shape, ColorTree.inorder_shape, values_fixRed, same]
      have order := values_plug_perm path .nil
      rw [whole] at order
      have deep := length_add_height_le path .nil
      rw [whole] at deep
      refine ⟨rebalancingOf _ _ sequence, (ensures_rbFindLink holds enough).mpr ?_⟩
      rw [reached, extents, linking]
      refine ensures_onTree.mpr ((ensures_link (whole.symm ▸ balanced)
        (holds_plug.mpr (whole.symm ▸ holds)) aligned (fun member => fresh (order.mem_iff.mpr member))
          (by omega)).mono ?_ (fun _ _ impossible => impossible))
      rintro answer next ⟨rfl, -, finished⟩
      refine ⟨rfl, _, more, finished, restored, (if_pos rfl).symm, fun node member => ?_⟩
      rw [values_fixRed] at member
      have larger := values_plug_perm path (.node .red pointer .nil .nil)
      exact (order.cons pointer).mem_iff.mpr (larger.mem_iff.mp member)

/-- `block_insert` in memory is `blockInsert` on the extents, for some rebalancing. -/
theorem ensures_blockInsertNode (balanced : Balanced .black count linked)
    (holds : Holds heap.tree [] linked) (aligned : Aligned pointer) (fresh : pointer ∉ linked.values)
    (enough : linked.height < fuel) :
    Exists fun rb : Rebalancing Block =>
      Ensures (blockInsertNode fuel pointer) heap
        (fun answer next => Reached next answer (blockInsert rb (extents heap linked) (heap.block pointer))
          (pointer :: linked.values))
        (fun _ _ => False) := by
  have distinct := (List.nodup_append'.mp holds.distinct).1
  have root : heap.tree.root = address linked := holds.above
  have grows := @adjust_extents heap linked (heap.block pointer) distinct
  have zero := holds.stored.zero_not_mem
  rcases ensures_blockLinkNode balanced holds aligned fresh enough with ⟨rb, linking⟩
  refine ⟨rb, ?_⟩
  unfold blockInsertNode
  rw [Ensures.bind_iff, Ensures.get_iff, root]
  simp only [Ensures.bind_iff]
  refine (ensures_walkTo holds.stored enough).mpr ?_
  cases stop : search
      (fun node => nodecmp (heap.block pointer).fileoff (heap.block node).fileoff (heap.block node).size)
        linked.shape with
  | none =>
      rw [stop] at grows
      have same : blockInsert rb (extents heap linked) (heap.block pointer) =
          blockLink rb (extents heap linked) (heap.block pointer) := by
        rw [blockInsert, grows]
        rfl
      rw [same]
      exact linking
  | some place =>
      have member := (search_sound stop).1
      rw [ColorTree.inorder_shape] at member
      have valid : place ≠ 0 := ne_of_mem_of_not_mem member zero
      rw [stop, Option.bind_some] at grows
      simp only [Option.getD_some, if_neg valid]
      cases merged : mergeInto (heap.block pointer) (heap.block place) with
      | none =>
          have same : blockInsert rb (extents heap linked) (heap.block pointer) =
              blockLink rb (extents heap linked) (heap.block pointer) := by
            rw [blockInsert, grows, merged]
            rfl
          rw [same]
          exact linking
      | some grown =>
          rw [blockInsert, grows, merged]
          refine Ensures.bind_iff.mpr (Ensures.modify_iff.mpr (Ensures.pure_iff.mpr
            ⟨rfl, linked, count, holds, balanced, rfl, fun node inside => ?_⟩))
          exact List.mem_cons_of_mem _ inside

/-- `block_search` in memory finds the node of the extent that `blockSearch` finds. -/
theorem ensures_blockSearchNode {offset : Nat} (holds : Holds heap.tree [] linked)
    (enough : linked.height < fuel) :
    Ensures (blockSearchNode fuel offset) heap
      (fun node next => next = heap ∧
        (if node = 0 then none else some (heap.block node)) = blockSearch (extents heap linked) offset)
      (fun _ _ => False) := by
  have root : heap.tree.root = address linked := holds.above
  unfold blockSearchNode
  rw [Ensures.bind_iff, Ensures.get_iff, root]
  refine (ensures_walkTo holds.stored enough).mpr ⟨rfl, ?_⟩
  rw [blockSearch, extents, search_map]
  cases stop : search
      (fun node => fileoffcmp offset (heap.block node).fileoff (heap.block node).size) linked.shape with
  | none => rfl
  | some place =>
      have member := (search_sound stop).1
      rw [ColorTree.inorder_shape] at member
      exact if_neg (ne_of_mem_of_not_mem member holds.stored.zero_not_mem)

/-! ## The file map -/

/-- What a file offset is mapped to, and the addresses of the block nodes in use. -/
structure FileMap where
  map : Nat -> Option (Nat × Nat)
  used : List Nat

/-- The calls of `block_insert`, with a block node at a fresh address, and of
`block_search`, whose result is translated as the readers do it. -/
inductive BlockCommand where
  | insert (pointer : Nat) (block : Block)
  | lookup (offset : Nat)

def BlockCommand.execute (fuel : Nat) : BlockCommand -> BlockM (Option (Nat × Nat))
  | .insert pointer block => do
      modify (fun heap => { heap with block := Function.update heap.block pointer block })
      let _ ← blockInsertNode fuel pointer
      pure none
  | .lookup offset => do
      let node ← blockSearchNode fuel offset
      let heap ← get
      pure (if node = 0 then none else some ((heap.block node).translate offset))

def mapStep : BlockCommand -> FileMap -> FileMap × Option (Nat × Nat)
  | .insert pointer block, file =>
      (⟨fun offset => if block.Covers offset then some (block.translate offset) else file.map offset,
        pointer :: file.used⟩, none)
  | .lookup offset, file => (file, file.map offset)

/-- A block may be inserted if it is not empty, ends below `2^64` and covers no mapped
offset, and its node is at an address that was not used before. -/
def mapLegal (capacity : Nat) : BlockCommand -> FileMap -> Prop
  | .insert pointer block, file =>
      Aligned pointer ∧ pointer ∉ file.used ∧ file.used.length < capacity ∧ 0 < block.size ∧
        block.fileend < 2 ^ 64 ∧ forall offset, block.Covers offset -> file.map offset = none
  | .lookup _, _ => True

def mapMachine (capacity : Nat) : Machine FileMap BlockCommand (Option (Nat × Nat)) where
  step := mapStep
  legal := mapLegal capacity

/-- Memory links well-formed extents that translate offsets as the file map does. -/
structure KeepsMap (capacity : Nat) (heap : BlockHeap) (file : FileMap) : Prop where
  tree : Exists fun linked => Exists fun count => Holds heap.tree [] linked ∧
    Balanced .black count linked ∧ WellFormed (extents heap linked) ∧
    (forall offset, translation (extents heap linked) offset = file.map offset) ∧
    forall node, node ∈ linked.values -> node ∈ file.used
  room : file.used.length ≤ capacity

variable {file : FileMap} {capacity : Nat}

theorem linked_height_lt (balanced : Balanced .black count linked) (holds : Holds heap.tree [] linked)
    (within : forall node, node ∈ linked.values -> node ∈ file.used)
    (room : file.used.length ≤ capacity) (enough : 2 * Nat.log 2 (capacity + 1) < fuel) :
    linked.height < fuel := by
  have distinct := (List.nodup_append'.mp holds.distinct).1
  have fewer := (List.Nodup.subperm distinct within).length_le
  have bound := balanced.height_le_log
  have wider : Nat.log 2 (linked.values.length + 1) ≤ Nat.log 2 (capacity + 1) :=
    Nat.log_mono_right (by omega)
  omega

/-- A block that covers no mapped offset lies apart from all extents. -/
theorem fits_of_unmapped {tree : BinaryTree Block} {block : Block} (formed : WellFormed tree)
    (nonempty : 0 < block.size) (bounded : block.fileend < 2 ^ 64)
    (unmapped : forall offset, block.Covers offset -> translation tree offset = none) :
    Ds.Fits tree block := by
  refine ⟨nonempty, bounded, fun old member offset inOld inNew => ?_⟩
  have found := formed.translation_eq_some.mpr ⟨old, member, inOld, rfl⟩
  rw [unmapped offset inNew] at found
  cases found

/-- Memory refines the file map. -/
theorem refines_map (enough : 2 * Nat.log 2 (capacity + 1) < fuel) :
    Refines (mapMachine capacity) (BlockCommand.execute fuel) (KeepsMap capacity) := by
  rintro command heap file ⟨⟨linked, count, holds, balanced, formed, maps, within⟩, room⟩ legal
  have short := linked_height_lt balanced holds within room enough
  cases command with
  | lookup offset =>
      unfold BlockCommand.execute
      rw [Ensures.bind_iff]
      refine (ensures_blockSearchNode holds short).mono ?_ (fun _ _ impossible => impossible)
      rintro node next ⟨rfl, found⟩
      rw [Ensures.bind_iff, Ensures.get_iff, Ensures.pure_iff]
      refine ⟨?_, ⟨linked, count, holds, balanced, formed, maps, within⟩, room⟩
      refine Eq.trans ?_ (maps offset)
      rw [translation, ← found]
      split <;> rfl
  | insert pointer block =>
      rcases legal with ⟨aligned, fresh, space, nonempty, bounded, unmapped⟩
      have outside : pointer ∉ linked.values := fun member => fresh (within pointer member)
      have same : extents { heap with block := Function.update heap.block pointer block } linked =
          extents heap linked := by
        refine map_update_of_notMem ?_ block
        rwa [ColorTree.inorder_shape]
      have fits : Ds.Fits (extents heap linked) block :=
        fits_of_unmapped formed nonempty bounded (fun offset covers => (maps offset).trans (unmapped offset covers))
      unfold BlockCommand.execute
      rw [Ensures.bind_iff, Ensures.modify_iff, Ensures.bind_iff]
      have inserts := @ensures_blockInsertNode { heap with block := Function.update heap.block pointer block }
        linked fuel pointer count balanced holds aligned outside short
      rcases inserts with ⟨rb, inserted⟩
      refine inserted.mono ?_ (fun _ _ impossible => impossible)
      rintro answer next ⟨-, after, more, holds', balanced', result, fewer⟩
      have own : Function.update heap.block pointer block pointer = block := Function.update_self _ _ _
      simp only [same, own] at result
      have extended := blockInsert_extended rb formed fits
      refine Ensures.pure_iff.mpr ⟨rfl, ⟨after, more, holds', balanced', ?_, fun offset => ?_, ?_⟩, space⟩
      · rw [result]
        exact extended.formed
      · rw [result, translation_blockInsert rb formed fits, maps]
        rfl
      · intro node member
        rcases List.mem_cons.mp (fewer node member) with same | old
        · exact List.mem_cons.mpr (Or.inl same)
        · exact List.mem_cons_of_mem _ (within node old)

/-- Any run of `block_insert` and `block_search` from an empty tree answers every lookup as
the map of all inserted blocks does, and no walk takes more steps than twice the logarithm
of the number of nodes. -/
theorem block_tree_run_is_map (enough : 2 * Nat.log 2 (capacity + 1) < fuel)
    (empty : heap.tree.root = 0) {commands : List BlockCommand}
    (legal : (mapMachine capacity).Legal commands ⟨fun _ => none, []⟩) :
    Ensures (runAnswers (BlockCommand.execute fuel) commands) heap
      (fun answers last => answers = ((mapMachine capacity).run commands ⟨fun _ => none, []⟩).2 ∧
        Exists fun linked => Holds last.tree [] linked ∧ WellFormed (extents last linked) ∧
          linked.height ≤ 2 * Nat.log 2 (linked.values.length + 1) ∧
          forall offset, translation (extents last linked) offset =
            ((mapMachine capacity).run commands ⟨fun _ => none, []⟩).1.map offset)
      (fun _ _ => False) := by
  have start : KeepsMap capacity heap ⟨fun _ => none, []⟩ :=
    ⟨⟨.nil, 0, ⟨trivial, empty, List.nodup_nil⟩, .nil, WellFormed.nil, fun _ => rfl,
      fun _ member => member⟩, Nat.zero_le _⟩
  refine ((refines_map enough).runAnswers start legal).mono ?_ (fun _ _ impossible => impossible)
  rintro answers last ⟨agree, ⟨linked, count, holds, balanced, formed, maps, -⟩, -⟩
  exact ⟨agree, linked, holds, formed, balanced.height_le_log, maps⟩

end Memory

/-- Two blocks that follow one another on the device, a third one, and lookups. -/
theorem block_tree_run_is_map_three_blocks :
    Ensures (runAnswers (BlockCommand.execute 8)
        [.insert 64 ⟨1, 0, 4096, 7⟩, .insert 128 ⟨1, 4096, 4096, 8⟩, .insert 192 ⟨2, 16384, 4096, 3⟩,
          .lookup 5000, .lookup 9000, .lookup 16385]) ⟨⟨fun _ => ⟨0, 0, 0⟩, 0⟩, fun _ => ⟨0, 0, 0, 0⟩⟩
      (fun answers _ => answers = [none, none, none, some (1, 33672), none, some (2, 12289)])
      (fun _ _ => False) := by
  have enough : 2 * Nat.log 2 (4 + 1) < 8 := by
    have small : Nat.log 2 (4 + 1) < 3 := Nat.log_lt_of_lt_pow (by decide) (by decide)
    omega
  have legal : (mapMachine 4).Legal
      [.insert 64 ⟨1, 0, 4096, 7⟩, .insert 128 ⟨1, 4096, 4096, 8⟩, .insert 192 ⟨2, 16384, 4096, 3⟩,
        .lookup 5000, .lookup 9000, .lookup 16385] ⟨fun _ => none, []⟩ := by
    simp only [Machine.Legal, mapMachine, mapLegal, mapStep, Aligned, Block.fileend, Interval.Covers]
    refine ⟨by simp, ⟨by simp, by simp, by simp, by simp, by simp, fun offset covers => ?_⟩,
      ⟨by simp, by simp, by simp, by simp, by simp, fun offset covers => ?_⟩, by simp⟩
    · exact if_neg (by omega)
    · rw [if_neg (by omega), if_neg (by omega)]
  refine (block_tree_run_is_map enough rfl legal).mono ?_ (fun _ _ impossible => impossible)
  rintro answers last ⟨agree, -⟩
  exact agree

end Userfs.Ds
