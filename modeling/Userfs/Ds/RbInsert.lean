import Userfs.Ds.Rbtree

namespace Userfs.Ds

open RedBlack

/-!
# Insertion into the red-black tree

`rb_insert_color` walks from a newly linked red node towards the root.  Below a red
parent it flips colors or rotates, and every round is shown to be the round of `fixRed` on
the stored tree.  The loop therefore ends with a stored red-black tree that has the same
in-order sequence.
-/

/-! ## The source -/

/-- The rotation that lifts `up` above its parent `down`, as case 3 of `__rb_insert` and
case 1 of `____rb_erase_color` write it; `tmp` is the child of `up` that moves. -/
def rotateUp (side : Side) (up down tmp : Nat) : Rb PUnit := do
  writeChild down side tmp
  writeChild up side.other down
  adopt tmp down .black
  rbRotateSetParents down up .red

/-- Case 2 of `__rb_insert`: the parent sinks below its inner child `node`. -/
def turnParent (side : Side) (node parent tmp : Nat) : Rb PUnit := do
  writeChild parent side.other tmp
  writeChild node side parent
  adopt tmp parent .black
  rbSetParentColor parent node .red

/-- The two mirrored branches of `__rb_insert`; `side` is the side of the grandparent the
parent is on.  The result is the next node and parent if the loop goes on. -/
def rbInsertSide (side : Side) (node parent gparent : Nat) : Rb (Option (Nat × Nat)) := do
  let grand ← loadNode gparent
  let uncle := grand.child side.other
  let color ← colorAt uncle
  if color = .red then do
    rbSetParentColor uncle gparent .black
    rbSetParentColor parent gparent .black
    let grand ← loadNode gparent
    let above := rbParent grand.parentColor
    rbSetParentColor gparent above .red
    pure (some (gparent, above))
  else do
    let content ← loadNode parent
    let inner := content.child side.other
    let (parent, tmp) ←
      if node = inner then do
        let own ← loadNode node
        turnParent side node parent (own.child side)
        let own ← loadNode node
        pure (node, own.child side.other)
      else pure (parent, inner)
    rotateUp side parent gparent tmp
    pure none

/-- The loop of `__rb_insert`. -/
def rbInsertLoop : Nat -> Nat -> Nat -> Rb PUnit
  | 0, _, _ => throw .outOfFuel
  | fuel + 1, node, parent => do
      if parent = 0 then rbSetParentColor node 0 .black
      else do
        let content ← loadNode parent
        if rbColor content.parentColor = .black then pure PUnit.unit
        else do
          -- the word of a red node is the pointer to its parent
          let gparent := content.parentColor
          let grand ← loadNode gparent
          let again ← rbInsertSide (if parent = grand.right then .right else .left) node parent gparent
          match again with
          | none => pure PUnit.unit
          | some (node, parent) => rbInsertLoop fuel node parent

def rbInsertColor (fuel node : Nat) : Rb PUnit := do
  let content ← loadNode node
  rbInsertLoop fuel node content.parentColor

/-- A link: the child of a node on a side, or `root->rb_node` if there is no node. -/
def loadLink (parent : Nat) (side : Side) : Rb Nat :=
  if parent = 0 then do
    let memory ← get
    pure memory.root
  else do
    let node ← loadNode parent
    pure (node.child side)

def storeLink (parent : Nat) (side : Side) (target : Nat) : Rb PUnit :=
  if parent = 0 then modify (fun memory => { memory with root := target })
  else writeChild parent side target

def rbLinkNode (node parent : Nat) (side : Side) : Rb PUnit := do
  changeNode node (fun _ => ⟨parent, 0, 0⟩)
  storeLink parent side node

/-- The walk of `rb_insert` to the link for a new node: `none` if a node on the way
compares equal. -/
def rbFindLink (cmp : Nat -> Ordering) : Nat -> Nat -> Side -> Rb (Option (Nat × Side))
  | 0, _, _ => throw .outOfFuel
  | fuel + 1, parent, side => do
      let this ← loadLink parent side
      if this = 0 then pure (some (parent, side))
      else
        match cmp this with
        | .lt => rbFindLink cmp fuel this .left
        | .gt => rbFindLink cmp fuel this .right
        | .eq => pure none

/-- `rb_insert`, which returns `-EEXIST` if a node compares equal. -/
def rbInsert (fuel : Nat) (cmp : Nat -> Nat -> Ordering) (node : Nat) : Rb Int := do
  let link ← rbFindLink (cmp node) fuel 0 .left
  match link with
  | none => pure (-17)
  | some (parent, side) => do
      rbLinkNode node parent side
      rbInsertColor fuel node
      pure 0

section Insertion

variable {memory : RbMemory} {frame above : Frame Nat} {outer frames : List (Frame Nat)}
  {tree : ColorTree Nat} {parent : Nat}

/-! ## The cases -/

/-- The parent and its sibling turn black, the grandparent red. -/
theorem Holds.flipColors (holds : Holds memory (frame :: above :: outer) tree) :
    Holds (((memory.adopted (address above.sibling) (packed above.value .black)).write frame.value
        { memory.node frame.value with parentColor := packed above.value .black }).write above.value
          { memory.node above.value with parentColor := packed (parentOf outer) .red })
      outer (flipColors frame above tree) := by
  have whole := (holds_cons.mp (holds_cons.mp holds)).distinct
  have distinct := holds.distinct
  rcases holds with ⟨stored, ⟨aligned, found, sibling, ⟨aligned', found', sibling', higher⟩⟩, -⟩
  simp only [context_cons, List.nodup_append', List.nodup_cons, List.disjoint_append_right,
    List.disjoint_cons_right, List.mem_append, List.mem_cons, not_or] at distinct
  rcases distinct with ⟨_, ⟨⟨parentSibling, parentGrand, parentUncle, parentOuter⟩, _,
    ⟨⟨grandUncle, grandOuter⟩, uncleNodup, _, uncleOuter⟩, grandSibling, siblingUncle, _⟩,
    parentTree, _, grandTree, treeUncle, _⟩
  have outTree := address_not_mem treeUncle.symm stored.zero_not_mem
  have outSibling := address_not_mem siblingUncle.symm sibling.zero_not_mem
  have outOuter := address_not_mem uncleOuter higher.zero_not_mem
  refine ⟨stored_join.mpr ⟨aligned', ?_, stored_join.mpr ⟨aligned, ?_, ?_, ?_⟩, ?_⟩, ?_, ?_⟩
  · rw [write_node_self, found', record_with_parentColor, address_join]
    cases above.sibling <;> rfl
  · rw [write_node_of_ne parentGrand, write_node_self, found, record_with_parentColor]
  · exact (stored_write grandTree).mpr ((stored_write parentTree).mpr ((stored_adopted outTree).mpr stored))
  · exact (stored_write grandSibling).mpr
      ((stored_write parentSibling).mpr ((stored_adopted outSibling).mpr sibling))
  · rw [stored_write (by rwa [ColorTree.values_paint]), stored_write (by rwa [ColorTree.values_paint])]
    exact sibling'.adopted uncleNodup
  · rw [RedBlack.flipColors, address_join]
    exact (above_write grandOuter).mpr ((above_write parentOuter).mpr ((above_adopted outOuter).mpr higher))
  · rwa [values_flipColors]

theorem Holds.liftOuter (holds : Holds memory (frame :: above :: outer) tree)
    (same : frame.side = above.side) :
    Holds ((memory.rotated above.side frame.value above.value (address frame.sibling)
        (packed (parentOf outer) above.color) .black .red).redirected above.value frame.value
          (parentOf outer))
      outer (liftOuter frame above tree) := by
  rcases holds with ⟨stored, ⟨aligned, found, sibling, ⟨aligned', found', sibling', higher⟩⟩, distinct⟩
  rw [same] at found
  exact holds_rotated .black .red distinct aligned aligned' found found' stored sibling sibling' higher

/-- Memory after the rotation of the parent that precedes the lift of an inner node. -/
def RbMemory.turned (memory : RbMemory) (side : Side) (node parent tmp : Nat) : RbMemory :=
  let children := (memory.write parent ((memory.node parent).withChild side.other tmp)).write node
    ((memory.node node).withChild side parent)
  let moved := children.adopted tmp (packed parent .black)
  moved.write parent { moved.node parent with parentColor := packed node .red }

section Turned

variable {side : Side} {node tmp hole other : Nat}

theorem stored_turned (one : parent ∉ tree.values) (two : node ∉ tree.values)
    (three : tmp ∉ tree.values) :
    Stored (memory.turned side node parent tmp).node other tree <-> Stored memory.node other tree := by
  rw [RbMemory.turned, stored_write one, stored_adopted three, stored_write two, stored_write one]

theorem above_turned (one : parent ∉ context frames) (two : node ∉ context frames)
    (three : tmp ∉ context frames) :
    StoredAbove (memory.turned side node parent tmp) frames hole <->
      StoredAbove memory frames hole := by
  rw [RbMemory.turned, above_write one, above_adopted three, above_write two, above_write one]

theorem turned_other (one : other ≠ parent) (two : other ≠ node) (three : other ≠ tmp) :
    (memory.turned side node parent tmp).node other = memory.node other := by
  rw [RbMemory.turned, write_node_of_ne one, adopted_node_of_ne three, write_node_of_ne two,
    write_node_of_ne one]

theorem turned_node (one : node ≠ parent) (two : node ≠ tmp) :
    (memory.turned side node parent tmp).node node = (memory.node node).withChild side parent := by
  rw [RbMemory.turned, write_node_of_ne one, adopted_node_of_ne two, write_node_self]

theorem turned_parent (one : node ≠ parent) (two : parent ≠ tmp) :
    (memory.turned side node parent tmp).node parent =
      { (memory.node parent).withChild side.other tmp with parentColor := packed node .red } := by
  rw [RbMemory.turned, write_node_self, adopted_node_of_ne two, write_node_of_ne (Ne.symm one),
    write_node_self]

theorem turned_untouched {side : Side} {pointer node : Nat} (first : pointer ≠ parent)
    (second : pointer ≠ node) (third : pointer ∉ tree.values) :
    (memory.turned side node parent (address tree)).node pointer = memory.node pointer := by
  rw [RbMemory.turned, write_node_of_ne first, adopted_untouched third, write_node_of_ne second,
    write_node_of_ne first]

end Turned

theorem Holds.liftInner {color : Color} {node : Nat} {first last : ColorTree Nat}
    (holds : Holds memory (frame :: above :: outer) (join above.side color node first last))
    (different : frame.side ≠ above.side) :
    Holds (((memory.turned above.side node frame.value (address first)).rotated above.side node
        above.value (address last) (packed (parentOf outer) above.color) .black .red).redirected
          above.value node (parentOf outer))
      outer (liftInner frame above (join above.side color node first last)) := by
  rcases holds with ⟨stored, ⟨aligned, found, sibling, ⟨aligned', found', sibling', higher⟩⟩, distinct⟩
  rw [Side.eq_other_of_ne different, record_other, address_join] at found
  rcases stored_join.mp stored with ⟨nodeAligned, nodeFound, firstStored, lastStored⟩
  have order := (values_join_perm above.side color node first last).append_right
    (context (frame :: above :: outer))
  have split := order.nodup_iff.mp distinct
  simp only [context_cons, List.append_assoc, List.cons_append] at split
  have rotated : ((join above.side .red frame.value frame.sibling (first.paint .black)).values ++
      node :: (last.values ++ above.value :: (above.sibling.values ++ context outer))).Nodup := by
    have inner := values_join_perm above.side .red frame.value frame.sibling (first.paint .black)
    rw [ColorTree.values_paint] at inner
    refine ((inner.append_right _).trans (List.perm_iff_count.mpr (fun pointer => ?_))).nodup_iff.mpr split
    simp only [List.count_append, List.count_cons]
    omega
  simp only [List.nodup_append', List.nodup_cons, List.disjoint_append_right,
    List.disjoint_cons_right, List.mem_append, List.mem_cons, not_or] at split
  rcases split with ⟨firstNodup, ⟨⟨nodeLast, nodeParent, nodeSibling, nodeGrand, nodeUncle, nodeOuter⟩,
    _, ⟨⟨parentSibling, parentGrand, parentUncle, parentOuter⟩, _, _⟩, parentLast, _⟩, nodeFirst,
    firstLast, parentFirst, firstSibling, grandFirst, firstUncle, firstOuter⟩
  have sunk : Stored (memory.turned above.side node frame.value (address first)).node node
      (join above.side .red frame.value frame.sibling (first.paint .black)) := by
    refine stored_join.mpr ⟨aligned, ?_, ?_, ?_⟩
    · rw [turned_parent nodeParent (ne_address aligned.1 parentFirst), found, withChild_other_record,
        record_with_parentColor]
      cases first <;> rfl
    · rw [stored_turned parentSibling nodeSibling (address_not_mem firstSibling sibling.zero_not_mem)]
      exact sibling
    · rw [RbMemory.turned, stored_write (by rwa [ColorTree.values_paint])]
      exact Stored.adopted ((stored_write nodeFirst).mpr ((stored_write parentFirst).mpr firstStored))
        firstNodup
  have risen : (memory.turned above.side node frame.value (address first)).node node =
      record above.side (packed frame.value color) frame.value (address last) := by
    rw [turned_node nodeParent (ne_address nodeAligned.1 nodeFirst), nodeFound, withChild_record]
    rfl
  have grand : (memory.turned above.side node frame.value (address first)).node above.value =
      record above.side (packed (parentOf outer) above.color) frame.value (address above.sibling) := by
    rw [turned_other (Ne.symm parentGrand) (Ne.symm nodeGrand) (ne_address aligned'.1 grandFirst)]
    exact found'
  rw [liftInner_join]
  refine holds_rotated .black .red rotated nodeAligned aligned' (risen.trans (by rw [address_join])) grand sunk
    ?_ ?_ ?_
  · rw [stored_turned parentLast nodeLast (address_not_mem firstLast lastStored.zero_not_mem)]
    exact lastStored
  · rw [stored_turned parentUncle nodeUncle (address_not_mem firstUncle sibling'.zero_not_mem)]
    exact sibling'
  · rw [above_turned parentOuter nodeOuter (address_not_mem firstOuter higher.zero_not_mem)]
    exact higher

/-! ## One round -/

theorem ensures_rotateUp {side : Side} {up down tmp : Nat} {done : PUnit -> RbMemory -> Prop}
    {failed : Fault -> RbMemory -> Prop} (upValid : up ≠ 0) (downValid : down ≠ 0)
    (different : up ≠ down) (apart : down ≠ tmp) :
    Ensures (rotateUp side up down tmp) memory done failed <->
      done PUnit.unit ((memory.rotated side up down tmp (memory.node down).parentColor
        .black .red).redirected down up (rbParent (memory.node down).parentColor)) := by
  have word : ((((memory.write down ((memory.node down).withChild side tmp)).write up
      ((memory.node up).withChild side.other down)).adopted tmp (packed down .black)).node
        down).parentColor = (memory.node down).parentColor := by
    rw [adopted_node_of_ne apart, write_node_of_ne (Ne.symm different), write_node_self,
      withChild_parentColor]
  unfold rotateUp
  simp only [Ensures.bind_iff, ensures_writeChild downValid, ensures_writeChild upValid, ensures_adopt,
    ensures_rbRotateSetParents downValid upValid different, write_node_of_ne different, word]
  exact Iff.rfl

theorem ensures_turnParent {side : Side} {node tmp : Nat} {done : PUnit -> RbMemory -> Prop}
    {failed : Fault -> RbMemory -> Prop} (nodeValid : node ≠ 0) (parentValid : parent ≠ 0)
    (different : node ≠ parent) :
    Ensures (turnParent side node parent tmp) memory done failed <->
      done PUnit.unit (memory.turned side node parent tmp) := by
  unfold turnParent
  simp only [Ensures.bind_iff, ensures_writeChild parentValid, ensures_writeChild nodeValid,
    ensures_adopt, ensures_rbSetParentColor parentValid, write_node_of_ne different]
  exact Iff.rfl

/-- One round of the loop, below a red parent. -/
theorem ensures_rbInsertSide (holds : Holds memory (frame :: above :: outer) tree)
    (present : tree ≠ .nil) :
    Ensures (rbInsertSide above.side (address tree) frame.value above.value) memory
      (fun again next =>
        Untouched memory next (tree.values ++ context (frame :: above :: outer)) ∧
          if above.sibling.color = .red then
            again = some (above.value, parentOf outer) ∧ Holds next outer (flipColors frame above tree)
          else again = none ∧ Holds next outer
            (if frame.side = above.side then liftOuter frame above tree
              else liftInner frame above tree))
      (fun _ _ => False) := by
  have whole := holds
  have distinct := holds.distinct
  rcases holds with ⟨stored, ⟨aligned, found, sibling, ⟨aligned', found', sibling', higher⟩⟩, -⟩
  have lined := higher.parentOf_aligned
  simp only [context_cons, List.nodup_append', List.nodup_cons, List.disjoint_append_right,
    List.disjoint_cons_right, List.mem_append, List.mem_cons, not_or] at distinct
  rcases distinct with ⟨treeNodup, ⟨⟨_, parentGrand, parentUncle, _⟩, _, ⟨⟨grandUncle, _⟩, _⟩,
    grandSibling, _⟩, parentTree, treeSibling, grandTree, _⟩
  unfold rbInsertSide
  simp only [Ensures.bind_iff, ensures_loadNode aligned'.1, found', child_other_record,
    ensures_colorAt sibling' aligned'.2, Ensures.ite_iff]
  by_cases uncle : above.sibling.color = .red
  · have uncleValid := sibling'.address_ne_zero uncle
    simp only [if_pos uncle]
    simp only [ensures_rbSetParentColor uncleValid, ensures_rbSetParentColor aligned.1,
      ensures_rbSetParentColor aligned'.1, Ensures.pure_iff,
      write_node_of_ne (Ne.symm parentGrand), write_node_of_ne (ne_address aligned'.1 grandUncle),
      write_node_of_ne (ne_address aligned.1 parentUncle), found', record_parentColor,
      rbParent_packed lined, true_and]
    rw [← found', ← adopted_of_ne uncleValid]
    refine ⟨fun pointer outside => ?_, whole.flipColors⟩
    simp only [context_cons, List.mem_append, List.mem_cons, not_or] at outside
    rw [write_node_of_ne outside.2.2.2.1, write_node_of_ne outside.2.1,
      adopted_untouched outside.2.2.2.2.1]
  · simp only [if_neg uncle]
    simp only [ensures_loadNode aligned.1]
    by_cases same : frame.side = above.side
    · have outerNode := address_ne treeSibling stored present
      simp only [found, same, child_other_record, if_neg outerNode, Ensures.pure_iff,
        ensures_rotateUp aligned.1 aligned'.1 parentGrand (ne_address aligned'.1 grandSibling), found',
        record_parentColor, rbParent_packed lined, true_and, if_true]
      refine ⟨fun pointer outside => ?_, whole.liftOuter same⟩
      simp only [context_cons, List.mem_append, List.mem_cons, not_or] at outside
      rw [redirected_untouched outside.2.2.2.2.2,
        rotated_untouched outside.2.1 outside.2.2.2.1 outside.2.2.1]
    · rcases exists_join present above.side with ⟨color, node, first, last, rfl⟩
      rw [Side.eq_other_of_ne same, record_other, address_join] at found
      rcases stored_join.mp stored with ⟨nodeAligned, nodeFound, -, -⟩
      have order := values_join_perm above.side color node first last
      have member : node ∈ (join above.side color node first last).values :=
        order.mem_iff.mpr (by simp)
      have nodup := order.nodup_iff.mp treeNodup
      simp only [order.mem_iff, List.mem_append, List.mem_cons, not_or] at parentTree grandTree
      simp only [List.nodup_append', List.nodup_cons, List.disjoint_cons_right] at nodup
      have nodeParent := Ne.symm parentTree.2.1
      have nodeGrand := Ne.symm grandTree.2.1
      have grandSame : (memory.turned above.side node frame.value (address first)).node above.value =
          memory.node above.value :=
        turned_other (Ne.symm parentGrand) grandTree.2.1 (ne_address aligned'.1 grandTree.1)
      have nodeTurned : (memory.turned above.side node frame.value (address first)).node node =
          record above.side (packed frame.value color) frame.value (address last) := by
        rw [turned_node nodeParent (ne_address nodeAligned.1 nodup.2.2.1), nodeFound,
          withChild_record]
        rfl
      simp only [found, address_join, child_other_record, if_true, ensures_loadNode nodeAligned.1, nodeFound,
        child_record, ensures_turnParent nodeAligned.1 aligned.1 nodeParent, nodeTurned,
        Ensures.pure_iff, ensures_rotateUp nodeAligned.1 aligned'.1 nodeGrand
          (ne_address aligned'.1 grandTree.2.2), grandSame, found', record_parentColor,
        rbParent_packed lined, true_and, if_neg same]
      refine ⟨fun pointer outside => ?_, whole.liftInner same⟩
      simp only [context_cons, List.mem_append, List.mem_cons, not_or, order.mem_iff] at outside
      rw [redirected_untouched outside.2.2.2.2.2,
        rotated_untouched outside.1.2.1 outside.2.2.2.1 outside.1.2.2,
        turned_untouched outside.2.1 outside.1.2.1 outside.1.1]

/-! ## The loop -/

/-- The side of the grandparent is found by comparing with its right child. -/
theorem side_eq (holds : Holds memory (frame :: above :: outer) tree) :
    (if frame.value = (memory.node above.value).right then Side.right else Side.left) = above.side := by
  have distinct := holds.distinct
  rcases holds with ⟨-, ⟨aligned, -, -, ⟨-, found, -, -⟩⟩, -⟩
  simp only [context_cons, List.nodup_append', List.nodup_cons, List.mem_append, List.mem_cons,
    not_or] at distinct
  have apart := ne_address aligned.1 distinct.2.1.1.2.2.1
  rw [found]
  cases above.side with
  | left => exact if_neg apart
  | right => exact if_pos rfl

/-- At the root the node turns black. -/
theorem Holds.blacken (holds : Holds memory [] tree) (present : tree ≠ .nil) :
    Holds (memory.write (address tree)
      { memory.node (address tree) with parentColor := packed 0 .black }) [] (tree.paint .black) := by
  have nodup := (List.nodup_append'.mp holds.distinct).1
  rw [← adopted_of_ne (address_ne_zero holds.stored present)]
  refine ⟨holds.stored.adopted nodup, ?_, ?_⟩
  · have root : memory.root = address tree := holds.above
    rw [StoredAbove, adopted_root, root]
    cases tree <;> rfl
  · rw [ColorTree.values_paint]
    exact holds.distinct

theorem flipColors_ne_nil (frame above : Frame Nat) (tree : ColorTree Nat) :
    flipColors frame above tree ≠ .nil := by
  exact join_ne_nil _ _ _ _ _

theorem address_flipColors (frame above : Frame Nat) (tree : ColorTree Nat) :
    address (flipColors frame above tree) = above.value :=
  address_join

theorem mem_flipColors {pointer : Nat} :
    pointer ∈ (flipColors frame above tree).values ++ context outer ->
      pointer ∈ tree.values ++ context (frame :: above :: outer) := by
  rw [values_flipColors]
  exact ((fill_perm above outer _).trans (fill_perm frame (above :: outer) tree)).mem_iff.mp

/-- The loop repairs the tree. -/
theorem ensures_rbInsertLoop {count fuel : Nat} (fits : RedBlack.Fits frames .black count)
    (holds : Holds memory frames tree) (present : tree ≠ .nil) (enough : frames.length < 2 * fuel) :
    Ensures (rbInsertLoop fuel (address tree) (parentOf frames)) memory
      (fun _ next => Untouched memory next (tree.values ++ context frames) ∧
        Holds next [] (fixRed frames tree))
      (fun _ _ => False) := by
  induction fuel generalizing memory frames tree count with
  | zero => omega
  | succ fuel ih =>
      cases frames with
      | nil =>
          rw [parentOf, rbInsertLoop, if_pos rfl,
            ensures_rbSetParentColor (address_ne_zero holds.stored present)]
          refine ⟨fun pointer outside => write_node_of_ne (fun same => outside ?_), holds.blacken present⟩
          exact List.mem_append_left _ (same ▸ address_mem present)
      | cons frame rest =>
          rcases holds.above with ⟨aligned, found, -, higher⟩
          rw [parentOf, rbInsertLoop]
          simp only [if_neg aligned.1, Ensures.bind_iff, ensures_loadNode aligned.1, found,
            record_parentColor, rbColor_packed higher.parentOf_aligned]
          cases own : frame.color with
          | black =>
              rw [if_pos rfl, Ensures.pure_iff, fixRed_black own]
              exact ⟨.refl _ _, holds_plug.mp holds⟩
          | red =>
              cases rest with
              | nil => exact (fits.not_lone own).elim
              | cons above outer =>
                  rcases higher with ⟨aligned', -, -, -⟩
                  have red : ¬ frame.color = .black := by
                    rw [own]
                    decide
                  simp only [reduceCtorEq, if_false, parentOf, packed_red, Ensures.bind_iff,
                    ensures_loadNode aligned'.1, side_eq holds]
                  rw [fixRed, if_neg red]
                  refine (ensures_rbInsertSide holds present).mono ?_ (fun _ _ impossible => impossible)
                  rintro again next ⟨untouched, outcome⟩
                  by_cases uncle : above.sibling.color = .red
                  · rw [if_pos uncle] at outcome
                    rcases outcome with ⟨rfl, holds'⟩
                    rw [if_pos uncle]
                    have shorter : outer.length < 2 * fuel := by
                      simp only [List.length_cons] at enough
                      omega
                    have onward := ih (fits.grandparent red).2.2.2 holds'
                      (flipColors_ne_nil frame above tree) shorter
                    rw [address_flipColors] at onward
                    refine onward.mono ?_ (fun _ _ impossible => impossible)
                    rintro _ last ⟨later, repaired⟩
                    exact ⟨untouched.trans later (fun _ => mem_flipColors), repaired⟩
                  · rw [if_neg uncle] at outcome
                    rcases outcome with ⟨rfl, holds'⟩
                    rw [if_neg uncle, ← apply_ite (plug outer)]
                    exact Ensures.pure_iff.mpr ⟨untouched, holds_plug.mp holds'⟩

/-! ## Linking a node -/

/-- The side of the innermost frame. -/
def sideOf : List (Frame Nat) -> Side
  | [] => .left
  | frame :: _ => frame.side

theorem ensures_loadLink {hole : Nat} {done : Nat -> RbMemory -> Prop}
    {failed : Fault -> RbMemory -> Prop} (above : StoredAbove memory frames hole) :
    Ensures (loadLink (parentOf frames) (sideOf frames)) memory done failed <-> done hole memory := by
  unfold loadLink
  cases frames with
  | nil =>
      rw [parentOf, if_pos rfl, Ensures.bind_iff, Ensures.get_iff, Ensures.pure_iff]
      have root : memory.root = hole := above
      rw [root]
  | cons frame rest =>
      rcases above with ⟨aligned, found, -, -⟩
      have valid : parentOf (frame :: rest) ≠ 0 := aligned.1
      rw [if_neg valid, Ensures.bind_iff, ensures_loadNode valid, Ensures.pure_iff, parentOf, sideOf,
        found, child_record]

/-- The walk follows the stored tree. -/
theorem ensures_rbFindLink {cmp : Nat -> Ordering} {fuel : Nat}
    {done : Option (Nat × Side) -> RbMemory -> Prop} {failed : Fault -> RbMemory -> Prop}
    (holds : Holds memory frames tree) (enough : tree.height < fuel) :
    Ensures (rbFindLink cmp fuel (parentOf frames) (sideOf frames)) memory done failed <->
      done ((descend cmp tree frames).map (fun path => (parentOf path, sideOf path))) memory := by
  induction fuel generalizing frames tree with
  | zero => exact absurd enough (Nat.not_lt_zero _)
  | succ fuel ih =>
      rw [rbFindLink, Ensures.bind_iff, ensures_loadLink holds.above]
      cases tree with
      | nil =>
          rw [address, if_pos rfl, Ensures.pure_iff]
          exact Iff.rfl
      | node color value left right =>
          have valid : address (.node color value left right) ≠ 0 := holds.stored.1.1
          simp only [ColorTree.height] at enough
          rw [if_neg valid, descend, address]
          cases cmp value with
          | lt =>
              exact @ih (⟨.left, color, value, right⟩ :: frames) left (holds_cons.mpr holds) (by omega)
          | gt =>
              exact @ih (⟨.right, color, value, left⟩ :: frames) right (holds_cons.mpr holds) (by omega)
          | eq => exact Ensures.pure_iff

/-- The pointer in the hole is replaced through the link. -/
theorem ensures_storeLink {hole target : Nat} (above : StoredAbove memory frames hole)
    (distinct : (context frames).Nodup) :
    Ensures (storeLink (parentOf frames) (sideOf frames) target) memory
      (fun _ next => Untouched memory next (context frames) ∧ StoredAbove next frames target)
      (fun _ _ => False) := by
  unfold storeLink
  cases frames with
  | nil =>
      rw [parentOf, if_pos rfl, Ensures.modify_iff]
      exact ⟨fun _ _ => rfl, rfl⟩
  | cons frame rest =>
      rcases above with ⟨aligned, found, sibling, higher⟩
      rw [context_cons, List.nodup_cons, List.mem_append, not_or] at distinct
      have valid : parentOf (frame :: rest) ≠ 0 := aligned.1
      rw [if_neg valid, ensures_writeChild valid, parentOf, sideOf, found, withChild_record]
      refine ⟨fun pointer outside => write_node_of_ne (fun same => outside ?_), aligned,
        write_node_self, (stored_write distinct.1.1).mpr sibling, (above_write distinct.1.2).mpr higher⟩
      rw [same]
      exact List.mem_cons_self

/-- A fresh node is hung red into an empty place. -/
theorem ensures_rbLinkNode {pointer : Nat} (holds : Holds memory frames .nil) (aligned : Aligned pointer)
    (fresh : pointer ∉ context frames) :
    Ensures (rbLinkNode pointer (parentOf frames) (sideOf frames)) memory
      (fun _ next => Untouched memory next (pointer :: context frames) ∧
        Holds next frames (.node .red pointer .nil .nil))
      (fun _ _ => False) := by
  have distinct : (context frames).Nodup := holds.distinct
  unfold rbLinkNode
  rw [Ensures.bind_iff, ensures_changeNode aligned.1]
  refine (ensures_storeLink ((above_write fresh).mpr holds.above) distinct).mono ?_
    (fun _ _ impossible => impossible)
  rintro _ next ⟨untouched, linked⟩
  refine ⟨fun other outside => ?_, ⟨aligned, ?_, trivial, trivial⟩, linked,
    List.nodup_cons.mpr ⟨fresh, distinct⟩⟩
  · rw [List.mem_cons, not_or] at outside
    rw [untouched other outside.2, write_node_of_ne outside.1]
  · rw [untouched pointer fresh, write_node_self, packed_red]
    rfl

/-- `rb_insert_color` restores the balance around a linked node. -/
theorem ensures_rbInsertColor {pointer count fuel : Nat}
    (balanced : Balanced .black count (plug frames .nil))
    (holds : Holds memory frames (.node .red pointer .nil .nil)) (enough : frames.length < 2 * fuel) :
    Ensures (rbInsertColor fuel pointer) memory
      (fun _ next => Untouched memory next (pointer :: context frames) ∧
        Holds next [] (fixRed frames (.node .red pointer .nil .nil)))
      (fun _ _ => False) := by
  rcases RedBlack.Fits.of_plug balanced .root with ⟨shade, here, _, fits⟩
  rw [List.append_nil] at fits
  have word : (memory.node pointer).parentColor = parentOf frames := by
    rw [holds.stored.2.1, packed_red]
  unfold rbInsertColor
  rw [Ensures.bind_iff, ensures_loadNode holds.stored.1.1, word]
  exact ensures_rbInsertLoop fits.to_black holds (by simp) enough

/-- The two steps that `rb_insert` and `block_insert` end with. -/
theorem ensures_link {pointer count fuel : Nat} {X : Type} {result : X}
    (balanced : Balanced .black count (plug frames .nil)) (holds : Holds memory frames .nil)
    (aligned : Aligned pointer) (fresh : pointer ∉ context frames) (enough : frames.length < 2 * fuel) :
    Ensures (do
        rbLinkNode pointer (parentOf frames) (sideOf frames)
        rbInsertColor fuel pointer
        pure result) memory
      (fun returned next => returned = result ∧ Untouched memory next (pointer :: context frames) ∧
        Holds next [] (fixRed frames (.node .red pointer .nil .nil)))
      (fun _ _ => False) := by
  rw [Ensures.bind_iff]
  refine (ensures_rbLinkNode holds aligned fresh).mono ?_ (fun _ _ impossible => impossible)
  rintro _ middle ⟨untouched, linked⟩
  rw [Ensures.bind_iff]
  refine (ensures_rbInsertColor balanced linked enough).mono ?_ (fun _ _ impossible => impossible)
  rintro _ next ⟨later, done⟩
  exact Ensures.pure_iff.mpr ⟨rfl, untouched.trans later (fun _ member => member), done⟩

/-- `rb_insert` either finds an equal node and changes nothing, or links the new node. -/
theorem ensures_rbInsert {pointer count fuel : Nat} {cmp : Nat -> Nat -> Ordering}
    (balanced : Balanced .black count tree) (holds : Holds memory [] tree) (aligned : Aligned pointer)
    (fresh : pointer ∉ tree.values) (enough : tree.height < fuel) :
    Ensures (rbInsert fuel cmp pointer) memory
      (fun result next =>
        (descend (cmp pointer) tree [] = none ∧ result = -17 ∧ next = memory) ∨
          Exists fun path => descend (cmp pointer) tree [] = some path ∧ result = 0 ∧
            Untouched memory next (pointer :: tree.values) ∧
            Holds next [] (fixRed path (.node .red pointer .nil .nil)))
      (fun _ _ => False) := by
  unfold rbInsert
  rw [Ensures.bind_iff]
  refine (ensures_rbFindLink holds enough).mpr ?_
  cases reached : descend (cmp pointer) tree [] with
  | none => exact Ensures.pure_iff.mpr (Or.inl ⟨rfl, rfl, rfl⟩)
  | some path =>
      have whole : plug path .nil = tree := plug_descend reached
      have order := values_plug_perm path .nil
      rw [whole] at order
      have deep := length_add_height_le path .nil
      rw [whole] at deep
      refine (ensures_link (whole.symm ▸ balanced) (holds_plug.mpr (whole.symm ▸ holds)) aligned
        (fun member => fresh (order.mem_iff.mpr member)) (by omega)).mono ?_
        (fun _ _ impossible => impossible)
      rintro result next ⟨rfl, untouched, done⟩
      refine Or.inr ⟨path, rfl, rfl, fun other outside => untouched other (fun member => outside ?_), done⟩
      exact ((order.cons pointer).mem_iff).mpr member

end Insertion

end Userfs.Ds
