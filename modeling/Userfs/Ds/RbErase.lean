import Userfs.Ds.Rbtree

namespace Userfs.Ds

open RedBlack

/-!
# Removal from the red-black tree

`rb_erase` takes a node out of the tree.  A node with two children gives its place to
its successor, whose own place then has at most one child.  If a black node without a
child disappeared, `____rb_erase_color` walks towards the root and makes up for it.

Each part is shown to be the corresponding part of `RedBlack.erase` on the stored tree.
The record of the erased node itself is never written, which is what lets a caller step
on from a node that it has just erased.
-/

/-! ## The source -/

/-- `if (p) rb_set_parent(p, parent)`. -/
def adoptKeeping (pointer parent : Nat) : Rb PUnit :=
  if pointer = 0 then pure PUnit.unit else rbSetParent pointer parent

/-- Case 1 of `____rb_erase_color`. -/
def raiseSibling (side : Side) (parent sibling tmp1 : Nat) : Rb PUnit := do
  writeChild parent side.other tmp1
  writeChild sibling side parent
  rbSetParentColor tmp1 parent .black
  rbRotateSetParents parent sibling .red

/-- Case 2 of `____rb_erase_color`.  The result is the next node and parent if the loop
goes on. -/
def flipSibling (parent sibling : Nat) : Rb (Option (Nat × Nat)) := do
  rbSetParentColor sibling parent .red
  let above ← loadNode parent
  if rbColor above.parentColor = .red then do
    rbSetBlack parent
    pure none
  else if rbParent above.parentColor = 0 then pure none
  else pure (some (parent, rbParent above.parentColor))

/-- Case 3 of `____rb_erase_color`, which leads on to case 4. -/
def sinkSibling (side : Side) (parent sibling tmp2 tmp1 : Nat) : Rb PUnit := do
  writeChild sibling side tmp1
  writeChild tmp2 side.other sibling
  writeChild parent side.other tmp2
  adopt tmp1 sibling .black

/-- Case 4 of `____rb_erase_color`. -/
def liftSibling (side : Side) (parent sibling tmp1 : Nat) : Rb PUnit := do
  let content ← loadNode sibling
  let tmp2 := content.child side
  writeChild parent side.other tmp2
  writeChild sibling side parent
  rbSetParentColor tmp1 sibling .black
  adoptKeeping tmp2 parent
  rbRotateSetParents parent sibling .black

/-- Cases 2 to 4 of `____rb_erase_color`, where the sibling is black. -/
def rbEraseBlack (side : Side) (parent sibling : Nat) : Rb (Option (Nat × Nat)) := do
  let content ← loadNode sibling
  let tmp1 := content.child side.other
  let far ← colorAt tmp1
  if far = .black then do
    let tmp2 := content.child side
    let near ← colorAt tmp2
    if near = .black then flipSibling parent sibling
    else do
      let inner ← loadNode tmp2
      sinkSibling side parent sibling tmp2 (inner.child side.other)
      liftSibling side parent tmp2 sibling
      pure none
  else do
    liftSibling side parent sibling tmp1
    pure none

/-- The two mirrored branches of `____rb_erase_color`; `side` is the side of the parent
the node is on.  A red sibling is rotated above the parent first. -/
def rbEraseSide (side : Side) (parent : Nat) : Rb (Option (Nat × Nat)) := do
  let above ← loadNode parent
  let sibling := above.child side.other
  let content ← loadNode sibling
  if rbColor content.parentColor = .red then do
    let tmp1 := content.child side
    raiseSibling side parent sibling tmp1
    rbEraseBlack side parent tmp1
  else rbEraseBlack side parent sibling

/-- The loop of `____rb_erase_color`. -/
def rbEraseColor : Nat -> Nat -> Nat -> Rb PUnit
  | 0, _, _ => throw .outOfFuel
  | fuel + 1, node, parent => do
      let above ← loadNode parent
      let again ← rbEraseSide (if node = above.right then .right else .left) parent
      match again with
      | none => pure PUnit.unit
      | some (node, parent) => rbEraseColor fuel node parent

/-- The descent of `__rb_erase_augmented` to the leftmost node: the parent of that node
and the node itself. -/
def rbSuccessor : Nat -> Nat -> Nat -> Rb (Nat × Nat)
  | 0, _, _ => throw .outOfFuel
  | fuel + 1, successor, tmp => do
      let content ← loadNode tmp
      if content.left = 0 then pure (successor, tmp)
      else rbSuccessor fuel tmp content.left

/-- The end of `__rb_erase_augmented` for a node with two children: the successor takes the
place of the node.  The result is the node where the tree is to be rebalanced. -/
def takePlace (node parent successor child2 : Nat) : Rb Nat := do
  let content ← loadNode node
  let tmp := content.left
  writeChild successor .left tmp
  rbSetParent tmp successor
  let content ← loadNode node
  let pc := content.parentColor
  rbChangeChild node successor (rbParent pc)
  if child2 ≠ 0 then do
    changeNode successor (fun content => { content with parentColor := pc })
    rbSetParentColor child2 parent .black
    pure 0
  else do
    let content ← loadNode successor
    let pc2 := content.parentColor
    changeNode successor (fun content => { content with parentColor := pc })
    pure (if rbColor pc2 = .black then parent else 0)

/-- Case 3 of `__rb_erase_augmented`: the successor leaves its parent and gets the right
child of the node. -/
def giveChild (child parent successor child2 : Nat) : Rb PUnit := do
  writeChild parent .left child2
  writeChild successor .right child
  rbSetParent child successor

/-- The case of `__rb_erase_augmented` with two children. -/
def rbEraseInner (fuel node child : Nat) : Rb Nat := do
  let right ← loadNode child
  if right.left = 0 then takePlace node child child right.right
  else do
    let (parent, successor) ← rbSuccessor fuel child right.left
    let content ← loadNode successor
    let child2 := content.right
    giveChild child parent successor child2
    takePlace node parent successor child2

/-- `__rb_erase_augmented`, without the callbacks, which do nothing here. -/
def rbEraseAugmented (fuel node : Nat) : Rb Nat := do
  let content ← loadNode node
  let child := content.right
  let tmp := content.left
  let pc := content.parentColor
  if tmp = 0 then do
    rbChangeChild node child (rbParent pc)
    if child ≠ 0 then do
      changeNode child (fun content => { content with parentColor := pc })
      pure 0
    else pure (if rbColor pc = .black then rbParent pc else 0)
  else if child = 0 then do
    changeNode tmp (fun content => { content with parentColor := pc })
    rbChangeChild node tmp (rbParent pc)
    pure 0
  else rbEraseInner fuel node child

def rbErase (fuel node : Nat) : Rb PUnit := do
  let rebalance ← rbEraseAugmented fuel node
  if rebalance ≠ 0 then rbEraseColor fuel 0 rebalance else pure PUnit.unit

section Removal

variable {memory : RbMemory} {frame : Frame Nat} {rest frames : List (Frame Nat)}
  {tree near far first last : ColorTree Nat} {color : Color} {value inner parent : Nat}

/-! ## The cases of the repair -/

/-- The frame gets another color. -/
theorem Holds.recolorFrame (holds : Holds memory (frame :: rest) tree) (color : Color) :
    Holds (memory.write frame.value
        { memory.node frame.value with parentColor := packed (parentOf rest) color })
      (⟨frame.side, color, frame.value, frame.sibling⟩ :: rest) tree := by
  have distinct := holds.distinct
  rcases holds with ⟨stored, ⟨aligned, found, sibling, higher⟩, nodup⟩
  simp only [context_cons, List.nodup_append', List.nodup_cons, List.disjoint_cons_right,
    List.mem_append, not_or] at distinct
  refine ⟨(stored_write distinct.2.2.1).mpr stored, ⟨aligned, ?_, ?_, ?_⟩, nodup⟩
  · rw [write_node_self, found, record_with_parentColor]
  · exact (stored_write distinct.2.1.1.1).mpr sibling
  · exact (above_write distinct.2.1.1.2).mpr higher

/-- The sibling gets another color. -/
theorem Holds.paintSibling (holds : Holds memory (frame :: rest) tree) (color : Color) :
    Holds (memory.adopted (address frame.sibling) (packed frame.value color))
      (⟨frame.side, frame.color, frame.value, frame.sibling.paint color⟩ :: rest) tree := by
  have distinct := holds.distinct
  rcases holds with ⟨stored, ⟨aligned, found, sibling, higher⟩, nodup⟩
  simp only [context_cons, List.nodup_append', List.nodup_cons, List.disjoint_cons_right,
    List.disjoint_append_right, List.mem_append, not_or] at distinct
  rcases distinct with ⟨_, ⟨⟨parentSibling, _⟩, siblingNodup, _, siblingRest⟩, _, treeSibling, _⟩
  refine ⟨?_, ⟨aligned, ?_, ?_, ?_⟩, ?_⟩
  · exact (stored_adopted (address_not_mem treeSibling.symm stored.zero_not_mem)).mpr stored
  · rw [adopted_node_of_ne (ne_address aligned.1 parentSibling), found]
    cases frame.sibling <;> rfl
  · exact sibling.adopted siblingNodup
  · exact (above_adopted (address_not_mem siblingRest higher.zero_not_mem)).mpr higher
  · simpa only [context_cons, ColorTree.values_paint] using nodup

/-- The nodes around a hole, in the order in which a rotation of the sibling leaves them. -/
theorem sibling_nodup (distinct : (tree.values ++ context (frame :: rest)).Nodup)
    (form : frame.sibling = join frame.side color value near far) :
    (far.values ++ value :: (near.values ++ frame.value :: (tree.values ++ context rest))).Nodup := by
  rw [context_cons, form] at distinct
  have seen := values_join_perm frame.side color value near far
  refine (List.Perm.trans ?_ (((seen.append_right (context rest)).cons frame.value).append_left
    tree.values).symm).nodup_iff.mpr distinct
  refine List.perm_iff_count.mpr (fun pointer => ?_)
  simp only [List.count_append, List.count_cons]
  omega

/-- A red sibling rises above the parent, which turns red. -/
theorem Holds.liftRed (holds : Holds memory (frame :: rest) tree)
    (form : frame.sibling = join frame.side color value near far) :
    Holds ((memory.rotated frame.side.other value frame.value (address near)
        (packed (parentOf rest) frame.color) .black .red).redirected frame.value value (parentOf rest))
      (⟨frame.side, .red, frame.value, near.paint .black⟩ :: ⟨frame.side, frame.color, value, far⟩ :: rest)
      tree := by
  have distinct := sibling_nodup holds.distinct form
  rcases holds with ⟨stored, ⟨aligned, found, sibling, higher⟩, -⟩
  rw [form, address_join] at found
  rcases stored_join.mp (form ▸ sibling) with ⟨aligned', found', nearStored, farStored⟩
  rw [← record_other] at found found'
  have done := holds_rotated .black .red distinct aligned' aligned found' found farStored nearStored
    stored higher
  rw [join_other, join_other] at done
  exact holds_cons.mpr (holds_cons.mpr done)

/-- A sibling with a red far child rises above the parent, and the child turns black. -/
theorem Holds.liftFar (holds : Holds memory (frame :: rest) tree)
    (form : frame.sibling = join frame.side color value near far) :
    Holds (((memory.adopted (address far) (packed value .black)).rotated frame.side.other value
        frame.value (address near) (packed (parentOf rest) frame.color) near.color .black).redirected
          frame.value value (parentOf rest))
      rest (join frame.side frame.color value (join frame.side .black frame.value tree near)
        (far.paint .black)) := by
  have distinct := sibling_nodup holds.distinct form
  rcases holds with ⟨stored, ⟨aligned, found, sibling, higher⟩, -⟩
  rw [form, address_join, ← record_other] at found
  rcases stored_join.mp (form ▸ sibling) with ⟨aligned', found', nearStored, farStored⟩
  rw [← record_other] at found'
  have painted := distinct
  rw [← ColorTree.values_paint .black far] at painted
  simp only [List.nodup_append', List.nodup_cons, List.disjoint_append_right,
    List.disjoint_cons_right, List.mem_append, List.mem_cons, not_or] at distinct
  rcases distinct with ⟨farNodup, _, valueFar, farNear, parentFar, farTree, farRest⟩
  have shape : join frame.side frame.color value (join frame.side .black frame.value tree near)
      (far.paint .black) = join frame.side.other frame.color value (far.paint .black)
        (join frame.side.other .black frame.value (near.paint near.color) tree) := by
    rw [join_other, join_other, ColorTree.paint_color]
  have valueFound : (memory.adopted (address far) (packed value .black)).node value =
      record frame.side.other (packed frame.value color) (address (far.paint .black)) (address near) := by
    rw [adopted_node_of_ne (ne_address aligned'.1 valueFar), found', address_paint]
  rw [shape]
  exact holds_rotated near.color .black painted aligned' aligned valueFound
    ((adopted_node_of_ne (ne_address aligned.1 parentFar)).trans found) (farStored.adopted farNodup)
    ((stored_adopted (address_not_mem farNear nearStored.zero_not_mem)).mpr nearStored)
    ((stored_adopted (address_not_mem farTree stored.zero_not_mem)).mpr stored)
    ((above_adopted (address_not_mem farRest higher.zero_not_mem)).mpr higher)

/-- Memory after the near child of the sibling has taken the sibling's place and the
sibling has become its far child, with the parent words still to be written. -/
def RbMemory.sunk (memory : RbMemory) (side : Side) (parent sibling inner tmp : Nat) : RbMemory :=
  let children := ((memory.write sibling ((memory.node sibling).withChild side tmp)).write inner
    ((memory.node inner).withChild side.other sibling)).write parent
      ((memory.node parent).withChild side.other inner)
  children.adopted tmp (packed sibling .black)

section Sunk

variable {side : Side} {sibling tmp hole other : Nat}

theorem stored_sunk (one : parent ∉ tree.values) (two : sibling ∉ tree.values)
    (three : inner ∉ tree.values) (four : tmp ∉ tree.values) :
    Stored (memory.sunk side parent sibling inner tmp).node other tree <->
      Stored memory.node other tree := by
  rw [RbMemory.sunk, stored_adopted four, stored_write one, stored_write three, stored_write two]

theorem above_sunk (one : parent ∉ context frames) (two : sibling ∉ context frames)
    (three : inner ∉ context frames) (four : tmp ∉ context frames) :
    StoredAbove (memory.sunk side parent sibling inner tmp) frames hole <->
      StoredAbove memory frames hole := by
  rw [RbMemory.sunk, above_adopted four, above_write one, above_write three, above_write two]

theorem sunk_parent (apart : parent ≠ tmp) :
    (memory.sunk side parent sibling inner tmp).node parent =
      (memory.node parent).withChild side.other inner := by
  rw [RbMemory.sunk, adopted_node_of_ne apart, write_node_self]

theorem sunk_inner (one : inner ≠ parent) (two : inner ≠ tmp) :
    (memory.sunk side parent sibling inner tmp).node inner =
      (memory.node inner).withChild side.other sibling := by
  rw [RbMemory.sunk, adopted_node_of_ne two, write_node_of_ne one, write_node_self]

theorem sunk_sibling (one : sibling ≠ parent) (two : sibling ≠ inner) (three : sibling ≠ tmp) :
    (memory.sunk side parent sibling inner tmp).node sibling =
      (memory.node sibling).withChild side tmp := by
  rw [RbMemory.sunk, adopted_node_of_ne three, write_node_of_ne one, write_node_of_ne two,
    write_node_self]

end Sunk

/-- A red near child of the sibling rises above both. -/
theorem Holds.liftNear (holds : Holds memory (frame :: rest) tree)
    (form : frame.sibling = join frame.side color value (join frame.side .red inner first last) far) :
    Holds ((((memory.sunk frame.side frame.value value inner (address last)).adopted value
        (packed inner .black)).rotated frame.side.other inner frame.value (address first)
          (packed (parentOf rest) frame.color) first.color .black).redirected frame.value inner
            (parentOf rest))
      rest (join frame.side frame.color inner (join frame.side .black frame.value tree first)
        (join frame.side .black value (last.paint .black) far)) := by
  have distinct := sibling_nodup holds.distinct form
  rcases holds with ⟨stored, ⟨aligned, found, sibling, higher⟩, -⟩
  rw [form, address_join, ← record_other] at found
  rcases stored_join.mp (form ▸ sibling) with ⟨aligned', found', nearStored, farStored⟩
  rcases stored_join.mp nearStored with ⟨aligned'', found'', firstStored, lastStored⟩
  rw [address_join] at found'
  rw [← record_other] at found''
  have painted : ((join frame.side .black value (last.paint .black) far).values ++
      inner :: (first.values ++ frame.value :: (tree.values ++ context rest))).Nodup := by
    have outer := values_join_perm frame.side .black value (last.paint .black) far
    rw [ColorTree.values_paint] at outer
    have seen := values_join_perm frame.side .red inner first last
    refine ((outer.append_right _).trans (List.Perm.trans ?_ ((((seen.append_right _).cons value).append_left
      far.values).symm))).nodup_iff.mpr distinct
    refine List.perm_iff_count.mpr (fun pointer => ?_)
    simp only [List.count_append, List.count_cons]
    omega
  have split : (last.values ++ value :: (far.values ++ 
      inner :: (first.values ++ frame.value :: (tree.values ++ context rest)))).Nodup := by
    have outer := values_join_perm frame.side .black value (last.paint .black) far
    rw [ColorTree.values_paint] at outer
    have here := (outer.append_right _).nodup_iff.mp painted
    simpa using here
  simp only [List.nodup_append', List.nodup_cons, List.disjoint_append_right,
    List.disjoint_cons_right, List.mem_append, List.mem_cons, not_or] at split
  rcases split with ⟨lastNodup, ⟨⟨valueFar, valueInner, valueFirst, valueParent, valueTree, valueRest⟩, _,
    ⟨⟨innerFirst, innerParent, innerTree, innerRest⟩, _, ⟨⟨parentTree, parentRest⟩, _⟩, parentFirst, _⟩,
    innerFar, _, parentFar, _⟩, valueLast, lastFar, innerLast, lastFirst, parentLast, lastTree, lastRest⟩
  have shape : join frame.side frame.color inner (join frame.side .black frame.value tree first)
      (join frame.side .black value (last.paint .black) far) =
        join frame.side.other frame.color inner (join frame.side .black value (last.paint .black) far)
          (join frame.side.other .black frame.value (first.paint first.color) tree) := by
    rw [join_other, join_other, ColorTree.paint_color]
  rw [shape]
  have nodeInner : ((memory.sunk frame.side frame.value value inner (address last)).adopted value
      (packed inner .black)).node inner = record frame.side.other (packed value .red)
        (address (join frame.side .black value (last.paint .black) far)) (address first) := by
    rw [adopted_node_of_ne (Ne.symm valueInner), sunk_inner innerParent (ne_address aligned''.1 innerLast),
      found'', withChild_record, address_join]
  have nodeParent : ((memory.sunk frame.side frame.value value inner (address last)).adopted value
      (packed inner .black)).node frame.value = record frame.side.other
        (packed (parentOf rest) frame.color) inner (address tree) := by
    rw [adopted_node_of_ne (Ne.symm valueParent), sunk_parent (ne_address aligned.1 parentLast), found,
      withChild_record]
  have nodeValue : ((memory.sunk frame.side frame.value value inner (address last)).adopted value
      (packed inner .black)).node value = record frame.side (packed inner .black)
        (address (last.paint .black)) (address far) := by
    rw [adopted_node_self aligned'.1, sunk_sibling valueParent valueInner
      (ne_address aligned'.1 valueLast), found', withChild_record, record_with_parentColor, address_paint]
  have lastMoved : Stored (memory.sunk frame.side frame.value value inner (address last)).node value
      (last.paint .black) :=
    Stored.adopted ((stored_write parentLast).mpr ((stored_write innerLast).mpr
      ((stored_write valueLast).mpr lastStored))) lastNodup
  refine holds_rotated first.color .black painted aligned'' aligned nodeInner nodeParent
    (stored_join.mpr ⟨aligned', nodeValue, ?_, ?_⟩) ?_ ?_ ?_
  · exact (stored_adopted (by rwa [ColorTree.values_paint])).mpr lastMoved
  · exact (stored_adopted valueFar).mpr ((stored_sunk parentFar valueFar innerFar
      (address_not_mem lastFar farStored.zero_not_mem)).mpr farStored)
  · exact (stored_adopted valueFirst).mpr ((stored_sunk parentFirst valueFirst innerFirst
      (address_not_mem lastFirst firstStored.zero_not_mem)).mpr firstStored)
  · exact (stored_adopted valueTree).mpr ((stored_sunk parentTree valueTree innerTree
      (address_not_mem lastTree stored.zero_not_mem)).mpr stored)
  · exact (above_adopted valueRest).mpr ((above_sunk parentRest valueRest innerRest
      (address_not_mem lastRest higher.zero_not_mem)).mpr higher)

/-! ## One round -/

theorem ensures_adoptKeeping {pointer : Nat} {done : PUnit -> RbMemory -> Prop}
    {failed : Fault -> RbMemory -> Prop} :
    Ensures (adoptKeeping pointer parent) memory done failed <->
      done PUnit.unit (memory.adopted pointer
        (packed parent (rbColor (memory.node pointer).parentColor))) := by
  unfold adoptKeeping RbMemory.adopted
  by_cases null : pointer = 0
  · simp [null]
  · simp [null, ensures_rbSetParent null]

theorem ensures_liftSibling {side : Side} {sibling tmp1 tmp2 : Nat}
    {done : PUnit -> RbMemory -> Prop} {failed : Fault -> RbMemory -> Prop} (parentValid : parent ≠ 0)
    (siblingValid : sibling ≠ 0) (tmpValid : tmp1 ≠ 0) (one : sibling ≠ parent) (two : tmp1 ≠ parent)
    (three : tmp1 ≠ sibling) (near : (memory.node sibling).child side = tmp2) (four : parent ≠ tmp2)
    (five : tmp2 ≠ sibling) (six : tmp2 ≠ tmp1) :
    Ensures (liftSibling side parent sibling tmp1) memory done failed <->
      done PUnit.unit (((memory.adopted tmp1 (packed sibling .black)).rotated side.other sibling parent
        tmp2 (memory.node parent).parentColor (rbColor (memory.node tmp2).parentColor) .black).redirected
          parent sibling (rbParent (memory.node parent).parentColor)) := by
  have early : ((memory.write parent ((memory.node parent).withChild side.other tmp2)).write sibling
      ((memory.node sibling).withChild side parent)).write tmp1
        { memory.node tmp1 with parentColor := packed sibling .black } =
      ((memory.adopted tmp1 (packed sibling .black)).write parent
        ((memory.node parent).withChild side.other tmp2)).write sibling
          ((memory.node sibling).withChild side parent) := by
    rw [adopted_of_ne tmpValid, write_comm (Ne.symm three), write_comm (Ne.symm two)]
  unfold liftSibling
  simp only [Ensures.bind_iff, ensures_loadNode siblingValid, near, ensures_writeChild parentValid,
    ensures_writeChild siblingValid, ensures_rbSetParentColor tmpValid, ensures_adoptKeeping,
    ensures_rbRotateSetParents parentValid siblingValid one, write_node_of_ne one, write_node_of_ne two,
    write_node_of_ne three, early, write_node_of_ne five, write_node_of_ne (Ne.symm four),
    adopted_node_of_ne six, adopted_node_of_ne four, write_node_of_ne (Ne.symm one), write_node_self,
    withChild_parentColor, RbMemory.rotated, adopted_node_of_ne (Ne.symm two),
    adopted_node_of_ne (Ne.symm three), Side.other_other]

/-- `rb_set_parent` keeps the color of the subtree that changes its parent. -/
theorem rotated_keeping {next : RbMemory} {side : Side} {up down word other : Nat} {own : Color}
    (stored : Stored memory.node other near) (aligned : other % 4 = 0) :
    next.rotated side up down (address near) word (rbColor (memory.node (address near)).parentColor) own =
      next.rotated side up down (address near) word near.color own := by
  cases near with
  | nil => rfl
  | node color pointer left right =>
      rw [address, stored.2.1, rbColor_packed aligned, ColorTree.color]

theorem eq_black_of_not_red (notRed : ¬ tree.color = .red) : tree.color = .black := by
  cases own : tree.color with
  | red => exact absurd own notRed
  | black => rfl

theorem ensures_sinkSibling {side : Side} {sibling tmp : Nat} {done : PUnit -> RbMemory -> Prop}
    {failed : Fault -> RbMemory -> Prop} (parentValid : parent ≠ 0) (siblingValid : sibling ≠ 0)
    (innerValid : inner ≠ 0) (one : inner ≠ sibling) (two : parent ≠ sibling) (three : parent ≠ inner) :
    Ensures (sinkSibling side parent sibling inner tmp) memory done failed <->
      done PUnit.unit (memory.sunk side parent sibling inner tmp) := by
  unfold sinkSibling
  simp only [Ensures.bind_iff, ensures_writeChild siblingValid, ensures_writeChild innerValid,
    ensures_writeChild parentValid, ensures_adopt, write_node_of_ne one, write_node_of_ne two,
    write_node_of_ne three]
  exact Iff.rfl

/-- The nodes that a round may write to. -/
theorem outside_sibling {pointer : Nat} (outside : pointer ∉ tree.values ++ context (frame :: rest))
    (form : frame.sibling = join frame.side color value near far) :
    pointer ≠ frame.value ∧ pointer ∉ near.values ∧ pointer ≠ value ∧ pointer ∉ far.values ∧
      pointer ∉ context rest := by
  rw [context_cons, form] at outside
  simp only [List.mem_append, List.mem_cons, not_or,
    (values_join_perm frame.side color value near far).mem_iff] at outside
  tauto

/-- Case 4. -/
theorem ensures_liftFar {again : Option (Nat × Nat)} (holds : Holds memory (frame :: rest) tree)
    (form : frame.sibling = join frame.side color value near far) (red : far.color = .red) :
    Ensures (do liftSibling frame.side frame.value value (address far); pure again) memory
      (fun result next => Untouched memory next (tree.values ++ context (frame :: rest)) ∧
        Holds next rest (repair frame tree).1 ∧ result = again)
      (fun _ _ => False) := by
  have whole := holds
  have distinct := sibling_nodup holds.distinct form
  rcases holds with ⟨stored, ⟨aligned, found, sibling, higher⟩, -⟩
  rw [form, address_join] at found
  rcases stored_join.mp (form ▸ sibling) with ⟨aligned', found', nearStored, farStored⟩
  simp only [List.nodup_append', List.nodup_cons, List.disjoint_append_right,
    List.disjoint_cons_right, List.mem_append, List.mem_cons, not_or] at distinct
  rcases distinct with ⟨_, ⟨⟨valueNear, valueParent, _⟩, _, _, parentNear, _⟩, valueFar, farNear,
    parentFar, _⟩
  have present : far ≠ .nil := by
    rintro rfl
    cases red
  have nearChild : (memory.node value).child frame.side = address near := by
    rw [found', child_record]
  rw [Ensures.bind_iff, ensures_liftSibling aligned.1 aligned'.1 (farStored.address_ne_zero red)
    valueParent (Ne.symm (ne_address aligned.1 parentFar)) (Ne.symm (ne_address aligned'.1 valueFar))
    nearChild (ne_address aligned.1 parentNear) (Ne.symm (ne_address aligned'.1 valueNear))
    (Ne.symm (address_ne farNear farStored present)), Ensures.pure_iff, repair_far form red,
    rotated_keeping nearStored aligned'.2, found, record_parentColor,
    rbParent_packed higher.parentOf_aligned]
  refine ⟨fun pointer outside => ?_, whole.liftFar form, rfl⟩
  rcases outside_sibling outside form with ⟨notParent, notNear, notValue, notFar, notRest⟩
  rw [redirected_untouched notRest, rotated_untouched notValue notParent notNear,
    adopted_untouched notFar]

/-- Case 3, which leads on to case 4. -/
theorem ensures_liftNear {again : Option (Nat × Nat)} (holds : Holds memory (frame :: rest) tree)
    (form : frame.sibling = join frame.side color value (join frame.side .red inner first last) far)
    (notRed : ¬ far.color = .red) :
    Ensures (do
        sinkSibling frame.side frame.value value inner (address last)
        liftSibling frame.side frame.value inner value
        pure again) memory
      (fun result next => Untouched memory next (tree.values ++ context (frame :: rest)) ∧
        Holds next rest (repair frame tree).1 ∧ result = again)
      (fun _ _ => False) := by
  have whole := holds
  have distinct := sibling_nodup holds.distinct form
  rcases holds with ⟨stored, ⟨aligned, found, sibling, higher⟩, -⟩
  rw [form, address_join] at found
  rcases stored_join.mp (form ▸ sibling) with ⟨aligned', found', nearStored, farStored⟩
  rcases stored_join.mp nearStored with ⟨aligned'', found'', firstStored, lastStored⟩
  have order := values_join_perm frame.side .red inner first last
  have below := List.nodup_append'.mp (List.nodup_cons.mp (List.nodup_append'.mp distinct).2.1).2
  have nodup := order.nodup_iff.mp below.1
  simp only [List.nodup_append', List.nodup_cons, List.disjoint_append_right,
    List.disjoint_cons_right, List.mem_append, List.mem_cons, not_or, order.mem_iff] at distinct nodup
  rcases distinct with ⟨_, ⟨⟨⟨valueFirst, valueInner, valueLast⟩, valueParent, _⟩, _, _,
    ⟨parentFirst, parentInner, parentLast⟩, _⟩, _⟩
  rcases nodup with ⟨_, ⟨innerLast, _⟩, innerFirst, firstLast⟩
  have innerSunk : (memory.sunk frame.side frame.value value inner (address last)).node inner =
      record frame.side (packed value .red) (address first) value := by
    rw [sunk_inner (Ne.symm parentInner) (ne_address aligned''.1 innerLast), found'',
      withChild_other_record]
  have firstSunk : Stored (memory.sunk frame.side frame.value value inner (address last)).node inner
      first := by
    rw [stored_sunk parentFirst valueFirst innerFirst
      (address_not_mem firstLast.symm firstStored.zero_not_mem)]
    exact firstStored
  have nearChild : ((memory.sunk frame.side frame.value value inner (address last)).node inner).child
      frame.side = address first := by
    rw [innerSunk, child_record]
  have word : ((memory.sunk frame.side frame.value value inner (address last)).node
      frame.value).parentColor = packed (parentOf rest) frame.color := by
    rw [sunk_parent (ne_address aligned.1 parentLast), withChild_parentColor, found,
      record_parentColor]
  rw [Ensures.bind_iff, ensures_sinkSibling aligned.1 aligned'.1 aligned''.1 (Ne.symm valueInner)
    (Ne.symm valueParent) parentInner, Ensures.bind_iff, ensures_liftSibling aligned.1 aligned''.1
    aligned'.1 (Ne.symm parentInner) valueParent valueInner nearChild (ne_address aligned.1 parentFirst)
    (Ne.symm (ne_address aligned''.1 innerFirst)) (Ne.symm (ne_address aligned'.1 valueFirst)),
    Ensures.pure_iff, repair_near form notRed, rotated_keeping firstSunk aligned''.2, word,
    rbParent_packed higher.parentOf_aligned]
  refine ⟨fun pointer outside => ?_, whole.liftNear form, rfl⟩
  rcases outside_sibling outside form with ⟨notParent, notNear, notValue, _, notRest⟩
  simp only [order.mem_iff, List.mem_append, List.mem_cons, not_or] at notNear
  rw [redirected_untouched notRest, rotated_untouched notNear.2.1 notParent notNear.1,
    adopted_node_of_ne notValue]
  rw [RbMemory.sunk, adopted_untouched notNear.2.2, write_node_of_ne notParent,
    write_node_of_ne notNear.2.1, write_node_of_ne notValue]

/-- Where the loop of `____rb_erase_color` goes on after a repair. -/
def onward (frame : Frame Nat) (rest : List (Frame Nat)) (tree : ColorTree Nat) : Option (Nat × Nat) :=
  if (repair frame tree).2 then
    if parentOf rest = 0 then none else some (frame.value, parentOf rest)
  else none

/-- Case 2. -/
theorem ensures_flipSibling (holds : Holds memory (frame :: rest) tree)
    (form : frame.sibling = join frame.side color value near far) (farBlack : ¬ far.color = .red)
    (nearBlack : ¬ near.color = .red) :
    Ensures (flipSibling frame.value value) memory
      (fun again next => Untouched memory next (tree.values ++ context (frame :: rest)) ∧
        Holds next rest (repair frame tree).1 ∧ again = onward frame rest tree)
      (fun _ _ => False) := by
  have painted := holds.paintSibling .red
  rcases holds with ⟨-, ⟨aligned, found, sibling, higher⟩, distinct⟩
  have lined := higher.parentOf_aligned
  have apart := sibling_nodup distinct form
  simp only [List.nodup_append', List.nodup_cons, List.mem_append, List.mem_cons, not_or] at apart
  have valueParent := apart.2.1.1.2.1
  rcases stored_join.mp (form ▸ sibling) with ⟨aligned', -, -, -⟩
  have marked : memory.adopted (address frame.sibling) (packed frame.value .red) =
      memory.write value { memory.node value with parentColor := packed frame.value .red } := by
    rw [form, address_join, adopted_of_ne aligned'.1]
  rw [marked] at painted
  unfold flipSibling onward
  rw [repair_flip form farBlack nearBlack]
  simp only [Ensures.bind_iff, ensures_rbSetParentColor aligned'.1, ensures_loadNode aligned.1,
    write_node_of_ne (Ne.symm valueParent), found, record_parentColor, rbColor_packed lined,
    rbParent_packed lined]
  cases own : frame.color with
  | red =>
      have blackened := painted.recolorFrame .black
      rw [write_node_of_ne (Ne.symm valueParent), found, record_with_parentColor] at blackened
      have word : packed (parentOf rest) .red ||| 1 = packed (parentOf rest) .black := by
        rw [packed_red]
        rfl
      simp only [if_true, reduceCtorEq, decide_false, Ensures.bind_iff, rbSetBlack,
        ensures_changeNode aligned.1, write_node_of_ne (Ne.symm valueParent), found, own,
        record_parentColor, word, record_with_parentColor, Ensures.pure_iff]
      refine ⟨fun pointer outside => ?_, holds_cons.mp blackened, rfl⟩
      rcases outside_sibling outside form with ⟨notParent, _, notValue, _, _⟩
      rw [write_node_of_ne notParent, write_node_of_ne notValue]
  | black =>
      rw [own] at painted
      have kept := holds_cons.mp painted
      simp only [reduceCtorEq, if_false, decide_true, if_true]
      have untouched : Untouched memory (memory.write value
          { memory.node value with parentColor := packed frame.value .red })
            (tree.values ++ context (frame :: rest)) := by
        intro pointer outside
        rcases outside_sibling outside form with ⟨_, _, notValue, _, _⟩
        rw [write_node_of_ne notValue]
      split
      · exact Ensures.pure_iff.mpr ⟨untouched, kept, rfl⟩
      · exact Ensures.pure_iff.mpr ⟨untouched, kept, rfl⟩

/-- The part of a round after which the sibling is black. -/
theorem ensures_rbEraseBlack {count : Nat} (black : Balanced .black (count + 1) frame.sibling)
    (holds : Holds memory (frame :: rest) tree) :
    Ensures (rbEraseBlack frame.side frame.value (address frame.sibling)) memory
      (fun again next => Untouched memory next (tree.values ++ context (frame :: rest)) ∧
        Holds next rest (repair frame tree).1 ∧ again = onward frame rest tree)
      (fun _ _ => False) := by
  rcases black.exists_join frame.side with ⟨value, near, far, form, ⟨_, one⟩, ⟨_, two⟩⟩
  rcases holds.above with ⟨_, _, sibling, _⟩
  rcases stored_join.mp (form ▸ sibling) with ⟨aligned, found, nearStored, farStored⟩
  rw [form, address_join]
  unfold rbEraseBlack
  simp only [Ensures.bind_iff, ensures_loadNode aligned.1, found, child_other_record, child_record,
    ensures_colorAt farStored aligned.2]
  by_cases farRed : far.color = .red
  · have stops : onward frame rest tree = none := by
      rw [onward, repair_far form farRed]
      rfl
    rw [farRed, if_neg (by decide), stops]
    exact ensures_liftFar holds form farRed
  rw [eq_black_of_not_red farRed, if_pos rfl, Ensures.bind_iff, ensures_colorAt nearStored aligned.2]
  by_cases nearRed : near.color = .red
  · rcases (one.of_red nearRed).exists_join_red frame.side with ⟨inner, first, last, rfl, -, -⟩
    rcases stored_join.mp nearStored with ⟨aligned', found', -, -⟩
    have stops : onward frame rest tree = none := by
      rw [onward, repair_near form farRed]
      rfl
    rw [nearRed, if_neg (by decide), stops, address_join, Ensures.bind_iff, ensures_loadNode aligned'.1,
      found', child_other_record]
    exact ensures_liftNear holds form farRed
  · rw [eq_black_of_not_red nearRed, if_pos rfl]
    exact ensures_flipSibling holds form farRed nearRed

theorem ensures_raiseSibling {side : Side} {sibling tmp : Nat} {done : PUnit -> RbMemory -> Prop}
    {failed : Fault -> RbMemory -> Prop} (parentValid : parent ≠ 0) (siblingValid : sibling ≠ 0)
    (tmpValid : tmp ≠ 0) (one : sibling ≠ parent) (two : parent ≠ tmp) :
    Ensures (raiseSibling side parent sibling tmp) memory done failed <->
      done PUnit.unit ((memory.rotated side.other sibling parent tmp (memory.node parent).parentColor
        .black .red).redirected parent sibling (rbParent (memory.node parent).parentColor)) := by
  unfold raiseSibling
  simp only [Ensures.bind_iff, ensures_writeChild parentValid, ensures_writeChild siblingValid,
    ensures_rbSetParentColor tmpValid, ensures_rbRotateSetParents parentValid siblingValid one,
    write_node_of_ne one, ← adopted_of_ne tmpValid, adopted_node_of_ne two,
    write_node_of_ne (Ne.symm one), write_node_self, withChild_parentColor, RbMemory.rotated,
    Side.other_other]

/-- What is known beside a place that lacks a black node. -/
theorem sibling_cases {count : Nat} (fits : RedBlack.Fits (frame :: rest) .black (count + 1)) :
    Balanced .black (count + 1) frame.sibling ∨
      frame.color = .black ∧ Exists fun value => Exists fun near => Exists fun far =>
        frame.sibling = join frame.side .red value near far ∧ Balanced .black (count + 1) near ∧
          Balanced .black (count + 1) far := by
  by_cases dark : frame.color = .black
  · rcases (fits.of_black dark).1 with ⟨own, sibling⟩
    cases own with
    | black => exact Or.inl sibling
    | red => exact Or.inr ⟨dark, sibling.exists_join_red frame.side⟩
  · exact Or.inl (fits.of_red dark).2.1

/-- One round of the loop. -/
theorem ensures_rbEraseSide {count : Nat} (fits : RedBlack.Fits (frame :: rest) .black (count + 1))
    (holds : Holds memory (frame :: rest) tree) :
    Ensures (rbEraseSide frame.side frame.value) memory
      (fun again next => Untouched memory next (tree.values ++ context (frame :: rest)) ∧
        (again = none ∧ Holds next [] (fixBlack (frame :: rest) tree) ∨
          Balanced .black (count + 1) frame.sibling ∧ (repair frame tree).2 = true ∧ rest ≠ [] ∧
            again = some (frame.value, parentOf rest) ∧ Holds next rest (repair frame tree).1))
      (fun _ _ => False) := by
  have whole := holds
  rcases holds with ⟨stored, ⟨aligned, found, sibling, higher⟩, distinct⟩
  unfold rbEraseSide
  simp only [Ensures.bind_iff, ensures_loadNode aligned.1, found, child_other_record]
  rcases sibling_cases fits with black | ⟨dark, value, near, far, form, nearBlack, farBlack⟩
  · have notRed : ¬ frame.sibling.color = .red := by
      rw [black.color_eq]
      decide
    have plain : Ensures (rbEraseBlack frame.side frame.value (address frame.sibling)) memory _ _ :=
      ensures_rbEraseBlack black whole
    rcases black.exists_join frame.side with ⟨value, near, far, form, _, _⟩
    rcases stored_join.mp (form ▸ sibling) with ⟨aligned', found', -, -⟩
    rw [form, address_join] at plain ⊢
    rw [ensures_loadNode aligned'.1, found', record_parentColor, rbColor_packed aligned.2,
      if_neg (by decide)]
    refine plain.mono ?_ (fun _ _ impossible => impossible)
    rintro again next ⟨untouched, repaired, rfl⟩
    refine ⟨untouched, ?_⟩
    rw [fixBlack_black notRed, onward]
    cases outcome : (repair frame tree).2 with
    | false => exact Or.inl ⟨rfl, holds_plug.mp repaired⟩
    | true =>
        cases rest with
        | nil => exact Or.inl ⟨rfl, repaired⟩
        | cons above outer =>
            exact Or.inr ⟨form ▸ black, rfl, List.cons_ne_nil _ _, by simp [parentOf, higher.1.1], repaired⟩
  · rcases stored_join.mp (form ▸ sibling) with ⟨aligned', found', nearStored, farStored⟩
    have apart := sibling_nodup distinct form
    simp only [List.nodup_append', List.nodup_cons, List.disjoint_append_right,
      List.disjoint_cons_right, List.mem_append, List.mem_cons, not_or] at apart
    rcases apart with ⟨_, ⟨⟨_, valueParent, _⟩, _, _, parentNear, _⟩, _⟩
    have nearValid := address_ne_zero nearStored nearBlack.ne_nil
    rw [form, address_join, ensures_loadNode aligned'.1, found', record_parentColor,
      rbColor_packed aligned.2, if_pos rfl, child_record, Ensures.bind_iff,
      ensures_raiseSibling aligned.1 aligned'.1 nearValid valueParent (ne_address aligned.1 parentNear),
      found, record_parentColor, rbParent_packed higher.parentOf_aligned]
    have raised := whole.liftRed form
    rw [nearBlack.paint_black] at raised
    refine (ensures_rbEraseBlack nearBlack raised).mono ?_ (fun _ _ impossible => impossible)
    rintro again next ⟨untouched, repaired, rfl⟩
    refine ⟨fun pointer outside => ?_, Or.inl ⟨?_, ?_⟩⟩
    · rcases outside_sibling outside form with ⟨notParent, notNear, notValue, notFar, notRest⟩
      have notTree : pointer ∉ tree.values := fun member => outside (List.mem_append_left _ member)
      rw [untouched pointer (by simp [context_cons, notTree, notParent, notNear, notValue, notFar, notRest]),
        redirected_untouched notRest, rotated_untouched notValue notParent notNear]
    · rw [onward, repair_stops nearBlack]
      rfl
    · rw [fixBlack_red form, nearBlack.paint_black]
      exact holds_plug.mp (holds_cons.mp repaired)

/-- The side of a node is found by comparing it with the right child of its parent. -/
theorem erase_side_eq {count : Nat} (fits : RedBlack.Fits (frame :: rest) .black (count + 1))
    (holds : Holds memory (frame :: rest) tree) :
    (if address tree = (memory.node frame.value).right then Side.right else Side.left) = frame.side := by
  rcases holds with ⟨-, ⟨-, found, sibling, -⟩, distinct⟩
  have present : frame.sibling ≠ .nil := by
    rcases sibling_cases fits with black | ⟨_, value, near, far, form, _, _⟩
    · exact black.ne_nil
    · rw [form]
      exact join_ne_nil _ _ _ _ _
  simp only [context_cons, List.nodup_append', List.disjoint_cons_right,
    List.disjoint_append_right] at distinct
  have apart := address_ne distinct.2.2.2.1.symm sibling present
  rw [found]
  cases frame.side with
  | left => exact if_neg (Ne.symm apart)
  | right => exact if_pos rfl

/-- The loop repairs a tree whose place lacks a black node. -/
theorem ensures_rbEraseColor {count fuel : Nat} (fits : RedBlack.Fits frames .black (count + 1))
    (short : Balanced .black count tree) (holds : Holds memory frames tree) (inside : frames ≠ [])
    (enough : frames.length ≤ fuel) :
    Ensures (rbEraseColor fuel (address tree) (parentOf frames)) memory
      (fun _ next => Untouched memory next (tree.values ++ context frames) ∧
        Holds next [] (fixBlack frames tree))
      (fun _ _ => False) := by
  induction fuel generalizing memory frames tree count with
  | zero => exact absurd (List.length_eq_zero_iff.mp (Nat.le_zero.mp enough)) inside
  | succ fuel ih =>
      cases frames with
      | nil => exact absurd rfl inside
      | cons frame rest =>
          rw [parentOf, rbEraseColor]
          rw [Ensures.bind_iff, ensures_loadNode holds.above.1.1, erase_side_eq fits holds, Ensures.bind_iff]
          refine (ensures_rbEraseSide fits holds).mono ?_ (fun _ _ impossible => impossible)
          rintro again next ⟨untouched, ⟨rfl, done⟩ | ⟨black, goes, more, rfl, repaired⟩⟩
          · exact Ensures.pure_iff.mpr ⟨untouched, done⟩
          · have notRed : ¬ frame.sibling.color = .red := by
              rw [black.color_eq]
              decide
            have state := balanced_repair fits black short
            rw [if_pos goes] at state
            rw [fixBlack_black notRed, if_pos goes]
            have later := ih state.1 state.2 repaired more (Nat.le_of_succ_le_succ enough)
            rw [repair_goes_on black goes, address_join, ← repair_goes_on black goes] at later
            refine later.mono ?_ (fun _ _ impossible => impossible)
            rintro _ last ⟨after, finished⟩
            refine ⟨untouched.trans after (fun pointer => ?_), finished⟩
            rw [List.mem_append, values_repair, ← List.mem_append]
            exact (fill_perm frame rest tree).mem_iff.mp

/-! ## Unlinking a node -/

/-- A subtree takes the place of the focus. -/
theorem Holds.replaced {child : ColorTree Nat} {pointer : Nat} (new : Color)
    (above : StoredAbove memory frames pointer) (valid : pointer ≠ 0)
    (outside : pointer ∉ context frames) (stored : Stored memory.node pointer child)
    (distinct : (child.values ++ context frames).Nodup) :
    Holds ((memory.adopted (address child) (packed (parentOf frames) new)).redirected pointer
      (address child) (parentOf frames)) frames (child.paint new) := by
  have parts := List.nodup_append'.mp distinct
  refine ⟨?_, ?_, by rwa [ColorTree.values_paint]⟩
  · rw [stored_redirected (parentOf_not_mem (by rw [ColorTree.values_paint]; exact parts.2.2)
      (by rw [ColorTree.values_paint]; exact stored.zero_not_mem))]
    exact stored.adopted parts.1
  · rw [address_paint]
    refine StoredAbove.redirected ?_ valid outside parts.2.1
    exact (above_adopted (address_not_mem parts.2.2 above.zero_not_mem)).mpr above

/-- The two writes of an unlinking commute. -/
theorem redirected_adopted {pointer word old new : Nat} (apart : pointer ≠ parent) :
    (memory.redirected old new parent).adopted pointer word =
      (memory.adopted pointer word).redirected old new parent := by
  unfold RbMemory.redirected
  rw [adopted_node_of_ne (Ne.symm apart)]
  unfold RbMemory.adopted
  split
  · split <;> rfl
  · split
    · rfl
    · rw [write_node_of_ne apart, write_comm (Ne.symm apart)]

/-- Memory after the successor has taken the place of a node. -/
def RbMemory.placed (memory : RbMemory) (pointer parent successor child2 tmp word : Nat) (shade : Color) :
    RbMemory :=
  let hung := (memory.write successor ((memory.node successor).withChild .left tmp)).adopted tmp
    (packed successor shade)
  let shown := hung.redirected pointer successor (rbParent word)
  (shown.write successor { shown.node successor with parentColor := word }).adopted child2
    (packed parent .black)

section Placed

variable {pointer successor child2 : Nat} {left : ColorTree Nat}

theorem ensures_takePlace {right : Nat} {done : Nat -> RbMemory -> Prop}
    {failed : Fault -> RbMemory -> Prop} (aligned : Aligned pointer) (valid : successor ≠ 0)
    (found : memory.node pointer = ⟨packed (parentOf frames) color, right, address left⟩)
    (leftStored : Stored memory.node pointer left) (present : left ≠ .nil)
    (above : StoredAbove memory frames pointer) (apart : pointer ≠ successor)
    (pointerLeft : pointer ∉ left.values) (successorLeft : successor ∉ left.values)
    (successorFrames : successor ∉ context frames) :
    Ensures (takePlace pointer parent successor child2) memory done failed <->
      done (if child2 = 0 ∧ rbColor (memory.node successor).parentColor = .black then parent else 0)
        (memory.placed pointer parent successor child2 (address left) (packed (parentOf frames) color)
          left.color) := by
  have tmpValid := address_ne_zero leftStored present
  have tmpSuccessor := ne_address valid successorLeft
  have tmpPointer := ne_address aligned.1 pointerLeft
  have lined := above.parentOf_aligned
  have parentSuccessor := ne_parentOf valid successorFrames
  have shade := leftStored.rbColor_eq present aligned.2
  have hung : (memory.write successor ((memory.node successor).withChild .left (address left))).write
      (address left) { memory.node (address left) with parentColor := packed successor left.color } =
      (memory.write successor ((memory.node successor).withChild .left (address left))).adopted
        (address left) (packed successor left.color) := by
    rw [adopted_of_ne tmpValid, write_node_of_ne (Ne.symm tmpSuccessor)]
  unfold takePlace
  simp only [Ensures.bind_iff, ensures_loadNode aligned.1, found, ensures_writeChild valid,
    ensures_rbSetParent tmpValid, write_node_of_ne (Ne.symm tmpSuccessor), shade,
    adopted_node_of_ne tmpPointer, write_node_of_ne apart, ensures_rbChangeChild, rbParent_packed lined,
    hung]
  have old : (((memory.write successor ((memory.node successor).withChild .left
      (address left))).adopted (address left) (packed successor left.color)).redirected pointer successor
        (parentOf frames)).node successor = (memory.node successor).withChild .left (address left) := by
    rw [redirected_node_of_ne parentSuccessor, adopted_node_of_ne tmpSuccessor, write_node_self]
  unfold RbMemory.placed
  rw [rbParent_packed lined]
  by_cases null : child2 = 0
  · simp only [null, ne_eq, not_true_eq_false, if_false, Ensures.bind_iff, ensures_loadNode valid,
      ensures_changeNode valid, Ensures.pure_iff, old, withChild_parentColor, true_and]
    exact Iff.rfl
  · simp only [null, ne_eq, not_false_eq_true, if_true, Ensures.bind_iff, ensures_changeNode valid,
      ensures_rbSetParentColor null, Ensures.pure_iff, old, false_and, if_false,
      adopted_of_ne null]

variable {right : Nat}

/-- The successor has the children of the node it replaces, and its parent and color. -/
theorem placed_successor (valid : successor ≠ 0) (successorLeft : successor ∉ left.values)
    (successorFrames : successor ∉ context frames) (lined : parentOf frames % 4 = 0)
    (different : successor ≠ child2) :
    (memory.placed pointer parent successor child2 (address left) (packed (parentOf frames) color)
        left.color).node successor =
      ⟨packed (parentOf frames) color, (memory.node successor).right, address left⟩ := by
  unfold RbMemory.placed
  rw [rbParent_packed lined, adopted_node_of_ne different, write_node_self,
    redirected_node_of_ne (ne_parentOf valid successorFrames),
    adopted_node_of_ne (ne_address valid successorLeft), write_node_self]
  rfl

theorem placed_left (leftStored : Stored memory.node pointer left) (leftNodup : left.values.Nodup)
    (successorLeft : successor ∉ left.values) (childLeft : child2 ∉ left.values)
    (apart : List.Disjoint left.values (context frames)) (lined : parentOf frames % 4 = 0) :
    Stored (memory.placed pointer parent successor child2 (address left)
      (packed (parentOf frames) color) left.color).node successor left := by
  unfold RbMemory.placed
  rw [rbParent_packed lined, stored_adopted childLeft, stored_write successorLeft,
    stored_redirected (parentOf_not_mem apart leftStored.zero_not_mem)]
  have written : Stored (memory.write successor
      ((memory.node successor).withChild .left (address left))).node pointer left :=
    (stored_write successorLeft).mpr leftStored
  have hung : Stored ((memory.write successor ((memory.node successor).withChild .left
      (address left))).adopted (address left) (packed successor left.color)).node successor
        (left.paint left.color) := written.adopted leftNodup
  rwa [ColorTree.paint_color] at hung

theorem placed_above (above : StoredAbove memory frames pointer) (valid : pointer ≠ 0)
    (pointerFrames : pointer ∉ context frames) (framesNodup : (context frames).Nodup)
    (successorFrames : successor ∉ context frames) (childFrames : child2 ∉ context frames)
    (apart : List.Disjoint left.values (context frames)) :
    StoredAbove (memory.placed pointer parent successor child2 (address left)
      (packed (parentOf frames) color) left.color) frames successor := by
  unfold RbMemory.placed
  rw [rbParent_packed above.parentOf_aligned, above_adopted childFrames, above_write successorFrames]
  refine StoredAbove.redirected ?_ valid pointerFrames framesNodup
  rw [above_adopted (address_not_mem apart above.zero_not_mem), above_write successorFrames]
  exact above

/-- Elsewhere only the child that moved up has changed. -/
theorem placed_other {other : Nat} (one : other ≠ successor) (two : other ∉ left.values)
    (three : other ∉ context frames) (lined : parentOf frames % 4 = 0) :
    (memory.placed pointer parent successor child2 (address left) (packed (parentOf frames) color)
        left.color).node other = (memory.adopted child2 (packed parent .black)).node other := by
  unfold RbMemory.placed
  rw [rbParent_packed lined]
  refine adopted_node_congr ?_
  rw [write_node_of_ne one, redirected_untouched three, adopted_untouched two, write_node_of_ne one]

end Placed

/-! ## A node with two children -/

/-- The node where the tree is to be rebalanced after a node was unlinked. -/
def lacking (own : Color) (child : ColorTree Nat) (frames : List (Frame Nat)) : Nat :=
  if address child = 0 ∧ own = .black then parentOf frames else 0

/-- The descent finds the least node. -/
theorem ensures_rbSuccessor {fuel top : Nat} (path : List (Frame Nat)) {left right : ColorTree Nat}
    {own : Color} {done : Nat × Nat -> RbMemory -> Prop} {failed : Fault -> RbMemory -> Prop}
    (stored : Stored memory.node parent (.node own top left right)) (enough : left.height < fuel) :
    Ensures (rbSuccessor fuel (parentOf path) top) memory done failed <->
      done (parentOf (least own top right path left).path, (least own top right path left).value)
        memory := by
  induction fuel generalizing parent top path left right own with
  | zero => exact absurd enough (Nat.not_lt_zero _)
  | succ fuel ih =>
      rcases stored with ⟨aligned, found, first, -⟩
      rw [rbSuccessor, Ensures.bind_iff, ensures_loadNode aligned.1, found]
      cases left with
      | nil =>
          simp only [address, if_true, Ensures.pure_iff]
          exact Iff.rfl
      | node below next inner other =>
          have shorter : inner.height < fuel := by
            simp only [ColorTree.height] at enough
            omega
          have valid : address (.node below next inner other) ≠ 0 := first.1.1
          rw [if_neg valid]
          exact ih (⟨.left, own, top, right⟩ :: path) first shorter

/-- The case where the successor is the right child. -/
theorem ensures_takePlace_child {pointer next : Nat} {below : Color} {left other : ColorTree Nat}
    (holds : Holds memory frames (.node color pointer left (.node below next .nil other)))
    (present : left ≠ .nil) :
    Ensures (takePlace pointer next next (address other)) memory
      (fun rebalance last =>
        Untouched memory last (left.values ++ (next :: other.values) ++ context frames) ∧
          Holds last (⟨.right, color, next, left⟩ :: frames) (other.paint .black) ∧
          rebalance = lacking below other (⟨.right, color, next, left⟩ :: frames))
      (fun _ _ => False) := by
  rcases holds with ⟨⟨aligned, found, leftStored, ⟨aligned', found', -, otherStored⟩⟩, above, distinct⟩
  have lined := above.parentOf_aligned
  have whole : ((ColorTree.node color next left (other.paint .black)).values ++
      context frames).Nodup := by
    simp only [ColorTree.values, ColorTree.values_paint, List.nil_append, List.append_assoc,
      List.cons_append] at distinct ⊢
    have shorter : List.Sublist (next :: (other.values ++ context frames))
        (pointer :: next :: (other.values ++ context frames)) := List.sublist_cons_self _ _
    exact distinct.sublist (shorter.append_left left.values)
  simp only [ColorTree.values, List.nil_append, List.append_assoc, List.cons_append, List.nodup_append',
    List.nodup_cons, List.disjoint_append_right, List.disjoint_cons_right, List.mem_append,
    List.mem_cons, not_or] at distinct
  rcases distinct with ⟨leftNodup, ⟨⟨apart, _, pointerFrames⟩, ⟨nextOther, nextFrames⟩,
    otherNodup, framesNodup, otherFrames⟩, pointerLeft, nextLeft, leftOther, leftFrames⟩
  have otherMoved : Stored (memory.adopted (address other) (packed next .black)).node next
      (other.paint .black) := otherStored.adopted otherNodup
  rw [ensures_takePlace aligned aligned'.1 found leftStored present above apart pointerLeft nextLeft
    nextFrames]
  refine ⟨fun pointer' outside => ?_, holds_cons.mpr ⟨⟨aligned', ?_, ?_, ?_⟩, ?_, whole⟩, ?_⟩
  · simp only [List.append_assoc, List.cons_append, List.mem_append, List.mem_cons, not_or] at outside
    rw [placed_other outside.2.1 outside.1 outside.2.2.2 lined, adopted_untouched outside.2.2.1]
  · rw [placed_successor aligned'.1 nextLeft nextFrames lined (ne_address aligned'.1 nextOther), found',
      address_paint]
  · exact placed_left leftStored leftNodup nextLeft
      (address_not_mem leftOther.symm leftStored.zero_not_mem) leftFrames lined
  · refine otherMoved.congr (fun node member => ?_)
    rw [ColorTree.values_paint] at member
    exact placed_other (ne_of_mem_of_not_mem member nextOther) (fun here => leftOther here member)
      (fun here => otherFrames member here) lined
  · exact placed_above above aligned.1 pointerFrames framesNodup nextFrames
      (address_not_mem otherFrames above.zero_not_mem) leftFrames
  · rw [found', rbColor_packed aligned.2]
    rfl

/-- Memory after the successor has left its parent. -/
def RbMemory.given (memory : RbMemory) (child parent successor child2 : Nat) (shade : Color) :
    RbMemory :=
  ((memory.write parent ((memory.node parent).withChild .left child2)).write successor
    ((memory.node successor).withChild .right child)).adopted child (packed successor shade)

theorem ensures_giveChild {child successor child2 : Nat} {done : PUnit -> RbMemory -> Prop}
    {failed : Fault -> RbMemory -> Prop} (childValid : child ≠ 0) (parentValid : parent ≠ 0)
    (successorValid : successor ≠ 0) (one : successor ≠ parent) (two : child ≠ successor) :
    Ensures (giveChild child parent successor child2) memory done failed <->
      done PUnit.unit (memory.given child parent successor child2
        (rbColor (memory.node child).parentColor)) := by
  have word : (((memory.write parent ((memory.node parent).withChild .left child2)).write successor
      ((memory.node successor).withChild .right child)).node child).parentColor =
        (memory.node child).parentColor := by
    rw [write_node_of_ne two]
    by_cases same : child = parent
    · rw [same, write_node_self, withChild_parentColor]
    · rw [write_node_of_ne same]
  unfold giveChild RbMemory.given
  simp only [Ensures.bind_iff, ensures_writeChild parentValid, ensures_writeChild successorValid,
    ensures_rbSetParent childValid, write_node_of_ne one, word, adopted_of_ne childValid]

section Deep

variable {pointer successor : Nat} {tail : List (Frame Nat)} {own : Color} {left child : ColorTree Nat}

/-- The nodes around the successor. -/
theorem successor_nodup (holds : Holds memory ((frame :: tail) ++ ⟨.right, color, pointer, left⟩ :: frames)
      (.node own successor .nil child)) :
    (successor :: (child.values ++ (context (frame :: tail) ++
      (pointer :: (left.values ++ context frames))))).Nodup := by
  have distinct := holds.distinct
  rwa [context_append] at distinct

/-- The right subtree below the successor, after the successor has left it. -/
theorem stored_given (holds : Holds memory ((frame :: tail) ++ ⟨.right, color, pointer, left⟩ :: frames)
      (.node own successor .nil child))
    (turn : frame.side = .left) :
    Stored ((memory.given (address (plug (frame :: tail) child)) frame.value successor (address child)
        (plug (frame :: tail) child).color).adopted (address child) (packed frame.value .black)).node
      successor (plug (frame :: tail) (child.paint .black)) := by
  have split := successor_nodup holds
  simp only [List.nodup_append', List.nodup_cons, List.disjoint_append_right,
    List.disjoint_cons_right, List.mem_append, List.mem_cons, not_or] at split
  rcases split with ⟨⟨successorChild, successorPath, -⟩, -, -, childPath, -⟩
  have distinct : (successor :: (child.values ++
      context ((frame :: tail) ++ ⟨.right, color, pointer, left⟩ :: frames))).Nodup := holds.distinct
  rcases holds with ⟨⟨aligned', -, -, childStored⟩, path, -⟩
  have outside := (List.nodup_cons.mp distinct).1
  rw [List.mem_append, not_or] at outside
  -- first the successor is unlinked, as a node with one child
  have unlinked := Holds.replaced .black path aligned'.1 outside.2 childStored
    (List.nodup_cons.mp distinct).2
  have zero := path.zero_not_mem
  rw [context_append, List.mem_append, not_or] at zero
  rcases path with ⟨aligned'', found'', -, -⟩
  have parentChild : frame.value ∉ child.values :=
    fun member => childPath member List.mem_cons_self
  have effect : (memory.adopted (address child) (packed frame.value .black)).redirected successor
      (address child) frame.value = (memory.adopted (address child) (packed frame.value .black)).write
        frame.value ((memory.node frame.value).withChild .left (address child)) := by
    rw [RbMemory.redirected, if_neg aligned''.1,
      adopted_node_of_ne (ne_address aligned''.1 parentChild), found'', turn]
    exact congrArg _ (congrArg (fun side => RbNode.withChild _ side _) (if_pos rfl))
  have outer := holds_cons.mp (holds_append.mp unlinked)
  have rightStored : Stored ((memory.adopted (address child) (packed frame.value .black)).write
      frame.value ((memory.node frame.value).withChild .left (address child))).node pointer
        (plug (frame :: tail) (child.paint .black)) := effect ▸ outer.stored.2.2.2
  have rightNodup : (plug (frame :: tail) (child.paint .black)).values.Nodup :=
    (List.nodup_cons.mp (List.nodup_append'.mp (List.nodup_append'.mp outer.distinct).1).2.1).2
  -- then the root of what remains gets the successor as its parent
  have adopted : Stored (((memory.adopted (address child) (packed frame.value .black)).write
      frame.value ((memory.node frame.value).withChild .left (address child))).adopted
        (address (plug (frame :: tail) (child.paint .black)))
          (packed successor (plug (frame :: tail) (child.paint .black)).color)).node successor
            ((plug (frame :: tail) (child.paint .black)).paint
              (plug (frame :: tail) (child.paint .black)).color) := rightStored.adopted rightNodup
  rcases address_plug_cons frame tail child (child.paint .black) with ⟨topSame, topMember⟩
  have topValid : address (plug (frame :: tail) child) ≠ 0 := fun null => zero.1 (null ▸ topMember)
  have topChild : address (plug (frame :: tail) child) ≠ address child :=
    ne_address topValid (fun member => childPath member topMember)
  rw [ColorTree.paint_color, ← topSame,
    ← color_plug_cons frame tail child (child.paint .black)] at adopted
  refine adopted.congr (fun node member => ?_)
  have order := values_plug_perm (frame :: tail) (child.paint .black)
  rw [ColorTree.values_paint] at order
  have notSuccessor : node ≠ successor := by
    rintro rfl
    exact (List.mem_append.mp (order.mem_iff.mp member)).elim successorChild successorPath
  unfold RbMemory.given
  rw [← adopted_write_comm (Ne.symm (ne_address aligned''.1 parentChild)), adopted_comm (Ne.symm topChild)]
  exact adopted_node_congr (adopted_node_congr (write_node_of_ne notSuccessor))

/-- The case where the successor lies deeper. -/
theorem ensures_takePlace_deep
    (holds : Holds memory ((frame :: tail) ++ ⟨.right, color, pointer, left⟩ :: frames)
      (.node own successor .nil child))
    (turn : frame.side = .left) (present : left ≠ .nil) :
    Ensures (do
        giveChild (address (plug (frame :: tail) child)) frame.value successor (address child)
        takePlace pointer frame.value successor (address child)) memory
      (fun rebalance last =>
        Untouched memory last
            (left.values ++ (successor :: (plug (frame :: tail) child).values) ++ context frames) ∧
          Holds last ((frame :: tail) ++ ⟨.right, color, successor, left⟩ :: frames)
            (child.paint .black) ∧
          rebalance = lacking own child ((frame :: tail) ++ ⟨.right, color, successor, left⟩ :: frames))
      (fun _ _ => False) := by
  have settled := stored_given holds turn
  have split := successor_nodup holds
  rcases holds_cons.mp (holds_append.mp holds) with ⟨⟨aligned, found, leftStored, rightStored⟩, above, -⟩
  rcases address_plug_cons frame tail child (.node own successor .nil child) with ⟨topSame, topMember⟩
  have topPainted := (address_plug_cons frame tail child (child.paint .black)).1
  rw [← topSame] at found
  have order := values_plug_perm (frame :: tail) child
  have painted : (plug (frame :: tail) (child.paint .black)).values = (plug (frame :: tail) child).values :=
    values_plug_congr (frame :: tail) (ColorTree.values_paint .black child)
  have whole : ((ColorTree.node color successor left (plug (frame :: tail) (child.paint .black))).values ++
      context frames).Nodup := by
    simp only [ColorTree.values, painted, List.append_assoc, List.cons_append]
    have shorter := split.sublist (((List.sublist_cons_self pointer _).append_left _).append_left _
      |>.cons_cons successor)
    refine List.Perm.nodup_iff ?_ |>.mpr shorter
    refine (((order.append_right _).cons successor).append_left left.values).trans
      (List.perm_iff_count.mpr (fun node => ?_))
    simp only [List.count_append, List.count_cons]
    omega
  simp only [List.nodup_append', List.nodup_cons, List.disjoint_append_right,
    List.disjoint_cons_right, List.mem_append, List.mem_cons, not_or] at split
  rcases split with ⟨⟨successorChild, successorPath, successorPointer, successorLeft, successorFrames⟩,
    -, ⟨-, ⟨⟨pointerLeft, pointerFrames⟩, leftNodup, framesNodup, leftFrames⟩,
      pointerPath, pathLeft, pathFrames⟩, childPath, pointerChild, childLeft, childFrames⟩
  rcases holds with ⟨⟨aligned', found', -, childStored⟩, path, -⟩
  have zero := path.zero_not_mem
  rw [context_append, List.mem_append, not_or] at zero
  rcases path with ⟨aligned'', -, -, -⟩
  have parentMember : frame.value ∈ context (frame :: tail) := List.mem_cons_self
  have topValid : address (plug (frame :: tail) child) ≠ 0 := fun null => zero.1 (null ▸ topMember)
  have within : forall node, node ∈ context (frame :: tail) -> node ≠ successor :=
    fun node member => ne_of_mem_of_not_mem member successorPath
  have shade : rbColor (memory.node (address (plug (frame :: tail) child))).parentColor =
      (plug (frame :: tail) child).color := by
    have nonempty : plug (frame :: tail) (.node own successor .nil child) ≠ .nil := by
      intro empty
      rw [topSame, empty] at topValid
      exact topValid rfl
    rw [topSame, rightStored.rbColor_eq nonempty aligned.2, color_plug_cons frame tail _ child]
  have topSuccessor := within _ topMember
  have parentSuccessor := within _ parentMember
  -- the steps before the successor takes its place touch neither the left subtree nor the frames
  have found3 : (memory.given (address (plug (frame :: tail) child)) frame.value successor
      (address child) (plug (frame :: tail) child).color).node pointer = memory.node pointer := by
    unfold RbMemory.given
    rw [adopted_node_of_ne (Ne.symm (ne_of_mem_of_not_mem topMember pointerPath)),
      write_node_of_ne (Ne.symm successorPointer),
      write_node_of_ne (Ne.symm (ne_of_mem_of_not_mem parentMember pointerPath))]
  have left3 : Stored (memory.given (address (plug (frame :: tail) child)) frame.value successor
      (address child) (plug (frame :: tail) child).color).node pointer left := by
    unfold RbMemory.given
    rw [stored_adopted (fun member => pathLeft topMember member), stored_write successorLeft,
      stored_write (fun member => pathLeft parentMember member)]
    exact leftStored
  have above3 : StoredAbove (memory.given (address (plug (frame :: tail) child)) frame.value successor
      (address child) (plug (frame :: tail) child).color) frames pointer := by
    unfold RbMemory.given
    rw [above_adopted (fun member => pathFrames topMember member), above_write successorFrames,
      above_write (fun member => pathFrames parentMember member)]
    exact above
  have successor3 : (memory.given (address (plug (frame :: tail) child)) frame.value successor
      (address child) (plug (frame :: tail) child).color).node successor =
        ⟨packed frame.value own, address (plug (frame :: tail) child), 0⟩ := by
    unfold RbMemory.given
    rw [adopted_node_of_ne (Ne.symm topSuccessor), write_node_self, found']
    rfl
  rw [Ensures.bind_iff, ensures_giveChild topValid aligned''.1 aligned'.1 (Ne.symm parentSuccessor)
    topSuccessor, shade, ensures_takePlace aligned aligned'.1 (found3.trans found) left3 present above3
    (Ne.symm successorPointer) pointerLeft successorLeft successorFrames]
  have lined := above.parentOf_aligned
  refine ⟨fun node outside => ?_, holds_append.mpr (holds_cons.mpr ⟨⟨aligned', ?_, ?_, ?_⟩, ?_, whole⟩), ?_⟩
  · simp only [List.append_assoc, List.cons_append, List.mem_append, List.mem_cons, not_or,
      order.mem_iff] at outside
    rcases outside with ⟨notLeft, notSuccessor, ⟨notChild, notPath⟩, notFrames⟩
    rw [placed_other notSuccessor notLeft notFrames lined, adopted_untouched notChild]
    unfold RbMemory.given
    rw [adopted_node_of_ne (Ne.symm (ne_of_mem_of_not_mem topMember notPath)),
      write_node_of_ne notSuccessor, write_node_of_ne (Ne.symm (ne_of_mem_of_not_mem parentMember notPath))]
  · rw [placed_successor aligned'.1 successorLeft successorFrames lined
      (ne_address aligned'.1 successorChild), successor3, topPainted]
  · exact placed_left left3 leftNodup successorLeft
      (address_not_mem childLeft left3.zero_not_mem) leftFrames lined
  · refine settled.congr (fun node member => ?_)
    rw [painted, order.mem_iff, List.mem_append] at member
    refine placed_other ?_ ?_ ?_ lined
    · rintro rfl
      exact member.elim successorChild successorPath
    · exact fun here => member.elim (fun inChild => childLeft inChild here) (fun inPath => pathLeft inPath here)
    · exact fun here => member.elim (fun inChild => childFrames inChild here)
        (fun inPath => pathFrames inPath here)
  · exact placed_above above3 aligned.1 pointerFrames framesNodup successorFrames
      (address_not_mem childFrames above.zero_not_mem) leftFrames
  · rw [successor3, rbColor_packed aligned''.2]
    rfl

end Deep

/-! ## `rb_erase` -/

section Erase

variable {pointer fuel count : Nat} {own new shade : Color}
  {left right child : ColorTree Nat}

/-- What follows once a node with at most one child is unlinked. -/
theorem ensures_rebalance (side : Side) (balanced : Balanced shade count (join side own value .nil child))
    (fits : RedBlack.Fits frames shade count) (holds : Holds memory frames (child.paint new))
    (enough : frames.length ≤ fuel) :
    Ensures (if lacking own child frames ≠ 0 then rbEraseColor fuel 0 (lacking own child frames)
        else pure PUnit.unit) memory
      (fun _ next => Untouched memory next (child.values ++ context frames) ∧
        Holds next [] (unlink own new child frames))
      (fun _ _ => False) := by
  cases child with
  | node below top first last =>
      have kept : lacking own (.node below top first last) frames = 0 := by
        simp [lacking, address, holds.stored.1.1]
      rw [kept, if_neg (not_not.mpr rfl)]
      exact Ensures.pure_iff.mpr ⟨.refl _ _, holds_plug.mp holds⟩
  | nil =>
      have here : lacking own .nil frames = if own = .black then parentOf frames else 0 := by
        simp [lacking, address]
      cases own with
      | red =>
          rw [here, if_neg (not_not.mpr (if_neg (by decide)))]
          exact Ensures.pure_iff.mpr ⟨.refl _ _, holds_plug.mp holds⟩
      | black =>
          rw [here, if_pos rfl]
          cases frames with
          | nil =>
              rw [parentOf, if_neg (not_not.mpr rfl)]
              exact Ensures.pure_iff.mpr ⟨.refl _ _, holds⟩
          | cons frame rest =>
              rcases balanced.of_join_black with ⟨rfl, less, rfl, ⟨_, empty⟩, -⟩
              cases empty
              have valid : parentOf (frame :: rest) ≠ 0 := holds.above.1.1
              rw [if_pos valid]
              exact ensures_rbEraseColor fits .nil holds (List.cons_ne_nil _ _) enough

/-- A node without a left child. -/
theorem ensures_unlinkRight (holds : Holds memory frames (.node color pointer .nil right)) :
    Ensures (rbEraseAugmented fuel pointer) memory
      (fun rebalance next => Untouched memory next (right.values ++ context frames) ∧
        Holds next frames (right.paint color) ∧ rebalance = lacking color right frames)
      (fun _ _ => False) := by
  rcases holds with ⟨⟨aligned, found, -, rightStored⟩, above, distinct⟩
  have apart : (pointer :: (right.values ++ context frames)).Nodup := distinct
  rw [List.nodup_cons, List.mem_append, not_or] at apart
  have lined := above.parentOf_aligned
  have disjoint := (List.nodup_append'.mp apart.2).2.2
  have replaced := Holds.replaced color above aligned.1 apart.1.2 rightStored apart.2
  have untouched : Untouched memory ((memory.adopted (address right)
      (packed (parentOf frames) color)).redirected pointer (address right) (parentOf frames))
        (right.values ++ context frames) := by
    intro node outside
    rw [List.mem_append, not_or] at outside
    rw [redirected_untouched outside.2, adopted_untouched outside.1]
  have content : memory.node pointer = ⟨packed (parentOf frames) color, address right, 0⟩ := found
  have result : (if address right ≠ 0 then 0 else if color = .black then parentOf frames else 0) =
      lacking color right frames := by
    unfold lacking
    by_cases null : address right = 0 <;> simp [null]
  unfold rbEraseAugmented
  simp only [Ensures.bind_iff, ensures_loadNode aligned.1, content, if_true, ensures_rbChangeChild,
    rbParent_packed lined, rbColor_packed lined]
  by_cases null : address right = 0
  · rw [if_neg (not_not.mpr null), Ensures.pure_iff, ← result, if_neg (not_not.mpr null)]
    rw [null, RbMemory.adopted, if_pos rfl] at untouched replaced
    rw [null]
    exact ⟨untouched, replaced, rfl⟩
  · have notParent : address right ≠ parentOf frames := by
      intro same
      cases frames with
      | nil => exact null same
      | cons frame rest =>
          exact address_not_mem disjoint above.zero_not_mem (same ▸ List.mem_cons_self)
    rw [if_pos null, Ensures.bind_iff, ensures_changeNode null, Ensures.pure_iff, ← result, if_pos null,
      ← adopted_of_ne null, redirected_adopted notParent]
    exact ⟨untouched, replaced, rfl⟩

/-- A node with a left child only. -/
theorem ensures_unlinkLeft (holds : Holds memory frames (.node color pointer left .nil))
    (present : left ≠ .nil) :
    Ensures (rbEraseAugmented fuel pointer) memory
      (fun rebalance next => Untouched memory next (left.values ++ context frames) ∧
        Holds next frames (left.paint color) ∧ rebalance = lacking color left frames)
      (fun _ _ => False) := by
  rcases holds with ⟨⟨aligned, found, leftStored, -⟩, above, distinct⟩
  have apart : (pointer :: (left.values ++ context frames)).Nodup := by
    refine List.Perm.nodup_iff ?_ |>.mp distinct
    simp only [ColorTree.values, List.append_assoc, List.cons_append, List.nil_append]
    exact List.perm_middle
  rw [List.nodup_cons, List.mem_append, not_or] at apart
  have lined := above.parentOf_aligned
  have replaced := Holds.replaced color above aligned.1 apart.1.2 leftStored apart.2
  have content : memory.node pointer = ⟨packed (parentOf frames) color, 0, address left⟩ := found
  have valid := address_ne_zero leftStored present
  have result : lacking color left frames = 0 := by
    simp [lacking, valid]
  unfold rbEraseAugmented
  simp only [Ensures.bind_iff, ensures_loadNode aligned.1, content, if_true, if_neg valid,
    ensures_changeNode valid, ensures_rbChangeChild, rbParent_packed lined, Ensures.pure_iff,
    ← adopted_of_ne valid, result, and_true]
  refine ⟨fun node outside => ?_, replaced⟩
  rw [List.mem_append, not_or] at outside
  rw [redirected_untouched outside.2, adopted_untouched outside.1]

/-- A node with two children. -/
theorem ensures_unlinkInner {next : Nat} {below : Color} {first other : ColorTree Nat}
    (holds : Holds memory frames (.node color pointer left (.node below next first other)))
    (present : left ≠ .nil) (enough : first.height ≤ fuel) :
    Ensures (rbEraseAugmented fuel pointer) memory
      (fun rebalance last =>
        Untouched memory last
            (left.values ++ (ColorTree.node below next first other).values ++ context frames) ∧
          Holds last ((least below next other [] first).path ++
              ⟨.right, color, (least below next other [] first).value, left⟩ :: frames)
            ((least below next other [] first).child.paint .black) ∧
          rebalance = lacking (least below next other [] first).color
            (least below next other [] first).child ((least below next other [] first).path ++
              ⟨.right, color, (least below next other [] first).value, left⟩ :: frames))
      (fun _ _ => False) := by
  have whole := holds
  rcases holds with ⟨⟨aligned, found, leftStored, rightStored⟩, above, distinct⟩
  have valid := address_ne_zero leftStored present
  rcases rightStored with ⟨aligned', found', firstStored, otherStored⟩
  have content : memory.node pointer =
    ⟨packed (parentOf frames) color, next, address left⟩ := found
  unfold rbEraseAugmented rbEraseInner
  simp only [Ensures.bind_iff, ensures_loadNode aligned.1, content, if_neg valid, if_neg aligned'.1,
    ensures_loadNode aligned'.1, found']
  cases first with
  | nil =>
      refine (ensures_takePlace_child whole present).mono ?_ (fun _ _ impossible => impossible)
      rintro rebalance last ⟨untouched, result⟩
      exact ⟨untouched, result⟩
  | node lower value inner rest =>
      have deeper : address (.node lower value inner rest) ≠ 0 := firstStored.1.1
      rw [if_neg deeper, Ensures.bind_iff]
      have shorter : inner.height < fuel := by
        simp only [ColorTree.height] at enough
        omega
      rcases @least_left Nat lower value rest inner _ ⟨⟨.left, below, next, other⟩, [], rfl, rfl⟩ with
        ⟨frame, tail, ending, turn⟩
      have opened := plug_least below next other [] (.node lower value inner rest)
      refine (ensures_rbSuccessor [⟨.left, below, next, other⟩] firstStored shorter).mpr ?_
      rcases found : least below next other [] (.node lower value inner rest) with
        ⟨own, successor, child, path⟩
      rw [found] at opened
      rw [least] at found
      rw [found] at ending ⊢
      simp only at ending opened ⊢
      subst ending
      have focus : Holds memory ((frame :: tail) ++ ⟨.right, color, pointer, left⟩ :: frames)
          (.node own successor .nil child) := by
        refine holds_append.mpr (holds_cons.mpr ?_)
        rw [opened]
        exact whole
      have top : address (plug (frame :: tail) child) = next := by
        rw [(address_plug_cons frame tail child (.node own successor .nil child)).1, opened]
        rfl
      have same : (ColorTree.node below next (.node lower value inner rest) other).values.Perm
          (successor :: (plug (frame :: tail) child).values) := by
        have before := values_plug_perm (frame :: tail) (.node own successor .nil child)
        rw [opened, plug] at before
        exact before.trans ((values_plug_perm (frame :: tail) child).symm.cons successor)
      rw [Ensures.bind_iff, ensures_loadNode focus.stored.1.1, focus.stored.2.1]
      have placed := ensures_takePlace_deep focus turn present
      rw [top] at placed
      refine placed.mono ?_ (fun _ _ impossible => impossible)
      rintro rebalance last ⟨untouched, result⟩
      refine ⟨fun node outside => untouched node (fun member => outside ?_), result⟩
      exact (((same.append_left left.values).append_right (context frames)).mem_iff).mpr member

/-- `rb_erase` takes the node at the focus out of the stored tree. -/
theorem ensures_rbErase (balanced : Balanced .black count (plug frames (.node color pointer left right)))
    (holds : Holds memory frames (.node color pointer left right))
    (enough : (plug frames (.node color pointer left right)).height ≤ fuel) :
    Ensures (rbErase fuel pointer) memory
      (fun _ next => Untouched memory next (left.values ++ right.values ++ context frames) ∧
        Holds next [] (erase color left right frames))
      (fun _ _ => False) := by
  have bound := length_add_height_le frames (.node color pointer left right)
  simp only [ColorTree.height] at bound
  unfold rbErase
  rw [Ensures.bind_iff]
  cases left with
  | nil =>
      rcases RedBlack.Fits.of_plug balanced .root with ⟨shade, here, opened, fits⟩
      rw [List.append_nil] at fits
      refine (ensures_unlinkRight holds).mono ?_ (fun _ _ impossible => impossible)
      rintro rebalance next ⟨untouched, held, rfl⟩
      refine (ensures_rebalance .left opened fits held (by omega)).mono ?_
        (fun _ _ impossible => impossible)
      rintro _ last ⟨later, done⟩
      exact ⟨untouched.trans later (fun _ member => member), done⟩
  | node one top first last =>
      cases right with
      | nil =>
          rcases RedBlack.Fits.of_plug balanced .root with ⟨shade, here, opened, fits⟩
          rw [List.append_nil] at fits
          refine (ensures_unlinkLeft holds (by simp)).mono ?_ (fun _ _ impossible => impossible)
          rintro rebalance next ⟨untouched, held, rfl⟩
          refine (ensures_rebalance .right opened fits held (by omega)).mono ?_
            (fun _ _ impossible => impossible)
          rintro _ last ⟨later, done⟩
          refine ⟨?_, done⟩
          rw [ColorTree.values, List.append_nil]
          exact untouched.trans later (fun _ member => member)
      | node below next inner other =>
          rcases RedBlack.Fits.of_least balanced with ⟨shade, here, opened, fits⟩
          have deep : inner.height ≤ fuel := by
            simp only [ColorTree.height] at bound
            omega
          refine (ensures_unlinkInner holds (by simp) deep).mono ?_ (fun _ _ impossible => impossible)
          rintro rebalance after ⟨untouched, held, rfl⟩
          have short := length_least_le below next other [] inner
          have room : ((least below next other [] inner).path ++
              ⟨.right, color, (least below next other [] inner).value, .node one top first last⟩ ::
                frames).length ≤ fuel := by
            simp only [ColorTree.height] at bound
            simp only [List.length_append, List.length_cons, List.length_nil] at short ⊢
            omega
          refine (ensures_rebalance .left opened fits held room).mono ?_
            (fun _ _ impossible => impossible)
          rintro _ final ⟨later, done⟩
          refine ⟨untouched.trans later (fun node member => ?_), done⟩
          have order := values_plug_perm (least below next other [] inner).path
            (.node (least below next other [] inner).color (least below next other [] inner).value .nil
              (least below next other [] inner).child)
          rw [plug_least, plug] at order
          have inside : node ∈ (ColorTree.node below next inner other).values <-> _ := order.mem_iff
          simp only [context_append, context_cons, List.mem_append, List.mem_cons, ColorTree.values,
            List.not_mem_nil, false_or] at member inside ⊢
          tauto

end Erase

end Removal

end Userfs.Ds
