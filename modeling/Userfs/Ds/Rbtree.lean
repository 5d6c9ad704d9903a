import Mathlib.Data.List.Lattice
import Mathlib.Data.List.Nodup
import Userfs.Global.Defs
import Userfs.Library.Program
import Userfs.Library.RedBlack

namespace Userfs.Ds

open RedBlack

/-!
# The red-black tree in memory

`rbtree.c` keeps a tree in nodes that hold two child pointers and one word for the parent
pointer and the color.  A pointer is an address, zero is `NULL`, and reading or writing
through `NULL` is a fault.  The walks to and from the root have a budget that only
serves the recursion, and the theorems give the budget that is enough.

A tree of addresses is stored in memory if every node of it holds exactly what its place
in the tree demands.  The functions of the source refine the repairs of
`Library.RedBlack`: from memory that stores a tree and its surroundings they reach memory
that stores the repaired tree, and nodes that are not part of the tree are not touched.
-/

/-! ## Memory -/

/-- `struct rb_node`. -/
structure RbNode where
  parentColor : Nat
  right : Nat
  left : Nat
deriving DecidableEq, Repr

def RbNode.child (node : RbNode) : Side -> Nat
  | .left => node.left
  | .right => node.right

def RbNode.withChild (node : RbNode) (side : Side) (pointer : Nat) : RbNode :=
  match side with
  | .left => { node with left := pointer }
  | .right => { node with right := pointer }

/-- The nodes by address, and `root->rb_node`. -/
structure RbMemory where
  node : Nat -> RbNode
  root : Nat

def RbMemory.write (memory : RbMemory) (pointer : Nat) (content : RbNode) : RbMemory :=
  { memory with node := Function.update memory.node pointer content }

abbrev Rb := EStateM Fault RbMemory

def loadNode (pointer : Nat) : Rb RbNode :=
  if pointer = 0 then throw .segfault
  else do
    let memory ← get
    pure (memory.node pointer)

def changeNode (pointer : Nat) (change : RbNode -> RbNode) : Rb PUnit := do
  let content ← loadNode pointer
  modify (fun memory => memory.write pointer (change content))

/-! ## Colors and parents -/

/-- `RB_RED` and `RB_BLACK`. -/
def colorBit : Color -> Nat
  | .red => 0
  | .black => 1

/-- `__rb_color`. -/
def rbColor (word : Nat) : Color :=
  if word % 2 = 1 then .black else .red

/-- `__rb_parent`. -/
def rbParent (word : Nat) : Nat :=
  word / 4 * 4

/-- The word for a parent and a color. -/
def packed (parent : Nat) (color : Color) : Nat :=
  parent ||| colorBit color

def rbSetParentColor (pointer parent : Nat) (color : Color) : Rb PUnit :=
  changeNode pointer (fun node => { node with parentColor := packed parent color })

def rbSetParent (pointer parent : Nat) : Rb PUnit :=
  changeNode pointer (fun node =>
    { node with parentColor := packed parent (rbColor node.parentColor) })

def rbSetBlack (pointer : Nat) : Rb PUnit :=
  changeNode pointer (fun node => { node with parentColor := node.parentColor ||| 1 })

def writeChild (pointer : Nat) (side : Side) (target : Nat) : Rb PUnit :=
  changeNode pointer (fun node => node.withChild side target)

/-- The color the source asks for with `p && rb_is_red(p)` or `!p || rb_is_black(p)`. -/
def colorAt (pointer : Nat) : Rb Color := do
  if pointer = 0 then pure .black
  else do
    let node ← loadNode pointer
    pure (rbColor node.parentColor)

/-- `if (p) rb_set_parent_color(p, parent, color)`. -/
def adopt (pointer parent : Nat) (color : Color) : Rb PUnit :=
  if pointer = 0 then pure PUnit.unit else rbSetParentColor pointer parent color

def rbChangeChild (old new parent : Nat) : Rb PUnit := do
  if parent = 0 then modify (fun memory => { memory with root := new })
  else do
    let node ← loadNode parent
    if node.left = old then writeChild parent .left new else writeChild parent .right new

def rbRotateSetParents (old new : Nat) (color : Color) : Rb PUnit := do
  let node ← loadNode old
  changeNode new (fun content => { content with parentColor := node.parentColor })
  rbSetParentColor old new color
  rbChangeChild old new (rbParent node.parentColor)

/-! ## Trees in memory -/

/-- The address of the root node of a tree. -/
def address : ColorTree Nat -> Nat
  | .nil => 0
  | .node _ pointer _ _ => pointer

/-- The content of a node with the given children, seen from a side. -/
def record (side : Side) (word near far : Nat) : RbNode :=
  match side with
  | .left => ⟨word, far, near⟩
  | .right => ⟨word, near, far⟩

/-- An address a node may have. -/
def Aligned (pointer : Nat) : Prop :=
  pointer ≠ 0 ∧ pointer % 4 = 0

/-- Every node of a tree is in memory as its place demands. -/
def Stored (node : Nat -> RbNode) : Nat -> ColorTree Nat -> Prop
  | _, .nil => True
  | parent, .node color pointer left right =>
      Aligned pointer ∧ node pointer = ⟨packed parent color, address right, address left⟩ ∧
        Stored node pointer left ∧ Stored node pointer right

/-- The node above a hole. -/
def parentOf : List (Frame Nat) -> Nat
  | [] => 0
  | frame :: _ => frame.value

/-- The frames above a hole are in memory, with the given pointer in the hole. -/
def StoredAbove (memory : RbMemory) : List (Frame Nat) -> Nat -> Prop
  | [], pointer => memory.root = pointer
  | frame :: rest, pointer =>
      Aligned frame.value ∧
        memory.node frame.value =
          record frame.side (packed (parentOf rest) frame.color) pointer (address frame.sibling) ∧
        Stored memory.node frame.value frame.sibling ∧ StoredAbove memory rest frame.value

/-- The addresses of the frames. -/
def context (frames : List (Frame Nat)) : List Nat :=
  frames.flatMap (fun frame => frame.value :: frame.sibling.values)

/-- Memory stores a tree in its surroundings, with one address for each node. -/
structure Holds (memory : RbMemory) (frames : List (Frame Nat)) (tree : ColorTree Nat) : Prop where
  stored : Stored memory.node (parentOf frames) tree
  above : StoredAbove memory frames (address tree)
  distinct : (tree.values ++ context frames).Nodup

/-! ## Words -/

theorem packed_eq {parent : Nat} (aligned : parent % 4 = 0) (color : Color) :
    packed parent color = parent + colorBit color := by
  have shifted : parent = (parent / 4) <<< 2 := by
    rw [Nat.shiftLeft_eq]
    omega
  have small : colorBit color < 2 ^ 2 := by
    cases color <;> decide
  unfold packed
  rw [shifted]
  exact (Nat.shiftLeft_add_eq_or_of_lt small _).symm

@[simp]
theorem packed_red (parent : Nat) : packed parent .red = parent :=
  Nat.or_zero parent

theorem rbParent_packed {parent : Nat} (aligned : parent % 4 = 0) (color : Color) :
    rbParent (packed parent color) = parent := by
  rw [packed_eq aligned]
  unfold rbParent
  cases color <;> simp only [colorBit] <;> omega

theorem rbColor_packed {parent : Nat} (aligned : parent % 4 = 0) (color : Color) :
    rbColor (packed parent color) = color := by
  rw [packed_eq aligned]
  unfold rbColor
  cases color with
  | red =>
      simp only [colorBit]
      exact if_neg (by omega)
  | black =>
      simp only [colorBit]
      exact if_pos (by omega)

/-! ## Steps in memory -/

/-- The effect of `adopt`. -/
def RbMemory.adopted (memory : RbMemory) (pointer word : Nat) : RbMemory :=
  if pointer = 0 then memory
  else memory.write pointer { memory.node pointer with parentColor := word }

/-- The effect of `__rb_change_child`. -/
def RbMemory.redirected (memory : RbMemory) (old new parent : Nat) : RbMemory :=
  if parent = 0 then { memory with root := new }
  else memory.write parent ((memory.node parent).withChild
    (if (memory.node parent).left = old then .left else .right) new)

section Steps

variable {memory : RbMemory} {pointer other parent : Nat} {content : RbNode} {color : Color}
  {failed : Fault -> RbMemory -> Prop}

@[simp]
theorem write_node_self : (memory.write pointer content).node pointer = content :=
  Function.update_self _ _ _

@[simp]
theorem write_node_of_ne (different : other ≠ pointer) :
    (memory.write pointer content).node other = memory.node other :=
  Function.update_of_ne different _ _

@[simp]
theorem write_root : (memory.write pointer content).root = memory.root :=
  rfl

@[simp]
theorem adopted_node_of_ne {word : Nat} (different : other ≠ pointer) :
    (memory.adopted pointer word).node other = memory.node other := by
  unfold RbMemory.adopted
  split
  · rfl
  · exact write_node_of_ne different

theorem write_comm {first second : RbNode} (different : pointer ≠ other) :
    (memory.write pointer first).write other second = (memory.write other second).write pointer first := by
  unfold RbMemory.write
  rw [Function.update_comm different]

theorem adopted_of_ne {word : Nat} (valid : pointer ≠ 0) :
    memory.adopted pointer word =
      memory.write pointer { memory.node pointer with parentColor := word } :=
  if_neg valid

theorem adopted_node_self {word : Nat} (valid : pointer ≠ 0) :
    (memory.adopted pointer word).node pointer = { memory.node pointer with parentColor := word } := by
  rw [RbMemory.adopted, if_neg valid, write_node_self]

theorem adopted_write_comm {word : Nat} (different : other ≠ pointer) :
    (memory.write pointer content).adopted other word = (memory.adopted other word).write pointer content := by
  unfold RbMemory.adopted
  split
  · rfl
  · rw [write_node_of_ne different, write_comm (Ne.symm different)]

theorem adopted_comm {word second : Nat} (different : pointer ≠ other) :
    (memory.adopted pointer word).adopted other second =
      (memory.adopted other second).adopted pointer word := by
  by_cases null : pointer = 0
  · simp only [RbMemory.adopted, if_pos null]
  · rw [adopted_of_ne null, adopted_of_ne null, adopted_write_comm (Ne.symm different),
      adopted_node_of_ne different]

theorem adopted_node_congr {next : RbMemory} {word : Nat} (same : next.node other = memory.node other) :
    (next.adopted pointer word).node other = (memory.adopted pointer word).node other := by
  unfold RbMemory.adopted
  split
  · exact same
  · by_cases here : other = pointer
    · subst here
      rw [write_node_self, write_node_self, same]
    · rw [write_node_of_ne here, write_node_of_ne here, same]

@[simp]
theorem adopted_root {word : Nat} : (memory.adopted pointer word).root = memory.root := by
  unfold RbMemory.adopted
  split <;> rfl

@[simp]
theorem redirected_node_of_ne {old new : Nat} (different : other ≠ parent) :
    (memory.redirected old new parent).node other = memory.node other := by
  unfold RbMemory.redirected
  split
  · rfl
  · exact write_node_of_ne different

theorem ensures_loadNode {done : RbNode -> RbMemory -> Prop} (valid : pointer ≠ 0) :
    Ensures (loadNode pointer) memory done failed <-> done (memory.node pointer) memory := by
  simp only [loadNode, if_neg valid, Ensures.bind_iff, Ensures.get_iff, Ensures.pure_iff]

theorem ensures_changeNode {change : RbNode -> RbNode} {done : PUnit -> RbMemory -> Prop}
    (valid : pointer ≠ 0) :
    Ensures (changeNode pointer change) memory done failed <->
      done PUnit.unit (memory.write pointer (change (memory.node pointer))) := by
  simp [changeNode, ensures_loadNode valid]

theorem ensures_rbSetParentColor {done : PUnit -> RbMemory -> Prop} (valid : pointer ≠ 0) :
    Ensures (rbSetParentColor pointer parent color) memory done failed <->
      done PUnit.unit (memory.write pointer
        { memory.node pointer with parentColor := packed parent color }) :=
  ensures_changeNode valid

theorem ensures_rbSetParent {done : PUnit -> RbMemory -> Prop} (valid : pointer ≠ 0) :
    Ensures (rbSetParent pointer parent) memory done failed <->
      done PUnit.unit (memory.write pointer { memory.node pointer with
        parentColor := packed parent (rbColor (memory.node pointer).parentColor) }) :=
  ensures_changeNode valid

theorem ensures_writeChild {side : Side} {target : Nat} {done : PUnit -> RbMemory -> Prop}
    (valid : pointer ≠ 0) :
    Ensures (writeChild pointer side target) memory done failed <->
      done PUnit.unit (memory.write pointer ((memory.node pointer).withChild side target)) :=
  ensures_changeNode valid

theorem ensures_adopt {done : PUnit -> RbMemory -> Prop} :
    Ensures (adopt pointer parent color) memory done failed <->
      done PUnit.unit (memory.adopted pointer (packed parent color)) := by
  unfold adopt RbMemory.adopted
  by_cases null : pointer = 0
  · simp [null]
  · simp [null, ensures_rbSetParentColor null]

theorem ensures_rbChangeChild {old new : Nat} {done : PUnit -> RbMemory -> Prop} :
    Ensures (rbChangeChild old new parent) memory done failed <->
      done PUnit.unit (memory.redirected old new parent) := by
  unfold rbChangeChild RbMemory.redirected
  by_cases null : parent = 0
  · simp [null]
  · simp only [null, if_false, Ensures.bind_iff, ensures_loadNode null, Ensures.ite_iff,
      ensures_writeChild null]
    split <;> rfl

end Steps

/-! ## Frame rules -/

section Frames

variable {memory next : RbMemory} {node after : Nat -> RbNode} {tree near far : ColorTree Nat}
  {parent pointer word : Nat} {frames rest : List (Frame Nat)} {frame : Frame Nat} {side : Side}
  {color : Color} {content : RbNode}

theorem stored_join :
    Stored node parent (join side color pointer near far) <->
      Aligned pointer ∧ node pointer = record side (packed parent color) (address near) (address far) ∧
        Stored node pointer near ∧ Stored node pointer far := by
  cases side with
  | left => exact Iff.rfl
  | right =>
      constructor
      · rintro ⟨aligned, found, second, first⟩
        exact ⟨aligned, found, first, second⟩
      · rintro ⟨aligned, found, first, second⟩
        exact ⟨aligned, found, second, first⟩

/-- A stored tree depends on its own nodes only. -/
theorem Stored.congr (stored : Stored node parent tree)
    (same : forall pointer, pointer ∈ tree.values -> after pointer = node pointer) :
    Stored after parent tree := by
  induction tree generalizing parent with
  | nil => trivial
  | node color pointer left right leftIH rightIH =>
      rcases stored with ⟨aligned, found, first, second⟩
      simp only [ColorTree.values, List.mem_append, List.mem_cons] at same
      refine ⟨aligned, (same pointer (Or.inr (Or.inl rfl))).trans found, ?_, ?_⟩
      · exact leftIH first (fun other member => same other (Or.inl member))
      · exact rightIH second (fun other member => same other (Or.inr (Or.inr member)))

theorem StoredAbove.congr (stored : StoredAbove memory frames pointer)
    (root : next.root = memory.root)
    (same : forall other, other ∈ context frames -> next.node other = memory.node other) :
    StoredAbove next frames pointer := by
  induction frames generalizing pointer with
  | nil => exact root.trans stored
  | cons frame rest ih =>
      rcases stored with ⟨aligned, found, sibling, higher⟩
      simp only [context, List.flatMap_cons, List.mem_append, List.mem_cons] at same
      refine ⟨aligned, (same _ (Or.inl (Or.inl rfl))).trans found, ?_, ?_⟩
      · exact sibling.congr (fun other member => same other (Or.inl (Or.inr member)))
      · exact ih higher (fun other member => same other (Or.inr member))

/-- A change of memory at one node. -/
def OnlyAt (memory next : RbMemory) (pointer : Nat) : Prop :=
  forall other, other ≠ pointer -> next.node other = memory.node other

theorem OnlyAt.stored (only : OnlyAt memory next pointer) (outside : pointer ∉ tree.values) :
    Stored next.node parent tree <-> Stored memory.node parent tree := by
  have same : forall other, other ∈ tree.values -> next.node other = memory.node other :=
    fun other member => only other (ne_of_mem_of_not_mem member outside)
  exact ⟨fun stored => stored.congr (fun other member => (same other member).symm),
    fun stored => stored.congr same⟩

theorem OnlyAt.above (only : OnlyAt memory next pointer) (root : next.root = memory.root)
    (outside : pointer ∉ context frames) {hole : Nat} :
    StoredAbove next frames hole <-> StoredAbove memory frames hole := by
  have same : forall other, other ∈ context frames -> next.node other = memory.node other :=
    fun other member => only other (ne_of_mem_of_not_mem member outside)
  exact ⟨fun stored => stored.congr root.symm (fun other member => (same other member).symm),
    fun stored => stored.congr root same⟩

theorem stored_write (outside : pointer ∉ tree.values) :
    Stored (memory.write pointer content).node parent tree <-> Stored memory.node parent tree :=
  OnlyAt.stored (fun _ different => write_node_of_ne different) outside

theorem stored_adopted (outside : pointer ∉ tree.values) :
    Stored (memory.adopted pointer word).node parent tree <-> Stored memory.node parent tree :=
  OnlyAt.stored (fun _ different => adopted_node_of_ne different) outside

theorem stored_redirected {old new above : Nat} (outside : above ∉ tree.values) :
    Stored (memory.redirected old new above).node parent tree <-> Stored memory.node parent tree :=
  OnlyAt.stored (fun _ different => redirected_node_of_ne different) outside

theorem above_write {hole : Nat} (outside : pointer ∉ context frames) :
    StoredAbove (memory.write pointer content) frames hole <-> StoredAbove memory frames hole :=
  OnlyAt.above (fun _ different => write_node_of_ne different) write_root outside

theorem above_adopted {hole : Nat} (outside : pointer ∉ context frames) :
    StoredAbove (memory.adopted pointer word) frames hole <-> StoredAbove memory frames hole :=
  OnlyAt.above (fun _ different => adopted_node_of_ne different) adopted_root outside

/-- The color bit of the root of a stored tree. -/
theorem Stored.rbColor_eq (stored : Stored node parent tree) (present : tree ≠ .nil)
    (aligned : parent % 4 = 0) : rbColor (node (address tree)).parentColor = tree.color := by
  cases tree with
  | nil => exact absurd rfl present
  | node own pointer left right =>
      rw [address, stored.2.1, rbColor_packed aligned, ColorTree.color]

/-- The root of a tree gets another parent and another color. -/
theorem Stored.adopted {new : Nat} (stored : Stored memory.node parent tree)
    (distinct : tree.values.Nodup) :
    Stored (memory.adopted (address tree) (packed new color)).node new (tree.paint color) := by
  cases tree with
  | nil => trivial
  | node own pointer left right =>
      rcases stored with ⟨aligned, found, first, second⟩
      have apart := List.nodup_middle.mp distinct
      have outside := (List.nodup_cons.mp apart).1
      simp only [List.mem_append, not_or] at outside
      refine ⟨aligned, ?_, (stored_adopted outside.1).mpr first, (stored_adopted outside.2).mpr second⟩
      simp [RbMemory.adopted, address, aligned.1, found]

/-- An address that is in no node of a tree is not the address of the tree. -/
theorem ne_address (valid : pointer ≠ 0) (outside : pointer ∉ tree.values) :
    pointer ≠ address tree := by
  cases tree with
  | nil => exact valid
  | node color own left right =>
      intro same
      exact outside (same ▸ by simp [ColorTree.values, address])

/-- The pointer in the hole is replaced. -/
theorem StoredAbove.redirected {old new : Nat} (stored : StoredAbove memory frames old)
    (valid : old ≠ 0) (outside : old ∉ context frames) (distinct : (context frames).Nodup) :
    StoredAbove (memory.redirected old new (parentOf frames)) frames new := by
  cases frames with
  | nil => rfl
  | cons frame rest =>
      rcases stored with ⟨aligned, found, sibling, higher⟩
      simp only [context, List.flatMap_cons, List.cons_append, List.nodup_cons, List.mem_append,
        List.mem_cons, not_or] at outside distinct
      have apart := ne_address valid outside.2.1
      have effect : memory.redirected old new (parentOf (frame :: rest)) =
          memory.write frame.value
            (record frame.side (packed (parentOf rest) frame.color) new (address frame.sibling)) := by
        simp only [RbMemory.redirected, parentOf, if_neg aligned.1, found]
        cases frame.side with
        | left => simp [record, RbNode.withChild]
        | right => simp [record, RbNode.withChild, Ne.symm apart]
      rw [effect]
      refine ⟨aligned, write_node_self, (stored_write distinct.1.1).mpr sibling, ?_⟩
      exact (above_write distinct.1.2).mpr higher

@[simp]
theorem address_paint : address (tree.paint color) = address tree := by
  cases tree <;> rfl

@[simp]
theorem address_join : address (join side color pointer near far) = pointer := by
  cases side <;> rfl

/-- The nodes of a tree, seen from a side. -/
theorem values_join_perm (side : Side) (color : Color) (pointer : Nat) (near far : ColorTree Nat) :
    (join side color pointer near far).values.Perm (near.values ++ pointer :: far.values) := by
  cases side with
  | left => exact .refl _
  | right =>
      have swapped : (far.values ++ pointer :: near.values).Perm
          (pointer :: (near.values ++ far.values)) := List.perm_append_comm
      exact swapped.trans List.perm_middle.symm

theorem fill_perm (frame : Frame Nat) (rest : List (Frame Nat)) (tree : ColorTree Nat) :
    ((frame.fill tree).values ++ context rest).Perm (tree.values ++ context (frame :: rest)) := by
  have filled := (values_join_perm frame.side frame.color frame.value tree frame.sibling).append_right
    (context rest)
  rwa [List.append_assoc] at filled

/-- A frame may be seen as part of the tree or of its surroundings. -/
theorem holds_cons : Holds memory (frame :: rest) tree <-> Holds memory rest (frame.fill tree) := by
  have order := fill_perm frame rest tree
  constructor
  · rintro ⟨stored, ⟨aligned, found, sibling, higher⟩, distinct⟩
    refine ⟨stored_join.mpr ⟨aligned, found, stored, sibling⟩, ?_, order.nodup_iff.mpr distinct⟩
    rwa [Frame.fill, address_join]
  · rintro ⟨stored, higher, distinct⟩
    rcases stored_join.mp stored with ⟨aligned, found, own, sibling⟩
    rw [Frame.fill, address_join] at higher
    exact ⟨own, ⟨aligned, found, sibling, higher⟩, order.nodup_iff.mp distinct⟩

theorem context_append (first second : List (Frame Nat)) :
    context (first ++ second) = context first ++ context second :=
  List.flatMap_append

/-- The root below at least one frame is a frame, whatever fills the hole. -/
theorem address_plug_cons (frame : Frame Nat) (rest : List (Frame Nat)) (first second : ColorTree Nat) :
    address (plug (frame :: rest) first) = address (plug (frame :: rest) second) ∧
      address (plug (frame :: rest) first) ∈ context (frame :: rest) := by
  induction rest generalizing frame first second with
  | nil => simp [plug, Frame.fill, context]
  | cons above rest ih =>
      have higher := ih above (frame.fill first) (frame.fill second)
      exact ⟨higher.1, List.mem_append_right (frame.value :: frame.sibling.values) higher.2⟩

theorem values_plug_perm (frames : List (Frame Nat)) (tree : ColorTree Nat) :
    (plug frames tree).values.Perm (tree.values ++ context frames) := by
  induction frames generalizing tree with
  | nil => exact .of_eq (List.append_nil _).symm
  | cons frame rest ih => exact (ih (frame.fill tree)).trans (fill_perm frame rest tree)

theorem holds_append {outer : List (Frame Nat)} :
    Holds memory (frames ++ outer) tree <-> Holds memory outer (plug frames tree) := by
  induction frames generalizing tree with
  | nil => exact Iff.rfl
  | cons frame rest ih => exact holds_cons.trans ih

/-- Memory that stores a tree in its surroundings stores the whole. -/
theorem holds_plug : Holds memory frames tree <-> Holds memory [] (plug frames tree) := by
  rw [← holds_append, List.append_nil]

end Frames

section Records

variable (side : Side) (word near far other : Nat)

@[simp]
theorem child_record : (record side word near far).child side = near := by
  cases side <;> rfl

@[simp]
theorem child_other_record : (record side word near far).child side.other = far := by
  cases side <;> rfl

@[simp]
theorem withChild_record : (record side word near far).withChild side other = record side word other far := by
  cases side <;> rfl

@[simp]
theorem withChild_other_record :
    (record side word near far).withChild side.other other = record side word near other := by
  cases side <;> rfl

@[simp]
theorem record_parentColor : (record side word near far).parentColor = word := by
  cases side <;> rfl

@[simp]
theorem record_with_parentColor :
    { record side word near far with parentColor := other } = record side other near far := by
  cases side <;> rfl

theorem record_other : record side.other word near far = record side word far near := by
  cases side <;> rfl

end Records

/-- Nodes that are not listed are as they were. -/
def Untouched (memory next : RbMemory) (nodes : List Nat) : Prop :=
  forall pointer, pointer ∉ nodes -> next.node pointer = memory.node pointer

/-! ## Rotations -/

section Rotations

variable {memory : RbMemory} {frame above : Frame Nat} {outer frames : List (Frame Nat)}
  {tree : ColorTree Nat} {parent : Nat}

theorem context_cons (frame : Frame Nat) (rest : List (Frame Nat)) :
    context (frame :: rest) = frame.value :: (frame.sibling.values ++ context rest) :=
  rfl

theorem Stored.zero_not_mem (stored : Stored memory.node parent tree) : 0 ∉ tree.values := by
  induction tree generalizing parent with
  | nil => simp [ColorTree.values]
  | node color pointer left right leftIH rightIH =>
      rcases stored with ⟨aligned, _, first, second⟩
      simp [ColorTree.values, leftIH first, rightIH second, Ne.symm aligned.1]

theorem StoredAbove.zero_not_mem {hole : Nat} (stored : StoredAbove memory frames hole) :
    0 ∉ context frames := by
  induction frames generalizing hole with
  | nil => simp [context]
  | cons frame rest ih =>
      rcases stored with ⟨aligned, _, sibling, higher⟩
      simp [context_cons, sibling.zero_not_mem, ih higher, Ne.symm aligned.1]

theorem StoredAbove.parentOf_aligned {hole : Nat} (stored : StoredAbove memory frames hole) :
    parentOf frames % 4 = 0 := by
  cases frames with
  | nil => rfl
  | cons frame rest => exact stored.1.2

/-- The address of a tree is in no list that is disjoint from its nodes. -/
theorem address_not_mem {values : List Nat} (disjoint : List.Disjoint tree.values values)
    (zero : 0 ∉ values) : address tree ∉ values := by
  cases tree with
  | nil => exact zero
  | node color pointer left right =>
      exact fun member => disjoint (by simp [ColorTree.values, address]) member

/-- Only a node that exists is red. -/
theorem Stored.address_ne_zero (stored : Stored memory.node parent tree) (red : tree.color = .red) :
    address tree ≠ 0 := by
  cases tree with
  | nil => cases red
  | node color pointer left right => exact stored.1.1

theorem ensures_colorAt {done : Color -> RbMemory -> Prop} {failed : Fault -> RbMemory -> Prop}
    (stored : Stored memory.node parent tree) (aligned : parent % 4 = 0) :
    Ensures (colorAt (address tree)) memory done failed <-> done tree.color memory := by
  unfold colorAt
  cases tree with
  | nil => exact Ensures.pure_iff
  | node color pointer left right =>
      rcases stored with ⟨valid, found, _, _⟩
      have present : address (.node color pointer left right) ≠ 0 := valid.1
      rw [if_neg present, Ensures.bind_iff, ensures_loadNode present, address, found,
        Ensures.pure_iff, rbColor_packed aligned, ColorTree.color]

/-- The node above the frames is in no list that is disjoint from them. -/
theorem parentOf_not_mem {values : List Nat} (disjoint : List.Disjoint values (context frames))
    (zero : 0 ∉ values) : parentOf frames ∉ values := by
  cases frames with
  | nil => exact zero
  | cons frame rest => exact fun member => disjoint member List.mem_cons_self

theorem ne_parentOf {pointer : Nat} (valid : pointer ≠ 0) (outside : pointer ∉ context frames) :
    pointer ≠ parentOf frames := by
  cases frames with
  | nil => exact valid
  | cons frame rest => exact fun same => outside (same ▸ List.mem_cons_self)

/-- Memory once a rotation has written the child pointers and the parent words of the
node `up` that rises, the node `down` that sinks and the root `tmp` of the subtree that
changes its parent and gets the color `shade`.  `up` was the child of `down` on the given
side; `down` gets the color `own`. -/
def RbMemory.rotated (memory : RbMemory) (side : Side) (up down tmp word : Nat) (shade own : Color) :
    RbMemory :=
  let children := (memory.write down ((memory.node down).withChild side tmp)).write up
    ((memory.node up).withChild side.other down)
  let moved := children.adopted tmp (packed down shade)
  (moved.write up { moved.node up with parentColor := word }).write down
    { moved.node down with parentColor := packed up own }

section Rotated

variable {side : Side} {up down tmp word hole other : Nat} {color shade own : Color}
  {outside inside moved : ColorTree Nat}

theorem stored_rotated (first : up ∉ tree.values) (second : down ∉ tree.values)
    (third : tmp ∉ tree.values) :
    Stored (memory.rotated side up down tmp word shade own).node other tree <->
      Stored memory.node other tree := by
  rw [RbMemory.rotated, stored_write second, stored_write first, stored_adopted third,
    stored_write first, stored_write second]

theorem above_rotated (first : up ∉ context frames) (second : down ∉ context frames)
    (third : tmp ∉ context frames) :
    StoredAbove (memory.rotated side up down tmp word shade own) frames hole <->
      StoredAbove memory frames hole := by
  rw [RbMemory.rotated, above_write second, above_write first, above_adopted third,
    above_write first, above_write second]

theorem rotated_down (different : up ≠ down) (apart : down ≠ tmp) :
    (memory.rotated side up down tmp word shade own).node down =
      { (memory.node down).withChild side tmp with parentColor := packed up own } := by
  rw [RbMemory.rotated, write_node_self, adopted_node_of_ne apart,
    write_node_of_ne (Ne.symm different), write_node_self]

theorem rotated_up (different : up ≠ down) (apart : up ≠ tmp) :
    (memory.rotated side up down tmp word shade own).node up =
      { (memory.node up).withChild side.other down with parentColor := word } := by
  rw [RbMemory.rotated, write_node_of_ne different, write_node_self, adopted_node_of_ne apart,
    write_node_self]

/-- The subtree that changes its parent. -/
theorem stored_rotated_moved (stored : Stored memory.node other moved)
    (distinct : moved.values.Nodup) (first : up ∉ moved.values) (second : down ∉ moved.values) :
    Stored (memory.rotated side up down (address moved) word shade own).node down (moved.paint shade) := by
  rw [RbMemory.rotated, stored_write (by rwa [ColorTree.values_paint]),
    stored_write (by rwa [ColorTree.values_paint])]
  exact Stored.adopted ((stored_write first).mpr ((stored_write second).mpr stored)) distinct

/-- A rotation with all its pointers.  The words of the two nodes before the rotation, and
the child of `down` that `up` replaces, are not used. -/
theorem holds_rotated {old stale : Nat} (shade own : Color)
    (distinct : (outside.values ++ up :: (moved.values ++ down :: (inside.values ++ context frames))).Nodup)
    (upAligned : Aligned up) (downAligned : Aligned down)
    (upFound : memory.node up = record side old (address outside) (address moved))
    (downFound : memory.node down = record side (packed (parentOf frames) color) stale (address inside))
    (outsideStored : Stored memory.node up outside) (movedStored : Stored memory.node up moved)
    (insideStored : Stored memory.node down inside) (above : StoredAbove memory frames down) :
    Holds ((memory.rotated side up down (address moved)
        (packed (parentOf frames) color) shade own).redirected down up (parentOf frames)) frames
      (join side color up outside (join side own down (moved.paint shade) inside)) := by
  have order : ((join side color up outside (join side own down (moved.paint shade) inside)).values ++
      context frames).Perm
        (outside.values ++ up :: (moved.values ++ down :: (inside.values ++ context frames))) := by
    have inner := values_join_perm side own down (moved.paint shade) inside
    have outer := values_join_perm side color up outside
      (join side own down (moved.paint shade) inside)
    rw [ColorTree.values_paint] at inner
    have both := (outer.trans ((inner.cons up).append_left outside.values)).append_right (context frames)
    simpa using both
  have whole := order.nodup_iff.mpr distinct
  simp only [List.nodup_append', List.nodup_cons, List.disjoint_append_right,
    List.disjoint_cons_right, List.mem_append, List.mem_cons, not_or] at distinct
  rcases distinct with ⟨_, ⟨⟨upMoved, upDown, upInside, upFrames⟩, movedNodup,
    ⟨⟨downInside, downFrames⟩, _, framesNodup, insideFrames⟩, downMoved, movedInside, movedFrames⟩,
    upOutside, outsideMoved, downOutside, _, outsideFrames⟩
  refine ⟨stored_join.mpr ⟨upAligned, ?_, ?_, stored_join.mpr ⟨downAligned, ?_, ?_, ?_⟩⟩, ?_, whole⟩
  · rw [redirected_node_of_ne (ne_parentOf upAligned.1 upFrames),
      rotated_up upDown (ne_address upAligned.1 upMoved), upFound, withChild_other_record,
      record_with_parentColor, address_join]
  · rw [stored_redirected (parentOf_not_mem outsideFrames outsideStored.zero_not_mem), stored_rotated
      upOutside downOutside (address_not_mem outsideMoved.symm outsideStored.zero_not_mem)]
    exact outsideStored
  · rw [redirected_node_of_ne (ne_parentOf downAligned.1 downFrames),
      rotated_down upDown (ne_address downAligned.1 downMoved), downFound, withChild_record,
      record_with_parentColor]
    cases moved <;> rfl
  · rw [stored_redirected (parentOf_not_mem (by rwa [ColorTree.values_paint])
      (by rw [ColorTree.values_paint]; exact movedStored.zero_not_mem))]
    exact stored_rotated_moved movedStored movedNodup upMoved downMoved
  · rw [stored_redirected (parentOf_not_mem insideFrames insideStored.zero_not_mem), stored_rotated
      upInside downInside (address_not_mem movedInside insideStored.zero_not_mem)]
    exact insideStored
  · rw [address_join]
    refine StoredAbove.redirected ?_ downAligned.1 downFrames framesNodup
    rw [above_rotated upFrames downFrames (address_not_mem movedFrames above.zero_not_mem)]
    exact above

end Rotated

/-! ## What a change leaves alone -/

theorem adopted_untouched {pointer word : Nat} (outside : pointer ∉ tree.values) :
    (memory.adopted (address tree) word).node pointer = memory.node pointer := by
  cases tree with
  | nil => rfl
  | node color own left right =>
      refine adopted_node_of_ne (fun same => outside ?_)
      rw [same]
      simp [ColorTree.values, address]

theorem redirected_untouched {pointer old new : Nat} (outside : pointer ∉ context frames) :
    (memory.redirected old new (parentOf frames)).node pointer = memory.node pointer := by
  cases frames with
  | nil => rfl
  | cons frame rest =>
      refine redirected_node_of_ne (fun same => outside ?_)
      rw [same]
      exact List.mem_cons_self

theorem rotated_untouched {side : Side} {pointer up down word : Nat} {shade own : Color} (first : pointer ≠ up)
    (second : pointer ≠ down) (third : pointer ∉ tree.values) :
    (memory.rotated side up down (address tree) word shade own).node pointer = memory.node pointer := by
  rw [RbMemory.rotated, write_node_of_ne second, write_node_of_ne first, adopted_untouched third,
    write_node_of_ne first, write_node_of_ne second]

/-- `__rb_rotate_set_parents`. -/
theorem ensures_rbRotateSetParents {old new : Nat} {color : Color} {done : PUnit -> RbMemory -> Prop}
    {failed : Fault -> RbMemory -> Prop} (oldValid : old ≠ 0) (newValid : new ≠ 0)
    (different : new ≠ old) :
    Ensures (rbRotateSetParents old new color) memory done failed <->
      done PUnit.unit (((memory.write new
        { memory.node new with parentColor := (memory.node old).parentColor }).write old
          { memory.node old with parentColor := packed new color }).redirected old new
            (rbParent (memory.node old).parentColor)) := by
  unfold rbRotateSetParents
  simp only [Ensures.bind_iff, ensures_loadNode oldValid, ensures_changeNode newValid,
    ensures_rbSetParentColor oldValid, ensures_rbChangeChild, write_node_of_ne (Ne.symm different)]

@[simp]
theorem withChild_parentColor (content : RbNode) (side : Side) (pointer : Nat) :
    (content.withChild side pointer).parentColor = content.parentColor := by
  cases side <;> rfl

/-- Two trees that share no node have different addresses, unless both are empty. -/
theorem address_ne {first second : ColorTree Nat} (disjoint : List.Disjoint first.values second.values)
    (stored : Stored memory.node parent first) (present : first ≠ .nil) :
    address first ≠ address second := by
  cases first with
  | nil => exact absurd rfl present
  | node color pointer left right =>
      refine ne_address stored.1.1 (fun member => disjoint ?_ member)
      simp [ColorTree.values, address]

theorem exists_join (present : tree ≠ .nil) (side : Side) :
    Exists fun color => Exists fun pointer => Exists fun near => Exists fun far =>
      tree = join side color pointer near far := by
  cases tree with
  | nil => exact absurd rfl present
  | node color pointer left right => exact ⟨color, pointer, _, _, node_eq_join side color pointer left right⟩

theorem Untouched.trans {middle next : RbMemory} {first second : List Nat}
    (one : Untouched memory middle first) (two : Untouched middle next second)
    (within : forall pointer, pointer ∈ second -> pointer ∈ first) :
    Untouched memory next first := by
  intro pointer outside
  rw [two pointer (fun member => outside (within pointer member)), one pointer outside]

theorem Untouched.refl (memory : RbMemory) (nodes : List Nat) : Untouched memory memory nodes :=
  fun _ _ => rfl

theorem address_mem (present : tree ≠ .nil) : address tree ∈ tree.values := by
  cases tree with
  | nil => exact absurd rfl present
  | node color pointer left right => simp [ColorTree.values, address]

theorem address_ne_zero (stored : Stored memory.node parent tree) (present : tree ≠ .nil) :
    address tree ≠ 0 := by
  cases tree with
  | nil => exact absurd rfl present
  | node color pointer left right => exact stored.1.1

end Rotations

end Userfs.Ds

