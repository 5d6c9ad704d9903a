import Mathlib.Algebra.Order.Ring.Nat
import Mathlib.Data.Nat.Log
import Mathlib.Data.Tree.Basic
import Userfs.Library.IntervalTree

namespace Userfs.RedBlack

/-!
# Red-black trees repaired from the inside

The classical algorithms link or unlink a node deep in a tree and then walk back to the
root.  The walk is described here by a subtree and the list of frames above it, the
innermost first.  Every case of the two repairs exists in two mirrored forms; a frame
names the side its hole is on, so that each case is stated once.

`fixRed` repairs a red node that may hang below a red one, `fixBlack` a subtree whose
paths lack a black node, and `erase` takes out the node at the focus.  For each of them
there is one law about the sequence of values, which never changes otherwise, and one
about balance.
-/

open SearchTree

universe u

inductive Color where
  | red
  | black
deriving DecidableEq, Repr

/-- What a node of a color adds to the number of black nodes. -/
def Color.weight : Color -> Nat
  | .red => 0
  | .black => 1

inductive Side where
  | left
  | right
deriving DecidableEq, Repr

def Side.other : Side -> Side
  | .left => .right
  | .right => .left

@[simp]
theorem Side.other_other (side : Side) : side.other.other = side := by
  cases side <;> rfl

theorem Side.other_ne (side : Side) : side.other ≠ side := by
  cases side <;> decide

theorem Side.eq_other_of_ne {side own : Side} (different : side ≠ own) : side = own.other := by
  cases side <;> cases own <;> first | rfl | exact absurd rfl different

inductive ColorTree (X : Type u) where
  | nil
  | node (color : Color) (value : X) (left right : ColorTree X)
deriving DecidableEq, Repr

variable {X : Type u}

namespace ColorTree

/-- The tree without its colors. -/
def shape : ColorTree X -> BinaryTree X
  | .nil => .nil
  | .node _ value left right => .node value left.shape right.shape

/-- The stored values from left to right. -/
def values : ColorTree X -> List X
  | .nil => []
  | .node _ value left right => left.values ++ value :: right.values

theorem inorder_shape (tree : ColorTree X) : inorder tree.shape = tree.values := by
  induction tree with
  | nil => rfl
  | node color value left right leftIH rightIH =>
      simp only [shape, inorder, values, leftIH, rightIH]

/-- The color of the root; an empty tree is black. -/
def color : ColorTree X -> Color
  | .nil => .black
  | .node color _ _ _ => color

/-- Give the root a color. -/
def paint (color : Color) : ColorTree X -> ColorTree X
  | .nil => .nil
  | .node _ value left right => .node color value left right

/-- The longest way down. -/
def height : ColorTree X -> Nat
  | .nil => 0
  | .node _ _ left right => max left.height right.height + 1

@[simp]
theorem values_paint (color : Color) (tree : ColorTree X) :
    (tree.paint color).values = tree.values := by
  cases tree <;> rfl

theorem paint_color (tree : ColorTree X) : tree.paint tree.color = tree := by
  cases tree <;> rfl

end ColorTree

open ColorTree

/-- A node whose child on a side is `near` and whose other child is `far`. -/
def join (side : Side) (color : Color) (value : X) (near far : ColorTree X) : ColorTree X :=
  match side with
  | .left => .node color value near far
  | .right => .node color value far near

@[simp]
theorem color_join (side : Side) (color : Color) (value : X) (near far : ColorTree X) :
    (join side color value near far).color = color := by
  cases side <;> rfl

@[simp]
theorem paint_join (side : Side) (color new : Color) (value : X) (near far : ColorTree X) :
    (join side color value near far).paint new = join side new value near far := by
  cases side <;> rfl

theorem join_ne_nil (side : Side) (color : Color) (value : X) (near far : ColorTree X) :
    join side color value near far ≠ .nil := by
  cases side <;> simp [join]

theorem height_join (side : Side) (color : Color) (value : X) (near far : ColorTree X) :
    (join side color value near far).height = max near.height far.height + 1 := by
  cases side with
  | left => rfl
  | right => simp only [join, height, Nat.max_comm]

theorem join_other (side : Side) (color : Color) (value : X) (near far : ColorTree X) :
    join side.other color value near far = join side color value far near := by
  cases side <;> rfl

/-- The child on a side. -/
def child (side : Side) : ColorTree X -> ColorTree X
  | .nil => .nil
  | .node _ _ left right =>
      match side with
      | .left => left
      | .right => right

/-- Every node has this form, whatever side one looks from. -/
theorem node_eq_join (side : Side) (color : Color) (value : X) (left right : ColorTree X) :
    ColorTree.node color value left right = join side color value
      (child side (.node color value left right)) (child side.other (.node color value left right)) := by
  cases side <;> rfl

/-- The node above a hole: the side the hole is on, and the subtree on the other side. -/
structure Frame (X : Type u) where
  side : Side
  color : Color
  value : X
  sibling : ColorTree X

/-- The tree a frame makes of what fills its hole. -/
def Frame.fill (frame : Frame X) (tree : ColorTree X) : ColorTree X :=
  join frame.side frame.color frame.value tree frame.sibling

/-- Fill the hole below a list of frames, the innermost first. -/
def plug : List (Frame X) -> ColorTree X -> ColorTree X
  | [], tree => tree
  | frame :: rest, tree => plug rest (frame.fill tree)

/-- The root below at least one frame does not depend on what fills the hole. -/
theorem color_plug_cons (frame : Frame X) (rest : List (Frame X)) (first second : ColorTree X) :
    (plug (frame :: rest) first).color = (plug (frame :: rest) second).color := by
  induction rest generalizing frame first second with
  | nil => simp only [plug, Frame.fill, color_join]
  | cons above rest ih => exact ih above (frame.fill first) (frame.fill second)

theorem length_add_height_le (frames : List (Frame X)) (tree : ColorTree X) :
    frames.length + tree.height ≤ (plug frames tree).height := by
  induction frames generalizing tree with
  | nil => simp [plug]
  | cons frame rest ih =>
      have higher : tree.height + 1 ≤ (frame.fill tree).height := by
        unfold Frame.fill join
        split <;> simp only [height] <;> omega
      have whole := ih (frame.fill tree)
      simp only [List.length_cons, plug]
      omega

theorem plug_append (inner outer : List (Frame X)) (tree : ColorTree X) :
    plug (inner ++ outer) tree = plug outer (plug inner tree) := by
  induction inner generalizing tree with
  | nil => rfl
  | cons frame rest ih => exact ih (frame.fill tree)

/-- What the frames hold to the left of the hole. -/
def before : List (Frame X) -> List X
  | [] => []
  | frame :: rest =>
      before rest ++ (match frame.side with
        | .left => []
        | .right => frame.sibling.values ++ [frame.value])

/-- What the frames hold to the right of the hole. -/
def after : List (Frame X) -> List X
  | [] => []
  | frame :: rest =>
      (match frame.side with
        | .left => frame.value :: frame.sibling.values
        | .right => []) ++ after rest

theorem values_plug (frames : List (Frame X)) (tree : ColorTree X) :
    (plug frames tree).values = before frames ++ tree.values ++ after frames := by
  induction frames generalizing tree with
  | nil => simp [plug, before, after]
  | cons frame rest ih =>
      rw [plug, ih]
      rcases frame with ⟨side, color, value, sibling⟩
      cases side <;> simp [Frame.fill, join, values, before, after]

/-- A tree can be opened at each of its values. -/
theorem exists_plug {value : X} {tree : ColorTree X} (member : value ∈ tree.values) :
    Exists fun frames => Exists fun color => Exists fun left => Exists fun right =>
      tree = plug frames (.node color value left right) := by
  induction tree with
  | nil => cases member
  | node own root first last leftIH rightIH =>
      rcases List.mem_append.mp member with inLeft | inRest
      · rcases leftIH inLeft with ⟨frames, color, left, right, rfl⟩
        exact ⟨frames ++ [⟨.left, own, root, last⟩], color, left, right, by rw [plug_append]; rfl⟩
      · rcases List.mem_cons.mp inRest with rfl | inRight
        · exact ⟨[], own, first, last, rfl⟩
        · rcases rightIH inRight with ⟨frames, color, left, right, rfl⟩
          exact ⟨frames ++ [⟨.right, own, root, first⟩], color, left, right, by rw [plug_append]; rfl⟩

/-- Trees with the same values give the same values in every place. -/
theorem values_plug_congr (frames : List (Frame X)) {first second : ColorTree X}
    (same : first.values = second.values) :
    (plug frames first).values = (plug frames second).values := by
  rw [values_plug, values_plug, same]

/-! ## Steps to the neighbour -/

/-- The values in the order in which a walk towards a side meets them. -/
def inOrder (side : Side) (tree : ColorTree X) : List X :=
  match side with
  | .right => tree.values
  | .left => tree.values.reverse

/-- The values beyond a hole, for a walk towards a side. -/
def beyond (side : Side) : List (Frame X) -> List X
  | [] => []
  | frame :: rest =>
      if frame.side = side then beyond side rest
      else frame.value :: inOrder side frame.sibling ++ beyond side rest

@[simp]
theorem inOrder_nil (side : Side) : inOrder side (.nil : ColorTree X) = [] := by
  cases side <;> rfl

theorem inOrder_join (side : Side) (color : Color) (value : X) (near far : ColorTree X) :
    inOrder side (join side color value near far) = inOrder side far ++ value :: inOrder side near := by
  cases side <;> simp [inOrder, join, values]

theorem inOrder_join_other (side : Side) (color : Color) (value : X) (near far : ColorTree X) :
    inOrder side (join side.other color value near far) =
      inOrder side near ++ value :: inOrder side far := by
  rw [join_other, inOrder_join]

/-- What lies behind a hole does not depend on what fills it. -/
theorem inOrder_plug (side : Side) (frames : List (Frame X)) :
    Exists fun behind => forall tree, inOrder side (plug frames tree) =
      behind ++ (inOrder side tree ++ beyond side frames) := by
  induction frames with
  | nil => exact ⟨[], fun tree => by simp [plug, beyond]⟩
  | cons frame rest ih =>
      rcases ih with ⟨behind, law⟩
      rcases frame with ⟨own, color, value, sibling⟩
      by_cases same : own = side
      · subst same
        refine ⟨behind ++ (inOrder own sibling ++ [value]), fun tree => ?_⟩
        simp [plug, law, Frame.fill, inOrder_join, beyond]
      · refine ⟨behind, fun tree => ?_⟩
        rw [plug, law, Frame.fill, Side.eq_other_of_ne same, inOrder_join_other, beyond,
          if_neg (Side.other_ne side)]
        simp only [List.append_assoc, List.cons_append]

/-! ## Balance -/

/-- A red-black tree with the given color at its root and the given number of black
nodes on every way down. -/
inductive Balanced : Color -> Nat -> ColorTree X -> Prop where
  | nil : Balanced .black 0 .nil
  | red {count : Nat} {value : X} {left right : ColorTree X} :
      Balanced .black count left -> Balanced .black count right ->
      Balanced .red count (.node .red value left right)
  | black {count : Nat} {value : X} {first second : Color} {left right : ColorTree X} :
      Balanced first count left -> Balanced second count right ->
      Balanced .black (count + 1) (.node .black value left right)

namespace Balanced

variable {count : Nat} {value : X} {side : Side} {near far tree : ColorTree X} {color : Color}

theorem join_red (first : Balanced .black count near) (second : Balanced .black count far) :
    Balanced .red count (join side .red value near far) := by
  cases side with
  | left => exact .red first second
  | right => exact .red second first

theorem join_black {first second : Color} (one : Balanced first count near)
    (two : Balanced second count far) :
    Balanced .black (count + 1) (join side .black value near far) := by
  cases side with
  | left => exact .black one two
  | right => exact .black two one

/-- Black children suit a node of either color. -/
theorem join_any (color : Color) (first : Balanced .black count near)
    (second : Balanced .black count far) :
    Balanced color (count + color.weight) (join side color value near far) := by
  cases color with
  | red => exact join_red first second
  | black => exact join_black first second

theorem color_eq (balanced : Balanced color count tree) : tree.color = color := by
  cases balanced <;> rfl

/-- A black tree is not changed when it is painted black. -/
theorem paint_black (balanced : Balanced .black count tree) : tree.paint .black = tree := by
  rw [← balanced.color_eq]
  exact paint_color tree

/-- Painting the root black gives a red-black tree again. -/
theorem blacken (balanced : Balanced color count tree) :
    Exists fun more => Balanced .black more (tree.paint .black) := by
  cases balanced with
  | nil => exact ⟨0, .nil⟩
  | @red count _ _ _ left right => exact ⟨count + 1, .black left right⟩
  | @black count _ _ _ _ _ left right => exact ⟨count + 1, .black left right⟩

/-- Children of a red node. -/
theorem of_join_red (balanced : Balanced color count (join side .red value near far)) :
    color = .red ∧ Balanced .black count near ∧ Balanced .black count far := by
  cases side with
  | left =>
      cases balanced with
      | red first second => exact ⟨rfl, first, second⟩
  | right =>
      cases balanced with
      | red first second => exact ⟨rfl, second, first⟩

/-- Children of a black node. -/
theorem of_join_black (balanced : Balanced color count (join side .black value near far)) :
    color = .black ∧ Exists fun less => count = less + 1 ∧
      (Exists fun first => Balanced first less near) ∧
      (Exists fun second => Balanced second less far) := by
  cases side with
  | left =>
      cases balanced with
      | black first second => exact ⟨rfl, _, rfl, ⟨_, first⟩, ⟨_, second⟩⟩
  | right =>
      cases balanced with
      | black first second => exact ⟨rfl, _, rfl, ⟨_, second⟩, ⟨_, first⟩⟩

theorem of_red (balanced : Balanced color count tree) (red : tree.color = .red) :
    Balanced .red count tree :=
  (balanced.color_eq.symm.trans red) ▸ balanced

theorem of_not_red (balanced : Balanced color count tree) (notRed : ¬ tree.color = .red) :
    Balanced .black count tree := by
  cases balanced with
  | nil => exact .nil
  | red _ _ => exact absurd rfl notRed
  | black left right => exact .black left right

/-- A red tree, seen from a side. -/
theorem exists_join_red (balanced : Balanced .red count tree) (side : Side) :
    Exists fun value => Exists fun near => Exists fun far =>
      tree = join side .red value near far ∧ Balanced .black count near ∧ Balanced .black count far := by
  cases balanced with
  | @red _ value left right first second =>
      cases side with
      | left => exact ⟨value, left, right, rfl, first, second⟩
      | right => exact ⟨value, right, left, rfl, second, first⟩

/-- A black tree that has a black node, seen from a side. -/
theorem exists_join (balanced : Balanced .black (count + 1) tree) (side : Side) :
    Exists fun value => Exists fun near => Exists fun far =>
      tree = join side .black value near far ∧ (Exists fun one => Balanced one count near) ∧
        (Exists fun two => Balanced two count far) := by
  cases balanced with
  | @black _ value _ _ left right first second =>
      cases side with
      | left => exact ⟨value, left, right, rfl, ⟨_, first⟩, ⟨_, second⟩⟩
      | right => exact ⟨value, right, left, rfl, ⟨_, second⟩, ⟨_, first⟩⟩

/-- A red tree painted black has one black node more. -/
theorem ne_nil (balanced : Balanced .black (count + 1) tree) : tree ≠ .nil := by
  rintro rfl
  cases balanced

theorem paint_red_black (balanced : Balanced .red count tree) :
    Balanced .black (count + 1) (tree.paint .black) := by
  cases balanced with
  | red left right => exact .black left right

/-- A way down meets at most one red node for each black one. -/
theorem height_le (balanced : Balanced color count tree) :
    tree.height ≤ 2 * count + (if color = .red then 1 else 0) := by
  induction balanced with
  | nil => exact Nat.le_refl 0
  | red _ _ leftIH rightIH =>
      simp only [reduceCtorEq, if_false, if_true, ColorTree.height] at *
      omega
  | black _ _ leftIH rightIH =>
      simp only [reduceCtorEq, if_false, ColorTree.height]
      split at leftIH <;> split at rightIH <;> omega

/-- A tree has at least the nodes that its black nodes alone would need. -/
theorem count_le (balanced : Balanced color count tree) :
    2 ^ count ≤ tree.values.length + 1 := by
  induction balanced with
  | nil => exact Nat.le_refl 1
  | red _ _ leftIH rightIH =>
      simp only [ColorTree.values, List.length_append, List.length_cons]
      omega
  | black _ _ leftIH rightIH =>
      simp only [ColorTree.values, List.length_append, List.length_cons, Nat.pow_succ]
      omega

/-- The height of a red-black tree is logarithmic in its size. -/
theorem height_le_log (balanced : Balanced .black count tree) :
    tree.height ≤ 2 * Nat.log 2 (tree.values.length + 1) := by
  have counted := Nat.le_log_of_pow_le (by decide) balanced.count_le
  have bounded := balanced.height_le
  simp only [reduceCtorEq, if_false] at bounded
  omega

end Balanced

/-- The frames of a red-black tree with a hole for a subtree of the given color and
number of black nodes. -/
inductive Fits : List (Frame X) -> Color -> Nat -> Prop where
  | root {count : Nat} : Fits [] .black count
  | red {rest : List (Frame X)} {side : Side} {value : X} {sibling : ColorTree X} {count : Nat} :
      Balanced .black count sibling -> Fits rest .red count ->
      Fits (⟨side, .red, value, sibling⟩ :: rest) .black count
  | black {rest : List (Frame X)} {side : Side} {value : X} {sibling : ColorTree X} {count : Nat}
      {hole other : Color} :
      Balanced other count sibling -> Fits rest .black (count + 1) ->
      Fits (⟨side, .black, value, sibling⟩ :: rest) hole count

namespace Fits

variable {frames rest inner : List (Frame X)} {color : Color} {count : Nat} {tree : ColorTree X}

/-- A hole for a red subtree takes a black one as well. -/
theorem to_black (fits : Fits frames color count) : Fits frames .black count := by
  cases fits with
  | root => exact .root
  | red sibling above => exact .red sibling above
  | black sibling above => exact .black sibling above

/-- The tree is a red-black tree if the right subtree fills the hole. -/
theorem plug (fits : Fits frames color count) (balanced : Balanced color count tree) :
    Exists fun more => Balanced .black more (plug frames tree) := by
  induction fits generalizing tree with
  | root => exact ⟨_, balanced⟩
  | red sibling _ ih => exact ih (.join_red balanced sibling)
  | black sibling _ ih => exact ih (.join_black balanced sibling)

/-- A red-black tree can be opened at every subtree. -/
theorem of_plug {outer : List (Frame X)} {hole : Color} {more : Nat}
    (balanced : Balanced hole more (RedBlack.plug inner tree)) (above : Fits outer hole more) :
    Exists fun color => Exists fun count =>
      Balanced color count tree ∧ Fits (inner ++ outer) color count := by
  induction inner generalizing tree with
  | nil => exact ⟨hole, more, balanced, above⟩
  | cons frame rest ih =>
      rcases ih balanced with ⟨color, count, filled, fits⟩
      rcases frame with ⟨side, own, value, sibling⟩
      cases own with
      | red =>
          rcases filled.of_join_red with ⟨rfl, first, second⟩
          exact ⟨.black, count, first, .red second fits⟩
      | black =>
          rcases filled.of_join_black with ⟨rfl, less, rfl, ⟨one, first⟩, ⟨two, second⟩⟩
          exact ⟨one, less, first, .black second fits⟩

/-- A black frame takes a subtree of either color. -/
theorem recolor {frame : Frame X} {other : Color} (fits : Fits (frame :: rest) color count)
    (dark : frame.color = .black) : Fits (frame :: rest) other count := by
  cases fits with
  | red _ _ => cases dark
  | black balanced above => exact .black balanced above

/-- The hole that a frame leaves in the frames above it. -/
theorem above {frame : Frame X} (fits : Fits (frame :: rest) color count) :
    Fits rest frame.color (count + frame.color.weight) := by
  cases fits with
  | red _ above => exact above
  | black _ above => exact above

/-- What stands beside and above a hole under a black frame. -/
theorem of_black {frame : Frame X} (fits : Fits (frame :: rest) color count)
    (dark : frame.color = .black) :
    (Exists fun other => Balanced other count frame.sibling) ∧ Fits rest .black (count + 1) := by
  cases fits with
  | red _ _ => cases dark
  | black balanced above => exact ⟨⟨_, balanced⟩, above⟩

/-- What stands beside and above a hole under a red frame. -/
theorem of_red {frame : Frame X} (fits : Fits (frame :: rest) color count)
    (red : frame.color ≠ .black) :
    color = .black ∧ Balanced .black count frame.sibling ∧ Fits rest .red count := by
  cases fits with
  | red balanced above => exact ⟨rfl, balanced, above⟩
  | black _ _ => exact absurd rfl red

/-- A red frame is not the root. -/
theorem not_lone {frame : Frame X} (fits : Fits [frame] color count) :
    ¬ frame.color = .red := by
  intro red
  have above := (fits.of_red (red ▸ by decide)).2.2
  cases above

/-- A red frame stands below a black one. -/
theorem grandparent {frame above : Frame X} (fits : Fits (frame :: above :: rest) color count)
    (red : frame.color ≠ .black) :
    above.color = .black ∧ Balanced .black count frame.sibling ∧
      (Exists fun other => Balanced other count above.sibling) ∧ Fits rest .black (count + 1) := by
  rcases fits.of_red red with ⟨_, sibling, higher⟩
  cases own : above.color with
  | red => cases (higher.of_red (own ▸ by decide)).1
  | black => exact ⟨rfl, sibling, higher.of_black own⟩

end Fits

/-! ## A red node below a red node -/

/-- The two rotations that lift a value above its parent and its grandparent.  The value
was on the inner side of its parent. -/
def liftInner (frame above : Frame X) (tree : ColorTree X) : ColorTree X :=
  match tree with
  | .nil => above.fill (frame.fill tree)
  | .node _ value _ _ =>
      join above.side above.color value
        (join above.side .red frame.value frame.sibling ((child above.side tree).paint .black))
        (join above.side .red above.value ((child above.side.other tree).paint .black)
          above.sibling)

/-- The rotation that lifts the parent above the grandparent. -/
def liftOuter (frame above : Frame X) (tree : ColorTree X) : ColorTree X :=
  join above.side above.color frame.value tree
    (join above.side .red above.value (frame.sibling.paint .black) above.sibling)

/-- Both children of a red grandparent turned black. -/
def flipColors (frame above : Frame X) (tree : ColorTree X) : ColorTree X :=
  join above.side .red above.value (join frame.side .black frame.value tree frame.sibling)
    (above.sibling.paint .black)

/-- The repair after a red node was linked: flip colors while the parent and its sibling
are red, then rotate once or twice. -/
def fixRed : List (Frame X) -> ColorTree X -> ColorTree X
  | [], tree => tree.paint .black
  | [frame], tree => plug [frame] tree
  | frame :: above :: outer, tree =>
      if frame.color = .black then plug (frame :: above :: outer) tree
      else if above.sibling.color = .red then fixRed outer (flipColors frame above tree)
      else if frame.side = above.side then plug outer (liftOuter frame above tree)
      else plug outer (liftInner frame above tree)

section FixRed

variable {frame above : Frame X} {outer frames : List (Frame X)} {tree : ColorTree X} {count : Nat}

/-- Below a black node nothing is to be done. -/
theorem fixRed_black (black : frame.color = .black) :
    fixRed (frame :: outer) tree = plug (frame :: outer) tree := by
  cases outer with
  | nil => rfl
  | cons above rest => rw [fixRed, if_pos black]

theorem values_flipColors (frame above : Frame X) (tree : ColorTree X) :
    (flipColors frame above tree).values = (above.fill (frame.fill tree)).values := by
  rcases frame with ⟨side, _, _, _⟩
  rcases above with ⟨aboveSide, _, _, _⟩
  cases side <;> cases aboveSide <;> simp [flipColors, Frame.fill, join, values]

theorem values_liftOuter (same : frame.side = above.side) (tree : ColorTree X) :
    (liftOuter frame above tree).values = (above.fill (frame.fill tree)).values := by
  rcases frame with ⟨side, _, _, _⟩
  rcases above with ⟨aboveSide, _, _, _⟩
  cases same
  cases side <;> simp [liftOuter, Frame.fill, join, values]

theorem values_liftInner (different : frame.side ≠ above.side) (tree : ColorTree X) :
    (liftInner frame above tree).values = (above.fill (frame.fill tree)).values := by
  rcases frame with ⟨side, _, _, _⟩
  rcases above with ⟨aboveSide, _, _, _⟩
  cases Side.eq_other_of_ne different
  cases tree with
  | nil => rfl
  | node color value left right =>
      cases aboveSide <;> simp [liftInner, Frame.fill, join, values, child, Side.other]

theorem liftInner_join (frame above : Frame X) (color : Color) (value : X)
    (first last : ColorTree X) :
    liftInner frame above (join above.side color value first last) =
      join above.side above.color value
        (join above.side .red frame.value frame.sibling (first.paint .black))
        (join above.side .red above.value (last.paint .black) above.sibling) := by
  rcases above with ⟨side, _, _, _⟩
  cases side <;> rfl

/-- The repair keeps the sequence of values. -/
theorem values_fixRed (frames : List (Frame X)) (tree : ColorTree X) :
    (fixRed frames tree).values = (plug frames tree).values := by
  induction frames, tree using fixRed.induct with
  | case1 tree => exact values_paint .black tree
  | case2 frame tree => rfl
  | case3 frame above outer tree black => rw [fixRed, if_pos black]
  | case4 frame above outer tree red uncle ih =>
      rw [fixRed, if_neg red, if_pos uncle, ih]
      exact values_plug_congr outer (values_flipColors frame above tree)
  | case5 frame above outer tree red uncle same =>
      rw [fixRed, if_neg red, if_neg uncle, if_pos same]
      exact values_plug_congr outer (values_liftOuter same tree)
  | case6 frame above outer tree red uncle different =>
      rw [fixRed, if_neg red, if_neg uncle, if_neg different]
      exact values_plug_congr outer (values_liftInner different tree)

/-- A red subtree in the place of a black one is repaired to a red-black tree. -/
theorem balanced_fixRed (fits : Fits frames .black count) (balanced : Balanced .red count tree) :
    Exists fun more => Balanced .black more (fixRed frames tree) := by
  induction frames, tree using fixRed.induct generalizing count with
  | case1 tree => exact balanced.blacken
  | case2 frame tree =>
      cases own : frame.color with
      | red => exact (fits.not_lone own).elim
      | black => exact (fits.recolor own).plug balanced
  | case3 frame above outer tree black =>
      rw [fixRed, if_pos black]
      exact (fits.recolor black).plug balanced
  | case4 frame above outer tree red uncle ih =>
      rw [fixRed, if_neg red, if_pos uncle]
      rcases fits.grandparent red with ⟨_, sibling, ⟨other, second⟩, higher⟩
      refine ih higher ?_
      exact .join_red (.join_black balanced sibling) (second.of_red uncle).paint_red_black
  | case5 frame above outer tree red uncle same =>
      rw [fixRed, if_neg red, if_neg uncle, if_pos same]
      rcases fits.grandparent red with ⟨dark, sibling, ⟨other, second⟩, higher⟩
      refine higher.plug ?_
      rw [liftOuter, dark, sibling.paint_black]
      exact .join_black balanced (.join_red sibling (second.of_not_red uncle))
  | case6 frame above outer tree red uncle different =>
      rw [fixRed, if_neg red, if_neg uncle, if_neg different]
      rcases fits.grandparent red with ⟨dark, sibling, ⟨other, second⟩, higher⟩
      refine higher.plug ?_
      cases balanced with
      | @red _ value left right first last =>
          have parts := Balanced.of_join_red
            (node_eq_join above.side .red value left right ▸ Balanced.red first last)
          rw [liftInner, dark, parts.2.1.paint_black, parts.2.2.paint_black]
          exact .join_black (.join_red sibling parts.2.1)
            (.join_red parts.2.2 (second.of_not_red uncle))

/-- A red-black tree with a new value at an empty place is repaired to a red-black tree. -/
theorem balanced_insert (balanced : Balanced .black count (plug frames .nil)) (new : X) :
    Exists fun more => Balanced .black more (fixRed frames (.node .red new .nil .nil)) := by
  rcases Fits.of_plug balanced .root with ⟨shade, here, empty, fits⟩
  rw [List.append_nil] at fits
  cases empty
  exact balanced_fixRed fits (.red .nil .nil)

end FixRed

/-! ## A subtree that lacks a black node -/

/-- The repair below a node whose child on the frame's side lacks a black node and whose
other child is black.  The second component tells that the result lacks one as well. -/
def repair (frame : Frame X) (tree : ColorTree X) : ColorTree X × Bool :=
  match frame.sibling with
  | .nil => (frame.fill tree, false)
  | .node color value left right =>
      let sibling := ColorTree.node color value left right
      let far := child frame.side.other sibling
      let near := child frame.side sibling
      if far.color = .red then
        (join frame.side frame.color value (join frame.side .black frame.value tree near)
          (far.paint .black), false)
      else
        match near with
        | .node .red inner first last =>
            let near := ColorTree.node .red inner first last
            (join frame.side frame.color inner
              (join frame.side .black frame.value tree (child frame.side near))
              (join frame.side .black value ((child frame.side.other near).paint .black) far), false)
        | _ => (join frame.side .black frame.value tree (sibling.paint .red),
            decide (frame.color = .black))

/-- The repair after a black node was unlinked.  A red sibling is rotated above the
parent first. -/
def fixBlack : List (Frame X) -> ColorTree X -> ColorTree X
  | [], tree => tree
  | frame :: rest, tree =>
      match frame.sibling with
      | .node .red value left right =>
          let sibling := ColorTree.node .red value left right
          plug rest (join frame.side frame.color value
            (repair ⟨frame.side, .red, frame.value, (child frame.side sibling).paint .black⟩ tree).1
            (child frame.side.other sibling))
      | _ =>
          if (repair frame tree).2 then fixBlack rest (repair frame tree).1
          else plug rest (repair frame tree).1

section FixBlack

variable {frame : Frame X} {rest frames : List (Frame X)} {tree near far first last : ColorTree X}
  {count : Nat} {color : Color} {value inner : X}

theorem repair_far (form : frame.sibling = join frame.side color value near far)
    (red : far.color = .red) :
    repair frame tree = (join frame.side frame.color value
      (join frame.side .black frame.value tree near) (far.paint .black), false) := by
  rcases frame with ⟨side, own, parent, sibling⟩
  simp only at form
  subst form
  cases side <;> simp [repair, join, child, Side.other, red]

theorem repair_near (form : frame.sibling =
      join frame.side color value (join frame.side .red inner first last) far)
    (notRed : ¬ far.color = .red) :
    repair frame tree = (join frame.side frame.color inner
      (join frame.side .black frame.value tree first)
      (join frame.side .black value (last.paint .black) far), false) := by
  rcases frame with ⟨side, own, parent, sibling⟩
  simp only at form
  subst form
  cases side <;> simp [repair, join, child, Side.other, notRed]

theorem repair_flip (form : frame.sibling = join frame.side color value near far)
    (farBlack : ¬ far.color = .red) (nearBlack : ¬ near.color = .red) :
    repair frame tree = (join frame.side .black frame.value tree (frame.sibling.paint .red),
      decide (frame.color = .black)) := by
  rcases frame with ⟨side, own, parent, sibling⟩
  simp only at form
  subst form
  rcases near with _ | ⟨shade, _, _, _⟩
  · cases side <;> simp [repair, join, child, Side.other, farBlack]
  · cases shade with
    | red => exact absurd rfl nearBlack
    | black => cases side <;> simp [repair, join, child, Side.other, farBlack]

/-- Below a red parent the repair ends. -/
theorem repair_stops {side : Side} {sibling : ColorTree X} {parent : X}
    (black : Balanced .black (count + 1) sibling) :
    (repair ⟨side, .red, parent, sibling⟩ tree).2 = false := by
  rcases black.exists_join side with ⟨value, near, far, form, ⟨_, one⟩, ⟨_, two⟩⟩
  by_cases farRed : far.color = .red
  · rw [repair_far form farRed]
  by_cases nearRed : near.color = .red
  · rcases (one.of_red nearRed).exists_join_red side with ⟨inner, first, last, rfl, _, _⟩
    rw [repair_near form farRed]
  · rw [repair_flip form farRed nearRed]
    rfl

/-- The repair goes on only after the sibling has given up its black node. -/
theorem repair_goes_on (black : Balanced .black (count + 1) frame.sibling)
    (again : (repair frame tree).2 = true) :
    (repair frame tree).1 = join frame.side .black frame.value tree (frame.sibling.paint .red) := by
  rcases black.exists_join frame.side with ⟨value, near, far, form, ⟨_, one⟩, ⟨_, two⟩⟩
  by_cases farRed : far.color = .red
  · rw [repair_far form farRed] at again
    cases again
  by_cases nearRed : near.color = .red
  · rcases (one.of_red nearRed).exists_join_red frame.side with ⟨inner, first, last, rfl, _, _⟩
    rw [repair_near form farRed] at again
    cases again
  · rw [repair_flip form farRed nearRed]

theorem fixBlack_red (form : frame.sibling = join frame.side .red value near far) :
    fixBlack (frame :: rest) tree = plug rest (join frame.side frame.color value
      (repair ⟨frame.side, .red, frame.value, near.paint .black⟩ tree).1 far) := by
  rcases frame with ⟨side, own, parent, sibling⟩
  simp only at form
  subst form
  cases side <;> rfl

theorem fixBlack_black (notRed : ¬ frame.sibling.color = .red) :
    fixBlack (frame :: rest) tree =
      if (repair frame tree).2 then fixBlack rest (repair frame tree).1
      else plug rest (repair frame tree).1 := by
  rw [fixBlack]
  split
  · rename_i found
    rw [found] at notRed
    exact absurd rfl notRed
  · rfl

theorem values_repair (frame : Frame X) (tree : ColorTree X) :
    (repair frame tree).1.values = (frame.fill tree).values := by
  rcases frame with ⟨side, color, value, sibling⟩
  unfold repair
  cases sibling with
  | nil => rfl
  | node own other left right =>
      simp only
      split
      · cases side <;> simp [Frame.fill, join, values, child, Side.other]
      · split
        · rename_i near
          cases side <;> simp only [child] at near <;>
            simp [Frame.fill, join, values, child, Side.other, near]
        · cases side <;> simp [Frame.fill, join, values]

/-- The repair keeps the sequence of values. -/
theorem values_fixBlack (frames : List (Frame X)) (tree : ColorTree X) :
    (fixBlack frames tree).values = (plug frames tree).values := by
  induction frames generalizing tree with
  | nil => rfl
  | cons frame rest ih =>
      unfold fixBlack
      split
      · rename_i value left right found
        refine values_plug_congr rest ?_
        rcases frame with ⟨side, color, own, sibling⟩
        simp only at found
        cases side <;> simp [join, values, values_repair, Frame.fill, child, Side.other, found]
      · split
        · rw [ih]
          exact values_plug_congr rest (values_repair frame tree)
        · exact values_plug_congr rest (values_repair frame tree)

/-- Beside a black sibling the repair either ends or leaves a subtree that lacks one
black node where the parent was. -/
theorem balanced_repair (fits : Fits (frame :: rest) .black (count + 1))
    (black : Balanced .black (count + 1) frame.sibling) (short : Balanced .black count tree) :
    if (repair frame tree).2 then
      Fits rest .black (count + 2) ∧ Balanced .black (count + 1) (repair frame tree).1
    else Exists fun more => Balanced .black more (plug rest (repair frame tree).1) := by
  rcases black.exists_join frame.side with ⟨value, near, far, form, ⟨_, one⟩, ⟨_, two⟩⟩
  by_cases farRed : far.color = .red
  · -- the far child takes the missing black node
    rw [repair_far form farRed]
    exact fits.above.plug (.join_any _ (.join_black short one) (two.of_red farRed).paint_red_black)
  by_cases nearRed : near.color = .red
  · rcases (one.of_red nearRed).exists_join_red frame.side with ⟨inner, first, last, rfl, left, right⟩
    rw [repair_near form farRed]
    refine fits.above.plug (.join_any _ (.join_black short left) ?_)
    exact .join_black (right.paint_black.symm ▸ right) two
  · -- nothing red is at hand; the sibling gives up its black node
    rw [repair_flip form farRed nearRed]
    have paid : Balanced .black (count + 1)
        (join frame.side .black frame.value tree (frame.sibling.paint .red)) := by
      rw [form, paint_join]
      exact .join_black short (.join_red (one.of_not_red nearRed) (two.of_not_red farRed))
    cases own : frame.color with
    | black => exact ⟨(fits.of_black own).2, paid⟩
    | red =>
        have higher := (fits.of_red (own ▸ by decide)).2.2
        exact higher.to_black.plug paid

/-- A subtree that lacks a black node is repaired to a red-black tree. -/
theorem balanced_fixBlack (fits : Fits frames .black (count + 1))
    (short : Balanced .black count tree) :
    Exists fun more => Balanced .black more (fixBlack frames tree) := by
  induction frames generalizing tree count with
  | nil => exact ⟨count, short⟩
  | cons frame rest ih =>
      by_cases red : frame.sibling.color = .red
      · -- the parent is black; after the rotation it is red and its new sibling black
        have dark : frame.color = .black := by
          by_contra light
          have black := (fits.of_red light).2.1.color_eq
          rw [red] at black
          cases black
        rcases fits.of_black dark with ⟨⟨_, sibling⟩, higher⟩
        rcases (sibling.of_red red).exists_join_red frame.side with ⟨value, near, far, form, one, two⟩
        rw [fixBlack_red form, one.paint_black, dark]
        have inner : Fits (⟨frame.side, .red, frame.value, near⟩ ::
            ⟨frame.side, .black, value, far⟩ :: rest) .black (count + 1) :=
          .red one (.black two higher)
        have done := balanced_repair inner one short
        rwa [repair_stops one] at done
      · have black : Balanced .black (count + 1) frame.sibling := by
          by_cases dark : frame.color = .black
          · rcases (fits.of_black dark).1 with ⟨_, sibling⟩
            exact sibling.of_not_red red
          · exact (fits.of_red dark).2.1
        rw [fixBlack_black red]
        have done := balanced_repair fits black short
        split
        · rename_i again
          rw [if_pos again] at done
          exact ih done.1 done.2
        · rename_i stops
          rwa [if_neg stops] at done

end FixBlack

/-! ## Walks from the root -/

section Descend

/-- The way to the empty place where a walk ends, unless a value stops it. -/
def descend (side : X -> Ordering) : ColorTree X -> List (Frame X) -> Option (List (Frame X))
  | .nil, frames => some frames
  | .node color value left right, frames =>
      match side value with
      | .lt => descend side left (⟨.left, color, value, right⟩ :: frames)
      | .gt => descend side right (⟨.right, color, value, left⟩ :: frames)
      | .eq => none

variable {side : X -> Ordering} {frames path : List (Frame X)} {tree : ColorTree X}

theorem plug_descend (reached : descend side tree frames = some path) :
    plug path .nil = plug frames tree := by
  induction tree generalizing frames with
  | nil => rw [Option.some.inj reached]
  | node color value left right leftIH rightIH =>
      rw [descend] at reached
      cases turned : side value with
      | lt => exact leftIH (turned ▸ reached)
      | gt => exact rightIH (turned ▸ reached)
      | eq =>
          rw [turned] at reached
          cases reached

/-- A walk ends early exactly if a search along it succeeds. -/
theorem descend_eq_none : descend side tree frames = none <-> (search side tree.shape).isSome = true := by
  induction tree generalizing frames with
  | nil => simp [descend, shape, search]
  | node color value left right leftIH rightIH =>
      rw [descend, shape, search]
      cases side value with
      | lt => exact leftIH
      | gt => exact rightIH
      | eq => simp

/-- A value that stops the walk rejects the insertion of `SearchTree` as well. -/
theorem link_of_descend_none (new : X) (missed : descend side tree frames = none) :
    link side new tree.shape = none := by
  induction tree generalizing frames with
  | nil => cases missed
  | node color value left right leftIH rightIH =>
      rw [descend] at missed
      cases turned : side value with
      | lt =>
          rw [turned] at missed
          simp [shape, link, turned, leftIH missed]
      | gt =>
          rw [turned] at missed
          simp [shape, link, turned, rightIH missed]
      | eq => simp [shape, link, turned]

/-- A node hung at the end of a walk is the insertion of `SearchTree`. -/
theorem link_of_descend (new : X) (reached : descend side tree frames = some path) :
    Exists fun linked => link side new tree.shape = some linked.shape ∧
      plug path (.node .red new .nil .nil) = plug frames linked := by
  induction tree generalizing frames with
  | nil =>
      cases reached
      exact ⟨.node .red new .nil .nil, rfl, rfl⟩
  | node color value left right leftIH rightIH =>
      rw [descend] at reached
      cases turned : side value with
      | lt =>
          rw [turned] at reached
          rcases leftIH reached with ⟨linked, done, same⟩
          exact ⟨.node color value linked right, by simp [shape, link, turned, done], same⟩
      | gt =>
          rw [turned] at reached
          rcases rightIH reached with ⟨linked, done, same⟩
          exact ⟨.node color value left linked, by simp [shape, link, turned, done], same⟩
      | eq =>
          rw [turned] at reached
          cases reached

end Descend

/-! ## Taking a node out -/

/-- The least value of a subtree: the node that holds it, without a left child, and the
way to it. -/
structure Least (X : Type u) where
  color : Color
  value : X
  child : ColorTree X
  path : List (Frame X)

/-- Follow the left children. -/
def least (color : Color) (value : X) (right : ColorTree X) (path : List (Frame X)) :
    ColorTree X -> Least X
  | .nil => ⟨color, value, right, path⟩
  | .node below next left other => least below next other (⟨.left, color, value, right⟩ :: path) left

/-- Take out a node that has at most one child.  A child moves up and gets a color; if
there is none and the node was black, the place lacks a black node. -/
def unlink (color new : Color) (child : ColorTree X) (frames : List (Frame X)) : ColorTree X :=
  match child with
  | .nil => if color = .black then fixBlack frames .nil else plug frames .nil
  | child => plug frames (child.paint new)

/-- Take out the node at the focus.  A node with two children gives its place and its
color to the next value, whose own node is taken out. -/
def erase (color : Color) (left right : ColorTree X) (frames : List (Frame X)) : ColorTree X :=
  match left, right with
  | .nil, right => unlink color color right frames
  | left, .nil => unlink color color left frames
  | left, .node below next first other =>
      let found := least below next other [] first
      unlink found.color .black found.child
        (found.path ++ ⟨.right, color, found.value, left⟩ :: frames)

section Erase

variable {color : Color} {value : X} {right left tree : ColorTree X} {path frames : List (Frame X)}
  {count : Nat}

/-- The way to the least value opens the tree there. -/
theorem plug_least (color : Color) (value : X) (right : ColorTree X) (path : List (Frame X))
    (left : ColorTree X) :
    plug (least color value right path left).path
        (.node (least color value right path left).color (least color value right path left).value
          .nil (least color value right path left).child) =
      plug path (.node color value left right) := by
  induction left generalizing color value right path with
  | nil => rfl
  | node below next first other ih _ => exact ih below next other (⟨.left, color, value, right⟩ :: path)

/-- Nothing stands to the left of the way. -/
theorem before_least (color : Color) (value : X) (right : ColorTree X) (path : List (Frame X))
    (left : ColorTree X) :
    before (least color value right path left).path = before path := by
  induction left generalizing color value right path with
  | nil => rfl
  | node below next first other ih _ =>
      rw [least, ih]
      simp [before]

theorem length_least_le (color : Color) (value : X) (right : ColorTree X) (path : List (Frame X))
    (left : ColorTree X) :
    (least color value right path left).path.length ≤ path.length + left.height := by
  induction left generalizing color value right path with
  | nil => simp [least]
  | node below next first other ih _ =>
      have deeper := ih below next other (⟨.left, color, value, right⟩ :: path)
      simp only [least, height, List.length_cons] at deeper ⊢
      omega

/-- The way to the least value below a node ends with a step to the left. -/
theorem least_left {color : Color} {value : X} {right left : ColorTree X} {path : List (Frame X)}
    (start : Exists fun frame => Exists fun rest => path = frame :: rest ∧ frame.side = .left) :
    Exists fun frame => Exists fun rest =>
      (least color value right path left).path = frame :: rest ∧ frame.side = .left := by
  induction left generalizing color value right path with
  | nil => exact start
  | node below next first other ih _ => exact ih ⟨_, _, rfl, rfl⟩

theorem values_unlink (color new : Color) (child : ColorTree X) (frames : List (Frame X)) :
    (unlink color new child frames).values = (plug frames child).values := by
  unfold unlink
  split
  · split
    · exact values_fixBlack frames .nil
    · rfl
  · exact values_plug_congr frames (values_paint new child)

/-- Exactly the value at the focus leaves the sequence. -/
theorem values_erase (color : Color) (left right : ColorTree X) (frames : List (Frame X)) :
    (erase color left right frames).values =
      before frames ++ (left.values ++ right.values) ++ after frames := by
  unfold erase
  split
  · rw [values_unlink, values_plug]
    rfl
  · rw [values_unlink, values_plug]
    simp [values]
  · rename_i below next first other _
    have opened := congrArg ColorTree.values (plug_least below next other [] first)
    simp only [values_plug, before_least, before, plug, values] at opened
    simp only [values_unlink, plug_append, plug, values_plug, Frame.fill, join, values,
      before_least, before]
    simp only [List.nil_append, List.cons_append] at opened ⊢
    rw [← opened]

/-- The value of a frame does not matter for balance. -/
theorem Fits.rename {inner outer : List (Frame X)} {side : Side} {own hole : Color} {old : X}
    {sibling : ColorTree X} (fits : Fits (inner ++ ⟨side, own, old, sibling⟩ :: outer) hole count)
    (new : X) : Fits (inner ++ ⟨side, own, new, sibling⟩ :: outer) hole count := by
  induction inner generalizing hole count with
  | nil =>
      cases fits with
      | red balanced above => exact .red balanced above
      | black balanced above => exact .black balanced above
  | cons frame rest ih =>
      cases fits with
      | red balanced above => exact .red balanced (ih above)
      | black balanced above => exact .black balanced (ih above)

/-- A node that is taken out has a lone red child or none. -/
theorem balanced_unlink (side : Side) {own new : Color} {child : ColorTree X}
    (balanced : Balanced color count (join side own value .nil child))
    (fits : Fits frames color count) (dark : own = .black -> new = .black) :
    Exists fun more => Balanced .black more (unlink own new child frames) := by
  cases own with
  | red =>
      rcases balanced.of_join_red with ⟨rfl, empty, other⟩
      cases empty
      cases other
      exact fits.to_black.plug .nil
  | black =>
      rcases balanced.of_join_black with ⟨rfl, less, rfl, ⟨_, empty⟩, ⟨shade, other⟩⟩
      cases empty
      cases other with
      | nil => exact balanced_fixBlack fits .nil
      | red first last =>
          rw [unlink, dark rfl]
          · exact fits.plug (.black first last)
          · intro impossible
            cases impossible

/-- A red-black tree opened at the value next to a node with two children, with that value
in the frame of the node. -/
theorem Fits.of_least {below : Color} {next : X} {first other : ColorTree X}
    (balanced : Balanced .black count
      (RedBlack.plug frames (.node color value left (.node below next first other)))) :
    Exists fun shade => Exists fun here =>
      Balanced shade here (join .left (least below next other [] first).color
        (least below next other [] first).value .nil (least below next other [] first).child) ∧
      Fits ((least below next other [] first).path ++
        ⟨.right, color, (least below next other [] first).value, left⟩ :: frames) shade here := by
  have opened := plug_least below next other [] first
  rw [RedBlack.plug] at opened
  have whole : RedBlack.plug frames (.node color value left (.node below next first other)) =
      RedBlack.plug ((least below next other [] first).path ++ ⟨.right, color, value, left⟩ :: frames)
        (.node (least below next other [] first).color (least below next other [] first).value
          .nil (least below next other [] first).child) := by
    rw [plug_append, opened]
    rfl
  rw [whole] at balanced
  rcases Fits.of_plug balanced .root with ⟨shade, here, found, fits⟩
  rw [List.append_nil] at fits
  exact ⟨shade, here, found, fits.rename _⟩

/-- Taking out a node of a red-black tree gives a red-black tree. -/
theorem balanced_erase (balanced : Balanced .black count (plug frames (.node color value left right))) :
    Exists fun more => Balanced .black more (erase color left right frames) := by
  unfold erase
  split
  · rcases Fits.of_plug balanced .root with ⟨shade, here, opened, fits⟩
    rw [List.append_nil] at fits
    exact balanced_unlink .left opened fits id
  · rcases Fits.of_plug balanced .root with ⟨shade, here, opened, fits⟩
    rw [List.append_nil] at fits
    exact balanced_unlink .right opened fits id
  · rename_i below next first other _
    rcases Fits.of_least balanced with ⟨shade, here, found, fits⟩
    exact balanced_unlink .left found fits (fun _ => rfl)

end Erase

end Userfs.RedBlack
