import Mathlib.Data.Tree.Basic
import Mathlib.Data.List.Pairwise

namespace Userfs

/-!
# Binary search trees of disjoint intervals

The tree stores its values in in-order position and knows nothing of keys.
A walk is described by the direction each stored value sends it in: `lt` to
the left child, `gt` to the right child, `eq` stops.  Insertion, search and
in-place adjustment are three such walks.  Their laws are stated on the
in-order list, so that a rebalancing step, which only has to keep that list,
never appears in a proof about lookups.

The second half adds intervals.  A list whose intervals follow one another is
a partial map from points to values, and a directed walk computes it.
-/

namespace SearchTree

universe u

variable {X : Type u}

/-- The stored values from left to right. -/
def inorder : BinaryTree X -> List X
  | .nil => []
  | .node value left right => inorder left ++ value :: inorder right

/-- Descend from the root until a stored value stops the walk. -/
def search (side : X -> Ordering) : BinaryTree X -> Option X
  | .nil => none
  | .node value left right =>
      match side value with
      | .lt => search side left
      | .gt => search side right
      | .eq => some value

/-- Descend to the value that stops the walk and replace it, if the supplied
change applies there.  The walk does not continue below a stopping value. -/
def adjust (side : X -> Ordering) (change : X -> Option X) :
    BinaryTree X -> Option (BinaryTree X)
  | .nil => none
  | .node value left right =>
      match side value with
      | .lt => (adjust side change left).map (fun left => .node value left right)
      | .gt => (adjust side change right).map (fun right => .node value left right)
      | .eq => (change value).map (fun value => .node value left right)

/-- Descend to an empty position and hang a new value there.  A stopping
value on the way rejects the insertion. -/
def link (side : X -> Ordering) (new : X) : BinaryTree X -> Option (BinaryTree X)
  | .nil => some (.node new .nil .nil)
  | .node value left right =>
      match side value with
      | .lt => (link side new left).map (fun left => .node value left right)
      | .gt => (link side new right).map (fun right => .node value left right)
      | .eq => none

/-- A rebalancing step may rotate the tree in any way that keeps the
in-order sequence. -/
structure Rebalancing (X : Type u) where
  insertColor : BinaryTree X -> BinaryTree X
  inorder_insertColor : forall tree, inorder (insertColor tree) = inorder tree

/-- The step that does nothing.  A tree of one or two nodes is never rotated. -/
def Rebalancing.keep (X : Type u) : Rebalancing X where
  insertColor := fun tree => tree
  inorder_insertColor := fun _ => rfl

/-- Once the walk would turn left it turns left at every later value, and
once it would turn right it turned right at every earlier one. -/
def Directed (side : X -> Ordering) (values : List X) : Prop :=
  values.Pairwise (fun first second =>
    (side first = .lt -> side second = .lt) ∧ (side second = .gt -> side first = .gt))

theorem Directed.node {side : X -> Ordering} {value : X} {left right : BinaryTree X}
    (directed : Directed side (inorder (.node value left right))) :
    Directed side (inorder left) ∧ Directed side (inorder right) ∧
      (side value = .gt -> forall other, other ∈ inorder left -> side other = .gt) ∧
      (side value = .lt -> forall other, other ∈ inorder right -> side other = .lt) := by
  have parts := List.pairwise_append.mp directed
  have later := List.pairwise_cons.mp parts.2.1
  refine ⟨parts.1, later.2, ?_, ?_⟩
  · intro turned other member
    exact (parts.2.2 other member value List.mem_cons_self).2 turned
  · intro turned other member
    exact (later.1 other member).1 turned

/-- A found value is stored and stops the walk, whatever the tree's shape. -/
theorem search_sound {side : X -> Ordering} {tree : BinaryTree X} {value : X}
    (found : search side tree = some value) :
    value ∈ inorder tree ∧ side value = .eq := by
  induction tree with
  | nil => simp [search] at found
  | node root left right leftIH rightIH =>
      unfold search at found
      cases turned : side root with
      | lt =>
          rw [turned] at found
          have parts := leftIH found
          exact ⟨List.mem_append_left _ parts.1, parts.2⟩
      | gt =>
          rw [turned] at found
          have parts := rightIH found
          exact ⟨List.mem_append_right _ (List.mem_cons_of_mem _ parts.1), parts.2⟩
      | eq =>
          rw [turned] at found
          have same : root = value := Option.some.inj found
          subst same
          exact ⟨List.mem_append_right _ List.mem_cons_self, turned⟩

/-- A directed walk reaches some stopping value when there is one. -/
theorem search_complete {side : X -> Ordering} {tree : BinaryTree X} {value : X}
    (directed : Directed side (inorder tree)) (member : value ∈ inorder tree)
    (stops : side value = .eq) : (search side tree).isSome = true := by
  induction tree with
  | nil => simp [inorder] at member
  | node root left right leftIH rightIH =>
      rcases directed.node with ⟨leftDirected, rightDirected, before, after⟩
      have member := List.mem_append.mp member
      unfold search
      cases turned : side root with
      | eq => rfl
      | lt =>
          rcases member with inLeft | inRest
          · exact leftIH leftDirected inLeft
          · rcases List.mem_cons.mp inRest with same | inRight
            · rw [same, turned] at stops
              cases stops
            · rw [after turned value inRight] at stops
              cases stops
      | gt =>
          rcases member with inLeft | inRest
          · rw [before turned value inLeft] at stops
            cases stops
          · rcases List.mem_cons.mp inRest with same | inRight
            · rw [same, turned] at stops
              cases stops
            · exact rightIH rightDirected inRight

/-- An adjustment changes one stored value in place. -/
theorem adjust_inorder {side : X -> Ordering} {change : X -> Option X}
    {tree adjusted : BinaryTree X} (done : adjust side change tree = some adjusted) :
    Exists fun before => Exists fun old => Exists fun new => Exists fun after =>
      inorder tree = before ++ old :: after ∧ inorder adjusted = before ++ new :: after ∧
        side old = .eq ∧ change old = some new := by
  induction tree generalizing adjusted with
  | nil => simp [adjust] at done
  | node root left right leftIH rightIH =>
      unfold adjust at done
      cases turned : side root with
      | lt =>
          rw [turned] at done
          rcases Option.map_eq_some_iff.mp done with ⟨smaller, inner, same⟩
          rcases leftIH inner with ⟨before, old, new, after, first, second, stops, applied⟩
          subst same
          exact ⟨before, old, new, after ++ root :: inorder right, by simp [inorder, first],
            by simp [inorder, second], stops, applied⟩
      | gt =>
          rw [turned] at done
          rcases Option.map_eq_some_iff.mp done with ⟨smaller, inner, same⟩
          rcases rightIH inner with ⟨before, old, new, after, first, second, stops, applied⟩
          subst same
          exact ⟨inorder left ++ root :: before, old, new, after, by simp [inorder, first],
            by simp [inorder, second], stops, applied⟩
      | eq =>
          rw [turned] at done
          rcases Option.map_eq_some_iff.mp done with ⟨new, applied, same⟩
          subst same
          exact ⟨inorder left, root, new, inorder right, rfl, rfl, turned, applied⟩

/-- An adjustment reaches the value at which the search stops. -/
theorem adjust_of_search {side : X -> Ordering} {change : X -> Option X} {tree : BinaryTree X}
    {old new : X} (found : search side tree = some old) (applied : change old = some new) :
    Exists fun adjusted => adjust side change tree = some adjusted := by
  induction tree with
  | nil => cases found
  | node root left right leftIH rightIH =>
      unfold search at found
      unfold adjust
      cases turned : side root with
      | lt =>
          rw [turned] at found
          rcases leftIH found with ⟨adjusted, done⟩
          exact ⟨_, by rw [done]; rfl⟩
      | gt =>
          rw [turned] at found
          rcases rightIH found with ⟨adjusted, done⟩
          exact ⟨_, by rw [done]; rfl⟩
      | eq =>
          rw [turned] at found
          rw [Option.some.inj found, applied]
          exact ⟨_, rfl⟩

/-- A directed insertion that meets no stopping value succeeds, and puts the
new value between those it lies right of and those it lies left of. -/
theorem link_inorder {side : X -> Ordering} (new : X) {tree : BinaryTree X}
    (directed : Directed side (inorder tree))
    (clear : forall value, value ∈ inorder tree -> side value ≠ .eq) :
    Exists fun linked => Exists fun before => Exists fun after =>
      link side new tree = some linked ∧ inorder tree = before ++ after ∧
        inorder linked = before ++ new :: after ∧
        (forall value, value ∈ before -> side value = .gt) ∧
        (forall value, value ∈ after -> side value = .lt) := by
  induction tree with
  | nil => exact ⟨.node new .nil .nil, [], [], rfl, rfl, rfl, by simp, by simp⟩
  | node root left right leftIH rightIH =>
      rcases directed.node with ⟨leftDirected, rightDirected, earlier, later⟩
      cases turned : side root with
      | eq =>
          exact absurd turned (clear root (List.mem_append_right _ List.mem_cons_self))
      | lt =>
          rcases leftIH leftDirected (fun value member =>
              clear value (List.mem_append_left _ member)) with
            ⟨linked, before, after, done, first, second, isBefore, isAfter⟩
          refine ⟨.node root linked right, before, after ++ root :: inorder right, ?_, ?_, ?_,
            isBefore, ?_⟩
          · simp [link, turned, done]
          · simp [inorder, first]
          · simp [inorder, second]
          · intro value member
            rcases List.mem_append.mp member with inAfter | inRest
            · exact isAfter value inAfter
            · rcases List.mem_cons.mp inRest with same | inRight
              · rw [same]
                exact turned
              · exact later turned value inRight
      | gt =>
          rcases rightIH rightDirected (fun value member =>
              clear value (List.mem_append_right _ (List.mem_cons_of_mem _ member))) with
            ⟨linked, before, after, done, first, second, isBefore, isAfter⟩
          refine ⟨.node root left linked, inorder left ++ root :: before, after, ?_, ?_, ?_, ?_,
            isAfter⟩
          · simp [link, turned, done]
          · simp [inorder, first]
          · simp [inorder, second]
          · intro value member
            rcases List.mem_append.mp member with inLeft | inRest
            · exact earlier turned value inLeft
            · rcases List.mem_cons.mp inRest with same | inBefore
              · rw [same]
                exact turned
              · exact isBefore value inBefore

/-- An insertion is rejected by the value that a search on the same way finds. -/
theorem link_eq_none_iff {side : X -> Ordering} {new : X} {tree : BinaryTree X} :
    link side new tree = none <-> (search side tree).isSome = true := by
  induction tree with
  | nil => simp only [link, search, reduceCtorEq, Option.isSome_none, Bool.false_eq_true]
  | node root left right leftIH rightIH =>
      unfold link search
      cases side root with
      | lt => exact Option.map_eq_none_iff.trans leftIH
      | gt => exact Option.map_eq_none_iff.trans rightIH
      | eq => simp only [Option.isSome_some]

/-- A successful insertion adds the new value somewhere in the sequence. -/
theorem link_eq_some {side : X -> Ordering} {new : X} {tree linked : BinaryTree X}
    (done : link side new tree = some linked) :
    Exists fun before => Exists fun after =>
      inorder tree = before ++ after ∧ inorder linked = before ++ new :: after := by
  induction tree generalizing linked with
  | nil =>
      cases done
      exact ⟨[], [], rfl, rfl⟩
  | node root left right leftIH rightIH =>
      unfold link at done
      cases turned : side root with
      | lt =>
          rw [turned] at done
          rcases Option.map_eq_some_iff.mp done with ⟨inner, applied, same⟩
          rcases leftIH applied with ⟨before, after, first, second⟩
          subst same
          exact ⟨before, after ++ root :: inorder right, by simp [inorder, first],
            by simp [inorder, second]⟩
      | gt =>
          rw [turned] at done
          rcases Option.map_eq_some_iff.mp done with ⟨inner, applied, same⟩
          rcases rightIH applied with ⟨before, after, first, second⟩
          subst same
          exact ⟨inorder left ++ root :: before, after, by simp [inorder, first],
            by simp [inorder, second]⟩
      | eq =>
          rw [turned] at done
          exact nomatch done

end SearchTree

/-! ## Intervals that follow one another -/

namespace Interval

universe u

variable {X : Type u} (lower upper : X -> Nat)

/-- A half-open interval covers its lower end and not its upper end. -/
def Covers (value : X) (point : Nat) : Prop :=
  lower value ≤ point ∧ point < upper value

instance (value : X) (point : Nat) : Decidable (Covers lower upper value point) :=
  inferInstanceAs (Decidable (_ ∧ _))

/-- Two intervals share no point. -/
def Disjoint (first second : X) : Prop :=
  forall point, Covers lower upper first point -> ¬ Covers lower upper second point

/-- Nonempty intervals, each ending before the next one starts. -/
structure Separated (values : List X) : Prop where
  nonempty : forall value, value ∈ values -> lower value < upper value
  ordered : values.Pairwise (fun first second => upper first ≤ lower second)

variable {lower upper}

theorem Disjoint.symm {first second : X} (disjoint : Disjoint lower upper first second) :
    Disjoint lower upper second first :=
  fun point inSecond inFirst => disjoint point inFirst inSecond

instance : Std.Symm (Disjoint lower upper) :=
  ⟨fun _ _ disjoint => disjoint.symm⟩

/-- Of two disjoint nonempty intervals, the one that starts first ends first. -/
theorem Disjoint.upper_le_lower {first second : X} (disjoint : Disjoint lower upper first second)
    (nonempty : lower second < upper second) (before : lower first ≤ lower second) :
    upper first ≤ lower second := by
  by_cases overlap : lower second < upper first
  · exact absurd ⟨Nat.le_refl _, nonempty⟩ (disjoint (lower second) ⟨before, overlap⟩)
  · exact Nat.le_of_not_lt overlap

/-- Sorting by the lower ends puts disjoint intervals one after another. -/
theorem Separated.of_sorted {values : List X}
    (nonempty : forall value, value ∈ values -> lower value < upper value)
    (sorted : values.Pairwise (fun first second => lower first < lower second))
    (disjoint : values.Pairwise (Disjoint lower upper)) : Separated lower upper values := by
  refine ⟨nonempty, ?_⟩
  have both := sorted.and disjoint
  refine List.Pairwise.imp_of_mem ?_ both
  intro first second _ secondMember pair
  exact pair.2.upper_le_lower (nonempty second secondMember) (Nat.le_of_lt pair.1)

theorem Separated.sorted {values : List X} (separated : Separated lower upper values) :
    values.Pairwise (fun first second => lower first < lower second) := by
  refine List.Pairwise.imp_of_mem ?_ separated.ordered
  intro first second firstMember _ ends
  exact Nat.lt_of_lt_of_le (separated.nonempty first firstMember) ends

theorem Separated.disjoint {values : List X} (separated : Separated lower upper values) :
    values.Pairwise (Disjoint lower upper) := by
  refine separated.ordered.imp ?_
  intro first second ends point inFirst inSecond
  exact Nat.lt_irrefl point
    (Nat.lt_of_lt_of_le inFirst.2 (Nat.le_trans ends inSecond.1))

/-- At most one interval of a separated list covers a point. -/
theorem Separated.unique {values : List X} (separated : Separated lower upper values)
    {first second : X} (firstMember : first ∈ values) (secondMember : second ∈ values)
    {point : Nat} (inFirst : Covers lower upper first point)
    (inSecond : Covers lower upper second point) : first = second := by
  by_contra different
  have apart := separated.disjoint.forall firstMember secondMember different
  exact apart point inFirst inSecond

/-- The interval in the middle occurs only there. -/
theorem Separated.ne_of_mem {before after : List X} {old other : X}
    (separated : Separated lower upper (before ++ old :: after)) (member : other ∈ before ++ after) :
    other ≠ old := by
  have order := List.pairwise_append.mp separated.sorted
  rintro rfl
  rcases List.mem_append.mp member with early | late
  · exact Nat.lt_irrefl _ (order.2.2 other early other List.mem_cons_self)
  · exact Nat.lt_irrefl _ ((List.pairwise_cons.mp order.2.1).1 other late)

/-- A new interval that fits between two halves keeps the list separated. -/
theorem Separated.insert {before after : List X} {new : X}
    (separated : Separated lower upper (before ++ after))
    (nonempty : lower new < upper new)
    (afterBefore : forall value, value ∈ before -> upper value ≤ lower new)
    (beforeAfter : forall value, value ∈ after -> upper new ≤ lower value) :
    Separated lower upper (before ++ new :: after) := by
  have parts := List.pairwise_append.mp separated.ordered
  constructor
  · intro value member
    rcases List.mem_append.mp member with inBefore | inRest
    · exact separated.nonempty value (List.mem_append_left _ inBefore)
    · rcases List.mem_cons.mp inRest with same | inAfter
      · exact same ▸ nonempty
      · exact separated.nonempty value (List.mem_append_right _ inAfter)
  · refine List.pairwise_append.mpr ⟨parts.1, List.pairwise_cons.mpr ⟨beforeAfter, parts.2.1⟩, ?_⟩
    intro value inBefore other inRest
    rcases List.mem_cons.mp inRest with same | inAfter
    · exact same ▸ afterBefore value inBefore
    · exact parts.2.2 value inBefore other inAfter

/-- Removing one interval keeps the list separated. -/
theorem Separated.remove {before after : List X} {old : X}
    (separated : Separated lower upper (before ++ old :: after)) :
    Separated lower upper (before ++ after) where
  nonempty := fun value member => separated.nonempty value (by
    rcases List.mem_append.mp member with inBefore | inAfter
    · exact List.mem_append_left _ inBefore
    · exact List.mem_append_right _ (List.mem_cons_of_mem _ inAfter))
  ordered := separated.ordered.sublist
    ((List.Sublist.refl before).append (List.sublist_cons_self old after))

end Interval

end Userfs
