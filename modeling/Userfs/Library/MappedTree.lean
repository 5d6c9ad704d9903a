import Mathlib.Data.List.Lattice
import Mathlib.Data.List.Nodup
import Userfs.Library.IntervalTree

namespace Userfs.SearchTree

/-!
# Search trees seen through a function

A linked tree stores the places of its values, and the values are found by looking up the
places.  Walks over the values are then walks over the places, and a change of one value
in place changes the lookup at one place, provided no place occurs twice.
-/

universe u v

variable {X : Type u} {Y : Type v} {lookup other : X -> Y} {tree : BinaryTree X}

theorem inorder_map (lookup : X -> Y) (tree : BinaryTree X) :
    inorder (tree.map lookup) = (inorder tree).map lookup := by
  induction tree with
  | nil => rfl
  | node value left right leftIH rightIH =>
      simp [BinaryTree.map, inorder, leftIH, rightIH]

theorem map_congr (same : forall value, value ∈ inorder tree -> lookup value = other value) :
    tree.map lookup = tree.map other := by
  induction tree with
  | nil => rfl
  | node value left right leftIH rightIH =>
      simp only [inorder, List.mem_append, List.mem_cons] at same
      rw [BinaryTree.map, BinaryTree.map, same value (Or.inr (Or.inl rfl)),
        leftIH (fun below member => same below (Or.inl member)),
        rightIH (fun below member => same below (Or.inr (Or.inr member)))]

theorem map_update_of_notMem [DecidableEq X] {place : X} (outside : place ∉ inorder tree) (new : Y) :
    tree.map (Function.update lookup place new) = tree.map lookup :=
  map_congr (fun _ member => Function.update_of_ne (ne_of_mem_of_not_mem member outside) _ _)

theorem search_map (side : Y -> Ordering) (lookup : X -> Y) (tree : BinaryTree X) :
    search side (tree.map lookup) = (search (fun value => side (lookup value)) tree).map lookup := by
  induction tree with
  | nil => rfl
  | node value left right leftIH rightIH =>
      rw [BinaryTree.map, search, search]
      cases side (lookup value) with
      | lt => exact leftIH
      | gt => exact rightIH
      | eq => rfl

theorem link_map (side : Y -> Ordering) (lookup : X -> Y) (new : X) (tree : BinaryTree X) :
    link side (lookup new) (tree.map lookup) =
      (link (fun value => side (lookup value)) new tree).map (BinaryTree.map lookup) := by
  induction tree with
  | nil => rfl
  | node value left right leftIH rightIH =>
      rw [BinaryTree.map, link, link]
      cases side (lookup value) with
      | lt =>
          simp only [leftIH, Option.map_map]
          rfl
      | gt =>
          simp only [rightIH, Option.map_map]
          rfl
      | eq => rfl

variable [DecidableEq X]

/-- A change in place changes the lookup at the place where the walk stops. -/
theorem adjust_map (side : Y -> Ordering) (change : Y -> Option Y) (lookup : X -> Y)
    (distinct : (inorder tree).Nodup) :
    adjust side change (tree.map lookup) =
      (search (fun value => side (lookup value)) tree).bind (fun place =>
        (change (lookup place)).map (fun new => tree.map (Function.update lookup place new))) := by
  induction tree with
  | nil => rfl
  | node value left right leftIH rightIH =>
      rw [inorder, List.nodup_append', List.nodup_cons, List.disjoint_cons_right] at distinct
      rcases distinct with ⟨leftNodup, ⟨outside, rightNodup⟩, inside, apart⟩
      rw [BinaryTree.map, adjust, search]
      cases side (lookup value) with
      | lt =>
          rw [leftIH leftNodup]
          cases found : search (fun value => side (lookup value)) left with
          | none => rfl
          | some place =>
              have member := (search_sound found).1
              have elsewhere : value ≠ place := fun same => inside (same ▸ member)
              simp only [Option.bind_some, Option.map_map]
              refine congrArg (fun build => Option.map build (change (lookup place))) (funext fun new => ?_)
              rw [BinaryTree.map, Function.update_of_ne elsewhere,
                map_update_of_notMem (fun inRight => apart member inRight)]
              rfl
      | gt =>
          rw [rightIH rightNodup]
          cases found : search (fun value => side (lookup value)) right with
          | none => rfl
          | some place =>
              have member := (search_sound found).1
              have elsewhere : value ≠ place := fun same => outside (same ▸ member)
              simp only [Option.bind_some, Option.map_map]
              refine congrArg (fun build => Option.map build (change (lookup place))) (funext fun new => ?_)
              rw [BinaryTree.map, Function.update_of_ne elsewhere,
                map_update_of_notMem (fun inLeft => apart inLeft member)]
              rfl
      | eq =>
          refine congrArg (fun build => Option.map build (change (lookup value))) (funext fun new => ?_)
          rw [BinaryTree.map, Function.update_self, map_update_of_notMem inside,
            map_update_of_notMem outside]

end Userfs.SearchTree
