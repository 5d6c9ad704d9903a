import Mathlib.Order.Lattice
import Userfs.Ds.RbErase
import Userfs.Ds.RbInsert
import Userfs.Library.Refinement

namespace Userfs.Ds

open RedBlack SearchTree

/-!
# The red-black tree as an ordered collection

Nodes carry keys of a linear order and a caller inserts and erases nodes in any order.
The machine below keeps the linked nodes in a list sorted by key.  Memory refines it: the
tree that is linked in memory lists exactly these nodes, `rb_insert` refuses exactly the
nodes whose key is present, and the tree stays balanced, so that every walk is short.
-/

section Ordered

variable {K : Type} [LinearOrder K] (key : Nat -> K)

/-- The calls of `rb_insert` and `rb_erase`. -/
inductive RbCommand where
  | insert (node : Nat)
  | erase (node : Nat)
deriving DecidableEq, Repr

/-- A comparator that orders nodes by their keys. -/
def keyCmp (first second : Nat) : Ordering :=
  compare (key first) (key second)

def RbCommand.execute (fuel : Nat) : RbCommand -> Rb Int
  | .insert node => rbInsert fuel (keyCmp key) node
  | .erase node => do
      rbErase fuel node
      pure 0

/-- The sorted list of linked nodes after a command, and the answer. -/
def orderedStep : RbCommand -> List Nat -> List Nat × Int
  | .insert node, linked =>
      if linked.any (fun other => key other = key node) then (linked, -17)
      else (linked.filter (fun other => key other < key node) ++
        node :: linked.filter (fun other => key node < key other), 0)
  | .erase node, linked => (linked.erase node, 0)

/-- A node may be inserted if it is not linked and there is room, and erased if it is
linked. -/
def orderedLegal (capacity : Nat) : RbCommand -> List Nat -> Prop
  | .insert node, linked => Aligned node ∧ node ∉ linked ∧ linked.length < capacity
  | .erase node, linked => node ∈ linked

def orderedMachine (capacity : Nat) : Machine (List Nat) RbCommand Int where
  step := orderedStep key
  legal := orderedLegal capacity

/-- Memory keeps the listed nodes, sorted by key, in a red-black tree. -/
structure KeepsSorted (capacity : Nat) (memory : RbMemory) (linked : List Nat) : Prop where
  tree : Exists fun tree => Exists fun count =>
    Holds memory [] tree ∧ Balanced .black count tree ∧ tree.values = linked
  sorted : linked.Pairwise (fun first second => key first < key second)
  room : linked.length ≤ capacity

variable {key} {linked : List Nat} {memory : RbMemory} {node capacity fuel : Nat}

/-- The walk for a key is directed along a sorted list. -/
theorem keyCmp_directed (node : Nat)
    (sorted : linked.Pairwise (fun first second => key first < key second)) :
    Directed (keyCmp key node) linked := by
  refine sorted.imp (fun {first second} less => ?_)
  unfold keyCmp
  rw [compare_lt_iff_lt, compare_lt_iff_lt, compare_gt_iff_gt, compare_gt_iff_gt]
  exact ⟨fun before => lt_trans before less, fun behind => lt_trans less behind⟩

/-- Two parts of a list that lie on the two sides of a key. -/
theorem filter_sides {before after : List Nat}
    (smaller : forall value, value ∈ before -> keyCmp key node value = .gt)
    (larger : forall value, value ∈ after -> keyCmp key node value = .lt) :
    (before ++ after).filter (fun other => key other < key node) = before ∧
      (before ++ after).filter (fun other => key node < key other) = after := by
  have less : forall value, value ∈ before -> key value < key node :=
    fun value member => compare_gt_iff_gt.mp (smaller value member)
  have more : forall value, value ∈ after -> key node < key value :=
    fun value member => compare_lt_iff_lt.mp (larger value member)
  constructor
  · rw [List.filter_append, List.filter_eq_self.mpr (fun value member => decide_eq_true (less value member)),
      List.filter_eq_nil_iff.mpr, List.append_nil]
    exact fun value member => by simpa using le_of_lt (more value member)
  · rw [List.filter_append, List.filter_eq_nil_iff.mpr, List.nil_append,
      List.filter_eq_self.mpr (fun value member => decide_eq_true (more value member))]
    exact fun value member => by simpa using le_of_lt (less value member)

/-- The new list is sorted. -/
theorem sorted_sides (sorted : linked.Pairwise (fun first second => key first < key second)) :
    (linked.filter (fun other => key other < key node) ++
      node :: linked.filter (fun other => key node < key other)).Pairwise
        (fun first second => key first < key second) := by
  refine List.pairwise_append.mpr ⟨sorted.filter _, List.pairwise_cons.mpr ⟨?_, sorted.filter _⟩, ?_⟩
  · intro other member
    simpa using (List.mem_filter.mp member).2
  · intro first member second behind
    have less : key first < key node := by simpa using (List.mem_filter.mp member).2
    rcases List.mem_cons.mp behind with rfl | larger
    · exact less
    · exact lt_trans less (by simpa using (List.mem_filter.mp larger).2)

/-- The budget is larger than the height of the tree. -/
theorem height_lt {tree : ColorTree Nat} {count : Nat} (balanced : Balanced .black count tree)
    (room : tree.values.length ≤ capacity) (enough : 2 * Nat.log 2 (capacity + 1) < fuel) :
    tree.height < fuel := by
  have bound := balanced.height_le_log
  have wider : Nat.log 2 (tree.values.length + 1) ≤ Nat.log 2 (capacity + 1) :=
    Nat.log_mono_right (by omega)
  omega

theorem refines_insert (enough : 2 * Nat.log 2 (capacity + 1) < fuel)
    (keeps : KeepsSorted key capacity memory linked) (aligned : Aligned node) (fresh : node ∉ linked)
    (room : linked.length < capacity) :
    Ensures (rbInsert fuel (keyCmp key) node) memory
      (fun answer next => answer = (orderedStep key (.insert node) linked).2 ∧
        KeepsSorted key capacity next (orderedStep key (.insert node) linked).1)
      (fun _ _ => False) := by
  rcases keeps with ⟨⟨tree, count, holds, balanced, rfl⟩, sorted, bound⟩
  have directed := keyCmp_directed node sorted
  rw [← ColorTree.inorder_shape] at directed
  refine (ensures_rbInsert balanced holds aligned fresh (height_lt balanced bound enough)).mono ?_
    (fun _ _ impossible => impossible)
  rintro answer next (⟨stopped, rfl, rfl⟩ | ⟨path, reached, rfl, -, done⟩)
  · -- a node on the way has the same key
    rcases Option.isSome_iff_exists.mp (descend_eq_none.mp stopped) with ⟨other, found⟩
    have sound := search_sound found
    rw [ColorTree.inorder_shape] at sound
    have present : tree.values.any (fun other => key other = key node) = true := by
      refine List.any_eq_true.mpr ⟨other, sound.1, ?_⟩
      simpa using (compare_eq_iff_eq.mp sound.2).symm
    rw [orderedStep, if_pos present]
    exact ⟨rfl, ⟨tree, count, holds, balanced, rfl⟩, sorted, bound⟩
  · have clear : forall other, other ∈ inorder tree.shape -> keyCmp key node other ≠ .eq := by
      intro other member equal
      have found := search_complete directed member equal
      rw [descend_eq_none.mpr found] at reached
      cases reached
    have absent : ¬ tree.values.any (fun other => key other = key node) = true := by
      intro present
      rcases List.any_eq_true.mp present with ⟨other, member, equal⟩
      rw [← ColorTree.inorder_shape] at member
      exact clear other member (compare_eq_iff_eq.mpr (Eq.symm (by simpa using equal)))
    rcases link_inorder node directed clear with ⟨_, before, after, hung, apart, placed, smaller, larger⟩
    rcases link_of_descend node reached with ⟨linked, same, whole⟩
    rw [same] at hung
    cases hung
    have sequence : (fixRed path (.node .red node .nil .nil)).values = before ++ node :: after := by
      rw [values_fixRed, whole, plug, ← ColorTree.inorder_shape, placed]
    rw [ColorTree.inorder_shape] at apart
    rcases filter_sides smaller larger with ⟨first, second⟩
    rw [← apart] at first second
    have opened : plug path .nil = tree := plug_descend reached
    rcases balanced_insert (opened.symm ▸ balanced) node with ⟨more, restored⟩
    rw [orderedStep, if_neg absent]
    refine ⟨rfl, ⟨_, more, done, restored, ?_⟩, sorted_sides sorted, ?_⟩
    · rw [sequence, first, second]
    · have length := congrArg List.length apart
      rw [first, second]
      simp only [List.length_append, List.length_cons] at length ⊢
      omega

theorem refines_erase (enough : 2 * Nat.log 2 (capacity + 1) < fuel)
    (keeps : KeepsSorted key capacity memory linked) (member : node ∈ linked) :
    Ensures (rbErase fuel node) memory
      (fun _ next => KeepsSorted key capacity next (linked.erase node)) (fun _ _ => False) := by
  rcases keeps with ⟨⟨tree, count, holds, balanced, rfl⟩, sorted, bound⟩
  have short := height_lt balanced bound enough
  have kept := sorted.sublist (List.erase_sublist (a := node))
  rcases exists_plug member with ⟨frames, color, left, right, rfl⟩
  rcases balanced_erase balanced with ⟨more, restored⟩
  refine (ensures_rbErase balanced (holds_plug.mpr holds) (Nat.le_of_lt short)).mono ?_
    (fun _ _ impossible => impossible)
  rintro _ next ⟨-, done⟩
  refine ⟨⟨_, more, done, restored, ?_⟩, kept, Nat.le_trans (List.erase_sublist).length_le bound⟩
  have distinct : (plug frames (.node color node left right)).values.Nodup :=
    (List.nodup_append'.mp holds.distinct).1
  have split : (plug frames (.node color node left right)).values =
      (before frames ++ left.values) ++ node :: (right.values ++ after frames) := by
    rw [values_plug, ColorTree.values]
    simp only [List.append_assoc, List.cons_append]
  rw [split] at distinct ⊢
  have outside : node ∉ before frames ++ left.values :=
    fun inside => (List.nodup_append'.mp distinct).2.2 inside List.mem_cons_self
  rw [values_erase, List.erase_append_right _ outside, List.erase_cons_head]
  simp only [List.append_assoc]

/-- Memory refines the sorted list. -/
theorem refines_ordered (enough : 2 * Nat.log 2 (capacity + 1) < fuel) :
    Refines (orderedMachine key capacity) (RbCommand.execute key fuel) (KeepsSorted key capacity) := by
  rintro command memory linked keeps legal
  cases command with
  | insert node => exact refines_insert enough keeps legal.1 legal.2.1 legal.2.2
  | erase node =>
      unfold RbCommand.execute
      rw [Ensures.bind_iff]
      refine (refines_erase enough keeps legal).mono ?_ (fun _ _ impossible => impossible)
      exact fun _ next kept => Ensures.pure_iff.mpr ⟨rfl, kept⟩

/-- Any run of `rb_insert` and `rb_erase` from the empty root answers as the sorted list
does and leaves it linked in memory as a red-black tree whose height is logarithmic. -/
theorem rbtree_run_sorted (enough : 2 * Nat.log 2 (capacity + 1) < fuel) (empty : memory.root = 0)
    {commands : List RbCommand} (legal : (orderedMachine key capacity).Legal commands []) :
    Ensures (runAnswers (RbCommand.execute key fuel) commands) memory
      (fun answers last => answers = ((orderedMachine key capacity).run commands []).2 ∧
        ((orderedMachine key capacity).run commands []).1.Pairwise
          (fun first second => key first < key second) ∧
        Exists fun tree => Exists fun count => Holds last [] tree ∧ Balanced .black count tree ∧
          tree.values = ((orderedMachine key capacity).run commands []).1 ∧
          tree.height ≤ 2 * Nat.log 2 (tree.values.length + 1))
      (fun _ _ => False) := by
  have start : KeepsSorted key capacity memory [] := by
    refine ⟨⟨.nil, 0, ⟨trivial, empty, List.nodup_nil⟩, .nil, rfl⟩, List.Pairwise.nil, Nat.zero_le _⟩
  refine ((refines_ordered enough).runAnswers start legal).mono ?_ (fun _ _ impossible => impossible)
  rintro answers last ⟨agree, ⟨tree, count, holds, balanced, values⟩, sorted, -⟩
  exact ⟨agree, sorted, tree, count, holds, balanced, values, balanced.height_le_log⟩

end Ordered

/-- Four insertions, one of them refused, and an erasure. -/
theorem rbtree_run_sorted_four_nodes :
    Ensures (runAnswers (RbCommand.execute (fun node => node % 16) 8)
        [.insert 4, .insert 8, .insert 20, .insert 12, .erase 8]) ⟨fun _ => ⟨0, 0, 0⟩, 0⟩
      (fun answers last => answers = [0, 0, -17, 0, 0] ∧
        Exists fun tree => Holds last [] tree ∧ tree.values = [4, 12])
      (fun _ _ => False) := by
  have enough : 2 * Nat.log 2 (4 + 1) < 8 := by
    have small : Nat.log 2 (4 + 1) < 3 := Nat.log_lt_of_lt_pow (by decide) (by decide)
    omega
  have run := @rbtree_run_sorted Nat _ (fun node => node % 16) ⟨fun _ => ⟨0, 0, 0⟩, 0⟩ 4 8 enough rfl
    [.insert 4, .insert 8, .insert 20, .insert 12, .erase 8] (by
      simp [Machine.Legal, orderedMachine, orderedLegal, orderedStep, Aligned])
  refine run.mono ?_ (fun _ _ impossible => impossible)
  rintro answers last ⟨agree, -, tree, -, holds, -, values, -⟩
  exact ⟨agree, tree, holds, values⟩

end Userfs.Ds
