import Userfs.Ds.RbErase

namespace Userfs.Ds

open RedBlack

/-!
# Iteration over the red-black tree

`rb_next` and `rb_prev` find the neighbour of a node without a stack, through the parent
words.  Both are one function of the direction here, as are `rb_first` and `rb_last`.

`block_clear` erases every node in a loop that steps on from the node it has just erased.
That works because `rb_erase` leaves the record of the erased node as it was: the node
was the first one, and what its record names as right child or parent is the first node
of the tree that remains.
-/

/-! ## The source -/

/-- Follow the children on a side to the last node. -/
def rbExtreme (side : Side) : Nat -> Nat -> Rb Nat
  | 0, _ => throw .outOfFuel
  | fuel + 1, node => do
      let content ← loadNode node
      if content.child side = 0 then pure node else rbExtreme side fuel (content.child side)

/-- The end of the tree on a side. -/
def rbEnd (side : Side) (fuel : Nat) : Rb Nat := do
  let memory ← get
  if memory.root = 0 then pure 0 else rbExtreme side fuel memory.root

def rbFirst (fuel : Nat) : Rb Nat :=
  rbEnd .left fuel

def rbLast (fuel : Nat) : Rb Nat :=
  rbEnd .right fuel

/-- Go up while the node is the child on a side, and once more. -/
def rbClimb (side : Side) : Nat -> Nat -> Rb Nat
  | 0, _ => throw .outOfFuel
  | fuel + 1, node => do
      let content ← loadNode node
      let parent := rbParent content.parentColor
      if parent = 0 then pure 0
      else do
        let above ← loadNode parent
        if node = above.child side then rbClimb side fuel parent else pure parent

/-- The neighbour of a node towards a side.  A node that is its own parent is in no tree. -/
def rbNeighbour (side : Side) (fuel node : Nat) : Rb Nat := do
  let content ← loadNode node
  if content.parentColor = node then pure 0
  else if content.child side ≠ 0 then rbExtreme side.other fuel (content.child side)
  else rbClimb side fuel node

def rbNext (fuel node : Nat) : Rb Nat :=
  rbNeighbour .right fuel node

def rbPrev (fuel node : Nat) : Rb Nat :=
  rbNeighbour .left fuel node

/-- The nodes that a loop visits which steps on until it meets `NULL`. -/
def visited (step : Nat -> Rb Nat) : Nat -> Nat -> Rb (List Nat)
  | 0, _ => throw .outOfFuel
  | rounds + 1, node =>
      if node = 0 then pure []
      else do
        let next ← step node
        let rest ← visited step rounds next
        pure (node :: rest)

/-- The loop of `block_clear`. -/
def clearFrom (fuel : Nat) : Nat -> Nat -> Rb PUnit
  | 0, _ => throw .outOfFuel
  | rounds + 1, node =>
      if node = 0 then pure PUnit.unit
      else do
        rbErase fuel node
        let next ← rbNext fuel node
        clearFrom fuel rounds next

def blockClear (fuel rounds : Nat) : Rb PUnit := do
  let first ← rbFirst fuel
  clearFrom fuel rounds first

/-! ## Neighbours -/

section Iteration

variable {memory : RbMemory} {tree near far : ColorTree Nat} {frames : List (Frame Nat)} {side : Side}
  {fuel node count parent : Nat} {color : Color} {failed : Fault -> RbMemory -> Prop}

theorem inOrder_ne_nil (present : tree ≠ .nil) (side : Side) : inOrder side tree ≠ [] := by
  cases tree with
  | nil => exact absurd rfl present
  | node color value left right => cases side <;> simp [inOrder, ColorTree.values]

/-- Following one side leads to the first node of a walk towards the other side. -/
theorem ensures_rbExtreme {done : Nat -> RbMemory -> Prop} (stored : Stored memory.node parent tree)
    (present : tree ≠ .nil) (enough : tree.height ≤ fuel) :
    Ensures (rbExtreme side fuel (address tree)) memory done failed <->
      done ((inOrder side.other tree).headD 0) memory := by
  induction fuel generalizing tree parent with
  | zero =>
      rcases exists_join present side with ⟨color, value, near, far, rfl⟩
      rw [height_join] at enough
      omega
  | succ fuel ih =>
      rcases exists_join present side with ⟨color, value, near, far, rfl⟩
      rcases stored_join.mp stored with ⟨aligned, found, nearStored, -⟩
      have seen : inOrder side.other (join side color value near far) =
          inOrder side.other near ++ value :: inOrder side.other far := by
        have turned := inOrder_join_other side.other color value near far
        rwa [Side.other_other] at turned
      rw [height_join] at enough
      rw [rbExtreme, address_join, Ensures.bind_iff, ensures_loadNode aligned.1, found, child_record, seen]
      cases near with
      | nil => simp [address]
      | node own top left right =>
          have valid : address (.node own top left right) ≠ 0 := nearStored.1.1
          have deeper : ColorTree.node own top left right ≠ .nil := by simp
          rw [if_neg valid, ih nearStored deeper (by omega)]
          cases first : inOrder side.other (.node own top left right) with
          | nil => exact absurd first (inOrder_ne_nil deeper _)
          | cons head rest => rfl

/-- Going up leads to the first node beyond the subtree. -/
theorem ensures_rbClimb {done : Nat -> RbMemory -> Prop} (holds : Holds memory frames tree)
    (present : tree ≠ .nil) (enough : frames.length < fuel) :
    Ensures (rbClimb side fuel (address tree)) memory done failed <->
      done ((beyond side frames).headD 0) memory := by
  induction fuel generalizing frames tree with
  | zero => exact absurd enough (Nat.not_lt_zero _)
  | succ fuel ih =>
      rcases exists_join present .left with ⟨color, value, left, right, rfl⟩
      rcases stored_join.mp holds.stored with ⟨aligned, found, -, -⟩
      rw [address_join, rbClimb, Ensures.bind_iff, ensures_loadNode aligned.1, found,
        record_parentColor, rbParent_packed holds.above.parentOf_aligned]
      cases frames with
      | nil =>
          rw [parentOf, if_pos rfl, Ensures.pure_iff]
          rfl
      | cons frame rest =>
          have distinct := holds.distinct
          rcases holds.above with ⟨above, record, sibling, higher⟩
          simp only [context_cons, List.nodup_append', List.disjoint_cons_right,
            List.disjoint_append_right] at distinct
          have apart := address_ne distinct.2.2.2.1 holds.stored present
          rw [address_join] at apart record
          have valid : parentOf (frame :: rest) ≠ 0 := above.1
          rw [if_neg valid, Ensures.bind_iff, ensures_loadNode valid, parentOf, record, beyond]
          by_cases same : frame.side = side
          · rw [← same, child_record, if_pos rfl, if_pos rfl]
            have up := ih (holds_cons.mp holds) (join_ne_nil _ _ _ _ _) (by simpa using enough)
            rw [Frame.fill, address_join] at up
            rw [same]
            exact up
          · rw [if_neg same, Side.eq_other_of_ne (Ne.symm same), child_other_record, if_neg apart]
            exact Ensures.pure_iff

/-- A linked node is not its own parent. -/
theorem parentColor_ne (holds : Holds memory frames (join side color node near far)) :
    packed (parentOf frames) color ≠ node := by
  rcases stored_join.mp holds.stored with ⟨aligned, -, -, -⟩
  have lined := holds.above.parentOf_aligned
  rw [packed_eq lined]
  cases color with
  | red =>
      have inside : node ∈ (join side .red node near far).values :=
        (values_join_perm side .red node near far).mem_iff.mpr (by simp)
      have outside : node ∉ context frames :=
        fun member => (List.nodup_append'.mp holds.distinct).2.2 inside member
      simpa [colorBit] using Ne.symm (ne_parentOf aligned.1 outside)
  | black =>
      have even := aligned.2
      simp only [colorBit]
      omega

/-- The neighbour towards a side is the first node beyond. -/
theorem ensures_rbNeighbour {done : Nat -> RbMemory -> Prop}
    (holds : Holds memory frames (join side color node near far)) (enough : frames.length < fuel)
    (deep : near.height ≤ fuel) :
    Ensures (rbNeighbour side fuel node) memory done failed <->
      done ((inOrder side near ++ beyond side frames).headD 0) memory := by
  have linked := parentColor_ne holds
  rcases stored_join.mp holds.stored with ⟨aligned, found, nearStored, -⟩
  unfold rbNeighbour
  rw [Ensures.bind_iff, ensures_loadNode aligned.1, found, record_parentColor, if_neg linked, child_record]
  cases near with
  | nil =>
      rw [address, if_neg (not_not.mpr rfl), inOrder_nil, List.nil_append]
      have climb : Ensures (rbClimb side fuel (address (join side color node .nil far))) memory done
          failed <-> _ := ensures_rbClimb holds (join_ne_nil _ _ _ _ _) enough
      rwa [address_join] at climb
  | node own top left right =>
      have valid : address (.node own top left right) ≠ 0 := nearStored.1.1
      have deeper : ColorTree.node own top left right ≠ .nil := by simp
      rw [if_pos valid, ensures_rbExtreme nearStored deeper deep, Side.other_other]
      cases first : inOrder side (.node own top left right) with
      | nil => exact absurd first (inOrder_ne_nil deeper _)
      | cons head rest => rfl

/-! ## Loops over all nodes -/

theorem inOrder_mem {value : Nat} (side : Side) : value ∈ inOrder side tree <-> value ∈ tree.values := by
  cases side <;> simp [inOrder]

theorem inOrder_nodup (side : Side) (distinct : tree.values.Nodup) : (inOrder side tree).Nodup := by
  cases side with
  | left => exact List.nodup_reverse.mpr distinct
  | right => exact distinct

/-- The neighbour of a node comes next in the order of the walk. -/
theorem ensures_neighbour_in_order {behind ahead : List Nat} {done : Nat -> RbMemory -> Prop}
    (holds : Holds memory [] tree) (split : inOrder side tree = behind ++ node :: ahead)
    (deep : tree.height ≤ fuel) :
    Ensures (rbNeighbour side fuel node) memory done failed <-> done (ahead.headD 0) memory := by
  have distinct := inOrder_nodup side (List.nodup_append'.mp holds.distinct).1
  have member : node ∈ tree.values := by
    rw [← inOrder_mem side, split]
    simp
  rcases exists_plug member with ⟨frames, color, left, right, rfl⟩
  rw [node_eq_join side] at holds split distinct deep
  rcases inOrder_plug side frames with ⟨earlier, law⟩
  rw [law, inOrder_join, List.append_assoc, List.cons_append, ← List.append_assoc] at split distinct
  have parts := List.nodup_append'.mp distinct
  have once := List.nodup_cons.mp parts.2.1
  have same := (List.append_cons_inj_of_notMem
    (fun inside => parts.2.2 inside List.mem_cons_self) once.1).mp split
  have bound := length_add_height_le frames (join side color node
    (child side (.node color node left right)) (child side.other (.node color node left right)))
  rw [height_join] at bound
  rw [← same.2.2]
  exact ensures_rbNeighbour (holds_plug.mpr holds) (by omega) (by omega)

/-- A loop that steps to the neighbour visits what lies ahead. -/
theorem ensures_visited {behind ahead : List Nat} {rounds : Nat} (holds : Holds memory [] tree)
    (split : inOrder side tree = behind ++ ahead) (deep : tree.height ≤ fuel)
    (enough : ahead.length < rounds) :
    Ensures (visited (rbNeighbour side fuel) rounds (ahead.headD 0)) memory
      (fun nodes next => next = memory ∧ nodes = ahead) (fun _ _ => False) := by
  induction ahead generalizing behind rounds with
  | nil =>
      cases rounds with
      | zero => exact absurd enough (Nat.not_lt_zero _)
      | succ rounds => exact Ensures.pure_iff.mpr ⟨rfl, rfl⟩
  | cons node rest ih =>
      cases rounds with
      | zero => exact absurd enough (Nat.not_lt_zero _)
      | succ rounds =>
          have member : node ∈ tree.values := by
            rw [← inOrder_mem side, split]
            simp
          have valid : node ≠ 0 := ne_of_mem_of_not_mem member holds.stored.zero_not_mem
          rw [List.headD_cons, visited, if_neg valid, Ensures.bind_iff,
            ensures_neighbour_in_order holds split deep, Ensures.bind_iff]
          refine (@ih (behind ++ [node]) rounds (by simpa using split) (by simpa using enough)).mono ?_
            (fun _ _ impossible => impossible)
          rintro nodes next ⟨rfl, rfl⟩
          exact Ensures.pure_iff.mpr ⟨rfl, rfl⟩

/-- `rb_first` and `rb_last` find the first node of a walk away from their side. -/
theorem ensures_rbEnd {done : Nat -> RbMemory -> Prop} (holds : Holds memory [] tree)
    (deep : tree.height ≤ fuel) :
    Ensures (rbEnd side fuel) memory done failed <-> done ((inOrder side.other tree).headD 0) memory := by
  have root : memory.root = address tree := holds.above
  unfold rbEnd
  rw [Ensures.bind_iff, Ensures.get_iff, root]
  cases tree with
  | nil => simp [address]
  | node color value left right =>
      have valid : address (.node color value left right) ≠ 0 := holds.stored.1.1
      rw [if_neg valid, ensures_rbExtreme holds.stored (by simp) deep]

/-- The loop from `rb_first` over `rb_next` visits the nodes of a stored tree in order, and
the loop from `rb_last` over `rb_prev` visits them in the opposite order. -/
theorem rb_loops_visit_in_order {rounds : Nat} (holds : Holds memory [] tree)
    (deep : tree.height ≤ fuel) (enough : tree.values.length < rounds) :
    Ensures (do
        let first ← rbFirst fuel
        visited (rbNext fuel) rounds first) memory
      (fun nodes next => next = memory ∧ nodes = tree.values) (fun _ _ => False) ∧
    Ensures (do
        let last ← rbLast fuel
        visited (rbPrev fuel) rounds last) memory
      (fun nodes next => next = memory ∧ nodes = tree.values.reverse) (fun _ _ => False) := by
  constructor
  · refine Ensures.bind_iff.mpr ((ensures_rbEnd holds deep).mpr ?_)
    exact @ensures_visited _ _ .right _ [] tree.values _ holds rfl deep enough
  · refine Ensures.bind_iff.mpr ((ensures_rbEnd holds deep).mpr ?_)
    exact @ensures_visited _ _ .left _ [] tree.values.reverse _ holds rfl deep (by simpa using enough)

/-- Three linked nodes, the black one between two red ones. -/
def threeNodes : RbMemory :=
  ⟨fun pointer =>
    if pointer = 8 then ⟨packed 0 .black, 12, 4⟩ else ⟨packed 8 .red, 0, 0⟩, 8⟩

theorem holds_threeNodes :
    Holds threeNodes [] (.node .black 8 (.node .red 4 .nil .nil) (.node .red 12 .nil .nil)) where
  stored := by simp [Stored, Aligned, threeNodes, address, parentOf]
  above := rfl
  distinct := by decide

theorem rb_loops_visit_in_order_three_nodes :
    Ensures (do
        let first ← rbFirst 2
        visited (rbNext 2) 4 first) threeNodes
      (fun nodes next => next = threeNodes ∧ nodes = [4, 8, 12]) (fun _ _ => False) ∧
    Ensures (do
        let last ← rbLast 2
        visited (rbPrev 2) 4 last) threeNodes
      (fun nodes next => next = threeNodes ∧ nodes = [12, 8, 4]) (fun _ _ => False) :=
  rb_loops_visit_in_order holds_threeNodes (by decide) (by decide)

/-! ## Clearing the tree -/

/-- The first node of a tree has no left child. -/
theorem exists_first {ahead : List Nat} (distinct : tree.values.Nodup)
    (values : tree.values = node :: ahead) :
    Exists fun frames => Exists fun color => Exists fun right =>
      tree = plug frames (.node color node .nil right) ∧ before frames = [] ∧
        ahead = right.values ++ after frames := by
  have member : node ∈ tree.values := by
    rw [values]
    exact List.mem_cons_self
  rcases exists_plug member with ⟨frames, color, left, right, rfl⟩
  rw [values_plug, ColorTree.values] at values distinct
  simp only [List.append_assoc, List.cons_append] at values distinct
  rw [← List.append_assoc] at values distinct
  have parts := List.nodup_append'.mp distinct
  have once := List.nodup_cons.mp parts.2.1
  have same := (@List.append_cons_inj_of_notMem _ _ [] _ _ _ _
    (fun inside => parts.2.2 inside List.mem_cons_self) once.1).mp values
  have empty := List.append_eq_nil_iff.mp same.1
  cases left with
  | nil => exact ⟨frames, color, right, rfl, empty.1, same.2.2.symm⟩
  | node own top first last => simp [ColorTree.values] at empty

/-- The child pointers of a stored tree lead to nodes of the tree. -/
theorem Stored.child_mem {pointer : Nat} (stored : Stored memory.node parent tree)
    (member : pointer ∈ tree.values) (side : Side) :
    (memory.node pointer).child side = 0 ∨ (memory.node pointer).child side ∈ tree.values := by
  induction tree generalizing parent with
  | nil => cases member
  | node color value left right leftIH rightIH =>
      rcases stored with ⟨_, found, first, second⟩
      have top : forall below : ColorTree Nat, address below = 0 ∨ address below ∈ below.values := by
        intro below
        cases below <;> simp [address, ColorTree.values]
      simp only [ColorTree.values, List.mem_append, List.mem_cons] at member ⊢
      rcases member with inLeft | rfl | inRight
      · rcases leftIH first inLeft with null | inside
        · exact Or.inl null
        · exact Or.inr (Or.inl inside)
      · rw [found]
        cases side with
        | left => exact (top left).imp id Or.inl
        | right => exact (top right).imp id (fun inside => Or.inr (Or.inr inside))
      · rcases rightIH second inRight with null | inside
        · exact Or.inl null
        · exact Or.inr (Or.inr (Or.inr inside))

/-- A node without a left child has a red leaf or nothing to its right. -/
theorem right_leaf {shade : Color} {right : ColorTree Nat}
    (balanced : Balanced shade count (.node color node .nil right)) :
    right = .nil ∨ Exists fun next => right = .node .red next .nil .nil := by
  cases balanced with
  | red empty second =>
      cases empty
      cases second
      exact Or.inl rfl
  | black empty second =>
      cases empty
      cases second with
      | nil => exact Or.inl rfl
      | red first last =>
          cases first
          cases last
          exact Or.inr ⟨_, rfl⟩

/-- A round of `block_clear`: the first node is erased, and the step from its record leads
to the first node of what remains. -/
theorem ensures_clear_round {ahead : List Nat} (holds : Holds memory [] tree)
    (balanced : Balanced .black count tree) (values : tree.values = node :: ahead)
    (deep : tree.height ≤ fuel) :
    Ensures (do
        rbErase fuel node
        rbNext fuel node) memory
      (fun step next => step = ahead.headD 0 ∧ Untouched memory next tree.values ∧
        Exists fun rest => Exists fun more =>
          Holds next [] rest ∧ Balanced .black more rest ∧ rest.values = ahead)
      (fun _ _ => False) := by
  have distinct := (List.nodup_append'.mp holds.distinct).1
  have fresh : node ∉ ahead := by
    rw [values] at distinct
    exact (List.nodup_cons.mp distinct).1
  rcases exists_first distinct values with ⟨frames, color, right, rfl, start, rest⟩
  have focus := holds_plug.mpr holds
  have linked := @parentColor_ne memory .nil right frames .left node color focus
  rcases focus.stored with ⟨aligned, found, -, -⟩
  rw [Ensures.bind_iff]
  refine (ensures_rbErase balanced focus deep).mono ?_ (fun _ _ impossible => impossible)
  rintro _ next ⟨untouched, erased⟩
  have remaining : (erase color .nil right frames).values = ahead := by
    rw [values_erase, start, rest]
    simp [ColorTree.values]
  rcases balanced_erase balanced with ⟨more, restored⟩
  have kept : next.node node = ⟨packed (parentOf frames) color, address right, 0⟩ := by
    refine (untouched node ?_).trans found
    have apart := focus.distinct
    simp only [ColorTree.values, List.nil_append, List.cons_append, List.nodup_cons] at apart ⊢
    exact apart.1
  have within : Untouched memory next (plug frames (.node color node .nil right)).values := by
    intro pointer outside
    refine untouched pointer (fun inside => outside ?_)
    refine (values_plug_perm frames _).mem_iff.mpr ?_
    simp only [ColorTree.values, List.nil_append, List.cons_append] at inside ⊢
    exact List.mem_cons_of_mem _ inside
  have finish : forall step, step = ahead.headD 0 ->
      step = ahead.headD 0 ∧ Untouched memory next (plug frames (.node color node .nil right)).values ∧
        Exists fun rest => Exists fun more =>
          Holds next [] rest ∧ Balanced .black more rest ∧ rest.values = ahead :=
    fun step same => ⟨same, within, _, more, erased, restored, remaining⟩
  have tall := length_add_height_le frames (.node color node .nil right)
  simp only [ColorTree.height] at tall
  cases fuel with
  | zero => omega
  | succ fuel =>
      unfold rbNext rbNeighbour
      rw [Ensures.bind_iff, ensures_loadNode aligned.1, kept, if_neg linked, RbNode.child]
      rcases RedBlack.Fits.of_plug balanced .root with ⟨shade, here, opened, -⟩
      rcases right_leaf opened with rfl | ⟨leaf, rfl⟩
      · -- nothing to the right: the parent in the stale record comes next
        rw [address, if_neg (not_not.mpr rfl), rbClimb, Ensures.bind_iff, ensures_loadNode aligned.1, kept,
          rbParent_packed focus.above.parentOf_aligned]
        cases frames with
        | nil =>
            rw [parentOf, if_pos rfl, Ensures.pure_iff]
            exact finish 0 (by rw [rest]; rfl)
        | cons frame up =>
            have left : frame.side = .left := by
              cases own : frame.side with
              | left => rfl
              | right => simp [before, own] at start
            have first : ahead = frame.value :: (frame.sibling.values ++ after up) := by
              rw [rest]
              simp [ColorTree.values, after, left]
            have valid : parentOf (frame :: up) ≠ 0 := focus.above.1.1
            have inside : frame.value ∈ (erase color .nil .nil (frame :: up)).values := by
              rw [remaining, first]
              exact List.mem_cons_self
            have elsewhere : ¬ node = (next.node (parentOf (frame :: up))).child .right := by
              intro same
              rcases erased.stored.child_mem inside .right with null | linked
              · exact aligned.1 (same.trans null)
              · rw [remaining] at linked
                exact fresh (same ▸ linked)
            rw [if_neg valid, Ensures.bind_iff, ensures_loadNode valid, if_neg elsewhere, Ensures.pure_iff]
            exact finish _ (by rw [first]; rfl)
      · -- the red leaf has moved up and comes next
        have first : (erase color .nil (.node .red leaf .nil .nil) frames).values =
            leaf :: after frames := by
          rw [remaining, rest]
          rfl
        have nodup := (List.nodup_append'.mp erased.distinct).1
        rcases exists_first nodup first with ⟨path, own, below, whole, -, -⟩
        rw [whole] at erased
        have record := (holds_plug.mpr erased).stored
        have valid : address (.node .red leaf .nil .nil) ≠ 0 := record.1.1
        have last : (next.node (address (.node .red leaf .nil .nil))).child .left = 0 := by
          rw [address, record.2.1]
          rfl
        rw [if_pos valid, Side.other, rbExtreme, Ensures.bind_iff, ensures_loadNode valid, if_pos last,
          Ensures.pure_iff]
        exact finish leaf (by rw [rest]; rfl)

/-- The rounds of `block_clear` erase the nodes one after the other. -/
theorem ensures_clearFrom {nodes : List Nat} {rounds : Nat} (holds : Holds memory [] tree)
    (balanced : Balanced .black count tree) (values : tree.values = nodes)
    (deep : 2 * Nat.log 2 (nodes.length + 1) ≤ fuel) (enough : nodes.length < rounds) :
    Ensures (clearFrom fuel rounds (nodes.headD 0)) memory
      (fun _ next => next.root = 0 ∧ Untouched memory next nodes) (fun _ _ => False) := by
  induction nodes generalizing memory tree count rounds with
  | nil =>
      cases rounds with
      | zero => exact absurd enough (Nat.not_lt_zero _)
      | succ rounds =>
          have root : memory.root = address tree := holds.above
          cases tree with
          | nil => exact Ensures.pure_iff.mpr ⟨root, Untouched.refl _ _⟩
          | node color top left right => simp [ColorTree.values] at values
  | cons node ahead ih =>
      cases rounds with
      | zero => exact absurd enough (Nat.not_lt_zero _)
      | succ rounds =>
          have member : node ∈ tree.values := by
            rw [values]
            exact List.mem_cons_self
          have valid : node ≠ 0 := ne_of_mem_of_not_mem member holds.stored.zero_not_mem
          have low : tree.height ≤ fuel := by
            refine Nat.le_trans balanced.height_le_log ?_
            rwa [values]
          have less : 2 * Nat.log 2 (ahead.length + 1) ≤ fuel := by
            refine Nat.le_trans (Nat.mul_le_mul_left 2 (Nat.log_mono_right ?_)) deep
            simp
          rw [List.headD_cons, clearFrom, if_neg valid, Ensures.bind_iff]
          refine (Ensures.bind_iff.mp (ensures_clear_round holds balanced values low)).mono ?_
            (fun _ _ impossible => impossible)
          intro _ erased stepped
          refine Ensures.bind_iff.mpr (stepped.mono ?_ (fun _ _ impossible => impossible))
          rintro _ next ⟨rfl, untouched, rest, more, remains, restored, same⟩
          refine (ih remains restored same less (by simpa using enough)).mono ?_
            (fun _ _ impossible => impossible)
          rintro _ last ⟨empty, later⟩
          rw [values] at untouched
          exact ⟨empty, untouched.trans later (fun _ inside => List.mem_cons_of_mem _ inside)⟩

/-- `block_clear` empties a stored red-black tree and writes to no node outside it, although
it steps on from nodes that it has already erased. -/
theorem block_clear_empties_tree {rounds : Nat} (holds : Holds memory [] tree)
    (balanced : Balanced .black count tree)
    (deep : 2 * Nat.log 2 (tree.values.length + 1) ≤ fuel) (enough : tree.values.length < rounds) :
    Ensures (blockClear fuel rounds) memory
      (fun _ next => next.root = 0 ∧ Untouched memory next tree.values) (fun _ _ => False) := by
  have low := Nat.le_trans balanced.height_le_log deep
  refine Ensures.bind_iff.mpr ((ensures_rbEnd holds low).mpr ?_)
  exact ensures_clearFrom holds balanced rfl deep enough

theorem block_clear_empties_tree_three_nodes :
    Ensures (blockClear 4 4) threeNodes
      (fun _ next => next.root = 0 ∧ Untouched threeNodes next [4, 8, 12]) (fun _ _ => False) := by
  have balanced : Balanced .black 1
      (.node .black 8 (.node .red 4 .nil .nil) (.node .red 12 .nil .nil)) :=
    .black (.red .nil .nil) (.red .nil .nil)
  have deep : 2 * Nat.log 2 (3 + 1) ≤ 4 := by
    have small : Nat.log 2 (3 + 1) < 3 := Nat.log_lt_of_lt_pow (by decide) (by decide)
    omega
  exact block_clear_empties_tree holds_threeNodes balanced deep (by decide)

end Iteration

end Userfs.Ds
