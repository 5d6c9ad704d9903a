import Mathlib.Data.List.Basic
import Userfs.Ds.BlockTree

namespace Userfs.Filesystem

open Ds
open SearchTree
open Word

/-!
# Overlaying a range on the block tree

`upsert_blktree` is to enter a range that was written anew over extents the tree already
has.  It looks at the extent that holds the first offset only: what this extent has behind
the range becomes an extent of its own, what it has before the range stays, and the range
itself is entered between them.  Extents further on are neither trimmed nor dropped, so
the result is right exactly for a range that meets no other extent.
-/

/-- Change the node a pointer names.  Nodes have different starts, so the start names the
node. -/
def nodeModify (tree : BinaryTree Block) (fileoff : Nat) (change : Block -> Block) :
    BinaryTree Block :=
  (adjust (fun block => compare fileoff block.fileoff) (fun block => some (change block)) tree).getD tree

/-- The last part of both branches of `upsert_blktree`: the found node keeps what it has
before the range, or becomes the range if that is nothing. -/
def overlayRange (rb : Rebalancing Block) (tree : BinaryTree Block) (blocknode : Block)
    (devid addr off size : Nat) : BinaryTree Block :=
  let kept := sub64 off blocknode.fileoff
  if kept = 0 then
    nodeModify tree blocknode.fileoff
      (fun block => { block with size := size, addr := addr / 4096, devid := devid })
  else
    (blockInsert rb (nodeModify tree blocknode.fileoff (fun block => { block with size := kept }))
      ⟨devid, off, size, addr / 4096⟩).1

/-- The extent `afblocknode` for what a found extent has behind the range. -/
def afterBlock (blocknode : Block) (bnodeoff writeoff : Nat) : Block :=
  let fileoff := low 64 (writeoff + 4095) / 4096 * 4096
  ⟨blocknode.devid, fileoff, sub64 bnodeoff fileoff,
    add64 blocknode.addr (sub64 fileoff blocknode.fileoff / 4096)⟩

/-- `upsert_blktree` on the tree of the inode. -/
def upsertBlktree (rb : Rebalancing Block) (tree : BinaryTree Block) (devid addr off size : Nat) :
    BinaryTree Block :=
  match blockSearch tree off with
  | none => (blockInsert rb tree ⟨low 8 (devid + 1), off, size, addr / 4096⟩).1
  | some blocknode =>
      let bnodeoff := add64 blocknode.size blocknode.fileoff
      let writeoff := add64 size off
      if writeoff < bnodeoff then
        -- the rest is inserted while the found node still covers it
        overlayRange rb (blockInsert rb tree (afterBlock blocknode bnodeoff writeoff)).1 blocknode
          devid addr off size
      else overlayRange rb tree blocknode devid addr off size

/-! ## Nodes and their neighbours -/

/-- Extents in the order of their starts. -/
abbrev Ascending (extents : List Block) : Prop :=
  extents.Pairwise (fun first second => first.fileoff < second.fileoff)

section Nodes

variable {tree : BinaryTree Block} {before after rest : List Block} {old : Block}

/-- A walk by starts is directed. -/
theorem Ascending.directed {extents : List Block} (ascending : Ascending extents) (fileoff : Nat) :
    Directed (fun block : Block => compare fileoff block.fileoff) extents := by
  refine ascending.imp ?_
  intro first second starts
  constructor
  · intro turned
    have below := Nat.compare_eq_lt.mp turned
    exact Nat.compare_eq_lt.mpr (Nat.lt_trans below starts)
  · intro turned
    have behind := Nat.compare_eq_gt.mp turned
    exact Nat.compare_eq_gt.mpr (Nat.lt_trans starts behind)

/-- Changing a node leaves the others in place. -/
theorem nodeModify_inorder (ascending : Ascending (inorder tree))
    (split : inorder tree = before ++ old :: after) (change : Block -> Block) :
    inorder (nodeModify tree old.fileoff change) = before ++ change old :: after := by
  have member : old ∈ inorder tree := by
    rw [split]
    exact List.mem_append_right _ List.mem_cons_self
  rcases Option.isSome_iff_exists.mp (search_complete (ascending.directed old.fileoff) member
    (Nat.compare_eq_eq.mpr rfl)) with ⟨found, search⟩
  rcases @adjust_of_search Block _ (fun block => some (change block)) tree found _ search rfl with
    ⟨adjusted, done⟩
  rcases adjust_inorder done with ⟨front, value, new, back, first, second, stops, applied⟩
  have starts := Nat.compare_eq_eq.mp stops
  -- starts are different, so the walk has stopped at the node itself
  have nodup : forall block, block ∈ before ∨ block ∈ after -> block.fileoff ≠ old.fileoff := by
    rw [split] at ascending
    have order := List.pairwise_append.mp ascending
    rintro block (early | late)
    · exact Nat.ne_of_lt (order.2.2 block early old List.mem_cons_self)
    · exact (Nat.ne_of_lt ((List.pairwise_cons.mp order.2.1).1 block late)).symm
  have notBefore : value ∉ before := fun inside => nodup value (Or.inl inside) starts.symm
  have notAfter : value ∉ after := fun inside => nodup value (Or.inr inside) starts.symm
  rcases (List.append_cons_inj_of_notMem notBefore notAfter).mp (split.symm.trans first) with
    ⟨sameFront, sameValue, sameBack⟩
  subst sameFront sameValue sameBack
  unfold nodeModify
  rw [done, Option.getD_some, second, ← Option.some.inj applied]

/-- A list is split in one way into elements that pass a test and elements that do not. -/
theorem append_split_unique {test : Block -> Prop} {first second third fourth : List Block}
    (same : first ++ second = third ++ fourth) (passFirst : forall block, block ∈ first -> test block)
    (failSecond : forall block, block ∈ second -> ¬ test block)
    (passThird : forall block, block ∈ third -> test block)
    (failFourth : forall block, block ∈ fourth -> ¬ test block) : first = third ∧ second = fourth := by
  induction first generalizing third with
  | nil =>
      cases third with
      | nil => exact ⟨rfl, same⟩
      | cons block others =>
          have member : block ∈ second := by
            rw [show second = block :: others ++ fourth from same]
            exact List.mem_cons_self
          exact absurd (passThird block List.mem_cons_self) (failSecond block member)
  | cons block others ih =>
      cases third with
      | nil =>
          have member : block ∈ fourth := by
            rw [show fourth = block :: others ++ second from same.symm]
            exact List.mem_cons_self
          exact absurd (passFirst block List.mem_cons_self) (failFourth block member)
      | cons other more =>
          rcases List.cons.inj same with ⟨head, tails⟩
          rcases ih tails (fun b m => passFirst b (List.mem_cons_of_mem _ m))
            (fun b m => passThird b (List.mem_cons_of_mem _ m)) with ⟨rest, last⟩
          exact ⟨by rw [head, rest], last⟩

end Nodes

/-! ## The rest of a split extent -/

section After

variable {tree : BinaryTree Block} {before after : List Block} {old : Block} {stop : Nat}

/-- The extent for the rest when everything is aligned. -/
theorem afterBlock_eq (inside : old.fileoff < stop) (within : stop < old.fileend)
    (bounded : old.fileend < 2 ^ 64) (aligned : stop % 4096 = 0) :
    afterBlock old old.fileend stop =
      ⟨old.devid, stop, old.fileend - stop, add64 old.addr ((stop - old.fileoff) / 4096)⟩ := by
  have start : low 64 (stop + 4095) / 4096 * 4096 = stop := by
    unfold low
    omega
  simp only [afterBlock, start]
  rw [sub64_of_le (Nat.le_of_lt within) bounded,
    sub64_of_le (Nat.le_of_lt inside) (Nat.lt_trans within bounded)]

/-- The rest is stored where it was stored before. -/
theorem afterBlock_translate (inside : old.fileoff < stop) (aligned : stop % 4096 = 0)
    (alignedOld : old.fileoff % 4096 = 0) {offset : Nat} (behind : stop ≤ offset) (size : Nat) :
    Block.translate ⟨old.devid, stop, size, add64 old.addr ((stop - old.fileoff) / 4096)⟩ offset =
      old.translate offset := by
  refine Prod.ext rfl ?_
  change low 64 (add64 old.addr ((stop - old.fileoff) / 4096) * 4096 + (offset - stop)) =
    low 64 (old.addr * 4096 + (offset - old.fileoff))
  unfold add64 low
  omega

/-- The rest does not continue the extent it is cut from, as the test for growth still sees
the whole of it. -/
theorem mergeInto_afterBlock (inside : old.fileoff < stop) (within : stop < old.fileend)
    (bounded : old.fileend < 2 ^ 64) (aligned : stop % 4096 = 0) (alignedOld : old.fileoff % 4096 = 0)
    (size : Nat) :
    mergeInto ⟨old.devid, stop, size, add64 old.addr ((stop - old.fileoff) / 4096)⟩ old = none := by
  unfold Block.fileend at within bounded
  unfold mergeInto
  rw [if_neg]
  rintro ⟨_, follows⟩
  unfold shl64 sub64 add64 low at follows
  dsimp only at follows
  omega

/-- The rest is linked right behind the extent it is cut from. -/
theorem blockInsert_after (rb : Rebalancing Block) (formed : WellFormed tree)
    (split : inorder tree = before ++ old :: after) (inside : old.fileoff < stop)
    (within : stop < old.fileend) (aligned : stop % 4096 = 0) (alignedOld : old.fileoff % 4096 = 0)
    {size : Nat} :
    inorder (blockInsert rb tree
        ⟨old.devid, stop, size, add64 old.addr ((stop - old.fileoff) / 4096)⟩).1 =
      before ++ old ::
        ⟨old.devid, stop, size, add64 old.addr ((stop - old.fileoff) / 4096)⟩ :: after := by
  have separated := formed.separated
  rw [split] at separated
  have order := List.pairwise_append.mp separated.ordered
  have later := List.pairwise_cons.mp order.2.1
  have oldMember : old ∈ inorder tree := by
    rw [split]
    exact List.mem_append_right _ List.mem_cons_self
  have bounded := formed.bounded old oldMember
  have ends : forall block, block ∈ before -> block.fileend ≤ old.fileoff := fun block member =>
    order.2.2 block member old List.mem_cons_self
  have nonempty : forall block, block ∈ before -> block.fileoff < block.fileend := fun block member =>
    separated.nonempty block (List.mem_append_left _ member)
  have ascending : Ascending (inorder tree) := formed.separated.sorted
  unfold blockInsert
  split
  · rename_i merged done
    rcases adjust_inorder done with ⟨front, value, grown, back, first, _, stops, applied⟩
    have member : value ∈ inorder tree := by
      rw [first]
      exact List.mem_append_right _ List.mem_cons_self
    have reached := (nodecmp_eq_eq (formed.bounded value member)).mp stops
    have same : value = old := by
      rw [split] at member
      rcases List.mem_append.mp member with early | late
      · have before := ends value early
        dsimp only at reached
        omega
      · rcases List.mem_cons.mp late with equal | late
        · exact equal
        · have behind := later.1 value late
          dsimp only at reached
          omega
    rw [same, mergeInto_afterBlock inside within bounded aligned alignedOld] at applied
    cases applied
  · have clear : forall value, value ∈ inorder tree -> compare stop value.fileoff ≠ .eq := by
      intro value member stops
      have equal := Nat.compare_eq_eq.mp stops
      rw [split] at member
      rcases List.mem_append.mp member with early | late
      · have before := ends value early
        have positive := nonempty value early
        omega
      · rcases List.mem_cons.mp late with same | late
        · rw [same] at equal
          omega
        · have behind := later.1 value late
          omega
    rcases link_inorder
      ⟨old.devid, stop, size, add64 old.addr ((stop - old.fileoff) / 4096)⟩
      (ascending.directed stop) clear with ⟨linked, front, back, done, first, second, isFront, isBack⟩
    rw [done]
    change inorder (rb.insertColor linked) = _
    rw [rb.inorder_insertColor, second]
    have parts : front = before ++ [old] ∧ back = after := by
      refine @append_split_unique (fun block => block.fileoff < stop) _ _ _ _ ?_ ?_ ?_ ?_ ?_
      · rw [← first, split, List.append_assoc]
        rfl
      · intro block member
        exact Nat.compare_eq_gt.mp (isFront block member)
      · intro block member
        have behind := Nat.compare_eq_lt.mp (isBack block member)
        omega
      · intro block member
        rcases List.mem_append.mp member with early | last
        · have before := ends block early
          have positive := nonempty block early
          omega
        · rw [List.mem_singleton.mp last]
          exact inside
      · intro block member
        have behind := later.1 block member
        omega
    rw [parts.1, parts.2, List.append_assoc]
    rfl

end After

/-! ## The range between its neighbours -/

/-- Extents before a position and extents behind another one, with nothing between. -/
structure Cut (before rest : List Block) (start stop : Nat) : Prop where
  separated : Interval.Separated Block.fileoff Block.fileend (before ++ rest)
  bounded : forall block, block ∈ before ++ rest -> block.fileend < 2 ^ 64
  below : forall block, block ∈ before -> block.fileend ≤ start
  above : forall block, block ∈ rest -> stop ≤ block.fileoff

section Overlay

variable {tree : BinaryTree Block} {before rest : List Block} {old block : Block} {start stop : Nat}

/-- An extent in the gap of a cut. -/
theorem Cut.wellFormed {result : BinaryTree Block} (cut : Cut before rest start stop)
    (split : inorder result = before ++ block :: rest) (nonempty : 0 < block.size)
    (lower : start ≤ block.fileoff) (upper : block.fileend ≤ stop) (bounded : stop < 2 ^ 64) :
    WellFormed result := by
  constructor
  · rw [split]
    refine cut.separated.insert (Nat.lt_add_of_pos_right nonempty) ?_ ?_
    · exact fun other member => Nat.le_trans (cut.below other member) lower
    · exact fun other member => Nat.le_trans upper (cut.above other member)
  · rw [split]
    intro other member
    rcases List.mem_append.mp member with early | late
    · exact cut.bounded other (List.mem_append_left _ early)
    · rcases List.mem_cons.mp late with same | late
      · rw [same]
        exact Nat.lt_of_le_of_lt upper bounded
      · exact cut.bounded other (List.mem_append_right _ late)

theorem Cut.ascending (cut : Cut before rest old.fileoff stop) (inside : old.fileoff < stop)
    (split : inorder tree = before ++ old :: rest) : Ascending (inorder tree) := by
  have parts := List.pairwise_append.mp cut.separated.sorted
  rw [split]
  refine List.pairwise_append.mpr ⟨parts.1, List.pairwise_cons.mpr ⟨?_, parts.2.1⟩, ?_⟩
  · exact fun other member => Nat.lt_of_lt_of_le inside (cut.above other member)
  · intro other early third late
    rcases List.mem_cons.mp late with same | late
    · rw [same]
      exact Nat.lt_of_lt_of_le (cut.separated.nonempty other (List.mem_append_left _ early))
        (cut.below other early)
    · exact parts.2.2 other early third late

/-- What the tree assigns after the range was entered: the neighbours and the start of the
found extent as before, and the range. -/
structure Entered (before rest : List Block) (old new : Block) (result : BinaryTree Block) : Prop where
  formed : WellFormed result
  assigns : forall offset location, Assigns (inorder result) offset location <->
    Assigns (before ++ rest) offset location ∨
      (old.fileoff ≤ offset ∧ offset < new.fileoff ∧ old.translate offset = location) ∨
        new.Covers offset ∧ new.translate offset = location

/-- The last part of `upsert_blktree` enters a range that meets no other extent. -/
theorem Cut.overlayRange_entered (rb : Rebalancing Block) {devid addr off size : Nat}
    (cut : Cut before rest old.fileoff (off + size)) (split : inorder tree = before ++ old :: rest)
    (starts : old.fileoff ≤ off) (nonempty : 0 < size) (bounded : off + size < 2 ^ 64) :
    Entered before rest old ⟨devid, off, size, addr / 4096⟩ (overlayRange rb tree old devid addr off size) := by
  have kept : sub64 off old.fileoff = off - old.fileoff := sub64_of_le starts (by omega)
  have ascending := cut.ascending (Nat.lt_of_le_of_lt starts (by omega)) split
  unfold overlayRange
  by_cases whole : off - old.fileoff = 0
  · -- the range takes the node over
    have same : off = old.fileoff := by omega
    simp only [kept, whole, if_true]
    have result := nodeModify_inorder ascending split
      (fun block => { block with size := size, addr := addr / 4096, devid := devid })
    have new : ({ old with size := size, addr := addr / 4096, devid := devid } : Block) =
        ⟨devid, off, size, addr / 4096⟩ := by rw [same]
    rw [new] at result
    refine ⟨cut.wellFormed result nonempty starts (Nat.le_refl _) bounded, ?_⟩
    intro offset location
    rw [result, assigns_append_cons, assigns_append]
    have none : ¬ (old.fileoff ≤ offset ∧ offset < off ∧ old.translate offset = location) := by
      rintro ⟨lower, upper, _⟩
      omega
    tauto
  · simp only [kept, whole, if_false]
    have result := nodeModify_inorder ascending split
      (fun block => { block with size := off - old.fileoff })
    have ends : ({ old with size := off - old.fileoff } : Block).fileend = off := by
      change old.fileoff + (off - old.fileoff) = off
      omega
    have formed : WellFormed (nodeModify tree old.fileoff
        (fun block => { block with size := off - old.fileoff })) :=
      cut.wellFormed result (Nat.pos_of_ne_zero whole) (Nat.le_refl _) (by rw [ends]; omega) bounded
    have fits : Fits (nodeModify tree old.fileoff
        (fun block => { block with size := off - old.fileoff })) ⟨devid, off, size, addr / 4096⟩ := by
      refine ⟨nonempty, bounded, ?_⟩
      rw [result]
      intro other member point inOther inNew
      have range : off ≤ point ∧ point < off + size := inNew
      have covered : other.fileoff ≤ point ∧ point < other.fileend := inOther
      rcases List.mem_append.mp member with early | late
      · have below := cut.below other early
        omega
      · rcases List.mem_cons.mp late with same | late
        · rw [same, ends] at covered
          omega
        · have above := cut.above other late
          omega
    have extended := blockInsert_extended rb formed fits
    refine ⟨extended.formed, ?_⟩
    intro offset location
    rw [extended.assigns, result, assigns_append_cons, assigns_append]
    have trimmed : Block.Covers { old with size := off - old.fileoff } offset ∧
        Block.translate { old with size := off - old.fileoff } offset = location <->
        old.fileoff ≤ offset ∧ offset < off ∧ old.translate offset = location := by
      rw [← and_assoc]
      refine and_congr ?_ Iff.rfl
      change old.fileoff ≤ offset ∧ offset < old.fileoff + (off - old.fileoff) <-> _
      omega
    rw [trimmed]
    tauto

end Overlay

/-! ## The whole function -/

/-- What overlaying a range means: the extents stay disjoint, the range is found at its new
place, and every other offset that was found is found where it was. -/
structure Overlaid (tree result : BinaryTree Block) (devid addr off size : Nat) : Prop where
  disjoint : (inorder result).Pairwise Block.Disjoint
  inside : forall offset, off ≤ offset -> offset < off + size ->
    translation result offset = some (devid, low 64 (addr + (offset - off)))
  outside : forall offset, ¬ (off ≤ offset ∧ offset < off + size) ->
    (translation tree offset).isSome = true -> translation result offset = translation tree offset

/-- A tree whose extents lie on block boundaries, and a range on block boundaries whose first
offset the tree holds. -/
structure UpsertCall (tree : BinaryTree Block) (addr off size : Nat) : Prop where
  formed : WellFormed tree
  aligned : forall block, block ∈ inorder tree -> block.fileoff % 4096 = 0 ∧ block.size % 4096 = 0
  alignedOff : off % 4096 = 0
  alignedSize : size % 4096 = 0
  nonempty : 0 < size
  bounded : off + size < 2 ^ 64
  address : addr < 2 ^ 64
  covered : (blockSearch tree off).isSome = true

/-- The extent that holds the first offset of a range, with its neighbours. -/
structure Located (tree : BinaryTree Block) (off : Nat) (old : Block) (before after : List Block) : Prop where
  search : blockSearch tree off = some old
  split : inorder tree = before ++ old :: after
  starts : old.fileoff ≤ off
  reaches : off < old.fileend
  bounded : old.fileend < 2 ^ 64
  aligned : old.fileoff % 4096 = 0
  below : forall block, block ∈ before -> block.fileend ≤ old.fileoff
  above : forall block, block ∈ after -> old.fileend ≤ block.fileoff

/-- The extents of a tree that start inside a range, behind its first offset. -/
def Meets (tree : BinaryTree Block) (off size : Nat) (block : Block) : Prop :=
  block ∈ inorder tree ∧ off < block.fileoff ∧ block.fileoff < off + size

section Upsert

variable {rb : Rebalancing Block} {tree : BinaryTree Block} {devid addr off size : Nat} {old : Block}
  {before after : List Block}

theorem UpsertCall.located (call : UpsertCall tree addr off size) :
    Exists fun old => Exists fun before => Exists fun after => Located tree off old before after := by
  rcases Option.isSome_iff_exists.mp call.covered with ⟨old, search⟩
  rcases call.formed.blockSearch_eq_some.mp search with ⟨member, covers⟩
  rcases List.append_of_mem member with ⟨before, after, split⟩
  have separated := call.formed.separated
  rw [split] at separated
  have order := List.pairwise_append.mp separated.ordered
  exact ⟨old, before, after, search, split, covers.1, covers.2, call.formed.bounded old member,
    (call.aligned old member).1, fun block early => order.2.2 block early old List.mem_cons_self,
    (List.pairwise_cons.mp order.2.1).1⟩

theorem Located.mem_neighbours (located : Located tree off old before after) {block : Block}
    (member : block ∈ before ++ after) : block ∈ inorder tree := by
  rw [located.split]
  rcases List.mem_append.mp member with early | late
  · exact List.mem_append_left _ early
  · exact List.mem_append_right _ (List.mem_cons_of_mem _ late)

/-- The extents behind the found one start behind a range that meets none of them. -/
theorem Located.behind (located : Located tree off old before after)
    (alone : forall block, ¬ Meets tree off size block) {block : Block} (member : block ∈ after) :
    off + size ≤ block.fileoff := by
  refine Nat.le_of_not_lt (fun inside => alone block ⟨?_, ?_, inside⟩)
  · exact located.mem_neighbours (List.mem_append_right _ member)
  · exact Nat.lt_of_lt_of_le located.reaches (located.above block member)

/-- The rest of the found extent, cut off by the end of the range. -/
def Located.rest (_ : Located tree off old before after) (size : Nat) : Block :=
  ⟨old.devid, off + size, old.fileend - (off + size), add64 old.addr ((off + size - old.fileoff) / 4096)⟩

theorem Located.rest_fileend (located : Located tree off old before after)
    (within : off + size < old.fileend) : (located.rest size).fileend = old.fileend := by
  change off + size + (old.fileend - (off + size)) = old.fileend
  omega

/-- The neighbours of a range that ends inside the found extent. -/
theorem Located.cut_within (located : Located tree off old before after) (formed : WellFormed tree)
    (within : off + size < old.fileend) :
    Cut before (located.rest size :: after) old.fileoff (off + size) := by
  have separated := formed.separated
  rw [located.split] at separated
  have ends := located.rest_fileend within
  refine ⟨separated.remove.insert ?_ ?_ ?_, ?_, located.below, ?_⟩
  · rw [ends]
    exact within
  · intro block early
    exact Nat.le_trans (located.below block early) (Nat.le_trans located.starts (Nat.le_add_right _ _))
  · intro block late
    rw [ends]
    exact located.above block late
  · intro block member
    rcases List.mem_append.mp member with early | late
    · exact formed.bounded block (located.mem_neighbours (List.mem_append_left _ early))
    · rcases List.mem_cons.mp late with same | late
      · rw [same, ends]
        exact located.bounded
      · exact formed.bounded block (located.mem_neighbours (List.mem_append_right _ late))
  · intro block member
    rcases List.mem_cons.mp member with same | late
    · rw [same]
      exact Nat.le_refl _
    · exact Nat.le_trans (Nat.le_of_lt within) (located.above block late)

/-- The neighbours of a range that ends behind the found extent and meets no other one. -/
theorem Located.cut_beyond (located : Located tree off old before after) (formed : WellFormed tree)
    (alone : forall block, ¬ Meets tree off size block) :
    Cut before after old.fileoff (off + size) := by
  have separated := formed.separated
  rw [located.split] at separated
  exact ⟨separated.remove, fun block member => formed.bounded block (located.mem_neighbours member),
    located.below, fun block member => located.behind alone member⟩

/-- What the tree assigns after an upsert, from what the neighbours of the range assign. -/
theorem Located.assigns_entered (located : Located tree off old before after)
    (alone : forall block, ¬ Meets tree off size block) {rest : List Block} {new : Block}
    {result : BinaryTree Block} (entered : Entered before rest old new result)
    (starts : new.fileoff = off) (ends : new.fileend = off + size)
    (kept : forall offset location, Assigns (before ++ rest) offset location <->
      Assigns (before ++ after) offset location ∨
        (off + size ≤ offset ∧ offset < old.fileend ∧ old.translate offset = location))
    (offset : Nat) (location : Nat × Nat) :
    Assigns (inorder result) offset location <->
      if off ≤ offset ∧ offset < off + size then new.translate offset = location
      else Assigns (inorder tree) offset location := by
  have original : Assigns (inorder tree) offset location <->
      Assigns (before ++ after) offset location ∨ (old.Covers offset ∧ old.translate offset = location) := by
    rw [located.split, assigns_append_cons, assigns_append]
    tauto
  have newCovers : new.Covers offset <-> off ≤ offset ∧ offset < off + size := by
    unfold Block.Covers Interval.Covers
    rw [starts, ends]
  have oldCovers : old.Covers offset <-> old.fileoff ≤ offset ∧ offset < old.fileend := Iff.rfl
  have first := located.starts
  have second := located.reaches
  rw [entered.assigns, kept, starts, newCovers]
  split
  · rename_i inside
    -- no neighbour covers an offset of the range
    have apart : ¬ Assigns (before ++ after) offset location := by
      rintro ⟨block, member, covers, _⟩
      have covered : block.fileoff ≤ offset ∧ offset < block.fileend := covers
      rcases List.mem_append.mp member with early | late
      · have below := located.below block early
        omega
      · have behind := located.behind alone late
        omega
    constructor
    · rintro ((neighbour | ⟨behind, _⟩) | ⟨_, before, _⟩ | ⟨_, equal⟩)
      · exact absurd neighbour apart
      · omega
      · omega
      · exact equal
    · exact fun equal => Or.inr (Or.inr ⟨inside, equal⟩)
  · rename_i outside
    rw [original, oldCovers]
    constructor
    · rintro ((neighbour | ⟨behind, before, equal⟩) | ⟨lower, before, equal⟩ | ⟨inside, _⟩)
      · exact Or.inl neighbour
      · exact Or.inr ⟨⟨by omega, before⟩, equal⟩
      · exact Or.inr ⟨⟨lower, by omega⟩, equal⟩
      · exact absurd inside outside
    · rintro (neighbour | ⟨⟨lower, upper⟩, equal⟩)
      · exact Or.inl (Or.inl neighbour)
      · rcases Nat.lt_or_ge offset off with early | late
        · exact Or.inr (Or.inl ⟨lower, early, equal⟩)
        · exact Or.inl (Or.inr ⟨by omega, upper, equal⟩)

/-- The two branches of `upsert_blktree` for an extent that was found. -/
theorem Located.upsertBlktree_eq (located : Located tree off old before after)
    (call : UpsertCall tree addr off size) :
    upsertBlktree rb tree devid addr off size =
      overlayRange rb (if off + size < old.fileend then (blockInsert rb tree (located.rest size)).1 else tree)
        old devid addr off size := by
  have bounded := call.bounded
  have bound := located.bounded
  have sumEnd : add64 old.size old.fileoff = old.fileend := by
    rw [add64_of_lt (by unfold Block.fileend at bound; omega)]
    exact Nat.add_comm _ _
  have sumStop : add64 size off = off + size := by
    rw [add64_of_lt (by omega)]
    exact Nat.add_comm _ _
  unfold upsertBlktree
  rw [located.search]
  simp only [sumEnd, sumStop]
  by_cases within : off + size < old.fileend
  · have stopAligned : (off + size) % 4096 = 0 := by
      have first := call.alignedOff
      have second := call.alignedSize
      omega
    have begins : old.fileoff < off + size := by
      have starts := located.starts
      have positive := call.nonempty
      omega
    rw [if_pos within, if_pos within, afterBlock_eq begins within bound stopAligned]
    rfl
  · rw [if_neg within, if_neg within]

/-- A range that meets no extent but the found one is entered. -/
theorem Located.entered (located : Located tree off old before after)
    (call : UpsertCall tree addr off size) (alone : forall block, ¬ Meets tree off size block) :
    WellFormed (upsertBlktree rb tree devid addr off size) ∧ forall offset location,
      Assigns (inorder (upsertBlktree rb tree devid addr off size)) offset location <->
        if off ≤ offset ∧ offset < off + size then
          Block.translate ⟨devid, off, size, addr / 4096⟩ offset = location
        else Assigns (inorder tree) offset location := by
  have nonempty := call.nonempty
  have starts := located.starts
  rw [located.upsertBlktree_eq call]
  by_cases within : off + size < old.fileend
  · have stopAligned : (off + size) % 4096 = 0 := by
      have first := call.alignedOff
      have second := call.alignedSize
      omega
    have begins : old.fileoff < off + size := by omega
    have inserted := @blockInsert_after _ _ _ _ _ rb call.formed located.split begins within stopAligned
      located.aligned (old.fileend - (off + size))
    rw [if_pos within]
    have entered := @Cut.overlayRange_entered _ _ _ _ rb devid addr off size
      (located.cut_within call.formed within) inserted starts nonempty call.bounded
    refine ⟨entered.formed, located.assigns_entered alone entered rfl rfl (fun offset location => ?_)⟩
    have covers : (located.rest size).Covers offset <-> off + size ≤ offset ∧ offset < old.fileend := by
      unfold Block.Covers Interval.Covers
      rw [located.rest_fileend within]
      rfl
    rw [assigns_append_cons, assigns_append, covers]
    have same : off + size ≤ offset -> (located.rest size).translate offset = old.translate offset :=
      fun behind => afterBlock_translate begins stopAligned located.aligned behind _
    constructor
    · rintro (early | ⟨⟨behind, upper⟩, equal⟩ | late)
      · exact Or.inl (Or.inl early)
      · exact Or.inr ⟨behind, upper, (same behind).symm.trans equal⟩
      · exact Or.inl (Or.inr late)
    · rintro ((early | late) | ⟨behind, upper, equal⟩)
      · exact Or.inl early
      · exact Or.inr (Or.inr late)
      · exact Or.inr (Or.inl ⟨⟨behind, upper⟩, (same behind).trans equal⟩)
  · rw [if_neg within]
    have entered := @Cut.overlayRange_entered _ _ _ _ rb devid addr off size
      (located.cut_beyond call.formed alone) located.split starts nonempty call.bounded
    refine ⟨entered.formed, located.assigns_entered alone entered rfl rfl (fun offset location => ?_)⟩
    constructor
    · exact Or.inl
    · rintro (neighbour | ⟨behind, upper, _⟩)
      · exact neighbour
      · omega

/-- `block_insert` leaves an extent that reaches over the new block, and keeps the extents
behind its start, whether they meet the block or not. -/
theorem blockInsert_keeps {block : Block} (formed : WellFormed tree) (bounded : block.fileend < 2 ^ 64)
    (clear : forall other, other ∈ inorder tree -> other.fileoff ≠ block.fileoff) :
    Exists fun cover => cover ∈ inorder (blockInsert rb tree block).1 ∧
      cover.fileoff ≤ block.fileoff ∧ cover.fileend = block.fileend ∧
      forall other, other ∈ inorder tree -> block.fileoff < other.fileoff ->
        other ∈ inorder (blockInsert rb tree block).1 := by
  unfold blockInsert
  split
  · rename_i merged done
    rcases adjust_inorder done with ⟨front, value, grown, back, first, second, stops, applied⟩
    have member : value ∈ inorder tree := by
      rw [first]
      exact List.mem_append_right _ List.mem_cons_self
    have reached := (nodecmp_eq_eq (formed.bounded value member)).mp stops
    have nonempty : value.fileoff ≤ block.fileend := Nat.le_trans reached.1 (Nat.le_add_right _ _)
    unfold mergeInto at applied
    split at applied
    · cases applied
      refine ⟨{ value with size := sub64 (add64 block.fileoff block.size) value.fileoff }, ?_, reached.1,
        ?_, ?_⟩
      · rw [second]
        exact List.mem_append_right _ List.mem_cons_self
      · have sum : add64 block.fileoff block.size = block.fileend := add64_of_lt bounded
        change value.fileoff + sub64 (add64 block.fileoff block.size) value.fileoff = block.fileend
        rw [sum, sub64_of_le nonempty bounded]
        omega
      · intro other otherMember behind
        rw [first] at otherMember
        rw [second]
        rcases List.mem_append.mp otherMember with early | late
        · exact List.mem_append_left _ early
        · rcases List.mem_cons.mp late with same | late
          · rw [same] at behind
            omega
          · exact List.mem_append_right _ (List.mem_cons_of_mem _ late)
    · cases applied
  · have stops : forall other, other ∈ inorder tree -> compare block.fileoff other.fileoff ≠ .eq :=
      fun other member equal => clear other member (Nat.compare_eq_eq.mp equal).symm
    have ascending : Ascending (inorder tree) := formed.separated.sorted
    rcases link_inorder block (ascending.directed block.fileoff) stops with
      ⟨linked, front, back, done, first, second, _⟩
    rw [done]
    change Exists fun cover => cover ∈ inorder (rb.insertColor linked) ∧ _
    rw [rb.inorder_insertColor, second]
    refine ⟨block, List.mem_append_right _ List.mem_cons_self, Nat.le_refl _, rfl, ?_⟩
    intro other member _
    rw [first] at member
    rcases List.mem_append.mp member with early | late
    · exact List.mem_append_left _ early
    · exact List.mem_append_right _ (List.mem_cons_of_mem _ late)

/-- An extent that the range meets stays in the tree, and another extent covers its start
as well. -/
theorem Located.overlap (located : Located tree off old before after)
    (call : UpsertCall tree addr off size) {block : Block} (meets : Meets tree off size block) :
    ¬ (inorder (upsertBlktree rb tree devid addr off size)).Pairwise Block.Disjoint := by
  rcases meets with ⟨member, lower, upper⟩
  have starts := located.starts
  have bounded := call.bounded
  have positive : block.fileoff < block.fileend := call.formed.separated.nonempty block member
  have late : block ∈ after := by
    rw [located.split] at member
    rcases List.mem_append.mp member with early | late
    · have below := located.below block early
      omega
    · rcases List.mem_cons.mp late with same | late
      · rw [same] at lower
        omega
      · exact late
  have behind := located.above block late
  have beyond : ¬ off + size < old.fileend := by omega
  -- two extents of a disjoint list do not both cover the start of one of them
  have clash : forall (extents : List Block) (cover : Block), block ∈ extents -> cover ∈ extents ->
      cover.fileoff ≤ off -> off + size ≤ cover.fileend -> ¬ extents.Pairwise Block.Disjoint := by
    intro extents cover inside coverInside coverStarts coverEnds disjoint
    have different : block ≠ cover := fun equal => by
      rw [equal] at lower
      omega
    exact disjoint.forall inside coverInside different block.fileoff ⟨Nat.le_refl _, positive⟩
      ⟨by omega, by omega⟩
  have kept : sub64 off old.fileoff = off - old.fileoff := sub64_of_le starts (by omega)
  have ascending : Ascending (inorder tree) := call.formed.separated.sorted
  rw [located.upsertBlktree_eq call, if_neg beyond]
  unfold overlayRange
  by_cases whole : off - old.fileoff = 0
  · have result := nodeModify_inorder ascending located.split
      (fun block => { block with size := size, addr := addr / 4096, devid := devid })
    simp only [kept, whole, if_true]
    rw [result]
    refine clash _ { old with size := size, addr := addr / 4096, devid := devid } ?_ ?_ starts ?_
    · exact List.mem_append_right _ (List.mem_cons_of_mem _ late)
    · exact List.mem_append_right _ List.mem_cons_self
    · change off + size ≤ old.fileoff + size
      omega
  · have result := nodeModify_inorder ascending located.split
      (fun block => { block with size := off - old.fileoff })
    have separated := call.formed.separated
    rw [located.split] at separated
    have cut : Cut before after old.fileoff old.fileend :=
      ⟨separated.remove, fun other inside => call.formed.bounded other (located.mem_neighbours inside),
        located.below, located.above⟩
    have trimmedEnd : ({ old with size := off - old.fileoff } : Block).fileend = off := by
      change old.fileoff + (off - old.fileoff) = off
      omega
    have trimmed := cut.wellFormed result (Nat.pos_of_ne_zero whole) (Nat.le_refl _)
      (by rw [trimmedEnd]; exact Nat.le_of_lt located.reaches) located.bounded
    simp only [kept, whole, if_false]
    have clear : forall other, other ∈ inorder (nodeModify tree old.fileoff
        (fun block => { block with size := off - old.fileoff })) -> other.fileoff ≠ off := by
      intro other inside equal
      have nonempty := trimmed.separated.nonempty other inside
      rw [result] at inside
      rcases List.mem_append.mp inside with early | inside
      · have below := located.below other early
        omega
      · rcases List.mem_cons.mp inside with same | inside
        · rw [same] at equal
          have same : old.fileoff = off := equal
          omega
        · have above := located.above other inside
          have reaches := located.reaches
          omega
    rcases @blockInsert_keeps rb _ ⟨devid, off, size, addr / 4096⟩ trimmed bounded clear with
      ⟨cover, inside, coverStarts, coverEnds, others⟩
    refine clash _ cover (others block ?_ lower) inside coverStarts (Nat.le_of_eq coverEnds.symm)
    rw [result]
    exact List.mem_append_right _ (List.mem_cons_of_mem _ late)

/-- `upsert_blktree` overlays a range on the tree exactly if the range meets no extent but
the one that holds its first offset, and the device address is that of a block. -/
theorem upsert_overlays_iff (rb : Rebalancing Block) (tree : BinaryTree Block) (devid addr off size : Nat)
    (call : UpsertCall tree addr off size) :
    Overlaid tree (upsertBlktree rb tree devid addr off size) devid addr off size <->
      addr % 4096 = 0 ∧ forall block, block ∈ inorder tree -> off < block.fileoff ->
        off + size ≤ block.fileoff := by
  rcases call.located with ⟨old, before, after, located⟩
  have alone_iff : (forall block, ¬ Meets tree off size block) <->
      forall block, block ∈ inorder tree -> off < block.fileoff -> off + size ≤ block.fileoff := by
    unfold Meets
    constructor
    · exact fun alone block member lower =>
        Nat.le_of_not_lt (fun upper => alone block ⟨member, lower, upper⟩)
    · rintro apart block ⟨member, lower, upper⟩
      exact absurd (apart block member lower) (Nat.not_le.mpr upper)
  rw [← alone_iff]
  have address := call.address
  have nonempty := call.nonempty
  constructor
  · intro overlaid
    have alone : forall block, ¬ Meets tree off size block := fun block meets =>
      located.overlap call meets overlaid.disjoint
    refine ⟨?_, alone⟩
    rcases @Located.entered rb _ devid _ _ _ _ _ _ located call alone with ⟨formed, assigns⟩
    have first := overlaid.inside off (Nat.le_refl _) (by omega)
    rw [formed.translation_eq_some, assigns, if_pos ⟨Nat.le_refl _, by omega⟩] at first
    have place : low 64 (addr / 4096 * 4096 + (off - off)) = low 64 (addr + (off - off)) :=
      (Prod.mk.inj first).2
    unfold low at place
    omega
  · rintro ⟨aligned, alone⟩
    rcases @Located.entered rb _ devid _ _ _ _ _ _ located call alone with ⟨formed, assigns⟩
    refine ⟨formed.separated.disjoint, ?_, ?_⟩
    · intro offset lower upper
      rw [formed.translation_eq_some, assigns, if_pos ⟨lower, upper⟩]
      refine Prod.ext rfl ?_
      change low 64 (addr / 4096 * 4096 + (offset - off)) = low 64 (addr + (offset - off))
      rw [Nat.div_mul_cancel (Nat.dvd_of_mod_eq_zero aligned)]
    · intro offset outside some
      rcases Option.isSome_iff_exists.mp some with ⟨location, found⟩
      rw [found, formed.translation_eq_some, assigns, if_neg outside]
      exact call.formed.translation_eq_some.mp found

end Upsert

/-- A range inside an extent of three blocks. -/
theorem upsert_overlays_middle :
    Overlaid (.node ⟨1, 0, 12288, 512⟩ .nil .nil)
      (upsertBlktree (Rebalancing.keep Block) (.node ⟨1, 0, 12288, 512⟩ .nil .nil) 1 4194304 4096 4096)
      1 4194304 4096 4096 :=
  (upsert_overlays_iff (Rebalancing.keep Block) (.node ⟨1, 0, 12288, 512⟩ .nil .nil) 1 4194304 4096 4096
    { formed := ⟨⟨by decide, by simp [inorder]⟩, by decide⟩
      aligned := by decide
      alignedOff := by decide
      alignedSize := by decide
      nonempty := by decide
      bounded := by decide
      address := by decide
      covered := by decide }).mpr ⟨by decide, by decide⟩

/-- A range over two extents of one block each: the second one stays in the tree and overlaps
the range. -/
theorem upsert_leaves_overlap :
    let tree : BinaryTree Block := .node ⟨1, 0, 4096, 512⟩ .nil (.node ⟨2, 4096, 4096, 7⟩ .nil .nil)
    UpsertCall tree 4194304 0 8192 ∧
      ¬ Overlaid tree (upsertBlktree (Rebalancing.keep Block) tree 1 4194304 0 8192) 1 4194304 0 8192 := by
  intro tree
  constructor
  · exact
      { formed := ⟨⟨by decide, by simp [tree, inorder, Block.fileend]⟩, by decide⟩
        aligned := by decide
        alignedOff := by decide
        alignedSize := by decide
        nonempty := by decide
        bounded := by decide
        address := by decide
        covered := by decide }
  · intro overlaid
    have extents : inorder (upsertBlktree (Rebalancing.keep Block) tree 1 4194304 0 8192) =
        [⟨1, 0, 8192, 1024⟩, ⟨2, 4096, 4096, 7⟩] := by decide
    have disjoint := overlaid.disjoint
    rw [extents, List.pairwise_pair] at disjoint
    exact disjoint 4096 (by decide) (by decide)

end Userfs.Filesystem
