import Userfs.Library.IntervalTree
import Userfs.Library.Word

namespace Userfs.Ds

open SearchTree
open Word

/-!
# The block tree of an inode

`blktree.h` keeps the extents of a file in a red-black tree ordered by file
offset.  Insertion first walks the tree with a comparator that includes the end
of each extent, and grows the extent it stops at when the new block continues
it on the device.  Otherwise it walks a second time by starting offset and
links a new node.

Sums of an offset and a size wrap at 64 bits here as they do in C; the
well-formedness of a tree contains the bound that rules this out.
-/

/-- One extent: `size` bytes of the file from `fileoff`, stored on device
`devid` from block `addr` on. -/
structure Block where
  devid : Nat
  fileoff : Nat
  size : Nat
  addr : Nat
deriving DecidableEq, Repr

namespace Block

/-- The first file offset behind an extent. -/
def fileend (block : Block) : Nat :=
  block.fileoff + block.size

/-- An extent covers the file offsets from `fileoff` to its end. -/
abbrev Covers (block : Block) (offset : Nat) : Prop :=
  Interval.Covers fileoff fileend block offset

/-- Two extents share no file offset. -/
abbrev Disjoint (first second : Block) : Prop :=
  Interval.Disjoint fileoff fileend first second

/-- The device and the byte address an extent assigns to a file offset, as
the readers compute it in unsigned 64-bit arithmetic. -/
def translate (block : Block) (offset : Nat) : Nat × Nat :=
  (block.devid, low 64 (block.addr * 4096 + (offset - block.fileoff)))

end Block

/-- Compare an offset with an extent, the end excluded. -/
def fileoffcmp (offset fileoff size : Nat) : Ordering :=
  if offset < fileoff then .lt
  else if add64 fileoff size ≤ offset then .gt
  else .eq

/-- Compare an offset with an extent, the end included. -/
def nodecmp (offset fileoff size : Nat) : Ordering :=
  if offset < fileoff then .lt
  else if add64 fileoff size < offset then .gt
  else .eq

/-- Find the extent that contains an offset. -/
def blockSearch (tree : BinaryTree Block) (offset : Nat) : Option Block :=
  search (fun block => fileoffcmp offset block.fileoff block.size) tree

/-- The growth step of `block_insert`: the new block must follow `this` on
the same device, which is tested by a wrapped difference of block numbers. -/
def mergeInto (block this : Block) : Option Block :=
  if this.devid = block.devid ∧ shl64 (sub64 block.addr this.addr) 12 = this.size then
    some { this with size := sub64 (add64 block.fileoff block.size) this.fileoff }
  else none

/-- `block_insert`, with its return value: 1 when a node was linked. -/
def blockInsert (rb : Rebalancing Block) (tree : BinaryTree Block) (block : Block) :
    BinaryTree Block × Nat :=
  match adjust (fun this => nodecmp block.fileoff this.fileoff this.size) (mergeInto block) tree with
  | some merged => (merged, 0)
  | none =>
      match link (fun this => compare block.fileoff this.fileoff) block tree with
      | some linked => (rb.insertColor linked, 1)
      | none => (tree, 0)

/-- Change the extent that `block_search` finds for an offset, in place. -/
def blockModify (tree : BinaryTree Block) (offset : Nat) (change : Block -> Block) :
    BinaryTree Block :=
  (adjust (fun block => fileoffcmp offset block.fileoff block.size)
    (fun block => some (change block)) tree).getD tree

/-- The device location the tree assigns to a file offset. -/
def translation (tree : BinaryTree Block) (offset : Nat) : Option (Nat × Nat) :=
  (blockSearch tree offset).map (fun block => block.translate offset)

/-! ## Well-formed trees -/

/-- A block tree whose in-order extents are nonempty, follow one another and
end below `2^64`. -/
structure WellFormed (tree : BinaryTree Block) : Prop where
  separated : Interval.Separated Block.fileoff Block.fileend (inorder tree)
  bounded : forall block, block ∈ inorder tree -> block.fileend < 2 ^ 64

theorem WellFormed.nil : WellFormed .nil where
  separated := ⟨by simp [inorder], by simp [inorder]⟩
  bounded := by simp [inorder]

theorem fileoffcmp_eq_lt {offset fileoff size : Nat} :
    fileoffcmp offset fileoff size = .lt <-> offset < fileoff := by
  unfold fileoffcmp
  split
  · simp_all
  · split <;> simp_all

theorem fileoffcmp_eq_gt {offset : Nat} {block : Block} (bounded : block.fileend < 2 ^ 64) :
    fileoffcmp offset block.fileoff block.size = .gt <->
      block.fileoff ≤ offset ∧ block.fileend ≤ offset := by
  unfold fileoffcmp
  rw [add64_of_lt bounded]
  change _ <-> block.fileoff ≤ offset ∧ block.fileoff + block.size ≤ offset
  split
  · simp
    omega
  · split <;> simp <;> omega

theorem fileoffcmp_eq_eq {offset : Nat} {block : Block} (bounded : block.fileend < 2 ^ 64) :
    fileoffcmp offset block.fileoff block.size = .eq <-> block.Covers offset := by
  unfold fileoffcmp
  rw [add64_of_lt bounded]
  change _ <-> block.fileoff ≤ offset ∧ offset < block.fileoff + block.size
  split
  · simp
    omega
  · split <;> simp <;> omega

theorem nodecmp_eq_lt {offset fileoff size : Nat} :
    nodecmp offset fileoff size = .lt <-> offset < fileoff := by
  unfold nodecmp
  split
  · simp_all
  · split <;> simp_all

theorem nodecmp_eq_gt {offset : Nat} {block : Block} (bounded : block.fileend < 2 ^ 64) :
    nodecmp offset block.fileoff block.size = .gt <->
      block.fileoff ≤ offset ∧ block.fileend < offset := by
  unfold nodecmp
  rw [add64_of_lt bounded]
  change _ <-> block.fileoff ≤ offset ∧ block.fileoff + block.size < offset
  split
  · simp
    omega
  · split <;> simp <;> omega

theorem nodecmp_eq_eq {offset : Nat} {block : Block} (bounded : block.fileend < 2 ^ 64) :
    nodecmp offset block.fileoff block.size = .eq <->
      block.fileoff ≤ offset ∧ offset ≤ block.fileend := by
  unfold nodecmp
  rw [add64_of_lt bounded]
  change _ <-> block.fileoff ≤ offset ∧ offset ≤ block.fileoff + block.size
  split
  · simp
    omega
  · split <;> simp <;> omega

/-- The walk of `block_search` is directed in a well-formed tree. -/
theorem WellFormed.search_directed {tree : BinaryTree Block} (formed : WellFormed tree)
    (offset : Nat) :
    Directed (fun block => fileoffcmp offset block.fileoff block.size) (inorder tree) := by
  refine List.Pairwise.imp_of_mem ?_ formed.separated.ordered
  intro first second firstMember secondMember ends
  have firstBound := formed.bounded first firstMember
  have secondBound := formed.bounded second secondMember
  have firstNonempty := formed.separated.nonempty first firstMember
  constructor
  · intro turned
    have before := fileoffcmp_eq_lt.mp turned
    exact fileoffcmp_eq_lt.mpr (by omega)
  · intro turned
    have behind := (fileoffcmp_eq_gt secondBound).mp turned
    exact (fileoffcmp_eq_gt firstBound).mpr (by omega)

/-- `block_search` returns exactly the stored extent that covers the offset. -/
theorem WellFormed.blockSearch_eq_some {tree : BinaryTree Block} (formed : WellFormed tree)
    {offset : Nat} {block : Block} :
    blockSearch tree offset = some block <-> block ∈ inorder tree ∧ block.Covers offset := by
  constructor
  · intro found
    have sound := search_sound found
    exact ⟨sound.1, (fileoffcmp_eq_eq (formed.bounded block sound.1)).mp sound.2⟩
  · rintro ⟨member, covers⟩
    have stops := (fileoffcmp_eq_eq (formed.bounded block member)).mpr covers
    have present := search_complete (formed.search_directed offset) member stops
    rcases Option.isSome_iff_exists.mp present with ⟨found, equal⟩
    have sound := search_sound equal
    have foundCovers := (fileoffcmp_eq_eq (formed.bounded found sound.1)).mp sound.2
    have same := formed.separated.unique member sound.1 covers foundCovers
    rw [same]
    exact equal

/-- `block_modify` changes the extent that a search finds and no other. -/
theorem WellFormed.blockModify_inorder {tree : BinaryTree Block} (formed : WellFormed tree)
    {offset : Nat} {old : Block} (found : blockSearch tree offset = some old)
    (change : Block -> Block) :
    Exists fun before => Exists fun after => inorder tree = before ++ old :: after ∧
      inorder (blockModify tree offset change) = before ++ change old :: after := by
  have reached := @adjust_of_search Block _ (fun block => some (change block)) tree old _ found rfl
  rcases reached with ⟨adjusted, done⟩
  rcases adjust_inorder done with ⟨before, value, new, after, first, second, stops, applied⟩
  have member : value ∈ inorder tree := by
    rw [first]
    exact List.mem_append_right _ List.mem_cons_self
  have covers := (fileoffcmp_eq_eq (formed.bounded value member)).mp stops
  have same : old = value := by
    have again := formed.blockSearch_eq_some.mpr ⟨member, covers⟩
    exact Option.some.inj (found.symm.trans again)
  rw [same] at *
  rw [← Option.some.inj applied] at second
  refine ⟨before, after, first, ?_⟩
  unfold blockModify
  rw [done]
  exact second

/-- Some extent of a list assigns a device location to a file offset. -/
def Assigns (extents : List Block) (offset : Nat) (location : Nat × Nat) : Prop :=
  Exists fun block => block ∈ extents ∧ block.Covers offset ∧ block.translate offset = location

theorem assigns_append {before after : List Block} {offset : Nat} {location : Nat × Nat} :
    Assigns (before ++ after) offset location <->
      Assigns before offset location ∨ Assigns after offset location := by
  simp only [Assigns, List.mem_append, or_and_right, exists_or]

theorem assigns_append_cons {before after : List Block} {block : Block} {offset : Nat}
    {location : Nat × Nat} :
    Assigns (before ++ block :: after) offset location <->
      Assigns before offset location ∨
        (block.Covers offset ∧ block.translate offset = location) ∨
          Assigns after offset location := by
  rw [assigns_append]
  simp only [Assigns, List.mem_cons, or_and_right, exists_or, exists_eq_left]

/-- The lookup in a well-formed tree computes the assignment of its extents. -/
theorem WellFormed.translation_eq_some {tree : BinaryTree Block} (formed : WellFormed tree)
    {offset : Nat} {location : Nat × Nat} :
    translation tree offset = some location <-> Assigns (inorder tree) offset location := by
  unfold translation
  rw [Option.map_eq_some_iff]
  constructor
  · rintro ⟨block, found, equal⟩
    rcases formed.blockSearch_eq_some.mp found with ⟨member, covers⟩
    exact ⟨block, member, covers, equal⟩
  · rintro ⟨block, member, covers, equal⟩
    exact ⟨block, formed.blockSearch_eq_some.mpr ⟨member, covers⟩, equal⟩

theorem WellFormed.blockSearch_isSome {tree : BinaryTree Block} (formed : WellFormed tree)
    {offset : Nat} : (blockSearch tree offset).isSome = true <->
      Exists fun block => block ∈ inorder tree ∧ block.Covers offset := by
  rw [Option.isSome_iff_exists]
  exact exists_congr (fun block => formed.blockSearch_eq_some)

/-! ## Replacement of an extent -/

/-! ## Insertion of a block that lies apart -/

/-- A nonempty block with a bounded end that meets no extent of the tree. -/
structure Fits (tree : BinaryTree Block) (block : Block) : Prop where
  nonempty : 0 < block.size
  bounded : block.fileend < 2 ^ 64
  apart : forall old, old ∈ inorder tree -> old.Disjoint block

section Insertion

variable {tree : BinaryTree Block} {block : Block}

/-- A stored extent lies wholly before or wholly behind the new block. -/
theorem Fits.before_or_behind (formed : WellFormed tree) (fits : Fits tree block) {old : Block}
    (member : old ∈ inorder tree) :
    old.fileend ≤ block.fileoff ∨ block.fileend ≤ old.fileoff := by
  have newNonempty : block.fileoff < block.fileend :=
    Nat.lt_add_of_pos_right fits.nonempty
  have oldNonempty := formed.separated.nonempty old member
  rcases Nat.le_total old.fileoff block.fileoff with before | behind
  · exact Or.inl ((fits.apart old member).upper_le_lower newNonempty before)
  · exact Or.inr ((fits.apart old member).symm.upper_le_lower oldNonempty behind)

/-- The inclusive walk stops only at the left neighbour that ends where the
new block starts. -/
theorem Fits.nodecmp_eq_eq (formed : WellFormed tree) (fits : Fits tree block) {old : Block}
    (member : old ∈ inorder tree)
    (stops : nodecmp block.fileoff old.fileoff old.size = .eq) :
    old.fileend = block.fileoff := by
  have reached := (Ds.nodecmp_eq_eq (formed.bounded old member)).mp stops
  have placed := fits.before_or_behind formed member
  have newNonempty := fits.nonempty
  unfold Block.fileend at *
  omega

/-- A grown extent covers its own offsets and those of the new block, and
translates both as they were translated before. -/
theorem mergeInto_spec {this grown : Block} (meets : this.fileend = block.fileoff)
    (bounded : block.fileend < 2 ^ 64) (merged : mergeInto block this = some grown) :
    grown.devid = this.devid ∧ this.devid = block.devid ∧ grown.fileoff = this.fileoff ∧
      grown.fileend = block.fileend ∧ grown.addr = this.addr ∧
      low 64 (this.addr * 4096 + this.size) = low 64 (block.addr * 4096) := by
  unfold mergeInto at merged
  split at merged
  · rename_i follows
    cases merged
    have sum : add64 block.fileoff block.size = block.fileend := add64_of_lt bounded
    have ordered : this.fileoff ≤ block.fileend := by
      unfold Block.fileend at *
      omega
    refine ⟨rfl, follows.1, rfl, ?_, rfl, ?_⟩
    · change this.fileoff + sub64 (add64 block.fileoff block.size) this.fileoff = block.fileend
      rw [sum, sub64_of_le ordered bounded]
      omega
    · rw [← follows.2]
      exact low_add_shl64_sub64 block.addr this.addr 12
  · cases merged

/-- The state of a tree after a block was added: it is well formed again, and
assigns what it assigned before and what the block assigns. -/
structure Extended (tree result : BinaryTree Block) (block : Block) : Prop where
  formed : WellFormed result
  assigns : forall offset location, Assigns (inorder result) offset location <->
    Assigns (inorder tree) offset location ∨
      block.Covers offset ∧ block.translate offset = location

/-- Growing the left neighbour adds the new block. -/
theorem extended_of_merge (formed : WellFormed tree) (fits : Fits tree block)
    {result : BinaryTree Block} {before after : List Block} {this grown : Block}
    (first : inorder tree = before ++ this :: after)
    (second : inorder result = before ++ grown :: after)
    (stops : nodecmp block.fileoff this.fileoff this.size = .eq)
    (merged : mergeInto block this = some grown) : Extended tree result block := by
  have thisMember : this ∈ inorder tree := by simp [first]
  have meets := fits.nodecmp_eq_eq formed thisMember stops
  rcases mergeInto_spec meets fits.bounded merged with
    ⟨sameDev, thisDev, sameOff, sameEnd, sameAddr, follows⟩
  have newNonempty := fits.nonempty
  have thisNonempty := formed.separated.nonempty this thisMember
  have separated := first ▸ formed.separated
  have order := List.pairwise_append.mp separated.ordered
  have rest : Interval.Separated Block.fileoff Block.fileend (before ++ grown :: after) := by
    refine separated.remove.insert ?_ ?_ ?_
    · unfold Block.fileend at *
      omega
    · intro old member
      rw [sameOff]
      exact order.2.2 old member this List.mem_cons_self
    · -- the extents behind the neighbour start behind the block as well
      intro old member
      have behind := (List.pairwise_cons.mp order.2.1).1 old member
      have oldMember : old ∈ inorder tree := by simp [first, member]
      have oldNonempty := formed.separated.nonempty old oldMember
      rw [sameEnd]
      rcases fits.before_or_behind formed oldMember with placed | placed
      · omega
      · exact placed
  have covers : forall offset, grown.Covers offset <-> this.Covers offset ∨ block.Covers offset := by
    intro offset
    unfold Block.Covers Interval.Covers
    unfold Block.fileend at *
    omega
  have ofThis : forall offset, grown.translate offset = this.translate offset := by
    intro offset
    unfold Block.translate
    rw [sameDev, sameOff, sameAddr]
  have ofBlock : forall offset, block.Covers offset ->
      grown.translate offset = block.translate offset := by
    intro offset inside
    have split : offset - this.fileoff = this.size + (offset - block.fileoff) := by
      have start := inside.1
      unfold Block.fileend at meets
      omega
    unfold Block.translate
    rw [sameDev, thisDev, sameOff, sameAddr, split, ← Nat.add_assoc]
    unfold low at *
    rw [Nat.add_mod, follows, ← Nat.add_mod]
  constructor
  · refine ⟨second ▸ rest, ?_⟩
    intro old member
    rw [second] at member
    rcases List.mem_append.mp member with inBefore | inRest
    · exact formed.bounded old (by simp [first, inBefore])
    · rcases List.mem_cons.mp inRest with same | inAfter
      · rw [same, sameEnd]
        exact fits.bounded
      · exact formed.bounded old (by simp [first, inAfter])
  · intro offset location
    have ofGrown : grown.Covers offset ∧ grown.translate offset = location <->
        (this.Covers offset ∧ this.translate offset = location) ∨
          block.Covers offset ∧ block.translate offset = location := by
      rw [covers]
      constructor
      · rintro ⟨inThis | inBlock, equal⟩
        · exact Or.inl ⟨inThis, by rw [← ofThis, equal]⟩
        · exact Or.inr ⟨inBlock, by rw [← ofBlock offset inBlock, equal]⟩
      · rintro (⟨inThis, equal⟩ | ⟨inBlock, equal⟩)
        · exact ⟨Or.inl inThis, by rw [ofThis, equal]⟩
        · exact ⟨Or.inr inBlock, by rw [ofBlock offset inBlock, equal]⟩
    rw [first, second, assigns_append_cons, assigns_append_cons, ofGrown]
    simp only [or_left_comm, or_comm]

/-- Linking a new node between its neighbours adds the new block. -/
theorem extended_of_link (formed : WellFormed tree) (fits : Fits tree block)
    {result : BinaryTree Block} {before after : List Block}
    (first : inorder tree = before ++ after)
    (second : inorder result = before ++ block :: after)
    (isBefore : forall old, old ∈ before -> old.fileoff < block.fileoff)
    (isAfter : forall old, old ∈ after -> block.fileoff < old.fileoff) :
    Extended tree result block := by
  have newNonempty : block.fileoff < block.fileend := Nat.lt_add_of_pos_right fits.nonempty
  have rest : Interval.Separated Block.fileoff Block.fileend (before ++ block :: after) := by
    refine (first ▸ formed.separated).insert newNonempty ?_ ?_
    · intro old member
      have starts := isBefore old member
      have oldMember : old ∈ inorder tree := by simp [first, member]
      rcases fits.before_or_behind formed oldMember with placed | placed
      · exact placed
      · omega
    · intro old member
      have starts := isAfter old member
      have oldMember : old ∈ inorder tree := by simp [first, member]
      have oldNonempty := formed.separated.nonempty old oldMember
      rcases fits.before_or_behind formed oldMember with placed | placed
      · omega
      · exact placed
  constructor
  · refine ⟨second ▸ rest, ?_⟩
    intro old member
    rw [second] at member
    rcases List.mem_append.mp member with inBefore | inRest
    · exact formed.bounded old (by simp [first, inBefore])
    · rcases List.mem_cons.mp inRest with same | inAfter
      · rw [same]
        exact fits.bounded
      · exact formed.bounded old (by simp [first, inAfter])
  · intro offset location
    rw [first, second, assigns_append_cons, assigns_append]
    simp only [or_assoc, or_comm]

/-- The second walk of `block_insert` is directed. -/
theorem WellFormed.link_directed (formed : WellFormed tree) (offset : Nat) :
    Directed (fun this : Block => compare offset this.fileoff) (inorder tree) := by
  refine formed.separated.sorted.imp ?_
  intro first second starts
  constructor
  · intro turned
    have before := Nat.compare_eq_lt.mp turned
    exact Nat.compare_eq_lt.mpr (Nat.lt_trans before starts)
  · intro turned
    have behind := Nat.compare_eq_gt.mp turned
    exact Nat.compare_eq_gt.mpr (Nat.lt_trans starts behind)

/-- The second walk is directed and meets no extent with the block's start. -/
theorem Fits.link_directed (formed : WellFormed tree) (fits : Fits tree block) :
    Directed (fun this : Block => compare block.fileoff this.fileoff) (inorder tree) ∧
      forall old, old ∈ inorder tree -> compare block.fileoff old.fileoff ≠ .eq := by
  constructor
  · exact formed.link_directed block.fileoff
  · intro old member stops
    have same := Nat.compare_eq_eq.mp stops
    have oldNonempty := formed.separated.nonempty old member
    have newNonempty : block.fileoff < block.fileend := Nat.lt_add_of_pos_right fits.nonempty
    rcases fits.before_or_behind formed member with placed | placed <;> omega

/-- The first walk of `block_insert` is directed as well. -/
theorem WellFormed.insert_directed (formed : WellFormed tree) (offset : Nat) :
    Directed (fun this => nodecmp offset this.fileoff this.size) (inorder tree) := by
  refine List.Pairwise.imp_of_mem ?_ formed.separated.ordered
  intro first second firstMember secondMember ends
  have firstBound := formed.bounded first firstMember
  have secondBound := formed.bounded second secondMember
  have firstNonempty := formed.separated.nonempty first firstMember
  have secondNonempty := formed.separated.nonempty second secondMember
  constructor
  · intro turned
    have before := nodecmp_eq_lt.mp turned
    exact nodecmp_eq_lt.mpr (by omega)
  · intro turned
    have behind := (nodecmp_eq_gt secondBound).mp turned
    exact (nodecmp_eq_gt firstBound).mpr (by omega)

/-- A block that continues an extent makes it grow. -/
theorem blockInsert_merges (rb : Rebalancing Block) (formed : WellFormed tree)
    (fits : Fits tree block) {this grown : Block} (member : this ∈ inorder tree)
    (meets : this.fileend = block.fileoff) (merged : mergeInto block this = some grown) :
    Exists fun before => Exists fun after => inorder tree = before ++ this :: after ∧
      inorder (blockInsert rb tree block).1 = before ++ grown :: after := by
  have only : forall other, other ∈ inorder tree ->
      nodecmp block.fileoff other.fileoff other.size = .eq -> other = this := by
    intro other otherMember stops
    have otherMeets := fits.nodecmp_eq_eq formed otherMember stops
    have nonempty := formed.separated.nonempty this member
    have otherNonempty := formed.separated.nonempty other otherMember
    have covers : this.Covers (block.fileoff - 1) := ⟨by omega, by omega⟩
    exact formed.separated.unique otherMember member ⟨by omega, by omega⟩ covers
  have stops : nodecmp block.fileoff this.fileoff this.size = .eq := by
    have nonempty := formed.separated.nonempty this member
    exact (nodecmp_eq_eq (formed.bounded this member)).mpr ⟨by omega, by omega⟩
  rcases Option.isSome_iff_exists.mp
    (search_complete (formed.insert_directed block.fileoff) member stops) with ⟨found, equal⟩
  have sound := search_sound equal
  rw [only found sound.1 sound.2] at equal
  rcases adjust_of_search equal merged with ⟨adjusted, done⟩
  rcases adjust_inorder done with ⟨before, old, new, after, first, second, oldStops, applied⟩
  have same := only old (by simp [first]) oldStops
  subst same
  rw [merged] at applied
  cases applied
  refine ⟨before, after, first, ?_⟩
  unfold blockInsert
  rw [done]
  exact second

/-- A block that continues no extent gets a node of its own. -/
theorem blockInsert_links (rb : Rebalancing Block) (formed : WellFormed tree)
    (fits : Fits tree block) (alone : forall this, this ∈ inorder tree ->
      this.fileend = block.fileoff -> mergeInto block this = none) :
    Exists fun before => Exists fun after => inorder tree = before ++ after ∧
      inorder (blockInsert rb tree block).1 = before ++ block :: after := by
  unfold blockInsert
  split
  · rename_i merged done
    rcases adjust_inorder done with ⟨before, this, grown, after, first, second, stops, applied⟩
    have member : this ∈ inorder tree := by simp [first]
    rw [alone this member (fits.nodecmp_eq_eq formed member stops)] at applied
    cases applied
  · rcases fits.link_directed formed with ⟨directed, clear⟩
    rcases link_inorder block directed clear with ⟨linked, before, after, done, first, second, _⟩
    rw [done]
    exact ⟨before, after, first, (rb.inorder_insertColor linked).trans second⟩

/-- `block_insert` adds a block that lies apart, merged or linked. -/
theorem blockInsert_extended (rb : Rebalancing Block) (formed : WellFormed tree)
    (fits : Fits tree block) : Extended tree (blockInsert rb tree block).1 block := by
  unfold blockInsert
  split
  · rename_i merged done
    rcases adjust_inorder done with ⟨before, this, grown, after, first, second, stops, applied⟩
    exact extended_of_merge formed fits first second stops applied
  · rcases fits.link_directed formed with ⟨directed, clear⟩
    rcases link_inorder block directed clear with
      ⟨linked, before, after, done, first, second, isBefore, isAfter⟩
    rw [done]
    refine extended_of_link formed fits first ((rb.inorder_insertColor linked).trans second) ?_ ?_
    · intro old member
      exact Nat.compare_eq_gt.mp (isBefore old member)
    · intro old member
      exact Nat.compare_eq_lt.mp (isAfter old member)

/-- The refinement of `block_insert`: on the assignment of offsets to device
locations it is the pointwise update by the new block. -/
theorem translation_blockInsert (rb : Rebalancing Block) (formed : WellFormed tree)
    (fits : Fits tree block) (offset : Nat) :
    translation (blockInsert rb tree block).1 offset =
      if block.Covers offset then some (block.translate offset) else translation tree offset := by
  have extended := blockInsert_extended rb formed fits
  apply Option.ext
  intro location
  rw [extended.formed.translation_eq_some, extended.assigns]
  split
  · rename_i inside
    constructor
    · rintro (⟨old, member, covers, _⟩ | ⟨_, equal⟩)
      · exact absurd inside (fits.apart old member offset covers)
      · rw [equal]
    · intro equal
      exact Or.inr ⟨inside, Option.some.inj equal⟩
  · rename_i outside
    rw [formed.translation_eq_some]
    constructor
    · rintro (assigned | ⟨inside, _⟩)
      · exact assigned
      · exact absurd inside outside
    · exact Or.inl

end Insertion

/-- A search tree of disjoint nonempty extents and a new block disjoint from
all of them: after `block_insert` the extents are again sorted and disjoint, an
offset is found exactly when it was covered before or lies in the block, and
its translation is the one of the old extent or of the block. -/
theorem blockInsert_is_interval_map_insertion (rb : Rebalancing Block) (tree : BinaryTree Block)
    (block : Block)
    (nonempty : forall old, old ∈ inorder tree -> 0 < old.size)
    (sorted : (inorder tree).Pairwise (fun first second => first.fileoff < second.fileoff))
    (disjoint : (inorder tree).Pairwise Block.Disjoint)
    (ends : forall old, old ∈ inorder tree -> old.fileend < 2 ^ 64)
    (newNonempty : 0 < block.size) (newEnd : block.fileend < 2 ^ 64)
    (apart : forall old, old ∈ inorder tree -> old.Disjoint block) :
    (inorder (blockInsert rb tree block).1).Pairwise
        (fun first second => first.fileoff < second.fileoff) ∧
      (inorder (blockInsert rb tree block).1).Pairwise Block.Disjoint ∧
      (forall offset, (blockSearch (blockInsert rb tree block).1 offset).isSome = true <->
        (Exists fun old => old ∈ inorder tree ∧ old.Covers offset) ∨ block.Covers offset) ∧
      (forall old offset, old ∈ inorder tree -> old.Covers offset ->
        translation (blockInsert rb tree block).1 offset = some (old.translate offset)) ∧
      (forall offset, block.Covers offset ->
        translation (blockInsert rb tree block).1 offset = some (block.translate offset)) := by
  have formed : WellFormed tree :=
    ⟨Interval.Separated.of_sorted
      (fun old member => Nat.lt_add_of_pos_right (nonempty old member)) sorted disjoint, ends⟩
  have fits : Fits tree block := ⟨newNonempty, newEnd, apart⟩
  have extended := blockInsert_extended rb formed fits
  refine ⟨extended.formed.separated.sorted, extended.formed.separated.disjoint, ?_, ?_, ?_⟩
  · intro offset
    rw [extended.formed.blockSearch_isSome]
    constructor
    · rintro ⟨found, member, covers⟩
      have assigned := (extended.assigns offset (found.translate offset)).mp
        ⟨found, member, covers, rfl⟩
      rcases assigned with ⟨old, oldMember, oldCovers, _⟩ | ⟨inside, _⟩
      · exact Or.inl ⟨old, oldMember, oldCovers⟩
      · exact Or.inr inside
    · rintro (⟨old, member, covers⟩ | inside)
      · rcases (extended.assigns offset (old.translate offset)).mpr
            (Or.inl ⟨old, member, covers, rfl⟩) with ⟨found, foundMember, foundCovers, _⟩
        exact ⟨found, foundMember, foundCovers⟩
      · rcases (extended.assigns offset (block.translate offset)).mpr
            (Or.inr ⟨inside, rfl⟩) with ⟨found, foundMember, foundCovers, _⟩
        exact ⟨found, foundMember, foundCovers⟩
  · intro old offset member covers
    exact extended.formed.translation_eq_some.mpr
      ((extended.assigns _ _).mpr (Or.inl ⟨old, member, covers, rfl⟩))
  · intro offset inside
    exact extended.formed.translation_eq_some.mpr
      ((extended.assigns _ _).mpr (Or.inr ⟨inside, rfl⟩))

/-- A second block that continues the first one on its device is merged, and
one on another device is linked; both are then found. -/
theorem blockInsert_merges_and_links :
    (forall offset, Block.Covers ⟨1, 4096, 8192, 8⟩ offset ->
      translation (blockInsert (Rebalancing.keep Block) (.node ⟨1, 0, 4096, 7⟩ .nil .nil)
        ⟨1, 4096, 8192, 8⟩).1 offset = some (Block.translate ⟨1, 4096, 8192, 8⟩ offset)) ∧
      (forall offset, Block.Covers ⟨2, 4096, 8192, 8⟩ offset ->
        translation (blockInsert (Rebalancing.keep Block) (.node ⟨1, 0, 4096, 7⟩ .nil .nil)
          ⟨2, 4096, 8192, 8⟩).1 offset = some (Block.translate ⟨2, 4096, 8192, 8⟩ offset)) := by
  have apart : forall devid, Block.Disjoint ⟨1, 0, 4096, 7⟩ ⟨devid, 4096, 8192, 8⟩ := by
    intro devid point first second
    exact Nat.lt_irrefl point (Nat.lt_of_lt_of_le first.2 second.1)
  constructor
  · exact (blockInsert_is_interval_map_insertion (Rebalancing.keep Block)
      (.node ⟨1, 0, 4096, 7⟩ .nil .nil) ⟨1, 4096, 8192, 8⟩ (by decide) (by simp [inorder])
      (by simp [inorder]) (by decide) (by decide) (by decide)
      (by simpa [inorder] using apart 1)).2.2.2.2
  · exact (blockInsert_is_interval_map_insertion (Rebalancing.keep Block)
      (.node ⟨1, 0, 4096, 7⟩ .nil .nil) ⟨2, 4096, 8192, 8⟩ (by decide) (by simp [inorder])
      (by simp [inorder]) (by decide) (by decide) (by decide)
      (by simpa [inorder] using apart 2)).2.2.2.2

end Userfs.Ds
