import Userfs.Filesystem.Radix

namespace Userfs.Filesystem

open Ds
open Io
open SearchTree
open Word

/-!
# What a lookup enters in the block tree

`bmap` copies the leaf it finds into the block tree of the inode: one extent for a
chunk, 512 extents for a table.  It does so without asking what the tree already
holds in the 2 MB region, takes the device of all entries of a table from the entry
of the request, and enters null entries like any other.

In a region that the tree knows nothing about the result is right exactly when all
entries of the table are present and carry one tag.  A chunk is entered rightly
exactly in such a region.  Tables in a region with known extents follow in
`BmapTable`.
-/

/-! ## Insertion of several extents -/

theorem insertAll_extends (rb : Rebalancing Block) {tree : BinaryTree Block} {blocks : List Block}
    (formed : WellFormed tree) (fits : forall block, block ∈ blocks -> Fits tree block)
    (apart : blocks.Pairwise Block.Disjoint) :
    WellFormed (insertAll rb tree blocks) ∧
      forall offset location, Assigns (inorder (insertAll rb tree blocks)) offset location <->
        Assigns (inorder tree) offset location ∨ Assigns blocks offset location := by
  induction blocks generalizing tree with
  | nil =>
      refine ⟨formed, ?_⟩
      intro offset location
      simp [insertAll, Assigns]
  | cons block rest ih =>
      have first := fits block List.mem_cons_self
      have extended := blockInsert_extended rb formed first
      have later : forall other, other ∈ rest -> Fits (blockInsert rb tree block).1 other := by
        intro other member
        have old := fits other (List.mem_cons_of_mem _ member)
        refine ⟨old.nonempty, old.bounded, ?_⟩
        intro stored inResult point covers inOther
        rcases (extended.assigns point (stored.translate point)).mp ⟨stored, inResult, covers, rfl⟩ with
          ⟨known, inTree, knownCovers, _⟩ | ⟨inBlock, _⟩
        · exact old.apart known inTree point knownCovers inOther
        · exact (List.pairwise_cons.mp apart).1 other member point inBlock inOther
      have tail := ih extended.formed later (List.pairwise_cons.mp apart).2
      refine ⟨tail.1, ?_⟩
      intro offset location
      have here : Assigns (block :: rest) offset location <->
          (block.Covers offset ∧ block.translate offset = location) ∨
            Assigns rest offset location := by
        simp only [Assigns, List.mem_cons, or_and_right, exists_or, exists_eq_left]
      rw [here, ← or_assoc, ← extended.assigns]
      exact tail.2 offset location

/-! ## The property -/

/-- The region of 2 MB around an offset. -/
def InRegion (offset point : Nat) : Prop :=
  chunkFloor offset ≤ point ∧ point < chunkFloor offset + chunkSize

/-- Where the kernel's leaf pointer places a byte of the region: in the chunk it
names, or in the block of the byte's own entry, under the tag of that entry.  A null
entry places nothing. -/
def Store.leafLocation (store : Store) (pointer offset point : Nat) : Option (Nat × Nat) :=
  if 0 < tagOf pointer then
    some (tagOf pointer + 1, untag pointer / 4096 * 4096 + (point - chunkFloor offset))
  else if store.entry pointer (point / 4096 % 512) = 0 then none
  else
    some (tagOf (store.entry pointer (point / 4096 % 512)) + 1,
      untag (store.entry pointer (point / 4096 % 512)) / 4096 * 4096 + point % 4096)

/-- The tree after a lookup: its extents are disjoint, what was covered translates
as before, and the rest of the region as the kernel's leaf says. -/
structure Filled (location : Nat -> Option (Nat × Nat)) (offset : Nat)
    (tree result : BinaryTree Block) : Prop where
  disjoint : (inorder result).Pairwise Block.Disjoint
  kept : forall point, (blockSearch tree point).isSome = true ->
    translation result point = translation tree point
  filled : forall point, InRegion offset point -> blockSearch tree point = none ->
    translation result point = location point

/-- No extent of the tree meets the region. -/
def RegionClear (tree : BinaryTree Block) (offset : Nat) : Prop :=
  forall block, block ∈ inorder tree -> forall point, InRegion offset point -> ¬ block.Covers point

/-- A chunk, or a table whose entries are all present and carry the tag of the
entry that is asked for. -/
def Store.Uniform (store : Store) (pointer offset : Nat) : Prop :=
  0 < tagOf pointer ∨ forall index, index < 512 ->
    store.entry pointer index ≠ 0 ∧
      tagOf (store.entry pointer index) = tagOf (store.entry pointer (offset / 4096 % 512))

/-! ## A region that the tree knows nothing about -/

section Clear

variable {tree : BinaryTree Block} {offset : Nat}

theorem chunkFloor_mod (offset : Nat) : chunkFloor offset % chunkSize = 0 :=
  Nat.mul_mod_left _ _

/-- The entry of a byte of the region is the one its displacement selects. -/
theorem InRegion.index {point : Nat} (inside : InRegion offset point) :
    point / 4096 % 512 < 512 ∧
      chunkFloor offset + point / 4096 % 512 * 4096 + point % 4096 = point := by
  have aligned := chunkFloor_mod offset
  have chunk : chunkSize = 2097152 := rfl
  rcases inside with ⟨start, stop⟩
  generalize chunkFloor offset = base at *
  rw [chunk] at *
  omega

theorem inRegion_self (offset : Nat) : InRegion offset offset := by
  have chunk : chunkSize = 2097152 := rfl
  unfold InRegion chunkFloor
  rw [chunk]
  omega

theorem RegionClear.blockSearch_eq_none (formed : WellFormed tree) (clear : RegionClear tree offset)
    {point : Nat} (inside : InRegion offset point) : blockSearch tree point = none := by
  rw [← Option.not_isSome_iff_eq_none, formed.blockSearch_isSome]
  rintro ⟨block, member, covers⟩
  exact clear block member point inside covers

/-- Extents in a clear region fit the tree. -/
theorem RegionClear.fits (clear : RegionClear tree offset)
    (bound : chunkFloor offset + chunkSize < 2 ^ 64) {block : Block} (nonempty : 0 < block.size)
    (start : chunkFloor offset ≤ block.fileoff)
    (stop : block.fileend ≤ chunkFloor offset + chunkSize) : Fits tree block := by
  refine ⟨nonempty, by omega, ?_⟩
  intro old member point covers inBlock
  have lower := inBlock.1
  have upper := inBlock.2
  exact clear old member point ⟨by omega, by omega⟩ covers

/-- A lookup that adds extents of a clear region keeps what was there. -/
theorem filled_of_extends {result : BinaryTree Block} {blocks : List Block}
    {location : Nat -> Option (Nat × Nat)} (formed : WellFormed tree)
    (extended : WellFormed result ∧ forall point place, Assigns (inorder result) point place <->
      Assigns (inorder tree) point place ∨ Assigns blocks point place)
    (inside : forall block, block ∈ blocks -> forall point, block.Covers point -> InRegion offset point)
    (clear : RegionClear tree offset) :
    Filled location offset tree result <->
      forall point, InRegion offset point ->
        forall place, location point = some place <-> Assigns blocks point place := by
  have translated : forall point place, translation result point = some place <->
      translation tree point = some place ∨ Assigns blocks point place := by
    intro point place
    rw [extended.1.translation_eq_some, formed.translation_eq_some]
    exact extended.2 point place
  have uncovered : forall point, InRegion offset point -> translation tree point = none := by
    intro point inRegion
    unfold translation
    rw [clear.blockSearch_eq_none formed inRegion]
    rfl
  constructor
  · intro filled point inRegion place
    rw [← filled.filled point inRegion (clear.blockSearch_eq_none formed inRegion), translated,
      uncovered point inRegion]
    simp
  · intro agrees
    refine ⟨extended.1.separated.disjoint, ?_, ?_⟩
    · intro point present
      apply Option.ext
      intro place
      rw [translated]
      constructor
      · rintro (old | ⟨block, member, covers, _⟩)
        · exact old
        · have inRegion := inside block member point covers
          rw [clear.blockSearch_eq_none formed inRegion] at present
          exact nomatch present
      · exact Or.inl
    · intro point inRegion _
      apply Option.ext
      intro place
      rw [translated, uncovered point inRegion, agrees point inRegion]
      simp

/-- A byte of the region lies in the extent of its own entry. -/
theorem assigns_table {node : Nat -> Nat} {key point : Nat} {place : Nat × Nat}
    (inside : InRegion offset point) :
    Assigns ((List.range 512).map (tableBlock node key (chunkFloor offset))) point place <->
      (tableBlock node key (chunkFloor offset) (point / 4096 % 512)).translate point = place := by
  have located := inside.index
  have remainder : point % 4096 < 4096 := Nat.mod_lt _ (by decide)
  constructor
  · rintro ⟨block, member, covers, equal⟩
    rcases List.mem_map.mp member with ⟨index, below, made⟩
    subst made
    have lower : chunkFloor offset + index * 4096 ≤ point := covers.1
    have upper : point < chunkFloor offset + index * 4096 + 4096 := covers.2
    have same : point / 4096 % 512 = index := by omega
    rw [same]
    exact equal
  · intro equal
    refine ⟨_, List.mem_map.mpr ⟨point / 4096 % 512, List.mem_range.mpr located.1, rfl⟩, ?_, equal⟩
    have lower : chunkFloor offset + point / 4096 % 512 * 4096 ≤ point := by omega
    have upper : point < chunkFloor offset + point / 4096 % 512 * 4096 + 4096 := by omega
    exact ⟨lower, upper⟩

theorem tableBlock_translate (node : Nat -> Nat) (key : Nat) {point : Nat}
    (inside : InRegion offset point) :
    (tableBlock node key (chunkFloor offset) (point / 4096 % 512)).translate point =
      (tagOf (node key) + 1,
        low 64 ((if 0 < tagOf (node key) then untag (node (point / 4096 % 512)) / 4096
          else node (point / 4096 % 512) / 4096) * 4096 + point % 4096)) := by
  have located := inside.index
  have displacement : point - (chunkFloor offset + point / 4096 % 512 * 4096) = point % 4096 := by
    omega
  unfold Block.translate tableBlock
  simp only
  rw [displacement]

/-- An untagged address below the tag bits survives the 64-bit sum. -/
theorem low_untag (pointer extra : Nat) (small : extra < 2 ^ 62) :
    low 64 (untag pointer / 4096 * 4096 + extra) = untag pointer / 4096 * 4096 + extra := by
  have below : untag pointer < 2 ^ 62 := Nat.mod_lt _ (by decide)
  exact low_of_lt (by omega)

/-- A table block places a byte as the kernel does exactly when the byte's entry is
present and carries the tag of the entry that is asked for. -/
theorem leafLocation_table_iff {store : Store} {pointer point : Nat} (untagged : ¬ 0 < tagOf pointer)
    (inside : InRegion offset point) :
    store.leafLocation pointer offset point =
        some ((tableBlock (store.entry pointer) (offset / 4096 % 512) (chunkFloor offset)
          (point / 4096 % 512)).translate point) <->
      store.entry pointer (point / 4096 % 512) ≠ 0 ∧
        tagOf (store.entry pointer (point / 4096 % 512)) =
          tagOf (store.entry pointer (offset / 4096 % 512)) := by
  have remainder : point % 4096 < 4096 := Nat.mod_lt _ (by decide)
  rw [tableBlock_translate _ _ inside]
  unfold Store.leafLocation
  rw [if_neg untagged]
  generalize store.entry pointer (point / 4096 % 512) = entry
  constructor
  · intro located
    rcases Nat.eq_zero_or_pos entry with null | present
    · rw [if_pos null] at located
      cases located
    · rw [if_neg (Nat.ne_of_gt present)] at located
      have device := congrArg Prod.fst (Option.some.inj located)
      exact ⟨Nat.ne_of_gt present, Nat.succ.inj device⟩
  · rintro ⟨present, sameTag⟩
    rw [if_neg present, ← sameTag]
    have address : (if 0 < tagOf entry then untag entry / 4096 else entry / 4096) =
        untag entry / 4096 := by
      rcases Nat.eq_zero_or_pos (tagOf entry) with plain | tagged
      · rw [if_neg (by omega), untag_of_untagged (by omega)]
      · rw [if_pos tagged]
    rw [address, low_untag _ _ (by omega)]

/-- The first byte of an entry's block. -/
theorem inRegion_entry (offset : Nat) {index : Nat} (below : index < 512) :
    InRegion offset (chunkFloor offset + index * 4096) ∧
      (chunkFloor offset + index * 4096) / 4096 % 512 = index := by
  have aligned := chunkFloor_mod offset
  have chunk : chunkSize = 2097152 := rfl
  unfold InRegion
  generalize chunkFloor offset = base at aligned ⊢
  rw [chunk] at *
  omega

/-- In a clear region the entries of a table are right exactly when they are all
present with one tag. -/
theorem table_agrees_iff {store : Store} {pointer : Nat} (untagged : ¬ 0 < tagOf pointer) :
    (forall point, InRegion offset point -> forall place,
      store.leafLocation pointer offset point = some place <->
        (tableBlock (store.entry pointer) (offset / 4096 % 512) (chunkFloor offset)
          (point / 4096 % 512)).translate point = place) <-> store.Uniform pointer offset := by
  constructor
  · intro agrees
    refine .inr ?_
    intro index below
    -- the first byte of the entry's block tells its device
    rcases inRegion_entry offset below with ⟨inside, selected⟩
    have located := (leafLocation_table_iff untagged inside).mp ((agrees _ inside _).mpr rfl)
    rw [selected] at located
    exact located
  · intro uniform point inside place
    have present := uniform.resolve_left untagged _ inside.index.1
    rw [(leafLocation_table_iff untagged inside).mpr present, Option.some_inj]

/-- In a clear region a chunk is always right. -/
theorem chunk_agrees {store : Store} {pointer : Nat} (tagged : 0 < tagOf pointer) :
    forall point, InRegion offset point -> forall place,
      store.leafLocation pointer offset point = some place <->
        Assigns [⟨tagOf pointer + 1, chunkFloor offset, chunkSize, untag pointer / 4096⟩] point
          place := by
  intro point inside place
  have chunk : chunkSize = 2097152 := rfl
  have bound : point - chunkFloor offset < 2 ^ 62 := by
    have upper := inside.2
    omega
  unfold Store.leafLocation
  rw [if_pos tagged, Option.some_inj]
  constructor
  · intro equal
    refine ⟨_, List.mem_singleton.mpr rfl, inside, ?_⟩
    rw [← equal]
    unfold Block.translate
    rw [low_untag _ _ bound]
  · rintro ⟨block, member, _, equal⟩
    rw [List.mem_singleton.mp member] at equal
    unfold Block.translate at equal
    rw [low_untag _ _ bound] at equal
    exact equal

theorem tableBlocks_disjoint (node : Nat -> Nat) (key base : Nat) :
    ((List.range 512).map (tableBlock node key base)).Pairwise Block.Disjoint := by
  rw [List.pairwise_map]
  refine (List.pairwise_lt_range).imp ?_
  intro first second before point inFirst inSecond
  have upper : point < base + first * 4096 + 4096 := inFirst.2
  have lower : base + second * 4096 ≤ point := inSecond.1
  omega

theorem tableBlocks_inRegion (node : Nat -> Nat) (key : Nat) {block : Block}
    (member : block ∈ (List.range 512).map (tableBlock node key (chunkFloor offset))) :
    0 < block.size ∧ chunkFloor offset ≤ block.fileoff ∧
      block.fileend ≤ chunkFloor offset + chunkSize := by
  have chunk : chunkSize = 2097152 := rfl
  rcases List.mem_map.mp member with ⟨index, below, made⟩
  subst made
  have small := List.mem_range.mp below
  unfold Block.fileend tableBlock
  simp only
  omega

/-- A lookup in a clear region fills it rightly exactly when the leaf is a chunk
or a table of one tag without null entries. -/
theorem filled_clear_iff (rb : Rebalancing Block) {store : Store} {pointer : Nat}
    (formed : WellFormed tree) (bound : chunkFloor offset + chunkSize < 2 ^ 64)
    (clear : RegionClear tree offset) :
    Filled (store.leafLocation pointer offset) offset tree
        (insertAll rb tree (store.leafBlocks pointer offset)) <->
      store.Uniform pointer offset := by
  unfold Store.leafBlocks
  rcases Nat.eq_zero_or_pos (tagOf pointer) with plain | tagged
  · have untagged : ¬ 0 < tagOf pointer := by omega
    rw [if_neg untagged]
    have placed := fun block => @tableBlocks_inRegion offset (store.entry pointer)
      (offset / 4096 % 512) block
    have extended := insertAll_extends rb formed
      (fun block member => clear.fits bound (placed block member).1 (placed block member).2.1
        (placed block member).2.2)
      (tableBlocks_disjoint (store.entry pointer) (offset / 4096 % 512) (chunkFloor offset))
    have inside : forall block, block ∈ (List.range 512).map (tableBlock (store.entry pointer)
        (offset / 4096 % 512) (chunkFloor offset)) ->
        forall point, block.Covers point -> InRegion offset point := by
      intro block member point covers
      have lower := covers.1
      have upper := covers.2
      have ends := (placed block member).2
      exact ⟨by omega, by omega⟩
    rw [filled_of_extends formed extended inside clear, ← table_agrees_iff untagged]
    refine forall_congr' (fun point => forall_congr' (fun inRegion => forall_congr' (fun place => ?_)))
    rw [assigns_table inRegion]
  · rw [if_pos tagged]
    have chunk : 0 < chunkSize := by decide
    have fits := @RegionClear.fits tree offset clear bound
      ⟨tagOf pointer + 1, chunkFloor offset, chunkSize, untag pointer / 4096⟩ chunk
      (Nat.le_refl _) (Nat.le_refl _)
    have extended := insertAll_extends rb formed
      (fun block member => List.mem_singleton.mp member ▸ fits) (List.pairwise_singleton _ _)
    have inside : forall block, block ∈
        [(⟨tagOf pointer + 1, chunkFloor offset, chunkSize, untag pointer / 4096⟩ : Block)] ->
        forall point, block.Covers point -> InRegion offset point := by
      intro block member point covers
      rw [List.mem_singleton.mp member] at covers
      exact covers
    rw [filled_of_extends formed extended inside clear]
    exact ⟨fun _ => .inl tagged, fun _ => chunk_agrees tagged⟩

end Clear

/-! ## A chunk in a region with known extents -/

section Overlap

variable {tree : BinaryTree Block}

/-- Two different places of a list of disjoint extents share no byte. -/
theorem not_disjoint_of_insert {before after : List Block} {new old : Block} {point : Nat}
    (member : old ∈ before ++ after) (inOld : old.Covers point) (inNew : new.Covers point) :
    ¬ (before ++ new :: after).Pairwise Block.Disjoint := by
  intro disjoint
  have parts := List.pairwise_append.mp disjoint
  rcases List.mem_append.mp member with inBefore | inAfter
  · exact parts.2.2 old inBefore new List.mem_cons_self point inOld inNew
  · exact (List.pairwise_cons.mp parts.2.1).1 old inAfter point inNew inOld

/-- Sums that differ by less than the modulus differ modulo it. -/
theorem low_shift_ne {source target size shift extra : Nat} (less : shift < size)
    (small : size < 2 ^ 64) (continues : low 64 (source + size) = low 64 target) :
    low 64 (source + (shift + extra)) ≠ low 64 (target + extra) := by
  unfold low at *
  omega

/-- Growing an extent that already reaches into the new block misplaces the rest
of the block: the test for a merge compares device addresses, not file offsets. -/
theorem grown_misplaces {this grown block : Block} {point : Nat}
    (reaches : block.fileoff < this.fileend) (starts : this.fileoff ≤ block.fileoff)
    (bounded : this.fileend < 2 ^ 64) (behind : block.fileoff ≤ point)
    (merged : mergeInto block this = some grown) :
    grown.translate point ≠ block.translate point := by
  unfold mergeInto at merged
  split at merged
  · rename_i follows
    cases merged
    have continues : low 64 (this.addr * 4096 + this.size) = low 64 (block.addr * 4096) := by
      rw [← follows.2]
      exact low_add_shl64_sub64 block.addr this.addr 12
    unfold Block.fileend at reaches bounded
    have moved := @low_shift_ne _ _ _ (block.fileoff - this.fileoff) (point - block.fileoff)
      (by omega) (by omega) continues
    have distance : block.fileoff - this.fileoff + (point - block.fileoff) = point - this.fileoff := by
      omega
    rw [distance] at moved
    exact fun equal => moved (congrArg Prod.snd equal)
  · exact nomatch merged

theorem mergeInto_ends {this grown block : Block} (merged : mergeInto block this = some grown)
    (starts : this.fileoff ≤ block.fileoff) (bounded : block.fileend < 2 ^ 64) :
    grown.fileoff = this.fileoff ∧ grown.fileend = block.fileend := by
  unfold mergeInto at merged
  split at merged
  · cases merged
    have sum : add64 block.fileoff block.size = block.fileend := add64_of_lt bounded
    have ordered : this.fileoff ≤ block.fileend := Nat.le_trans starts (Nat.le_add_right _ _)
    refine ⟨rfl, ?_⟩
    change this.fileoff + sub64 (add64 block.fileoff block.size) this.fileoff = block.fileend
    rw [sum, sub64_of_le ordered bounded]
    omega
  · exact nomatch merged

/-- A translation comes from an extent that covers the offset. -/
theorem translation_mem {tree : BinaryTree Block} {offset : Nat} {place : Nat × Nat}
    (bounded : forall block, block ∈ inorder tree -> block.fileend < 2 ^ 64)
    (found : translation tree offset = some place) : Assigns (inorder tree) offset place := by
  unfold translation at found
  rcases Option.map_eq_some_iff.mp found with ⟨block, searched, equal⟩
  have sound := search_sound searched
  exact ⟨block, sound.1, (fileoffcmp_eq_eq (bounded block sound.1)).mp sound.2, equal⟩

/-- What `block_insert` can do to the sequence of extents, for any block: grow an
extent at which the first walk stops, link a new node, or leave the tree alone because
a known extent has the same start. -/
theorem blockInsert_cases (rb : Rebalancing Block) (tree : BinaryTree Block) (block : Block) :
    (Exists fun before => Exists fun this => Exists fun grown => Exists fun after =>
      inorder tree = before ++ this :: after ∧
        inorder (blockInsert rb tree block).1 = before ++ grown :: after ∧
        nodecmp block.fileoff this.fileoff this.size = .eq ∧ mergeInto block this = some grown) ∨
      (Exists fun before => Exists fun after => inorder tree = before ++ after ∧
        inorder (blockInsert rb tree block).1 = before ++ block :: after) ∨
      ((blockInsert rb tree block).1 = tree ∧
        Exists fun this => this ∈ inorder tree ∧ this.fileoff = block.fileoff) := by
  unfold blockInsert
  split
  · rename_i merged done
    exact .inl (adjust_inorder done)
  · split
    · rename_i linked done
      rcases link_eq_some done with ⟨before, after, first, second⟩
      exact .inr (.inl ⟨before, after, first, (rb.inorder_insertColor linked).trans second⟩)
    · rename_i rejected
      rcases Option.isSome_iff_exists.mp (link_eq_none_iff.mp rejected) with ⟨this, found⟩
      have sound := search_sound found
      exact .inr (.inr ⟨rfl, this, sound.1, (Nat.compare_eq_eq.mp sound.2).symm⟩)

/-- A chunk that meets a known extent is not entered rightly. -/
theorem chunk_needs_clear (rb : Rebalancing Block) {store : Store} {pointer offset : Nat}
    (formed : WellFormed tree) (bound : chunkFloor offset + chunkSize < 2 ^ 64)
    (tagged : 0 < tagOf pointer) (uncovered : blockSearch tree offset = none)
    (filled : Filled (store.leafLocation pointer offset) offset tree
      (insertAll rb tree (store.leafBlocks pointer offset))) : RegionClear tree offset := by
  intro old member point inside covers
  have asked := filled.filled offset (inRegion_self offset) uncovered
  have disjoint := filled.disjoint
  unfold Store.leafBlocks at asked disjoint
  rw [if_pos tagged] at asked disjoint
  generalize made : (⟨tagOf pointer + 1, chunkFloor offset, chunkSize, untag pointer / 4096⟩ : Block) =
    block at asked disjoint
  have inBlock : forall place, InRegion offset place <-> block.Covers place := by
    intro place
    rw [← made]
    exact Iff.rfl
  have expected := (@chunk_agrees offset store pointer tagged offset (inRegion_self offset)
    (block.translate offset)).mpr (by
      rw [made]
      exact ⟨block, List.mem_singleton.mpr rfl, (inBlock offset).mp (inRegion_self offset), rfl⟩)
  rw [expected] at asked
  change translation (blockInsert rb tree block).1 offset = _ at asked
  change (inorder (blockInsert rb tree block).1).Pairwise Block.Disjoint at disjoint
  rcases blockInsert_cases rb tree block with
    ⟨before, this, grown, after, first, second, stops, merged⟩ | ⟨before, after, first, second⟩ |
    ⟨same, _⟩
  · have thisMember : this ∈ inorder tree := by simp [first]
    have thisBound := formed.bounded this thisMember
    have blockEnd : block.fileend = chunkFloor offset + chunkSize := by rw [← made]; rfl
    have blockStart : block.fileoff = chunkFloor offset := by rw [← made]
    rcases (nodecmp_eq_eq thisBound).mp stops with ⟨starts, ends⟩
    rcases mergeInto_ends merged starts (by omega) with ⟨grownStart, grownEnd⟩
    rw [second] at disjoint
    rcases Nat.lt_or_eq_of_le ends with reaches | meets
    · -- the neighbour reaches into the region: the requested offset is misplaced
      have bounded : forall other, other ∈ before ++ grown :: after -> other.fileend < 2 ^ 64 := by
        intro other inResult
        rcases List.mem_append.mp inResult with inBefore | inRest
        · exact formed.bounded other (by simp [first, inBefore])
        · rcases List.mem_cons.mp inRest with equal | inAfter
          · rw [equal, grownEnd]
            omega
          · exact formed.bounded other (by simp [first, inAfter])
      rw [← second] at bounded
      rcases translation_mem bounded asked with ⟨found, inResult, foundCovers, equal⟩
      have notOld : found ∉ inorder tree := by
        intro inTree
        have present := formed.blockSearch_isSome.mpr ⟨found, inTree, foundCovers⟩
        rw [uncovered] at present
        exact nomatch present
      have isGrown : found = grown := by
        rw [second] at inResult
        rcases List.mem_append.mp inResult with inBefore | inRest
        · exact absurd (by simp [first, inBefore]) notOld
        · rcases List.mem_cons.mp inRest with equal | inAfter
          · exact equal
          · exact absurd (by simp [first, inAfter]) notOld
      rw [isGrown] at equal
      have behind : block.fileoff ≤ offset := by
        rw [blockStart]
        exact (inRegion_self offset).1
      exact grown_misplaces reaches starts thisBound behind merged equal
    · -- it ends where the region starts: the grown extent meets the known one
      have inGrown : grown.Covers point := by
        have lower := inside.1
        have upper := inside.2
        exact ⟨by omega, by omega⟩
      have elsewhere : old ∈ before ++ after := by
        rw [first] at member
        rcases List.mem_append.mp member with inBefore | inRest
        · exact List.mem_append_left _ inBefore
        · rcases List.mem_cons.mp inRest with equal | inAfter
          · have lower := inside.1
            have upper := covers.2
            rw [equal] at upper
            omega
          · exact List.mem_append_right _ inAfter
      exact not_disjoint_of_insert elsewhere covers inGrown disjoint
  · rw [first] at member
    rw [second] at disjoint
    exact not_disjoint_of_insert member covers ((inBlock point).mp inside) disjoint
  · rw [same] at asked
    unfold translation at asked
    rw [uncovered] at asked
    exact nomatch asked

end Overlap

end Userfs.Filesystem
