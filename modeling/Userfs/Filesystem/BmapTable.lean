import Userfs.Filesystem.BmapFill

namespace Userfs.Filesystem

open Ds
open Io
open SearchTree
open Word

/-!
# A table in a region with known extents

The 512 entries of a table are inserted one after another.  An entry whose block starts
where a known extent starts is skipped; any other entry is linked or grows the extent in
front of it, also if a known extent already reaches into its block.

Whether a known extent survives depends on the test for growth, which compares device
addresses only.  Where no entry of an occupied block passes that test the outcome is
known: every entry finds its block free of known extents, or starts with one of them.
-/

/-- The address of a block continues that of an extent on the same device. -/
def ContinuesAt (this block : Block) : Prop :=
  this.devid = block.devid ∧ low 64 (this.addr * 4096 + this.size) = low 64 (block.addr * 4096)

instance (this block : Block) : Decidable (ContinuesAt this block) :=
  inferInstanceAs (Decidable (_ ∧ _))

/-- A known extent starts at the offset. -/
def StartsAt (tree : BinaryTree Block) (offset : Nat) : Prop :=
  Exists fun known => known ∈ inorder tree ∧ known.fileoff = offset

instance (tree : BinaryTree Block) (offset : Nat) : Decidable (StartsAt tree offset) :=
  inferInstanceAs (Decidable (Exists fun known => known ∈ inorder tree ∧ _))

/-- A known extent reaches into the block. -/
def Occupied (tree : BinaryTree Block) (block : Block) : Prop :=
  Exists fun known => known ∈ inorder tree ∧
    known.fileoff < block.fileend ∧ block.fileoff < known.fileend

instance (tree : BinaryTree Block) (block : Block) : Decidable (Occupied tree block) :=
  inferInstanceAs (Decidable (Exists fun known => known ∈ inorder tree ∧ _))

/-- No entry of an occupied block grows an extent: its address continues neither that of a
known extent which reaches its start nor that of the entry before it. -/
def Unmerged (tree : BinaryTree Block) (blocks : Nat -> Block) : Prop :=
  forall index, index < 512 -> Occupied tree (blocks index) ->
    (forall known, known ∈ inorder tree -> known.fileoff ≤ (blocks index).fileoff ->
      (blocks index).fileoff ≤ known.fileend -> ¬ ContinuesAt known (blocks index)) ∧
    forall before, before < index -> before + 1 = index ->
      ¬ ContinuesAt (blocks before) (blocks index)

/-- The last piece of an extent is the block. -/
structure EndsWith (this block : Block) : Prop where
  devid : this.devid = block.devid
  starts : this.fileoff ≤ block.fileoff
  ends : this.fileend = block.fileend
  address : low 64 (this.addr * 4096 + (block.fileoff - this.fileoff)) = low 64 (block.addr * 4096)

/-- The extents while the first `count` blocks are entered: each is a known one or ends with
a block that was entered, known extents have only grown, and a block that met a known
extent without starting with one has an extent of its own. -/
structure Entering (tree : BinaryTree Block) (blocks : Nat -> Block) (count : Nat)
    (result : BinaryTree Block) : Prop where
  origin : forall this, this ∈ inorder result ->
    this ∈ inorder tree ∨ Exists fun index => index < count ∧ EndsWith this (blocks index)
  starts : forall this, this ∈ inorder result ->
    StartsAt tree this.fileoff ∨ Exists fun index => index < count ∧ this.fileoff = (blocks index).fileoff
  grown : forall known, known ∈ inorder tree -> Exists fun this => this ∈ inorder result ∧
    this.fileoff = known.fileoff ∧ known.fileend ≤ this.fileend
  entered : forall index, index < count -> ¬ StartsAt tree (blocks index).fileoff ->
    Occupied tree (blocks index) -> Exists fun this => this ∈ inorder result ∧
      this.fileoff = (blocks index).fileoff ∧ (blocks index).fileend ≤ this.fileend

section Steps

variable {tree result : BinaryTree Block} {node : Nat -> Nat} {key base count : Nat}

theorem mergeInto_continues {block this grown : Block} (merged : mergeInto block this = some grown) :
    ContinuesAt this block := by
  unfold mergeInto at merged
  split at merged
  case isTrue follows =>
    refine ⟨follows.1, ?_⟩
    rw [← follows.2]
    exact low_add_shl64_sub64 block.addr this.addr 12
  case isFalse => cases merged

theorem tableBlock_fileend (node : Nat -> Nat) (key base index : Nat) :
    (tableBlock node key base index).fileend = base + index * 4096 + 4096 :=
  rfl

theorem tableBlock_fileoff (node : Nat -> Nat) (key base index : Nat) :
    (tableBlock node key base index).fileoff = base + index * 4096 :=
  rfl

theorem EndsWith.self (block : Block) : EndsWith block block :=
  ⟨rfl, Nat.le_refl _, rfl, by rw [Nat.sub_self, Nat.add_zero]⟩

/-- What continues an extent continues its last piece. -/
theorem EndsWith.continues {this last block : Block} (ends : EndsWith this last)
    (follows : ContinuesAt this block) : ContinuesAt last block := by
  refine ⟨ends.devid.symm.trans follows.1, ?_⟩
  have start := ends.starts
  have whole : this.size = last.fileoff - this.fileoff + last.size := by
    have equal := ends.ends
    unfold Block.fileend at equal
    omega
  have shifted : this.addr * 4096 + (last.fileoff - this.fileoff) ≡ last.addr * 4096 [MOD 2 ^ 64] :=
    ends.address
  rw [← follows.2, whole, ← Nat.add_assoc]
  exact (shifted.add_right last.size).symm

theorem Entering.bounded (formed : WellFormed tree) (bound : base + 512 * 4096 < 2 ^ 64)
    (within : count ≤ 512) (traced : Entering tree (tableBlock node key base) count result) {this : Block}
    (member : this ∈ inorder result) : this.fileend < 2 ^ 64 := by
  rcases traced.origin this member with known | ⟨index, below, ends⟩
  · exact formed.bounded this known
  · rw [ends.ends, tableBlock_fileend]
    omega

/-- Extents in front of the next block end where it starts, unless they are known ones. -/
theorem Entering.reaches (traced : Entering tree (tableBlock node key base) count result) {this : Block}
    (member : this ∈ inorder result) (ends : base + count * 4096 ≤ this.fileend) :
    this ∈ inorder tree ∨ this.fileend = base + count * 4096 ∧
      Exists fun before => before + 1 = count ∧ EndsWith this (tableBlock node key base before) := by
  rcases traced.origin this member with known | ⟨index, below, last⟩
  · exact .inl known
  · have equal := last.ends
    rw [tableBlock_fileend] at equal
    exact .inr ⟨by omega, index, by omega, last⟩

/-- The block of an occupied entry grows no extent. -/
theorem Entering.not_continues (unmerged : Unmerged tree (tableBlock node key base))
    (traced : Entering tree (tableBlock node key base) count result) (below : count < 512)
    (occupied : Occupied tree (tableBlock node key base count)) {this : Block}
    (member : this ∈ inorder result) (starts : this.fileoff ≤ base + count * 4096)
    (ends : base + count * 4096 ≤ this.fileend) :
    ¬ ContinuesAt this (tableBlock node key base count) := by
  intro follows
  rcases traced.reaches member ends with known | ⟨_, before, next, last⟩
  · exact (unmerged count below occupied).1 this known starts ends follows
  · exact (unmerged count below occupied).2 before (by omega) next (last.continues follows)

/-- An extent that grows ends where the next block starts. -/
theorem Entering.grows_at_end (unmerged : Unmerged tree (tableBlock node key base))
    (traced : Entering tree (tableBlock node key base) count result) (below : count < 512)
    {this grown : Block} (member : this ∈ inorder result) (starts : this.fileoff ≤ base + count * 4096)
    (ends : base + count * 4096 ≤ this.fileend)
    (merged : mergeInto (tableBlock node key base count) this = some grown) :
    this.fileend = base + count * 4096 := by
  rcases traced.reaches member ends with known | ⟨equal, _⟩
  · by_contra different
    have occupied : Occupied tree (tableBlock node key base count) :=
      ⟨this, known, by rw [tableBlock_fileend]; omega, by rw [tableBlock_fileoff]; omega⟩
    exact traced.not_continues unmerged below occupied member starts ends (mergeInto_continues merged)
  · exact equal

/-- A step that leaves extents alone, lets one end with the new block or adds the new block
is traced. -/
theorem Entering.extend {blocks : Nat -> Block} {next : BinaryTree Block}
    (traced : Entering tree blocks count result)
    (origin : forall new, new ∈ inorder next -> new ∈ inorder result ∨
      EndsWith new (blocks count) ∧ (new.fileoff = (blocks count).fileoff ∨
        Exists fun old => old ∈ inorder result ∧ new.fileoff = old.fileoff))
    (kept : forall old, old ∈ inorder result -> Exists fun new => new ∈ inorder next ∧
      new.fileoff = old.fileoff ∧ old.fileend ≤ new.fileend)
    (entered : ¬ StartsAt tree (blocks count).fileoff -> Occupied tree (blocks count) ->
      Exists fun this => this ∈ inorder next ∧ this.fileoff = (blocks count).fileoff ∧
        (blocks count).fileend ≤ this.fileend) :
    Entering tree blocks (count + 1) next := by
  have later : forall {index : Nat}, index < count -> index < count + 1 := Nat.lt_succ_of_lt
  have oldStart : forall old, old ∈ inorder result -> StartsAt tree old.fileoff ∨
      Exists fun index => index < count + 1 ∧ old.fileoff = (blocks index).fileoff := by
    intro old member
    rcases traced.starts old member with known | ⟨index, small, piece⟩
    · exact .inl known
    · exact .inr ⟨index, later small, piece⟩
  have persists : forall {start stop : Nat}, (Exists fun old => old ∈ inorder result ∧
      old.fileoff = start ∧ stop ≤ old.fileend) -> Exists fun new => new ∈ inorder next ∧
      new.fileoff = start ∧ stop ≤ new.fileend := by
    rintro start stop ⟨old, member, oldStart, oldStop⟩
    rcases kept old member with ⟨new, inNext, newStart, newStop⟩
    exact ⟨new, inNext, newStart.trans oldStart, Nat.le_trans oldStop newStop⟩
  constructor
  case origin =>
    intro new member
    rcases origin new member with old | ⟨last, _⟩
    · rcases traced.origin new old with known | ⟨index, small, piece⟩
      · exact .inl known
      · exact .inr ⟨index, later small, piece⟩
    · exact .inr ⟨count, Nat.lt_succ_self _, last⟩
  case starts =>
    intro new member
    rcases origin new member with old | ⟨_, itself | ⟨old, inResult, same⟩⟩
    · exact oldStart new old
    · exact .inr ⟨count, Nat.lt_succ_self _, itself⟩
    · rw [same]
      exact oldStart old inResult
  case grown => exact fun known inTree => persists (traced.grown known inTree)
  case entered =>
    intro index small fresh occupied
    rcases Nat.lt_succ_iff_lt_or_eq.mp small with earlier | same
    · exact persists (traced.entered index earlier fresh occupied)
    · rw [same] at fresh occupied ⊢
      exact entered fresh occupied

theorem mem_replace {X : Type} {front rear : List X} {old new other : X}
    (member : other ∈ front ++ new :: rear) : other = new ∨ other ∈ front ++ old :: rear := by
  simp only [List.mem_append, List.mem_cons] at member ⊢
  grind

/-- The step lemma, whether the block is merged, linked or skipped. -/
theorem Entering.step (rb : Rebalancing Block) (formed : WellFormed tree)
    (bound : base + 512 * 4096 < 2 ^ 64) (unmerged : Unmerged tree (tableBlock node key base))
    (below : count < 512) (traced : Entering tree (tableBlock node key base) count result) :
    Entering tree (tableBlock node key base) (count + 1)
      (blockInsert rb result (tableBlock node key base count)).1 := by
  rcases blockInsert_cases rb result (tableBlock node key base count) with
    ⟨front, this, grown, rear, first, second, stops, merged⟩ | ⟨front, rear, first, second⟩ |
    ⟨same, this, member, start⟩
  · -- the extent in front ends with the block now
    have member : this ∈ inorder result := by simp [first]
    rcases (nodecmp_eq_eq (traced.bounded formed bound (Nat.le_of_lt below) member)).mp stops with
      ⟨starts, ends⟩
    have meets := traced.grows_at_end unmerged below member starts ends merged
    rcases mergeInto_spec meets (by rw [tableBlock_fileend]; omega) merged with
      ⟨grownDev, thisDev, grownStart, grownEnd, grownAddr, address⟩
    have last : EndsWith grown (tableBlock node key base count) := by
      refine ⟨grownDev.trans thisDev, by rw [grownStart]; exact starts, grownEnd, ?_⟩
      have whole : (tableBlock node key base count).fileoff - this.fileoff = this.size := by
        rw [tableBlock_fileoff, ← meets]
        exact Nat.add_sub_cancel_left _ _
      rw [grownAddr, grownStart, whole]
      exact address
    refine traced.extend ?_ ?_ ?_
    · intro new inside
      rw [second] at inside
      rcases @mem_replace _ _ _ this _ _ inside with equal | old
      · rw [equal]
        exact .inr ⟨last, .inr ⟨this, member, grownStart⟩⟩
      · rw [← first] at old
        exact .inl old
    · intro old inside
      rw [first] at inside
      rcases @mem_replace _ _ _ grown _ _ inside with equal | kept
      · refine ⟨grown, by simp [second], by rw [equal, grownStart], ?_⟩
        rw [equal, grownEnd, meets, tableBlock_fileend]
        omega
      · rw [← second] at kept
        exact ⟨old, kept, rfl, Nat.le_refl _⟩
    · intro _ occupied
      exact absurd (mergeInto_continues merged)
        (traced.not_continues unmerged below occupied member starts ends)
  · -- the block is an extent of its own
    refine traced.extend ?_ ?_ ?_
    · intro new inside
      rw [second] at inside
      rcases List.mem_append.mp inside with inFront | inRest
      · exact .inl (by simp [first, inFront])
      · rcases List.mem_cons.mp inRest with equal | inRear
        · rw [equal]
          exact .inr ⟨EndsWith.self _, .inl rfl⟩
        · exact .inl (by simp [first, inRear])
    · intro old inside
      rw [first] at inside
      refine ⟨old, ?_, rfl, Nat.le_refl _⟩
      rw [second]
      rcases List.mem_append.mp inside with inFront | inRear
      · exact List.mem_append_left _ inFront
      · exact List.mem_append_right _ (List.mem_cons_of_mem _ inRear)
    · intro _ _
      exact ⟨tableBlock node key base count, by simp [second], rfl, Nat.le_refl _⟩
  · rw [same]
    refine traced.extend (fun _ old => .inl old) (fun old inside => ⟨old, inside, rfl, Nat.le_refl _⟩) ?_
    -- only a known extent starts where the block starts
    intro fresh _
    rcases traced.starts this member with known | ⟨other, smaller, piece⟩
    · rw [start] at known
      exact absurd known fresh
    · rw [start, tableBlock_fileoff, tableBlock_fileoff] at piece
      omega

/-- The tree after the first entries of a table. -/
def enterTable (rb : Rebalancing Block) (tree : BinaryTree Block) (blocks : Nat -> Block) (count : Nat) :
    BinaryTree Block :=
  insertAll rb tree ((List.range count).map blocks)

theorem enterTable_succ (rb : Rebalancing Block) (tree : BinaryTree Block) (blocks : Nat -> Block)
    (count : Nat) :
    enterTable rb tree blocks (count + 1) = (blockInsert rb (enterTable rb tree blocks count) (blocks count)).1 := by
  simp only [enterTable, insertAll, List.range_succ, List.map_append, List.foldl_append, List.map_cons,
    List.map_nil, List.foldl_cons, List.foldl_nil]

/-- The run lemma. -/
theorem entering_enterTable (rb : Rebalancing Block) (formed : WellFormed tree)
    (bound : base + 512 * 4096 < 2 ^ 64) (unmerged : Unmerged tree (tableBlock node key base))
    (within : count ≤ 512) :
    Entering tree (tableBlock node key base) count (enterTable rb tree (tableBlock node key base) count) := by
  induction count with
  | zero =>
      refine ⟨fun _ member => .inl member, fun this member => .inl ⟨this, member, rfl⟩, ?_, ?_⟩
      · exact fun known member => ⟨known, member, rfl, Nat.le_refl _⟩
      · exact fun index below => absurd below (Nat.not_lt_zero index)
  | succ count ih =>
      rw [enterTable_succ]
      exact (ih (Nat.le_of_succ_le within)).step rb formed bound unmerged within

/-- Blocks that meet known extents without starting with one leave extents that overlap. -/
theorem not_occupied_of_disjoint (rb : Rebalancing Block) (formed : WellFormed tree)
    (bound : base + 512 * 4096 < 2 ^ 64) (unmerged : Unmerged tree (tableBlock node key base))
    (disjoint : (inorder (enterTable rb tree (tableBlock node key base) 512)).Pairwise Block.Disjoint)
    {index : Nat} (below : index < 512) (fresh : ¬ StartsAt tree (base + index * 4096)) :
    ¬ Occupied tree (tableBlock node key base index) := by
  intro occupied
  have traced := @entering_enterTable tree node key base 512 rb formed bound unmerged (Nat.le_refl _)
  rcases traced.entered index below fresh occupied with ⟨own, inResult, ownStart, ownEnd⟩
  rcases occupied with ⟨known, inTree, starts, ends⟩
  rcases traced.grown known inTree with ⟨this, thisMember, thisStart, thisEnd⟩
  rw [tableBlock_fileend] at starts ownEnd
  rw [tableBlock_fileoff] at ends ownStart
  have different : own ≠ this := by
    intro same
    exact fresh ⟨known, inTree, by rw [← thisStart, ← same, ownStart]⟩
  -- the first byte that both extents have
  have nonempty := formed.separated.nonempty known inTree
  refine disjoint.forall inResult thisMember different (max known.fileoff (base + index * 4096)) ?_ ?_
  · exact ⟨by omega, by omega⟩
  · exact ⟨by omega, by omega⟩

end Steps

/-! ## The region afterwards -/

section Region

variable {tree result : BinaryTree Block} {node : Nat -> Nat} {key base count offset : Nat}

theorem StartsAt.occupied (formed : WellFormed tree) {index : Nat}
    (starts : StartsAt tree (base + index * 4096)) : Occupied tree (tableBlock node key base index) := by
  rcases starts with ⟨known, member, start⟩
  have nonempty := formed.separated.nonempty known member
  refine ⟨known, member, ?_, ?_⟩
  · rw [tableBlock_fileend]
    omega
  · rw [tableBlock_fileoff]
    omega

/-- An entry whose block starts with a known extent is skipped. -/
theorem Entering.skip (rb : Rebalancing Block) (formed : WellFormed tree)
    (unmerged : Unmerged tree (tableBlock node key base)) (below : count < 512)
    (entering : Entering tree (tableBlock node key base) count result) (still : WellFormed result)
    (starts : StartsAt tree (base + count * 4096)) :
    (blockInsert rb result (tableBlock node key base count)).1 = result := by
  have occupied : Occupied tree (tableBlock node key base count) := starts.occupied formed
  rcases starts with ⟨known, inTree, start⟩
  rcases entering.grown known inTree with ⟨this, member, thisStart, _⟩
  have rejected : link (fun this : Block => compare (tableBlock node key base count).fileoff this.fileoff)
      (tableBlock node key base count) result = none :=
    link_eq_none_iff.mpr (search_complete (still.link_directed _) member
      (Nat.compare_eq_eq.mpr (start.symm.trans thisStart.symm)))
  have unchanged : adjust (fun this : Block => nodecmp (tableBlock node key base count).fileoff
      this.fileoff this.size) (mergeInto (tableBlock node key base count)) result = none := by
    cases done : adjust (fun this : Block => nodecmp (tableBlock node key base count).fileoff
        this.fileoff this.size) (mergeInto (tableBlock node key base count)) result with
    | none => rfl
    | some merged =>
        rcases adjust_inorder done with ⟨front, old, grown, rear, first, _, stops, applied⟩
        have inResult : old ∈ inorder result := by simp [first]
        rcases (nodecmp_eq_eq (still.bounded old inResult)).mp stops with ⟨lower, upper⟩
        exact absurd (mergeInto_continues applied)
          (entering.not_continues unmerged below occupied inResult lower upper)
  rw [blockInsert, unchanged, rejected]

/-- Where every block is free or starts with a known extent, the free blocks are added and
nothing else changes. -/
theorem enterTable_assigns (rb : Rebalancing Block) (formed : WellFormed tree)
    (bound : base + 512 * 4096 < 2 ^ 64) (unmerged : Unmerged tree (tableBlock node key base))
    (free : forall index, index < 512 -> ¬ StartsAt tree (base + index * 4096) ->
      ¬ Occupied tree (tableBlock node key base index)) (within : count ≤ 512) :
    WellFormed (enterTable rb tree (tableBlock node key base) count) ∧
      forall point place,
        Assigns (inorder (enterTable rb tree (tableBlock node key base) count)) point place <->
          Assigns (inorder tree) point place ∨ Exists fun index => index < count ∧
            ¬ StartsAt tree (base + index * 4096) ∧ (tableBlock node key base index).Covers point ∧
              (tableBlock node key base index).translate point = place := by
  induction count with
  | zero =>
      refine ⟨formed, fun point place => ?_⟩
      simp only [Nat.not_lt_zero, false_and, exists_false, or_false]
      rfl
  | succ count ih =>
      rcases ih (Nat.le_of_succ_le within) with ⟨still, assigns⟩
      have entering := @entering_enterTable tree node key base count rb formed bound unmerged
        (Nat.le_of_succ_le within)
      rw [enterTable_succ]
      by_cases starts : StartsAt tree (base + count * 4096)
      · rw [entering.skip rb formed unmerged within still starts]
        refine ⟨still, fun point place => ?_⟩
        rw [assigns point place]
        refine or_congr_right (exists_congr fun index => ?_)
        constructor
        · rintro ⟨small, rest⟩
          exact ⟨Nat.lt_succ_of_lt small, rest⟩
        · rintro ⟨small, fresh, rest⟩
          rcases Nat.lt_succ_iff_lt_or_eq.mp small with earlier | same
          · exact ⟨earlier, fresh, rest⟩
          · rw [same] at fresh
            exact absurd starts fresh
      · have fits : Fits (enterTable rb tree (tableBlock node key base) count)
            (tableBlock node key base count) := by
          refine ⟨Nat.zero_lt_succ 4095, by rw [tableBlock_fileend]; omega, ?_⟩
          intro old member point covers inside
          have lower : base + count * 4096 ≤ point := inside.1
          have upper : point < base + count * 4096 + 4096 := inside.2
          rcases (assigns point (old.translate point)).mp ⟨old, member, covers, rfl⟩ with
            ⟨known, inTree, knownCovers, _⟩ | ⟨index, small, _, earlier, _⟩
          · refine free count within starts ⟨known, inTree, ?_, ?_⟩
            · exact Nat.lt_of_le_of_lt knownCovers.1 upper
            · exact Nat.lt_of_le_of_lt lower knownCovers.2
          · have before : point < base + index * 4096 + 4096 := earlier.2
            omega
        have extended := blockInsert_extended rb still fits
        refine ⟨extended.formed, fun point place => ?_⟩
        rw [extended.assigns, assigns point place, or_assoc]
        refine or_congr_right ?_
        constructor
        · rintro (⟨index, small, rest⟩ | here)
          · exact ⟨index, Nat.lt_succ_of_lt small, rest⟩
          · exact ⟨count, Nat.lt_succ_self _, starts, here⟩
        · rintro ⟨index, small, fresh, rest⟩
          rcases Nat.lt_succ_iff_lt_or_eq.mp small with earlier | same
          · exact .inl ⟨index, earlier, fresh, rest⟩
          · rw [same] at rest
            exact .inr rest

/-- An entry is entered rightly: its block starts with a known extent and either the entry
is null or known extents cover the whole block, or no known extent reaches into its block and
it is present with the tag of the entry that is asked for. -/
def Store.EntryFits (store : Store) (pointer offset : Nat) (tree : BinaryTree Block) (index : Nat) :
    Prop :=
  (StartsAt tree (chunkFloor offset + index * 4096) -> store.entry pointer index = 0 ∨
    forall point, chunkFloor offset + index * 4096 ≤ point ->
      point < chunkFloor offset + index * 4096 + 4096 -> (blockSearch tree point).isSome = true) ∧
  (¬ StartsAt tree (chunkFloor offset + index * 4096) ->
    ¬ Occupied tree (tableBlock (store.entry pointer) (offset / 4096 % 512) (chunkFloor offset) index) ∧
      store.entry pointer index ≠ 0 ∧
      tagOf (store.entry pointer index) = tagOf (store.entry pointer (offset / 4096 % 512)))

/-- A byte of the region lies in the block of one entry. -/
theorem InRegion.covers_iff {point : Nat} (inside : InRegion offset point) (index : Nat) :
    (tableBlock node key (chunkFloor offset) index).Covers point <-> index = point / 4096 % 512 := by
  have located := inside.index
  have remainder : point % 4096 < 4096 := Nat.mod_lt _ (by decide)
  constructor
  · intro covers
    have lower : chunkFloor offset + index * 4096 ≤ point := covers.1
    have upper : point < chunkFloor offset + index * 4096 + 4096 := covers.2
    omega
  · intro same
    have lower : chunkFloor offset + index * 4096 ≤ point := by omega
    have upper : point < chunkFloor offset + index * 4096 + 4096 := by omega
    exact ⟨lower, upper⟩

theorem tableBlock_inRegion {point index : Nat} (below : index < 512)
    (covers : (tableBlock node key (chunkFloor offset) index).Covers point) : InRegion offset point := by
  have chunk : chunkSize = 2097152 := rfl
  have lower : chunkFloor offset + index * 4096 ≤ point := covers.1
  have upper : point < chunkFloor offset + index * 4096 + 4096 := covers.2
  exact ⟨by omega, by omega⟩

/-- The translation of a byte of the region that no extent covered. -/
theorem translation_enterTable {store : Store} {pointer point : Nat}
    (still : WellFormed result) (formed : WellFormed tree)
    (assigns : forall point place, Assigns (inorder result) point place <->
      Assigns (inorder tree) point place ∨ Exists fun index => index < 512 ∧
        ¬ StartsAt tree (chunkFloor offset + index * 4096) ∧
          (tableBlock (store.entry pointer) key (chunkFloor offset) index).Covers point ∧
          (tableBlock (store.entry pointer) key (chunkFloor offset) index).translate point = place)
    (inside : InRegion offset point) (uncovered : blockSearch tree point = none) :
    translation result point =
      if StartsAt tree (chunkFloor offset + point / 4096 % 512 * 4096) then none
      else some ((tableBlock (store.entry pointer) key (chunkFloor offset)
        (point / 4096 % 512)).translate point) := by
  have unassigned : forall place, ¬ Assigns (inorder tree) point place := by
    rintro place ⟨known, member, covers, _⟩
    have present := formed.blockSearch_isSome.mpr ⟨known, member, covers⟩
    rw [uncovered] at present
    cases present
  apply Option.ext
  intro place
  rw [still.translation_eq_some, assigns point place]
  constructor
  · rintro (known | ⟨index, below, fresh, covers, equal⟩)
    · exact absurd known (unassigned place)
    · rw [(inside.covers_iff index).mp covers] at fresh equal
      rw [if_neg fresh, equal]
  · intro found
    split at found
    case isTrue => cases found
    case isFalse fresh =>
      exact .inr ⟨point / 4096 % 512, inside.index.1, fresh,
        (inside.covers_iff _).mpr rfl, Option.some.inj found⟩

section Table

variable {store : Store} {pointer : Nat}

/-- The entries of a table that was entered rightly. -/
theorem Filled.entryFits (rb : Rebalancing Block) (formed : WellFormed tree)
    (bound : chunkFloor offset + 512 * 4096 < 2 ^ 64) (untagged : ¬ 0 < tagOf pointer)
    (unmerged : Unmerged tree
      (tableBlock (store.entry pointer) (offset / 4096 % 512) (chunkFloor offset)))
    (filled : Filled (store.leafLocation pointer offset) offset tree (enterTable rb tree
      (tableBlock (store.entry pointer) (offset / 4096 % 512) (chunkFloor offset)) 512))
    {index : Nat} (below : index < 512) : store.EntryFits pointer offset tree index := by
  have free := fun other (less : other < 512) => @not_occupied_of_disjoint tree _ _ _ rb formed bound
    unmerged filled.disjoint other less
  rcases enterTable_assigns rb formed bound unmerged free (Nat.le_refl 512) with ⟨still, assigns⟩
  constructor
  · intro starts
    by_contra wrong
    rcases not_or.mp wrong with ⟨present, gap⟩
    push Not at gap
    rcases gap with ⟨point, lower, upper, uncovered⟩
    have covers : (tableBlock (store.entry pointer) (offset / 4096 % 512) (chunkFloor offset)
        index).Covers point := ⟨lower, upper⟩
    have inside := tableBlock_inRegion below covers
    have selected := (inside.covers_iff index).mp covers
    have absent : blockSearch tree point = none := Option.not_isSome_iff_eq_none.mp uncovered
    -- the entry is present, but its block was skipped
    have located := filled.filled point inside absent
    rw [translation_enterTable still formed assigns inside absent, ← selected, if_pos starts,
      Store.leafLocation, if_neg untagged, ← selected, if_neg present] at located
    cases located
  · intro fresh
    have vacant := free index below fresh
    rcases inRegion_entry offset below with ⟨inside, selected⟩
    have absent : blockSearch tree (chunkFloor offset + index * 4096) = none := by
      rw [← Option.not_isSome_iff_eq_none, formed.blockSearch_isSome]
      rintro ⟨known, member, covers⟩
      refine vacant ⟨known, member, ?_, covers.2⟩
      rw [tableBlock_fileend]
      exact Nat.lt_of_le_of_lt covers.1 (Nat.lt_add_of_pos_right (by decide))
    have located := filled.filled _ inside absent
    rw [translation_enterTable still formed assigns inside absent, selected, if_neg fresh] at located
    have right := (leafLocation_table_iff untagged inside).mp (by rw [selected]; exact located.symm)
    rw [selected] at right
    exact ⟨vacant, right⟩

/-- Entries that are entered rightly make up a table that is. -/
theorem filled_of_entryFits (rb : Rebalancing Block) (formed : WellFormed tree)
    (bound : chunkFloor offset + 512 * 4096 < 2 ^ 64) (untagged : ¬ 0 < tagOf pointer)
    (unmerged : Unmerged tree
      (tableBlock (store.entry pointer) (offset / 4096 % 512) (chunkFloor offset)))
    (entries : forall index, index < 512 -> store.EntryFits pointer offset tree index) :
    Filled (store.leafLocation pointer offset) offset tree (enterTable rb tree
      (tableBlock (store.entry pointer) (offset / 4096 % 512) (chunkFloor offset)) 512) := by
  have free := fun other (less : other < 512) fresh => ((entries other less).2 fresh).1
  rcases enterTable_assigns rb formed bound unmerged free (Nat.le_refl 512) with ⟨still, assigns⟩
  refine ⟨still.separated.disjoint, ?_, ?_⟩
  · intro point present
    rcases formed.blockSearch_isSome.mp present with ⟨known, member, covers⟩
    apply Option.ext
    intro place
    rw [still.translation_eq_some, formed.translation_eq_some, assigns point place]
    refine or_iff_left ?_
    rintro ⟨index, below, fresh, inBlock, _⟩
    exact free index below fresh ⟨known, member, Nat.lt_of_le_of_lt covers.1 inBlock.2,
      Nat.lt_of_le_of_lt inBlock.1 covers.2⟩
  · intro point inside absent
    rw [translation_enterTable still formed assigns inside absent]
    have entry := entries _ inside.index.1
    split
    case isTrue starts =>
      rcases entry.1 starts with null | covered
      · rw [Store.leafLocation, if_neg untagged, if_pos null]
      · have inBlock := (@InRegion.covers_iff (store.entry pointer) 0 offset point inside _).mpr rfl
        have present := covered point inBlock.1 inBlock.2
        rw [absent] at present
        cases present
    case isFalse fresh =>
      exact ((leafLocation_table_iff untagged inside).mpr (entry.2 fresh).2).symm

/-- A table is entered rightly exactly when each of its entries is. -/
theorem filled_table_iff (rb : Rebalancing Block) (formed : WellFormed tree)
    (bound : chunkFloor offset + chunkSize < 2 ^ 64) (untagged : ¬ 0 < tagOf pointer)
    (unmerged : Unmerged tree
      (tableBlock (store.entry pointer) (offset / 4096 % 512) (chunkFloor offset))) :
    Filled (store.leafLocation pointer offset) offset tree
        (insertAll rb tree (store.leafBlocks pointer offset)) <->
      forall index, index < 512 -> store.EntryFits pointer offset tree index := by
  unfold Store.leafBlocks
  rw [if_neg untagged]
  exact ⟨fun filled index below => Filled.entryFits rb formed bound untagged unmerged filled below,
    filled_of_entryFits rb formed bound untagged unmerged⟩

end Table

end Region

/-! ## The lookup -/

/-- After a lookup the block tree of the inode is filled as the leaf says. -/
def Store.BmapFills (store : Store) (ip pointer : Nat) (request : BmapRequest) : Prop :=
  Ensures (bmap ip request) store
    (fun _ next => Filled (store.leafLocation pointer request.startOffset) request.startOffset
      (store.inode ip).blktree (next.inode ip).blktree)
    (fun _ _ => False)

theorem chunkFloor_bounded {offset height : Nat} (range : offset < 4096 * 512 ^ (height + 1))
    (low : height ≤ 3) : chunkFloor offset + chunkSize < 2 ^ 64 := by
  have power : 512 ^ (height + 1) ≤ 512 ^ 4 := Nat.pow_le_pow_right (by decide) (by omega)
  have numeral : (512 : Nat) ^ 4 = 68719476736 := by decide
  have chunk : chunkSize = 2097152 := rfl
  have floor : chunkFloor offset ≤ offset := (inRegion_self offset).1
  omega

/-- A lookup leaves the block tree with the blocks of the leaf inserted. -/
theorem ensures_bmap_blktree {store : Store} {ip root height pointer : Nat} {request : BmapRequest}
    (reachable : Reachable store ip request.startOffset root height)
    (path : store.radixPath (request.startOffset / 4096) height root = some pointer) :
    Ensures (bmap ip request) store
      (fun _ next => (next.inode ip).blktree =
        insertAll store.environment.rebalancing (store.inode ip).blktree
          (store.leafBlocks pointer request.startOffset))
      (fun _ _ => False) := by
  have ends := ensures_bmap reachable
  rw [path] at ends
  refine ends.mono ?_ (fun _ _ fault => fault)
  rintro result next ⟨_, _, reached⟩
  rw [reached]
  unfold Store.withBlocks
  rw [updateInode_inode_self]
  unfold Store.rooted
  rw [updateInode_inode_self]
  rfl

theorem bmapFills_iff {store : Store} {ip root height pointer : Nat} {request : BmapRequest}
    (reachable : Reachable store ip request.startOffset root height)
    (path : store.radixPath (request.startOffset / 4096) height root = some pointer) :
    store.BmapFills ip pointer request <->
      Filled (store.leafLocation pointer request.startOffset) request.startOffset
        (store.inode ip).blktree
        (insertAll store.environment.rebalancing (store.inode ip).blktree
          (store.leafBlocks pointer request.startOffset)) := by
  have ends := ensures_bmap_blktree reachable path
  constructor
  · intro fills
    have both := (ends.and fills).mono (fun _ _ holds => holds) (fun _ _ fault => fault.1)
    rcases both.exists_ok with ⟨result, next, _, reached, filled⟩
    rw [reached] at filled
    exact filled
  · intro filled
    refine ends.mono ?_ (fun _ _ fault => fault)
    intro result next reached
    rw [reached]
    exact filled

/-- For an uncovered offset whose radix path is not null, a lookup in a region that
the block tree knows nothing about fills it rightly exactly when the leaf is a chunk
or a table without null entries whose tags agree; a chunk is entered rightly exactly
when the tree knows nothing about its region; and a table no entry of which grows an
extent of an occupied block is entered rightly exactly when each of its entries is. -/
theorem bmap_fills_iff (store : Store) (ip root height pointer : Nat) (request : BmapRequest)
    (below : request.startOffset < (store.inode ip).ksize)
    (known : store.radixRoot ip = some (root, height)) (tree : store.RadixTree height root)
    (low : height ≤ 3) (range : request.startOffset < 4096 * 512 ^ (height + 1))
    (formed : WellFormed (store.inode ip).blktree)
    (uncovered : blockSearch (store.inode ip).blktree request.startOffset = none)
    (path : store.radixPath (request.startOffset / 4096) height root = some pointer) :
    (RegionClear (store.inode ip).blktree request.startOffset ->
        (store.BmapFills ip pointer request <-> store.Uniform pointer request.startOffset)) ∧
      (0 < tagOf pointer ->
        (store.BmapFills ip pointer request <->
          RegionClear (store.inode ip).blktree request.startOffset)) ∧
      (¬ 0 < tagOf pointer ->
        Unmerged (store.inode ip).blktree (tableBlock (store.entry pointer)
          (request.startOffset / 4096 % 512) (chunkFloor request.startOffset)) ->
        (store.BmapFills ip pointer request <->
          forall index, index < 512 ->
            store.EntryFits pointer request.startOffset (store.inode ip).blktree index)) := by
  have bound := chunkFloor_bounded range low
  rw [bmapFills_iff ⟨below, known, tree, range⟩ path]
  refine ⟨?_, ?_, ?_⟩
  · intro clear
    exact filled_clear_iff _ formed bound clear
  · intro tagged
    constructor
    · exact chunk_needs_clear _ formed bound tagged uncovered
    · intro clear
      exact (filled_clear_iff _ formed bound clear).mpr (.inl tagged)
  · intro untagged unmerged
    exact filled_table_iff _ formed bound untagged unmerged

/-- A file of 2 MB in blocks that follow one another on the third device.  Its first block was
overwritten, and the block tree knows where. -/
def overwrittenStore : Store :=
  { freshStore with
    inode := fun ip => { Inode.created ip 0 0 1 with
      ksize := 2097152
      root := 4096
      blktree := .node ⟨2, 0, 4096, 77⟩ .nil .nil }
    disk := fun _ address =>
      if address = 4097 then 32
      else if 8192 ≤ address ∧ address < 12288 then
        UInt8.ofNat ((2 ^ 63 + (10 + (address - 8192) / 8) * 4096) / 256 ^ (address % 8))
      else 0 }

theorem overwrittenStore_tree : overwrittenStore.RadixTree 1 4096 := by
  refine ⟨by decide, ?_⟩
  have entries : forall index, index < 512 -> overwrittenStore.entry 4096 index ≠ 0 ->
      0 < tagOf (overwrittenStore.entry 4096 index) ∨
        overwrittenStore.entry 4096 index + gBlockSizeBytes ≤ devSize 1 := by
    decide +kernel
  exact entries

/-- The lookup of the fourth block enters all blocks but the first. -/
theorem bmap_fills_iff_overwritten :
    overwrittenStore.BmapFills 0 8192 ⟨12288, 0, 0, 0⟩ := by
  have formed : WellFormed (overwrittenStore.inode 0).blktree := by
    refine ⟨⟨by decide, List.pairwise_singleton _ _⟩, by decide⟩
  have unmerged : Unmerged (overwrittenStore.inode 0).blktree
      (tableBlock (overwrittenStore.entry 8192) 3 0) := by
    intro index below occupied
    have first : index = 0 := by
      rcases occupied with ⟨known, member, _, ends⟩
      rw [List.mem_singleton.mp member] at ends
      change 0 + index * 4096 < 4096 at ends
      omega
    rw [first]
    exact ⟨by decide, fun before impossible => absurd impossible (Nat.not_lt_zero before)⟩
  have present : forall index, index < 512 -> overwrittenStore.entry 8192 index ≠ 0 ∧
      tagOf (overwrittenStore.entry 8192 index) = tagOf (overwrittenStore.entry 8192 3) := by
    decide +kernel
  have filled := bmap_fills_iff overwrittenStore 0 4096 1 8192 ⟨12288, 0, 0, 0⟩
    (by decide) (by decide) overwrittenStore_tree (by decide) (by decide) formed (by decide)
    (by decide +kernel)
  refine (filled.2.2 (by decide) unmerged).mpr ?_
  intro index below
  constructor
  · rintro ⟨known, member, start⟩
    right
    intro point lower upper
    rw [List.mem_singleton.mp member] at start
    change 0 = 0 + index * 4096 at start
    refine formed.blockSearch_isSome.mpr ⟨⟨2, 0, 4096, 77⟩, List.mem_singleton.mpr rfl, ?_⟩
    change 0 + index * 4096 ≤ point at lower
    change point < 0 + index * 4096 + 4096 at upper
    exact ⟨Nat.zero_le _, by change point < 4096; omega⟩
  · intro fresh
    refine ⟨?_, present index below⟩
    rintro ⟨known, member, starts, ends⟩
    refine fresh ⟨known, member, ?_⟩
    rw [List.mem_singleton.mp member] at ends ⊢
    change 0 + index * 4096 < 4096 at ends
    change 0 = 0 + index * 4096
    omega

/-- The first entry of the table is null, but after a lookup of the second block
the block tree places the first block on the second SSD, at address 0. -/
theorem null_entry_entered :
    tableStore.leafLocation 8192 4096 0 = none ∧
      Ensures (bmap 0 ⟨4096, 0, 0, 0⟩) tableStore
        (fun _ next => translation (next.inode 0).blktree 0 = some (3, 0)) (fun _ _ => False) := by
  refine ⟨by decide +kernel, ?_⟩
  have path : tableStore.radixPath 1 1 4096 = some 8192 := by decide +kernel
  have ends := @ensures_bmap_blktree tableStore 0 4096 1 8192 ⟨4096, 0, 0, 0⟩
    ⟨by decide, by decide, tableStore_tree, by decide⟩ path
  refine ends.mono ?_ (fun _ _ fault => fault)
  intro result next reached
  have clear : RegionClear (.nil : BinaryTree Block) 4096 := fun _ member => nomatch member
  have first : InRegion 4096 0 := ⟨by decide, by decide⟩
  have extended := insertAll_extends tableStore.environment.rebalancing WellFormed.nil
    (fun block member =>
      have placed := @tableBlocks_inRegion 4096 (tableStore.entry 8192) 1 block member
      clear.fits (by decide) placed.1 placed.2.1 placed.2.2)
    (tableBlocks_disjoint (tableStore.entry 8192) 1 (chunkFloor 4096))
  rw [reached]
  refine extended.1.translation_eq_some.mpr ((extended.2 0 (3, 0)).mpr (.inr ?_))
  rw [assigns_table first]
  decide +kernel

end Userfs.Filesystem
