import Userfs.Global.Defs
import Userfs.Library.Memory
import Userfs.Library.Word

namespace Userfs.Filesystem

open Memory
open Word

/-!
# Directory blocks on disk

`fetch_ondisk_dentry` copies the 4096-byte block of a directory and follows its records by
their lengths.  It inserts every record into the tree of the directory until it meets one
with inode number 0, and it looks at a record that starts at the end of the block too.  So
a deleted record hides the live ones behind it, and a block without a deleted record is
read behind its end.
-/

namespace DirectoryBlock

/-- The fields of `struct fs_direntry` at an offset. -/
def ino (block : Nat -> UInt8) (de : Nat) : Nat :=
  leValue block de 8

@[inherit_doc ino]
def deLen (block : Nat -> UInt8) (de : Nat) : Nat :=
  leValue block (de + 8) 2

@[inherit_doc ino]
def nameLen (block : Nat -> UInt8) (de : Nat) : Nat :=
  (block (de + 10)).toNat

/-- The name of the record at an offset. -/
def name (block : Nat -> UInt8) (de : Nat) : List UInt8 :=
  slice block (de + 12) (nameLen block de)

/-- The loop of `fetch_ondisk_dentry`, with the insertions made so far: the name and the
record.  A read that leaves the copy of the block faults; the last byte read is the length
of the name or the last one of the name. -/
def scanRecords (block : Nat -> UInt8) : Nat -> Nat -> List (List UInt8 × Nat) ->
    Except Fault (Int × List (List UInt8 × Nat))
  | 0, _, _ => .error .outOfFuel
  | fuel + 1, de, inserted =>
      if de ≤ 4096 then
        if 4096 ≤ de + 10 ∨ (nameLen block de ≠ 0 ∧ 4096 < de + 12 + nameLen block de) then
          .error .segfault
        else if ino block de ≠ 0 ∧ deLen block de ≠ 0 then
          scanRecords block fuel (de + deLen block de) (inserted ++ [(name block de, de)])
        else .ok (0, inserted)
      else .ok (-1, inserted)

/-- `fetch_ondisk_dentry` on the copy of the block: the result and the insertions.  Every
round moves on by at least one byte. -/
def fetchOndiskDentry (block : Nat -> UInt8) : Except Fault (Int × List (List UInt8 × Nat)) :=
  scanRecords block 4098 0 []

/-! ## Chains of records -/

/-- Records that follow one another by their lengths to the end of the block, each with its
header in the block. -/
def Chained (block : Nat -> UInt8) : Nat -> List Nat -> Prop
  | de, [] => de = 4096
  | de, record :: rest =>
      record = de ∧ de + 12 ≤ 4096 ∧ deLen block de ≠ 0 ∧ Chained block (de + deLen block de) rest

/-- The name of a record lies in the block. -/
def NameInside (block : Nat -> UInt8) (de : Nat) : Prop :=
  de + 12 + nameLen block de ≤ 4096

/-- Live records and then deleted ones, at least one of them, with the names in the block as
far as the first deleted one. -/
def EndsDeleted (block : Nat -> UInt8) : List Nat -> Prop
  | [] => False
  | record :: rest =>
      NameInside block record ∧
        if ino block record ≠ 0 then EndsDeleted block rest
        else forall other, other ∈ rest -> ino block other = 0

instance (block : Nat -> UInt8) (de : Nat) : Decidable (NameInside block de) :=
  inferInstanceAs (Decidable (_ ≤ _))

instance decidableChained (block : Nat -> UInt8) : (de : Nat) -> (records : List Nat) ->
    Decidable (Chained block de records)
  | de, [] => inferInstanceAs (Decidable (de = 4096))
  | de, record :: rest =>
      have := decidableChained block (de + deLen block de) rest
      inferInstanceAs (Decidable (record = de ∧ de + 12 ≤ 4096 ∧ deLen block de ≠ 0 ∧ _))

instance decidableEndsDeleted (block : Nat -> UInt8) : (records : List Nat) ->
    Decidable (EndsDeleted block records)
  | [] => inferInstanceAs (Decidable False)
  | record :: rest =>
      have := decidableEndsDeleted block rest
      inferInstanceAs (Decidable (NameInside block record ∧ ite _ _ _))

/-- The insertions that the live records of a chain ask for. -/
def liveEntries (block : Nat -> UInt8) (records : List Nat) : List (List UInt8 × Nat) :=
  (records.filter (fun de => ino block de ≠ 0)).map (fun de => (name block de, de))

/-- What parsing a block means: the scan ends without a read outside the block, and exactly
the live records have been inserted, in their order. -/
def Parses (block : Nat -> UInt8) (records : List Nat) : Prop :=
  fetchOndiskDentry block = .ok (0, liveEntries block records)

section Scan

variable {block : Nat -> UInt8} {records rest : List Nat} {de record fuel : Nat}
  {inserted : List (List UInt8 × Nat)}

theorem Chained.length (chained : Chained block de records) : de + records.length ≤ 4096 := by
  induction records generalizing de with
  | nil => exact Nat.le_of_eq chained
  | cons record rest ih =>
      rcases chained with ⟨_, _, positive, later⟩
      have bound := ih later
      rw [List.length_cons]
      omega

/-- At the end of the block the scan reads behind it. -/
theorem scanRecords_end : scanRecords block (fuel + 1) 4096 inserted = .error .segfault := by
  rw [scanRecords, if_pos (Nat.le_refl _), if_pos (Or.inl (Nat.le_add_right _ _))]

/-- A record whose name leaves the block stops the process. -/
theorem scanRecords_outside (header : de + 12 ≤ 4096) (outside : ¬ NameInside block de) :
    scanRecords block (fuel + 1) de inserted = .error .segfault := by
  unfold NameInside at outside
  rw [scanRecords, if_pos (by omega), if_pos (Or.inr ⟨by omega, by omega⟩)]

/-- A live record is inserted and the scan goes on behind it; a deleted one ends the scan. -/
theorem scanRecords_record (header : de + 12 ≤ 4096) (inside : NameInside block de)
    (positive : deLen block de ≠ 0) :
    scanRecords block (fuel + 1) de inserted =
      if ino block de ≠ 0 then
        scanRecords block fuel (de + deLen block de) (inserted ++ [(name block de, de)])
      else .ok (0, inserted) := by
  unfold NameInside at inside
  rw [scanRecords, if_pos (by omega), if_neg (by omega)]
  simp only [positive, ne_eq, not_false_eq_true, and_true]

/-- A scan of a chain inserts its live records exactly if the chain ends in deleted ones. -/
theorem Chained.scanRecords_iff (chained : Chained block de records) (enough : records.length < fuel) :
    scanRecords block fuel de inserted = .ok (0, inserted ++ liveEntries block records) <->
      EndsDeleted block records := by
  induction records generalizing de fuel inserted with
  | nil =>
      cases fuel with
      | zero => exact absurd enough (Nat.not_lt_zero _)
      | succ fuel =>
          rw [show de = 4096 from chained, scanRecords_end]
          constructor
          · intro impossible
            cases impossible
          · exact False.elim
  | cons record rest ih =>
      rcases chained with ⟨rfl, header, positive, later⟩
      cases fuel with
      | zero => exact absurd enough (Nat.not_lt_zero _)
      | succ fuel =>
          unfold EndsDeleted
          by_cases inside : NameInside block record
          · rw [scanRecords_record header inside positive]
            by_cases live : ino block record ≠ 0
            · rw [if_pos live, if_pos live, ← ih later (Nat.lt_of_succ_lt_succ enough),
                List.append_assoc, and_iff_right inside]
              have entries : liveEntries block (record :: rest) =
                  [(name block record, record)] ++ liveEntries block rest := by
                simp [liveEntries, live]
              rw [entries]
            · rw [if_neg live, if_neg live, and_iff_right inside]
              -- the scan stops here, so the rest must hold no live record
              have dead : ino block record = 0 := not_not.mp live
              have entries : liveEntries block (record :: rest) = liveEntries block rest := by
                simp [liveEntries, dead]
              have none : liveEntries block rest = [] <->
                  forall other, other ∈ rest -> ino block other = 0 := by
                simp [liveEntries, List.filter_eq_nil_iff]
              rw [entries, ← none, Except.ok.injEq, Prod.mk.injEq]
              constructor
              · rintro ⟨_, same⟩
                exact List.append_cancel_left ((List.append_nil _).trans same).symm
              · intro empty
                rw [empty, List.append_nil]
                exact ⟨rfl, rfl⟩
          · rw [scanRecords_outside header inside]
            constructor
            · intro impossible
              cases impossible
            · exact fun both => absurd both.1 inside

theorem Chained.endsDeleted (chained : Chained block 0 records) (parses : Parses block records) :
    EndsDeleted block records := by
  have short := chained.length
  have scan := @Chained.scanRecords_iff block records 0 4098 [] chained (by omega)
  rw [List.nil_append] at scan
  exact scan.mp parses

end Scan

/-- A directory block is parsed completely and within its bounds exactly if there is a
deleted record, all live records come before the deleted ones, and the names up to the
first deleted record lie in the block. -/
theorem directory_block_parses_iff (block : Nat -> UInt8) (records : List Nat)
    (chained : Chained block 0 records) : Parses block records <-> EndsDeleted block records := by
  refine ⟨chained.endsDeleted, fun ends => ?_⟩
  have short := chained.length
  have scan := @Chained.scanRecords_iff block records 0 4098 [] chained (by omega)
  rw [List.nil_append] at scan
  exact scan.mpr ends

/-- The bytes of a record with a name of one character. -/
def shortRecord (number length : Nat) (character : UInt8) : List UInt8 :=
  leBytes 8 number ++ leBytes 2 length ++ [1, 1, character]

/-- A block with records at given offsets. -/
def blockOf (parts : List (Nat × List UInt8)) : Nat -> UInt8 :=
  fun index =>
    ((parts.find? (fun part => decide (part.1 ≤ index ∧ index < part.1 + part.2.length))).map
      (fun part => part.2.getD (index - part.1) 0)).getD 0

/-- A live record and a deleted one that takes the rest of the block. -/
theorem directory_block_parses_two :
    Parses (blockOf [(0, shortRecord 5 24 97), (24, shortRecord 0 4072 98)]) [0, 24] :=
  (directory_block_parses_iff (blockOf [(0, shortRecord 5 24 97), (24, shortRecord 0 4072 98)]) [0, 24]
    (by decide +kernel)).mpr (by decide +kernel)

/-- A block with a live record behind a deleted one, which is not inserted, and a block with
live records only, which is read behind its end. -/
theorem directory_blocks_misparsed :
    let hidden := blockOf [(0, shortRecord 5 24 97), (24, shortRecord 0 24 98), (48, shortRecord 6 4048 99)]
    let live := blockOf [(0, shortRecord 5 24 97), (24, shortRecord 6 4072 98)]
    (Chained hidden 0 [0, 24, 48] ∧ ¬ Parses hidden [0, 24, 48]) ∧
      Chained live 0 [0, 24] ∧ ¬ Parses live [0, 24] := by
  intro hidden live
  have chainedHidden : Chained hidden 0 [0, 24, 48] := by decide +kernel
  have chainedLive : Chained live 0 [0, 24] := by decide +kernel
  refine ⟨⟨chainedHidden, fun parses => ?_⟩, chainedLive, fun parses => ?_⟩
  · have ends := chainedHidden.endsDeleted parses
    revert ends
    decide +kernel
  · have ends := chainedLive.endsDeleted parses
    revert ends
    decide +kernel

end DirectoryBlock

end Userfs.Filesystem
