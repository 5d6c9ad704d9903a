import Userfs.Library.Memory
import Userfs.Library.Word

namespace Userfs

/-!
# Packed records

A packed record is a sequence of little-endian fields without padding.  A record is
written as the bytes of its fields and read field by field at their offsets; reading what
was written gives every value cut to the width of its field.
-/

namespace Encoding

open Memory
open Word

/-- The bytes of fields given by width and value. -/
def pack (fields : List (Nat × Nat)) : List UInt8 :=
  fields.flatMap (fun field => leBytes field.1 field.2)

/-- The values of consecutive fields of given widths. -/
def unpack (memory : Nat -> UInt8) : Nat -> List Nat -> List Nat
  | _, [] => []
  | address, width :: widths =>
      leValue memory address width :: unpack memory (address + width) widths

/-- The size of a record with given fields. -/
def packedSize (fields : List (Nat × Nat)) : Nat :=
  (fields.map Prod.fst).sum

/-- A field that was written is read modulo its width. -/
theorem leValue_of_slice {memory : Nat -> UInt8} {address width value : Nat}
    (held : slice memory address width = leBytes width value) :
    leValue memory address width = value % 256 ^ width := by
  induction width generalizing address value with
  | zero => simp [leValue, Nat.mod_one]
  | succ width ih =>
      rw [Nat.add_comm, slice_append, Nat.add_comm 1 width] at held
      rcases List.cons.inj held with ⟨first, others⟩
      change memory address = UInt8.ofNat value at first
      rw [leValue, first, ih others, Nat.pow_succ', Nat.mod_mul]
      rfl

/-- Reading back a record that was written. -/
theorem unpack_pack {memory : Nat -> UInt8} {address : Nat} {fields : List (Nat × Nat)}
    (held : slice memory address (packedSize fields) = pack fields) :
    unpack memory address (fields.map Prod.fst) =
      fields.map (fun field => field.2 % 256 ^ field.1) := by
  induction fields generalizing address with
  | nil => rfl
  | cons field fields ih =>
      change slice memory address (field.1 + packedSize fields) =
        leBytes field.1 field.2 ++ pack fields at held
      rw [slice_append] at held
      rcases List.append_inj held (by rw [length_slice, length_leBytes]) with ⟨first, others⟩
      change leValue memory address field.1 :: unpack memory _ (fields.map Prod.fst) = _
      rw [leValue_of_slice first, ih others]
      rfl

end Encoding

end Userfs
