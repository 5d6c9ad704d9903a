import Mathlib.Data.List.Basic

namespace Userfs

/-!
# Flat memories

A memory assigns a cell to every address.  The only update is a block copy, and
the only observations are single cells and slices.  A copy is transparent
outside its range; this is the frame rule every device and log argument uses.
-/

namespace Memory

universe u

variable {X : Type u}

/-- Copy `count` cells of a source, from its address zero on, to `start`. -/
def copy (target : Nat -> X) (start : Nat) (source : Nat -> X) (count : Nat) : Nat -> X :=
  fun address =>
    if start ≤ address ∧ address < start + count then source (address - start)
    else target address

theorem copy_inside (target source : Nat -> X) {start count address : Nat}
    (lower : start ≤ address) (upper : address < start + count) :
    copy target start source count address = source (address - start) :=
  if_pos ⟨lower, upper⟩

theorem copy_outside (target source : Nat -> X) {start count address : Nat}
    (outside : address < start ∨ start + count ≤ address) :
    copy target start source count address = target address := by
  apply if_neg
  rintro ⟨lower, upper⟩
  omega

/-- The cells of a range, in order. -/
def slice (memory : Nat -> X) (start count : Nat) : List X :=
  (List.range count).map (fun index => memory (start + index))

@[simp]
theorem slice_zero (memory : Nat -> X) (start : Nat) : slice memory start 0 = [] :=
  rfl

@[simp]
theorem length_slice (memory : Nat -> X) (start count : Nat) :
    (slice memory start count).length = count := by
  simp [slice]

@[simp]
theorem getElem_slice (memory : Nat -> X) (start count index : Nat)
    (bound : index < (slice memory start count).length) :
    (slice memory start count)[index] = memory (start + index) := by
  simp [slice]

theorem slice_append (memory : Nat -> X) (start first second : Nat) :
    slice memory start (first + second) =
      slice memory start first ++ slice memory (start + first) second := by
  unfold slice
  rw [List.range_add, List.map_append, List.map_map]
  congr 1
  refine List.map_congr_left ?_
  intro index _
  simp [Nat.add_assoc]

theorem slice_congr {memory other : Nat -> X} {start otherStart count : Nat}
    (same : forall index, index < count -> memory (start + index) = other (otherStart + index)) :
    slice memory start count = slice other otherStart count := by
  refine List.map_congr_left ?_
  intro index member
  exact same index (List.mem_range.mp member)

/-- A range that a copy does not meet keeps its cells. -/
theorem slice_copy_outside (target source : Nat -> X) {start count origin length : Nat}
    (outside : origin + length ≤ start ∨ start + count ≤ origin) :
    slice (copy target start source count) origin length = slice target origin length := by
  refine slice_congr ?_
  intro index bound
  exact copy_outside target source (by omega)

/-- The copied range holds the source. -/
theorem slice_copy_inside (target source : Nat -> X) (start count : Nat) :
    slice (copy target start source count) start count = slice source 0 count := by
  refine slice_congr ?_
  intro index bound
  rw [copy_inside target source (by omega) (by omega)]
  simp

end Memory

end Userfs
