import Mathlib.Data.List.Basic

namespace Userfs

/-!
# Bitmaps

A bitmap is a list of bits.  The programs that use one clear it from the front: the
bits before some index are clear and the others are set.  In this form the first set
bit is that index, the weight is what remains, and clearing bits from the first set
bit on gives the form again.
-/

namespace Bitmap

/-- A bitmap with all bits set, `bitmap_set` from the start. -/
def full (size : Nat) : List Bool :=
  List.replicate size true

/-- `bitmap_clear`. -/
def clear (bits : List Bool) (start count : Nat) : List Bool :=
  bits.mapIdx (fun index bit => if start ≤ index ∧ index < start + count then false else bit)

/-- `find_first_bit`: the size of the bitmap when no bit is set. -/
def findFirst (bits : List Bool) : Nat :=
  bits.findIdx (fun bit => bit)

/-- `bitmap_weight`. -/
def weight (bits : List Bool) : Nat :=
  bits.count true

/-- The bits before `cleared` are clear, the other ones up to `size` are set. -/
def Front (bits : List Bool) (cleared size : Nat) : Prop :=
  bits = List.replicate cleared false ++ List.replicate (size - cleared) true ∧ cleared ≤ size

theorem front_full (size : Nat) : Front (full size) 0 size :=
  ⟨by simp [full], Nat.zero_le size⟩

section Front

variable {bits : List Bool} {cleared size : Nat}

theorem Front.weight_eq (front : Front bits cleared size) : weight bits = size - cleared := by
  unfold weight
  rw [front.1, List.count_append, List.count_replicate, List.count_replicate]
  simp

theorem Front.findFirst_eq (front : Front bits cleared size) : findFirst bits = cleared := by
  have none : forall bit, bit ∈ List.replicate cleared false -> ¬ bit = true := by
    intro bit member
    rw [List.eq_of_mem_replicate member]
    exact Bool.false_ne_true
  unfold findFirst
  rw [front.1, List.findIdx_append]
  have absent : (List.replicate cleared false).findIdx (fun bit => bit) = cleared := by
    rw [List.findIdx_eq_length_of_false]
    · simp
    · intro bit member
      simpa using none bit member
  rw [absent, List.length_replicate, if_neg (Nat.lt_irrefl cleared)]
  rcases Nat.eq_zero_or_pos (size - cleared) with empty | more
  · rw [empty]
    simp
  · obtain ⟨rest, equal⟩ : Exists fun rest => size - cleared = rest + 1 := ⟨size - cleared - 1, by omega⟩
    rw [equal, List.replicate_succ, List.findIdx_cons]
    exact Nat.zero_add cleared

/-- Clearing from the first set bit on moves the front. -/
theorem Front.clear (front : Front bits cleared size) {count : Nat}
    (fits : cleared + count ≤ size) :
    Front (Bitmap.clear bits cleared count) (cleared + count) size := by
  refine ⟨?_, fits⟩
  unfold Bitmap.clear
  rw [front.1]
  apply List.ext_getElem
  · simp
    omega
  · intro index first second
    rw [List.getElem_mapIdx, List.getElem_append, List.getElem_append]
    simp only [List.length_replicate, List.getElem_replicate]
    by_cases before : index < cleared
    · rw [dif_pos before, dif_pos (by omega), ite_self]
    · rw [dif_neg before]
      by_cases inside : index < cleared + count
      · rw [if_pos ⟨by omega, inside⟩, dif_pos inside]
      · rw [if_neg (fun both => inside both.2), dif_neg inside]

end Front

end Bitmap

end Userfs
