import Mathlib.Data.List.Basic
import Mathlib.Data.Nat.ModEq
import Mathlib.Logic.Function.Basic

namespace Userfs

/-!
# Ring buffers

A ring buffer holds a queue in consecutive cells of an array, counted modulo its size from
a head position.  Appending writes the cell behind the last item and removing moves the
head, so the items come out in the order in which they went in.
-/

namespace RingBuffer

universe u

variable {T : Type u} {cells : Nat -> T} {size head : Nat} {items : List T}

/-- The items held from the head on. -/
structure Holds (cells : Nat -> T) (size head : Nat) (items : List T) : Prop where
  fits : items.length ≤ size
  inside : head < size
  cell : forall index (bound : index < items.length), cells ((head + index) % size) = items[index]

/-- Different positions behind the head are different cells. -/
theorem position_injective {first second : Nat} (firstInside : first < size)
    (secondInside : second < size) (equal : (head + first) % size = (head + second) % size) :
    first = second := by
  have same : first ≡ second [MOD size] := Nat.ModEq.add_left_cancel' head equal
  exact Nat.ModEq.eq_of_lt_of_lt same firstInside secondInside

/-- The head moved by one is one position further. -/
theorem position_succ (size head index : Nat) : ((head + 1) % size + index) % size = (head + (index + 1)) % size := by
  rw [Nat.mod_add_mod]
  congr 1
  omega

theorem holds_nil (cells : Nat -> T) (inside : head < size) : Holds cells size head [] where
  fits := Nat.zero_le _
  inside := inside
  cell := fun _ bound => absurd bound (Nat.not_lt_zero _)

/-- Writing behind the last item appends, as long as there is room. -/
theorem Holds.push (holds : Holds cells size head items) (room : items.length < size) (item : T) :
    Holds (Function.update cells ((head + items.length) % size) item) size head (items ++ [item]) where
  fits := by
    rw [List.length_append, List.length_singleton]
    exact room
  inside := holds.inside
  cell := by
    intro index bound
    rw [List.length_append, List.length_singleton] at bound
    rcases Nat.lt_or_ge index items.length with old | new
    · have apart : (head + index) % size ≠ (head + items.length) % size := fun equal =>
        Nat.ne_of_lt old (position_injective (Nat.lt_trans old room) room equal)
      rw [Function.update_of_ne apart, List.getElem_append_left old]
      exact holds.cell index old
    · have last : index = items.length := Nat.le_antisymm (Nat.le_of_lt_succ bound) new
      subst last
      rw [Function.update_self, List.getElem_concat_length rfl]

/-- The head cell holds the first item. -/
theorem Holds.front {item : T} (holds : Holds cells size head (item :: items)) : cells head = item := by
  have cell := holds.cell 0 (Nat.zero_lt_succ _)
  rw [Nat.add_zero, Nat.mod_eq_of_lt holds.inside] at cell
  exact cell

/-- Moving the head removes the first item. -/
theorem Holds.pop {item : T} (holds : Holds cells size head (item :: items)) :
    Holds cells size ((head + 1) % size) items where
  fits := Nat.le_of_succ_le holds.fits
  inside := Nat.mod_lt _ (Nat.zero_lt_of_lt holds.inside)
  cell := by
    intro index bound
    rw [position_succ]
    exact holds.cell (index + 1) (Nat.succ_lt_succ bound)

end RingBuffer

end Userfs
