import Mathlib.Data.List.Basic

namespace Userfs

/-!
# Tilings of a range

A transfer of a range is cut into pieces, each with an offset in the range's own
space, a position in a buffer, and a size.  The pieces tile the range if they follow
each other without gap or overlap and the positions move with the offsets.
-/

/-- One piece of a transfer. -/
structure Piece where
  off : Nat
  position : Nat
  size : Nat
deriving DecidableEq, Repr

/-- A piece that lies in one unit of a given size. -/
def Piece.InUnit (piece : Piece) (unit : Nat) : Prop :=
  piece.off / unit = (piece.off + piece.size - 1) / unit

/-- The pieces tile `total` bytes from an offset and a buffer position on. -/
def Tiles : List Piece -> Nat -> Nat -> Nat -> Prop
  | [], _, _, total => total = 0
  | piece :: rest, off, position, total =>
      piece.off = off ∧ piece.position = position ∧ 0 < piece.size ∧ piece.size ≤ total ∧
        Tiles rest (off + piece.size) (position + piece.size) (total - piece.size)

/-- The piece of a given size, if it is not empty. -/
def pieceOf (off position size : Nat) : List Piece :=
  if 0 < size then [⟨off, position, size⟩] else []

theorem tiles_pieceOf (off position size : Nat) :
    Tiles (pieceOf off position size) off position size := by
  unfold pieceOf
  split
  · exact ⟨rfl, rfl, ‹_›, Nat.le_refl size, Nat.sub_self size⟩
  · exact Nat.eq_zero_of_not_pos ‹_›

theorem mem_pieceOf {off position size : Nat} {piece : Piece}
    (member : piece ∈ pieceOf off position size) : piece = ⟨off, position, size⟩ ∧ 0 < size := by
  unfold pieceOf at member
  split at member
  · exact ⟨List.mem_singleton.mp member, ‹_›⟩
  · exact nomatch member

/-- Two adjacent tilings. -/
theorem Tiles.append {first second : List Piece} {off position left right : Nat}
    (before : Tiles first off position left)
    (after : Tiles second (off + left) (position + left) right) :
    Tiles (first ++ second) off position (left + right) := by
  induction first generalizing off position left with
  | nil =>
      have empty : left = 0 := before
      subst empty
      simpa using after
  | cons piece rest ih =>
      rcases before with ⟨offset, place, positive, fits, tail⟩
      refine ⟨offset, place, positive, by omega, ?_⟩
      have rearranged : left + right - piece.size = left - piece.size + right := by omega
      rw [rearranged]
      refine ih tail ?_
      have sameOff : off + piece.size + (left - piece.size) = off + left := by omega
      have samePosition : position + piece.size + (left - piece.size) = position + left := by omega
      rw [sameOff, samePosition]
      exact after

end Userfs
