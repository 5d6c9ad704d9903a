import Mathlib.Data.Nat.ModEq

namespace Userfs

/-!
# Arithmetic of machine words on natural numbers

An unsigned machine value is a natural number below the modulus of its width.
The operations of this file reduce explicitly, so that a reader sees where a
shift or a difference can lose information.  Each comes with the condition
under which it is the ordinary operation.
-/

namespace Word

/-- Keep the low bits of a value, as a conversion to a narrower type does. -/
def low (bits value : Nat) : Nat :=
  value % 2 ^ bits

/-- Sixty-four bit addition. -/
def add64 (first second : Nat) : Nat :=
  low 64 (first + second)

/-- Sixty-four bit subtraction; a negative difference wraps. -/
def sub64 (first second : Nat) : Nat :=
  low 64 (first + (2 ^ 64 - low 64 second))

/-- Sixty-four bit left shift; the high bits are lost. -/
def shl64 (value places : Nat) : Nat :=
  low 64 (value * 2 ^ places)

/-- The low bytes of a value, least significant first. -/
def leBytes : Nat -> Nat -> List UInt8
  | 0, _ => []
  | count + 1, value => UInt8.ofNat value :: leBytes count (value / 256)

/-- The value of consecutive little-endian bytes of a memory. -/
def leValue (memory : Nat -> UInt8) (address : Nat) : Nat -> Nat
  | 0 => 0
  | count + 1 => (memory address).toNat + 256 * leValue memory (address + 1) count

@[simp]
theorem length_leBytes (count value : Nat) : (leBytes count value).length = count := by
  induction count generalizing value with
  | zero => rfl
  | succ count ih => simp [leBytes, ih]

theorem low_of_lt {bits value : Nat} (small : value < 2 ^ bits) : low bits value = value :=
  Nat.mod_eq_of_lt small

theorem low_lt (bits value : Nat) : low bits value < 2 ^ bits :=
  Nat.mod_lt _ (Nat.two_pow_pos bits)

theorem add64_of_lt {first second : Nat} (small : first + second < 2 ^ 64) :
    add64 first second = first + second :=
  low_of_lt small

theorem sub64_of_le {first second : Nat} (ordered : second ≤ first) (small : first < 2 ^ 64) :
    sub64 first second = first - second := by
  unfold sub64 low
  omega

/-- A wrapped difference still adds back to the minuend. -/
theorem low_sub64_add (first second : Nat) :
    low 64 (sub64 first second + second) = low 64 first := by
  unfold sub64 low
  omega

/-- Shifting the wrapped difference of two values gives the distance of the
shifted values, up to the word modulus. -/
theorem low_add_shl64_sub64 (first second places : Nat) :
    low 64 (second * 2 ^ places + shl64 (sub64 first second) places) =
      low 64 (first * 2 ^ places) := by
  have whole : (sub64 first second + second) * 2 ^ places ≡ first * 2 ^ places [MOD 2 ^ 64] :=
    Nat.ModEq.mul_right _ (low_sub64_add first second)
  have shifted : shl64 (sub64 first second) places ≡ sub64 first second * 2 ^ places [MOD 2 ^ 64] :=
    Nat.mod_modEq _ _
  have sum := (shifted.add_left (second * 2 ^ places))
  rw [← Nat.add_mul, Nat.add_comm second] at sum
  exact sum.trans whole

end Word

end Userfs
