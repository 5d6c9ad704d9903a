import Mathlib.Order.Lattice

namespace Userfs.SampledMaximum

/-!
# A maximum that is sampled and stored back

Two processes raise a shared value.  Each has a bound of its own, reads the value
once, reads it again to decide between its bound and the first reading, raises the
value in the open any number of times, and at the end stores what it decided on.
The two readings and the final store are separate moves, so that the other process
may act in between.

The value never ends below a bound if a process makes its final store while the
other is under way only when the other one has the greater bound, or when its own
bound was reached before either of them began.  The invariant keeps, for each pair
of stages, what a later store may rely on.
-/

universe u

variable {V : Type u}

/-- How far a process has come, with the value it carries. -/
inductive Stage (V : Type u) where
  | idle
  | sampled (value : V)
  | busy (target : V)
  | returned

/-- A process that has decided on the value it will store. -/
def Stage.Past : Stage V -> Prop
  | .idle => False
  | .sampled _ => False
  | .busy _ => True
  | .returned => True

/-- A process that has read the value and not stored it. -/
def Stage.Inside : Stage V -> Prop
  | .idle => False
  | .sampled _ => True
  | .busy _ => True
  | .returned => False

instance (stage : Stage V) : Decidable stage.Inside :=
  match stage with
  | .idle => .isFalse id
  | .sampled _ => .isTrue trivial
  | .busy _ => .isTrue trivial
  | .returned => .isFalse id

variable [LinearOrder V]

/-- The moves of a process with bound `own`, while the other one, with bound
`other`, is at stage `theirs`. -/
inductive Moves (initial own other : V) (theirs : Stage V) :
    V -> Stage V -> V -> Stage V -> Prop where
  | sample (value : V) : Moves initial own other theirs value .idle value (.sampled value)
  | compare (value first : V) :
      Moves initial own other theirs value (.sampled first) value
        (.busy (if value < own then own else first))
  | raise (value target reached : V) (bounded : reached ≤ own) :
      Moves initial own other theirs value (.busy target) (max value reached) (.busy target)
  | wait (value : V) (stage : Stage V) : Moves initial own other theirs value stage value stage
  | store (value target : V) (ordered : theirs.Inside -> own < other ∨ own ≤ initial) :
      Moves initial own other theirs value (.busy target) target .returned

section Invariant

variable (initial own other : V)

/-- A value that the initial one or the bound of a process past its decision
accounts for. -/
def Within (mine theirs : Stage V) (value : V) : Prop :=
  value ≤ initial ∨ (mine.Past ∧ value ≤ own) ∨ (theirs.Past ∧ value ≤ other)

/-- What a process may rely on at its stage. -/
def Sound (value : V) (theirs : Stage V) : Stage V -> Prop
  | .idle => theirs = .returned -> other ≤ value
  | .sampled first =>
      initial ≤ first ∧ Within initial own other (.sampled first) theirs first ∧
        (theirs = .returned -> other < own ∨ other ≤ initial ∨ (other ≤ first ∧ value = first))
  | .busy target =>
      initial ≤ target ∧ Within initial own other (.busy target) theirs target ∧
        (own ≤ target ∨ (own ≤ other ∧ theirs.Past)) ∧
        (theirs = .returned -> other ≤ target ∧ own ≤ target)
  | .returned => theirs = .returned -> own ≤ value ∧ other ≤ value

/-- The invariant of the two processes. -/
structure Kept (value : V) (mine theirs : Stage V) : Prop where
  lower : initial ≤ value
  upper : Within initial own other mine theirs value
  sound : Sound initial own other value theirs mine
  soundTheirs : Sound initial other own value mine theirs

end Invariant

variable {initial own other value next : V} {mine theirs stage : Stage V}

theorem Within.symm (within : Within initial own other mine theirs value) :
    Within initial other own theirs mine value := by
  rcases within with small | small | small
  · exact .inl small
  · exact .inr (.inr small)
  · exact .inr (.inl small)

namespace Kept

theorem symm (kept : Kept initial own other value mine theirs) :
    Kept initial other own value theirs mine :=
  ⟨kept.lower, kept.upper.symm, kept.soundTheirs, kept.sound⟩

/-- Before either process moves. -/
theorem start (initial own other : V) : Kept initial own other initial .idle .idle where
  lower := le_refl initial
  upper := .inl (le_refl initial)
  sound := fun impossible => by cases impossible
  soundTheirs := fun impossible => by cases impossible

theorem sample (kept : Kept initial own other value .idle theirs) :
    Kept initial own other value (.sampled value) theirs := by
  rcases kept with ⟨lower, upper, sound, soundTheirs⟩
  refine ⟨lower, upper, ⟨lower, upper, fun returned => .inr (.inr ⟨sound returned, rfl⟩)⟩, ?_⟩
  cases theirs <;> simp_all [Sound, Within, Stage.Past]

/-- The second reading.  It is at least the own bound only if the initial value
was, or the other process has the greater bound and is past its own decision. -/
theorem compare {first : V} (kept : Kept initial own other value (.sampled first) theirs) :
    Kept initial own other value (.busy (if value < own then own else first)) theirs := by
  rcases kept with ⟨lower, upper, sound, soundTheirs⟩
  refine ⟨lower, ?_, ?_, ?_⟩
  · cases theirs <;> simp_all [Within, Stage.Past] <;> grind
  · cases theirs <;> simp_all [Sound, Within, Stage.Past] <;> grind
  · cases theirs <;> simp_all [Sound, Within, Stage.Past]
    grind

theorem raise {target reached : V} (kept : Kept initial own other value (.busy target) theirs)
    (bounded : reached ≤ own) :
    Kept initial own other (max value reached) (.busy target) theirs := by
  rcases kept with ⟨lower, upper, sound, soundTheirs⟩
  refine ⟨le_trans lower (le_max_left _ _), ?_, sound, ?_⟩
  · cases theirs <;> simp_all [Within, Stage.Past] <;> grind
  · cases theirs <;> simp_all [Sound, Within, Stage.Past]

/-- The final store.  If the other process is under way, what it decided on or is
about to decide on covers both bounds. -/
theorem store {target : V} (kept : Kept initial own other value (.busy target) theirs)
    (ordered : theirs.Inside -> own < other ∨ own ≤ initial) :
    Kept initial own other target .returned theirs := by
  rcases kept with ⟨lower, upper, ⟨above, within, decided, both⟩, soundTheirs⟩
  refine ⟨above, within, fun returned => (both returned).symm, ?_⟩
  cases theirs <;> simp_all [Sound, Within, Stage.Past, Stage.Inside] <;> grind

/-- Every move keeps the invariant. -/
theorem move (kept : Kept initial own other value mine theirs)
    (moves : Moves initial own other theirs value mine next stage) :
    Kept initial own other next stage theirs := by
  cases moves with
  | sample => exact kept.sample
  | compare first => exact kept.compare
  | raise target reached bounded => exact kept.raise bounded
  | wait => exact kept
  | store target ordered => exact kept.store ordered

/-- When both processes have returned, the value is at least the initial one and
both bounds. -/
theorem returned (kept : Kept initial own other value .returned .returned) :
    initial ≤ value ∧ own ≤ value ∧ other ≤ value :=
  ⟨kept.lower, kept.sound rfl⟩

end Kept

end Userfs.SampledMaximum
