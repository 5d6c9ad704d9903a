import Mathlib.Data.List.Basic

namespace Userfs

/-!
# Stateful programs that can fail

A program reads and changes a state and either returns or stops with a fault.
A fault keeps the state reached so far: what was written to a device before a
panic stays written.  `Ensures` states a postcondition for both outcomes, and
its rules follow the shape of the program, so that a proof about a composite
program only cites the specifications of its parts.
-/

universe u

variable {E S X Y : Type u}

/-- Every outcome of a program from a state meets its postcondition: `done`
for a return, `failed` for a fault. -/
def Ensures (program : EStateM E S X) (state : S) (done : X -> S -> Prop)
    (failed : E -> S -> Prop) : Prop :=
  match program.run state with
  | .ok result next => done result next
  | .error fault next => failed fault next

namespace Ensures

variable {state : S} {done : X -> S -> Prop} {failed : E -> S -> Prop}

@[simp]
theorem pure_iff {result : X} :
    Ensures (pure result : EStateM E S X) state done failed <-> done result state :=
  Iff.rfl

@[simp]
theorem throw_iff {fault : E} :
    Ensures (throw fault : EStateM E S X) state done failed <-> failed fault state :=
  Iff.rfl

@[simp]
theorem get_iff {done : S -> S -> Prop} {failed : E -> S -> Prop} :
    Ensures (get : EStateM E S S) state done failed <-> done state state :=
  Iff.rfl

@[simp]
theorem modify_iff {change : S -> S} {done : PUnit -> S -> Prop} {failed : E -> S -> Prop} :
    Ensures (modify change : EStateM E S PUnit) state done failed <->
      done PUnit.unit (change state) :=
  Iff.rfl

/-- Sequential composition: the first program must end where the second one
meets the postcondition. -/
@[simp]
theorem bind_iff {program : EStateM E S X} {next : X -> EStateM E S Y}
    {done : Y -> S -> Prop} {failed : E -> S -> Prop} :
    Ensures (program >>= next) state done failed <->
      Ensures program state (fun result middle => Ensures (next result) middle done failed)
        failed := by
  unfold Ensures
  rw [EStateM.run_bind]
  cases program.run state <;> rfl

@[simp]
theorem ite_iff {condition : Prop} [Decidable condition] {first second : EStateM E S X} :
    Ensures (if condition then first else second) state done failed <->
      if condition then Ensures first state done failed
      else Ensures second state done failed := by
  split <;> rfl

/-- The consequence rule. -/
theorem mono {program : EStateM E S X} {weakDone : X -> S -> Prop} {weakFailed : E -> S -> Prop}
    (ensured : Ensures program state done failed)
    (onDone : forall result next, done result next -> weakDone result next)
    (onFailed : forall fault next, failed fault next -> weakFailed fault next) :
    Ensures program state weakDone weakFailed := by
  unfold Ensures at *
  cases outcome : program.run state with
  | ok result next =>
      rw [outcome] at ensured
      exact onDone result next ensured
  | error fault next =>
      rw [outcome] at ensured
      exact onFailed fault next ensured

/-- Two postconditions of one program hold together. -/
theorem and {program : EStateM E S X} {otherDone : X -> S -> Prop} {otherFailed : E -> S -> Prop}
    (first : Ensures program state done failed)
    (second : Ensures program state otherDone otherFailed) :
    Ensures program state (fun result next => done result next ∧ otherDone result next)
      (fun fault next => failed fault next ∧ otherFailed fault next) := by
  unfold Ensures at *
  cases outcome : program.run state with
  | ok result next =>
      rw [outcome] at first second
      exact ⟨first, second⟩
  | error fault next =>
      rw [outcome] at first second
      exact ⟨first, second⟩

/-- Nothing is asked of the outcome. -/
theorem always {program : EStateM E S X} :
    Ensures program state (fun _ _ => True) (fun _ _ => True) := by
  unfold Ensures
  cases program.run state <;> trivial

/-- A postcondition may be shown for the outcome at hand. -/
theorem of_run {program : EStateM E S X}
    (onDone : forall result next, program.run state = .ok result next -> done result next)
    (onFailed : forall fault next, program.run state = .error fault next -> failed fault next) :
    Ensures program state done failed := by
  unfold Ensures
  cases outcome : program.run state with
  | ok result next => exact onDone result next outcome
  | error fault next => exact onFailed fault next outcome

/-- A postcondition that does not speak about the outcome. -/
theorem const {program : EStateM E S X} {statement : Prop}
    (ensured : Ensures program state (fun _ _ => statement) (fun _ _ => statement)) : statement := by
  unfold Ensures at ensured
  cases outcome : program.run state <;> rw [outcome] at ensured <;> exact ensured

/-- A program whose outcomes tell whether a condition held meets its description without
a fault exactly if the condition holds. -/
theorem iff_of_outcome {program : EStateM E S X} {described : X -> S -> Prop} {condition : Prop}
    (outcome : Ensures program state done failed)
    (good : forall result next, done result next -> condition ∧ described result next)
    (bad : forall fault next, failed fault next -> ¬ condition) :
    Ensures program state described (fun _ _ => False) <-> condition := by
  constructor
  · intro returns
    have holds : Ensures program state (fun _ _ => condition) (fun _ _ => condition) :=
      (outcome.and returns).mono (fun result next both => (good result next both.1).1)
        (fun _ _ both => both.2.elim)
    exact holds.const
  · intro holds
    exact outcome.mono (fun result next reached => (good result next reached).2)
      (fun fault next stopped => bad fault next stopped holds)

/-- A program that cannot fail returns. -/
theorem exists_ok {program : EStateM E S X}
    (ensured : Ensures program state done (fun _ _ => False)) :
    Exists fun result => Exists fun next => program.run state = .ok result next ∧ done result next := by
  unfold Ensures at ensured
  cases outcome : program.run state with
  | ok result next =>
      rw [outcome] at ensured
      exact ⟨result, next, rfl, ensured⟩
  | error fault next =>
      rw [outcome] at ensured
      exact ensured.elim

/-- Programs with one outcome meet the same postconditions. -/
theorem congr_run {program other : EStateM E S X} (same : program.run state = other.run state) :
    Ensures program state done failed <-> Ensures other state done failed := by
  unfold Ensures
  rw [same]

/-- Of a program whose outcome is known the postcondition speaks about it. -/
theorem ok_iff {program : EStateM E S X} {result : X} {next : S}
    (outcome : program.run state = .ok result next) :
    Ensures program state done failed <-> done result next := by
  unfold Ensures
  rw [outcome]

theorem error_iff {program : EStateM E S X} {fault : E} {next : S}
    (outcome : program.run state = .error fault next) :
    Ensures program state done failed <-> failed fault next := by
  unfold Ensures
  rw [outcome]

instance {program : EStateM E S X} [forall result next, Decidable (done result next)]
    [forall fault next, Decidable (failed fault next)] :
    Decidable (Ensures program state done failed) :=
  match outcome : program.run state with
  | .ok result next => decidable_of_iff (done result next) (ok_iff outcome).symm
  | .error fault next => decidable_of_iff (failed fault next) (error_iff outcome).symm

end Ensures

/-- A program that meets every postcondition of another one has its outcome. -/
theorem run_eq_of_ensures {first second : EStateM E S X} {state : S}
    (meets : forall done failed, Ensures second state done failed -> Ensures first state done failed) :
    first.run state = second.run state := by
  cases outcome : second.run state with
  | ok result next =>
      have same := meets (fun r n => r = result ∧ n = next) (fun _ _ => False)
        ((Ensures.ok_iff outcome).mpr ⟨rfl, rfl⟩)
      rcases same.exists_ok with ⟨r, n, equal, rfl, rfl⟩
      exact equal
  | error fault next =>
      have same := meets (fun _ _ => False) (fun f n => f = fault ∧ n = next)
        ((Ensures.error_iff outcome).mpr ⟨rfl, rfl⟩)
      cases reached : first.run state with
      | ok r n => exact ((Ensures.ok_iff reached).mp same).elim
      | error f n =>
          rcases (Ensures.error_iff reached).mp same with ⟨rfl, rfl⟩
          rfl

-- proofs go through the rules; unfolding would run the program symbolically
attribute [irreducible] Ensures

/-! ## Programs that move along a relation -/

/-- Whatever its outcome, a program leads from a state to a related one. -/
def Follows (relation : S -> S -> Prop) (program : EStateM E S X) : Prop :=
  forall state, Ensures program state (fun _ next => relation state next)
    (fun _ next => relation state next)

namespace Follows

variable {relation : S -> S -> Prop} {program : EStateM E S X}

section Reflexive

variable [Std.Refl relation]

theorem pure (result : X) : Follows relation (Pure.pure result : EStateM E S X) :=
  fun state => Ensures.pure_iff.mpr (Std.Refl.refl state)

theorem throw (fault : E) : Follows relation (MonadExcept.throw fault : EStateM E S X) :=
  fun state => Ensures.throw_iff.mpr (Std.Refl.refl state)

theorem get : Follows relation (MonadState.get : EStateM E S S) :=
  fun state => Ensures.get_iff.mpr (Std.Refl.refl state)

end Reflexive

theorem modify {change : S -> S} (related : forall state, relation state (change state)) :
    Follows relation (modify change : EStateM E S PUnit) :=
  fun state => Ensures.modify_iff.mpr (related state)

/-- Two steps along a transitive relation. -/
theorem bind [IsTrans S relation] {next : X -> EStateM E S Y} (first : Follows relation program)
    (second : forall result, Follows relation (next result)) :
    Follows relation (program >>= next) := by
  intro state
  rw [Ensures.bind_iff]
  refine (first state).mono ?_ (fun _ _ related => related)
  intro result middle before
  refine (second result middle).mono ?_ ?_
  · intro _ last after
    exact IsTrans.trans _ _ _ before after
  · intro _ last after
    exact IsTrans.trans _ _ _ before after

theorem ite {condition : Prop} [Decidable condition] {first second : EStateM E S X}
    (yes : condition -> Follows relation first) (no : ¬ condition -> Follows relation second) :
    Follows relation (if condition then first else second) := by
  split
  · exact yes ‹_›
  · exact no ‹_›

end Follows

/-! ## The faults of a program -/

/-- Whatever state it starts from, a program raises allowed faults only. -/
def Raises (allowed : E -> Prop) (program : EStateM E S X) : Prop :=
  forall state, Ensures program state (fun _ _ => True) (fun fault _ => allowed fault)

namespace Raises

variable {allowed : E -> Prop} {program : EStateM E S X}

theorem pure (result : X) : Raises allowed (Pure.pure result : EStateM E S X) :=
  fun _ => Ensures.pure_iff.mpr trivial

theorem throw {fault : E} (permitted : allowed fault) :
    Raises allowed (MonadExcept.throw fault : EStateM E S X) :=
  fun _ => Ensures.throw_iff.mpr permitted

theorem get : Raises allowed (MonadState.get : EStateM E S S) :=
  fun _ => Ensures.get_iff.mpr trivial

theorem modify (change : S -> S) : Raises allowed (modify change : EStateM E S PUnit) :=
  fun _ => Ensures.modify_iff.mpr trivial

theorem bind {next : X -> EStateM E S Y} (first : Raises allowed program)
    (second : forall result, Raises allowed (next result)) : Raises allowed (program >>= next) := by
  intro state
  rw [Ensures.bind_iff]
  exact (first state).mono (fun result middle _ => second result middle) (fun _ _ fault => fault)

theorem ite {condition : Prop} [Decidable condition] {first second : EStateM E S X}
    (yes : condition -> Raises allowed first) (no : ¬ condition -> Raises allowed second) :
    Raises allowed (if condition then first else second) := by
  split
  · exact yes ‹_›
  · exact no ‹_›

end Raises

/-! ## Runs of a list of commands -/

/-- Execute one command after another and stop at the first fault. -/
def runAll {C : Type u} (execute : C -> EStateM E S PUnit) : List C -> EStateM E S PUnit
  | [] => pure PUnit.unit
  | command :: rest => do
      execute command
      runAll execute rest

/-- A run in which every command meets a condition in the state it starts
from.  After a fault there is no further command. -/
def Guarded {C : Type u} (execute : C -> EStateM E S PUnit) (condition : C -> S -> Prop) :
    List C -> S -> Prop
  | [], _ => True
  | command :: rest, state =>
      condition command state ∧
        Ensures (execute command) state (fun _ next => Guarded execute condition rest next)
          (fun _ _ => True)

instance Guarded.decide {C : Type u} {execute : C -> EStateM E S PUnit}
    {condition : C -> S -> Prop} [forall command state, Decidable (condition command state)] :
    (commands : List C) -> (state : S) -> Decidable (Guarded execute condition commands state)
  | [], _ => .isTrue trivial
  | command :: rest, state =>
      have : forall next, Decidable (Guarded execute condition rest next) := Guarded.decide rest
      inferInstanceAs (Decidable (condition command state ∧
        Ensures (execute command) state (fun _ next => Guarded execute condition rest next)
          (fun _ _ => True)))

/-- A condition that follows from another one holds along the same runs. -/
theorem Guarded.mono {C : Type u} {execute : C -> EStateM E S PUnit} {condition wider : C -> S -> Prop}
    {commands : List C} {state : S} (guarded : Guarded execute condition commands state)
    (follows : forall command state, condition command state -> wider command state) :
    Guarded execute wider commands state := by
  induction commands generalizing state with
  | nil => trivial
  | cons command rest ih =>
      exact ⟨follows command state guarded.1,
        guarded.2.mono (fun _ _ later => ih later) (fun _ _ fault => fault)⟩

/-- The invariant rule for guarded runs.  The invariant may speak about the
commands executed so far; a fault is one that a command of the run raises. -/
theorem Ensures.runAll_guarded {C : Type u} {execute : C -> EStateM E S PUnit}
    {condition : C -> S -> Prop} {invariant : List C -> S -> Prop} {failed : E -> S -> Prop}
    (step : forall past command state, invariant past state -> condition command state ->
      Ensures (execute command) state (fun _ next => invariant (past ++ [command]) next) failed)
    {past commands : List C} {state : S} (start : invariant past state)
    (guarded : Guarded execute condition commands state) :
    Ensures (runAll execute commands) state
      (fun _ next => invariant (past ++ commands) next) failed := by
  induction commands generalizing past state with
  | nil => simpa [runAll] using start
  | cons command rest ih =>
      unfold runAll
      rw [Ensures.bind_iff]
      have both := (step past command state start guarded.1).and guarded.2
      refine both.mono ?_ (fun _ _ fault => fault.1)
      intro _ next kept
      simpa using ih kept.1 kept.2

/-- A condition on the commands alone holds along every run. -/
theorem Guarded.of_forall {C : Type u} {execute : C -> EStateM E S PUnit} {condition : C -> Prop}
    {commands : List C} (every : forall command, command ∈ commands -> condition command)
    (state : S) : Guarded execute (fun command _ => condition command) commands state := by
  induction commands generalizing state with
  | nil => trivial
  | cons command rest ih =>
      refine ⟨every command List.mem_cons_self, ?_⟩
      unfold Ensures
      split
      · exact ih (fun later member => every later (List.mem_cons_of_mem _ member)) _
      · trivial

/-- The invariant rule for runs: an invariant kept by every command that meets
a condition is kept by a run of such commands. -/
theorem Ensures.runAll {C : Type u} {execute : C -> EStateM E S PUnit} {condition : C -> Prop}
    {invariant : List C -> S -> Prop} {failed : E -> S -> Prop}
    (step : forall past command state, invariant past state -> condition command ->
      Ensures (execute command) state (fun _ next => invariant (past ++ [command]) next) failed)
    {state : S} (start : invariant [] state) {commands : List C}
    (every : forall command, command ∈ commands -> condition command) :
    Ensures (runAll execute commands) state (fun _ next => invariant commands next) failed := by
  have run := Ensures.runAll_guarded step start (Guarded.of_forall every state)
  simpa using run

/-- The same rule for an invariant of the state alone. -/
theorem Ensures.runAll_state {C : Type u} {execute : C -> EStateM E S PUnit} {condition : C -> Prop}
    {invariant : S -> Prop} {failed : E -> S -> Prop}
    (step : forall command state, invariant state -> condition command ->
      Ensures (execute command) state (fun _ next => invariant next) failed)
    {state : S} (start : invariant state) {commands : List C}
    (every : forall command, command ∈ commands -> condition command) :
    Ensures (Userfs.runAll execute commands) state (fun _ next => invariant next) failed :=
  @Ensures.runAll E S C execute condition (fun _ => invariant) failed
    (fun _ command state kept allowed => step command state kept allowed) state start commands every

/-- The invariant rule for guarded runs, for an invariant of the state alone. -/
theorem Ensures.runAll_guarded_state {C : Type u} {execute : C -> EStateM E S PUnit}
    {condition : C -> S -> Prop} {invariant : S -> Prop} {failed : E -> S -> Prop}
    (step : forall command state, invariant state -> condition command state ->
      Ensures (execute command) state (fun _ next => invariant next) failed)
    {commands : List C} {state : S} (start : invariant state)
    (guarded : Guarded execute condition commands state) :
    Ensures (Userfs.runAll execute commands) state (fun _ next => invariant next) failed :=
  @Ensures.runAll_guarded E S C execute condition (fun _ => invariant) failed
    (fun _ command state kept allowed => step command state kept allowed) [] commands state start
    guarded

end Userfs
