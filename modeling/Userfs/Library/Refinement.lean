import Userfs.Library.Program

namespace Userfs

/-!
# Programs that refine an abstract machine

A machine says what every command does to an abstract state, what it answers, and in
which states a caller may issue it.  A program refines the machine through a relation
between the concrete and the abstract state if each command, issued legally, answers as
the machine does and leads to related states.  The rule below carries this to whole runs:
all answers agree, no command fails, and the last states are related.
-/

universe u v

variable {E S : Type u} {A : Type v} {C R : Type u}

/-- Run a program on a part of the state. -/
def onPart {T X : Type u} (view : S -> T) (put : T -> S -> S) (program : EStateM E T X) :
    EStateM E S X :=
  fun state =>
    match program.run (view state) with
    | .ok result part => .ok result (put part state)
    | .error fault part => .error fault (put part state)

theorem Ensures.onPart_iff {T X : Type u} {view : S -> T} {put : T -> S -> S}
    {program : EStateM E T X} {state : S} {done : X -> S -> Prop} {failed : E -> S -> Prop} :
    Ensures (onPart view put program) state done failed <->
      Ensures program (view state) (fun result part => done result (put part state))
        (fun fault part => failed fault (put part state)) := by
  unfold Ensures onPart
  simp only [EStateM.run]
  cases program (view state) <;> rfl

/-- Abstract states `A` with commands `C` and answers `R`. -/
structure Machine (A : Type v) (C R : Type u) where
  step : C -> A -> A × R
  legal : C -> A -> Prop

namespace Machine

variable (machine : Machine A C R)

/-- The last state and the answers of a run. -/
def run : List C -> A -> A × List R
  | [], state => (state, [])
  | command :: rest, state =>
      let (next, answer) := machine.step command state
      let (last, answers) := run rest next
      (last, answer :: answers)

/-- Every command of a run is issued in a state where it may be. -/
def Legal : List C -> A -> Prop
  | [], _ => True
  | command :: rest, state =>
      machine.legal command state ∧ Legal rest (machine.step command state).1

end Machine

/-- Execute commands one after another and collect the answers. -/
def runAnswers (execute : C -> EStateM E S R) : List C -> EStateM E S (List R)
  | [] => pure []
  | command :: rest => do
      let answer ← execute command
      let answers ← runAnswers execute rest
      pure (answer :: answers)

/-- The invariant rule for runs with answers: every command that meets a condition gives
its answer and keeps the invariant, which may speak about the commands so far. -/
theorem Ensures.runAnswers {execute : C -> EStateM E S R} {condition : C -> Prop} {answer : C -> R}
    {invariant : List C -> S -> Prop} {failed : E -> S -> Prop}
    (step : forall past command state, invariant past state -> condition command ->
      Ensures (execute command) state
        (fun result next => result = answer command ∧ invariant (past ++ [command]) next) failed)
    {state : S} (start : invariant [] state) {commands : List C}
    (every : forall command, command ∈ commands -> condition command) :
    Ensures (Userfs.runAnswers execute commands) state
      (fun results next => results = commands.map answer ∧ invariant commands next) failed := by
  have run : forall past, invariant past state -> Ensures (Userfs.runAnswers execute commands) state
      (fun results next => results = commands.map answer ∧ invariant (past ++ commands) next)
      failed := by
    clear start
    induction commands generalizing state with
    | nil =>
        intro past kept
        rw [Userfs.runAnswers, Ensures.pure_iff, List.append_nil]
        exact ⟨rfl, kept⟩
    | cons command rest ih =>
        intro past kept
        rw [Userfs.runAnswers, Ensures.bind_iff]
        refine (step past command state kept (every command List.mem_cons_self)).mono ?_
          (fun _ _ fault => fault)
        rintro result next ⟨rfl, after⟩
        rw [Ensures.bind_iff]
        refine (ih (fun other member => every other (List.mem_cons_of_mem _ member))
          (past ++ [command]) after).mono ?_ (fun _ _ fault => fault)
        rintro results last ⟨rfl, finished⟩
        rw [List.append_assoc] at finished
        exact Ensures.pure_iff.mpr ⟨rfl, finished⟩
  simpa using run [] start

/-- A program refines a machine through a relation of states. -/
def Refines (machine : Machine A C R) (execute : C -> EStateM E S R) (related : S -> A -> Prop) : Prop :=
  forall command state abstract, related state abstract -> machine.legal command abstract ->
    Ensures (execute command) state
      (fun answer next => answer = (machine.step command abstract).2 ∧
        related next (machine.step command abstract).1)
      (fun _ _ => False)

/-- A refinement holds for runs if it holds for commands. -/
theorem Refines.runAnswers {machine : Machine A C R} {execute : C -> EStateM E S R}
    {related : S -> A -> Prop} (refines : Refines machine execute related) {commands : List C}
    {state : S} {abstract : A} (start : related state abstract)
    (legal : machine.Legal commands abstract) :
    Ensures (runAnswers execute commands) state
      (fun answers last => answers = (machine.run commands abstract).2 ∧
        related last (machine.run commands abstract).1)
      (fun _ _ => False) := by
  induction commands generalizing state abstract with
  | nil => exact Ensures.pure_iff.mpr ⟨rfl, start⟩
  | cons command rest ih =>
      unfold Userfs.runAnswers
      rw [Ensures.bind_iff]
      refine (refines command state abstract start legal.1).mono ?_ (fun _ _ impossible => impossible)
      rintro answer next ⟨rfl, kept⟩
      rw [Ensures.bind_iff]
      refine (ih kept legal.2).mono ?_ (fun _ _ impossible => impossible)
      rintro answers last ⟨rfl, finished⟩
      exact Ensures.pure_iff.mpr ⟨rfl, finished⟩

end Userfs
