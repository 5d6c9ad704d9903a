import Mathlib.Algebra.BigOperators.Fin
import Userfs.Library.RingBuffer
import Userfs.Library.Word

namespace Userfs.Threadpool

open Word

/-!
# The thread pool

`threadpool_add` puts a task into a ring of `queue_size` cells and the workers of
`threadpool_thread` take tasks out of it, each in one section under the lock.  Readers give
a buffer head to the pool of its device and wait until a worker has counted `b_size` up.

The branch of `threadpool_add` for a full queue was meant to try again, but its `continue`
stands in a `do ... while(0)` and leaves the loop.  The call then returns 0 for a task it
has not stored.  While no task is added to a full queue, tasks are taken in order, each
once, and every reader goes on.
-/

universe u

/-- The field `shutdown`. -/
inductive Shutdown where
  | none
  | immediate
  | graceful
deriving DecidableEq, Repr

/-- `struct threadpool_t` without its threads and locks. -/
structure Pool (T : Type u) where
  queue : Nat -> T
  queueSize : Nat
  head : Nat
  tail : Nat
  count : Nat
  shutdown : Shutdown

variable {T : Type u} {W : Type} [DecidableEq W]

/-- `threadpool_create`, over any contents of the allocated queue. -/
def threadpoolCreate (queueSize : Nat) (queue : Nat -> T) : Pool T where
  queue := queue
  queueSize := queueSize
  head := 0
  tail := 0
  count := 0
  shutdown := .none

/-- `threadpool_add` for a pool and a function that exist: the result and the pool. -/
def threadpoolAdd (pool : Pool T) (task : T) : Int × Pool T :=
  -- the continue of the full queue ends the loop with err still 0
  if pool.count = pool.queueSize then (0, pool)
  else if pool.shutdown ≠ .none then (-4, pool)
  else
    (0, { pool with
      queue := Function.update pool.queue pool.tail task
      tail := (pool.tail + 1) % pool.queueSize
      count := pool.count + 1 })

/-- How the locked section of `threadpool_thread` ends. -/
inductive Section (T : Type u) where
  | wait
  | exit
  | grab (task : T) (pool : Pool T)

/-- The locked section of `threadpool_thread`.  A worker that waits tests again when it
wakes up. -/
def threadpoolThread (pool : Pool T) : Section T :=
  if pool.count = 0 ∧ pool.shutdown = .none then .wait
  else if pool.shutdown = .immediate ∨ pool.shutdown = .graceful ∧ pool.count = 0 then .exit
  else
    .grab (pool.queue pool.head)
      { pool with head := (pool.head + 1) % pool.queueSize, count := pool.count - 1 }

/-- The pool with its workers: the task each worker is at, and `b_size` of the buffer heads.
The lists only observe: the tasks for which `threadpool_add` returned 0, the tasks taken
with their workers, and the tasks done. -/
structure System (W : Type) (T : Type u) where
  pool : Pool T
  running : W -> Option T
  bSize : T -> Nat
  accepted : List T
  taken : List (W × T)
  done : List T

/-- A call of `threadpool_add` by any reader, or a step of a worker. -/
inductive Step (W : Type) (T : Type u) where
  | add (task : T)
  | work (worker : W)
deriving DecidableEq

/-- A new pool with idle workers. -/
def System.create (queueSize : Nat) (queue : Nat -> T) (bSize : T -> Nat) : System W T where
  pool := threadpoolCreate queueSize queue
  running := fun _ => none
  bSize := bSize
  accepted := []
  taken := []
  done := []

variable [DecidableEq T]

/-- One step.  Outside the lock a worker runs the task, which leaves `b_size` alone, and then
adds one to it. -/
def System.step (system : System W T) : Step W T -> System W T
  | .add task =>
      let (err, pool) := threadpoolAdd system.pool task
      { system with
        pool := pool
        accepted := if err = 0 then system.accepted ++ [task] else system.accepted }
  | .work worker =>
      match system.running worker with
      | some task =>
          { system with
            running := Function.update system.running worker none
            bSize := Function.update system.bSize task (low 32 (system.bSize task + 1))
            done := system.done ++ [task] }
      | none =>
          match threadpoolThread system.pool with
          | .wait => system
          | .exit => system
          | .grab task pool =>
              { system with
                pool := pool
                running := Function.update system.running worker (some task)
                taken := system.taken ++ [(worker, task)] }

/-- A sequence of steps in the order in which they get the lock. -/
def System.run (system : System W T) (steps : List (Step W T)) : System W T :=
  steps.foldl System.step system

/-- No task is added while the queue is full. -/
def Admitted : System W T -> List (Step W T) -> Prop
  | _, [] => True
  | system, .add task :: rest =>
      system.pool.count ≠ system.pool.queueSize ∧ Admitted (system.step (.add task)) rest
  | system, .work worker :: rest => Admitted (system.step (.work worker)) rest

/-! ## What every step keeps -/

/-- The number of workers that are at a task. -/
def System.held [Fintype W] (system : System W T) (task : T) : Nat :=
  ∑ worker, if system.running worker = some task then 1 else 0

/-- A worker that was idle and now has a task counts for that task only. -/
theorem sum_update_some [Fintype W] {running : W -> Option T} {worker : W} (idle : running worker = none)
    (task other : T) :
    (∑ w, if Function.update running worker (some task) w = some other then 1 else 0) =
      (if task = other then 1 else 0) + ∑ w, if running w = some other then 1 else 0 := by
  rw [← Finset.add_sum_erase Finset.univ _ (Finset.mem_univ worker),
    ← Finset.add_sum_erase Finset.univ (fun w => if running w = some other then 1 else 0)
      (Finset.mem_univ worker), Function.update_self, idle]
  have rest : (∑ w ∈ Finset.univ.erase worker,
      if Function.update running worker (some task) w = some other then 1 else 0) =
      ∑ w ∈ Finset.univ.erase worker, if running w = some other then 1 else 0 := by
    refine Finset.sum_congr rfl (fun w member => ?_)
    rw [Function.update_of_ne (Finset.ne_of_mem_erase member)]
  rw [rest]
  simp

/-- The state of a pool in which no accepted task was lost: the tasks waiting are the accepted
ones that are not yet taken. -/
structure Serving [Fintype W] (start : T -> Nat) (system : System W T) (waiting : List T) : Prop where
  open_ : system.pool.shutdown = .none
  ring : RingBuffer.Holds system.pool.queue system.pool.queueSize system.pool.head waiting
  tail : system.pool.tail = (system.pool.head + waiting.length) % system.pool.queueSize
  count : system.pool.count = waiting.length
  order : system.accepted = system.taken.map Prod.snd ++ waiting
  once : forall task, system.done.count task + system.held task =
    (system.taken.map Prod.snd).count task
  sizes : forall task, low 32 (system.bSize task) = low 32 (start task + system.done.count task)

section Steps

variable [Fintype W] {start : T -> Nat} {system : System W T} {waiting : List T} {task : T} {worker : W}

omit [DecidableEq W] in
theorem serving_create {queueSize : Nat} (positive : 1 ≤ queueSize) (queue : Nat -> T) (start : T -> Nat) :
    Serving start (System.create queueSize queue start : System W T) [] where
  open_ := rfl
  ring := RingBuffer.holds_nil queue positive
  tail := (Nat.zero_mod queueSize).symm
  count := rfl
  order := rfl
  once := fun task => by simp [System.create, System.held]
  sizes := fun task => rfl

/-- A task added to a queue with room waits behind the others. -/
theorem Serving.add (serving : Serving start system waiting)
    (room : system.pool.count ≠ system.pool.queueSize) (task : T) :
    Serving start (system.step (.add task)) (waiting ++ [task]) := by
  have space : waiting.length < system.pool.queueSize := by
    refine Nat.lt_of_le_of_ne serving.ring.fits (fun full => room ?_)
    rw [serving.count, full]
  have run : system.step (.add task) = { system with
      pool := { system.pool with
        queue := Function.update system.pool.queue system.pool.tail task
        tail := (system.pool.tail + 1) % system.pool.queueSize
        count := system.pool.count + 1 }
      accepted := system.accepted ++ [task] } := by
    have running : ¬ system.pool.shutdown ≠ .none := fun closed => closed serving.open_
    simp only [System.step, threadpoolAdd, if_neg room, if_neg running, if_pos]
  rw [run]
  constructor
  case open_ => exact serving.open_
  case ring =>
    have pushed := serving.ring.push space task
    rw [← serving.tail] at pushed
    exact pushed
  case tail =>
    change (system.pool.tail + 1) % _ = _
    rw [serving.tail, Nat.mod_add_mod, List.length_append, List.length_singleton, Nat.add_assoc]
  case count =>
    change system.pool.count + 1 = _
    rw [serving.count, List.length_append, List.length_singleton]
  case order =>
    change system.accepted ++ [task] = system.taken.map Prod.snd ++ (waiting ++ [task])
    rw [serving.order, List.append_assoc]
  case once => exact serving.once
  case sizes => exact serving.sizes

/-- A worker at a task finishes it. -/
theorem Serving.finish (serving : Serving start system waiting)
    (busy : system.running worker = some task) :
    Serving start (system.step (.work worker)) waiting := by
  have run : system.step (.work worker) = { system with
      running := Function.update system.running worker none
      bSize := Function.update system.bSize task (low 32 (system.bSize task + 1))
      done := system.done ++ [task] } := by
    simp only [System.step, busy]
  rw [run]
  constructor
  case open_ => exact serving.open_
  case ring => exact serving.ring
  case tail => exact serving.tail
  case count => exact serving.count
  case order => exact serving.order
  case once =>
    intro other
    have before : system.held other = (if task = other then 1 else 0) +
        ∑ w, if Function.update system.running worker none w = some other then 1 else 0 := by
      have idle : Function.update system.running worker none worker = none := Function.update_self _ _ _
      rw [← sum_update_some idle task other, Function.update_idem, ← busy, Function.update_eq_self]
      rfl
    have total := serving.once other
    change (system.done ++ [task]).count other +
      (∑ w, if Function.update system.running worker none w = some other then 1 else 0) = _
    rw [List.count_append, List.count_singleton]
    simp only [beq_iff_eq]
    omega
  case sizes =>
    intro other
    change low 32 (Function.update system.bSize task _ other) =
      low 32 (start other + (system.done ++ [task]).count other)
    have sizes := serving.sizes other
    rw [List.count_append, List.count_singleton]
    by_cases same : other = task
    · subst same
      rw [Function.update_self]
      simp only [beq_self_eq_true, if_true]
      unfold low at sizes ⊢
      omega
    · have different : ¬ task = other := fun equal => same equal.symm
      rw [Function.update_of_ne same, sizes]
      simp [different]

/-- An idle worker takes the task that waits longest. -/
theorem Serving.grab (serving : Serving start system (task :: waiting))
    (idle : system.running worker = none) :
    Serving start (system.step (.work worker)) waiting ∧
      (system.step (.work worker)).taken = system.taken ++ [(worker, task)] ∧
      (system.step (.work worker)).running = Function.update system.running worker (some task) := by
  have some_ : system.pool.count ≠ 0 := by
    rw [serving.count, List.length_cons]
    exact Nat.succ_ne_zero _
  have run : system.step (.work worker) = { system with
      pool := { system.pool with
        head := (system.pool.head + 1) % system.pool.queueSize
        count := system.pool.count - 1 }
      running := Function.update system.running worker (some task)
      taken := system.taken ++ [(worker, task)] } := by
    simp [System.step, idle, threadpoolThread, serving.open_, some_, serving.ring.front]
  rw [run]
  refine ⟨?_, rfl, rfl⟩
  constructor
  case open_ => exact serving.open_
  case ring => exact serving.ring.pop
  case tail =>
    change system.pool.tail = ((system.pool.head + 1) % system.pool.queueSize + waiting.length) % _
    rw [RingBuffer.position_succ]
    exact serving.tail
  case count =>
    change system.pool.count - 1 = _
    rw [serving.count, List.length_cons, Nat.add_sub_cancel]
  case order =>
    change system.accepted = (system.taken ++ [(worker, task)]).map Prod.snd ++ waiting
    rw [serving.order, List.map_append, List.append_assoc]
    rfl
  case once =>
    intro other
    have total := serving.once other
    have after := sum_update_some idle task other
    change system.done.count other +
      (∑ w, if Function.update system.running worker (some task) w = some other then 1 else 0) =
        ((system.taken ++ [(worker, task)]).map Prod.snd).count other
    rw [after, List.map_append, List.map_singleton, List.count_append, List.count_singleton]
    unfold System.held at total
    simp only [beq_iff_eq]
    omega
  case sizes => exact serving.sizes

/-- With no task waiting an idle worker changes nothing. -/
theorem Serving.wait (serving : Serving start system []) (idle : system.running worker = none) :
    system.step (.work worker) = system := by
  have empty : system.pool.count = 0 := serving.count
  simp [System.step, idle, threadpoolThread, serving.open_, empty]

end Steps

/-! ## Whole runs -/

/-- The condition of a single step. -/
def Step.Admits (system : System W T) : Step W T -> Prop
  | .add _ => system.pool.count ≠ system.pool.queueSize
  | .work _ => True

theorem admitted_cons (system : System W T) (step : Step W T) (rest : List (Step W T)) :
    Admitted system (step :: rest) <-> step.Admits system ∧ Admitted (system.step step) rest := by
  cases step with
  | add task => exact Iff.rfl
  | work worker => exact (and_iff_right trivial).symm

theorem admitted_append (system : System W T) (first second : List (Step W T)) :
    Admitted system (first ++ second) <->
      Admitted system first ∧ Admitted (system.run first) second := by
  induction first generalizing system with
  | nil => exact (and_iff_right trivial).symm
  | cons step rest ih =>
      rw [List.cons_append, admitted_cons, admitted_cons, ih, and_assoc]
      rfl

/-- Tasks are only added to the lists of accepted and taken ones. -/
theorem System.step_grows (system : System W T) (step : Step W T) :
    system.accepted <+: (system.step step).accepted ∧ system.taken <+: (system.step step).taken := by
  cases step with
  | add task =>
      simp only [System.step]
      split
      · exact ⟨List.prefix_append _ _, List.prefix_rfl⟩
      · exact ⟨List.prefix_rfl, List.prefix_rfl⟩
  | work worker =>
      simp only [System.step]
      split
      · exact ⟨List.prefix_rfl, List.prefix_rfl⟩
      · split
        · exact ⟨List.prefix_rfl, List.prefix_rfl⟩
        · exact ⟨List.prefix_rfl, List.prefix_rfl⟩
        · exact ⟨List.prefix_rfl, List.prefix_append _ _⟩

theorem System.run_grows (system : System W T) (steps : List (Step W T)) :
    system.accepted <+: (system.run steps).accepted ∧ system.taken <+: (system.run steps).taken := by
  induction steps generalizing system with
  | nil => exact ⟨List.prefix_rfl, List.prefix_rfl⟩
  | cons step rest ih =>
      have first := system.step_grows step
      have later := ih (system.step step)
      exact ⟨first.1.trans later.1, first.2.trans later.2⟩

section Runs

variable [Fintype W] {start : T -> Nat} {system : System W T} {waiting : List T}

/-- What a step makes of a pool that serves its tasks. -/
theorem Serving.step (serving : Serving start system waiting) (step : Step W T)
    (admits : step.Admits system) : Exists fun next => Serving start (system.step step) next := by
  cases step with
  | add task => exact ⟨_, serving.add admits task⟩
  | work worker =>
      cases work : system.running worker with
      | some task => exact ⟨_, serving.finish work⟩
      | none =>
          cases waiting with
          | nil =>
              rw [serving.wait work]
              exact ⟨[], serving⟩
          | cons task rest => exact ⟨rest, (serving.grab work).1⟩

theorem Serving.run (serving : Serving start system waiting) (steps : List (Step W T))
    (admitted : Admitted system steps) : Exists fun next => Serving start (system.run steps) next := by
  induction steps generalizing system waiting with
  | nil => exact ⟨waiting, serving⟩
  | cons step rest ih =>
      rcases (admitted_cons system step rest).mp admitted with ⟨admits, later⟩
      rcases serving.step step admits with ⟨next, kept⟩
      exact ih kept later

/-- The steps one worker needs until a number of tasks is taken. -/
def System.need (system : System W T) (worker : W) (goal : Nat) : Nat :=
  2 * (goal - system.taken.length) + if (system.running worker).isSome then 1 else 0

omit [Fintype W] [DecidableEq W] [DecidableEq T] in
/-- The need depends on the tasks taken and on the worker only. -/
theorem System.need_mono {system next : System W T} {worker : W} {goal : Nat}
    (taken : system.taken.length ≤ next.taken.length) (same : next.running worker = system.running worker) :
    next.need worker goal ≤ system.need worker goal := by
  unfold System.need
  rw [same]
  omega

/-- While accepted tasks wait, a step of the worker lowers its need, and no other step raises
it. -/
theorem Serving.need_step (serving : Serving start system waiting) (step : Step W T)
    {worker : W} {goal : Nat} (accepted : goal ≤ system.accepted.length)
    (short : system.taken.length < goal) :
    (system.step step).need worker goal + (if step = .work worker then 1 else 0) ≤
      system.need worker goal := by
  have grows := (system.step_grows step).2.length_le
  cases step with
  | add task =>
      rw [if_neg (by simp), Nat.add_zero]
      exact System.need_mono grows rfl
  | work other =>
      have some_ : waiting ≠ [] := by
        intro empty
        have order := congrArg List.length serving.order
        rw [empty, List.append_nil, List.length_map] at order
        omega
      cases waiting with
      | nil => exact absurd rfl some_
      | cons task rest =>
          by_cases own : other = worker
          · subst own
            rw [if_pos rfl]
            cases work : system.running other with
            | some current =>
                have idle : (system.step (.work other)).running other = none := by
                  simp [System.step, work]
                have same : (system.step (.work other)).taken = system.taken := by
                  simp [System.step, work]
                simp [System.need, idle, same, work]
            | none =>
                rcases serving.grab work with ⟨_, taken, running⟩
                simp only [System.need, taken, running, work, Function.update_self,
                  List.length_append, List.length_singleton, Option.isSome_some, Option.isSome_none,
                  if_true, Bool.false_eq_true, if_false]
                omega
          · have different : ¬ Step.work other = (Step.work worker : Step W T) :=
              fun equal => own (Step.work.inj equal)
            have apart : worker ≠ other := fun equal => own equal.symm
            rw [if_neg different, Nat.add_zero]
            refine System.need_mono grows ?_
            cases work : system.running other with
            | some current => simp [System.step, work, apart]
            | none =>
                rw [(serving.grab work).2.2]
                exact Function.update_of_ne apart _ _

/-- A worker that makes enough steps sees all of the accepted tasks taken. -/
theorem Serving.taken_run (serving : Serving start system waiting) (steps : List (Step W T))
    (admitted : Admitted system steps) {worker : W} {goal : Nat}
    (accepted : goal ≤ system.accepted.length)
    (enough : system.need worker goal < steps.count (.work worker)) :
    goal ≤ (system.run steps).taken.length := by
  induction steps generalizing system waiting with
  | nil => exact absurd enough (Nat.not_lt_zero _)
  | cons step rest ih =>
      rcases (admitted_cons system step rest).mp admitted with ⟨admits, later⟩
      rcases serving.step step admits with ⟨next, kept⟩
      by_cases short : system.taken.length < goal
      · have needed := @Serving.need_step _ _ _ _ _ _ _ _ serving step worker goal accepted short
        refine ih kept later (accepted.trans (system.step_grows step).1.length_le) ?_
        rw [List.count_cons] at enough
        simp only [beq_iff_eq] at enough
        omega
      · exact (Nat.le_of_not_lt short).trans (system.run_grows (step :: rest)).2.length_le

/-- A worker that is at a task which nobody adds again was at it before and made no step. -/
theorem Serving.running_run (serving : Serving start system waiting) (steps : List (Step W T))
    (admitted : Admitted system steps) {worker : W} {task : T}
    (last : (system.run steps).accepted.count task ≤ (system.taken.map Prod.snd).count task)
    (running : (system.run steps).running worker = some task) :
    system.running worker = some task ∧ Step.work worker ∉ steps := by
  induction steps generalizing system waiting with
  | nil => exact ⟨running, List.not_mem_nil⟩
  | cons step rest ih =>
      rcases (admitted_cons system step rest).mp admitted with ⟨admits, later⟩
      rcases serving.step step admits with ⟨next, kept⟩
      have grows := ((system.step_grows step).2.map Prod.snd).sublist.count_le task
      rcases ih kept later (last.trans grows) running with ⟨here, without⟩
      -- the task does not wait, so the step has not given it to the worker
      have notWaiting : task ∉ waiting := by
        intro member
        have accepted := (system.run_grows (step :: rest)).1.sublist.count_le task
        rw [serving.order, List.count_append] at accepted
        have positive := List.count_pos_iff.mpr member
        omega
      cases step with
      | add other => exact ⟨here, by simpa using without⟩
      | work other =>
          cases work : system.running other with
          | some current =>
              simp only [System.step, work] at here
              by_cases own : worker = other
              · rw [own, Function.update_self] at here
                cases here
              · rw [Function.update_of_ne own] at here
                exact ⟨here, by simpa [own] using without⟩
          | none =>
              cases waiting with
              | nil =>
                  rw [serving.wait work] at here
                  refine ⟨here, ?_⟩
                  have own : worker ≠ other := by
                    intro equal
                    rw [equal, work] at here
                    cases here
                  simpa [own] using without
              | cons front others =>
                  rw [(serving.grab work).2.2] at here
                  by_cases own : worker = other
                  · rw [own, Function.update_self] at here
                    exact absurd (by rw [Option.some.inj here]; exact List.mem_cons_self) notWaiting
                  · rw [Function.update_of_ne own] at here
                    exact ⟨here, by simpa [own] using without⟩

end Runs

/-! ## Accepted tasks are served -/

/-- The tasks taken are the first of the accepted ones, and `count` is the number of the
others. -/
structure Served (system : System W T) : Prop where
  inOrder : system.taken.map Prod.snd <+: system.accepted
  count : system.pool.count + system.taken.length = system.accepted.length

omit [DecidableEq W] in
theorem Serving.served [Fintype W] {start : T -> Nat} {system : System W T} {waiting : List T}
    (serving : Serving start system waiting) : Served system := by
  constructor
  · rw [serving.order]
    exact List.prefix_append _ _
  · rw [serving.count, serving.order, List.length_append, List.length_map, Nat.add_comm]

/-- In every run that adds no task to a full queue, the tasks taken are the first of those
accepted and `count` is the number of the others.  Once one worker has made enough further
steps, all tasks accepted before are taken, and when every worker has then made another
step, `b_size` of a buffer head that was not added again has been counted up once for every
time it was accepted, which ends the wait of its reader. -/
theorem accepted_tasks_served [Fintype W] (queueSize : Nat) (positive : 1 ≤ queueSize)
    (queue : Nat -> T) (start : T -> Nat) (first more last : List (Step W T))
    (admitted : Admitted (System.create queueSize queue start) (first ++ (more ++ last))) :
    Served ((System.create queueSize queue start).run first) ∧
      forall worker,
        2 * ((System.create queueSize queue start).run first).accepted.length + 1 <
          more.count (.work worker) ->
        ((System.create queueSize queue start).run first).accepted <+:
          ((System.create queueSize queue start).run (first ++ more)).taken.map Prod.snd ∧
        ((forall other, Step.work other ∈ last) -> forall task,
          ((System.create queueSize queue start).run (first ++ (more ++ last))).accepted.count task =
            ((System.create queueSize queue start).run first).accepted.count task ->
          low 32 (((System.create queueSize queue start).run (first ++ (more ++ last))).bSize task) =
            low 32 (start task + ((System.create queueSize queue start).run first).accepted.count task)) := by
  rcases (admitted_append _ first _).mp admitted with ⟨admittedFirst, admittedRest⟩
  rcases (admitted_append _ more _).mp admittedRest with ⟨admittedMore, admittedLast⟩
  rcases (serving_create positive queue start).run first admittedFirst with ⟨waiting, serving⟩
  rcases serving.run more admittedMore with ⟨waitingMore, servingMore⟩
  rcases servingMore.run last admittedLast with ⟨waitingLast, servingLast⟩
  have runMore : (System.create queueSize queue start : System W T).run (first ++ more) =
      ((System.create queueSize queue start).run first).run more := List.foldl_append
  have runLast : (System.create queueSize queue start : System W T).run (first ++ (more ++ last)) =
      (((System.create queueSize queue start).run first).run more).run last := by
    unfold System.run
    rw [List.foldl_append, List.foldl_append]
  rw [runMore, runLast]
  generalize (System.create queueSize queue start).run first = before at *
  refine ⟨serving.served, fun worker enough => ?_⟩
  have need : before.need worker before.accepted.length < more.count (.work worker) := by
    unfold System.need
    split <;> omega
  have taken := serving.taken_run more admittedMore (Nat.le_refl _) need
  have all : before.accepted <+: (before.run more).taken.map Prod.snd := by
    have grown := (before.run_grows more).1
    refine List.prefix_of_prefix_length_le grown servingMore.served.inOrder ?_
    rw [List.length_map]
    exact taken
  refine ⟨all, fun steps task settled => ?_⟩
  -- nobody is at the task any more
  have counted : ((before.run more).run last).accepted.count task ≤
      ((before.run more).taken.map Prod.snd).count task := by
    rw [settled]
    exact all.sublist.count_le task
  have nobody : ((before.run more).run last).held task = 0 := by
    unfold System.held
    refine Finset.sum_eq_zero (fun other _ => if_neg (fun running => ?_))
    exact (servingMore.running_run last admittedLast counted running).2 (steps other)
  have once := servingLast.once task
  have lower := (((before.run more).run_grows last).2.map Prod.snd).sublist.count_le task
  have upper := servingLast.served.inOrder.sublist.count_le task
  rw [servingLast.sizes task]
  congr 2
  omega

/-- Two workers and two tasks, one of them accepted twice: the readers of buffer heads 7 and 8
see their `b_size` counted up. -/
theorem accepted_tasks_served_twice :
    Served ((System.create 3 (fun _ => 0) (fun _ => 4096) : System Bool Nat).run
        [.add 7, .work true, .add 8, .add 7]) ∧
      low 32 (((System.create 3 (fun _ => 0) (fun _ => 4096) : System Bool Nat).run
        ([.add 7, .work true, .add 8, .add 7] ++ (.work false :: List.replicate 8 (.work true) ++
          [.work true, .work false]))).bSize 7) = 4098 ∧
      low 32 (((System.create 3 (fun _ => 0) (fun _ => 4096) : System Bool Nat).run
        ([.add 7, .work true, .add 8, .add 7] ++ (.work false :: List.replicate 8 (.work true) ++
          [.work true, .work false]))).bSize 8) = 4097 := by
  have served := accepted_tasks_served 3 (by decide) (fun _ => 0) (fun _ => 4096)
    [.add 7, .work true, .add 8, .add 7] (.work false :: List.replicate 8 (.work true))
    [.work true, .work false] ⟨by decide, by decide, by decide, trivial⟩
  have enough := (served.2 true (by decide)).2 (by decide)
  exact ⟨served.1, enough 7 (by decide), enough 8 (by decide)⟩

/-- Two readers and a queue with one cell: both calls return 0, but the second task is in no
cell, no worker gets it, and its reader waits for ever. -/
theorem full_queue_loses_task :
    let system := (System.create 1 (fun _ => 0) (fun _ => 4096) : System Unit Nat)
    ¬ Served (system.run [.add 7, .add 8]) ∧
      (system.run ([.add 7, .add 8] ++ List.replicate 5 (.work ()))).accepted = [7, 8] ∧
      (system.run ([.add 7, .add 8] ++ List.replicate 5 (.work ()))).taken = [((), 7)] ∧
      (system.run ([.add 7, .add 8] ++ List.replicate 5 (.work ()))).bSize 8 = 4096 := by
  refine ⟨fun served => ?_, by decide, by decide, by decide⟩
  have count := served.count
  revert count
  decide

end Userfs.Threadpool
