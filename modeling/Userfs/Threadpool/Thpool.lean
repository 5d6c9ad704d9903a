import Mathlib.Algebra.Order.BigOperators.Group.Finset
import Mathlib.Algebra.Order.Ring.Nat
import Userfs.Global.Defs
import Userfs.Library.Refinement

namespace Userfs.Thpool

open scoped BigOperators

/-!
# The pool of the writers

`thpool.c` keeps its jobs in a linked queue and wakes its workers with the binary semaphore
`has_jobs`.  A post to a semaphore that is already up is lost, so `jobqueue_pull` posts again
whenever it leaves jobs behind.  `thpool_wait` sleeps until the queue is empty and no worker
is counted as working.

A step here is one section under a lock.  The semaphore is the last thing a section of the
queue touches, so that a worker that passes `bsem_wait` inside such a section could as well
have passed it before.  The memory of a job is given back once its worker has read it; the
code frees it later.  Pausing and destroying a pool are left out.
-/

variable {A W : Type}

/-! ## The job queue -/

/-- `struct job`: the argument, and the job that was added next. -/
structure Job (A : Type) where
  arg : A
  prev : Nat

/-- `struct jobqueue` with the allocated jobs and the value of `has_jobs`. -/
structure Jobqueue (A : Type) where
  job : Nat -> Option (Job A)
  front : Nat
  rear : Nat
  len : Nat
  hasJobs : Bool

def jobqueueInit : Jobqueue A :=
  ⟨fun _ => none, 0, 0, 0, false⟩

def loadJob (pointer : Nat) : EStateM Fault (Jobqueue A) (Job A) := do
  let queue ← get
  match queue.job pointer with
  | none => throw .segfault
  | some job => pure job

def storeJob (pointer : Nat) (job : Option (Job A)) : EStateM Fault (Jobqueue A) PUnit :=
  modify (fun queue => { queue with job := Function.update queue.job pointer job })

def setPrev (pointer prev : Nat) : EStateM Fault (Jobqueue A) PUnit := do
  let job ← loadJob pointer
  storeJob pointer (some { job with prev := prev })

def bsemPost : EStateM Fault (Jobqueue A) PUnit :=
  modify (fun queue => { queue with hasJobs := true })

def jobqueuePush (newjob : Nat) : EStateM Fault (Jobqueue A) PUnit := do
  setPrev newjob 0
  let queue ← get
  if queue.len = 0 then
    modify (fun queue => { queue with front := newjob, rear := newjob })
  else do
    setPrev queue.rear newjob
    modify (fun queue => { queue with rear := newjob })
  modify (fun queue => { queue with len := queue.len + 1 })
  bsemPost

def jobqueuePull : EStateM Fault (Jobqueue A) Nat := do
  let queue ← get
  if queue.len = 0 then pure queue.front
  else if queue.len = 1 then do
    modify (fun queue => { queue with front := 0, rear := 0, len := 0 })
    pure queue.front
  else do
    let job ← loadJob queue.front
    modify (fun queue => { queue with front := job.prev, len := queue.len - 1 })
    bsemPost
    pure queue.front

/-- `thpool_add_work` with the memory that `malloc` returned. -/
def thpoolAddWork (newjob : Nat) (arg : A) : EStateM Fault (Jobqueue A) PUnit := do
  storeJob newjob (some ⟨arg, 0⟩)
  jobqueuePush newjob

/-- What a worker gets from the queue: the argument of the first job. -/
def fetchJob : EStateM Fault (Jobqueue A) (Option A) := do
  let pointer ← jobqueuePull
  if pointer = 0 then pure none
  else do
    let job ← loadJob pointer
    storeJob pointer none
    pure (some job.arg)

/-! ## The queue is a list -/

/-- The pointer to the first of some jobs. -/
def first : List (Nat × A) -> Nat
  | [] => 0
  | entry :: _ => entry.1

/-- Jobs linked one behind the other. -/
def Chained (job : Nat -> Option (Job A)) : List (Nat × A) -> Prop
  | [] => True
  | entry :: rest => entry.1 ≠ 0 ∧ job entry.1 = some ⟨entry.2, first rest⟩ ∧ Chained job rest

/-- A queue holds a list of jobs. -/
structure Queued (queue : Jobqueue A) (entries : List (Nat × A)) : Prop where
  chained : Chained queue.job entries
  front : queue.front = first entries
  rear : forall before entry, entries = before ++ [entry] -> queue.rear = entry.1
  len : queue.len = entries.length
  distinct : (entries.map Prod.fst).Nodup

section Queue

variable {job : Nat -> Option (Job A)} {entries rest : List (Nat × A)} {queue : Jobqueue A}
  {pointer : Nat} {arg : A} {failed : Fault -> Jobqueue A -> Prop}

/-- A write to other memory leaves the chain. -/
theorem Chained.update (chained : Chained job entries) (outside : pointer ∉ entries.map Prod.fst)
    (content : Option (Job A)) : Chained (Function.update job pointer content) entries := by
  induction entries with
  | nil => trivial
  | cons entry rest ih =>
      rcases chained with ⟨valid, found, more⟩
      simp only [List.map_cons, List.mem_cons, not_or] at outside
      refine ⟨valid, ?_, ih more outside.2⟩
      rw [Function.update_of_ne (Ne.symm outside.1), found]

theorem Chained.last {before : List (Nat × A)} {last : Nat × A}
    (chained : Chained job (before ++ [last])) : job last.1 = some ⟨last.2, 0⟩ := by
  induction before with
  | nil => exact chained.2.1
  | cons entry before ih => exact ih chained.2.2

/-- Appending a job behind the last one. -/
theorem Chained.append {before : List (Nat × A)} {last : Nat × A}
    (chained : Chained job (before ++ [last]))
    (distinct : ((before ++ [last]).map Prod.fst).Nodup) (valid : pointer ≠ 0)
    (outside : pointer ∉ (before ++ [last]).map Prod.fst) :
    Chained (Function.update (Function.update job pointer (some ⟨arg, 0⟩)) last.1
      (some ⟨last.2, pointer⟩)) (before ++ [last, (pointer, arg)]) := by
  induction before with
  | nil =>
      rcases chained with ⟨lastValid, _, _⟩
      simp only [List.nil_append, List.map_cons, List.map_nil, List.mem_singleton] at outside
      refine ⟨lastValid, Function.update_self .., valid, ?_, trivial⟩
      rw [Function.update_of_ne outside, Function.update_self]
      rfl
  | cons entry before ih =>
      rcases chained with ⟨entryValid, found, more⟩
      simp only [List.cons_append, List.map_cons, List.nodup_cons, List.mem_cons, not_or] at distinct outside
      have apart : entry.1 ≠ last.1 := by
        intro same
        exact distinct.1 (by rw [same]; simp)
      refine ⟨entryValid, ?_, ih more distinct.2 outside.2⟩
      rw [Function.update_of_ne apart, Function.update_of_ne (Ne.symm outside.1), found]
      cases before <;> rfl

theorem ensures_loadJob {content : Job A} {done : Job A -> Jobqueue A -> Prop}
    (found : queue.job pointer = some content) :
    Ensures (loadJob pointer) queue done failed <-> done content queue := by
  unfold loadJob
  rw [Ensures.bind_iff, Ensures.get_iff]
  simp only [found]
  exact Ensures.pure_iff

theorem ensures_setPrev {content : Job A} {prev : Nat} {done : PUnit -> Jobqueue A -> Prop}
    (found : queue.job pointer = some content) :
    Ensures (setPrev pointer prev) queue done failed <->
      done PUnit.unit
        { queue with job := Function.update queue.job pointer (some { content with prev := prev }) } := by
  unfold setPrev storeJob
  rw [Ensures.bind_iff, ensures_loadJob found]
  exact Ensures.modify_iff

/-- `thpool_add_work` puts the job behind the others and raises the semaphore. -/
theorem ensures_thpoolAddWork (queued : Queued queue entries) (valid : pointer ≠ 0)
    (outside : pointer ∉ entries.map Prod.fst) :
    Ensures (thpoolAddWork pointer arg) queue
      (fun _ next => Queued next (entries ++ [(pointer, arg)]) ∧ next.hasJobs = true)
      (fun _ _ => False) := by
  have distinct : ((entries ++ [(pointer, arg)]).map Prod.fst).Nodup := by
    rw [List.map_append]
    exact List.nodup_append'.mpr ⟨queued.distinct, List.nodup_singleton _,
      List.disjoint_singleton.mpr outside⟩
  have rear : forall before entry, entries ++ [(pointer, arg)] = before ++ [entry] ->
      pointer = entry.1 := by
    intro before entry same
    have last := (List.append_inj_right' same rfl)
    simp only [List.cons.injEq, and_true] at last
    rw [← last]
  unfold thpoolAddWork storeJob jobqueuePush
  rw [Ensures.bind_iff, Ensures.modify_iff, Ensures.bind_iff, ensures_setPrev (Function.update_self ..),
    Ensures.bind_iff, Ensures.get_iff]
  simp only [Function.update_idem]
  rcases List.eq_nil_or_concat entries with rfl | ⟨before, last, rfl⟩
  · have empty : queue.len = 0 := queued.len
    rw [if_pos empty, Ensures.bind_iff, Ensures.modify_iff, Ensures.bind_iff, Ensures.modify_iff, bsemPost,
      Ensures.modify_iff]
    refine ⟨⟨⟨valid, Function.update_self .., trivial⟩, rfl, rear, ?_, distinct⟩, rfl⟩
    simp [empty]
  · rw [List.concat_eq_append] at *
    have filled : queue.len ≠ 0 := by
      rw [queued.len]
      simp
    have behind : queue.rear = last.1 := queued.rear before last rfl
    have apart : last.1 ≠ pointer := by
      intro same
      exact outside (by rw [← same]; simp)
    have linked : Function.update queue.job pointer (some ⟨arg, 0⟩) queue.rear = some ⟨last.2, 0⟩ := by
      rw [behind, Function.update_of_ne apart, queued.chained.last]
    rw [if_neg filled, Ensures.bind_iff]
    refine (ensures_setPrev linked).mpr ?_
    rw [Ensures.bind_iff, Ensures.modify_iff, Ensures.bind_iff, Ensures.modify_iff, bsemPost,
      Ensures.modify_iff, behind]
    refine ⟨⟨?_, ?_, rear, ?_, distinct⟩, rfl⟩
    · rw [List.append_assoc]
      exact queued.chained.append queued.distinct valid outside
    · change queue.front = _
      rw [queued.front]
      cases before <;> rfl
    · change queue.len + 1 = _
      rw [queued.len]
      simp

/-- The rest of a queue after its first job was taken. -/
theorem Queued.tail {entry : Nat × A} {next : Jobqueue A} (queued : Queued queue (entry :: rest))
    (heap : next.job = Function.update queue.job entry.1 none) (front : next.front = first rest)
    (rear : rest ≠ [] -> next.rear = queue.rear) (len : next.len = rest.length) : Queued next rest := by
  have distinct := queued.distinct
  simp only [List.map_cons, List.nodup_cons] at distinct
  refine ⟨?_, front, ?_, len, distinct.2⟩
  · rw [heap]
    exact queued.chained.2.2.update distinct.1 none
  · intro before last same
    rw [rear (by rw [same]; simp)]
    exact queued.rear (entry :: before) last (by rw [same]; rfl)

/-- A worker gets the first job, and the semaphore is up while jobs remain. -/
theorem ensures_fetchJob (queued : Queued queue entries) :
    Ensures fetchJob queue
      (fun result next => entries = [] ∧ result = none ∧ next = queue ∨
        Exists fun pointer => Exists fun arg => Exists fun rest =>
          entries = (pointer, arg) :: rest ∧ result = some arg ∧ Queued next rest ∧
            (rest ≠ [] -> next.hasJobs = true))
      (fun _ _ => False) := by
  unfold fetchJob jobqueuePull
  rw [Ensures.bind_iff, Ensures.bind_iff, Ensures.get_iff]
  cases entries with
  | nil =>
      have empty : queue.len = 0 := queued.len
      have front : queue.front = 0 := queued.front
      rw [if_pos empty, Ensures.pure_iff, if_pos front, Ensures.pure_iff]
      exact Or.inl ⟨rfl, rfl, rfl⟩
  | cons entry rest =>
      rcases queued.chained with ⟨valid, found, -⟩
      have front : queue.front = entry.1 := queued.front
      have filled : queue.len ≠ 0 := by
        rw [queued.len]
        simp
      have load : queue.job queue.front = some ⟨entry.2, first rest⟩ := by
        rw [front, found]
      have present : queue.front ≠ 0 := by
        rw [front]
        exact valid
      rw [if_neg filled]
      cases rest with
      | nil =>
          have single : queue.len = 1 := queued.len
          rw [if_pos single, Ensures.bind_iff, Ensures.modify_iff, Ensures.pure_iff, if_neg present,
            Ensures.bind_iff]
          refine (ensures_loadJob (by exact load)).mpr ?_
          rw [storeJob, Ensures.bind_iff, Ensures.modify_iff, Ensures.pure_iff]
          refine Or.inr ⟨entry.1, entry.2, [], rfl, rfl, queued.tail ?_ rfl ?_ rfl, ?_⟩
          · rw [front]
          · exact fun absent => absurd rfl absent
          · exact fun absent => absurd rfl absent
      | cons second more =>
          have several : queue.len ≠ 1 := by
            rw [queued.len]
            simp
          rw [if_neg several, Ensures.bind_iff, ensures_loadJob load, Ensures.bind_iff, Ensures.modify_iff,
            bsemPost, Ensures.bind_iff, Ensures.modify_iff, Ensures.pure_iff, if_neg present,
            Ensures.bind_iff]
          refine (ensures_loadJob (by exact load)).mpr ?_
          rw [storeJob, Ensures.bind_iff, Ensures.modify_iff, Ensures.pure_iff]
          refine Or.inr ⟨entry.1, entry.2, second :: more, rfl, rfl, queued.tail ?_ rfl (fun _ => rfl) ?_,
            fun _ => rfl⟩
          · rw [front]
          · change queue.len - 1 = _
            rw [queued.len]
            simp

theorem Chained.allocated {job : Nat -> Option (Job A)} {pointer : Nat} (chained : Chained job entries)
    (unused : job pointer = none) : pointer ∉ entries.map Prod.fst := by
  induction entries with
  | nil => simp
  | cons entry rest ih =>
      rcases chained with ⟨-, found, more⟩
      simp only [List.map_cons, List.mem_cons, not_or]
      refine ⟨?_, ih more⟩
      rintro rfl
      rw [found] at unused
      cases unused

end Queue

/-! ## The workers -/

/-- Where a worker is in `thread_do`: in `bsem_wait`, behind it, counted as working, back from
the queue with or without a job, and done with it. -/
inductive Phase (A : Type) where
  | waiting
  | woken
  | counted
  | pulled (arg : Option A)
  | served

/-- Where the caller of `thpool_wait` is. -/
inductive Waiter where
  | away
  | blocked
  | signalled
deriving DecidableEq, Repr

/-- The pool, its workers and a caller of `thpool_wait`.  The lists only observe: the jobs
added, taken out and carried out, and the jobs added and carried out when `thpool_wait`
returned last. -/
structure System (W A : Type) where
  queue : Jobqueue A
  working : Nat
  phase : W -> Phase A
  waiter : Waiter
  added : List A
  taken : List A
  done : List A
  passed : Option (List A × List A)

def thpoolInit : System W A :=
  ⟨jobqueueInit, 0, fun _ => .waiting, .away, [], [], [], none⟩

def onQueue {X : Type} (program : EStateM Fault (Jobqueue A) X) : EStateM Fault (System W A) X :=
  onPart System.queue (fun queue system => { system with queue := queue }) program

section Steps

variable [DecidableEq W]

def enter (worker : W) (phase : Phase A) : EStateM Fault (System W A) PUnit :=
  modify (fun system => { system with phase := Function.update system.phase worker phase })

/-- The next section of `thread_do`.  A worker that finds the semaphore down keeps waiting,
and the last one to finish signals `threads_all_idle`. -/
def threadDo (worker : W) : EStateM Fault (System W A) PUnit := do
  let system ← get
  match system.phase worker with
  | .waiting =>
      if system.queue.hasJobs = true then do
        modify (fun system => { system with queue := { system.queue with hasJobs := false } })
        enter worker .woken
      else pure PUnit.unit
  | .woken => do
      modify (fun system => { system with working := system.working + 1 })
      enter worker .counted
  | .counted => do
      let arg ← onQueue fetchJob
      modify (fun system => { system with taken := system.taken ++ arg.toList })
      enter worker (.pulled arg)
  | .pulled arg => do
      modify (fun system => { system with done := system.done ++ arg.toList })
      enter worker .served
  | .served => do
      modify (fun system => { system with
        working := system.working - 1
        waiter := if system.working - 1 = 0 ∧ system.waiter = .blocked then .signalled
          else system.waiter })
      enter worker .waiting

/-- The test in the loop of `thpool_wait`, at its start and after every wake-up. -/
def thpoolWait : EStateM Fault (System W A) PUnit := do
  let system ← get
  if system.queue.len ≠ 0 ∨ system.working ≠ 0 then
    modify (fun system => { system with waiter := .blocked })
  else
    modify (fun system => { system with
      waiter := .away
      passed := some (system.added, system.done) })

/-- A call of `thpool_add_work`, a section of a worker, or a test of `thpool_wait`. -/
inductive Step (W A : Type) where
  | add (newjob : Nat) (arg : A)
  | turn (worker : W)
  | wait

def Step.execute : Step W A -> EStateM Fault (System W A) PUnit
  | .add newjob arg => do
      onQueue (thpoolAddWork newjob arg)
      modify (fun system => { system with added := system.added ++ [arg] })
  | .turn worker => threadDo worker
  | .wait => thpoolWait

end Steps

/-- `malloc` returns memory that is not in use. -/
def Step.Admits : Step W A -> System W A -> Prop
  | .add newjob _, system => newjob ≠ 0 ∧ system.queue.job newjob = none
  | .turn _, _ => True
  | .wait, _ => True

instance Step.decideAdmits (step : Step W A) (system : System W A) : Decidable (step.Admits system) :=
  match step with
  | .add newjob _ => inferInstanceAs (Decidable (newjob ≠ 0 ∧ system.queue.job newjob = none))
  | .turn _ => .isTrue trivial
  | .wait => .isTrue trivial

/-! ## What every schedule keeps -/

def Phase.held : Phase A -> Multiset A
  | .pulled arg => (arg.toList : Multiset A)
  | _ => 0

def Phase.busy : Phase A -> Nat
  | .waiting => 0
  | .woken => 0
  | _ => 1

theorem Phase.card_held_le (phase : Phase A) : phase.held.card ≤ phase.busy := by
  cases phase with
  | pulled arg => cases arg <;> simp [Phase.held, Phase.busy]
  | waiting => rfl
  | woken => rfl
  | counted => exact Nat.zero_le 1
  | served => exact Nat.zero_le 1

def Phase.isWaiting : Phase A -> Bool
  | .waiting => true
  | _ => false

/-- A worker that does not sleep in `bsem_wait`. -/
def CanMove (worker : W) (system : System W A) : Prop :=
  (system.phase worker).isWaiting = true -> system.queue.hasJobs = true

instance CanMove.decide (worker : W) (system : System W A) : Decidable (CanMove worker system) :=
  inferInstanceAs (Decidable (_ -> _))

/-- A worker on its way to the queue. -/
def Phase.Roused : Phase A -> Prop
  | .woken => True
  | .counted => True
  | _ => False

/-- No job was lost or taken twice, `num_threads_working` counts the workers behind it, a
worker is up or on its way while jobs wait, and nobody sleeps in an idle pool. -/
structure Serving [Fintype W] (system : System W A) (entries : List (Nat × A)) : Prop where
  queued : Queued system.queue entries
  order : system.added = system.taken ++ entries.map Prod.snd
  flight : (system.taken : Multiset A) = system.done + ∑ worker, (system.phase worker).held
  counts : system.working = ∑ worker, (system.phase worker).busy
  awake : entries ≠ [] -> system.queue.hasJobs = true ∨ Exists fun worker => (system.phase worker).Roused
  sleeps : system.waiter = .blocked -> entries ≠ [] ∨ system.working ≠ 0
  passed : forall added done, system.passed = some (added, done) -> done.Perm added

section Idle

variable [Fintype W] {system : System W A} {entries : List (Nat × A)} {worker : W}

namespace Serving

theorem init : Serving (thpoolInit : System W A) [] := by
  refine ⟨⟨trivial, rfl, ?_, rfl, List.nodup_nil⟩, rfl, ?_, ?_, ?_, ?_, ?_⟩
  · intro before entry same
    simp at same
  · simp [thpoolInit, Phase.held]
  · simp [thpoolInit, Phase.busy]
  · exact fun absent => absurd rfl absent
  · intro blocked
    cases blocked
  · intro added done none
    cases none

/-- A worker that is counted keeps the pool from being idle. -/
theorem working_ne (serving : Serving system entries) (busy : (system.phase worker).busy = 1) :
    system.working ≠ 0 := by
  have least := Finset.single_le_sum (fun w _ => Nat.zero_le ((system.phase w).busy))
    (Finset.mem_univ worker)
  rw [← serving.counts, busy] at least
  omega

/-- In an idle pool every job was carried out once. -/
theorem idle (serving : Serving system entries) (empty : entries = []) (rest : system.working = 0) :
    system.done.Perm system.added := by
  have none : ∑ worker, (system.phase worker).held = 0 := by
    refine Finset.sum_eq_zero (fun worker _ => ?_)
    cases reached : system.phase worker with
    | pulled arg => exact absurd rest (serving.working_ne (by rw [reached]; rfl))
    | waiting => rfl
    | woken => rfl
    | counted => rfl
    | served => rfl
  have taken := serving.flight
  rw [none, add_zero] at taken
  rw [serving.order, empty, List.map_nil, List.append_nil]
  exact (Multiset.coe_eq_coe.mp taken).symm

theorem len_ne (serving : Serving system entries) : system.queue.len ≠ 0 <-> entries ≠ [] := by
  rw [serving.queued.len]
  cases entries <;> simp

/-- A test of `thpool_wait` sees an idle pool or goes to sleep in a busy one. -/
theorem wait (serving : Serving system entries) :
    Ensures thpoolWait system
      (fun _ next => Exists fun entries => Serving next entries) (fun _ _ => False) := by
  unfold thpoolWait
  rw [Ensures.bind_iff, Ensures.get_iff]
  by_cases occupied : system.queue.len ≠ 0 ∨ system.working ≠ 0
  · rw [if_pos occupied, Ensures.modify_iff]
    exact ⟨entries, serving.queued, serving.order, serving.flight, serving.counts, serving.awake,
      fun _ => occupied.imp serving.len_ne.mp id, serving.passed⟩
  · rw [if_neg occupied, Ensures.modify_iff]
    simp only [not_or, not_not] at occupied
    have empty : entries = [] := by
      by_contra filled
      exact serving.len_ne.mpr filled occupied.1
    refine ⟨entries, serving.queued, serving.order, serving.flight, serving.counts, serving.awake, ?_, ?_⟩
    · intro blocked
      cases blocked
    · intro added done same
      cases same
      exact serving.idle empty occupied.2

/-- Where no worker can move, everything is done and nobody sleeps in `thpool_wait`. -/
theorem stuck [Nonempty W] (serving : Serving system entries)
    (asleep : forall worker, ¬ CanMove worker system) :
    system.queue.len = 0 ∧ system.working = 0 ∧ system.waiter ≠ .blocked ∧
      system.done.Perm system.added := by
  have waiting : forall worker, system.phase worker = .waiting ∧ ¬ system.queue.hasJobs = true := by
    intro worker
    have still := Classical.not_imp.mp (asleep worker)
    refine ⟨?_, still.2⟩
    cases reached : system.phase worker with
    | waiting => rfl
    | woken => simp [reached, Phase.isWaiting] at still
    | counted => simp [reached, Phase.isWaiting] at still
    | pulled arg => simp [reached, Phase.isWaiting] at still
    | served => simp [reached, Phase.isWaiting] at still
  have empty : entries = [] := by
    by_contra filled
    rcases serving.awake filled with raised | ⟨worker, roused⟩
    · exact (waiting (Classical.arbitrary W)).2 raised
    · rw [(waiting worker).1] at roused
      exact roused
  have rest : system.working = 0 := by
    rw [serving.counts]
    refine Finset.sum_eq_zero (fun worker _ => ?_)
    rw [(waiting worker).1]
    rfl
  have none : system.queue.len = 0 := by
    by_contra some
    exact serving.len_ne.mp some empty
  refine ⟨none, rest, fun blocked => ?_, serving.idle empty rest⟩
  exact (serving.sleeps blocked).elim (fun filled => filled empty) (fun busy => busy rest)

end Serving

end Idle

section Moves

variable [DecidableEq W] {entries : List (Nat × A)} {worker : W} {next : Phase A}

/-- Another worker on its way to the queue is still on its way. -/
theorem roused_update {phase : W -> Phase A} (roused : Exists fun w => (phase w).Roused)
    (kept : (phase worker).Roused -> next.Roused) :
    Exists fun w => (Function.update phase worker next w).Roused := by
  rcases roused with ⟨other, roused⟩
  by_cases same : other = worker
  · subst same
    exact ⟨other, by rw [Function.update_self]; exact kept roused⟩
  · exact ⟨other, by rw [Function.update_of_ne same]; exact roused⟩

/-- A change of the pool and the next phase of a worker. -/
theorem ensures_enter {system : System W A} {change : System W A -> System W A}
    {done : PUnit -> System W A -> Prop} {failed : Fault -> System W A -> Prop} :
    Ensures (do
        modify change
        enter worker next) system done failed <->
      done PUnit.unit
        { change system with phase := Function.update (change system).phase worker next } := by
  unfold enter
  rw [Ensures.bind_iff, Ensures.modify_iff, Ensures.modify_iff]

end Moves

section Workers

variable [DecidableEq W] [Fintype W] {system : System W A} {entries : List (Nat × A)} {worker : W}
  {next : Phase A}

/-- What the sum over all workers loses and gains when one worker moves on. -/
theorem sum_update {M : Type} [AddCommMonoid M] (f : Phase A -> M) (phase : W -> Phase A) (worker : W)
    (next : Phase A) :
    ∑ w, f (Function.update phase worker next w) + f (phase worker) = ∑ w, f (phase w) + f next := by
  have rest : ∑ w ∈ Finset.univ.erase worker, f (Function.update phase worker next w) =
      ∑ w ∈ Finset.univ.erase worker, f (phase w) := by
    refine Finset.sum_congr rfl (fun w member => ?_)
    rw [Function.update_of_ne (Finset.ne_of_mem_erase member)]
  rw [← Finset.add_sum_erase Finset.univ _ (Finset.mem_univ worker),
    ← Finset.add_sum_erase Finset.univ (fun w => f (phase w)) (Finset.mem_univ worker), rest,
    Function.update_self]
  rw [add_right_comm, add_comm (f next), add_right_comm]

theorem sum_update_same {M : Type} [AddCancelCommMonoid M] (f : Phase A -> M) {phase : W -> Phase A}
    (same : f (phase worker) = f next) :
    ∑ w, f (Function.update phase worker next w) = ∑ w, f (phase w) := by
  have total := sum_update f phase worker next
  rw [same] at total
  exact add_right_cancel total

namespace Serving

/-- Any caller may add a job. -/
theorem add {pointer : Nat} {arg : A} (serving : Serving system entries)
    (admits : (Step.add pointer arg : Step W A).Admits system) :
    Ensures ((Step.add pointer arg).execute) system
      (fun _ next => Exists fun entries => Serving next entries) (fun _ _ => False) := by
  have outside := serving.queued.chained.allocated admits.2
  unfold Step.execute onQueue
  rw [Ensures.bind_iff, Ensures.onPart_iff]
  refine (ensures_thpoolAddWork serving.queued admits.1 outside).mono ?_ (fun _ _ impossible => impossible)
  rintro _ queue ⟨queued, raised⟩
  rw [Ensures.modify_iff]
  refine ⟨entries ++ [(pointer, arg)], queued, ?_, serving.flight, serving.counts, fun _ => Or.inl raised,
    ?_, serving.passed⟩
  · change system.added ++ [arg] = system.taken ++ _
    rw [serving.order, List.map_append, List.append_assoc]
    rfl
  · exact fun _ => Or.inl (by simp)

/-- A worker passes the semaphore. -/
theorem wake (serving : Serving system entries) (reached : system.phase worker = .waiting) :
    Serving { system with
      queue := { system.queue with hasJobs := false }
      phase := Function.update system.phase worker .woken } entries where
  queued := ⟨serving.queued.chained, serving.queued.front, serving.queued.rear, serving.queued.len,
    serving.queued.distinct⟩
  order := serving.order
  flight := by
    rw [sum_update_same Phase.held (by rw [reached]; rfl)]
    exact serving.flight
  counts := by
    rw [sum_update_same Phase.busy (by rw [reached]; rfl)]
    exact serving.counts
  awake _ := by
    refine Or.inr ⟨worker, ?_⟩
    change (Function.update system.phase worker .woken worker).Roused
    rw [Function.update_self]
    trivial
  sleeps := serving.sleeps
  passed := serving.passed

/-- A worker is counted before it goes to the queue. -/
theorem count (serving : Serving system entries) (reached : system.phase worker = .woken) :
    Serving { system with
      working := system.working + 1
      phase := Function.update system.phase worker .counted } entries where
  queued := serving.queued
  order := serving.order
  flight := by
    rw [sum_update_same Phase.held (by rw [reached]; rfl)]
    exact serving.flight
  counts := by
    have total := sum_update Phase.busy system.phase worker .counted
    rw [reached, ← serving.counts] at total
    exact total.symm
  awake filled := (serving.awake filled).imp id (fun roused => roused_update roused (fun _ => trivial))
  sleeps _ := Or.inr (Nat.succ_ne_zero _)
  passed := serving.passed

/-- A worker leaves the queue with its first job, if there is one. -/
theorem pull {queue : Jobqueue A} {arg : Option A} {rest : List (Nat × A)}
    (serving : Serving system entries) (reached : system.phase worker = .counted)
    (queued : Queued queue rest) (split : entries.map Prod.snd = arg.toList ++ rest.map Prod.snd)
    (raised : rest ≠ [] -> queue.hasJobs = true) :
    Serving { system with
      queue := queue
      taken := system.taken ++ arg.toList
      phase := Function.update system.phase worker (.pulled arg) } rest where
  queued := queued
  order := by
    rw [List.append_assoc, ← split]
    exact serving.order
  flight := by
    have total := sum_update Phase.held system.phase worker (.pulled arg)
    rw [reached] at total
    have held : ∑ w, (Function.update system.phase worker (.pulled arg) w).held =
        ∑ w, (system.phase w).held + (arg.toList : Multiset A) := by
      rw [← add_zero (∑ w, (Function.update system.phase worker (.pulled arg) w).held)]
      exact total
    rw [held, ← Multiset.coe_add, serving.flight, add_assoc]
  counts := by
    rw [sum_update_same Phase.busy (by rw [reached]; rfl)]
    exact serving.counts
  awake filled := Or.inl (raised filled)
  sleeps _ := Or.inr (serving.working_ne (by rw [reached]; rfl))
  passed := serving.passed

/-- A worker carries its job out. -/
theorem serve {arg : Option A} (serving : Serving system entries)
    (reached : system.phase worker = .pulled arg) :
    Serving { system with
      done := system.done ++ arg.toList
      phase := Function.update system.phase worker .served } entries where
  queued := serving.queued
  order := serving.order
  flight := by
    have total := sum_update Phase.held system.phase worker .served
    rw [reached] at total
    have held : ∑ w, (Function.update system.phase worker .served w).held + (arg.toList : Multiset A) =
        ∑ w, (system.phase w).held := by
      rw [← add_zero (∑ w, (system.phase w).held)]
      exact total
    rw [serving.flight, ← held, ← Multiset.coe_add, add_assoc,
      add_comm (arg.toList : Multiset A)]
  counts := by
    rw [sum_update_same Phase.busy (by rw [reached]; rfl)]
    exact serving.counts
  awake filled := (serving.awake filled).imp id (fun roused => roused_update roused (by
    rw [reached]
    exact fun impossible => impossible.elim))
  sleeps := serving.sleeps
  passed := serving.passed

/-- A worker is done.  The one that leaves the pool idle signals. -/
theorem finish (serving : Serving system entries) (reached : system.phase worker = .served) :
    Serving { system with
      working := system.working - 1
      waiter := if system.working - 1 = 0 ∧ system.waiter = .blocked then .signalled else system.waiter
      phase := Function.update system.phase worker .waiting } entries where
  queued := serving.queued
  order := serving.order
  flight := by
    rw [sum_update_same Phase.held (by rw [reached]; rfl)]
    exact serving.flight
  counts := by
    have total := sum_update Phase.busy system.phase worker .waiting
    rw [reached, ← serving.counts] at total
    exact Nat.sub_eq_of_eq_add total.symm
  awake filled := (serving.awake filled).imp id (fun roused => roused_update roused (by
    rw [reached]
    exact fun impossible => impossible.elim))
  sleeps blocked := by
    by_cases last : system.working - 1 = 0 ∧ system.waiter = .blocked
    · rw [if_pos last] at blocked
      cases blocked
    · rw [if_neg last] at blocked
      exact Or.inr (fun zero => last ⟨zero, blocked⟩)
  passed := serving.passed

/-- Every section of a worker keeps the pool serving. -/
theorem turn (serving : Serving system entries) (worker : W) :
    Ensures (threadDo worker) system
      (fun _ next => Exists fun entries => Serving next entries) (fun _ _ => False) := by
  unfold threadDo
  rw [Ensures.bind_iff, Ensures.get_iff]
  cases reached : system.phase worker with
  | waiting =>
      simp only []
      by_cases raised : system.queue.hasJobs = true
      · rw [if_pos raised]
        exact ensures_enter.mpr ⟨entries, serving.wake reached⟩
      · rw [if_neg raised]
        exact Ensures.pure_iff.mpr ⟨entries, serving⟩
  | woken => exact ensures_enter.mpr ⟨entries, serving.count reached⟩
  | counted =>
      refine Ensures.bind_iff.mpr (Ensures.onPart_iff.mpr ?_)
      refine (ensures_fetchJob serving.queued).mono ?_ (fun _ _ impossible => impossible)
      rintro arg queue (⟨rfl, rfl, rfl⟩ | ⟨pointer, arg, rest, rfl, rfl, queued, raised⟩)
      · exact ensures_enter.mpr
          ⟨[], serving.pull reached serving.queued rfl (fun absent => absurd rfl absent)⟩
      · exact ensures_enter.mpr ⟨rest, serving.pull reached queued rfl raised⟩
  | pulled arg => exact ensures_enter.mpr ⟨entries, serving.serve reached⟩
  | served => exact ensures_enter.mpr ⟨entries, serving.finish reached⟩

/-- Every step keeps the pool serving. -/
theorem step (serving : Serving system entries) {step : Step W A} (admits : step.Admits system) :
    Ensures step.execute system (fun _ next => Exists fun entries => Serving next entries)
      (fun _ _ => False) := by
  cases step with
  | add newjob arg => exact serving.add admits
  | turn worker => exact serving.turn worker
  | wait => exact serving.wait

/-- Every schedule keeps the pool serving. -/
theorem run {steps : List (Step W A)} (guarded : Guarded Step.execute Step.Admits steps thpoolInit) :
    Ensures (runAll Step.execute steps) (thpoolInit : System W A)
      (fun _ last => Exists fun entries => Serving last entries) (fun _ _ => False) := by
  refine Ensures.runAll_guarded_state ?_ ⟨[], init⟩ guarded
  rintro command state ⟨entries, serving⟩ admits
  exact serving.step admits

end Serving

/-- Whatever the order in which callers, workers and `thpool_wait` get their locks, the jobs
leave the queue in the order in which they were added, each is carried out once, and when
`thpool_wait` returns all jobs added so far were carried out. -/
theorem thpool_serves_jobs_once {steps : List (Step W A)}
    (guarded : Guarded Step.execute Step.Admits steps thpoolInit) :
    Ensures (runAll Step.execute steps) (thpoolInit : System W A)
      (fun _ last =>
        (Exists fun queued => Exists fun running =>
          queued.length = last.queue.len ∧ running.length ≤ last.working ∧
            last.added = last.taken ++ queued ∧ last.taken.Perm (last.done ++ running)) ∧
        forall added done, last.passed = some (added, done) -> done.Perm added)
      (fun _ _ => False) := by
  refine (Serving.run guarded).mono ?_ (fun _ _ impossible => impossible)
  rintro _ last ⟨entries, serving⟩
  refine ⟨⟨entries.map Prod.snd, (∑ worker, (last.phase worker).held).toList, ?_, ?_, serving.order, ?_⟩,
    serving.passed⟩
  · rw [List.length_map, serving.queued.len]
  · rw [Multiset.length_toList, Multiset.card_sum, serving.counts]
    exact Finset.sum_le_sum (fun worker _ => Phase.card_held_le _)
  · rw [← Multiset.coe_eq_coe, ← Multiset.coe_add, Multiset.coe_toList]
    exact serving.flight

/-- Two jobs, one of them added while a worker is already on its way. -/
theorem thpool_serves_jobs_once_two_workers :
    Guarded Step.execute Step.Admits
      ([.add 16 7, .turn 0, .add 32 8, .turn 1, .turn 0, .turn 0, .turn 0, .turn 0] : List (Step (Fin 2) Nat))
      thpoolInit ∧
    Ensures (runAll Step.execute
        ([.add 16 7, .turn 0, .add 32 8, .turn 1, .turn 0, .turn 0, .turn 0, .turn 0] : List (Step (Fin 2) Nat)))
      thpoolInit
      (fun _ last => Exists fun queued => queued.length = last.queue.len ∧ last.added = last.taken ++ queued)
      (fun _ _ => False) := by
  have guarded : Guarded Step.execute Step.Admits
      ([.add 16 7, .turn 0, .add 32 8, .turn 1, .turn 0, .turn 0, .turn 0, .turn 0] : List (Step (Fin 2) Nat))
      thpoolInit := by decide
  refine ⟨guarded, (thpool_serves_jobs_once guarded).mono ?_ (fun _ _ impossible => impossible)⟩
  rintro _ last ⟨⟨queued, running, len, -, order, -⟩, -⟩
  exact ⟨queued, len, order⟩

/-! ## Progress -/

/-- How many sections a worker has before it is back in `bsem_wait`, and a margin for the job
that it may leave behind. -/
def Phase.weight : Phase A -> Nat
  | .waiting => 0
  | .woken => 5
  | .counted => 4
  | .pulled _ => 2
  | .served => 1

def System.rank (system : System W A) : Nat :=
  12 * system.queue.len + (if system.queue.hasJobs = true then 6 else 0) +
    ∑ worker, (system.phase worker).weight

theorem rank_turn (serving : Serving system entries) (moves : CanMove worker system) :
    Ensures (threadDo worker) system (fun _ next => next.rank < system.rank) (fun _ _ => False) := by
  unfold threadDo
  rw [Ensures.bind_iff, Ensures.get_iff]
  have total := fun next => sum_update Phase.weight system.phase worker next
  cases reached : system.phase worker with
  | waiting =>
      have raised := moves (by rw [reached]; rfl)
      simp only [if_pos raised]
      refine ensures_enter.mpr ?_
      have moved := total .woken
      simp only [reached, Phase.weight, System.rank, raised, if_true, Bool.false_eq_true, if_false] at moved ⊢
      omega
  | woken =>
      refine ensures_enter.mpr ?_
      have moved := total .counted
      simp only [reached, Phase.weight, System.rank] at moved ⊢
      omega
  | counted =>
      refine Ensures.bind_iff.mpr (Ensures.onPart_iff.mpr ?_)
      refine (ensures_fetchJob serving.queued).mono ?_ (fun _ _ impossible => impossible)
      rintro arg queue (⟨-, rfl, rfl⟩ | ⟨pointer, arg, rest, rfl, rfl, queued, -⟩)
      · refine ensures_enter.mpr ?_
        have moved := total (.pulled none)
        simp only [reached, Phase.weight, System.rank] at moved ⊢
        omega
      · refine ensures_enter.mpr ?_
        have moved := total (.pulled (some arg))
        have before := serving.queued.len
        have after := queued.len
        have margin : (if queue.hasJobs = true then 6 else 0) ≤ 6 := by split <;> omega
        simp only [reached, Phase.weight, System.rank, List.length_cons] at moved before ⊢
        omega
  | pulled arg =>
      refine ensures_enter.mpr ?_
      have moved := total .served
      simp only [reached, Phase.weight, System.rank] at moved ⊢
      omega
  | served =>
      refine ensures_enter.mpr ?_
      have moved := total .waiting
      simp only [reached, Phase.weight, System.rank] at moved ⊢
      omega

/-- A state of the pool after some schedule. -/
def Reachable (system : System W A) : Prop :=
  Exists fun steps => Guarded Step.execute Step.Admits steps thpoolInit ∧
    (runAll Step.execute steps).run thpoolInit = .ok PUnit.unit system

theorem Reachable.serving (reachable : Reachable system) :
    Exists fun entries => Serving system entries := by
  rcases reachable with ⟨steps, guarded, ran⟩
  exact (Ensures.ok_iff ran).mp (Serving.run guarded)

/-- No wake-up is lost.  From any reachable state the workers alone can make only a bounded
number of steps, and where none of them can go on, the queue is empty, every job was carried
out once and the caller of `thpool_wait` does not sleep. -/
theorem thpool_workers_drain [Nonempty W] (reachable : Reachable system) {turns : List W}
    (moves : Guarded threadDo CanMove turns system) :
    Ensures (runAll threadDo turns) system
      (fun _ last => turns.length + last.rank ≤ system.rank ∧
        ((forall worker, ¬ CanMove worker last) ->
          last.queue.len = 0 ∧ last.working = 0 ∧ last.waiter ≠ .blocked ∧ last.done.Perm last.added))
      (fun _ _ => False) := by
  have run := @Ensures.runAll_guarded _ _ _ threadDo CanMove
    (fun past next => (Exists fun entries => Serving next entries) ∧ past.length + next.rank ≤ system.rank)
    (fun _ _ => False) ?step [] turns system ⟨reachable.serving, by simp⟩ moves
  case step =>
    rintro past worker state ⟨⟨entries, serving⟩, bound⟩ able
    refine ((serving.turn worker).and (rank_turn serving able)).mono ?_ (fun _ _ fault => fault.1)
    rintro _ next ⟨kept, less⟩
    refine ⟨kept, ?_⟩
    rw [List.length_append, List.length_singleton]
    omega
  refine run.mono ?_ (fun _ _ impossible => impossible)
  rintro _ last ⟨⟨entries, serving⟩, bound⟩
  exact ⟨by simpa using bound, serving.stuck⟩

/-- Two jobs wait and `thpool_wait` sleeps. -/
def sleepingCaller : System (Fin 2) Nat :=
  match (runAll Step.execute [.add 16 7, .add 32 8, .wait]).run thpoolInit with
  | .ok _ system => system
  | .error _ system => system

theorem thpool_workers_drain_two_jobs :
    sleepingCaller.waiter = .blocked ∧
      Ensures (runAll threadDo [0, 0, 0, 1, 0, 1, 1, 0, 1, 1]) sleepingCaller
        (fun _ last => last.queue.len = 0 ∧ last.waiter ≠ .blocked) (fun _ _ => False) := by
  have reachable : Reachable sleepingCaller := ⟨[.add 16 7, .add 32 8, .wait], by decide, rfl⟩
  have moves : Guarded threadDo CanMove [0, 0, 0, 1, 0, 1, 1, 0, 1, 1] sleepingCaller := by decide
  have asleep : Ensures (runAll threadDo [0, 0, 0, 1, 0, 1, 1, 0, 1, 1]) sleepingCaller
      (fun _ last => forall worker, ¬ CanMove worker last) (fun _ _ => True) := by decide
  refine ⟨rfl, ((thpool_workers_drain reachable moves).and asleep).mono ?_ (fun _ _ fault => fault.1)⟩
  rintro _ last ⟨⟨-, idle⟩, still⟩
  exact ⟨(idle still).1, (idle still).2.2.1⟩

end Workers

end Userfs.Thpool
