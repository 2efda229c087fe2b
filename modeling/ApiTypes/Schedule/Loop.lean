import ApiTypes.Schedule

/-!
# Taking turns on a loop

A loop runs what is scheduled in the order in which it was scheduled. Jobs whose values are gathered
take turns on it in this way:

* `Schedule.Task` : a job on the loop;
* `Schedule.Handle` : what can be scheduled: a step of a task, the news that one has ended, and that
  whoever waits for all of them goes on;
* `Schedule.Stage` : how far the gathering is. The first failure that is learnt stops the tasks that
  have not ended, and is passed on when all of them have;
* `Schedule.Loop` : the tasks, what is scheduled, the stage, and which tasks have ended;
* `Loop.start`, `Loop.tick` : a loop on which no job has had a turn, and one that has run what was
  scheduled first;
* `Loop.result?` : the values or the failure, when the gathering is done.
-/

namespace ApiTypes.Schedule

variable {ε α : Type}

inductive Task (ε α : Type) where
  /-- The turns that are left before the last one. A task that is to stop has only that one. -/
  | running (left : Nat) (outcome : Except ε α) (isStopping : Bool)
  | ended (outcome : Except ε α)
  | stopped

namespace Task

def isRunning : Task ε α → Bool
  | running .. => true
  | ended _ | stopped => false

def value? : Task ε α → Option α
  | ended (.ok a) => some a
  | _ => none

/-- A task that ends in its next turn, if it has one. -/
def stop : Task ε α → Task ε α
  | running left outcome _ => running left outcome true
  | t => t

end Task

inductive Handle where
  | step (task : Nat)
  /-- The gathering learns that a task has ended. -/
  | report (task : Nat)
  /-- Those who wait for stopped tasks learn that one of all tasks has ended. -/
  | settle (task : Nat)
  /-- Whoever waits goes on. -/
  | wake
  deriving DecidableEq, Repr

inductive Stage (ε α : Type) where
  /-- So many tasks are known to have ended. -/
  | gathering (known : Nat)
  | gathered (values : List α)
  | failed (e : ε)
  /-- After a failure, so many tasks are known to have ended. -/
  | winding (e : ε) (known : Nat)
  | wound (e : ε)
  | done (result : Except ε (List α))

@[ext]
structure Loop (ε α : Type) where
  tasks : List (Task ε α)
  ready : List Handle
  stage : Stage ε α
  /-- The tasks that have ended and were not stopped, in the order in which they did. -/
  finished : List Nat

namespace Loop

/-- All jobs before their first turn. The values of no jobs are there at once. -/
def start (jobs : List (Job ε α)) : Loop ε α where
  tasks := jobs.map fun job => .running job.delay job.outcome false
  ready := (List.range jobs.length).map .step
  stage := if jobs.isEmpty then .done (.ok []) else .gathering 0
  finished := []

/-- What is scheduled when a task has ended. -/
def news (l : Loop ε α) (i : Nat) : List Handle :=
  match l.stage with
  | .winding .. => [.report i, .settle i]
  | _ => [.report i]

def step (l : Loop ε α) (i : Nat) : Loop ε α :=
  match l.tasks[i]? with
  | some (.running _ _ true) =>
    { l with tasks := l.tasks.set i .stopped, ready := l.ready ++ l.news i }
  | some (.running 0 outcome false) =>
    { l with
      tasks := l.tasks.set i (.ended outcome)
      ready := l.ready ++ l.news i
      finished := l.finished ++ [i] }
  | some (.running (left + 1) outcome false) =>
    { l with
      tasks := l.tasks.set i (.running left outcome false)
      ready := l.ready ++ [.step i] }
  | _ => l

/-- A task is known to have ended while values are gathered: with a failure, as the last one, or as
one more. -/
def report (l : Loop ε α) (i : Nat) : Loop ε α :=
  match l.stage with
  | .gathering known =>
    match l.tasks[i]? with
    | some (.ended (.error e)) => { l with stage := .failed e, ready := l.ready ++ [.wake] }
    | _ =>
      if known + 1 = l.tasks.length then
        { l with stage := .gathered (l.tasks.filterMap Task.value?), ready := l.ready ++ [.wake] }
      else { l with stage := .gathering (known + 1) }
  | _ => l

/-- A task is known to have ended after a failure. -/
def settle (l : Loop ε α) : Loop ε α :=
  match l.stage with
  | .winding e known =>
    if known + 1 = l.tasks.length then { l with stage := .wound e, ready := l.ready ++ [.wake] }
    else { l with stage := .winding e (known + 1) }
  | _ => l

/-- The tasks that run no more. -/
def endedTasks (l : Loop ε α) : List Nat :=
  (l.tasks.zipIdx.filter (!·.1.isRunning)).map Prod.snd

/-- Whoever waits goes on: with the values, by stopping the tasks after a failure, or with the
failure when they have ended. -/
def wake (l : Loop ε α) : Loop ε α :=
  match l.stage with
  | .gathered values => { l with stage := .done (.ok values) }
  | .failed e =>
    { l with
      tasks := l.tasks.map Task.stop
      ready := l.ready ++ l.endedTasks.map .settle
      stage := .winding e 0 }
  | .wound e => { l with stage := .done (.error e) }
  | _ => l

def run (l : Loop ε α) : Handle → Loop ε α
  | .step i => l.step i
  | .report i => l.report i
  | .settle _ => l.settle
  | .wake => l.wake

/-- The loop after what was scheduled first has run. -/
def tick (l : Loop ε α) : Loop ε α :=
  match l.ready with
  | [] => l
  | h :: rest => run { l with ready := rest } h

/-- The result that whoever waits has got, with the order in which the tasks have ended. -/
def result? (l : Loop ε α) : Option (Except ε (List α × List Nat)) :=
  match l.stage with
  | .done result => some (result.map fun values => (values, l.finished))
  | _ => none

end Loop
end ApiTypes.Schedule
