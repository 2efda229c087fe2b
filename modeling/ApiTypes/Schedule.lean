/-!
# Taking turns

* `Schedule.Job` : a job that lets the others go first a number of times, then ends with a value or
  a failure;
* `Schedule.turn` : one turn of all waiting jobs, in order;
* `Schedule.run` : turns until all jobs have ended or one has failed;
* `Schedule.together`, `Schedule.fold` : the values of jobs that take turns, and a fold over jobs
  of which each ends before the next one starts.
-/

namespace ApiTypes.Schedule

structure Job (ε α : Type) where
  delay : Nat
  outcome : Except ε α

/-- A job that has not ended, with its place and the turns it still passes on. -/
structure Waiting (ε α : Type) where
  place : Nat
  left : Nat
  outcome : Except ε α

variable {ε α β : Type}

/-- One turn: the places of the jobs that end in it, in order, and the jobs that go on waiting; or
the failure of the first job that fails in it. -/
def turn : List (Waiting ε α) → Except ε (List Nat × List (Waiting ε α))
  | [] => .ok ([], [])
  | w :: rest =>
    match w.left, w.outcome with
    | 0, .error e => .error e
    | 0, .ok _ => do
      let (ended, waiting) ← turn rest
      return (w.place :: ended, waiting)
    | left + 1, _ => do
      let (ended, waiting) ← turn rest
      return (ended, { w with left } :: waiting)

def run : Nat → List (Waiting ε α) → Except ε (List Nat)
  | 0, _ => .ok []
  | turns + 1, waiting => do
    let (ended, waiting) ← turn waiting
    let later ← run turns waiting
    return ended ++ later

/-- All jobs before their first turn. -/
def waiting (jobs : List (Job ε α)) : List (Waiting ε α) :=
  jobs.mapIdx fun place job => ⟨place, job.delay, job.outcome⟩

/-- The turns after which every job has ended. -/
def turnsNeeded (jobs : List (Job ε α)) : Nat := (jobs.map (·.delay + 1)).foldl max 0

/-- The values of the jobs that have one. -/
def values (jobs : List (Job ε α)) : List α := jobs.filterMap fun j => j.outcome.toOption

/-- The values of jobs that take turns, in the order of the jobs, and their places in the order in
which they end; or the first failure. -/
def together (jobs : List (Job ε α)) : Except ε (List α × List Nat) := do
  let ended ← run (turnsNeeded jobs) (waiting jobs)
  return (values jobs, ended)

/-- A fold over the values of jobs, each of which ends before the next starts; `step` also gets the
place of the job. -/
def fold (step : β → Nat → α → β) (acc : β) (place : Nat) : List (Job ε α) → Except ε β
  | [] => .ok acc
  | job :: rest => do
    let a ← job.outcome
    fold step (step acc place a) (place + 1) rest

end ApiTypes.Schedule
