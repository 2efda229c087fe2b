/-!
# Timed computations

* `Course` : how long a computation runs, in rounds, and when it has wound up if it is stopped
  earlier;
* `Timed` : an outcome together with its course; a monad, in which one computation starts in the
  round in which the one before it ends;
* `Timed.all` : several computations started together. If all succeed, so does the whole, with the
  values in the order of the computations. The first failure in time is the failure of the whole,
  of several in one round the first in order; the others are then stopped and waited for.

Only computations started together take time: they start one round after the round that starts
them, the whole learns in the next round but one that a part has ended, and it takes two rounds
more to see that stopped parts have wound up.
-/

namespace ApiTypes

/-- The rounds that a computation takes, and the round in which it has wound up if it is stopped
when it has had a number of rounds. -/
structure Course where
  rounds : Nat
  unwind : Nat → Nat

namespace Course

/-- A computation that ends in the round in which it starts. -/
def instant : Course := ⟨0, fun _ => 0⟩

/-- When a computation has wound up that is stopped after some rounds: a stop after its end changes
nothing. -/
def stop (c : Course) (after : Nat) : Nat := if c.rounds ≤ after then c.rounds else c.unwind after

/-- One computation after another. -/
def andThen (c d : Course) : Course where
  rounds := c.rounds + d.rounds
  unwind s := if s < c.rounds then c.unwind s else c.rounds + d.stop (s - c.rounds)

/-- The last of some rounds. -/
def latest (rounds : List Nat) : Nat := rounds.foldl max 0

/-- The first of some rounds. -/
def earliest (rounds : List Nat) : Nat := rounds.foldl min (latest rounds)

/-! ## Computations started together

Rounds are counted from the start of the parts. A failure is given as its place among the parts and
its round. -/

/-- When the parts have wound up that are stopped because one has failed: those before it in order
have had their step of the round in which the failure is learnt, those after it have not. -/
def stopRest (parts : List Course) (place round : Nat) : List Nat :=
  parts.mapIdx fun i c =>
    if i < place then c.stop (round + 2) else if i = place then c.rounds else c.stop (round + 1)

/-- When the whole ends if nothing stops it. -/
def natural (parts : List Course) : Option (Nat × Nat) → Nat
  | none => latest (parts.map rounds) + 2
  | some (place, round) => max (latest (stopRest parts place round)) (round + 2) + 2

/-- When the whole has wound up if it is stopped before it knows of a failure: the first part that
the stop has ended tells it. -/
def stoppedEarly (parts : List Course) (s : Nat) : Nat :=
  let running := parts.filter (s < ·.rounds)
  if running.isEmpty then latest (parts.map rounds) + 4
  else max (latest (parts.map (·.stop s))) (earliest (running.map (·.stop s)) + 2) + 2

/-- When the whole has wound up if it is stopped when the parts have had `s` rounds. -/
def stopped (parts : List Course) (failure : Option (Nat × Nat)) (s : Nat) : Nat :=
  match failure with
  | none => stoppedEarly parts s
  | some (_, round) =>
    if s < round then stoppedEarly parts s
    else if s = round then max (latest (parts.map (·.stop s))) (round + 2) + 2
    else natural parts failure

/-- The course of computations started together. A stop before they start ends each at once. -/
def together (parts : List Course) (failure : Option (Nat × Nat)) : Course :=
  if parts.isEmpty then instant
  else
    { rounds := natural parts failure + 1
      unwind := fun
        | 0 => 5
        | s + 1 => stopped parts failure s + 1 }

end Course

structure Timed (ε α : Type) where
  outcome : Except ε α
  course : Course

namespace Timed

variable {ε α β : Type}

/-- An outcome that is there at once. -/
def ofExcept (outcome : Except ε α) : Timed ε α := ⟨outcome, .instant⟩

protected def pure (a : α) : Timed ε α := ofExcept (.ok a)

/-- A failure at once. -/
def fail (e : ε) : Timed ε α := ofExcept (.error e)

/-- One computation after another; a failure ends it. -/
protected def bind (x : Timed ε α) (f : α → Timed ε β) : Timed ε β :=
  match x.outcome with
  | .error e => ⟨.error e, x.course⟩
  | .ok a =>
    let y := f a
    ⟨y.outcome, x.course.andThen y.course⟩

instance : Monad (Timed ε) where
  pure := Timed.pure
  bind := Timed.bind

instance : MonadLift (Except ε) (Timed ε) := ⟨ofExcept⟩

/-- The computation with its failure changed. -/
def mapError (f : ε → ε) (x : Timed ε α) : Timed ε α := ⟨x.outcome.mapError f, x.course⟩

/-- A failure among computations: its place, its round, and the failure. -/
structure Failure (ε : Type) where
  place : Nat
  round : Nat
  error : ε

/-- The failure of the first round, and there of the first place, in a list whose first element has
the place given. -/
def firstFailure (place : Nat) : List (Timed ε α) → Option (Failure ε)
  | [] => none
  | x :: rest =>
    match x.outcome, firstFailure (place + 1) rest with
    | .ok _, later => later
    | .error e, none => some ⟨place, x.course.rounds, e⟩
    | .error e, some later =>
      if later.round < x.course.rounds then some later else some ⟨place, x.course.rounds, e⟩

/-- The values of computations up to the first that has none. -/
def values : List (Timed ε α) → List α
  | [] => []
  | x :: rest => match x.outcome with
    | .ok a => a :: values rest
    | .error _ => []

/-- Computations started together: all values in order, or the first failure in time. -/
def all (xs : List (Timed ε α)) : Timed ε (List α) :=
  match firstFailure 0 xs with
  | none => ⟨.ok (values xs), .together (xs.map (·.course)) none⟩
  | some f => ⟨.error f.error, .together (xs.map (·.course)) (some (f.place, f.round))⟩

/-- Computations one after another. -/
def inTurn (f : α → Timed ε β) : List α → Timed ε (List β)
  | [] => pure []
  | a :: rest => do
    let b ← f a
    let bs ← inTurn f rest
    return b :: bs

end Timed
end ApiTypes
