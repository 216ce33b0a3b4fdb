import DiagramTour.Playback.Step

/-!
# Running a player

A player is asked for one thing after the other.  Each is a task of its own, which is run to its
end; then those that are still busy may be given some turns more, while no time passes.

A handler may keep a player busy for ever, so a run ends after a great number of steps at the
latest.  Where no handler does, it is not reached.
-/

namespace DiagramTour

/-- The number of steps after which a run ends in any case. -/
def Stage.patience (s : Stage) : Nat :=
  10000000 + 64 * (s.config.settleFrames + 1) * (s.document.size + 1)

namespace World

/-! ## Until a task has ended -/

/-- Starts some tasks whose turn comes before that of all others, and tells them. -/
def startFirst (w : World) (jobs : List Job) : World × List Nat :=
  let ids := List.range' w.nextTask jobs.length
  let tasks := List.zipWith (fun id job => (⟨id, job, []⟩ : Task)) ids jobs
  ({ w with nextTask := w.nextTask + jobs.length, ready := tasks ++ w.ready }, ids)

/-- How a task has ended, if it has. -/
def outcome? (w : World) (id : Nat) : Option Outcome :=
  (w.outcomes.find? (·.1 == id)).map Prod.snd

/-- Takes at most so many steps until a task has ended, letting time pass where nobody can go on
without. -/
def finishWithin (s : Stage) (id : Nat) : Nat → World → World
  | 0, w => w
  | fuel + 1, w =>
    if (w.outcome? id).isSome then w
    else if !w.isQuiet then finishWithin s id fuel (w.step s)
    -- Nobody will ever wake up again
    else if w.asleep.isEmpty then w
    else finishWithin s id fuel w.wake

/-- Steps until a task has ended. -/
def finish (s : Stage) (w : World) (id : Nat) : World :=
  finishWithin s id s.patience w

/-- Does some things together until all of them have ended. -/
def performAll (s : Stage) (w : World) (jobs : List Job) : World × List (Option Outcome) :=
  let (w, ids) := w.startFirst jobs
  let w := ids.foldl (fun w id => w.finish s id) w
  (w, ids.map w.outcome?)

/-- Does one thing until it has ended. -/
def perform (s : Stage) (w : World) (job : Job) : World × Option Outcome :=
  let (w, outcomes) := w.performAll s [job]
  (w, outcomes.head?.join)

/-! ## Until all is quiet -/

/-- Takes at most so many steps until everyone has ended or given up their turn. -/
def takeTurnsWithin (s : Stage) : Nat → World → World
  | 0, w => w
  | fuel + 1, w => if w.ready.isEmpty then w else takeTurnsWithin s fuel (w.step s)

/-- Steps until everyone has ended or given up their turn. -/
def takeTurns (s : Stage) (w : World) : World :=
  takeTurnsWithin s s.patience w

/-- Gives everyone some turns, as long as anyone wants one. -/
def rest (s : Stage) (w : World) : Nat → World
  | 0 => w
  | turns + 1 =>
    if w.isQuiet then w
    else
      -- Whoever pauses meanwhile comes in the next round
      let w := w.takeTurns s
      rest s { w with ready := w.paused, paused := [] } turns

end World

end DiagramTour
