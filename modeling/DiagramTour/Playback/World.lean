import DiagramTour.Playback.Bus
import DiagramTour.Playback.Config
import DiagramTour.Playback.Host

/-!
# The world of a player

A player runs several tasks by turns, on one thread and by a clock of its own.  The world is all
that changes while it does: what is shown, who listens, who waits for what, and what has happened.

## Architecture

- A `Task` is the job it is at and the `Wait`s under it, each of which goes on when what is above
  it has ended with an `Outcome`.
- One task at a time may be on the way to a stop; the others queue for the way in the order in which
  they came.
- The head of `ready` runs until it ends or gives up its turn.  Whoever pauses is ready again when
  nobody else is; whoever sleeps is ready again when the clock says so.
-/

namespace DiagramTour

/-- What a player is given, and what never changes. -/
structure Stage where
  document : Document
  config : PlaybackConfig := {}
  handlers : Handlers := {}
  elements : Elements := ⟨[]⟩
  hasCamera : Bool := false
  hasOverlay : Bool := false
  /-- Whether frames come in intervals; otherwise the next one comes when all others had their
  turn. -/
  paced : Bool := false
  /-- Whether new tasks can be started; otherwise there are no timers, and a move within a move is
  dropped. -/
  concurrent : Bool := true

/-- How something ends. -/
inductive Outcome where
  | completed
  /-- Actions were run, and some of them failed. -/
  | collected (errors : List ActionError)
  /-- An event was delivered to so many. -/
  | counted (listeners : Nat)
  | failed (error : ActionError)
  | crashed (crash : Crash)
deriving DecidableEq, Repr, Inhabited

/-- What a task is at. -/
inductive Job where
  /-- Run actions in order; the errors are those so far. -/
  | run (setting : Setting) (event : Option FiredEvent) (actions : List Action)
      (errors : List ActionError)
  /-- Carry out an action of a kind. -/
  | act (kind : String) (behaviour : Behaviour)
  /-- Deliver an event to some listeners, of `total` in all. -/
  | fire (event : HostEvent) (listeners : List Listener) (total : Nat)
  /-- Tell the subscribers. -/
  | deliver (deliveries : List Delivery)
  /-- Begin to play; a payload is announced first. -/
  | begin (render : Option Json)
  /-- Go somewhere, at once or after the move that this one is part of. -/
  | travel (move : Move)
  /-- Queue for the way. -/
  | seek (move : Move)
  /-- Leave for somewhere, the way being free. -/
  | depart (move : Move)
  /-- Let some frames pass before the stop at a place is entered. -/
  | settle (index frames : Nat)
  /-- Wait for a timer. -/
  | await (setting : Setting) (delay : Nat) (actions : List Action)
  /-- The timer has elapsed. -/
  | ring (setting : Setting) (delay : Nat) (actions : List Action)
  | sleep (ms : Nat)
  | ended (outcome : Outcome)

/-- What goes on when what is above it has ended. -/
inductive Wait where
  /-- An action of a kind is carried out; the others follow. -/
  | handled (kind : String) (setting : Setting) (event : Option FiredEvent)
      (actions : List Action) (errors : List ActionError)
  /-- A handler waits for a move. -/
  | moved (kind : String) (next : Option ActionError → Behaviour)
  /-- A handler waits for an event to be delivered. -/
  | dispatched (kind : String) (next : Nat → Behaviour)
  /-- A listener reacts; the others follow. -/
  | fired (event : HostEvent) (listeners : List Listener) (total : Nat)
  /-- The actions of a reaction run; their failures are told. -/
  | report (outlet : Outlet)
  /-- The announcement before the first stop is heard. -/
  | opened
  /-- The stop before is cleaned up, to enter the one at a place. -/
  | cleared (index : Nat)
  /-- The actions of the stop at a place run. -/
  | entered (index : Nat)
  /-- The failures of the actions are heard; the stop at a place is reached. -/
  | arrived (index : Nat) (errors : List ActionError)
  /-- A last announcement is heard; this is the outcome then. -/
  | concluded (outcome : Outcome)
  /-- A move is on its way. -/
  | journey

namespace Wait

/-- Whether a move is on its way. -/
def isJourney : Wait → Bool
  | journey => true
  | _ => false

end Wait

/-- A task. -/
structure Task where
  id : Nat
  job : Job
  waits : List Wait := []

namespace Task

/-- Whether a task is on its way to a stop. -/
def onJourney (t : Task) : Bool :=
  t.waits.any Wait.isJourney

end Task

/-- The two groups of reactions of a player. -/
inductive Part where
  /-- Those that hold throughout. -/
  | tour
  /-- Those of the current stop. -/
  | stop
deriving DecidableEq, Repr, Inhabited

/-- All that changes. -/
structure World where
  /-- What has happened, from the first to the last. -/
  journal : List Record := []
  host : Host := {}
  bus : Bus := {}
  tourRig : Rig := {}
  stopRig : Rig := {}
  /-- The place of the current stop, or -1 before the first. -/
  position : Int := -1
  /-- The last failure on the way to the current stop. -/
  error : Option ActionError := none
  destroyed : Bool := false
  resets : Nat := 0
  clears : Nat := 0
  frames : Nat := 0
  /-- The time, in milliseconds. -/
  now : Nat := 0
  /-- The id of the next task. -/
  nextTask : Nat := 0
  ready : List Task := []
  paused : List Task := []
  /-- Tasks that sleep, and when they wake up. -/
  asleep : List (Nat × Task) := []
  /-- The task that is on the way to a stop. -/
  traveller : Option Nat := none
  /-- The tasks that queue for the way. -/
  queue : List Task := []
  /-- How tasks have ended. -/
  outcomes : List (Nat × Outcome) := []

namespace World

/-! ## What is shown -/

/-- Where the player stands. -/
def state (s : Stage) (w : World) : PlayerState where
  stopIndex := w.position
  stopId := if w.position < 0 then none else (s.document.stops[w.position.toNat]?).map Stop.id
  stopCount := s.document.stops.length
  error := w.error

/-- The place of a stop, if there is one. -/
def place? (s : Stage) (index : Int) : Option Nat :=
  if 0 ≤ index && index < s.document.stops.length then some index.toNat else none

/-- The stop that a move leads to, if it leads to one. -/
def target? (s : Stage) (w : World) : Move → Option Nat
  | .index index => place? s index
  | .id id => s.document.stopIndex? id
  | .offset stops => place? s (w.position + stops)

/-- Writes something down. -/
def write (w : World) (r : Record) : World :=
  { w with journal := w.journal ++ [r] }

/-! ## Tasks -/

/-- Starts a task. -/
def start (w : World) (job : Job) (waits : List Wait) : World :=
  { w with
    nextTask := w.nextTask + 1
    ready := w.ready ++ [⟨w.nextTask, job, waits⟩] }

/-- Ends some tasks that have not begun or sleep. -/
def cancel (w : World) (ids : List Nat) : World :=
  { w with
    ready := w.ready.filter fun t => !ids.contains t.id
    asleep := w.asleep.filter fun t => !ids.contains t.2.id }

/-- Gives the way to the next who queues for it. -/
def handOver (w : World) : World :=
  match w.queue with
  | [] => { w with traveller := none }
  | t :: ts => { w with traveller := some t.id, queue := ts, ready := w.ready ++ [t] }

/-! ## Reactions -/

/-- The listeners and timers of a part. -/
def rig (w : World) : Part → Rig
  | .tour => w.tourRig
  | .stop => w.stopRig

/-- Sets the listeners and timers of a part. -/
def setRig (w : World) (p : Part) (rig : Rig) : World :=
  match p with
  | .tour => { w with tourRig := rig }
  | .stop => { w with stopRig := rig }

/-- Starts a timer for each of some rules, and tells their tasks. -/
def startTimers (setting : Setting) : List Reaction → World → World × List Nat
  | [], w => (w, [])
  | r :: rs, w =>
    let (w', ids) := startTimers setting rs (w.start (.await setting r.delay r.actions) [])
    (w', w.nextTask :: ids)

/-- Puts up the listeners and timers of some rules. -/
def bind (s : Stage) (w : World) (p : Part) (reactions : List Reaction) (setting : Setting) : World :=
  let (host, listeners) := w.host.attach (reactions.filterMap (·.listener? s.elements setting))
  -- Where no task can be started a timer is left out
  let timed := if s.concurrent then reactions.filter Reaction.isTimer else []
  let (w, timers) := startTimers setting timed { w with host }
  let rig := w.rig p
  w.setRig p ⟨rig.listeners ++ listeners, rig.timers ++ timers⟩

/-- Takes down the listeners and timers of a part. -/
def release (w : World) (p : Part) : World :=
  let rig := w.rig p
  ({ w with host := w.host.detach rig.listeners }.cancel rig.timers).setRig p {}

/-- Ends the player: nothing listens any more, and nobody is subscribed. -/
def destroy (w : World) : World :=
  if w.destroyed then w
  else
    -- Tasks that are under way are not stopped
    let w := ({ w with destroyed := true }.release .tour).release .stop
    { w with bus := w.bus.clear }

/-- Takes all marks off the camera and the overlay before a stop is entered; the camera stays where
the first action of the stop places it. -/
def tidy (s : Stage) (w : World) (stop : Stop) : World :=
  let w := if s.hasOverlay then { w with clears := w.clears + 1 } else w
  let placed := match stop.actions with
    | [] => false
    | a :: _ => s.config.cameraActionPrefix.toList.isPrefixOf a.kind.toList
  if s.hasCamera && !placed then { w with resets := w.resets + 1 } else w

end World

end DiagramTour
