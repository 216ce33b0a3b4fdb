import DiagramTour.Playback.Event
import DiagramTour.Playback.Notice

/-!
# Handlers

A handler carries out the actions of one kind.  While it does, it may ask the player for things and
go on with the answer; so what a handler does with an action is a tree, in which every command
branches over the replies to it.
-/

namespace DiagramTour

/-- Where to go. -/
inductive Move where
  /-- To the stop at a place. -/
  | index (place : Int)
  /-- To the stop with an id. -/
  | id (id : String)
  /-- By a number of stops from where the player stands when the move begins. -/
  | offset (stops : Int)
deriving DecidableEq, Repr, Inhabited

/-- What a handler is called with. -/
structure Cue where
  action : Action
  /-- The place of the stop that is entered or shown; -1 where there is none. -/
  stop : Int
  /-- The id of that stop. -/
  stopId : Option String
  /-- The event that a reaction answers. -/
  event : Option FiredEvent
deriving Repr, Inhabited

/-- The form of a cue. -/
def Cue.toJson (c : Cue) : Json :=
  .obj ([("action", c.action.toJson), ("step", .int c.stop), ("id", .optional .str c.stopId)] ++
    Json.fieldIfSome "event" FiredEvent.toJson c.event)

/-- What happened, as it is written down. -/
inductive Record where
  /-- A handler was called. -/
  | called (cue : Cue)
  /-- A notice was announced. -/
  | announced (notice : Notice)
  /-- A subscriber heard a notice. -/
  | heard (label : String) (notice : Notice)
  /-- A reaction failed, and nobody was told. -/
  | unheeded (error : ActionError)
  /-- A handler made a note. -/
  | noted (note : Json)
deriving Repr, Inhabited

/-- What a handler may ask for. -/
inductive Command where
  /-- Go somewhere, and wait until the move has ended. -/
  | move (move : Move)
  /-- End the player. -/
  | destroy
  | state
  /-- End the subscription that a label stands for. -/
  | unsubscribe (label : String)
  /-- Let others go first. -/
  | pause
  | sleep (ms : Nat)
  /-- Deliver an event, and wait until everyone has reacted. -/
  | dispatch (event : HostEvent)
  | resetCamera
  | clearOverlay
  | resolve (anchor : Anchor)
  /-- Write something down. -/
  | note (note : Json)
  /-- Read all that was written down. -/
  | review

/-- What comes back from a command. -/
def Command.Reply : Command → Type
  /- The failure that ended the move. -/
  | move _ => Option ActionError
  | state => PlayerState
  /- The number of those who reacted. -/
  | dispatch _ => Nat
  /- Whether there is a camera. -/
  | resetCamera => Bool
  /- Whether there is an overlay. -/
  | clearOverlay => Bool
  | resolve _ => Option String
  | review => List Record
  | destroy | unsubscribe _ | pause | sleep _ | note _ => Unit

/-- What a handler does with an action. -/
inductive Behaviour where
  | succeed
  /-- Fail with a message and its contexts, from the first to the last that it was put into. -/
  | fail (message : String) (contexts : List String := [])
  | crash (crash : Crash)
  | perform (command : Command) (next : command.Reply → Behaviour)

/-- What is said of a failure: its message with its contexts before it, the last one first. -/
def Behaviour.explain (message : String) (contexts : List String) : String :=
  contexts.foldl (fun said context => context ++ ": " ++ said) message

/-- A handler. -/
abbrev Handler := Cue → Behaviour

/-- The handlers by the kind of their actions; of two for one kind the first counts. -/
structure Handlers where
  entries : List (String × Handler) := []

namespace Handlers

/-- The handler for a kind. -/
def find? (h : Handlers) (kind : String) : Option Handler :=
  (h.entries.find? (·.1 == kind)).map Prod.snd

/-- Whether there is a handler for a kind. -/
def knows (h : Handlers) (kind : String) : Bool :=
  (h.find? kind).isSome

end Handlers

end DiagramTour
