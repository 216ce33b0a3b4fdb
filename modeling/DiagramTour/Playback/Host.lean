import DiagramTour.Playback.Elements
import DiagramTour.Playback.Handler

/-!
# Listeners

The host keeps listeners and delivers events to them.  A rule of a document becomes a listener at
the element that it is anchored to, or a timer.

## Architecture

- `Reaction.native?` tells the event and the place that a rule listens for.
- A `Host` numbers its listeners in ascending order and never uses a number twice.
- A `Rig` holds the numbers of the listeners and timers that were put up together, so that they
  can be taken down together.
-/

namespace DiagramTour

/-- Who is told when a reaction fails. -/
inductive Outlet where
  /-- The subscribers. -/
  | announce
  /-- Nobody; it is only written down. -/
  | record
deriving DecidableEq, Repr, Inhabited

/-- Under what circumstances actions are run. -/
structure Setting where
  /-- The place of the stop that is entered or shown; -1 where there is none. -/
  stop : Int
  stopId : Option String
  policy : ErrorPolicy
  outlet : Outlet
deriving Repr, Inhabited

/-- Somebody who waits for an event of the host. -/
structure Listener where
  id : Nat
  place : Place
  /-- The name of the event. -/
  name : String
  /-- The only key that counts, if not every key does. -/
  key : Option String
  actions : List Action
  setting : Setting
deriving Repr, Inhabited

namespace Listener

/-- Whether an event is delivered to a listener: those on the window hear of every element. -/
def hears (l : Listener) (e : HostEvent) : Bool :=
  l.name == e.name && (l.place == e.target || l.place == .window)

/-- Whether a listener reacts to an event that was delivered to it. -/
def accepts (l : Listener) (e : HostEvent) : Bool :=
  match l.key with
  | none => true
  | some key => e.key == some key

end Listener

namespace Reaction

/-- The name of the event of the host that a rule waits for, if it waits for one. -/
def native? (r : Reaction) : Option String :=
  match r.event with
  | .click => some "click"
  | .hover => some "mouseenter"
  | .key => some "keydown"
  | .custom => r.eventName
  | .timer => none

/-- Where a rule listens: at its anchor, or else on the window for keys and at the element that
holds all others for everything else. -/
def place (r : Reaction) (elements : Elements) : Place :=
  match r.anchor.bind elements.resolve? with
  | some id => .element id
  | none => if r.event = .key then .window else .element Elements.root

/-- The key that a rule waits for. -/
def keyFilter (r : Reaction) : Option String :=
  if r.event = .key then r.key else none

/-- The listener that a rule becomes, but for its number. -/
def listener? (r : Reaction) (elements : Elements) (setting : Setting) : Option (Nat → Listener) :=
  r.native?.map fun name id =>
    ⟨id, r.place elements, name, r.keyFilter, r.actions, setting⟩

/-- Whether a rule is a timer. -/
def isTimer (r : Reaction) : Bool :=
  r.event = .timer

/-- How long a timer waits, in milliseconds. -/
def delay (r : Reaction) : Nat :=
  r.delayMs.getD 0

end Reaction

/-- The listeners of a host, in the order in which they came. -/
structure Host where
  /-- The number of the next listener. -/
  next : Nat := 0
  listeners : List Listener := []
deriving Repr, Inhabited

namespace Host

/-- Adds listeners in order, and tells their numbers. -/
def attach (h : Host) : List (Nat → Listener) → Host × List Nat
  | [] => (h, [])
  | l :: ls =>
    let (h', ids) := attach ⟨h.next + 1, h.listeners ++ [l h.next]⟩ ls
    (h', h.next :: ids)

/-- Takes listeners away. -/
def detach (h : Host) (ids : List Nat) : Host :=
  { h with listeners := h.listeners.filter fun l => !ids.contains l.id }

/-- The listeners that an event is delivered to. -/
def matching (h : Host) (e : HostEvent) : List Listener :=
  h.listeners.filter (·.hears e)

end Host

/-- The listeners and timers that were put up together. -/
structure Rig where
  listeners : List Nat := []
  /-- The tasks of the timers, whether or not they have elapsed. -/
  timers : List Nat := []
deriving DecidableEq, Repr, Inhabited

end DiagramTour
