import DiagramTour.Playback.Handler

/-!
# Subscriptions

Who subscribes to a topic hears every notice of it, in the order of the subscriptions.  A notice
goes to those who were subscribed when it was announced: whoever comes or goes while it is being
heard makes no difference to it.

## Architecture

- A `Subscriber` answers a notice by `Response`s, which may announce again.
- A `Delivery` is a piece of what is left to do.  Announcing puts the hearings of a notice before
  all that was left, so an announcement made while another one is being heard is heard completely
  before the other goes on.
-/

namespace DiagramTour

/-- What a subscriber does upon a notice. -/
inductive Response where
  /-- Subscribes under a label. -/
  | subscribe (label : String) (topic : Topic) (responses : List Response)
  /-- Ends the subscription that a label stands for. -/
  | unsubscribe (label : String)
  /-- Ends all subscriptions. -/
  | clear
  | announce (notice : Notice)
  /-- Ends the player. -/
  | destroy
  /-- Reads all that was written down, and does what follows from it. -/
  | review (next : List Record → List Response)

/-- A subscription to a topic. -/
structure Subscriber where
  id : Nat
  label : String
  topic : Topic
  responses : List Response

/-- The subscriptions in their order, and the labels by which they can be ended. -/
structure Bus where
  /-- The id of the next subscription. -/
  next : Nat := 0
  subscribers : List Subscriber := []
  /-- The subscription that a label stands for. -/
  labels : List (String × Nat) := []

namespace Bus

/-- Subscribes to a topic; the label stands for the new subscription from now on. -/
def subscribe (b : Bus) (label : String) (topic : Topic) (responses : List Response) : Bus where
  next := b.next + 1
  subscribers := b.subscribers ++ [⟨b.next, label, topic, responses⟩]
  -- The old subscription stays, though no label stands for it
  labels := (label, b.next) :: b.labels.filter (·.1 != label)

/-- Ends one subscription. -/
def unsubscribe (b : Bus) (id : Nat) : Bus :=
  { b with subscribers := b.subscribers.filter (·.id != id) }

/-- The subscription that a label stands for. -/
def idOf? (b : Bus) (label : String) : Option Nat :=
  (b.labels.find? (·.1 == label)).map Prod.snd

/-- Ends the subscription that a label stands for, and forgets the label. -/
def release (b : Bus) (label : String) : Bus :=
  match b.idOf? label with
  | some id => { b.unsubscribe id with labels := b.labels.filter (·.1 != label) }
  | none => b

/-- Ends all subscriptions. -/
def clear (b : Bus) : Bus :=
  { b with subscribers := [] }

/-- Those who hear a notice on a topic. -/
def audience (b : Bus) (topic : Topic) : List Subscriber :=
  b.subscribers.filter (·.topic = topic)

end Bus

/-- A piece of the work that an announcement makes. -/
inductive Delivery where
  | announce (notice : Notice)
  | hear (subscriber : Subscriber) (notice : Notice)
  | respond (response : Response)

namespace Delivery

/-- The announcements of some failures, in order. -/
def ofFailures (errors : List ActionError) : List Delivery :=
  (errors.flatMap Notice.ofFailure).map announce

end Delivery

end DiagramTour
