import DiagramTour.Json.Field

/-!
# Events

An event happens on an element or on the window.  Whoever listens gets it in a fixed form, together
with the place where it was listened for.
-/

namespace DiagramTour

/-- Where an event happens, and where it is listened for. -/
inductive Place where
  | window
  | element (id : String)
deriving DecidableEq, Repr, Inhabited

/-- The form of a place. -/
def Place.toJson : Place → Json
  | window => .str "window"
  | element id => .obj [("element", .str id)]

/-- A place from JSON. -/
def Place.ofJson? : Json → Option Place
  | .str "window" => some window
  | .obj [("element", .str id)] => some (element id)
  | _ => none

/-- An event as the host delivers it. -/
structure HostEvent where
  name : String
  target : Place
  /-- When it happened, in milliseconds by the clock of the host. -/
  timeStamp : Float
  clientX : Option Float
  clientY : Option Float
  key : Option String
deriving Repr, Inhabited

/-- An event as an action sees it. -/
structure FiredEvent where
  kind : String
  target : Place
  /-- Where it was listened for. -/
  currentTarget : Place
  timeStamp : Float
  clientX : Option Float
  clientY : Option Float
  key : Option String
deriving Repr, Inhabited

namespace FiredEvent

/-- The event of the host, heard at a place. -/
def ofHost (e : HostEvent) (currentTarget : Place) : FiredEvent :=
  ⟨e.name, e.target, currentTarget, e.timeStamp, e.clientX, e.clientY, e.key⟩

/-- The event of a timer, which is stamped with its delay. -/
def ofTimer (place : Place) (delayMs : Nat) : FiredEvent :=
  ⟨"timer", place, place, .ofNat delayMs, none, none, none⟩

/-- The form of an event. -/
def toJson (e : FiredEvent) : Json :=
  .obj ([("type", .str e.kind), ("target", e.target.toJson),
    ("currentTarget", e.currentTarget.toJson), ("timeStamp", .ofFloat e.timeStamp)] ++
    Json.fieldIfSome "clientX" .ofFloat e.clientX ++ Json.fieldIfSome "clientY" .ofFloat e.clientY ++
    Json.fieldIfSome "key" .str e.key)

end FiredEvent

end DiagramTour
