import DiagramTour.Playback.Handler

/-!
# Scripted handlers

A script is a list of instructions that a handler follows one after the other, which is enough to
rehearse a tour without anything that is drawn.
-/

namespace DiagramTour

/-- One instruction of a script. -/
inductive Instruction where
  /-- Fail with a message; each context is said before what it is the context of. -/
  | fail (message : String) (contexts : List String)
  | crash (crash : Crash)
  /-- Go somewhere; a failure on the way is a failure of the handler. -/
  | move (move : Move)
  | destroy
  /-- Note where the player stands. -/
  | state
  | unsubscribe (label : String)
  | pause
  | sleep (ms : Nat)
  /-- Deliver an event, and note how many heard it. -/
  | dispatch (event : HostEvent)
  /-- Reset the camera; there has to be one. -/
  | camera
  /-- Clear the overlay; there has to be one. -/
  | overlay
  /-- Note what an anchor stands for. -/
  | resolve (anchor : Anchor)
  /-- An instruction that nobody knows. -/
  | unknown (word : String)
deriving Repr, Inhabited

namespace Instruction

/-- Follows an instruction, and then does the rest.  Without a player nothing can be asked of it. -/
def behaviour (hasPlayer : Bool) (rest : Behaviour) : Instruction → Behaviour
  | fail message contexts => .fail message contexts
  | crash c => .crash c
  | move m =>
    if hasPlayer then
      .perform (.move m) fun
        | none => rest
        | some e => .fail e.message
    else .fail "no controller"
  | destroy =>
    if hasPlayer then .perform .destroy fun _ => rest else .fail "no controller"
  | state =>
    if hasPlayer then
      .perform .state fun s => .perform (.note (.obj [("state", s.toJson)])) fun _ => rest
    else .fail "no controller"
  | unsubscribe label => .perform (.unsubscribe label) fun _ => rest
  | pause => .perform .pause fun _ => rest
  | sleep ms => .perform (.sleep ms) fun _ => rest
  | dispatch event =>
    .perform (.dispatch event) fun n =>
      .perform (.note (.obj [("dispatched", .nat n)])) fun _ => rest
  | camera =>
    .perform .resetCamera fun (found : Bool) => if found then rest else .fail "no camera"
  | overlay =>
    .perform .clearOverlay fun (found : Bool) => if found then rest else .fail "no overlay"
  | resolve anchor =>
    .perform (.resolve anchor) fun id =>
      .perform (.note (.obj [("resolved", .optional .str id)])) fun _ => rest
  | unknown word => .fail ("unknown script op " ++ word)

end Instruction

/-- Follows a script to its end. -/
def Behaviour.ofScript (hasPlayer : Bool) : List Instruction → Behaviour
  | [] => .succeed
  | i :: is => i.behaviour hasPlayer (ofScript hasPlayer is)

/-- The handler that follows a script, whatever it is called with. -/
def Handler.ofScript (hasPlayer : Bool) (script : List Instruction) : Handler :=
  fun _ => Behaviour.ofScript hasPlayer script

end DiagramTour
