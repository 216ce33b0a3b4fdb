import DiagramTour.Json.Basic
import DiagramTour.Program.Basic

/-!
# Documents

What a player plays: steps in order, each with actions to run when it is entered and rules that
hold while it is current, and rules that hold throughout.  A document is compiled from a program or
loaded from JSON.
-/

namespace DiagramTour

/-- An instruction, which a handler of its kind carries out. -/
structure Action where
  kind : String
  payload : Option Json
deriving Repr, Inhabited

/-- A set of elements as a document names it; `*` stands for every element of a kind. -/
inductive TargetSpec where
  | element (kind : ElementKind) (id : String)
  | edge (id source destination : Option String)
  | matching (key : TextKey) (value : String)
  | several (how : Combination) (targets : List TargetSpec)
  | except (base removed : TargetSpec)
deriving Repr, Inhabited

/-- What a rule listens on: a selector of the host, or a set of elements. -/
inductive Anchor where
  | selector (text : String)
  | spec (target : TargetSpec)
deriving Repr, Inhabited

/-- Actions to run when an event happens. -/
structure Reaction where
  event : EventKind
  anchor : Option Anchor
  /-- The key that is listened for. -/
  key : Option String
  /-- The delay of a timer in milliseconds. -/
  delayMs : Option Nat
  /-- The name of an event of the host. -/
  eventName : Option String
  actions : List Action
deriving Repr, Inhabited

/-- What a failing action means for those after it. -/
inductive ErrorPolicy where
  /-- The first failure ends the batch. -/
  | haltOnError
  /-- Failures are collected, and every action runs. -/
  | continueOnError
deriving DecidableEq, Repr, Inhabited

/-- The word for a policy. -/
def ErrorPolicy.name : ErrorPolicy → String
  | haltOnError => "haltOnError"
  | continueOnError => "continueOnError"

/-- The policy that a word stands for. -/
def ErrorPolicy.ofName? : String → Option ErrorPolicy
  | "haltOnError" => some haltOnError
  | "continueOnError" => some continueOnError
  | _ => none

/-- One stop of a tour. -/
structure Stop where
  id : String
  name : Option String
  actions : List Action
  reactions : List Reaction
  /-- The policy for the actions of the stop, if it is not that of the player. -/
  errorPolicy : Option ErrorPolicy
  /-- Free-form metadata, by key. -/
  metadata : List (String × Json)
deriving Repr, Inhabited

/-- The source of the diagram that a tour shows. -/
structure DiagramSpec where
  kind : String
  source : String
  name : Option String
  config : Option Json
deriving Repr, Inhabited

/-- A tour. -/
structure Document where
  stops : List Stop
  /-- Rules that hold throughout. -/
  reactions : List Reaction
  diagram : Option DiagramSpec
  /-- Free-form metadata, by key. -/
  metadata : List (String × Json)
deriving Repr, Inhabited

namespace Document

/-- A tour without stops. -/
def empty : Document :=
  ⟨[], [], none, []⟩

/-- The actions of a tour, in the order in which they are written: those of its stops, and then
those of the reactions that hold throughout and of its stops. -/
def actions (d : Document) : List Action :=
  d.stops.flatMap Stop.actions ++ (d.reactions ++ d.stops.flatMap Stop.reactions).flatMap Reaction.actions

/-- How much there is to do in a tour: its stops, reactions and actions. -/
def size (d : Document) : Nat :=
  d.stops.length + d.reactions.length + (d.stops.flatMap Stop.reactions).length + d.actions.length

/-- The place of the stop with an id. -/
def stopIndex? (d : Document) (id : String) : Option Nat :=
  d.stops.findIdx? fun s => s.id == id

end Document

/-- What is wrong with the ids of a document. -/
inductive IdError where
  /-- Two stops share an id. -/
  | duplicate (id : String)
  /-- The stop at a place has no id. -/
  | empty (index : Nat)
deriving DecidableEq, Repr

/-- The sentence that tells the error. -/
def IdError.message : IdError → String
  | duplicate id => "Duplicate step id '" ++ id ++ "'"
  | empty index => "Step " ++ toString index ++ " has an empty id"

/-- The first error in the ids of stops, of which the first is at `index`; `seen` are the ids
before. -/
def findIdError (seen : List String) (index : Nat) : List Stop → Option IdError
  | [] => none
  | s :: rest =>
    if s.id = "" then some (.empty index)
    else if seen.contains s.id then some (.duplicate s.id)
    else findIdError (s.id :: seen) (index + 1) rest

/-- The first error in the ids of a document. -/
def Document.idError? (d : Document) : Option IdError :=
  findIdError [] 0 d.stops

end DiagramTour
