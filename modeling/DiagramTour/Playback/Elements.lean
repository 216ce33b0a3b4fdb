import DiagramTour.Document.Basic

/-!
# The elements of a diagram

A diagram that is not drawn is known by the ids of its elements.  An edge between two nodes has
their names with an arrow between them for its id.
-/

namespace DiagramTour

/-- The ids of the elements of a diagram. -/
structure Elements where
  ids : List String
deriving DecidableEq, Repr, Inhabited

namespace Elements

/-- The element that holds all others. -/
def root : String := "diagram-root"

/-- An id, if there is such an element. -/
def find? (e : Elements) (id : String) : Option String :=
  if e.ids.contains id then some id else none

/-- The id of the edge between two nodes. -/
def edgeId (source destination : String) : String :=
  source ++ "->" ++ destination

/-- A selector without the number signs at its head. -/
def trimSelector (selector : String) : String :=
  String.ofList (selector.toList.dropWhile (· == '#'))

/-- The one element that a target stands for. -/
def resolveSpec? (e : Elements) : TargetSpec → Option String
  | .element _ id => e.find? id
  | .matching .id id => e.find? id
  | .edge (some id) _ _ => e.find? id
  | .edge none (some source) (some destination) => e.find? (edgeId source destination)
  | _ => none

/-- The one element that an anchor stands for. -/
def resolve? (e : Elements) : Anchor → Option String
  | .selector selector => e.find? (trimSelector selector)
  | .spec target => e.resolveSpec? target

end Elements

end DiagramTour
