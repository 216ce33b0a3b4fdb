import DiagramTour.Text.Position

/-!
# Targets

A target names elements of a diagram: nodes, edges, subgraphs, elements found by a text, and
combinations of these.
-/

namespace DiagramTour

/-- A reference to an element: by its name, or to every one. -/
inductive ElementRef where
  | named (id : String)
  | wildcard
deriving DecidableEq, Repr, Inhabited

/-- Whether every element is meant. -/
def ElementRef.isWildcard : ElementRef → Bool
  | named _ => false
  | wildcard => true

/-- How an edge is addressed. -/
inductive EdgeRef where
  /-- By the edge's own name. -/
  | byId (ref : ElementRef)
  /-- By the two nodes that it joins. -/
  | between (source destination : ElementRef)
deriving DecidableEq, Repr, Inhabited

/-- The kinds of element that are addressed by one reference. -/
inductive ElementKind where
  | node
  | subgraph
deriving DecidableEq, Repr, Inhabited

/-- What a text that finds elements is compared with. -/
inductive TextKey where
  /-- A selector of styles. -/
  | css
  /-- The id of an element of the drawing. -/
  | id
  /-- The label of an element. -/
  | text
deriving DecidableEq, Repr, Inhabited

/-- How several targets are taken together. -/
inductive Combination where
  | group
  | union
  | intersect
deriving DecidableEq, Repr, Inhabited

/-- The word that introduces an element of the kind. -/
def ElementKind.word : ElementKind → String
  | node => "node"
  | subgraph => "subgraph"

/-- The word that introduces a text. -/
def TextKey.word : TextKey → String
  | css => "css"
  | id => "id"
  | text => "text"

/-- The word that introduces a combination. -/
def Combination.word : Combination → String
  | group => "group"
  | union => "union"
  | intersect => "intersect"

/-- What follows the word that opens a target. -/
inductive TargetHead where
  | element (kind : ElementKind)
  | edge
  | matching (key : TextKey)
  | several (how : Combination)
  | except
deriving DecidableEq, Repr, Inhabited

/-- What a word opens, if it opens a target. -/
def TargetHead.ofWord? : String → Option TargetHead
  | "node" => some (.element .node)
  | "subgraph" => some (.element .subgraph)
  | "edge" => some .edge
  | "css" => some (.matching .css)
  | "id" => some (.matching .id)
  | "text" => some (.matching .text)
  | "group" => some (.several .group)
  | "union" => some (.several .union)
  | "intersect" => some (.several .intersect)
  | "except" => some .except
  | _ => none

/-- A set of elements of a diagram, with the span that it was read from. -/
inductive Target where
  /-- A node or a subgraph. -/
  | element (kind : ElementKind) (ref : ElementRef) (span : Span)
  /-- An edge. -/
  | edge (ref : EdgeRef) (span : Span)
  /-- The elements that a text finds. -/
  | matching (key : TextKey) (value : String) (span : Span)
  /-- Several targets together. -/
  | several (how : Combination) (members : List Target) (span : Span)
  /-- One target without another. -/
  | except (base removed : Target) (span : Span)
deriving Repr, Inhabited

namespace Target

/-- The span that the target was read from. -/
def span : Target → Span
  | element _ _ span | edge _ span | matching _ _ span | several _ _ span | except _ _ span => span

/-- What stands for a target that could not be read: no elements. -/
def placeholder (span : Span) : Target :=
  several .group [] span

/-- Whether the target is every node, every subgraph or every edge. -/
def isWildcard : Target → Bool
  | element _ ref _ => ref.isWildcard
  | edge (.byId ref) _ => ref.isWildcard
  | _ => false

mutual

/-- The target with empty spans. -/
def withoutSpans : Target → Target
  | element kind ref _ => element kind ref default
  | edge ref _ => edge ref default
  | matching key value _ => matching key value default
  | several how members _ => several how (membersWithoutSpans members) default
  | except base removed _ => except base.withoutSpans removed.withoutSpans default

/-- Several targets with empty spans. -/
def membersWithoutSpans : List Target → List Target
  | [] => []
  | t :: ts => t.withoutSpans :: membersWithoutSpans ts

end

end Target

end DiagramTour
