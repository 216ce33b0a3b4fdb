import DiagramTour.Document.Basic
import DiagramTour.Json.Writer

/-!
# Documents as JSON

The fields of a document come in a fixed order; a field that says nothing is left out, except the
lists of steps and of actions.
-/

namespace DiagramTour

/-- The form of an action. -/
def Action.toJson (a : Action) : Json :=
  .obj (("type", .str a.kind) :: Json.fieldIfSome "payload" id a.payload)

/-- The field that holds the text of a target by a text. -/
def TextKey.field : TextKey → String
  | css => "selector"
  | id => "id"
  | text => "text"

namespace TargetSpec

mutual

/-- The form of a target. -/
def toJson : TargetSpec → Json
  | element kind id => .obj [("type", .str kind.word), ("id", .str id)]
  | edge id source destination =>
    .obj (("type", .str "edge") :: (Json.fieldIfSome "id" .str id ++
      Json.fieldIfSome "from" .str source ++ Json.fieldIfSome "to" .str destination))
  | matching key value => .obj [("type", .str key.word), (key.field, .str value)]
  | several how targets => .obj [("type", .str how.word), ("targets", .arr (listToJson targets))]
  | except base removed =>
    .obj [("type", .str "except"), ("base", base.toJson), ("remove", removed.toJson)]

/-- The forms of several targets. -/
def listToJson : List TargetSpec → List Json
  | [] => []
  | t :: ts => t.toJson :: listToJson ts

end

end TargetSpec

/-- The form of what a rule listens on. -/
def Anchor.toJson : Anchor → Json
  | selector text => .str text
  | spec target => target.toJson

/-- The form of a list of actions. -/
def actionList (actions : List Action) : Json :=
  .arr (actions.map Action.toJson)

/-- The form of a rule. -/
def Reaction.toJson (r : Reaction) : Json :=
  .obj (("event", .str r.event.name) :: (Json.fieldIfSome "target" Anchor.toJson r.anchor ++
    Json.fieldIfSome "key" .str r.key ++ Json.fieldIfSome "delayMs" .nat r.delayMs ++
    Json.fieldIfSome "eventName" .str r.eventName ++ [("actions", actionList r.actions)]))

/-- The field of a list of rules. -/
def reactionField (reactions : List Reaction) : List (String × Json) :=
  Json.fieldUnless "bindings" reactions.isEmpty (.arr (reactions.map Reaction.toJson))

/-- The field of metadata. -/
def metadataField (metadata : List (String × Json)) : List (String × Json) :=
  Json.fieldUnless "meta" metadata.isEmpty (.obj metadata)

/-- The form of a stop. -/
def Stop.toJson (s : Stop) : Json :=
  .obj (("id", .str s.id) :: (Json.fieldIfSome "name" .str s.name ++
    ("actions", actionList s.actions) :: (reactionField s.reactions ++
    Json.fieldIfSome "errorPolicy" (.str ∘ ErrorPolicy.name) s.errorPolicy ++
    metadataField s.metadata)))

/-- The form of a diagram. -/
def DiagramSpec.toJson (d : DiagramSpec) : Json :=
  .obj (("kind", .str d.kind) :: ("source", .str d.source) ::
    (Json.fieldIfSome "name" .str d.name ++ Json.fieldIfSome "config" id d.config))

/-- The form of a document. -/
def Document.toJson (d : Document) : Json :=
  .obj (("steps", .arr (d.stops.map Stop.toJson)) :: (reactionField d.reactions ++
    Json.fieldIfSome "diagram" DiagramSpec.toJson d.diagram ++ metadataField d.metadata))

/-- A document over several lines. -/
def Document.pretty (d : Document) : String :=
  d.toJson.pretty

/-- What a document hands to whoever draws its diagram. -/
def Document.renderPayload? (d : Document) : Option Json :=
  d.diagram.map fun diagram => diagram.toJson.settle

end DiagramTour
