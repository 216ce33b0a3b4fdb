import DiagramTour.Json.Places
import DiagramTour.Program.Basic

/-!
# Syntax trees as JSON

Every node of a tree has one JSON form.  Declarations, statements and expressions carry the name of
their kind under `type` beside their own fields; literals and targets carry theirs beside a value.
What is missing is null.
-/

namespace DiagramTour

/-- A missing text is null. -/
def Json.optionalText : Option String → Json :=
  Json.optional .str

/-! ## Targets -/

/-- A reference, by name or as a wildcard. -/
def ElementRef.toJson : ElementRef → Json
  | named id => .obj [("Id", .str id)]
  | wildcard => .str "Wildcard"

/-- An edge, by its name or by its two nodes. -/
def EdgeRef.toJson : EdgeRef → Json
  | byId ref => .obj [("Id", ref.toJson)]
  | between source destination =>
    .obj [("Between", .arr [source.toJson, destination.toJson])]

/-- The name of the kind of a target by one reference. -/
def ElementKind.tag : ElementKind → String
  | node => "Node"
  | subgraph => "Subgraph"

/-- The name of the kind of a target by a text. -/
def TextKey.tag : TextKey → String
  | css => "Css"
  | id => "Id"
  | text => "Text"

/-- The name of the kind of a combination. -/
def Combination.tag : Combination → String
  | group => "Group"
  | union => "Union"
  | intersect => "Intersect"

namespace Target

/-- A target with its kind and value, and the span beside them. -/
def node (tag : String) (value : Json) (span : Span) : Json :=
  .obj [("kind", .obj [("type", .str tag), ("value", value)]), ("span", span.toJson)]

mutual

/-- The form of a target. -/
def toJson : Target → Json
  | element kind ref span => node kind.tag ref.toJson span
  | edge ref span => node "Edge" ref.toJson span
  | matching key value span => node key.tag (.str value) span
  | several how members span => node how.tag (.arr (membersToJson members)) span
  | except base removed span => node "Except" (.arr [base.toJson, removed.toJson]) span

/-- The forms of several targets. -/
def membersToJson : List Target → List Json
  | [] => []
  | t :: ts => t.toJson :: membersToJson ts

end

end Target

/-! ## Expressions -/

/-- The kind and the value of a literal. -/
def LiteralValue.toJson : LiteralValue → Json
  | number x => kinded "number" (.ofFloat x)
  | int n => kinded "int" (.int n.toInt)
  | duration ms => kinded "duration" (.ofFloat ms)
  | percent x => kinded "percent" (.ofFloat x)
  | boolean b => kinded "boolean" (.bool b)
  | null => .obj [("kind", .str "null")]
  | string s => kinded "string" (.str s)
  | color s => kinded "color" (.str s)
where
  /-- A value beside the name of its kind. -/
  kinded (kind : String) (value : Json) : Json := .obj [("kind", .str kind), ("value", value)]

/-- The fields of a literal. -/
def Literal.fields (l : Literal) : List (String × Json) :=
  [("value", l.value.toJson), ("raw", .str l.raw)]

/-- The name of an operator of one operand. -/
def UnaryOp.tag : UnaryOp → String
  | not => "Not"
  | neg => "Neg"

/-- The name of an operator of two operands. -/
def BinaryOp.tag : BinaryOp → String
  | or => "Or"
  | and => "And"
  | eq => "Eq"
  | ne => "Ne"
  | lt => "Lt"
  | le => "Le"
  | gt => "Gt"
  | ge => "Ge"
  | add => "Add"
  | sub => "Sub"
  | mul => "Mul"
  | div => "Div"
  | rem => "Rem"

namespace Expr

/-- An expression with the fields of its kind, and the span beside them. -/
def node (tag : String) (fields : List (String × Json)) (span : Span) : Json :=
  .obj [("kind", .obj (("type", .str tag) :: fields)), ("span", span.toJson)]

mutual

/-- The form of an expression. -/
def toJson : Expr → Json
  | literal l span => node "Literal" l.fields span
  | var path span => node "Var" [("path", .arr (path.map .str))] span
  | object entries span => node "Object" [("entries", .arr (entriesToJson entries))] span
  | array items span => node "Array" [("items", .arr (itemsToJson items))] span
  | call ⟨callee, args⟩ span =>
    node "Call" [("callee", .str callee), ("args", .arr (argsToJson args))] span
  | unary op operand span => node "Unary" [("op", .str op.tag), ("operand", operand.toJson)] span
  | binary op left right span =>
    node "Binary" [("op", .str op.tag), ("left", left.toJson), ("right", right.toJson)] span
  | target t span =>
    .obj [("kind", match t.toJson with
      | .obj fields => .obj (("type", .str "Target") :: fields)
      | j => j), ("span", span.toJson)]

/-- The forms of entries. -/
def entriesToJson : List (Entry Expr) → List Json
  | [] => []
  | ⟨key, value, span⟩ :: rest =>
    .obj [("key", .str key), ("value", value.toJson), ("span", span.toJson)] :: entriesToJson rest

/-- The forms of items. -/
def itemsToJson : List Expr → List Json
  | [] => []
  | e :: rest => e.toJson :: itemsToJson rest

/-- The forms of arguments. -/
def argsToJson : List (Argument Expr) → List Json
  | [] => []
  | ⟨name, value⟩ :: rest =>
    .obj [("name", Json.optionalText name), ("value", value.toJson)] :: argsToJson rest

end

/-- A missing expression is null. -/
def optionToJson : Option Expr → Json :=
  Json.optional toJson

end Expr

/-- The form of entries. -/
def entryList (entries : List (Entry Expr)) : Json :=
  .arr (Expr.entriesToJson entries)

/-! ## Statements and bindings -/

/-- The fields of a definition. -/
def Definition.fields (d : Definition) : List (String × Json) :=
  [("name", .str d.name), ("value", d.value.toJson), ("span", d.span.toJson)]

/-- The fields of metadata. -/
def Metadata.fields (m : Metadata) : List (String × Json) :=
  [("entries", entryList m.entries), ("span", m.span.toJson)]

/-- An object with the name of a kind beside its fields. -/
def Json.typed (tag : String) (fields : List (String × Json)) : Json :=
  .obj (("type", .str tag) :: fields)

/-- The form of what a statement does. -/
def StatementKind.toJson : StatementKind → Json
  | focus f => .typed "Focus" [("target", f.target.toJson), ("pad", Expr.optionToJson f.pad),
      ("align", Json.optionalText f.align), ("lock", Expr.optionToJson f.lock)]
  | call c => .typed "Do" [("callee", .str c.callee), ("args", .arr (Expr.argsToJson c.args))]
  | define d => .typed "Let" d.fields
  | assert condition message => .typed "Assert" [("condition", condition.toJson),
      ("message", Expr.optionToJson message)]
  | metadata m => .typed "Meta" m.fields

/-- The form of a statement. -/
def Statement.toJson (s : Statement) : Json :=
  .obj [("kind", s.kind.toJson), ("span", s.span.toJson)]

/-- The form of statements. -/
def statementList (statements : List Statement) : Json :=
  .arr (statements.map Statement.toJson)

/-- The form of what a rule listens for. -/
def EventSpec.toJson (e : EventSpec) : Json :=
  .obj [("kind", Json.optional (.str ∘ EventKind.name) e.kind), ("key", Json.optionalText e.key),
    ("delay", Json.optional (.obj ∘ Literal.fields) e.delay), ("name", Json.optionalText e.name),
    ("span", e.span.toJson)]

/-- The form of a rule. -/
def Rule.toJson (r : Rule) : Json :=
  .obj [("event", r.event.toJson), ("target", Json.optional Target.toJson r.target),
    ("when", Expr.optionToJson r.guard), ("actions", statementList r.actions),
    ("span", r.span.toJson)]

/-- The fields of a binding. -/
def Binding.fields (b : Binding) : List (String × Json) :=
  [("name", Json.optionalText b.name), ("priority", Json.optional (fun n => .int n.toInt) b.priority),
    ("rules", .arr (b.rules.map Rule.toJson)), ("span", b.span.toJson)]

/-! ## Declarations -/

/-- The form of a step. -/
def Step.toJson (s : Step) : Json :=
  .obj [("name", .str s.name), ("title", Json.optionalText s.title),
    ("statements", statementList s.statements),
    ("bindings", .arr (s.bindings.map fun b => .obj b.fields)), ("span", s.span.toJson)]

/-- The form of the text of a diagram. -/
def DiagramSource.toJson : DiagramSource → Json
  | heredoc tag body => .obj [("Heredoc", .obj [("tag", .str tag), ("body", .str body)])]
  | quoted text => .obj [("String", .str text)]

/-- The form of the settings of one part of the player. -/
def RuntimeSection.toJson (s : RuntimeSection) : Json :=
  .obj [("kind", .str s.kind.name), ("entries", entryList s.entries), ("span", s.span.toJson)]

/-- The form of a named target. -/
def Selector.toJson (s : Selector) : Json :=
  .obj [("name", .str s.name), ("target", s.target.toJson), ("span", s.span.toJson)]

mutual

/-- The form of a declaration. -/
def Item.toJson : Item → Json
  | .deck items span => .typed "Deck" [("items", .arr (Item.listToJson items)), ("span", span.toJson)]
  | .diagram d => .typed "Diagram" [("name", Json.optionalText d.name),
      ("source", Json.optional DiagramSource.toJson d.source),
      ("config", Expr.optionToJson d.config), ("assets", Expr.optionToJson d.assets),
      ("span", d.span.toJson)]
  | .runtime r => .typed "Runtime" [("sections", .arr (r.sections.map RuntimeSection.toJson)),
      ("span", r.span.toJson)]
  | .selectors s => .typed "Selectors" [("entries", .arr (s.entries.map Selector.toJson)),
      ("span", s.span.toJson)]
  | .styles s => .typed "Styles" [("entries", entryList s.entries), ("span", s.span.toJson)]
  | .define d => .typed "Const" d.fields
  | .scene s => .typed "Scene" [("name", Json.optionalText s.name),
      ("steps", .arr (s.steps.map Step.toJson)), ("span", s.span.toJson)]
  | .binding b => .typed "Binding" b.fields
  | .plugin p => .typed "Plugin" [("source", .str p.source), ("alias", Json.optionalText p.localName),
      ("options", Expr.optionToJson p.options), ("span", p.span.toJson)]
  | .metadata m => .typed "Meta" m.fields
  | .unknown u => .typed "Unknown" [("name", .str u.name), ("raw", .str u.raw),
      ("span", u.span.toJson)]

/-- The forms of declarations. -/
def Item.listToJson : List Item → List Json
  | [] => []
  | i :: is => i.toJson :: Item.listToJson is

end

/-- The form of a version. -/
def Version.toJson (v : Version) : Json :=
  .obj [("raw", .str v.raw), ("parts", .arr (v.parts.map .nat)), ("span", v.span.toJson)]

/-- The form of a program. -/
def Program.toJson (p : Program) : Json :=
  .obj [("version", p.version.toJson), ("items", .arr (Item.listToJson p.items)),
    ("span", p.span.toJson)]

end DiagramTour
