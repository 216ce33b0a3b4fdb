import DiagramTour.Json.Field
import DiagramTour.Program.Json

/-!
# Syntax trees from JSON

The inverse of writing a tree as JSON.  Keys that are not known are ignored, and a missing key
reads as null.
-/

namespace DiagramTour

open Json

/-! ## Places -/

/-- A position from JSON. -/
def Position.ofJson? (j : Json) : Option Position := do
  match ← values? ["offset", "line", "column"] j with
  | [offset, line, column] =>
    return ⟨← required nat? offset, ← required nat? line, ← required nat? column⟩
  | _ => none

/-- A span from JSON. -/
def Span.ofJson? (j : Json) : Option Span := do
  match ← values? ["start", "end"] j with
  | [start, stop] => return ⟨← required Position.ofJson? start, ← required Position.ofJson? stop⟩
  | _ => none

/-! ## Targets -/

/-- A reference from JSON. -/
def ElementRef.ofJson? : Json → Option ElementRef
  | .str "Wildcard" => some .wildcard
  | .obj [("Id", .str id)] => some (.named id)
  | .obj [("Wildcard", .null)] | .obj [("Wildcard", .obj [])] => some .wildcard
  | _ => none

/-- An edge from JSON. -/
def EdgeRef.ofJson? : Json → Option EdgeRef
  | .obj [("Id", ref)] => (ElementRef.ofJson? ref).map .byId
  | .obj [("Between", .arr [source, destination])] => do
    return .between (← ElementRef.ofJson? source) (← ElementRef.ofJson? destination)
  | _ => none

namespace Target

/-- The kind that a name stands for. -/
def headOfTag? : String → Option TargetHead
  | "Node" => some (.element .node)
  | "Edge" => some .edge
  | "Subgraph" => some (.element .subgraph)
  | "Css" => some (.matching .css)
  | "Id" => some (.matching .id)
  | "Text" => some (.matching .text)
  | "Group" => some (.several .group)
  | "Union" => some (.several .union)
  | "Intersect" => some (.several .intersect)
  | "Except" => some .except
  | _ => none

/-- A target from JSON; `fuel` bounds its depth. -/
def ofJsonWithin : Nat → Json → Option Target
  | 0, _ => none
  | fuel + 1, j => do
    match ← values? ["kind", "span"] j with
    | [some kind, some span] =>
      let span ← Span.ofJson? span
      let (head, value) ← valued? "type" "value" headOfTag? kind
      let value ← value
      match head with
      | .element kind => return .element kind (← ElementRef.ofJson? value) span
      | .edge => return .edge (← EdgeRef.ofJson? value) span
      | .matching key => return .matching key (← text? value) span
      | .several how => return .several how (← list? (ofJsonWithin fuel) value) span
      | .except =>
        match value with
        | .arr [base, removed] =>
          return .except (← ofJsonWithin fuel base) (← ofJsonWithin fuel removed) span
        | _ => none
    | _ => none

/-- A target from JSON. -/
def ofJson? (j : Json) : Option Target :=
  ofJsonWithin j.depth j

end Target

/-! ## Expressions -/

/-- The value of a literal from JSON. -/
def LiteralValue.ofJson? (j : Json) : Option LiteralValue := do
  let (tag, value) ← valued? "kind" "value" some j
  match tag with
  | "number" => return .number (← required float? value)
  | "int" => return .int (← required int64? value)
  | "duration" => return .duration (← required float? value)
  | "percent" => return .percent (← required float? value)
  | "boolean" => return .boolean (← required bool? value)
  | "null" => match value with
    | none | some .null => return .null
    | some _ => none
  | "string" => return .string (← required text? value)
  | "color" => return .color (← required text? value)
  | _ => none

/-- A literal from JSON. -/
def Literal.ofJson? (j : Json) : Option Literal := do
  match ← values? ["value", "raw"] j with
  | [value, raw] => return ⟨← required LiteralValue.ofJson? value, ← required text? raw⟩
  | _ => none

/-- The operator of one operand with a name. -/
def UnaryOp.ofTag? : String → Option UnaryOp
  | "Not" => some .not
  | "Neg" => some .neg
  | _ => none

/-- The operators of two operands, the weakest first. -/
def BinaryOp.all : List BinaryOp :=
  [.or, .and, .eq, .ne, .lt, .le, .gt, .ge, .add, .sub, .mul, .div, .rem]

/-- The operator of two operands with a name. -/
def BinaryOp.ofTag? (tag : String) : Option BinaryOp :=
  all.find? fun op => op.tag == tag

/-- An entry whose value is of a shape. -/
def Entry.ofJson? (part : Json → Option α) (j : Json) : Option (Entry α) := do
  match ← values? ["key", "value", "span"] j with
  | [key, value, span] =>
    return ⟨← required text? key, ← required part value, ← required Span.ofJson? span⟩
  | _ => none

/-- An argument whose value is of a shape. -/
def Argument.ofJson? (part : Json → Option α) (j : Json) : Option (Argument α) := do
  match ← values? ["name", "value"] j with
  | [name, value] => return ⟨← optional? text? name, ← required part value⟩
  | _ => none

/-- A call with arguments of a shape. -/
def Call.ofJson? (part : Json → Option α) (j : Json) : Option (Call α) := do
  match ← values? ["callee", "args"] j with
  | [callee, args] =>
    return ⟨← required text? callee, ← required (list? (Argument.ofJson? part)) args⟩
  | _ => none

namespace Expr

/-- The names of the kinds of expression, in order. -/
def tags : List String :=
  ["Literal", "Var", "Object", "Array", "Call", "Unary", "Binary", "Target"]

/-- An expression from JSON; `fuel` bounds its depth. -/
def ofJsonWithin : Nat → Json → Option Expr
  | 0, _ => none
  | fuel + 1, j => do
    match ← values? ["kind", "span"] j with
    | [some kind, some span] =>
      let span ← Span.ofJson? span
      let (tag, content) ← tagged? "type" (tagOf? tags) kind
      match tag with
      | "Literal" => return .literal (← Literal.ofJson? content) span
      | "Var" =>
        match ← values? ["path"] content with
        | [path] => return .var (← required (list? text?) path) span
        | _ => none
      | "Object" =>
        match ← values? ["entries"] content with
        | [entries] =>
          return .object (← required (list? (Entry.ofJson? (ofJsonWithin fuel))) entries) span
        | _ => none
      | "Array" =>
        match ← values? ["items"] content with
        | [items] => return .array (← required (list? (ofJsonWithin fuel)) items) span
        | _ => none
      | "Call" => return .call (← Call.ofJson? (ofJsonWithin fuel) content) span
      | "Unary" =>
        match ← values? ["op", "operand"] content with
        | [op, operand] =>
          return .unary (← required (name? UnaryOp.ofTag?) op)
            (← required (ofJsonWithin fuel) operand) span
        | _ => none
      | "Binary" =>
        match ← values? ["op", "left", "right"] content with
        | [op, left, right] =>
          return .binary (← required (name? BinaryOp.ofTag?) op)
            (← required (ofJsonWithin fuel) left) (← required (ofJsonWithin fuel) right) span
        | _ => none
      | "Target" => return .target (← Target.ofJson? content) span
      | _ => none
    | _ => none

/-- An expression from JSON. -/
def ofJson? (j : Json) : Option Expr :=
  ofJsonWithin j.depth j

end Expr

/-- Entries from JSON. -/
def entriesOfJson? (j : Json) : Option (List (Entry Expr)) :=
  list? (Entry.ofJson? Expr.ofJson?) j

/-! ## Statements and bindings -/

/-- A definition from JSON. -/
def Definition.ofJson? (j : Json) : Option Definition := do
  match ← values? ["name", "value", "span"] j with
  | [name, value, span] =>
    return ⟨← required text? name, ← required Expr.ofJson? value, ← required Span.ofJson? span⟩
  | _ => none

/-- A list of entries with a span from JSON. -/
def Metadata.ofJson? (j : Json) : Option Metadata := do
  match ← values? ["entries", "span"] j with
  | [entries, span] => return ⟨← required entriesOfJson? entries, ← required Span.ofJson? span⟩
  | _ => none

/-- The names of the kinds of statement, in order. -/
def StatementKind.tags : List String :=
  ["Focus", "Do", "Let", "Assert", "Meta"]

/-- What a statement does, from JSON. -/
def StatementKind.ofJson? (j : Json) : Option StatementKind := do
  let (tag, content) ← tagged? "type" (tagOf? tags) j
  match tag with
  | "Focus" =>
    match ← values? ["target", "pad", "align", "lock"] content with
    | [target, pad, align, lock] =>
      return .focus ⟨← required Target.ofJson? target, ← optional? Expr.ofJson? pad,
        ← optional? text? align, ← optional? Expr.ofJson? lock⟩
    | _ => none
  | "Do" => return .call (← Call.ofJson? Expr.ofJson? content)
  | "Let" => return .define (← Definition.ofJson? content)
  | "Assert" =>
    match ← values? ["condition", "message"] content with
    | [condition, message] =>
      return .assert (← required Expr.ofJson? condition) (← optional? Expr.ofJson? message)
    | _ => none
  | "Meta" => return .metadata (← Metadata.ofJson? content)
  | _ => none

/-- A statement from JSON. -/
def Statement.ofJson? (j : Json) : Option Statement := do
  match ← values? ["kind", "span"] j with
  | [kind, span] => return ⟨← required StatementKind.ofJson? kind, ← required Span.ofJson? span⟩
  | _ => none

/-- What a rule listens for, from JSON. -/
def EventSpec.ofJson? (j : Json) : Option EventSpec := do
  match ← values? ["kind", "key", "delay", "name", "span"] j with
  | [kind, key, delay, name, span] =>
    return ⟨← optional? (name? EventKind.ofName?) kind, ← optional? text? key,
      ← optional? Literal.ofJson? delay, ← optional? text? name, ← required Span.ofJson? span⟩
  | _ => none

/-- A rule from JSON. -/
def Rule.ofJson? (j : Json) : Option Rule := do
  match ← values? ["event", "target", "when", "actions", "span"] j with
  | [event, target, guard, actions, span] =>
    return ⟨← required EventSpec.ofJson? event, ← optional? Target.ofJson? target,
      ← optional? Expr.ofJson? guard, ← required (list? Statement.ofJson?) actions,
      ← required Span.ofJson? span⟩
  | _ => none

/-- A binding from JSON. -/
def Binding.ofJson? (j : Json) : Option Binding := do
  match ← values? ["name", "priority", "rules", "span"] j with
  | [name, priority, rules, span] =>
    return ⟨← optional? text? name, ← optional? int64? priority,
      ← required (list? Rule.ofJson?) rules, ← required Span.ofJson? span⟩
  | _ => none

/-! ## Declarations -/

/-- A step from JSON. -/
def Step.ofJson? (j : Json) : Option Step := do
  match ← values? ["name", "title", "statements", "bindings", "span"] j with
  | [name, title, statements, bindings, span] =>
    return ⟨← required text? name, ← optional? text? title,
      ← required (list? Statement.ofJson?) statements, ← required (list? Binding.ofJson?) bindings,
      ← required Span.ofJson? span⟩
  | _ => none

/-- A scene from JSON. -/
def Scene.ofJson? (j : Json) : Option Scene := do
  match ← values? ["name", "steps", "span"] j with
  | [name, steps, span] =>
    return ⟨← optional? text? name, ← required (list? Step.ofJson?) steps,
      ← required Span.ofJson? span⟩
  | _ => none

/-- The text of a diagram from JSON. -/
def DiagramSource.ofJson? : Json → Option DiagramSource
  | .obj [("Heredoc", content)] => do
    match ← values? ["tag", "body"] content with
    | [tag, body] => return .heredoc (← required text? tag) (← required text? body)
    | _ => none
  | .obj [("String", .str text)] => some (.quoted text)
  | _ => none

/-- A diagram from JSON. -/
def Diagram.ofJson? (j : Json) : Option Diagram := do
  match ← values? ["name", "source", "config", "assets", "span"] j with
  | [name, source, config, assets, span] =>
    return ⟨← optional? text? name, ← optional? DiagramSource.ofJson? source,
      ← optional? Expr.ofJson? config, ← optional? Expr.ofJson? assets,
      ← required Span.ofJson? span⟩
  | _ => none

/-- The part of the player with a name. -/
def SectionKind.ofName? : String → Option SectionKind
  | "camera" => some .camera
  | "overlay" => some .overlay
  | "navigation" => some .navigation
  | "performance" => some .performance
  | _ => none

/-- The settings of one part of the player from JSON. -/
def RuntimeSection.ofJson? (j : Json) : Option RuntimeSection := do
  match ← values? ["kind", "entries", "span"] j with
  | [kind, entries, span] =>
    return ⟨← required (name? SectionKind.ofName?) kind, ← required entriesOfJson? entries,
      ← required Span.ofJson? span⟩
  | _ => none

/-- Settings of the player from JSON. -/
def Runtime.ofJson? (j : Json) : Option Runtime := do
  match ← values? ["sections", "span"] j with
  | [sections, span] =>
    return ⟨← required (list? RuntimeSection.ofJson?) sections, ← required Span.ofJson? span⟩
  | _ => none

/-- A named target from JSON. -/
def Selector.ofJson? (j : Json) : Option Selector := do
  match ← values? ["name", "target", "span"] j with
  | [name, target, span] =>
    return ⟨← required text? name, ← required Target.ofJson? target, ← required Span.ofJson? span⟩
  | _ => none

/-- Named targets from JSON. -/
def Selectors.ofJson? (j : Json) : Option Selectors := do
  match ← values? ["entries", "span"] j with
  | [entries, span] =>
    return ⟨← required (list? Selector.ofJson?) entries, ← required Span.ofJson? span⟩
  | _ => none

/-- Named style values from JSON. -/
def Styles.ofJson? (j : Json) : Option Styles := do
  match ← values? ["entries", "span"] j with
  | [entries, span] => return ⟨← required entriesOfJson? entries, ← required Span.ofJson? span⟩
  | _ => none

/-- A plugin from JSON. -/
def Plugin.ofJson? (j : Json) : Option Plugin := do
  match ← values? ["source", "alias", "options", "span"] j with
  | [source, localName, options, span] =>
    return ⟨← required text? source, ← optional? text? localName, ← optional? Expr.ofJson? options,
      ← required Span.ofJson? span⟩
  | _ => none

/-- A block that is not understood, from JSON. -/
def UnknownBlock.ofJson? (j : Json) : Option UnknownBlock := do
  match ← values? ["name", "raw", "span"] j with
  | [name, raw, span] =>
    return ⟨← required text? name, ← required text? raw, ← required Span.ofJson? span⟩
  | _ => none

namespace Item

/-- The names of the kinds of declaration, in order. -/
def tags : List String :=
  ["Deck", "Diagram", "Runtime", "Selectors", "Styles", "Const", "Scene", "Binding", "Plugin",
   "Meta", "Unknown"]

/-- A declaration from JSON; `fuel` bounds its depth. -/
def ofJsonWithin : Nat → Json → Option Item
  | 0, _ => none
  | fuel + 1, j => do
    let (tag, content) ← tagged? "type" (tagOf? tags) j
    match tag with
    | "Deck" =>
      match ← values? ["items", "span"] content with
      | [items, span] =>
        return .deck (← required (list? (ofJsonWithin fuel)) items) (← required Span.ofJson? span)
      | _ => none
    | "Diagram" => return .diagram (← Diagram.ofJson? content)
    | "Runtime" => return .runtime (← Runtime.ofJson? content)
    | "Selectors" => return .selectors (← Selectors.ofJson? content)
    | "Styles" => return .styles (← Styles.ofJson? content)
    | "Const" => return .define (← Definition.ofJson? content)
    | "Scene" => return .scene (← Scene.ofJson? content)
    | "Binding" => return .binding (← Binding.ofJson? content)
    | "Plugin" => return .plugin (← Plugin.ofJson? content)
    | "Meta" => return .metadata (← Metadata.ofJson? content)
    | "Unknown" => return .unknown (← UnknownBlock.ofJson? content)
    | _ => none

/-- Whether the kind of a declaration is given by name. -/
def hasNamedTag : Json → Bool
  | .obj fields => ((lookup "type" fields).bind text?).isSome
  | .arr (.str _ :: _) => true
  | _ => false

/-- A declaration from JSON.  Its own kind is given by name; only what it holds may give a kind by
place. -/
def ofJson? (j : Json) : Option Item :=
  if hasNamedTag j then ofJsonWithin j.depth j else none

end Item

/-- A version from JSON. -/
def Version.ofJson? (j : Json) : Option Version := do
  match ← values? ["raw", "parts", "span"] j with
  | [raw, parts, span] =>
    return ⟨← required text? raw, ← required (list? nat?) parts, ← required Span.ofJson? span⟩
  | _ => none

/-- A program from JSON. -/
def Program.ofJson? (j : Json) : Option Program := do
  match ← values? ["version", "items", "span"] j with
  | [version, items, span] =>
    return ⟨← required Version.ofJson? version, ← required (list? Item.ofJson?) items,
      ← required Span.ofJson? span⟩
  | _ => none

end DiagramTour
