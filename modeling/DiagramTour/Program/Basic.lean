import DiagramTour.Program.Expr

/-!
# Programs

The syntax tree of a whole source text: its version and its declarations.  Every node carries the
span that it was read from; `withoutSpans` empties them all, so that trees can be compared for what
they say.
-/

namespace DiagramTour

/-! ## Statements -/

/-- A name for a value. -/
structure Definition where
  name : String
  value : Expr
  span : Span
deriving Repr, Inhabited

/-- Free-form settings. -/
structure Metadata where
  entries : List (Entry Expr)
  span : Span
deriving Repr, Inhabited

/-- Where the camera looks, and how. -/
structure Focus where
  target : Target
  /-- Room around the target. -/
  pad : Option Expr
  align : Option String
  /-- Whether the view may be moved meanwhile. -/
  lock : Option Expr
deriving Repr, Inhabited

/-- What a statement does. -/
inductive StatementKind where
  /-- Moves the camera. -/
  | focus (focus : Focus)
  /-- Calls an action. -/
  | call (call : Call Expr)
  /-- Names a value for the statements after it. -/
  | define (definition : Definition)
  /-- Checks a condition when the tour is played. -/
  | assert (condition : Expr) (message : Option Expr)
  /-- Sets metadata of the step. -/
  | metadata (metadata : Metadata)
deriving Repr, Inhabited

/-- A statement of a step or of a rule. -/
structure Statement where
  kind : StatementKind
  span : Span
deriving Repr, Inhabited

/-! ## Bindings -/

/-- What a rule listens for. -/
inductive EventKind where
  /-- A pointer is pressed. -/
  | click
  /-- A pointer enters. -/
  | hover
  /-- A key is pressed. -/
  | key
  /-- A delay has passed, once. -/
  | timer
  /-- An event that the host names. -/
  | custom
deriving DecidableEq, Repr, Inhabited

namespace EventKind

/-- Every kind, in order. -/
def all : List EventKind :=
  [click, hover, key, timer, custom]

/-- The word for a kind. -/
def name : EventKind → String
  | click => "click"
  | hover => "hover"
  | key => "key"
  | timer => "timer"
  | custom => "custom"

/-- The kind that a word stands for. -/
def ofName? (word : String) : Option EventKind :=
  all.find? fun k => k.name == word

end EventKind

/-- What a rule listens for, with what narrows it down.  The kind is missing where the word was no
kind. -/
structure EventSpec where
  kind : Option EventKind
  /-- The key that is listened for. -/
  key : Option String
  /-- The delay of a timer. -/
  delay : Option Literal
  /-- The name of an event of the host. -/
  name : Option String
  span : Span
deriving Repr, Inhabited

/-- An event, and the statements that it sets off. -/
structure Rule where
  event : EventSpec
  /-- The elements that are listened on. -/
  target : Option Target
  guard : Option Expr
  actions : List Statement
  span : Span
deriving Repr, Inhabited

/-- Rules that are bound together; a higher priority is bound first. -/
structure Binding where
  name : Option String
  priority : Option Int64
  rules : List Rule
  span : Span
deriving Repr, Inhabited

/-! ## Declarations -/

/-- One stop of the tour. -/
structure Step where
  name : String
  title : Option String
  statements : List Statement
  bindings : List Binding
  span : Span
deriving Repr, Inhabited

/-- A sequence of steps. -/
structure Scene where
  name : Option String
  steps : List Step
  span : Span
deriving Repr, Inhabited

/-- The text of a diagram, as it was quoted. -/
inductive DiagramSource where
  /-- A raw block. -/
  | heredoc (tag body : String)
  /-- A string. -/
  | quoted (text : String)
deriving DecidableEq, Repr, Inhabited

/-- The text of a diagram, however it was quoted. -/
def DiagramSource.text : DiagramSource → String
  | heredoc _ body => body
  | quoted text => text

/-- A diagram with its settings. -/
structure Diagram where
  name : Option String
  source : Option DiagramSource
  config : Option Expr
  assets : Option Expr
  span : Span
deriving Repr, Inhabited

/-- The parts of the player that a program can configure. -/
inductive SectionKind where
  | camera
  | overlay
  | navigation
  | performance
deriving DecidableEq, Repr, Inhabited

/-- The word for a part. -/
def SectionKind.name : SectionKind → String
  | camera => "camera"
  | overlay => "overlay"
  | navigation => "navigation"
  | performance => "performance"

/-- The settings of one part of the player. -/
structure RuntimeSection where
  kind : SectionKind
  entries : List (Entry Expr)
  span : Span
deriving Repr, Inhabited

/-- Settings of the player. -/
structure Runtime where
  sections : List RuntimeSection
  span : Span
deriving Repr, Inhabited

/-- A name for a target. -/
structure Selector where
  name : String
  target : Target
  span : Span
deriving Repr, Inhabited

/-- Named targets. -/
structure Selectors where
  entries : List Selector
  span : Span
deriving Repr, Inhabited

/-- Named style values. -/
structure Styles where
  entries : List (Entry Expr)
  span : Span
deriving Repr, Inhabited

/-- A plugin that the tour wants. -/
structure Plugin where
  source : String
  localName : Option String
  options : Option Expr
  span : Span
deriving Repr, Inhabited

/-- A declaration that is not understood and kept as it was written. -/
structure UnknownBlock where
  name : String
  /-- What follows the name, verbatim. -/
  raw : String
  span : Span
deriving Repr, Inhabited

/-- A declaration. -/
inductive Item where
  | deck (items : List Item) (span : Span)
  | diagram (diagram : Diagram)
  | runtime (runtime : Runtime)
  | selectors (selectors : Selectors)
  | styles (styles : Styles)
  | define (definition : Definition)
  | scene (scene : Scene)
  | binding (binding : Binding)
  | plugin (plugin : Plugin)
  | metadata (metadata : Metadata)
  | unknown (block : UnknownBlock)
deriving Repr, Inhabited

/-- The span that a declaration was read from. -/
def Item.span : Item → Span
  | deck _ span => span
  | diagram d => d.span
  | runtime r => r.span
  | selectors s => s.span
  | styles s => s.span
  | define d => d.span
  | scene s => s.span
  | binding b => b.span
  | plugin p => p.span
  | metadata m => m.span
  | unknown u => u.span

/-- A version number with its parts. -/
structure Version where
  raw : String
  parts : List Nat
  span : Span
deriving DecidableEq, Repr, Inhabited

/-- A whole source text. -/
structure Program where
  version : Version
  items : List Item
  span : Span
deriving Repr, Inhabited

/-- The declarations that make up the tour: those of the decks at the top, and those that stand
beside them. -/
def Program.deckItems (p : Program) : List Item :=
  p.items.flatMap fun
    | .deck items _ => items
    | item => [item]

/-! ## Trees without spans -/

/-- The definition with empty spans. -/
def Definition.withoutSpans (d : Definition) : Definition :=
  { d with value := d.value.withoutSpans, span := default }

/-- The metadata with empty spans. -/
def Metadata.withoutSpans (m : Metadata) : Metadata :=
  ⟨Expr.entriesWithoutSpans m.entries, default⟩

/-- The statement with empty spans. -/
def StatementKind.withoutSpans : StatementKind → StatementKind
  | focus f => focus
      { f with target := f.target.withoutSpans, pad := f.pad.map Expr.withoutSpans,
               lock := f.lock.map Expr.withoutSpans }
  | call c => call c.withoutSpans
  | define d => define d.withoutSpans
  | assert condition message => assert condition.withoutSpans (message.map Expr.withoutSpans)
  | metadata m => metadata m.withoutSpans

/-- The statement with empty spans. -/
def Statement.withoutSpans (s : Statement) : Statement :=
  ⟨s.kind.withoutSpans, default⟩

/-- The rule with empty spans. -/
def Rule.withoutSpans (r : Rule) : Rule where
  event := { r.event with span := default }
  target := r.target.map Target.withoutSpans
  guard := r.guard.map Expr.withoutSpans
  actions := r.actions.map Statement.withoutSpans
  span := default

/-- The binding with empty spans. -/
def Binding.withoutSpans (b : Binding) : Binding :=
  { b with rules := b.rules.map Rule.withoutSpans, span := default }

/-- The step with empty spans. -/
def Step.withoutSpans (s : Step) : Step :=
  { s with statements := s.statements.map Statement.withoutSpans
           bindings := s.bindings.map Binding.withoutSpans
           span := default }

/-- The scene with empty spans. -/
def Scene.withoutSpans (s : Scene) : Scene :=
  { s with steps := s.steps.map Step.withoutSpans, span := default }

/-- The diagram with empty spans. -/
def Diagram.withoutSpans (d : Diagram) : Diagram :=
  { d with config := d.config.map Expr.withoutSpans, assets := d.assets.map Expr.withoutSpans
           span := default }

/-- The settings with empty spans. -/
def Runtime.withoutSpans (r : Runtime) : Runtime :=
  ⟨r.sections.map fun s =>
    { s with entries := Expr.entriesWithoutSpans s.entries, span := default }, default⟩

/-- The named targets with empty spans. -/
def Selectors.withoutSpans (s : Selectors) : Selectors :=
  ⟨s.entries.map fun e => { e with target := e.target.withoutSpans, span := default }, default⟩

/-- The named styles with empty spans. -/
def Styles.withoutSpans (s : Styles) : Styles :=
  ⟨Expr.entriesWithoutSpans s.entries, default⟩

/-- The plugin with empty spans. -/
def Plugin.withoutSpans (p : Plugin) : Plugin :=
  { p with options := p.options.map Expr.withoutSpans, span := default }

mutual

/-- The declaration with empty spans. -/
def Item.withoutSpans : Item → Item
  | .deck items _ => .deck (Item.allWithoutSpans items) default
  | .diagram d => .diagram d.withoutSpans
  | .runtime r => .runtime r.withoutSpans
  | .selectors s => .selectors s.withoutSpans
  | .styles s => .styles s.withoutSpans
  | .define d => .define d.withoutSpans
  | .scene s => .scene s.withoutSpans
  | .binding b => .binding b.withoutSpans
  | .plugin p => .plugin p.withoutSpans
  | .metadata m => .metadata m.withoutSpans
  | .unknown u => .unknown { u with span := default }

/-- Declarations with empty spans. -/
def Item.allWithoutSpans : List Item → List Item
  | [] => []
  | i :: is => i.withoutSpans :: Item.allWithoutSpans is

end

/-- The program with empty spans. -/
def Program.withoutSpans (p : Program) : Program where
  version := { p.version with span := default }
  items := Item.allWithoutSpans p.items
  span := default

end DiagramTour
