import DiagramTour.Program.Basic
import DiagramTour.Token.Scan

/-!
# Printing programs

A tree has one canonical text.  Literals keep their spelling, operands that are themselves
operations stand between parentheses, and a name that would not be read back as the same word is
quoted.
-/

namespace DiagramTour

/-! ## Names and quoted texts -/

/-- How a character stands in a quoted text. -/
def escapeQuoted (c : Char) : List Char :=
  if c = '\\' then ['\\', '\\']
  else if c = '\x22' then ['\\', '\x22']
  else if c = '\n' then ['\\', 'n']
  else if c = '\t' then ['\\', 't']
  else if c = '\r' then ['\\', 'r']
  else [c]

/-- A text between double quotes. -/
def quote (text : String) : String :=
  String.ofList ('\x22' :: text.toList.flatMap escapeQuoted ++ ['\x22'])

/-- Whether a text is a word by itself that means nothing else. -/
def isIdentifier (text : String) : Bool :=
  match text.toList with
  | [] => false
  | c :: cs =>
    Text.startsWord c && wordTail cs == cs.length && !isKeyword text &&
      !(["true", "false", "null"].contains text)

/-- A name as a word if it can be one, and quoted otherwise. -/
def printName (text : String) : String :=
  if isIdentifier text then text else quote text

/-! ## Targets -/

/-- The texts with a separator between them. -/
def joinWith (separator : String) : List String → String
  | [] => ""
  | [s] => s
  | s :: rest => s ++ separator ++ joinWith separator rest

/-- A reference. -/
def ElementRef.print : ElementRef → String
  | named id => printName id
  | wildcard => "*"

/-- An edge, after its word. -/
def EdgeRef.print : EdgeRef → String
  | byId ref => ref.print
  | between source destination => "(" ++ source.print ++ ", " ++ destination.print ++ ")"

namespace Target

mutual

/-- A target. -/
def print : Target → String
  | element kind ref _ => kind.word ++ " " ++ ref.print
  | edge ref _ => "edge " ++ ref.print
  | matching key value _ => key.word ++ " " ++ quote value
  | several how members _ => how.word ++ "(" ++ joinWith ", " (printMembers members) ++ ")"
  | except base removed _ => "except(" ++ base.print ++ ", " ++ removed.print ++ ")"

/-- Several targets. -/
def printMembers : List Target → List String
  | [] => []
  | t :: ts => t.print :: printMembers ts

end

end Target

/-! ## Expressions -/

/-- A list of settings between braces, on one line. -/
def printSettings (settings : List String) : String :=
  if settings.isEmpty then "\x7b \x7d" else "\x7b " ++ joinWith ", " settings ++ " \x7d"

/-- A text between parentheses if it needs them. -/
def parenthesise (needed : Bool) (text : String) : String :=
  if needed then "(" ++ text ++ ")" else text

namespace Expr

/-- Whether the expression is an operation. -/
def isOperation : Expr → Bool
  | unary _ _ _ | binary _ _ _ _ => true
  | _ => false

/-- Whether the expression is a literal. -/
def isLiteral : Expr → Bool
  | literal _ _ => true
  | _ => false

mutual

/-- An expression. -/
def print : Expr → String
  | literal l _ => l.raw
  | var path _ => "$" ++ joinWith "." path
  | object entries _ => printSettings (printEntries entries)
  | array items _ => "[" ++ joinWith ", " (printItems items) ++ "]"
  | call ⟨callee, args⟩ _ => callee ++ "(" ++ joinWith ", " (printArgs args) ++ ")"
  -- A literal stands between parentheses, or a sign would become a part of it
  | unary op operand _ =>
    op.symbol ++ parenthesise (operand.isLiteral || operand.isOperation) operand.print
  | binary op left right _ =>
    parenthesise left.isOperation left.print ++ " " ++ op.symbol ++ " " ++
      parenthesise right.isOperation right.print
  | target t _ => t.print

/-- The settings of an object. -/
def printEntries : List (Entry Expr) → List String
  | [] => []
  | ⟨key, value, _⟩ :: rest => (printName key ++ ": " ++ value.print) :: printEntries rest

/-- The items of a list. -/
def printItems : List Expr → List String
  | [] => []
  | e :: rest => e.print :: printItems rest

/-- The arguments of a call. -/
def printArgs : List (Argument Expr) → List String
  | [] => []
  | ⟨some name, value⟩ :: rest => (name ++ ": " ++ value.print) :: printArgs rest
  | ⟨none, value⟩ :: rest => value.print :: printArgs rest

end

end Expr

/-- A call. -/
def Call.print (c : Call Expr) : String :=
  c.callee ++ "(" ++ joinWith ", " (Expr.printArgs c.args) ++ ")"

/-- Settings between braces, on one line. -/
def printEntries (entries : List (Entry Expr)) : String :=
  printSettings (Expr.printEntries entries)

/-- A text after a word, if there is one. -/
def printClause (word : String) (print : α → String) : Option α → String
  | some a => " " ++ word ++ " " ++ print a
  | none => ""

/-- A text after a blank, if there is one. -/
def printOptional (print : α → String) : Option α → String
  | some a => " " ++ print a
  | none => ""

/-! ## Lines -/

/-- A line inside `depth` blocks. -/
def printLine (depth : Nat) (text : String) : String :=
  String.ofList (List.replicate (2 * depth) ' ') ++ text ++ "\n"

/-- A block with a header inside `depth` others; its lines are one level deeper. -/
def printBlock (depth : Nat) (header : String) (body : String) : String :=
  printLine depth (header ++ " \x7b") ++ body ++ printLine depth "\x7d"

/-- A definition. -/
def Definition.print (d : Definition) : String :=
  "let " ++ printName d.name ++ " = " ++ d.value.print

/-- Metadata. -/
def Metadata.print (m : Metadata) : String :=
  "meta " ++ printEntries m.entries

/-- A statement. -/
def Statement.print (s : Statement) : String :=
  match s.kind with
  | .focus f => "focus " ++ f.target.print ++ printClause "pad" Expr.print f.pad ++
      printClause "align" printName f.align ++ printClause "lock" Expr.print f.lock
  | .call c => "do " ++ c.print
  | .define d => d.print
  | .assert condition message => "assert " ++ condition.print ++ printClause "else" Expr.print message
  | .metadata m => m.print

/-- Statements on lines of their own. -/
def printStatements (depth : Nat) (statements : List Statement) : String :=
  String.join (statements.map fun s => printLine depth s.print)

/-- What a rule listens for; nothing without a kind. -/
def EventSpec.print (e : EventSpec) : String :=
  match e.kind with
  | none => ""
  | some kind => kind.name ++ printOptional quote e.key ++ printOptional Literal.raw e.delay ++
      printOptional quote e.name

/-- A rule. -/
def Rule.print (depth : Nat) (r : Rule) : String :=
  printBlock depth
    ("on " ++ r.event.print ++ printClause "target" Target.print r.target ++
      printClause "when" Expr.print r.guard)
    (printStatements (depth + 1) r.actions)

/-- A word, and a name after it if there is one. -/
def printHeader (word : String) (name : Option String) : String :=
  word ++ printOptional printName name

/-- A binding. -/
def Binding.print (depth : Nat) (b : Binding) : String :=
  let priority := match b.priority with
    | some n => printLine (depth + 1) ("priority " ++ toString n.toInt)
    | none => ""
  printBlock depth (printHeader "binding" b.name)
    (priority ++ String.join (b.rules.map (Rule.print (depth + 1))))

/-- A step. -/
def Step.print (depth : Nat) (s : Step) : String :=
  printBlock depth ("step " ++ printName s.name ++ printClause "as" quote s.title)
    (printStatements (depth + 1) s.statements ++
      String.join (s.bindings.map (Binding.print (depth + 1))))

/-- The text of a diagram.  A raw block is written as it is, without indentation. -/
def DiagramSource.print (depth : Nat) : DiagramSource → String
  | heredoc tag body => printLine depth ("mermaid <<<" ++ tag) ++ body ++ "\n" ++ tag ++ ">>>\n"
  | quoted text => printLine depth ("mermaid " ++ quote text)

/-- A diagram. -/
def Diagram.print (depth : Nat) (d : Diagram) : String :=
  let source := match d.source with
    | some s => s.print (depth + 1)
    | none => ""
  let setting (word : String) : Option Expr → String
    | some e => printLine (depth + 1) (word ++ " " ++ e.print)
    | none => ""
  printBlock depth (printHeader "diagram" d.name)
    (source ++ setting "config" d.config ++ setting "assets" d.assets)

/-! ## Declarations -/

mutual

/-- A declaration. -/
def Item.print (depth : Nat) : Item → String
  | .deck items _ => printBlock depth "deck" (Item.printAll (depth + 1) items)
  | .diagram d => d.print depth
  | .runtime r => printBlock depth "runtime" (String.join (r.sections.map fun s =>
      printLine (depth + 1) (s.kind.name ++ " " ++ printEntries s.entries)))
  | .selectors s => printBlock depth "selectors" (String.join (s.entries.map fun e =>
      printLine (depth + 1) (printName e.name ++ ": " ++ e.target.print ++ ",")))
  | .styles s => printLine depth ("styles " ++ printEntries s.entries)
  | .define d => printLine depth d.print
  | .scene s => printBlock depth (printHeader "scene" s.name)
      (String.join (s.steps.map (Step.print (depth + 1))))
  | .binding b => b.print depth
  | .plugin p => printLine depth ("use " ++ quote p.source ++ printClause "as" printName p.localName ++
      printOptional Expr.print p.options)
  | .metadata m => printLine depth m.print
  | .unknown u => printLine depth (if u.raw = "" then u.name else u.name ++ " " ++ u.raw)

/-- Declarations one after the other. -/
def Item.printAll (depth : Nat) : List Item → String
  | [] => ""
  | i :: is => i.print depth ++ Item.printAll depth is

end

/-- A program. -/
def Program.print (p : Program) : String :=
  printLine 0 ("mpd " ++ p.version.raw) ++ Item.printAll 0 p.items

end DiagramTour
