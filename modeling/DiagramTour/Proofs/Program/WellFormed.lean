import DiagramTour.Program.Parse.Item
import DiagramTour.Proofs.Token.RawBlock

/-!
# Well-formed trees

What can be said of the tree of a text with which nothing is wrong.  Most of it is about spelling:
literals keep a text that means their value, variables and actions consist of words, and a raw
block can be closed by its tag.  The rest is about parts that only some nodes have.
-/

namespace DiagramTour

/-! ## Spelling -/

/-- The text is a word that is no value, so that it may serve as a name. -/
def Word (w : String) : Prop :=
  IsWord w.toList ∧ (wordLexeme w = .keyword ∨ wordLexeme w = .identifier)

/-- The text is a whole number, with or without a sign. -/
def Whole (w : String) : Prop :=
  ∃ value, Image w.toList (.int value)

/-- The text is a word or a whole number, and so a part of the way into a value. -/
def Segment (w : String) : Prop :=
  Word w ∨ Whole w

/-- The spelling of a literal is one token, which means the literal. -/
def Literal.WellSpelled (l : Literal) : Prop :=
  ∃ lexeme, Image l.raw.toList lexeme ∧ Literal.ofToken? ⟨lexeme, l.raw, default⟩ = some l

/-- The spelling of a delay is one token without a sign, which means the delay. -/
def Literal.IsDelay (l : Literal) : Prop :=
  ∃ lexeme, Image l.raw.toList lexeme ∧ Parse.delayOf? ⟨lexeme, l.raw, default⟩ = some l ∧
    ∃ c cs, l.raw.toList = c :: cs ∧ c.isDigit = true

/-- The name of an action consists of words with points between them. -/
def CalleeOf (callee first : String) : Prop :=
  ∃ words, callee = ".".intercalate (first :: words) ∧ ∀ w ∈ first :: words, Word w

/-- A setting with a fixed list of values: a word or a quoted text out of them. -/
def Expr.IsOneOf (allowed : List String) (e : Expr) : Prop :=
  ∃ text raw span lexeme, e = .literal ⟨.string text, raw⟩ span ∧ text ∈ allowed ∧
    Image raw.toList lexeme ∧ Token.isName ⟨lexeme, raw, default⟩ = true ∧
    Token.text ⟨lexeme, raw, default⟩ = text

/-! ## Expressions -/

inductive Expr.WellFormed : Expr → Prop where
  | literal {l : Literal} {span : Span} :
      l.WellSpelled → WellFormed (.literal l span)
  | var {path : List String} {span : Span} :
      path ≠ [] → (∀ w ∈ path, Segment w) → WellFormed (.var path span)
  | object {entries : List (Entry Expr)} {span : Span} :
      (∀ e ∈ entries, WellFormed e.value) → WellFormed (.object entries span)
  | array {items : List Expr} {span : Span} :
      (∀ e ∈ items, WellFormed e) → WellFormed (.array items span)
  /-- A word that opens a target opens no call. -/
  | call {callee first : String} {args : List (Argument Expr)} {span : Span} :
      CalleeOf callee first → TargetHead.ofWord? first = none →
      (∀ a ∈ args, ∀ w, a.name = some w → Word w) → (∀ a ∈ args, WellFormed a.value) →
      WellFormed (.call ⟨callee, args⟩ span)
  | unary {op : UnaryOp} {operand : Expr} {span : Span} :
      WellFormed operand → WellFormed (.unary op operand span)
  | binary {op : BinaryOp} {left right : Expr} {span : Span} :
      WellFormed left → WellFormed right → WellFormed (.binary op left right span)
  | target {target : Target} {span : Span} : WellFormed (.target target span)

/-- A call that stands by itself may begin with any word. -/
structure Call.WellFormed (c : Call Expr) : Prop where
  callee : ∃ first, CalleeOf c.callee first
  names : ∀ a ∈ c.args, ∀ w, a.name = some w → Word w
  args : ∀ a ∈ c.args, a.value.WellFormed

/-- The settings of an object. -/
def Expr.IsObject (e : Expr) : Prop :=
  ∃ entries span, e = .object entries span ∧ ∀ entry ∈ entries, entry.value.WellFormed

/-- A value that a key takes in settings of a kind. -/
def Expr.Suits (mode : Parse.EntryMode) (key : String) (e : Expr) : Prop :=
  match mode with
  | .plain => e.WellFormed
  | .camera => e.WellFormed ∨ key = "bounds" ∧ e.IsOneOf Parse.cameraBounds
  | .navigation => e.WellFormed ∧ Parse.isBoolean e = true

/-! ## Statements and bindings -/

def Metadata.WellFormed (m : Metadata) : Prop :=
  ∀ e ∈ m.entries, e.value.WellFormed

def StatementKind.WellFormed : StatementKind → Prop
  | focus f => (∀ e, f.pad = some e → e.WellFormed) ∧ (∀ e, f.lock = some e → e.WellFormed)
  | call c => c.WellFormed
  | define d => d.value.WellFormed
  | assert condition message =>
    condition.WellFormed ∧ ∀ e, message = some e → e.WellFormed
  | metadata m => m.WellFormed

/-- What narrows down an event is there only for the kind that it is about. -/
def EventSpec.WellFormed (e : EventSpec) : Prop :=
  match e.kind with
  | none => False
  | some .click | some .hover => e.key = none ∧ e.delay = none ∧ e.name = none
  | some .key => e.delay = none ∧ e.name = none
  | some .timer => e.key = none ∧ e.name = none ∧ ∀ l, e.delay = some l → l.IsDelay
  | some .custom => e.key = none ∧ e.delay = none ∧ e.name.isSome

structure Rule.WellFormed (r : Rule) : Prop where
  event : r.event.WellFormed
  guard : ∀ e, r.guard = some e → e.WellFormed
  actions : ∀ s ∈ r.actions, s.kind.WellFormed

def Binding.WellFormed (b : Binding) : Prop :=
  ∀ r ∈ b.rules, r.WellFormed

structure Step.WellFormed (s : Step) : Prop where
  statements : ∀ t ∈ s.statements, t.kind.WellFormed
  bindings : ∀ b ∈ s.bindings, b.WellFormed

/-! ## Declarations -/

/-- A raw block can be written with its tag and its body. -/
def DiagramSource.WellFormed : DiagramSource → Prop
  | heredoc tag body => RawParts tag.toList [] (body.toList ++ ['\n']) ∧
      bodyOfLines (body.toList ++ ['\n']) = body.toList
  | quoted _ => True

structure Diagram.WellFormed (d : Diagram) : Prop where
  source : ∀ s, d.source = some s → s.WellFormed
  config : ∀ e, d.config = some e → e.IsObject
  assets : ∀ e, d.assets = some e → e.IsObject

/-- How the settings of a part of the player are read. -/
def SectionKind.mode : SectionKind → Parse.EntryMode
  | camera => .camera
  | navigation => .navigation
  | overlay | performance => .plain

def RuntimeSection.WellFormed (s : RuntimeSection) : Prop :=
  ∀ e ∈ s.entries, e.value.Suits s.kind.mode e.key

def Plugin.WellFormed (p : Plugin) : Prop :=
  ∀ e, p.options = some e → e.IsObject

/-- A version consists of whole numbers with points between them. -/
structure Version.WellFormed (v : Version) : Prop where
  raw : ∃ g gs, v.raw = ".".intercalate (g :: gs) ∧ ∀ w ∈ g :: gs, Whole w
  parts : v.parts = Parse.versionParts v.raw

end DiagramTour
