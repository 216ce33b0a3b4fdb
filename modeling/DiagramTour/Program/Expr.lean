import DiagramTour.Program.Target

/-!
# Expressions

Literals, variables, lists, objects, calls of actions, operators and targets.  A literal keeps the
text that it was written with beside its value.
-/

namespace DiagramTour

/-- What a literal means. -/
inductive LiteralValue where
  /-- A number with a point. -/
  | number (value : Float)
  /-- A whole number. -/
  | int (value : Int64)
  /-- A duration in milliseconds. -/
  | duration (ms : Float)
  /-- A percentage. -/
  | percent (value : Float)
  | boolean (value : Bool)
  | null
  | string (value : String)
  /-- A colour with its number sign. -/
  | color (value : String)
deriving Repr, Inhabited

/-- A literal with its value and its spelling. -/
structure Literal where
  value : LiteralValue
  raw : String
deriving Repr, Inhabited

/-- What stands for an expression that could not be read: the empty text. -/
def Literal.placeholder : Literal :=
  ⟨.string "", "\"\""⟩

/-- Operators of one operand. -/
inductive UnaryOp where
  | not
  | neg
deriving DecidableEq, Repr, Inhabited

/-- How an operator is written. -/
def UnaryOp.symbol : UnaryOp → String
  | not => "!"
  | neg => "-"

/-- Operators of two operands, the weakest first. -/
inductive BinaryOp where
  | or
  | and
  | eq
  | ne
  | lt
  | le
  | gt
  | ge
  | add
  | sub
  | mul
  | div
  | rem
deriving DecidableEq, Repr, Inhabited

namespace BinaryOp

/-- How an operator is written. -/
def symbol : BinaryOp → String
  | or => "or"
  | and => "and"
  | eq => "=="
  | ne => "!="
  | lt => "<"
  | le => "<="
  | gt => ">"
  | ge => ">="
  | add => "+"
  | sub => "-"
  | mul => "*"
  | div => "/"
  | rem => "%"

/-- How tightly an operator binds; operators of one level group from the left. -/
def level : BinaryOp → Nat
  | or => 0
  | and => 1
  | eq | ne => 2
  | lt | le | gt | ge => 3
  | add | sub => 4
  | mul | div | rem => 5

end BinaryOp

/-- A key with its value. -/
structure Entry (α : Type) where
  key : String
  value : α
  span : Span
deriving Repr, Inhabited

/-- A value handed to an action, by its place or by a name. -/
structure Argument (α : Type) where
  name : Option String
  value : α
deriving Repr, Inhabited

/-- An action with its arguments. -/
structure Call (α : Type) where
  callee : String
  args : List (Argument α)
deriving Repr, Inhabited

/-- An expression, with the span that it was read from. -/
inductive Expr where
  | literal (value : Literal) (span : Span)
  /-- A variable, and the way from it into its value. -/
  | var (path : List String) (span : Span)
  | object (entries : List (Entry Expr)) (span : Span)
  | array (items : List Expr) (span : Span)
  | call (call : Call Expr) (span : Span)
  | unary (op : UnaryOp) (operand : Expr) (span : Span)
  | binary (op : BinaryOp) (left right : Expr) (span : Span)
  | target (target : Target) (span : Span)
deriving Repr, Inhabited

namespace Expr

/-- The span that the expression was read from. -/
def span : Expr → Span
  | literal _ span | var _ span | object _ span | array _ span | call _ span
  | unary _ _ span | binary _ _ _ span | target _ span => span

mutual

/-- The expression with empty spans. -/
def withoutSpans : Expr → Expr
  | literal value _ => literal value default
  | var path _ => var path default
  | object entries _ => object (entriesWithoutSpans entries) default
  | array items _ => array (itemsWithoutSpans items) default
  | call ⟨callee, args⟩ _ => call ⟨callee, argsWithoutSpans args⟩ default
  | unary op operand _ => unary op operand.withoutSpans default
  | binary op left right _ => binary op left.withoutSpans right.withoutSpans default
  | target t _ => target t.withoutSpans default

/-- Entries with empty spans. -/
def entriesWithoutSpans : List (Entry Expr) → List (Entry Expr)
  | [] => []
  | ⟨key, value, _⟩ :: rest => ⟨key, value.withoutSpans, default⟩ :: entriesWithoutSpans rest

/-- Items with empty spans. -/
def itemsWithoutSpans : List Expr → List Expr
  | [] => []
  | e :: rest => e.withoutSpans :: itemsWithoutSpans rest

/-- Arguments with empty spans. -/
def argsWithoutSpans : List (Argument Expr) → List (Argument Expr)
  | [] => []
  | ⟨name, value⟩ :: rest => ⟨name, value.withoutSpans⟩ :: argsWithoutSpans rest

end

end Expr

/-- A call with empty spans. -/
def Call.withoutSpans (c : Call Expr) : Call Expr :=
  ⟨c.callee, Expr.argsWithoutSpans c.args⟩

/-- What stands for a call that could not be read. -/
def Call.placeholder : Call Expr :=
  ⟨"", []⟩

end DiagramTour
