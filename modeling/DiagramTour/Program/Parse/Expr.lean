import DiagramTour.Program.Expr
import DiagramTour.Program.Parse.Target

/-!
# Reading expressions

Operators of two operands are read level by level, the weakest first, and group from the left.
Every part of an expression is read from a cursor with fewer tokens, or from the same one at a
tighter level; `Cursor.exprAt` is the one recursive function, and the readers of the parts take it
as an argument that may only be used further on.
-/

namespace DiagramTour

/-- The operator that a token stands for. -/
def BinaryOp.ofToken? (t : Token) : Option BinaryOp :=
  match t.lexeme with
  | .keyword => match t.image with
    | "or" => some .or
    | "and" => some .and
    | _ => none
  | .operator => match t.image with
    | "||" => some .or
    | "&&" => some .and
    | "==" => some .eq
    | "!=" => some .ne
    | "<" => some .lt
    | "<=" => some .le
    | ">" => some .gt
    | ">=" => some .ge
    | "+" => some .add
    | "-" => some .sub
    | "*" => some .mul
    | "/" => some .div
    | "%" => some .rem
    | _ => none
  | _ => none

/-- The operator before an operand that a token stands for. -/
def UnaryOp.ofToken? (t : Token) : Option UnaryOp :=
  match t.lexeme with
  | .operator => match t.image with
    | "!" => some .not
    | "-" => some .neg
    | _ => none
  | _ => none

/-- The literal that a token stands for.  A whole number beyond 64 bits is a number. -/
def Literal.ofToken? (t : Token) : Option Literal :=
  match t.lexeme with
  | .int x => match Number.int64? t.image with
    | some n => some ⟨.int n, t.image⟩
    | none => some ⟨.number x, t.image⟩
  | .number x => some ⟨.number x, t.image⟩
  | .duration ms => some ⟨.duration ms, t.image⟩
  | .percent x => some ⟨.percent x, t.image⟩
  | .boolean b => some ⟨.boolean b, t.image⟩
  | .null => some ⟨.null, t.image⟩
  | .string s => some ⟨.string s, t.image⟩
  | .color => some ⟨.color t.image, t.image⟩
  | _ => none

theorem BinaryOp.isEnd_eq_false_of_ofToken? {t : Token} {op : BinaryOp}
    (h : BinaryOp.ofToken? t = some op) : t.isEnd = false := by
  revert h
  cases t with
  | mk lexeme image span => cases lexeme <;> simp [BinaryOp.ofToken?, Token.isEnd]

theorem UnaryOp.isEnd_eq_false_of_ofToken? {t : Token} {op : UnaryOp}
    (h : UnaryOp.ofToken? t = some op) : t.isEnd = false := by
  revert h
  cases t with
  | mk lexeme image span => cases lexeme <;> simp [UnaryOp.ofToken?, Token.isEnd]

/-- Reads a word or a whole number on the way into a value; `what` it is is reported where it is
missing. -/
def Parse.segment? (what : String) : Parse (Option String) := fun c =>
  if c.peek.isWord || c.peek.isInt then ⟨some c.peek.image, c.advance, c.size_advance_le⟩
  else ⟨none, c.unexpected what, c.size_unexpected_le what⟩

namespace Cursor

/-- The segments after points, as far as they go. -/
def pathTail (c : Cursor) : Parsed c (List String) :=
  if h : c.atPunct "." then
    have hlt := size_advance_lt_of_atPunct h
    let segment := Parse.segment? "a path segment" c.advance
    have hle : segment.next.size < c.size := Nat.lt_of_le_of_lt segment.le hlt
    match segment.value with
    | some s => (segment.next.pathTail.map (s :: ·)).weaken (Nat.le_of_lt hle)
    | none => ⟨[], segment.next, Nat.le_of_lt hle⟩
  else .here c []
termination_by c.size

end Cursor

/-- Reads a variable with the way into its value. -/
def Parse.var : Parse Expr := do
  let start ← start
  expectPunct "$"
  let first ← segment? "a variable name"
  let tail ← Cursor.pathTail
  return .var (first.toList ++ tail) (← spanFrom start)

namespace Cursor

/-- The words after points in the name of an action. -/
def calleeTail (c : Cursor) : Parsed c (List String) :=
  if h : c.atPunct "." && c.second.isWord then
    have hlt : c.advance.size < c.size :=
      size_advance_lt (atEnd_eq_false_of_atPunct (by simpa using (Bool.and_eq_true_iff.1 h).1))
    have hle : c.advance.advance.size < c.size := Nat.lt_of_le_of_lt (size_advance_le _) hlt
    (c.advance.advance.calleeTail.map (c.second.image :: ·)).weaken (Nat.le_of_lt hle)
  else .here c []
termination_by c.size

/-- The items of a list up to its closing mark, with commas between them.  A turn that ends at
neither ends the list, and skips a token if it read none. -/
def separated {α : Type} (bound : Nat) (close expected : String)
    (item : (d : Cursor) → d.size < bound → Parsed d α) (c : Cursor) (h : c.size < bound) :
    Parsed c (List α) :=
  if c.atPunct close || c.atEnd then .here c []
  else
    let turn := item c h
    if hsep : turn.next.atPunct "," then
      have hlt := Nat.lt_of_lt_of_le (size_advance_lt (atEnd_eq_false_of_atPunct hsep)) turn.le
      let tail := separated bound close expected item turn.next.advance (Nat.lt_trans hlt h)
      (tail.map (turn.value :: ·)).weaken (Nat.le_of_lt hlt)
    else if turn.next.atPunct close then ⟨[turn.value], turn.next, turn.le⟩
    else
      -- Neither a comma nor the end: the list is given up here
      let reported := turn.next.unexpected expected
      have hle : reported.size ≤ c.size := by simpa [reported] using turn.le
      if turn.next.size = c.size then
        ⟨[turn.value], reported.advance, Nat.le_trans (size_advance_le _) hle⟩
      else ⟨[turn.value], reported, hle⟩
termination_by c.size

/-- A key, a colon and a value; nothing if no name comes next.  `value` is told the key. -/
def entry (c : Cursor) (value : Token → (d : Cursor) → d.size < c.size → Parsed d Expr) :
    Parsed c (Option (Entry Expr)) :=
  if h : c.peek.isName then
    have hlt : (c.advance.expectPunct ":").size < c.size :=
      Nat.lt_of_le_of_lt (size_expectPunct_le _ _) (size_advance_lt (atEnd_eq_false_of_isName h))
    let read := value c.peek (c.advance.expectPunct ":") hlt
    let d := read.next.eatPunct ","
    ⟨some ⟨c.peek.text, read.value, d.spanFrom c.here⟩, d,
      Nat.le_trans (size_eatPunct_le _ _) (Nat.le_trans read.le (Nat.le_of_lt hlt))⟩
  else .here c none

/-- An object. -/
def objectWith (c : Cursor) (sub : (d : Cursor) → d.size < c.size → Parsed d Expr) :
    Parsed c Expr :=
  (c.block "an object entry" fun d hd =>
      d.entry fun _ e he => sub e (Nat.lt_trans he hd)).andThen fun entries d _ =>
    .here d (.object entries (d.spanFrom c.here))

/-- A list. -/
def arrayWith (c : Cursor) (sub : (d : Cursor) → d.size < c.size → Parsed d Expr) :
    Parsed c Expr :=
  if h : c.atPunct "[" then
    have hlt := size_advance_lt_of_atPunct h
    let items := separated c.size "]" "`,` or `]`" sub c.advance hlt
    let d := items.next.expectPunct "]"
    ⟨.array items.value (d.spanFrom c.here), d,
      Nat.le_trans (size_expectPunct_le _ _) (Nat.le_trans items.le (Nat.le_of_lt hlt))⟩
  else .here c (.literal .placeholder (.point c.here))

/-- An argument, by name if a word and a colon come next. -/
def argumentWith (c : Cursor) (sub : (d : Cursor) → d.size ≤ c.size → Parsed d Expr) :
    Parsed c (Argument Expr) :=
  if c.peek.isWord && c.second.isPunct ":" then
    have hle : c.advance.advance.size ≤ c.size :=
      Nat.le_trans (size_advance_le _) (size_advance_le _)
    let value := sub c.advance.advance hle
    ⟨⟨some c.peek.image, value.value⟩, value.next, Nat.le_trans value.le hle⟩
  else
    let value := sub c c.size_le_self
    ⟨⟨none, value.value⟩, value.next, value.le⟩

/-- A call of an action: words with points between them, and arguments between parentheses. -/
def callWith (c : Cursor) (sub : (d : Cursor) → d.size < c.size → Parsed d Expr) :
    Parsed c (Call Expr) :=
  if h : c.peek.isWord then
    have hlt := size_advance_lt (atEnd_eq_false_of_isWord h)
    let words := c.advance.calleeTail
    let callee := ".".intercalate (c.peek.image :: words.value)
    have hle : words.next.size < c.size := Nat.lt_of_le_of_lt words.le hlt
    if hopen : words.next.atPunct "(" then
      have hargs := Nat.lt_trans (size_advance_lt (atEnd_eq_false_of_atPunct hopen)) hle
      let args := separated c.size ")" "`,` or `)`"
        (fun d hd => d.argumentWith fun e he => sub e (Nat.lt_of_le_of_lt he hd))
        words.next.advance hargs
      ⟨⟨callee, args.value⟩, args.next.expectPunct ")",
        Nat.le_trans (size_expectPunct_le _ _) (Nat.le_trans args.le (Nat.le_of_lt hargs))⟩
    else
      ⟨⟨callee, []⟩, words.next.unexpected "`(`", by simpa using Nat.le_of_lt hle⟩
  else ⟨.placeholder, c.unexpected "an action call", c.size_unexpected_le _⟩

/-- A call as an expression. -/
def callExprWith (c : Cursor) (sub : (d : Cursor) → d.size < c.size → Parsed d Expr) :
    Parsed c Expr :=
  (c.callWith sub).andThen fun call d _ => .here d (.call call (d.spanFrom c.here))

/-- An expression between parentheses. -/
def parenWith (c : Cursor) (h : c.atPunct "(" = true)
    (sub : (d : Cursor) → d.size < c.size → Parsed d Expr) : Parsed c Expr :=
  have hlt := size_advance_lt_of_atPunct h
  let inner := sub c.advance hlt
  ⟨inner.value, inner.next.expectPunct ")",
    Nat.le_trans (size_expectPunct_le _ _) (Nat.le_trans inner.le (Nat.le_of_lt hlt))⟩

/-- Whether the next token may close or separate what is around an expression. -/
def atClosing (c : Cursor) : Bool :=
  c.atPunct closeBrace || c.atPunct ")" || c.atPunct "]" || c.atPunct "," || c.atPunct ";"

/-- What is done where an expression is missing.  A reserved word and a closing mark are left to
what is around; any other token is skipped. -/
def missingExpr (c : Cursor) : Parsed c Expr :=
  let reported := c.unexpected "an expression"
  let value := Expr.literal .placeholder (.point c.here)
  if c.peek.isWord || c.atClosing then ⟨value, reported, by simp [reported]⟩
  else ⟨value, reported.advance,
    Nat.le_trans (size_advance_le _) (by simp [reported])⟩

/-- Whether the next token is a word that starts a call: one that is not reserved, or a reserved
one before a point or a parenthesis. -/
def startsCall (c : Cursor) : Bool :=
  match c.peek.lexeme with
  | .identifier => true
  | .keyword => c.second.isPunct "." || c.second.isPunct "("
  | _ => false

/-- An expression without operators. -/
def primaryWith (c : Cursor) (sub : (d : Cursor) → d.size < c.size → Parsed d Expr) :
    Parsed c Expr :=
  match Literal.ofToken? c.peek with
  | some literal => ⟨.literal literal c.peek.span, c.advance, c.size_advance_le⟩
  | none =>
    if c.atPunct openBrace then c.objectWith sub
    else if c.atPunct "[" then c.arrayWith sub
    else if h : c.atPunct "(" then c.parenWith h sub
    else if c.atPunct "$" then Parse.var c
    else if c.targetHead?.isSome then
      c.target.map fun t => .target t t.span
    else if c.startsCall then c.callExprWith sub
    else c.missingExpr

/-- An operator and the operand after it, if an operator of one operand comes next. -/
def unaryWith (c : Cursor) (operand : (d : Cursor) → d.size < c.size → Parsed d Expr)
    (sub : (d : Cursor) → d.size < c.size → Parsed d Expr) : Parsed c Expr :=
  match h : UnaryOp.ofToken? c.peek with
  | some op =>
    have hlt := size_advance_lt (atEnd_eq_false_of_peek (UnaryOp.isEnd_eq_false_of_ofToken? h))
    ((operand c.advance hlt).andThen fun e d _ =>
      .here d (.unary op e (d.spanFrom c.here))).weaken c.size_advance_le
  | none => c.primaryWith sub

/-- The operator of a level that comes next. -/
def operatorAt? (c : Cursor) (level : Nat) : Option BinaryOp :=
  (BinaryOp.ofToken? c.peek).filter fun op => op.level == level

theorem atEnd_eq_false_of_operatorAt? {c : Cursor} {level : Nat} {op : BinaryOp}
    (h : c.operatorAt? level = some op) : c.atEnd = false :=
  atEnd_eq_false_of_peek (BinaryOp.isEnd_eq_false_of_ofToken? (Option.filter_eq_some_iff.1 h).1)

/-- The operators of a level and their right operands, after a left operand. -/
def operators (bound level : Nat) (operand : (d : Cursor) → d.size < bound → Parsed d Expr)
    (left : Expr) (c : Cursor) (hc : c.size ≤ bound) : Parsed c Expr :=
  match h : c.operatorAt? level with
  | none => .here c left
  | some op =>
    have hlt := size_advance_lt (atEnd_eq_false_of_operatorAt? h)
    let right := operand c.advance (Nat.lt_of_lt_of_le hlt hc)
    have hnext := Nat.lt_of_le_of_lt right.le hlt
    let joined := Expr.binary op left right.value (left.span.through right.value.span)
    (operators bound level operand joined right.next
      (Nat.le_trans (Nat.le_of_lt hnext) hc)).weaken (Nat.le_of_lt hnext)
termination_by c.size

/-- The level of operators of one operand, tighter than all of two. -/
def topLevel : Nat := 6

/-- An expression with operators of a level and of tighter ones. -/
def exprAt (level : Nat) (c : Cursor) : Parsed c Expr :=
  if level < topLevel then
    -- The left operand binds tighter, and operators of this level follow from left to right
    (c.exprAt (level + 1)).andThen fun left d hd =>
      operators c.size level (fun e _ => e.exprAt (level + 1)) left d hd
  else
    -- Operands of one operator stay at the top; inner expressions begin anew
    c.unaryWith (fun d _ => d.exprAt topLevel) (fun d _ => d.exprAt 0)
termination_by 7 * c.size + (topLevel - level)
decreasing_by
  all_goals simp only [topLevel] at *
  all_goals omega

end Cursor

/-- Reads an expression. -/
def Parse.expr : Parse Expr :=
  Cursor.exprAt 0

/-- Reads an object. -/
def Parse.object : Parse Expr := fun c =>
  c.objectWith fun d _ => d.exprAt 0

/-- Reads a call. -/
def Parse.call : Parse (Call Expr) := fun c =>
  c.callWith fun d _ => d.exprAt 0

end DiagramTour
