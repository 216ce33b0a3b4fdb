import DiagramTour.Program.Cursor
import DiagramTour.Program.Target

/-!
# Reading targets

A target opens with a word that says what follows it: one reference, an edge, a text, or a list of
targets between parentheses.
-/

namespace DiagramTour

/-- What the next token opens, if it is a reserved word that opens a target. -/
def Cursor.targetHead? (c : Cursor) : Option TargetHead :=
  match c.peek.lexeme with
  | .keyword => TargetHead.ofWord? c.peek.image
  | _ => none

theorem Cursor.atEnd_eq_false_of_targetHead? {c : Cursor} {head : TargetHead}
    (h : c.targetHead? = some head) : c.atEnd = false := by
  apply atEnd_eq_false_of_peek
  revert h
  unfold targetHead?
  cases c.peek with
  | mk lexeme image span => cases lexeme <;> simp [Token.isEnd]

namespace Parse

/-- A reference to an element: a star, a word, a quoted text or a whole number. -/
def elementRef : Parse ElementRef := fun c =>
  if c.atOperator "*" then ⟨.wildcard, c.advance, c.size_advance_le⟩
  else if c.peek.isName || c.peek.isInt then ⟨.named c.peek.text, c.advance, c.size_advance_le⟩
  else ⟨.named "", c.unexpected "an element id or `*`", c.size_unexpected_le _⟩

/-- An edge, by its name or by the two nodes that it joins. -/
def edgeRef : Parse EdgeRef := do
  if ← look (·.atPunct "(") then
    eatPunct "("
    let source ← elementRef
    expectPunct ","
    let destination ← elementRef
    expectPunct ")"
    return .between source destination
  else
    let first ← elementRef
    if ← look (·.atOperator "->") then
      let _ ← next
      let destination ← elementRef
      return .between first destination
    else
      return .byId first

/-- A text that finds elements. -/
def targetText : Parse String := fun c =>
  if c.peek.isString then ⟨c.peek.text, c.advance, c.size_advance_le⟩
  else ⟨"", c.unexpected "a string", c.size_unexpected_le _⟩

end Parse

namespace Cursor

/-- The targets of a list up to its closing parenthesis. -/
def targetItems (bound : Nat) (item : (d : Cursor) → d.size < bound → Parsed d Target)
    (c : Cursor) (h : c.size < bound) : Parsed c (List Target) :=
  if hstop : c.atPunct ")" || c.atEnd then .here c []
  else
    have hend : c.atEnd = false := by
      simp only [Bool.or_eq_true, not_or, Bool.not_eq_true] at hstop
      exact hstop.2
    let turn := item c h
    -- A target that is missing does not end the list
    if turn.next.size = c.size then
      have hlt := size_afterTurn_lt hend turn.le "a target"
      let tail := targetItems bound item (c.afterTurn turn.next "a target") (Nat.lt_trans hlt h)
      (tail.map (turn.value :: ·)).weaken (Nat.le_of_lt hlt)
    else if hsep : turn.next.atPunct "," then
      have hlt := Nat.lt_of_lt_of_le (size_advance_lt (atEnd_eq_false_of_atPunct hsep)) turn.le
      let tail := targetItems bound item turn.next.advance (Nat.lt_trans hlt h)
      (tail.map (turn.value :: ·)).weaken (Nat.le_of_lt hlt)
    else if turn.next.atPunct ")" then ⟨[turn.value], turn.next, turn.le⟩
    else ⟨[turn.value], turn.next.unexpected "`,` or `)`", by simpa using turn.le⟩
termination_by c.size

/-- A list of targets between parentheses; none if the opening one is missing. -/
def targetList (c : Cursor) (item : (d : Cursor) → d.size < c.size → Parsed d Target) :
    Parsed c (List Target) :=
  if h : c.atPunct "(" then
    have hlt := size_advance_lt_of_atPunct h
    let items := targetItems c.size item c.advance hlt
    ⟨items.value, items.next.expectPunct ")",
      Nat.le_trans (size_expectPunct_le _ _) (Nat.le_trans items.le (Nat.le_of_lt hlt))⟩
  else ⟨[], c.unexpected "`(`", c.size_unexpected_le _⟩

/-- The difference of two targets, of which there should be exactly two. -/
def difference (start : Position) (operands : List Target) (c : Cursor) : Parsed c Target :=
  let missing := Target.placeholder (.point start)
  let target := Target.except (operands[0]?.getD missing) (operands[1]?.getD missing)
    (c.spanFrom start)
  if operands.length = 2 then .here c target
  else ⟨target, c.report .differenceArity (c.spanFrom start), c.size_report_le _ _⟩

/-- A target. -/
def target (c : Cursor) : Parsed c Target :=
  match h : c.targetHead? with
  | none =>
    ⟨.placeholder (.point c.here), c.unexpected
      "a target (node, edge, subgraph, css, id, text, group, union, intersect, except)",
      c.size_unexpected_le _⟩
  | some head =>
    have hlt := size_advance_lt (atEnd_eq_false_of_targetHead? h)
    let start := c.here
    let read : Parsed c.advance Target := match head with
      | .element kind =>
        (Parse.elementRef c.advance).andThen fun ref e _ => .here e (.element kind ref (e.spanFrom start))
      | .edge => (Parse.edgeRef c.advance).andThen fun ref e _ => .here e (.edge ref (e.spanFrom start))
      | .matching key =>
        (Parse.targetText c.advance).andThen fun text e _ => .here e (.matching key text (e.spanFrom start))
      | .several how =>
        (c.advance.targetList fun e _ => e.target).andThen fun members e _ =>
          .here e (.several how members (e.spanFrom start))
      | .except =>
        (c.advance.targetList fun e _ => e.target).andThen fun operands e _ =>
          e.difference start operands
    read.weaken (Nat.le_of_lt hlt)
termination_by c.size
decreasing_by all_goals omega

end Cursor

/-- Reads a target. -/
def Parse.target : Parse Target :=
  Cursor.target

end DiagramTour
