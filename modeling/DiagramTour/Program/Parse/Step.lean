import DiagramTour.Program.Basic
import DiagramTour.Program.Parse.Expr

/-!
# Reading steps and bindings

Settings between braces, statements, the rules of bindings, and the steps that hold them.
-/

namespace DiagramTour.Parse

/-! ## Settings -/

/-- Which part of the player settings are for; some keys of a part take only certain values. -/
inductive EntryMode where
  | plain
  | camera
  | navigation
deriving DecidableEq, Repr

/-- The bounds that a camera may keep. -/
def cameraBounds : List String :=
  ["none", "diagram", "content", "viewport"]

/-- The ways to move on that can be switched on and off. -/
def navigationToggles : List String :=
  ["keyboard", "click", "wheel", "touch", "progress", "hash"]

/-- Whether an expression is a truth value. -/
def isBoolean : Expr → Bool
  | .literal ⟨.boolean _, _⟩ _ => true
  | _ => false

/-- A word or a quoted text out of a list of allowed ones; any other expression is taken as it
is. -/
def allowedWord (key : String) (allowed : List String) : Parse Expr := do
  if ← look (·.peek.isName) then
    let token ← next
    unless allowed.contains token.text do
      report (.valueNotAllowed token.text key allowed) token.span
    return .literal ⟨.string token.text, token.image⟩ token.span
  else
    expr

/-- The value of a navigation toggle. -/
def toggleValue (key : Token) : Parse Expr := do
  unless navigationToggles.contains key.text do
    report (.unknownToggle key.text) key.span
  let value ← expr
  unless isBoolean value do
    report (.toggleNotBoolean key.text) value.span
  return value

/-- The value of a setting. -/
def entryValue (mode : EntryMode) (key : Token) : Parse Expr :=
  match mode with
  | .plain => expr
  | .camera => if key.text = "bounds" then allowedWord key.text cameraBounds else expr
  | .navigation => toggleValue key

/-- Settings between braces. -/
def entries (mode : EntryMode) : Parse (List (Entry Expr)) :=
  block "an entry" fun c => c.entry fun key d _ => entryValue mode key d

/-- Metadata. -/
def metadata : Parse Metadata := do
  let start ← start
  expectKeyword "meta"
  let entries ← entries .plain
  eatPunct ";"
  return ⟨entries, ← spanFrom start⟩

/-! ## Statements -/

/-- A name for a value. -/
def definition : Parse Definition := do
  let start ← start
  expectKeyword "let"
  let name ← name? "a variable name"
  if ← look (·.atOperator "=") then
    let _ ← next
  else
    unexpected "`=`"
  let value ← expr
  return ⟨name.getD "", value, ← spanFrom start⟩

/-- The settings after the target of a focus; a later one overrides an earlier one. -/
def focusSettings (focus : Focus) (c : Cursor) : Parsed c Focus :=
  if h : c.atKeyword "pad" then
    have hlt := Cursor.size_advance_lt (Cursor.atEnd_eq_false_of_atKeyword h)
    let value := expr c.advance
    have hle : value.next.size < c.size := Nat.lt_of_le_of_lt value.le hlt
    (focusSettings { focus with pad := some value.value } value.next).weaken (Nat.le_of_lt hle)
  else if h : c.atKeyword "align" then
    have hlt := Cursor.size_advance_lt (Cursor.atEnd_eq_false_of_atKeyword h)
    let value := name? "an alignment" c.advance
    have hle : value.next.size < c.size := Nat.lt_of_le_of_lt value.le hlt
    (focusSettings { focus with align := value.value } value.next).weaken (Nat.le_of_lt hle)
  else if h : c.atKeyword "lock" then
    have hlt := Cursor.size_advance_lt (Cursor.atEnd_eq_false_of_atKeyword h)
    let value := expr c.advance
    have hle : value.next.size < c.size := Nat.lt_of_le_of_lt value.le hlt
    (focusSettings { focus with lock := some value.value } value.next).weaken (Nat.le_of_lt hle)
  else .here c focus
termination_by c.size

/-- A focus after its word. -/
def focus : Parse Focus := do
  let target ← target
  focusSettings ⟨target, none, none, none⟩

/-- A check after its word. -/
def assertion : Parse StatementKind := do
  let condition ← expr
  if ← eatKeyword "else" then
    let message ← expr
    return .assert condition (some message)
  else
    return .assert condition none

/-- What a statement does, by the reserved word that opens it. -/
def statementKind? (word : String) : Option (Parse StatementKind) :=
  match word with
  | "focus" => some do
    let _ ← next
    return .focus (← focus)
  | "do" => some do
    let _ ← next
    return .call (← call)
  | "let" => some (.define <$> definition)
  | "assert" => some do
    let _ ← next
    assertion
  | "meta" => some (.metadata <$> metadata)
  | _ => none

/-- A statement, if a reserved word that opens one comes next. -/
def statement? : Parse (Option Statement) := fun c =>
  match c.peek.lexeme with
  | .keyword =>
    match statementKind? c.peek.image with
    | some kind =>
      (kind c).andThen fun kind d _ =>
        let e := d.eatPunct ";"
        ⟨some ⟨kind, e.spanFrom c.here⟩, e, d.size_eatPunct_le ";"⟩
    | none => .here c none
  | _ => .here c none

/-! ## Bindings -/

/-- The delay that a token writes: a duration, or a whole number of milliseconds. -/
def delayOf? (t : Token) : Option Literal :=
  match t.lexeme with
  | .duration ms => some ⟨.duration ms, t.image⟩
  | .int ms => some ⟨.int ms.toInt64, t.image⟩
  | _ => none

/-- What narrows down an event of a kind. -/
def eventDetails (spec : EventSpec) : Parse EventSpec :=
  match spec.kind with
  | some .key => do return { spec with key := ← optionalString }
  | some .timer => fun c =>
    match delayOf? c.peek with
    | some delay => ⟨{ spec with delay := some delay }, c.advance, c.size_advance_le⟩
    | none => .here c spec
  | some .custom => do
    match ← optionalString with
    | some name => return { spec with name := some name }
    | none =>
      unexpected "a custom event name string"
      return spec
  | _ => pure spec

/-- What a rule listens for. -/
def eventSpec : Parse EventSpec := do
  let start ← start
  let blank : EventSpec := ⟨none, none, none, none, .point start⟩
  if ← look (·.peek.isWord) then
    let word ← next
    let kind := EventKind.ofName? word.image
    if kind.isNone then
      report (.unknownEvent word.image (EventKind.all.map EventKind.name)) word.span
    let spec ← eventDetails { blank with kind }
    return { spec with span := ← spanFrom start }
  else
    unexpected "an event kind"
    return blank

/-- A target after its word, if the word comes next. -/
def targetClause : Parse (Option Target) := do
  if ← eatKeyword "target" then return some (← target) else return none

/-- An expression after a word, if the word comes next. -/
def exprClause (word : String) : Parse (Option Expr) := do
  if ← eatKeyword word then return some (← expr) else return none

/-- A rule. -/
def rule : Parse Rule := do
  let start ← start
  expectKeyword "on"
  let event ← eventSpec
  let target ← targetClause
  let guard ← exprClause "when"
  let actions ← block "a statement" statement?
  return ⟨event, target, guard, actions, ← spanFrom start⟩

/-- What a binding holds. -/
inductive BindingPart where
  /-- A priority; none if the number does not fit. -/
  | priority (value : Option Int64)
  | rule (rule : Rule)
  /-- A part that was reported. -/
  | nothing

/-- A part of a binding. -/
def bindingPart? : Parse (Option BindingPart) := do
  if ← eatKeyword "priority" then
    if ← look (·.peek.isInt) then
      let token ← next
      eatPunct ";"
      return some (.priority (Number.int64? token.image))
    else
      unexpected "an integer priority"
      -- A semicolon is taken all the same
      eatPunct ";"
      return some .nothing
  else if ← look (·.atKeyword "on") then
    return some (.rule (← rule))
  else
    return none

/-- The priority that the parts leave: the last one that was given. -/
def BindingPart.priorityOf (parts : List BindingPart) : Option Int64 :=
  parts.foldl (fun p part => match part with
    | .priority value => value
    | _ => p) none

/-- The rules among the parts. -/
def BindingPart.rulesOf (parts : List BindingPart) : List Rule :=
  parts.filterMap fun
    | .rule r => some r
    | _ => none

/-- A binding. -/
def binding : Parse Binding := do
  let start ← start
  expectKeyword "binding"
  let name ← optionalName
  let parts ← block "`on` or `priority`" bindingPart?
  return ⟨name, BindingPart.priorityOf parts, BindingPart.rulesOf parts, ← spanFrom start⟩

/-! ## Steps -/

/-- What a step holds. -/
inductive StepPart where
  | statement (statement : Statement)
  | binding (binding : Binding)

/-- A part of a step. -/
def stepPart? : Parse (Option StepPart) := do
  if ← look (·.atKeyword "binding") then
    return some (.binding (← binding))
  else
    return (← statement?).map .statement

/-- The statements among the parts. -/
def StepPart.statementsOf (parts : List StepPart) : List Statement :=
  parts.filterMap fun
    | .statement s => some s
    | .binding _ => none

/-- The bindings among the parts. -/
def StepPart.bindingsOf (parts : List StepPart) : List Binding :=
  parts.filterMap fun
    | .binding b => some b
    | .statement _ => none

/-- The title of a step after its word, if the word comes next. -/
def titleClause : Parse (Option String) := do
  if ← eatKeyword "as" then
    match ← optionalString with
    | some title => return some title
    | none =>
      unexpected "a step title string"
      return none
  else
    return none

/-- A step. -/
def step : Parse Step := do
  let start ← start
  expectKeyword "step"
  let name ← name? "a step name"
  let title ← titleClause
  let parts ← block "a statement" stepPart?
  return ⟨name.getD "", title, StepPart.statementsOf parts, StepPart.bindingsOf parts,
    ← spanFrom start⟩

/-- A scene. -/
def scene : Parse Scene := do
  let start ← start
  expectKeyword "scene"
  let name ← optionalName
  let steps ← block "a `step`" do
    if ← look (·.atKeyword "step") then return some (← step) else return none
  return ⟨name, steps, ← spanFrom start⟩

end DiagramTour.Parse
