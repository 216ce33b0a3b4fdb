import DiagramTour.Lower.Fold
import DiagramTour.Program.Printer

/-!
# From programs to documents

Definitions outside of scenes hold everywhere, also before the place where they stand; those inside
a step or a rule hold for the statements after them.  Statements become actions, and the rules of
bindings become reactions, bindings of a higher priority first.  Lowering never fails: what a
document cannot carry is dropped with a warning.
-/

namespace DiagramTour

/-- The action that moves the camera. -/
def focusAction : String := "camera.fit"

/-- The action that checks a condition. -/
def assertAction : String := "assert"

/-- The language of the diagrams in programs. -/
def diagramKind : String := "mermaid"

/-- A payload with a field that may be missing. -/
def putValue (key : String) (value : Option Json) (payload : List (String × Json)) :
    List (String × Json) :=
  match value with
  | some v => Json.put key v payload
  | none => payload

/-- The value of an expression that may be missing. -/
def evalOption (scope : Scope) : Option Expr → Noted (Option Json)
  | some e => do return some (← e.valueIn scope)
  | none => pure none

/-! ## Statements -/

/-- The action of a statement, and the scope after it; a definition only changes the scope. -/
def Statement.lower (scope : Scope) (s : Statement) : Noted (Option Action × Scope) :=
  match s.kind with
  | .focus f => do
    let pad ← evalOption scope f.pad
    let lock ← evalOption scope f.lock
    let payload := putValue "lock" lock (putValue "align" (f.align.map .str) (putValue "pad" pad
      [("target", f.target.toValue)]))
    return (some ⟨focusAction, some (.obj payload)⟩, scope)
  | .call c => do return (some (← c.toAction scope), scope)
  | .define d => do return (none, scope.bind d.name (← d.value.valueIn scope))
  | .assert condition message => do
    let value ← condition.valueIn scope
    let text ← evalOption scope message
    return (some ⟨assertAction, some (.obj (putValue "message" text [("condition", value)]))⟩, scope)
  | .metadata _ => pure (none, scope)

/-- The actions of statements in order. -/
def lowerStatements (scope : Scope) : List Statement → Noted (List Action)
  | [] => pure []
  | s :: rest => do
    let (action, scope) ← s.lower scope
    let actions ← lowerStatements scope rest
    return action.toList ++ actions

/-! ## Bindings -/

/-- The delay that a literal writes, in whole milliseconds. -/
def Literal.delayMs? (l : Literal) : Option Nat :=
  match l.value with
  | .duration ms | .number ms => if 0 ≤ ms then some ms.round.toUInt64.toNat else none
  | .int ms => if 0 ≤ ms.toInt then some ms.toInt.toNat else none
  | _ => none

/-- A rule as a reaction; nothing without a kind of event. -/
def Rule.lower (scope : Scope) (r : Rule) : Noted (Option Reaction) :=
  match r.event.kind with
  | none => pure none
  | some event => do
    if let some guard := r.guard then
      Noted.note .unsupportedGuard guard.span
    let actions ← lowerStatements scope r.actions
    return some
      { event, actions
        anchor := r.target.map fun t => .spec t.toSpec
        key := r.event.key
        delayMs := r.event.delay.bind Literal.delayMs?
        eventName := r.event.name }

/-- Rules as reactions, in order. -/
def lowerRules (scope : Scope) : List Rule → Noted (List Reaction)
  | [] => pure []
  | r :: rest => do
    let reaction ← r.lower scope
    let reactions ← lowerRules scope rest
    return reaction.toList ++ reactions

/-- The priority of a binding. -/
def Binding.rank (b : Binding) : Int :=
  (b.priority.map Int64.toInt).getD 0

/-- Bindings as reactions with their priorities, in source order. -/
def lowerBindings (scope : Scope) : List Binding → Noted (List (Int × List Reaction))
  | [] => pure []
  | b :: rest => do
    let reactions ← lowerRules scope b.rules
    let ranked ← lowerBindings scope rest
    return (b.rank, reactions) :: ranked

/-- Reactions by falling priority; those of one priority keep their order. -/
def byRank (ranked : List (Int × List Reaction)) : List Reaction :=
  (ranked.mergeSort fun a b => b.1 ≤ a.1).flatMap Prod.snd

/-! ## Steps -/

/-- The key of a step's metadata that sets the policy of the step. -/
def policyKey : String := "errorPolicy"

/-- The policy that a value names. -/
def Json.policy? : Json → Option ErrorPolicy
  | .str s => ErrorPolicy.ofName? s
  | _ => none

/-- Adds entries of metadata to a stop. -/
def lowerMetadata (scope : Scope) (stop : Stop) : List (Entry Expr) → Noted Stop
  | [] => pure stop
  | entry :: rest => do
    let value ← entry.value.valueIn scope
    if entry.key ≠ policyKey then
      lowerMetadata scope { stop with metadata := Json.put entry.key value stop.metadata } rest
    else
      match value.policy? with
      | some policy => lowerMetadata scope { stop with errorPolicy := some policy } rest
      | none =>
        Noted.note (.invalidErrorPolicy value.compact) entry.span
        lowerMetadata scope stop rest

/-- Adds the statements of a step to a stop, and gives the scope after them. -/
def lowerBody (scope : Scope) (stop : Stop) : List Statement → Noted (Stop × Scope)
  | [] => pure (stop, scope)
  | s :: rest =>
    match s.kind with
    | .metadata m => do
      let stop ← lowerMetadata scope stop m.entries
      lowerBody scope stop rest
    | _ => do
      let (action, scope) ← s.lower scope
      lowerBody scope { stop with actions := stop.actions ++ action.toList } rest

/-- A step as a stop with an id. -/
def Step.lower (scope : Scope) (id : String) (s : Step) : Noted Stop := do
  let (stop, scope) ← lowerBody scope ⟨id, s.title, [], [], none, []⟩ s.statements
  let ranked ← lowerBindings scope s.bindings
  return { stop with reactions := byRank ranked }

/-- The name of a step as the base of its id. -/
def idBase (name : String) : String :=
  if name = "" then "step" else name

/-- An id that is not used yet: the name itself, or the name with the least number from two on that
makes it new. -/
def uniqueId (used : List String) (name : String) : String :=
  let base := idBase name
  if used.contains base then
    -- One candidate more than there are ids: one of them is new
    let candidates := (List.range (used.length + 1)).map fun k => base ++ "-" ++ toString (k + 2)
    (candidates.find? fun id => !used.contains id).getD base
  else base

/-- Steps as stops, after those of a document. -/
def lowerSteps (globals : Scope) (stops : List Stop) : List Step → Noted (List Stop)
  | [] => pure stops
  | s :: rest => do
    -- Ids of all scenes before count as used
    let stop ← s.lower globals (uniqueId (stops.map Stop.id) s.name)
    lowerSteps globals (stops ++ [stop]) rest

/-! ## Documents -/

/-- The variables that hold everywhere. -/
def lowerGlobals (scope : Scope) : List Item → Noted Scope
  | [] => pure scope
  | .define d :: rest => do
    let value ← d.value.valueIn scope
    lowerGlobals (scope.bind d.name value) rest
  | _ :: rest => lowerGlobals scope rest

/-- What was lowered so far. -/
structure Lowering where
  document : Document
  /-- Reactions with their priorities, in source order. -/
  ranked : List (Int × List Reaction)
  /-- Named targets. -/
  selectors : List (String × Json)

/-- Adds metadata to a document. -/
def lowerEntries (globals : Scope) (metadata : List (String × Json)) :
    List (Entry Expr) → Noted (List (String × Json))
  | [] => pure metadata
  | entry :: rest => do
    let value ← entry.value.valueIn globals
    lowerEntries globals (Json.put entry.key value metadata) rest

/-- The diagram of a declaration; nothing without a text. -/
def Diagram.lower (globals : Scope) (d : Diagram) : Noted (Option DiagramSpec) :=
  match d.source with
  | none => pure none
  | some source => do
    let config ← evalOption globals d.config
    return some ⟨diagramKind, source.text, d.name, config⟩

/-- Adds a declaration.  Of several diagrams with a text the first is taken. -/
def Lowering.add (globals : Scope) (l : Lowering) : Item → Noted Lowering
  | .scene s => do
    let stops ← lowerSteps globals l.document.stops s.steps
    return { l with document := { l.document with stops } }
  | .binding b => do
    let reactions ← lowerRules globals b.rules
    return { l with ranked := l.ranked ++ [(b.rank, reactions)] }
  | .diagram d =>
    if l.document.diagram.isSome then pure l
    else do
      let diagram ← d.lower globals
      return { l with document := { l.document with diagram } }
  | .metadata m => do
    let metadata ← lowerEntries globals l.document.metadata m.entries
    return { l with document := { l.document with metadata } }
  | .selectors s =>
    pure { l with
      selectors := s.entries.foldl (fun m e => Json.put e.name e.target.toValue m) l.selectors }
  | _ => pure l

/-- Adds declarations in order. -/
def Lowering.addAll (globals : Scope) (l : Lowering) : List Item → Noted Lowering
  | [] => pure l
  | item :: rest => do
    let l ← l.add globals item
    l.addAll globals rest

/-- The key of a document's metadata that holds its named targets. -/
def selectorsKey : String := "selectors"

/-- The document of what was lowered.  Metadata under the key of the named targets wins over
them. -/
def Lowering.finish (l : Lowering) : Document :=
  let metadata := l.document.metadata
  { l.document with
    reactions := byRank l.ranked
    metadata :=
      if l.selectors.isEmpty || (Json.lookup selectorsKey metadata).isSome then metadata
      else Json.put selectorsKey (.obj l.selectors) metadata }

/-- The document of a program. -/
def Program.lower (p : Program) : Noted Document := do
  let globals ← lowerGlobals [] p.deckItems
  let l ← Lowering.addAll globals ⟨.empty, [], []⟩ p.deckItems
  return l.finish

end DiagramTour
