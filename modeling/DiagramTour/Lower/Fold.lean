import DiagramTour.Diagnostic
import DiagramTour.Document.Json
import DiagramTour.Number.Reading
import DiagramTour.Number.Remainder

/-!
# Values of expressions

An expression becomes a JSON value.  What is known is computed; what only the player can know, a
call, stays as it was written, and so does every operation on it.  A variable that nothing binds is
null, with a warning.
-/

namespace DiagramTour

/-! ## Values with warnings -/

/-- A value and the diagnostics found on the way to it, in order. -/
structure Noted (α : Type) where
  value : α
  notes : List Diagnostic

namespace Noted

variable {α β : Type}

instance : Monad Noted where
  pure a := ⟨a, []⟩
  bind x f := ⟨(f x.value).value, x.notes ++ (f x.value).notes⟩

/-- One diagnostic. -/
def note (problem : Problem) (span : Span) : Noted Unit :=
  ⟨(), [⟨problem, span⟩]⟩

@[simp] theorem pure_value (a : α) : (pure a : Noted α).value = a := rfl
@[simp] theorem pure_notes (a : α) : (pure a : Noted α).notes = [] := rfl

@[simp] theorem bind_value (x : Noted α) (f : α → Noted β) :
    (x >>= f).value = (f x.value).value := rfl

@[simp] theorem bind_notes (x : Noted α) (f : α → Noted β) :
    (x >>= f).notes = x.notes ++ (f x.value).notes := rfl

end Noted

/-! ## Scopes -/

/-- The variables that are bound, the latest first. -/
abbrev Scope : Type :=
  List (String × Json)

/-- Binds a variable. -/
def Scope.bind (s : Scope) (name : String) (value : Json) : Scope :=
  (name, value) :: s

/-- One step into a value: by key into an object, by place into a list. -/
def Json.child? (segment : String) : Json → Option Json
  | .obj fields => lookup segment fields
  | .arr items => (Number.nat64? segment).bind fun i => items[i]?
  | _ => none

/-- The value at the end of a way into a value. -/
def Json.descend? (j : Json) : List String → Option Json
  | [] => some j
  | segment :: path => (j.child? segment).bind (·.descend? path)

/-- The value of a variable, or what lies on the way into it. -/
def Scope.lookup? (s : Scope) : List String → Option Json
  | [] => none
  | name :: path => (Json.lookup name s).bind (·.descend? path)

/-! ## Known values -/

/-- A number as JSON: whole numbers below nine quadrillion are written as such. -/
def Json.number (x : Float) : Json :=
  if x.floor == x && x.abs < 9.0e15 then .int x.toInt64.toInt else .ofFloat x

/-- The value of a literal.  A percentage stays as it was written. -/
def Literal.toValue (l : Literal) : Json :=
  match l.value with
  | .number x | .duration x => .number x
  | .int n => .int n.toInt
  | .percent _ => .str l.raw
  | .boolean b => .bool b
  | .null => .null
  | .string s | .color s => .str s

/-- A whole number that fits 64 bits. -/
def checked (n : Int) : Option Json :=
  if Number.fits64 n then some (.int n) else none

/-- A number as a whole number of 64 bits. -/
def Json.asInt? : Json → Option Int
  | .int n => if Number.fits64 n then some n else none
  | _ => none

/-- A number as a double. -/
def Json.asFloat? : Json → Option Float
  | .int n => some (.ofInt n)
  | .float x => some x
  | _ => none

/-- The value of an operation on a known value, if it has one. -/
def foldUnary (op : UnaryOp) (v : Json) : Option Json :=
  match op with
  | .not => match v with
    | .bool b => some (.bool !b)
    | _ => none
  | .neg => match v.asInt? with
    | some n => checked (-n)
    | none => v.asFloat?.map fun x => .number (-x)

/-- The value of an operation on whole numbers, if it is one of 64 bits. -/
def foldInts (op : BinaryOp) (m n : Int) : Option Json :=
  match op with
  | .add => checked (m + n)
  | .sub => checked (m - n)
  | .mul => checked (m * n)
  -- The least integer over minus one has a quotient that does not fit, and is left to doubles
  | .rem => if n = 0 || (m = -(Number.twoTo 63 : Int) && n = -1) then none else checked (m.tmod n)
  | _ => none

/-- The value of an operation on doubles, if it has one. -/
def foldFloats (op : BinaryOp) (x y : Float) : Option Json :=
  match op with
  | .lt => some (.bool (x < y))
  | .le => some (.bool (x ≤ y))
  | .gt => some (.bool (y < x))
  | .ge => some (.bool (y ≤ x))
  | .add => some (.number (x + y))
  | .sub => some (.number (x - y))
  | .mul => some (.number (x * y))
  | .div => if y == 0 then none else some (.number (x / y))
  | .rem => if y == 0 then none else some (.number (Number.remainder x y))
  | _ => none

/-- The value of an operation on two numbers: on whole numbers where that has one, else on
doubles. -/
def foldNumbers (op : BinaryOp) (a b : Json) : Option Json :=
  let whole := match a.asInt?, b.asInt? with
    | some m, some n => foldInts op m n
    | _, _ => none
  match whole with
  | some v => some v
  | none => match a.asFloat?, b.asFloat? with
    | some x, some y => foldFloats op x y
    | _, _ => none

/-- The value of an operation on two known values, if it has one. -/
def foldBinary (op : BinaryOp) (a b : Json) : Option Json :=
  match op with
  | .eq => some (.bool (a == b))
  | .ne => some (.bool (a != b))
  | .and => match a, b with
    | .bool p, .bool q => some (.bool (p && q))
    | _, _ => none
  | .or => match a, b with
    | .bool p, .bool q => some (.bool (p || q))
    | _, _ => none
  | .add => match a, b with
    | .str s, .str t => some (.str (s ++ t))
    | _, _ => foldNumbers .add a b
  | op => foldNumbers op a b

/-! ## Targets -/

/-- The name that a document has for a reference. -/
def ElementRef.toText : ElementRef → String
  | named id => id
  | wildcard => "*"

namespace Target

mutual

/-- A target as a document names it. -/
def toSpec : Target → TargetSpec
  | element kind ref _ => .element kind ref.toText
  | edge (.byId ref) _ => .edge (some ref.toText) none none
  | edge (.between source destination) _ => .edge none (some source.toText) (some destination.toText)
  | matching key value _ => .matching key value
  | several how members _ => .several how (membersToSpec members)
  | except base removed _ => .except base.toSpec removed.toSpec

/-- Several targets as a document names them. -/
def membersToSpec : List Target → List TargetSpec
  | [] => []
  | t :: ts => t.toSpec :: membersToSpec ts

end

/-- A target as a value. -/
def toValue (t : Target) : Json :=
  t.toSpec.toJson.settle

end Target

/-! ## Evaluation -/

/-- A value, and whether it is known before the tour is played. -/
structure Evaluated where
  value : Json
  known : Bool
deriving Repr, Inhabited

namespace Evaluated

/-- A known value. -/
def ofKnown (v : Json) : Evaluated := ⟨v, true⟩

/-- What is left to the player. -/
def deferred (v : Json) : Evaluated := ⟨v, false⟩

/-- The result of an operation: its value if it is known and there is one, else the operation. -/
def ofFold (known : Bool) (value : Option Json) (operation : Json) : Evaluated :=
  match known, value with
  | true, some v => ofKnown v
  | _, _ => deferred operation

end Evaluated

/-- The payload of a call: positional arguments in a list, named ones by name. -/
def callPayload (positional : List Json) (named : List (String × Json)) : List (String × Json) :=
  if positional.isEmpty then named else Json.put "args" (.arr positional) named

/-- An action with the arguments of a call, which are given as they were written. -/
def callAction (callee : String) (args : List (Option String × Json)) : Action :=
  if args.isEmpty then ⟨callee, none⟩
  else
    -- Positional arguments win over a named one that is called `args`
    let named := args.filterMap fun (name, v) => name.map fun k => (k, v)
    let positional := args.filterMap fun (name, v) => if name.isNone then some v else none
    ⟨callee, some (.obj (callPayload positional (Json.mapOf named)))⟩

/-- An action as a value. -/
def Action.toValue (a : Action) : Json :=
  .object (("type", .str a.kind) :: Json.fieldIfSome "payload" id a.payload)

namespace Expr

mutual

/-- The value of an expression. -/
def eval (scope : Scope) : Expr → Noted Evaluated
  | literal l _ => pure (.ofKnown l.toValue)
  | var path span =>
    match scope.lookup? path with
    | some v => pure (.ofKnown v)
    | none => do
      Noted.note (.unresolvedVariable (".".intercalate path)) span
      pure (.ofKnown .null)
  | object entries _ => do
    let fields ← evalEntries scope entries
    pure ⟨.object (fields.map fun f => (f.1, f.2.value)), fields.all fun f => f.2.known⟩
  | array items _ => do
    let values ← evalItems scope items
    pure ⟨.arr (values.map Evaluated.value), values.all Evaluated.known⟩
  | call ⟨callee, args⟩ _ => do
    let values ← evalArgs scope args
    pure (.deferred (callAction callee values).toValue)
  | unary op operand _ => do
    let v ← eval scope operand
    pure (.ofFold v.known (foldUnary op v.value)
      (.object [("op", .str op.symbol), ("operand", v.value)]))
  | binary op left right _ => do
    let a ← eval scope left
    let b ← eval scope right
    pure (.ofFold (a.known && b.known) (foldBinary op a.value b.value)
      (.object [("op", .str op.symbol), ("left", a.value), ("right", b.value)]))
  | target t _ => pure (.ofKnown t.toValue)

/-- The values of entries. -/
def evalEntries (scope : Scope) : List (Entry Expr) → Noted (List (String × Evaluated))
  | [] => pure []
  | ⟨key, value, _⟩ :: rest => do
    let v ← eval scope value
    let vs ← evalEntries scope rest
    pure ((key, v) :: vs)

/-- The values of items. -/
def evalItems (scope : Scope) : List Expr → Noted (List Evaluated)
  | [] => pure []
  | e :: rest => do
    let v ← eval scope e
    let vs ← evalItems scope rest
    pure (v :: vs)

/-- The values of arguments. -/
def evalArgs (scope : Scope) : List (Argument Expr) → Noted (List (Option String × Json))
  | [] => pure []
  | ⟨name, value⟩ :: rest => do
    let v ← eval scope value
    let vs ← evalArgs scope rest
    pure ((name, v.value) :: vs)

end

/-- The value of an expression, known or not. -/
def valueIn (scope : Scope) (e : Expr) : Noted Json := do
  return (← e.eval scope).value

end Expr

/-- The action of a call. -/
def Call.toAction (scope : Scope) (c : Call Expr) : Noted Action := do
  return callAction c.callee (← Expr.evalArgs scope c.args)

end DiagramTour
