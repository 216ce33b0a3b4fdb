import DiagramTour.Number.Shortest

/-!
# JSON values

A number is whole or a double; the two never equal each other.  The fields of an object are kept
in the order of its list.  An object that stands for a map has its keys in ascending order and
each key once: `Json.put` keeps that order, and of two values for one key the last wins.
-/

namespace DiagramTour

/-- A JSON value. -/
inductive Json where
  | null
  | bool (value : Bool)
  /-- A number written without point and exponent. -/
  | int (value : Int)
  /-- Any other number. -/
  | float (value : Float)
  | str (value : String)
  | arr (items : List Json)
  | obj (fields : List (String × Json))
deriving Repr, Inhabited

namespace Json

/-! ## Equality -/

mutual

/-- Whether two values are the same; doubles are compared as numbers. -/
def same : Json → Json → Bool
  | null, null => true
  | bool a, bool b => a == b
  | int a, int b => a == b
  | float a, float b => a == b
  | str a, str b => a == b
  | arr as, arr bs => sameItems as bs
  | obj as, obj bs => sameFields as bs
  | _, _ => false

/-- Whether two lists of values are the same, one by one. -/
def sameItems : List Json → List Json → Bool
  | [], [] => true
  | a :: as, b :: bs => same a b && sameItems as bs
  | _, _ => false

/-- Whether two lists of fields are the same, one by one. -/
def sameFields : List (String × Json) → List (String × Json) → Bool
  | [], [] => true
  | (k, a) :: as, (l, b) :: bs => k == l && same a b && sameFields as bs
  | _, _ => false

end

instance : BEq Json := ⟨same⟩

/-! ## Maps -/

/-- Sets one key of a map. -/
def put (key : String) (value : Json) : List (String × Json) → List (String × Json)
  | [] => [(key, value)]
  | (k, v) :: rest =>
    if key = k then (key, value) :: rest
    else if key < k then (key, value) :: (k, v) :: rest
    else (k, v) :: put key value rest

/-- The map that a list of fields describes. -/
def mapOf (fields : List (String × Json)) : List (String × Json) :=
  fields.foldl (fun m f => put f.1 f.2 m) []

/-- The value of a key. -/
def lookup (key : String) (fields : List (String × Json)) : Option Json :=
  (fields.find? fun f => f.1 == key).map Prod.snd

/-- The object that stands for the map of some fields. -/
def object (fields : List (String × Json)) : Json :=
  obj (mapOf fields)

mutual

/-- The value with every object in it turned into a map. -/
def settle : Json → Json
  | arr items => arr (settleItems items)
  | obj fields => obj (mapOf (settleFields fields))
  | j => j

/-- The same for the items of a list. -/
def settleItems : List Json → List Json
  | [] => []
  | j :: js => settle j :: settleItems js

/-- The same for the values of fields. -/
def settleFields : List (String × Json) → List (String × Json)
  | [] => []
  | (k, j) :: fs => (k, settle j) :: settleFields fs

end

/-! ## Leaves -/

/-- A double as a number; infinities and the like have no number and become null. -/
def ofFloat (x : Float) : Json :=
  if x.isFinite then float x else null

/-- A natural number. -/
def nat (n : Nat) : Json :=
  int n

/-- The text of a value, or null without one. -/
def optional (f : α → Json) : Option α → Json
  | some a => f a
  | none => null

/-! ## Fields -/

/-- A field that may be missing. -/
def fieldIfSome (key : String) (f : α → Json) : Option α → List (String × Json)
  | some a => [(key, f a)]
  | none => []

/-- A field that is left out when it is empty. -/
def fieldUnless (key : String) (isEmpty : Bool) (value : Json) : List (String × Json) :=
  if isEmpty then [] else [(key, value)]

end Json

end DiagramTour
