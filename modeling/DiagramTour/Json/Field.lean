import DiagramTour.Json.Basic
import DiagramTour.Number.Reading

/-!
# Taking JSON values apart

A record is an object with known keys, of which others are ignored, or a list of the values in the
order of the keys.  A tagged record names its kind under a key of its own, or before its values.
-/

namespace DiagramTour.Json

/-! ## Leaves -/

/-- A text. -/
def text? : Json → Option String
  | str s => some s
  | _ => none

/-- A truth value. -/
def bool? : Json → Option Bool
  | bool b => some b
  | _ => none

/-- A natural number. -/
def nat? : Json → Option Nat
  | int n => if 0 ≤ n then some n.toNat else none
  | _ => none

/-- A whole number of 64 bits. -/
def int64? : Json → Option Int64
  | int n => if Number.fits64 n then some (.ofInt n) else none
  | _ => none

/-- Any number as a double. -/
def float? : Json → Option Float
  | int n => some (.ofInt n)
  | float x => some x
  | _ => none

/-- A list of parts. -/
def list? (part : Json → Option α) : Json → Option (List α)
  | arr items => items.mapM part
  | _ => none

/-! ## Records -/

/-- The values of some keys, of which any may be missing in an object and none in a list. -/
def values? (keys : List String) : Json → Option (List (Option Json))
  | obj fields => some (keys.map fun k => lookup k fields)
  | arr items => if items.length = keys.length then some (items.map some) else none
  | _ => none

/-- A value that has to be there. -/
def required (part : Json → Option α) : Option Json → Option α
  | some j => part j
  | none => none

/-- A value that may be missing or null. -/
def optional? (part : Json → Option α) : Option Json → Option (Option α)
  | none | some .null => some none
  | some j => (part j).map some

/-- The kind that a tag names; a kind may also be given by its place among all. -/
def tagOf? (tags : List String) : Json → Option String
  | str s => if tags.contains s then some s else none
  | int n => if 0 ≤ n then tags[n.toNat]? else none
  | _ => none

/-- The kind of a record, as `kindOf` reads its tag, and the record without it. -/
def tagged? (key : String) (kindOf : Json → Option String) : Json → Option (String × Json)
  | obj fields => do
    let tag ← kindOf (← lookup key fields)
    return (tag, obj fields)
  | arr (tag :: items) => do
    let tag ← kindOf tag
    return (tag, arr items)
  | _ => none

/-- One of some names; it may also be the only key of an object, with null or an empty object for
its value. -/
def name? (ofName : String → Option α) : Json → Option α
  | str s => ofName s
  | obj [(k, null)] | obj [(k, obj [])] => ofName k
  | _ => none

/-- The kind of a value, which is one of some names, and the value, which may be missing in an
object. -/
def valued? (key valueKey : String) (ofName : String → Option α) : Json → Option (α × Option Json)
  | obj fields => do
    let tag ← name? ofName (← lookup key fields)
    return (tag, lookup valueKey fields)
  | arr [tag, value] => do
    let tag ← name? ofName tag
    return (tag, some value)
  | _ => none

mutual

/-- How deeply a value is nested. -/
def depth : Json → Nat
  | arr items => depthOfItems items + 1
  | obj fields => depthOfFields fields + 1
  | _ => 1

/-- The greatest depth of some items. -/
def depthOfItems : List Json → Nat
  | [] => 0
  | j :: js => max (depth j) (depthOfItems js)

/-- The greatest depth of the values of some fields. -/
def depthOfFields : List (String × Json) → Nat
  | [] => 0
  | (_, j) :: fs => max (depth j) (depthOfFields fs)

end

end DiagramTour.Json
