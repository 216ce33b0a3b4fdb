import DiagramTour.Json.Places
import DiagramTour.Token.Basic

/-!
# Tokens as JSON

A token is written with the name of its kind, its value, its text and the two ends of its span.
The value is tagged by what it is: a text, a number, a number of milliseconds, a truth value, a raw
block, or nothing.
-/

namespace DiagramTour.Token

/-- A value with the tag of its kind. -/
def tagged (tag : String) (value : Json) : Json :=
  .obj [(tag, value)]

/-- The value of a token. -/
def valueJson (t : Token) : Json :=
  match t.lexeme with
  | .keyword | .identifier | .color | .operator | .punct => tagged "Text" (.str t.image)
  | .string value => tagged "Text" (.str value)
  | .number x | .int x | .percent x => tagged "Number" (.ofFloat x)
  | .duration ms => tagged "Millis" (.ofFloat ms)
  | .boolean b => tagged "Bool" (.bool b)
  | .heredoc tag body =>
    tagged "Heredoc" (.obj [("tag", .str tag), ("body", .str body)])
  | .null | .eof => .str "None"

/-- A token with all that is known of it. -/
def toJson (t : Token) : Json :=
  .obj [("kind", .str t.lexeme.kindName), ("value", t.valueJson), ("image", .str t.image),
    ("start", t.span.start.toJson), ("end", t.span.stop.toJson)]

end DiagramTour.Token
