import DiagramTour.Text.Position

/-!
# Tokens

A token is a piece of the source text, the span that it covers, and what it means.  The words of
the language are spelled the same everywhere, so a keyword, an operator and a punctuation mark are
told apart by their text.
-/

namespace DiagramTour

/-- The reserved words. -/
def keywords : List String :=
  ["mpd", "deck", "meta", "let", "use", "diagram", "mermaid", "config", "assets", "runtime",
   "camera", "overlay", "navigation", "performance", "selectors", "styles", "scene", "step", "as",
   "focus", "pad", "align", "lock", "id", "do", "assert", "else", "binding", "priority", "on",
   "target", "when", "node", "edge", "subgraph", "css", "text", "group", "union", "intersect",
   "except", "or", "and"]

/-- The reserved words that open a target. -/
def targetKeywords : List String :=
  ["node", "edge", "subgraph", "css", "id", "text", "group", "union", "intersect", "except"]

/-- Whether a word is reserved. -/
def isKeyword (word : String) : Bool :=
  keywords.contains word

/-- Whether a word opens a target. -/
def isTargetKeyword (word : String) : Bool :=
  targetKeywords.contains word

/-- What a piece of text means. -/
inductive Lexeme where
  /-- A reserved word. -/
  | keyword
  /-- Any other word. -/
  | identifier
  /-- A quoted text, with its escapes resolved. -/
  | string (value : String)
  /-- Digits with a point. -/
  | number (value : Float)
  /-- Digits alone. -/
  | int (value : Float)
  /-- A number with a unit of time, in milliseconds. -/
  | duration (ms : Float)
  /-- A number with a percent sign. -/
  | percent (value : Float)
  /-- One of the two truth values. -/
  | boolean (value : Bool)
  /-- The word for no value. -/
  | null
  /-- A colour by three or six hexadecimal digits. -/
  | color
  /-- An operator of one or two characters. -/
  | operator
  /-- A punctuation mark. -/
  | punct
  /-- A block of raw text between two lines that carry its tag. -/
  | heredoc (tag body : String)
  /-- The end of the text. -/
  | eof
deriving Repr, Inhabited

/-- The name of the kind of a lexeme. -/
def Lexeme.kindName : Lexeme → String
  | keyword => "keyword"
  | identifier => "identifier"
  | string _ => "string"
  | number _ => "number"
  | int _ => "int"
  | duration _ => "duration"
  | percent _ => "percent"
  | boolean _ => "boolean"
  | null => "null"
  | color => "color"
  | operator => "operator"
  | punct => "punct"
  | heredoc _ _ => "heredoc"
  | eof => "eof"

/-- A piece of the source with its meaning. -/
structure Token where
  lexeme : Lexeme
  /-- The text that the token covers. -/
  image : String
  span : Span
deriving Repr, Inhabited

namespace Token

/-- The end of a text that ends at a place. -/
def endAt (p : Position) : Token :=
  ⟨.eof, "", .point p⟩

/-- The text that a token stands for: of a string what it quotes, of all else the token itself. -/
def text (t : Token) : String :=
  match t.lexeme with
  | .string value => value
  | _ => t.image

/-- Whether the token is this reserved word. -/
def isKeyword (t : Token) (word : String) : Bool :=
  match t.lexeme with
  | .keyword => t.image == word
  | _ => false

/-- Whether the token is this punctuation mark. -/
def isPunct (t : Token) (mark : String) : Bool :=
  match t.lexeme with
  | .punct => t.image == mark
  | _ => false

/-- Whether the token is this operator. -/
def isOperator (t : Token) (op : String) : Bool :=
  match t.lexeme with
  | .operator => t.image == op
  | _ => false

/-- Whether the token is a word, reserved or not. -/
def isWord (t : Token) : Bool :=
  match t.lexeme with
  | .keyword | .identifier => true
  | _ => false

/-- Whether the token is a quoted text. -/
def isString (t : Token) : Bool :=
  match t.lexeme with
  | .string _ => true
  | _ => false

/-- Whether the token is a word or a quoted text, either of which may serve as a name. -/
def isName (t : Token) : Bool :=
  t.isWord || t.isString

/-- Whether the token is written with digits alone. -/
def isInt (t : Token) : Bool :=
  match t.lexeme with
  | .int _ => true
  | _ => false

/-- Whether the token is the end of the text. -/
def isEnd (t : Token) : Bool :=
  match t.lexeme with
  | .eof => true
  | _ => false

end Token

end DiagramTour
