import DiagramTour.Json.Basic

/-!
# Writing JSON

A value is written on one line without blanks, or over several lines with two blanks of
indentation a level; empty lists and objects stay on one line in both.
-/

namespace DiagramTour.Json

/-- Doubles are written positionally while the leading digit counts `10 ^ -5` to `10 ^ 15`, with
a fraction of zero if they are whole, and with a signed exponent outside. -/
def floatFormat : Number.FloatFormat :=
  { lowest := -5, highest := 15, up := "e+", down := "e-", whole := ".0" }

/-- A hexadecimal number of four digits. -/
def hex4 (n : Nat) : String :=
  let ds := Nat.toDigits 16 n
  String.ofList (List.replicate (4 - ds.length) '0' ++ ds)

/-- How one character of a text is written. -/
def escape (c : Char) : String :=
  if c == '\x22' then "\\\""
  else if c == '\\' then "\\\\"
  else if c == '\n' then "\\n"
  else if c == '\r' then "\\r"
  else if c == '\t' then "\\t"
  else if c == '\x08' then "\\b"
  else if c == '\x0c' then "\\f"
  else if c.toNat < 0x20 then "\\u" ++ hex4 c.toNat
  else c.toString

/-- A text between quotes. -/
def quote (s : String) : String :=
  "\"" ++ String.join (s.toList.map escape) ++ "\""

/-- A value without parts. -/
def leaf : Json → String
  | null => "null"
  | bool b => if b then "true" else "false"
  | int n => toString n
  | float x => if x.isFinite then floatFormat.write x else "null"
  | str s => quote s
  | arr _ | obj _ => ""

mutual

/-- A value on one line. -/
def compact : Json → String
  | arr items => "[" ++ compactItems items ++ "]"
  | obj fields => "\x7b" ++ compactFields fields ++ "\x7d"
  | j => leaf j

/-- Items with commas between them. -/
def compactItems : List Json → String
  | [] => ""
  | [j] => compact j
  | j :: js => compact j ++ "," ++ compactItems js

/-- Fields with commas between them. -/
def compactFields : List (String × Json) → String
  | [] => ""
  | [(k, j)] => quote k ++ ":" ++ compact j
  | (k, j) :: fs => quote k ++ ":" ++ compact j ++ "," ++ compactFields fs

end

/-- A new line at a level of indentation. -/
def newLine (level : Nat) : String :=
  "\n" ++ String.ofList (List.replicate (2 * level) ' ')

mutual

/-- A value over several lines, inside `level` others. -/
def prettyAt (level : Nat) : Json → String
  | arr [] => "[]"
  | arr items => "[" ++ prettyItems (level + 1) items ++ newLine level ++ "]"
  | obj [] => "\x7b\x7d"
  | obj fields => "\x7b" ++ prettyFields (level + 1) fields ++ newLine level ++ "\x7d"
  | j => leaf j

/-- Items on lines of their own. -/
def prettyItems (level : Nat) : List Json → String
  | [] => ""
  | [j] => newLine level ++ prettyAt level j
  | j :: js => newLine level ++ prettyAt level j ++ "," ++ prettyItems level js

/-- Fields on lines of their own. -/
def prettyFields (level : Nat) : List (String × Json) → String
  | [] => ""
  | [(k, j)] => newLine level ++ quote k ++ ": " ++ prettyAt level j
  | (k, j) :: fs => newLine level ++ quote k ++ ": " ++ prettyAt level j ++ "," ++ prettyFields level fs

end

/-- A value over several lines. -/
def pretty (j : Json) : String :=
  prettyAt 0 j

end DiagramTour.Json
