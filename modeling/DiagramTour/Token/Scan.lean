import DiagramTour.Diagnostic
import DiagramTour.Number.Reading
import DiagramTour.Text.Blank
import DiagramTour.Text.Letter
import DiagramTour.Token.Basic

/-!
# From text to tokens

Each kind of token has a function that says what it recognises at the head of a text and how many
characters it covers: a `Munch`.  `munch?` tries the kinds in order, and `pieces` cuts the text
into tokens and characters that begin none, after skipping blanks and comments.  Nothing is ever
refused: a string without its closing quote is still a token, and a character that begins no token
is skipped.

A line comment opens with two slashes or with a number sign that does not open a colour.
-/

namespace DiagramTour

/-- What is recognised at the head of a text. -/
structure Munch where
  lexeme : Lexeme
  /-- How many characters it covers. -/
  length : Nat
  /-- Whether a quoted text has its closing quote. -/
  closed : Bool := true
  length_pos : 0 < length := by omega

/-! ## Blanks, comments and colours -/

/-- A hexadecimal digit of either case. -/
def isHexDigit (c : Char) : Bool :=
  c.isDigit || ('a' ≤ c && c ≤ 'f') || ('A' ≤ c && c ≤ 'F')

/-- How many digits a colour has, if the text after a number sign is one. -/
def colorDigits? (cs : List Char) : Option Nat :=
  let n := (cs.takeWhile isHexDigit).length
  -- Three digits or six, and nothing that makes them longer
  if n = 3 ∨ n = 6 then
    match (cs.dropWhile isHexDigit).head? with
    | some c => if goesOn c then none else some n
    | none => some n
  else none
where
  /-- What would make the digits part of something longer. -/
  goesOn (c : Char) : Bool := Text.continuesWord c || c == '-'

/-- Whether a line comment opens here. -/
def opensComment : List Char → Bool
  | '/' :: '/' :: _ => true
  | '#' :: cs => (colorDigits? cs).isNone
  | _ => false

mutual

/-- How many characters at the head of a text are blanks and comments. -/
def triviaLength : List Char → Nat
  | [] => 0
  | c :: cs =>
    if Text.isBlank c then triviaLength cs + 1
    else if opensComment (c :: cs) then commentLength cs + 1
    else 0

/-- The same inside a comment, which a line feed ends. -/
def commentLength : List Char → Nat
  | [] => 0
  | c :: cs => if c = '\n' then triviaLength cs + 1 else commentLength cs + 1

end

/-! ## The kinds of token -/

/-- A letter or underscore of ASCII, which may begin the tag of a raw block. -/
def startsTag (c : Char) : Bool :=
  c.isAlpha || c == '_'

/-- What may follow in a tag. -/
def continuesTag (c : Char) : Bool :=
  c.isAlphanum || c == '_' || c == '-'

/-- The text without the carriage returns at its end. -/
def trimReturns (cs : List Char) : List Char :=
  (cs.reverse.dropWhile (· == '\r')).reverse

/-- The lines before the first line that consists of the closing mark, each with its line feed.
Carriage returns at the end of a line do not count. -/
def linesBefore? (mark : List Char) (cs : List Char) : Option (List Char) :=
  let line := cs.takeWhile (· != '\n')
  -- The closing line itself does not count
  if trimReturns line = mark then some []
  else
    match _h : cs.dropWhile (· != '\n') with
    | [] => none
    | c :: rest => (linesBefore? mark rest).map fun body => line ++ c :: body
termination_by cs.length
decreasing_by
  have := congrArg List.length (List.takeWhile_append_dropWhile (p := (· != '\n')) (l := cs))
  rw [_h, List.length_append, List.length_cons] at this
  omega

/-- The body of a raw block without the line feed before the closing line. -/
def bodyOfLines (lines : List Char) : List Char :=
  match lines.reverse with
  -- The last line feed belongs to the closing line
  | '\n' :: rest => trimReturns rest.reverse
  | _ => trimReturns lines

/-- A raw block, after its three opening signs. -/
def heredocTail? (cs : List Char) : Option Munch :=
  match cs with
  | [] => none
  | c :: rest =>
    if startsTag c then
      let tag := c :: rest.takeWhile continuesTag
      let header := (rest.dropWhile continuesTag).takeWhile (· != '\n')
      match (rest.dropWhile continuesTag).dropWhile (· != '\n') with
      | [] => none
      | _ :: text =>
        if header.all Text.isBlank then
          let mark := tag ++ ['>', '>', '>']
          -- The length: three signs, the tag and its line with the line feed, the lines, the mark
          (linesBefore? mark text).map fun lines =>
            { lexeme := .heredoc (String.ofList tag) (String.ofList (bodyOfLines lines))
              length := 4 + tag.length + header.length + lines.length + mark.length }
        else none
    else none

/-- A raw block. -/
def heredoc? : List Char → Option Munch
  | '<' :: '<' :: '<' :: cs => heredocTail? cs
  | _ => none

/-- What a quoted text says after its opening quote: its value, how many characters it covers, and
whether the closing quote is there.  A line feed ends it as the end of the text does. -/
def quotedBody (quote : Char) : List Char → List Char × Nat × Bool
  | [] => ([], 0, false)
  | c :: cs =>
    if c = '\n' then ([], 0, false)
    else if c = quote then ([], 1, true)
    else if c = '\\' then
      match cs with
      -- A backslash with nothing after it stands for itself
      | [] => (['\\'], 1, false)
      | e :: rest =>
        if e = '\n' then (['\\'], 1, false)
        else
          let (value, n, closed) := quotedBody quote rest
          (resolve e ++ value, n + 2, closed)
    else
      let (value, n, closed) := quotedBody quote cs
      (c :: value, n + 1, closed)
where
  /-- What a backslash and the character after it stand for. -/
  resolve (e : Char) : List Char :=
    if e = 'n' then ['\n'] else if e = 't' then ['\t'] else if e = 'r' then ['\r']
    else if e = '\x22' then ['\x22'] else if e = '\\' then ['\\'] else ['\\', e]

/-- A quoted text. -/
def string? : List Char → Option Munch
  | [] => none
  | c :: cs =>
    if c = '\x22' ∨ c = '\x27' then
      let (value, n, closed) := quotedBody c cs
      some { lexeme := .string (String.ofList value), length := n + 1, closed }
    else none

/-- A colour. -/
def color? : List Char → Option Munch
  | '#' :: cs => (colorDigits? cs).map fun n => { lexeme := .color, length := n + 1 }
  | _ => none

/-- What follows the digits of a number: its unit, if any, and the length of the unit. -/
inductive NumberUnit where
  | milliseconds
  | seconds
  | minutes
  | percent
  | none
deriving DecidableEq, Repr

/-- Whether no word goes on here. -/
def endsWord (cs : List Char) : Bool :=
  match cs with
  | [] => true
  | c :: _ => !Text.continuesWord c

/-- The unit at the head of what follows the digits. -/
def unitOf : List Char → NumberUnit
  | 'm' :: 's' :: cs => if endsWord cs then .milliseconds else .none
  | 's' :: cs => if endsWord cs then .seconds else .none
  | 'm' :: cs => if endsWord cs then .minutes else .none
  | '%' :: _ => .percent
  | _ => .none

/-- The characters of a unit. -/
def NumberUnit.length : NumberUnit → Nat
  | milliseconds => 2
  | seconds | minutes | percent => 1
  | none => 0

/-- The digits after a point, if a point and a digit stand here. -/
def fractionDigits : List Char → List Char
  | '.' :: cs => cs.takeWhile Char.isDigit
  | _ => []

/-- A number without its sign; `negative` says what the sign was and `sign` how long. -/
def unsigned? (negative : Bool) (sign : Nat) (cs : List Char) : Option Munch :=
  let whole := cs.takeWhile Char.isDigit
  if whole.isEmpty then none
  else
    let rest := cs.dropWhile Char.isDigit
    let fraction := fractionDigits rest
    -- A point without a digit after it is left for later
    let pointed := if fraction.isEmpty then 0 else fraction.length + 1
    let magnitude := Number.floatOfDigits whole fraction
    let value := if negative then -magnitude else magnitude
    let unit := unitOf (rest.drop pointed)
    let lexeme := match unit with
      | .milliseconds => Lexeme.duration value
      | .seconds => .duration (value * 1000)
      | .minutes => .duration (value * 60000)
      | .percent => .percent value
      | .none => if fraction.isEmpty then .int value else .number value
    if h : 0 < whole.length then
      some { lexeme, length := sign + whole.length + pointed + unit.length }
    else none

/-- A number.  Its sign belongs to it only where a sign is allowed. -/
def number? (signAllowed : Bool) : List Char → Option Munch
  | [] => none
  | c :: cs =>
    if c = '-' then if signAllowed then unsigned? true 1 cs else none
    else if c = '+' then if signAllowed then unsigned? false 1 cs else none
    else unsigned? false 0 (c :: cs)

/-- How many characters go on with a word; a hyphen does only before a character that does. -/
def wordTail : List Char → Nat
  | [] => 0
  | c :: cs =>
    if Text.continuesWord c then wordTail cs + 1
    else if c = '-' then
      match cs with
      | [] => 0
      -- A hyphen joins two parts of a word, and never ends one
      | d :: _ => if Text.continuesWord d then wordTail cs + 1 else 0
    else 0

/-- What a word means. -/
def wordLexeme (word : String) : Lexeme :=
  if word = "true" then .boolean true
  else if word = "false" then .boolean false
  else if word = "null" then .null
  else if isKeyword word then .keyword
  else .identifier

/-- A word. -/
def word? : List Char → Option Munch
  | [] => none
  | c :: cs =>
    if Text.startsWord c then
      let n := wordTail cs
      some { lexeme := wordLexeme (String.ofList (c :: cs.take n)), length := n + 1 }
    else none

/-- The operators of two characters. -/
def isLongOperator (c d : Char) : Bool :=
  [('=', '='), ('!', '='), ('<', '='), ('>', '='), ('&', '&'), ('|', '|'), ('-', '>')].contains
    (c, d)

/-- The operators of one character. -/
def isShortOperator (c : Char) : Bool :=
  ['+', '-', '*', '/', '%', '<', '>', '!', '='].contains c

/-- An operator; two characters are preferred to one. -/
def operator? : List Char → Option Munch
  | [] => none
  | [c] => if isShortOperator c then some { lexeme := .operator, length := 1 } else none
  | c :: d :: _ =>
    if isLongOperator c d then some { lexeme := .operator, length := 2 }
    else if isShortOperator c then some { lexeme := .operator, length := 1 }
    else none

/-- The punctuation marks. -/
def isPunctuation (c : Char) : Bool :=
  ['\x7b', '\x7d', '(', ')', '[', ']', ',', ':', ';', '.', '$'].contains c

/-- A punctuation mark. -/
def punct? : List Char → Option Munch
  | [] => none
  | c :: _ => if isPunctuation c then some { lexeme := .punct, length := 1 } else none

/-- What is recognised at the head of a text: the kinds are tried in this order. -/
def munch? (signAllowed : Bool) (cs : List Char) : Option Munch :=
  heredoc? cs <|> string? cs <|> color? cs <|> number? signAllowed cs <|> word? cs <|>
    operator? cs <|> punct? cs

/-! ## Cutting a text into pieces -/

/-- Whether a sign after this token may belong to a number: not after anything that can end an
operand. -/
def Token.allowsSign (t : Token) : Bool :=
  match t.lexeme with
  | .operator | .keyword => true
  | .punct => !(t.image == ")" || t.image == "]" || t.image == "\x7d")
  | _ => false

/-- A piece of the source that is neither blank nor comment. -/
inductive Piece where
  /-- A token; `closed` is false for a string without its closing quote. -/
  | token (t : Token) (closed : Bool)
  /-- A character that begins no token. -/
  | stray (c : Char) (span : Span)

namespace Piece

/-- The token, if the piece is one. -/
def token? : Piece → Option Token
  | token t _ => some t
  | stray _ _ => none

/-- What is wrong with the piece, if anything. -/
def diagnostic? : Piece → Option Diagnostic
  | token t closed => if closed then none else some ⟨.unterminatedString, t.span⟩
  | stray c span => some ⟨.unexpectedCharacter c, span⟩

end Piece

/-- A source text cut into pieces. -/
structure Lexed where
  pieces : List Piece
  /-- Where the text ends. -/
  stop : Position

/-- The pieces of a text that begins at a place. -/
def lexFrom (signAllowed : Bool) (p : Position) (cs : List Char) : Lexed :=
  let skipped := triviaLength cs
  let start := p.advance (cs.take skipped)
  match _h : cs.drop skipped with
  | [] => ⟨[], start⟩
  | c :: rest =>
    match munch? signAllowed (c :: rest) with
    | some m =>
      let image := (c :: rest).take m.length
      let stop := start.advance image
      let t : Token := ⟨m.lexeme, String.ofList image, ⟨start, stop⟩⟩
      let tail := lexFrom t.allowsSign stop ((c :: rest).drop m.length)
      { tail with pieces := .token t m.closed :: tail.pieces }
    | none =>
      -- A stray character is as good as a blank: it does not decide about a sign
      let stop := start.next c
      let tail := lexFrom signAllowed stop rest
      { tail with pieces := .stray c ⟨start, stop⟩ :: tail.pieces }
termination_by cs.length
decreasing_by
  all_goals
    have hlen := congrArg List.length _h
    simp only [List.length_drop, List.length_cons] at hlen ⊢
  · have := m.length_pos
    omega
  · omega

/-- The pieces of a whole source text. -/
def lex (source : String) : Lexed :=
  lexFrom true .start source.toList

namespace Lexed

/-- The tokens before the end of the text. -/
def tokens (l : Lexed) : List Token :=
  l.pieces.filterMap Piece.token?

/-- The tokens, the end of the text included. -/
def stream (l : Lexed) : List Token :=
  l.tokens ++ [.endAt l.stop]

/-- What is wrong with the pieces, in source order. -/
def diagnostics (l : Lexed) : List Diagnostic :=
  l.pieces.filterMap Piece.diagnostic?

end Lexed

end DiagramTour
