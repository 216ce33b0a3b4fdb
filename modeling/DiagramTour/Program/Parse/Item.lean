import DiagramTour.Program.Parse.Step

/-!
# Reading programs

The declarations of a program and the program itself.  Only a deck among the declarations holds
declarations, so `Cursor.item` is recursive for decks alone.
-/

namespace DiagramTour

namespace Parse

/-! ## Declarations without declarations in them -/

/-- A plugin. -/
def plugin : Parse Plugin := do
  let start ← start
  expectKeyword "use"
  let source ← optionalString
  if source.isNone then
    unexpected "a plugin string"
  let localName ← do
    if ← eatKeyword "as" then name? "a plugin alias" else pure none
  let options ← do
    if ← look (·.atPunct Cursor.openBrace) then some <$> object else pure none
  eatPunct ";"
  return ⟨source.getD "", localName, options, ← spanFrom start⟩

/-- What a diagram holds. -/
inductive DiagramPart where
  | source (source : DiagramSource)
  | config (value : Expr)
  | assets (value : Expr)
  /-- A part that was reported. -/
  | nothing

/-- The text of a diagram that a token quotes. -/
def sourceOf? (t : Token) : Option DiagramSource :=
  match t.lexeme with
  | .heredoc tag body => some (.heredoc tag body)
  | .string text => some (.quoted text)
  | _ => none

/-- A part of a diagram. -/
def diagramPart? : Parse (Option DiagramPart) := do
  if ← eatKeyword "mermaid" then
    match sourceOf? (← look Cursor.peek) with
    | some source =>
      let _ ← next
      return some (.source source)
    | none =>
      unexpected "a heredoc or string with diagram source"
      return some .nothing
  else if ← eatKeyword "config" then
    return some (.config (← object))
  else if ← eatKeyword "assets" then
    return some (.assets (← object))
  else
    return none

/-- Adds a part to a diagram; a later part overrides an earlier one. -/
def DiagramPart.addTo (d : Diagram) : DiagramPart → Diagram
  | .source s => { d with source := some s }
  | .config e => { d with config := some e }
  | .assets e => { d with assets := some e }
  | .nothing => d

/-- A diagram. -/
def diagram : Parse Diagram := do
  let start ← start
  expectKeyword "diagram"
  let name ← optionalName
  let parts ← block "a diagram setting" diagramPart?
  let span ← spanFrom start
  return parts.foldl DiagramPart.addTo ⟨name, none, none, none, span⟩

/-- The part of the player whose word comes next, and how its settings are read. -/
def sectionKind? : Parse (Option (SectionKind × EntryMode)) := do
  if ← eatKeyword "camera" then return some (.camera, .camera)
  else if ← eatKeyword "overlay" then return some (.overlay, .plain)
  else if ← eatKeyword "navigation" then return some (.navigation, .navigation)
  else if ← eatKeyword "performance" then return some (.performance, .plain)
  else return none

/-- The settings of one part of the player. -/
def runtimeSection? : Parse (Option RuntimeSection) := do
  let start ← start
  match ← sectionKind? with
  | some (kind, mode) =>
    let entries ← entries mode
    return some ⟨kind, entries, ← spanFrom start⟩
  | none => return none

/-- Settings of the player. -/
def runtime : Parse Runtime := do
  let start ← start
  expectKeyword "runtime"
  let sections ← block "a runtime section" runtimeSection?
  return ⟨sections, ← spanFrom start⟩

/-- A name for a target. -/
def selector? : Parse (Option Selector) := do
  let start ← start
  if ← look (·.peek.isName) then
    let name ← next
    expectPunct ":"
    let target ← target
    eatPunct ","
    return some ⟨name.text, target, ← spanFrom start⟩
  else
    return none

/-- Named targets. -/
def selectors : Parse Selectors := do
  let start ← start
  expectKeyword "selectors"
  let entries ← block "a selector entry" selector?
  return ⟨entries, ← spanFrom start⟩

/-- Named style values. -/
def styles : Parse Styles := do
  let start ← start
  expectKeyword "styles"
  let entries ← entries .plain
  return ⟨entries, ← spanFrom start⟩

/-! ## Blocks that are not understood -/

/-- Reads up to the brace that matches the `depth` open ones, and tells where what was read ends;
`stop` is where it ended so far. -/
def balanced (depth stop : Nat) (c : Cursor) : Parsed c Nat :=
  if h : c.atEnd then ⟨stop, c.unexpected "`\x7d`", c.size_unexpected_le _⟩
  else
    have hlt : c.advance.size < c.size := Cursor.size_advance_lt (by simpa using h)
    let stop := c.peek.span.stop.offset
    if c.atPunct Cursor.openBrace then
      (balanced (depth + 1) stop c.advance).weaken (Nat.le_of_lt hlt)
    else if c.atPunct Cursor.closeBrace then
      -- This brace closes the one that opened the block
      if depth = 1 then ⟨stop, c.advance, Nat.le_of_lt hlt⟩
      else (balanced (depth - 1) stop c.advance).weaken (Nat.le_of_lt hlt)
    else (balanced depth stop c.advance).weaken (Nat.le_of_lt hlt)
termination_by c.size

/-- Reads the tokens that start on a line, and tells where the last one ends. -/
def restOfLine (line stop : Nat) (c : Cursor) : Parsed c Nat :=
  if h : c.atEnd then .here c stop
  else if c.here.line = line then
    have hlt : c.advance.size < c.size := Cursor.size_advance_lt (by simpa using h)
    (restOfLine line c.peek.span.stop.offset c.advance).weaken (Nat.le_of_lt hlt)
  else .here c stop
termination_by c.size

/-- A declaration that is not understood: after its name a block between braces, or else the rest
of the line. -/
def unknownBlock : Parse UnknownBlock := fun c =>
  let name := c.peek
  let d := c.advance
  let first := d.here.offset
  let body := if d.atPunct Cursor.openBrace then balanced 0 name.span.stop.offset d
    else restOfLine name.span.stop.line name.span.stop.offset d
  -- Nothing at all may follow the name
  let raw := if first < body.value then slice c.source first body.value else []
  ⟨⟨name.image, String.ofList raw, body.next.spanFrom c.here⟩, body.next,
    Nat.le_trans body.le c.size_advance_le⟩

/-! ## Declarations -/

/-- A declaration other than a deck, by its reserved word. -/
def itemOfWord (word : String) : Parse Item :=
  match word with
  | "meta" => .metadata <$> metadata
  | "let" => do
    let definition ← definition
    eatPunct ";"
    return .define definition
  | "use" => .plugin <$> plugin
  | "diagram" => .diagram <$> diagram
  | "runtime" => .runtime <$> runtime
  | "selectors" => .selectors <$> selectors
  | "styles" => .styles <$> styles
  | "scene" => .scene <$> scene
  | "binding" => .binding <$> binding
  | _ => .unknown <$> unknownBlock

end Parse

namespace Cursor

/-- A declaration, if a word comes next. -/
def item (c : Cursor) : Parsed c (Option Item) :=
  if h : c.atKeyword "deck" then
    have hlt := size_advance_lt (atEnd_eq_false_of_atKeyword h)
    let items := c.advance.block "a deck declaration" fun d _ => d.item
    ⟨some (.deck items.value (items.next.spanFrom c.here)), items.next,
      Nat.le_trans items.le (Nat.le_of_lt hlt)⟩
  else
    match c.peek.lexeme with
    | .keyword => (Parse.itemOfWord c.peek.image c).map some
    | .identifier => (Parse.unknownBlock c).map fun u => some (.unknown u)
    | _ => .here c none
termination_by c.size
decreasing_by omega

/-- The declarations up to the end of the text.  After a deck that comes first nothing else should
come; what comes is read all the same. -/
def items (first afterDeck : Bool) (c : Cursor) : Parsed c (List Item) :=
  if hstop : c.atEnd then .here c []
  else
    -- Reported once, at the first token after the deck
    let d := if afterDeck then c.unexpected "end of input after `deck` block" else c
    have hd : d.size ≤ c.size := by
      simp only [d]
      split <;> simp
    let turn := d.item
    have hlt := size_afterTurn_lt (by simpa using hstop) (Nat.le_trans turn.le hd) "a declaration"
    let tail := items (first && turn.value.isNone) (first && d.atKeyword "deck")
      (c.afterTurn turn.next "a declaration")
    (tail.map (turn.value.toList ++ ·)).weaken (Nat.le_of_lt hlt)
termination_by c.size

end Cursor

namespace Parse

/-- The further parts of a version, each a point and a number. -/
def versionTail (c : Cursor) : Parsed c String :=
  if h : c.atPunct "." && isVersionPart c.second then
    have hlt : c.advance.size < c.size :=
      Cursor.size_advance_lt (Cursor.atEnd_eq_false_of_atPunct (by
        simpa using (Bool.and_eq_true_iff.1 h).1))
    have hle : c.advance.advance.size < c.size :=
      Nat.lt_of_le_of_lt (Cursor.size_advance_le _) hlt
    ((versionTail c.advance.advance).map ("." ++ c.second.image ++ ·)).weaken (Nat.le_of_lt hle)
  else .here c ""
termination_by c.size
where
  /-- Whether a token is a number without a unit. -/
  isVersionPart (t : Token) : Bool :=
    match t.lexeme with
    | .number _ | .int _ => true
    | _ => false

/-- The parts of a version: what is no number, or too great a one, counts as zero. -/
def versionParts (raw : String) : List Nat :=
  (raw.splitOn ".").map fun part => (Number.nat64? part).getD 0

/-- A version. -/
def version : Parse Version := do
  let start ← start
  if ← look (versionTail.isVersionPart ·.peek) then
    let first ← next
    let tail ← versionTail
    let raw := first.image ++ tail
    return ⟨raw, versionParts raw, ← spanFrom start⟩
  else
    unexpected "a version number"
    return ⟨"", [], .point start⟩

/-- A program; nothing if its first word is missing. -/
def program? : Parse (Option Program) := do
  let start ← start
  if ← look (·.atKeyword "mpd") then
    expectKeyword "mpd"
    let version ← version
    let items ← Cursor.items true false
    let stop ← look (·.peek.span.stop)
    return some ⟨version, items, ⟨start, stop⟩⟩
  else
    expectKeyword "mpd"
    return none

end Parse

/-- What could be read of a source text. -/
structure ParseResult where
  /-- The program; missing only when the text does not begin as one. -/
  program : Option Program
  /-- What is wrong with the tokens, then what is wrong with the grammar. -/
  diagnostics : List Diagnostic

/-- The cursor before the first token. -/
def Cursor.ofLexed (source : List Char) (lexed : Lexed) : Cursor :=
  ⟨source, lexed.tokens, lexed.stop, .start, #[]⟩

/-- Reads a source text. -/
def parse (source : String) : ParseResult :=
  let lexed := lex source
  let read := Parse.program? (.ofLexed source.toList lexed)
  ⟨read.value, lexed.diagnostics ++ read.next.reports.toList⟩

end DiagramTour
