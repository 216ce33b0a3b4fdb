import DiagramTour.Text.Position
import DiagramTour.Text.Visible

/-!
# Diagnostics

What can be wrong with a source text, and how it is told.  A `Problem` is a cause; its severity,
its stable code and its wording are functions of it.  Reading a text never stops at a problem:
problems are collected, each with the span it is about, and the reader of the result decides
whether errors matter.
-/

namespace DiagramTour

/-- How bad a problem is. -/
inductive Severity where
  /-- The document is broken here. -/
  | error
  /-- Suspicious, but accepted. -/
  | warning
deriving DecidableEq, Repr, Inhabited

/-- The word for a severity. -/
def Severity.name : Severity → String
  | .error => "error"
  | .warning => "warning"

/-- A cause of complaint about a source text. -/
inductive Problem where
  /-- A character that begins no token. -/
  | unexpectedCharacter (c : Char)
  /-- A string without its closing quote. -/
  | unterminatedString
  /-- A token that does not fit the grammar. -/
  | unexpectedToken (expected found : String)
  /-- The text ended inside a construct. -/
  | unexpectedEnd (expected : String)
  /-- A setting outside a fixed list of values. -/
  | valueNotAllowed (value key : String) (allowed : List String)
  /-- A navigation toggle that is set to something other than a truth value. -/
  | toggleNotBoolean (key : String)
  /-- An event word that is no event kind. -/
  | unknownEvent (word : String) (allowed : List String)
  /-- A set difference without exactly two operands. -/
  | differenceArity
  /-- A navigation toggle that nothing listens to. -/
  | unknownToggle (key : String)
  /-- A declared language version other than the supported one. -/
  | versionMismatch (declared supported : String)
  /-- A step name that occurred before in the same scene. -/
  | duplicateStep (name : String)
  /-- A block that is kept without being understood. -/
  | unknownBlock (name : String)
  /-- An edge that has a wildcard for an endpoint. -/
  | edgeWildcard
  /-- A target by style class, element id or label with an empty text. -/
  | emptyTarget (kind : String)
  /-- A set difference between two wildcards. -/
  | wildcardDifference
  /-- A guard that the document cannot carry. -/
  | unsupportedGuard
  /-- A variable that no declaration binds. -/
  | unresolvedVariable (path : String)
  /-- A step's error policy that is no policy. -/
  | invalidErrorPolicy (got : String)
deriving DecidableEq, Repr, Inhabited

namespace Problem

/-- The stable code, phase before kind. -/
def code : Problem → String
  | unexpectedCharacter _ => "lex/unexpected-character"
  | unterminatedString => "lex/unterminated-string"
  | unexpectedToken _ _ => "parse/unexpected-token"
  | unexpectedEnd _ => "parse/unexpected-eof"
  | valueNotAllowed _ _ _ => "parse/invalid-value"
  | toggleNotBoolean _ => "parse/invalid-value"
  | unknownEvent _ _ => "parse/invalid-value"
  | differenceArity => "parse/unexpected-token"
  | unknownToggle _ => "parse/unknown-toggle"
  | versionMismatch _ _ => "validate/version-mismatch"
  | duplicateStep _ => "validate/duplicate-step"
  | unknownBlock _ => "validate/unknown-block"
  | edgeWildcard => "validate/edge-wildcard"
  | emptyTarget _ => "validate/empty-target"
  | wildcardDifference => "validate/wildcard-except"
  | unsupportedGuard => "normalize/unsupported-when"
  | unresolvedVariable _ => "normalize/unresolved-variable"
  | invalidErrorPolicy _ => "normalize/invalid-error-policy"

/-- What is tolerated warns; everything else is an error. -/
def severity : Problem → Severity
  | unknownToggle _ | versionMismatch _ _ | unknownBlock _ | unsupportedGuard
  | unresolvedVariable _ | invalidErrorPolicy _ => .warning
  | _ => .error

/-- A word between grave accents. -/
def quoteWord (word : String) : String :=
  "`" ++ word ++ "`"

/-- A list of words after the phrase that introduces it. -/
def oneOf (allowed : List String) : String :=
  " (expected one of: " ++ ", ".intercalate allowed ++ ")"

/-- The sentence that tells the problem. -/
def message : Problem → String
  | unexpectedCharacter c => "unexpected character " ++ Text.showChar c
  | unterminatedString => "unterminated string literal"
  | unexpectedToken expected found => "expected " ++ expected ++ ", found " ++ quoteWord found
  | unexpectedEnd expected => "unexpected end of input, expected " ++ expected
  | valueNotAllowed value key allowed =>
    "invalid value " ++ quoteWord value ++ " for " ++ quoteWord key ++ oneOf allowed
  | toggleNotBoolean key => "navigation toggle " ++ quoteWord key ++ " expects true or false"
  | unknownEvent word allowed => "unknown event kind " ++ quoteWord word ++ oneOf allowed
  | differenceArity => quoteWord "except" ++ " takes exactly two targets"
  | unknownToggle key => "unknown navigation toggle " ++ quoteWord key
  | versionMismatch declared supported =>
    "document declares mpd " ++ declared ++ ", this compiler supports " ++ supported
  | duplicateStep name => "duplicate step " ++ quoteWord name ++ " in scene"
  | unknownBlock name => "unknown block " ++ quoteWord name ++ " is kept but ignored"
  | edgeWildcard => "edge endpoints must name nodes, not " ++ quoteWord "*"
  | emptyTarget kind => quoteWord kind ++ " target needs a non-empty string"
  | wildcardDifference => quoteWord "except" ++ " cannot take " ++ quoteWord "*" ++ " on both sides"
  | unsupportedGuard =>
    quoteWord "when" ++ " guards are not carried into the document; the rule fires unconditionally"
  | unresolvedVariable path => quoteWord ("$" ++ path) ++ " is not bound by any " ++ quoteWord "let"
  | invalidErrorPolicy got =>
    "errorPolicy must be \"haltOnError\" or \"continueOnError\", got " ++ got

end Problem

/-- A problem and the part of the source that it is about. -/
structure Diagnostic where
  problem : Problem
  span : Span
deriving DecidableEq, Repr, Inhabited

namespace Diagnostic

/-- Whether the problem is an error. -/
def isError (d : Diagnostic) : Bool :=
  d.problem.severity == .error

/-- A diagnostic on one line: place, severity, sentence and code. -/
def line (d : Diagnostic) : String :=
  toString d.span.start.line ++ ":" ++ toString d.span.start.column ++ ": " ++
    d.problem.severity.name ++ ": " ++ d.problem.message ++ " [" ++ d.problem.code ++ "]"

end Diagnostic

/-- Whether any of the diagnostics is an error. -/
def hasErrors (ds : List Diagnostic) : Bool :=
  ds.any Diagnostic.isError

end DiagramTour
