import DiagramTour.Diagnostic
import DiagramTour.Json.Basic

/-!
# Places and diagnostics as JSON

The JSON forms of positions, spans and diagnostics, which every form of a syntax tree or of a list
of tokens is built on.
-/

namespace DiagramTour

/-- A position by its three numbers. -/
def Position.toJson (p : Position) : Json :=
  .obj [("offset", .nat p.offset), ("line", .nat p.line), ("column", .nat p.column)]

/-- A span by its two ends. -/
def Span.toJson (s : Span) : Json :=
  .obj [("start", s.start.toJson), ("end", s.stop.toJson)]

/-- A diagnostic with its wording, severity, span and code. -/
def Diagnostic.toJson (d : Diagnostic) : Json :=
  .obj [("message", .str d.problem.message), ("severity", .str d.problem.severity.name),
    ("span", d.span.toJson), ("code", .str d.problem.code)]

end DiagramTour
