import DiagramTour.Lower.Program
import DiagramTour.Program.Audit
import DiagramTour.Program.Parse.Item

/-!
# Compiling source texts

Reading, auditing and lowering in a row.  None of the three refuses anything: what a text yields is
returned together with all that is wrong with it.
-/

namespace DiagramTour

/-- What a source text yields. -/
structure Compilation where
  /-- The program; missing only when the text does not begin as one. -/
  program : Option Program
  /-- The document, wherever there is a program. -/
  document : Option Document
  /-- What is wrong: tokens, grammar, audit, lowering, in this order. -/
  diagnostics : List Diagnostic

/-- Whether anything is an error. -/
def Compilation.hasErrors (c : Compilation) : Bool :=
  DiagramTour.hasErrors c.diagnostics

/-- Compiles a source text. -/
def compile (source : String) : Compilation :=
  let result := parse source
  match result.program with
  | none => ⟨none, none, result.diagnostics⟩
  | some program =>
    let lowered := program.lower
    ⟨some program, some lowered.value, result.diagnostics ++ program.audit ++ lowered.notes⟩

end DiagramTour
