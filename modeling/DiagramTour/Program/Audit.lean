import DiagramTour.Diagnostic
import DiagramTour.Program.Basic

/-!
# Auditing programs

Checks of what a tree says rather than how it is written.  Every check runs over the whole tree;
the diagnostics come in tree order.
-/

namespace DiagramTour

/-- The version of the language that is understood. -/
def supportedVersion : String := "1.0"

/-- The first part of the supported version, which may stand for all of it. -/
def supportedMajor : String := "1"

/-- A missing version was reported before; any other than the supported one is suspicious. -/
def Version.audit (v : Version) : List Diagnostic :=
  if v.raw = "" || v.raw = supportedVersion || v.raw = supportedMajor then []
  else [⟨.versionMismatch v.raw supportedVersion, v.span⟩]

namespace Target

mutual

/-- Edges join named nodes, texts are not empty, and a difference leaves something. -/
def audit : Target → List Diagnostic
  | element _ _ _ => []
  | edge (.byId _) _ => []
  | edge (.between source destination) span =>
    if source.isWildcard || destination.isWildcard then [⟨.edgeWildcard, span⟩] else []
  | matching key value span => if value = "" then [⟨.emptyTarget key.word, span⟩] else []
  | several _ members _ => auditMembers members
  | except base removed span =>
    (if base.isWildcard && removed.isWildcard then [⟨.wildcardDifference, span⟩] else []) ++
      base.audit ++ removed.audit

/-- The checks of several targets. -/
def auditMembers : List Target → List Diagnostic
  | [] => []
  | t :: ts => t.audit ++ auditMembers ts

end

end Target

namespace Expr

mutual

/-- The checks of the targets in an expression. -/
def audit : Expr → List Diagnostic
  | literal _ _ | var _ _ => []
  | object entries _ => auditEntries entries
  | array items _ => auditItems items
  | call ⟨_, args⟩ _ => auditArgs args
  | unary _ operand _ => operand.audit
  | binary _ left right _ => left.audit ++ right.audit
  | target t _ => t.audit

/-- The checks of entries. -/
def auditEntries : List (Entry Expr) → List Diagnostic
  | [] => []
  | ⟨_, value, _⟩ :: rest => value.audit ++ auditEntries rest

/-- The checks of items. -/
def auditItems : List Expr → List Diagnostic
  | [] => []
  | e :: rest => e.audit ++ auditItems rest

/-- The checks of arguments. -/
def auditArgs : List (Argument Expr) → List Diagnostic
  | [] => []
  | ⟨_, value⟩ :: rest => value.audit ++ auditArgs rest

end

/-- The checks of an expression that may be missing. -/
def auditOption : Option Expr → List Diagnostic
  | some e => e.audit
  | none => []

end Expr

/-- The checks of a statement. -/
def Statement.audit (s : Statement) : List Diagnostic :=
  match s.kind with
  | .focus f => f.target.audit ++ Expr.auditOption f.pad ++ Expr.auditOption f.lock
  | .call c => Expr.auditArgs c.args
  | .define d => d.value.audit
  | .assert condition message => condition.audit ++ Expr.auditOption message
  | .metadata m => Expr.auditEntries m.entries

/-- The checks of a rule. -/
def Rule.audit (r : Rule) : List Diagnostic :=
  (match r.target with
    | some t => t.audit
    | none => []) ++ Expr.auditOption r.guard ++ r.actions.flatMap Statement.audit

/-- The checks of a binding. -/
def Binding.audit (b : Binding) : List Diagnostic :=
  b.rules.flatMap Rule.audit

/-- The checks of what a step holds. -/
def Step.audit (s : Step) : List Diagnostic :=
  s.statements.flatMap Statement.audit ++ s.bindings.flatMap Binding.audit

/-- The checks of the steps of a scene, in which no name may occur twice; `seen` are the names of
the steps before. -/
def auditSteps (seen : List String) : List Step → List Diagnostic
  | [] => []
  | s :: rest =>
    (if seen.contains s.name then [⟨.duplicateStep s.name, s.span⟩] else []) ++ s.audit ++
      auditSteps (s.name :: seen) rest

mutual

/-- The checks of a declaration. -/
def Item.audit : Item → List Diagnostic
  | .deck items _ => Item.auditAll items
  | .diagram d => Expr.auditOption d.config ++ Expr.auditOption d.assets
  | .runtime r => r.sections.flatMap fun s => Expr.auditEntries s.entries
  | .selectors s => s.entries.flatMap fun e => e.target.audit
  | .styles s => Expr.auditEntries s.entries
  | .define d => d.value.audit
  | .scene s => auditSteps [] s.steps
  | .binding b => b.audit
  | .plugin p => Expr.auditOption p.options
  | .metadata m => Expr.auditEntries m.entries
  | .unknown u => [⟨.unknownBlock u.name, u.span⟩]

/-- The checks of declarations. -/
def Item.auditAll : List Item → List Diagnostic
  | [] => []
  | i :: is => i.audit ++ Item.auditAll is

end

/-- The checks of a program. -/
def Program.audit (p : Program) : List Diagnostic :=
  p.version.audit ++ Item.auditAll p.items

end DiagramTour
