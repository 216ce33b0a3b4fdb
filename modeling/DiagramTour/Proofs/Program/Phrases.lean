import DiagramTour.Program.Basic
import DiagramTour.Proofs.Token.Partition
import Mathlib.Logic.Relation

/-!
# Phrases

A phrase is a part of a syntax tree that has a span: the program, its version, a declaration, and
what these are made of, down to expressions and targets.

## Architecture

- `Phrase.span` is the span that a phrase was read from, and `Phrase.lists` are the lists of phrases
  that stand directly in it; a part that stands alone or may be missing is a list of one or none.
- `Phrase.Has` leads from a phrase to those directly in it, and its closures to all those below.
- `Phrase.Throughout` says something of a phrase and of all below it; `throughout_iff` takes it one
  level down.
- `Phrase.Tidy` is what is asked of the spans of a phrase and of those directly in it.
-/

namespace DiagramTour

/-! ## Spans -/

namespace Span

/-- The span is a part of the text: it starts no later than it ends, and both are places of the text,
with their lines and columns. -/
structure IsPlaced (s : Span) (source : List Char) : Prop where
  ordered : s.start.offset ≤ s.stop.offset
  start : s.start.IsIn source
  stop : s.stop.IsIn source

/-- The second span is a part of the first one. -/
structure Contains (s t : Span) : Prop where
  start : s.start.offset ≤ t.start.offset
  stop : t.stop.offset ≤ s.stop.offset

/-- The first span ends before the second one starts. -/
def Precedes (s t : Span) : Prop :=
  s.stop.offset ≤ t.start.offset

variable {s t u : Span} {p : Position} {source : List Char}

theorem Contains.refl (s : Span) : s.Contains s :=
  ⟨Nat.le_refl _, Nat.le_refl _⟩

theorem Contains.trans (h : s.Contains t) (h' : t.Contains u) : s.Contains u :=
  ⟨Nat.le_trans h.start h'.start, Nat.le_trans h'.stop h.stop⟩

theorem IsPlaced.point (h : p.IsIn source) : (Span.point p).IsPlaced source :=
  ⟨Nat.le_refl _, h, h⟩

end Span

theorem Position.IsIn.offset_le {p : Position} {source : List Char} (h : p.IsIn source) :
    p.offset ≤ utf8Length source := by
  obtain ⟨before, hbefore, rfl⟩ := h
  exact utf8Length_le_of_prefix hbefore

/-! ## Phrases -/

/-- A part of a syntax tree that has a span. -/
inductive Phrase where
  | program (program : Program)
  | version (version : Version)
  | item (item : Item)
  | runtimeSection (settings : RuntimeSection)
  | selector (selector : Selector)
  | definition (definition : Definition)
  | metadata (metadata : Metadata)
  | step (step : Step)
  | binding (binding : Binding)
  | rule (rule : Rule)
  | event (event : EventSpec)
  | statement (statement : Statement)
  | entry (entry : Entry Expr)
  | expr (expr : Expr)
  | target (target : Target)

namespace Phrase

/-- The span that a phrase was read from. -/
def span : Phrase → Span
  | program p => p.span
  | version v => v.span
  | item i => i.span
  | runtimeSection s => s.span
  | selector s => s.span
  | definition d => d.span
  | metadata m => m.span
  | step s => s.span
  | binding b => b.span
  | rule r => r.span
  | event e => e.span
  | statement s => s.span
  | entry e => e.span
  | expr e => e.span
  | target t => t.span

/-- The phrases in what a statement does, list by list. -/
def ofKind : StatementKind → List (List Phrase)
  | .focus f => [[target f.target], f.pad.toList.map expr, f.lock.toList.map expr]
  | .call c => [c.args.map fun a => expr a.value]
  | .define d => [[definition d]]
  | .assert condition message => [[expr condition], message.toList.map expr]
  | .metadata m => [[metadata m]]

/-- The phrases directly in a declaration, list by list. -/
def ofItem : Item → List (List Phrase)
  | .deck items _ => [items.map item]
  | .diagram d => [d.config.toList.map expr, d.assets.toList.map expr]
  | .runtime r => [r.sections.map runtimeSection]
  | .selectors s => [s.entries.map selector]
  | .styles s => [s.entries.map entry]
  | .define d => [[expr d.value]]
  | .scene s => [s.steps.map step]
  | .binding b => [b.rules.map rule]
  | .plugin p => [p.options.toList.map expr]
  | .metadata m => [m.entries.map entry]
  | .unknown _ => []

/-- The phrases directly in an expression, list by list. -/
def ofExpr : Expr → List (List Phrase)
  | .literal _ _ | .var _ _ => []
  | .object entries _ => [entries.map entry]
  | .array items _ => [items.map expr]
  | .call c _ => [c.args.map fun a => expr a.value]
  | .unary _ operand _ => [[expr operand]]
  | .binary _ left right _ => [[expr left, expr right]]
  | .target t _ => [[target t]]

/-- The targets directly in a target, list by list. -/
def ofTarget : Target → List (List Phrase)
  | .element _ _ _ | .edge _ _ | .matching _ _ _ => []
  | .several _ members _ => [members.map target]
  | .except base removed _ => [[target base, target removed]]

/-- The phrases directly in a phrase, list by list. -/
def lists : Phrase → List (List Phrase)
  | program p => [version p.version :: p.items.map item]
  | version _ => []
  | item i => ofItem i
  | runtimeSection s => [s.entries.map entry]
  | selector s => [[target s.target]]
  | definition d => [[expr d.value]]
  | metadata m => [m.entries.map entry]
  | step s => [s.statements.map statement, s.bindings.map binding]
  | binding b => [b.rules.map rule]
  | rule r => [[event r.event], r.target.toList.map target, r.guard.toList.map expr,
      r.actions.map statement]
  | event _ => []
  | statement s => ofKind s.kind
  | entry e => [[expr e.value]]
  | expr e => ofExpr e
  | target t => ofTarget t

/-! ## All phrases below a phrase -/

/-- The second phrase stands directly in the first one. -/
def Has (t u : Phrase) : Prop :=
  ∃ us ∈ t.lists, u ∈ us

/-- It is so for the phrase and for every one below it. -/
def Throughout (P : Phrase → Prop) (t : Phrase) : Prop :=
  ∀ u, Relation.ReflTransGen Has t u → P u

variable {P : Phrase → Prop} {t u : Phrase}

theorem throughout_iff :
    t.Throughout P ↔ P t ∧ ∀ us ∈ t.lists, ∀ u ∈ us, u.Throughout P := by
  constructor
  · intro h
    exact ⟨h t .refl, fun us hus u hu v hv => h v (.head ⟨us, hus, hu⟩ hv)⟩
  · rintro ⟨ht, hbelow⟩ u hu
    rcases Relation.ReflTransGen.cases_head hu with rfl | ⟨v, ⟨us, hus, hv⟩, hvu⟩
    · exact ht
    · exact hbelow us hus v hv u hvu

/-- The phrases directly in a phrase lie in its span, and those of one list in order and apart. -/
structure Tidy (t : Phrase) : Prop where
  contains : ∀ us ∈ t.lists, ∀ u ∈ us, t.span.Contains u.span
  ordered : ∀ us ∈ t.lists, us.Pairwise fun u v => u.span.Precedes v.span

/-- Then all phrases below lie in its span. -/
theorem Throughout.contains (h : t.Throughout Tidy) (hu : Relation.ReflTransGen Has t u) :
    t.span.Contains u.span := by
  induction hu with
  | refl => exact .refl _
  | @tail u v hu huv ih =>
    obtain ⟨us, hus, hv⟩ := huv
    exact ih.trans ((h u hu).contains us hus v hv)

end Phrase

end DiagramTour
