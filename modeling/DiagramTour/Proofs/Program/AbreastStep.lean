import DiagramTour.Proofs.Program.AbreastExpr
import DiagramTour.Proofs.Program.ReadsItem
import DiagramTour.Proofs.Program.YieldsStep

/-!
# Reading the same steps and bindings twice

From two cursors abreast the same settings, statements, bindings and scenes are read, up to spans.
-/

namespace DiagramTour

open Cursor (Onward Abreast PartsTally)

variable {c d : Cursor}

/-! ## Settings -/

namespace Parse.Tallies

theorem allowedWord (key : String) (allowed : List String) :
    (Parse.allowedWord key allowed).Tallies Expr.withoutSpans (Parse.allowedWord key allowed) := by
  refine readIf .isName rfl (fun t u halike _ => ?_) expr
  have hread (image : String) : (Expr.literal ⟨.string t.text, image⟩ t.span).withoutSpans =
      (Expr.literal ⟨.string t.text, image⟩ u.span).withoutSpans := rfl
  rw [← halike.text, ← halike.image]
  split
  · exact pure (hread _)
  · exact (report _ _ _).same fun _ => pure (hread _)

theorem toggleValue {t u : Token} (halike : t.Alike u) :
    (Parse.toggleValue t).Tallies Expr.withoutSpans (Parse.toggleValue u) := by
  have hrest : (do
      let value ← Parse.expr
      unless Parse.isBoolean value do
        Parse.report (.toggleNotBoolean t.text) value.span
      return value).Tallies Expr.withoutSpans (do
      let value ← Parse.expr
      unless Parse.isBoolean value do
        Parse.report (.toggleNotBoolean t.text) value.span
      return value) := by
    refine expr.bind fun e e' he => ?_
    rw [← Expr.isBoolean_withoutSpans e, ← Expr.isBoolean_withoutSpans e', he]
    split
    · exact pure he
    · exact (report _ _ _).same fun _ => pure he
  unfold Parse.toggleValue
  rw [← halike.text]
  split
  · exact hrest
  · exact (report _ _ _).same fun _ => hrest

theorem entryValue (mode : Parse.EntryMode) {t u : Token} (halike : t.Alike u) :
    (Parse.entryValue mode t).Tallies Expr.withoutSpans (Parse.entryValue mode u) := by
  cases mode with
  | plain => exact expr
  | camera =>
      unfold Parse.entryValue
      dsimp only
      rw [← halike.text]
      split
      · exact allowedWord _ _
      · exact expr
  | navigation => exact toggleValue halike

theorem entries (mode : Parse.EntryMode) :
    (Parse.entries mode).Tallies (List.map Expr.bareEntry) (Parse.entries mode) := by
  have hentry (e e' : Cursor) :
      (e.entry fun key x _ => Parse.entryValue mode key x).Tallies (Option.map Expr.bareEntry)
        (e'.entry fun key x _ => Parse.entryValue mode key x) :=
    Cursor.tallies_entry fun t u halike =>
      ⟨fun x _ => (Yields.entryValue mode t x).onward, fun x x' _ _ => entryValue mode halike x x'⟩
  exact block fun e e' => hentry e e'

theorem metadata : Parse.metadata.Tallies Metadata.withoutSpans Parse.metadata := by
  refine start.any fun _ _ => (expectKeyword _).same fun _ => (entries .plain).bind fun es es' hes =>
    (eatPunct (by decide)).same fun _ => (spanFrom _ _).any fun _ _ => pure ?_
  rw [← Expr.entriesWithoutSpans_eq, ← Expr.entriesWithoutSpans_eq] at hes
  exact congrArg (Metadata.mk · default) hes

/-! ## Statements -/

theorem definition : Parse.definition.Tallies Definition.withoutSpans Parse.definition := by
  have hrest (start start' : Position) (name : Option String) : (do
      let value ← Parse.expr
      return (⟨name.getD "", value, ← Parse.spanFrom start⟩ : Definition)).Tallies
        Definition.withoutSpans (do
      let value ← Parse.expr
      return (⟨name.getD "", value, ← Parse.spanFrom start'⟩ : Definition)) :=
    expr.bind fun _ _ he => (spanFrom _ _).any fun _ _ => pure (congrArg (Definition.mk _ · default) he)
  refine start.any fun x x' => (expectKeyword _).same fun _ => (name? _).same fun name => ?_
  exact readIf (.isOperator "=") rfl (fun _ _ _ _ => hrest x x' name)
    ((unexpected _ _).same fun _ => hrest x x' name)

end Parse.Tallies

/-- The focus with empty spans. -/
def Focus.withoutSpans (f : Focus) : Focus :=
  { f with target := f.target.withoutSpans, pad := f.pad.map Expr.withoutSpans,
           lock := f.lock.map Expr.withoutSpans }

/-- The clauses of a focus that has the same parts so far. -/
theorem Parse.tallies_focusSettings {f f' : Focus} (hf : f.withoutSpans = f'.withoutSpans)
    (c d : Cursor) :
    (Parse.focusSettings f c).Tallies Focus.withoutSpans (Parse.focusSettings f' d) := by
  refine ⟨(Yields.focusSettings f c).onward, ?_⟩
  induction hn : c.size using Nat.strongRecOn generalizing f f' c d with
  | _ n ih =>
      intro hab
      obtain ⟨htarget, hpad, halign, hlock⟩ : f.target.withoutSpans = f'.target.withoutSpans ∧
          f.pad.map Expr.withoutSpans = f'.pad.map Expr.withoutSpans ∧ f.align = f'.align ∧
            f.lock.map Expr.withoutSpans = f'.lock.map Expr.withoutSpans := by
        simpa [Focus.withoutSpans] using hf
      -- Every clause begins with its word, so what follows it has fewer tokens left
      have hbehind {word : String} (hc : c.atKeyword word = true) {g g' : Focus}
          (hg : g.withoutSpans = g'.withoutSpans) (e e' : Cursor) (he : e.size ≤ c.advance.size) :
          (Parse.focusSettings g e).Tallies Focus.withoutSpans (Parse.focusSettings g' e') := by
        have hlt := Cursor.size_advance_lt (Cursor.atEnd_eq_false_of_atKeyword hc)
        exact ⟨(Yields.focusSettings g e).onward, ih e.size (by omega) hg e e' rfl⟩
      rw [Parse.focusSettings.eq_1 f c, Parse.focusSettings.eq_1 f' d]
      refine Parsed.Tallies.tally (f := Focus.withoutSpans) ?_ hab
      refine .dite (by rw [hab.atKeyword]) (fun hc _ => ?pad) fun _ =>
        .dite (by rw [hab.atKeyword]) (fun hc _ => ?align) fun _ =>
          .dite (by rw [hab.atKeyword]) (fun hc _ => ?lock) fun _ => .here fun _ => hf
      case pad =>
        refine .behind (Cursor.atEnd_eq_false_of_atKeyword hc) (.keeping (Parse.Tallies.expr _ _)
          (Yields.focusSettings _ _).onward fun hx => hbehind hc ?_ _ _ (Parse.expr _).le)
        simp [Focus.withoutSpans, htarget, halign, hlock, hx]
      case align =>
        refine .behind (Cursor.atEnd_eq_false_of_atKeyword hc) (.keeping (Parse.Tallies.name? _ _ _)
          (Yields.focusSettings _ _).onward fun hx => hbehind hc ?_ _ _ (Parse.name? _ _).le)
        simp [Focus.withoutSpans, htarget, hpad, hlock, hx]
      case lock =>
        refine .behind (Cursor.atEnd_eq_false_of_atKeyword hc) (.keeping (Parse.Tallies.expr _ _)
          (Yields.focusSettings _ _).onward fun hx => hbehind hc ?_ _ _ (Parse.expr _).le)
        simp [Focus.withoutSpans, htarget, halign, hpad, hx]

namespace Parse.Tallies

theorem focus : Parse.focus.Tallies Focus.withoutSpans Parse.focus :=
  target.bind fun _ _ ht => Parse.tallies_focusSettings (by simp [Focus.withoutSpans, ht])

theorem assertion : Parse.assertion.Tallies StatementKind.withoutSpans Parse.assertion := by
  refine expr.bind fun x x' hx => (eatKeyword _).same fun b => ?_
  cases b with
  | true => exact expr.bind fun y y' hy => pure (by simp [StatementKind.withoutSpans, hx, hy])
  | false => exact pure (by simp [StatementKind.withoutSpans, hx])

/-- A word that opens a statement is read before it. -/
theorem opened {α γ : Type} {f : α → γ} {k l : Parse α} (h : k.Tallies f l) (c d : Cursor)
    (hend : c.atEnd = false) :
    ((Parse.next >>= fun _ => k) c).Tallies f ((Parse.next >>= fun _ => l) d) :=
  .behind hend (h c.advance d.advance)

theorem statementKind? {word : String} {kind : Parse StatementKind}
    (h : Parse.statementKind? word = some kind) (c d : Cursor) (hend : c.atEnd = false) :
    (kind c).Tallies StatementKind.withoutSpans (kind d) := by
  unfold Parse.statementKind? at h
  split at h
  · cases h
    exact opened (focus.bind fun _ _ hf => pure (by exact congrArg StatementKind.focus hf)) c d hend
  · cases h
    exact opened (call.bind fun _ _ hc => pure (by exact congrArg StatementKind.call hc)) c d hend
  · cases h
    exact definition.map (fun _ _ hd => by exact congrArg StatementKind.define hd) c d
  · cases h
    exact opened assertion c d hend
  · cases h
    exact metadata.map (fun _ _ hm => by exact congrArg StatementKind.metadata hm) c d
  · cases h

theorem statement? :
    Parse.statement?.Tallies (Option.map Statement.withoutSpans) Parse.statement? := by
  refine fun c d => ⟨(Yields.statement? c).onward, fun hab => ?_⟩
  unfold Parse.statement?
  rcases hab.next_or_ended with ⟨hend, halike, -⟩ | ⟨hc, hd⟩
  · rw [← halike.lexeme, ← halike.image]
    refine Parsed.Tallies.tally (f := Option.map Statement.withoutSpans) ?_ hab
    split
    · split
      · rename_i kind hkind
        refine (statementKind? hkind c d hend).andThen fun k k' e e' _ _ hk =>
          ⟨.eatPunct e _, fun hab' hok => ⟨congrArg (some <| Statement.mk · default) hk, ?_⟩⟩
        exact ((eatPunct (by decide) e e').tally hab' hok).2
      · exact .here fun _ => rfl
    · exact .here fun _ => rfl
  · rw [hc, hd]
    exact fun _ => ⟨rfl, hab⟩

end Parse.Tallies

/-! ## Rules and bindings -/

/-- What is listened for, with an empty span. -/
def EventSpec.withoutSpan (e : EventSpec) : EventSpec :=
  { e with span := default }

namespace Parse.Tallies

theorem eventDetails {e e' : EventSpec} (h : e.withoutSpan = e'.withoutSpan) :
    (Parse.eventDetails e).Tallies EventSpec.withoutSpan (Parse.eventDetails e') := by
  obtain ⟨kind, key, delay, name, span⟩ := e
  obtain ⟨kind', key', delay', name', span'⟩ := e'
  obtain ⟨rfl, rfl, rfl, rfl⟩ : kind = kind' ∧ key = key' ∧ delay = delay' ∧ name = name' := by
    simpa [EventSpec.withoutSpan] using h
  unfold Parse.eventDetails
  cases kind with
  | none => exact pure rfl
  | some kind =>
      cases kind with
      | click => exact pure rfl
      | hover => exact pure rfl
      | key => exact optionalString.same fun _ => pure rfl
      | timer =>
          -- A timer asks for a number, which neither the end of a text nor a brace is
          have hdelay : Token.Blind Parse.delayOf? := ⟨fun _ _ => rfl, rfl⟩
          refine fun c d => ⟨?_, fun hab => ?_⟩
          · dsimp only
            split
            · exact .advance c
            · exact .refl c
          · dsimp only
            rw [hab.peek hdelay]
            cases hl : Parse.delayOf? c.peek with
            | some l =>
                have hend := Cursor.atEnd_eq_false_of_ne hdelay hl (Option.some_ne_none l).symm
                exact fun _ => ⟨rfl, (hab.next hend).2⟩
            | none => exact fun _ => ⟨rfl, hab⟩
      | custom =>
          refine optionalString.same fun o => ?_
          cases o with
          | some name => exact pure rfl
          | none => exact (unexpected _ _).same fun _ => pure rfl

theorem eventSpec : Parse.eventSpec.Tallies EventSpec.withoutSpan Parse.eventSpec := by
  refine start.any fun x x' => readIf .isWord rfl (fun t u halike _ => ?_)
    ((unexpected _ _).same fun _ => pure rfl)
  have hrest (kind : Option EventKind) : (do
      let spec ← Parse.eventDetails ⟨kind, none, none, none, .point x⟩
      return { spec with span := ← Parse.spanFrom x } : Parse EventSpec).Tallies
        EventSpec.withoutSpan (do
      let spec ← Parse.eventDetails ⟨kind, none, none, none, .point x'⟩
      return { spec with span := ← Parse.spanFrom x' }) :=
    (eventDetails (by rfl)).bind fun _ _ he => (spanFrom _ _).any fun _ _ => pure he
  rw [← halike.image]
  dsimp only
  split
  · exact (report _ _ _).same fun _ => hrest _
  · exact hrest _

theorem targetClause :
    Parse.targetClause.Tallies (Option.map Target.withoutSpans) Parse.targetClause := by
  refine (eatKeyword _).same fun b => ?_
  cases b with
  | true => exact target.bind fun _ _ h => pure (congrArg some h)
  | false => exact pure rfl

theorem exprClause (word : String) :
    (Parse.exprClause word).Tallies (Option.map Expr.withoutSpans) (Parse.exprClause word) := by
  refine (eatKeyword _).same fun b => ?_
  cases b with
  | true => exact expr.bind fun _ _ h => pure (congrArg some h)
  | false => exact pure rfl

theorem rule : Parse.rule.Tallies Rule.withoutSpans Parse.rule := by
  refine start.any fun _ _ => (expectKeyword _).same fun _ => eventSpec.bind fun e e' he =>
    targetClause.bind fun t t' ht => (exprClause _).bind fun g g' hg =>
      (block statement?).bind fun as as' has => (spanFrom _ _).any fun _ _ => pure ?_
  rw [EventSpec.withoutSpan, EventSpec.withoutSpan] at he
  simp only [Rule.withoutSpans, he, ht, hg, has]

theorem bindingPart? : Parse.bindingPart?.Tallies (Option.map Parse.BindingPart.bare)
    Parse.bindingPart? := by
  refine (eatKeyword _).same fun b => ?_
  cases b with
  | true =>
      refine readIf .isInt rfl (fun t u halike _ => ?_) ?_
      · rw [← halike.image]
        exact (eatPunct (by decide)).same fun _ => pure rfl
      · exact (unexpected _ _).same fun _ => (eatPunct (by decide)).same fun _ => pure rfl
  | false =>
      refine (lookKeyword _).same fun b => ?_
      cases b with
      | true => exact rule.bind fun _ _ h => pure (congrArg (some ∘ Parse.BindingPart.rule) h)
      | false => exact pure rfl

theorem binding : Parse.binding.Tallies Binding.withoutSpans Parse.binding := by
  refine start.any fun _ _ => (expectKeyword _).same fun _ => optionalName.same fun name =>
    (block bindingPart?).bind fun ps ps' hps => (spanFrom _ _).any fun _ _ => pure ?_
  have hpriority := congrArg Parse.BindingPart.priorityOf hps
  have hrules := congrArg Parse.BindingPart.rulesOf hps
  rw [Parse.BindingPart.priorityOf_bare, Parse.BindingPart.priorityOf_bare] at hpriority
  rw [Parse.BindingPart.rulesOf_bare, Parse.BindingPart.rulesOf_bare] at hrules
  simp only [Binding.withoutSpans, hpriority, hrules]

/-! ## Steps -/

theorem stepPart? : Parse.stepPart?.Tallies (Option.map Parse.StepPart.bare) Parse.stepPart? := by
  refine (lookKeyword _).same fun b => ?_
  cases b with
  | true => exact binding.bind fun _ _ h => pure (congrArg (some ∘ Parse.StepPart.binding) h)
  | false =>
      refine statement?.bind fun o o' h => pure ?_
      have hpart := congrArg (Option.map Parse.StepPart.statement) h
      rw [Option.map_map, Option.map_map] at hpart
      rw [Option.map_map, Option.map_map]
      exact hpart

theorem titleClause : Parse.titleClause.Tallies (fun o => o) Parse.titleClause := by
  refine (eatKeyword _).same fun b => ?_
  cases b with
  | true =>
      refine optionalString.same fun o => ?_
      cases o with
      | some title => exact pure rfl
      | none => exact (unexpected _ _).same fun _ => pure rfl
  | false => exact pure rfl

theorem step : Parse.step.Tallies Step.withoutSpans Parse.step := by
  refine start.any fun _ _ => (expectKeyword _).same fun _ => (name? _).same fun name =>
    titleClause.same fun title => (block stepPart?).bind fun ps ps' hps =>
      (spanFrom _ _).any fun _ _ => pure ?_
  have hstatements := congrArg Parse.StepPart.statementsOf hps
  have hbindings := congrArg Parse.StepPart.bindingsOf hps
  rw [Parse.StepPart.statementsOf_bare, Parse.StepPart.statementsOf_bare] at hstatements
  rw [Parse.StepPart.bindingsOf_bare, Parse.StepPart.bindingsOf_bare] at hbindings
  simp only [Step.withoutSpans, hstatements, hbindings]

theorem scene : Parse.scene.Tallies Scene.withoutSpans Parse.scene := by
  have hstep : (do
      if ← Parse.look (·.atKeyword "step") then return some (← Parse.step) else return none :
        Parse (Option Step)).Tallies (Option.map Step.withoutSpans) (do
      if ← Parse.look (·.atKeyword "step") then return some (← Parse.step) else return none) := by
    refine (lookKeyword _).same fun b => ?_
    cases b with
    | true => exact step.bind fun _ _ h => pure (congrArg some h)
    | false => exact pure rfl
  refine start.any fun _ _ => (expectKeyword _).same fun _ => optionalName.same fun name =>
    (block hstep).bind fun ss ss' hss => (spanFrom _ _).any fun _ _ => pure ?_
  simp only [Scene.withoutSpans, hss]

end Parse.Tallies

end DiagramTour
