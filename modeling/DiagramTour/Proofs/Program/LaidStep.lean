import DiagramTour.Proofs.Program.LaidExpr
import DiagramTour.Proofs.Program.ReadsStep

/-!
# Settings, statements, bindings and steps in order

What a step consists of lays out itself as one phrase, and what may be overridden by a later part of the
same kind, as the settings of a focus, lays out what is kept of it.
-/

namespace DiagramTour

open Cursor (Reach Ahead Laid Covers)

variable {α : Type} {source : List Char} {c d o : Cursor} {fs : List (List Phrase)} {begun : Prop}

/-! ## The phrases in parts -/

/-- The rules of a part of a binding. -/
def Parse.BindingPart.phrases : Parse.BindingPart → List Phrase
  | .rule r => [.rule r]
  | .priority _ | .nothing => []

/-- The statement or the binding that a part of a step is. -/
def Parse.StepPart.phrases : Parse.StepPart → List Phrase
  | .statement s => [.statement s]
  | .binding b => [.binding b]

theorem Parse.BindingPart.map_rulesOf (parts : List Parse.BindingPart) :
    (Parse.BindingPart.rulesOf parts).map .rule = parts.flatMap phrases := by
  induction parts with
  | nil => rfl
  | cons part parts ih =>
    rw [List.flatMap_cons, ← ih]
    cases part <;> rfl

theorem Parse.StepPart.sublist_phrases (parts : List Parse.StepPart) :
    ((Parse.StepPart.statementsOf parts).map .statement).Sublist (parts.flatMap phrases) ∧
      ((Parse.StepPart.bindingsOf parts).map .binding).Sublist (parts.flatMap phrases) := by
  induction parts with
  | nil => exact ⟨.slnil, .slnil⟩
  | cons part parts ih =>
    cases part with
    | statement s => exact ⟨ih.1.cons_cons _, ih.2.cons _⟩
    | binding b => exact ⟨ih.1.cons _, ih.2.cons_cons _⟩

namespace Parse.Lays

/-! ## Settings -/

theorem allowedWord (key : String) (allowed : List String) :
    (Parse.allowedWord key allowed).Lays source fun e => [[.expr e]] := by
  intro c hc
  cases h : c.peek.isName with
  | true =>
    have hword (literal : Literal) :
        c.Reach source [[.expr (.literal literal c.peek.span)]] c.advance :=
      .of_laid (.token hc (Cursor.atEnd_eq_false_of_isName h) rfl
        (by simp [Phrase.lists, Phrase.ofExpr]))
    cases ha : allowed.contains c.peek.text with
    | true =>
      simpa [Parse.allowedWord, Parse.look, Parse.next, h, List.contains_iff_mem.1 ha] using hword _
    | false =>
      have hnot : c.peek.text ∉ allowed := fun hmem => by
        rw [List.contains_iff_mem.2 hmem] at ha
        cases ha
      simpa [Parse.allowedWord, Parse.look, Parse.next, Parse.report, h, hnot] using
        (hword _).step (.report (Ahead.advance hc).stands _ _)
  | false => simpa [Parse.allowedWord, Parse.look, h] using expr c hc

theorem toggleValue (key : Token) : (Parse.toggleValue key).Lays source fun e => [[.expr e]] := by
  have hvalue (o : Cursor) : (do
      let value ← Parse.expr
      unless Parse.isBoolean value do
        Parse.report (.toggleNotBoolean key.text) value.span
      return value).Fills source o False [] fun e => [[.expr e]] := by
    refine .bind expr fun value => ?_
    split
    · exact .pure (by simp)
    · exact .skip (report _ _) fun _ => .pure (by simp)
  refine Fills.lays fun o => ?_
  unfold Parse.toggleValue
  split
  · exact hvalue o
  · exact .skip (report _ _) fun _ => hvalue o

theorem entryValue (mode : Parse.EntryMode) (key : Token) :
    (Parse.entryValue mode key).Lays source fun e => [[.expr e]] := by
  cases mode with
  | plain => exact expr
  | camera =>
    unfold Parse.entryValue
    dsimp only
    split
    · exact allowedWord _ _
    · exact expr
  | navigation => exact toggleValue key

theorem entries (mode : Parse.EntryMode) :
    (Parse.entries mode).Lays source fun es => [es.map .entry] :=
  fun _ => Cursor.lays_phrases _ fun _ _ => Cursor.lays_entry fun d _ => entryValue mode _ d

theorem metadata : Parse.metadata.Lays source fun m => [[.metadata m]] :=
  opens fun o => .bind (entries .plain) fun es => .skip (eatPunct _) fun _ =>
    .close (fun span => .metadata ⟨es, span⟩) (fun _ => rfl) (by simp [Phrase.lists])
      fun span => .pure (by simp)

/-! ## Statements -/

theorem definition : Parse.definition.Lays source fun d => [[.definition d]] := by
  have hvalue (o : Cursor) (name : Option String) : (do
      let value ← Parse.expr
      return (⟨name.getD "", value, ← Parse.spanFrom o.here⟩ : Definition)).Fills source o True []
        fun d => [[.definition d]] :=
    .bind expr fun value => .close (fun span => .definition ⟨name.getD "", value, span⟩)
      (fun _ => rfl) (by simp [Phrase.lists]) fun span => .pure (by simp)
  refine opens fun o => .skip (name? _) fun name => .look fun b => ?_
  cases b with
  | true => exact .skip next fun _ => hvalue o name
  | false => exact .skip (unexpected _) fun _ => hvalue o name

/-- A later setting of a focus takes the place of an earlier one. -/
theorem reach_focusSettings {focus : Focus}
    (h : o.Reach source (Phrase.ofKind (.focus focus)) c) :
    o.Reach source (Phrase.ofKind (.focus (Parse.focusSettings focus c).value))
      (Parse.focusSettings focus c).next := by
  induction hn : c.size using Nat.strongRecOn generalizing focus c with
  | _ n ih =>
    have hword := h.step (.advance h.ahead.stands)
    rw [Parse.focusSettings]
    split_ifs with hpad halign hlock
    · have hlt := Cursor.size_advance_lt (Cursor.atEnd_eq_false_of_atKeyword hpad)
      have hvalue := hword.add (expr c.advance hword.ahead.stands)
      exact ih _ (hn ▸ Nat.lt_of_le_of_lt (Parse.expr c.advance).le hlt)
        (hvalue.mono (by simp [Phrase.ofKind])) rfl
    · have hlt := Cursor.size_advance_lt (Cursor.atEnd_eq_false_of_atKeyword halign)
      have hvalue := hword.add (name? "an alignment" c.advance hword.ahead.stands)
      exact ih _ (hn ▸ Nat.lt_of_le_of_lt (Parse.name? "an alignment" c.advance).le hlt)
        (hvalue.mono (by simp [Phrase.ofKind])) rfl
    · have hlt := Cursor.size_advance_lt (Cursor.atEnd_eq_false_of_atKeyword hlock)
      have hvalue := hword.add (expr c.advance hword.ahead.stands)
      exact ih _ (hn ▸ Nat.lt_of_le_of_lt (Parse.expr c.advance).le hlt)
        (hvalue.mono (by simp [Phrase.ofKind])) rfl
    · exact h

theorem focus : Parse.focus.Lays source fun f => Phrase.ofKind (.focus f) := by
  intro c hc
  have htarget := target c hc
  exact reach_focusSettings (htarget.mono (by simp [Phrase.ofKind]))

theorem assertion : Parse.assertion.Lays source Phrase.ofKind := by
  refine Fills.lays fun o => .bind expr fun condition => .skip (eatKeyword _) fun b => ?_
  cases b with
  | true => exact .bind expr fun message => .pure (by simp [Phrase.ofKind])
  | false => exact .pure (by simp [Phrase.ofKind])

theorem statementKind? {word : String} {kind : Parse StatementKind}
    (h : Parse.statementKind? word = some kind) : kind.Lays source Phrase.ofKind := by
  unfold Parse.statementKind? at h
  split at h
  · cases h
    exact Fills.lays fun o => .skip next fun _ => .bind focus fun f =>
      .pure (.of_subset (by simp))
  · cases h
    exact Fills.lays fun o => .skip next fun _ => .bind call fun c => .pure (by simp [Phrase.ofKind])
  · cases h
    exact map definition
  · cases h
    exact Fills.lays fun o => .skip next fun _ => .of_lays assertion
  · cases h
    exact map metadata
  · cases h

theorem statement? : Parse.statement?.Lays source fun s => [s.toList.map .statement] := by
  intro c hc
  unfold Parse.statement?
  split
  · rename_i hlex
    split
    · rename_i kind hkind
      have hword : c.atKeyword c.peek.image = true := by
        simp [Cursor.atKeyword, Token.isKeyword, hlex]
      have hread := statementKind? hkind c hc
      have hall := hread.step (.eatPunct hread.ahead.stands ";")
      refine hall.node rfl (.of_subset fun _ => id) fun _ => ?_
      exact Nat.lt_of_le_of_lt (Cursor.size_eatPunct_le _ _) (Parse.size_statementKind?_lt hkind hword)
    · exact .of_laid (.nil (.refl hc))
  · exact .of_laid (.nil (.refl hc))

/-! ## Events -/

theorem eventDetails (spec : EventSpec) : (Parse.eventDetails spec).Lays source fun _ => [] := by
  obtain ⟨kind, key, delay, name, span⟩ := spec
  cases kind with
  | none => exact pure_nil _
  | some kind =>
    cases kind with
    | click | hover => exact pure_nil _
    | key => exact Fills.lays fun o => .skip optionalString fun _ => .pure (by simp)
    | timer =>
      intro c hc
      unfold Parse.eventDetails
      dsimp only
      split
      · exact .nil (.advance hc)
      · exact .nil (.refl hc)
    | custom =>
      refine Fills.lays fun o => .skip optionalString fun name => ?_
      cases name with
      | some name => exact .pure (by simp)
      | none => exact .skip (unexpected _) fun _ => .pure (by simp)

theorem eventSpec : Parse.eventSpec.Lays source fun e => [[.event e]] := by
  have hspec (o : Cursor) (kind : Option EventKind) : (do
      let spec ← Parse.eventDetails ⟨kind, none, none, none, .point o.here⟩
      return { spec with span := ← Parse.spanFrom o.here }).Fills source o True []
        fun e => [[.event e]] :=
    .skip (eventDetails _) fun spec => .close (fun span => .event { spec with span })
      (fun _ => rfl) (by simp [Phrase.lists]) fun span => .pure (by simp)
  intro c hc
  cases hw : c.peek.isWord with
  | false =>
    have hfailed := Cursor.failed_unexpected c "an event kind"
    have hmissing := Laid.missing (t := .event ⟨none, none, none, none, .point c.here⟩) hc
      (.unexpected hc _) hfailed rfl (by simp [Phrase.lists])
    simpa [Parse.eventSpec, Parse.start, Parse.look, Parse.unexpected, hw] using Reach.of_laid hmissing
  | true =>
    have hword : ((do
        let word ← Parse.next
        let kind := EventKind.ofName? word.image
        if kind.isNone then
          Parse.report (.unknownEvent word.image (EventKind.all.map EventKind.name)) word.span
        let spec ← Parse.eventDetails ⟨kind, none, none, none, .point c.here⟩
        return { spec with span := ← Parse.spanFrom c.here } : Parse EventSpec) c).Lays source
          fun e => [[.event e]] := by
      refine behindToken (Cursor.atEnd_eq_false_of_isWord hw) ?_
      dsimp only
      split
      · exact .skip (report _ _) fun _ => hspec c _
      · exact hspec c _
    simpa [Parse.eventSpec, Parse.start, Parse.look, hw] using hword hc

/-! ## Rules and bindings -/

theorem targetClause : Parse.targetClause.Lays source fun t => [t.toList.map .target] := by
  refine Fills.lays fun o => .skip (eatKeyword _) fun b => ?_
  cases b with
  | true => exact .bind target fun t => .pure (by simp)
  | false => exact .pure (by simp)

theorem exprClause (word : String) :
    (Parse.exprClause word).Lays source fun e => [e.toList.map .expr] := by
  refine Fills.lays fun o => .skip (eatKeyword _) fun b => ?_
  cases b with
  | true => exact .bind expr fun e => .pure (by simp)
  | false => exact .pure (by simp)

theorem rule : Parse.rule.Lays source fun r => [[.rule r]] :=
  opens fun o => .bind eventSpec fun event => .bind targetClause fun target =>
    .bind (exprClause _) fun guard => .bind (phrases statement?) fun actions =>
      .close (fun span => .rule ⟨event, target, guard, actions, span⟩) (fun _ => rfl)
        (fun _ => .of_subset (by simp [Phrase.lists])) fun span => .pure (by simp)

theorem bindingPart? :
    Parse.bindingPart?.Lays source fun p => [p.toList.flatMap Parse.BindingPart.phrases] := by
  refine Fills.lays fun o => .skip (eatKeyword _) fun b => ?_
  cases b with
  | true =>
    refine .look fun b => ?_
    cases b with
    | true => exact .skip next fun _ => .skip (eatPunct _) fun _ => .pure (by simp [BindingPart.phrases])
    | false =>
      exact .skip (unexpected _) fun _ => .skip (eatPunct _) fun _ =>
        .pure (by simp [BindingPart.phrases])
  | false =>
    refine .look fun b => ?_
    cases b with
    | true => exact .bind rule fun r => .pure (by simp [BindingPart.phrases])
    | false => exact .pure (by simp)

/-- A binding, as a phrase that has its rules in it. -/
theorem binding : Parse.binding.Lays source fun b => [[.binding b]] :=
  opens fun o => .skip optionalName fun name => .bind (block bindingPart?) fun parts =>
    .close (fun span => .binding ⟨name, BindingPart.priorityOf parts, BindingPart.rulesOf parts, span⟩)
      (fun _ => rfl) (by simp [Phrase.lists, BindingPart.map_rulesOf]) fun span => .pure (by simp)

/-! ## Steps -/

theorem stepPart? :
    Parse.stepPart?.Lays source fun p => [p.toList.flatMap Parse.StepPart.phrases] := by
  refine Fills.lays fun o => .look fun b => ?_
  cases b with
  | true => exact .bind binding fun b => .pure (by simp [StepPart.phrases])
  | false =>
    refine .bind statement? fun s => .pure ?_
    cases s <;> simp [StepPart.phrases]

theorem titleClause : Parse.titleClause.Lays source fun _ => [] := by
  refine Fills.lays fun o => .skip (eatKeyword _) fun b => ?_
  cases b with
  | true =>
    refine .skip optionalString fun title => ?_
    cases title with
    | some title => exact .pure (by simp)
    | none => exact .skip (unexpected _) fun _ => .pure (by simp)
  | false => exact .pure (by simp)

theorem step : Parse.step.Lays source fun s => [[.step s]] := by
  refine opens fun o => .skip (name? _) fun name => .skip titleClause fun title =>
    .bind (block stepPart?) fun parts => .close (fun span => .step ⟨name.getD "", title,
      StepPart.statementsOf parts, StepPart.bindingsOf parts, span⟩) (fun _ => rfl) (fun span => ?_)
        fun span => .pure (by simp)
  obtain ⟨hstatements, hbindings⟩ := StepPart.sublist_phrases parts
  simp [Phrase.lists, hstatements, hbindings]

theorem scene : Parse.scene.Lays source fun s => [[.item (.scene s)]] := by
  have hstep : (do
      if ← Parse.look (·.atKeyword "step") then return some (← Parse.step) else return none :
        Parse (Option Step)).Lays source fun s => [s.toList.map .step] := by
    refine Fills.lays fun o => .look fun b => ?_
    cases b with
    | true => exact .bind step fun s => .pure (by simp)
    | false => exact .pure (by simp)
  exact opens fun o => .skip optionalName fun name => .bind (phrases hstep) fun steps =>
    .close (fun span => .item (.scene ⟨name, steps, span⟩)) (fun _ => rfl)
      (by simp [Phrase.lists, Phrase.ofItem]) fun span => .pure (by simp)

end Parse.Lays

end DiagramTour
