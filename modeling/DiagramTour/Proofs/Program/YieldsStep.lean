import DiagramTour.Proofs.Program.YieldsExpr

/-!
# What reading steps and bindings yields

Statements, rules and steps that were read without an error are well formed.
-/

namespace DiagramTour

open Cursor (Onward)

variable {c : Cursor}

/-! ## Settings -/

/-- A setting out of a list is a name that is read as it stands. -/
theorem allowedWord_of_isName {key : String} {allowed : List String} (h : c.peek.isName = true) :
    (Parse.allowedWord key allowed c).value =
        .literal ⟨.string c.peek.text, c.peek.image⟩ c.peek.span ∧
      (Parse.allowedWord key allowed c).next =
        (if allowed.contains c.peek.text then c.advance
          else c.advance.report (.valueNotAllowed c.peek.text key allowed) c.peek.span) := by
  unfold Parse.allowedWord
  simp only [Parse.bind_apply, Parse.look, Parsed.andThen_value, Parsed.andThen_next,
    Parsed.here_value, Parsed.here_next, h, ↓reduceIte, Parse.next]
  split
  · exact ⟨rfl, rfl⟩
  · exact ⟨rfl, rfl⟩

theorem allowedWord_of_not_isName {key : String} {allowed : List String}
    (h : c.peek.isName = false) :
    (Parse.allowedWord key allowed c).value = (Parse.expr c).value ∧
      (Parse.allowedWord key allowed c).next = (Parse.expr c).next := by
  unfold Parse.allowedWord
  simp [Parse.look, h]

theorem Cursor.Genuine.name (h : c.Genuine) (hname : c.peek.isName = true) :
    Image c.peek.image.toList c.peek.lexeme := by
  have hlex : c.peek.lexeme = .keyword ∨ c.peek.lexeme = .identifier ∨
      ∃ v, c.peek.lexeme = .string v := by
    revert hname
    unfold Token.isName Token.isWord Token.isString
    cases c.peek.lexeme <;> simp
  apply h.image <;> rcases hlex with h | h | ⟨v, h⟩ <;> simp [h]

namespace Parse.Yields

theorem allowedWord (key : String) (allowed : List String) :
    (Parse.allowedWord key allowed).Yields fun e => e.WellFormed ∨ e.IsOneOf allowed := by
  intro c
  cases hname : c.peek.isName with
  | false =>
    obtain ⟨hvalue, hnext⟩ := allowedWord_of_not_isName hname
    have hexpr := expr c
    refine ⟨hnext ▸ hexpr.onward, fun hgen hok => ?_⟩
    rw [hvalue]
    exact .inl (hexpr.value hgen (hnext ▸ hok))
  | true =>
    obtain ⟨hvalue, hnext⟩ := allowedWord_of_isName hname
    refine ⟨?_, fun hgen hok => .inr ?_⟩
    · rw [hnext]
      split
      · exact .advance c
      · exact (Onward.advance c).trans (.report _ _ _)
    · rw [hvalue]
      -- A value that is not allowed was reported
      have hin : allowed.contains c.peek.text = true := by
        by_contra hout
        rw [hnext, if_neg hout] at hok
        exact hok (Cursor.failed_report.2 (.inr rfl))
      exact ⟨_, _, _, c.peek.lexeme, rfl, by simpa using hin, hgen.name hname, hname, rfl⟩

theorem toggleValue (key : Token) :
    (Parse.toggleValue key).Yields fun e => e.WellFormed ∧ Parse.isBoolean e = true := by
  have hrest : (do
      let value ← Parse.expr
      unless Parse.isBoolean value do
        Parse.report (.toggleNotBoolean key.text) value.span
      return value).Yields fun e => e.WellFormed ∧ Parse.isBoolean e = true := by
    refine bind expr fun value => ?_
    split
    · rename_i hb
      exact pure fun h => ⟨h, hb⟩
    · exact bind (report _ _) fun _ => pure fun h => absurd rfl h
  unfold Parse.toggleValue
  split
  · exact hrest
  · exact bind (report _ _) fun _ => hrest.imp fun _ h _ => h

theorem entryValue (mode : Parse.EntryMode) (key : Token) :
    (Parse.entryValue mode key).Yields fun e => e.Suits mode key.text := by
  cases mode with
  | plain => exact expr
  | camera =>
    unfold Parse.entryValue
    dsimp only
    split
    · rename_i h
      exact (allowedWord _ _).imp fun e he => he.imp id fun h' => ⟨h, h'⟩
    · exact expr.imp fun e => .inl
  | navigation => exact toggleValue key

theorem entries (mode : Parse.EntryMode) :
    (Parse.entries mode).Yields fun es => ∀ e ∈ es, e.value.Suits mode e.key :=
  fun _ => Cursor.yields_block _ fun _ _ =>
    Cursor.yields_entry (Q := fun key e => e.Suits mode key) fun d _ => entryValue mode _ d

theorem metadata : Parse.metadata.Yields Metadata.WellFormed :=
  look fun _ => bind (expectKeyword _) fun _ => bind (entries .plain) fun _ =>
    bind (eatPunct _) fun _ => look fun _ => pure fun _ h _ => h

/-! ## Statements -/

theorem definition : Parse.definition.Yields fun d => d.value.WellFormed := by
  have hrest (start : Position) (name : Option String) : (do
      let value ← Parse.expr
      return (⟨name.getD "", value, ← Parse.spanFrom start⟩ : Definition)).Yields
        fun d => d.value.WellFormed :=
    bind expr fun _ => look fun _ => pure id
  refine look fun start => bind (expectKeyword _) fun _ => bind (name? _) fun name => look fun b => ?_
  cases b with
  | true => exact bind next fun _ => (hrest start name).imp fun _ h _ _ _ => h
  | false => exact bind (unexpected _) fun _ => (hrest start name).imp fun _ h _ _ _ => h

theorem focusSettings (focus : Focus) (c : Cursor) : (Parse.focusSettings focus c).Yields fun f =>
    (∀ e, focus.pad = some e → e.WellFormed) → (∀ e, focus.lock = some e → e.WellFormed) →
      (∀ e, f.pad = some e → e.WellFormed) ∧ ∀ e, f.lock = some e → e.WellFormed := by
  induction hn : c.size using Nat.strongRecOn generalizing focus c with
  | _ n ih =>
    rw [Parse.focusSettings]
    split_ifs with hpad halign hlock
    -- A clause reads its word, its value and the clauses behind it
    · have hvalue := expr c.advance
      have hlt := Cursor.size_advance_lt (Cursor.atEnd_eq_false_of_atKeyword hpad)
      have hrest := ih _ (hn ▸ Nat.lt_of_le_of_lt (Parse.expr c.advance).le hlt)
        { focus with pad := some (Parse.expr c.advance).value } (Parse.expr c.advance).next rfl
      have hbefore := (Onward.advance c).trans hvalue.onward
      refine ⟨hbefore.trans hrest.onward, fun hgen hok _ hl => ?_⟩
      refine hrest.value (hbefore.genuine hgen) hok (fun e he => ?_) hl
      cases he
      exact hvalue.value hgen.advance fun h => hok (hrest.onward.failed h)
    · have hvalue := name? "an alignment" c.advance
      have hlt := Cursor.size_advance_lt (Cursor.atEnd_eq_false_of_atKeyword halign)
      have hrest := ih _ (hn ▸ Nat.lt_of_le_of_lt (Parse.name? "an alignment" c.advance).le hlt)
        { focus with align := (Parse.name? "an alignment" c.advance).value }
        (Parse.name? "an alignment" c.advance).next rfl
      have hbefore := (Onward.advance c).trans hvalue.onward
      exact ⟨hbefore.trans hrest.onward,
        fun hgen hok hp hl => hrest.value (hbefore.genuine hgen) hok hp hl⟩
    · have hvalue := expr c.advance
      have hlt := Cursor.size_advance_lt (Cursor.atEnd_eq_false_of_atKeyword hlock)
      have hrest := ih _ (hn ▸ Nat.lt_of_le_of_lt (Parse.expr c.advance).le hlt)
        { focus with lock := some (Parse.expr c.advance).value } (Parse.expr c.advance).next rfl
      have hbefore := (Onward.advance c).trans hvalue.onward
      refine ⟨hbefore.trans hrest.onward, fun hgen hok hp _ => ?_⟩
      refine hrest.value (hbefore.genuine hgen) hok hp fun e he => ?_
      cases he
      exact hvalue.value hgen.advance fun h => hok (hrest.onward.failed h)
    · exact .here fun hp hl => ⟨hp, hl⟩

theorem focus : Parse.focus.Yields fun f => (StatementKind.focus f).WellFormed :=
  bind target fun t c => (focusSettings ⟨t, none, none, none⟩ c).imp
    fun _ h _ => h (by simp) (by simp)

theorem assertion : Parse.assertion.Yields StatementKind.WellFormed := by
  refine bind expr fun condition => bind (eatKeyword _) fun b => ?_
  cases b with
  | true => exact bind expr fun message => pure fun hm _ hc => ⟨hc, by simpa using hm⟩
  | false => exact pure fun _ hc => ⟨hc, by simp⟩

theorem statementKind? {word : String} {kind : Parse StatementKind}
    (h : Parse.statementKind? word = some kind) : kind.Yields StatementKind.WellFormed := by
  unfold Parse.statementKind? at h
  split at h
  · cases h
    exact bind next fun _ => bind focus fun _ => pure fun hf _ => hf
  · cases h
    exact bind next fun _ => bind call fun _ => pure fun hc _ => hc
  · cases h
    exact map definition
  · cases h
    exact bind next fun _ => assertion.imp fun _ h _ => h
  · cases h
    exact map metadata
  · cases h

theorem statement? : Parse.statement?.Yields fun o => ∀ s, o = some s → s.kind.WellFormed := by
  intro c
  unfold Parse.statement?
  split
  · split
    · rename_i kind hkind
      refine (statementKind? hkind c).andThen fun kind d _ => ⟨.eatPunct d _, fun _ _ hk s hs => ?_⟩
      cases hs
      exact hk
    · exact .here (by simp)
  · exact .here (by simp)

end Parse.Yields

/-! ## Events -/

/-- Where no sign is allowed the image of a number begins with a digit. -/
theorem isDigit_of_munch? {im w : List Char} {m : Munch} (h : munch? false (im ++ w) = some m)
    (hlen : m.length = im.length) (hn : m.lexeme.IsNumeral) :
    ∃ d ds, im = d :: ds ∧ d.isDigit = true := by
  cases im with
  | nil => exact absurd rfl (ne_nil_of_length_eq m hlen)
  | cons d ds =>
    refine ⟨d, ds, rfl, ?_⟩
    rcases munch?_cases h with hraw | ⟨-, hflat⟩
    · obtain ⟨tag, body, hlex⟩ := lexeme_of_heredoc? hraw
      rw [hlex] at hn
      exact hn.elim
    rcases lexeme_of_flat? hflat with ⟨v, hlex⟩ | hlex | ⟨-, hnumber⟩ | ⟨word, hlex⟩ | hlex | hlex
    · rw [hlex] at hn
      exact hn.elim
    · rw [hlex] at hn
      exact hn.elim
    · exact isDigit_of_number? hnumber
    · rw [hlex] at hn
      exact absurd hn (not_isNumeral_wordLexeme _)
    · rw [hlex] at hn
      exact hn.elim
    · rw [hlex] at hn
      exact hn.elim

theorem Parse.raw_of_delayOf? {t : Token} {l : Literal} (h : Parse.delayOf? t = some l) :
    l.raw = t.image := by
  unfold Parse.delayOf? at h
  split at h <;> cases h <;> rfl

/-- A delay behind a word that is not reserved has no sign. -/
theorem Cursor.Before.isDelay {pre cs : List Char} (h : c.Before false pre cs) (hgen : c.Genuine)
    {l : Literal} (hl : Parse.delayOf? c.peek = some l) : l.IsDelay := by
  have hraw := Parse.raw_of_delayOf? hl
  have hn : c.peek.lexeme.IsNumeral := by
    unfold Parse.delayOf? at hl
    split at hl <;> rename_i hlex
    · rw [hlex]
      trivial
    · rw [hlex]
      trivial
    · cases hl
  refine ⟨c.peek.lexeme, ?_, by rw [hraw]; exact hl, ?_⟩
  · rw [hraw]
    apply hgen.image <;> intros <;> intro heq <;> rw [heq] at hn <;> exact hn
  · have hend : c.atEnd = false := by
      apply Cursor.atEnd_eq_false_of_peek
      unfold Token.isEnd
      split
      · rename_i hlex
        rw [hlex] at hn
        exact hn.elim
      · rfl
    obtain ⟨ws, im, w, m, -, hcut⟩ := h.cut hgen.2 hend
    rw [hcut.peek] at hn hraw
    obtain ⟨d, ds, rfl, hd⟩ := isDigit_of_munch? hcut.munch hcut.length hn
    exact ⟨d, ds, by rw [hraw, String.toList_ofList], hd⟩

theorem EventKind.name_of_ofName? {word : String} {kind : EventKind}
    (h : EventKind.ofName? word = some kind) : kind.name = word := by
  have := List.find?_some h
  simpa using this

/-- What narrows down an event is read only for the kind that it is about. -/
theorem yields_eventDetails {start : Position} (kind : EventKind) :
    (Parse.eventDetails ⟨some kind, none, none, none, .point start⟩ c).Yields fun e =>
      (kind = .timer → ∃ pre cs, c.Before false pre cs) → e.WellFormed := by
  cases kind with
  | click => exact .here fun _ => ⟨rfl, rfl, rfl⟩
  | hover => exact .here fun _ => ⟨rfl, rfl, rfl⟩
  | key =>
    exact Parse.Yields.bind .optionalString (fun _ => .pure fun _ _ => ⟨rfl, rfl⟩) c
  | timer =>
    unfold Parse.eventDetails
    dsimp only
    split
    · rename_i l hl
      refine ⟨.advance c, fun hgen _ hbefore => ⟨rfl, rfl, fun l' hl' => ?_⟩⟩
      cases hl'
      obtain ⟨pre, cs, hb⟩ := hbefore rfl
      exact hb.isDelay hgen hl
    · exact .here fun _ => ⟨rfl, rfl, by simp⟩
  | custom =>
    refine Parse.Yields.bind .optionalString (fun o => ?_) c
    cases o with
    | some name => exact .pure fun _ _ => ⟨rfl, rfl, rfl⟩
    | none => exact .bind (.unexpected _) fun _ => .pure fun h => h.elim

/-- Behind a word that is not reserved no sign is allowed. -/
theorem Cursor.Genuine.advance_of_identifier (h : c.Genuine)
    (hlex : c.peek.lexeme = .identifier) : ∃ pre cs, c.advance.Before false pre cs := by
  have hend : c.atEnd = false := Cursor.atEnd_eq_false_of_peek (by simp [Token.isEnd, hlex])
  obtain ⟨s, pre, ws, im, w, m, -, hcut⟩ := h.cut hend
  have hm : m.lexeme = .identifier := by
    rw [hcut.peek] at hlex
    exact hlex
  have hnext := hcut.next
  rw [hm] at hnext
  exact ⟨_, _, hnext⟩

theorem Parse.Yields.eventSpec : Parse.eventSpec.Yields EventSpec.WellFormed := by
  refine fun c => .look (.look ?_)
  cases hw : c.peek.isWord with
  | false => exact bind (unexpected _) (fun _ => pure fun h => h.elim) c
  | true =>
    have hspan (start : Position) (spec : EventSpec) : (do
        return { spec with span := ← Parse.spanFrom start } : Parse EventSpec).Yields
          fun e => spec.WellFormed → e.WellFormed :=
      look fun _ => pure id
    refine Parsed.Yields.next (P := ∀ k, EventKind.ofName? c.peek.image = some k → k = .timer →
      ∃ pre cs, c.advance.Before false pre cs) ?_ ?_
    · -- The word for a timer is not reserved
      rintro hgen k hk rfl
      apply hgen.advance_of_identifier
      rw [← (hgen.word hw).2, ← EventKind.name_of_ofName? hk]
      rfl
    · cases hk : EventKind.ofName? c.peek.image with
      | none =>
        simp only [Option.isNone_none, ↓reduceIte]
        exact bind (report _ _) (fun _ => bind (pure (Q := fun _ => True) trivial) fun _ =>
          look fun _ => pure fun _ h => absurd rfl h) c.advance
      | some kind =>
        simp only [Option.isNone_some, Bool.false_eq_true, ↓reduceIte]
        refine (yields_eventDetails kind).andThen fun spec d _ => ?_
        exact (hspan _ spec d).imp fun e h hspec hbefore => h (hspec (hbefore kind rfl))

/-! ## Rules and bindings -/

namespace Parse.Yields

theorem targetClause : Parse.targetClause.Yields fun _ => True := by
  refine bind (eatKeyword _) fun b => ?_
  cases b with
  | true => exact bind target fun _ => pure (by simp)
  | false => exact pure (by simp)

theorem exprClause (word : String) :
    (Parse.exprClause word).Yields fun o => ∀ e, o = some e → e.WellFormed := by
  refine bind (eatKeyword _) fun b => ?_
  cases b with
  | true => exact bind expr fun _ => pure fun h _ => by simpa using h
  | false => exact pure (by simp)

theorem rule : Parse.rule.Yields Rule.WellFormed :=
  look fun _ => bind (expectKeyword _) fun _ => bind eventSpec fun _ => bind targetClause fun _ =>
    bind (exprClause _) fun _ => bind (block statement?) fun _ => look fun _ =>
      pure fun hactions hguard _ hevent _ => ⟨hevent, hguard, hactions⟩

theorem bindingPart? : Parse.bindingPart?.Yields fun o =>
    ∀ part, o = some part → ∀ r, part = .rule r → r.WellFormed := by
  refine bind (eatKeyword _) fun b => ?_
  cases b with
  | true =>
    refine look fun b => ?_
    cases b with
    | true => exact bind next fun _ => bind (eatPunct _) fun _ => pure (by simp)
    | false => exact bind (unexpected _) fun _ => bind (eatPunct _) fun _ => pure (by simp)
  | false =>
    refine look fun b => ?_
    cases b with
    | true =>
      refine bind rule fun r => pure fun hr _ part hpart r' hr' => ?_
      cases hpart
      cases hr'
      exact hr
    | false => exact pure (by simp)

theorem binding : Parse.binding.Yields Binding.WellFormed := by
  refine look fun _ => bind (expectKeyword _) fun _ => bind optionalName fun _ =>
    bind (block bindingPart?) fun parts => look fun _ => pure fun hparts _ _ r hr => ?_
  obtain ⟨part, hmem, hpart⟩ := List.mem_filterMap.1 hr
  cases part with
  | rule r' =>
    cases hpart
    exact hparts _ hmem _ rfl
  | priority value => cases hpart
  | nothing => cases hpart

/-! ## Steps -/

theorem stepPart? : Parse.stepPart?.Yields fun o => ∀ part, o = some part →
    (∀ s, part = .statement s → s.kind.WellFormed) ∧ ∀ b, part = .binding b → b.WellFormed := by
  refine look fun b => ?_
  cases b with
  | true =>
    refine bind binding fun b => pure fun hb part hpart => ?_
    cases hpart
    exact ⟨by simp, fun b' hb' => by cases hb'; exact hb⟩
  | false =>
    refine bind statement? fun o => pure fun ho part hpart => ?_
    cases o with
    | none => cases hpart
    | some s =>
      cases hpart
      exact ⟨fun s' hs' => by cases hs'; exact ho s rfl, by simp⟩

theorem titleClause : Parse.titleClause.Yields fun _ => True := by
  refine bind (eatKeyword _) fun b => ?_
  cases b with
  | true =>
    refine bind optionalString fun o => ?_
    cases o with
    | some title => exact pure (by simp)
    | none => exact bind (unexpected _) fun _ => pure (by simp)
  | false => exact pure (by simp)

theorem step : Parse.step.Yields Step.WellFormed := by
  refine look fun _ => bind (expectKeyword _) fun _ => bind (name? _) fun _ =>
    bind titleClause fun _ => bind (block stepPart?) fun parts => look fun _ =>
      pure fun hparts _ _ _ => ⟨fun s hs => ?_, fun b hb => ?_⟩
  · obtain ⟨part, hmem, hpart⟩ := List.mem_filterMap.1 hs
    cases part with
    | statement s' =>
      cases hpart
      exact (hparts _ hmem).1 _ rfl
    | binding b => cases hpart
  · obtain ⟨part, hmem, hpart⟩ := List.mem_filterMap.1 hb
    cases part with
    | binding b' =>
      cases hpart
      exact (hparts _ hmem).2 _ rfl
    | statement s => cases hpart

theorem scene : Parse.scene.Yields fun s => ∀ t ∈ s.steps, t.WellFormed := by
  have hstep : (do
      if ← Parse.look (·.atKeyword "step") then return some (← Parse.step) else return none :
        Parse (Option Step)).Yields fun o => ∀ s, o = some s → s.WellFormed := by
    refine look fun b => ?_
    cases b with
    | true => exact bind step fun _ => pure fun h _ hs => by cases hs; exact h
    | false => exact pure (by simp)
  exact look fun _ => bind (expectKeyword _) fun _ => bind optionalName fun _ =>
    bind (block hstep) fun _ => look fun _ => pure fun h _ _ => h

end Parse.Yields

end DiagramTour
