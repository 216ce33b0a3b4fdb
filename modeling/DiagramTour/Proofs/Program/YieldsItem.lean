import DiagramTour.Proofs.Program.YieldsStep

/-!
# What reading declarations yields

Declarations that were read without an error are well formed.
-/

namespace DiagramTour

open Cursor (Onward)

variable {c : Cursor}

namespace Parse.Yields

/-! ## Plugins and the player -/

theorem plugin : Parse.plugin.Yields Plugin.WellFormed := by
  have hoptions (start : Position) (source localName : Option String) : (do
      let options ← do
        if ← Parse.look (·.atPunct Cursor.openBrace) then some <$> Parse.object else Pure.pure none
      Parse.eatPunct ";"
      return (⟨source.getD "", localName, options, ← Parse.spanFrom start⟩ : Plugin)).Yields
        Plugin.WellFormed := by
    refine look fun b => ?_
    cases b with
    | true =>
      exact bind (map (R := fun o => ∀ e : Expr, o = some e → e.IsObject)
        (object.imp fun e he e' he' => by cases he'; exact he)) fun _ => bind (eatPunct _) fun _ =>
          look fun _ => pure fun _ h => h
    | false =>
      exact bind (pure (Q := fun o => ∀ e : Expr, o = some e → e.IsObject) (by simp)) fun _ =>
        bind (eatPunct _) fun _ => look fun _ => pure fun _ h => h
  have hname (start : Position) (source : Option String) : (do
      let localName ← do
        if ← Parse.eatKeyword "as" then Parse.name? "a plugin alias" else Pure.pure none
      let options ← do
        if ← Parse.look (·.atPunct Cursor.openBrace) then some <$> Parse.object else Pure.pure none
      Parse.eatPunct ";"
      return (⟨source.getD "", localName, options, ← Parse.spanFrom start⟩ : Plugin)).Yields
        Plugin.WellFormed := by
    refine bind (eatKeyword _) fun b => ?_
    cases b with
    | true => exact bind (name? _) fun n => (hoptions start source n).imp fun _ h _ _ => h
    | false => exact bind (pure (Q := fun _ => True) trivial) fun n =>
        (hoptions start source n).imp fun _ h _ _ => h
  refine look fun start => bind (expectKeyword _) fun _ => bind optionalString fun source => ?_
  split
  · exact bind (unexpected _) fun _ => (hname start source).imp fun _ h _ _ _ => h
  · exact (hname start source).imp fun _ h _ _ => h

theorem sectionKind? : Parse.sectionKind?.Yields fun o =>
    ∀ kind mode, o = some (kind, mode) → mode = kind.mode := by
  refine bind (eatKeyword _) fun b => ?_
  cases b with
  | true => exact pure fun _ kind mode h => by cases h; rfl
  | false =>
    refine bind (eatKeyword _) fun b => ?_
    cases b with
    | true => exact pure fun _ _ kind mode h => by cases h; rfl
    | false =>
      refine bind (eatKeyword _) fun b => ?_
      cases b with
      | true => exact pure fun _ _ _ kind mode h => by cases h; rfl
      | false =>
        refine bind (eatKeyword _) fun b => ?_
        cases b with
        | true => exact pure fun _ _ _ _ kind mode h => by cases h; rfl
        | false => exact pure fun _ _ _ _ kind mode h => by cases h

theorem runtimeSection? : Parse.runtimeSection?.Yields fun o =>
    ∀ s, o = some s → s.WellFormed := by
  refine look fun _ => bind sectionKind? fun o => ?_
  cases o with
  | none => exact pure (by simp)
  | some km =>
    obtain ⟨kind, mode⟩ := km
    refine bind (entries mode) fun es => look fun _ => pure fun hes hmode s hs => ?_
    cases hs
    rw [hmode kind mode rfl] at hes
    exact hes

theorem runtime : Parse.runtime.Yields fun r => ∀ s ∈ r.sections, s.WellFormed :=
  look fun _ => bind (expectKeyword _) fun _ => bind (block runtimeSection?) fun _ =>
    look fun _ => pure fun h _ => h

theorem selector? : Parse.selector?.Yields fun _ => True := by
  refine look fun _ => look fun b => ?_
  cases b with
  | true =>
    exact bind next fun _ => bind (expectPunct _) fun _ => bind target fun _ =>
      bind (eatPunct _) fun _ => look fun _ => pure (by simp)
  | false => exact pure (by simp)

theorem selectors : Parse.selectors.Yields fun _ => True :=
  look fun _ => bind (expectKeyword _) fun _ =>
    bind (block (Q := fun _ => True) (selector?.imp (by simp))) fun _ => look fun _ => pure (by simp)

theorem styles : Parse.styles.Yields fun s => ∀ e ∈ s.entries, e.value.WellFormed :=
  look fun _ => bind (expectKeyword _) fun _ => bind (entries .plain) fun _ =>
    look fun _ => pure fun h _ => h

end Parse.Yields

/-! ## Diagrams -/

/-- A source that was read from a genuine token can be written again. -/
theorem Cursor.Genuine.source (h : c.Genuine) {s : DiagramSource}
    (hs : Parse.sourceOf? c.peek = some s) : s.WellFormed := by
  unfold Parse.sourceOf? at hs
  split at hs
  · rename_i tag body hlex
    cases hs
    have hend : c.atEnd = false := Cursor.atEnd_eq_false_of_peek (by simp [Token.isEnd, hlex])
    obtain ⟨s, pre, ws, im, w, m, -, hcut⟩ := h.cut hend
    rw [hcut.peek] at hlex
    replace hlex : m.lexeme = .heredoc tag body := hlex
    rcases munch?_cases hcut.munch with hraw | ⟨-, hflat⟩
    · obtain ⟨tag', header, lines, post, hparts, -, -, -, -, hlex'⟩ := rawParts_of_heredoc? hraw
      rw [hlex'] at hlex
      cases hlex
      refine ⟨?_, ?_⟩
      · simpa using hparts.body
      · simpa using bodyOfLines_body lines
    · exact absurd hlex (not_heredoc_of_flat? hflat tag body)
  · cases hs
    trivial
  · cases hs

/-- What is known of the parts of a diagram that were read. -/
def DiagramPart.WellFormed : Parse.DiagramPart → Prop
  | .source s => s.WellFormed
  | .config e | .assets e => e.IsObject
  | .nothing => True

namespace Parse.Yields

theorem diagramPart? : Parse.diagramPart?.Yields fun o =>
    ∀ part, o = some part → DiagramPart.WellFormed part := by
  refine bind (eatKeyword _) fun b => ?_
  cases b with
  | true =>
    refine fun c => .look ?_
    cases hs : Parse.sourceOf? c.peek with
    | none => exact bind (unexpected _) (fun _ => pure fun h => h.elim) c
    | some s =>
      refine .next (P := s.WellFormed) (fun hgen => hgen.source hs) (.here fun h _ part hpart => ?_)
      cases hpart
      exact h
  | false =>
    refine bind (eatKeyword _) fun b => ?_
    cases b with
    | true => exact bind object fun e => pure fun he _ _ part hpart => by cases hpart; exact he
    | false =>
      refine bind (eatKeyword _) fun b => ?_
      cases b with
      | true => exact bind object fun e => pure fun he _ _ _ part hpart => by cases hpart; exact he
      | false => exact pure fun _ _ _ part hpart => by cases hpart

theorem diagram : Parse.diagram.Yields Diagram.WellFormed := by
  refine look fun _ => bind (expectKeyword _) fun _ => bind optionalName fun _ =>
    bind (block diagramPart?) fun parts => look fun _ => pure fun hparts _ _ => ?_
  -- Every part that is added keeps what is known
  have hfold : ∀ (parts : List Parse.DiagramPart) (d : Diagram),
      (∀ part ∈ parts, DiagramPart.WellFormed part) → d.WellFormed →
        (parts.foldl Parse.DiagramPart.addTo d).WellFormed := by
    intro parts
    induction parts with
    | nil => exact fun d _ hd => hd
    | cons part parts ih =>
      intro d hall hd
      refine ih _ (fun p hp => hall p (List.mem_cons_of_mem _ hp)) ?_
      have hpart := hall part List.mem_cons_self
      cases part with
      | source s => exact ⟨fun s' hs' => by cases hs'; exact hpart, hd.config, hd.assets⟩
      | config e => exact ⟨hd.source, fun e' he' => by cases he'; exact hpart, hd.assets⟩
      | assets e => exact ⟨hd.source, hd.config, fun e' he' => by cases he'; exact hpart⟩
      | nothing => exact hd
  exact hfold parts _ hparts ⟨by simp, by simp, by simp⟩

end Parse.Yields

end DiagramTour
