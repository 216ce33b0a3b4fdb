import DiagramTour.Proofs.Program.Heading
import DiagramTour.Proofs.Program.OnlyErrors

/-!
# Printed expressions are unambiguous

However operators, lists, objects, calls, variables, literals and targets are nested in an expression,
the text that is printed of it is read as that expression.  A condition is put only on what is printed
as it is: the texts of literals, the segments of variables, and the names of actions and arguments.

## Architecture

- `Literal.IsLexed` says of the text of a literal what the lexer makes of it; it is the same as being
  well spelled.
- `Expr.Spellable` puts this and the conditions on names on every node of a tree; such a tree is well
  formed, and its ways are clear.
- A text whose only declaration is a definition is read up to its end, and in silence, since nothing but
  errors is reported while an expression is read.
-/

namespace DiagramTour

open Cursor (Onward)

variable {e : Expr} {l : Literal} {w : String} {path : List String}

/-! ## What is printed as it is -/

/-- Behind an opening parenthesis the text of the literal is cut into one token, with nothing to
report, and the token means the literal. -/
def Literal.IsLexed (l : Literal) : Prop :=
  ∃ paren t, (lex ("(" ++ l.raw)).tokens = [paren, t] ∧ (lex ("(" ++ l.raw)).diagnostics = [] ∧
    t.image = l.raw ∧ Literal.ofToken? t = some l

theorem Literal.IsLexed.wellSpelled (h : l.IsLexed) : l.WellSpelled := by
  obtain ⟨paren, t, htokens, hsilent, -, hliteral⟩ := h
  have hgenuine : (Cursor.outset ("(" ++ l.raw)).Genuine := by
    refine ⟨⟨true, [], _, Cursor.before_outset _⟩, ?_⟩
    exact congrArg hasErrors hsilent
  have hrest : (Cursor.outset ("(" ++ l.raw)).rest = [paren, t] := htokens
  -- The token of the literal is the next one behind the parenthesis
  have hnext : (Cursor.outset ("(" ++ l.raw)).advance.peek = t := by
    rw [← Cursor.second_eq, Cursor.second, hrest]
    rfl
  apply hgenuine.advance.wellSpelled
  rw [hnext]
  exact hliteral

/-- A literal is well spelled exactly if its text is cut into its token behind a parenthesis. -/
theorem Literal.isLexed_iff : l.IsLexed ↔ l.WellSpelled := by
  refine ⟨IsLexed.wellSpelled, fun h => ?_⟩
  obtain ⟨lexeme, himage, hliteral⟩ := h
  have hstart : (Cursor.outset ("(" ++ l.raw)).At ('(' :: (l.raw.toList ++ [])) := by
    have hbefore := Cursor.before_outset ("(" ++ l.raw)
    rw [String.toList_append] at hbefore
    exact ⟨⟨[], by simpa using hbefore⟩, Cursor.not_failed_outset _⟩
  have hparen := hstart.punct (by decide) (.inl (by decide))
  have hshows := hparen.next.shows (himage.munches fenced_nil) (.inr calm_nil)
  rw [String.ofList_toList] at hshows
  generalize hc : Cursor.outset ("(" ++ l.raw) = c at hparen hshows
  -- Two tokens are read up to the end of the text
  have htokens : c.rest = [c.peek, c.advance.peek] := by
    have hend := hshows.next.atEnd
    have hgoing := hparen.going
    have hgoing' := hshows.going
    unfold Cursor.atEnd Cursor.peek Cursor.advance at *
    cases hrest : c.rest with
    | nil => simp [hrest] at hgoing
    | cons t ts =>
      cases ts with
      | nil => simp [hrest] at hgoing'
      | cons u us => simpa [hrest] using hend
  have hsilent := hshows.next.diagnostics
  have hsource : c.advance.advance.source = ("(" ++ l.raw).toList := by
    rw [((Onward.advance _).trans (.advance _)).source, ← hc]
    rfl
  subst hc
  refine ⟨_, _, htokens, ?_, hshows.image, ?_⟩
  · rw [hsource] at hsilent
    exact hsilent
  · rw [← hliteral]
    exact Literal.ofToken?_congr hshows.lexeme hshows.image

/-- The text is a whole number without a sign. -/
def IsIndex (w : String) : Prop :=
  Whole w ∧ beginsWithDigit w = true

/-- The segments of a variable: words and whole numbers, of which no two are next to each other. -/
structure IsWay (path : List String) : Prop where
  ne_nil : path ≠ []
  segments : ∀ w ∈ path, Word w ∨ IsIndex w
  apart : path.IsChain fun v w => ¬(IsIndex v ∧ IsIndex w)

theorem Word.not_beginsWithDigit (h : Word w) : beginsWithDigit w = false := by
  have hnumber := h.not_isNumberSegment
  unfold isNumberSegment at hnumber
  unfold beginsWithDigit
  cases hw : w.toList with
  | nil => rfl
  | cons c cs =>
    rw [hw] at hnumber
    simp only [List.head?_cons, Option.any_some, Bool.or_eq_false_iff] at hnumber ⊢
    exact hnumber.1.1

/-- Only where two numbers are next to each other could a point make a fraction. -/
theorem isClearPath_of_apart (hsegments : ∀ w ∈ path, Word w ∨ IsIndex w)
    (hapart : path.IsChain fun v w => ¬(IsIndex v ∧ IsIndex w)) : isClearPath path = true := by
  induction hapart with
  | nil => rfl
  | singleton v => rfl
  | @cons_cons v w ws hvw _ ih =>
    have hrest : isClearPath (w :: ws) = true := by
      apply ih
      intro u hu
      exact hsegments u (List.mem_cons_of_mem v hu)
    rw [isClearPath, hrest, Bool.and_true]
    rcases hsegments v List.mem_cons_self with hv | hv
    · rw [hv.not_isNumberSegment]
      rfl
    rcases hsegments w (List.mem_cons_of_mem v List.mem_cons_self) with hw | hw
    · rw [hw.not_beginsWithDigit, Bool.and_false]
      rfl
    · exact absurd ⟨hv, hw⟩ hvw

/-! ## Trees that can be spelled -/

/-- What is printed as it is can be read: literals are tokens, variables have ways, and names are
words.  Keys of objects and texts in targets may be any. -/
inductive Expr.Spellable : Expr → Prop where
  | literal {l : Literal} {span : Span} : l.IsLexed → Spellable (.literal l span)
  | var {path : List String} {span : Span} : IsWay path → Spellable (.var path span)
  | object {entries : List (Entry Expr)} {span : Span} :
      (∀ e ∈ entries, Spellable e.value) → Spellable (.object entries span)
  | array {items : List Expr} {span : Span} :
      (∀ e ∈ items, Spellable e) → Spellable (.array items span)
  /-- A word that opens a target opens no call. -/
  | call {callee first : String} {args : List (Argument Expr)} {span : Span} :
      CalleeOf callee first → TargetHead.ofWord? first = none →
      (∀ a ∈ args, ∀ w, a.name = some w → Word w) → (∀ a ∈ args, Spellable a.value) →
      Spellable (.call ⟨callee, args⟩ span)
  | unary {op : UnaryOp} {operand : Expr} {span : Span} :
      Spellable operand → Spellable (.unary op operand span)
  | binary {op : BinaryOp} {left right : Expr} {span : Span} :
      Spellable left → Spellable right → Spellable (.binary op left right span)
  | target {target : Target} {span : Span} : Spellable (.target target span)

namespace Expr.Spellable

theorem wellFormed (h : e.Spellable) : e.WellFormed := by
  induction h with
  | literal hl => exact .literal hl.wellSpelled
  | var hway =>
    apply WellFormed.var hway.ne_nil
    intro w hw
    exact (hway.segments w hw).imp_right And.left
  | object _ ih => exact .object ih
  | array _ ih => exact .array ih
  | call hcallee hhead hnames _ ih => exact .call hcallee hhead hnames ih
  | unary _ ih => exact .unary ih
  | binary _ _ ihleft ihright => exact .binary ihleft ihright
  | target => exact .target

theorem isClear (h : e.Spellable) : e.isClear = true := by
  induction h with
  | literal => rfl
  | var hway => simpa [Expr.isClear, paths] using isClearPath_of_apart hway.segments hway.apart
  | object _ ih =>
    simp only [Expr.isClear, paths, entriesPaths_eq, List.all_flatMap, List.all_eq_true] at ih ⊢
    exact ih
  | array _ ih =>
    simp only [Expr.isClear, paths, itemsPaths_eq, List.all_flatMap, List.all_eq_true] at ih ⊢
    exact ih
  | call _ _ _ _ ih =>
    simp only [Expr.isClear, paths, argsPaths_eq, List.all_flatMap, List.all_eq_true] at ih ⊢
    exact ih
  | unary _ ih => exact ih
  | binary _ _ ihleft ihright =>
    simp only [Expr.isClear, paths, List.all_append, Bool.and_eq_true] at ihleft ihright ⊢
    exact ⟨ihleft, ihright⟩
  | target => rfl

end Expr.Spellable

/-! ## A text with one definition -/

theorem Parse.OnlyErrors.define : (Parse.itemOfWord "let").OnlyErrors :=
  bind definition fun _ => bind (eatPunct _) fun _ => pure _

/-- A definition at the end of a text is read as it was printed. -/
theorem Parse.Reads.define {d : Definition} (h : d.value.WellFormed) (hclear : d.value.isClear = true) :
    (Parse.itemOfWord "let").Reads d.print.toList [] fun i =>
      i.withoutSpans = .define d.withoutSpans := by
  have hread := Parse.Reads.definition h hclear endsExpr_nil
  rw [List.append_nil] at hread
  refine bind hread fun d' hd' => bind (eatPunct_absent (.atEnd fun _ => rfl)) fun _ _ => pure ?_
  exact congrArg Item.define hd'

theorem OpensWith.define (d : Definition) : OpensWith "let" d.print.toList := by
  have htext : d.print.toList =
      "let".toList ++ ' ' :: (printName d.name ++ " = " ++ d.value.print).toList := by
    simp [Definition.print]
  rw [htext]
  exact ⟨0, _, rfl, fenced_space _⟩

/-- A text whose only declaration is a definition is read in silence, up to its end. -/
theorem parse_define {d : Definition} (h : d.value.WellFormed) (hclear : d.value.isClear = true) :
    (parse ("mpd 1.0\n" ++ d.print)).diagnostics = [] ∧
      ∃ p i, (parse ("mpd 1.0\n" ++ d.print)).program = some p ∧ p.items = [i] ∧
        i.withoutSpans = .define d.withoutSpans := by
  have hword : Word "let" := ⟨by decide, .inl rfl⟩
  have hopens := OpensWith.define d
  have htext : ("mpd 1.0\n" ++ d.print).toList = bareHead ++ d.print.toList := String.toList_append
  obtain ⟨c, version, span, hc, hsource, hreports, -, hprogram, hdiagnostics⟩ :=
    parse_of_heading htext (hopens.nextItem hword)
  obtain ⟨hlex, himage⟩ := (hopens.coming (Q := fun t => t.lexeme = .keyword ∧ t.image = "let")
    hword.1 fun _ => ⟨rfl, rfl⟩).peek c hc
  have hgoing : c.atEnd = false :=
    Cursor.atEnd_eq_false_of_peek (by simp [Token.isEnd, hlex])
  have hitem : c.item = (Parse.itemOfWord "let" c).map some :=
    Cursor.item_of_word hword (by decide) hlex himage
  obtain ⟨hvalue, hend⟩ := Parse.Reads.define h hclear c hc
  -- Nothing but the definition is read, and nothing is left
  have hrest : c.item.next.rest = [] := by
    rw [hitem]
    exact List.isEmpty_iff.mp hend.atEnd
  obtain ⟨hitems, hnext⟩ := Cursor.items_of_last hgoing hrest
  rw [hitem] at hitems hnext
  refine ⟨?_, _, _, hprogram, hitems, hvalue⟩
  -- Nothing was wrong with a token, and what else was reported would have been an error
  have hlexed : (lexFrom true .start c.source).diagnostics = [] := by
    have hdone := hend.diagnostics
    rw [← (Cursor.yields_items true false c).onward.source, hnext]
    exact hdone
  have hsilent : (Parse.itemOfWord "let" c).next.reports = #[] :=
    (Parse.OnlyErrors.define c (.of_silent hreports)).silent hend.2
  rw [hdiagnostics, hlexed, hnext, Parsed.map_next, hsilent]
  rfl

/-! ## Expressions -/

/-- A printed expression is read as the expression, whatever it is, without a word. -/
theorem printed_exprs_unambiguous (h : e.Spellable) :
    (parse ("mpd 1.0\nlet v = " ++ e.print)).diagnostics = [] ∧
      ∃ p d, (parse ("mpd 1.0\nlet v = " ++ e.print)).program = some p ∧ p.items = [.define d] ∧
        d.name = "v" ∧ d.value.withoutSpans = e.withoutSpans := by
  have htext : "mpd 1.0\nlet v = " ++ e.print =
      "mpd 1.0\n" ++ (⟨"v", e, default⟩ : Definition).print := by
    have hname : printName "v" = "v" := by decide
    rw [Definition.print, hname, ← String.toList_inj]
    simp
  rw [htext]
  obtain ⟨hsilent, p, i, hprogram, hitems, hvalue⟩ :=
    parse_define (d := ⟨"v", e, default⟩) h.wellFormed h.isClear
  refine ⟨hsilent, p, ?_⟩
  cases i with
  | define d =>
    simp only [Item.withoutSpans, Definition.withoutSpans, Item.define.injEq, Definition.mk.injEq,
      and_true] at hvalue
    exact ⟨d, hprogram, hitems, hvalue.1, hvalue.2⟩
  | _ => cases hvalue

/-- A sign before a signed number, a product on the right of a difference, and a list in a call. -/
def tangledExpr : Expr :=
  .binary .sub (.unary .neg (.literal ⟨.int (-3), "-3"⟩ default) default)
    (.binary .mul (.var ["a", "1", "or"] default)
      (.call ⟨"show.it", [⟨some "to", .array [.target (.element .node (.named "a b") default) default,
        .object [⟨"odd key", .literal ⟨.null, "null"⟩ default, default⟩] default] default⟩]⟩ default)
      default) default

theorem tangledExpr_spellable : tangledExpr.Spellable := by
  have hthree : (⟨.int (-3), "-3"⟩ : Literal).IsLexed :=
    Literal.isLexed_iff.mpr ⟨_, ⟨_, rfl, rfl, rfl, rfl⟩, rfl⟩
  have hnull : (⟨.null, "null"⟩ : Literal).IsLexed :=
    Literal.isLexed_iff.mpr ⟨_, ⟨_, rfl, rfl, rfl, rfl⟩, rfl⟩
  have ha : Word "a" := ⟨by decide, .inr rfl⟩
  have hor : Word "or" := ⟨by decide, .inl rfl⟩
  have hshow : Word "show" := ⟨by decide, .inr rfl⟩
  have hit : Word "it" := ⟨by decide, .inr rfl⟩
  have hto : Word "to" := ⟨by decide, .inr rfl⟩
  have hone : IsIndex "1" := ⟨whole_toString 1, rfl⟩
  have hway : IsWay ["a", "1", "or"] := by
    refine ⟨by simp, by simp [ha, hone, hor], ?_⟩
    have hno {w : String} (hw : Word w) : ¬IsIndex w := fun hindex => by
      have hdigit := hindex.2
      rw [hw.not_beginsWithDigit] at hdigit
      cases hdigit
    simp [hno ha, hno hor]
  have hcallee : CalleeOf "show.it" "show" := ⟨["it"], rfl, by simp [hshow, hit]⟩
  unfold tangledExpr
  apply Expr.Spellable.binary
  · exact .unary (.literal hthree)
  · apply Expr.Spellable.binary (.var hway)
    apply Expr.Spellable.call hcallee rfl
    · simp [hto]
    · simp only [List.mem_singleton, forall_eq]
      apply Expr.Spellable.array
      simp only [List.mem_cons, List.not_mem_nil, or_false, forall_eq_or_imp, forall_eq]
      refine ⟨.target, .object ?_⟩
      simpa using Expr.Spellable.literal hnull

theorem tangledExpr_unambiguous : tangledExpr.Spellable ∧
    (parse ("mpd 1.0\nlet v = " ++ tangledExpr.print)).diagnostics = [] ∧
      ∃ p d, (parse ("mpd 1.0\nlet v = " ++ tangledExpr.print)).program = some p ∧
        p.items = [.define d] ∧ d.name = "v" ∧ d.value.withoutSpans = tangledExpr.withoutSpans :=
  ⟨tangledExpr_spellable, printed_exprs_unambiguous tangledExpr_spellable⟩

end DiagramTour
