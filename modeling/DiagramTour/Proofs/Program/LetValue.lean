import DiagramTour.Proofs.Program.PrintedExpr

/-!
# Texts with one definition

In a text with one definition the value is read from one place on.  What is read there decides about the
text: it is read without a word if the value is, up to the end, and has an error if what stands behind the
value is no word.

## Architecture

- `Cursor.letValue` is the cursor before the value, and `LetPlace` says all of it and of the way to it.
- `IsValue` says that a text is read without a word, and what its value is.
- `isValue_of_read` and `hasErrors_letText` are the two ways in which the text can go on.
-/

namespace DiagramTour

open Cursor (Onward)

variable {value : String} {c : Cursor}

/-- A text with one definition, of which the value is written like this. -/
def letText (value : String) : String :=
  "mpd 1.0\nlet v = " ++ value

/-- What stands before the value and the blank before that. -/
def letHead : List Char :=
  "mpd 1.0\nlet v =".toList

theorem toList_letText (value : String) : (letText value).toList = letHead ++ ' ' :: value.toList := by
  have hhead : "mpd 1.0\nlet v = ".toList = letHead ++ [' '] := by decide
  rw [letText, String.toList_append, hhead, List.append_assoc]
  rfl

/-- The text is read without a word, and the value of its one definition is this, up to spans. -/
def IsValue (value : String) (e : Expr) : Prop :=
  (parse (letText value)).diagnostics = [] ∧
    ∃ p d, (parse (letText value)).program = some p ∧ p.items = [.define d] ∧ d.name = "v" ∧
      d.value.withoutSpans = e.withoutSpans

theorem IsValue.congr {e e' : Expr} (h : IsValue value e) (he : e.withoutSpans = e'.withoutSpans) :
    IsValue value e' := by
  obtain ⟨hsilent, p, d, hprogram, hitems, hname, hvalue⟩ := h
  exact ⟨hsilent, p, d, hprogram, hitems, hname, hvalue.trans he⟩

theorem IsValue.not_hasErrors {e : Expr} (h : IsValue value e) :
    hasErrors (parse (letText value)).diagnostics = false :=
  congrArg hasErrors h.1

/-! ## On the way to the value -/

/-- The cursor before the value. -/
def Cursor.letValue (value : String) : Cursor :=
  (Cursor.declarations (letText value)).advance.advance.advance

/-- The three tokens before the value, and the place behind them. -/
structure LetPlace (value : String) (c : Cursor) : Prop where
  lexeme : c.peek.lexeme = .keyword
  image : c.peek.image = "let"
  name : c.advance.peek.isName = true
  text : c.advance.peek.text = "v"
  equals : c.advance.advance.atOperator "=" = true
  place : c.advance.advance.advance.Before true letHead (' ' :: value.toList)
  stop : c.advance.advance.advance.lastStop = Position.start.advance letHead

theorem letPlace (hc : c.At ("let v = ".toList ++ value.toList))
    (hsource : c.source = (letText value).toList) : LetPlace value c := by
  have hequals := image_equals.munches (fenced_space value.toList)
  have hcalm : Calm ("=".toList ++ ' ' :: value.toList) := calm_of_munches hequals fun d ds h => by
    obtain ⟨rfl, -⟩ : '=' = d ∧ _ := by simpa using h
    decide
  have hc : c.At ("let".toList ++ ' ' :: ("v".toList ++ ' ' :: ("=".toList ++ ' ' :: value.toList))) := hc
  have hlet := hc.keyword (by decide) rfl (fenced_space _)
  have hname := hlet.next.space.word (by decide) (fenced_space _) (.inr hcalm.space)
  have hmid := hname.next.space
  have hshows := hmid.shows hequals (.inl rfl)
  -- The text that was read up to the third token is known
  have hread : c.advance.advance.source =
      "mpd 1.0\nlet v ".toList ++ ("=".toList ++ ' ' :: value.toList) := by
    rw [((Onward.advance c).trans (.advance _)).source, hsource, toList_letText]
    rfl
  obtain ⟨m, hmunch, hlen, hclosed, hlex⟩ := hequals.munch
  have hbefore : c.advance.advance.Before true "mpd 1.0\nlet v ".toList
      ([] ++ ("=".toList ++ ' ' :: value.toList)) := hmid.before hread
  obtain ⟨hpeek, hgoing, hnext⟩ := hbefore.advance hequals.trivia hmunch hlen hclosed
  rw [hlex] at hnext
  refine ⟨hlet.lexeme, hlet.image, ?_, ?_, ?_, hnext, ?_⟩
  · rw [Token.isName, Token.isWord, hname.lexeme]
    rfl
  · rw [Token.text, hname.lexeme, hname.image]
    rfl
  · rw [Cursor.atOperator, Token.isOperator, hshows.lexeme, hshows.image]
    rfl
  · rw [Cursor.lastStop_advance hgoing, hpeek]
    rfl

/-- The definition is read with the value that is read at its place. -/
theorem LetPlace.definition (h : LetPlace value c) : ∃ span,
    (Parse.definition c).value = ⟨"v", (c.advance.advance.advance.exprAt 0).value, span⟩ ∧
      (Parse.definition c).next = (c.advance.advance.advance.exprAt 0).next := by
  have hlet : c.expectKeyword "let" = c.advance :=
    if_pos (by rw [Cursor.atKeyword, Token.isKeyword, h.lexeme, h.image]; rfl)
  have hname : Parse.name? "a variable name" c.advance =
      ⟨some "v", c.advance.advance, c.advance.size_advance_le⟩ := by
    rw [Parse.name?, if_pos h.name, h.text]
  unfold Parse.definition
  simp only [Parse.bind_apply, Parse.start, Parse.look, Parse.expectKeyword, Parsed.andThen_value,
    Parsed.andThen_next, Parsed.here_value, Parsed.here_next, hlet, hname, h.equals]
  exact ⟨_, rfl, rfl⟩

theorem LetPlace.item (h : LetPlace value c) : ∃ span,
    c.item.value = some (.define ⟨"v", (c.advance.advance.advance.exprAt 0).value, span⟩) ∧
      c.item.next = (c.advance.advance.advance.exprAt 0).next.eatPunct ";" := by
  obtain ⟨span, hvalue, hnext⟩ := h.definition
  have hitem : c.item = (Parse.itemOfWord "let" c).map some :=
    Cursor.item_of_word ⟨by decide, .inl rfl⟩ (by decide) h.lexeme h.image
  have hword : Parse.itemOfWord "let" = Parse.definition >>= fun d =>
      Parse.eatPunct ";" >>= fun _ => pure (.define d) := rfl
  rw [hitem, hword]
  refine ⟨span, congrArg (fun d => some (Item.define d)) hvalue, ?_⟩
  rw [← hnext]
  rfl

theorem nextItem_let (value : String) : NextItem ("let v = ".toList ++ value.toList) :=
  Coming.word (w := "let") (by decide) (fenced_space _) fun _ => .inl rfl

/-- What is read of the text before its value. -/
theorem readFromDeclarations_letText (value : String) : ∃ v span,
    ReadFromDeclarations (letText value) ("let v = ".toList ++ value.toList) v span ∧
      LetPlace value (.declarations (letText value)) := by
  have htext : (letText value).toList = bareHead ++ ("let v = ".toList ++ value.toList) := by
    rw [toList_letText]
    rfl
  obtain ⟨v, span, hread⟩ := parse_of_declarations htext (nextItem_let value)
  exact ⟨v, span, hread, letPlace hread.place hread.text⟩

theorem item_letText (hplace : LetPlace value (.declarations (letText value))) : ∃ span,
    (Cursor.declarations (letText value)).item.value =
        some (.define ⟨"v", ((Cursor.letValue value).exprAt 0).value, span⟩) ∧
      (Cursor.declarations (letText value)).item.next =
        ((Cursor.letValue value).exprAt 0).next.eatPunct ";" :=
  hplace.item

theorem Cursor.onward_letValue (value : String) : Onward (.outset (letText value)) (.letValue value) :=
  ((((Onward.advance _).trans (Parse.Yields.version _).onward).trans (.advance _)).trans (.advance _)).trans
    (.advance _)

theorem Cursor.before_letValue (value : String) :
    (Cursor.letValue value).Before true letHead (' ' :: value.toList) ∧
      (Cursor.letValue value).lastStop = Position.start.advance letHead ∧
      (Cursor.letValue value).reports = #[] := by
  obtain ⟨v, span, hread, hplace⟩ := readFromDeclarations_letText value
  refine ⟨hplace.place, hplace.stop, ?_⟩
  rw [letValue, reports_advance, reports_advance, reports_advance, hread.reports]

/-! ## Behind the value -/

theorem LetPlace.going (h : LetPlace value c) : c.atEnd = false :=
  Cursor.atEnd_eq_false_of_isWord (by rw [Token.isWord, h.lexeme])

/-- If the value is read up to the end of the text, and without an error, that is the value of the
definition. -/
theorem isValue_of_read (hlexed : (lex (letText value)).diagnostics = [])
    (hok : ¬((Cursor.letValue value).exprAt 0).next.Failed)
    (hend : ((Cursor.letValue value).exprAt 0).next.atEnd = true) :
    IsValue value ((Cursor.letValue value).exprAt 0).value := by
  obtain ⟨v, span, hread, hplace⟩ := readFromDeclarations_letText value
  obtain ⟨span', hvalue, hnext⟩ := item_letText hplace
  have hlast : (Cursor.declarations (letText value)).item.next =
      ((Cursor.letValue value).exprAt 0).next := by
    refine hnext.trans (if_neg fun hmark => ?_)
    rw [Cursor.atEnd_eq_false_of_atPunct hmark] at hend
    cases hend
  obtain ⟨hitems, hbehind⟩ := Cursor.items_of_last hplace.going
    (by rw [hlast]; exact List.isEmpty_iff.1 hend)
  rw [hvalue] at hitems
  -- What is reported while an expression is read is an error
  have hsilent : ((Cursor.letValue value).exprAt 0).next.reports = #[] :=
    (Parse.OnlyErrors.expr _ (.of_silent (Cursor.before_letValue value).2.2)).silent hok
  refine ⟨?_, _, _, hread.program, hitems, rfl, rfl⟩
  rw [hread.diagnostics, hlexed, hbehind, hlast, hsilent]
  rfl

/-- Where no word comes next behind a declaration, the next turn reads nothing, which is an error. -/
theorem Cursor.failed_items_of_not_isWord (hgoing : c.atEnd = false) (hdeck : c.atKeyword "deck" = false)
    (hlt : c.item.next.size < c.size) (hend : c.item.next.atEnd = false)
    (hword : c.item.next.peek.isWord = false) : (items true false c).next.Failed := by
  have hbehind (first : Bool) (d : Cursor) (hd : d = c.item.next) :
      (items first false d).next.Failed := by
    subst hd
    rw [(items_of_going first false hend).2]
    exact (yields_items _ _ _).onward.failed (failed_afterTurn_item hword)
  rw [(items_of_going true false hgoing).2, itemsBehind_of_word true hdeck]
  exact hbehind _ _ (afterTurn_of_lt hlt _)

/-- If something that is no word stands behind the value, the text has an error. -/
theorem hasErrors_letText (hword : ((Cursor.letValue value).exprAt 0).next.peek.isWord = false)
    (hmark : ((Cursor.letValue value).exprAt 0).next.atPunct ";" = false)
    (hend : ((Cursor.letValue value).exprAt 0).next.atEnd = false) :
    hasErrors (parse (letText value)).diagnostics = true := by
  obtain ⟨v, span, hread, hplace⟩ := readFromDeclarations_letText value
  obtain ⟨span', hvalue, hnext⟩ := item_letText hplace
  have hdeck : (Cursor.declarations (letText value)).atKeyword "deck" = false := by
    rw [Cursor.atKeyword, Token.isKeyword, hplace.lexeme, hplace.image]
    rfl
  have hlast : (Cursor.declarations (letText value)).item.next =
      ((Cursor.letValue value).exprAt 0).next :=
    hnext.trans (if_neg (by rw [hmark]; decide))
  have hlt : ((Cursor.letValue value).exprAt 0).next.size <
      (Cursor.declarations (letText value)).size := by
    have hle := ((Cursor.letValue value).exprAt 0).le
    have hstep := Cursor.size_advance_lt hplace.going
    have hstep' := (Cursor.declarations (letText value)).advance.size_advance_le
    have hstep'' := (Cursor.declarations (letText value)).advance.advance.size_advance_le
    rw [Cursor.letValue] at hle ⊢
    omega
  have hfailed := Cursor.failed_items_of_not_isWord hplace.going hdeck (hlast ▸ hlt) (hlast ▸ hend)
    (hlast ▸ hword)
  rw [hread.diagnostics, hasErrors_append, Bool.or_eq_true]
  exact .inr hfailed

end DiagramTour
