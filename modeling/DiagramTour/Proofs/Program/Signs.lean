import DiagramTour.Proofs.Program.Behind
import DiagramTour.Proofs.Program.LastToken
import DiagramTour.Proofs.Program.LetValue
import DiagramTour.Proofs.Program.LongerExpr

/-!
# Signs behind an operand

A sign before a digit belongs to the number unless the token before it can end an operand, and reserved
words and operators are taken for tokens that cannot.  Behind an operand a sign stands for an operator all
the same, with a blank before the digits or without one, unless the operand ends with a reserved word or
with the star that stands for every element: there the sign and the digits become one number, with which
no expression goes on.

## Architecture

- `IsOperandText` says that the tokens of a text make up one expression without operators.
- `IsOperandText.behind` is the step to a longer text: the operand is read as before, and behind it stands
  what was added.
- What was added is cut into an operator and a number (`shows_operator`) or into one number
  (`shows_signed`).
-/

namespace DiagramTour

open Cursor (Onward)

variable {value longer n : String} {last : Token} {l : Literal} {op : BinaryOp} {z : Char} {s : Bool}
  {pre ds w y : List Char} {c : Cursor}

/-! ## Signs and numbers -/

/-- A sign is cut off by itself where none is allowed, and before whatever is no digit. -/
theorem munch?_sign (hz : z = '+' ∨ z = '-') (hw : '>' ∉ w) (hsign : s = false ∨ NoDigit w) :
    munch? s (z :: w) = some { lexeme := .operator, length := 1, length_pos := Nat.one_pos } := by
  have hnumber : number? s (z :: w) = none := by
    have hunsigned (neg : Bool) (h : NoDigit w) : unsigned? neg 1 w = none := by
      unfold unsigned?
      simp [takeWhile_of_noDigit h]
    rcases hz with rfl | rfl <;> rcases hsign with rfl | hdigit <;> simp_all [number?]
  have hoperator : operator? (z :: w) =
      some { lexeme := .operator, length := 1, length_pos := Nat.one_pos } := by
    cases w with
    | nil => rcases hz with rfl | rfl <;> rfl
    | cons d ds =>
      have hd : d ≠ '>' := fun h => hw (h ▸ List.mem_cons_self)
      rcases hz with rfl | rfl <;> simp [operator?, isLongOperator, isShortOperator, hd]
  have hword : word? (z :: w) = none := by
    rcases hz with rfl | rfl <;> rw [word?, if_neg (by decide)]
  have hne : z ≠ '<' ∧ z ≠ '\x22' ∧ z ≠ '\x27' ∧ z ≠ '#' := by
    rcases hz with rfl | rfl <;> decide
  rw [munch?_of_ne hne.1, flat?, string?_of_ne hne.2.1 hne.2.2.1, color?_of_ne hne.2.2.2, hnumber, hword,
    hoperator]
  rfl

theorem triviaLength_sign (hz : z = '+' ∨ z = '-') (w : List Char) :
    triviaLength ([' '] ++ ([z] ++ w)) = 1 := by
  show triviaLength (' ' :: z :: w) = 1
  rw [triviaLength_of_isBlank (by decide)]
  rcases hz with rfl | rfl <;>
    rw [triviaLength_eq_zero (by decide) (opensComment_of_ne (by decide) (by decide))]

/-- Behind the blank a sign comes next by itself, and what stands behind it is left. -/
theorem Cursor.Before.shows_sign (h : c.Before s pre (' ' :: z :: w)) (hz : z = '+' ∨ z = '-')
    (hw : '>' ∉ w) (hsign : s = false ∨ NoDigit w) : c.peek.lexeme = .operator ∧
      c.peek.image = String.ofList [z] ∧ ∃ pre', c.advance.Before true pre' w := by
  have h : c.Before s pre ([' '] ++ ([z] ++ w)) := h
  obtain ⟨hpeek, -, hnext⟩ :=
    h.advance (triviaLength_sign hz w) (munch?_sign hz hw hsign) rfl rfl
  rw [hpeek]
  exact ⟨rfl, rfl, _, hnext⟩

/-- No digit is the end of an arrow. -/
theorem Digits.not_mem_arrow (h : Digits ds) : '>' ∉ ds :=
  fun hmem => absurd (h.all _ hmem) (by decide)

/-- A sign with digits behind it is an operator where it stands between blanks, or where no sign is
allowed, and then the digits come next. -/
theorem Cursor.Before.shows_operator {gap : List Char} (h : c.Before s pre (' ' :: z :: (gap ++ ds)))
    (hz : z = '+' ∨ z = '-') (hds : Digits ds) (hgap : gap = [' '] ∨ gap = [] ∧ s = false) :
    c.peek.lexeme = .operator ∧ c.peek.image = String.ofList [z] ∧ (¬c.Failed → c.advance.At ds) := by
  have hw : '>' ∉ gap ++ ds := by
    rcases hgap with rfl | ⟨rfl, -⟩ <;> simp [hds.not_mem_arrow]
  have hsign : s = false ∨ NoDigit (gap ++ ds) := by
    rcases hgap with rfl | ⟨-, hs⟩
    · right
      rintro d ds ⟨⟩
      decide
    · exact .inl hs
  obtain ⟨hlex, himage, pre', hnext⟩ := h.shows_sign hz hw hsign
  refine ⟨hlex, himage, fun hok => ?_⟩
  have hat : c.advance.At (gap ++ ds) := ⟨⟨pre', hnext⟩, by rwa [Cursor.failed_advance]⟩
  rcases hgap with rfl | ⟨rfl, -⟩
  · exact hat.space
  · exact hat

/-- Where a sign is allowed it makes one number with the digits behind it. -/
theorem Cursor.Before.shows_signed (h : c.Before true pre (' ' :: z :: ds)) (hz : z = '+' ∨ z = '-')
    (hds : Digits ds) : c.atEnd = false ∧ ∃ v, c.peek.lexeme = .int v := by
  obtain ⟨neg, hsign⟩ : ∃ neg, Sign [z] neg := by
    rcases hz with rfl | rfl
    · exact ⟨_, .plus⟩
    · exact ⟨_, .minus⟩
  have hwhole : Whole (String.ofList (z :: ds)) := whole_iff.2 ⟨[z], neg, ds, by simp, hsign, hds⟩
  obtain ⟨v, himage⟩ := hwhole
  rw [String.toList_ofList] at himage
  obtain ⟨m, hmunch, hlen, hclosed, hlex⟩ := (himage.munches fenced_nil).munch
  have h : c.Before true pre ([' '] ++ (z :: ds ++ [])) := by simpa using h
  obtain ⟨hpeek, hend, -⟩ := h.advance (triviaLength_sign hz _) hmunch hlen hclosed
  rw [hpeek]
  exact ⟨hend, v, hlex⟩

/-- Digits spell a literal. -/
theorem Digits.wellSpelled (h : Digits n.toList) : ∃ l : Literal, l.raw = n ∧ l.WellSpelled := by
  obtain ⟨v, himage⟩ := h.whole
  rw [String.toList_ofList] at himage
  obtain ⟨l, hl⟩ : ∃ l, Literal.ofToken? ⟨.int v, n, default⟩ = some l := by
    unfold Literal.ofToken?
    dsimp only
    split <;> exact ⟨_, rfl⟩
  have hraw : l.raw = n := Literal.raw_of_ofToken? hl
  exact ⟨l, hraw, .int v, by rwa [hraw], by rwa [hraw]⟩

/-! ## Operators behind an operand -/

/-- An expression without operators. -/
def Parse.operand : Parse Expr :=
  fun c => c.primaryWith fun d _ => d.exprAt 0

namespace Cursor

/-- At the tightest level an operand is all that is read. -/
theorem exprAt_of_operand (hok : ¬(Parse.operand c).next.Failed) :
    c.exprAt topLevel = Parse.operand c := by
  have hop : UnaryOp.ofToken? c.peek = none := by
    cases h : UnaryOp.ofToken? c.peek with
    | none => rfl
    | some op =>
      refine absurd (failed_primaryWith (.inl ?_)) hok
      unfold UnaryOp.ofToken? at h
      split at h
      · assumption
      · cases h
  rw [exprAt_topLevel, unaryWith_of_none hop]
  rfl

/-- Where no operator of a level follows the level makes no difference. -/
theorem exprAt_of_tighter {level : Nat} (hlevel : level < topLevel)
    (hnone : (c.exprAt (level + 1)).next.operatorAt? level = none) :
    c.exprAt level = c.exprAt (level + 1) := by
  rw [exprAt.eq_1 level c, if_pos hlevel]
  unfold Parsed.andThen
  simp only [operators_of_none _ hnone]
  rfl

theorem exprAt_of_levels {level : Nat} (hlevel : level ≤ topLevel)
    (hnone : ∀ k, level ≤ k → k < topLevel → (c.exprAt topLevel).next.operatorAt? k = none) :
    c.exprAt level = c.exprAt topLevel := by
  induction hk : topLevel - level generalizing level with
  | zero =>
    obtain rfl : level = topLevel := by omega
    rfl
  | succ k ih =>
    have htighter : c.exprAt (level + 1) = c.exprAt topLevel :=
      ih (by omega) (fun m hm => hnone m (by omega)) (by omega)
    rw [exprAt_of_tighter (by omega) (htighter ▸ hnone level (Nat.le_refl _) (by omega)), htighter]

/-- An operand that no operator follows is all that is read at any level. -/
theorem exprAt_of_alone {level : Nat} (hlevel : level ≤ topLevel) (hok : ¬(Parse.operand c).next.Failed)
    (hnone : BinaryOp.ofToken? (Parse.operand c).next.peek = none) :
    c.exprAt level = Parse.operand c := by
  have htop := exprAt_of_operand hok
  rw [exprAt_of_levels hlevel fun k _ _ => ?_, htop]
  rw [htop]
  exact operatorAt?_of_none hnone k

theorem operand_literal (hl : l.WellSpelled) (hc : c.At l.raw.toList) :
    (Parse.operand c).value = .literal l c.peek.span ∧ (Parse.operand c).next.At [] := by
  obtain ⟨hliteral, hnext⟩ := hl.shows fenced_nil calm_nil (by rwa [List.append_nil])
  unfold Parse.operand primaryWith
  rw [hliteral]
  exact ⟨rfl, hnext⟩

/-- An operand, an operator and a literal up to the end of the text are an operation. -/
theorem reads_operand_literal (hok : ¬(Parse.operand c).next.Failed)
    (hop : BinaryOp.ofToken? (Parse.operand c).next.peek = some op) (hl : l.WellSpelled)
    (hright : (Parse.operand c).next.advance.At l.raw.toList) :
    (c.exprAt 0).Reads [] fun e =>
      ∃ span span', e = .binary op (Parse.operand c).value (.literal l span) span' := by
  have hend (d : Cursor) (hd : d.At []) : BinaryOp.ofToken? d.peek = none :=
    (endsExpr_nil.coming.peek d hd).2
  have hleft : c.exprAt (op.level + 1) = Parse.operand c := by
    have htop := exprAt_of_operand hok
    rw [exprAt_of_levels op.level_lt fun k hk _ => ?_, htop]
    rw [htop, operatorAt?, hop, Option.filter_some, if_neg (by simp; omega)]
  obtain ⟨hvalue, hlast⟩ := operand_literal hl hright
  have hread : ((Parse.operand c).next.advance.exprAt (op.level + 1)).Reads []
      fun e => ∃ span, e = .literal l span := by
    rw [exprAt_of_alone op.level_lt hlast.2 (hend _ hlast)]
    exact ⟨⟨_, hvalue⟩, hlast⟩
  rw [← hleft] at hop hread
  obtain ⟨⟨right, span', he, span, rfl⟩, hat⟩ :=
    reads_joined hop hread fun d hd k => operatorAt?_of_none (hend d hd) k
  rw [hleft] at he
  exact ⟨⟨span, span', he⟩, hat⟩

end Cursor

/-! ## Longer texts -/

/-- The text ends with a token, and its tokens are read together, as the value of a definition, as one
expression without operators and without any error. -/
structure IsOperandText (value : String) (last : Token) : Prop where
  lexed : (lex (letText value)).diagnostics = []
  ends : (lex (letText value)).tokens.getLast? = some last
  stop : last.span.stop = Position.start.advance (letText value).toList
  read : ¬(Parse.operand (.letValue value)).next.Failed
  whole : (Parse.operand (.letValue value)).next.atEnd = true

namespace IsOperandText

/-- The last token of an operand is the last one before the end of the text. -/
theorem getLast? (h : IsOperandText value last) :
    (Cursor.letValue value).rest.getLast? = some last ∧ last.canEnd = true := by
  obtain ⟨t, ht, hend⟩ :=
    ((Cursor.completes_primaryWith fun e _ => Cursor.yields_exprAt 0 e).last h.read).getLast? h.whole
  obtain ⟨k, hk⟩ := (Cursor.onward_letValue value).rest
  have hlast : (Cursor.letValue value).rest.getLast? = some last := by
    have hall : (Cursor.outset (letText value)).rest.getLast? = some last := h.ends
    rw [hk, List.getLast?_drop] at ht ⊢
    split at ht
    · cases ht
    · rwa [if_neg ‹_›]
  obtain rfl : t = last := Option.some.inj (ht.symm.trans hlast)
  exact ⟨ht, hend⟩

/-- The longer text has the tokens of the operand, and behind them those of what was added. -/
theorem exists_sequel (h : IsOperandText value last)
    (hlonger : longer.toList = value.toList ++ ' ' :: y) (hy : '>' ∉ y) :
    ∃ e : Cursor, Cursor.letValue longer = (Cursor.letValue value).longer e.sequel ∧
      e.Before last.allowsSign (letHead ++ ' ' :: value.toList) (' ' :: y) := by
  obtain ⟨hplace, hlast, hreports⟩ := Cursor.before_letValue value
  obtain ⟨hplace', hlast', hreports'⟩ := Cursor.before_letValue longer
  obtain ⟨ht, hcan⟩ := h.getLast?
  have hstop := h.stop
  rw [toList_letText] at hstop
  have hsource : (Cursor.letValue value).source = (letText value).toList := by
    rw [hplace.source, toList_letText]
  have hclean : hasErrors (lexFrom true .start (Cursor.letValue value).source).diagnostics = false := by
    rw [hsource]
    exact congrArg hasErrors h.lexed
  have hsame : ' ' :: longer.toList = ' ' :: value.toList ++ ' ' :: y := by rw [hlonger]; rfl
  rw [hsame] at hplace'
  obtain ⟨e, honward, hrest, hbefore⟩ :=
    hplace.trail hplace' hclean hy ht hstop (Token.not_heredoc_of_canEnd hcan)
  exact ⟨e, Cursor.eq_longer honward.source.symm hrest honward.stop.symm (hlast'.trans hlast.symm)
    (hreports'.trans hreports.symm), hbefore⟩

/-- Before something that no mark, no word and no arrow begins, the operand is read as before, and behind
it stands what was added. -/
theorem behind (h : IsOperandText value last) (hlonger : longer.toList = value.toList ++ ' ' :: y)
    (hy : '>' ∉ y)
    (haside : ∀ d : Cursor, d.Before last.allowsSign (letHead ++ ' ' :: value.toList) (' ' :: y) →
      d.peek.lexeme = .operator ∧ d.peek.image ≠ "->" ∨ ∃ v, d.peek.lexeme = .int v) :
    (Parse.operand (.letValue longer)).value = (Parse.operand (.letValue value)).value ∧
      ¬(Parse.operand (.letValue longer)).next.Failed ∧
      (Parse.operand (.letValue longer)).next.Before last.allowsSign (letHead ++ ' ' :: value.toList)
        (' ' :: y) := by
  obtain ⟨e, hd, hbefore⟩ := h.exists_sequel hlonger hy
  have hq : e.sequel.Aside := by
    rcases haside e hbefore with ⟨hlex, himage⟩ | ⟨v, hlex⟩
    · exact .of_operator hlex himage
    · exact .of_int hlex
  have hstands : (Parse.operand (.letValue value)).Stands e.sequel True
      (Parse.operand (.letValue longer)) := by
    rw [hd]
    exact Cursor.stands_primaryWith hq (Cursor.partsStand_expr hq) fun x _ => Cursor.yields_exprAt 0 x
  obtain ⟨hvalue, hnext⟩ := hstands.stand hd h.read (.inl trivial)
  have hnil : (Parse.operand (.letValue value)).next.rest = [] := List.isEmpty_iff.1 h.whole
  rw [hnext]
  refine ⟨hvalue, h.read, hbefore.congr rfl ?_ rfl⟩
  simp [Cursor.longer, Cursor.sequel, hnil]

/-- By itself the operand is the value. -/
theorem isValue (h : IsOperandText value last) :
    IsValue value (Parse.operand (.letValue value)).value := by
  have hnone : BinaryOp.ofToken? (Parse.operand (.letValue value)).next.peek = none := by
    simp [BinaryOp.ofToken?, Cursor.lexeme_of_atEnd h.whole]
  have hexpr := Cursor.exprAt_of_alone (Nat.zero_le _) h.read hnone
  rw [← hexpr]
  refine isValue_of_read h.lexed ?_ ?_ <;> rw [hexpr]
  · exact h.read
  · exact h.whole

/-- Before a sign that is cut off by itself the operand is the left side of an operation. -/
theorem isValue_operation (h : IsOperandText value last) (hz : z = '+' ∨ z = '-')
    (hop : BinaryOp.ofToken? ⟨.operator, String.ofList [z], default⟩ = some op) (hl : l.WellSpelled)
    (hdigits : Digits l.raw.toList) {gap : List Char}
    (hgap : gap = [' '] ∨ gap = [] ∧ last.allowsSign = false)
    (hlonger : longer.toList = value.toList ++ ' ' :: z :: (gap ++ l.raw.toList)) :
    IsValue longer
      (.binary op (Parse.operand (.letValue value)).value (.literal l default) default) := by
  have hy : '>' ∉ z :: (gap ++ l.raw.toList) := by
    rcases hz with rfl | rfl <;> rcases hgap with rfl | ⟨rfl, -⟩ <;> simp [hdigits.not_mem_arrow]
  obtain ⟨hvalue, hok, hbefore⟩ := h.behind hlonger hy fun d hd => by
    obtain ⟨hlex, himage, -⟩ := hd.shows_operator hz hdigits hgap
    refine .inl ⟨hlex, ?_⟩
    rw [himage]
    rcases hz with rfl | rfl <;> decide
  obtain ⟨hlex, himage, hright⟩ := hbefore.shows_operator hz hdigits hgap
  have hoperator : BinaryOp.ofToken? (Parse.operand (.letValue longer)).next.peek = some op := by
    rw [← hop]
    unfold BinaryOp.ofToken?
    rw [hlex, himage]
  obtain ⟨⟨span, span', he⟩, hend⟩ :=
    Cursor.reads_operand_literal hok hoperator hl (hright hok)
  have hsource : ((Cursor.letValue longer).exprAt 0).next.source = (letText longer).toList := by
    have honward := (Cursor.onward_letValue longer).trans (Cursor.yields_exprAt 0 _).onward
    exact honward.source
  have hlexed := hend.diagnostics
  rw [hsource] at hlexed
  refine (isValue_of_read hlexed hend.2 hend.atEnd).congr ?_
  rw [he, hvalue]
  simp only [Expr.withoutSpans]

/-- Where a sign is allowed the sign and the digits behind the operand are one number, which goes on with
nothing. -/
theorem hasErrors_signed (h : IsOperandText value last) (hz : z = '+' ∨ z = '-') (hds : Digits ds)
    (hsign : last.allowsSign = true) (hlonger : longer.toList = value.toList ++ ' ' :: z :: ds) :
    hasErrors (parse (letText longer)).diagnostics = true := by
  have hy : '>' ∉ z :: ds := by
    rcases hz with rfl | rfl <;> simp [hds.not_mem_arrow]
  obtain ⟨-, hok, hbefore⟩ := h.behind hlonger hy fun d hd => by
    rw [hsign] at hd
    exact .inr (hd.shows_signed hz hds).2
  rw [hsign] at hbefore
  obtain ⟨hend, v, hlex⟩ := hbefore.shows_signed hz hds
  have hexpr := Cursor.exprAt_of_alone (Nat.zero_le _) hok (by simp [BinaryOp.ofToken?, hlex])
  refine hasErrors_letText ?_ ?_ ?_ <;> rw [hexpr]
  · simp [Token.isWord, hlex]
  · simp [Cursor.atPunct, Token.isPunct, hlex]
  · exact hend

end IsOperandText

/-- The text of an operator that is a sign as well. -/
theorem BinaryOp.sign_of_symbol (hop : op = .add ∨ op = .sub) : ∃ z, (z = '+' ∨ z = '-') ∧
    op.symbol.toList = [z] ∧ ofToken? ⟨.operator, String.ofList [z], default⟩ = some op := by
  rcases hop with rfl | rfl
  · exact ⟨'+', .inl rfl, rfl, rfl⟩
  · exact ⟨'-', .inr rfl, rfl, rfl⟩

/-- Behind an operand a sign between blanks is an operator.  Without a blank before the digits it is one
exactly if the operand ends neither with a reserved word nor with a star, and otherwise the text has an
error. -/
theorem sign_after_operand_iff (h : IsOperandText value last) (hn : Digits n.toList)
    (hop : op = .add ∨ op = .sub) : ∃ e l, l.raw = n ∧ IsValue value e ∧
      IsValue (value ++ " " ++ op.symbol ++ " " ++ n) (.binary op e (.literal l default) default) ∧
      (IsValue (value ++ " " ++ op.symbol ++ n) (.binary op e (.literal l default) default) ↔
        ¬(last.lexeme = .keyword ∨ last.isOperator "*" = true)) ∧
      (last.lexeme = .keyword ∨ last.isOperator "*" = true →
        hasErrors (parse (letText (value ++ " " ++ op.symbol ++ n))).diagnostics = true) := by
  obtain ⟨l, rfl, hl⟩ := hn.wellSpelled
  obtain ⟨z, hz, hsymbol, htoken⟩ := BinaryOp.sign_of_symbol hop
  have hspaced : (value ++ " " ++ op.symbol ++ " " ++ l.raw).toList =
      value.toList ++ ' ' :: z :: ([' '] ++ l.raw.toList) := by
    simp [hsymbol]
  have htight : (value ++ " " ++ op.symbol ++ l.raw).toList =
      value.toList ++ ' ' :: z :: ([] ++ l.raw.toList) := by
    simp [hsymbol]
  rw [← Token.allowsSign_iff_of_canEnd h.getLast?.2]
  have herrors (hsign : last.allowsSign = true) := h.hasErrors_signed hz hn hsign htight
  refine ⟨_, l, rfl, h.isValue, h.isValue_operation hz htoken hl hn (.inl rfl) hspaced,
    ⟨fun hvalue hsign => ?_, fun hsign => ?_⟩, herrors⟩
  · have hok := hvalue.not_hasErrors
    rw [herrors hsign] at hok
    cases hok
  · exact h.isValue_operation hz htoken hl hn (.inr ⟨rfl, Bool.eq_false_iff.2 hsign⟩) htight

/-- Whether a text is an operand can be computed, and so can what is asked of its last token. -/
theorem IsOperandText.of_checks (value : String) (φ : Token → Bool)
    (hlexed : (lex (letText value)).diagnostics = [])
    (hlast : (lex (letText value)).tokens.getLast?.any (fun t => φ t &&
      t.span.stop == Position.start.advance (letText value).toList) = true)
    (hread : hasErrors (Parse.operand (.letValue value)).next.reports.toList = false)
    (hwhole : (Parse.operand (.letValue value)).next.atEnd = true) :
    ∃ last, IsOperandText value last ∧ φ last = true := by
  obtain ⟨last, hends, hcheck⟩ := (Option.any_eq_true _ _).1 hlast
  obtain ⟨hφ, hstop⟩ := Bool.and_eq_true_iff.1 hcheck
  exact ⟨last, ⟨hlexed, hends, by simpa using hstop, Bool.eq_false_iff.1 hread, hwhole⟩, hφ⟩

theorem one_subtracted_from_call : ∃ last, IsOperandText "f($step)" last ∧ Digits "1".toList ∧
    ¬(last.lexeme = .keyword ∨ last.isOperator "*" = true) ∧ ∃ e l, l.raw = "1" ∧
      IsValue "f($step)" e ∧ IsValue "f($step) - 1" (.binary .sub e (.literal l default) default) ∧
      IsValue "f($step) -1" (.binary .sub e (.literal l default) default) := by
  obtain ⟨last, h, hsign⟩ := IsOperandText.of_checks "f($step)" (fun t => !t.allowsSign)
    (by decide +kernel) (by decide +kernel) (by decide +kernel) (by decide +kernel)
  have hn : Digits "1".toList := ⟨by simp, by simp⟩
  have hclosed : ¬(last.lexeme = .keyword ∨ last.isOperator "*" = true) := by
    rw [← Token.allowsSign_iff_of_canEnd h.getLast?.2]
    simpa using hsign
  obtain ⟨e, l, hraw, hvalue, hspaced, htight, -⟩ := sign_after_operand_iff h hn (.inr rfl)
  exact ⟨last, h, hn, hclosed, e, l, hraw, hvalue, hspaced, htight.2 hclosed⟩

/-- A variable named by a reserved word, and a reference to every node: behind both of them a sign and
digits are one number. -/
theorem sign_behind_keyword_lost :
    (∃ last, IsOperandText "$step" last ∧ last.isKeyword "step" = true) ∧
      (∃ e l, IsValue "$step - 1" (.binary .sub e l default)) ∧ (¬∃ e, IsValue "$step -1" e) ∧
      (∃ last, IsOperandText "node *" last ∧ last.isOperator "*" = true) ∧
      (∃ e l, IsValue "node * - 1" (.binary .sub e l default)) ∧ ¬∃ e, IsValue "node * -1" e := by
  have hstep := IsOperandText.of_checks "$step" (·.isKeyword "step")
    (by decide +kernel) (by decide +kernel) (by decide +kernel) (by decide +kernel)
  have hstar := IsOperandText.of_checks "node *" (·.isOperator "*")
    (by decide +kernel) (by decide +kernel) (by decide +kernel) (by decide +kernel)
  obtain ⟨l, hraw, hl⟩ := Digits.wellSpelled (n := "1") ⟨by simp, by simp⟩
  have hdigits : Digits l.raw.toList := hraw ▸ ⟨by simp, by simp⟩
  have hspaced {value : String} {last : Token} (h : IsOperandText value last) {longer : String}
      (hlonger : longer.toList = value.toList ++ " - 1".toList) :
      ∃ e l, IsValue longer (.binary .sub e l default) :=
    ⟨_, _, h.isValue_operation (z := '-') (.inr rfl) rfl hl hdigits (.inl rfl) (by rw [hlonger, hraw]; rfl)⟩
  have hlost {value : String} (h : hasErrors (parse (letText value)).diagnostics = true) :
      ¬∃ e, IsValue value e := by
    rintro ⟨e, hvalue⟩
    rw [hvalue.not_hasErrors] at h
    cases h
  obtain ⟨last, hlast, -⟩ := id hstep
  obtain ⟨last', hlast', -⟩ := id hstar
  exact ⟨hstep, hspaced hlast rfl, hlost (by decide +kernel), hstar, hspaced hlast' rfl,
    hlost (by decide +kernel)⟩

end DiagramTour
