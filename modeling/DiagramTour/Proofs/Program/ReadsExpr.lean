import DiagramTour.Proofs.Program.ReadsPath

/-!
# Reading printed expressions

A printed expression that is well formed and clear is read as the same expression wherever no
operator follows it.  An operand is read at the tightest level, since an operation stands between
parentheses there; of the levels above only the one of the operator that was printed finds it.
-/

namespace DiagramTour

variable {α γ : Type} {c : Cursor} {rest cs mid : List Char}

/-! ## Lists of parts -/

namespace Expr

/-- The entry with empty spans. -/
def bareEntry (e : Entry Expr) : Entry Expr :=
  ⟨e.key, e.value.withoutSpans, default⟩

/-- The argument with empty spans. -/
def bareArgument (a : Argument Expr) : Argument Expr :=
  ⟨a.name, a.value.withoutSpans⟩

/-- An entry as it is printed. -/
def printEntry (e : Entry Expr) : String :=
  printName e.key ++ ": " ++ e.value.print

/-- An argument as it is printed. -/
def printArgument (a : Argument Expr) : String :=
  match a.name with
  | some name => name ++ ": " ++ a.value.print
  | none => a.value.print

theorem entriesWithoutSpans_eq (entries : List (Entry Expr)) :
    entriesWithoutSpans entries = entries.map bareEntry := by
  induction entries with
  | nil => rfl
  | cons e rest ih => rw [entriesWithoutSpans, ih]; rfl

theorem itemsWithoutSpans_eq (items : List Expr) :
    itemsWithoutSpans items = items.map withoutSpans := by
  induction items with
  | nil => rfl
  | cons e rest ih => rw [itemsWithoutSpans, ih]; rfl

theorem argsWithoutSpans_eq (args : List (Argument Expr)) :
    argsWithoutSpans args = args.map bareArgument := by
  induction args with
  | nil => rfl
  | cons a rest ih => rw [argsWithoutSpans, ih]; rfl

theorem printEntries_eq (entries : List (Entry Expr)) :
    printEntries entries = entries.map printEntry := by
  induction entries with
  | nil => rfl
  | cons e rest ih => rw [printEntries, ih]; rfl

theorem printItems_eq (items : List Expr) : printItems items = items.map print := by
  induction items with
  | nil => rfl
  | cons e rest ih => rw [printItems, ih]; rfl

theorem printArgs_eq (args : List (Argument Expr)) : printArgs args = args.map printArgument := by
  induction args with
  | nil => rfl
  | cons a rest ih =>
    obtain ⟨_ | name, value⟩ := a <;> rw [printArgs, ih] <;> rfl

end Expr

/-! ## What may follow an expression -/

/-- The token goes on with no expression. -/
def Token.EndsExpr (t : Token) : Prop :=
  t.EndsOperand ∧ BinaryOp.ofToken? t = none

/-- The text ends an expression before it. -/
structure EndsExpr (rest : List Char) : Prop where
  fenced : Fenced rest
  coming : Coming rest Token.EndsExpr

theorem EndsExpr.operand (h : EndsExpr rest) : EndsOperand rest :=
  ⟨h.fenced, h.coming.imp fun _ h => h.1⟩

theorem EndsExpr.calm (h : EndsExpr rest) : Calm rest :=
  h.coming.calm

/-- Neither a point nor anything but a mark ends an expression as a mark does. -/
theorem Token.endsExpr_punct {t : Token} (hlex : t.lexeme = .punct) (h : t.image ≠ ".") :
    t.EndsExpr := by
  refine ⟨⟨by simp [isOperator, hlex], by simp [isPunct, hlex, h]⟩, ?_⟩
  simp [BinaryOp.ofToken?, hlex]

theorem Token.endsExpr_keyword {t : Token} (hlex : t.lexeme = .keyword) (hor : t.image ≠ "or")
    (hand : t.image ≠ "and") : t.EndsExpr := by
  refine ⟨⟨by simp [isOperator, hlex], by simp [isPunct, hlex]⟩, ?_⟩
  unfold BinaryOp.ofToken?
  rw [hlex]
  dsimp only
  split
  · exact absurd ‹_› hor
  · exact absurd ‹_› hand
  · rfl

theorem endsExpr_nil : EndsExpr [] :=
  ⟨fenced_nil, .atEnd fun _ => ⟨⟨rfl, rfl⟩, rfl⟩⟩

theorem endsExpr_comma (rest : List Char) : EndsExpr (',' :: rest) :=
  ⟨fenced_comma rest, .punct (by decide) fun _ => Token.endsExpr_punct rfl (by simp)⟩

theorem endsExpr_paren (rest : List Char) : EndsExpr (')' :: rest) :=
  ⟨fenced_paren rest, .punct (by decide) fun _ => Token.endsExpr_punct rfl (by simp)⟩

theorem endsExpr_bracket (rest : List Char) : EndsExpr (']' :: rest) :=
  ⟨fenced_bracket rest, .punct (by decide) fun _ => Token.endsExpr_punct rfl (by simp)⟩

theorem endsExpr_brace (rest : List Char) : EndsExpr (' ' :: '\x7d' :: rest) :=
  ⟨fenced_space _, .space (.punct (by decide) fun _ => Token.endsExpr_punct rfl (by simp))⟩

/-! ## What a printed expression begins with -/

/-- What the beginning of a printed expression shows: no mark that closes a list, no name of an
argument, and a name only where the expression begins with one. -/
structure Expr.Begins (e : Expr) (c : Cursor) : Prop where
  going : c.atEnd = false
  paren : c.atPunct ")" = false
  bracket : c.atPunct "]" = false
  positional : (c.peek.isWord && c.second.isPunct ":") = false
  name : c.peek.isName = e.beginsWithName

theorem Expr.Begins.of_punct {e : Expr} {d : Char} (hc : c.At (d :: rest)) (hd : isPunctuation d = true)
    (hparen : d ≠ ')') (hbracket : d ≠ ']') (hname : e.beginsWithName = false) : e.Begins c := by
  have hlex : c.peek.lexeme = .punct :=
    (Coming.punct (Q := fun t => t.lexeme = .punct) hd fun _ => rfl).peek c hc
  have hne (mark : Char) (h : d ≠ mark) : (String.ofList [d] == String.ofList [mark]) = false := by
    simpa [← String.toList_inj] using h
  refine ⟨Cursor.atEnd_eq_false_of_peek (by simp [Token.isEnd, hlex]), ?_, ?_, ?_, ?_⟩
  · rw [hc.atPunct hd]
    exact hne ')' hparen
  · rw [hc.atPunct hd]
    exact hne ']' hbracket
  · simp [Token.isWord, hlex]
  · simp [Token.isName, Token.isWord, Token.isString, hlex, hname]

theorem Expr.Begins.of_word {e : Expr} (hword : c.peek.isWord = true)
    (hcolon : c.second.isPunct ":" = false) (hname : e.beginsWithName = true) : e.Begins c := by
  have hlex : c.peek.lexeme = .keyword ∨ c.peek.lexeme = .identifier := by
    revert hword
    unfold Token.isWord
    cases c.peek.lexeme <;> simp
  refine ⟨Cursor.atEnd_eq_false_of_isWord hword, ?_, ?_, by simp [hcolon],
    by simp [Token.isName, hword, hname]⟩ <;>
  · unfold Cursor.atPunct Token.isPunct
    rcases hlex with hlex | hlex <;> rw [hlex]

/-! ## Literals -/

theorem Literal.ofToken?_congr {t u : Token} (hlex : t.lexeme = u.lexeme) (himage : t.image = u.image) :
    Literal.ofToken? t = Literal.ofToken? u := by
  unfold Literal.ofToken?
  rw [hlex, himage]

/-- The spelling of a literal is read as the literal. -/
theorem Literal.WellSpelled.shows {l : Literal} (h : l.WellSpelled) (hrest : Fenced rest)
    (hcalm : Calm rest) (hc : c.At (l.raw.toList ++ rest)) :
    Literal.ofToken? c.peek = some l ∧ c.advance.At rest := by
  obtain ⟨lexeme, himage, hl⟩ := h
  have hshows := hc.shows (himage.munches hrest) (.inr hcalm)
  rw [String.ofList_toList] at hshows
  refine ⟨?_, hshows.next⟩
  rw [← hl]
  exact Literal.ofToken?_congr hshows.lexeme hshows.image

theorem Literal.begins {l : Literal} {span : Span} (h : Literal.ofToken? c.peek = some l) :
    (Expr.literal l span).Begins c := by
  obtain ⟨hpunct, hword, hend, hname⟩ : (∀ mark, c.peek.isPunct mark = false) ∧
      c.peek.isWord = false ∧ c.peek.isEnd = false ∧
        c.peek.isName = (Expr.literal l span).beginsWithName := by
    revert h
    unfold Literal.ofToken? Token.isPunct Token.isWord Token.isEnd Token.isName Token.isWord
      Token.isString
    cases c.peek.lexeme with
    | int x =>
      dsimp only
      split <;> intro h <;> cases h <;> simp [Expr.beginsWithName]
    | _ => intro h; cases h <;> simp [Expr.beginsWithName]
  exact ⟨Cursor.atEnd_eq_false_of_peek hend, hpunct _, hpunct _, by simp [hword], hname⟩

/-! ## Reading at a level -/

/-- The printed expression is read as the expression wherever nothing goes on with it. -/
def Expr.IsReread (e : Expr) : Prop :=
  ∀ rest, EndsExpr rest → ∀ c : Cursor, c.At (e.print.toList ++ rest) →
    e.Begins c ∧ (c.exprAt 0).Reads rest fun e' => e'.withoutSpans = e.withoutSpans

/-- The text is read as the expression wherever nothing goes on with it. -/
def Expr.IsReadIn (e : Expr) (text : String) : Prop :=
  ∀ rest, EndsExpr rest → ∀ c : Cursor, c.At (text.toList ++ rest) →
    (c.exprAt 0).Reads rest fun e' => e'.withoutSpans = e.withoutSpans

/-- At the tightest level a text is read as the expression. -/
def Expr.IsOperandIn (e : Expr) (text : String) : Prop :=
  ∀ rest, EndsOperand rest → ∀ c : Cursor, c.At (text.toList ++ rest) →
    (c.exprAt Cursor.topLevel).Reads rest fun e' => e'.withoutSpans = e.withoutSpans

/-- The printed expression is read as the expression, and no operator stands before it. -/
def Expr.IsPrimary (e : Expr) : Prop :=
  ∀ rest, EndsOperand rest → ∀ c : Cursor, c.At (e.print.toList ++ rest) →
    e.Begins c ∧ UnaryOp.ofToken? c.peek = none ∧
      (c.primaryWith fun d _ => d.exprAt 0).Reads rest fun e' => e'.withoutSpans = e.withoutSpans

namespace Cursor

variable {good : Expr → Prop} {level : Nat}

theorem exprAt_topLevel (c : Cursor) : c.exprAt topLevel =
    c.unaryWith (fun d _ => d.exprAt topLevel) (fun d _ => d.exprAt 0) := by
  rw [exprAt, if_neg (Nat.lt_irrefl _)]

theorem reads_of_primary (hop : UnaryOp.ofToken? c.peek = none)
    (h : (c.primaryWith fun d _ => d.exprAt 0).Reads rest good) :
    (c.exprAt topLevel).Reads rest good := by
  rw [exprAt_topLevel, unaryWith]
  split
  · rename_i op hsome
    rw [hop] at hsome
    cases hsome
  · exact h

theorem reads_of_unary {op : UnaryOp} (hop : UnaryOp.ofToken? c.peek = some op)
    (h : (c.advance.exprAt topLevel).Reads rest fun e => ∀ span, good (.unary op e span)) :
    (c.exprAt topLevel).Reads rest good := by
  rw [exprAt_topLevel, unaryWith]
  split
  · rename_i op' hsome
    rw [hop] at hsome
    cases hsome
    exact ⟨h.1 _, h.2⟩
  · rename_i hnone
    rw [hop] at hnone
    cases hnone

theorem operators_of_none {bound : Nat} {operand : (d : Cursor) → d.size < bound → Parsed d Expr}
    {left : Expr} (hc : c.size ≤ bound) (h : c.operatorAt? level = none) :
    operators bound level operand left c hc = .here c left := by
  rw [operators]
  split
  · rfl
  · rename_i op hop
    rw [h] at hop
    cases hop

/-- Where no operator of a level follows the level makes no difference. -/
theorem reads_level (hlevel : level < topLevel) (h : (c.exprAt (level + 1)).Reads rest good)
    (hnone : ∀ d : Cursor, d.At rest → d.operatorAt? level = none) :
    (c.exprAt level).Reads rest good := by
  rw [exprAt, if_pos hlevel]
  simp only [Parsed.Reads, Parsed.andThen_value, Parsed.andThen_next,
    operators_of_none _ (hnone _ h.2)]
  exact h

theorem reads_levels {top : Nat} (h : (c.exprAt top).Reads rest good) (htop : top ≤ topLevel)
    (hlevel : level ≤ top)
    (hnone : ∀ d : Cursor, d.At rest → ∀ l, level ≤ l → l < top → d.operatorAt? l = none) :
    (c.exprAt level).Reads rest good := by
  induction hk : top - level generalizing level with
  | zero =>
    have heq : level = top := by omega
    rwa [heq]
  | succ k ih =>
    refine reads_level (by omega) (ih (by omega) (fun d hd l hl => hnone d hd l (by omega)) (by omega))
      fun d hd => hnone d hd level (Nat.le_refl _) (by omega)

theorem operatorAt?_of_none (h : BinaryOp.ofToken? c.peek = none) (level : Nat) :
    c.operatorAt? level = none := by
  rw [operatorAt?, h]
  rfl

/-- What is read at the tightest level is read at every level where no operator follows. -/
theorem reads_expr (h : (c.exprAt topLevel).Reads rest good) (hrest : EndsExpr rest) :
    (c.exprAt 0).Reads rest good :=
  reads_levels h (Nat.le_refl _) (Nat.zero_le _) fun d hd l _ _ =>
    operatorAt?_of_none (hrest.coming.peek d hd).2 l

end Cursor

namespace Expr

variable {e : Expr}

theorem IsPrimary.isReread (h : e.IsPrimary) : e.IsReread := by
  intro rest hrest c hc
  obtain ⟨hbegins, hop, hread⟩ := h rest hrest.operand c hc
  exact ⟨hbegins, Cursor.reads_expr (Cursor.reads_of_primary hop hread) hrest⟩

theorem IsPrimary.isOperandIn (h : e.IsPrimary) : e.IsOperandIn e.print := by
  intro rest hrest c hc
  obtain ⟨-, hop, hread⟩ := h rest hrest c hc
  exact Cursor.reads_of_primary hop hread

end Expr

/-! ## Parts without operators -/

theorem Cursor.ofToken?_of_punct (hlex : c.peek.lexeme = .punct) :
    Literal.ofToken? c.peek = none ∧ UnaryOp.ofToken? c.peek = none := by
  simp [Literal.ofToken?, UnaryOp.ofToken?, hlex]

theorem Cursor.At.lexeme_punct {d : Char} (hc : c.At (d :: rest)) (hd : isPunctuation d = true) :
    c.peek.lexeme = .punct :=
  (Coming.punct (Q := fun t => t.lexeme = .punct) hd fun _ => rfl).peek c hc

/-- An expression between parentheses is an operand. -/
theorem Expr.IsReadIn.isOperandIn {e : Expr} {text : String} (h : e.IsReadIn text) :
    e.IsOperandIn (parenthesise true text) := by
  intro rest hrest c hc
  have htext : (parenthesise true text).toList ++ rest =
      '(' :: (text.toList ++ ')' :: rest) := by simp [parenthesise]
  rw [htext] at hc
  obtain ⟨hliteral, hop⟩ := Cursor.ofToken?_of_punct (hc.lexeme_punct (by decide))
  have hopen : c.atPunct "(" = true := by simp [hc.atPunct (by decide)]
  have hshows := hc.punct (by decide) (.inl (by decide))
  obtain ⟨hvalue, hnext⟩ := h _ (endsExpr_paren rest) _ hshows.next
  have hclose := (Parse.Reads.expectPunct ')' rfl (by decide) (.inr hrest.calm) _ hnext).2
  refine Cursor.reads_of_primary hop ?_
  unfold Cursor.primaryWith
  rw [hliteral]
  dsimp only
  rw [if_neg (by simp [hc.atPunct (by decide), Cursor.openBrace]),
    if_neg (by simp [hc.atPunct (by decide)]), dif_pos hopen]
  exact ⟨hvalue, hclose⟩

theorem Expr.IsReread.isOperandIn {e : Expr} (h : e.IsReread) :
    e.IsOperandIn (parenthesise true e.print) :=
  IsReadIn.isOperandIn fun rest hrest c hc => (h rest hrest c hc).2

namespace Expr

theorem isPrimary_literal {l : Literal} {span : Span} (h : l.WellSpelled) :
    (literal l span).IsPrimary := by
  intro rest hrest c hc
  obtain ⟨hliteral, hnext⟩ := h.shows hrest.fenced hrest.calm hc
  refine ⟨Literal.begins hliteral, ?_, ?_⟩
  · unfold UnaryOp.ofToken?
    split
    · rename_i hlex
      simp [Literal.ofToken?, hlex] at hliteral
    · rfl
  · unfold Cursor.primaryWith
    rw [hliteral]
    exact ⟨rfl, hnext⟩

theorem isPrimary_var {path : List String} {span : Span} (hpath : path ≠ [])
    (hsegments : ∀ w ∈ path, Segment w) (hclear : isClearPath path = true) :
    (var path span).IsPrimary := by
  intro rest hrest c hc
  have htext : (print (var path span)).toList ++ rest =
      '$' :: ((joinWith "." path).toList ++ rest) := by simp [print]
  rw [htext] at hc
  obtain ⟨hliteral, hop⟩ := Cursor.ofToken?_of_punct (hc.lexeme_punct (by decide))
  obtain ⟨⟨span', hvalue⟩, hnext⟩ := Parse.Reads.var hpath hsegments hclear hrest c hc
  refine ⟨.of_punct hc (by decide) (by decide) (by decide) rfl, hop, ?_⟩
  unfold Cursor.primaryWith
  rw [hliteral]
  dsimp only
  rw [if_neg (by simp [hc.atPunct (by decide), Cursor.openBrace]),
    if_neg (by simp [hc.atPunct (by decide)]), dif_neg (by simp [hc.atPunct (by decide)]),
    if_pos (by simp [hc.atPunct (by decide)])]
  exact ⟨by rw [hvalue]; rfl, hnext⟩

theorem isPrimary_target {t : Target} {span : Span} : (target t span).IsPrimary := by
  intro rest hrest c hc
  obtain ⟨hhead, hcolon, hvalue, hnext⟩ := t.isReread rest hrest c hc
  have hlex : c.peek.lexeme = .keyword := by
    obtain ⟨head, h⟩ := Option.isSome_iff_exists.1 hhead
    unfold Cursor.targetHead? at h
    split at h
    · assumption
    · cases h
  have hmark (mark : String) : c.atPunct mark = false := by
    simp [Cursor.atPunct, Token.isPunct, hlex]
  refine ⟨.of_word (by simp [Token.isWord, hlex]) hcolon rfl, by simp [UnaryOp.ofToken?, hlex], ?_⟩
  have hliteral : Literal.ofToken? c.peek = none := by simp [Literal.ofToken?, hlex]
  unfold Cursor.primaryWith
  rw [hliteral]
  dsimp only
  rw [if_neg (by simp [hmark]), if_neg (by simp [hmark]), dif_neg (by simp [hmark]),
    if_neg (by simp [hmark]), if_pos hhead]
  exact ⟨by simp [withoutSpans, hvalue], hnext⟩

end Expr

/-! ## Settings -/

namespace Cursor

/-- A key, a colon and a value; a comma behind them is read as well. -/
theorem reads_entry {value : Token → Parse Expr} {key : String} {good : Expr → Prop}
    (hvalue : ∀ t : Token, t.text = key → (value t).Reads cs mid good)
    (hcomma : (Parse.eatPunct ",").Reads mid rest fun _ => True) :
    ReadsItem (fun c => c.entry fun t d _ => value t d)
      ((printName key).toList ++ ':' :: ' ' :: cs) rest fun e => e.key = key ∧ good e.value := by
  intro c hc
  obtain ⟨hname, htext, hnext⟩ := hc.isName (fenced_colon _) (calm_punct (by decide) _)
  have hcolon := (Parse.Reads.expectPunct ':' rfl (by decide) (.inl (by decide)) _ hnext).2
  obtain ⟨hgood, hbehind⟩ := hvalue c.peek htext _ hcolon.space
  have hlt : (c.advance.expectPunct ":").size < c.size :=
    Nat.lt_of_le_of_lt (size_expectPunct_le _ _) (size_advance_lt (atEnd_eq_false_of_isName hname))
  refine ⟨goesOn_of_isName hname, ?_, ?_⟩
  · dsimp only
    rw [entry, dif_pos hname]
    exact Nat.lt_of_le_of_lt (size_eatPunct_le _ _) (Nat.lt_of_le_of_lt (Parsed.le _) hlt)
  · dsimp only
    rw [entry, dif_pos hname]
    exact ⟨⟨_, rfl, htext, hgood⟩, (hcomma _ hbehind).2⟩

end Cursor

/-- A printed entry is read, with a reader of values that may look at the key. -/
def Expr.IsEntry (value : Token → Parse Expr) (e : Entry Expr) : Prop :=
  ∀ t : Token, t.text = e.key → ∀ rest, EndsExpr rest →
    (value t).Reads (e.value.print.toList ++ rest) rest
      fun e' => e'.withoutSpans = e.value.withoutSpans

/-- Printed settings without the opening brace. -/
def settingsBody (entries : List (Entry Expr)) : List Char :=
  match entries with
  | [] => []
  | entries => (joinWith ", " (entries.map Expr.printEntry)).toList ++ [' ']

theorem toList_printSettings (entries : List (Entry Expr)) :
    (printSettings (entries.map Expr.printEntry)).toList =
      '\x7b' :: ' ' :: (settingsBody entries ++ ['\x7d']) := by
  cases entries <;> simp [printSettings, settingsBody]

theorem Cursor.readsItems_settings {value : Token → Parse Expr} {entries : List (Entry Expr)}
    (hentries : ∀ e ∈ entries, Expr.IsEntry value e) :
    ReadsItems (fun c => c.entry fun t d _ => value t d)
      (settingsBody entries ++ '\x7d' :: rest) rest
      fun es => es.map Expr.bareEntry = entries.map Expr.bareEntry := by
  induction entries with
  | nil => exact ReadsItems.nil.imp fun es hes => by rw [hes]
  | cons e entries ih =>
    have he := hentries e List.mem_cons_self
    have hbare (e' : Entry Expr) (h : e'.key = e.key ∧ e'.value.withoutSpans = e.value.withoutSpans) :
        Expr.bareEntry e' = Expr.bareEntry e := by
      rw [Expr.bareEntry, h.1, h.2, Expr.bareEntry]
    cases entries with
    | nil =>
      have htext : settingsBody [e] ++ '\x7d' :: rest = (printName e.key).toList ++
          ':' :: ' ' :: (e.value.print.toList ++ ' ' :: '\x7d' :: rest) := by
        simp [settingsBody, joinWith, Expr.printEntry]
      rw [htext]
      refine (ReadsItems.cons (reads_entry (fun t ht => he t ht _ (endsExpr_brace rest))
        (.eatPunct_absent (.space (.punct (by decide) fun _ => rfl)))) (ReadsItems.nil.blank
          (by decide))).imp ?_
      rintro _ ⟨a, as, rfl, ha, rfl⟩
      rw [List.map_cons, hbare a ha]
      rfl
    | cons f entries =>
      have htext : settingsBody (e :: f :: entries) ++ '\x7d' :: rest = (printName e.key).toList ++
          ':' :: ' ' :: (e.value.print.toList ++ ',' :: ' ' ::
            (settingsBody (f :: entries) ++ '\x7d' :: rest)) := by
        simp [settingsBody, joinWith, Expr.printEntry]
      rw [htext]
      have htail := ih fun e' he' => hentries e' (List.mem_cons_of_mem _ he')
      refine (ReadsItems.cons (reads_entry (fun t ht => he t ht _ (endsExpr_comma _))
        (.eatPunct ',' rfl (by decide) (.inl (by decide)))) (htail.blank (by decide))).imp ?_
      rintro _ ⟨a, as, rfl, ha, has⟩
      rw [List.map_cons, hbare a ha, has]
      rfl

/-- Settings between braces. -/
theorem Parse.Reads.settings {value : Token → Parse Expr} {context : String}
    {entries : List (Entry Expr)} (hentries : ∀ e ∈ entries, Expr.IsEntry value e)
    (hcalm : Calm rest) :
    (Parse.block context fun c => c.entry fun t d _ => value t d).Reads
      ((printSettings (entries.map Expr.printEntry)).toList ++ rest) rest
      fun es => es.map Expr.bareEntry = entries.map Expr.bareEntry := by
  have htext : (printSettings (entries.map Expr.printEntry)).toList ++ rest =
      '\x7b' :: ' ' :: (settingsBody entries ++ '\x7d' :: rest) := by
    rw [toList_printSettings]
    simp
  rw [htext]
  exact block ((Cursor.readsItems_settings hentries).blank (by decide)) hcalm

/-! ## Lists -/

namespace Cursor

/-- Items with commas between them are read up to the mark that closes them. -/
theorem reads_separated {f : α → γ} {text : α → String} {close : Char} {mark expected : String}
    (hmark : String.ofList [close] = mark) (hclose : isPunctuation close = true)
    (hcomma : (mark == ",") = false) (hends : ∀ rest, EndsExpr (close :: rest)) {bound : Nat}
    {item : (d : Cursor) → d.size < bound → Parsed d α} {xs : List α}
    (hitem : ∀ x ∈ xs, ∀ mid, EndsExpr mid → ∀ d hd, Cursor.At d ((text x).toList ++ mid) →
      (d.atPunct mark || d.atEnd) = false ∧ (item d hd).Reads mid fun a => f a = f x)
    {c : Cursor} (hbound : c.size < bound)
    (hc : c.At ((joinWith ", " (xs.map text)).toList ++ close :: rest)) :
    (separated bound mark expected item c hbound).Reads (close :: rest)
      fun as => as.map f = xs.map f := by
  have hstop {d : Cursor} (hd : d.At (close :: rest)) : d.atPunct mark = true ∧
      d.atPunct "," = false := by
    simp only [hd.atPunct hclose, hmark, hcomma, beq_self_eq_true, and_self]
  induction xs generalizing c with
  | nil =>
    rw [separated, if_pos (by simp [(hstop hc).1])]
    exact ⟨rfl, hc⟩
  | cons x xs ih =>
    have hx := hitem x List.mem_cons_self
    cases xs with
    | nil =>
      obtain ⟨hopen, hvalue, hnext⟩ := hx _ (hends rest) c hbound hc
      obtain ⟨hat, hsep⟩ := hstop hnext
      rw [separated, if_neg (by simp [hopen])]
      simp only [hsep, hat, if_true, Bool.false_eq_true, dite_false]
      exact ⟨by simp [hvalue], hnext⟩
    | cons y xs =>
      have htext : (joinWith ", " ((x :: y :: xs).map text)).toList ++ close :: rest =
          (text x).toList ++ ',' :: ' ' ::
            ((joinWith ", " ((y :: xs).map text)).toList ++ close :: rest) := by
        simp [joinWith]
      rw [htext] at hc
      obtain ⟨hopen, hvalue, hnext⟩ := hx _ (endsExpr_comma _) c hbound hc
      have hsep : (item c hbound).next.atPunct "," = true := by simp [hnext.atPunct (by decide)]
      have hshows := hnext.punct (by decide) (.inl (by decide))
      rw [separated, if_neg (by simp [hopen])]
      simp only [hsep, dite_true]
      obtain ⟨htail, hend⟩ := ih (fun z hz => hitem z (List.mem_cons_of_mem _ hz)) _ hshows.next.space
      exact ⟨by simp [hvalue, htail], hend⟩

end Cursor

namespace Expr

theorem isPrimary_object {entries : List (Entry Expr)} {span : Span}
    (h : ∀ e ∈ entries, e.value.IsReread) : (object entries span).IsPrimary := by
  intro rest hrest c hc
  have hsettings : (print (object entries span)).toList =
      (printSettings (entries.map printEntry)).toList := by
    rw [print, printEntries_eq]
  obtain ⟨hvalues, hnext⟩ := Parse.Reads.settings
    (fun e he t _ rest hrest c hc => (h e he rest hrest c hc).2)
    hrest.calm c (by rw [← hsettings]; exact hc)
  rw [hsettings, toList_printSettings, List.cons_append] at hc
  obtain ⟨hliteral, hop⟩ := Cursor.ofToken?_of_punct (hc.lexeme_punct (by decide))
  refine ⟨.of_punct hc (by decide) (by decide) (by decide) rfl, hop, ?_⟩
  unfold Cursor.primaryWith
  rw [hliteral]
  dsimp only
  rw [if_pos (by simp [hc.atPunct (by decide), Cursor.openBrace])]
  refine ⟨?_, hnext⟩
  show withoutSpans (object _ _) = _
  rw [withoutSpans, withoutSpans, entriesWithoutSpans_eq, entriesWithoutSpans_eq]
  exact congrArg (object · default) hvalues

theorem isPrimary_array {items : List Expr} {span : Span} (h : ∀ e ∈ items, e.IsReread) :
    (array items span).IsPrimary := by
  intro rest hrest c hc
  have htext : (print (array items span)).toList ++ rest =
      '[' :: ((joinWith ", " (items.map print)).toList ++ ']' :: rest) := by
    simp [print, printItems_eq]
  rw [htext] at hc
  obtain ⟨hliteral, hop⟩ := Cursor.ofToken?_of_punct (hc.lexeme_punct (by decide))
  have hopen : c.atPunct "[" = true := by simp [hc.atPunct (by decide)]
  have hshows := hc.punct (by decide) (.inl (by decide))
  obtain ⟨hvalues, hend⟩ := Cursor.reads_separated (f := withoutSpans) rfl (by decide)
    (by decide) endsExpr_bracket
    (fun e he mid hmid d _ hd => ⟨by simp [(h e he mid hmid d hd).1.bracket,
      (h e he mid hmid d hd).1.going], (h e he mid hmid d hd).2⟩)
    (Cursor.size_advance_lt_of_atPunct hopen) hshows.next
  have hclose := (Parse.Reads.expectPunct ']' rfl (by decide) (.inr hrest.calm) _ hend).2
  refine ⟨.of_punct hc (by decide) (by decide) (by decide) rfl, hop, ?_⟩
  unfold Cursor.primaryWith
  rw [hliteral]
  dsimp only
  rw [if_neg (by simp [hc.atPunct (by decide), Cursor.openBrace]), if_pos hopen, Cursor.arrayWith,
    dif_pos hopen]
  refine ⟨?_, hclose⟩
  show withoutSpans (array _ _) = _
  rw [withoutSpans, withoutSpans, itemsWithoutSpans_eq, itemsWithoutSpans_eq, hvalues]

end Expr

/-! ## Calls -/

/-- An argument is read with its name, if it has one. -/
theorem Cursor.reads_argument {a : Argument Expr} (hname : ∀ w, a.name = some w → Word w)
    (ha : a.value.IsReread) (hmid : EndsExpr mid)
    (hc : c.At ((Expr.printArgument a).toList ++ mid)) : (c.atPunct ")" || c.atEnd) = false ∧
      (c.argumentWith fun d _ => d.exprAt 0).Reads mid
        fun b => Expr.bareArgument b = Expr.bareArgument a := by
  obtain ⟨_ | w, value⟩ := a
  · obtain ⟨hbegins, hvalue, hnext⟩ := ha _ hmid c hc
    refine ⟨by simp [hbegins.paren, hbegins.going], ?_⟩
    unfold argumentWith
    rw [if_neg (by simp [hbegins.positional])]
    exact ⟨congrArg (Argument.mk none) hvalue, hnext⟩
  · have hw := hname w rfl
    have htext : (Expr.printArgument ⟨some w, value⟩).toList ++ mid =
        w.toList ++ ':' :: ' ' :: (value.print.toList ++ mid) := by simp [Expr.printArgument]
    rw [htext] at hc
    have hshows := hc.word hw.1 (fenced_colon _) (.inr (calm_punct (by decide) _))
    have hword := hw.isWord_lexeme hshows.lexeme
    have hcolon := hshows.next.punct (by decide) (.inl (by decide))
    have hmark : c.atPunct ")" = false := by
      unfold atPunct Token.isPunct
      rcases hw.2 with h | h <;> rw [hshows.lexeme, h]
    obtain ⟨-, hvalue, hnext⟩ := ha _ hmid _ hcolon.next.space
    refine ⟨by simp [hmark, hshows.going], ?_⟩
    unfold argumentWith
    rw [if_pos (by simp [hword, second_eq, Token.isPunct, hcolon.lexeme, hcolon.image])]
    exact ⟨by simp only [Expr.bareArgument, hshows.image, hvalue], hnext⟩

/-- A printed call, its words and its arguments apart. -/
theorem toList_print_call {callee first : String} {words : List String} (args : List (Argument Expr))
    (hcallee : callee = ".".intercalate (first :: words)) (rest : List Char) :
    (Call.print ⟨callee, args⟩).toList ++ rest = first.toList ++ (pointed words ++ '(' ::
      ((joinWith ", " (args.map Expr.printArgument)).toList ++ ')' :: rest)) := by
  have hlist : callee.toList = first.toList ++ pointed words := by
    rw [hcallee, toList_intercalate_point]
  simp [Call.print, Expr.printArgs_eq, hlist]

theorem Cursor.reads_callWith {callee first : String} {words : List String}
    {args : List (Argument Expr)} (hcallee : callee = ".".intercalate (first :: words))
    (hwords : ∀ w ∈ first :: words, Word w) (hnames : ∀ a ∈ args, ∀ w, a.name = some w → Word w)
    (hargs : ∀ a ∈ args, a.value.IsReread) (hcalm : Calm rest)
    (hc : c.At ((Call.print ⟨callee, args⟩).toList ++ rest)) :
    (c.callWith fun d _ => d.exprAt 0).Reads rest fun call =>
      call.callee = callee ∧ call.args.map Expr.bareArgument = args.map Expr.bareArgument := by
  rw [toList_print_call _ hcallee] at hc
  have hfirst := hwords first List.mem_cons_self
  have hshows := hfirst.shows hc
  have hword := hfirst.isWord_lexeme hshows.lexeme
  obtain ⟨htail, hopen⟩ := reads_calleeTail
    (fun w hw => hwords w (List.mem_cons_of_mem _ hw)) hshows.next
  have hat : c.advance.calleeTail.next.atPunct "(" = true := by simp [hopen.atPunct (by decide)]
  have hparen := hopen.punct (by decide) (.inl (by decide))
  have hlt : c.advance.calleeTail.next.advance.size < c.size :=
    Nat.lt_trans (size_advance_lt_of_atPunct hat)
      (Nat.lt_of_le_of_lt (Parsed.le _) (size_advance_lt (atEnd_eq_false_of_isWord hword)))
  obtain ⟨hvalues, hend⟩ := reads_separated (f := Expr.bareArgument) rfl (by decide)
    (by decide) endsExpr_paren
    (fun a ha mid hmid d _ hd => reads_argument (hnames a ha) (hargs a ha) hmid hd) hlt hparen.next
  have hclose := (Parse.Reads.expectPunct ')' rfl (by decide) (.inr hcalm) _ hend).2
  rw [callWith, dif_pos hword]
  dsimp only
  rw [dif_pos hat]
  exact ⟨⟨by rw [hcallee, htail, hshows.image], hvalues⟩, hclose⟩

theorem Expr.isPrimary_call {callee first : String} {words : List String}
    {args : List (Argument Expr)} {span : Span} (hcallee : callee = ".".intercalate (first :: words))
    (hwords : ∀ w ∈ first :: words, Word w) (hhead : TargetHead.ofWord? first = none)
    (hnames : ∀ a ∈ args, ∀ w, a.name = some w → Word w)
    (hargs : ∀ a ∈ args, a.value.IsReread) : (call ⟨callee, args⟩ span).IsPrimary := by
  intro rest hrest c hc
  obtain ⟨⟨hvalue, hvalues⟩, hnext⟩ :=
    Cursor.reads_callWith hcallee hwords hnames hargs hrest.calm hc
  have hfirst := hwords first List.mem_cons_self
  have hc : c.At ((Call.print ⟨callee, args⟩).toList ++ rest) := hc
  rw [toList_print_call _ hcallee] at hc
  have hshows := hfirst.shows hc
  have hword := hfirst.isWord_lexeme hshows.lexeme
  -- A point or a parenthesis comes behind the first word
  have hsecond : (c.second.isPunct "." || c.second.isPunct "(") = true ∧
      c.second.isPunct ":" = false := by
    rw [Cursor.second_eq]
    have hbehind := hshows.next
    cases words with
    | nil =>
      have hmark (mark : String) : c.advance.peek.isPunct mark = ("(" == mark) :=
        Cursor.At.atPunct (d := '(') hbehind (by decide) mark
      simp [hmark]
    | cons w words =>
      have hmark (mark : String) : c.advance.peek.isPunct mark = ("." == mark) :=
        Cursor.At.atPunct (d := '.') hbehind (by decide) mark
      simp [hmark]
  have hlex : c.peek.lexeme = .keyword ∨ c.peek.lexeme = .identifier := by
    rw [hshows.lexeme]
    exact hfirst.2
  have hmark (mark : String) : c.atPunct mark = false := by
    unfold Cursor.atPunct Token.isPunct
    rcases hlex with h | h <;> rw [h]
  have hliteral : Literal.ofToken? c.peek = none := by
    unfold Literal.ofToken?
    rcases hlex with h | h <;> rw [h]
  have hop : UnaryOp.ofToken? c.peek = none := by
    unfold UnaryOp.ofToken?
    rcases hlex with h | h <;> rw [h]
  have htarget : c.targetHead? = none := by
    unfold Cursor.targetHead?
    rcases hlex with h | h <;> simp [h, hshows.image, hhead]
  have hcall : c.startsCall = true := by
    unfold Cursor.startsCall
    rcases hlex with h | h <;> rw [h]
    exact hsecond.1
  refine ⟨.of_word hword hsecond.2 rfl, hop, ?_⟩
  unfold Cursor.primaryWith
  rw [hliteral]
  dsimp only
  rw [if_neg (by simp [hmark]), if_neg (by simp [hmark]), dif_neg (by simp [hmark]),
    if_neg (by simp [hmark]), if_neg (by simp [htarget]), if_pos hcall]
  refine ⟨?_, hnext⟩
  show withoutSpans (call ⟨_, _⟩ _) = _
  rw [withoutSpans, withoutSpans, argsWithoutSpans_eq, argsWithoutSpans_eq, hvalue, hvalues]

/-! ## Operators of one operand -/

/-- A sign that no number and no longer operator begins with. -/
theorem UnaryOp.munches (op : UnaryOp) {z : Char} (hdigit : z.isDigit = false) (hgt : z ≠ '>')
    (heq : z ≠ '=') (rest : List Char) : Munches op.symbol.toList (z :: rest) .operator := by
  let m : Munch := { lexeme := .operator, length := 1, length_pos := Nat.one_pos }
  have hnumber : number? true ('-' :: z :: rest) = none := unsigned?_of_not_isDigit hdigit
  have hword (d : Char) (hd : Text.startsWord d = false) : word? (d :: z :: rest) = none := by
    simp [word?, hd]
  cases op with
  | not =>
    have hop : operator? ('!' :: z :: rest) = some m := by
      simp [operator?, isLongOperator, isShortOperator, heq, m]
    refine ⟨⟨m, ?_, rfl, rfl, rfl⟩, triviaLength_eq_zero (by decide)
      (opensComment_of_ne (by decide) (by decide))⟩
    show munch? true ('!' :: z :: rest) = some m
    rw [munch?_of_ne (by decide), flat?, string?_of_ne (by decide) (by decide),
      color?_of_ne (by decide), number?_of_ne (by decide) (by decide) (by decide),
      hword _ (by decide), hop]
    rfl
  | neg =>
    have hop : operator? ('-' :: z :: rest) = some m := by
      simp [operator?, isLongOperator, isShortOperator, hgt, m]
    refine ⟨⟨m, ?_, rfl, rfl, rfl⟩, triviaLength_eq_zero (by decide)
      (opensComment_of_ne (by decide) (by decide))⟩
    show munch? true ('-' :: z :: rest) = some m
    rw [munch?_of_ne (by decide), flat?, string?_of_ne (by decide) (by decide),
      color?_of_ne (by decide), hnumber, hword _ (by decide), hop]
    rfl

theorem UnaryOp.ofToken?_symbol (op : UnaryOp) (span : Span) :
    UnaryOp.ofToken? ⟨.operator, op.symbol, span⟩ = some op := by
  cases op <;> rfl

/-- What comes first goes on with no sign before it. -/
def Unsigned : List Char → Prop
  | [] => False
  | z :: _ => z.isDigit = false ∧ z ≠ '>' ∧ z ≠ '='

theorem Unsigned.append (h : Unsigned cs) (rest : List Char) : Unsigned (cs ++ rest) := by
  cases cs with
  | nil => exact h.elim
  | cons z x => exact h

theorem unsigned_of_startsWord {z : Char} (h : Text.startsWord z = true) (x : List Char) :
    Unsigned (z :: x) := by
  refine ⟨Bool.eq_false_iff.2 fun hd => ?_, ?_, ?_⟩
  · rw [Text.startsWord_of_isDigit hd] at h
    cases h
  · rintro rfl
    revert h
    decide
  · rintro rfl
    revert h
    decide

theorem Target.unsigned_print (t : Target) : Unsigned t.print.toList := by
  cases t with
  | element kind ref span => cases kind <;> simp [print, ElementKind.word, Unsigned]
  | edge ref span => simp [print, Unsigned]
  | matching key value span => cases key <;> simp [print, TextKey.word, Unsigned]
  | several how members span => cases how <;> simp [print, Combination.word, Unsigned]
  | except base removed span => simp [print, Unsigned]

namespace Expr

/-- An expression that is neither a literal nor an operation begins with no sign. -/
theorem WellFormed.unsigned {e : Expr} (h : e.WellFormed) (hliteral : e.isLiteral = false)
    (hop : e.isOperation = false) : Unsigned e.print.toList := by
  cases h with
  | literal => cases hliteral
  | var => simp [print, Unsigned]
  | @object entries =>
    rw [print, printEntries_eq, toList_printSettings]
    simp [Unsigned]
  | array => simp [print, Unsigned]
  | @call callee first args span hcallee =>
    obtain ⟨words, hcallee, hwords⟩ := hcallee
    have hfirst := (hwords first List.mem_cons_self).1
    have htext := toList_print_call args hcallee []
    rw [List.append_nil] at htext
    show Unsigned (Call.print ⟨callee, args⟩).toList
    rw [htext]
    cases hcs : first.toList with
    | nil =>
      rw [hcs] at hfirst
      exact hfirst.elim
    | cons z x =>
      rw [hcs] at hfirst
      exact unsigned_of_startsWord hfirst.1 _
  | unary => cases hop
  | binary => cases hop
  | target => exact Target.unsigned_print _

/-- An operator of one operand is read before what begins with no sign. -/
theorem shows_unary {op : UnaryOp} {text : String} (hunsigned : Unsigned text.toList)
    (hc : c.At ((op.symbol ++ text).toList ++ rest)) :
    c.Shows .operator op.symbol (text.toList ++ rest) ∧ UnaryOp.ofToken? c.peek = some op := by
  obtain ⟨z, x, hz⟩ := List.exists_cons_of_ne_nil (l := text.toList ++ rest) fun hnil => by
    have := hunsigned.append rest
    rwa [hnil] at this
  obtain ⟨hdigit, hgt, heq⟩ : Unsigned (z :: x) := hz ▸ hunsigned.append rest
  rw [String.toList_append, List.append_assoc, hz] at hc
  have hshows := hc.shows (op.munches hdigit hgt heq x) (.inl (by cases op <;> rfl))
  rw [String.ofList_toList, ← hz] at hshows
  refine ⟨hshows, ?_⟩
  rw [← op.ofToken?_symbol default]
  unfold UnaryOp.ofToken?
  rw [hshows.lexeme, hshows.image]

/-- An operation on an operand is an operand. -/
theorem isOperandIn_unary {op : UnaryOp} {operand : Expr} {span : Span} {text : String}
    (hunsigned : Unsigned text.toList) (h : operand.IsOperandIn text) :
    (unary op operand span).IsOperandIn (op.symbol ++ text) := by
  intro rest hrest c hc
  obtain ⟨hshows, hop⟩ := shows_unary hunsigned hc
  obtain ⟨hvalue, hnext⟩ := h rest hrest _ hshows.next
  refine Cursor.reads_of_unary hop ⟨fun span' => ?_, hnext⟩
  rw [withoutSpans, withoutSpans, hvalue]

theorem isReread_unary {op : UnaryOp} {operand : Expr} {span : Span} {text : String}
    (hprint : (unary op operand span).print = op.symbol ++ text)
    (hunsigned : Unsigned text.toList) (h : operand.IsOperandIn text) :
    (unary op operand span).IsReread := by
  intro rest hrest c hc
  rw [hprint] at hc
  obtain ⟨hshows, -⟩ := shows_unary hunsigned hc
  have hoperand : (unary op operand span).IsOperandIn (op.symbol ++ text) :=
    isOperandIn_unary hunsigned h
  have hread := hoperand rest hrest.operand c hc
  refine ⟨⟨hshows.going, ?_, ?_, ?_, ?_⟩, Cursor.reads_expr hread hrest⟩
  · simp [Cursor.atPunct, Token.isPunct, hshows.lexeme]
  · simp [Cursor.atPunct, Token.isPunct, hshows.lexeme]
  · simp [Token.isWord, hshows.lexeme]
  · simp [Token.isName, Token.isWord, Token.isString, hshows.lexeme, beginsWithName]

end Expr

/-! ## Operators of two operands -/

namespace BinaryOp

variable {asSign : Bool}

/-- How an operator may be written: the two that are words may be signs instead. -/
def written (asSign : Bool) : BinaryOp → String
  | or => if asSign then "||" else "or"
  | and => if asSign then "&&" else "and"
  | op => op.symbol

@[simp] theorem written_false (op : BinaryOp) : op.written false = op.symbol := by
  cases op <;> rfl

/-- Two operators are words. -/
def lexeme (asSign : Bool) : BinaryOp → Lexeme
  | or | and => if asSign then .operator else .keyword
  | _ => .operator

theorem image (op : BinaryOp) : Image (op.written asSign).toList (op.lexeme asSign) := by
  cases asSign <;> cases op
  case false.or =>
    exact ⟨{ lexeme := .keyword, length := 2, length_pos := Nat.two_pos }, rfl, rfl, rfl, rfl⟩
  case false.and =>
    exact ⟨{ lexeme := .keyword, length := 3, length_pos := Nat.succ_pos _ }, rfl, rfl, rfl, rfl⟩
  case true.or | true.and | false.eq | false.ne | false.le | false.ge | true.eq | true.ne | true.le |
      true.ge =>
    exact ⟨{ lexeme := .operator, length := 2, length_pos := Nat.two_pos }, rfl, rfl, rfl, rfl⟩
  all_goals
    exact ⟨{ lexeme := .operator, length := 1, length_pos := Nat.one_pos }, rfl, rfl, rfl, rfl⟩

theorem ofToken?_written (op : BinaryOp) (span : Span) :
    ofToken? ⟨op.lexeme asSign, op.written asSign, span⟩ = some op := by
  cases op <;> cases asSign <;> rfl

theorem level_lt (op : BinaryOp) : op.level < Cursor.topLevel := by
  cases op <;> decide

/-- A sign before a blank begins no number. -/
theorem calm_written (op : BinaryOp) (rest : List Char) :
    Calm ((op.written asSign).toList ++ ' ' :: rest) := by
  have himage : Image (op.written asSign).toList (op.lexeme asSign) := op.image
  obtain ⟨⟨m, hmunch, -, -, -⟩, htrivia⟩ := himage.munches (fenced_space rest)
  have hnumber : number? false ((op.written asSign).toList ++ ' ' :: rest) =
      number? true ((op.written asSign).toList ++ ' ' :: rest) := by
    cases op <;> cases asSign <;> rfl
  obtain ⟨z, x, hz⟩ : ∃ z x, (op.written asSign).toList ++ ' ' :: rest = z :: x := by
    cases op <;> cases asSign <;> exact ⟨_, _, rfl⟩
  rw [hz] at hmunch htrivia hnumber ⊢
  refine calm_of_munch? htrivia hmunch ?_
  rw [← hmunch, munch?, munch?, hnumber]

theorem signAfter_written (op : BinaryOp) :
    signAfter (op.lexeme asSign) (op.written asSign) = true := by
  cases op <;> cases asSign <;> rfl

/-- An operator between blanks is read as such. -/
theorem shows (op : BinaryOp) (hc : c.At (' ' :: ((op.written asSign).toList ++ ' ' :: rest))) :
    c.Shows (op.lexeme asSign) (op.written asSign) (' ' :: rest) := by
  have hshows := hc.space.shows (op.image.munches (fenced_space rest))
    (.inl (by rw [String.ofList_toList]; exact op.signAfter_written))
  rwa [String.ofList_toList] at hshows

/-- An operator and a blank end an operand. -/
theorem endsOperand (op : BinaryOp) (rest : List Char) :
    EndsOperand (' ' :: ((op.written asSign).toList ++ ' ' :: rest)) := by
  refine ⟨fenced_space _, (op.calm_written rest).space, fun c hc => ?_⟩
  have hshows := op.shows hc
  unfold Token.EndsOperand Token.isOperator Token.isPunct
  rw [hshows.lexeme, hshows.image]
  cases op <;> cases asSign <;> exact ⟨rfl, rfl⟩

end BinaryOp

namespace Cursor

variable {op : BinaryOp} {asSign : Bool} {left right : Expr} {l r : String}

theorem At.binaryOp (hc : c.At (' ' :: ((op.written asSign).toList ++ ' ' :: rest))) :
    BinaryOp.ofToken? c.peek = some op ∧ c.advance.At rest := by
  have hshows := op.shows hc
  have hop : BinaryOp.ofToken? ⟨op.lexeme asSign, op.written asSign, default⟩ = some op :=
    op.ofToken?_written default
  refine ⟨?_, hshows.next.space⟩
  rw [← hop]
  unfold BinaryOp.ofToken?
  rw [hshows.lexeme, hshows.image]

/-- Behind an operand, its operator and the operand behind that are joined with it. -/
theorem reads_joined {good : Expr → Prop}
    (hop : BinaryOp.ofToken? (c.exprAt (op.level + 1)).next.peek = some op)
    (hright : ((c.exprAt (op.level + 1)).next.advance.exprAt (op.level + 1)).Reads rest good)
    (hnone : ∀ d : Cursor, d.At rest → ∀ l, d.operatorAt? l = none) :
    (c.exprAt 0).Reads rest fun e => ∃ right span,
      e = .binary op (c.exprAt (op.level + 1)).value right span ∧ good right := by
  obtain ⟨hvalue, hend⟩ := hright
  have hat : (c.exprAt (op.level + 1)).next.operatorAt? op.level = some op := by
    rw [operatorAt?, hop, Option.filter_some, if_pos (by simp)]
  refine reads_levels ?_ (Nat.le_of_lt op.level_lt) (Nat.zero_le _)
    fun d hd l _ _ => hnone d hd l
  rw [exprAt, if_pos op.level_lt]
  simp only [Parsed.Reads, Parsed.andThen_value, Parsed.andThen_next]
  rw [operators]
  split
  · rename_i hno
    rw [hat] at hno
    cases hno
  · rename_i op' hsome
    rw [hat] at hsome
    cases hsome
    simp only [Parsed.weaken_value, Parsed.weaken_next, operators_of_none _ (hnone _ hend _)]
    exact ⟨⟨_, _, rfl, hvalue⟩, hend⟩

/-- An operation is read at the level of its operator. -/
theorem reads_operation (hl : left.IsOperandIn l) (hr : right.IsOperandIn r) (hrest : EndsExpr rest)
    (hc : c.At (l.toList ++ ' ' :: ((op.written asSign).toList ++ ' ' :: (r.toList ++ rest)))) :
    (c.exprAt 0).Reads rest fun e =>
      e.withoutSpans = .binary op left.withoutSpans right.withoutSpans default := by
  have hnone (d : Cursor) (hd : d.At rest) (l : Nat) : d.operatorAt? l = none :=
    operatorAt?_of_none (hrest.coming.peek d hd).2 l
  -- The left operand ends at the operator, which belongs to no tighter level
  obtain ⟨hleft, hmid⟩ : (c.exprAt (op.level + 1)).Reads
      (' ' :: ((op.written asSign).toList ++ ' ' :: (r.toList ++ rest)))
      fun e => e.withoutSpans = left.withoutSpans := by
    refine reads_levels (hl _ (op.endsOperand _) c hc) (Nat.le_refl _) op.level_lt
      fun d hd l hlevel _ => ?_
    rw [operatorAt?, hd.binaryOp.1, Option.filter_some, if_neg (by simp; omega)]
  obtain ⟨hop, hnext⟩ := hmid.binaryOp
  have hright : ((c.exprAt (op.level + 1)).next.advance.exprAt (op.level + 1)).Reads rest
      fun e => e.withoutSpans = right.withoutSpans :=
    reads_levels (hr rest hrest.operand _ hnext) (Nat.le_refl _) op.level_lt
      fun d hd l _ _ => hnone d hd l
  obtain ⟨⟨e, span, hvalue, he⟩, hend⟩ := reads_joined hop hright hnone
  refine ⟨?_, hend⟩
  simp only [hvalue, Expr.withoutSpans, hleft, he]

end Cursor

namespace Expr

variable {e left right : Expr}

/-- An expression as an operand: an operation stands between parentheses. -/
def printOperand (e : Expr) : String :=
  parenthesise e.isOperation e.print

theorem isOperandIn_printOperand (h : e.IsReread) (hprimary : e.isOperation = false → e.IsPrimary) :
    e.IsOperandIn e.printOperand := by
  unfold printOperand
  cases hop : e.isOperation with
  | true => exact h.isOperandIn
  | false => exact (hprimary hop).isOperandIn

theorem isReread_binary {op : BinaryOp} {span : Span}
    (hprimary : left.isOperation = false → left.IsPrimary) (hl : left.IsOperandIn left.printOperand)
    (hr : right.IsOperandIn right.printOperand) : (binary op left right span).IsReread := by
  intro rest hrest c hc
  have htext : (print (binary op left right span)).toList ++ rest = left.printOperand.toList ++
      ' ' :: ((op.written false).toList ++ ' ' :: (right.printOperand.toList ++ rest)) := by
    simp [print, printOperand]
  rw [htext] at hc
  refine ⟨?_, Cursor.reads_operation hl hr hrest hc⟩
  cases hop : left.isOperation with
  | true =>
    have hparen : left.printOperand.toList = '(' :: (left.print.toList ++ [')']) := by
      simp [printOperand, hop, parenthesise]
    rw [hparen, List.cons_append] at hc
    exact .of_punct hc (by decide) (by decide) (by decide) (by simp [beginsWithName, hop])
  | false =>
    have hplain : left.printOperand = left.print := by simp [printOperand, hop, parenthesise]
    rw [hplain] at hc
    obtain ⟨hbegins, -⟩ := hprimary hop _ (op.endsOperand _) c hc
    exact ⟨hbegins.going, hbegins.paren, hbegins.bracket, hbegins.positional,
      by simp [hbegins.name, beginsWithName, hop]⟩

/-! ## Expressions -/

/-- A well-formed expression with clear paths is read as it was printed. -/
theorem WellFormed.isReread (h : e.WellFormed) (hclear : e.isClear = true) :
    e.IsReread ∧ (e.isOperation = false → e.IsPrimary) := by
  have primary {e : Expr} (h : e.IsPrimary) : e.IsReread ∧ (e.isOperation = false → e.IsPrimary) :=
    ⟨h.isReread, fun _ => h⟩
  induction h with
  | literal hl => exact primary (isPrimary_literal hl)
  | var hne hsegments =>
    exact primary (isPrimary_var hne hsegments (by simpa [isClear, paths] using hclear))
  | object _ ih =>
    refine primary (isPrimary_object fun entry hmem => (ih entry hmem ?_).1)
    simp only [isClear, paths, entriesPaths_eq, List.all_flatMap, List.all_eq_true] at hclear ⊢
    exact hclear entry hmem
  | array _ ih =>
    refine primary (isPrimary_array fun item hmem => (ih item hmem ?_).1)
    simp only [isClear, paths, itemsPaths_eq, List.all_flatMap, List.all_eq_true] at hclear ⊢
    exact hclear item hmem
  | call hcallee hhead hnames _ ih =>
    obtain ⟨words, hcallee, hwords⟩ := hcallee
    refine primary (isPrimary_call hcallee hwords hhead hnames fun a hmem => (ih a hmem ?_).1)
    simp only [isClear, paths, argsPaths_eq, List.all_flatMap, List.all_eq_true] at hclear ⊢
    exact hclear a hmem
  | @unary op operand span hoperand ih =>
    obtain ⟨hread, hprimary⟩ := ih hclear
    refine ⟨?_, fun hop => by cases hop⟩
    cases hparen : operand.isLiteral || operand.isOperation with
    | true =>
      exact isReread_unary (by rw [print, hparen]) (by simp [parenthesise, Unsigned])
        hread.isOperandIn
    | false =>
      obtain ⟨hliteral, hop⟩ := Bool.or_eq_false_iff.1 hparen
      exact isReread_unary (by rw [print, hparen]; rfl) (hoperand.unsigned hliteral hop)
        (hprimary hop).isOperandIn
  | @binary op left right span _ _ ihleft ihright =>
    simp only [isClear, paths, List.all_append, Bool.and_eq_true] at hclear
    obtain ⟨hleft, hleftPrimary⟩ := ihleft hclear.1
    obtain ⟨hright, hrightPrimary⟩ := ihright hclear.2
    exact ⟨isReread_binary hleftPrimary (isOperandIn_printOperand hleft hleftPrimary)
      (isOperandIn_printOperand hright hrightPrimary), fun hop => by cases hop⟩
  | target => exact primary isPrimary_target

end Expr

namespace Parse.Reads

variable {e : Expr}

theorem expr (h : e.WellFormed) (hclear : e.isClear = true) (hrest : EndsExpr rest) :
    Parse.expr.Reads (e.print.toList ++ rest) rest fun e' => e'.withoutSpans = e.withoutSpans :=
  fun c hc => ((h.isReread hclear).1 rest hrest c hc).2

end Parse.Reads

end DiagramTour
