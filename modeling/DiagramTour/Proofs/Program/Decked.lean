import DiagramTour.Proofs.Program.Heading

/-!
# Declarations in a deck

A text without errors whose declarations stand by themselves compiles to the same document, with the
same warnings, as the text in which they stand in a deck.  The two texts are read abreast from the
first declaration on, and neither the audit nor lowering looks at spans.
-/

namespace DiagramTour

open Cursor (Onward Abreast Beside)

variable {s : Bool} {cs mid : List Char} {c : Cursor} {m : Munch} {source : String}

/-! ## What comes first -/

/-- A word does not begin with a sign. -/
theorem ne_sign_of_word {z : Char} (hm : munch? true (z :: cs) = some m)
    (hword : m.lexeme = .keyword ∨ m.lexeme = .identifier) : z ≠ '-' ∧ z ≠ '+' := by
  have hno (h1 : z ≠ '\x22') (h2 : z ≠ '\x27') (h3 : z ≠ '#') (h4 : z ≠ '<')
      (hl : Text.startsWord z = false) : False := by
    rw [munch?_of_ne h4] at hm
    rcases flat?_mark h1 h2 h3 hl hm with hnumber | hlex | hlex
    · have hnumeral := isNumeral_of_number? hnumber
      rcases hword with hlex | hlex <;> rw [hlex] at hnumeral <;> exact hnumeral
    · rcases hword with h | h <;> rw [hlex] at h <;> cases h
    · rcases hword with h | h <;> rw [hlex] at h <;> cases h
  constructor
  · rintro rfl
    exact hno (by decide) (by decide) (by decide) (by decide) (by decide)
  · rintro rfl
    exact hno (by decide) (by decide) (by decide) (by decide) (by decide)

/-- What begins no token is no operator, and no sign. -/
theorem isShortOperator_of_stray {z : Char} (hm : munch? true (z :: cs) = none) :
    isShortOperator z = false := by
  simp only [munch?, Option.orElse_eq_orElse, Option.orElse_eq_or, Option.or_eq_none_iff] at hm
  obtain ⟨-, -, -, -, -, hoperator, -⟩ := hm
  cases cs with
  | nil => simpa [operator?] using hoperator
  | cons d ds =>
      simp only [operator?] at hoperator
      split_ifs at hoperator with hlong hshort
      simpa using hshort

theorem ne_sign_of_stray {z : Char} (hm : munch? true (z :: cs) = none) : z ≠ '-' ∧ z ≠ '+' := by
  have hno := isShortOperator_of_stray hm
  constructor <;> rintro rfl <;> revert hno <;> decide

/-- A text whose first token, if there is one, is a word begins in the same way wherever it stands,
and whether or not a sign is allowed. -/
theorem calm_of_head {p : Position}
    (h : ∀ t, (lexFrom true p cs).tokens.head? = some t → t.isWord = true) :
    Calm cs ∧ ∀ q t, (lexFrom true q cs).tokens.head? = some t → t.isWord = true := by
  induction hn : cs.length using Nat.strongRecOn generalizing cs p with
  | _ n ih =>
      have hle : (cs.drop (triviaLength cs)).length ≤ n := by
        rw [List.length_drop, hn]
        omega
      rw [lexFrom_eq] at h
      unfold Calm
      simp only [lexFrom_eq _ _ cs]
      generalize cs.drop (triviaLength cs) = body at *
      generalize cs.take (triviaLength cs) = trivia at *
      cases body with
      | nil => exact ⟨fun q => rfl, fun q t ht => by cases ht⟩
      | cons z zs =>
          rw [List.length_cons] at hle
          cases hm : munch? true (z :: zs) with
          | none =>
              -- What begins no token is passed over
              obtain ⟨h1, h2⟩ := ne_sign_of_stray hm
              have hm' := (munch?_unsigned h1 h2 false zs).trans hm
              simp only [lexBody, hm, hm', Lexed.tokens, List.filterMap_cons, Piece.token?] at h ⊢
              obtain ⟨hcalm, hhead⟩ := ih zs.length (by omega) h rfl
              exact ⟨fun q => by rw [hcalm], fun q => hhead _⟩
          | some m =>
              simp only [lexBody, hm, Lexed.tokens, List.filterMap_cons, Piece.token?,
                List.head?_cons, Option.some.injEq, forall_eq'] at h
              obtain ⟨h1, h2⟩ := ne_sign_of_word hm (Token.lexeme_of_isWord h)
              have hm' := (munch?_unsigned h1 h2 false zs).trans hm
              refine ⟨fun q => by simp only [lexBody, hm, hm'], fun q t ht => ?_⟩
              simp only [lexBody, hm, Lexed.tokens, List.filterMap_cons, Piece.token?,
                List.head?_cons, Option.some.injEq] at ht
              subst ht
              exact h

theorem nextItem_of_head {p : Position}
    (h : ∀ t, (lexFrom true p cs).tokens.head? = some t → t.isWord = true) : NextItem cs := by
  obtain ⟨hcalm, hhead⟩ := calm_of_head h
  refine ⟨hcalm, fun c hc => ?_⟩
  obtain ⟨⟨pre, hbefore⟩, -⟩ := hc
  have hrest := hbefore.rest
  rw [Cursor.peek, hrest]
  cases ht : (lexFrom true (Position.start.advance pre) cs).tokens.head? with
  | none => exact .inr (.inr rfl)
  | some t => exact .inl (hhead _ t ht)

/-! ## The deck -/

namespace Cursor

variable {d : Cursor} {pre : List Char}

/-- A text that is read up to blanks and comments has no wrong piece. -/
theorem Before.diagnostics (h : c.Before s pre cs) (htrivia : triviaLength cs = cs.length) :
    (lexFrom true .start c.source).diagnostics = [] := by
  rw [h.clean, lexFrom_eq, htrivia, List.drop_length]
  rfl

/-- A deck up to the declarations in it. -/
theorem At.deck (h : c.At ("deck \x7b\n".toList ++ mid)) : c.atKeyword "deck" = true ∧
    c.advance.atPunct openBrace = true ∧ c.advance.advance.At mid := by
  have h : c.At ("deck".toList ++ ' ' :: '\x7b' :: '\n' :: mid) := h
  have hword := h.keyword (by decide) rfl (fenced_space _)
  have hopen := hword.next.space.punct (by decide) (.inl (by decide))
  exact ⟨(hword.atKeyword _).trans rfl, (hopen.atPunct _).trans rfl, hopen.next.lineFeed⟩

/-- A deck is read with what stands in it. -/
theorem item_of_deck (hdeck : d.atKeyword "deck" = true) (hopen : d.advance.atPunct openBrace = true) :
    ∃ span, d.item.value = some (.deck (blockItems d.advance.size "a deck declaration"
        (fun e _ => e.item) d.advance.advance (size_advance_lt_of_atPunct hopen)).value span) ∧
      d.item.next = (blockItems d.advance.size "a deck declaration" (fun e _ => e.item)
        d.advance.advance (size_advance_lt_of_atPunct hopen)).next.expectPunct closeBrace := by
  rw [item, dif_pos hdeck]
  dsimp only
  rw [block, dif_pos hopen]
  exact ⟨_, rfl, rfl⟩

/-- What two texts yield of their declarations: in the one they stand by themselves, in the other in a
deck. -/
structure DeckTallies (c d : Cursor) : Prop where
  items : ∃ is span, (Cursor.items true false d).value = [.deck is span] ∧
    (Cursor.items true false c).value.map Item.withoutSpans = is.map Item.withoutSpans
  reports : problemsOf (Cursor.items true false c).next.reports.toList =
    problemsOf (Cursor.items true false d).next.reports.toList
  bare : (lexFrom true .start c.source).diagnostics = []
  deck : (lexFrom true .start d.source).diagnostics = []

/-- Declarations without errors that hold no deck are read in a deck as they are by themselves. -/
theorem deckTallies (hc : c.At cs) (hbare : c.source = bareHead ++ cs) (hreports : c.reports = #[])
    (hd : d.At ("deck \x7b\n".toList ++ (cs ++ deckTail)))
    (hdeck : d.source = deckHead ++ (cs ++ deckTail)) (hreports' : d.reports = #[])
    (hclean : hasErrors (lexFrom true .start c.source).diagnostics = false)
    (hok : ¬(items true false c).next.Failed)
    (hflat : ∀ i ∈ (items true false c).value, i.isDeck = false) : DeckTallies c d := by
  obtain ⟨hword, hopen, hinner⟩ := hd.deck
  have hsource (c : Cursor) : (items true false c).next.source = c.source :=
    (yields_items true false c).onward.source
  have hinnerSource : d.advance.advance.source = deckHead ++ (cs ++ deckTail) :=
    (((Onward.advance d).trans (.advance _)).source).trans hdeck
  have hbeside : Beside true [] cs c d.advance.advance :=
    ⟨hc.before (by simpa using hbare), hinner.before (by simpa using hinnerSource), hclean,
      by simp [hreports, hreports']⟩
  obtain ⟨hitems, ⟨s, w, y, hend⟩, hatEnd⟩ := tallies_items true ⟨_, _, _, hbeside⟩
    (size_advance_lt_of_atPunct hopen) hok hflat
  -- The brace behind the declarations closes the deck and ends the text
  obtain ⟨span, hvalue, hnext⟩ := item_of_deck hword hopen
  obtain ⟨hclose, -, hrest⟩ := Abreast.ended ⟨s, w, y, hend⟩ hatEnd
  rw [expectPunct, if_pos hclose] at hnext
  obtain ⟨hall, hlast⟩ := items_of_last (atEnd_eq_false_of_atKeyword hword) (by rw [hnext, hrest])
  refine ⟨⟨_, span, by rw [hall, hvalue]; rfl, hitems⟩, ?_, ?_, ?_⟩
  · rw [hlast, hnext, reports_advance]
    exact hend.reports
  · rw [← hsource c]
    exact hend.bare.diagnostics (hend.bare.triviaLength_eq hend.clean hatEnd)
  · obtain ⟨-, -, -, s', pre, hbefore⟩ := hend.ended hatEnd
    rw [← hsource d, hlast, hnext]
    exact hbefore.diagnostics rfl

end Cursor

/-! ## The two texts -/

/-- The text whose declarations stand by themselves. -/
def bareText (declarations : String) : String :=
  "mpd 1.0\n" ++ declarations

/-- The text whose declarations stand in a deck. -/
def deckText (declarations : String) : String :=
  "mpd 1.0\ndeck \x7b\n" ++ declarations ++ "\n\x7d"

theorem toList_bareText (declarations : String) :
    (bareText declarations).toList = bareHead ++ declarations.toList := by
  unfold bareText bareHead
  exact String.toList_append

theorem toList_deckText (declarations : String) : (deckText declarations).toList =
    bareHead ++ ("deck \x7b\n".toList ++ (declarations.toList ++ deckTail)) := by
  have hhead : "mpd 1.0\ndeck \x7b\n".toList = bareHead ++ "deck \x7b\n".toList := by decide
  have htail : "\n\x7d".toList = deckTail := by decide
  unfold deckText
  rw [String.toList_append, String.toList_append, hhead, htail, List.append_assoc, List.append_assoc]

theorem Item.allWithoutSpans_eq (items : List Item) :
    Item.allWithoutSpans items = items.map Item.withoutSpans := by
  induction items with
  | nil => rfl
  | cons i is ih => rw [allWithoutSpans, ih, List.map_cons]

/-- Without a deck the declarations are those that stand by themselves. -/
theorem Program.deckItems_of_flat {p : Program} (h : ∀ i ∈ p.items, i.isDeck = false) :
    p.deckItems = p.items := by
  unfold deckItems
  generalize p.items = items at h
  induction items with
  | nil => rfl
  | cons i is ih =>
      obtain ⟨hi, his⟩ := List.forall_mem_cons.1 h
      rw [List.flatMap_cons, ih his]
      cases i with
      | deck items span => cases hi
      | _ => rfl

/-- What a text with a program compiles to. -/
theorem compile_of_program {p : Program} (h : (parse source).program = some p) :
    (compile source).document = some p.lower.value ∧
      (compile source).diagnostics = (parse source).diagnostics ++ p.audit ++ p.lower.notes := by
  simp [compile, h]

theorem Version.audit_of_supported {v : Version} (h : v.raw = "1.0") : v.audit = [] := by
  rw [audit, h]
  rfl

/-- Declarations that begin with a word and hold no deck compile, if they are without errors, to the same
document by themselves and in a deck, with the same warnings. -/
theorem compile_deckText (declarations : String) {p : Program}
    (hword : ∀ t, (lex declarations).tokens.head? = some t → t.isWord = true)
    (hread : (parse (bareText declarations)).program = some p)
    (hok : hasErrors (parse (bareText declarations)).diagnostics = false)
    (hflat : ∀ i ∈ p.items, i.isDeck = false) :
    (compile (deckText declarations)).document = (compile (bareText declarations)).document ∧
      problemsOf (compile (deckText declarations)).diagnostics =
        problemsOf (compile (bareText declarations)).diagnostics := by
  have hbare := toList_bareText declarations
  have hdeck := toList_deckText declarations
  have hmid : NextItem declarations.toList := nextItem_of_head (p := .start) hword
  have hmid' : NextItem ("deck \x7b\n".toList ++ (declarations.toList ++ deckTail)) :=
    Coming.word (w := "deck") (by decide) (fenced_space _) fun _ => .inl rfl
  obtain ⟨c, v, span, hc, hsource, hreports, hraw, hprogram, hdiagnostics⟩ :=
    parse_of_heading hbare hmid
  obtain ⟨d, v', span', hd, hsource', hreports', hraw', hprogram', hdiagnostics'⟩ :=
    parse_of_heading hdeck hmid'
  rw [hdiagnostics, hasErrors_append, Bool.or_eq_false_iff] at hok
  obtain rfl : _ = p := Option.some.inj (hprogram.symm.trans hread)
  obtain ⟨⟨is, span'', hitems', hsame⟩, hreported, hlexed, hlexed'⟩ :=
    Cursor.deckTallies hc (hsource.trans hbare) hreports hd (hsource'.trans hdeck) hreports' hok.1
      (Bool.eq_false_iff.1 hok.2) hflat
  rw [hitems'] at hprogram'
  rw [← Item.allWithoutSpans_eq, ← Item.allWithoutSpans_eq] at hsame
  obtain ⟨hdocument, hall⟩ := compile_of_program hread
  obtain ⟨hdocument', hall'⟩ := compile_of_program hprogram'
  have hlower : Program.lower ⟨v, (Cursor.items true false c).value, span⟩ |>.Alike
      (Program.lower ⟨v', [.deck is span''], span'⟩) := by
    refine Program.lower_alike ?_
    rw [Program.deckItems_of_flat hflat, hsame]
    simp [Program.deckItems]
  have haudit : problemsOf (Item.auditAll (Cursor.items true false c).value) =
      problemsOf (Item.auditAll [.deck is span'']) := by
    rw [← Item.auditAll_withoutSpans, hsame, Item.auditAll_withoutSpans]
    simp [Item.auditAll, Item.audit]
  refine ⟨by rw [hdocument, hdocument', hlower.value], ?_⟩
  rw [hall, hall', hdiagnostics, hdiagnostics', hlexed, hlexed']
  simp only [Program.audit, Version.audit_of_supported hraw, Version.audit_of_supported hraw',
    problemsOf_append, hreported, haudit, hlower.notes]

/-- Declarations whose last one takes the rest of its line. -/
def plainTour : String :=
  "scene tour \x7b step first \x7b focus node A pad -2 \x7d \x7d\nfuture mode 3"

theorem compile_deckText_plainTour : (lex plainTour).tokens.head?.all Token.isWord = true ∧
    (parse (bareText plainTour)).program.any (·.items.all (!·.isDeck)) = true ∧
    hasErrors (parse (bareText plainTour)).diagnostics = false ∧
    (compile (deckText plainTour)).document = (compile (bareText plainTour)).document ∧
      problemsOf (compile (deckText plainTour)).diagnostics =
        problemsOf (compile (bareText plainTour)).diagnostics := by
  have hhead : (lex plainTour).tokens.head?.all Token.isWord = true := by decide +kernel
  have hflat : (parse (bareText plainTour)).program.any (·.items.all (!·.isDeck)) = true := by
    decide +kernel
  have hok : hasErrors (parse (bareText plainTour)).diagnostics = false := by decide +kernel
  obtain ⟨p, hp, hitems⟩ := (Option.any_eq_true _ _).1 hflat
  refine ⟨hhead, hflat, hok, compile_deckText plainTour (fun t ht => ?_) hp hok ?_⟩
  · rw [ht] at hhead
    exact hhead
  · simpa using hitems

end DiagramTour
