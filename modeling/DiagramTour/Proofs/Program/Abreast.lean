import DiagramTour.Proofs.Program.Verbatim
import DiagramTour.Proofs.Program.Yields
import DiagramTour.Proofs.Lower.Spans

/-!
# Reading the same declarations twice

Declarations may stand by themselves or in a deck.  Two cursors over such texts go *abreast*: they
have read the same declarations and have the same ones before them, but behind these the one is at
the end of its text, and the other at the closing brace of the deck.  Reading keeps them abreast as
long as the first meets no error, for whoever needs more than the end of the text complains there.

## Architecture

- `heredoc?_deckTail` and `triviaLength_deckTail`: what closes the deck changes no token before it.
- `Cursor.Abreast` relates two cursors; `Abreast.next` is the step of both, and `Abreast.peek` says that
  no question about the next token tells them apart unless it asks for the end or a closing brace.
- `Parsed.Tallies` compares what two readers do from two cursors; it has a rule for each way to put
  readers together.
-/

namespace DiagramTour

/-- How a text begins whose declarations stand by themselves. -/
def bareHead : List Char :=
  "mpd 1.0\n".toList

/-- How a text begins whose declarations stand in a deck. -/
def deckHead : List Char :=
  "mpd 1.0\ndeck \x7b\n".toList

/-- How a text ends whose declarations stand in a deck. -/
def deckTail : List Char :=
  ['\n', '\x7d']

variable {s : Bool} {m : Munch} {c : Char} {cs ws im r w pre : List Char}

/-! ## What closes a deck -/

/-- Neither of the two characters that close a deck is part of a raw block. -/
theorem heredoc?_deckTail (cs : List Char) : heredoc? (cs ++ deckTail) = heredoc? cs := by
  have hline : EndsLine deckTail := by simp [EndsLine, deckTail]
  cases h : heredoc? cs with
  | some m =>
      obtain ⟨k, hk, hlen, hclosed, hlex⟩ := heredoc?_append h (.inl hline)
      rw [hk, Munch.eq_of_fields hlex hlen hclosed]
  | none =>
      rw [Option.eq_none_iff_forall_ne_some]
      intro k hk
      obtain ⟨tag, header, lines, post, hparts, hpost, heq, -⟩ := rawParts_of_heredoc? hk
      -- A raw block that is over before the tail would have been found without it
      have hfound : ∀ z, EndsLine z → cs = rawImage tag header lines ++ z → False := fun z hz hcs => by
        obtain ⟨k', hk', -⟩ := heredoc?_rawImage hparts hz
        rw [hcs, hk'] at h
        cases h
      rcases List.append_eq_append_iff.1 heq with ⟨z, himage, htail⟩ | ⟨z, hcs, hpost'⟩
      · -- A raw block ends with a bracket
        have hlast := getLast?_rawImage tag header lines
        rw [himage] at hlast
        rcases z with _ | ⟨a, _ | ⟨b, _ | ⟨d, z⟩⟩⟩
        · exact hfound [] (by simp [EndsLine]) (by simpa using himage.symm)
        · obtain ⟨rfl, -⟩ : '\n' = a ∧ _ := by simpa [deckTail] using htail
          simp at hlast
        · obtain ⟨rfl, rfl, -⟩ : '\n' = a ∧ '\x7d' = b ∧ _ := by simpa [deckTail] using htail
          simp at hlast
        · simp [deckTail] at htail
      · refine hfound z (fun a ha => hpost a ?_) hcs
        rw [hpost', deckTail, takeWhile_fence (by decide)]
        exact ha

theorem opensComment_lineFeed (c : Char) (cs x : List Char) :
    opensComment (c :: (cs ++ '\n' :: x)) = opensComment (c :: cs) := by
  by_cases hslash : c = '/'
  · subst hslash
    rw [opensComment_slash, opensComment_slash]
    cases cs <;> rfl
  by_cases hhash : c = '#'
  · subst hhash
    simp only [opensComment, colorDigits?_fence (isFence_of_isBlank (c := '\n') (by decide))]
  rw [opensComment_of_ne hslash hhash, opensComment_of_ne hslash hhash]

/-- Blanks and comments go on up to the brace that closes a deck. -/
theorem triviaLength_deckTail (h : triviaLength cs = cs.length) :
    triviaLength (cs ++ deckTail) = cs.length + 1 := by
  -- Trivia and comments take turns, so one induction goes through both
  have hboth : ∀ cs : List Char,
      (triviaLength cs = cs.length → triviaLength (cs ++ deckTail) = cs.length + 1) ∧
      (commentLength cs = cs.length → commentLength (cs ++ deckTail) = cs.length + 1) := by
    intro cs
    induction cs with
    | nil => exact ⟨fun _ => by decide, fun _ => by decide⟩
    | cons c cs ih =>
        refine ⟨fun h => ?_, fun h => ?_⟩
        · rw [triviaLength_cons] at h
          rw [List.cons_append, triviaLength_cons, deckTail, opensComment_lineFeed]
          split at h
          · rename_i hb
            rw [if_pos hb]
            exact congrArg (· + 1) (ih.1 (by simpa using h))
          · rename_i hb
            split at h
            · rename_i hopens
              rw [if_neg hb, if_pos hopens]
              exact congrArg (· + 1) (ih.2 (by simpa using h))
            · simp at h
        · rw [commentLength_cons] at h
          rw [List.cons_append, commentLength_cons]
          split at h
          · rename_i hb
            rw [if_pos hb]
            exact congrArg (· + 1) (ih.1 (by simpa using h))
          · rename_i hb
            rw [if_neg hb]
            exact congrArg (· + 1) (ih.2 (by simpa using h))
  exact (hboth cs).1 h

/-- A token is cut off in the same way in a deck. -/
theorem CutsOff.deckTail (h : CutsOff s ws im r m) : CutsOff s ws im (r ++ deckTail) m := by
  have h : CutsOff s ws im (r ++ []) m := by rwa [List.append_nil]
  refine h.before_blank (by decide) ?_ (.inl (.inl rfl))
  rw [List.append_nil, ← List.append_assoc]
  exact heredoc?_deckTail (im ++ r)

/-- The brace that closes a deck is cut off behind blanks and comments. -/
theorem cutsOff_closeBrace (h : triviaLength cs = cs.length) :
    ∃ m, CutsOff s (cs ++ ['\n']) ['\x7d'] [] m ∧ m.lexeme = .punct := by
  have hmunch : munch? s ['\x7d'] =
      some { lexeme := .punct, length := 1, length_pos := Nat.one_pos } := by
    rw [munch?_of_ne (by decide), flat?_brace]
    rfl
  refine ⟨_, ⟨?_, hmunch, rfl, rfl⟩, rfl⟩
  have hlen := triviaLength_deckTail h
  simpa [deckTail] using hlen

namespace Cursor

variable {c d : Cursor}

/-- Behind the last token nothing but blanks and comments is left. -/
theorem Before.triviaLength_eq (h : c.Before s pre cs)
    (hclean : hasErrors (lexFrom true .start c.source).diagnostics = false) (hend : c.atEnd = true) :
    triviaLength cs = cs.length := by
  refine Nat.le_antisymm (triviaLength_le cs) ?_
  rw [← List.drop_eq_nil_iff]
  have hlex := lexFrom_eq s (Position.start.advance pre) cs
  cases hbody : cs.drop (triviaLength cs) with
  | nil => rfl
  | cons e es =>
      exfalso
      rw [hbody] at hlex
      cases hm : munch? s (e :: es) with
      | none =>
          -- A character that begins no token is an error, and the text has none
          obtain ⟨span, ds, hstray⟩ := diagnostics_lexBody_of_stray
            (p := (Position.start.advance pre).advance (cs.take (triviaLength cs))) hm
          rw [h.clean, hlex, hstray] at hclean
          simp [hasErrors, Diagnostic.isError, Problem.severity] at hclean
      | some m =>
          -- One more token contradicts that none is left
          have hrest := h.rest
          rw [atEnd, List.isEmpty_iff] at hend
          rw [hend, hlex] at hrest
          simp [lexBody, hm, Lexed.tokens, Piece.token?] at hrest

/-! ## Two cursors abreast -/

/-- Both cursors have read `w`, and `cs` is left to both; in the one text the declarations stand by
themselves, in the other in a deck.  The same was reported. -/
structure Beside (s : Bool) (w cs : List Char) (c d : Cursor) : Prop where
  bare : c.Before s (bareHead ++ w) cs
  deck : d.Before s (deckHead ++ w) (cs ++ deckTail)
  clean : hasErrors (lexFrom true .start c.source).diagnostics = false
  reports : problemsOf c.reports.toList = problemsOf d.reports.toList

/-- The cursors have the same declarations before and behind them. -/
def Abreast (c d : Cursor) : Prop :=
  ∃ s w cs, Beside s w cs c d

@[simp] theorem reports_advance (c : Cursor) : c.advance.reports = c.reports := by
  unfold advance
  split <;> rfl

/-- One step of both cursors. -/
theorem Beside.step (h : Beside s w cs c d) (hend : c.atEnd = false) :
    ∃ (ws im r : List Char) (m : Munch), cs = ws ++ (im ++ r) ∧
      c.peek = ⟨m.lexeme, String.ofList im, ⟨Position.start.advance (bareHead ++ w ++ ws),
        Position.start.advance (bareHead ++ w ++ ws ++ im)⟩⟩ ∧
      d.peek = ⟨m.lexeme, String.ofList im, ⟨Position.start.advance (deckHead ++ w ++ ws),
        Position.start.advance (deckHead ++ w ++ ws ++ im)⟩⟩ ∧ CutsOff s ws im r m ∧
      Beside (signAfter m.lexeme (String.ofList im)) (w ++ (ws ++ im)) r c.advance d.advance := by
  obtain ⟨ws, im, r, m, rfl, hcut⟩ := h.bare.cut h.clean hend
  have hcuts : CutsOff s ws im r m := ⟨hcut.trivia, hcut.munch, hcut.length, hcut.closed⟩
  have hdeck := h.deck
  rw [List.append_assoc, List.append_assoc] at hdeck
  have htail := hcuts.deckTail
  obtain ⟨hpeek, -, hnext⟩ :=
    hdeck.advance htail.trivia htail.munch htail.length htail.closed
  refine ⟨ws, im, r, m, rfl, hcut.peek, hpeek, hcuts, ?_, ?_, ?_, by simpa using h.reports⟩
  · simpa using hcut.next
  · simpa using hnext
  · rw [(Onward.advance c).source]
    exact h.clean

/-- Where the one text ends the deck is closed. -/
theorem Beside.ended (h : Beside s w cs c d) (hend : c.atEnd = true) :
    d.peek.lexeme = .punct ∧ d.peek.image = closeBrace ∧
      d.here = Position.start.advance (deckHead ++ (w ++ (cs ++ ['\n']))) ∧
      ∃ s' pre, d.advance.Before s' pre [] := by
  obtain ⟨m, hcut, hlex⟩ := cutsOff_closeBrace (s := s) (h.bare.triviaLength_eq h.clean hend)
  have hdeck : d.Before s (deckHead ++ w) ((cs ++ ['\n']) ++ (['\x7d'] ++ [])) := by
    simpa [deckTail] using h.deck
  obtain ⟨hpeek, -, hnext⟩ := hdeck.advance hcut.trivia hcut.munch hcut.length hcut.closed
  refine ⟨by rw [hpeek]; exact hlex, by rw [hpeek]; rfl, ?_, _, _, hnext⟩
  rw [here, hpeek, List.append_assoc]

end Cursor

/-! ## Questions about tokens -/

namespace Token

/-- The two tokens say the same. -/
structure Alike (t u : Token) : Prop where
  lexeme : t.lexeme = u.lexeme
  image : t.image = u.image

/-- The answer to a question about a token does not depend on where the token stands, nor does it tell
the end of a text from a closing brace. -/
structure Blind {β : Type} (φ : Token → β) : Prop where
  place : ∀ t span, φ { t with span } = φ t
  ending : φ ⟨.punct, Cursor.closeBrace, default⟩ = φ (.endAt default)

variable {β : Type} {φ : Token → β} {t u : Token}

theorem Alike.answer (h : t.Alike u) (hφ : ∀ t span, φ { t with span } = φ t) : φ t = φ u := by
  obtain ⟨lexeme, image, span⟩ := t
  obtain ⟨lexeme', image', span'⟩ := u
  obtain ⟨rfl, rfl⟩ : lexeme = lexeme' ∧ image = image' := ⟨h.lexeme, h.image⟩
  rw [← hφ ⟨lexeme, image, span⟩ span']

theorem Alike.text (h : t.Alike u) : t.text = u.text :=
  h.answer fun _ _ => rfl

theorem Blind.isKeyword (word : String) : Blind (·.isKeyword word) :=
  ⟨fun _ _ => rfl, rfl⟩

theorem Blind.isOperator (op : String) : Blind (·.isOperator op) :=
  ⟨fun _ _ => rfl, rfl⟩

theorem Blind.isPunct {mark : String} (h : mark ≠ Cursor.closeBrace) : Blind (·.isPunct mark) :=
  ⟨fun _ _ => rfl, by simpa [Token.isPunct, Token.endAt] using h.symm⟩

theorem Blind.isWord : Blind isWord :=
  ⟨fun _ _ => rfl, rfl⟩

theorem Blind.isString : Blind isString :=
  ⟨fun _ _ => rfl, rfl⟩

theorem Blind.isName : Blind isName :=
  ⟨fun _ _ => rfl, rfl⟩

theorem Blind.isInt : Blind isInt :=
  ⟨fun _ _ => rfl, rfl⟩

end Token

/-- What can be told of the next token that cannot of the end of a text is told of a token. -/
theorem Cursor.atEnd_eq_false_of_ne {c : Cursor} {β : Type} {φ : Token → β} (hφ : Token.Blind φ)
    {b : β} (h : φ c.peek = b) (hb : φ (.endAt default) ≠ b) : c.atEnd = false := by
  refine Bool.eq_false_iff.2 fun hend => hb ?_
  rw [atEnd, List.isEmpty_iff] at hend
  have hc : c.peek = .endAt c.stop := by simp [peek, hend]
  rw [← h, hc]
  exact (hφ.place (.endAt default) (.point c.stop)).symm

namespace Cursor.Abreast

variable {c d : Cursor} {β : Type} {φ : Token → β}

/-- The next token of both says the same, and behind it they are still abreast. -/
theorem next (h : Abreast c d) (hend : c.atEnd = false) :
    c.peek.Alike d.peek ∧ Abreast c.advance d.advance := by
  obtain ⟨s, w, cs, h⟩ := h
  obtain ⟨ws, im, r, m, -, hc, hd, -, hnext⟩ := h.step hend
  exact ⟨⟨by rw [hc, hd], by rw [hc, hd]⟩, _, _, _, hnext⟩

/-- Both have a token before them that says the same, or the one is at the end of its text and the
other at a mark. -/
theorem next_or_ended (h : Abreast c d) :
    (c.atEnd = false ∧ c.peek.Alike d.peek ∧ Abreast c.advance d.advance) ∨
      (c.peek.lexeme = .eof ∧ d.peek.lexeme = .punct) := by
  cases hend : c.atEnd with
  | false => exact .inl ⟨rfl, h.next hend⟩
  | true =>
      obtain ⟨s, w, cs, h⟩ := h
      rw [atEnd, List.isEmpty_iff] at hend
      exact .inr ⟨by simp [Cursor.peek, hend, Token.endAt], (h.ended (by simp [atEnd, hend])).1⟩

/-- No blind question about the next token tells the cursors apart. -/
theorem peek (h : Abreast c d) (hφ : Token.Blind φ) : φ d.peek = φ c.peek := by
  -- At the end of the one text the other shows the brace, which a blind question takes for an end
  cases hend : c.atEnd with
  | false => exact ((h.next hend).1.answer hφ.place).symm
  | true =>
      obtain ⟨s, w, cs, h⟩ := h
      obtain ⟨hlex, himage, -, -⟩ := h.ended hend
      have hc : c.peek = .endAt c.stop := by
        rw [atEnd, List.isEmpty_iff] at hend
        simp [Cursor.peek, hend]
      have hd : Token.Alike d.peek ⟨.punct, closeBrace, default⟩ := ⟨hlex, himage⟩
      rw [hd.answer hφ.place, hc, hφ.ending]
      exact hφ.place (.endAt c.stop) (.point default)

/-- What the one cursor has left ends with the text, and what the other has with the brace. -/
theorem ended (h : Abreast c d) (hend : c.atEnd = true) :
    d.atPunct closeBrace = true ∧ d.atEnd = false ∧ d.advance.rest = [] := by
  obtain ⟨s, w, cs, h⟩ := h
  obtain ⟨hlex, himage, -, s', pre, hnext⟩ := h.ended hend
  refine ⟨by simp [atPunct, Token.isPunct, hlex, himage], atEnd_eq_false_of_peek ?_, ?_⟩
  · simp [Token.isEnd, hlex]
  · rw [hnext.rest, lexFrom_eq]
    rfl

/-- The same holds of the token after the next one. -/
theorem second (h : Abreast c d) (hφ : Token.Blind φ) : φ d.second = φ c.second := by
  rw [second_eq, second_eq]
  cases hend : c.atEnd with
  | false => exact (h.next hend).2.peek hφ
  | true =>
      have hc : c.advance.rest = [] := by
        rw [atEnd, List.isEmpty_iff] at hend
        simp [advance, hend]
      simp only [Cursor.peek, hc, (h.ended hend).2.2, List.head?_nil, Option.getD_none]
      exact hφ.place (.endAt c.advance.stop) _

/-- The brace is one token more. -/
theorem size (h : Abreast c d) : d.size = c.size + 1 := by
  -- Both lose a token with each step, until only the brace is left
  induction hn : c.size using Nat.strongRecOn generalizing c d with
  | _ n ih =>
      cases hend : c.atEnd with
      | true =>
          obtain ⟨-, hgoing, hrest⟩ := h.ended hend
          have hpos := size_pos_of_not_atEnd hgoing
          have hnone : d.advance.size = 0 := by simp [Cursor.size, hrest]
          rw [atEnd, List.isEmpty_iff] at hend
          have hzero : c.size = 0 := by simp [Cursor.size, hend]
          rw [size_advance] at hnone
          omega
      | false =>
          have hlt := size_advance_lt hend
          have hpos := size_pos_of_not_atEnd hend
          have hnext := ih c.advance.size (hn ▸ hlt) (h.next hend).2 rfl
          rw [size_advance, size_advance] at hnext
          omega

theorem atEnd (h : Abreast c d) : d.atEnd = false := by
  cases hend : d.atEnd with
  | false => rfl
  | true =>
      rw [Cursor.atEnd, List.isEmpty_iff] at hend
      have hsize := h.size
      simp [Cursor.size, hend] at hsize

theorem atKeyword (h : Abreast c d) (word : String) : d.atKeyword word = c.atKeyword word :=
  h.peek (.isKeyword word)

theorem atOperator (h : Abreast c d) (op : String) : d.atOperator op = c.atOperator op :=
  h.peek (.isOperator op)

theorem atPunct (h : Abreast c d) {mark : String} (hmark : mark ≠ closeBrace) :
    d.atPunct mark = c.atPunct mark :=
  h.peek (.isPunct hmark)

/-- Where the one list of items ends the other does. -/
theorem atStop (h : Abreast c d) :
    (d.atPunct closeBrace || d.atEnd) = (c.atPunct closeBrace || c.atEnd) := by
  cases hend : c.atEnd with
  | true => simp [(h.ended hend).1]
  | false =>
      have hpunct : c.atPunct closeBrace = d.atPunct closeBrace :=
        (h.next hend).1.answer (φ := fun t => t.isPunct closeBrace) fun _ _ => rfl
      rw [h.atEnd, hpunct]

/-! ### Reports -/

/-- Both report the same, wherever it is. -/
theorem report (h : Abreast c d) (problem : Problem) (span span' : Span) :
    Abreast (c.report problem span) (d.report problem span') := by
  obtain ⟨s, w, cs, h⟩ := h
  refine ⟨s, w, cs, h.bare.congr rfl rfl rfl, h.deck.congr rfl rfl rfl, h.clean, ?_⟩
  have hreports := h.reports
  simp only [problemsOf, Cursor.report, Array.toList_push, List.map_append] at hreports ⊢
  rw [hreports]
  rfl

/-- Both have reported as much. -/
theorem reports_size (h : Abreast c d) : d.reports.size = c.reports.size := by
  obtain ⟨s, w, cs, h⟩ := h
  simpa [problemsOf] using (congrArg List.length h.reports).symm

/-- A turn of a loop leaves the cursors abreast, also if it read nothing and was not reported. -/
theorem afterTurn {n n' : Cursor} (h : Abreast c d) (hn : Abreast n n') (hend : c.atEnd = false)
    (context context' : String) (hok : ¬(c.afterTurn n context).Failed) :
    Abreast (c.afterTurn n context) (d.afterTurn n' context') := by
  have hsize := h.size
  have hsize' := hn.size
  unfold Cursor.afterTurn at hok ⊢
  -- The other has one token more left before the turn and behind it: both read something or neither
  by_cases heq : n.size = c.size
  · rw [if_pos heq] at hok ⊢
    rw [if_pos (by omega)]
    unfold Cursor.recover at hok ⊢
    rw [hn.reports_size, h.reports_size]
    by_cases hsilent : n.reports.size = c.reports.size
    · rw [if_pos hsilent, failed_advance] at hok
      exact absurd (failed_unexpected n context) hok
    · rw [if_neg hsilent, if_neg hsilent]
      refine (hn.next ?_).2
      have hpos := size_pos_of_not_atEnd hend
      cases hstop : n.atEnd with
      | false => rfl
      | true =>
          rw [Cursor.atEnd, List.isEmpty_iff] at hstop
          simp [Cursor.size, hstop] at heq
          simp [Cursor.size, ← heq] at hpos
  · rw [if_neg heq, if_neg (by omega)]
    exact hn

end Cursor.Abreast

/-! ## Readers that tally -/

open Cursor (Onward Abreast)

variable {α β γ δ : Type} {c d e e' : Cursor} {f : α → γ} {g : β → δ}

/-- Reading goes on, and from cursors abreast, unless the first meets an error, the same is read up to
what `f` leaves out, and the cursors are still abreast. -/
structure Parsed.Tallies (f : α → γ) (r : Parsed c α) (r' : Parsed d α) : Prop where
  onward : Onward c r.next
  tally : Abreast c d → ¬r.next.Failed → f r.value = f r'.value ∧ Abreast r.next r'.next

/-- The same wherever reading begins. -/
def Parse.Tallies (f : α → γ) (p q : Parse α) : Prop :=
  ∀ c d, (p c).Tallies f (q d)

namespace Parsed.Tallies

theorem here {a b : α} (h : Abreast c d → f a = f b) :
    (Parsed.here c a).Tallies f (Parsed.here d b) :=
  ⟨.refl c, fun hab _ => ⟨h hab, hab⟩⟩

/-- Of a reader that fails nothing is asked. -/
theorem failed {r : Parsed c α} {r' : Parsed d α} (h : Onward c r.next) (hr : r.next.Failed) :
    r.Tallies f r' :=
  ⟨h, fun _ hok => absurd hr hok⟩

theorem andThen {r : Parsed c α} {r' : Parsed d α}
    {k : (a : α) → (e : Cursor) → e.size ≤ c.size → Parsed e β}
    {l : (a : α) → (e : Cursor) → e.size ≤ d.size → Parsed e β} (hr : r.Tallies f r')
    (hk : ∀ a b e e' he he', f a = f b → (k a e he).Tallies g (l b e' he')) :
    (r.andThen k).Tallies g (r'.andThen l) := by
  refine ⟨hr.onward.trans (hk _ _ _ _ _ r'.le rfl).onward, fun hab hok => ?_⟩
  -- What failed on the way would have failed in the end
  have hmid : ¬r.next.Failed := fun h => hok ((hk _ _ _ _ _ r'.le rfl).onward.failed h)
  obtain ⟨hvalue, hnext⟩ := hr.tally hab hmid
  exact (hk _ _ _ _ _ _ hvalue).tally hnext hok

theorem map {r : Parsed c α} {r' : Parsed d α} {k l : α → β} (hr : r.Tallies f r')
    (hk : ∀ a b, f a = f b → g (k a) = g (l b)) : (r.map k).Tallies g (r'.map l) :=
  ⟨hr.onward, fun hab hok => ⟨hk _ _ (hr.tally hab hok).1, (hr.tally hab hok).2⟩⟩

/-- Both go the same way. -/
theorem ite {b b' : Prop} [Decidable b] [Decidable b'] {r u : Parsed c α} {r' u' : Parsed d α}
    (hiff : b' ↔ b) (hyes : b → r.Tallies f r') (hno : ¬b → u.Tallies f u') :
    (if b then r else u).Tallies f (if b' then r' else u') := by
  by_cases hb : b
  · rw [if_pos hb, if_pos (hiff.2 hb)]
    exact hyes hb
  · rw [if_neg hb, if_neg (mt hiff.1 hb)]
    exact hno hb

/-- Both go the same way, knowing which. -/
theorem dite {b b' : Prop} [Decidable b] [Decidable b'] {r : b → Parsed c α}
    {r' : b' → Parsed d α} {u : Parsed c α} {u' : Parsed d α} (hiff : b' ↔ b)
    (hyes : ∀ hb hb', (r hb).Tallies f (r' hb')) (hno : ¬b → u.Tallies f u') :
    (if h : b then r h else u).Tallies f (if h : b' then r' h else u') := by
  by_cases hb : b
  · rw [dif_pos hb, dif_pos (hiff.2 hb)]
    exact hyes hb _
  · rw [dif_neg hb, dif_neg (mt hiff.1 hb)]
    exact hno hb

/-- What is read behind the next token. -/
theorem behind {r : Parsed c.advance α} {r' : Parsed d.advance α} (hend : c.atEnd = false)
    (hr : r.Tallies f r') :
    (r.weaken c.size_advance_le).Tallies f (r'.weaken d.size_advance_le) :=
  ⟨(Onward.advance c).trans hr.onward, fun hab hok => hr.tally (hab.next hend).2 hok⟩

/-- What is read behind a value that is kept. -/
theorem keeping {r : Parsed c α} {r' : Parsed d α} {u : Parsed r.next β} {u' : Parsed r'.next β}
    (hr : r.Tallies f r') (honward : Onward r.next u.next)
    (hu : f r.value = f r'.value → u.Tallies g u') :
    (u.weaken r.le).Tallies g (u'.weaken r'.le) := by
  refine ⟨hr.onward.trans honward, fun hab hok => ?_⟩
  obtain ⟨hvalue, hnext⟩ := hr.tally hab fun h => hok (honward.failed h)
  exact (hu hvalue).tally hnext hok

end Parsed.Tallies

namespace Parse

theorem look_bind (g : Cursor → α) (k : α → Parse β) (c : Cursor) :
    (look g >>= k) c = k (g c) c := rfl

end Parse

namespace Parse.Tallies

variable {p q : Parse α} {k l : α → Parse β}

theorem pure {a b : α} (h : f a = f b) : (Pure.pure a : Parse α).Tallies f (Pure.pure b) :=
  fun _ _ => .here fun _ => h

theorem bind (hp : p.Tallies f q) (hk : ∀ a b, f a = f b → (k a).Tallies g (l b)) :
    (p >>= k).Tallies g (q >>= l) :=
  fun c d => (hp c d).andThen fun a b e e' _ _ hab => hk a b hab e e'

/-- The first reader reads the very same. -/
theorem same (hp : p.Tallies (fun a => a) q) (hk : ∀ a, (k a).Tallies g (l a)) :
    (p >>= k).Tallies g (q >>= l) :=
  hp.bind fun a b hab => by
    obtain rfl : a = b := hab
    exact hk a

/-- What the first reader reads does not matter. -/
theorem any (hp : p.Tallies (fun _ => ()) q) (hk : ∀ a b, (k a).Tallies g (l b)) :
    (p >>= k).Tallies g (q >>= l) :=
  hp.bind fun a b _ => hk a b

theorem map {k l : α → β} (hp : p.Tallies f q) (hk : ∀ a b, f a = f b → g (k a) = g (l b)) :
    (k <$> p).Tallies g (l <$> q) :=
  hp.bind fun a b hab => pure (hk a b hab)

/-- Where something starts does not matter. -/
theorem start : Parse.start.Tallies (fun _ => ()) Parse.start :=
  fun _ _ => .here fun _ => rfl

theorem spanFrom (start start' : Position) :
    (Parse.spanFrom start).Tallies (fun _ => ()) (Parse.spanFrom start') :=
  fun _ _ => .here fun _ => rfl

/-- A blind question about the next token. -/
theorem look {φ : Token → β} (hφ : Token.Blind φ) :
    (Parse.look fun c => φ c.peek).Tallies (fun b => b) (Parse.look fun c => φ c.peek) :=
  fun _ _ => .here fun hab => (hab.peek hφ).symm

/-- What is missing is an error. -/
theorem unexpected (expected expected' : String) :
    (Parse.unexpected expected).Tallies (fun a => a) (Parse.unexpected expected') :=
  fun c _ => .failed (.unexpected c expected) (Cursor.failed_unexpected c expected)

theorem report (problem : Problem) (span span' : Span) :
    (Parse.report problem span).Tallies (fun a => a) (Parse.report problem span') :=
  fun c _ => ⟨.report c problem span, fun hab _ => ⟨rfl, hab.report problem span span'⟩⟩

/-- A token is read if the answer about it is yes; the end of a text is none. -/
theorem readIf {φ : Token → Bool} (hφ : Token.Blind φ) (hend : φ (.endAt default) = false)
    {k l : Token → Parse β} {p q : Parse β}
    (hyes : ∀ t u, t.Alike u → φ t = true → (k t).Tallies g (l u)) (hno : p.Tallies g q) :
    (Parse.look (fun c => φ c.peek) >>= fun b => if b = true then Parse.next >>= k else p).Tallies g
      (Parse.look (fun c => φ c.peek) >>= fun b => if b = true then Parse.next >>= l else q) := by
  intro c d
  rw [look_bind, look_bind]
  by_cases hc : φ c.peek = true
  · have hgoing : c.atEnd = false := Cursor.atEnd_eq_false_of_ne hφ hc (by rw [hend]; decide)
    rw [if_pos hc]
    refine ⟨?_, fun hab hok => ?_⟩
    · exact (Onward.advance c).trans (hyes c.peek c.peek ⟨rfl, rfl⟩ hc c.advance d.advance).onward
    · obtain ⟨halike, hnext⟩ := hab.next hgoing
      rw [if_pos ((hab.peek hφ).trans hc)]
      exact (hyes c.peek d.peek halike hc c.advance d.advance).tally hnext hok
  · rw [if_neg hc]
    refine ⟨(hno c d).onward, fun hab hok => ?_⟩
    rw [if_neg (by rwa [hab.peek hφ])]
    exact (hno c d).tally hab hok

/-! ### Single tokens -/

theorem expectPunct (mark : String) :
    (Parse.expectPunct mark).Tallies (fun a => a) (Parse.expectPunct mark) := by
  refine fun c d => ⟨.expectPunct c mark, fun hab hok => ⟨rfl, ?_⟩⟩
  simp only [Parse.expectPunct, Cursor.expectPunct] at hok ⊢
  by_cases hc : c.atPunct mark = true
  · obtain ⟨halike, hnext⟩ := hab.next (Cursor.atEnd_eq_false_of_atPunct hc)
    have hd : d.atPunct mark = true :=
      (halike.answer (φ := fun t => t.isPunct mark) fun _ _ => rfl).symm.trans hc
    rwa [if_pos hc, if_pos hd]
  · rw [if_neg hc] at hok
    exact absurd (Cursor.failed_unexpected c _) hok

theorem expectKeyword (word : String) :
    (Parse.expectKeyword word).Tallies (fun a => a) (Parse.expectKeyword word) := by
  refine fun c d => ⟨.expectKeyword c word, fun hab hok => ⟨rfl, ?_⟩⟩
  simp only [Parse.expectKeyword, Cursor.expectKeyword, hab.atKeyword] at hok ⊢
  by_cases hc : c.atKeyword word = true
  · rw [if_pos hc, if_pos hc]
    exact (hab.next (Cursor.atEnd_eq_false_of_atKeyword hc)).2
  · rw [if_neg hc] at hok
    exact absurd (Cursor.failed_unexpected c _) hok

theorem eatPunct {mark : String} (h : mark ≠ Cursor.closeBrace) :
    (Parse.eatPunct mark).Tallies (fun a => a) (Parse.eatPunct mark) := by
  refine fun c d => ⟨.eatPunct c mark, fun hab hok => ⟨rfl, ?_⟩⟩
  simp only [Parse.eatPunct, Cursor.eatPunct, hab.atPunct h]
  split
  · rename_i hc
    exact (hab.next (Cursor.atEnd_eq_false_of_atPunct hc)).2
  · exact hab

theorem eatKeyword (word : String) :
    (Parse.eatKeyword word).Tallies (fun a => a) (Parse.eatKeyword word) := by
  refine fun c d => ⟨(Yields.eatKeyword word c).onward, fun hab hok => ?_⟩
  simp only [Parse.eatKeyword, hab.atKeyword]
  split
  · rename_i hc
    exact ⟨rfl, (hab.next (Cursor.atEnd_eq_false_of_atKeyword hc)).2⟩
  · exact ⟨rfl, hab⟩

theorem name? (what : String) : (Parse.name? what).Tallies (fun a => a) (Parse.name? what) := by
  refine fun c d => ⟨(Yields.name? what c).onward, fun hab hok => ?_⟩
  simp only [Parse.name?, hab.peek .isName] at hok ⊢
  by_cases hc : c.peek.isName = true
  · obtain ⟨halike, hnext⟩ := hab.next (Cursor.atEnd_eq_false_of_isName hc)
    rw [if_pos hc, if_pos hc]
    exact ⟨congrArg some halike.text, hnext⟩
  · rw [if_neg hc] at hok
    exact absurd (Cursor.failed_unexpected c what) hok

theorem optionalString : Parse.optionalString.Tallies (fun a => a) Parse.optionalString := by
  refine fun c d => ⟨(Yields.optionalString c).onward, fun hab hok => ?_⟩
  simp only [Parse.optionalString, hab.peek .isString]
  split
  · rename_i hc
    obtain ⟨halike, hnext⟩ := hab.next
      (Cursor.atEnd_eq_false_of_ne .isString hc (by decide))
    exact ⟨congrArg some halike.text, hnext⟩
  · exact ⟨rfl, hab⟩

theorem optionalName : Parse.optionalName.Tallies (fun a => a) Parse.optionalName := by
  refine fun c d => ⟨(Yields.optionalName c).onward, fun hab hok => ?_⟩
  unfold Parse.optionalName
  rcases hab.next_or_ended with ⟨-, halike, hnext⟩ | ⟨hc, hd⟩
  · rw [← halike.lexeme, halike.text]
    split
    · exact ⟨rfl, hnext⟩
    · exact ⟨rfl, hnext⟩
    · exact ⟨rfl, hab⟩
  · rw [hc, hd]
    exact ⟨rfl, hab⟩

end Parse.Tallies

/-! ## Blocks -/

namespace Cursor

/-- Two readers of parts, each of which may be used as long as few enough tokens are left, tally
wherever they are used. -/
structure PartsTally {b b' : Nat} (f : α → γ) (item : (e : Cursor) → e.size < b → Parsed e α)
    (item' : (e : Cursor) → e.size < b' → Parsed e α) : Prop where
  onward : ∀ e he, Onward e (item e he).next
  tally : ∀ e e' he he', (item e he).Tallies f (item' e' he')

variable {b b' : Nat}

section

variable (context : String) (item : (e : Cursor) → e.size < b → Parsed e (Option α)) {c : Cursor}

theorem blockItems_of_stop (hstop : (c.atPunct closeBrace || c.atEnd) = true) (h : c.size < b) :
    blockItems b context item c h = .here c [] := by
  rw [blockItems, dif_pos hstop]

/-- A turn of the loop, and the turns behind it. -/
theorem blockItems_of_turn (hstop : ¬(c.atPunct closeBrace || c.atEnd) = true) (h : c.size < b) :
    ∃ hlt, (blockItems b context item c h).value =
        (item c h).value.toList ++
          (blockItems b context item (c.afterTurn (item c h).next context) hlt).value ∧
      (blockItems b context item c h).next =
        (blockItems b context item (c.afterTurn (item c h).next context) hlt).next := by
  have hend := not_atEnd_of_not_stop hstop
  refine ⟨Nat.lt_trans (size_afterTurn_lt hend (item c h).le context) h, ?_⟩
  rw [blockItems, dif_neg hstop]
  refine ⟨?_, rfl⟩
  simp only [Parsed.weaken_value, Parsed.map_value]
  cases (item c h).value <;> rfl

end

theorem onward_blockItems (context : String) {item : (e : Cursor) → e.size < b → Parsed e (Option α)}
    (hitem : ∀ e he, Onward e (item e he).next) {c : Cursor} (hc : c.size < b) :
    Onward c (blockItems b context item c hc).next :=
  (yields_blockItems (Q := fun _ => True) context
    (fun e he => ⟨hitem e he, fun _ _ _ _ => trivial⟩) hc).onward

/-- Items that tally make up lists that do. -/
theorem tallies_blockItems (context context' : String)
    {item : (e : Cursor) → e.size < b → Parsed e (Option α)}
    {item' : (e : Cursor) → e.size < b' → Parsed e (Option α)}
    (hitem : PartsTally (Option.map f) item item') {c d : Cursor} (hc : c.size < b)
    (hd : d.size < b') :
    (blockItems b context item c hc).Tallies (List.map f) (blockItems b' context' item' d hd) := by
  refine ⟨onward_blockItems context hitem.onward hc, ?_⟩
  induction hn : c.size using Nat.strongRecOn generalizing c d with
  | _ n ih =>
      intro hab hok
      by_cases hstop : (c.atPunct closeBrace || c.atEnd) = true
      · rw [blockItems_of_stop context item hstop,
          blockItems_of_stop context' item' (hab.atStop.trans hstop)]
        exact ⟨rfl, hab⟩
      · have hend := not_atEnd_of_not_stop hstop
        obtain ⟨hlt, hvalue, hnext⟩ := blockItems_of_turn context item hstop hc
        obtain ⟨hlt', hvalue', hnext'⟩ :=
          blockItems_of_turn context' item' (by rwa [hab.atStop]) hd
        rw [hvalue, hvalue', hnext, hnext']
        rw [hnext] at hok
        -- Neither the turn nor the list behind it failed
        have hrest := onward_blockItems context hitem.onward hlt
        have hafter : ¬(c.afterTurn (item c hc).next context).Failed := fun h => hok (hrest.failed h)
        obtain ⟨hturn, habreast⟩ :=
          (hitem.tally c d hc hd).tally hab fun h => hafter (h.afterTurn context)
        have hsize := size_afterTurn_lt hend (item c hc).le context
        obtain ⟨htail, hlast⟩ := ih _ (hn ▸ hsize) hlt hlt' rfl
          (hab.afterTurn habreast hend context context' hafter) hok
        refine ⟨?_, hlast⟩
        rw [List.map_append, List.map_append, htail, ← Option.toList_map, ← Option.toList_map, hturn]

theorem tallies_block (context : String)
    {item : (e : Cursor) → e.size < c.size → Parsed e (Option α)}
    {item' : (e : Cursor) → e.size < d.size → Parsed e (Option α)}
    (hitem : PartsTally (Option.map f) item item') :
    (c.block context item).Tallies (List.map f) (d.block context item') := by
  by_cases hc : c.atPunct openBrace = true
  · have hbody := onward_blockItems context hitem.onward (size_advance_lt_of_atPunct hc)
    refine ⟨?_, fun hab hok => ?_⟩
    · rw [block, dif_pos hc]
      exact ((Onward.advance c).trans hbody).trans (.expectPunct _ _)
    · have hd : d.atPunct openBrace = true := (hab.atPunct (by decide)).trans hc
      have hitems := tallies_blockItems context context hitem (size_advance_lt_of_atPunct hc)
        (size_advance_lt_of_atPunct hd)
      rw [block, dif_pos hc] at hok
      rw [block, dif_pos hc, block, dif_pos hd]
      have hmid := fun h => hok ((Onward.expectPunct _ closeBrace).failed h)
      obtain ⟨hvalue, hnext⟩ :=
        hitems.tally (hab.next (atEnd_eq_false_of_atPunct hc)).2 hmid
      exact ⟨hvalue, ((Parse.Tallies.expectPunct closeBrace _ _).tally hnext hok).2⟩
  · rw [block, dif_neg hc]
    exact .failed (.unexpected c _) (failed_unexpected c _)

end Cursor

theorem Parse.Tallies.block {context : String} {item item' : Parse (Option α)}
    (hitem : item.Tallies (Option.map f) item') :
    (Parse.block context item).Tallies (List.map f) (Parse.block context item') :=
  fun _ _ => Cursor.tallies_block _ ⟨fun e _ => (hitem e e).onward, fun e e' _ _ => hitem e e'⟩

end DiagramTour
