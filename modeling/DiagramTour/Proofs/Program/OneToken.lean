import DiagramTour.Proofs.Program.Quote
import DiagramTour.Proofs.Token.Partition

/-!
# Texts of one token

A quoted text is one string, whatever it quotes, and a printed name is one word or one string.  It
is a word exactly when the name was one to begin with, so that printing and cutting texts agree on
what a word is.

## Architecture

- `OneToken` says that a text is one token, from its first character to its last.
- `Munches.oneToken` gets there from what stands at the head of a text, `munch?_of_tokens` goes back.
- `isIdentifier_iff` compares the test by which names are printed with what a text is cut into.
-/

namespace DiagramTour

variable {text : String} {t : Token} {lexeme : Lexeme} {before left : List Char} {x : Piece}
  {xs : List Piece}

/-- The text is this token and nothing else: the end of the text comes next, and nothing is wrong. -/
structure OneToken (text : String) (t : Token) : Prop where
  stream : (lex text).stream = [t, .endAt (.behind text.toList)]
  diagnostics : (lex text).diagnostics = []

theorem OneToken.tokens (h : OneToken text t) : (lex text).tokens = [t] :=
  List.append_inj_left' (h.stream : _ = [t] ++ [_]) rfl

/-- What stands at the head of a text is its first piece, and the rest is cut behind it. -/
theorem Munches.lex_eq {im rest : List Char} (h : Munches im rest lexeme)
    (htext : text.toList = im ++ rest) :
    ∃ s, lex text = ⟨.token ⟨lexeme, .ofList im, ⟨.start, .behind im⟩⟩ true ::
      (lexFrom s (.behind im) rest).pieces, (lexFrom s (.behind im) rest).stop⟩ := by
  obtain ⟨⟨m, hmunch, hlen, hclosed, rfl⟩, htrivia⟩ := h
  have hstop : Position.start.advance im = .behind im := Position.advance_behind [] im
  refine ⟨signAfter m.lexeme (.ofList im), ?_⟩
  rw [lex, htext, lexFrom_eq, htrivia, List.take_zero, List.drop_zero, Position.advance_nil,
    lexBody_of_munch? hmunch hlen, hclosed, hstop]

/-- What stands at the head of a text is all of the text if nothing comes behind it. -/
theorem Munches.oneToken (h : Munches text.toList [] lexeme) :
    OneToken text ⟨lexeme, text, ⟨.start, .behind text.toList⟩⟩ := by
  obtain ⟨s, hlex⟩ := h.lex_eq (List.append_nil _).symm
  have hnil : lexFrom s (.behind text.toList) [] = ⟨[], .behind text.toList⟩ := by
    rw [lexFrom_eq]
    simp [lexBody, triviaLength]
  rw [hnil, String.ofList_toList] at hlex
  exact ⟨by rw [hlex]; rfl, by rw [hlex]; rfl⟩

/-! ## Tokens that are all of a text -/

/-- No piece is longer than what was left of the text. -/
theorem Cut.exists_part (h : Cut before left xs) (hx : x ∈ xs) :
    ∃ part, x.Says part ∧ part.length ≤ left.length := by
  induction h with
  | stop => cases hx
  | @piece before gap part rest y ys _ _ himage _ _ ih =>
    rcases List.mem_cons.1 hx with rfl | hx
    · refine ⟨part, himage, ?_⟩
      rw [List.length_append, List.length_append]
      omega
    · obtain ⟨part', himage', hle⟩ := ih hx
      refine ⟨part', himage', ?_⟩
      rw [List.length_append, List.length_append]
      omega

theorem length_image_le {s : Bool} (ht : t ∈ (lexFrom s (.behind before) left).tokens) :
    t.image.toList.length ≤ left.length := by
  obtain ⟨x, hx, htoken⟩ := List.mem_filterMap.1 ht
  obtain ⟨part, himage, hle⟩ := (cut_lexFrom s before left).1.exists_part hx
  cases x with
  | stray c span => cases htoken
  | token u closed =>
    cases htoken
    rwa [himage.1, String.toList_ofList]

/-- The only token of a text, if it is all of the text, was recognised at its head. -/
theorem munch?_of_tokens (h : (lex text).tokens = [t]) (himage : t.image = text) :
    ∃ m, munch? true text.toList = some m ∧ m.length = text.toList.length ∧
      m.lexeme = t.lexeme := by
  rw [lex, show Position.start = .behind [] from rfl, lexFrom_eq, Position.advance_behind] at h
  have hsplit := List.take_append_drop (triviaLength text.toList) text.toList
  have hlength := congrArg List.length hsplit
  rw [List.length_append] at hlength
  generalize text.toList.take (triviaLength text.toList) = gap at *
  generalize text.toList.drop (triviaLength text.toList) = body at *
  cases body with
  | nil => cases h
  | cons c rest =>
    rw [List.length_cons] at hlength
    cases hm : munch? true (c :: rest) with
    | none =>
      -- Behind a character that begins no token there is not enough left
      have hmem : t ∈ (lexFrom true (.behind ([] ++ gap ++ [c])) rest).tokens := by
        rw [Position.behind_concat]
        simp only [lexBody, hm] at h
        rw [show (lexFrom true _ rest).tokens = [t] from h]
        exact List.mem_singleton_self t
      have hle := length_image_le hmem
      rw [himage] at hle
      omega
    | some m =>
      simp only [lexBody, hm] at h
      obtain ⟨rfl, -⟩ := List.cons.inj h
      have hle := length_munch?_le hm
      have htake : ((c :: rest).take m.length).length = text.toList.length := by
        rw [← himage, String.toList_ofList]
      rw [List.length_take, List.length_cons] at htake
      rw [List.length_cons] at hle
      have hgap : gap = [] := List.length_eq_zero_iff.1 (by omega)
      rw [hgap, List.nil_append] at hsplit
      exact ⟨m, hsplit ▸ hm, by omega, rfl⟩

/-! ## Words -/

/-- Only what is tried as a word is recognised as one. -/
theorem word?_of_munch? {m : Munch} {s : Bool} {cs : List Char} (h : munch? s cs = some m)
    (hlex : m.lexeme = .keyword ∨ m.lexeme = .identifier) :
    flat? s cs = some m ∧ word? cs = some m := by
  rcases munch?_cases h with hraw | ⟨-, hflat⟩
  · obtain ⟨tag, body, heq⟩ := lexeme_of_heredoc? hraw
    simp [heq] at hlex
  refine ⟨hflat, ?_⟩
  rcases flat?_kinds hflat with h | h | h | h | h | h
  · obtain ⟨v, heq⟩ := lexeme_of_string? h
    simp [heq] at hlex
  · simp [lexeme_of_color? h] at hlex
  · have hnumeral := isNumeral_of_number? h
    rcases hlex with heq | heq
    · rw [heq] at hnumeral
      exact hnumeral.elim
    · rw [heq] at hnumeral
      exact hnumeral.elim
  · exact h
  · simp [lexeme_of_operator? h] at hlex
  · simp [lexeme_of_punct? h] at hlex

theorem isWord_of_munch? {m : Munch} {s : Bool} {cs : List Char} (h : munch? s cs = some m)
    (hlen : m.length = cs.length) (hlex : m.lexeme = .identifier) :
    IsWord cs ∧ wordLexeme (String.ofList cs) = .identifier := by
  obtain ⟨hword, heq⟩ := isWord_of_word? (word?_of_munch? h (.inr hlex)).2 hlen
  exact ⟨hword, heq.symm.trans hlex⟩

theorem isIdentifier_of_isWord (h : IsWord text.toList)
    (hlex : wordLexeme text = .identifier) : isIdentifier text = true := by
  unfold isIdentifier
  cases hcs : text.toList with
  | nil => rw [hcs] at h; exact h.elim
  | cons c cs =>
    rw [hcs] at h
    obtain ⟨hc, htail⟩ := h
    unfold wordLexeme at hlex
    split_ifs at hlex with ht hf hn hkey
    simp [hc, htail, ht, hf, hn, hkey]

/-- A text is printed as a word exactly when it is one word that is not reserved. -/
theorem isIdentifier_iff : isIdentifier text = true ↔
    ∃ t, (lex text).tokens = [t] ∧ t.lexeme = .identifier ∧ t.image = text := by
  constructor
  · intro h
    obtain ⟨hword, hlex⟩ := isWord_of_isIdentifier h
    have hmunches := hword.munches_nil
    rw [String.ofList_toList, hlex] at hmunches
    exact ⟨_, hmunches.oneToken.tokens, rfl, rfl⟩
  · rintro ⟨t, htokens, hlex, himage⟩
    obtain ⟨m, hm, hlen, heq⟩ := munch?_of_tokens htokens himage
    obtain ⟨hword, hlexeme⟩ := isWord_of_munch? hm hlen (heq.trans hlex)
    rw [String.ofList_toList] at hlexeme
    exact isIdentifier_of_isWord hword hlexeme

/-! ## Quoted texts and names -/

/-- Whatever text is quoted, the quote is one string that says the text, with nothing wrong.  A
printed name is one token as well, which says the name: a word that is not reserved, if the name is
such a word by itself, and a string otherwise. -/
theorem quotes_and_names_cut_back (text : String) :
    (∃ t, OneToken (quote text) t ∧ t.lexeme = .string text) ∧
      ∃ t, OneToken (printName text) t ∧ t.text = text ∧
        (t.lexeme = .identifier ∨ t.lexeme = .string text) ∧
        (t.lexeme = .identifier ↔
          ∃ u, (lex text).tokens = [u] ∧ u.lexeme = .identifier ∧ u.image = text) := by
  have hquote : ∃ t, OneToken (quote text) t ∧ t.lexeme = .string text :=
    ⟨_, (munches_quote text []).oneToken, rfl⟩
  refine ⟨hquote, ?_⟩
  rw [← isIdentifier_iff]
  cases hword : isIdentifier text with
  | true =>
    obtain ⟨u, htokens, -⟩ := isIdentifier_iff.1 hword
    obtain ⟨hchars, hlex⟩ := isWord_of_isIdentifier hword
    have hmunches := hchars.munches_nil
    rw [String.ofList_toList, hlex] at hmunches
    rw [printName, if_pos hword]
    exact ⟨_, hmunches.oneToken, rfl, .inl rfl, by simp⟩
  | false =>
    obtain ⟨t, ht, hlex⟩ := hquote
    rw [printName, if_neg (by simp [hword])]
    exact ⟨t, ht, by rw [Token.text, hlex], .inr hlex, by simp [hlex]⟩

/-- A name with a quotation mark, a backslash and a line feed in it. -/
example : quote "a\"\\\n" = "\"a\\\"\\\\\\n\"" := by decide

end DiagramTour
