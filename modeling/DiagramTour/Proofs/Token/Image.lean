import DiagramTour.Proofs.Token.Munch

/-!
# The spelling of a token

An *image* is a text that is one token by itself.  A token that was read anywhere has such an
image, and before a fence the image is read as that token again.  Every kind of token is known by
its first character, up to the signs, which begin numbers and operators.
-/

namespace DiagramTour

/-- What is recognised at the head of a text, raw blocks apart. -/
def flat? (signAllowed : Bool) (cs : List Char) : Option Munch :=
  string? cs <|> color? cs <|> number? signAllowed cs <|> word? cs <|> operator? cs <|> punct? cs

/-- The text is one closed token by itself. -/
def Image (im : List Char) (lexeme : Lexeme) : Prop :=
  ∃ m : Munch, flat? true im = some m ∧ m.length = im.length ∧ m.closed = true ∧ m.lexeme = lexeme

/-- What stands at the head of a text is read as one closed token before `rest`. -/
structure Munches (im rest : List Char) (lexeme : Lexeme) : Prop where
  munch : ∃ m : Munch, munch? true (im ++ rest) = some m ∧ m.length = im.length ∧
    m.closed = true ∧ m.lexeme = lexeme
  /-- Neither a blank nor a comment comes first. -/
  trivia : triviaLength (im ++ rest) = 0

/-- What follows, if anything does, begins with a fence, and opens no comment with a slash before
it. -/
def Fenced (rest : List Char) : Prop :=
  ∀ z x, rest = z :: x → IsFence z ∧ z ≠ '/'

variable {s : Bool} {m : Munch} {c z : Char} {cs im rest x w : List Char} {lexeme : Lexeme}

theorem fenced_nil : Fenced [] := by
  rintro _ _ ⟨⟩

theorem IsFence.fenced (hz : IsFence z) (hslash : z ≠ '/') (x : List Char) : Fenced (z :: x) := by
  rintro _ _ ⟨⟩
  exact ⟨hz, hslash⟩

/-! ## Kinds by their first character -/

/-- What several kinds recognise one of them recognises. -/
theorem flat?_kinds (h : flat? s cs = some m) : string? cs = some m ∨ color? cs = some m ∨
    number? s cs = some m ∨ word? cs = some m ∨ operator? cs = some m ∨ punct? cs = some m := by
  have hor {a b : Option Munch} (h : (a <|> b) = some m) : a = some m ∨ b = some m := by
    cases a with
    | none => exact .inr (by simpa using h)
    | some k => exact .inl (by simpa using h)
  exact (hor h).imp_right fun h => (hor h).imp_right fun h => (hor h).imp_right fun h =>
    (hor h).imp_right hor

theorem munch?_eq (s : Bool) (cs : List Char) : munch? s cs = (heredoc? cs <|> flat? s cs) :=
  rfl

/-- What is recognised is a raw block, or a token of another kind where no raw block opens. -/
theorem munch?_cases (h : munch? s cs = some m) :
    heredoc? cs = some m ∨ heredoc? cs = none ∧ flat? s cs = some m := by
  rw [munch?_eq] at h
  cases hraw : heredoc? cs with
  | some k => exact .inl (by simpa [hraw] using h)
  | none => exact .inr ⟨rfl, by simpa [hraw] using h⟩

theorem heredoc?_of_ne (h : c ≠ '<') : heredoc? (c :: cs) = none := by
  unfold heredoc?
  split
  · rename_i heq
    exact absurd (List.cons.inj heq).1 h
  · rfl

theorem munch?_of_ne (h : c ≠ '<') : munch? s (c :: cs) = flat? s (c :: cs) := by
  rw [munch?_eq, heredoc?_of_ne h]
  rfl

theorem string?_of_ne (h1 : c ≠ '\x22') (h2 : c ≠ '\x27') : string? (c :: cs) = none := by
  simp [string?, h1, h2]

theorem color?_of_ne (h : c ≠ '#') : color? (c :: cs) = none := by
  unfold color?
  split
  · rename_i heq
    exact absurd (List.cons.inj heq).1 h
  · rfl

theorem unsigned?_of_not_isDigit {neg : Bool} {k : Nat} (h : c.isDigit = false) :
    unsigned? neg k (c :: cs) = none := by
  simp [unsigned?, h]

theorem number?_of_ne (h : c.isDigit = false) (hm : c ≠ '-') (hp : c ≠ '+') :
    number? s (c :: cs) = none := by
  simp only [number?, hm, hp, if_false]
  exact unsigned?_of_not_isDigit h

theorem number?_of_isDigit (h : c.isDigit = true) :
    number? s (c :: cs) = unsigned? false 0 (c :: cs) := by
  have hm : c ≠ '-' := by
    rintro rfl
    revert h
    decide
  have hp : c ≠ '+' := by
    rintro rfl
    revert h
    decide
  simp [number?, hm, hp]

/-- Where no sign is allowed a number begins with a digit. -/
theorem isDigit_of_number? (h : number? false (c :: cs) = some m) : c.isDigit = true := by
  simp only [number?, Bool.false_eq_true, if_false] at h
  split_ifs at h
  by_contra hd
  rw [unsigned?_of_not_isDigit (by simpa using hd)] at h
  cases h

/-- A first letter makes a word. -/
theorem flat?_letter (h : Text.startsWord c = true) : flat? s (c :: cs) = word? (c :: cs) := by
  have hne (d : Char) (hd : Text.startsWord d = false) : c ≠ d := by
    rintro rfl
    rw [h] at hd
    cases hd
  have hdigit : c.isDigit = false := Bool.eq_false_iff.2 fun hd => by
    rw [Text.startsWord_of_isDigit hd] at h
    cases h
  have hsome : (word? (c :: cs)).isSome = true := by simp [word?, h]
  rw [flat?, string?_of_ne (hne _ (by decide)) (hne _ (by decide)), color?_of_ne (hne _ (by decide)),
    number?_of_ne hdigit (hne _ (by decide)) (hne _ (by decide))]
  cases hw : word? (c :: cs) with
  | none => simp [hw] at hsome
  | some m => rfl

/-- A first digit makes a number. -/
theorem flat?_digit (h : c.isDigit = true) :
    flat? s (c :: cs) = unsigned? false 0 (c :: cs) := by
  have hne (d : Char) (hd : d.isDigit = false) : c ≠ d := by
    rintro rfl
    rw [h] at hd
    cases hd
  rw [flat?, string?_of_ne (hne _ (by decide)) (hne _ (by decide)), color?_of_ne (hne _ (by decide)),
    number?_of_isDigit h]
  cases hu : unsigned? false 0 (c :: cs) with
  | none => simp [unsigned?, h] at hu
  | some m => rfl

theorem flat?_quote (h : c = '\x22' ∨ c = '\x27') : flat? s (c :: cs) = string? (c :: cs) := by
  simp [flat?, string?, h]

theorem flat?_hash : flat? s ('#' :: cs) = color? ('#' :: cs) := by
  have hword : word? ('#' :: cs) = none := by
    rw [word?, if_neg (by decide)]
  have hop : operator? ('#' :: cs) = none := by
    cases cs <;> simp [operator?, isShortOperator, isLongOperator]
  have hpunct : punct? ('#' :: cs) = none := by
    simp [punct?, isPunctuation]
  rw [flat?, string?_of_ne (by decide) (by decide), number?_of_ne (by decide) (by decide) (by decide),
    hword, hop, hpunct]
  cases color? ('#' :: cs) <;> rfl

/-! ## What a kind means -/

theorem lexeme_of_operator? (h : operator? cs = some m) : m.lexeme = .operator := by
  unfold operator? at h
  split at h
  · cases h
  · split at h <;> cases h
    rfl
  · split at h
    · cases h
      rfl
    · split at h <;> cases h
      rfl

theorem lexeme_of_punct? (h : punct? cs = some m) : m.lexeme = .punct := by
  unfold punct? at h
  split at h
  · cases h
  · split at h <;> cases h
    rfl

theorem lexeme_of_heredoc? (h : heredoc? cs = some m) : ∃ tag body, m.lexeme = .heredoc tag body := by
  unfold heredoc? at h
  split at h
  · unfold heredocTail? at h
    split at h
    · cases h
    · split at h
      · simp only at h
        split at h
        · cases h
        · split at h
          · obtain ⟨lines, -, rfl⟩ := Option.map_eq_some_iff.1 h
            exact ⟨_, _, rfl⟩
          · cases h
      · cases h
  · cases h

/-- A character that is no letter and opens no quote and no colour begins a number or a mark: an
operator or a punctuation mark. -/
theorem flat?_mark (h1 : c ≠ '\x22') (h2 : c ≠ '\x27') (h3 : c ≠ '#')
    (hl : Text.startsWord c = false) (h : flat? s (c :: cs) = some m) :
    number? s (c :: cs) = some m ∨ m.lexeme = .operator ∨ m.lexeme = .punct := by
  have hword : word? (c :: cs) = none := by simp [word?, hl]
  rcases flat?_kinds h with h | h | h | h | h | h
  · rw [string?_of_ne h1 h2] at h
    cases h
  · rw [color?_of_ne h3] at h
    cases h
  · exact .inl h
  · rw [hword] at h
    cases h
  · exact .inr (.inl (lexeme_of_operator? h))
  · exact .inr (.inr (lexeme_of_punct? h))

/-! ## Taking away and putting there -/

theorem ne_nil_of_length_eq (m : Munch) (h : m.length = im.length) : im ≠ [] := by
  rintro rfl
  have := m.length_pos
  simp only [List.length_nil] at h
  omega

theorem string?_append (h : string? im = some m) (hclosed : m.closed = true) (w : List Char) :
    string? (im ++ w) = some m := by
  cases im with
  | nil => cases h
  | cons c r =>
    simp only [List.cons_append, string?] at h ⊢
    split at h
    · rename_i hc
      cases h
      have hbody : quotedBody c r = ((quotedBody c r).1, (quotedBody c r).2.1, true) :=
        Prod.ext rfl (Prod.ext rfl hclosed)
      rw [if_pos hc, quotedBody_append hbody, ← hbody]
    · cases h

theorem string?_of_append (hr : im ≠ []) (h : string? (im ++ w) = some m)
    (hn : m.closed = true ∧ m.length ≤ im.length ∨ m.length = im.length) :
    string? im = some m := by
  cases im with
  | nil => exact absurd rfl hr
  | cons c r =>
    simp only [List.cons_append, string?] at h ⊢
    split at h
    · rename_i hc
      cases h
      rw [if_pos hc, quotedBody_of_append (r := r) (w := w) (v := (quotedBody c (r ++ w)).1)
        (n := (quotedBody c (r ++ w)).2.1) (b := (quotedBody c (r ++ w)).2.2) rfl]
      simpa using hn
    · cases h

theorem color?_of_append (h : color? (im ++ w) = some m) (hlen : m.length = im.length) :
    color? im = some m := by
  cases im with
  | nil => exact absurd rfl (ne_nil_of_length_eq m hlen)
  | cons c r =>
    by_cases hc : c = '#'
    · subst hc
      simp only [List.cons_append, color?, Option.map_eq_some_iff] at h ⊢
      obtain ⟨n, hn, rfl⟩ := h
      exact ⟨n, colorDigits?_of_append hn (by simpa using hlen), rfl⟩
    · rw [List.cons_append, color?_of_ne hc] at h
      cases h

/-- Quotes apart, nothing goes on beyond a fence. -/
theorem flat?_before_fence (hz : IsFence z) (h : ¬(c = '\x22' ∨ c = '\x27')) (cs x : List Char) :
    flat? s (c :: cs ++ z :: x) = flat? s (c :: cs) := by
  have hne : c :: cs ≠ [] := by simp
  have hstring (r : List Char) : string? (c :: r) = none := by
    rw [not_or] at h
    exact string?_of_ne h.1 h.2
  unfold flat?
  rw [color?_fence hz hne, number?_fence hz hne, word?_append hz.1 hz.ne.1 hne,
    operator?_fence hz hne, punct?_append hne, List.cons_append, hstring, hstring]

/-- What is recognised at the head of a text is recognised there before a fence as well. -/
theorem flat?_fence (hz : IsFence z) (h : flat? s im = some m) (hclosed : m.closed = true)
    (x : List Char) : flat? s (im ++ z :: x) = some m := by
  cases im with
  | nil => cases h
  | cons c r =>
    by_cases hquote : c = '\x22' ∨ c = '\x27'
    · rw [flat?_quote hquote] at h
      rw [List.cons_append, flat?_quote hquote]
      exact string?_append h hclosed _
    · rwa [flat?_before_fence hz hquote]

/-- What is recognised at the head of a text before a fence is recognised without what follows. -/
theorem flat?_of_fence (hz : IsFence z) (hne : im ≠ []) (h : flat? s (im ++ z :: x) = some m)
    (hclosed : m.closed = true) (hlen : m.length ≤ im.length) : flat? s im = some m := by
  cases im with
  | nil => exact absurd rfl hne
  | cons c r =>
    by_cases hquote : c = '\x22' ∨ c = '\x27'
    · rw [List.cons_append, flat?_quote hquote] at h
      rw [flat?_quote hquote]
      exact string?_of_append hne h (.inl ⟨hclosed, hlen⟩)
    · rwa [flat?_before_fence hz hquote] at h

/-- A token that was read, raw blocks and marks apart, is an image. -/
theorem Image.of_munch? (h : munch? s (im ++ w) = some m) (hlen : m.length = im.length)
    (hclosed : m.closed = true) (hop : m.lexeme ≠ .operator) (hpunct : m.lexeme ≠ .punct)
    (hraw : ∀ tag body, m.lexeme ≠ .heredoc tag body) : Image im m.lexeme := by
  refine ⟨m, ?_, hlen, hclosed, rfl⟩
  have hflat : flat? s (im ++ w) = some m := by
    rcases munch?_cases h with hh | ⟨-, hflat⟩
    · obtain ⟨tag, body, heq⟩ := lexeme_of_heredoc? hh
      exact absurd heq (hraw tag body)
    · exact hflat
  cases im with
  | nil => exact absurd rfl (ne_nil_of_length_eq m hlen)
  | cons c r =>
    rw [List.cons_append] at hflat
    by_cases hquote : c = '\x22' ∨ c = '\x27'
    · rw [flat?_quote hquote] at hflat ⊢
      exact string?_of_append (by simp) hflat (.inr hlen)
    by_cases hhash : c = '#'
    · subst hhash
      rw [flat?_hash] at hflat ⊢
      exact color?_of_append hflat hlen
    cases hd : c.isDigit with
    | true =>
      rw [flat?_digit hd] at hflat ⊢
      exact unsigned?_of_append hflat (by omega)
    | false =>
      cases hl : Text.startsWord c with
      | true =>
        rw [flat?_letter hl] at hflat ⊢
        exact word?_of_append hflat hlen
      | false =>
        -- Of the marks only the signs are left
        simp only [not_or] at hquote
        rcases flat?_mark hquote.1 hquote.2 hhash hl hflat with hn | ho | hp
        · have hn' := number?_of_append hn hlen
          have hs : s = true := by
            by_contra hs
            rw [Bool.not_eq_true] at hs
            rw [hs] at hn'
            rw [isDigit_of_number? hn'] at hd
            cases hd
          subst hs
          rw [flat?, string?_of_ne hquote.1 hquote.2, color?_of_ne hhash, hn']
          rfl
        · exact absurd ho hop
        · exact absurd hp hpunct

/-! ## An image in front of a fence -/

theorem flat?_of_isBlank (h : Text.isBlank c = true) : flat? s (c :: cs) = none := by
  have hcont := Text.continuesWord_of_isBlank h
  have hne (d : Char) (hd : Text.isBlank d = false) : c ≠ d := by
    rintro rfl
    rw [h] at hd
    cases hd
  have hdigit : c.isDigit = false := Bool.eq_false_iff.2 fun hd => by
    rw [Text.continuesWord_of_isDigit hd] at hcont
    cases hcont
  have hletter : Text.startsWord c = false := Bool.eq_false_iff.2 fun hl => by
    rw [Text.continuesWord_of_startsWord c hl] at hcont
    cases hcont
  have hshort : isShortOperator c = false := by
    refine Bool.eq_false_iff.2 fun hp => ?_
    simp only [isShortOperator, List.contains_eq_mem, List.mem_cons, List.not_mem_nil, or_false,
      decide_eq_true_eq] at hp
    rcases hp with rfl | rfl | rfl | rfl | rfl | rfl | rfl | rfl | rfl <;> revert h <;> decide
  have hlong (d : Char) : isLongOperator c d = false := by
    refine Bool.eq_false_iff.2 fun hp => ?_
    simp only [isLongOperator, List.contains_eq_mem, List.mem_cons, List.not_mem_nil, or_false,
      decide_eq_true_eq, Prod.mk.injEq] at hp
    rcases hp with ⟨rfl, -⟩ | ⟨rfl, -⟩ | ⟨rfl, -⟩ | ⟨rfl, -⟩ | ⟨rfl, -⟩ | ⟨rfl, -⟩ | ⟨rfl, -⟩ <;>
      revert h <;> decide
  have hop : operator? (c :: cs) = none := by
    cases cs <;> simp [operator?, hshort, hlong]
  have hmark : isPunctuation c = false := by
    refine Bool.eq_false_iff.2 fun hp => ?_
    simp only [isPunctuation, List.contains_eq_mem, List.mem_cons, List.not_mem_nil, or_false,
      decide_eq_true_eq] at hp
    rcases hp with rfl | rfl | rfl | rfl | rfl | rfl | rfl | rfl | rfl | rfl | rfl <;>
      revert h <;> decide
  rw [flat?, string?_of_ne (hne _ (by decide)) (hne _ (by decide)), color?_of_ne (hne _ (by decide)),
    number?_of_ne hdigit (hne _ (by decide)) (hne _ (by decide)), hop]
  simp [word?, hletter, punct?, hmark]

theorem isBlank_of_flat? (h : flat? s (c :: cs) = some m) : Text.isBlank c = false :=
  Bool.eq_false_iff.2 fun hb => by
    rw [flat?_of_isBlank hb] at h
    cases h

theorem isBlank_of_munch? (h : munch? s (c :: cs) = some m) : Text.isBlank c = false := by
  by_cases hc : c = '<'
  · subst hc
    decide
  · rw [munch?_of_ne hc] at h
    exact isBlank_of_flat? h

theorem triviaLength_eq_zero (hb : Text.isBlank c = false) (hc : opensComment (c :: cs) = false) :
    triviaLength (c :: cs) = 0 := by
  simp [triviaLength, hb, hc]

theorem opensComment_of_ne (h1 : c ≠ '/') (h2 : c ≠ '#') : opensComment (c :: cs) = false := by
  unfold opensComment
  split
  · rename_i heq
    exact absurd (List.cons.inj heq).1 h1
  · rename_i heq
    exact absurd (List.cons.inj heq).1 h2
  · rfl

/-- An angle bracket begins an operator of one character or two. -/
theorem eq_of_flat?_angle (h : flat? s ('<' :: cs) = some m) (hlen : m.length = cs.length + 1) :
    cs = [] ∨ cs = ['='] := by
  have hword : word? ('<' :: cs) = none := by
    rw [word?, if_neg (by decide)]
  rw [flat?, string?_of_ne (by decide) (by decide), color?_of_ne (by decide),
    number?_of_ne (by decide) (by decide) (by decide), hword] at h
  cases cs with
  | nil => exact .inl rfl
  | cons d cs =>
    refine .inr ?_
    by_cases hd : d = '='
    · subst hd
      have : m.length = 2 := by
        have : operator? ('<' :: '=' :: cs) =
            some { lexeme := .operator, length := 2, length_pos := Nat.two_pos } := rfl
        rw [this] at h
        rw [← Option.some.inj h]
      have : cs = [] := List.length_eq_zero_iff.1 (by simp only [List.length_cons] at hlen; omega)
      rw [this]
    · have hlong : isLongOperator '<' d = false := by simp [isLongOperator, hd]
      have : m.length = 1 := by
        have : operator? ('<' :: d :: cs) =
            some { lexeme := .operator, length := 1, length_pos := Nat.one_pos } := by
          simp [operator?, hlong, isShortOperator]
        rw [this] at h
        rw [← Option.some.inj h]
      simp only [List.length_cons] at hlen
      omega

theorem eq_nil_of_flat?_slash (h : flat? s ('/' :: cs) = some m) (hlen : m.length = cs.length + 1) :
    cs = [] := by
  have hword : word? ('/' :: cs) = none := by
    rw [word?, if_neg (by decide)]
  have hop : operator? ('/' :: cs) =
      some { lexeme := .operator, length := 1, length_pos := Nat.one_pos } := by
    cases cs <;> simp [operator?, isLongOperator, isShortOperator]
  rw [flat?, string?_of_ne (by decide) (by decide), color?_of_ne (by decide),
    number?_of_ne (by decide) (by decide) (by decide), hword, hop] at h
  have hone : m.length = 1 := by rw [← Option.some.inj h]
  exact List.length_eq_zero_iff.1 (by omega)

/-- An image is read as its token in front of a fence. -/
theorem Image.munches (h : Image im lexeme) (hrest : Fenced rest) : Munches im rest lexeme := by
  obtain ⟨m, hm, hlen, hclosed, hlex⟩ := h
  cases im with
  | nil => exact absurd rfl (ne_nil_of_length_eq m hlen)
  | cons c r =>
    have hflat : flat? true (c :: (r ++ rest)) = some m := by
      cases rest with
      | nil => rwa [List.append_nil]
      | cons z x => exact flat?_fence (hrest z x rfl).1 hm hclosed x
    refine ⟨⟨m, ?_, hlen, hclosed, hlex⟩, triviaLength_eq_zero (isBlank_of_flat? hm) ?_⟩
    · rw [List.cons_append]
      by_cases hc : c = '<'
      · subst hc
        -- Two brackets at most stand before the fence, so no raw block opens
        have hraw : heredoc? ('<' :: (r ++ rest)) = none := by
          rcases eq_of_flat?_angle hm hlen with rfl | rfl
          · cases rest with
            | nil => rfl
            | cons z x => simp [heredoc?, (hrest z x rfl).1.ne]
          · simp [heredoc?]
        rw [munch?_eq, hraw, hflat]
        rfl
      · rw [munch?_of_ne hc, hflat]
    · by_cases hs : c = '/'
      · subst hs
        rw [eq_nil_of_flat?_slash hm hlen]
        cases rest with
        | nil => rfl
        | cons z x => simp [opensComment, (hrest z x rfl).2]
      by_cases hh : c = '#'
      · subst hh
        rw [flat?_hash] at hm
        obtain ⟨n, hn, -⟩ := Option.map_eq_some_iff.1 (by simpa only [color?] using hm)
        cases rest with
        | nil => simp [opensComment, hn]
        | cons z x => simp [opensComment, colorDigits?_fence (hrest z x rfl).1, hn]
      · exact opensComment_of_ne hs hh

/-! ## Words -/

/-- The text is a word, reserved or not. -/
def IsWord : List Char → Prop
  | [] => False
  | c :: cs => Text.startsWord c = true ∧ wordTail cs = cs.length

instance : DecidablePred IsWord
  | [] => inferInstanceAs (Decidable False)
  | _ :: _ => inferInstanceAs (Decidable (_ ∧ _))

theorem IsWord.word? (h : IsWord w) :
    ∃ m, word? w = some m ∧ m.length = w.length ∧ m.closed = true ∧
      m.lexeme = wordLexeme (String.ofList w) := by
  cases w with
  | nil => exact h.elim
  | cons c cs =>
    refine ⟨{ lexeme := wordLexeme (String.ofList (c :: cs)), length := cs.length + 1,
              length_pos := Nat.succ_pos _ }, ?_, ?_, rfl, rfl⟩
    · simp [DiagramTour.word?, h.1, h.2]
    · rfl

/-- A word is read as such before anything but a hyphen and what continues a word. -/
theorem IsWord.munches (h : IsWord w) (hz : Text.continuesWord z = false) (hm : z ≠ '-')
    (x : List Char) : Munches w (z :: x) (wordLexeme (String.ofList w)) := by
  obtain ⟨m, hword, hlen, hclosed, hlex⟩ := h.word?
  cases w with
  | nil => exact h.elim
  | cons c cs =>
    have hne (d : Char) (hd : Text.startsWord d = false) : c ≠ d := by
      rintro rfl
      rw [h.1] at hd
      cases hd
    have hmunch : munch? true (c :: cs ++ z :: x) = some m := by
      have := word?_append hz hm (r := c :: cs) (by simp) x
      rw [List.cons_append] at this ⊢
      rw [munch?_of_ne (hne _ (by decide)), flat?_letter h.1, this, hword]
    refine ⟨⟨m, hmunch, hlen, hclosed, hlex⟩, ?_⟩
    exact triviaLength_eq_zero (isBlank_of_munch? (by rwa [List.cons_append] at hmunch))
      (opensComment_of_ne (hne _ (by decide)) (hne _ (by decide)))

/-- A word at the end of the text. -/
theorem IsWord.munches_nil (h : IsWord w) : Munches w [] (wordLexeme (String.ofList w)) := by
  obtain ⟨m, hword, hlen, hclosed, hlex⟩ := h.word?
  cases w with
  | nil => exact h.elim
  | cons c cs =>
    have himage : Image (c :: cs) m.lexeme :=
      ⟨m, (flat?_letter h.1).trans hword, hlen, hclosed, rfl⟩
    exact hlex ▸ himage.munches fenced_nil

theorem IsWord.munches_fenced (h : IsWord w) (hrest : Fenced rest) :
    Munches w rest (wordLexeme (String.ofList w)) := by
  cases rest with
  | nil => exact h.munches_nil
  | cons z x =>
    obtain ⟨hz, -⟩ := hrest z x rfl
    exact h.munches hz.1 hz.ne.1 x

theorem isWord_of_word? (h : word? im = some m) (hlen : m.length = im.length) :
    IsWord im ∧ m.lexeme = wordLexeme (String.ofList im) := by
  cases im with
  | nil => cases h
  | cons c cs =>
    simp only [word?] at h
    split at h
    · rename_i hc
      cases h
      have hn : wordTail cs = cs.length := by simpa using hlen
      exact ⟨⟨hc, hn⟩, by simp [hn]⟩
    · cases h

/-! ## What an image can mean -/

/-- The meaning of a number, with or without a unit. -/
def Lexeme.IsNumeral : Lexeme → Prop
  | .number _ | .int _ | .duration _ | .percent _ => True
  | _ => False

theorem lexeme_of_string? (h : string? cs = some m) : ∃ v, m.lexeme = .string v := by
  unfold string? at h
  split at h
  · cases h
  · split at h <;> cases h
    exact ⟨_, rfl⟩

theorem lexeme_of_color? (h : color? cs = some m) : m.lexeme = .color := by
  unfold color? at h
  split at h
  · obtain ⟨n, -, rfl⟩ := Option.map_eq_some_iff.1 h
    rfl
  · cases h

theorem isNumeral_of_unsigned? {neg : Bool} {k : Nat} (h : unsigned? neg k cs = some m) :
    m.lexeme.IsNumeral := by
  unfold unsigned? at h
  by_cases hw : (cs.takeWhile Char.isDigit).isEmpty = true
  · simp [hw] at h
  · have hpos : 0 < (cs.takeWhile Char.isDigit).length :=
      List.length_pos_iff.2 fun h0 => hw (by simp [h0])
    simp only [hw, hpos, dite_true, Bool.false_eq_true, if_false, Option.some.injEq] at h
    subst h
    simp only
    split
    · trivial
    · trivial
    · trivial
    · trivial
    · split <;> trivial

theorem isNumeral_of_number? (h : number? s cs = some m) : m.lexeme.IsNumeral := by
  unfold number? at h
  split at h
  · cases h
  · split_ifs at h
    · exact isNumeral_of_unsigned? h
    · exact isNumeral_of_unsigned? h
    · exact isNumeral_of_unsigned? h

theorem lexeme_of_word? (h : word? cs = some m) : ∃ w, m.lexeme = wordLexeme w := by
  unfold word? at h
  split at h
  · cases h
  · split at h <;> cases h
    exact ⟨_, rfl⟩

/-- What a token that is no raw block can mean. -/
theorem lexeme_of_flat? (h : flat? s cs = some m) :
    (∃ v, m.lexeme = .string v) ∨ m.lexeme = .color ∨
      (m.lexeme.IsNumeral ∧ number? s cs = some m) ∨ (∃ w, m.lexeme = wordLexeme w) ∨
      m.lexeme = .operator ∨ m.lexeme = .punct := by
  rcases flat?_kinds h with h | h | h | h | h | h
  · exact .inl (lexeme_of_string? h)
  · exact .inr (.inl (lexeme_of_color? h))
  · exact .inr (.inr (.inl ⟨isNumeral_of_number? h, h⟩))
  · exact .inr (.inr (.inr (.inl (lexeme_of_word? h))))
  · exact .inr (.inr (.inr (.inr (.inl (lexeme_of_operator? h)))))
  · exact .inr (.inr (.inr (.inr (.inr (lexeme_of_punct? h)))))

/-- The kinds of image. -/
theorem Image.kind (h : Image im lexeme) :
    (∃ v, lexeme = .string v) ∨ lexeme = .color ∨
      (lexeme.IsNumeral ∧ ∃ m, number? true im = some m ∧ m.length = im.length ∧ m.lexeme = lexeme) ∨
      (IsWord im ∧ lexeme = wordLexeme (String.ofList im)) ∨ lexeme = .operator ∨
      lexeme = .punct := by
  obtain ⟨m, hm, hlen, -, rfl⟩ := h
  rcases flat?_kinds hm with h | h | h | h | h | h
  · exact .inl (lexeme_of_string? h)
  · exact .inr (.inl (lexeme_of_color? h))
  · exact .inr (.inr (.inl ⟨isNumeral_of_number? h, m, h, hlen, rfl⟩))
  · exact .inr (.inr (.inr (.inl (isWord_of_word? h hlen))))
  · exact .inr (.inr (.inr (.inr (.inl (lexeme_of_operator? h)))))
  · exact .inr (.inr (.inr (.inr (.inr (lexeme_of_punct? h)))))

theorem not_isNumeral_wordLexeme (w : String) : ¬(wordLexeme w).IsNumeral := by
  unfold wordLexeme
  split_ifs <;> exact id

theorem Image.isWord (h : Image im lexeme) (hlex : lexeme = .keyword ∨ lexeme = .identifier) :
    IsWord im ∧ lexeme = wordLexeme (String.ofList im) := by
  rcases h.kind with ⟨v, rfl⟩ | rfl | ⟨hn, -⟩ | hw | rfl | rfl
  · simp at hlex
  · simp at hlex
  · rcases hlex with rfl | rfl <;> exact hn.elim
  · exact hw
  · simp at hlex
  · simp at hlex

theorem Image.numeral (h : Image im lexeme) (hn : lexeme.IsNumeral) :
    ∃ m, number? true im = some m ∧ m.length = im.length ∧ m.lexeme = lexeme := by
  rcases h.kind with ⟨v, rfl⟩ | rfl | ⟨-, hm⟩ | ⟨-, rfl⟩ | rfl | rfl
  · exact hn.elim
  · exact hn.elim
  · exact hm
  · exact absurd hn (not_isNumeral_wordLexeme _)
  · exact hn.elim
  · exact hn.elim

/-! ## Marks -/

theorem munches_punct (h : isPunctuation c = true) (rest : List Char) :
    Munches [c] rest .punct := by
  simp only [isPunctuation, List.contains_eq_mem, List.mem_cons, List.not_mem_nil, or_false,
    decide_eq_true_eq] at h
  let m : Munch := { lexeme := .punct, length := 1, length_pos := Nat.one_pos }
  have hp : punct? (c :: rest) = some m := by
    rcases h with rfl | rfl | rfl | rfl | rfl | rfl | rfl | rfl | rfl | rfl | rfl <;> rfl
  refine ⟨⟨m, ?_, rfl, rfl, rfl⟩, ?_⟩
  · rcases h with rfl | rfl | rfl | rfl | rfl | rfl | rfl | rfl | rfl | rfl | rfl <;>
      cases rest <;> rfl
  · rcases h with rfl | rfl | rfl | rfl | rfl | rfl | rfl | rfl | rfl | rfl | rfl <;> rfl

end DiagramTour
