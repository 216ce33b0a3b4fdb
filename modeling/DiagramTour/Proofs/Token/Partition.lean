import DiagramTour.Proofs.Token.Cut

/-!
# How a text falls into pieces

Cutting a text into pieces loses nothing of it and takes nothing twice: the pieces stand in order
and apart, each of them is the part of the text between its two places, and what stands between two
pieces is white space and comments.

## Architecture

- `Position.behind` counts a place from the text before it alone.
- `Gap` says what blanks and comments are: a comment goes on to the end of its line.
- `Cut` is the shape of a text that was cut: a gap, a piece, and again, up to a last gap.
- `lex_partitions` says what this means for the tokens and the diagnostics of a text.
-/

namespace DiagramTour

/-! ## Places by the text before them -/

theorem utf8Length_pos (h : part ≠ []) : 0 < utf8Length part := by
  cases part with
  | nil => exact absurd rfl h
  | cons c cs =>
    have := c.utf8Size_pos
    rw [utf8Length_cons]
    omega

theorem utf8Length_le_of_prefix {as bs : List Char} (h : as <+: bs) :
    utf8Length as ≤ utf8Length bs := by
  obtain ⟨cs, rfl⟩ := h
  rw [utf8Length_append]
  omega

namespace Position

/-- The place behind a text: line feeds begin lines, and columns count characters since the last
one. -/
def behind (before : List Char) : Position where
  offset := utf8Length before
  line := 1 + before.count '\n'
  column := 1 + (before.reverse.takeWhile (· != '\n')).length

theorem behind_concat (cs : List Char) (c : Char) : behind (cs ++ [c]) = (behind cs).next c := by
  by_cases hc : c = '\n'
  · simp [behind, next, hc, utf8Length_append, Nat.add_assoc]
  · simp [behind, next, hc, utf8Length_append, Nat.add_comm]

/-- Moving on over characters leads to the place behind them. -/
theorem advance_behind (before cs : List Char) :
    (behind before).advance cs = behind (before ++ cs) := by
  induction cs generalizing before with
  | nil => simp
  | cons c cs ih =>
    rw [advance_cons, ← behind_concat, ih]
    simp

/-- A place of a text: that of a character, or that of the end. -/
def IsIn (p : Position) (source : List Char) : Prop :=
  ∃ before, before <+: source ∧ p = behind before

end Position

/-- A line ends here: with a line feed, or with the text. -/
def AtLineEnd (after : List Char) : Prop :=
  after = [] ∨ ∃ rest, after = '\n' :: rest

namespace Span

/-- The span covers this part of the text. -/
def Covers (s : Span) (source part : List Char) : Prop :=
  ∃ before after, source = before ++ (part ++ after) ∧
    s = ⟨.behind before, .behind (before ++ part)⟩

/-- One of the spans ends before the other one starts. -/
def Apart (s t : Span) : Prop :=
  s.stop.offset ≤ t.start.offset ∨ t.stop.offset ≤ s.start.offset

/-- The character at an offset lies in the span. -/
def Holds (s : Span) (offset : Nat) : Prop :=
  s.start.offset ≤ offset ∧ offset < s.stop.offset

/-- The span covers a comment: from two slashes or a number sign up to the end of the line. -/
def CoversComment (s : Span) (source : List Char) : Prop :=
  ∃ before comment after, source = before ++ (comment ++ after) ∧
    s = ⟨.behind before, .behind (before ++ comment)⟩ ∧
    (['/', '/'] <+: comment ∨ ['#'] <+: comment) ∧ '\n' ∉ comment ∧ AtLineEnd after

theorem Covers.slice {s : Span} {source part : List Char} (h : s.Covers source part) :
    part = DiagramTour.slice source s.start.offset s.stop.offset := by
  obtain ⟨before, after, rfl, rfl⟩ := h
  simp only [Position.behind, utf8Length_append]
  exact (slice_append before part after).symm

theorem Covers.isIn {s : Span} {source part : List Char} (h : s.Covers source part) :
    s.start.IsIn source ∧ s.stop.IsIn source := by
  obtain ⟨before, after, rfl, rfl⟩ := h
  exact ⟨⟨before, List.prefix_append .., rfl⟩, ⟨before ++ part, by simp, rfl⟩⟩

theorem CoversComment.stop_le {s : Span} {source : List Char} (h : s.CoversComment source) :
    s.stop.offset ≤ utf8Length source := by
  obtain ⟨before, comment, after, rfl, rfl, -⟩ := h
  simp only [Position.behind, utf8Length_append]
  omega

end Span

/-! ## Blanks and comments -/

/-- A run of blanks and comments before some text; each comment goes on to the end of its line. -/
inductive Gap : List Char → List Char → Prop where
  | nil {rest : List Char} : Gap [] rest
  | blank {c : Char} {gap rest : List Char} :
      Text.isBlank c = true → Gap gap rest → Gap (c :: gap) rest
  | comment {line gap rest : List Char} :
      (['/', '/'] <+: line ∨ ['#'] <+: line) → '\n' ∉ line → AtLineEnd (gap ++ rest) →
      Gap gap rest → Gap (line ++ gap) rest

variable {s : Bool} {c : Char} {cs before gap rest part left : List Char} {x : Piece}
  {xs : List Piece}

/-- A comment is the rest of its line; what follows is read as if no comment had been there. -/
theorem commentLength_eq (cs : List Char) : commentLength cs =
    (cs.takeWhile (· != '\n')).length + triviaLength (cs.dropWhile (· != '\n')) := by
  induction cs with
  | nil => rfl
  | cons c cs ih =>
    rw [commentLength_cons]
    by_cases hc : c = '\n'
    · subst hc
      simp [triviaLength_of_isBlank (c := '\n') (by decide)]
    · simp only [hc, if_false, ih, List.takeWhile_cons, List.dropWhile_cons, bne_iff_ne, ne_eq,
        not_false_eq_true, if_true, List.length_cons]
      omega

theorem opens_of_opensComment (h : opensComment (c :: cs) = true) :
    ['/', '/'] <+: (c :: cs).takeWhile (· != '\n') ∨ ['#'] <+: (c :: cs).takeWhile (· != '\n') := by
  unfold opensComment at h
  split at h
  · rename_i ds heq
    rw [heq]
    exact .inl ⟨ds.takeWhile (· != '\n'), rfl⟩
  · rename_i ds heq
    rw [heq]
    exact .inr ⟨ds.takeWhile (· != '\n'), rfl⟩
  · cases h

/-- What is skipped before a piece is a gap. -/
theorem gap_trivia (cs : List Char) :
    Gap (cs.take (triviaLength cs)) (cs.drop (triviaLength cs)) := by
  induction hn : cs.length using Nat.strongRecOn generalizing cs with
  | _ n ih =>
    cases cs with
    | nil => exact .nil
    | cons c cs =>
      rw [List.length_cons] at hn
      rw [triviaLength_cons]
      split_ifs with hblank hopens
      · exact .blank hblank (ih cs.length (by omega) cs rfl)
      · have hc : c ≠ '\n' := by
          rintro rfl
          exact hblank (by decide)
        have hline := opens_of_opensComment hopens
        have hlength : commentLength cs + 1 = ((c :: cs).takeWhile (· != '\n')).length +
            triviaLength ((c :: cs).dropWhile (· != '\n')) := by
          rw [commentLength_eq]
          simp [hc, Nat.add_right_comm]
        have hsplit := List.takeWhile_append_dropWhile (p := (· != '\n')) (l := c :: cs)
        have hshort : ((c :: cs).dropWhile (· != '\n')).length < n := by
          have := List.length_dropWhile_le (· != '\n') cs
          simp only [List.dropWhile_cons, bne_iff_ne, ne_eq, hc, not_false_eq_true, if_true]
          omega
        have hends := dropWhile_line (c :: cs)
        have hnl := not_mem_takeWhile_line (c :: cs)
        have hgap := ih _ hshort ((c :: cs).dropWhile (· != '\n')) rfl
        rw [hlength]
        generalize (c :: cs).dropWhile (· != '\n') = after at *
        generalize (c :: cs).takeWhile (· != '\n') = line at *
        rw [← hsplit, List.take_length_add_append, List.drop_length_add_append]
        exact .comment hline hnl (by rwa [List.take_append_drop]) hgap
      · exact .nil

/-- A character of two runs lies in the second one or in the first one. -/
theorem append_cons_cases {α : Type} {xs ys as bs : List α} {c : α}
    (h : xs ++ ys = as ++ c :: bs) :
    (∃ zs, as = xs ++ zs ∧ ys = zs ++ c :: bs) ∨ ∃ zs, xs = as ++ c :: zs := by
  rcases List.append_eq_append_iff.1 h with ⟨zs, has, hys⟩ | ⟨zs, hxs, hcons⟩
  · exact .inl ⟨zs, has, hys⟩
  · cases zs with
    | nil => exact .inl ⟨[], by simpa using hxs.symm, by simpa using hcons.symm⟩
    | cons d zs => exact .inr ⟨zs, by rw [hxs, (List.cons.inj hcons).1]⟩

/-- A character of a gap is a blank or lies in a comment of the gap. -/
theorem Gap.mem (h : Gap gap rest) {as bs : List Char} (hc : gap = as ++ c :: bs) :
    Text.isBlank c = true ∨ ∃ pre comment post, gap = pre ++ (comment ++ post) ∧
      (['/', '/'] <+: comment ∨ ['#'] <+: comment) ∧ '\n' ∉ comment ∧ AtLineEnd (post ++ rest) ∧
      pre <+: as ∧ as ++ [c] <+: pre ++ comment := by
  induction h generalizing as with
  | nil => simp at hc
  | @blank b gap rest hb _ ih =>
    cases as with
    | nil =>
      obtain ⟨rfl, -⟩ := List.cons.inj hc
      exact .inl hb
    | cons a as =>
      obtain ⟨rfl, htail⟩ := List.cons.inj hc
      refine (ih htail).imp_right ?_
      rintro ⟨pre, comment, post, rfl, hopens, hline, hends, hpre, hin⟩
      exact ⟨b :: pre, comment, post, rfl, hopens, hline, hends, by simpa using hpre,
        by simpa using hin⟩
  | @comment line gap rest hopens hline hends _ ih =>
    rcases append_cons_cases hc with ⟨as', rfl, htail⟩ | ⟨line', hmem⟩
    · refine (ih htail).imp_right ?_
      rintro ⟨pre, comment, post, rfl, hopens, hline, hends, hpre, hin⟩
      exact ⟨line ++ pre, comment, post, by simp, hopens, hline, hends, by simpa using hpre,
        by simpa using hin⟩
    · exact .inr ⟨[], line, gap, rfl, hopens, hline, hends, List.nil_prefix, by simp [hmem]⟩

/-- The same of a gap that stands behind `before`. -/
theorem Gap.mem_span (h : Gap gap rest) (before : List Char) {as bs : List Char}
    (hc : gap = as ++ c :: bs) :
    Text.isBlank c = true ∨ ∃ span : Span, span.CoversComment (before ++ (gap ++ rest)) ∧
      span.Holds (utf8Length (before ++ as)) ∧ utf8Length before ≤ span.start.offset ∧
      span.stop.offset ≤ utf8Length (before ++ gap) := by
  refine (h.mem hc).imp_right ?_
  rintro ⟨pre, comment, post, rfl, hopens, hline, hends, hpre, hin⟩
  refine ⟨⟨.behind (before ++ pre), .behind (before ++ pre ++ comment)⟩,
    ⟨before ++ pre, comment, post ++ rest, by simp, rfl, hopens, hline, hends⟩, ⟨?_, ?_⟩, ?_, ?_⟩
  · exact utf8Length_le_of_prefix ((List.prefix_append_right_inj before).2 hpre)
  · have hpos := c.utf8Size_pos
    have hle := utf8Length_le_of_prefix hin
    simp only [Position.behind, utf8Length_append, utf8Length_cons, utf8Length_nil] at hle ⊢
    omega
  · simp [Position.behind, utf8Length_append]
  · simp only [Position.behind, utf8Length_append]
    omega

/-! ## Texts that were cut -/

namespace Piece

/-- The part of the text that the piece covers. -/
def span : Piece → Span
  | token t _ => t.span
  | stray _ span => span

/-- The piece is made of these characters: the image of a token, or one character by itself. -/
def Says (x : Piece) (part : List Char) : Prop :=
  match x with
  | token t _ => t.image = String.ofList part ∧ t.isEnd = false
  | stray c _ => part = [c]

end Piece

theorem isEnd_of_munch? {m : Munch} {image : String} {span : Span} (h : munch? s cs = some m) :
    Token.isEnd ⟨m.lexeme, image, span⟩ = false := by
  unfold Token.isEnd
  rcases munch?_cases h with hraw | ⟨-, hflat⟩
  · obtain ⟨tag, body, hlex⟩ := lexeme_of_heredoc? hraw
    simp [hlex]
  · rcases lexeme_of_flat? hflat with ⟨v, hlex⟩ | hlex | ⟨hnumeral, -⟩ | ⟨w, hlex⟩ | hlex | hlex
    · simp [hlex]
    · simp [hlex]
    · revert hnumeral
      cases m.lexeme <;> simp [Lexeme.IsNumeral]
    · simp only [hlex, wordLexeme]
      split_ifs <;> rfl
    · simp [hlex]
    · simp [hlex]

/-- What was left of a text behind `before` was cut into pieces with gaps between them. -/
inductive Cut : List Char → List Char → List Piece → Prop where
  | stop {before gap : List Char} : Gap gap [] → Cut before gap []
  | piece {before gap part rest : List Char} {x : Piece} {xs : List Piece} :
      Gap gap (part ++ rest) → part ≠ [] → x.Says part →
      x.span = ⟨.behind (before ++ gap), .behind (before ++ gap ++ part)⟩ →
      Cut (before ++ gap ++ part) rest xs → Cut before (gap ++ (part ++ rest)) (x :: xs)

/-- Cutting a text that stands behind `before` gives such pieces, and ends behind the text. -/
theorem cut_lexFrom (s : Bool) (before cs : List Char) :
    Cut before cs (lexFrom s (.behind before) cs).pieces ∧
      (lexFrom s (.behind before) cs).stop = .behind (before ++ cs) := by
  induction hn : cs.length using Nat.strongRecOn generalizing s before cs with
  | _ n ih =>
    have hgap := gap_trivia cs
    have hsplit := List.take_append_drop (triviaLength cs) cs
    rw [lexFrom_eq, Position.advance_behind]
    generalize cs.take (triviaLength cs) = gap at *
    generalize cs.drop (triviaLength cs) = body at *
    subst hsplit
    rw [List.length_append] at hn
    cases body with
    | nil => exact ⟨by simpa [lexBody] using Cut.stop hgap, by simp [lexBody]⟩
    | cons c rest =>
      rw [List.length_cons] at hn
      cases hm : munch? s (c :: rest) with
      | none =>
        obtain ⟨hcut, hstop⟩ := ih rest.length (by omega) s (before ++ gap ++ [c]) rest rfl
        rw [Position.behind_concat] at hcut hstop
        simp only [lexBody, hm]
        exact ⟨.piece hgap (List.cons_ne_nil c []) rfl (by rw [Position.behind_concat]; rfl) hcut,
          by rw [hstop]; simp⟩
      | some m =>
        have hpos := m.length_pos
        have hlen : ((c :: rest).take m.length).length = m.length := by
          rw [List.length_take]
          exact Nat.min_eq_left (length_munch?_le hm)
        have hcons := List.take_append_drop m.length (c :: rest)
        rw [← List.length_cons (a := c), ← hcons, List.length_append] at hn
        generalize (c :: rest).take m.length = part at *
        generalize (c :: rest).drop m.length = after at *
        rw [← hcons] at hgap hm ⊢
        obtain ⟨hcut, hstop⟩ := ih after.length (by omega)
          (signAfter m.lexeme (String.ofList part)) (before ++ gap ++ part) after rfl
        rw [lexBody_of_munch? hm hlen.symm, Position.advance_behind]
        exact ⟨.piece hgap (ne_nil_of_length_eq m hlen.symm) ⟨rfl, isEnd_of_munch? hm⟩ rfl hcut,
          by rw [hstop]; simp⟩

namespace Cut

/-- Each piece covers a part of the text behind `before`. -/
theorem covers (h : Cut before left xs) (hx : x ∈ xs) :
    ∃ part, part ≠ [] ∧ x.Says part ∧ x.span.Covers (before ++ left) part := by
  induction h with
  | stop => cases hx
  | @piece before gap part rest y ys _ hpart hsays hspan _ ih =>
    rcases List.mem_cons.1 hx with rfl | hx
    · exact ⟨part, hpart, hsays, before ++ gap, rest, by simp, hspan⟩
    · obtain ⟨part, hpart, hsays, hcovers⟩ := ih hx
      exact ⟨part, hpart, hsays, by simpa using hcovers⟩

/-- No piece comes before what was left. -/
theorem le_start (h : Cut before left xs) (hx : x ∈ xs) :
    utf8Length before ≤ x.span.start.offset := by
  induction h with
  | stop => cases hx
  | @piece before gap part rest y ys _ hpart hsays hspan _ ih =>
    rcases List.mem_cons.1 hx with rfl | hx
    · rw [hspan]
      simp [Position.behind, utf8Length_append]
    · have := ih hx
      simp only [utf8Length_append] at this
      omega

/-- The pieces are in order, and no two of them overlap. -/
theorem ordered (h : Cut before left xs) : xs.Pairwise fun x y =>
    x.span.start.offset < x.span.stop.offset ∧ x.span.stop.offset ≤ y.span.start.offset := by
  induction h with
  | stop => exact .nil
  | @piece before gap part rest y ys _ hpart hsays hspan htail ih =>
    refine .cons (fun z hz => ?_) ih
    have hnext := htail.le_start hz
    have hpos := utf8Length_pos hpart
    rw [hspan]
    simp only [Position.behind, utf8Length_append] at hnext ⊢
    omega

/-- Every turn of the cutting takes one character or more. -/
theorem length_le (h : Cut before left xs) : xs.length ≤ left.length := by
  induction h with
  | stop => simp
  | @piece before gap part rest y ys _ hpart _ _ _ ih =>
    have := List.length_pos_iff.2 hpart
    simp only [List.length_cons, List.length_append]
    omega

/-- A character that no piece holds is a blank, or lies in a comment that is apart from all
pieces. -/
theorem mem (h : Cut before left xs) {as bs : List Char} (hc : left = as ++ c :: bs) :
    (∃ x ∈ xs, x.span.Holds (utf8Length (before ++ as))) ∨ Text.isBlank c = true ∨
      ∃ span : Span, span.CoversComment (before ++ left) ∧ span.Holds (utf8Length (before ++ as)) ∧
        utf8Length before ≤ span.start.offset ∧ ∀ x ∈ xs, x.span.Apart span := by
  induction h generalizing as with
  | @stop before gap hgap =>
    refine .inr ((hgap.mem_span before hc).imp_right ?_)
    rintro ⟨span, hcomment, hholds, hstart, -⟩
    exact ⟨span, by simpa using hcomment, hholds, hstart, by simp⟩
  | @piece before gap part rest y ys hgap hpart hsays hspan htail ih =>
    -- The character is in the gap, in the piece or behind it
    rcases append_cons_cases hc with ⟨as', rfl, hbody⟩ | ⟨gap', hin⟩
    · rcases append_cons_cases hbody with ⟨as, rfl, hrest⟩ | ⟨part', hin⟩
      · rcases ih hrest with ⟨x, hx, hholds⟩ | hblank | ⟨span, hcomment, hholds, hstart, hapart⟩
        · exact .inl ⟨x, List.mem_cons_of_mem _ hx, by simpa using hholds⟩
        · exact .inr (.inl hblank)
        · refine .inr (.inr ⟨span, by simpa using hcomment, by simpa using hholds, ?_, ?_⟩)
          · simp only [utf8Length_append] at hstart
            omega
          · refine List.forall_mem_cons.2 ⟨.inl ?_, hapart⟩
            rw [hspan]
            exact hstart
      · refine .inl ⟨y, List.mem_cons_self, ?_⟩
        have hpos := c.utf8Size_pos
        rw [hspan, hin]
        simp only [Span.Holds, Position.behind, utf8Length_append, utf8Length_cons]
        omega
    · refine .inr ((hgap.mem_span before hin).imp_right ?_)
      rintro ⟨span, hcomment, hholds, hstart, hstop⟩
      refine ⟨span, hcomment, hholds, hstart, List.forall_mem_cons.2 ⟨.inr ?_, fun x hx => .inr ?_⟩⟩
      · rw [hspan]
        exact hstop
      · have hnext := htail.le_start hx
        simp only [utf8Length_append] at hstop hnext
        omega

end Cut

/-! ## Tokens and diagnostics -/

/-- The part of the text that is about a character that begins no token. -/
def Diagnostic.stray? (d : Diagnostic) : Option Span :=
  match d.problem with
  | .unexpectedCharacter _ => some d.span
  | _ => none

namespace Lexed

/-- The parts of the text that were taken for tokens or for characters that begin none. -/
def ranges (l : Lexed) : List Span :=
  l.stream.map Token.span ++ l.diagnostics.filterMap Diagnostic.stray?

/-- The tokens and the diagnostics are those of a text that falls into them, blanks and comments. -/
structure Partitions (l : Lexed) (source : List Char) : Prop where
  /-- The end of the text stands at the end and nowhere else, and nothing else is empty. -/
  ends : ∃ ts, l.stream = ts ++ [⟨.eof, "", .point (.behind source)⟩] ∧
    ∀ t ∈ ts, t.isEnd = false ∧ t.image ≠ ""
  /-- A token ends behind its start, and the tokens after it start no sooner. -/
  ordered : l.stream.Pairwise fun t u =>
    t.span.start.offset < t.span.stop.offset ∧ t.span.stop.offset ≤ u.span.start.offset
  /-- A token is the part of the text between its two places. -/
  images : ∀ t ∈ l.stream, t.image.toList = slice source t.span.start.offset t.span.stop.offset
  /-- So is a character that begins no token. -/
  strays : ∀ d ∈ l.diagnostics, ∀ c, d.problem = .unexpectedCharacter c →
    [c] = slice source d.span.start.offset d.span.stop.offset
  /-- Nothing was taken twice. -/
  apart : l.ranges.Pairwise Span.Apart
  /-- What was not taken is white space or stands in a comment, of which nothing was taken. -/
  rest : ∀ as c bs, source = as ++ c :: bs → (∃ r ∈ l.ranges, r.Holds (utf8Length as)) ∨
    Text.isBlank c = true ∨ ∃ span : Span, span.CoversComment source ∧
      span.Holds (utf8Length as) ∧ ∀ r ∈ l.ranges, r.Apart span
  /-- Lines and columns are those of the offsets. -/
  places : (∀ t ∈ l.stream, t.span.start.IsIn source ∧ t.span.stop.IsIn source) ∧
    ∀ d ∈ l.diagnostics, d.span.start.IsIn source ∧ d.span.stop.IsIn source
  /-- Each turn of the cutting took a character, so it was over after that many. -/
  turns : l.pieces.length ≤ source.length

variable {l : Lexed} {source : List Char} {t : Token} {d : Diagnostic}

theorem exists_piece_of_mem_tokens (h : t ∈ l.tokens) :
    ∃ x ∈ l.pieces, x.token? = some t ∧ x.span = t.span := by
  obtain ⟨x, hx, htoken⟩ := List.mem_filterMap.1 h
  refine ⟨x, hx, htoken, ?_⟩
  cases x <;> cases htoken
  rfl

theorem span_of_diagnostic? (h : x.diagnostic? = some d) : x.span = d.span := by
  cases x with
  | stray c span =>
    cases h
    rfl
  | token t closed =>
    cases closed <;> cases h
    rfl

theorem exists_piece_of_mem_diagnostics (h : d ∈ l.diagnostics) :
    ∃ x ∈ l.pieces, x.diagnostic? = some d ∧ x.span = d.span := by
  obtain ⟨x, hx, hdiagnostic⟩ := List.mem_filterMap.1 h
  exact ⟨x, hx, hdiagnostic, span_of_diagnostic? hdiagnostic⟩

/-- Only a character that begins no token is told so. -/
theorem stray_of_mem_diagnostics (h : d ∈ l.diagnostics) (hc : d.problem = .unexpectedCharacter c) :
    .stray c d.span ∈ l.pieces := by
  obtain ⟨x, hx, hdiagnostic, -⟩ := exists_piece_of_mem_diagnostics h
  cases x with
  | stray b span =>
    cases hdiagnostic
    cases hc
    exact hx
  | token t closed =>
    cases closed <;> cases hdiagnostic
    cases hc

theorem exists_of_stray? {r : Span} (h : d.stray? = some r) :
    ∃ c, d.problem = .unexpectedCharacter c ∧ r = d.span := by
  unfold Diagnostic.stray? at h
  split at h <;> cases h
  exact ⟨_, ‹_›, rfl⟩

theorem mem_ranges {r : Span} :
    r ∈ l.ranges ↔ (∃ x ∈ l.pieces, x.span = r) ∨ r = .point l.stop := by
  unfold ranges stream
  simp only [List.mem_append, List.mem_map, List.mem_filterMap, List.mem_singleton]
  constructor
  · rintro (⟨t, ht | rfl, rfl⟩ | ⟨d, hd, hstray⟩)
    · obtain ⟨x, hx, -, hspan⟩ := exists_piece_of_mem_tokens ht
      exact .inl ⟨x, hx, hspan⟩
    · exact .inr rfl
    · obtain ⟨x, hx, -, hspan⟩ := exists_piece_of_mem_diagnostics hd
      obtain ⟨c, -, rfl⟩ := exists_of_stray? hstray
      exact .inl ⟨x, hx, hspan⟩
  · rintro (⟨x, hx, rfl⟩ | rfl)
    · cases x with
      | token t closed => exact .inl ⟨t, .inl (List.mem_filterMap.2 ⟨_, hx, rfl⟩), rfl⟩
      | stray c span => exact .inr ⟨_, List.mem_filterMap.2 ⟨_, hx, rfl⟩, rfl⟩
    · exact .inl ⟨_, .inr rfl, rfl⟩

/-! ## Texts that were cut fall into pieces -/

variable (h : Cut [] source l.pieces) (hstop : l.stop = .behind source)

include h

theorem covers_of_mem (hx : x ∈ l.pieces) :
    ∃ part, part ≠ [] ∧ x.Says part ∧ x.span.Covers source part :=
  h.covers hx

theorem token_of_mem (ht : t ∈ l.tokens) :
    t.isEnd = false ∧ t.image ≠ "" ∧ t.span.Covers source t.image.toList := by
  obtain ⟨x, hx, htoken, hspan⟩ := exists_piece_of_mem_tokens ht
  obtain ⟨part, hpart, hsays, hcovers⟩ := covers_of_mem h hx
  cases x with
  | stray c span => cases htoken
  | token u closed =>
    cases htoken
    obtain ⟨himage, hend⟩ := hsays
    refine ⟨hend, ?_, ?_⟩
    · simpa [himage] using hpart
    · rwa [himage, String.toList_ofList]

theorem apart_of_ne {x y : Piece} (hx : x ∈ l.pieces) (hy : y ∈ l.pieces) (hne : x ≠ y) :
    x.span.Apart y.span := by
  have hsymm : Std.Symm fun x y : Piece => x.span.Apart y.span := ⟨fun _ _ => Or.symm⟩
  have hpieces : l.pieces.Pairwise fun x y => x.span.Apart y.span :=
    h.ordered.imp fun hxy => .inl hxy.2
  exact hpieces.forall hx hy hne

include hstop

theorem ordered_stream : l.stream.Pairwise fun t u =>
    t.span.start.offset < t.span.stop.offset ∧ t.span.stop.offset ≤ u.span.start.offset := by
  refine List.pairwise_append.2 ⟨?_, List.pairwise_singleton .., fun t ht u hu => ?_⟩
  · refine h.ordered.filterMap _ fun x y hxy t ht u hu => ?_
    cases x <;> cases ht
    cases y <;> cases hu
    exact hxy
  · obtain rfl := List.mem_singleton.1 hu
    obtain ⟨-, hne, before, after, rfl, hspan⟩ := token_of_mem h ht
    have hpos : 0 < utf8Length t.image.toList := utf8Length_pos (by simpa using hne)
    rw [hspan]
    simp only [Token.endAt, Span.point, hstop, Position.behind, utf8Length_append]
    omega

/-- Whatever was taken ends with the text at the latest. -/
theorem stop_le_of_mem_ranges {r : Span} (hr : r ∈ l.ranges) :
    r.stop.offset ≤ utf8Length source := by
  rcases mem_ranges.1 hr with ⟨x, hx, rfl⟩ | rfl
  · obtain ⟨part, -, -, before, after, rfl, hspan⟩ := covers_of_mem h hx
    rw [hspan]
    simp only [Position.behind, utf8Length_append]
    omega
  · rw [hstop]
    exact Nat.le_refl _

theorem apart_ranges : l.ranges.Pairwise Span.Apart := by
  refine List.pairwise_append.2 ⟨?_, ?_, ?_⟩
  · exact List.pairwise_map.2 ((ordered_stream h hstop).imp fun htu => .inl htu.2)
  · have hdiagnostics : l.diagnostics.Pairwise fun d e =>
        d.span.stop.offset ≤ e.span.start.offset := by
      refine h.ordered.filterMap _ fun x y hxy d hd e he => ?_
      rw [← span_of_diagnostic? hd, ← span_of_diagnostic? he]
      exact hxy.2
    refine hdiagnostics.filterMap _ fun d e hde r hr q hq => ?_
    obtain ⟨-, -, rfl⟩ := exists_of_stray? hr
    obtain ⟨-, -, rfl⟩ := exists_of_stray? hq
    exact .inl hde
  · intro r hr q hq
    obtain ⟨d, hd, hstray⟩ := List.mem_filterMap.1 hq
    obtain ⟨c, hc, rfl⟩ := exists_of_stray? hstray
    have hpiece := stray_of_mem_diagnostics hd hc
    obtain ⟨t, ht, rfl⟩ := List.mem_map.1 hr
    rcases List.mem_append.1 ht with ht | ht
    · obtain ⟨x, hx, htoken, hspan⟩ := exists_piece_of_mem_tokens ht
      rw [← hspan]
      refine apart_of_ne h hx hpiece ?_
      rintro rfl
      cases htoken
    · obtain rfl := List.mem_singleton.1 ht
      refine .inr (Nat.le_trans (stop_le_of_mem_ranges h hstop (mem_ranges.2 (.inl ⟨_, hpiece, rfl⟩))) ?_)
      simp [Token.endAt, Span.point, hstop, Position.behind]

end Lexed

/-- The tokens of a text and the characters that begin none partition it, up to white space and
comments: they stand in order and apart, say what stands between their places, and are followed by
the end of the text. -/
theorem lex_partitions (source : String) : (lex source).Partitions source.toList := by
  have hcut : Cut [] source.toList (lex source).pieces := (cut_lexFrom true [] source.toList).1
  have hstop : (lex source).stop = .behind source.toList := (cut_lexFrom true [] source.toList).2
  have hcovers {t : Token} (ht : t ∈ (lex source).stream) :
      t.span.Covers source.toList t.image.toList := by
    rcases List.mem_append.1 ht with ht | ht
    · exact (Lexed.token_of_mem hcut ht).2.2
    · obtain rfl := List.mem_singleton.1 ht
      exact ⟨source.toList, [], by simp [Token.endAt], by simp [Token.endAt, Span.point, hstop]⟩
  have hdiagnostic {d : Diagnostic} (hd : d ∈ (lex source).diagnostics) :
      ∃ part, d.span.Covers source.toList part := by
    obtain ⟨x, hx, -, hspan⟩ := Lexed.exists_piece_of_mem_diagnostics hd
    obtain ⟨part, -, -, hcovers⟩ := Lexed.covers_of_mem hcut hx
    exact ⟨part, hspan ▸ hcovers⟩
  constructor
  case ends =>
    refine ⟨(lex source).tokens, ?_, fun t ht => ?_⟩
    · rw [Lexed.stream, Token.endAt, hstop]
    · obtain ⟨hend, hne, -⟩ := Lexed.token_of_mem hcut ht
      exact ⟨hend, hne⟩
  case ordered => exact Lexed.ordered_stream hcut hstop
  case images => exact fun t ht => (hcovers ht).slice
  case strays =>
    intro d hd c hc
    obtain ⟨part, -, hsays, hcovers⟩ :=
      Lexed.covers_of_mem hcut (Lexed.stray_of_mem_diagnostics hd hc)
    rw [show part = [c] from hsays] at hcovers
    exact hcovers.slice
  case apart => exact Lexed.apart_ranges hcut hstop
  case rest =>
    intro as c bs hsplit
    rcases hcut.mem hsplit with ⟨x, hx, hholds⟩ | hblank | ⟨span, hcomment, hholds, -, hapart⟩
    · exact .inl ⟨x.span, Lexed.mem_ranges.2 (.inl ⟨x, hx, rfl⟩), hholds⟩
    · exact .inr (.inl hblank)
    · refine .inr (.inr ⟨span, hcomment, hholds, fun r hr => ?_⟩)
      rcases Lexed.mem_ranges.1 hr with ⟨x, hx, rfl⟩ | rfl
      · exact hapart x hx
      · refine .inr (Nat.le_trans hcomment.stop_le ?_)
        rw [hstop]
        exact Nat.le_refl _
  case places =>
    exact ⟨fun t ht => (hcovers ht).isIn, fun d hd => (hdiagnostic hd).choose_spec.isIn⟩
  case turns => exact hcut.length_le

end DiagramTour
