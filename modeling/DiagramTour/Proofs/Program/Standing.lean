import DiagramTour.Program.Cursor
import DiagramTour.Proofs.Token.Cut

/-!
# Where a cursor stands

A cursor that never goes back stands between the text that it has read and the text that is left,
and its tokens are those of the text that is left.  One step reads one token: whether it is known
what text is left, which is so when a printed text is read, or only that the tokens come from some
text.
-/

namespace DiagramTour

variable {s : Bool} {p : Position} {m : Munch} {c : Char} {cs im rest pre : List Char}
  {lexeme : Lexeme}

namespace Cursor

/-! ## What was reported -/

/-- Some error was reported on the way. -/
def Failed (c : Cursor) : Prop :=
  hasErrors c.reports.toList = true

theorem failed_report {c : Cursor} {problem : Problem} {span : Span} :
    (c.report problem span).Failed ↔ c.Failed ∨ problem.severity = .error := by
  simp [Failed, report, hasErrors, Diagnostic.isError]

theorem failed_unexpected (c : Cursor) (expected : String) : (c.unexpected expected).Failed := by
  unfold unexpected
  split
  · exact failed_report.2 (.inr rfl)
  · exact failed_report.2 (.inr rfl)

@[simp] theorem failed_advance {c : Cursor} : c.advance.Failed ↔ c.Failed := by
  unfold advance
  split <;> rfl

/-! ## Between two texts -/

/-- The cursor has read `pre` and `cs` is left. -/
structure Before (signAllowed : Bool) (pre cs : List Char) (c : Cursor) : Prop where
  source : c.source = pre ++ cs
  rest : c.rest = (lexFrom signAllowed (Position.start.advance pre) cs).tokens
  stop : c.stop = (lexFrom signAllowed (Position.start.advance pre) cs).stop
  /-- Nothing was wrong with the pieces that were read. -/
  clean : (lexFrom true .start c.source).diagnostics =
    (lexFrom signAllowed (Position.start.advance pre) cs).diagnostics

/-- Reading has come as far as `cs` and met no error. -/
def At (c : Cursor) (cs : List Char) : Prop :=
  (∃ pre, c.Before true pre cs) ∧ ¬c.Failed

/-- The token that comes next, and what is left behind it. -/
structure Shows (c : Cursor) (lexeme : Lexeme) (image : String) (rest : List Char) : Prop where
  lexeme : c.peek.lexeme = lexeme
  image : c.peek.image = image
  next : c.advance.At rest
  going : c.atEnd = false

variable {c : Cursor}

theorem Before.advance {ws : List Char} (h : c.Before s pre (ws ++ (im ++ rest)))
    (htrivia : triviaLength (ws ++ (im ++ rest)) = ws.length)
    (hm : munch? s (im ++ rest) = some m) (hlen : m.length = im.length) (hclosed : m.closed = true) :
    c.peek = ⟨m.lexeme, String.ofList im, ⟨Position.start.advance (pre ++ ws),
      Position.start.advance (pre ++ ws ++ im)⟩⟩ ∧ c.atEnd = false ∧
      c.advance.Before (signAfter m.lexeme (String.ofList im)) (pre ++ ws ++ im) rest := by
  have hlex : lexFrom s (Position.start.advance pre) (ws ++ (im ++ rest)) =
      lexBody s (Position.start.advance (pre ++ ws)) (im ++ rest) := by
    rw [lexFrom_eq, htrivia, List.take_left' rfl, List.drop_left' rfl, Position.advance_append]
  rw [lexBody_of_munch? hm hlen, ← Position.advance_append] at hlex
  obtain ⟨hsource, hrest, hstop, hclean⟩ := h
  rw [hlex] at hrest hstop hclean
  have htokens : c.rest = ⟨m.lexeme, String.ofList im, ⟨Position.start.advance (pre ++ ws),
      Position.start.advance (pre ++ ws ++ im)⟩⟩ ::
      (lexFrom (signAfter m.lexeme (String.ofList im)) (Position.start.advance (pre ++ ws ++ im))
        rest).tokens := hrest
  have hadvance : c.advance = { c with
      rest := (lexFrom (signAfter m.lexeme (String.ofList im))
        (Position.start.advance (pre ++ ws ++ im)) rest).tokens
      lastStop := Position.start.advance (pre ++ ws ++ im) } := by
    unfold Cursor.advance
    rw [htokens]
  refine ⟨by simp [peek, htokens], by simp [atEnd, htokens], ?_⟩
  rw [hadvance]
  refine ⟨by simp [hsource], rfl, hstop, ?_⟩
  rw [hclean]
  simp [Lexed.diagnostics, Piece.diagnostic?, hclosed]

theorem Before.calm (h : c.Before s pre cs) (hcalm : s = true ∨ Calm cs) :
    c.Before true pre cs := by
  cases s with
  | true => exact h
  | false =>
    obtain ⟨hsource, hrest, hstop, hclean⟩ := h
    have hcalm : Calm cs := by simpa using hcalm
    rw [hcalm] at hrest hstop hclean
    exact ⟨hsource, hrest, hstop, hclean⟩

/-- A blank is as good as read. -/
theorem At.blank {b : Char} (h : c.At (b :: cs)) (hb : Text.isBlank b = true) : c.At cs := by
  obtain ⟨⟨pre, hsource, hrest, hstop, hclean⟩, hok⟩ := h
  have hpos : (Position.start.advance pre).next b = Position.start.advance (pre ++ [b]) := by
    rw [Position.advance_append]
    rfl
  rw [lexFrom_of_isBlank hb, hpos] at hrest hstop hclean
  exact ⟨⟨pre ++ [b], by simp [hsource], hrest, hstop, hclean⟩, hok⟩

theorem At.space (h : c.At (' ' :: cs)) : c.At cs :=
  h.blank (by decide)

theorem At.lineFeed (h : c.At ('\n' :: cs)) : c.At cs :=
  h.blank (by decide)

theorem At.indent {n : Nat} (h : c.At (List.replicate n ' ' ++ cs)) : c.At cs := by
  induction n with
  | zero => exact h
  | succ n ih => exact ih (At.space (by simpa [List.replicate_succ] using h))

theorem At.atEnd (h : c.At []) : c.atEnd = true := by
  obtain ⟨⟨pre, -, hrest, -, -⟩, -⟩ := h
  rw [lexFrom_eq] at hrest
  simp only [Cursor.atEnd, hrest]
  rfl

/-- A cursor at the end of its text has seen all pieces, and none was wrong. -/
theorem At.diagnostics (h : c.At []) : (lexFrom true .start c.source).diagnostics = [] := by
  obtain ⟨⟨pre, -, -, -, hclean⟩, -⟩ := h
  rw [hclean, lexFrom_eq]
  rfl

/-- What stands at the head of what is left comes next. -/
theorem At.shows (h : c.At (im ++ rest)) (hm : Munches im rest lexeme)
    (hsign : signAfter lexeme (String.ofList im) = true ∨ Calm rest) :
    c.Shows lexeme (String.ofList im) rest := by
  obtain ⟨⟨pre, hbefore⟩, hok⟩ := h
  obtain ⟨⟨m, hmunch, hlen, hclosed, rfl⟩, htrivia⟩ := hm
  have hbefore : c.Before true pre ([] ++ (im ++ rest)) := hbefore
  obtain ⟨hpeek, hend, hnext⟩ := hbefore.advance htrivia hmunch hlen hclosed
  refine ⟨by rw [hpeek], by rw [hpeek], ⟨⟨_, hnext.calm hsign⟩, ?_⟩, hend⟩
  rwa [failed_advance]

/-- The token after the next one comes next once that one is read. -/
theorem second_eq (c : Cursor) : c.second = c.advance.peek := by
  unfold second peek Cursor.advance
  cases h : c.rest <;> simp [h]

theorem lastStop_advance {c : Cursor} (hend : c.atEnd = false) :
    c.advance.lastStop = c.peek.span.stop := by
  unfold atEnd at hend
  unfold advance peek
  cases hr : c.rest with
  | nil => simp [hr] at hend
  | cons t ts => rfl

/-! ## Cursors over the tokens of some text -/

/-- The tokens that are left are those of some text with which nothing is wrong. -/
def Genuine (c : Cursor) : Prop :=
  (∃ s pre cs, c.Before s pre cs) ∧ hasErrors (lexFrom true .start c.source).diagnostics = false

/-- The next token was cut out of a text: behind it `w` stood. -/
structure Cut (c : Cursor) (signAllowed : Bool) (pre ws im w : List Char) (m : Munch) : Prop where
  trivia : triviaLength (ws ++ (im ++ w)) = ws.length
  munch : munch? signAllowed (im ++ w) = some m
  length : m.length = im.length
  closed : m.closed = true
  peek : c.peek = ⟨m.lexeme, String.ofList im, ⟨Position.start.advance (pre ++ ws),
    Position.start.advance (pre ++ ws ++ im)⟩⟩
  next : c.advance.Before (signAfter m.lexeme (String.ofList im)) (pre ++ ws ++ im) w

theorem Before.cut (h : c.Before s pre cs)
    (hclean : hasErrors (lexFrom true .start c.source).diagnostics = false)
    (hend : c.atEnd = false) :
    ∃ ws im w m, cs = ws ++ (im ++ w) ∧ c.Cut s pre ws im w m := by
  have hsplit := List.take_append_drop (triviaLength cs) cs
  have hlen : (cs.take (triviaLength cs)).length = triviaLength cs := by
    rw [List.length_take]
    exact Nat.min_eq_left (triviaLength_le cs)
  have hlex := lexFrom_eq s (Position.start.advance pre) cs
  generalize hws : cs.take (triviaLength cs) = ws at *
  generalize hbody : cs.drop (triviaLength cs) = body at *
  cases body with
  | nil =>
    -- Only blanks and comments are left, and so no token
    have hrest := h.rest
    rw [hlex] at hrest
    simp [Cursor.atEnd, hrest, lexBody, Lexed.tokens] at hend
  | cons d ds =>
    cases hm : munch? s (d :: ds) with
    | none =>
      obtain ⟨span, es, hstray⟩ := diagnostics_lexBody_of_stray
        (p := (Position.start.advance pre).advance ws) hm
      rw [h.clean, hlex, hstray] at hclean
      simp [hasErrors, Diagnostic.isError, Problem.severity] at hclean
    | some m =>
      have hle := length_munch?_le hm
      have hcut := List.take_append_drop m.length (d :: ds)
      have himlen : ((d :: ds).take m.length).length = m.length := by
        rw [List.length_take]
        exact Nat.min_eq_left hle
      generalize (d :: ds).take m.length = im at *
      generalize (d :: ds).drop m.length = w at *
      rw [← hcut] at hsplit hm
      have hclosed : m.closed = true := by
        by_contra hopen
        rw [h.clean, hlex, ← hcut, lexBody_of_munch? hm himlen.symm] at hclean
        simp [Lexed.diagnostics, Piece.diagnostic?, hopen, hasErrors, Diagnostic.isError,
          Problem.severity] at hclean
      have htrivia : triviaLength (ws ++ (im ++ w)) = ws.length := by
        rw [hsplit, hlen]
      rw [← hsplit] at h
      obtain ⟨hpeek, -, hnext⟩ := h.advance htrivia hm himlen.symm hclosed
      exact ⟨ws, im, w, m, hsplit.symm, htrivia, hm, himlen.symm, hclosed, hpeek, hnext⟩

theorem Genuine.cut (h : c.Genuine) (hend : c.atEnd = false) :
    ∃ s pre ws im w m, c.Before s pre (ws ++ (im ++ w)) ∧ c.Cut s pre ws im w m := by
  obtain ⟨⟨s, pre, cs, hbefore⟩, hclean⟩ := h
  obtain ⟨ws, im, w, m, rfl, hcut⟩ := hbefore.cut hclean hend
  exact ⟨s, pre, ws, im, w, m, hbefore, hcut⟩

/-- What a genuine token says, raw blocks and marks apart, its image says by itself. -/
theorem Genuine.image (h : c.Genuine) (hend : c.peek.lexeme ≠ .eof)
    (hop : c.peek.lexeme ≠ .operator) (hpunct : c.peek.lexeme ≠ .punct)
    (hraw : ∀ tag body, c.peek.lexeme ≠ .heredoc tag body) :
    Image c.peek.image.toList c.peek.lexeme := by
  have hgoing : c.atEnd = false := by
    refine Bool.eq_false_iff.2 fun he => hend ?_
    rw [Cursor.atEnd, List.isEmpty_iff] at he
    simp [peek, he, Token.endAt]
  obtain ⟨s, pre, ws, im, w, m, -, hcut⟩ := h.cut hgoing
  rw [hcut.peek] at hop hpunct hraw ⊢
  rw [String.toList_ofList]
  exact Image.of_munch? hcut.munch hcut.length hcut.closed hop hpunct hraw

theorem Before.congr {d : Cursor} (h : c.Before s pre cs) (hsource : d.source = c.source)
    (hrest : d.rest = c.rest) (hstop : d.stop = c.stop) : d.Before s pre cs :=
  ⟨hsource.trans h.source, hrest.trans h.rest, hstop.trans h.stop, by rw [hsource]; exact h.clean⟩

theorem Genuine.advance (h : c.Genuine) : c.advance.Genuine := by
  cases hend : c.atEnd with
  | true =>
    have hsame : c.advance = c := by
      rw [Cursor.atEnd, List.isEmpty_iff] at hend
      simp [Cursor.advance, hend]
    rwa [hsame]
  | false =>
    obtain ⟨s, pre, ws, im, w, m, hbefore, hcut⟩ := h.cut hend
    have hsource : c.advance.source = c.source := by
      unfold Cursor.advance
      split <;> rfl
    exact ⟨⟨_, _, _, hcut.next⟩, by rw [hsource]; exact h.2⟩

end Cursor

end DiagramTour
