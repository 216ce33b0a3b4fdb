import DiagramTour.Proofs.Program.ReadsItem
import DiagramTour.Proofs.Program.Verbatim
import DiagramTour.Proofs.Program.YieldsItem

/-!
# Blocks that are not understood

A declaration that is not understood is its name and a run of tokens: a block between braces, or
the rest of the line.  What is read is such a run, and when it is printed behind its name and a
line feed comes next the same run is read again.
-/

namespace DiagramTour

variable {s : Bool} {p : Position} {m : Munch} {cs ws im r w x y pre raw mid : List Char} {c : Cursor}
  {ts : List RawToken} {depth stop line : Nat}

/-! ## Places -/

/-- The place comes before the other one, or is the same. -/
structure Position.NotAfter (p q : Position) : Prop where
  line : p.line ≤ q.line
  offset : p.offset ≤ q.offset

theorem Position.NotAfter.trans {q q' : Position} (h : p.NotAfter q) (h' : q.NotAfter q') :
    p.NotAfter q' :=
  ⟨Nat.le_trans h.line h'.line, Nat.le_trans h.offset h'.offset⟩

theorem Position.notAfter_advance (p : Position) (cs : List Char) : p.NotAfter (p.advance cs) :=
  ⟨by rw [line_advance]; omega, by rw [offset_advance]; omega⟩

/-- A run without a line feed stays on its line. -/
theorem Position.line_advance_eq_iff (p : Position) (cs : List Char) :
    (p.advance cs).line = p.line ↔ '\n' ∉ cs := by
  rw [line_advance, ← List.count_eq_zero]
  omega

theorem Position.line_lt_advance (p : Position) (h : '\n' ∈ cs) : p.line < (p.advance cs).line := by
  have := List.count_pos_iff.2 h
  rw [line_advance]
  omega

/-- Neither a token nor the end comes before the text that is read. -/
theorem notAfter_lexFrom (s : Bool) (p : Position) (cs : List Char) :
    (∀ t ∈ (lexFrom s p cs).tokens, p.NotAfter t.span.start) ∧ p.NotAfter (lexFrom s p cs).stop := by
  induction hn : cs.length using Nat.strongRecOn generalizing s p cs with
  | _ n ih =>
    rw [lexFrom_eq]
    have hstart := p.notAfter_advance (cs.take (triviaLength cs))
    have hdrop : (cs.drop (triviaLength cs)).length ≤ n := by
      rw [List.length_drop, hn]
      omega
    generalize p.advance (cs.take (triviaLength cs)) = start at *
    generalize cs.drop (triviaLength cs) = body at *
    cases body with
    | nil => exact ⟨by simp [lexBody, Lexed.tokens], hstart⟩
    | cons d ds =>
      rw [List.length_cons] at hdrop
      cases hm : munch? s (d :: ds) with
      | none =>
        obtain ⟨htokens, hstop⟩ := ih ds.length (by omega) s (start.next d) ds rfl
        have hbefore := hstart.trans (start.notAfter_advance [d])
        simp only [lexBody, hm, Lexed.tokens, List.filterMap_cons, Piece.token?]
        exact ⟨fun t ht => hbefore.trans (htokens t ht), hbefore.trans hstop⟩
      | some m =>
        have hpos := m.length_pos
        obtain ⟨htokens, hstop⟩ := ih ((d :: ds).drop m.length).length
          (by rw [List.length_drop, List.length_cons]; omega)
          (signAfter m.lexeme (String.ofList ((d :: ds).take m.length)))
          (start.advance ((d :: ds).take m.length)) _ rfl
        have hbefore := hstart.trans (start.notAfter_advance ((d :: ds).take m.length))
        simp only [lexBody, hm, Lexed.tokens, List.filterMap_cons, Piece.token?, List.mem_cons]
        refine ⟨?_, hbefore.trans hstop⟩
        rintro t (rfl | ht)
        · exact hstart
        · exact hbefore.trans (htokens t ht)

namespace Cursor

/-- What comes next does not come before the text that is left. -/
theorem Before.notAfter_here (h : c.Before s pre cs) :
    (Position.start.advance pre).NotAfter c.here := by
  obtain ⟨htokens, hstop⟩ := notAfter_lexFrom s (Position.start.advance pre) cs
  rw [← h.rest] at htokens
  rw [← h.stop] at hstop
  unfold here peek
  cases hr : c.rest with
  | nil => exact hstop
  | cons t ts => exact htokens t (by simp [hr])

/-- A blank is as good as read. -/
theorem Before.blank {b : Char} (h : c.Before s pre (b :: cs)) (hb : Text.isBlank b = true) :
    c.Before s (pre ++ [b]) cs := by
  obtain ⟨hsource, hrest, hstop, hclean⟩ := h
  have hpos : (Position.start.advance pre).next b = Position.start.advance (pre ++ [b]) := by
    rw [Position.advance_append]
    rfl
  rw [lexFrom_of_isBlank hb, hpos] at hrest hstop hclean
  exact ⟨by simp [hsource], hrest, hstop, hclean⟩

/-- A token that is cut off the text that is left comes next. -/
theorem Before.cutsOff (h : c.Before s pre (ws ++ (im ++ r))) (hcut : CutsOff s ws im r m) :
    c.peek = ⟨m.lexeme, String.ofList im, ⟨Position.start.advance (pre ++ ws),
      Position.start.advance (pre ++ ws ++ im)⟩⟩ ∧ c.atEnd = false ∧
      c.advance.Before (signAfter m.lexeme (String.ofList im)) (pre ++ (ws ++ im)) r := by
  rw [← List.append_assoc pre ws im]
  exact h.advance hcut.trivia hcut.munch hcut.length hcut.closed

theorem Cut.cutsOff (h : c.Cut s pre ws im w m) : CutsOff s ws im w m :=
  ⟨h.trivia, h.munch, h.length, h.closed⟩

end Cursor

/-! ## Runs between braces and on a line -/

namespace RawToken

/-- The token without its place. -/
def token (k : RawToken) : Token :=
  ⟨k.lexeme, String.ofList k.image, default⟩

end RawToken

/-- The last token closes the last of the open braces, of which there are `depth` at first. -/
def Closes : Nat → List RawToken → Prop
  | _, [] => False
  | depth, k :: ts =>
    if k.token.isPunct Cursor.openBrace then Closes (depth + 1) ts
    else if k.token.isPunct Cursor.closeBrace then
      if depth = 1 then ts = [] else Closes (depth - 1) ts
    else Closes depth ts

/-- Every token begins on the line of the first one. -/
def OnOneLine : List RawToken → Prop
  | [] => True
  | k :: ts => '\n' ∉ k.blanks ∧ ('\n' ∈ k.image → ts = []) ∧ OnOneLine ts

theorem CutsOff.single (h : CutsOff s ws im w m) : Cuts w s (ws ++ im) [⟨ws, im, m.lexeme⟩] := by
  have hcuts : Cuts w s (ws ++ (im ++ [])) [⟨ws, im, m.lexeme⟩] := .cons (by simpa using h) .nil
  simpa using hcuts

/-- A run ends where it began only if it has no tokens. -/
theorem Cuts.offset_eq (h : Cuts y s raw ts) (pre : List Char) :
    (if ts.isEmpty then (Position.start.advance pre).offset
      else (Position.start.advance (pre ++ raw)).offset) =
        (Position.start.advance (pre ++ raw)).offset := by
  cases ts with
  | nil =>
    obtain rfl := h.eq_nil
    simp
  | cons k ts => simp

theorem Closes.ends (h : Closes depth ts) (y r : List Char) : Ends y r ts := by
  suffices hlast : ∃ ts₀ k, ts = ts₀ ++ [k] ∧ k.image = ['\x7d'] by
    obtain ⟨ts₀, k, hts, himage⟩ := hlast
    exact .brace hts himage
  induction ts generalizing depth with
  | nil => exact h.elim
  | cons k ts ih =>
    have hmore {d : Nat} (h : Closes d ts) : ∃ ts₀ k', k :: ts = ts₀ ++ [k'] ∧ k'.image = ['\x7d'] := by
      obtain ⟨ts₀, k', rfl, himage⟩ := ih h
      exact ⟨k :: ts₀, k', rfl, himage⟩
    unfold Closes at h
    split at h
    · exact hmore h
    split at h
    · rename_i hclose
      split at h
      · subst h
        refine ⟨[], k, rfl, ?_⟩
        unfold Token.isPunct at hclose
        split at hclose
        · have himage : String.ofList k.image = "\x7d" := beq_iff_eq.1 hclose
          rw [← String.toList_ofList (l := k.image), himage]
          rfl
        · cases hclose
      · exact hmore h
    · exact hmore h

theorem stops_of_triviaLength (h : triviaLength y ≠ 0) : Stops y := by
  cases y with
  | nil => exact .inl rfl
  | cons z x =>
    refine .inr ⟨z, x, rfl, ?_⟩
    rw [triviaLength_cons] at h
    split at h
    · rename_i hb
      exact isFence_of_isBlank hb
    · split at h
      · rename_i hopens
        by_cases hslash : z = '/'
        · subst hslash
          decide
        by_cases hhash : z = '#'
        · subst hhash
          decide
        rw [opensComment_of_ne hslash hhash] at hopens
        cases hopens
      · exact absurd rfl h

theorem EndsLine.stops (h : EndsLine y) : Stops y := by
  cases y with
  | nil => exact .inl rfl
  | cons z x =>
    refine .inr ⟨z, x, rfl, ?_⟩
    by_cases hz : z = '\n'
    · subst hz
      decide
    · rw [h z (by simp [hz])]
      decide

/-- Only a raw block has line feeds in it, and it ends with its line. -/
theorem CutsOff.endsLine (h : CutsOff s ws im w m) (hmem : '\n' ∈ im) : EndsLine w := by
  rcases munch?_cases h.munch with hraw | ⟨-, hflat⟩
  · obtain ⟨tag, header, lines, post, -, hpost, heq, hlen, -⟩ := rawParts_of_heredoc? hraw
    obtain ⟨-, rfl⟩ := List.append_inj heq (by rw [← hlen, h.length])
    exact hpost
  · exact absurd hmem (not_mem_of_flat? hflat h.length h.closed)

/-- Behind the last token nothing but blanks and comments is left. -/
theorem Cursor.Before.stops (h : c.Before s pre cs)
    (hclean : hasErrors (lexFrom true .start c.source).diagnostics = false)
    (hend : c.atEnd = true) : Stops cs := by
  by_cases htrivia : triviaLength cs = 0
  · cases cs with
    | nil => exact .inl rfl
    | cons d ds =>
      exfalso
      have hlex := lexFrom_eq s (Position.start.advance pre) (d :: ds)
      rw [htrivia, List.drop_zero] at hlex
      cases hm : munch? s (d :: ds) with
      | none =>
        obtain ⟨span, es, hstray⟩ := diagnostics_lexBody_of_stray
          (p := (Position.start.advance pre).advance ((d :: ds).take 0)) hm
        rw [h.clean, hlex, hstray] at hclean
        simp [hasErrors, Diagnostic.isError, Problem.severity] at hclean
      | some m =>
        have hrest := h.rest
        rw [Cursor.atEnd, List.isEmpty_iff] at hend
        rw [hend, hlex] at hrest
        simp [lexBody, hm, Lexed.tokens, Piece.token?] at hrest
  · exact stops_of_triviaLength htrivia

/-! ## What is read is such a run -/

namespace Parse

theorem balanced_cuts (h : c.Before s pre cs)
    (hclean : hasErrors (lexFrom true .start c.source).diagnostics = false)
    (hok : ¬(balanced depth stop c).next.Failed) : ∃ raw y ts, cs = raw ++ y ∧ Cuts y s raw ts ∧
      Closes depth ts ∧
      (balanced depth stop c).value = (Position.start.advance (pre ++ raw)).offset := by
  induction hn : c.size using Nat.strongRecOn generalizing c s pre cs depth stop with
  | _ n ih =>
    cases hend : c.atEnd with
    | true =>
      rw [balanced, dif_pos hend] at hok
      exact absurd (Cursor.failed_unexpected c _) hok
    | false =>
      obtain ⟨ws, im, w, m, rfl, hcut⟩ := h.cut hclean hend
      have hlt : c.advance.size < n := hn ▸ Cursor.size_advance_lt hend
      have hclean' : hasErrors (lexFrom true .start c.advance.source).diagnostics = false := by
        rw [(Cursor.Onward.advance c).source]
        exact hclean
      have hstop : c.peek.span.stop.offset = (Position.start.advance (pre ++ ws ++ im)).offset := by
        rw [hcut.peek]
      have hmark (mark : String) : c.atPunct mark = Token.isPunct ⟨m.lexeme, String.ofList im, default⟩ mark := by
        rw [Cursor.atPunct, hcut.peek]
        rfl
      -- However many braces are open behind the token, the run goes on there
      have hmore {d : Nat} (hok : ¬(balanced d c.peek.span.stop.offset c.advance).next.Failed)
          (hstep : ∀ ts, Closes d ts → Closes depth (⟨ws, im, m.lexeme⟩ :: ts)) :
          ∃ raw y ts, ws ++ (im ++ w) = raw ++ y ∧ Cuts y s raw ts ∧ Closes depth ts ∧
            (balanced d c.peek.span.stop.offset c.advance).value =
              (Position.start.advance (pre ++ raw)).offset := by
        obtain ⟨raw, y, ts, rfl, hcuts, hcloses, hvalue⟩ := ih _ hlt hcut.next hclean' hok rfl
        refine ⟨ws ++ (im ++ raw), y, _, by simp, .cons hcut.cutsOff hcuts, hstep ts hcloses, ?_⟩
        rw [hvalue]
        simp
      rw [balanced, dif_neg (by simp [hend])] at hok ⊢
      dsimp only at hok ⊢
      split at hok
      · rename_i hopen
        rw [if_pos hopen]
        exact hmore hok fun ts hts => by
          rw [hmark] at hopen
          rwa [Closes, RawToken.token, if_pos hopen]
      · rename_i hopen
        rw [if_neg hopen]
        rw [hmark] at hopen
        split at hok
        · rename_i hclose
          rw [if_pos hclose]
          rw [hmark] at hclose
          split at hok
          · rename_i hone
            rw [if_pos hone]
            refine ⟨ws ++ im, w, [⟨ws, im, m.lexeme⟩], by simp, hcut.cutsOff.single, ?_, ?_⟩
            · rw [Closes, RawToken.token, if_neg hopen, if_pos hclose, if_pos hone]
            · simpa using hstop
          · rename_i hone
            rw [if_neg hone]
            exact hmore hok fun ts hts => by
              rwa [Closes, RawToken.token, if_neg hopen, if_pos hclose, if_neg hone]
        · rename_i hclose
          rw [if_neg hclose]
          rw [hmark] at hclose
          exact hmore hok fun ts hts => by
            rwa [Closes, RawToken.token, if_neg hopen, if_neg hclose]

/-- On a later line nothing is read. -/
theorem restOfLine_later (h : c.Before s pre cs)
    (hline : line < (Position.start.advance pre).line) : restOfLine line stop c = .here c stop := by
  by_cases hend : c.atEnd = true
  · rw [restOfLine, dif_pos hend]
  · have := h.notAfter_here.line
    rw [restOfLine, dif_neg hend, if_neg (by omega)]

theorem restOfLine_cuts (h : c.Before s pre cs)
    (hclean : hasErrors (lexFrom true .start c.source).diagnostics = false)
    (hline : (Position.start.advance pre).line = line) : ∃ raw y ts, cs = raw ++ y ∧
      Cuts y s raw ts ∧ OnOneLine ts ∧ (Stops y ∧ ('\n' ∈ raw → EndsLine y)) ∧
      (restOfLine line stop c).value =
        if ts.isEmpty then stop else (Position.start.advance (pre ++ raw)).offset := by
  induction hn : c.size using Nat.strongRecOn generalizing c s pre cs stop with
  | _ n ih =>
    have hnone (hstops : Stops cs) : ∃ raw y ts, cs = raw ++ y ∧ Cuts y s raw ts ∧ OnOneLine ts ∧
        (Stops y ∧ ('\n' ∈ raw → EndsLine y)) ∧ (Parsed.here c stop).value =
          if ts.isEmpty then stop else (Position.start.advance (pre ++ raw)).offset :=
      ⟨[], cs, [], rfl, .nil, trivial, ⟨hstops, by simp⟩, rfl⟩
    cases hend : c.atEnd with
    | true =>
      rw [restOfLine, dif_pos hend]
      exact hnone (h.stops hclean hend)
    | false =>
      obtain ⟨ws, im, w, m, rfl, hcut⟩ := h.cut hclean hend
      have hlt : c.advance.size < n := hn ▸ Cursor.size_advance_lt hend
      have hclean' : hasErrors (lexFrom true .start c.advance.source).diagnostics = false := by
        rw [(Cursor.Onward.advance c).source]
        exact hclean
      have hhere : c.here = Position.start.advance (pre ++ ws) := by
        rw [Cursor.here, hcut.peek]
      have hlines := (Position.start.advance pre).line_advance_eq_iff ws
      rw [← Position.advance_append, hline] at hlines
      rw [restOfLine, dif_neg (by simp [hend])]
      dsimp only
      split
      · rename_i hon
        have hws : '\n' ∉ ws := hlines.1 (by rw [← hhere, hon])
        have hstop : c.peek.span.stop.offset = (Position.start.advance (pre ++ (ws ++ im))).offset := by
          rw [hcut.peek, List.append_assoc]
        have hnext : c.advance.Before (signAfter m.lexeme (String.ofList im)) (pre ++ (ws ++ im)) w := by
          rw [← List.append_assoc]
          exact hcut.next
        by_cases him : '\n' ∈ im
        · -- Behind a raw block comes a later line
          have hlater : line < (Position.start.advance (pre ++ (ws ++ im))).line := by
            rw [← hline, Position.advance_append]
            exact Position.line_lt_advance _ (List.mem_append_right ws him)
          rw [restOfLine_later hnext hlater]
          have hends := hcut.cutsOff.endsLine him
          exact ⟨ws ++ im, w, [⟨ws, im, m.lexeme⟩], by simp, hcut.cutsOff.single,
            ⟨hws, fun _ => rfl, trivial⟩, ⟨hends.stops, fun _ => hends⟩, by simpa using hstop⟩
        · have hline' : (Position.start.advance (pre ++ (ws ++ im))).line = line := by
            rw [← hline, Position.advance_append]
            exact (Position.line_advance_eq_iff _ _).2 (by simp [hws, him])
          obtain ⟨raw, y, ts, rfl, hcuts, hone, hends, hvalue⟩ :=
            ih _ hlt hnext hclean' hline' rfl
          refine ⟨ws ++ (im ++ raw), y, _, by simp, .cons hcut.cutsOff hcuts,
            ⟨hws, fun h => absurd h him, hone⟩, ?_, ?_⟩
          · exact ⟨hends.1, fun hmem => hends.2 (by simpa [hws, him] using hmem)⟩
          · rw [Parsed.weaken_value, hvalue, hstop, hcuts.offset_eq]
            simp
      · rename_i hon
        refine hnone (stops_of_triviaLength ?_)
        rw [hcut.trivia]
        intro hzero
        rw [List.length_eq_zero_iff.1 hzero, List.append_nil] at hhere
        exact hon (by rw [hhere, hline])

/-! ## Such a run is read again -/

theorem balanced_of_cuts (hcuts : Cuts y s raw ts) (hcloses : Closes depth ts)
    (h : c.Before s pre (raw ++ y)) (hok : ¬c.Failed) (stop : Nat) :
    (balanced depth stop c).value = (Position.start.advance (pre ++ raw)).offset ∧
      (∃ s', (balanced depth stop c).next.Before s' (pre ++ raw) y) ∧
      ¬(balanced depth stop c).next.Failed := by
  induction hcuts generalizing c pre depth stop with
  | nil => exact hcloses.elim
  | @cons s ws im r m ts hcut hrest ih =>
    rw [List.append_assoc, List.append_assoc] at h
    obtain ⟨hpeek, hend, hnext⟩ := h.cutsOff hcut
    have hok' : ¬c.advance.Failed := by rwa [Cursor.failed_advance]
    have hmark (mark : String) : c.atPunct mark = Token.isPunct ⟨m.lexeme, String.ofList im, default⟩ mark := by
      rw [Cursor.atPunct, hpeek]
      rfl
    have hmore {d : Nat} (hcloses : Closes d ts) (stop : Nat) :
        (balanced d stop c.advance).value =
            (Position.start.advance (pre ++ (ws ++ (im ++ r)))).offset ∧
          (∃ s', (balanced d stop c.advance).next.Before s' (pre ++ (ws ++ (im ++ r))) y) ∧
          ¬(balanced d stop c.advance).next.Failed := by
      have hagain := ih hcloses hnext hok' stop
      simpa only [List.append_assoc] using hagain
    rw [balanced, dif_neg (by simp [hend])]
    dsimp only
    rw [Closes, RawToken.token, ← hmark, ← hmark] at hcloses
    split at hcloses
    · rename_i hopen
      rw [if_pos hopen]
      exact hmore hcloses _
    · rename_i hopen
      rw [if_neg hopen]
      split at hcloses
      · rename_i hclose
        rw [if_pos hclose]
        split at hcloses
        · rename_i hone
          subst hcloses
          obtain rfl := hrest.eq_nil
          rw [if_pos hone]
          refine ⟨by simp [hpeek], ⟨signAfter m.lexeme (String.ofList im), ?_⟩, hok'⟩
          simpa using hnext
        · rename_i hone
          rw [if_neg hone]
          exact hmore hcloses _
      · rename_i hclose
        rw [if_neg hclose]
        exact hmore hcloses _

theorem restOfLine_of_cuts (hcuts : Cuts ('\n' :: x) s raw ts) (hone : OnOneLine ts)
    (h : c.Before s pre (raw ++ '\n' :: x)) (hok : ¬c.Failed)
    (hline : (Position.start.advance pre).line = line) (stop : Nat) :
    (restOfLine line stop c).value =
        (if ts.isEmpty then stop else (Position.start.advance (pre ++ raw)).offset) ∧
      (∃ s', (restOfLine line stop c).next.Before s' (pre ++ raw) ('\n' :: x)) ∧
      ¬(restOfLine line stop c).next.Failed := by
  induction hcuts generalizing c pre stop with
  | nil =>
    have hblank : c.Before _ (pre ++ ['\n']) x := Cursor.Before.blank h (by decide)
    have hlater : line < (Position.start.advance (pre ++ ['\n'])).line := by
      rw [Position.advance_append, Position.line_advance, hline]
      simp
    rw [restOfLine_later hblank hlater]
    exact ⟨rfl, ⟨_, by simpa using h⟩, hok⟩
  | @cons s ws im r m ts hcut hrest ih =>
    obtain ⟨hws, him, hone⟩ := hone
    rw [List.append_assoc, List.append_assoc] at h
    obtain ⟨hpeek, hend, hnext⟩ := h.cutsOff hcut
    have hok' : ¬c.advance.Failed := by rwa [Cursor.failed_advance]
    have hhere : c.here.line = line := by
      rw [Cursor.here, hpeek, ← hline, Position.advance_append]
      exact (Position.line_advance_eq_iff _ ws).2 hws
    have hstop : c.peek.span.stop.offset =
        (Position.start.advance (pre ++ (ws ++ im))).offset := by
      rw [hpeek, List.append_assoc]
    rw [restOfLine, dif_neg (by simp [hend]), if_pos hhere]
    dsimp only
    by_cases hmem : '\n' ∈ im
    · obtain rfl := him hmem
      obtain rfl := hrest.eq_nil
      have hlater : line < (Position.start.advance (pre ++ (ws ++ im))).line := by
        rw [← hline, Position.advance_append]
        exact Position.line_lt_advance _ (List.mem_append_right ws hmem)
      rw [restOfLine_later hnext hlater]
      refine ⟨by simpa using hstop, ⟨signAfter m.lexeme (String.ofList im), ?_⟩, hok'⟩
      simpa using hnext
    · have hline' : (Position.start.advance (pre ++ (ws ++ im))).line = line := by
        rw [← hline, Position.advance_append]
        exact (Position.line_advance_eq_iff _ _).2 (by simp [hws, hmem])
      obtain ⟨hvalue, hbefore, hfailed⟩ := ih hone hnext hok' hline' c.peek.span.stop.offset
      refine ⟨?_, by simpa only [Parsed.weaken_next, List.append_assoc] using hbefore, hfailed⟩
      rw [Parsed.weaken_value, hvalue, hstop, hrest.offset_eq]
      simp

end Parse

/-! ## What is kept of a run -/

theorem CutsOff.ne_nil (h : CutsOff s ws im w m) : im ≠ [] :=
  ne_nil_of_length_eq m h.length

/-- Blanks before a token may be dropped. -/
theorem CutsOff.unblank (h : CutsOff s ws im w m) : CutsOff s [] im w m := by
  refine ⟨?_, h.munch, h.length, h.closed⟩
  obtain ⟨d, ds, rfl⟩ := List.exists_cons_of_ne_nil h.ne_nil
  exact (triviaLength_append (c := d) h.trivia (x := []) rfl).1

/-- A blank may be put before a token. -/
theorem CutsOff.space (h : CutsOff s [] im w m) : CutsOff s [' '] im w m := by
  refine ⟨?_, h.munch, h.length, h.closed⟩
  have htrivia := h.trivia
  rw [List.nil_append] at htrivia
  rw [List.singleton_append, triviaLength_of_isBlank (by decide), htrivia]
  rfl

/-- The text from the first token of a run to the end of the run is the run without the blanks
before it. -/
theorem Cursor.Before.slice (h : c.Before s pre (raw ++ y)) {k : RawToken}
    (hcuts : Cuts y s raw (k :: ts)) : ∃ r, raw = k.blanks ++ r ∧ r ≠ [] ∧
      Cuts y s r ({ k with blanks := [] } :: ts) ∧ (∀ mark, c.atPunct mark = k.token.isPunct mark) ∧
      (if c.here.offset < (Position.start.advance (pre ++ raw)).offset then
        DiagramTour.slice c.source c.here.offset (Position.start.advance (pre ++ raw)).offset
      else []) = r := by
  have hsource := h.source
  cases hcuts with
  | @cons _ ws im r m _ hcut hrest =>
    refine ⟨im ++ r, rfl, by simp [hcut.ne_nil], .cons hcut.unblank hrest, ?_, ?_⟩
    · rw [List.append_assoc, List.append_assoc] at h
      obtain ⟨hpeek, -, -⟩ := h.cutsOff hcut
      intro mark
      rw [Cursor.atPunct, hpeek]
      rfl
    · have hhere : c.here = Position.start.advance (pre ++ ws) := by
        rw [List.append_assoc, List.append_assoc] at h
        obtain ⟨hpeek, -, -⟩ := h.cutsOff hcut
        rw [Cursor.here, hpeek]
      have hslice := slice_between (pre ++ ws) (im ++ r) y
      have heq : pre ++ ws ++ (im ++ r ++ y) = c.source := by
        rw [hsource]
        simp
      have hlt : c.here.offset < (Position.start.advance (pre ++ (ws ++ (im ++ r)))).offset := by
        obtain ⟨d, ds, rfl⟩ := List.exists_cons_of_ne_nil hcut.ne_nil
        have := d.utf8Size_pos
        rw [hhere, Position.offset_advance, Position.offset_advance]
        simp only [utf8Length_append, utf8Length_cons, List.cons_append]
        omega
      have heq' : pre ++ (ws ++ (im ++ r)) = pre ++ ws ++ (im ++ r) := by simp
      rw [if_pos hlt, ← heq, hhere, heq']
      exact hslice

/-- The text is a run of tokens that was kept: a block between braces, or what stood on a line. -/
def IsVerbatim (s : Bool) (raw : List Char) : Prop :=
  ∃ y k ts, Cuts y s raw (k :: ts) ∧ k.blanks = [] ∧
    if k.token.isPunct Cursor.openBrace then Closes 0 (k :: ts)
    else OnOneLine (k :: ts) ∧ Stops y ∧ ('\n' ∈ raw → EndsLine y)

/-- The words that open a declaration of a known kind. -/
def itemWords : List String :=
  ["deck", "meta", "let", "use", "diagram", "runtime", "selectors", "styles", "scene", "binding"]

structure UnknownBlock.WellFormed (u : UnknownBlock) : Prop where
  name : Word u.name
  other : u.name ∉ itemWords
  raw : u.raw = "" ∨ IsVerbatim (signAfter (wordLexeme u.name) u.name) u.raw.toList

namespace Parse

/-- What follows the name of a block. -/
def blockBody (c : Cursor) : Parsed c.advance Nat :=
  if c.advance.atPunct Cursor.openBrace then balanced 0 c.peek.span.stop.offset c.advance
  else restOfLine c.peek.span.stop.line c.peek.span.stop.offset c.advance

theorem unknownBlock_eq (c : Cursor) : (unknownBlock c).value.name = c.peek.image ∧
    (unknownBlock c).value.raw = String.ofList
      (if c.advance.here.offset < (blockBody c).value then
        slice c.source c.advance.here.offset (blockBody c).value else []) ∧
    (unknownBlock c).next = (blockBody c).next :=
  ⟨rfl, rfl, rfl⟩

theorem onward_balanced (depth stop : Nat) (c : Cursor) :
    Cursor.Onward c (balanced depth stop c).next := by
  induction hn : c.size using Nat.strongRecOn generalizing c depth stop with
  | _ n ih =>
    rw [balanced]
    split
    · exact .unexpected c _
    · rename_i hend
      have hadvance := Cursor.Onward.advance c
      have hlt : c.advance.size < n := hn ▸ Cursor.size_advance_lt (by simpa using hend)
      dsimp only
      split
      · exact hadvance.trans (ih _ hlt _ _ _ rfl)
      split
      · split
        · exact hadvance
        · exact hadvance.trans (ih _ hlt _ _ _ rfl)
      · exact hadvance.trans (ih _ hlt _ _ _ rfl)

theorem onward_restOfLine (line stop : Nat) (c : Cursor) :
    Cursor.Onward c (restOfLine line stop c).next := by
  induction hn : c.size using Nat.strongRecOn generalizing c stop with
  | _ n ih =>
    rw [restOfLine]
    split
    · exact .refl c
    · rename_i hend
      have hlt : c.advance.size < n := hn ▸ Cursor.size_advance_lt (by simpa using hend)
      split
      · exact (Cursor.Onward.advance c).trans (ih _ hlt _ _ rfl)
      · exact .refl c

theorem onward_blockBody (c : Cursor) : Cursor.Onward c.advance (blockBody c).next := by
  unfold blockBody
  split
  · exact onward_balanced _ _ _
  · exact onward_restOfLine _ _ _

/-- What is read behind a word is its name, and nothing or a run that is kept. -/
theorem unknownBlock_yields (hword : c.peek.isWord = true) : (unknownBlock c).Yields fun u =>
    u.name = c.peek.image ∧ Word u.name ∧
      (u.raw = "" ∨ IsVerbatim (signAfter (wordLexeme u.name) u.name) u.raw.toList) := by
  obtain ⟨hname, hraw, hnext⟩ := unknownBlock_eq c
  refine ⟨hnext ▸ (Cursor.Onward.advance c).trans (onward_blockBody c), fun hgen hok => ?_⟩
  obtain ⟨hwordName, hlexeme⟩ := hgen.word hword
  rw [hname]
  refine ⟨rfl, hwordName, ?_⟩
  rw [hraw, hlexeme]
  rw [hnext] at hok
  obtain ⟨s, pre, ws, im, w, m, hbefore, hcut⟩ :=
    hgen.cut (Cursor.atEnd_eq_false_of_isWord hword)
  have hclean : hasErrors (lexFrom true .start c.advance.source).diagnostics = false := by
    rw [(Cursor.Onward.advance c).source]
    exact hgen.2
  have hsign : signAfter c.peek.lexeme c.peek.image = signAfter m.lexeme (String.ofList im) := by
    rw [hcut.peek]
  have hsource : c.source = c.advance.source := (Cursor.Onward.advance c).source.symm
  rw [hsign, hsource]
  unfold blockBody at hok ⊢
  split at hok
  · rename_i hopen
    rw [if_pos hopen]
    obtain ⟨raw, y, ts, rfl, hcuts, hcloses, hvalue⟩ := balanced_cuts hcut.next hclean hok
    cases ts with
    | nil => exact hcloses.elim
    | cons k ts =>
      obtain ⟨r, rfl, -, hcuts', hmark, hslice⟩ := hcut.next.slice hcuts
      rw [hvalue, hslice]
      refine .inr ⟨y, _, ts, by rwa [String.toList_ofList], rfl, ?_⟩
      rw [if_pos (by rw [← hopen, hmark]; rfl)]
      exact hcloses
  · rename_i hopen
    rw [if_neg hopen]
    have hline : (Position.start.advance (pre ++ ws ++ im)).line = c.peek.span.stop.line := by
      rw [hcut.peek]
    obtain ⟨raw, y, ts, rfl, hcuts, hone, hends, hvalue⟩ :=
      restOfLine_cuts hcut.next hclean hline
    rw [hvalue]
    cases ts with
    | nil =>
      -- What comes next comes behind the name
      have hhere := hcut.next.notAfter_here.offset
      have hnone : ¬c.advance.here.offset < (Position.start.advance (pre ++ ws ++ im)).offset := by
        omega
      left
      rw [List.isEmpty_nil, if_pos rfl, hcut.peek, if_neg hnone]
    | cons k ts =>
      obtain ⟨r, rfl, -, hcuts', hmark, hslice⟩ := hcut.next.slice hcuts
      simp only [List.isEmpty_cons, Bool.false_eq_true, if_false]
      rw [hslice]
      refine .inr ⟨y, _, ts, by rwa [String.toList_ofList], rfl, ?_⟩
      rw [if_neg (by rw [hmark] at hopen; exact hopen), String.toList_ofList]
      obtain ⟨-, hk, hts⟩ := hone
      exact ⟨⟨by simp, hk, hts⟩, hends.1, fun hmem => hends.2 (List.mem_append_right _ hmem)⟩

end Parse

/-- How a block is written. -/
theorem toList_print_unknown (u : UnknownBlock) (depth : Nat) (mid : List Char) :
    (Item.print depth (.unknown u)).toList ++ mid = List.replicate (2 * depth) ' ' ++
      (u.name.toList ++ ((if u.raw = "" then [] else ' ' :: u.raw.toList) ++ '\n' :: mid)) := by
  rw [Item.print, toList_printLine]
  split <;> simp

theorem Cuts.space {k : RawToken} (h : Cuts y s raw (k :: ts)) (hk : k.blanks = []) :
    Cuts y s (' ' :: raw) ({ k with blanks := [' '] } :: ts) := by
  cases h with
  | cons hcut hrest =>
    obtain rfl := hk
    exact .cons hcut.space hrest

theorem IsVerbatim.ne_nil (h : IsVerbatim s raw) : raw ≠ [] := by
  obtain ⟨y, k, ts, hcuts, -⟩ := h
  cases hcuts with
  | cons hcut _ => simp [hcut.ne_nil]

/-- A run that was kept is read again behind a name, in front of a line feed. -/
theorem IsVerbatim.reread (h : IsVerbatim s raw) (hclear : isClearRaw raw = true)
    (hbefore : c.advance.Before s pre (' ' :: (raw ++ '\n' :: mid))) (hok : ¬c.advance.Failed)
    (hstop : c.peek.span.stop = Position.start.advance pre) :
    (if c.advance.here.offset < (Parse.blockBody c).value then
        slice c.advance.source c.advance.here.offset (Parse.blockBody c).value else []) = raw ∧
      (∃ s' pre', (Parse.blockBody c).next.Before s' pre' ('\n' :: mid)) ∧
      ¬(Parse.blockBody c).next.Failed := by
  obtain ⟨y, k, ts, hcuts, hblanks, hrun⟩ := h
  have hends : Ends y raw (k :: ts) := by
    split at hrun
    · exact hrun.ends y raw
    · exact .line hrun.2.1 hrun.2.2
  have hspace := (hcuts.lineFeed hends hclear mid).space hblanks
  obtain ⟨r, hr, -, -, hmark, hslice⟩ := hbefore.slice hspace
  obtain rfl : raw = r := (List.cons.inj hr).2
  have hopens : c.advance.atPunct Cursor.openBrace = k.token.isPunct Cursor.openBrace := hmark _
  unfold Parse.blockBody
  rw [hopens]
  split at hrun
  · rename_i hopen
    rw [if_pos hopen]
    obtain ⟨hvalue, ⟨s', hnext⟩, hfailed⟩ :=
      Parse.balanced_of_cuts hspace hrun hbefore hok c.peek.span.stop.offset
    rw [hvalue]
    exact ⟨hslice, ⟨s', _, hnext⟩, hfailed⟩
  · rename_i hopen
    rw [if_neg hopen]
    obtain ⟨-, hk, hts⟩ := hrun.1
    obtain ⟨hvalue, ⟨s', hnext⟩, hfailed⟩ := Parse.restOfLine_of_cuts hspace ⟨by simp, hk, hts⟩
      hbefore hok (congrArg Position.line hstop.symm) c.peek.span.stop.offset
    rw [hvalue]
    exact ⟨hslice, ⟨s', _, hnext⟩, hfailed⟩

/-- Nothing is read behind a name at the end of its line. -/
theorem blockBody_lineFeed (hmid : NextItem mid)
    (hbefore : c.advance.Before s pre ('\n' :: mid)) (hok : ¬c.advance.Failed)
    (hstop : c.peek.span.stop = Position.start.advance pre) :
    ¬c.advance.here.offset < (Parse.blockBody c).value ∧
      (∃ s' pre', (Parse.blockBody c).next.Before s' pre' ('\n' :: mid)) ∧
      ¬(Parse.blockBody c).next.Failed := by
  have hat : c.advance.At ('\n' :: mid) :=
    ⟨⟨pre, hbefore.calm (.inr hmid.calm.lineFeed)⟩, hok⟩
  have hopen : c.advance.atPunct Cursor.openBrace = false :=
    (hmid.absent (by decide)).peek _ hat
  obtain ⟨hvalue, ⟨s', hnext⟩, hfailed⟩ := Parse.restOfLine_of_cuts .nil trivial hbefore
    hok (congrArg Position.line hstop.symm) c.peek.span.stop.offset
  have hhere := hbefore.notAfter_here.offset
  unfold Parse.blockBody
  rw [hopen, if_neg (by decide)]
  refine ⟨?_, ⟨s', _, hnext⟩, hfailed⟩
  rw [hvalue, List.isEmpty_nil, if_pos rfl, hstop]
  omega

theorem Parse.Reads.unknownBlock {u : UnknownBlock} (h : u.WellFormed)
    (hclear : isClearRaw u.raw.toList = true) (depth : Nat) (hmid : NextItem mid) :
    Parse.unknownBlock.Reads ((Item.print depth (.unknown u)).toList ++ mid) mid
      fun v => v.name = u.name ∧ v.raw = u.raw := by
  rw [toList_print_unknown]
  refine throughLine (indent (fun c hc => ?_) _)
  obtain ⟨hname, hraw, hnext⟩ := Parse.unknownBlock_eq c
  have hfenced : Fenced ((if u.raw = "" then [] else ' ' :: u.raw.toList) ++ '\n' :: mid) := by
    split
    · exact fenced_lineFeed mid
    · exact fenced_space _
  obtain ⟨⟨m, hmunch, hlen, hclosed, hlex⟩, htrivia⟩ := h.name.1.munches_fenced hfenced
  rw [String.ofList_toList] at hlex
  obtain ⟨⟨pre, hbefore⟩, hok⟩ := hc
  have hcut : CutsOff true [] u.name.toList _ m := ⟨htrivia, hmunch, hlen, hclosed⟩
  have hbehind : c.Before true pre ([] ++ (u.name.toList ++
      ((if u.raw = "" then [] else ' ' :: u.raw.toList) ++ '\n' :: mid))) := hbefore
  obtain ⟨hpeek, -, hadvance⟩ := hbehind.cutsOff hcut
  rw [hlex, String.ofList_toList] at hadvance
  have hok' : ¬c.advance.Failed := by rwa [Cursor.failed_advance]
  have hstop : c.peek.span.stop = Position.start.advance (pre ++ ([] ++ u.name.toList)) := by
    rw [hpeek]
    simp
  have himage : c.peek.image = u.name := by rw [hpeek, String.ofList_toList]
  have hsource : c.source = c.advance.source := (Cursor.Onward.advance c).source.symm
  rw [Parsed.Reads, hname, hraw, hnext, himage, hsource]
  have hat (hafter : ∃ s' pre', (Parse.blockBody c).next.Before s' pre' ('\n' :: mid))
      (hfailed : ¬(Parse.blockBody c).next.Failed) : (Parse.blockBody c).next.At ('\n' :: mid) := by
    obtain ⟨s', pre', hafter⟩ := hafter
    exact ⟨⟨pre', hafter.calm (.inr hmid.calm.lineFeed)⟩, hfailed⟩
  rcases h.raw with hempty | hverbatim
  · rw [if_pos hempty] at hadvance
    obtain ⟨hvalue, hafter, hfailed⟩ := blockBody_lineFeed hmid hadvance hok' hstop
    rw [if_neg hvalue, hempty]
    exact ⟨⟨rfl, rfl⟩, hat hafter hfailed⟩
  · have hne : u.raw ≠ "" := fun hempty => hverbatim.ne_nil (by rw [hempty]; rfl)
    rw [if_neg hne] at hadvance
    obtain ⟨hvalue, hafter, hfailed⟩ := hverbatim.reread hclear hadvance hok' hstop
    rw [hvalue, String.ofList_toList]
    exact ⟨⟨rfl, rfl⟩, hat hafter hfailed⟩

end DiagramTour
