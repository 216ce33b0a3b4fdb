import DiagramTour.Proofs.Program.LaidItem
import DiagramTour.Proofs.Program.OneToken

/-!
# How far a block that is not understood goes

Behind its name such a block goes on to the brace that closes the first one, or to the end of the text
if there is none, or to the end of the line if it does not open with a brace.  What is kept of it is the
text from its first token to its last one, and reading goes on behind that.

## Architecture

- `Token.brace` tells what a token adds to the number of open braces, and `nesting` adds it up.
- `Extent` says which of the tokens behind a name belong to the block, and `exists_extent` that there
  always are such tokens.
- `Cursor.past` is the cursor behind some tokens.  `Parse.balanced_past` and `Parse.restOfLine_past`
  follow the two loops up to there, and `Parse.blockBody_of_extent` puts them together.
-/

namespace DiagramTour

variable {α : Type} {source : List Char} {c d e : Cursor} {name t : Token}
  {ts us ws kept later line : List Token} {depth stop : Nat}

/-! ## Places -/

/-- A span of places of the text covers the part of it between them. -/
theorem Span.IsPlaced.covers {s : Span} (h : s.IsPlaced source) :
    s.Covers source (slice source s.start.offset s.stop.offset) := by
  suffices hpart : ∃ part, s.Covers source part by
    obtain ⟨part, hpart⟩ := hpart
    exact hpart.slice ▸ hpart
  obtain ⟨hordered, ⟨before, hbefore, hstart⟩, ⟨upto, hupto, hstop⟩⟩ := h
  obtain ⟨start, stop⟩ := s
  obtain rfl : start = _ := hstart
  obtain rfl : stop = _ := hstop
  obtain ⟨after, rfl⟩ := hupto
  rcases List.prefix_or_prefix_of_prefix hbefore (List.prefix_append upto after) with hle | hle
  · obtain ⟨part, rfl⟩ := hle
    exact ⟨part, before, after, by simp, rfl⟩
  · obtain ⟨part, rfl⟩ := hle
    have hnil : part = [] := by
      by_contra hne
      have hpos := utf8Length_pos hne
      simp only [Position.behind, utf8Length_append] at hordered
      omega
    subst hnil
    exact ⟨[], upto, after, by simp, by simp⟩

/-- A later place stands on the same line or on a later one. -/
theorem Span.IsPlaced.line_le {s : Span} (h : s.IsPlaced source) : s.start.line ≤ s.stop.line := by
  obtain ⟨before, after, -, hs⟩ := h.covers
  rw [hs]
  simp only [Position.behind, List.count_append]
  omega

/-! ## Words -/

/-- A token was recognised at the head of what was left of the text. -/
theorem exists_munch_of_mem_tokens {s : Bool} {p : Position} {cs : List Char}
    (h : t ∈ (lexFrom s p cs).tokens) : ∃ s im rest m, munch? s (im ++ rest) = some m ∧
      m.length = im.length ∧ m.lexeme = t.lexeme ∧ t.image = String.ofList im := by
  induction hn : cs.length using Nat.strongRecOn generalizing s p cs with
  | _ n ih =>
    rw [lexFrom_eq] at h
    have hdrop : (cs.drop (triviaLength cs)).length ≤ n := by
      rw [List.length_drop, hn]
      omega
    generalize cs.drop (triviaLength cs) = body at *
    cases body with
    | nil => cases h
    | cons a rest =>
      rw [List.length_cons] at hdrop
      cases hm : munch? s (a :: rest) with
      | none =>
        simp only [lexBody, hm] at h
        exact ih rest.length (by omega) h rfl
      | some m =>
        have hpos := m.length_pos
        have hle := length_munch?_le hm
        simp only [lexBody, hm] at h
        rcases List.mem_cons.1 h with rfl | h
        · refine ⟨s, (a :: rest).take m.length, (a :: rest).drop m.length, m, ?_, ?_, rfl, rfl⟩
          · rwa [List.take_append_drop]
          · rw [List.length_take]
            exact (Nat.min_eq_left hle).symm
        · refine ih _ ?_ h rfl
          rw [List.length_drop, List.length_cons]
          omega

theorem closed_of_word? {m : Munch} {cs : List Char} (h : word? cs = some m) : m.closed = true := by
  unfold word? at h
  split at h
  · cases h
  · split at h <;> cases h
    rfl

/-- A word stands on one line. -/
theorem line_eq_of_isWord {text : String} (ht : t ∈ (lex text).tokens) (hword : t.isWord = true) :
    t.span.stop.line = t.span.start.line := by
  obtain ⟨s, im, rest, m, hm, hlen, hlex, himage⟩ := exists_munch_of_mem_tokens ht
  have hflat : '\n' ∉ im := by
    obtain ⟨hflat, hw⟩ := word?_of_munch? hm (hlex ▸ Token.lexeme_of_isWord hword)
    exact not_mem_of_flat? hflat hlen (closed_of_word? hw)
  obtain ⟨-, -, before, after, -, hspan⟩ :=
    Lexed.token_of_mem (cut_lexFrom true [] text.toList).1 ht
  rw [hspan, himage]
  simp only [Position.behind, List.count_append, String.toList_ofList]
  rw [List.count_eq_zero_of_not_mem hflat]
  rfl

/-- The tokens that are left start on lines that do not go back. -/
theorem Cursor.Stands.lines (h : c.Stands source) :
    c.rest.Pairwise fun t u => t.span.start.line ≤ u.span.start.line := by
  have hordered := h.ordered.imp_of_mem fun {t u} ht hu htu =>
    Span.IsPlaced.line_le (s := ⟨t.span.start, u.span.start⟩)
      ⟨Nat.le_of_lt (Nat.lt_of_lt_of_le htu.1 htu.2), (h.places t ht).1, (h.places u hu).1⟩
  exact (List.pairwise_append.1 hordered).1

/-! ## Braces -/

/-- What a token adds to the number of open braces.  Only punctuation marks count: a brace inside a
quoted text or a raw block is none, and of a comment there is no token. -/
def Token.brace (t : Token) : Int :=
  match t.lexeme with
  | .punct => if t.image = Cursor.openBrace then 1 else if t.image = Cursor.closeBrace then -1 else 0
  | _ => 0

/-- How many more braces some tokens open than they close. -/
def nesting (ts : List Token) : Int :=
  (ts.map Token.brace).sum

/-- However many of the tokens are read, some brace is open behind them. -/
def Unclosed (ts : List Token) : Prop :=
  ∀ us, us <+: ts → us ≠ [] → 0 < nesting us

theorem Token.brace_eq (t : Token) : t.brace =
    if t.isPunct Cursor.openBrace then 1 else if t.isPunct Cursor.closeBrace then -1 else 0 := by
  unfold brace isPunct
  cases t.lexeme <;> simp

theorem Token.punct_of_brace (h : t.brace ≠ 0) :
    t.lexeme = .punct ∧ (t.image = Cursor.openBrace ∨ t.image = Cursor.closeBrace) := by
  unfold brace at h
  split at h
  · rename_i hlex
    refine ⟨hlex, ?_⟩
    split_ifs at h with hopen hclose
    · exact .inl hopen
    · exact .inr hclose
    · exact absurd rfl h
  · exact absurd rfl h

theorem Token.brace_of_pos (h : 0 < t.brace) : t.brace = 1 ∧ t.isPunct Cursor.openBrace = true := by
  rw [brace_eq] at h ⊢
  by_cases hopen : t.isPunct Cursor.openBrace = true
  · exact ⟨if_pos hopen, hopen⟩
  · rw [if_neg hopen] at h
    split_ifs at h <;> omega

theorem Token.brace_of_neg (h : t.brace < 0) :
    t.brace = -1 ∧ t.isPunct Cursor.closeBrace = true := by
  rw [brace_eq] at h ⊢
  by_cases hopen : t.isPunct Cursor.openBrace = true
  · rw [if_pos hopen] at h
    omega
  · rw [if_neg hopen] at h ⊢
    by_cases hclose : t.isPunct Cursor.closeBrace = true
    · exact ⟨if_pos hclose, hclose⟩
    · rw [if_neg hclose] at h
      omega

@[simp] theorem nesting_nil : nesting [] = 0 := rfl

@[simp] theorem nesting_cons (t : Token) (ts : List Token) :
    nesting (t :: ts) = t.brace + nesting ts := by
  simp [nesting]

@[simp] theorem nesting_append (ts us : List Token) :
    nesting (ts ++ us) = nesting ts + nesting us := by
  simp [nesting]

theorem unclosed_nil : Unclosed [] :=
  fun _ hus hne => absurd (List.prefix_nil.1 hus) hne

theorem unclosed_concat : Unclosed (ts ++ [t]) ↔ Unclosed ts ∧ 0 < nesting (ts ++ [t]) := by
  constructor
  · exact fun h => ⟨fun us hus => h us (hus.trans (List.prefix_append ts [t])),
      h _ List.prefix_rfl (by simp)⟩
  · rintro ⟨hts, hlast⟩ us hus hne
    rcases List.prefix_concat_iff.1 hus with rfl | hus
    · exact hlast
    · exact hts us hus hne

theorem Unclosed.of_prefix (h : Unclosed ts) (hle : us <+: ts) : Unclosed us :=
  fun vs hvs => h vs (hvs.trans hle)

theorem Unclosed.isPunct (h : Unclosed (t :: ts)) : t.isPunct Cursor.openBrace = true :=
  (Token.brace_of_pos (by simpa using h [t] (by simp) (by simp))).2

/-- Some brace is open behind all of the tokens, or one of them is the first that leaves none open. -/
theorem unclosed_or (ts : List Token) : Unclosed ts ∨ ∃ block close later,
    ts = block ++ close :: later ∧ Unclosed block ∧ nesting (block ++ [close]) ≤ 0 := by
  induction ts using List.reverseRecOn with
  | nil => exact .inl unclosed_nil
  | append_singleton ts t ih =>
    rcases ih with hopen | ⟨block, close, later, rfl, hrest⟩
    · by_cases hlast : 0 < nesting (ts ++ [t])
      · exact .inl (unclosed_concat.2 ⟨hopen, hlast⟩)
      · exact .inr ⟨ts, t, [], by simp, hopen, Int.not_lt.1 hlast⟩
    · exact .inr ⟨block, close, later ++ [t], by simp, hrest⟩

/-- What leaves no brace open behind an open one is the brace that closes that one. -/
theorem Unclosed.close {close : Token} (h : Unclosed ts) (hne : ts ≠ []) (hclose : nesting (ts ++ [close]) ≤ 0) :
    nesting ts = 1 ∧ close.brace = -1 ∧ close.isPunct Cursor.closeBrace = true := by
  have hpos := h ts List.prefix_rfl hne
  rw [nesting_append, nesting_cons, nesting_nil] at hclose
  obtain ⟨hbrace, hmark⟩ := Token.brace_of_neg (t := close) (by omega)
  exact ⟨by omega, hbrace, hmark⟩

/-! ## Which tokens belong to a block -/

/-- Of the tokens behind a name, the first ones belong to its block and the second ones are left. -/
inductive Extent (name : Token) : List Token → List Token → Prop where
  /-- All up to the brace that closes the first one. -/
  | closed {first close : Token} {inner later : List Token} :
      first.isPunct Cursor.openBrace = true → Unclosed (first :: inner) →
      close.isPunct Cursor.closeBrace = true → nesting (first :: inner ++ [close]) = 0 →
      Extent name (first :: inner ++ [close]) later
  /-- All there are, where no brace closes the first one. -/
  | unclosed {first : Token} {inner : List Token} :
      first.isPunct Cursor.openBrace = true → Unclosed (first :: inner) →
      Extent name (first :: inner) []
  /-- Those that start on the line of the name, where the first one is no opening brace. -/
  | line {line later : List Token} :
      (∀ t ∈ (line ++ later).head?, t.isPunct Cursor.openBrace = false) →
      (∀ t ∈ line, t.span.start.line = name.span.start.line) →
      (∀ t ∈ later, name.span.start.line < t.span.start.line) → Extent name line later

/-- Tokens whose lines do not go back are those on the line of the name and those on later ones. -/
theorem exists_onLine (hlines : (name :: ts).Pairwise fun t u => t.span.start.line ≤ u.span.start.line) :
    ∃ line later, ts = line ++ later ∧ (∀ t ∈ line, t.span.start.line = name.span.start.line) ∧
      ∀ t ∈ later, name.span.start.line < t.span.start.line := by
  obtain ⟨hname, hordered⟩ := List.pairwise_cons.1 hlines
  let onLine (t : Token) : Bool := t.span.start.line == name.span.start.line
  refine ⟨ts.takeWhile onLine, ts.dropWhile onLine, List.takeWhile_append_dropWhile.symm,
    fun t ht => beq_iff_eq.1 (List.mem_takeWhile_imp (p := onLine) ht), ?_⟩
  -- The first token that is left starts on a later line, and the others do not start before it
  cases hlater : ts.dropWhile onLine with
  | nil => simp
  | cons first later =>
    have hsub : (first :: later).Sublist ts := hlater ▸ List.dropWhile_sublist onLine
    have hoff : onLine first = false := by
      have hhead := List.head_dropWhile_not onLine (l := ts) (by simp [hlater])
      simpa [hlater] using hhead
    have hfirst : name.span.start.line < first.span.start.line := by
      have hle := hname first (hsub.subset (by simp))
      have hne : first.span.start.line ≠ name.span.start.line := by simpa [onLine] using hoff
      omega
    have hrest := (List.pairwise_cons.1 (hordered.sublist hsub)).1
    exact List.forall_mem_cons.2 ⟨hfirst, fun t ht => Nat.lt_of_lt_of_le hfirst (hrest t ht)⟩

/-- Some of the tokens behind a name belong to its block, whatever they are. -/
theorem exists_extent (hlines : (name :: ts).Pairwise fun t u => t.span.start.line ≤ u.span.start.line) :
    ∃ kept later, ts = kept ++ later ∧ Extent name kept later := by
  by_cases hopens : ∃ t ∈ ts.head?, t.isPunct Cursor.openBrace = true
  · obtain ⟨first, hfirst, hopen⟩ := hopens
    obtain ⟨inner, rfl⟩ : ∃ inner, ts = first :: inner := List.head?_eq_some_iff.1 hfirst
    rcases unclosed_or (first :: inner) with hall | ⟨block, close, later, heq, hblock, hclose⟩
    · exact ⟨_, [], by simp, .unclosed hopen hall⟩
    · cases block with
      | nil =>
        -- The opening brace leaves one brace open
        obtain ⟨rfl, -⟩ := List.cons.inj heq
        rw [List.nil_append, nesting_cons, nesting_nil, Token.brace_eq, if_pos hopen] at hclose
        omega
      | cons t block =>
        obtain ⟨rfl, rfl⟩ := List.cons.inj heq
        obtain ⟨hone, hbrace, hmark⟩ := hblock.close (by simp) hclose
        refine ⟨first :: block ++ [close], later, by simp, .closed hopen hblock hmark ?_⟩
        rw [nesting_append, hone, nesting_cons, hbrace, nesting_nil]
        rfl
  · obtain ⟨line, later, rfl, hon, hlater⟩ := exists_onLine hlines
    exact ⟨line, later, rfl, .line
      (fun t ht => Bool.eq_false_iff.2 fun hopen => hopens ⟨t, ht, hopen⟩) hon hlater⟩

/-- Some brace is open behind each part of a block between braces. -/
theorem Extent.unclosed_of_append (h : Extent name kept later)
    (hopen : ∀ t ∈ kept.head?, t.isPunct Cursor.openBrace = true) (heq : kept = us ++ ws)
    (hws : ws ≠ []) : Unclosed us := by
  have hle : us <+: kept := ⟨ws, heq.symm⟩
  cases h with
  | closed _ hblock _ _ =>
    refine hblock.of_prefix ((List.prefix_concat_iff.1 hle).resolve_left ?_)
    rintro rfl
    exact hws (by simpa using heq)
  | unclosed _ hblock => exact hblock.of_prefix hle
  | line hfirst _ _ =>
    have hne : kept ≠ [] := by
      rintro rfl
      exact hws (List.append_eq_nil_iff.1 heq.symm).2
    obtain ⟨first, inner, rfl⟩ := List.exists_cons_of_ne_nil hne
    have hmark := hfirst first rfl
    rw [hopen first rfl] at hmark
    cases hmark

/-! ## Reading up to there -/

/-- What is read from the one cursor on is what is read from the other one on. -/
def Parsed.GoesOnAs (r : Parsed c α) (r' : Parsed d α) : Prop :=
  r.value = r'.value ∧ r.next = r'.next

theorem Parsed.GoesOnAs.trans {r : Parsed c α} {r' : Parsed d α} {r'' : Parsed e α}
    (h : r.GoesOnAs r') (h' : r'.GoesOnAs r'') : r.GoesOnAs r'' :=
  ⟨h.1.trans h'.1, h.2.trans h'.2⟩

namespace Cursor

/-- The cursor behind the first tokens and in front of the second ones. -/
def past (c : Cursor) (us ws : List Token) : Cursor :=
  { c with rest := ws, lastStop := us.foldl (fun _ t => t.span.stop) c.lastStop }

theorem rest_advance (h : c.rest = t :: ts) : c.advance.rest = ts := by
  rw [advance_of_rest h]

theorem lastStop_of_rest (h : c.rest = t :: ts) : c.advance.lastStop = t.span.stop := by
  rw [advance_of_rest h]

theorem past_nil (h : c.rest = ws) : c.past [] ws = c := by
  subst h
  rfl

theorem past_cons (h : c.rest = t :: ts) : c.past (t :: us) ws = c.advance.past us ws := by
  rw [advance_of_rest h]
  rfl

theorem advance_past (c : Cursor) (us ws : List Token) :
    (c.past us (t :: ws)).advance = c.past (us ++ [t]) ws := by
  simp [past, advance]

theorem lastStop_past (c : Cursor) (us ws : List Token) :
    (c.past us ws).lastStop = (us.getLast?.map (·.span.stop)).getD c.lastStop := by
  induction us using List.reverseRecOn with
  | nil => rfl
  | append_singleton us t => simp [past]

end Cursor

namespace Parse

/-- The counter goes up and down with the braces, as long as one is open. -/
theorem balanced_step (h : c.rest = t :: ts) (hopen : 0 < (depth : Int) + t.brace) :
    (balanced depth stop c).GoesOnAs
      (balanced (depth + t.brace).toNat t.span.stop.offset c.advance) := by
  have hpeek := Cursor.peek_of_rest h
  have hend : ¬c.atEnd = true := by simp [Cursor.atEnd, h]
  rw [balanced, dif_neg hend]
  unfold Cursor.atPunct
  rw [hpeek]
  rw [Token.brace_eq] at hopen ⊢
  dsimp only
  split_ifs at hopen ⊢ with hbrace hclose hone
  · exact ⟨rfl, rfl⟩
  · subst hone
    omega
  · have hdepth : ((depth : Int) + -1).toNat = depth - 1 := by omega
    rw [hdepth]
    exact ⟨rfl, rfl⟩
  · rw [Int.add_zero, Int.toNat_natCast]
    exact ⟨rfl, rfl⟩

/-- Behind some tokens the counter tells how many braces are open there, if none of the tokens before
has closed the last one. -/
theorem balanced_past (depth : Nat) (h : c.rest = us ++ ws)
    (hopen : ∀ ts, ts <+: us → ts ≠ [] → 0 < (depth : Int) + nesting ts) :
    (balanced depth c.lastStop.offset c).GoesOnAs
      (balanced (depth + nesting us).toNat (c.past us ws).lastStop.offset (c.past us ws)) := by
  -- On the tokens that are read; what is open behind the first one is where the counter starts next
  induction us generalizing c depth with
  | nil =>
    rw [List.nil_append] at h
    rw [Cursor.past_nil h, nesting_nil, Int.add_zero, Int.toNat_natCast]
    exact ⟨rfl, rfl⟩
  | cons t us ih =>
    have hfirst : 0 < (depth : Int) + t.brace := by simpa using hopen [t] (by simp) (by simp)
    have hdepth : (((depth : Int) + t.brace).toNat : Int) = depth + t.brace := by omega
    have hmore := ih ((depth : Int) + t.brace).toNat (Cursor.rest_advance h) fun ts hts hne => by
      have hlater := hopen (t :: ts) (List.cons_prefix_cons.2 ⟨rfl, hts⟩) (by simp)
      rw [nesting_cons] at hlater
      omega
    rw [hdepth, Cursor.lastStop_of_rest h] at hmore
    rw [Cursor.past_cons h, nesting_cons, ← Int.add_assoc]
    exact (balanced_step h hfirst).trans hmore

/-- The rest of a line are the tokens up to the first one that starts on another line. -/
theorem restOfLine_past {n : Nat} (h : c.rest = line ++ later)
    (hline : ∀ t ∈ line, t.span.start.line = n)
    (hlater : ∀ t ∈ later.head?, t.span.start.line ≠ n) :
    (restOfLine n c.lastStop.offset c).value = (c.past line later).lastStop.offset ∧
      (restOfLine n c.lastStop.offset c).next = c.past line later := by
  induction line generalizing c with
  | nil =>
    rw [List.nil_append] at h
    rw [Cursor.past_nil h, restOfLine]
    split_ifs with hend hon
    · exact ⟨rfl, rfl⟩
    · cases later with
      | nil => simp [Cursor.atEnd, h] at hend
      | cons t later =>
        rw [Cursor.here, Cursor.peek_of_rest h] at hon
        exact absurd hon (hlater t rfl)
    · exact ⟨rfl, rfl⟩
  | cons t line ih =>
    have hpeek := Cursor.peek_of_rest h
    have hend : ¬c.atEnd = true := by simp [Cursor.atEnd, h]
    have hon : c.here.line = n := by
      rw [Cursor.here, hpeek]
      exact hline t (by simp)
    rw [Cursor.past_cons h, restOfLine, dif_neg hend, if_pos hon, hpeek, ← Cursor.lastStop_of_rest h]
    exact ih (Cursor.rest_advance h) fun u hu => hline u (by simp [hu])

/-- The counter of open braces behind some tokens of a block. -/
theorem blockBody_past (h : c.rest = name :: (us ++ ws)) (hne : us ≠ []) (hopen : Unclosed us) :
    (blockBody c).GoesOnAs (balanced (nesting us).toNat (c.advance.past us ws).lastStop.offset
      (c.advance.past us ws)) := by
  obtain ⟨first, us, rfl⟩ := List.exists_cons_of_ne_nil hne
  have hrest := Cursor.rest_advance h
  have hbrace : c.advance.atPunct Cursor.openBrace = true := by
    rw [Cursor.atPunct, Cursor.peek_of_rest hrest]
    exact hopen.isPunct
  rw [blockBody, if_pos hbrace, Cursor.peek_of_rest h, ← Cursor.lastStop_of_rest h]
  simpa using balanced_past 0 hrest fun ts hts hts' => by simpa using hopen ts hts hts'

/-- The brace that closes the last open one ends the block. -/
theorem balanced_close (stop : Nat) (h : c.rest = t :: ts) (hclose : t.brace = -1) :
    (balanced 1 stop c).value = t.span.stop.offset ∧ (balanced 1 stop c).next = c.advance := by
  have hend : ¬c.atEnd = true := by simp [Cursor.atEnd, h]
  have hmark := (Token.brace_of_neg (t := t) (by omega)).2
  have hopen : ¬t.isPunct Cursor.openBrace = true := fun hopen => by
    rw [Token.brace_eq, if_pos hopen] at hclose
    omega
  rw [balanced, dif_neg hend]
  unfold Cursor.atPunct
  rw [Cursor.peek_of_rest h]
  dsimp only
  rw [if_neg hopen, if_pos hmark, if_pos rfl]
  exact ⟨rfl, rfl⟩

/-- Without a closing brace that is reported, at the end of the text. -/
theorem balanced_end (depth stop : Nat) (h : c.rest = []) : (balanced depth stop c).value = stop ∧
    (balanced depth stop c).next.rest = [] ∧
    ⟨.unexpectedEnd "`\x7d`", .point c.stop⟩ ∈ (balanced depth stop c).next.reports.toList := by
  have hend : c.atEnd = true := by simp [Cursor.atEnd, h]
  have hreport : c.unexpected "`\x7d`" = c.report (.unexpectedEnd "`\x7d`") (.point c.stop) := by
    unfold Cursor.unexpected
    rw [if_pos hend, Cursor.peek, h]
    rfl
  have hnext : (balanced depth stop c).next = c.unexpected "`\x7d`" := by
    rw [balanced, dif_pos hend]
  rw [hnext, hreport]
  refine ⟨by rw [balanced, dif_pos hend], h, by simp [Cursor.report]⟩

/-- Behind a name the tokens of its block are read and no others. -/
theorem blockBody_of_extent (h : c.rest = name :: (kept ++ later))
    (hname : name.span.stop.line = name.span.start.line) (hextent : Extent name kept later) :
    (blockBody c).value = (c.advance.past kept later).lastStop.offset ∧
      (blockBody c).next.rest = later ∧
      (kept ≠ [] → Unclosed kept →
        ⟨.unexpectedEnd "`\x7d`", .point c.stop⟩ ∈ (blockBody c).next.reports.toList) := by
  cases hextent with
  | @closed first close inner later _ hblock _ hnone =>
    rw [List.append_assoc, List.singleton_append] at h
    obtain ⟨hone, hbrace, -⟩ := hblock.close (by simp) (Int.le_of_eq hnone)
    obtain ⟨hvalue, hnext⟩ := blockBody_past h (by simp) hblock
    have hrest : (c.advance.past (first :: inner) (close :: later)).rest = close :: later := rfl
    obtain ⟨hclose, hlast⟩ := balanced_close
      (c.advance.past (first :: inner) (close :: later)).lastStop.offset hrest hbrace
    rw [hone, Int.toNat_one] at hvalue hnext
    rw [hvalue, hnext]
    -- All braces are closed at the end, so that no open one has to be reported
    refine ⟨?_, ?_, fun _ hopen => ?_⟩
    · rw [hclose, Cursor.lastStop_past, List.getLast?_concat]
      rfl
    · exact (congrArg Cursor.rest hlast).trans (by rw [Cursor.advance_past]; rfl)
    · have hpos := hopen _ List.prefix_rfl (by simp)
      omega
  | @unclosed first inner _ hblock =>
    obtain ⟨hvalue, hnext⟩ := blockBody_past h (by simp) hblock
    rw [hvalue, hnext]
    have hend : (c.advance.past (first :: inner) []).rest = [] := rfl
    obtain ⟨hstop, hrest, hreport⟩ := balanced_end (nesting (first :: inner)).toNat
      (c.advance.past (first :: inner) []).lastStop.offset hend
    refine ⟨hstop, hrest, fun _ _ => ?_⟩
    rw [Cursor.advance_of_rest h] at hreport ⊢
    exact hreport
  | line hfirst hon hlater =>
    have hrest := Cursor.rest_advance h
    have hbrace : c.advance.atPunct Cursor.openBrace = false := by
      -- At the end of the text no brace comes next either
      rw [Cursor.atPunct]
      cases hhead : kept ++ later with
      | nil => simp [Cursor.peek, hrest, hhead, Token.endAt, Token.isPunct]
      | cons first ts =>
        rw [Cursor.peek_of_rest (hrest.trans hhead)]
        exact hfirst first (by rw [hhead]; rfl)
    rw [blockBody, if_neg (by simp [hbrace]), Cursor.peek_of_rest h, hname, ← Cursor.lastStop_of_rest h]
    obtain ⟨hvalue, hnext⟩ := restOfLine_past hrest hon fun t ht =>
      Nat.ne_of_gt (hlater t (List.mem_of_mem_head? ht))
    refine ⟨hvalue, by rw [hnext]; rfl, fun hne hopen => ?_⟩
    obtain ⟨first, inner, rfl⟩ := List.exists_cons_of_ne_nil hne
    have hmark := hfirst first rfl
    rw [hopen.isPunct] at hmark
    cases hmark

end Parse

/-! ## What is kept of it -/

/-- The text is what the tokens cover, from where the first one starts to where the last one ends. -/
def TextOf (source : List Char) (ts : List Token) (part : List Char) : Prop :=
  (ts = [] ∧ part = []) ∨ ∃ first last, ts.head? = some first ∧ ts.getLast? = some last ∧
    (⟨first.span.start, last.span.stop⟩ : Span).Covers source part

/-- What lies between the first and the last of some tokens that come next is a part of the text. -/
theorem Cursor.Stands.isPlaced {first last : Token} (h : c.Stands source)
    (hrest : c.rest = us ++ ws) (hfirst : us.head? = some first) (hlast : us.getLast? = some last) :
    (⟨first.span.start, last.span.stop⟩ : Span).IsPlaced source ∧
      first.span.start.offset < last.span.stop.offset := by
  have hmem : first ∈ us ∧ last ∈ us := ⟨List.mem_of_mem_head? hfirst, List.mem_of_getLast? hlast⟩
  have hplaces {t : Token} (ht : t ∈ us) := h.places t (by simp [hrest, ht])
  have hordered := h.ordered
  rw [hrest, List.append_assoc, List.pairwise_append] at hordered
  have hpos {t : Token} (ht : t ∈ us) : t.span.start.offset < t.span.stop.offset :=
    (hordered.2.2 t ht (.endAt c.stop) (by simp)).1
  have hlt : first.span.start.offset < last.span.stop.offset := by
    obtain ⟨inner, rfl⟩ := List.head?_eq_some_iff.1 hfirst
    rcases List.mem_cons.1 hmem.2 with rfl | hinner
    · exact hpos hmem.1
    · have hbehind := (List.pairwise_cons.1 hordered.1).1 last hinner
      have hend := hpos hmem.2
      omega
  exact ⟨⟨Nat.le_of_lt hlt, (hplaces hmem.1).1, (hplaces hmem.2).2⟩, hlt⟩

/-- What is kept of a block is the text of its tokens. -/
theorem Parse.textOf_unknownBlock (hc : c.Stands source) (hsource : c.source = source)
    (h : c.rest = name :: (kept ++ later)) (hname : name.span.stop.line = name.span.start.line)
    (hextent : Extent name kept later) :
    TextOf source kept (unknownBlock c).value.raw.toList := by
  have hstands := (Cursor.Ahead.advance hc).stands
  have hrest := Cursor.rest_advance h
  obtain ⟨-, hraw, -⟩ := unknownBlock_eq c
  rw [hraw, (blockBody_of_extent h hname hextent).1, Cursor.lastStop_past, String.toList_ofList, hsource]
  cases kept with
  | nil =>
    refine .inl ⟨rfl, if_neg (Nat.not_lt.2 ?_)⟩
    exact hstands.behind
  | cons first inner =>
    obtain ⟨last, hlast⟩ : ∃ last, (first :: inner).getLast? = some last :=
      ⟨_, List.getLast?_eq_some_getLast (by simp)⟩
    obtain ⟨hplaced, hlt⟩ := hstands.isPlaced hrest rfl hlast
    have hhere : c.advance.here = first.span.start := by rw [Cursor.here, Cursor.peek_of_rest hrest]
    rw [hlast, Option.map_some, Option.getD_some, hhere, if_pos hlt]
    exact .inr ⟨first, last, rfl, hlast, hplaced.covers⟩

end DiagramTour
