import DiagramTour.Proofs.Program.Clear
import DiagramTour.Proofs.Program.Standing

/-!
# Text that is kept as it was written

What is not understood is kept as a run of tokens with the blanks and comments between them.  Where
such a run ends no token goes on, so it is cut into the same tokens when a line feed comes next.
Only a raw block that opens in the run could reach beyond it, unless it is closed there.
-/

namespace DiagramTour

variable {s : Bool} {m : Munch} {c : Char} {cs ws im r t x y : List Char}

/-! ## Blanks and comments -/

/-- Up to a line feed the digits of a colour do not depend on what comes later. -/
theorem colorDigits?_line (h : '\n' ∈ cs) (x y : List Char) :
    colorDigits? (cs ++ x) = colorDigits? (cs ++ y) := by
  obtain ⟨as, bs, rfl⟩ := List.append_of_mem h
  simp only [List.append_assoc, List.cons_append,
    colorDigits?_fence (isFence_of_isBlank (c := '\n') (by decide))]

theorem opensComment_line (h : '\n' ∈ cs) (x y : List Char) :
    opensComment (c :: (cs ++ x)) = opensComment (c :: (cs ++ y)) := by
  cases cs with
  | nil => simp at h
  | cons d ds =>
    by_cases hslash : c = '/'
    · subst hslash
      by_cases hd : d = '/'
      · simp [opensComment, hd]
      · simp [opensComment, hd]
    by_cases hhash : c = '#'
    · subst hhash
      simp only [opensComment, colorDigits?_line h x y]
    rw [opensComment_of_ne hslash hhash, opensComment_of_ne hslash hhash]

/-- Whatever token comes next, the blanks and comments before it are the same. -/
theorem triviaLength_append (h : triviaLength (ws ++ c :: cs) = ws.length)
    (hx : triviaLength x = 0) :
    triviaLength (c :: cs) = 0 ∧ triviaLength (ws ++ x) = ws.length := by
  have hboth : ∀ ws : List Char,
      (triviaLength (ws ++ c :: cs) = ws.length →
        triviaLength (c :: cs) = 0 ∧ triviaLength (ws ++ x) = ws.length) ∧
      (commentLength (ws ++ c :: cs) = ws.length →
        '\n' ∈ ws ∧ triviaLength (c :: cs) = 0 ∧ commentLength (ws ++ x) = ws.length) := by
    intro ws
    induction ws with
    | nil =>
      refine ⟨fun h => ⟨h, hx⟩, fun h => ?_⟩
      -- A comment goes on for one character at least
      rw [List.nil_append, commentLength_cons] at h
      split at h <;> simp at h
    | cons b ws ih =>
      refine ⟨fun h => ?_, fun h => ?_⟩
      · rw [List.cons_append, triviaLength_cons] at h
        rw [List.cons_append, triviaLength_cons b (ws ++ x)]
        split at h
        · rename_i hb
          obtain ⟨h0, h1⟩ := ih.1 (by simpa using h)
          rw [if_pos hb, h1]
          exact ⟨h0, rfl⟩
        · rename_i hb
          split at h
          · rename_i hopens
            obtain ⟨hline, h0, h1⟩ := ih.2 (by simpa using h)
            rw [if_neg hb, if_pos (opensComment_line hline _ x ▸ hopens), h1]
            exact ⟨h0, rfl⟩
          · simp at h
      · rw [List.cons_append, commentLength_cons] at h
        rw [List.cons_append, commentLength_cons]
        split at h
        · rename_i hb
          obtain ⟨h0, h1⟩ := ih.1 (by simpa using h)
          rw [if_pos hb, h1, hb]
          exact ⟨List.mem_cons_self, h0, rfl⟩
        · rename_i hb
          obtain ⟨hline, h0, h1⟩ := ih.2 (by simpa using h)
          rw [if_neg hb, h1]
          exact ⟨List.mem_cons_of_mem _ hline, h0, rfl⟩
  exact (hboth ws).1 h

/-! ## Raw blocks -/

theorem opensRaw_rawImage {tag header lines : List Char} (h : RawParts tag header lines)
    (post : List Char) : opensRaw (rawImage tag header lines ++ post) = true := by
  obtain ⟨c, cs, rfl, hc, hcs⟩ := h.tagged
  obtain ⟨-, hdrop⟩ := takeWhile_tag hcs h.blank (lines ++ closingMark (c :: cs) ++ post)
  have hnl : '\n' ∉ header := fun hmem => (h.blank _ hmem).2 rfl
  have himage : rawImage (c :: cs) header lines ++ post = '<' :: '<' :: '<' :: c ::
      (cs ++ (header ++ '\n' :: (lines ++ closingMark (c :: cs) ++ post))) := by
    simp [rawImage]
  rw [himage]
  simp only [opensRaw, hc, Bool.true_and, hdrop, (takeWhile_line hnl _).1]
  simpa using fun x hx => (h.blank x hx).1

/-- A raw block that is recognised opens there. -/
theorem opensRaw_of_heredoc? (h : heredoc? cs = some m) : opensRaw cs = true := by
  obtain ⟨tag, header, lines, post, hparts, -, rfl, -⟩ := rawParts_of_heredoc? h
  exact opensRaw_rawImage hparts post

theorem exists_of_opensRaw (h : opensRaw cs = true) : ∃ c r, cs = '<' :: '<' :: '<' :: c :: r ∧
    startsTag c = true ∧
    ((r.dropWhile continuesTag).takeWhile (· != '\n')).all Text.isBlank = true := by
  unfold opensRaw at h
  split at h
  · exact ⟨_, _, rfl, Bool.and_eq_true_iff.1 h⟩
  · cases h

/-- A raw block opens on one line. -/
theorem opensRaw_of_append_lineFeed (h : opensRaw (t ++ '\n' :: x) = true) : opensRaw t = true := by
  obtain ⟨c, r, heq, hc, hblank⟩ := exists_of_opensRaw h
  match t with
  | [] | [_] | [_, _] => simp at heq
  | [_, _, _] =>
    obtain ⟨-, -, -, rfl, -⟩ : _ = '<' ∧ _ = '<' ∧ _ = '<' ∧ '\n' = c ∧ x = r := by simpa using heq
    exact absurd hc (by decide)
  | a :: b :: d :: e :: t =>
    obtain ⟨rfl, rfl, rfl, rfl, rfl⟩ :
        a = '<' ∧ b = '<' ∧ d = '<' ∧ e = c ∧ t ++ '\n' :: x = r := by simpa using heq
    rw [dropWhile_fence (z := '\n') (by decide), takeWhile_fence (z := '\n') (by decide)] at hblank
    simp only [opensRaw, hc, Bool.true_and, hblank]

/-- What closes a raw block is the rest of its closing line, or more than that. -/
def ClosesRaw (t y : List Char) : Prop :=
  EndsLine y ∨ ∃ r, t = r ++ ['\x7d']

theorem getLast?_rawImage (tag header lines : List Char) :
    (rawImage tag header lines).getLast? = some '>' := by
  have h : rawImage tag header lines =
      '<' :: '<' :: '<' :: (tag ++ (header ++ '\n' :: (lines ++ (tag ++ ['>', '>'])))) ++ ['>'] := by
    simp [rawImage, closingMark]
  rw [h, List.getLast?_concat]

/-- A raw block that is closed in a text is recognised whatever stands behind the text. -/
theorem heredoc?_append (h : heredoc? t = some m) (hy : ClosesRaw t y) :
    ∃ k, heredoc? (t ++ y) = some k ∧ k.length = m.length ∧ k.closed = m.closed ∧
      k.lexeme = m.lexeme := by
  obtain ⟨tag, header, lines, post, hparts, hpost, rfl, hlen, hclosed, hlex⟩ := rawParts_of_heredoc? h
  have hline : EndsLine (post ++ y) := by
    by_cases hmem : '\n' ∈ post
    · exact (endsLine_append_iff hmem y).2 hpost
    · -- What ends with a brace has more lines than that
      have hreturns : ∀ a ∈ post, a = '\r' := by
        intro a ha
        refine hpost a ?_
        rwa [List.takeWhile_eq_self_iff.2 fun b hb => by
          simp only [bne_iff_ne]
          rintro rfl
          exact hmem hb]
      rcases hy with hy | ⟨r, hr⟩
      · intro a ha
        rw [(takeWhile_line hmem y).1] at ha
        exact (List.mem_append.1 ha).elim (hreturns a) (hy a)
      · exfalso
        have hlast := congrArg List.getLast? hr
        rw [List.getLast?_append, List.getLast?_append] at hlast
        cases hp : post.getLast? with
        | none =>
          rw [hp, getLast?_rawImage] at hlast
          simp at hlast
        | some a =>
          rw [hp] at hlast
          have ha := hreturns a (List.mem_of_getLast? hp)
          simp [ha] at hlast
  obtain ⟨k, hk, hklen, hkclosed, hklex⟩ := heredoc?_rawImage hparts hline
  rw [List.append_assoc]
  exact ⟨k, hk, hklen.trans hlen.symm, hkclosed.trans hclosed.symm, hklex.trans hlex.symm⟩

theorem mem_lineFeed_of_heredoc? (h : heredoc? t = some m) : '\n' ∈ t := by
  obtain ⟨tag, header, lines, post, -, -, rfl, -⟩ := rawParts_of_heredoc? h
  simp [rawImage]

theorem Munch.eq_of_fields {k m : Munch} (hlex : k.lexeme = m.lexeme) (hlen : k.length = m.length)
    (hclosed : k.closed = m.closed) : k = m := by
  cases k
  cases m
  simp_all

/-- If what comes first ends within a text, the raw blocks there are the same before a line feed. -/
theorem heredoc?_lineFeed (h : munch? s (t ++ y) = some m) (hlen : m.length ≤ t.length)
    (hclear : opensRaw t = true → (heredoc? t).isSome) (hy : '\n' ∈ t → ClosesRaw t y)
    (x : List Char) : heredoc? (t ++ '\n' :: x) = heredoc? (t ++ y) := by
  cases hopens : opensRaw t with
  | true =>
    obtain ⟨m₀, hm₀⟩ := Option.isSome_iff_exists.1 (hclear hopens)
    obtain ⟨k, hk, hlen, hclosed, hlex⟩ := heredoc?_append hm₀ (hy (mem_lineFeed_of_heredoc? hm₀))
    obtain ⟨k', hk', hlen', hclosed', hlex'⟩ := heredoc?_append (y := '\n' :: x) hm₀
      (.inl (by simp [EndsLine]))
    rw [hk, hk', Munch.eq_of_fields (hlex'.trans hlex.symm) (hlen'.trans hlen.symm)
      (hclosed'.trans hclosed.symm)]
  | false =>
    have hnone : heredoc? (t ++ y) = none := by
      rw [Option.eq_none_iff_forall_ne_some]
      intro k hk
      obtain ⟨tag, header, lines, post, hparts, -, heq, hklen, -⟩ := rawParts_of_heredoc? hk
      have hkm : k = m := by
        rw [munch?_eq, hk] at h
        exact Option.some.inj h
      -- A block that ends within the text opens there
      have hpre : rawImage tag header lines <+: t :=
        List.prefix_of_prefix_length_le ⟨post, heq.symm⟩ (List.prefix_append t y) (by
          rw [← hklen, hkm]
          exact hlen)
      obtain ⟨post', rfl⟩ := hpre
      rw [opensRaw_rawImage hparts] at hopens
      cases hopens
    rw [hnone, Option.eq_none_iff_forall_ne_some]
    intro k hk
    rw [opensRaw_of_append_lineFeed (opensRaw_of_heredoc? hk)] at hopens
    cases hopens

/-! ## Runs of tokens -/

/-- A token with the blanks and comments before it. -/
structure RawToken where
  blanks : List Char
  image : List Char
  lexeme : Lexeme

/-- Behind blanks and comments stands a token, and behind the token `rest`. -/
structure CutsOff (s : Bool) (ws im rest : List Char) (m : Munch) : Prop where
  trivia : triviaLength (ws ++ (im ++ rest)) = ws.length
  munch : munch? s (im ++ rest) = some m
  length : m.length = im.length
  closed : m.closed = true

/-- Before `y` a text is cut into these tokens. -/
inductive Cuts (y : List Char) : Bool → List Char → List RawToken → Prop
  | nil {s : Bool} : Cuts y s [] []
  | cons {s : Bool} {ws im r : List Char} {m : Munch} {ts : List RawToken} :
      CutsOff s ws im (r ++ y) m → Cuts y (signAfter m.lexeme (String.ofList im)) r ts →
      Cuts y s (ws ++ (im ++ r)) (⟨ws, im, m.lexeme⟩ :: ts)

variable {ts : List RawToken} {k : RawToken}

/-- No token goes on beyond what it is before: the end of the text or a fence. -/
def Stops (y : List Char) : Prop :=
  y = [] ∨ ∃ z x, y = z :: x ∧ IsFence z

/-- A brace is a token of its own, whatever stands around it. -/
theorem flat?_brace (s : Bool) (cs : List Char) :
    flat? s ('\x7d' :: cs) = flat? false ['\x7d'] := by
  have hflat (s : Bool) (cs : List Char) :
      flat? s ('\x7d' :: cs) =
        some { lexeme := .punct, length := 1, length_pos := Nat.one_pos } := by
    have hop : operator? ('\x7d' :: cs) = none := by
      cases cs <;> simp [operator?, isShortOperator, isLongOperator]
    have hword : word? ('\x7d' :: cs) = none := by
      rw [word?, if_neg (by decide)]
    rw [flat?, string?_of_ne (by decide) (by decide), color?_of_ne (by decide),
      number?_of_ne (by decide) (by decide) (by decide), hword, hop]
    rfl
  rw [hflat s cs, hflat false []]

theorem flat?_blank {b : Char} (hb : Text.isBlank b = true) (h : flat? s (im ++ (r ++ y)) = some m)
    (hlen : m.length = im.length) (hclosed : m.closed = true)
    (hend : Stops y ∨ (∃ r₀, r = r₀ ++ ['\x7d']) ∨ im = ['\x7d']) (x : List Char) :
    flat? s (im ++ (r ++ b :: x)) = some m := by
  have hne := ne_nil_of_length_eq m hlen
  have hline : IsFence b := isFence_of_isBlank hb
  rcases hend with (rfl | ⟨z, x', rfl, hz⟩) | ⟨r₀, rfl⟩ | rfl
  · rw [List.append_nil] at h
    rw [← List.append_assoc]
    exact flat?_fence hline h hclosed x
  · rw [← List.append_assoc] at h ⊢
    exact flat?_fence hline (flat?_of_fence hz (by simp [hne]) h hclosed (by simp [hlen])) hclosed x
  · have hbrace : IsFence '\x7d' := by decide
    have heq (z : List Char) : im ++ (r₀ ++ ['\x7d'] ++ z) = im ++ r₀ ++ '\x7d' :: z := by simp
    rw [heq] at h ⊢
    exact flat?_fence hbrace (flat?_of_fence hbrace (by simp [hne]) h hclosed (by simp [hlen]))
      hclosed _
  · rw [List.singleton_append, flat?_brace] at h ⊢
    exact h

theorem isClearRaw_of_suffix (h : isClearRaw (ws ++ t) = true) : isClearRaw t = true := by
  rw [isClearRaw, List.all_eq_true] at h ⊢
  intro cs hcs
  refine h cs ?_
  rw [List.mem_tails] at hcs ⊢
  exact hcs.trans (List.suffix_append ws t)

theorem isSome_of_isClearRaw (h : isClearRaw t = true) (hopens : opensRaw t = true) :
    (heredoc? t).isSome := by
  rw [isClearRaw, List.all_eq_true] at h
  simpa [hopens] using h t ((List.mem_tails _ _).2 (List.suffix_refl t))

theorem opensComment_slash (cs : List Char) :
    opensComment ('/' :: cs) = (cs.head? == some '/') := by
  cases cs with
  | nil => rfl
  | cons d ds =>
    by_cases hd : d = '/' <;> simp [opensComment, hd]

/-- What is a token is no comment, up to the second slash of one. -/
theorem opensComment_of_munch? (h : munch? s (c :: cs) = some m)
    (hslash : c = '/' → cs.head? ≠ some '/') : opensComment (c :: cs) = false := by
  by_cases hc : c = '/'
  · subst hc
    rw [opensComment_slash]
    simpa using hslash rfl
  by_cases hhash : c = '#'
  · subst hhash
    rw [munch?_of_ne (by decide), flat?_hash] at h
    obtain ⟨n, hn, -⟩ := Option.map_eq_some_iff.1 (by simpa only [color?] using h)
    simp [opensComment, hn]
  · exact opensComment_of_ne hc hhash

/-- Where raw blocks are the same, a token is cut off in the same way if a blank comes behind the run. -/
theorem CutsOff.before_blank {b : Char} (h : CutsOff s ws im (r ++ y) m) (hb : Text.isBlank b = true)
    (hraw : heredoc? (im ++ (r ++ b :: x)) = heredoc? (im ++ (r ++ y)))
    (hend : Stops y ∨ (∃ r₀, r = r₀ ++ ['\x7d']) ∨ im = ['\x7d']) :
    CutsOff s ws im (r ++ b :: x) m := by
  have hne := ne_nil_of_length_eq m h.length
  have hmunch : munch? s (im ++ (r ++ b :: x)) = some m := by
    rw [munch?_eq, hraw]
    rcases munch?_cases h.munch with hraw | ⟨hnone, hflat⟩
    · rw [hraw]
      rfl
    · rw [hnone]
      exact flat?_blank hb hflat h.length h.closed hend x
  refine ⟨?_, hmunch, h.length, h.closed⟩
  obtain ⟨c, cs, rfl⟩ := List.exists_cons_of_ne_nil hne
  have htrivia : triviaLength (ws ++ c :: (cs ++ (r ++ y))) = ws.length := h.trivia
  have hzero := (triviaLength_append htrivia (x := []) rfl).1
  refine (triviaLength_append htrivia ?_).2
  refine triviaLength_eq_zero (isBlank_of_munch? hmunch) (opensComment_of_munch? hmunch ?_)
  rintro rfl hslash
  -- A second slash would have been there before
  replace hslash : (cs ++ (r ++ b :: x)).head? = some '/' := hslash
  rw [triviaLength_cons, if_neg (by decide), opensComment_slash] at hzero
  rw [← List.append_assoc] at hslash hzero
  cases hcr : cs ++ r with
  | nil =>
    rw [hcr] at hslash
    obtain rfl : b = '/' := by simpa using hslash
    exact absurd hb (by decide)
  | cons d ds =>
    rw [hcr] at hslash hzero
    simp_all

/-- A token is cut off in the same way if a line feed comes behind a clear run. -/
theorem CutsOff.lineFeed (h : CutsOff s ws im (r ++ y) m) (hclear : isClearRaw (im ++ r) = true)
    (hraw : '\n' ∈ im ++ r → ClosesRaw (im ++ r) y)
    (hend : Stops y ∨ (∃ r₀, r = r₀ ++ ['\x7d']) ∨ im = ['\x7d']) (x : List Char) :
    CutsOff s ws im (r ++ '\n' :: x) m := by
  have hheredoc := heredoc?_lineFeed (by simpa using h.munch)
    (by rw [h.length, List.length_append]; omega) (isSome_of_isClearRaw hclear) hraw x
  rw [List.append_assoc, List.append_assoc] at hheredoc
  exact h.before_blank (by decide) hheredoc hend

/-! ## Runs before a line feed -/

/-- What a run of tokens ends with: what can be read by itself, or a closing brace. -/
inductive Ends (y r : List Char) (ts : List RawToken) : Prop
  | line : Stops y → ('\n' ∈ r → EndsLine y) → Ends y r ts
  | brace {ts₀ : List RawToken} {t : RawToken} :
      ts = ts₀ ++ [t] → t.image = ['\x7d'] → Ends y r ts

theorem Cuts.eq_nil (h : Cuts y s r []) : r = [] := by
  cases h
  rfl

theorem Cuts.exists_eq_append {ts₀ : List RawToken} (h : Cuts y s r (ts₀ ++ [k])) :
    ∃ r₀, r = r₀ ++ k.image := by
  induction ts₀ generalizing s r with
  | nil =>
    cases h with
    | @cons _ ws im r m _ _ hrest =>
      rw [hrest.eq_nil]
      exact ⟨ws, by simp⟩
  | cons t ts₀ ih =>
    cases h with
    | @cons _ ws im r m _ _ hrest =>
      obtain ⟨r₀, rfl⟩ := ih hrest
      exact ⟨ws ++ (im ++ r₀), by simp⟩

/-- A clear run of tokens is cut in the same way if a line feed comes behind it. -/
theorem Cuts.lineFeed (h : Cuts y s r ts) (hends : Ends y r ts) (hclear : isClearRaw r = true)
    (x : List Char) : Cuts ('\n' :: x) s r ts := by
  induction h with
  | nil => exact .nil
  | @cons s ws im r m ts hcut hrest ih =>
    have hclear' : isClearRaw (im ++ r) = true := isClearRaw_of_suffix hclear
    have hclear'' : isClearRaw r = true := isClearRaw_of_suffix hclear'
    cases hends with
    | line hstop hline =>
      have hmem {cs : List Char} (h : '\n' ∈ cs) (hsub : ∀ a ∈ cs, a ∈ ws ++ (im ++ r)) : EndsLine y :=
        hline (hsub _ h)
      refine .cons (hcut.lineFeed hclear' (fun h => .inl (hmem h (by simp_all))) (.inl hstop) x) ?_
      exact ih (.line hstop fun h => hmem h (by simp_all)) hclear''
    | @brace ts₀ t hts himage =>
      cases ts₀ with
      | nil =>
        -- The brace itself
        obtain ⟨rfl, rfl⟩ : (⟨ws, im, m.lexeme⟩ : RawToken) = t ∧ ts = [] := by simpa using hts
        obtain rfl := hrest.eq_nil
        replace himage : im = ['\x7d'] := himage
        subst himage
        exact .cons (hcut.lineFeed hclear' (fun _ => .inr ⟨[], rfl⟩) (.inr (.inr rfl)) x) .nil
      | cons t' ts₀ =>
        obtain ⟨rfl, rfl⟩ : (⟨ws, im, m.lexeme⟩ : RawToken) = t' ∧ ts = ts₀ ++ [t] := by
          simpa using hts
        obtain ⟨r₀, hr₀⟩ := hrest.exists_eq_append
        rw [himage] at hr₀
        have hbrace : ClosesRaw (im ++ r) y := .inr ⟨im ++ r₀, by rw [hr₀, List.append_assoc]⟩
        exact .cons (hcut.lineFeed hclear' (fun _ => hbrace) (.inr (.inl ⟨r₀, hr₀⟩)) x)
          (ih (.brace rfl himage) hclear'')

/-! ## Line feeds in tokens -/

/-- No closed quote has a line feed. -/
theorem length_quotedBody_le_of_closed {q : Char} {v : List Char} {n : Nat}
    (h : quotedBody q (t ++ '\n' :: x) = (v, n, true)) : n ≤ t.length := by
  fun_induction quotedBody q t generalizing v n with
  | case1 => simp [quotedBody_cons] at h
  | case2 cs => simp [quotedBody_cons] at h
  | case3 cs hq =>
    obtain ⟨-, rfl⟩ : v = [] ∧ n = 1 := by simpa [quotedBody_cons, hq, eq_comm] using h
    simp
  | case4 hb hq => simp [quotedBody_cons, hq] at h
  | case5 cs hb hq => simp [quotedBody_cons, hq] at h
  | case6 e rest he val k closed heq hb hq ih =>
    simp only [quotedBody_cons, List.cons_append, hb, hq, he, if_false, if_true,
      Prod.mk.injEq] at h
    obtain ⟨rfl, rfl, hclosed⟩ := h
    exact Nat.add_le_add_right (ih (Prod.ext rfl (Prod.ext rfl hclosed))) 2
  | case7 c cs hn hq hb val k closed heq ih =>
    simp only [quotedBody_cons, List.cons_append, hn, hb, hq, if_false, Prod.mk.injEq] at h
    obtain ⟨rfl, rfl, hclosed⟩ := h
    exact Nat.add_le_add_right (ih (Prod.ext rfl (Prod.ext rfl hclosed))) 1

/-- A token ends before the first line feed, raw blocks apart. -/
theorem not_mem_of_flat? (h : flat? s (im ++ y) = some m) (hlen : m.length = im.length)
    (hclosed : m.closed = true) : '\n' ∉ im := by
  intro hmem
  obtain ⟨as, bs, rfl⟩ := List.append_of_mem hmem
  have hline : IsFence '\n' := isFence_of_isBlank (by decide)
  cases as with
  | nil =>
    rw [List.nil_append, List.cons_append, flat?_of_isBlank (by decide)] at h
    cases h
  | cons a as =>
    have hle : m.length ≤ (a :: as).length := by
      by_cases hquote : a = '\x22' ∨ a = '\x27'
      · rw [List.cons_append, List.cons_append, flat?_quote hquote] at h
        simp only [string?, if_pos hquote, Option.some.injEq] at h
        subst h
        rw [List.append_assoc, List.cons_append] at hclosed ⊢
        have := length_quotedBody_le_of_closed (q := a) (t := as) (x := bs ++ y)
          (Prod.ext rfl (Prod.ext rfl hclosed))
        simpa using this
      · have heq : a :: as ++ '\n' :: bs ++ y = a :: as ++ '\n' :: (bs ++ y) := by simp
        rw [heq, flat?_before_fence hline hquote] at h
        exact length_flat?_le h
    simp only [List.length_append, List.length_cons] at hlen hle
    omega

end DiagramTour
