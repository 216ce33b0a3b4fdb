import DiagramTour.Proofs.Program.Clear
import DiagramTour.Proofs.Program.Numerals
import DiagramTour.Proofs.Program.ReadsTarget

/-!
# Reading printed paths and names of actions

Words and whole numbers with points between them are read as they were printed, unless a point
between two numbers makes a fraction of them.
-/

namespace DiagramTour

variable {c : Cursor} {rest cs : List Char} {w : String}

/-! ## Texts with points -/

theorem joinWith_eq (separator : String) (ws : List String) :
    joinWith separator ws = separator.intercalate ws := by
  induction ws with
  | nil => rfl
  | cons w ws ih =>
    cases ws with
    | nil => simp [joinWith]
    | cons v ws =>
      rw [String.intercalate_cons_cons, ← ih]
      rfl

/-- The words behind the first one, each with a point before it. -/
def pointed (ws : List String) : List Char :=
  ws.flatMap fun w => '.' :: w.toList

theorem toList_intercalate_point (w : String) (ws : List String) :
    (".".intercalate (w :: ws)).toList = w.toList ++ pointed ws := by
  induction ws generalizing w with
  | nil => simp [pointed]
  | cons v ws ih =>
    rw [String.intercalate_cons_cons, String.toList_append, String.toList_append, ih]
    simp [pointed]

/-! ## Words before a point -/

theorem munches_word_point (h : IsWord w.toList) (rest : List Char) :
    Munches w.toList ('.' :: rest) (wordLexeme w) := by
  have hm := h.munches (z := '.') (by decide) (by decide) rest
  rwa [String.ofList_toList] at hm

theorem Word.isWord_lexeme (h : Word w) {t : Token} (hlex : t.lexeme = wordLexeme w) :
    t.isWord = true := by
  unfold Token.isWord
  rcases h.2 with h | h <;> simp [hlex, h]

/-! ## Segments -/

/-- What stands behind a segment leaves it as it is: the end of the path, or a point that makes no
fraction. -/
def EndsSegment (w : String) (cs : List Char) : Prop :=
  EndsOperand cs ∨ ∃ rest, cs = '.' :: rest ∧ (isNumberSegment w = true → NoDigit rest)

theorem Whole.isNumberSegment (h : Whole w) : isNumberSegment w = true := by
  obtain ⟨v, himage⟩ := h
  obtain ⟨m, hm, -, -⟩ := himage.numeral trivial
  unfold DiagramTour.isNumberSegment
  cases hw : w.toList with
  | nil => rw [hw] at hm; cases hm
  | cons d ds =>
    by_contra hno
    simp only [List.head?_cons, Option.any_some, Bool.or_eq_true, beq_iff_eq, not_or,
      Bool.not_eq_true] at hno
    rw [hw, number?_of_ne hno.1.1 hno.1.2 hno.2] at hm
    cases hm

theorem Word.not_isNumberSegment (h : Word w) : isNumberSegment w = false := by
  obtain ⟨hword, -⟩ := h
  unfold isNumberSegment
  cases hw : w.toList with
  | nil => rfl
  | cons c cs =>
    rw [hw] at hword
    have hstart : Text.startsWord c = true := hword.1
    have hdigit : c.isDigit = false := Bool.eq_false_iff.mpr fun hd => by
      rw [Text.startsWord_of_isDigit hd] at hstart
      cases hstart
    have hne (d : Char) (hd : Text.startsWord d = false) : c ≠ d := by
      rintro rfl
      rw [hd] at hstart
      cases hstart
    simp [hdigit, hne '-' (by decide), hne '+' (by decide)]

/-- Words by themselves make no fraction. -/
theorem isClearPath_of_words {path : List String} (h : ∀ w ∈ path, Word w) :
    isClearPath path = true := by
  induction path with
  | nil => rfl
  | cons v ws ih =>
    obtain ⟨hv, hws⟩ := List.forall_mem_cons.mp h
    cases ws with
    | nil => rfl
    | cons w ws =>
      rw [isClearPath, hv.not_isNumberSegment, ih hws]
      rfl

theorem EndsSegment.calm (h : EndsSegment w cs) : Calm cs := by
  rcases h with h | ⟨rest, rfl, -⟩
  · exact h.calm
  · exact calm_punct (by decide) _

/-- A segment is read as such. -/
theorem Segment.shows (h : Segment w) (hend : EndsSegment w cs) (hc : c.At (w.toList ++ cs)) :
    (c.peek.isWord || c.peek.isInt) = true ∧ c.peek.image = w ∧ c.advance.At cs := by
  rcases h with hw | hwhole
  · have hm : Munches w.toList cs (wordLexeme w) := by
      rcases hend with hend | ⟨rest, rfl, -⟩
      · have := hw.1.munches_fenced hend.fenced
        rwa [String.ofList_toList] at this
      · exact munches_word_point hw.1 rest
    have hshows := hc.shows hm (.inr hend.calm)
    rw [String.ofList_toList] at hshows
    exact ⟨by simp [hw.isWord_lexeme hshows.lexeme], hshows.image, hshows.next⟩
  · have hm : ∃ v, Munches w.toList cs (.int v) := by
      rcases hend with hend | ⟨rest, rfl, hno⟩
      · exact hwhole.imp fun _ himage => himage.munches hend.fenced
      · exact hwhole.munches_point (hno hwhole.isNumberSegment)
    obtain ⟨v, hm⟩ := hm
    have hshows := hc.shows hm (.inr hend.calm)
    rw [String.ofList_toList] at hshows
    exact ⟨by simp [Token.isInt, hshows.lexeme], hshows.image, hshows.next⟩

theorem Parse.Reads.segment? (what : String) (h : Segment w) (hend : EndsSegment w cs) :
    (Parse.segment? what).Reads (w.toList ++ cs) cs (· = some w) := by
  intro c hc
  obtain ⟨hsegment, himage, hnext⟩ := h.shows hend hc
  unfold Parse.segment?
  rw [if_pos hsegment]
  exact ⟨by rw [himage], hnext⟩

/-! ## Paths -/

theorem endsSegment_pointed {ws : List String} (hclear : isClearPath (w :: ws) = true)
    (hne : ∀ v ∈ ws, v.toList ≠ []) (hrest : EndsOperand rest) :
    EndsSegment w (pointed ws ++ rest) := by
  cases ws with
  | nil => exact .inl hrest
  | cons v ws =>
    refine .inr ⟨v.toList ++ (pointed ws ++ rest), by simp [pointed], fun hnumber d ds heq => ?_⟩
    have hv : v.toList ≠ [] := hne v List.mem_cons_self
    cases hvs : v.toList with
    | nil => exact absurd hvs hv
    | cons e es =>
      rw [hvs, List.cons_append] at heq
      cases heq
      simp only [isClearPath, hnumber, beginsWithDigit, hvs, List.head?_cons, Option.any_some,
        Bool.true_and, Bool.and_eq_true, Bool.not_eq_true'] at hclear
      exact hclear.1

theorem Segment.toList_ne_nil (h : Segment w) : w.toList ≠ [] := by
  intro hnil
  rcases h with hw | ⟨value, m, hm, hlen, -⟩
  · have := hw.1
    rw [hnil] at this
    exact this
  · rw [hnil] at hm
    cases hm

theorem isClearPath_tail {ws : List String} (h : isClearPath (w :: ws) = true) :
    isClearPath ws = true := by
  cases ws with
  | nil => rfl
  | cons v ws =>
    simp only [isClearPath, Bool.and_eq_true] at h
    exact h.2

theorem Cursor.reads_pathTail {ws : List String} (hws : ∀ v ∈ ws, Segment v)
    (hclear : isClearPath ws = true) (hrest : EndsOperand rest) (hc : c.At (pointed ws ++ rest)) :
    c.pathTail.Reads rest (· = ws) := by
  induction ws generalizing c with
  | nil =>
    have hpoint : c.atPunct "." = false := (hrest.coming.peek c hc).2
    rw [pathTail, dif_neg (by simp [hpoint])]
    exact ⟨rfl, hc⟩
  | cons w ws ih =>
    have htail : ∀ v ∈ ws, Segment v := fun v hv => hws v (List.mem_cons_of_mem _ hv)
    have hc : c.At ('.' :: (w.toList ++ (pointed ws ++ rest))) := by simpa [pointed] using hc
    have hpoint : c.atPunct "." = true := by simp [hc.atPunct (by decide)]
    have hshows := hc.punct (by decide) (.inl (by decide))
    obtain ⟨hvalue, hnext⟩ := Parse.Reads.segment? "a path segment" (hws w List.mem_cons_self)
      (endsSegment_pointed hclear (fun v hv => (htail v hv).toList_ne_nil) hrest) _ hshows.next
    obtain ⟨hvalues, hend⟩ := ih htail (isClearPath_tail hclear) hnext
    rw [pathTail, dif_pos hpoint]
    dsimp only
    split
    · rename_i v hv
      rw [hvalue, Option.some.injEq] at hv
      subst hv
      exact ⟨by simp [hvalues], hend⟩
    · rename_i hnone
      rw [hvalue] at hnone
      cases hnone

/-- A clear path is read as it was printed. -/
theorem Parse.Reads.var {path : List String} (hpath : path ≠ []) (hsegments : ∀ v ∈ path, Segment v)
    (hclear : isClearPath path = true) (hrest : EndsOperand rest) :
    Parse.var.Reads ('$' :: ((joinWith "." path).toList ++ rest)) rest
      fun e => ∃ span, e = .var path span := by
  cases path with
  | nil => exact absurd rfl hpath
  | cons w ws =>
    have htail : ∀ v ∈ ws, Segment v := fun v hv => hsegments v (List.mem_cons_of_mem _ hv)
    rw [joinWith_eq, toList_intercalate_point, List.append_assoc]
    refine see fun start => bind (expectPunct '$' rfl (by decide) (.inl (by decide))) fun _ _ => ?_
    refine bind (segment? _ (hsegments w List.mem_cons_self)
      (endsSegment_pointed hclear (fun v hv => (htail v hv).toList_ne_nil) hrest)) ?_
    rintro _ rfl
    refine bind (fun c hc => Cursor.reads_pathTail htail (isClearPath_tail hclear) hrest hc) ?_
    rintro _ rfl
    exact spanned fun span => ⟨span, rfl⟩

/-! ## Names of actions -/

/-- A word before a point or a parenthesis. -/
theorem Word.shows {ws : List String} (h : Word w)
    (hc : c.At (w.toList ++ (pointed ws ++ '(' :: rest))) :
    c.Shows (wordLexeme w) w (pointed ws ++ '(' :: rest) := by
  cases ws with
  | nil => exact hc.word h.1 (IsFence.fenced (by decide) (by decide) rest) (.inr (calm_punct (by decide) _))
  | cons v ws =>
    have htext : pointed (v :: ws) ++ '(' :: rest =
        '.' :: (v.toList ++ (pointed ws ++ '(' :: rest)) := by simp [pointed]
    rw [htext] at hc ⊢
    have hshows := hc.shows (munches_word_point h.1 _) (.inr (calm_punct (by decide) _))
    rwa [String.ofList_toList] at hshows

theorem Cursor.reads_calleeTail {ws : List String} (hws : ∀ v ∈ ws, Word v)
    (hc : c.At (pointed ws ++ '(' :: rest)) : c.calleeTail.Reads ('(' :: rest) (· = ws) := by
  induction ws generalizing c with
  | nil =>
    have hpoint : c.atPunct "." = false := by
      simp [Cursor.At.atPunct (d := '(') hc (by decide)]
    rw [calleeTail, dif_neg (by simp [hpoint])]
    exact ⟨rfl, hc⟩
  | cons w ws ih =>
    have hw : Word w := hws w List.mem_cons_self
    have hc : c.At ('.' :: (w.toList ++ (pointed ws ++ '(' :: rest))) := by
      simpa [pointed] using hc
    have hpoint : c.atPunct "." = true := by simp [hc.atPunct (by decide)]
    have hshows := hc.punct (by decide) (.inl (by decide))
    have hword := hw.shows hshows.next
    obtain ⟨hvalues, hend⟩ := ih (fun v hv => hws v (List.mem_cons_of_mem _ hv)) hword.next
    rw [calleeTail, dif_pos (by simp [hpoint, second_eq, hw.isWord_lexeme hword.lexeme])]
    exact ⟨by simp [hvalues, second_eq, hword.image], hend⟩

end DiagramTour
