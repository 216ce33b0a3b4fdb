import DiagramTour.Proofs.Program.Longer

/-!
# Reading the same expression in a longer text

An expression without operators ends by itself: behind it no operand goes on, so it is read in a longer
text as in the shorter one, up to the last token of that.  An expression with operators goes on as long as
there are any, so the same is said of it only where it ends before the end of the shorter text.

## Architecture

- Targets, variables and calls are compared by their parts; where they may come to the end of the text is
  said by the rules of `Stands`.
- `stands_primaryWith` and `stands_exprAt` settle the two kinds of expressions.
-/

namespace DiagramTour

open Cursor (Onward PartsStand)

variable {q : Sequel} {P : Prop} {c d : Cursor}

/-! ## Targets -/

namespace Parse.Stands

theorem elementRef : Parse.elementRef.Stands q P := by
  refine fun c d => ⟨(Yields.elementRef c).onward, fun hd hok _ => ?_⟩
  subst hd
  unfold Parse.elementRef at hok ⊢
  by_cases hstar : c.atOperator "*" = true
  · have hend := Cursor.atEnd_eq_false_of_atOperator hstar
    rw [if_pos hstar, if_pos ((Cursor.atOperator_longer hend "*").trans hstar)]
    exact ⟨rfl, Cursor.advance_longer hend⟩
  · rw [if_neg hstar] at hok ⊢
    by_cases hname : (c.peek.isName || c.peek.isInt) = true
    · have hend := Cursor.atEnd_eq_false_of_ne (φ := fun t => t.isName || t.isInt)
        ⟨fun _ _ => rfl, rfl⟩ hname (by decide)
      rw [if_pos hname, Cursor.atOperator_longer hend, if_neg hstar, Cursor.peek_longer hend, if_pos hname]
      exact ⟨rfl, Cursor.advance_longer hend⟩
    · rw [if_neg hname] at hok
      exact absurd (Cursor.failed_unexpected c _) hok

theorem edgeRef (hq : q.Aside) : Parse.edgeRef.Stands q P := by
  refine (look fun c => Cursor.atPunct_longer hq "(").bind fun b => ?_
  cases b with
  | true =>
    exact (eatPunct hq _).bind fun _ => elementRef.bind fun _ => (expectPunct _).bind fun _ =>
      elementRef.bind fun _ => (expectPunct _).bind fun _ => pure _
  | false =>
    refine elementRef.bind fun first => ?_
    exact readIf (fun c => Cursor.atArrow_longer hq)
      (fun c => Cursor.atEnd_eq_false_of_atOperator) (elementRef.bind fun _ => pure _) (pure _)

theorem targetText : Parse.targetText.Stands q P := by
  refine fun c d => ⟨(Yields.targetText c).onward, fun hd hok _ => ?_⟩
  subst hd
  unfold Parse.targetText at hok ⊢
  by_cases hstring : c.peek.isString = true
  · have hend := Cursor.atEnd_eq_false_of_ne .isString hstring (by decide)
    rw [if_pos hstring, Cursor.peek_longer hend, if_pos hstring]
    exact ⟨rfl, Cursor.advance_longer hend⟩
  · rw [if_neg hstring] at hok
    exact absurd (Cursor.failed_unexpected c _) hok

end Parse.Stands

namespace Cursor

/-- A list of targets is closed in the text itself. -/
theorem stands_targetList (hq : q.Aside) {item : (e : Cursor) → e.size < c.size → Parsed e Target}
    {item' : (e : Cursor) → e.size < d.size → Parsed e Target} (hitem : PartsStand q item item') :
    (c.targetList item).Stands q P (d.targetList item') := by
  have honward := (yields_targetList fun e he => ⟨hitem.onward e he, fun _ _ => trivial⟩).onward
  refine ⟨honward, fun hd hok _ => ?_⟩
  unfold targetList at hok ⊢
  by_cases hopen : c.atPunct "(" = true
  · have hopen' : d.atPunct "(" = true := by rw [hd, atPunct_longer hq, hopen]
    rw [dif_pos hopen] at hok
    rw [dif_pos hopen, dif_pos hopen']
    refine close_longer (stands_targetItems hq hitem (size_advance_lt_of_atPunct hopen)
      (size_advance_lt_of_atPunct hopen')) ?_ hok
    rw [hd, advance_longer (atEnd_eq_false_of_atPunct hopen)]
  · rw [dif_neg hopen] at hok
    exact absurd (failed_unexpected c _) hok

theorem stands_difference (start : Position) (ts : List Target) (c d : Cursor) :
    (c.difference start ts).Stands q P (d.difference start ts) := by
  refine ⟨(yields_difference start ts c).onward, fun hd hok _ => ?_⟩
  subst hd
  unfold difference at hok ⊢
  dsimp only at hok ⊢
  by_cases htwo : ts.length = 2
  · rw [if_pos htwo, if_pos htwo]
    exact ⟨rfl, rfl⟩
  · rw [if_neg htwo] at hok
    exact absurd (failed_report.2 (.inr rfl)) hok

theorem targetHead?_longer (hq : q.Aside) : (c.longer q).targetHead? = c.targetHead? := by
  cases hend : c.atEnd with
  | false => rw [targetHead?, targetHead?, peek_longer hend]
  | true =>
    -- Neither the end nor what stands behind it is a word
    have hnone {e : Cursor} (hword : e.peek.isWord = false) : e.targetHead? = none := by
      unfold Token.isWord at hword
      unfold targetHead?
      split at hword <;> simp_all
    have hword := hq.word
    rw [← peek_longer_of_atEnd hend] at hword
    rw [hnone hword, hnone ((isWord_longer hq).symm.trans hword)]

/-- What is read of a target behind its word, as long as the parts of it stand. -/
theorem stands_targetBehind (hq : q.Aside) (start : Position) {c d : Cursor} (head : TargetHead)
    (ih : ∀ e e' : Cursor, e.size < c.size → e.target.Stands q True e'.target) :
    (targetBehind start c head).Stands q True (targetBehind start d head) := by
  have hinner : PartsStand q (fun (e : Cursor) (_ : e.size < c.size) => e.target)
      (fun (e : Cursor) (_ : e.size < d.size) => e.target) :=
    ⟨fun e he => (ih e e he).onward, fun e e' he _ => (ih e e' he).mono False.elim⟩
  cases head <;> simp only [targetBehind]
  case element kind =>
    exact (Parse.Stands.elementRef c d).andThen fun ref e e' _ _ => .here fun hd _ => by rw [hd]; rfl
  case edge =>
    exact (Parse.Stands.edgeRef hq c d).andThen fun ref e e' _ _ => .here fun hd _ => by rw [hd]; rfl
  case matching key =>
    exact (Parse.Stands.targetText c d).andThen fun s e e' _ _ => .here fun hd _ => by rw [hd]; rfl
  case several how =>
    exact (stands_targetList hq hinner).andThen fun ts e e' _ _ => .here fun hd _ => by rw [hd]; rfl
  case except =>
    exact (stands_targetList hq hinner).andThen fun ts e e' _ _ => stands_difference _ _ _ _

theorem stands_target (hq : q.Aside) (c d : Cursor) : c.target.Stands q True d.target := by
  refine ⟨(yields_target c).onward, ?_⟩
  induction hn : c.size using Nat.strongRecOn generalizing c d with
  | _ n ih =>
    rintro rfl hok hend
    cases hhead : c.targetHead? with
    | none => exact absurd (failed_target hhead) hok
    | some head =>
      obtain ⟨hvalue, hnext⟩ := target_eq hhead
      obtain ⟨hvalue', hnext'⟩ := target_eq ((targetHead?_longer hq).trans hhead)
      have hgoing := atEnd_eq_false_of_targetHead? hhead
      have hlt := size_advance_lt hgoing
      rw [hnext] at hok
      rw [hvalue, hvalue', hnext, hnext', here_longer hgoing]
      -- Inner targets begin behind the word of this one
      exact (stands_targetBehind hq _ head fun e e' he =>
        ⟨(yields_target e).onward, ih e.size (by omega) e e' rfl⟩).stand (advance_longer hgoing) hok
          (.inl trivial)

end Cursor

/-! ## Variables -/

theorem Parse.Stands.segment? (what : String) : (Parse.segment? what).Stands q P := by
  refine fun c d => ⟨(Yields.segment? what c).onward, fun hd hok _ => ?_⟩
  subst hd
  unfold Parse.segment? at hok ⊢
  by_cases hc : (c.peek.isWord || c.peek.isInt) = true
  · have hend := Cursor.atEnd_eq_false_of_ne (φ := fun t => t.isWord || t.isInt)
      ⟨fun _ _ => rfl, rfl⟩ hc (by decide)
    rw [if_pos hc, Cursor.peek_longer hend, if_pos hc]
    exact ⟨rfl, Cursor.advance_longer hend⟩
  · rw [if_neg hc] at hok
    exact absurd (Cursor.failed_unexpected c _) hok

namespace Cursor

theorem stands_pathTail (hq : q.Aside) (c d : Cursor) : c.pathTail.Stands q P d.pathTail := by
  refine ⟨(yields_pathTail c).onward, ?_⟩
  induction hn : c.size using Nat.strongRecOn generalizing c d with
  | _ n ih =>
    rintro rfl hok hend
    by_cases hc : c.atPunct "." = true
    · have hsegment := Parse.Stands.segment? (q := q) (P := True) "a path segment" c.advance
        (c.longer q).advance
      have hplace := advance_longer (q := q) (atEnd_eq_false_of_atPunct hc)
      have hlt := size_advance_lt_of_atPunct hc
      have hle := (Parse.segment? "a path segment" c.advance).le
      rw [pathTail.eq_1 c, dif_pos hc] at hok hend ⊢
      rw [pathTail.eq_1 (c.longer q), dif_pos ((atPunct_longer hq ".").trans hc)]
      cases hs : (Parse.segment? "a path segment" c.advance).value with
      | some s =>
        simp only [hs] at hok hend ⊢
        obtain ⟨hvalue, hnext⟩ := hsegment.stand hplace
          (fun hf => hok ((yields_pathTail _).onward.failed hf)) (.inl trivial)
        simp only [hvalue, hs]
        obtain ⟨htail, hlast⟩ := ih _ (by omega) _ _ rfl hnext hok hend
        exact ⟨congrArg (s :: ·) htail, hlast⟩
      | none =>
        simp only [hs] at hok hend ⊢
        obtain ⟨hvalue, hnext⟩ := hsegment.stand hplace hok (.inl trivial)
        simp only [hvalue, hs]
        exact ⟨trivial, hnext⟩
    · rw [pathTail.eq_1 c, dif_neg hc, pathTail.eq_1 (c.longer q), dif_neg (by rwa [atPunct_longer hq])]
      exact ⟨rfl, rfl⟩

/-- A variable begins at a mark in the text itself. -/
theorem stands_var (hq : q.Aside) (hopen : c.atPunct "$" = true) :
    (Parse.var c).Stands q P (Parse.var (c.longer q)) := by
  obtain ⟨behind, hbehind, hvar⟩ : ∃ k : Position → Parse Expr,
      (∀ start, (k start).Stands q P) ∧ Parse.var = Parse.start >>= k := by
    refine ⟨_, fun start => ?_, rfl⟩
    exact (Parse.Stands.expectPunct _).bind fun _ => (Parse.Stands.segment? _).bind fun _ =>
      Parse.Stands.bind (stands_pathTail hq) fun _ =>
        (Parse.Stands.look fun _ => rfl).bind fun _ => .pure _
  have hlonger : Parse.var (c.longer q) = behind c.here (c.longer q) := by
    rw [hvar, ← here_longer (q := q) (atEnd_eq_false_of_atPunct hopen)]
    rfl
  rw [hlonger, hvar]
  exact hbehind c.here c (c.longer q)

theorem stands_calleeTail (hq : q.Aside) (c d : Cursor) : c.calleeTail.Stands q P d.calleeTail := by
  refine ⟨(yields_calleeTail c).onward, ?_⟩
  induction hn : c.size using Nat.strongRecOn generalizing c d with
  | _ n ih =>
    rintro rfl hok hend
    -- The tail of a name looks at two tokens before it goes on
    have hmore : ((c.longer q).atPunct "." && (c.longer q).second.isWord) =
        (c.atPunct "." && c.second.isWord) := by
      rw [atPunct_longer hq]
      cases hpoint : c.atPunct "." with
      | false => rfl
      | true => rw [second_isWord_longer hq (atEnd_eq_false_of_atPunct hpoint)]
    by_cases hc : (c.atPunct "." && c.second.isWord) = true
    · rw [calleeTail.eq_1 c, dif_pos hc] at hok hend ⊢
      rw [calleeTail.eq_1 (c.longer q), dif_pos (hmore.trans hc)]
      obtain ⟨hpoint, hword⟩ := Bool.and_eq_true_iff.1 hc
      have hgoing := atEnd_eq_false_of_atPunct hpoint
      have hlt := size_advance_lt hgoing
      have hle := size_advance_le c.advance
      rw [second_eq] at hword
      have hgoing' := atEnd_eq_false_of_isWord hword
      have hplace : (c.longer q).advance.advance = c.advance.advance.longer q := by
        rw [advance_longer hgoing, advance_longer hgoing']
      obtain ⟨htail, hlast⟩ := ih _ (by omega) _ _ rfl hplace hok hend
      refine ⟨?_, hlast⟩
      simp only [Parsed.weaken_value, Parsed.map_value, second_longer hgoing hgoing', htail]
    · rw [calleeTail.eq_1 c, dif_neg hc, calleeTail.eq_1 (c.longer q), dif_neg (by rwa [hmore])]
      exact ⟨rfl, rfl⟩

/-! ## Objects, lists and calls -/

theorem stands_entry {value : Token → (e : Cursor) → e.size < c.size → Parsed e Expr}
    {value' : Token → (e : Cursor) → e.size < d.size → Parsed e Expr} (hq : q.Aside)
    (hvalue : ∀ t, PartsStand q (value t) (value' t)) :
    (c.entry value).Stands q False (d.entry value') := by
  refine ⟨(yields_entry (Q := fun _ _ => True) fun x hx =>
    ⟨(hvalue c.peek).onward x hx, fun _ _ => trivial⟩).onward, ?_⟩
  rintro rfl hok hend
  unfold entry at hok hend ⊢
  by_cases hname : c.peek.isName = true
  · have hgoing := atEnd_eq_false_of_isName hname
    have hlt : (c.advance.expectPunct ":").size < c.size :=
      Nat.lt_of_le_of_lt (size_expectPunct_le _ _) (size_advance_lt hgoing)
    have hread := (hvalue c.peek).onward _ hlt
    rw [dif_pos hname] at hok hend
    rw [dif_pos hname, dif_pos (by rwa [peek_longer hgoing])]
    -- Neither the colon nor the value fails, nor comes to the end
    have hmid := fun h => hok ((Onward.eatPunct _ ",").failed h)
    obtain ⟨-, hcolon⟩ := expectPunct_longer (q := q) fun h => hmid (hread.failed h)
    have hplace : (c.longer q).advance.expectPunct ":" = (c.advance.expectPunct ":").longer q := by
      rw [advance_longer hgoing, hcolon]
    obtain ⟨hsame, hnext⟩ := ((hvalue c.peek).stand _ _ hlt (hplace ▸ (by
      rw [size_longer, size_longer]
      exact Nat.add_lt_add_right hlt _))).stand hplace hmid
        (.inr ((Onward.eatPunct _ ",").going (hend.resolve_left id)))
    simp only [peek_longer hgoing, here_longer hgoing, hsame, hnext, eatPunct_longer hq]
    exact ⟨rfl, trivial⟩
  · rw [dif_neg hname] at hok hend
    have hgoing : c.atEnd = false := hend.resolve_left id
    rw [dif_neg hname, dif_neg (by rwa [peek_longer hgoing])]
    exact ⟨rfl, rfl⟩

section

variable {sub : (e : Cursor) → e.size < c.size → Parsed e Expr}
  {sub' : (e : Cursor) → e.size < (c.longer q).size → Parsed e Expr}

theorem stands_objectWith (hq : q.Aside) (hsub : PartsStand q sub sub')
    (hopen : c.atPunct openBrace = true) :
    (c.objectWith sub).Stands q P ((c.longer q).objectWith sub') := by
  unfold objectWith
  rw [here_longer (atEnd_eq_false_of_atPunct hopen)]
  refine (stands_block hq _ ⟨fun e he => ?_, fun e e' he he' => ?_⟩).andThen
    fun entries e e' _ _ => .here fun hd _ => by rw [hd]; rfl
  · exact (yields_entry (Q := fun _ _ => True) fun x hx =>
      ⟨hsub.onward x _, fun _ _ => trivial⟩).onward
  · exact stands_entry hq fun _ =>
      ⟨fun x hx => hsub.onward x _, fun x x' hx hx' => hsub.stand x x' _ _⟩

theorem stands_arrayWith (hq : q.Aside) (hsub : PartsStand q sub sub')
    (hopen : c.atPunct "[" = true) : (c.arrayWith sub).Stands q P ((c.longer q).arrayWith sub') := by
  have hgoing := atEnd_eq_false_of_atPunct hopen
  have hopen' : (c.longer q).atPunct "[" = true := by rw [atPunct_longer hq, hopen]
  have hlt := size_advance_lt_of_atPunct hopen
  have hitems : (separated c.size "]" "`,` or `]`" sub c.advance hlt).Stands q False
      (separated (c.longer q).size "]" "`,` or `]`" sub' (c.longer q).advance
        (size_advance_lt_of_atPunct hopen')) := stands_separated hq hsub _ _
  unfold arrayWith
  rw [dif_pos hopen, dif_pos hopen']
  refine ⟨((Onward.advance c).trans hitems.onward).trans (.expectPunct _ _), fun _ hok _ => ?_⟩
  obtain ⟨hvalue, hnext⟩ := close_longer hitems (advance_longer hgoing) hok
  simp only [hvalue, hnext, here_longer hgoing]
  exact ⟨rfl, trivial⟩

theorem stands_parenWith (hsub : PartsStand q sub sub') (hopen : c.atPunct "(" = true)
    (hopen' : (c.longer q).atPunct "(" = true) :
    (c.parenWith hopen sub).Stands q P ((c.longer q).parenWith hopen' sub') := by
  have hinner := hsub.stand c.advance (c.longer q).advance (size_advance_lt_of_atPunct hopen)
    (size_advance_lt_of_atPunct hopen')
  exact ⟨((Onward.advance c).trans hinner.onward).trans (.expectPunct _ _), fun _ hok _ =>
    close_longer hinner (advance_longer (atEnd_eq_false_of_atPunct hopen)) hok⟩

theorem stands_argumentWith {sub : (e : Cursor) → e.size ≤ c.size → Parsed e Expr}
    {sub' : (e : Cursor) → e.size ≤ d.size → Parsed e Expr} (hq : q.Aside)
    (hsub : ∀ e e' he he', (sub e he).Stands q False (sub' e' he')) :
    (c.argumentWith sub).Stands q False (d.argumentWith sub') := by
  have honward := onward_argumentWith fun e he => (hsub e d he (Nat.le_refl _)).onward
  refine ⟨honward, ?_⟩
  rintro rfl hok hend
  have hgoing := honward.going (hend.resolve_left id)
  have hle (e : Cursor) : e.advance.advance.size ≤ e.size :=
    Nat.le_trans (size_advance_le _) (size_advance_le _)
  unfold argumentWith at hok hend ⊢
  rw [peek_longer hgoing, second_isPunct_longer hq hgoing]
  by_cases hc : (c.peek.isWord && c.second.isPunct ":") = true
  · have hcolon := (Bool.and_eq_true_iff.1 hc).2
    rw [second_eq] at hcolon
    have hplace : (c.longer q).advance.advance = c.advance.advance.longer q := by
      rw [advance_longer hgoing, advance_longer (atEnd_eq_false_of_atPunct hcolon)]
    rw [if_pos hc] at hok hend ⊢
    rw [if_pos hc]
    obtain ⟨hvalue, hnext⟩ := (hsub _ _ (hle c) (hle _)).stand hplace hok hend
    simp only [hvalue, hnext]
    exact ⟨trivial, trivial⟩
  · rw [if_neg hc] at hok hend ⊢
    rw [if_neg hc]
    obtain ⟨hvalue, hnext⟩ :=
      (hsub c (c.longer q) (Nat.le_refl _) (Nat.le_refl _)).stand rfl hok hend
    simp only [hvalue, hnext]
    exact ⟨trivial, trivial⟩

theorem partsStand_argumentWith (hq : q.Aside) (hsub : PartsStand q sub sub') : PartsStand q
    (fun (e : Cursor) (he : e.size < c.size) =>
      e.argumentWith fun x hx => sub x (Nat.lt_of_le_of_lt hx he))
    (fun (e : Cursor) (he : e.size < (c.longer q).size) =>
      e.argumentWith fun x hx => sub' x (Nat.lt_of_le_of_lt hx he)) :=
  ⟨fun _ _ => onward_argumentWith fun x _ => hsub.onward x _, fun _ _ _ _ =>
    stands_argumentWith hq fun x x' _ _ => hsub.stand x x' _ _⟩

theorem stands_callWith (hq : q.Aside) (hsub : PartsStand q sub sub') :
    (c.callWith sub).Stands q P ((c.longer q).callWith sub') := by
  unfold callWith
  by_cases hc : c.peek.isWord = true
  · have hgoing := atEnd_eq_false_of_isWord hc
    have hc' : (c.longer q).peek.isWord = true := by rwa [isWord_longer hq]
    have hwords := stands_calleeTail (q := q) (P := True) hq c.advance (c.longer q).advance
    have hle : c.advance.calleeTail.next.size < c.size :=
      Nat.lt_of_le_of_lt c.advance.calleeTail.le (size_advance_lt hgoing)
    rw [dif_pos hc, dif_pos hc']
    dsimp only
    by_cases hopen : c.advance.calleeTail.next.atPunct "(" = true
    · have hargs := Nat.lt_trans (size_advance_lt_of_atPunct hopen) hle
      have hitems := partsStand_argumentWith hq hsub
      have hlist := onward_separated hitems.onward ")" "`,` or `)`" hargs
      rw [dif_pos hopen]
      refine ⟨((((Onward.advance c).trans hwords.onward).trans (.advance _)).trans hlist).trans
        (.expectPunct _ _), fun _ hok _ => ?_⟩
      -- Neither the list of arguments nor the words before it failed
      have hmid := fun h => hok ((Onward.expectPunct _ ")").failed (hlist.failed (failed_advance.2 h)))
      obtain ⟨hcallee, hparen⟩ := hwords.stand (advance_longer hgoing) hmid (.inl trivial)
      have hopen' : (c.longer q).advance.calleeTail.next.atPunct "(" = true := by
        rw [hparen, atPunct_longer hq, hopen]
      have hplace : (c.longer q).advance.calleeTail.next.advance =
          c.advance.calleeTail.next.advance.longer q := by
        rw [hparen, advance_longer (atEnd_eq_false_of_atPunct hopen)]
      rw [dif_pos hopen']
      have hvalues := close_longer (stands_separated hq hitems hargs
        (Nat.lt_trans (size_advance_lt_of_atPunct hopen') (Nat.lt_of_le_of_lt
          (c.longer q).advance.calleeTail.le (size_advance_lt (atEnd_eq_false_of_isWord hc')))))
        hplace hok
      simp only [hvalues.1, hvalues.2, hcallee, peek_longer hgoing]
      exact ⟨trivial, trivial⟩
    · rw [dif_neg hopen]
      exact .failed (((Onward.advance c).trans hwords.onward).trans (.unexpected _ _))
        (failed_unexpected _ _)
  · rw [dif_neg hc]
    exact .failed (.unexpected c _) (failed_unexpected c _)

/-! ## Expressions without operators -/

theorem startsCall_longer (hq : q.Aside) (hend : c.atEnd = false) :
    (c.longer q).startsCall = c.startsCall := by
  unfold startsCall
  rw [peek_longer hend, second_isPunct_longer hq hend, second_isPunct_longer hq hend]

/-- Neither an operator nor the end of the text begins an expression without operators. -/
theorem failed_primaryWith (hlex : c.peek.lexeme = .operator ∨ c.peek.lexeme = .eof) :
    (c.primaryWith sub).next.Failed := by
  have hmark (mark : String) : ¬c.atPunct mark = true := by
    rcases hlex with hlex | hlex <;> simp [atPunct, Token.isPunct, hlex]
  have hliteral : Literal.ofToken? c.peek = none := by
    rcases hlex with hlex | hlex <;> simp [Literal.ofToken?, hlex]
  have hhead : ¬c.targetHead?.isSome = true := by
    rcases hlex with hlex | hlex <;> simp [targetHead?, hlex]
  have hcall : ¬c.startsCall = true := by
    rcases hlex with hlex | hlex <;> simp [startsCall, hlex]
  unfold primaryWith
  rw [hliteral]
  dsimp only
  rw [if_neg (hmark _), if_neg (hmark _), dif_neg (hmark _), if_neg (hmark _), if_neg hhead,
    if_neg hcall]
  exact failed_missingExpr c

theorem lexeme_of_atEnd (hend : c.atEnd = true) : c.peek.lexeme = .eof := by
  rw [atEnd, List.isEmpty_iff] at hend
  simp [peek, hend, Token.endAt]

/-- An expression without operators ends by itself, also where the text does. -/
theorem stands_primaryWith (hq : q.Aside) (hsub : PartsStand q sub sub')
    (hyields : ∀ e he, (sub e he).Yields Expr.WellFormed) :
    (c.primaryWith sub).Stands q P ((c.longer q).primaryWith sub') := by
  have honward := (yields_primaryWith hyields).onward
  cases hend : c.atEnd with
  | true => exact .failed honward (failed_primaryWith (.inr (lexeme_of_atEnd hend)))
  | false =>
    have hmark (mark : String) : (c.longer q).atPunct mark = true ↔ c.atPunct mark = true := by
      rw [atPunct_longer hq]
    refine ⟨honward, fun _ => ?_⟩
    unfold primaryWith
    rw [peek_longer hend]
    cases hl : Literal.ofToken? c.peek with
    | some l => exact fun _ _ => ⟨rfl, advance_longer hend⟩
    | none =>
      refine Parsed.Stands.stand (P := P) ?_ rfl
      refine .ite (hmark _) (stands_objectWith hq hsub) fun _ => ?_
      refine .ite (hmark _) (stands_arrayWith hq hsub) fun _ => ?_
      refine .dite (hmark _) (stands_parenWith hsub) fun _ => ?_
      refine .ite (hmark _) (stands_var hq) fun _ => ?_
      refine .ite (by rw [targetHead?_longer hq])
        (fun _ => ((stands_target hq _ _).mono fun _ => trivial).map _) fun _ => ?_
      refine .ite (by rw [startsCall_longer hq hend]) (fun _ => ?_)
        fun _ => .failed (yields_missingExpr c).onward (failed_missingExpr c)
      unfold callExprWith
      rw [here_longer hend]
      exact (stands_callWith hq hsub).andThen fun call e e' _ _ => .here fun hd _ => by rw [hd]; rfl

end

/-! ## Expressions with operators -/

theorem stands_unaryWith (hq : q.Aside) {operand sub : (e : Cursor) → e.size < c.size → Parsed e Expr}
    {operand' sub' : (e : Cursor) → e.size < (c.longer q).size → Parsed e Expr}
    (hoperand : ∀ e e' he he', (operand e he).Stands q P (operand' e' he'))
    (hsub : PartsStand q sub sub') (hyields : ∀ e he, (sub e he).Yields Expr.WellFormed) :
    (c.unaryWith operand sub).Stands q P ((c.longer q).unaryWith operand' sub') := by
  cases hend : c.atEnd with
  | true =>
    -- No operator comes next at the end
    have hlex := lexeme_of_atEnd hend
    rw [unaryWith_of_none (by simp [UnaryOp.ofToken?, hlex])]
    exact .failed (yields_primaryWith hyields).onward (failed_primaryWith (.inr hlex))
  | false =>
    cases hop : UnaryOp.ofToken? c.peek with
    | none =>
      rw [unaryWith_of_none hop, unaryWith_of_none (by rwa [peek_longer hend])]
      exact stands_primaryWith hq hsub hyields
    | some op =>
      obtain ⟨hlt, heq⟩ := unaryWith_of_some operand sub hop
      have hop' : UnaryOp.ofToken? (c.longer q).peek = some op := by rwa [peek_longer hend]
      obtain ⟨hlt', heq'⟩ := unaryWith_of_some operand' sub' hop'
      rw [heq, heq', here_longer hend]
      exact .behind hend ((hoperand _ _ hlt hlt').andThen
        fun e d d' _ _ => .here fun hd _ => by rw [hd]; rfl)

theorem operatorAt?_longer (hend : c.atEnd = false) (level : Nat) :
    (c.longer q).operatorAt? level = c.operatorAt? level := by
  rw [operatorAt?, operatorAt?, peek_longer hend]

theorem stands_operators {b b' level : Nat} {operand : (e : Cursor) → e.size < b → Parsed e Expr}
    {operand' : (e : Cursor) → e.size < b' → Parsed e Expr}
    (honward : ∀ e he, Onward e (operand e he).next)
    (hoperand : ∀ e e' he he', (operand e he).Stands q False (operand' e' he')) (left : Expr)
    {c d : Cursor} (hc : c.size ≤ b) (hd : d.size ≤ b') :
    (operators b level operand left c hc).Stands q False (operators b' level operand' left d hd) := by
  refine ⟨onward_operators honward left hc, ?_⟩
  induction hn : c.size using Nat.strongRecOn generalizing c d left with
  | _ n ih =>
    rintro rfl hok hend
    have hgoing := (onward_operators honward left hc).going (hend.resolve_left id)
    have hsame := operatorAt?_longer (q := q) hgoing level
    cases hop : c.operatorAt? level with
    | none =>
      rw [operators_of_none hc hop, operators_of_none hd (hsame.trans hop)]
      exact ⟨rfl, rfl⟩
    | some op =>
      obtain ⟨hlt, hle, hle', heq⟩ := operators_of_some operand left hc hop
      obtain ⟨hlt', hle'', _, heq'⟩ := operators_of_some operand' left hd (hsame.trans hop)
      have hadvance := size_advance_lt hgoing
      have hright := (operand c.advance hlt).le
      rw [heq] at hok hend ⊢
      rw [heq']
      have hrest : Onward _ (operators b level operand _ _ hle).next :=
        onward_operators honward (.binary op left (operand c.advance hlt).value
          (left.span.through (operand c.advance hlt).value.span)) hle
      obtain ⟨hvalue, hbehind⟩ := (hoperand _ _ hlt hlt').stand (advance_longer hgoing)
        (fun h => hok (hrest.failed h)) (hend.imp_right hrest.going)
      simp only [hvalue]
      exact ih _ (by omega) _ hle _ rfl hbehind hok hend

/-- An expression is read in the longer text as in the shorter one, if it ends before that does. -/
theorem stands_exprAt (hq : q.Aside) (level : Nat) (c d : Cursor) :
    (c.exprAt level).Stands q False (d.exprAt level) := by
  refine ⟨(yields_exprAt level c).onward, ?_⟩
  induction hn : 7 * c.size + (topLevel - level) using Nat.strongRecOn generalizing c d level with
  | _ n ih =>
    rintro rfl
    have honward (l : Nat) (e : Cursor) : Onward e (e.exprAt l).next := (yields_exprAt l e).onward
    refine Parsed.Stands.stand ?_ rfl
    rw [exprAt.eq_1 level c, exprAt.eq_1 level (c.longer q)]
    by_cases hlevel : level < topLevel
    · rw [if_pos hlevel, if_pos hlevel]
      have hleft : (c.exprAt (level + 1)).Stands q False ((c.longer q).exprAt (level + 1)) :=
        ⟨honward _ c, ih _ (by omega) (level + 1) c _ rfl⟩
      refine hleft.andThen fun left e e' he he' => ?_
      refine stands_operators (fun x _ => honward _ x) (fun x x' hx _ => ?_) left _ _
      exact ⟨honward _ x, ih _ (by omega) (level + 1) x x' rfl⟩
    · rw [if_neg hlevel, if_neg hlevel]
      -- Operands and inner expressions have fewer tokens before them
      have hsub (l : Nat) (e e' : Cursor) (he : e.size < c.size) :
          (e.exprAt l).Stands q False (e'.exprAt l) :=
        ⟨honward l e, ih _ (by simp only [topLevel] at *; omega) l e e' rfl⟩
      exact stands_unaryWith hq (fun e e' he _ => hsub topLevel e e' he)
        ⟨fun e _ => honward 0 e, fun e e' he _ => hsub 0 e e' he⟩
        fun e _ => yields_exprAt 0 e

theorem partsStand_expr (hq : q.Aside) {b b' : Nat} : PartsStand q
    (fun (e : Cursor) (_ : e.size < b) => e.exprAt 0)
    (fun (e : Cursor) (_ : e.size < b') => e.exprAt 0) :=
  ⟨fun e _ => (yields_exprAt 0 e).onward, fun e e' _ _ => stands_exprAt hq 0 e e'⟩

end Cursor

end DiagramTour
