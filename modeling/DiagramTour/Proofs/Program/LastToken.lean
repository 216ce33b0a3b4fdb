import DiagramTour.Proofs.Program.AbreastExpr

/-!
# The last token of an operand

Whatever expression without operators is read, the last token of it is a word, a literal, a closing mark
or the star that stands for every element.  None of these is a raw block, and only a reserved word and the
star let a sign belong to a number behind them.

## Architecture

- `Token.canEnd` says which tokens these are.
- `Parsed.Completes` is said of readers that end with such a token, `Parsed.Keeps` of those that may also read
  nothing; both have a rule for each way to put readers together.
- `completes_primaryWith` goes through the kinds of expressions without operators.
-/

namespace DiagramTour

open Cursor (Onward)

/-! ## Tokens -/

namespace Token

variable {t : Token}

/-- Whether a token can be the last one of an expression without operators. -/
def canEnd (t : Token) : Bool :=
  match t.lexeme with
  | .operator => t.image == "*"
  | .punct => !t.allowsSign
  | .heredoc _ _ | .eof => false
  | _ => true

theorem canEnd_of_isName (h : t.isName = true) : t.canEnd = true := by
  revert h
  cases t with
  | mk lexeme image span => cases lexeme <;> simp [isName, isWord, isString, canEnd]

theorem canEnd_of_isInt (h : t.isInt = true) : t.canEnd = true := by
  revert h
  cases t with
  | mk lexeme image span => cases lexeme <;> simp [isInt, canEnd]

theorem canEnd_of_star (h : t.isOperator "*" = true) : t.canEnd = true := by
  revert h
  cases t with
  | mk lexeme image span => cases lexeme <;> simp [isOperator, canEnd]

theorem canEnd_of_isPunct {mark : String} (h : t.isPunct mark = true)
    (hmark : signAfter .punct mark = false) : t.canEnd = true := by
  revert h
  cases t with
  | mk lexeme image span =>
    cases lexeme <;> simp only [isPunct, Bool.false_eq_true, false_implies]
    intro h
    obtain rfl : image = mark := by simpa using h
    exact congrArg (!·) hmark

theorem canEnd_of_literal {l : Literal} (h : Literal.ofToken? t = some l) : t.canEnd = true := by
  revert h
  cases t with
  | mk lexeme image span => cases lexeme <;> simp [Literal.ofToken?, canEnd]

theorem not_heredoc_of_canEnd (h : t.canEnd = true) (tag body : String) :
    t.lexeme ≠ .heredoc tag body := by
  revert h
  cases t with
  | mk lexeme image span => cases lexeme <;> simp [canEnd]

/-- Only behind a reserved word or a star may a sign belong to a number. -/
theorem allowsSign_iff_of_canEnd (h : t.canEnd = true) :
    t.allowsSign = true ↔ t.lexeme = .keyword ∨ t.isOperator "*" = true := by
  revert h
  cases t with
  | mk lexeme image span =>
    cases lexeme with
    | punct =>
      intro h
      have hsign : allowsSign ⟨.punct, image, span⟩ = false := by simpa only [canEnd, Bool.not_eq_true'] using h
      simp [hsign, isOperator]
    | _ => simp [canEnd, isOperator, allowsSign]

end Token

namespace Cursor

variable {c d e : Cursor}

/-- On the way from one cursor to the other tokens were read, and the last of them can end an
expression without operators. -/
def Completes (c d : Cursor) : Prop :=
  ∃ m, Onward c m ∧ m.atEnd = false ∧ m.peek.canEnd = true ∧ d = m.advance

theorem completes_advance (hend : c.atEnd = false) (h : c.peek.canEnd = true) : c.Completes c.advance :=
  ⟨c, .refl c, hend, h, rfl⟩

theorem Onward.completes (h : Onward c d) (h' : d.Completes e) : c.Completes e := by
  obtain ⟨m, hm, hlast⟩ := h'
  exact ⟨m, h.trans hm, hlast⟩

theorem completes_expectPunct {mark : String} (hmark : signAfter .punct mark = false)
    (hok : ¬(c.expectPunct mark).Failed) : c.Completes (c.expectPunct mark) := by
  have hat := atPunct_of_expectPunct hok
  rw [expectPunct, if_pos hat]
  exact completes_advance (atEnd_eq_false_of_atPunct hat) (Token.canEnd_of_isPunct hat hmark)

/-- What was read up to the end of a text ends with the last token of the text. -/
theorem Completes.getLast? (h : c.Completes d) (hend : d.atEnd = true) :
    ∃ t, c.rest.getLast? = some t ∧ t.canEnd = true := by
  obtain ⟨m, hm, hgoing, hlast, rfl⟩ := h
  refine ⟨m.peek, ?_, hlast⟩
  obtain ⟨n, hn⟩ := hm.rest
  have hrest : m.rest = [m.peek] := by
    unfold atEnd advance at hend
    unfold atEnd at hgoing
    unfold peek
    cases hr : m.rest with
    | nil => simp [hr] at hgoing
    | cons t ts => simpa [hr] using hend
  rw [← List.take_append_drop n c.rest, ← hn, hrest]
  simp

end Cursor

/-! ## Readers -/

variable {α β : Type} {c d : Cursor}

/-- Reading goes on, and without an error it ends with a token that can end an expression without
operators. -/
structure Parsed.Completes (r : Parsed c α) : Prop where
  onward : Onward c r.next
  last : ¬r.next.Failed → c.Completes r.next

/-- The same, or nothing is read. -/
structure Parsed.Keeps (r : Parsed c α) : Prop where
  onward : Onward c r.next
  last : ¬r.next.Failed → r.next = c ∨ c.Completes r.next

/-- The same wherever reading begins. -/
def Parse.Completes (p : Parse α) : Prop :=
  ∀ c, (p c).Completes

def Parse.Keeps (p : Parse α) : Prop :=
  ∀ c, (p c).Keeps

namespace Parsed

variable {r : Parsed c α} {k : (a : α) → (d : Cursor) → d.size ≤ c.size → Parsed d β}

theorem Completes.keeps (hr : r.Completes) : r.Keeps :=
  ⟨hr.onward, fun hok => .inr (hr.last hok)⟩

theorem Keeps.here {a : α} : (Parsed.here c a).Keeps :=
  ⟨.refl c, fun _ => .inl rfl⟩

/-- Of a reader that fails nothing is asked. -/
theorem Completes.failed (h : Onward c r.next) (hr : r.next.Failed) : r.Completes :=
  ⟨h, fun hok => absurd hr hok⟩

theorem Completes.of_advance {r : Parsed c α} (hnext : r.next = c.advance) (hend : c.atEnd = false)
    (h : c.peek.canEnd = true) : r.Completes := by
  refine ⟨?_, fun _ => ?_⟩ <;> rw [hnext]
  · exact .advance c
  · exact Cursor.completes_advance hend h

/-- What comes last ends the reading. -/
theorem Completes.behind (hr : Onward c r.next) (hk : ∀ a d hd, (k a d hd).Completes) :
    (r.andThen k).Completes :=
  ⟨hr.trans (hk _ _ r.le).onward, fun hok => hr.completes ((hk _ _ r.le).last hok)⟩

/-- What comes last keeps to what closed before it. -/
theorem Completes.andThen (hr : r.Completes) (hk : ∀ a d hd, (k a d hd).Keeps) : (r.andThen k).Completes := by
  have hlast := hk r.value r.next r.le
  refine ⟨hr.onward.trans hlast.onward, fun hok => ?_⟩
  rcases hlast.last hok with hsame | hcloses
  · rw [Parsed.andThen_next] at hok ⊢
    rw [hsame] at hok ⊢
    exact hr.last hok
  · exact hr.onward.completes hcloses

theorem Keeps.andThen (hr : r.Keeps) (hk : ∀ a d hd, (k a d hd).Keeps) : (r.andThen k).Keeps := by
  have hlast := hk r.value r.next r.le
  refine ⟨hr.onward.trans hlast.onward, fun hok => ?_⟩
  rcases hlast.last hok with hsame | hcloses
  · rw [Parsed.andThen_next] at hok ⊢
    rw [hsame] at hok ⊢
    exact hr.last hok
  · exact .inr (hr.onward.completes hcloses)

end Parsed

namespace Parse

variable {p : Parse α} {k : α → Parse β}

theorem Completes.keeps (hp : p.Completes) : p.Keeps :=
  fun c => (hp c).keeps

theorem Completes.behind (hp : ∀ c, Onward c (p c).next) (hk : ∀ a, (k a).Completes) : (p >>= k).Completes :=
  fun c => Parsed.Completes.behind (hp c) fun a d _ => hk a d

theorem Completes.bind (hp : p.Completes) (hk : ∀ a, (k a).Keeps) : (p >>= k).Completes :=
  fun c => (hp c).andThen fun a d _ => hk a d

theorem Keeps.bind (hp : p.Keeps) (hk : ∀ a, (k a).Keeps) : (p >>= k).Keeps :=
  fun c => (hp c).andThen fun a d _ => hk a d

theorem Keeps.pure (a : α) : (Pure.pure a : Parse α).Keeps :=
  fun _ => .here

theorem Keeps.look {g : Cursor → α} : (Parse.look g).Keeps :=
  fun _ => .here

theorem Completes.expectPunct {mark : String} (hmark : signAfter .punct mark = false) :
    (Parse.expectPunct mark).Completes :=
  fun c => ⟨.expectPunct c mark, fun hok => Cursor.completes_expectPunct hmark hok⟩

/-! ## Targets -/

theorem completes_elementRef : elementRef.Completes := by
  intro c
  unfold elementRef
  split
  · rename_i hstar
    exact .of_advance rfl (Cursor.atEnd_eq_false_of_atOperator hstar) (Token.canEnd_of_star hstar)
  · split
    · rename_i hname
      refine .of_advance rfl (Cursor.atEnd_eq_false_of_ne (φ := fun t => t.isName || t.isInt)
        ⟨fun _ _ => rfl, rfl⟩ hname (by decide)) ?_
      rcases Bool.or_eq_true_iff.1 hname with hname | hint
      · exact Token.canEnd_of_isName hname
      · exact Token.canEnd_of_isInt hint
    · exact .failed (.unexpected c _) (Cursor.failed_unexpected c _)

theorem completes_edgeRef : edgeRef.Completes := by
  refine .behind (fun c => .refl c) fun b => ?_
  cases b with
  | true =>
    refine .behind (.eatPunct · _) fun _ => .behind (fun c => (completes_elementRef c).onward) fun _ => ?_
    refine .behind (.expectPunct · _) fun _ => .behind (fun c => (completes_elementRef c).onward) fun _ => ?_
    exact (Completes.expectPunct (by decide)).bind fun _ => .pure _
  | false =>
    refine completes_elementRef.bind fun _ => Keeps.look.bind fun arrow => ?_
    -- The arrow may be missing, and what it leads to may not
    cases arrow with
    | true =>
      exact (Completes.behind .advance fun _ => completes_elementRef.bind fun _ => .pure _).keeps
    | false => exact .pure _

theorem completes_targetText : targetText.Completes := by
  intro c
  unfold targetText
  split
  · rename_i hstring
    refine .of_advance rfl (Cursor.atEnd_eq_false_of_ne .isString hstring (by decide)) ?_
    exact Token.canEnd_of_isName (by rw [Token.isName, hstring, Bool.or_true])
  · exact .failed (.unexpected c _) (Cursor.failed_unexpected c _)

end Parse

namespace Cursor

theorem completes_targetList {item : (e : Cursor) → e.size < c.size → Parsed e Target}
    (hitem : ∀ e he, Onward e (item e he).next) : (c.targetList item).Completes := by
  have honward := (yields_targetList fun e he => ⟨hitem e he, fun _ _ => trivial⟩).onward
  refine ⟨honward, fun hok => ?_⟩
  unfold targetList at hok ⊢
  by_cases hopen : c.atPunct "(" = true
  · rw [dif_pos hopen] at hok ⊢
    have hitems := onward_targetItems hitem (size_advance_lt_of_atPunct hopen)
    exact ((Onward.advance c).trans hitems).completes (completes_expectPunct (by decide) hok)
  · rw [dif_neg hopen] at hok
    exact absurd (failed_unexpected c _) hok

theorem keeps_difference (start : Position) (ts : List Target) (c : Cursor) :
    (c.difference start ts).Keeps := by
  refine ⟨(yields_difference start ts c).onward, fun hok => .inl ?_⟩
  unfold difference at hok ⊢
  dsimp only at hok ⊢
  split at hok
  · rw [if_pos ‹_›]
    rfl
  · exact absurd (failed_report.2 (.inr rfl)) hok

theorem completes_target (c : Cursor) : c.target.Completes := by
  refine ⟨(yields_target c).onward, fun hok => ?_⟩
  cases hhead : c.targetHead? with
  | none => exact absurd (failed_target hhead) hok
  | some head =>
    rw [(target_eq hhead).2] at hok ⊢
    have hbehind : (targetBehind c.here c.advance head).Completes := by
      have hinner (e : Cursor) (_ : e.size < c.advance.size) : Onward e e.target.next :=
        (yields_target e).onward
      cases head <;> simp only [targetBehind]
      case element => exact (Parse.completes_elementRef _).andThen fun _ _ _ => .here
      case edge => exact (Parse.completes_edgeRef _).andThen fun _ _ _ => .here
      case matching => exact (Parse.completes_targetText _).andThen fun _ _ _ => .here
      case several => exact (completes_targetList hinner).andThen fun _ _ _ => .here
      case except => exact (completes_targetList hinner).andThen fun _ _ _ => keeps_difference _ _ _
    exact (Onward.advance c).completes (hbehind.last hok)

end Cursor

/-! ## Variables, lists and calls -/

theorem Parse.completes_segment? (what : String) : (Parse.segment? what).Completes := by
  intro c
  unfold Parse.segment?
  split
  · rename_i hsegment
    refine .of_advance rfl (Cursor.atEnd_eq_false_of_ne (φ := fun t => t.isWord || t.isInt)
      ⟨fun _ _ => rfl, rfl⟩ hsegment (by decide)) ?_
    rcases Bool.or_eq_true_iff.1 hsegment with hword | hint
    · exact Token.canEnd_of_isName (by rw [Token.isName, hword, Bool.true_or])
    · exact Token.canEnd_of_isInt hint
  · exact .failed (.unexpected c _) (Cursor.failed_unexpected c _)

namespace Cursor

theorem keeps_pathTail (c : Cursor) : c.pathTail.Keeps := by
  refine ⟨(yields_pathTail c).onward, ?_⟩
  induction hn : c.size using Nat.strongRecOn generalizing c with
  | _ n ih =>
    intro hok
    rw [pathTail.eq_1 c] at hok ⊢
    by_cases hpoint : c.atPunct "." = true
    · have hsegment := Parse.completes_segment? "a path segment" c.advance
      have hlt := size_advance_lt_of_atPunct hpoint
      have hle := (Parse.segment? "a path segment" c.advance).le
      rw [dif_pos hpoint] at hok ⊢
      right
      refine (Onward.advance c).completes ?_
      cases hs : (Parse.segment? "a path segment" c.advance).value with
      | none =>
        simp only [hs] at hok ⊢
        exact hsegment.last hok
      | some s =>
        simp only [hs, Parsed.weaken_next, Parsed.map_next] at hok ⊢
        rcases ih _ (by omega) _ rfl hok with hsame | hcloses
        · rw [hsame] at hok ⊢
          exact hsegment.last hok
        · exact hsegment.onward.completes hcloses
    · rw [dif_neg hpoint]
      exact .inl rfl

end Cursor

theorem Parse.completes_var : Parse.var.Completes :=
  .behind (fun c => .refl c) fun _ => .behind (.expectPunct · _) fun _ =>
    (completes_segment? _).bind fun _ => Keeps.bind Cursor.keeps_pathTail fun _ =>
      Keeps.look.bind fun _ => .pure _

namespace Cursor

theorem completes_block (context : String) {item : (e : Cursor) → e.size < c.size → Parsed e (Option α)}
    (hitem : ∀ e he, Onward e (item e he).next) : (c.block context item).Completes := by
  have honward := (yields_block (Q := fun _ => True) context
    fun e he => ⟨hitem e he, fun _ _ _ _ => trivial⟩).onward
  refine ⟨honward, fun hok => ?_⟩
  unfold block at hok ⊢
  by_cases hopen : c.atPunct openBrace = true
  · rw [dif_pos hopen] at hok ⊢
    have hitems := onward_blockItems context hitem (size_advance_lt_of_atPunct hopen)
    exact ((Onward.advance c).trans hitems).completes (completes_expectPunct (by decide) hok)
  · rw [dif_neg hopen] at hok
    exact absurd (failed_unexpected c _) hok

section

variable {sub : (e : Cursor) → e.size < c.size → Parsed e Expr}

theorem completes_objectWith (hsub : ∀ e he, (sub e he).Yields Expr.WellFormed) :
    (c.objectWith sub).Completes := by
  refine (completes_block _ fun e he => ?_).andThen fun _ _ _ => .here
  exact (yields_entry (Q := fun _ => Expr.WellFormed) fun x _ => hsub x _).onward

theorem completes_arrayWith (hsub : ∀ e he, (sub e he).Yields Expr.WellFormed)
    (hopen : c.atPunct "[" = true) : (c.arrayWith sub).Completes := by
  refine ⟨(yields_arrayWith hsub hopen).onward, fun hok => ?_⟩
  unfold arrayWith at hok ⊢
  rw [dif_pos hopen] at hok ⊢
  have hitems := onward_separated (fun e he => (hsub e he).onward) "]" "`,` or `]`"
    (size_advance_lt_of_atPunct hopen)
  exact ((Onward.advance c).trans hitems).completes (completes_expectPunct (by decide) hok)

theorem completes_parenWith (hsub : ∀ e he, (sub e he).Yields Expr.WellFormed)
    (hopen : c.atPunct "(" = true) : (c.parenWith hopen sub).Completes := by
  have hinner := (hsub c.advance (size_advance_lt_of_atPunct hopen)).onward
  refine ⟨((Onward.advance c).trans hinner).trans (.expectPunct _ _), fun hok => ?_⟩
  exact ((Onward.advance c).trans hinner).completes (completes_expectPunct (by decide) hok)

theorem completes_callWith (hsub : ∀ e he, (sub e he).Yields Expr.WellFormed) :
    (c.callWith sub).Completes := by
  refine ⟨(yields_callWith hsub).onward, fun hok => ?_⟩
  unfold callWith at hok ⊢
  by_cases hword : c.peek.isWord = true
  · rw [dif_pos hword] at hok ⊢
    dsimp only at hok ⊢
    have hwords := (Onward.advance c).trans (yields_calleeTail c.advance).onward
    by_cases hopen : c.advance.calleeTail.next.atPunct "(" = true
    · rw [dif_pos hopen] at hok ⊢
      refine Onward.completes ?_ (completes_expectPunct (by decide) hok)
      refine (hwords.trans (.advance _)).trans (onward_separated (fun e he => ?_) _ _ _)
      exact onward_argumentWith fun x hx => (hsub x _).onward
    · rw [dif_neg hopen] at hok
      exact absurd (failed_unexpected _ _) hok
  · rw [dif_neg hword] at hok
    exact absurd (failed_unexpected c _) hok

/-! ## Expressions without operators -/

/-- The last token of an expression without operators is none that a sign behind it could be mistaken
after, but for a reserved word and a star. -/
theorem completes_primaryWith (hsub : ∀ e he, (sub e he).Yields Expr.WellFormed) :
    (c.primaryWith sub).Completes := by
  unfold primaryWith
  cases hl : Literal.ofToken? c.peek with
  | some l =>
    exact .of_advance rfl (atEnd_eq_false_of_ne (φ := fun t => (Literal.ofToken? t).isSome)
      ⟨fun _ _ => rfl, rfl⟩ (Option.isSome_of_eq_some hl) (by decide)) (Token.canEnd_of_literal hl)
  | none =>
    dsimp only
    split
    · exact completes_objectWith hsub
    split
    · exact completes_arrayWith hsub ‹_›
    split
    · exact completes_parenWith hsub ‹_›
    split
    · exact Parse.completes_var c
    split
    · exact ⟨(completes_target c).onward, (completes_target c).last⟩
    split
    · exact (completes_callWith hsub).andThen fun _ _ _ => .here
    · exact .failed (yields_missingExpr c).onward (failed_missingExpr c)

end

end Cursor

end DiagramTour
