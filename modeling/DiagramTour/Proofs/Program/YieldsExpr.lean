import DiagramTour.Proofs.Program.WellFormed
import DiagramTour.Proofs.Program.Yields

/-!
# What reading targets and expressions yields

Whatever target is read can be printed, and every expression that is read without an error is well
formed.  Each reader of a part is treated with any reader of inner expressions that yields
well-formed ones; the induction over levels and tokens comes last.
-/

namespace DiagramTour

open Cursor (Onward)

variable {c : Cursor}

/-! ## Tokens -/

theorem Token.lexeme_of_isWord {t : Token} (h : t.isWord = true) :
    t.lexeme = .keyword ∨ t.lexeme = .identifier := by
  unfold isWord at h
  split at h
  · exact .inl ‹_›
  · exact .inr ‹_›
  · cases h

theorem Cursor.Genuine.word (h : c.Genuine) (hw : c.peek.isWord = true) :
    Word c.peek.image ∧ wordLexeme c.peek.image = c.peek.lexeme := by
  have hlex := Token.lexeme_of_isWord hw
  have himage : Image c.peek.image.toList c.peek.lexeme := by
    apply h.image <;> rcases hlex with h | h <;> simp [h]
  obtain ⟨hword, heq⟩ := himage.isWord hlex
  rw [String.ofList_toList] at heq
  exact ⟨⟨hword, heq ▸ hlex⟩, heq.symm⟩

theorem Literal.raw_of_ofToken? {t : Token} {l : Literal} (h : Literal.ofToken? t = some l) :
    l.raw = t.image := by
  unfold Literal.ofToken? at h
  split at h
  · split at h <;> cases h <;> rfl
  all_goals first
    | cases h; rfl
    | cases h

theorem Cursor.Genuine.wellSpelled (h : c.Genuine) {l : Literal}
    (hl : Literal.ofToken? c.peek = some l) : l.WellSpelled := by
  have hraw := Literal.raw_of_ofToken? hl
  refine ⟨c.peek.lexeme, ?_, ?_⟩
  · rw [hraw]
    -- No mark and no raw block is a literal
    apply h.image <;> intros <;> intro heq <;> simp [Literal.ofToken?, heq] at hl
  · rw [hraw]
    exact hl

theorem wordLexeme_of_ofWord? {w : String} {head : TargetHead}
    (h : TargetHead.ofWord? w = some head) : wordLexeme w = .keyword := by
  unfold TargetHead.ofWord? at h
  split at h <;> first | rfl | cases h

/-! ## Targets -/

namespace Parse.Yields

theorem elementRef : Parse.elementRef.Yields fun _ => True := by
  intro c
  unfold Parse.elementRef
  split
  · exact ⟨.advance c, fun _ _ => trivial⟩
  · split
    · exact ⟨.advance c, fun _ _ => trivial⟩
    · exact ⟨.unexpected c _, fun _ _ => trivial⟩

theorem edgeRef : Parse.edgeRef.Yields fun _ => True := by
  refine look fun b => ?_
  cases b with
  | true =>
    exact bind (eatPunct _) fun _ => bind elementRef fun _ => bind (expectPunct _) fun _ =>
      bind elementRef fun _ => bind (expectPunct _) fun _ => pure (by simp)
  | false =>
    refine bind elementRef fun _ => look fun b => ?_
    cases b with
    | true => exact bind next fun _ => bind elementRef fun _ => pure (by simp)
    | false => exact pure (by simp)

theorem targetText : Parse.targetText.Yields fun _ => True := by
  intro c
  unfold Parse.targetText
  split
  · exact ⟨.advance c, fun _ _ => trivial⟩
  · exact ⟨.unexpected c _, fun _ _ => trivial⟩

end Parse.Yields

theorem Parsed.Yields.andThen_true {α β : Type} {r : Parsed c α} (hr : r.Yields fun _ => True)
    {f : (a : α) → (d : Cursor) → d.size ≤ c.size → Parsed d β}
    (hf : ∀ a d hd, (f a d hd).Yields fun _ => True) : (r.andThen f).Yields fun _ => True :=
  hr.andThen fun a d hd => (hf a d hd).imp fun _ _ _ => trivial

namespace Cursor

theorem yields_targetItems {bound : Nat} {item : (d : Cursor) → d.size < bound → Parsed d Target}
    (hitem : ∀ d hd, (item d hd).Yields fun _ => True) {c : Cursor} (hc : c.size < bound) :
    (targetItems bound item c hc).Yields fun _ => True := by
  induction hn : c.size using Nat.strongRecOn generalizing c with
  | _ n ih =>
    rw [targetItems]
    split
    · exact .here trivial
    · rename_i hstop
      have hend := not_atEnd_of_not_stop hstop
      have hturn := (hitem c hc).onward
      dsimp only
      split
      · have hlt := size_afterTurn_lt hend (item c hc).le "a target"
        have htail := ih _ (hn ▸ hlt) (Nat.lt_trans hlt hc) rfl
        exact ⟨(hturn.afterTurn _).trans htail.onward, fun _ _ => trivial⟩
      · split
        · rename_i hsep
          have hlt := Nat.lt_of_lt_of_le (size_advance_lt (atEnd_eq_false_of_atPunct hsep))
            (item c hc).le
          have htail := ih _ (hn ▸ hlt) (Nat.lt_trans hlt hc) rfl
          exact ⟨(hturn.trans (.advance _)).trans htail.onward, fun _ _ => trivial⟩
        · split
          · exact ⟨hturn, fun _ _ => trivial⟩
          · exact ⟨hturn.trans (.unexpected _ _), fun _ _ => trivial⟩

theorem yields_targetList {item : (d : Cursor) → d.size < c.size → Parsed d Target}
    (hitem : ∀ d hd, (item d hd).Yields fun _ => True) :
    (c.targetList item).Yields fun _ => True := by
  unfold targetList
  split
  · rename_i h
    have hitems := yields_targetItems hitem (size_advance_lt_of_atPunct h)
    exact ⟨((Onward.advance c).trans hitems.onward).trans (.expectPunct _ _), fun _ _ => trivial⟩
  · exact ⟨.unexpected c _, fun _ _ => trivial⟩

theorem yields_difference (start : Position) (operands : List Target) (c : Cursor) :
    (c.difference start operands).Yields fun _ => True := by
  unfold difference
  simp only
  split
  · exact .here trivial
  · exact ⟨.report c _ _, fun _ _ => trivial⟩

theorem yields_target (c : Cursor) : c.target.Yields fun _ => True := by
  induction hn : c.size using Nat.strongRecOn generalizing c with
  | _ n ih =>
    rw [target]
    split
    · exact ⟨.unexpected c _, fun _ _ => trivial⟩
    · rename_i head hhead
      have hlt := size_advance_lt (atEnd_eq_false_of_targetHead? hhead)
      -- Inner targets begin behind the word of this one
      have hinner (e : Cursor) (he : e.size < c.advance.size) : e.target.Yields fun _ => True :=
        ih e.size (by omega) e rfl
      refine ⟨(Onward.advance c).trans ?_, fun _ _ => trivial⟩
      cases head <;> dsimp only [Parsed.weaken_next]
      case element kind =>
        exact ((Parse.Yields.elementRef _).andThen_true fun _ _ _ => .here trivial).onward
      case edge => exact ((Parse.Yields.edgeRef _).andThen_true fun _ _ _ => .here trivial).onward
      case matching key =>
        exact ((Parse.Yields.targetText _).andThen_true fun _ _ _ => .here trivial).onward
      case several how =>
        exact ((yields_targetList hinner).andThen_true fun _ _ _ => .here trivial).onward
      case except =>
        exact ((yields_targetList hinner).andThen_true fun _ _ _ => yields_difference _ _ _).onward

end Cursor

/-! ## Variables and lists -/

/-- A segment that was read is a word or a whole number. -/
theorem Parse.Yields.segment? (what : String) :
    (Parse.segment? what).Yields fun o => ∃ w, o = some w ∧ Segment w := by
  intro c
  unfold Parse.segment?
  split
  · rename_i h
    refine ⟨.advance c, fun hgen _ => ⟨c.peek.image, rfl, ?_⟩⟩
    rcases Bool.or_eq_true_iff.1 h with hw | hi
    · exact .inl (hgen.word hw).1
    · right
      unfold Token.isInt at hi
      split at hi
      · rename_i value hlex
        refine ⟨value, ?_⟩
        rw [← hlex]
        apply hgen.image <;> simp [hlex]
      · cases hi
  · exact ⟨.unexpected c _, fun _ hok => absurd (Cursor.failed_unexpected c _) hok⟩

namespace Cursor

theorem yields_pathTail (c : Cursor) : c.pathTail.Yields fun ws => ∀ w ∈ ws, Segment w := by
  induction hn : c.size using Nat.strongRecOn generalizing c with
  | _ n ih =>
    rw [pathTail]
    split
    · rename_i h
      have hlt := size_advance_lt_of_atPunct h
      have hseg := Parse.Yields.segment? "a path segment" c.advance
      have hle := (Parse.segment? "a path segment" c.advance).le
      dsimp only
      split
      · rename_i w hw
        have htail := ih _ (by omega) (Parse.segment? "a path segment" c.advance).next rfl
        refine ⟨((Onward.advance c).trans hseg.onward).trans htail.onward, fun hgen hok => ?_⟩
        have hmid := fun h => hok (htail.onward.failed h)
        obtain ⟨w', hw', hsegment⟩ := hseg.value hgen.advance hmid
        have hrest := htail.value (hseg.onward.genuine hgen.advance) hok
        cases hw.symm.trans hw'
        intro v hv
        rcases List.mem_cons.1 hv with rfl | hv
        · exact hsegment
        · exact hrest v hv
      · rename_i hw
        refine ⟨(Onward.advance c).trans hseg.onward, fun hgen hok => ?_⟩
        obtain ⟨w', hw', -⟩ := hseg.value hgen.advance hok
        rw [hw'] at hw
        cases hw
    · exact .here (by simp)

end Cursor

theorem Parse.Yields.var : Parse.var.Yields Expr.WellFormed := by
  refine look fun _ => bind (expectPunct _) fun _ => bind (segment? _) fun first =>
    bind Cursor.yields_pathTail fun tail => look fun span => pure ?_
  rintro htail ⟨w, rfl, hw⟩ -
  refine .var (by simp) fun v hv => ?_
  rcases List.mem_cons.1 hv with rfl | hv
  · exact hw
  · exact htail v hv

namespace Cursor

theorem yields_calleeTail (c : Cursor) : c.calleeTail.Yields fun ws => ∀ w ∈ ws, Word w := by
  induction hn : c.size using Nat.strongRecOn generalizing c with
  | _ n ih =>
    rw [calleeTail]
    split
    · rename_i h
      obtain ⟨hpoint, hword⟩ := Bool.and_eq_true_iff.1 h
      have hlt := size_advance_lt_of_atPunct hpoint
      have hle := size_advance_le c.advance
      have htail := ih _ (by omega) c.advance.advance rfl
      refine ⟨((Onward.advance c).trans (.advance _)).trans htail.onward, fun hgen hok => ?_⟩
      have hrest := htail.value hgen.advance.advance hok
      intro v hv
      rcases List.mem_cons.1 hv with rfl | hv
      · rw [second_eq] at hword ⊢
        exact (hgen.advance.word hword).1
      · exact hrest v hv
    · exact .here (by simp)

variable {α : Type} {Q : α → Prop}

theorem yields_separated {bound : Nat} (close expected : String)
    (item : (d : Cursor) → d.size < bound → Parsed d α) (hitem : ∀ d hd, (item d hd).Yields Q)
    {c : Cursor} (hc : c.size < bound) :
    (separated bound close expected item c hc).Yields fun as => ∀ a ∈ as, Q a := by
  induction hn : c.size using Nat.strongRecOn generalizing c with
  | _ n ih =>
    rw [separated]
    split
    · exact .here (by simp)
    · have hturn := hitem c hc
      dsimp only
      split
      · rename_i hsep
        have hlt := Nat.lt_of_lt_of_le (size_advance_lt (atEnd_eq_false_of_atPunct hsep))
          (item c hc).le
        have htail := ih _ (hn ▸ hlt) (Nat.lt_trans hlt hc) rfl
        refine ⟨(hturn.onward.trans (.advance _)).trans htail.onward, fun hgen hok => ?_⟩
        have hmid : ¬(item c hc).next.Failed := fun h =>
          hok (htail.onward.failed (failed_advance.2 h))
        have hfirst := hturn.value hgen hmid
        have hrest := htail.value (hturn.onward.genuine hgen).advance hok
        intro b hb
        rcases List.mem_cons.1 hb with rfl | hb
        · exact hfirst
        · exact hrest b hb
      · split
        · exact ⟨hturn.onward, fun hgen hok => by simpa using hturn.value hgen hok⟩
        · -- A list that is given up is an error
          have hgiven := failed_unexpected (item c hc).next expected
          split
          · exact ⟨(hturn.onward.trans (.unexpected _ _)).trans (.advance _),
              fun _ hok => absurd (failed_advance.2 hgiven) hok⟩
          · exact ⟨hturn.onward.trans (.unexpected _ _), fun _ hok => absurd hgiven hok⟩

/-! ## Objects, lists and calls -/

theorem yields_entry {Q : String → Expr → Prop}
    {value : Token → (d : Cursor) → d.size < c.size → Parsed d Expr}
    (hvalue : ∀ d hd, (value c.peek d hd).Yields (Q c.peek.text)) :
    (c.entry value).Yields fun o => ∀ e, o = some e → Q e.key e.value := by
  unfold entry
  split
  · rename_i h
    have hlt : (c.advance.expectPunct ":").size < c.size :=
      Nat.lt_of_le_of_lt (size_expectPunct_le _ _) (size_advance_lt (atEnd_eq_false_of_isName h))
    have hread := hvalue _ hlt
    have hbefore : Onward c (c.advance.expectPunct ":") := (Onward.advance c).trans (.expectPunct _ _)
    refine ⟨(hbefore.trans hread.onward).trans (.eatPunct _ _), fun hgen hok e he => ?_⟩
    have hmid := fun h => hok ((Onward.eatPunct _ ",").failed h)
    cases he
    exact hread.value (hbefore.genuine hgen) hmid
  · exact .here (by simp)

section

variable {sub : (d : Cursor) → d.size < c.size → Parsed d Expr}

theorem yields_objectWith (hsub : ∀ d hd, (sub d hd).Yields Expr.WellFormed) :
    (c.objectWith sub).Yields Expr.IsObject := by
  refine Parsed.Yields.andThen (Q := fun es : List (Entry Expr) => ∀ e ∈ es, e.value.WellFormed)
    (yields_block _ fun d hd => ?_) fun entries d _ => .here ?_
  · exact yields_entry (Q := fun _ => Expr.WellFormed) fun e he => hsub e _
  · exact fun h => ⟨_, _, rfl, h⟩

theorem yields_arrayWith (hsub : ∀ d hd, (sub d hd).Yields Expr.WellFormed)
    (h : c.atPunct "[" = true) : (c.arrayWith sub).Yields Expr.WellFormed := by
  unfold arrayWith
  rw [dif_pos h]
  have hitems := yields_separated "]" "`,` or `]`" sub hsub (size_advance_lt_of_atPunct h)
  refine ⟨((Onward.advance c).trans hitems.onward).trans (.expectPunct _ _), fun hgen hok => ?_⟩
  exact .array (hitems.value hgen.advance fun h => hok ((Onward.expectPunct _ _).failed h))

theorem yields_argumentWith {sub : (d : Cursor) → d.size ≤ c.size → Parsed d Expr}
    (hsub : ∀ d hd, (sub d hd).Yields Expr.WellFormed) :
    (c.argumentWith sub).Yields fun a =>
      (∀ w, a.name = some w → Word w) ∧ a.value.WellFormed := by
  unfold argumentWith
  split
  · rename_i h
    have hvalue := hsub c.advance.advance
      (Nat.le_trans (size_advance_le _) (size_advance_le _))
    have hbefore : Onward c c.advance.advance := (Onward.advance c).trans (.advance _)
    refine ⟨hbefore.trans hvalue.onward, fun hgen hok => ⟨fun w hw => ?_, ?_⟩⟩
    · cases hw
      exact (hgen.word (Bool.and_eq_true_iff.1 h).1).1
    · exact hvalue.value hgen.advance.advance hok
  · have hvalue := hsub c c.size_le_self
    exact ⟨hvalue.onward, fun hgen hok => ⟨fun w hw => by simp at hw, hvalue.value hgen hok⟩⟩

theorem yields_callWith (hsub : ∀ d hd, (sub d hd).Yields Expr.WellFormed) :
    (c.callWith sub).Yields fun call => CalleeOf call.callee c.peek.image ∧
      (∀ a ∈ call.args, ∀ w, a.name = some w → Word w) ∧
      ∀ a ∈ call.args, a.value.WellFormed := by
  unfold callWith
  split
  · rename_i h
    have hlt := size_advance_lt (atEnd_eq_false_of_isWord h)
    have hwords := yields_calleeTail c.advance
    dsimp only
    split
    · rename_i hopen
      have hargs := Nat.lt_trans (size_advance_lt (atEnd_eq_false_of_atPunct hopen))
        (Nat.lt_of_le_of_lt c.advance.calleeTail.le hlt)
      have hlist := yields_separated ")" "`,` or `)`"
        (fun d hd => d.argumentWith fun e he => sub e (Nat.lt_of_le_of_lt he hd))
        (fun d hd => yields_argumentWith fun e he => hsub e _) hargs
      have hbefore : Onward c c.advance.calleeTail.next.advance :=
        ((Onward.advance c).trans hwords.onward).trans (.advance _)
      refine ⟨(hbefore.trans hlist.onward).trans (.expectPunct _ _), fun hgen hok => ?_⟩
      -- Neither the list of arguments nor the words before it failed
      have hend := fun h => hok ((Onward.expectPunct _ ")").failed h)
      have hmid : ¬c.advance.calleeTail.next.Failed := fun h =>
        hend (hlist.onward.failed (failed_advance.2 h))
      have hall := hlist.value (hbefore.genuine hgen) hend
      refine ⟨⟨_, rfl, fun w hw => ?_⟩, fun a ha => (hall a ha).1, fun a ha => (hall a ha).2⟩
      rcases List.mem_cons.1 hw with rfl | hw
      · exact (hgen.word h).1
      · exact hwords.value hgen.advance hmid w hw
    · exact ⟨((Onward.advance c).trans hwords.onward).trans (.unexpected _ _),
        fun _ hok => absurd (failed_unexpected _ _) hok⟩
  · exact ⟨.unexpected c _, fun _ hok => absurd (failed_unexpected c _) hok⟩

/-! ## Expressions -/

theorem yields_missingExpr (c : Cursor) : c.missingExpr.Yields fun _ => False := by
  unfold missingExpr
  have hreported := failed_unexpected c "an expression"
  dsimp only
  split
  · exact ⟨.unexpected c _, fun _ hok => hok hreported⟩
  · exact ⟨(Onward.unexpected c _).trans (.advance _), fun _ hok => hok (failed_advance.2 hreported)⟩

theorem isWord_of_startsCall (h : c.startsCall = true) : c.peek.isWord = true := by
  unfold startsCall at h
  unfold Token.isWord
  split at h <;> rename_i hlex
  · rw [hlex]
  · rw [hlex]
  · cases h

theorem yields_primaryWith (hsub : ∀ d hd, (sub d hd).Yields Expr.WellFormed) :
    (c.primaryWith sub).Yields Expr.WellFormed := by
  unfold primaryWith
  split
  · rename_i l hl
    exact ⟨.advance c, fun hgen _ => .literal (hgen.wellSpelled hl)⟩
  · split_ifs with hbrace hbracket hparen hdollar htarget hcall
    · refine (yields_objectWith hsub).imp ?_
      rintro _ ⟨entries, span, rfl, h⟩
      exact .object h
    · exact yields_arrayWith hsub hbracket
    · have hinner := hsub c.advance (size_advance_lt_of_atPunct hparen)
      refine ⟨((Onward.advance c).trans hinner.onward).trans (.expectPunct _ _), fun hgen hok => ?_⟩
      exact hinner.value hgen.advance fun h => hok ((Onward.expectPunct _ _).failed h)
    · exact Parse.Yields.var c
    · exact Parsed.Yields.map ((yields_target c).imp fun _ _ => .target)
    · have hyields := yields_callWith hsub
      refine ⟨hyields.onward, fun hgen hok => ?_⟩
      obtain ⟨hcallee, hnames, hargs⟩ := hyields.value hgen hok
      refine .call hcallee ?_ hnames hargs
      -- A word that opens a target was taken for one before
      by_contra hhead
      obtain ⟨head, hhead⟩ := Option.ne_none_iff_exists'.1 hhead
      have hlex : c.peek.lexeme = .keyword := by
        rw [← (hgen.word (isWord_of_startsCall hcall)).2]
        exact wordLexeme_of_ofWord? hhead
      simp [targetHead?, hlex, hhead] at htarget
    · exact (yields_missingExpr c).imp fun _ h => h.elim

theorem yields_operators {bound level : Nat}
    {operand : (d : Cursor) → d.size < bound → Parsed d Expr}
    (hoperand : ∀ d hd, (operand d hd).Yields Expr.WellFormed) (left : Expr) {c : Cursor}
    (hc : c.size ≤ bound) :
    (operators bound level operand left c hc).Yields fun e => left.WellFormed → e.WellFormed := by
  induction hn : c.size using Nat.strongRecOn generalizing c left with
  | _ n ih =>
    rw [operators]
    split
    · exact .here id
    · rename_i op hop
      have hlt := size_advance_lt (atEnd_eq_false_of_operatorAt? hop)
      have hright := hoperand c.advance (Nat.lt_of_lt_of_le hlt hc)
      have hnext := Nat.lt_of_le_of_lt (operand c.advance (Nat.lt_of_lt_of_le hlt hc)).le hlt
      dsimp only
      have hrest := ih _ (hn ▸ hnext)
        (.binary op left (operand c.advance (Nat.lt_of_lt_of_le hlt hc)).value
          (left.span.through (operand c.advance (Nat.lt_of_lt_of_le hlt hc)).value.span))
        (Nat.le_trans (Nat.le_of_lt hnext) hc) rfl
      have hbefore := (Onward.advance c).trans hright.onward
      refine ⟨hbefore.trans hrest.onward, fun hgen hok hleft => ?_⟩
      have hmid := fun h => hok (hrest.onward.failed h)
      exact hrest.value (hbefore.genuine hgen) hok
        (.binary hleft (hright.value hgen.advance hmid))

theorem yields_exprAt (level : Nat) (c : Cursor) : (c.exprAt level).Yields Expr.WellFormed := by
  induction hn : 7 * c.size + (topLevel - level) using Nat.strongRecOn generalizing c level with
  | _ n ih =>
    rw [exprAt]
    split
    · rename_i hlevel
      have hleft := ih (7 * c.size + (topLevel - (level + 1))) (by omega) (level + 1) c rfl
      refine hleft.andThen fun left d hd => ?_
      refine (yields_operators (fun e he => ?_) _ hd).imp fun e h hl => h hl
      exact ih (7 * e.size + (topLevel - (level + 1))) (by omega) (level + 1) e rfl
    · -- Operands and inner expressions have fewer tokens before them
      have hsub (l : Nat) (d : Cursor) (hd : d.size < c.size) : (d.exprAt l).Yields Expr.WellFormed :=
        ih (7 * d.size + (topLevel - l)) (by simp only [topLevel] at *; omega) l d rfl
      unfold unaryWith
      split
      · rename_i op hop
        have hlt := size_advance_lt (atEnd_eq_false_of_peek (UnaryOp.isEnd_eq_false_of_ofToken? hop))
        have hoperand := hsub topLevel c.advance hlt
        exact ⟨(Onward.advance c).trans hoperand.onward,
          fun hgen hok => .unary (hoperand.value hgen.advance hok)⟩
      · exact yields_primaryWith fun d hd => hsub 0 d hd

end

end Cursor

namespace Parse.Yields

theorem expr : Parse.expr.Yields Expr.WellFormed :=
  Cursor.yields_exprAt 0

theorem object : Parse.object.Yields Expr.IsObject :=
  fun _ => Cursor.yields_objectWith fun d _ => Cursor.yields_exprAt 0 d

theorem call : Parse.call.Yields Call.WellFormed :=
  fun _ => (Cursor.yields_callWith fun d _ => Cursor.yields_exprAt 0 d).imp
    fun _ h => ⟨⟨_, h.1⟩, h.2.1, h.2.2⟩

theorem target : Parse.target.Yields fun _ => True :=
  Cursor.yields_target

end Parse.Yields

end DiagramTour
