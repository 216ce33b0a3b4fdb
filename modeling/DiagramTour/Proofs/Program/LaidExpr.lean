import DiagramTour.Proofs.Program.Laid

/-!
# Targets and expressions in order

Every target and every expression lays out itself, as one phrase.  The span of most of them goes from
their first token to their last one; an operator between two operands takes its span from these, and so
does an expression that is a target.
-/

namespace DiagramTour

open Cursor (Reach Ahead Laid Covers)

variable {α : Type} {source : List Char} {c d o : Cursor} {fs : List (List Phrase)}

theorem Literal.isEnd_eq_false_of_ofToken? {t : Token} {l : Literal}
    (h : Literal.ofToken? t = some l) : t.isEnd = false := by
  revert h
  cases t with
  | mk lexeme image span => cases lexeme <;> simp [Literal.ofToken?, Token.isEnd]

/-! ## Targets -/

namespace Parse.Lays

theorem elementRef : Parse.elementRef.Lays source fun _ => [] := by
  intro c hc
  unfold Parse.elementRef
  split_ifs
  · exact .nil (.advance hc)
  · exact .nil (.advance hc)
  · exact .nil (.unexpected hc _)

theorem edgeRef : Parse.edgeRef.Lays source fun _ => [] := by
  refine Fills.lays fun o => .look fun b => ?_
  cases b with
  | true =>
    exact .skip (eatPunct _) fun _ => .skip elementRef fun _ => .skip (expectPunct _) fun _ =>
      .skip elementRef fun _ => .skip (expectPunct _) fun _ => .pure (by simp)
  | false =>
    refine .skip elementRef fun _ => .look fun b => ?_
    cases b with
    | true => exact .skip next fun _ => .skip elementRef fun _ => .pure (by simp)
    | false => exact .pure (by simp)

theorem targetText : Parse.targetText.Lays source fun _ => [] := by
  intro c hc
  unfold Parse.targetText
  split
  · exact .nil (.advance hc)
  · exact .nil (.unexpected hc _)

end Parse.Lays

namespace Cursor

theorem lays_targetItems {bound : Nat} {item : (d : Cursor) → d.size < bound → Parsed d Target}
    (hitem : ∀ d hd, (item d hd).Lays source fun t => [[.target t]]) {c : Cursor}
    (hc : c.size < bound) :
    (targetItems bound item c hc).Lays source fun ts => [ts.map .target] := by
  intro hstands
  induction hn : c.size using Nat.strongRecOn generalizing c with
  | _ n ih =>
    rw [targetItems]
    split
    · exact .of_laid (.nil (.refl hstands))
    · rename_i hstop
      have hend := not_atEnd_of_not_stop hstop
      have hturn := hitem c hc hstands
      dsimp only
      split
      · have hlt := size_afterTurn_lt hend (item c hc).le "a target"
        have hafter := hturn.step (hturn.ahead.afterTurn "a target")
        exact hafter.append (ih _ (hn ▸ hlt) (Nat.lt_trans hlt hc) hafter.ahead.stands rfl)
      · split
        · rename_i hsep
          have hlt := Nat.lt_of_lt_of_le (size_advance_lt (atEnd_eq_false_of_atPunct hsep))
            (item c hc).le
          have hcomma := hturn.step (.advance hturn.ahead.stands)
          exact hcomma.append (ih _ (hn ▸ hlt) (Nat.lt_trans hlt hc) hcomma.ahead.stands rfl)
        · split
          · exact hturn
          · exact hturn.step (.unexpected hturn.ahead.stands _)

theorem lays_targetList {item : (d : Cursor) → d.size < c.size → Parsed d Target}
    (hitem : ∀ d hd, (item d hd).Lays source fun t => [[.target t]]) :
    (c.targetList item).Lays source fun ts => [ts.map .target] := by
  intro hc
  unfold targetList
  split
  · rename_i h
    have hopen := Ahead.advance hc
    have hitems := lays_targetItems hitem (size_advance_lt_of_atPunct h) hopen.stands
    exact (Reach.after hopen hitems).step (.expectPunct hitems.ahead.stands _)
  · exact .of_laid (.nil (.unexpected hc _))

/-- The difference of the targets that were read since `o`. -/
theorem reach_difference {operands : List Target} (h : o.Reach source [operands.map .target] d)
    (hmoved : ¬d.Failed → d.size < o.size) :
    o.Reach source [[.target (d.difference o.here operands).value]]
      (d.difference o.here operands).next := by
  have hlaid := h.laid
  unfold difference
  dsimp only
  split
  · rename_i htwo
    obtain ⟨a, b, rfl⟩ := List.length_eq_two.1 htwo
    exact .of_laid (hlaid.node rfl (by simp [Phrase.lists, Phrase.ofTarget]) hmoved)
  · -- What is missing stands where the difference begins
    have hreport := Ahead.report hlaid.ahead.stands .differenceArity (d.spanFrom o.here)
    have hoperand (k : Nat) : (Phrase.target (operands[k]?.getD (.placeholder (.point o.here)))).Throughout
        fun u => u.span.IsPlaced source := by
      cases hk : operands[k]? with
      | some t =>
        exact hlaid.placed _ (List.mem_map_of_mem (List.mem_of_getElem? hk))
      | none =>
        rw [Phrase.throughout_iff]
        exact ⟨.point hlaid.ahead.origin.here_isIn, by
          simp [Phrase.lists, Phrase.ofTarget, Target.placeholder]⟩
    refine .of_laid (.broken (hlaid.ahead.trans hreport) (failed_report.2 (.inr rfl)) rfl ?_)
    simp only [Phrase.lists, Phrase.ofTarget, List.forall_mem_singleton, List.forall_mem_cons]
    exact ⟨hoperand 0, hoperand 1⟩

/-- A target that was read since `o`, behind its word, and holds these targets. -/
theorem reach_target (h : o.Reach source fs d) (hmoved : d.size < o.size) {t : Target}
    (hspan : t.span = d.spanFrom o.here) (hlists : ∀ us ∈ Phrase.ofTarget t, us ∈ fs) :
    o.Reach source [[.target t]] d :=
  h.node hspan (.of_subset hlists) fun _ => hmoved

theorem lays_target (c : Cursor) : c.target.Lays source fun t => [[.target t]] := by
  intro hc
  induction hn : c.size using Nat.strongRecOn generalizing c with
  | _ n ih =>
    rw [target]
    split
    · exact .of_laid (.missing hc (.unexpected hc _) (failed_unexpected c _) rfl
        (by simp [Phrase.lists, Phrase.ofTarget, Target.placeholder]))
    · rename_i head hhead
      have hlt := size_advance_lt (atEnd_eq_false_of_targetHead? hhead)
      have hopen := Ahead.advance hc
      -- Inner targets begin behind the word of this one
      have hlist : (c.advance.targetList fun e _ => e.target).Lays source fun ts =>
          [ts.map .target] :=
        lays_targetList fun e he hstands => ih e.size (by omega) e hstands rfl
      have hmoved {r : Cursor} (hr : r.size ≤ c.advance.size) : r.size < c.size := by omega
      cases head <;> dsimp only [Parsed.weaken_next, Parsed.weaken_value, Parsed.andThen_value,
        Parsed.andThen_next, Parsed.here_value, Parsed.here_next]
      case element kind =>
        exact reach_target (Reach.after hopen (Parse.Lays.elementRef _ hopen.stands))
          (hmoved (Parse.elementRef _).le) rfl (by simp [Phrase.ofTarget])
      case edge =>
        exact reach_target (Reach.after hopen (Parse.Lays.edgeRef _ hopen.stands))
          (hmoved (Parse.edgeRef _).le) rfl (by simp [Phrase.ofTarget])
      case matching key =>
        exact reach_target (Reach.after hopen (Parse.Lays.targetText _ hopen.stands))
          (hmoved (Parse.targetText _).le) rfl (by simp [Phrase.ofTarget])
      case several how =>
        exact reach_target (Reach.after hopen (hlist hopen.stands))
          (hmoved (c.advance.targetList _).le) rfl (by simp [Phrase.ofTarget])
      case except =>
        exact reach_difference (Reach.after hopen (hlist hopen.stands))
          fun _ => hmoved (c.advance.targetList _).le

end Cursor

/-! ## Variables and lists -/

theorem Parse.Lays.segment? (what : String) : (Parse.segment? what).Lays source fun _ => [] := by
  intro c hc
  unfold Parse.segment?
  split
  · exact .nil (.advance hc)
  · exact .nil (.unexpected hc _)

namespace Cursor

theorem lays_pathTail (c : Cursor) : c.pathTail.Lays source fun _ => [] := by
  intro hc
  induction hn : c.size using Nat.strongRecOn generalizing c with
  | _ n ih =>
    rw [pathTail]
    split
    · rename_i h
      have hlt := size_advance_lt_of_atPunct h
      have hpoint := Ahead.advance hc
      have hsegment := Reach.after hpoint (Parse.Lays.segment? "a path segment" _ hpoint.stands)
      have hle := (Parse.segment? "a path segment" c.advance).le
      dsimp only
      split
      · have htail := ih _ (by omega) (Parse.segment? "a path segment" c.advance).next
          hsegment.ahead.stands rfl
        exact .after hsegment.ahead htail
      · exact hsegment
    · exact .nil (.refl hc)

end Cursor

theorem Parse.Lays.var : Parse.var.Lays source fun e => [[.expr e]] :=
  opensWithMark fun o => .skip (segment? _) fun first => .skip Cursor.lays_pathTail fun tail =>
    .close (fun span => .expr (.var (first.toList ++ tail) span)) (fun _ => rfl)
      (by simp [Phrase.lists, Phrase.ofExpr]) fun span => .pure (by simp)

namespace Cursor

theorem lays_calleeTail (c : Cursor) : c.calleeTail.Lays source fun _ => [] := by
  intro hc
  induction hn : c.size using Nat.strongRecOn generalizing c with
  | _ n ih =>
    rw [calleeTail]
    split
    · rename_i h
      have hlt := size_advance_lt_of_atPunct (Bool.and_eq_true_iff.1 h).1
      have hle := size_advance_le c.advance
      have hpoint := Ahead.advance hc
      have hword := hpoint.trans (.advance hpoint.stands)
      exact .after hword (ih _ (by omega) c.advance.advance hword.stands rfl)
    · exact .nil (.refl hc)

theorem lays_separated {f : α → Phrase} {bound : Nat} (close expected : String)
    (item : (d : Cursor) → d.size < bound → Parsed d α)
    (hitem : ∀ d hd, (item d hd).Lays source fun a => [[f a]]) {c : Cursor} (hc : c.size < bound) :
    (separated bound close expected item c hc).Lays source fun as => [as.map f] := by
  intro hstands
  induction hn : c.size using Nat.strongRecOn generalizing c with
  | _ n ih =>
    rw [separated]
    split
    · exact .of_laid (.nil (.refl hstands))
    · have hturn := hitem c hc hstands
      dsimp only
      split
      · rename_i hsep
        have hlt := Nat.lt_of_lt_of_le (size_advance_lt (atEnd_eq_false_of_atPunct hsep))
          (item c hc).le
        have hcomma := hturn.step (.advance hturn.ahead.stands)
        exact hcomma.append (ih _ (hn ▸ hlt) (Nat.lt_trans hlt hc) hcomma.ahead.stands rfl)
      · split
        · exact hturn
        · -- A list that is given up
          have hgiven := hturn.step (.unexpected hturn.ahead.stands expected)
          split
          · exact hgiven.step (.advance hgiven.ahead.stands)
          · exact hgiven

/-! ## Objects, lists and calls -/

theorem lays_entry {value : Token → (d : Cursor) → d.size < c.size → Parsed d Expr}
    (hvalue : ∀ d hd, (value c.peek d hd).Lays source fun e => [[.expr e]]) :
    (c.entry value).Lays source fun o => [o.toList.map .entry] := by
  intro hc
  unfold entry
  split
  · rename_i h
    have hlt : (c.advance.expectPunct ":").size < c.size :=
      Nat.lt_of_le_of_lt (size_expectPunct_le _ _) (size_advance_lt (atEnd_eq_false_of_isName h))
    have hkey := Ahead.advance hc
    have hcolon := hkey.trans (.expectPunct hkey.stands ":")
    have hread := Reach.after hcolon (hvalue _ hlt hcolon.stands)
    have hcomma := hread.step (.eatPunct hread.ahead.stands ",")
    refine hcomma.node (t := .entry _) rfl (by simp [Phrase.lists]) fun _ => ?_
    exact Nat.lt_of_le_of_lt (Nat.le_trans (size_eatPunct_le _ _) (value c.peek _ hlt).le) hlt
  · exact .of_laid (.nil (.refl hc))

/-- An expression that was read since `o` and consists of these lists. -/
theorem reach_expr (h : o.Reach source fs d) (hmoved : ¬d.Failed → d.size < o.size) {e : Expr}
    (hspan : e.span = d.spanFrom o.here) (hlists : ∀ us ∈ Phrase.ofExpr e, us ∈ fs) :
    o.Reach source [[.expr e]] d :=
  h.node hspan (.of_subset hlists) hmoved

section

variable {sub : (d : Cursor) → d.size < c.size → Parsed d Expr}

theorem lays_objectWith (hsub : ∀ d hd, (sub d hd).Lays source fun e => [[.expr e]]) :
    (c.objectWith sub).Lays source fun e => [[.expr e]] := by
  intro hc
  have hblock : (c.block "an object entry" fun d hd =>
      d.entry fun _ e he => sub e (Nat.lt_trans he hd)).Lays source fun es => [es.map .entry] :=
    lays_phrases _ fun d hd => lays_entry fun e he => hsub e _
  exact reach_expr (hblock hc) size_block_lt rfl (by simp [Phrase.ofExpr, objectWith])

theorem lays_arrayWith (hsub : ∀ d hd, (sub d hd).Lays source fun e => [[.expr e]])
    (h : c.atPunct "[" = true) : (c.arrayWith sub).Lays source fun e => [[.expr e]] := by
  intro hc
  unfold arrayWith
  rw [dif_pos h]
  have hlt := size_advance_lt_of_atPunct h
  have hopen := Ahead.advance hc
  have hitems := Reach.after hopen (lays_separated "]" "`,` or `]`" sub hsub hlt hopen.stands)
  refine reach_expr (hitems.step (.expectPunct hitems.ahead.stands "]")) (fun _ => ?_) rfl
    (by simp [Phrase.ofExpr])
  exact Nat.lt_of_le_of_lt (Nat.le_trans (size_expectPunct_le _ _) (separated _ _ _ _ _ _).le) hlt

theorem lays_argumentWith {sub : (d : Cursor) → d.size ≤ c.size → Parsed d Expr}
    (hsub : ∀ d hd, (sub d hd).Lays source fun e => [[.expr e]]) :
    (c.argumentWith sub).Lays source fun a => [[.expr a.value]] := by
  intro hc
  unfold argumentWith
  split
  · have hname := Ahead.advance hc
    have hcolon := hname.trans (.advance hname.stands)
    exact .after hcolon (hsub c.advance.advance _ hcolon.stands)
  · exact hsub c c.size_le_self hc

theorem lays_callWith (hsub : ∀ d hd, (sub d hd).Lays source fun e => [[.expr e]]) :
    (c.callWith sub).Lays source fun call => [call.args.map fun a => .expr a.value] := by
  intro hc
  unfold callWith
  split
  · rename_i h
    have hlt := size_advance_lt (atEnd_eq_false_of_isWord h)
    have hword := Ahead.advance hc
    have hwords := hword.trans (lays_calleeTail _ hword.stands).ahead
    dsimp only
    split
    · rename_i hopen
      have hargs := Nat.lt_trans (size_advance_lt (atEnd_eq_false_of_atPunct hopen))
        (Nat.lt_of_le_of_lt c.advance.calleeTail.le hlt)
      have hparen := hwords.trans (.advance hwords.stands)
      have hlist := Reach.after hparen (lays_separated ")" "`,` or `)`"
        (fun d hd => d.argumentWith fun e he => sub e (Nat.lt_of_le_of_lt he hd))
        (fun d hd => lays_argumentWith fun e he => hsub e _) hargs hparen.stands)
      exact hlist.step (.expectPunct hlist.ahead.stands ")")
    · exact .of_laid (.nil (hwords.trans (.unexpected hwords.stands _)))
  · exact .of_laid (.nil (.unexpected hc _))

/-- A call begins with a word, or fails. -/
theorem size_callWith_lt (hok : ¬(c.callWith sub).next.Failed) :
    (c.callWith sub).next.size < c.size := by
  unfold callWith at hok ⊢
  split at hok
  · rename_i h
    rw [dif_pos h]
    have hlt := size_advance_lt (atEnd_eq_false_of_isWord h)
    have hle := Nat.lt_of_le_of_lt c.advance.calleeTail.le hlt
    dsimp only
    split
    · refine Nat.lt_of_le_of_lt (Nat.le_trans (size_expectPunct_le _ _) (separated _ _ _ _ _ _).le) ?_
      exact Nat.lt_of_le_of_lt (size_advance_le _) hle
    · simpa using hle
  · exact absurd (failed_unexpected c _) hok

/-! ## Expressions -/

theorem lays_missingExpr (c : Cursor) : c.missingExpr.Lays source fun e => [[.expr e]] := by
  intro hc
  have hreported := failed_unexpected c "an expression"
  have hahead := Ahead.unexpected hc "an expression"
  unfold missingExpr
  dsimp only
  split
  · exact .of_laid (.missing hc hahead hreported rfl (by simp [Phrase.lists, Phrase.ofExpr]))
  · exact .of_laid (.missing hc (hahead.trans (.advance hahead.stands)) (failed_advance.2 hreported)
      rfl (by simp [Phrase.lists, Phrase.ofExpr]))

theorem lays_primaryWith (hsub : ∀ d hd, (sub d hd).Lays source fun e => [[.expr e]]) :
    (c.primaryWith sub).Lays source fun e => [[.expr e]] := by
  intro hc
  unfold primaryWith
  split
  · rename_i l hl
    have hend := atEnd_eq_false_of_peek (Literal.isEnd_eq_false_of_ofToken? hl)
    exact .of_laid (.token hc hend rfl (by simp [Phrase.lists, Phrase.ofExpr]))
  · split_ifs with hbrace hbracket hparen hdollar htarget hcall
    · exact lays_objectWith hsub hc
    · exact lays_arrayWith hsub hbracket hc
    · have hopen := Ahead.advance hc
      have hinner := Reach.after hopen (hsub c.advance (size_advance_lt_of_atPunct hparen) hopen.stands)
      exact hinner.step (.expectPunct hinner.ahead.stands _)
    · exact Parse.Lays.var c hc
    · exact .of_laid ((lays_target c hc).laid.around rfl rfl)
    · exact reach_expr (lays_callWith hsub hc) size_callWith_lt rfl
        (by simp [Phrase.ofExpr, callExprWith])
    · exact lays_missingExpr c hc

/-- An operator joins the operands on its sides. -/
theorem reach_operators {bound level : Nat}
    {operand : (d : Cursor) → d.size < bound → Parsed d Expr}
    (hoperand : ∀ d hd, (operand d hd).Lays source fun e => [[.expr e]]) {left : Expr} {c : Cursor}
    (hc : c.size ≤ bound) (hleft : o.Reach source [[.expr left]] c) :
    o.Reach source [[.expr (operators bound level operand left c hc).value]]
      (operators bound level operand left c hc).next := by
  induction hn : c.size using Nat.strongRecOn generalizing c left with
  | _ n ih =>
    rw [operators]
    split
    · exact hleft
    · rename_i op hop
      have hlt := size_advance_lt (atEnd_eq_false_of_operatorAt? hop)
      have hsign := hleft.step (.advance hleft.ahead.stands)
      have hright := hoperand c.advance (Nat.lt_of_lt_of_le hlt hc) hsign.ahead.stands
      have hnext := Nat.lt_of_le_of_lt (operand c.advance (Nat.lt_of_lt_of_le hlt hc)).le hlt
      have hjoined := (hsign.append hright).laid.join (t := .expr (.binary op left _ _)) rfl rfl
      exact ih _ (hn ▸ hnext) (Nat.le_trans (Nat.le_of_lt hnext) hc) (.of_laid hjoined) rfl

theorem lays_exprAt (level : Nat) (c : Cursor) :
    (c.exprAt level).Lays source fun e => [[.expr e]] := by
  intro hc
  induction hn : 7 * c.size + (topLevel - level) using Nat.strongRecOn generalizing c level with
  | _ n ih =>
    rw [exprAt]
    split
    · rename_i hlevel
      have hleft := ih (7 * c.size + (topLevel - (level + 1))) (by omega) (level + 1) c hc rfl
      refine reach_operators (fun e he hstands => ?_) _ hleft
      exact ih (7 * e.size + (topLevel - (level + 1))) (by omega) (level + 1) e hstands rfl
    · -- Operands and inner expressions have fewer tokens before them
      have hsub (l : Nat) (d : Cursor) (hd : d.size < c.size) :
          (d.exprAt l).Lays source fun e => [[.expr e]] :=
        fun hstands => ih (7 * d.size + (topLevel - l)) (by simp only [topLevel] at *; omega) l d
          hstands rfl
      unfold unaryWith
      split
      · rename_i op hop
        have hlt := size_advance_lt (atEnd_eq_false_of_peek (UnaryOp.isEnd_eq_false_of_ofToken? hop))
        have hsign := Ahead.advance hc
        have hoperand := Reach.after hsign (hsub topLevel c.advance hlt hsign.stands)
        refine reach_expr hoperand (fun _ => ?_) rfl (by simp [Phrase.ofExpr])
        exact Nat.lt_of_le_of_lt (c.advance.exprAt topLevel).le hlt
      · exact lays_primaryWith (fun d hd => hsub 0 d hd) hc

end

end Cursor

namespace Parse.Lays

theorem expr : Parse.expr.Lays source fun e => [[.expr e]] :=
  Cursor.lays_exprAt 0

theorem object : Parse.object.Lays source fun e => [[.expr e]] :=
  fun _ => Cursor.lays_objectWith fun d _ => Cursor.lays_exprAt 0 d

theorem call : Parse.call.Lays source fun call => [call.args.map fun a => .expr a.value] :=
  fun _ => Cursor.lays_callWith fun d _ => Cursor.lays_exprAt 0 d

theorem target : Parse.target.Lays source fun t => [[.target t]] :=
  Cursor.lays_target

end Parse.Lays

end DiagramTour
