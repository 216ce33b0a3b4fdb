import DiagramTour.Proofs.Program.Standing
import DiagramTour.Program.Parse.Item

/-!
# What the readers of expressions report

Reading may warn of a setting that is not understood.  An expression holds no settings, so that
whatever is reported while one is read is an error: where no error was reported, nothing was.

## Architecture

`OnlyErrors` is an invariant of a cursor.  It is kept by what all readers are made of, reading a token
and reporting that something else was expected, and so by each reader; the loops and the recursive
readers are done by induction on the tokens that are left.
-/

namespace DiagramTour

variable {α β : Type} {c : Cursor}

/-! ## The invariant -/

/-- Nothing but errors was reported. -/
def Cursor.OnlyErrors (c : Cursor) : Prop :=
  ∀ d ∈ c.reports.toList, d.isError = true

/-- Reading adds nothing but errors to the reports. -/
def Parsed.OnlyErrors (r : Parsed c α) : Prop :=
  c.OnlyErrors → r.next.OnlyErrors

/-- The same wherever reading begins. -/
def Parse.OnlyErrors (p : Parse α) : Prop :=
  ∀ c, (p c).OnlyErrors

namespace Cursor.OnlyErrors

/-- Where nothing but errors was reported, and no error was, nothing was. -/
theorem silent (h : c.OnlyErrors) (hok : ¬c.Failed) : c.reports = #[] := by
  have hnone : c.reports.toList = [] := by
    apply List.eq_nil_iff_forall_not_mem.mpr
    intro d hd
    apply hok
    exact List.any_eq_true.mpr ⟨d, hd, h d hd⟩
  exact Array.toList_eq_nil_iff.mp hnone

theorem of_silent (h : c.reports = #[]) : c.OnlyErrors := by
  intro d hd
  rw [h] at hd
  cases hd

theorem advance (h : c.OnlyErrors) : c.advance.OnlyErrors := by
  unfold Cursor.advance
  split
  · exact h
  · exact h

theorem report {problem : Problem} (hsevere : problem.severity = .error) (span : Span)
    (h : c.OnlyErrors) : (c.report problem span).OnlyErrors := by
  intro d hd
  simp only [Cursor.report, Array.toList_push, List.mem_append, List.mem_singleton] at hd
  rcases hd with hd | rfl
  · exact h d hd
  · simp [Diagnostic.isError, hsevere]

theorem unexpected (expected : String) (h : c.OnlyErrors) : (c.unexpected expected).OnlyErrors := by
  unfold Cursor.unexpected
  split
  · exact h.report rfl _
  · exact h.report rfl _

theorem eatPunct (mark : String) (h : c.OnlyErrors) : (c.eatPunct mark).OnlyErrors := by
  unfold Cursor.eatPunct
  split
  · exact h.advance
  · exact h

theorem expectPunct (mark : String) (h : c.OnlyErrors) : (c.expectPunct mark).OnlyErrors := by
  unfold Cursor.expectPunct
  split
  · exact h.advance
  · exact h.unexpected _

theorem expectKeyword (word : String) (h : c.OnlyErrors) : (c.expectKeyword word).OnlyErrors := by
  unfold Cursor.expectKeyword
  split
  · exact h.advance
  · exact h.unexpected _

/-- A token that is skipped is reported first. -/
theorem afterTurn {d : Cursor} (context : String) (h : d.OnlyErrors) :
    (c.afterTurn d context).OnlyErrors := by
  unfold Cursor.afterTurn recover
  split
  · apply advance
    split
    · exact h.unexpected _
    · exact h
  · exact h

end Cursor.OnlyErrors

/-! ## Combinations of readers -/

theorem Parsed.OnlyErrors.andThen {r : Parsed c α}
    {f : (a : α) → (d : Cursor) → d.size ≤ c.size → Parsed d β} (hr : r.OnlyErrors)
    (hf : ∀ a d hd, (f a d hd).OnlyErrors) : (r.andThen f).OnlyErrors :=
  fun h => hf r.value r.next r.le (hr h)

namespace Parse.OnlyErrors

theorem pure (a : α) : (Pure.pure a : Parse α).OnlyErrors :=
  fun _ => id

theorem bind {p : Parse α} {f : α → Parse β} (hp : p.OnlyErrors) (hf : ∀ a, (f a).OnlyErrors) :
    (p >>= f).OnlyErrors :=
  fun c => (hp c).andThen fun a d _ => hf a d

theorem look (g : Cursor → α) : (Parse.look g).OnlyErrors :=
  fun _ => id

theorem next : Parse.next.OnlyErrors :=
  fun _ h => h.advance

theorem unexpected (expected : String) : (Parse.unexpected expected).OnlyErrors :=
  fun _ h => h.unexpected expected

theorem eatPunct (mark : String) : (Parse.eatPunct mark).OnlyErrors :=
  fun _ h => h.eatPunct mark

theorem expectPunct (mark : String) : (Parse.expectPunct mark).OnlyErrors :=
  fun _ h => h.expectPunct mark

theorem expectKeyword (word : String) : (Parse.expectKeyword word).OnlyErrors :=
  fun _ h => h.expectKeyword word

/-- A token that has to be of some kind is read if it is, and reported otherwise. -/
theorem token {p : Parse α} (good : Cursor → Prop) (expected : String)
    (hgood : ∀ c, good c → (p c).next = c.advance)
    (hbad : ∀ c, ¬good c → (p c).next = c.unexpected expected) : p.OnlyErrors := by
  intro c h
  by_cases hc : good c
  · rw [hgood c hc]
    exact h.advance
  · rw [hbad c hc]
    exact h.unexpected expected

theorem name? (what : String) : (Parse.name? what).OnlyErrors := by
  apply token (fun c => c.peek.isName = true) what
  · intro c hc
    rw [Parse.name?, if_pos hc]
  · intro c hc
    rw [Parse.name?, if_neg hc]

theorem segment? (what : String) : (Parse.segment? what).OnlyErrors := by
  apply token (fun c => (c.peek.isWord || c.peek.isInt) = true) what
  · intro c hc
    rw [Parse.segment?, if_pos hc]
  · intro c hc
    rw [Parse.segment?, if_neg hc]

theorem targetText : Parse.targetText.OnlyErrors := by
  apply token (fun c => c.peek.isString = true) "a string"
  · intro c hc
    rw [Parse.targetText, if_pos hc]
  · intro c hc
    rw [Parse.targetText, if_neg hc]

theorem elementRef : Parse.elementRef.OnlyErrors := by
  intro c h
  unfold Parse.elementRef
  split
  · exact h.advance
  · split
    · exact h.advance
    · exact h.unexpected _

theorem edgeRef : Parse.edgeRef.OnlyErrors := by
  apply bind (look _)
  intro paren
  cases paren with
  | true =>
    exact bind (eatPunct _) fun _ => bind elementRef fun _ => bind (expectPunct _) fun _ =>
      bind elementRef fun _ => bind (expectPunct _) fun _ => pure _
  | false =>
    apply bind elementRef
    intro first
    apply bind (look _)
    intro arrow
    cases arrow with
    | true => exact bind next fun _ => bind elementRef fun _ => pure _
    | false => exact pure _

end Parse.OnlyErrors

namespace Cursor

variable {bound : Nat}

/-! ## Targets -/

theorem onlyErrors_targetItems {item : (d : Cursor) → d.size < bound → Parsed d Target}
    (hitem : ∀ d hd, (item d hd).OnlyErrors) {c : Cursor} (hc : c.size < bound) :
    (targetItems bound item c hc).OnlyErrors := by
  induction hn : c.size using Nat.strongRecOn generalizing c with
  | _ n ih =>
    intro h
    have hturn := hitem c hc h
    rw [targetItems]
    split
    · exact h
    · rename_i hstop
      have hend := not_atEnd_of_not_stop hstop
      dsimp only
      split
      · have hlt := size_afterTurn_lt hend (item c hc).le "a target"
        exact ih _ (hn ▸ hlt) (Nat.lt_trans hlt hc) rfl (hturn.afterTurn _)
      · split
        · rename_i hsep
          have hlt := Nat.lt_of_lt_of_le (size_advance_lt_of_atPunct hsep) (item c hc).le
          exact ih _ (hn ▸ hlt) (Nat.lt_trans hlt hc) rfl hturn.advance
        · split
          · exact hturn
          · exact hturn.unexpected _

theorem onlyErrors_targetList {item : (d : Cursor) → d.size < c.size → Parsed d Target}
    (hitem : ∀ d hd, (item d hd).OnlyErrors) : (c.targetList item).OnlyErrors := by
  intro h
  unfold targetList
  split
  · rename_i hopen
    apply OnlyErrors.expectPunct
    exact onlyErrors_targetItems hitem (size_advance_lt_of_atPunct hopen) h.advance
  · exact h.unexpected _

theorem onlyErrors_difference (start : Position) (operands : List Target) (c : Cursor) :
    (c.difference start operands).OnlyErrors := by
  intro h
  unfold difference
  dsimp only
  split
  · exact h
  · exact h.report rfl _

theorem onlyErrors_target (c : Cursor) : c.target.OnlyErrors := by
  induction hn : c.size using Nat.strongRecOn generalizing c with
  | _ n ih =>
    intro h
    rw [target]
    split
    · exact h.unexpected _
    · rename_i head hhead
      have hlt := size_advance_lt (atEnd_eq_false_of_targetHead? hhead)
      -- Inner targets begin behind the word of this one
      have hinner (e : Cursor) (he : e.size < c.advance.size) : e.target.OnlyErrors :=
        ih e.size (by omega) e rfl
      cases head with
      | element kind => exact Parse.OnlyErrors.elementRef _ h.advance
      | edge => exact Parse.OnlyErrors.edgeRef _ h.advance
      | matching key => exact Parse.OnlyErrors.targetText _ h.advance
      | several how => exact onlyErrors_targetList hinner h.advance
      | except =>
        exact onlyErrors_difference _ _ _ (onlyErrors_targetList hinner h.advance)

/-! ## Parts of expressions -/

theorem onlyErrors_pathTail (c : Cursor) : c.pathTail.OnlyErrors := by
  induction hn : c.size using Nat.strongRecOn generalizing c with
  | _ n ih =>
    intro h
    rw [pathTail]
    split
    · rename_i hpoint
      have hlt := size_advance_lt_of_atPunct hpoint
      have hle := (Parse.segment? "a path segment" c.advance).le
      have hsegment := Parse.OnlyErrors.segment? "a path segment" c.advance h.advance
      dsimp only
      split
      · exact ih _ (by omega) _ rfl hsegment
      · exact hsegment
    · exact h

end Cursor

theorem Parse.OnlyErrors.var : Parse.var.OnlyErrors :=
  bind (look _) fun _ => bind (expectPunct _) fun _ => bind (segment? _) fun _ =>
    bind Cursor.onlyErrors_pathTail fun _ => bind (look _) fun _ => pure _

namespace Cursor

variable {bound : Nat}

theorem onlyErrors_calleeTail (c : Cursor) : c.calleeTail.OnlyErrors := by
  induction hn : c.size using Nat.strongRecOn generalizing c with
  | _ n ih =>
    intro h
    rw [calleeTail]
    split
    · rename_i hword
      have hlt := size_advance_lt_of_atPunct (Bool.and_eq_true_iff.1 hword).1
      have hle := size_advance_le c.advance
      exact ih _ (by omega) _ rfl h.advance.advance
    · exact h

theorem onlyErrors_separated (close expected : String)
    {item : (d : Cursor) → d.size < bound → Parsed d α} (hitem : ∀ d hd, (item d hd).OnlyErrors)
    {c : Cursor} (hc : c.size < bound) : (separated bound close expected item c hc).OnlyErrors := by
  induction hn : c.size using Nat.strongRecOn generalizing c with
  | _ n ih =>
    intro h
    have hturn := hitem c hc h
    rw [separated]
    split
    · exact h
    · dsimp only
      split
      · rename_i hsep
        have hlt := Nat.lt_of_lt_of_le (size_advance_lt_of_atPunct hsep) (item c hc).le
        exact ih _ (hn ▸ hlt) (Nat.lt_trans hlt hc) rfl hturn.advance
      · split
        · exact hturn
        · split
          · exact (hturn.unexpected _).advance
          · exact hturn.unexpected _

theorem onlyErrors_blockItems (context : String)
    {item : (d : Cursor) → d.size < bound → Parsed d (Option α)}
    (hitem : ∀ d hd, (item d hd).OnlyErrors) {c : Cursor} (hc : c.size < bound) :
    (blockItems bound context item c hc).OnlyErrors := by
  induction hn : c.size using Nat.strongRecOn generalizing c with
  | _ n ih =>
    intro h
    rw [blockItems]
    split
    · exact h
    · rename_i hstop
      have hlt := size_afterTurn_lt (not_atEnd_of_not_stop hstop) (item c hc).le context
      exact ih _ (hn ▸ hlt) (Nat.lt_trans hlt hc) rfl ((hitem c hc h).afterTurn _)

theorem onlyErrors_block (context : String)
    {item : (d : Cursor) → d.size < c.size → Parsed d (Option α)}
    (hitem : ∀ d hd, (item d hd).OnlyErrors) : (c.block context item).OnlyErrors := by
  intro h
  unfold block
  split
  · rename_i hopen
    apply OnlyErrors.expectPunct
    exact onlyErrors_blockItems context hitem (size_advance_lt_of_atPunct hopen) h.advance
  · exact h.unexpected _

theorem onlyErrors_entry {value : Token → (d : Cursor) → d.size < c.size → Parsed d Expr}
    (hvalue : ∀ t d hd, (value t d hd).OnlyErrors) : (c.entry value).OnlyErrors := by
  intro h
  unfold entry
  split
  · apply OnlyErrors.eatPunct
    exact hvalue _ _ _ (h.advance.expectPunct _)
  · exact h

section

variable {sub : (d : Cursor) → d.size < c.size → Parsed d Expr}
  (hsub : ∀ d hd, (sub d hd).OnlyErrors)

include hsub

theorem onlyErrors_arrayWith : (c.arrayWith sub).OnlyErrors := by
  intro h
  unfold arrayWith
  split
  · rename_i hopen
    apply OnlyErrors.expectPunct
    exact onlyErrors_separated _ _ hsub (size_advance_lt_of_atPunct hopen) h.advance
  · exact h

theorem onlyErrors_objectWith : (c.objectWith sub).OnlyErrors := by
  apply Parsed.OnlyErrors.andThen
  · exact onlyErrors_block _ fun d hd => onlyErrors_entry fun _ e he => hsub e _
  · exact fun _ _ _ => id

omit hsub in
theorem onlyErrors_argumentWith {sub : (d : Cursor) → d.size ≤ c.size → Parsed d Expr}
    (hsub : ∀ d hd, (sub d hd).OnlyErrors) : (c.argumentWith sub).OnlyErrors := by
  intro h
  unfold argumentWith
  split
  · exact hsub _ _ h.advance.advance
  · exact hsub _ _ h

theorem onlyErrors_callWith : (c.callWith sub).OnlyErrors := by
  intro h
  unfold callWith
  split
  · have hwords := onlyErrors_calleeTail c.advance h.advance
    dsimp only
    split
    · rename_i hopen
      apply OnlyErrors.expectPunct
      refine onlyErrors_separated _ _ (fun d hd => ?_) _ hwords.advance
      exact onlyErrors_argumentWith fun e he => hsub e _
    · exact hwords.unexpected _
  · exact h.unexpected _

theorem onlyErrors_parenWith (hopen : c.atPunct "(" = true) : (c.parenWith hopen sub).OnlyErrors :=
  fun h => (hsub _ _ h.advance).expectPunct _

omit hsub in
theorem onlyErrors_missingExpr (c : Cursor) : c.missingExpr.OnlyErrors := by
  intro h
  unfold missingExpr
  dsimp only
  split
  · exact h.unexpected _
  · exact (h.unexpected _).advance

theorem onlyErrors_primaryWith : (c.primaryWith sub).OnlyErrors := by
  unfold primaryWith
  split
  · exact fun h => h.advance
  · split_ifs with hbrace hbracket hparen hdollar htarget hcall
    · exact onlyErrors_objectWith hsub
    · exact onlyErrors_arrayWith hsub
    · exact onlyErrors_parenWith hsub hparen
    · exact Parse.OnlyErrors.var c
    · exact onlyErrors_target c
    · exact (onlyErrors_callWith hsub).andThen fun _ _ _ => id
    · exact onlyErrors_missingExpr c

theorem onlyErrors_unaryWith {operand : (d : Cursor) → d.size < c.size → Parsed d Expr}
    (hoperand : ∀ d hd, (operand d hd).OnlyErrors) : (c.unaryWith operand sub).OnlyErrors := by
  unfold unaryWith
  split
  · exact fun h => hoperand _ _ h.advance
  · exact onlyErrors_primaryWith hsub

end

theorem onlyErrors_operators {level : Nat} {operand : (d : Cursor) → d.size < bound → Parsed d Expr}
    (hoperand : ∀ d hd, (operand d hd).OnlyErrors) (left : Expr) {c : Cursor} (hc : c.size ≤ bound) :
    (operators bound level operand left c hc).OnlyErrors := by
  induction hn : c.size using Nat.strongRecOn generalizing c left with
  | _ n ih =>
    intro h
    rw [operators]
    split
    · exact h
    · rename_i op hop
      have hlt := size_advance_lt (atEnd_eq_false_of_operatorAt? hop)
      have hle := (operand c.advance (Nat.lt_of_lt_of_le hlt hc)).le
      exact ih _ (by omega) _ (by omega) rfl (hoperand _ _ h.advance)

/-! ## Expressions -/

theorem onlyErrors_exprAt (level : Nat) (c : Cursor) : (c.exprAt level).OnlyErrors := by
  induction hn : 7 * c.size + (topLevel - level) using Nat.strongRecOn generalizing c level with
  | _ n ih =>
    rw [exprAt]
    split
    · rename_i hlevel
      have hoperand (d : Cursor) (hd : d.size ≤ c.size) : (d.exprAt (level + 1)).OnlyErrors :=
        ih (7 * d.size + (topLevel - (level + 1))) (by omega) (level + 1) d rfl
      apply (hoperand c c.size_le_self).andThen
      intro left d hd
      exact onlyErrors_operators (fun e he => hoperand e (Nat.le_of_lt he)) left hd
    · -- Operands and inner expressions have fewer tokens before them
      have hsub (l : Nat) (d : Cursor) (hd : d.size < c.size) : (d.exprAt l).OnlyErrors :=
        ih (7 * d.size + (topLevel - l)) (by simp only [topLevel] at *; omega) l d rfl
      exact onlyErrors_unaryWith (hsub 0) (hsub topLevel)

end Cursor

namespace Parse.OnlyErrors

theorem expr : Parse.expr.OnlyErrors :=
  Cursor.onlyErrors_exprAt 0

theorem definition : Parse.definition.OnlyErrors := by
  apply bind (look _)
  intro start
  apply bind (expectKeyword _)
  intro _
  apply bind (name? _)
  intro name
  apply bind (look _)
  intro equals
  cases equals with
  | true => exact bind next fun _ => bind expr fun _ => bind (look _) fun _ => pure _
  | false => exact bind (unexpected _) fun _ => bind expr fun _ => bind (look _) fun _ => pure _

end Parse.OnlyErrors

end DiagramTour
