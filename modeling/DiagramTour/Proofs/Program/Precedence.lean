import DiagramTour.Proofs.Program.AbreastExpr
import DiagramTour.Proofs.Program.OnlyErrors
import DiagramTour.Proofs.Program.Outset

/-!
# Precedence of operators

A tree of operators over variables can be written with more parentheses or with fewer.  However many
there are, the text is read as the tree, as long as there are parentheses around an operand on the left
that binds weaker, around one on the right that binds weaker or as tightly, and around an operation of
two operands under an operator of one.

## Architecture

- A `Layout` is a tree of operators with the parentheses that it is written with.
- `Cursor.Arrives` says what becomes of a chain of operators of one level: reading it comes down to
  going on from a left operand that was read already.
- `Layout.Sufficient.settles` is the induction over layouts.  For each it says that its text is read at
  every level up to its own, and that reading arrives behind it at each of them.
-/

namespace DiagramTour

variable {c : Cursor} {rest : List Char} {k n : Nat}

/-! ## Layouts -/

/-- A tree of operators over variables as it is written, with some of its parts between parentheses. -/
inductive Layout where
  | var (path : List String)
  | unary (op : UnaryOp) (operand : Layout)
  /-- The operators that are words may be written as signs. -/
  | binary (op : BinaryOp) (asSign : Bool) (left right : Layout)
  | paren (inner : Layout)
deriving Repr

namespace Layout

/-- What is written. -/
def text : Layout → String
  | var path => "$" ++ joinWith "." path
  | unary op operand => op.symbol ++ operand.text
  | binary op asSign left right => left.text ++ " " ++ op.written asSign ++ " " ++ right.text
  | paren inner => "(" ++ inner.text ++ ")"

/-- The tree that is meant, without spans. -/
def tree : Layout → Expr
  | var path => .var path default
  | unary op operand => .unary op operand.tree default
  | binary op _ left right => .binary op left.tree right.tree default
  | paren inner => inner.tree

/-- How tightly the layout binds: an operation without parentheses around it as its operator does. -/
def level : Layout → Nat
  | binary op _ _ _ => op.level
  | _ => Cursor.topLevel

/-- The parentheses are enough, and the names of variables are words. -/
def Sufficient : Layout → Prop
  | var path => path ≠ [] ∧ ∀ w ∈ path, Word w
  | unary _ operand => operand.level = Cursor.topLevel ∧ operand.Sufficient
  | binary op _ left right =>
    op.level ≤ left.level ∧ op.level < right.level ∧ left.Sufficient ∧ right.Sufficient
  | paren inner => inner.Sufficient

theorem withoutSpans_tree (l : Layout) : l.tree.withoutSpans = l.tree := by
  induction l with
  | var path => rfl
  | unary op operand ih => simp [tree, Expr.withoutSpans, ih]
  | binary op asSign left right ihleft ihright => simp [tree, Expr.withoutSpans, ihleft, ihright]
  | paren inner ih => exact ih

/-- No sign comes first that could belong to a number. -/
theorem unsigned_text (l : Layout) : Unsigned l.text.toList := by
  induction l with
  | var path => simp [text, Unsigned]
  | unary op operand => cases op <;> simp [text, UnaryOp.symbol, Unsigned]
  | binary op asSign left right ih =>
    have htext : (binary op asSign left right).text.toList =
        left.text.toList ++ (" " ++ op.written asSign ++ " " ++ right.text).toList := by
      simp [text]
    rw [htext]
    exact ih.append _
  | paren inner => simp [text, Unsigned]

end Layout

/-! ## What may follow at a level -/

/-- The text ends an operand before it, and an operator that goes on with it binds weaker than this
level. -/
structure EndsLevel (k : Nat) (rest : List Char) : Prop where
  operand : EndsOperand rest
  weaker : ∀ d : Cursor, d.At rest → ∀ op, BinaryOp.ofToken? d.peek = some op → op.level < k

namespace EndsLevel

theorem mono (h : EndsLevel k rest) (hle : k ≤ n) : EndsLevel n rest :=
  ⟨h.operand, fun d hd op hop => Nat.lt_of_lt_of_le (h.weaker d hd op hop) hle⟩

/-- Where nothing goes on, no level does. -/
theorem of_endsExpr (h : EndsExpr rest) (k : Nat) : EndsLevel k rest := by
  refine ⟨h.operand, fun d hd op hop => ?_⟩
  have hnone := (h.coming.peek d hd).2
  rw [hnone] at hop
  cases hop

/-- An operator ends what binds tighter. -/
theorem of_operator (op : BinaryOp) (asSign : Bool) (rest : List Char) :
    EndsLevel (op.level + 1) (' ' :: ((op.written asSign).toList ++ ' ' :: rest)) := by
  refine ⟨op.endsOperand rest, fun d hd op' hop => ?_⟩
  obtain rfl : op = op' := Option.some.inj (hd.binaryOp.1.symm.trans hop)
  exact Nat.lt_succ_self _

/-- No operator binds as tightly as an operand. -/
theorem of_endsOperand (h : EndsOperand rest) : EndsLevel Cursor.topLevel rest :=
  ⟨h, fun _ _ op _ => op.level_lt⟩

theorem operatorAt? (h : EndsLevel k rest) (hc : c.At rest) (hle : k ≤ n) :
    c.operatorAt? n = none := by
  unfold Cursor.operatorAt?
  cases hop : BinaryOp.ofToken? c.peek with
  | none => rfl
  | some op =>
    have hlt := h.weaker c hc op hop
    rw [Option.filter_some, if_neg]
    simp only [beq_iff_eq]
    omega

end EndsLevel

/-! ## Chains of operators of one level -/

/-- Reading at a level comes down to going on, before `rest`, from a good left operand. -/
def Cursor.Arrives (c : Cursor) (n : Nat) (rest : List Char) (good : Expr → Prop) : Prop :=
  ∃ (left : Expr) (d : Cursor) (hd : d.size ≤ c.size), good left ∧ d.At rest ∧
    c.exprAt n = (Cursor.operators c.size n (fun e _ => e.exprAt (n + 1)) left d hd).weaken hd

namespace Cursor

variable {good : Expr → Prop}

/-- What is read at the next level is a left operand. -/
theorem arrives_of_reads (hn : n < topLevel) (h : (c.exprAt (n + 1)).Reads rest good) :
    c.Arrives n rest good := by
  refine ⟨_, _, (c.exprAt (n + 1)).le, h.1, h.2, ?_⟩
  rw [exprAt, if_pos hn]
  rfl

/-- Where no operator of the level follows, the left operand is all. -/
theorem Arrives.reads (h : c.Arrives n rest good) (hrest : EndsLevel n rest) :
    (c.exprAt n).Reads rest good := by
  obtain ⟨left, d, hd, hgood, hat, hread⟩ := h
  rw [hread, operators_of_none hd (hrest.operatorAt? hat (Nat.le_refl n))]
  exact ⟨hgood, hat⟩

/-- An operator of the level and its right operand make a left operand of an operation. -/
theorem Arrives.operation {op : BinaryOp} {asSign : Bool} {text : List Char} {good' : Expr → Prop}
    (h : c.Arrives op.level (' ' :: ((op.written asSign).toList ++ ' ' :: text)) good)
    (hright : ∀ d : Cursor, d.At text → (d.exprAt (op.level + 1)).Reads rest good') :
    c.Arrives op.level rest fun e =>
      ∃ left right span, e = .binary op left right span ∧ good left ∧ good' right := by
  obtain ⟨left, d, hd, hgood, hat, hread⟩ := h
  obtain ⟨hop, hnext⟩ := hat.binaryOp
  have hat? : d.operatorAt? op.level = some op := by
    rw [operatorAt?, hop, Option.filter_some, if_pos (beq_self_eq_true _)]
  obtain ⟨hlt, hle, hle', hjoin⟩ :=
    operators_of_some (fun e _ => e.exprAt (op.level + 1)) left hd hat?
  obtain ⟨hvalue, hend⟩ := hright d.advance hnext
  rw [hjoin] at hread
  exact ⟨_, _, hle, ⟨left, _, _, rfl, hgood, hvalue⟩, hend, hread⟩

end Cursor

/-! ## Reading layouts -/

namespace Layout

/-- The text is read at a level as the tree, wherever nothing goes on with it there. -/
def IsReadAt (l : Layout) (k : Nat) : Prop :=
  ∀ rest, EndsLevel k rest → ∀ c : Cursor, c.At (l.text.toList ++ rest) →
    (c.exprAt k).Reads rest fun e => e.withoutSpans = l.tree

/-- At a level the tree of the text becomes a left operand, whatever goes on with it there. -/
def Leads (l : Layout) (n : Nat) : Prop :=
  ∀ rest, EndsLevel (n + 1) rest → ∀ c : Cursor, c.At (l.text.toList ++ rest) →
    c.Arrives n rest fun e => e.withoutSpans = l.tree

/-- At every level up to its own a layout is read, and leads a chain. -/
structure Settles (l : Layout) : Prop where
  read : ∀ k ≤ l.level, l.IsReadAt k
  leads : ∀ n ≤ l.level, n < Cursor.topLevel → l.Leads n

variable {l left right : Layout}

/-- What is read at a level is read at the weaker ones. -/
theorem IsReadAt.weaken (h : l.IsReadAt n) (hn : n ≤ Cursor.topLevel) (hk : k ≤ n) :
    l.IsReadAt k := by
  intro rest hrest c hc
  apply Cursor.reads_levels (h rest (hrest.mono hk) c hc) hn hk
  intro d hd m hm _
  exact hrest.operatorAt? hd hm

theorem IsReadAt.leads (h : l.IsReadAt (n + 1)) (hn : n < Cursor.topLevel) : l.Leads n :=
  fun rest hrest c hc => Cursor.arrives_of_reads hn (h rest hrest c hc)

/-- A layout that is an operand at the tightest level settles. -/
theorem settles_of_isOperandIn (hlevel : l.level = Cursor.topLevel)
    (h : l.tree.IsOperandIn l.text) : l.Settles := by
  have htop : l.IsReadAt Cursor.topLevel := by
    intro rest hrest c hc
    rw [← l.withoutSpans_tree]
    exact h rest hrest.operand c hc
  refine ⟨fun k hk => ?_, fun n _ hlt => ?_⟩
  · exact htop.weaken (Nat.le_refl _) (hlevel ▸ hk)
  · exact (htop.weaken (Nat.le_refl _) hlt).leads hlt

theorem Settles.isOperandIn (h : l.Settles) (hlevel : l.level = Cursor.topLevel) :
    l.tree.IsOperandIn l.text := by
  intro rest hrest c hc
  rw [l.withoutSpans_tree]
  exact h.read _ (Nat.le_of_eq hlevel.symm) rest (.of_endsOperand hrest) c hc

theorem Settles.isReadIn (h : l.Settles) : l.tree.IsReadIn l.text := by
  intro rest hrest c hc
  rw [l.withoutSpans_tree]
  exact h.read 0 (Nat.zero_le _) rest (.of_endsExpr hrest 0) c hc

/-- A chain that the left operand leads goes on with the operator. -/
theorem leads_binary {op : BinaryOp} {asSign : Bool} (hleft : left.Leads op.level)
    (hright : right.IsReadAt (op.level + 1)) : (binary op asSign left right).Leads op.level := by
  intro rest hrest c hc
  have htext : (binary op asSign left right).text.toList ++ rest = left.text.toList ++
      ' ' :: ((op.written asSign).toList ++ ' ' :: (right.text.toList ++ rest)) := by
    simp [text]
  rw [htext] at hc
  have harrives := (hleft _ (.of_operator op asSign _) c hc).operation (hright rest hrest)
  obtain ⟨e, d, hd, ⟨l, r, span, rfl, hl, hr⟩, hat, hread⟩ := harrives
  refine ⟨_, d, hd, ?_, hat, hread⟩
  simp only [Expr.withoutSpans, hl, hr, tree]

theorem settles_binary {op : BinaryOp} {asSign : Bool} (hle : op.level ≤ left.level)
    (hlt : op.level < right.level) (hleft : left.Settles) (hright : right.Settles) :
    (binary op asSign left right).Settles := by
  have hleads : (binary op asSign left right).Leads op.level :=
    leads_binary (hleft.leads _ hle op.level_lt) (hright.read _ hlt)
  have hread : (binary op asSign left right).IsReadAt op.level :=
    fun rest hrest c hc => (hleads rest (hrest.mono (Nat.le_succ _)) c hc).reads hrest
  have hlevel := Nat.le_of_lt op.level_lt
  refine ⟨fun k hk => hread.weaken hlevel hk, fun n hn hntop => ?_⟩
  -- Below the level of the operator the whole operation is one left operand
  rcases Nat.eq_or_lt_of_le hn with rfl | hn
  · exact hleads
  · exact (hread.weaken hlevel hn).leads hntop

theorem Sufficient.settles (h : l.Sufficient) : l.Settles := by
  induction l with
  | var path =>
    obtain ⟨hne, hwords⟩ := h
    apply settles_of_isOperandIn rfl
    have hsegments : ∀ w ∈ path, Segment w := fun w hw => .inl (hwords w hw)
    exact (Expr.isPrimary_var hne hsegments (isClearPath_of_words hwords)).isOperandIn
  | unary op operand ih =>
    obtain ⟨hlevel, hoperand⟩ := h
    apply settles_of_isOperandIn rfl
    apply Expr.isOperandIn_unary operand.unsigned_text
    exact (ih hoperand).isOperandIn hlevel
  | binary op asSign left right ihleft ihright =>
    obtain ⟨hle, hlt, hleft, hright⟩ := h
    exact settles_binary hle hlt (ihleft hleft) (ihright hright)
  | paren inner ih =>
    apply settles_of_isOperandIn rfl
    exact (ih h).isReadIn.isOperandIn

end Layout

/-- With enough parentheses a text is read as the tree that it was written for, without a word and up
to its end. -/
theorem operators_read_by_precedence {l : Layout} (h : l.Sufficient) :
    (lex l.text).diagnostics = [] ∧
      (Parse.expr (.outset l.text)).value.withoutSpans = l.tree ∧
      (Parse.expr (.outset l.text)).next.reports = #[] ∧
      (Parse.expr (.outset l.text)).next.atEnd = true := by
  have hstart : (Cursor.outset l.text).At (l.text.toList ++ []) := by
    rw [List.append_nil]
    exact ⟨⟨[], Cursor.before_outset l.text⟩, Cursor.not_failed_outset l.text⟩
  obtain ⟨hvalue, hend⟩ := h.settles.isReadIn [] endsExpr_nil _ hstart
  rw [l.withoutSpans_tree] at hvalue
  have hsource : (Parse.expr (.outset l.text)).next.source = l.text.toList :=
    (Parse.Yields.expr (.outset l.text)).onward.source
  refine ⟨?_, hvalue, ?_, hend.atEnd⟩
  · have hclean : (lexFrom true .start (Parse.expr (.outset l.text)).next.source).diagnostics = [] :=
      hend.diagnostics
    rw [hsource] at hclean
    exact hclean
  · exact (Parse.OnlyErrors.expr _ (.of_silent rfl)).silent hend.2

/-- Operators of all levels, with parentheses that are needed and others that are not. -/
def mixedLayout : Layout :=
  .binary .or true (.var ["a"])
    (.binary .and false (.unary .not (.paren (.binary .and true (.var ["b"]) (.var ["a"]))))
      (.binary .ne false
        (.binary .le false
          (.binary .sub false (.binary .sub false (.var ["b"]) (.paren (.var ["a"])))
            (.binary .mul false (.unary .neg (.unary .neg (.var ["a", "b"])))
              (.paren (.binary .rem false (.var ["b"]) (.var ["a"])))))
          (.var ["b"]))
        (.var ["a"])))

example : mixedLayout.text =
    "$a || !($b && $a) and $b - ($a) - --$a.b * ($b % $a) <= $b != $a" := by decide

theorem mixedLayout_sufficient : mixedLayout.Sufficient := by
  have ha : Word "a" := ⟨by decide, .inr rfl⟩
  have hb : Word "b" := ⟨by decide, .inr rfl⟩
  simp [mixedLayout, Layout.Sufficient, Layout.level, BinaryOp.level, Cursor.topLevel, ha, hb]

theorem mixedLayout_read : mixedLayout.Sufficient ∧ (lex mixedLayout.text).diagnostics = [] ∧
    (Parse.expr (.outset mixedLayout.text)).value.withoutSpans = mixedLayout.tree ∧
    (Parse.expr (.outset mixedLayout.text)).next.reports = #[] ∧
    (Parse.expr (.outset mixedLayout.text)).next.atEnd = true :=
  ⟨mixedLayout_sufficient, operators_read_by_precedence mixedLayout_sufficient⟩

end DiagramTour
