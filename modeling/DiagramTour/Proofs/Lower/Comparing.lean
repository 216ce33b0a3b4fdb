import DiagramTour.Proofs.Lower.Folding
import DiagramTour.Proofs.Number.Doubles

/-!
# Comparing whole numbers

Whether two whole numbers are equal is decided on the numbers, and which of them is the lesser one on
doubles.  So a comparison always has a value, but of two great numbers that are rounded to one double
neither is less and neither is greater, though they are not equal.

## Architecture

- `BinaryOp.compares?`: what each of the six comparisons asks.
- `Expr.eval_comparison` is what the six are folded to.
- `comparisons_true_iff` says for which numbers that is the truth.
-/

namespace DiagramTour

variable {s : Scope} {left right : Expr} {span : Span} {a b : Int64}

/-- What an operator that compares asks about two whole numbers. -/
def BinaryOp.compares? : BinaryOp → Option (Int → Int → Bool)
  | .eq => some fun m n => m = n
  | .ne => some fun m n => m ≠ n
  | .lt => some fun m n => m < n
  | .le => some fun m n => m ≤ n
  | .gt => some fun m n => n < m
  | .ge => some fun m n => n ≤ m
  | _ => none

/-- The numbers that a comparison looks at: equality is asked of the numbers as they are, and order of
the doubles nearest to them. -/
def BinaryOp.looksAt : BinaryOp → Int → Int
  | .eq | .ne => id
  | _ => Number.rounded

theorem natAbs_toInt_lt (a : Int64) : a.toInt.natAbs < 2 ^ 64 := by
  have hlow := a.le_toInt
  have hhigh := a.toInt_lt
  omega

namespace Expr

/-- A comparison of two whole numbers has a value. -/
theorem foldBinary_compares {op : BinaryOp} {f : Int → Int → Bool} (hf : op.compares? = some f)
    (a b : Int64) : foldBinary op (.int a.toInt) (.int b.toInt) =
      some (.bool (f (op.looksAt a.toInt) (op.looksAt b.toInt))) := by
  have ha := natAbs_toInt_lt a
  have hb := natAbs_toInt_lt b
  -- None of the four that order has a value on whole numbers
  have hdoubles {op : BinaryOp} (h : foldInts op a.toInt b.toInt = none) :
      foldNumbers op (.int a.toInt) (.int b.toInt) =
        foldFloats op (.ofInt a.toInt) (.ofInt b.toInt) := by
    rw [foldNumbers_of_fits (fits64_toInt a) (fits64_toInt b), h, Option.none_or]
  cases op with
  | eq =>
    obtain rfl := Option.some.inj hf
    have hiff : decide (a.toInt = b.toInt) = true ↔ Json.int a.toInt = .int b.toInt := by simp
    exact foldBinary_eq (.int (fits64_toInt a)) hiff
  | ne =>
    obtain rfl := Option.some.inj hf
    have hiff : decide (a.toInt ≠ b.toInt) = true ↔ Json.int a.toInt ≠ .int b.toInt := by simp
    exact foldBinary_ne (.int (fits64_toInt a)) hiff
  | lt =>
    obtain rfl := Option.some.inj hf
    exact (hdoubles rfl).trans
      (congrArg (some ∘ Json.bool) (decide_eq_decide.mpr (Number.ofInt_lt_iff ha hb)))
  | le =>
    obtain rfl := Option.some.inj hf
    exact (hdoubles rfl).trans
      (congrArg (some ∘ Json.bool) (decide_eq_decide.mpr (Number.ofInt_le_iff ha hb)))
  | gt =>
    obtain rfl := Option.some.inj hf
    exact (hdoubles rfl).trans
      (congrArg (some ∘ Json.bool) (decide_eq_decide.mpr (Number.ofInt_lt_iff hb ha)))
  | ge =>
    obtain rfl := Option.some.inj hf
    exact (hdoubles rfl).trans
      (congrArg (some ∘ Json.bool) (decide_eq_decide.mpr (Number.ofInt_le_iff hb ha)))
  | _ => cases hf

/-- A comparison of two expressions that come to whole numbers is folded without a warning. -/
theorem eval_comparison {op : BinaryOp} {f : Int → Int → Bool} (hf : op.compares? = some f)
    (span : Span) (hl : left.eval s = pure (.ofKnown (.int a.toInt)))
    (hr : right.eval s = pure (.ofKnown (.int b.toInt))) :
    (binary op left right span).eval s =
      pure (.ofKnown (.bool (f (op.looksAt a.toInt) (op.looksAt b.toInt)))) :=
  eval_binary hl hr (foldBinary_compares hf a b)

end Expr

/-- Of two numbers that are equal or rounded to different doubles the doubles compare as the numbers
do. -/
theorem BinaryOp.looksAt_faithful {op : BinaryOp} {f : Int → Int → Bool} {m n : Int}
    (hf : op.compares? = some f) (h : m = n ∨ Number.rounded m ≠ Number.rounded n) :
    f (op.looksAt m) (op.looksAt n) = f m n := by
  have hback : n = m ∨ Number.rounded n ≠ Number.rounded m := h.imp Eq.symm Ne.symm
  cases op with
  | eq | ne => rfl
  | lt =>
    obtain rfl := Option.some.inj hf
    exact decide_eq_decide.mpr (Number.rounded_lt_iff h)
  | le =>
    obtain rfl := Option.some.inj hf
    exact decide_eq_decide.mpr (Number.rounded_le_iff h)
  | gt =>
    obtain rfl := Option.some.inj hf
    exact decide_eq_decide.mpr (Number.rounded_lt_iff hback)
  | ge =>
    obtain rfl := Option.some.inj hf
    exact decide_eq_decide.mpr (Number.rounded_le_iff hback)
  | _ => cases hf

/-- Of two numbers one is the lesser one unless they are equal. -/
theorem eq_or_rounded_ne {m n : Int} (hlt : Number.rounded m < Number.rounded n ↔ m < n)
    (hgt : Number.rounded n < Number.rounded m ↔ n < m) :
    m = n ∨ Number.rounded m ≠ Number.rounded n := by
  rcases lt_trichotomy m n with h | h | h
  · exact .inr (hlt.mpr h).ne
  · exact .inl h
  · exact .inr (hgt.mpr h).ne'

/-! ## Main result -/

/-- An operation on two expressions is folded to true. -/
def Expr.FoldsToTrue (s : Scope) (op : BinaryOp) (left right : Expr) (span : Span) : Prop :=
  (Expr.binary op left right span).eval s = pure (.ofKnown (.bool true))

theorem Expr.foldsToTrue_iff {op : BinaryOp} {f : Int → Int → Bool} (hf : op.compares? = some f)
    (hl : left.eval s = pure (.ofKnown (.int a.toInt)))
    (hr : right.eval s = pure (.ofKnown (.int b.toInt))) :
    FoldsToTrue s op left right span ↔ f (op.looksAt a.toInt) (op.looksAt b.toInt) = true := by
  rw [FoldsToTrue, eval_comparison hf span hl hr]
  constructor
  · intro h
    exact Json.bool.inj (congrArg (fun x => x.value.value) h)
  · intro h
    rw [h]

/-- Just one of less, equal and greater is folded to true, unless two different numbers are rounded to
one double. -/
theorem existsUnique_foldsToTrue_iff (span : Span)
    (hl : left.eval s = pure (.ofKnown (.int a.toInt)))
    (hr : right.eval s = pure (.ofKnown (.int b.toInt))) :
    (∃! op, (op = .lt ∨ op = .eq ∨ op = .gt) ∧ Expr.FoldsToTrue s op left right span) ↔
      a = b ∨ Number.rounded a.toInt ≠ Number.rounded b.toInt := by
  have hlt : Expr.FoldsToTrue s .lt left right span ↔
      Number.rounded a.toInt < Number.rounded b.toInt :=
    (Expr.foldsToTrue_iff rfl hl hr).trans decide_eq_true_iff
  have heq : Expr.FoldsToTrue s .eq left right span ↔ a.toInt = b.toInt :=
    (Expr.foldsToTrue_iff rfl hl hr).trans decide_eq_true_iff
  have hgt : Expr.FoldsToTrue s .gt left right span ↔
      Number.rounded b.toInt < Number.rounded a.toInt :=
    (Expr.foldsToTrue_iff rfl hl hr).trans decide_eq_true_iff
  constructor
  · rintro ⟨op, ⟨rfl | rfl | rfl, htrue⟩, -⟩
    · exact .inr (hlt.mp htrue).ne
    · exact .inl (Int64.toInt_inj.mp (heq.mp htrue))
    · exact .inr (hgt.mp htrue).ne'
  · rintro (rfl | hne)
    · refine ⟨.eq, ⟨.inr (.inl rfl), heq.mpr rfl⟩, ?_⟩
      rintro op ⟨rfl | rfl | rfl, htrue⟩
      · exact absurd (hlt.mp htrue) (lt_irrefl _)
      · rfl
      · exact absurd (hgt.mp htrue) (lt_irrefl _)
    rcases hne.lt_or_gt with h | h
    · refine ⟨.lt, ⟨.inl rfl, hlt.mpr h⟩, ?_⟩
      rintro op ⟨rfl | rfl | rfl, htrue⟩
      · rfl
      · exact absurd (congrArg Number.rounded (heq.mp htrue)) hne
      · exact absurd (hgt.mp htrue) h.asymm
    · refine ⟨.gt, ⟨.inr (.inr rfl), hgt.mpr h⟩, ?_⟩
      rintro op ⟨rfl | rfl | rfl, htrue⟩
      · exact absurd (hlt.mp htrue) h.asymm
      · exact absurd (congrArg Number.rounded (heq.mp htrue)) hne
      · rfl

/-- The six comparisons of two whole numbers are always folded to booleans.  All of them are true to
the numbers, and just one of less, equal and greater holds, exactly if the numbers are equal or rounded
to different doubles; that is so if neither is further than `2 ^ 53` from zero, or if they are further
than `2 ^ 11` from each other. -/
theorem comparisons_true_iff (span : Span) (hl : left.eval s = pure (.ofKnown (.int a.toInt)))
    (hr : right.eval s = pure (.ofKnown (.int b.toInt))) :
    (∀ (op : BinaryOp) (f : Int → Int → Bool), op.compares? = some f →
      (Expr.binary op left right span).eval s =
        pure (.ofKnown (.bool (f (op.looksAt a.toInt) (op.looksAt b.toInt))))) ∧
    ((∀ (op : BinaryOp) (f : Int → Int → Bool), op.compares? = some f →
      (Expr.binary op left right span).eval s = pure (.ofKnown (.bool (f a.toInt b.toInt)))) ↔
        a = b ∨ Number.rounded a.toInt ≠ Number.rounded b.toInt) ∧
    ((∃! op, (op = .lt ∨ op = .eq ∨ op = .gt) ∧ Expr.FoldsToTrue s op left right span) ↔
      a = b ∨ Number.rounded a.toInt ≠ Number.rounded b.toInt) ∧
    (a.toInt.natAbs ≤ 2 ^ 53 ∧ b.toInt.natAbs ≤ 2 ^ 53 ∨ 2 ^ 11 < (a.toInt - b.toInt).natAbs →
      a = b ∨ Number.rounded a.toInt ≠ Number.rounded b.toInt) := by
  have hfolded (op : BinaryOp) (f : Int → Int → Bool) (hf : op.compares? = some f) :=
    Expr.eval_comparison hf span hl hr
  refine ⟨hfolded, ⟨fun h => ?_, fun h op f hf => ?_⟩, existsUnique_foldsToTrue_iff span hl hr,
    ?_⟩
  · -- What "less" and "greater" fold to is all that is needed
    have hsame (op : BinaryOp) (f : Int → Int → Bool) (hf : op.compares? = some f) :
        f (op.looksAt a.toInt) (op.looksAt b.toInt) = f a.toInt b.toInt :=
      Json.bool.inj (congrArg (fun x => x.value.value) ((hfolded op f hf).symm.trans (h op f hf)))
    have hlt := decide_eq_decide.mp (hsame .lt _ rfl)
    have hgt := decide_eq_decide.mp (hsame .gt _ rfl)
    exact (eq_or_rounded_ne hlt hgt).imp_left Int64.toInt_inj.mp
  · rw [hfolded op f hf, BinaryOp.looksAt_faithful hf (h.imp_left (congrArg Int64.toInt))]
  · rintro (⟨ha, hb⟩ | hfar)
    · rw [Number.rounded_of_natAbs_le ha, Number.rounded_of_natAbs_le hb, ← Int64.toInt_inj]
      exact em _
    · exact .inr (Number.rounded_ne_of_far (natAbs_toInt_lt a) (natAbs_toInt_lt b) hfar)

/-- A whole number as it is written. -/
def Expr.ofInt64 (n : Int64) : Expr :=
  .literal ⟨.int n, toString n⟩ default

theorem Expr.eval_ofInt64 (s : Scope) (n : Int64) :
    (Expr.ofInt64 n).eval s = pure (.ofKnown (.int n.toInt)) := rfl

/-- The doubles nearest to two neighbours are one, and so the lesser of them is not found to be less. -/
theorem neighbours_not_told_apart :
    ¬ ∀ (s : Scope) (left right : Expr) (a b : Int64) (span : Span),
      left.eval s = pure (.ofKnown (.int a.toInt)) → right.eval s = pure (.ofKnown (.int b.toInt)) →
        ∀ (op : BinaryOp) (f : Int → Int → Bool), op.compares? = some f →
          (Expr.binary op left right span).eval s = pure (.ofKnown (.bool (f a.toInt b.toInt))) := by
  intro h
  let low : Int64 := 9007199254740992
  let high : Int64 := 9007199254740993
  have hlow := Expr.eval_ofInt64 [] low
  have hhigh := Expr.eval_ofInt64 [] high
  have hasks : BinaryOp.lt.compares? = some fun m n => decide (m < n) := rfl
  have htrue := h [] _ _ low high default hlow hhigh .lt _ hasks
  have hfalse := Expr.eval_comparison hasks default hlow hhigh
  have hsame := Json.bool.inj (congrArg (fun x => x.value.value) (htrue.symm.trans hfalse))
  revert hsame
  decide

theorem small_numbers_told_apart :
    (Expr.ofInt64 (-3)).eval [] = pure (.ofKnown (.int (-3))) ∧
    (Expr.ofInt64 5).eval [] = pure (.ofKnown (.int 5)) ∧
    (Expr.binary .lt (.ofInt64 (-3)) (.ofInt64 5) default).eval [] =
      pure (.ofKnown (.bool true)) ∧
    ∃! op, (op = .lt ∨ op = .eq ∨ op = .gt) ∧
      Expr.FoldsToTrue [] op (.ofInt64 (-3)) (.ofInt64 5) default := by
  have hlow := Expr.eval_ofInt64 [] (-3)
  have hhigh := Expr.eval_ofInt64 [] 5
  obtain ⟨-, htrue, hone, hsmall⟩ := comparisons_true_iff default hlow hhigh
  have hdiffer := hsmall (.inl (by decide))
  exact ⟨hlow, hhigh, htrue.mpr hdiffer .lt _ rfl, hone.mpr hdiffer⟩

end DiagramTour
