import DiagramTour.Proofs.Json.Arranged
import DiagramTour.Proofs.Lower.Naming

/-!
# Constants are computed exactly

What an expression over constants means can be said without any program: whole numbers are added,
texts are joined, of two entries with one key the last one counts, and a variable leads into the value
that was bound to its name last.  Wherever an expression has a meaning in this sense, evaluation finds
it and has nothing to warn of.  Where there is a call in an operand, the operation is left as it is.

## Architecture

- `Json.IsConstant`: values without fractions, with whole numbers of 64 bits, whose objects are maps.
  Comparing two of them decides whether they are equal.
- `Scope.Binds` and `Json.Leads`: what a variable with a way behind it stands for.
- `Expr.Means`: the meaning of an expression in a scope, rule by rule.
- `Expr.Means.eval`: one case for each rule, by the lemma on folding for its operator.
-/

namespace DiagramTour

variable {s : Scope} {x : String} {v w : Json} {path : List String}

/-! ## Constants -/

namespace Json

/-- A value that is known to the last digit: it has no fractions, its whole numbers fit 64 bits, and
its objects are maps. -/
inductive IsConstant : Json → Prop where
  | null : IsConstant .null
  | bool (b : Bool) : IsConstant (.bool b)
  | int {n : Int} : Number.fits64 n = true → IsConstant (.int n)
  | str (t : String) : IsConstant (.str t)
  | arr {items : List Json} : (∀ j ∈ items, IsConstant j) → IsConstant (.arr items)
  | obj {fields : List (String × Json)} : IsMap fields → (∀ f ∈ fields, IsConstant f.2) →
      IsConstant (.obj fields)

theorem IsConstant.fits {n : Int} (h : IsConstant (.int n)) : Number.fits64 n = true := by
  cases h with
  | int h => exact h

theorem sameItems_iff {as bs : List Json} (h : ∀ a ∈ as, ∀ b, same a b = true ↔ a = b) :
    sameItems as bs = true ↔ as = bs := by
  induction as generalizing bs with
  | nil => cases bs <;> simp [sameItems]
  | cons a as ih =>
    obtain ⟨ha, has⟩ := List.forall_mem_cons.mp h
    cases bs with
    | nil => simp [sameItems]
    | cons b bs => simp [sameItems, ha b, ih has]

theorem sameFields_iff {as bs : List (String × Json)}
    (h : ∀ a ∈ as, ∀ b, same a.2 b = true ↔ a.2 = b) : sameFields as bs = true ↔ as = bs := by
  induction as generalizing bs with
  | nil => cases bs <;> simp [sameFields]
  | cons a as ih =>
    obtain ⟨ha, has⟩ := List.forall_mem_cons.mp h
    obtain ⟨k, a⟩ := a
    cases bs with
    | nil => simp [sameFields]
    | cons b bs =>
      obtain ⟨l, b⟩ := b
      simp [sameFields, ha b, ih has]

/-- Where there are no fractions, what is the same is equal. -/
theorem IsConstant.same_iff (h : v.IsConstant) (w : Json) : same v w = true ↔ v = w := by
  induction h generalizing w with
  | null => cases w <;> simp [same]
  | bool b => cases w <;> simp [same]
  | int h => cases w <;> simp [same]
  | str t => cases w <;> simp [same]
  | arr _ ih =>
    cases w with
    | arr items => simpa [same] using sameItems_iff ih
    | _ => simp [same]
  | obj _ _ ih =>
    cases w with
    | obj fields => simpa [same] using sameFields_iff ih
    | _ => simp [same]

end Json

/-- Nothing but constants is bound. -/
def Scope.IsConstant (s : Scope) : Prop :=
  ∀ f ∈ s, f.2.IsConstant

/-! ## Variables -/

/-- The value that was bound to a name last. -/
inductive Scope.Binds : Scope → String → Json → Prop where
  | latest {s : Scope} {x : String} {v : Json} : Binds ((x, v) :: s) x v
  | earlier {s : Scope} {x y : String} {v w : Json} :
      x ≠ y → Binds s x v → Binds ((y, w) :: s) x v

/-- The text writes the place of an item with decimal digits. -/
structure WritesPlace (text : String) (n : Nat) : Prop where
  ne_nil : text.toList ≠ []
  digits : ∀ c ∈ text.toList, c.isDigit = true
  value : Number.natOfDigits text.toList = n
  fits : n < Number.twoTo 64

/-- A way leads from one value to another: by keys into objects, and by places into lists. -/
inductive Json.Leads : Json → List String → Json → Prop where
  | arrived {v : Json} : Leads v [] v
  | key {fields : List (String × Json)} {k : String} {path : List String} {v w : Json} :
      (k, w) ∈ fields → Leads w path v → Leads (.obj fields) (k :: path) v
  | place {items : List Json} {k : String} {n : Nat} {path : List String} {v w : Json} :
      WritesPlace k n → items[n]? = some w → Leads w path v → Leads (.arr items) (k :: path) v

theorem Scope.Binds.mem (h : s.Binds x v) : (x, v) ∈ s := by
  induction h with
  | latest => exact List.mem_cons_self
  | earlier _ _ ih => exact List.mem_cons_of_mem _ ih

theorem Scope.Binds.lookup (h : s.Binds x v) : Json.lookup x s = some v := by
  induction h with
  | latest => rw [Json.lookup_cons, if_pos rfl]
  | earlier hne _ ih => rw [Json.lookup_cons, if_neg (Ne.symm hne), ih]

theorem WritesPlace.nat64? {text : String} {n : Nat} (h : WritesPlace text n) :
    Number.nat64? text = some n := by
  obtain ⟨hne, hdigits, rfl, hfits⟩ := h
  have hall : text.toList.all Char.isDigit = true := List.all_eq_true.mpr hdigits
  have hnat : Number.nat? text = some (Number.natOfDigits text.toList) := by
    unfold Number.nat?
    split
    · -- A sign is no digit
      rename_i htext
      rw [htext] at hdigits
      exact absurd (hdigits '+' List.mem_cons_self) (by decide)
    · rw [if_neg (by simp [hne, hall])]
  rw [Number.nat64?, hnat, Option.filter_some, if_pos (decide_eq_true hfits)]

/-- Where a way leads it is followed, and constants lead to constants. -/
theorem Json.Leads.descend (h : w.Leads path v) (hw : w.IsConstant) :
    w.descend? path = some v ∧ v.IsConstant := by
  induction h with
  | arrived => exact ⟨rfl, hw⟩
  | key hmem _ ih =>
    cases hw with
    | obj hmap hfields =>
      -- A map has each key once, so that the field is the one that is found
      obtain ⟨hdescend, hv⟩ := ih (hfields _ hmem)
      refine ⟨?_, hv⟩
      rw [Json.descend?, Json.child?, (Json.lookup_eq_some_iff hmap.nodup).mpr hmem]
      exact hdescend
  | place hplace hitem _ ih =>
    cases hw with
    | arr hitems =>
      obtain ⟨hdescend, hv⟩ := ih (hitems _ (List.mem_of_getElem? hitem))
      refine ⟨?_, hv⟩
      rw [Json.descend?, Json.child?, hplace.nat64?, Option.bind_some, hitem]
      exact hdescend

/-- What is done with a value need only be the same on that value. -/
theorem Noted.bind_congr {α β : Type} {x : Noted α} {f g : α → Noted β}
    (h : f x.value = g x.value) : x >>= f = x >>= g := by
  show Noted.mk _ _ = Noted.mk _ _
  rw [h]

/-! ## Meaning -/

namespace Expr

/-- The last entry with its key. -/
def LastEntry (entries : List (Entry Expr)) (n : Entry Expr) : Prop :=
  ∃ before after, entries = before ++ n :: after ∧ ∀ m ∈ after, m.key ≠ n.key

/-- What an expression means in a scope of constants.  There is no rule for a call, for a fraction, or
for an operation whose result does not fit 64 bits. -/
inductive Means (s : Scope) : Expr → Json → Prop where
  | null {raw : String} {span : Span} : Means s (.literal ⟨.null, raw⟩ span) .null
  | bool {b : Bool} {raw : String} {span : Span} :
      Means s (.literal ⟨.boolean b, raw⟩ span) (.bool b)
  | int {n : Int64} {raw : String} {span : Span} :
      Means s (.literal ⟨.int n, raw⟩ span) (.int n.toInt)
  | str {t raw : String} {span : Span} : Means s (.literal ⟨.string t, raw⟩ span) (.str t)
  | var {x : String} {path : List String} {v w : Json} {span : Span} :
      s.Binds x w → w.Leads path v → Means s (.var (x :: path) span) v
  | array {items : List Expr} {value : Expr → Json} {span : Span} :
      (∀ e ∈ items, Means s e (value e)) → Means s (.array items span) (.arr (items.map value))
  /-- Of entries with equal keys the last one wins. -/
  | object {entries : List (Entry Expr)} {value : Expr → Json} {fields : List (String × Json)}
      {span : Span} : (∀ n ∈ entries, Means s n.value (value n.value)) → Json.IsMap fields →
      (∀ f, f ∈ fields ↔ ∃ n, LastEntry entries n ∧ f = (n.key, value n.value)) →
      Means s (.object entries span) (.obj fields)
  | not {e : Expr} {b : Bool} {span : Span} :
      Means s e (.bool b) → Means s (.unary .not e span) (.bool !b)
  | neg {e : Expr} {n : Int} {span : Span} : Means s e (.int n) → Number.fits64 (-n) = true →
      Means s (.unary .neg e span) (.int (-n))
  | add {l r : Expr} {m n : Int} {span : Span} : Means s l (.int m) → Means s r (.int n) →
      Number.fits64 (m + n) = true → Means s (.binary .add l r span) (.int (m + n))
  | sub {l r : Expr} {m n : Int} {span : Span} : Means s l (.int m) → Means s r (.int n) →
      Number.fits64 (m - n) = true → Means s (.binary .sub l r span) (.int (m - n))
  | mul {l r : Expr} {m n : Int} {span : Span} : Means s l (.int m) → Means s r (.int n) →
      Number.fits64 (m * n) = true → Means s (.binary .mul l r span) (.int (m * n))
  /-- The remainder has the sign of the dividend; the quotient has to fit as well. -/
  | rem {l r : Expr} {m n : Int} {span : Span} : Means s l (.int m) → Means s r (.int n) → n ≠ 0 →
      Number.fits64 (m.tdiv n) = true → Means s (.binary .rem l r span) (.int (m.tmod n))
  | concat {l r : Expr} {a b : String} {span : Span} : Means s l (.str a) → Means s r (.str b) →
      Means s (.binary .add l r span) (.str (a ++ b))
  | and {l r : Expr} {a b : Bool} {span : Span} : Means s l (.bool a) → Means s r (.bool b) →
      Means s (.binary .and l r span) (.bool (a && b))
  | or {l r : Expr} {a b : Bool} {span : Span} : Means s l (.bool a) → Means s r (.bool b) →
      Means s (.binary .or l r span) (.bool (a || b))
  | eq {l r : Expr} {v w : Json} {b : Bool} {span : Span} : Means s l v → Means s r w →
      (b = true ↔ v = w) → Means s (.binary .eq l r span) (.bool b)
  | ne {l r : Expr} {v w : Json} {b : Bool} {span : Span} : Means s l v → Means s r w →
      (b = true ↔ v ≠ w) → Means s (.binary .ne l r span) (.bool b)

/-! ## Folding -/

variable {op : UnaryOp} {bop : BinaryOp} {e left right : Expr} {span : Span} {m n : Int}

theorem fits64_iff :
    Number.fits64 n = true ↔ -(Number.twoTo 63 : Int) ≤ n ∧ n < (Number.twoTo 63 : Int) := by
  rw [Number.fits64, Bool.and_eq_true, decide_eq_true_iff, decide_eq_true_iff]

theorem fits64_toInt (n : Int64) : Number.fits64 n.toInt = true :=
  fits64_iff.mpr ⟨n.le_toInt, n.toInt_lt⟩

/-- A remainder is no further from zero than the dividend. -/
theorem fits64_tmod (hm : Number.fits64 m = true) : Number.fits64 (m.tmod n) = true := by
  rw [fits64_iff] at *
  have hle : (m.tmod n).natAbs ≤ m.natAbs := by
    rw [Int.natAbs_tmod]
    exact Nat.mod_le _ _
  -- The sign is the dividend's, and the range reaches further below zero than above
  rcases Int.le_total 0 m with h | h
  · have hsign := Int.tmod_nonneg n h
    omega
  · have hsign := Int.tmod_nonneg n (Int.neg_nonneg.mpr h)
    rw [Int.neg_tmod] at hsign
    omega

/-- What has no value as an operation on whole numbers is left to doubles. -/
theorem foldNumbers_of_fits (hm : Number.fits64 m = true) (hn : Number.fits64 n = true) :
    foldNumbers bop (.int m) (.int n) =
      (foldInts bop m n).or (foldFloats bop (.ofInt m) (.ofInt n)) := by
  unfold foldNumbers
  rw [Json.asInt?, if_pos hm, Json.asInt?, if_pos hn]
  dsimp only
  cases foldInts bop m n <;> rfl

theorem foldNumbers_of_ints (hm : Number.fits64 m = true) (hn : Number.fits64 n = true)
    (h : foldInts bop m n = some v) : foldNumbers bop (.int m) (.int n) = some v := by
  rw [foldNumbers_of_fits hm hn, h, Option.some_or]

theorem checked_of_fits (h : Number.fits64 n = true) : checked n = some (.int n) :=
  if_pos h

/-- A remainder is computed on whole numbers unless the quotient does not fit. -/
theorem foldInts_rem (hm : Number.fits64 m = true) (hne : n ≠ 0)
    (hquotient : Number.fits64 (m.tdiv n) = true) :
    foldInts .rem m n = some (.int (m.tmod n)) := by
  have hleast : ¬(m = -(Number.twoTo 63 : Int) ∧ n = -1) := by
    rintro ⟨rfl, rfl⟩
    revert hquotient
    decide
  have hguard : (n = 0 || (m = -(Number.twoTo 63 : Int) && n = -1)) = false := by
    simpa [hne] using hleast
  rw [foldInts, hguard, if_neg (by simp)]
  exact checked_of_fits (fits64_tmod hm)

theorem foldUnary_neg (hn : Number.fits64 n = true) (hfits : Number.fits64 (-n) = true) :
    foldUnary .neg (.int n) = some (.int (-n)) := by
  unfold foldUnary
  rw [Json.asInt?, if_pos hn]
  exact checked_of_fits hfits

/-- Equality of constants is decided by comparing them. -/
theorem foldBinary_eq {b : Bool} (hv : v.IsConstant) (hb : b = true ↔ v = w) :
    foldBinary .eq v w = some (.bool b) := by
  have hsame : (v == w) = b := Bool.eq_iff_iff.mpr ((hv.same_iff w).trans hb.symm)
  rw [foldBinary, hsame]

theorem foldBinary_ne {b : Bool} (hv : v.IsConstant) (hb : b = true ↔ v ≠ w) :
    foldBinary .ne v w = some (.bool b) := by
  have hdiffers : (v != w) = b := by
    rw [Bool.eq_iff_iff, bne, Bool.not_eq_true', Bool.eq_false_iff, hb]
    exact not_congr (hv.same_iff w)
  rw [foldBinary, hdiffers]

/-- An operation on a known value that has a value is known. -/
theorem eval_unary (he : e.eval s = pure (.ofKnown v)) (h : foldUnary op v = some w) :
    (unary op e span).eval s = pure (.ofKnown w) := by
  rw [eval, he]
  show (pure (.ofFold true (foldUnary op v) _) : Noted Evaluated) = _
  rw [h]
  rfl

/-- An operation on two known values that has a value is known. -/
theorem eval_binary {a b : Json} (hl : left.eval s = pure (.ofKnown a))
    (hr : right.eval s = pure (.ofKnown b)) (h : foldBinary bop a b = some v) :
    (binary bop left right span).eval s = pure (.ofKnown v) := by
  rw [eval, hl, hr]
  show (pure (.ofFold true (foldBinary bop a b) _) : Noted Evaluated) = _
  rw [h]
  rfl

theorem evalItems_of_known {items : List Expr} {value : Expr → Json}
    (h : ∀ e ∈ items, e.eval s = pure (.ofKnown (value e))) :
    evalItems s items = pure (items.map fun e => .ofKnown (value e)) := by
  induction items with
  | nil => rfl
  | cons e rest ih =>
    obtain ⟨he, hrest⟩ := List.forall_mem_cons.mp h
    rw [evalItems, he, ih hrest]
    rfl

theorem evalEntries_of_known {entries : List (Entry Expr)} {value : Expr → Json}
    (h : ∀ n ∈ entries, n.value.eval s = pure (.ofKnown (value n.value))) :
    evalEntries s entries = pure (entries.map fun n => (n.key, .ofKnown (value n.value))) := by
  induction entries with
  | nil => rfl
  | cons n rest ih =>
    obtain ⟨hn, hrest⟩ := List.forall_mem_cons.mp h
    rw [evalEntries, hn, ih hrest]
    rfl

/-- The map of some entries has the last one of each key. -/
theorem mapOf_entries {entries : List (Entry Expr)} {value : Expr → Json}
    {fields : List (String × Json)} (hmap : Json.IsMap fields)
    (hfields : ∀ f, f ∈ fields ↔ ∃ n, LastEntry entries n ∧ f = (n.key, value n.value)) :
    Json.mapOf (entries.map fun n => (n.key, value n.value)) = fields := by
  apply (Json.isMap_mapOf _).ext hmap
  -- Both have the fields of those entries that no later one repeats
  intro f
  rw [Json.mem_mapOf_iff, hfields]
  constructor
  · rintro ⟨before, after, hsplit, hafter⟩
    obtain ⟨as, bs, rfl, -, hbs⟩ := List.map_eq_append_iff.mp hsplit
    obtain ⟨n, cs, rfl, rfl, rfl⟩ := List.map_eq_cons_iff.mp hbs
    refine ⟨n, ⟨as, cs, rfl, fun m hm => ?_⟩, rfl⟩
    exact hafter _ (List.mem_map_of_mem hm)
  · rintro ⟨n, ⟨before, after, rfl, hafter⟩, rfl⟩
    refine ⟨_, _, by rw [List.map_append, List.map_cons], fun g hg => ?_⟩
    obtain ⟨m, hm, rfl⟩ := List.mem_map.mp hg
    exact hafter m hm

/-! ## Evaluation -/

/-- Evaluation finds the meaning of an expression, and it is a constant. -/
theorem Means.eval (h : e.Means s v) (hs : s.IsConstant) :
    e.eval s = pure (.ofKnown v) ∧ v.IsConstant := by
  -- That parts are constants is carried along: it says that their numbers fit 64 bits
  induction h with
  | null => exact ⟨rfl, .null⟩
  | bool => exact ⟨rfl, .bool _⟩
  | int => exact ⟨rfl, .int (fits64_toInt _)⟩
  | str => exact ⟨rfl, .str _⟩
  | var hbinds hleads =>
    obtain ⟨hdescend, hv⟩ := hleads.descend (hs _ hbinds.mem)
    refine ⟨?_, hv⟩
    rw [Expr.eval, Scope.lookup?, hbinds.lookup, Option.bind_some, hdescend]
  | array _ ih =>
    refine ⟨?_, .arr ?_⟩
    · rw [Expr.eval, evalItems_of_known fun e he => (ih e he).1]
      exact congrArg pure (by simp [Evaluated.ofKnown, Function.comp_def])
    · intro j hj
      obtain ⟨e, he, rfl⟩ := List.mem_map.mp hj
      exact (ih e he).2
  | object _ hmap hfields ih =>
    refine ⟨?_, .obj hmap ?_⟩
    · rw [Expr.eval, evalEntries_of_known fun n hn => (ih n hn).1, ← mapOf_entries hmap hfields]
      exact congrArg pure (by simp [Evaluated.ofKnown, Json.object, Function.comp_def])
    · intro f hf
      obtain ⟨n, ⟨before, after, rfl, -⟩, rfl⟩ := (hfields f).mp hf
      exact (ih n (by simp)).2
  | not _ ih => exact ⟨eval_unary ih.1 rfl, .bool _⟩
  | neg _ hfits ih => exact ⟨eval_unary ih.1 (foldUnary_neg ih.2.fits hfits), .int hfits⟩
  | add _ _ hfits ihl ihr =>
    refine ⟨eval_binary ihl.1 ihr.1 ?_, .int hfits⟩
    exact foldNumbers_of_ints ihl.2.fits ihr.2.fits (checked_of_fits hfits)
  | sub _ _ hfits ihl ihr =>
    refine ⟨eval_binary ihl.1 ihr.1 ?_, .int hfits⟩
    exact foldNumbers_of_ints ihl.2.fits ihr.2.fits (checked_of_fits hfits)
  | mul _ _ hfits ihl ihr =>
    refine ⟨eval_binary ihl.1 ihr.1 ?_, .int hfits⟩
    exact foldNumbers_of_ints ihl.2.fits ihr.2.fits (checked_of_fits hfits)
  | rem _ _ hne hfits ihl ihr =>
    refine ⟨eval_binary ihl.1 ihr.1 ?_, .int (fits64_tmod ihl.2.fits)⟩
    exact foldNumbers_of_ints ihl.2.fits ihr.2.fits (foldInts_rem ihl.2.fits hne hfits)
  | concat _ _ ihl ihr => exact ⟨eval_binary ihl.1 ihr.1 rfl, .str _⟩
  | and _ _ ihl ihr => exact ⟨eval_binary ihl.1 ihr.1 rfl, .bool _⟩
  | or _ _ ihl ihr => exact ⟨eval_binary ihl.1 ihr.1 rfl, .bool _⟩
  | eq _ _ hb ihl ihr => exact ⟨eval_binary ihl.1 ihr.1 (foldBinary_eq ihl.2 hb), .bool _⟩
  | ne _ _ hb ihl ihr => exact ⟨eval_binary ihl.1 ihr.1 (foldBinary_ne ihl.2 hb), .bool _⟩

/-! ## Calls -/

/-- The result of an operation on what is not known is the operation. -/
theorem ofFold_of_unknown {known : Bool} (h : known = false) (value : Option Json) (operation : Json) :
    Evaluated.ofFold known value operation = .deferred operation := by
  rw [h]
  rfl

/-- An operation on something with a call in it is left as it is. -/
theorem eval_unary_of_hasCall (h : e.hasCall = true) :
    (unary op e span).eval s = e.eval s >>= fun v =>
      pure (.deferred (.object [("op", .str op.symbol), ("operand", v.value)])) := by
  have hunknown : (e.eval s).value.known = false := known_of_hasCall h
  rw [Expr.eval]
  apply Noted.bind_congr
  rw [ofFold_of_unknown hunknown]

theorem eval_binary_of_hasCall (h : (left.hasCall || right.hasCall) = true) :
    (binary bop left right span).eval s = left.eval s >>= fun a => right.eval s >>= fun b =>
      pure (.deferred (.object [("op", .str bop.symbol), ("left", a.value), ("right", b.value)])) := by
  have hunknown : ((left.eval s).value.known && (right.eval s).value.known) = false := by
    rw [Bool.and_eq_false_iff]
    exact ((Bool.or_eq_true _ _).mp h).imp known_of_hasCall known_of_hasCall
  rw [Expr.eval]
  apply Noted.bind_congr
  apply Noted.bind_congr
  rw [ofFold_of_unknown hunknown]

end Expr

/-- In a scope of constants every expression that has a meaning is folded to it without a warning, and
an operation with a call in an operand keeps its operands. -/
theorem constants_fold_exactly (hs : s.IsConstant) :
    (∀ e v, Expr.Means s e v → e.eval s = pure (.ofKnown v)) ∧
      (∀ op e span, e.hasCall = true →
        (Expr.unary op e span).eval s = e.eval s >>= fun v =>
          pure (.deferred (.object [("op", .str op.symbol), ("operand", v.value)]))) ∧
      ∀ op left right span, (left.hasCall || right.hasCall) = true →
        (Expr.binary op left right span).eval s = left.eval s >>= fun a => right.eval s >>= fun b =>
          pure (.deferred
            (.object [("op", .str op.symbol), ("left", a.value), ("right", b.value)])) :=
  ⟨fun _ _ h => (h.eval hs).1, fun _ _ _ h => Expr.eval_unary_of_hasCall h,
    fun _ _ _ _ h => Expr.eval_binary_of_hasCall h⟩

/-- The highest limit is the second of a list. -/
def limits : Scope :=
  [("limits", .obj [("max", .arr [.int 3, .int 7])])]

theorem limits_isConstant : limits.IsConstant := by
  have hmax : (Json.arr [.int 3, .int 7]).IsConstant := by
    apply Json.IsConstant.arr
    simp [Json.IsConstant.int, show Number.fits64 3 = true from rfl,
      show Number.fits64 7 = true from rfl]
  have hobj : (Json.obj [("max", .arr [.int 3, .int 7])]).IsConstant := by
    apply Json.IsConstant.obj (List.pairwise_singleton _ _)
    simpa using hmax
  simpa [Scope.IsConstant, limits] using hobj

/-- The product `-2 * $limits.max.1`. -/
def scaledLimit : Expr :=
  .binary .mul (.unary .neg (.literal ⟨.int 2, "2"⟩ default) default)
    (.var ["limits", "max", "1"] default) default

theorem scaledLimit_means : scaledLimit.Means limits (.int (-14)) := by
  have hleads : (Json.obj [("max", .arr [.int 3, .int 7])]).Leads ["max", "1"] (.int 7) := by
    have hplace : WritesPlace "1" 1 := ⟨by decide, List.all_eq_true.mp rfl, rfl, by decide⟩
    apply Json.Leads.key List.mem_cons_self
    exact .place hplace rfl .arrived
  have hproduct : (-2 : Int) * 7 = -14 := by decide
  rw [← hproduct]
  apply Expr.Means.mul
  · exact .neg .int (by decide)
  · exact .var .latest hleads
  · decide

/-- The object `{ a: 1, a: -2 * $limits.max.1 }`. -/
def rewrittenField : Expr :=
  .object [⟨"a", .literal ⟨.int 1, "1"⟩ default, default⟩, ⟨"a", scaledLimit, default⟩] default

theorem rewrittenField_means : rewrittenField.Means limits (.obj [("a", .int (-14))]) := by
  let value : Expr → Json := fun
    | .literal l _ => l.toValue
    | _ => .int (-14)
  apply @Expr.Means.object limits _ value
  · simp only [List.forall_mem_cons, List.not_mem_nil, false_implies, implies_true, and_true]
    exact ⟨.int, scaledLimit_means⟩
  · exact List.pairwise_singleton _ _
  · -- The second entry comes after the first one, which is forgotten
    intro f
    rw [List.mem_singleton]
    constructor
    · rintro rfl
      exact ⟨⟨"a", scaledLimit, default⟩, ⟨[_], [], rfl, by simp⟩, rfl⟩
    · rintro ⟨n, ⟨before, after, hsplit, hlast⟩, rfl⟩
      obtain _ | ⟨m, _ | ⟨m', before⟩⟩ := before
      · obtain ⟨rfl, rfl⟩ := List.cons.inj hsplit
        exact absurd rfl (hlast ⟨"a", scaledLimit, default⟩ List.mem_cons_self)
      · cases hsplit
        rfl
      · simp at hsplit

theorem limits_folded : limits.IsConstant ∧
    rewrittenField.Means limits (.obj [("a", .int (-14))]) ∧
    rewrittenField.eval limits = pure (.ofKnown (.obj [("a", .int (-14))])) ∧
    Expr.plainCall.hasCall = true ∧
    (Expr.unary .not Expr.plainCall default).eval limits = Expr.plainCall.eval limits >>= fun v =>
      pure (.deferred (.object [("op", .str "!"), ("operand", v.value)])) := by
  obtain ⟨hmeaning, hunary, -⟩ := constants_fold_exactly limits_isConstant
  exact ⟨limits_isConstant, rewrittenField_means, hmeaning _ _ rewrittenField_means, rfl,
    hunary .not _ default rfl⟩

end DiagramTour
