import DiagramTour.Lower.Fold

/-!
# Naming values

A variable stands for the value of the expression that was named, and of the value it is forgotten
whether it is known.  So a name makes no difference to an expression that is known before the tour is
played; but what only the player can know is taken for known once it has a name, and operations on
it are computed that are left to the player where it is written in place.

## Architecture

- `Expr.result` is what an expression comes to; one equation per form of expression.
- `Expr.subst` puts an expression in the place of a variable.
- `Expr.foldsOver` tells whether an operation on a variable is computed; nothing else can make a name
  tell.
- `Expr.naming_keeps_meaning_iff_known` says which expressions can be named.
-/

namespace DiagramTour

namespace Expr

/-! ## Induction -/

/-- What holds of an expression if it holds of its parts, holds of every expression. -/
@[elab_as_elim]
theorem induction_parts {P : Expr → Prop} (literal : ∀ l span, P (.literal l span))
    (var : ∀ path span, P (.var path span))
    (object : ∀ entries span, (∀ n ∈ entries, P n.value) → P (.object entries span))
    (array : ∀ items span, (∀ e ∈ items, P e) → P (.array items span))
    (call : ∀ callee args span, (∀ a ∈ args, P a.value) → P (.call ⟨callee, args⟩ span))
    (unary : ∀ op operand span, P operand → P (.unary op operand span))
    (binary : ∀ op left right span, P left → P right → P (.binary op left right span))
    (target : ∀ t span, P (.target t span)) (e : Expr) : P e :=
  @Expr.rec P (fun entries => ∀ n ∈ entries, P n.value) (fun items => ∀ e ∈ items, P e)
    (fun c => ∀ a ∈ c.args, P a.value) (fun n => P n.value) (fun args => ∀ a ∈ args, P a.value)
    (fun a => P a.value) literal var object array (fun c => call c.callee c.args) unary binary target
    (by simp) (by simp_all) (by simp) (by simp_all) (by simp_all) (by simp_all) (by simp) (by simp_all)
    (by simp_all) e

/-! ## Walks along a list -/

section Lists

variable {α β : Type} (as : List α)

/-- What goes through a list as `map` does is `map`; so it is with `flatMap` and `any`. -/
private theorem eq_map_of_cons {g : List α → List β} {f : α → β} (hnil : g [] = [])
    (hcons : ∀ a as, g (a :: as) = f a :: g as) : g as = as.map f := by
  induction as with
  | nil => exact hnil
  | cons a as ih => rw [hcons, ih, List.map_cons]

private theorem eq_flatMap_of_cons {g : List α → List β} {f : α → List β} (hnil : g [] = [])
    (hcons : ∀ a as, g (a :: as) = f a ++ g as) : g as = as.flatMap f := by
  induction as with
  | nil => exact hnil
  | cons a as ih => rw [hcons, ih, List.flatMap_cons]

private theorem eq_any_of_cons {g : List α → Bool} {f : α → Bool} (hnil : g [] = false)
    (hcons : ∀ a as, g (a :: as) = (f a || g as)) : g as = as.any f := by
  induction as with
  | nil => exact hnil
  | cons a as ih => rw [hcons, ih, List.any_cons]

end Lists

/-! ## Results -/

/-- What an expression comes to. -/
def result (s : Scope) (e : Expr) : Evaluated :=
  (e.eval s).value

variable {s s' : Scope} {x : String} {e : Expr}

theorem valueIn_value : (e.valueIn s).value = (e.result s).value := rfl

theorem evalEntries_value (entries : List (Entry Expr)) :
    (evalEntries s entries).value = entries.map fun n => (n.key, n.value.result s) :=
  eq_map_of_cons entries (g := fun as => (evalEntries s as).value) rfl fun _ _ => rfl

theorem evalItems_value (items : List Expr) :
    (evalItems s items).value = items.map (result s) :=
  eq_map_of_cons items (g := fun as => (evalItems s as).value) rfl fun _ _ => rfl

theorem evalArgs_value (args : List (Argument Expr)) :
    (evalArgs s args).value = args.map fun a => (a.name, (a.value.result s).value) :=
  eq_map_of_cons args (g := fun as => (evalArgs s as).value) rfl fun _ _ => rfl

@[simp] theorem result_literal (l : Literal) (span : Span) :
    (literal l span).result s = .ofKnown l.toValue := rfl

@[simp] theorem result_var (path : List String) (span : Span) :
    (var path span).result s = .ofKnown ((s.lookup? path).getD .null) := by
  simp only [result, eval]
  cases s.lookup? path <;> rfl

@[simp] theorem result_object (entries : List (Entry Expr)) (span : Span) :
    (object entries span).result s =
      ⟨.object (entries.map fun n => (n.key, (n.value.result s).value)),
        entries.all fun n => (n.value.result s).known⟩ := by
  simp [result, eval, evalEntries_value, Function.comp_def]

@[simp] theorem result_array (items : List Expr) (span : Span) :
    (array items span).result s =
      ⟨.arr (items.map fun e => (e.result s).value), items.all fun e => (e.result s).known⟩ := by
  simp [result, eval, evalItems_value, Function.comp_def]

@[simp] theorem result_call (callee : String) (args : List (Argument Expr)) (span : Span) :
    (call ⟨callee, args⟩ span).result s =
      .deferred (callAction callee (args.map fun a => (a.name, (a.value.result s).value))).toValue := by
  simp [result, eval, evalArgs_value]

@[simp] theorem result_unary (op : UnaryOp) (operand : Expr) (span : Span) :
    (unary op operand span).result s =
      .ofFold (operand.result s).known (foldUnary op (operand.result s).value)
        (.object [("op", .str op.symbol), ("operand", (operand.result s).value)]) := rfl

@[simp] theorem result_binary (op : BinaryOp) (left right : Expr) (span : Span) :
    (binary op left right span).result s =
      .ofFold ((left.result s).known && (right.result s).known)
        (foldBinary op (left.result s).value (right.result s).value)
        (.object [("op", .str op.symbol), ("left", (left.result s).value),
          ("right", (right.result s).value)]) := rfl

@[simp] theorem result_target (t : Target) (span : Span) :
    (target t span).result s = .ofKnown t.toValue := rfl

/-! ## Variables in expressions -/

mutual

/-- The ways into values that the variables of an expression name, in order. -/
def paths : Expr → List (List String)
  | literal _ _ | target _ _ => []
  | var path _ => [path]
  | object entries _ => entriesPaths entries
  | array items _ => itemsPaths items
  | call ⟨_, args⟩ _ => argsPaths args
  | unary _ operand _ => operand.paths
  | binary _ left right _ => left.paths ++ right.paths

/-- The ways that the variables of entries name. -/
def entriesPaths : List (Entry Expr) → List (List String)
  | [] => []
  | ⟨_, value, _⟩ :: rest => value.paths ++ entriesPaths rest

/-- The ways that the variables of items name. -/
def itemsPaths : List Expr → List (List String)
  | [] => []
  | e :: rest => e.paths ++ itemsPaths rest

/-- The ways that the variables of arguments name. -/
def argsPaths : List (Argument Expr) → List (List String)
  | [] => []
  | ⟨_, value⟩ :: rest => value.paths ++ argsPaths rest

end

/-- Whether a variable is in an expression. -/
def mentions (x : String) (e : Expr) : Bool :=
  e.paths.any fun path => path.head? == some x

/-- A variable is named as it is wherever it is in an expression, and never gone into. -/
def NamesPlainly (x : String) (e : Expr) : Prop :=
  ∀ path ∈ e.paths, path.head? = some x → path = [x]

mutual

/-- An expression with another one in the place of a variable. -/
def subst (x : String) (e : Expr) : Expr → Expr
  | literal l span => literal l span
  | var path span => if path = [x] then e else var path span
  | object entries span => object (substEntries x e entries) span
  | array items span => array (substItems x e items) span
  | call ⟨callee, args⟩ span => call ⟨callee, substArgs x e args⟩ span
  | unary op operand span => unary op (subst x e operand) span
  | binary op left right span => binary op (subst x e left) (subst x e right) span
  | target t span => target t span

/-- Entries with an expression in the place of a variable. -/
def substEntries (x : String) (e : Expr) : List (Entry Expr) → List (Entry Expr)
  | [] => []
  | ⟨key, value, span⟩ :: rest => ⟨key, subst x e value, span⟩ :: substEntries x e rest

/-- Items with an expression in the place of a variable. -/
def substItems (x : String) (e : Expr) : List Expr → List Expr
  | [] => []
  | c :: rest => subst x e c :: substItems x e rest

/-- Arguments with an expression in the place of a variable. -/
def substArgs (x : String) (e : Expr) : List (Argument Expr) → List (Argument Expr)
  | [] => []
  | ⟨name, value⟩ :: rest => ⟨name, subst x e value⟩ :: substArgs x e rest

end

mutual

/-- Whether an expression has a call in it. -/
def hasCall : Expr → Bool
  | literal _ _ | var _ _ | target _ _ => false
  | object entries _ => entriesHaveCall entries
  | array items _ => itemsHaveCall items
  | call _ _ => true
  | unary _ operand _ => operand.hasCall
  | binary _ left right _ => left.hasCall || right.hasCall

/-- Whether an entry has a call in it. -/
def entriesHaveCall : List (Entry Expr) → Bool
  | [] => false
  | ⟨_, value, _⟩ :: rest => value.hasCall || entriesHaveCall rest

/-- Whether an item has a call in it. -/
def itemsHaveCall : List Expr → Bool
  | [] => false
  | e :: rest => e.hasCall || itemsHaveCall rest

end

mutual

/-- Whether an operation in an expression is computed that has a variable below it. -/
def foldsOver (s : Scope) (x : String) : Expr → Bool
  | literal _ _ | var _ _ | target _ _ => false
  | object entries _ => entriesFoldOver s x entries
  | array items _ => itemsFoldOver s x items
  | call ⟨_, args⟩ _ => argsFoldOver s x args
  | unary op operand span =>
    foldsOver s x operand || (mentions x operand && (result s (unary op operand span)).known)
  | binary op left right span =>
    foldsOver s x left || foldsOver s x right ||
      ((mentions x left || mentions x right) && (result s (binary op left right span)).known)

/-- Whether an operation in entries is computed that has a variable below it. -/
def entriesFoldOver (s : Scope) (x : String) : List (Entry Expr) → Bool
  | [] => false
  | ⟨_, value, _⟩ :: rest => foldsOver s x value || entriesFoldOver s x rest

/-- Whether an operation in items is computed that has a variable below it. -/
def itemsFoldOver (s : Scope) (x : String) : List Expr → Bool
  | [] => false
  | e :: rest => foldsOver s x e || itemsFoldOver s x rest

/-- Whether an operation in arguments is computed that has a variable below it. -/
def argsFoldOver (s : Scope) (x : String) : List (Argument Expr) → Bool
  | [] => false
  | ⟨_, value⟩ :: rest => foldsOver s x value || argsFoldOver s x rest

end

/-! ## Lists of parts -/

theorem entriesPaths_eq (entries : List (Entry Expr)) :
    entriesPaths entries = entries.flatMap fun n => n.value.paths :=
  eq_flatMap_of_cons entries rfl fun _ _ => rfl

theorem itemsPaths_eq (items : List Expr) : itemsPaths items = items.flatMap paths :=
  eq_flatMap_of_cons items rfl fun _ _ => rfl

theorem argsPaths_eq (args : List (Argument Expr)) :
    argsPaths args = args.flatMap fun a => a.value.paths :=
  eq_flatMap_of_cons args rfl fun _ _ => rfl

theorem substEntries_eq (entries : List (Entry Expr)) :
    substEntries x e entries = entries.map fun n => ⟨n.key, subst x e n.value, n.span⟩ :=
  eq_map_of_cons entries rfl fun _ _ => rfl

theorem substItems_eq (items : List Expr) : substItems x e items = items.map (subst x e) :=
  eq_map_of_cons items rfl fun _ _ => rfl

theorem substArgs_eq (args : List (Argument Expr)) :
    substArgs x e args = args.map fun a => ⟨a.name, subst x e a.value⟩ :=
  eq_map_of_cons args rfl fun _ _ => rfl

theorem entriesHaveCall_eq (entries : List (Entry Expr)) :
    entriesHaveCall entries = entries.any fun n => n.value.hasCall :=
  eq_any_of_cons entries rfl fun _ _ => rfl

theorem itemsHaveCall_eq (items : List Expr) : itemsHaveCall items = items.any hasCall :=
  eq_any_of_cons items rfl fun _ _ => rfl

theorem entriesFoldOver_eq (entries : List (Entry Expr)) :
    entriesFoldOver s x entries = entries.any fun n => foldsOver s x n.value :=
  eq_any_of_cons entries rfl fun _ _ => rfl

theorem itemsFoldOver_eq (items : List Expr) :
    itemsFoldOver s x items = items.any (foldsOver s x) :=
  eq_any_of_cons items rfl fun _ _ => rfl

theorem argsFoldOver_eq (args : List (Argument Expr)) :
    argsFoldOver s x args = args.any fun a => foldsOver s x a.value :=
  eq_any_of_cons args rfl fun _ _ => rfl

/-! ## Named and in place -/

end Expr

/-- One result has the value of another one, and may be taken for known too early; where `exact` holds
it is not. -/
structure Evaluated.Anticipates (exact : Bool) (a b : Evaluated) : Prop where
  value : a.value = b.value
  known : b.known = true → a.known = true
  exact : exact = true → a.known = b.known

namespace Evaluated

variable {exact exact' : Bool}

theorem Anticipates.refl (a : Evaluated) : a.Anticipates exact a :=
  ⟨rfl, id, fun _ => rfl⟩

theorem Anticipates.imp {a b : Evaluated} (h : a.Anticipates exact b)
    (himp : exact' = true → exact = true) : a.Anticipates exact' b :=
  ⟨h.value, h.known, fun h' => h.exact (himp h')⟩

/-- Results that anticipate others one by one do so together. -/
theorem anticipates_all {α : Type} {l : List α} {f g : α → Evaluated}
    (h : ∀ a ∈ l, (f a).Anticipates exact (g a)) :
    (l.map fun a => (f a).value) = (l.map fun a => (g a).value) ∧
      ((l.all fun a => (g a).known) = true → (l.all fun a => (f a).known) = true) ∧
      (exact = true → (l.all fun a => (f a).known) = l.all fun a => (g a).known) := by
  refine ⟨List.map_congr_left fun a ha => (h a ha).value, ?_, fun hexact => ?_⟩
  · simp only [List.all_eq_true]
    exact fun hall a ha => (h a ha).known (hall a ha)
  · rw [Bool.eq_iff_iff, List.all_eq_true, List.all_eq_true]
    exact forall₂_congr fun a ha => by rw [(h a ha).exact hexact]

/-- Of an operation only the value is anticipated, and only where it is computed. -/
theorem anticipates_ofFold {ka kb : Bool} {value : Option Json} {operation : Json}
    (hknown : kb = true → ka = true) (hexact : exact = true → ka = kb)
    (hfold : exact = true ∨ (ofFold ka value operation).known = false) :
    (ofFold ka value operation).Anticipates exact (ofFold kb value operation) := by
  cases hka : ka with
  | false =>
      cases hkb : kb with
      | false => exact .refl _
      | true =>
          have hboth := hknown hkb
          simp [hka] at hboth
  | true =>
      cases hkb : kb with
      | true => exact .refl _
      | false =>
          rcases hfold with he | hdeferred
          · have hsame := hexact he
            rw [hka, hkb] at hsame
            cases hsame
          · -- The operation has no value, so that it is left to the player on both sides
            cases value with
            | none => exact .refl _
            | some v => simp [hka, ofFold, ofKnown] at hdeferred

end Evaluated

namespace Expr

variable {s : Scope} {x : String} {e c : Expr}

/-! A variable is in an expression if it is in one of its parts. -/

theorem mentions_object (entries : List (Entry Expr)) (span : Span) :
    mentions x (object entries span) = entries.any fun n => mentions x n.value := by
  simp [mentions, paths, entriesPaths_eq, List.any_flatMap]

theorem mentions_array (items : List Expr) (span : Span) :
    mentions x (array items span) = items.any (mentions x) := by
  simp only [mentions, paths, itemsPaths_eq, List.any_flatMap]
  rfl

theorem mentions_binary (op : BinaryOp) (left right : Expr) (span : Span) :
    mentions x (binary op left right span) = (mentions x left || mentions x right) := by
  simp [mentions, paths]

theorem lookup?_bind_of_ne {path : List String} (v : Json) (h : path.head? ≠ some x) :
    (s.bind x v).lookup? path = s.lookup? path := by
  cases path with
  | nil => rfl
  | cons y rest =>
      have hne : x ≠ y := fun heq => h (by simp [heq])
      simp [Scope.lookup?, Scope.bind, Json.lookup, hne]

/-- The parts of an expression anticipate what they are in place if each does for itself. -/
private theorem anticipates_parts {α : Type} {l : List α} {part : α → Expr} {s' : Scope}
    (hplain : ∀ path ∈ l.flatMap fun a => (part a).paths, path.head? = some x → path = [x])
    (h : (e.result s).known = true ∨ (l.any fun a => foldsOver s' x (part a)) = false)
    (ih : ∀ a ∈ l, (part a).NamesPlainly x →
      (e.result s).known = true ∨ foldsOver s' x (part a) = false →
      ((part a).result s').Anticipates ((e.result s).known || !mentions x (part a))
        ((subst x e (part a)).result s)) :
    ∀ a ∈ l, ((part a).result s').Anticipates
      ((e.result s).known || !l.any fun a => mentions x (part a)) ((subst x e (part a)).result s) := by
  intro a ha
  have hpart : (part a).NamesPlainly x :=
    fun path hpath => hplain path (List.mem_flatMap.mpr ⟨a, ha, hpath⟩)
  refine (ih a ha hpart (h.imp_right fun hno => ?_)).imp fun hexact => ?_
  · simpa using List.any_eq_false.mp hno a ha
  · rcases Bool.or_eq_true_iff.mp hexact with hknown | hnone
    · simp [hknown]
    · rw [Bool.not_eq_true', List.any_eq_false] at hnone
      simp [hnone a ha]

/-- Named, an expression anticipates what it is in place. -/
theorem anticipates_subst (hplain : c.NamesPlainly x)
    (h : (e.result s).known = true ∨ foldsOver (s.bind x (e.result s).value) x c = false) :
    (c.result (s.bind x (e.result s).value)).Anticipates ((e.result s).known || !mentions x c)
      ((subst x e c).result s) := by
  induction c using induction_parts with
  | literal l span =>
      simp only [subst, result_literal]
      exact .refl _
  | var path span =>
      by_cases hpath : path = [x]
      · subst hpath
        simp only [subst, if_true, result_var]
        refine ⟨by simp [Scope.lookup?, Scope.bind, Json.lookup, Json.descend?, Evaluated.ofKnown],
          fun _ => rfl, fun hexact => ?_⟩
        simp only [mentions, paths, List.any_cons, List.head?_cons, beq_self_eq_true, Bool.true_or,
          Bool.not_true, Bool.or_false] at hexact
        rw [hexact]
        rfl
      · have hhead : path.head? ≠ some x := fun heq => hpath (hplain path (by simp [paths]) heq)
        simp only [subst, if_neg hpath, result_var, lookup?_bind_of_ne _ hhead]
        exact .refl _
  | object entries span ih =>
      rw [foldsOver, entriesFoldOver_eq] at h
      rw [NamesPlainly, paths, entriesPaths_eq] at hplain
      obtain ⟨hvalues, hknown, hexact⟩ :=
        Evaluated.anticipates_all (anticipates_parts hplain h ih)
      have hfields : (entries.map fun n => (n.key, (n.value.result (s.bind x (e.result s).value)).value)) =
          entries.map fun n => (n.key, ((subst x e n.value).result s).value) :=
        List.map_congr_left fun n hn => by rw [(anticipates_parts hplain h ih n hn).value]
      rw [mentions_object, subst, substEntries_eq, result_object, result_object]
      simp only [List.map_map, List.all_map]
      exact ⟨congrArg Json.object hfields, hknown, hexact⟩
  | array items span ih =>
      rw [foldsOver, itemsFoldOver_eq] at h
      rw [NamesPlainly, paths, itemsPaths_eq] at hplain
      obtain ⟨hvalues, hknown, hexact⟩ :=
        Evaluated.anticipates_all (anticipates_parts hplain h ih)
      rw [mentions_array, subst, substItems_eq, result_array, result_array]
      simp only [List.map_map, List.all_map]
      exact ⟨congrArg Json.arr hvalues, hknown, hexact⟩
  | call callee args span ih =>
      rw [foldsOver, argsFoldOver_eq] at h
      rw [NamesPlainly, paths, argsPaths_eq] at hplain
      have hargs : (args.map fun a => (a.name, (a.value.result (s.bind x (e.result s).value)).value)) =
          args.map fun a => (a.name, ((subst x e a.value).result s).value) :=
        List.map_congr_left fun a ha => by rw [(anticipates_parts hplain h ih a ha).value]
      rw [subst, substArgs_eq, result_call, result_call, hargs, List.map_map]
      exact .refl _
  | unary op operand span ih =>
      rw [foldsOver, Bool.or_eq_false_iff] at h
      have hoperand := ih hplain (h.imp_right And.left)
      rw [result_unary, hoperand.value] at h
      rw [subst, result_unary, result_unary, hoperand.value]
      refine Evaluated.anticipates_ofFold hoperand.known hoperand.exact ?_
      rcases h with hknown | ⟨-, hdeferred⟩
      · exact .inl (by rw [hknown, Bool.true_or])
      · show (_ || !mentions x operand) = true ∨ _
        cases hmentions : mentions x operand with
        | false => exact .inl (Bool.or_true _)
        | true =>
            rw [hmentions, Bool.true_and] at hdeferred
            exact .inr hdeferred
  | binary op left right span ihl ihr =>
      rw [foldsOver, Bool.or_eq_false_iff, Bool.or_eq_false_iff] at h
      have hpaths : ∀ path ∈ left.paths ++ right.paths, path.head? = some x → path = [x] := hplain
      have hleft := ihl (fun path hpath => hpaths path (List.mem_append_left _ hpath))
        (h.imp_right fun hno => hno.1.1)
      have hright := ihr (fun path hpath => hpaths path (List.mem_append_right _ hpath))
        (h.imp_right fun hno => hno.1.2)
      rw [result_binary, hleft.value, hright.value] at h
      rw [subst, result_binary, result_binary, hleft.value, hright.value, mentions_binary]
      refine Evaluated.anticipates_ofFold ?_ (fun hexact => ?_) ?_
      · simp only [Bool.and_eq_true]
        exact fun hboth => ⟨hleft.known hboth.1, hright.known hboth.2⟩
      · rw [hleft.exact, hright.exact]
        · rcases Bool.or_eq_true_iff.mp hexact with hknown | hnone
          · rw [hknown, Bool.true_or]
          · simp_all
        · rcases Bool.or_eq_true_iff.mp hexact with hknown | hnone
          · rw [hknown, Bool.true_or]
          · simp_all
      · rcases h with hknown | ⟨-, hdeferred⟩
        · exact .inl (by rw [hknown, Bool.true_or])
        · cases hmentions : mentions x left || mentions x right with
          | false => exact .inl (Bool.or_true _)
          | true =>
              rw [hmentions, Bool.true_and] at hdeferred
              exact .inr hdeferred
  | target t span =>
      simp only [subst, result_target]
      exact .refl _

/-! ## Calls -/

/-- What has a call in it is not known before the tour is played. -/
theorem known_of_hasCall (h : c.hasCall = true) : (c.result s).known = false := by
  induction c using induction_parts with
  | literal l span => cases h
  | var path span => cases h
  | object entries span ih =>
      rw [hasCall, entriesHaveCall_eq, List.any_eq_true] at h
      obtain ⟨n, hn, hcall⟩ := h
      rw [result_object, List.all_eq_false]
      exact ⟨n, hn, by simp [ih n hn hcall]⟩
  | array items span ih =>
      rw [hasCall, itemsHaveCall_eq, List.any_eq_true] at h
      obtain ⟨e, he, hcall⟩ := h
      rw [result_array, List.all_eq_false]
      exact ⟨e, he, by simp [ih e he hcall]⟩
  | call callee args span ih =>
      rw [result_call]
      rfl
  | unary op operand span ih =>
      rw [result_unary, ih h]
      rfl
  | binary op left right span ihl ihr =>
      rw [hasCall, Bool.or_eq_true] at h
      rw [result_binary]
      rcases h with hcall | hcall
      · rw [ihl hcall]
        rfl
      · rw [ihr hcall, Bool.and_false]
        rfl
  | target t span => cases h

/-- Which expressions can be named: those whose value is known before the tour is played keep their
meaning, whatever is done with the name, and no others do.  What is left to the player keeps it where
no operation above the name is computed.  In its place an expression with a call in it is always left
to the player, and so is every operation on it. -/
theorem naming_keeps_meaning_iff_known (s : Scope) (x : String) (e : Expr) :
    ((∀ c : Expr, c.NamesPlainly x →
        (c.valueIn (s.bind x (e.valueIn s).value)).value = ((subst x e c).valueIn s).value) ↔
      (e.eval s).value.known = true) ∧
    (∀ c : Expr, c.NamesPlainly x → foldsOver (s.bind x (e.valueIn s).value) x c = false →
      (c.valueIn (s.bind x (e.valueIn s).value)).value = ((subst x e c).valueIn s).value) ∧
    (e.hasCall = true → (e.eval s).value.known = false ∧
      (∀ op span, ((unary op e span).valueIn s).value =
        .object [("op", .str op.symbol), ("operand", (e.valueIn s).value)]) ∧
      ∀ op d span,
        ((binary op e d span).valueIn s).value = .object [("op", .str op.symbol),
          ("left", (e.valueIn s).value), ("right", (d.valueIn s).value)] ∧
        ((binary op d e span).valueIn s).value = .object [("op", .str op.symbol),
          ("left", (d.valueIn s).value), ("right", (e.valueIn s).value)]) := by
  simp only [valueIn_value, show (e.eval s).value = e.result s from rfl]
  refine ⟨⟨fun hall => ?_, fun hknown c hplain => ?_⟩, fun c hplain hno => ?_, fun hcall => ?_⟩
  · cases hknown : (e.result s).known with
    | true => rfl
    | false =>
        -- Named, even what is left to the player is compared at once
        have hcompared := hall (binary .eq (var [x] default) (literal ⟨.null, ""⟩ default) default)
          (by simp [NamesPlainly, paths])
        simp only [subst, if_true, result_binary, result_var, result_literal, hknown,
          Bool.false_and] at hcompared
        cases hcompared
  · exact (anticipates_subst hplain (.inl hknown)).value
  · exact (anticipates_subst hplain (.inr hno)).value
  · have hknown : (e.result s).known = false := known_of_hasCall hcall
    refine ⟨hknown, fun op span => ?_, fun op d span => ⟨?_, ?_⟩⟩
    · rw [result_unary, hknown]
      rfl
    · rw [result_binary, hknown, Bool.false_and]
      rfl
    · rw [result_binary, hknown, Bool.and_false]
      rfl

/-- A call that hands nothing over. -/
def plainCall : Expr :=
  call ⟨"f", []⟩ default

/-- Whether what a variable stands for is null. -/
def isNull (x : String) : Expr :=
  binary .eq (var [x] default) (literal ⟨.null, "null"⟩ default) default

/-- Naming an expression may change what it means, though the name is new: in place the comparison of
a call is left to the player, but of its name it is computed. -/
theorem naming_changes_calls :
    ¬ ∀ (s : Scope) (x : String) (e c : Expr), s.lookup? [x] = none → mentions x e = false →
      c.NamesPlainly x →
      (c.valueIn (s.bind x (e.valueIn s).value)).value = ((subst x e c).valueIn s).value := by
  intro h
  have hsame := h [] "v" plainCall (isNull "v") rfl rfl (by simp [NamesPlainly, isNull, paths])
  cases hsame

/-- A literal can be named even where it is compared, and a call where it is not; in place the
comparison of a call is left to the player. -/
theorem naming_keeps_literals :
    ((isNull "v").valueIn (Scope.bind [] "v" (.int 1))).value =
        ((subst "v" (literal ⟨.int 1, "1"⟩ default) (isNull "v")).valueIn []).value ∧
      ((array [var ["v"] default] default).valueIn
          (Scope.bind [] "v" (plainCall.valueIn []).value)).value =
        ((subst "v" plainCall (array [var ["v"] default] default)).valueIn []).value ∧
      ((subst "v" plainCall (isNull "v")).valueIn []).value =
        .object [("op", .str "=="), ("left", (plainCall.valueIn []).value), ("right", .null)] := by
  obtain ⟨hliteral, -, -⟩ :=
    naming_keeps_meaning_iff_known [] "v" (literal ⟨.int 1, "1"⟩ default)
  obtain ⟨-, hcall, hsymbolic⟩ := naming_keeps_meaning_iff_known [] "v" plainCall
  refine ⟨hliteral.mpr rfl (isNull "v") (by simp [NamesPlainly, isNull, paths]), ?_, ?_⟩
  · exact hcall (array [var ["v"] default] default) (by simp [NamesPlainly, paths, itemsPaths]) rfl
  · exact ((hsymbolic rfl).2.2 .eq (literal ⟨.null, "null"⟩ default) default).1

end Expr

end DiagramTour
