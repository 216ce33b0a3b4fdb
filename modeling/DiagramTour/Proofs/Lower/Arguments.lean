import DiagramTour.Proofs.Json.Arranged
import DiagramTour.Proofs.Lower.Naming
import DiagramTour.Proofs.Lower.Stops

/-!
# Arguments of calls

A call hands its arguments over in one object: those without a name in the list `args`, each of the others
under its name.  Nothing keeps an author from calling an argument `args`.  Then the list takes its place, and
the argument is lost without a word.

## Architecture

- `HoldArguments` says when an object holds the arguments of a call, and `HaveRoom` when the list `args` takes
  the place of none.
- `Call.StandsIn` are the places in an expression from which a call gets into its value, a `Json.IsPart`.
- `calls_keep_arguments_iff` says which calls keep their arguments, and `argument_called_args_lost` that not
  all do.
-/

namespace DiagramTour

variable {scope : Scope} {callee key : String} {value j : Json} {fields named : List (String × Json)}
  {args : List (Option String × Json)} {c : Call Expr} {e : Expr}

/-! ## Objects of arguments -/

/-- The arguments without a name, in order. -/
def unnamedOf (args : List (Option String × Json)) : List Json :=
  args.filterMap fun a => if a.1.isNone then some a.2 else none

/-- The arguments with a name, in order. -/
def namedOf (args : List (Option String × Json)) : List (String × Json) :=
  args.filterMap fun a => a.1.map fun k => (k, a.2)

/-- The fields hold the arguments: one without a name at its place in the list `args`, and one with a name
under that name. -/
structure HoldArguments (args : List (Option String × Json)) (fields : List (String × Json)) : Prop where
  unnamed : ∀ (i : Nat) (v : Json), (unnamedOf args)[i]? = some v →
    ∃ items, Json.lookup "args" fields = some (.arr items) ∧ items[i]? = some v
  named : ∀ (k : String) (v : Json), (some k, v) ∈ args → Json.lookup k fields = some v

/-- Whether the list of the arguments without a name has its key for itself. -/
def HaveRoom (args : List (Option String × Json)) : Prop :=
  ∀ v, (some "args", v) ∈ args → unnamedOf args = [] ∨ v = .arr (unnamedOf args)

theorem Json.lookup_put (k : String) :
    lookup k (put key value fields) = if key = k then some value else lookup k fields := by
  induction fields with
  | nil => exact lookup_cons _ _ _
  | cons f rest ih =>
    obtain ⟨l, v⟩ := f
    rw [put]
    by_cases hsame : key = l
    · rw [if_pos hsame, lookup_cons, lookup_cons, hsame]
      split_ifs <;> rfl
    · rw [if_neg hsame, apply_ite (lookup k), lookup_cons, lookup_cons, lookup_cons, ih]
      -- Of two keys that differ at most one is looked up
      split_ifs with hless hkey hl hl hkey <;> first | rfl | exact absurd (hkey.trans hl.symm) hsame

/-- A map has the fields that it is made of, where no key is given twice. -/
theorem Json.lookup_mapOf_eq_some_iff (h : (fields.map Prod.fst).Nodup) :
    lookup key (mapOf fields) = some j ↔ (key, j) ∈ fields := by
  rw [lookup_perm (mapOf_perm h) h, lookup_eq_some_iff h]

theorem mem_namedOf_iff {k : String} : (k, j) ∈ namedOf args ↔ (some k, j) ∈ args := by
  simp [namedOf]

theorem map_fst_namedOf (args : List (Option String × Json)) :
    (namedOf args).map Prod.fst = args.filterMap Prod.fst := by
  simp [namedOf, List.map_filterMap, Function.comp_def]

/-- Beside the list `args` the payload of a call is what its named arguments make. -/
theorem lookup_callPayload (positional : List Json) (k : String) :
    Json.lookup k (callPayload positional named) =
      if positional ≠ [] ∧ k = "args" then some (.arr positional) else Json.lookup k named := by
  cases positional with
  | nil => rfl
  | cons v rest =>
    have hput : callPayload (v :: rest) named = Json.put "args" (.arr (v :: rest)) named := rfl
    rw [hput, Json.lookup_put]
    simp only [ne_eq, reduceCtorEq, not_false_eq_true, true_and, eq_comm]

/-- The fields that a call hands over. -/
def payloadOf (args : List (Option String × Json)) : List (String × Json) :=
  callPayload (unnamedOf args) (Json.mapOf (namedOf args))

theorem callAction_payload (h : args ≠ []) :
    (callAction callee args).payload = some (.obj (payloadOf args)) := by
  rw [callAction, if_neg (by simpa using h)]
  rfl

theorem lookup_payloadOf (h : (args.filterMap Prod.fst).Nodup) {k : String}
    (hfree : k = "args" → unnamedOf args = []) :
    Json.lookup k (payloadOf args) = some j ↔ (some k, j) ∈ args := by
  rw [payloadOf, lookup_callPayload, if_neg fun hlist => hlist.1 (hfree hlist.2),
    Json.lookup_mapOf_eq_some_iff (by rwa [map_fst_namedOf]), mem_namedOf_iff]

theorem lookup_args_payloadOf (h : unnamedOf args ≠ []) :
    Json.lookup "args" (payloadOf args) = some (.arr (unnamedOf args)) := by
  rw [payloadOf, lookup_callPayload, if_pos ⟨h, rfl⟩]

theorem unnamed_payloadOf (i : Nat) (v : Json) (h : (unnamedOf args)[i]? = some v) :
    ∃ items, Json.lookup "args" (payloadOf args) = some (.arr items) ∧ items[i]? = some v :=
  ⟨unnamedOf args, lookup_args_payloadOf (List.ne_nil_of_mem (List.mem_of_getElem? h)), h⟩

/-- A call keeps its arguments if the list `args` takes the place of none, and only then. -/
theorem holdArguments_iff (h : (args.filterMap Prod.fst).Nodup) :
    HoldArguments args (payloadOf args) ↔ HaveRoom args := by
  refine ⟨fun hold v hv => ?_, fun hroom => ⟨unnamed_payloadOf, fun k v hv => ?_⟩⟩
  · by_cases hnone : unnamedOf args = []
    · exact .inl hnone
    · have hfound := hold.named "args" v hv
      rw [lookup_args_payloadOf hnone, Option.some.injEq] at hfound
      exact .inr hfound.symm
  · by_cases hlist : k = "args" ∧ unnamedOf args ≠ []
    · obtain ⟨rfl, hsome⟩ := hlist
      rw [lookup_args_payloadOf hsome, (hroom v hv).resolve_left hsome]
    · exact (lookup_payloadOf h fun hk => not_not.1 fun hsome => hlist ⟨hk, hsome⟩).2 hv

theorem unnamedOf_filter (args : List (Option String × Json)) :
    unnamedOf (args.filter fun a => a.1 ≠ some "args") = unnamedOf args := by
  rw [unnamedOf, List.filterMap_filter]
  refine List.filterMap_congr fun a _ => ?_
  obtain ⟨_ | k, v⟩ := a <;> simp

/-- At the worst an argument that is called `args` is lost. -/
theorem holdArguments_others (h : (args.filterMap Prod.fst).Nodup) :
    HoldArguments (args.filter fun a => a.1 ≠ some "args") (payloadOf args) := by
  refine ⟨fun i v hv => unnamed_payloadOf i v (by rwa [unnamedOf_filter] at hv), fun k v hv => ?_⟩
  obtain ⟨hmem, hother⟩ := List.mem_filter.1 hv
  exact (lookup_payloadOf h fun hk => absurd hk (by simpa using hother)).2 hmem

/-! ## Actions of calls -/

/-- The arguments of a call, with the values that they have among these variables. -/
def Call.argumentsIn (scope : Scope) (c : Call Expr) : List (Option String × Json) :=
  c.args.map fun a => (a.name, (a.value.valueIn scope).value)

theorem Call.toAction_value (scope : Scope) (c : Call Expr) :
    (c.toAction scope).value = callAction c.callee (c.argumentsIn scope) := by
  show callAction c.callee (Expr.evalArgs scope c.args).value = _
  rw [Expr.evalArgs_value]
  rfl

theorem Call.names_argumentsIn (scope : Scope) (c : Call Expr) :
    (c.argumentsIn scope).filterMap Prod.fst = c.args.filterMap Argument.name := by
  rw [argumentsIn, List.filterMap_map]
  rfl

/-- The action carries the call with its arguments. -/
structure Action.Carries (scope : Scope) (a : Action) (c : Call Expr) : Prop where
  kind : a.kind = c.callee
  bare : c.args = [] → a.payload = none
  payload : c.args ≠ [] →
    ∃ fields, a.payload = some (.obj fields) ∧ HoldArguments (c.argumentsIn scope) fields

theorem Call.toAction_payload (scope : Scope) (h : c.args ≠ []) :
    (c.toAction scope).value.payload = some (.obj (payloadOf (c.argumentsIn scope))) := by
  rw [c.toAction_value, callAction_payload (by simpa [argumentsIn] using h)]

theorem Call.toAction_carries_iff (h : (c.args.filterMap Argument.name).Nodup) :
    (c.toAction scope).value.Carries scope c ↔ HaveRoom (c.argumentsIn scope) := by
  rw [← c.names_argumentsIn scope] at h
  refine ⟨fun hcarries => ?_, fun hroom => ⟨?_, fun hbare => ?_, fun hsome => ?_⟩⟩
  · by_cases hbare : c.args = []
    · intro v hv
      rw [argumentsIn, hbare] at hv
      simp at hv
    · obtain ⟨fields, hfields, hold⟩ := hcarries.payload hbare
      rw [Call.toAction_payload scope hbare, Option.some.injEq, Json.obj.injEq] at hfields
      exact (holdArguments_iff h).1 (hfields ▸ hold)
  · rw [c.toAction_value, callAction_kind]
  · rw [c.toAction_value, argumentsIn, hbare]
    rfl
  · exact ⟨_, Call.toAction_payload scope hsome, (holdArguments_iff h).2 hroom⟩

theorem Expr.valueIn_call (c : Call Expr) (span : Span) :
    ((Expr.call c span).valueIn scope).value = (c.toAction scope).value.toValue := by
  obtain ⟨callee, args⟩ := c
  rw [Expr.valueIn_value, Expr.result_call, Call.toAction_value]
  rfl

/-! ## Calls in expressions -/

/-- The value is the other one or stands in it. -/
inductive Json.IsPart (j : Json) : Json → Prop where
  | refl : IsPart j j
  | item {i : Json} {items : List Json} (hi : i ∈ items) (hpart : IsPart j i) : IsPart j (.arr items)
  | field {k : String} {v : Json} {fields : List (String × Json)} (hv : lookup k fields = some v)
      (hpart : IsPart j v) : IsPart j (.obj fields)

/-- The call stands in the expression, at any depth, where no key is given twice and no argument is lost on
the way to it. -/
inductive Call.StandsIn (scope : Scope) (c : Call Expr) : Expr → Prop where
  | here (span : Span) : StandsIn scope c (.call c span)
  | entry {entries : List (Entry Expr)} {n : Entry Expr} (span : Span) (hn : n ∈ entries)
      (hkeys : (entries.map Entry.key).Nodup) (h : StandsIn scope c n.value) :
      StandsIn scope c (.object entries span)
  | item {items : List Expr} {e : Expr} (span : Span) (he : e ∈ items) (h : StandsIn scope c e) :
      StandsIn scope c (.array items span)
  | argument {d : Call Expr} {a : Argument Expr} (span : Span) (ha : a ∈ d.args)
      (hnames : (d.args.filterMap Argument.name).Nodup) (hroom : HaveRoom (d.argumentsIn scope))
      (h : StandsIn scope c a.value) : StandsIn scope c (.call d span)
  | operand (op : UnaryOp) {e : Expr} (span : Span) (h : StandsIn scope c e) :
      StandsIn scope c (.unary op e span)
  | left (op : BinaryOp) {e : Expr} (right : Expr) (span : Span) (h : StandsIn scope c e) :
      StandsIn scope c (.binary op e right span)
  | right (op : BinaryOp) (left : Expr) {e : Expr} (span : Span) (h : StandsIn scope c e) :
      StandsIn scope c (.binary op left e span)

theorem Call.StandsIn.hasCall (h : c.StandsIn scope e) : e.hasCall = true := by
  induction h with
  | here span => rfl
  | entry span hn hkeys h ih =>
    rw [Expr.hasCall, Expr.entriesHaveCall_eq, List.any_eq_true]
    exact ⟨_, hn, ih⟩
  | item span he h ih =>
    rw [Expr.hasCall, Expr.itemsHaveCall_eq, List.any_eq_true]
    exact ⟨_, he, ih⟩
  | argument span ha hnames hroom h ih => rfl
  | operand op span h ih => exact ih
  | left op right span h ih => rw [Expr.hasCall, ih, Bool.true_or]
  | right op left span h ih => rw [Expr.hasCall, ih, Bool.or_true]

theorem Json.IsPart.field_object {k : String} {v : Json} (hpart : j.IsPart v)
    (hkeys : (fields.map Prod.fst).Nodup) (hmem : (k, v) ∈ fields) : j.IsPart (.object fields) :=
  .field ((lookup_mapOf_eq_some_iff hkeys).2 hmem) hpart

/-- What stands in an argument that is kept stands in the value of the call. -/
theorem Json.IsPart.argument {name : Option String} (hpart : j.IsPart value) (hmem : (name, value) ∈ args)
    (hold : HoldArguments args (payloadOf args)) : j.IsPart (callAction callee args).toValue := by
  have hpayload : j.IsPart (.obj (payloadOf args)) := by
    cases name with
    | some k => exact .field (hold.named k value hmem) hpart
    | none =>
      have hunnamed : value ∈ unnamedOf args := List.mem_filterMap.2 ⟨_, hmem, rfl⟩
      obtain ⟨i, hi⟩ := List.mem_iff_getElem?.1 hunnamed
      obtain ⟨items, hitems, hget⟩ := hold.unnamed i value hi
      exact .field hitems (.item (List.mem_of_getElem? hget) hpart)
  rw [Action.toValue, callAction_payload (List.ne_nil_of_mem hmem), callAction_kind]
  exact hpayload.field_object (by simp [Json.fieldIfSome]) (List.mem_cons_of_mem _ List.mem_cons_self)

/-- A call gets into the value of the expression in which it stands: what has a call in it is left to the
player, so no operation around it is computed. -/
theorem Call.StandsIn.isPart (h : c.StandsIn scope e) :
    Json.IsPart (c.toAction scope).value.toValue (e.valueIn scope).value := by
  induction h with
  | here span =>
    rw [Expr.valueIn_call]
    exact .refl
  | entry span hn hkeys h ih =>
    rw [Expr.valueIn_value, Expr.result_object]
    exact ih.field_object (by simpa [Function.comp_def] using hkeys) (List.mem_map_of_mem hn)
  | item span he h ih =>
    rw [Expr.valueIn_value, Expr.result_array]
    exact .item (List.mem_map_of_mem he) ih
  | @argument d a span ha hnames hroom h ih =>
    rw [Expr.valueIn_call, d.toAction_value]
    exact ih.argument (List.mem_map_of_mem ha)
      ((holdArguments_iff (by rwa [d.names_argumentsIn])).2 hroom)
  | operand op span h ih =>
    rw [Expr.valueIn_value, Expr.result_unary, Expr.known_of_hasCall h.hasCall]
    exact ih.field_object (k := "operand") (by simp) (by simp [Expr.valueIn_value])
  | left op right span h ih =>
    rw [Expr.valueIn_value, Expr.result_binary, Expr.known_of_hasCall h.hasCall, Bool.false_and]
    exact ih.field_object (k := "left") (by simp) (by simp [Expr.valueIn_value])
  | right op left span h ih =>
    rw [Expr.valueIn_value, Expr.result_binary, Expr.known_of_hasCall h.hasCall, Bool.and_false]
    exact ih.field_object (k := "right") (by simp) (by simp [Expr.valueIn_value])

/-! ## Which calls keep their arguments -/

/-- A call whose arguments have different names becomes one action, whether it is a statement or stands in an
expression.  The action carries all of them exactly if the list of those without a name takes the place of
none, and all but one that is called `args` in any case. -/
theorem calls_keep_arguments_iff (scope : Scope) (c : Call Expr)
    (h : (c.args.filterMap Argument.name).Nodup) : ∃ a : Action,
    (∀ span, ((Statement.mk (.call c) span).lower scope).value.1 = some a) ∧
    (∀ span, ((Expr.call c span).valueIn scope).value = a.toValue) ∧
    (∀ e, c.StandsIn scope e → Json.IsPart a.toValue (e.valueIn scope).value) ∧
    a.kind = c.callee ∧
    (a.Carries scope c ↔ HaveRoom (c.argumentsIn scope)) ∧
    (c.args ≠ [] → ∃ fields, a.payload = some (.obj fields) ∧
      HoldArguments ((c.argumentsIn scope).filter fun b => b.1 ≠ some "args") fields) := by
  refine ⟨(c.toAction scope).value, fun span => rfl, Expr.valueIn_call c, fun e he => he.isPart, ?_,
    Call.toAction_carries_iff h, fun hsome => ⟨_, Call.toAction_payload scope hsome, ?_⟩⟩
  · rw [c.toAction_value, callAction_kind]
  · exact holdArguments_others (by rwa [c.names_argumentsIn])

/-- A whole number as an expression. -/
def wholeLiteral (n : Int64) : Expr :=
  .literal ⟨.int n, toString n⟩ default

/-- A call in a call: `f(1, x: g(args: 2), 3)`. -/
def mixedCall : Call Expr :=
  ⟨"f", [⟨none, wholeLiteral 1⟩, ⟨some "x", .call ⟨"g", [⟨some "args", wholeLiteral 2⟩]⟩ default⟩,
    ⟨none, wholeLiteral 3⟩]⟩

/-- A call with arguments of both sorts keeps them all, also as an item of a list. -/
theorem mixed_call_kept : (mixedCall.args.filterMap Argument.name).Nodup ∧ ∃ a : Action,
    (∀ span, ((Statement.mk (.call mixedCall) span).lower []).value.1 = some a) ∧
    a.Carries [] mixedCall ∧
    Json.IsPart a.toValue ((Expr.array [.call mixedCall default] default).valueIn []).value := by
  have hnames : (mixedCall.args.filterMap Argument.name).Nodup := by decide
  have hroom : HaveRoom (mixedCall.argumentsIn []) := fun v hv => by
    simp [mixedCall, Call.argumentsIn] at hv
  obtain ⟨a, hlower, -, hpart, -, hcarries, -⟩ := calls_keep_arguments_iff [] mixedCall hnames
  exact ⟨hnames, a, hlower, hcarries.2 hroom,
    hpart _ (.item default List.mem_cons_self (.here default))⟩

/-- A call with an argument that is called like the list of those without a name: `f(1, args: [1, 2])`. -/
def crowdedCall : Call Expr :=
  ⟨"f", [⟨none, wholeLiteral 1⟩, ⟨some "args", .array [wholeLiteral 1, wholeLiteral 2] default⟩]⟩

/-- An argument can be lost, though all names differ. -/
theorem argument_called_args_lost :
    ¬∀ (scope : Scope) (c : Call Expr), (c.args.filterMap Argument.name).Nodup →
      (c.toAction scope).value.Carries scope c := by
  intro hall
  obtain ⟨fields, hfields, hold⟩ :=
    (hall [] crowdedCall (by decide)).payload (List.cons_ne_nil _ _)
  -- The list holds the argument without a name alone, but not what is called like it
  have hlist := hold.named "args" (.arr [.int 1, .int 2]) (List.mem_cons_of_mem _ List.mem_cons_self)
  have hpayload : (crowdedCall.toAction []).value.payload = some (.obj [("args", .arr [.int 1])]) := rfl
  rw [hpayload, Option.some.injEq, Json.obj.injEq] at hfields
  rw [← hfields, Json.lookup_cons, if_pos rfl] at hlist
  simp at hlist

/-- Nobody is told of it. -/
example : (compile "mpd 1\nscene { step a { do f(1, args: [1, 2]) } }").diagnostics = [] := by
  decide +kernel

end DiagramTour
