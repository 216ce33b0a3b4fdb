import DiagramTour.Program.OfJson
import DiagramTour.Proofs.Json.Arranged
import DiagramTour.Proofs.Program.Nodes
import DiagramTour.Proofs.Program.Numerals

/-!
# Trees from their JSON forms

The JSON form of a tree says everything about it: a program is read from its form, in whatever order
the fields of the objects stand, and two programs have two forms.  Numbers have to be finite, as JSON
has no others.

## Architecture

- `Node.IsFinite` and `Program.IsFinite` ask for the numbers of a tree.
- `Node.IsRead` says of a node that its form is read as the node.
- `Node.isRead` goes along the tree: a node is read if its parts are, one lemma for each kind of node.
- `Program.ofJson_arranged`: a program is read from its form in any arrangement, and so no other program has
  that form (`programs_survive_json`).
-/

namespace DiagramTour

open Json

/-! ## Finite numbers -/

/-- Whether the number that a literal means is finite. -/
def Literal.isFinite (l : Literal) : Bool :=
  match l.value with
  | .number x | .duration x | .percent x => x.isFinite
  | _ => true

/-- Whether the numbers of a node by itself are finite. -/
def Node.isFinite : Node → Bool
  | expr (.literal l _) => l.isFinite
  | rule r => r.event.delay.all Literal.isFinite
  | _ => true

/-- The numbers in a node are finite. -/
def Node.IsFinite (n : Node) : Prop :=
  ∀ m ∈ n.all, m.isFinite = true

/-- The numbers in a program are finite. -/
def Program.IsFinite (p : Program) : Prop :=
  ∀ n ∈ p.nodes, n.isFinite = true

theorem Node.isFinite_iff {n : Node} :
    n.IsFinite ↔ n.isFinite = true ∧ ∀ m ∈ n.children, m.IsFinite := by
  unfold IsFinite
  rw [all_eq, List.forall_mem_cons]
  simp only [List.mem_flatMap]
  exact ⟨fun h => ⟨h.1, fun m hm k hk => h.2 k ⟨m, hm, hk⟩⟩,
    fun h => ⟨h.1, fun k ⟨m, hm, hk⟩ => h.2 m hm k hk⟩⟩

theorem Program.isFinite_iff {p : Program} :
    p.IsFinite ↔ ∀ i ∈ p.items, (Node.item i).IsFinite := by
  unfold IsFinite Node.IsFinite nodes
  simp only [List.mem_flatMap]
  exact ⟨fun h i hi n hn => h n ⟨i, hi, hn⟩, fun h n ⟨i, hi, hn⟩ => h i hi n hn⟩

/-! ## Leaves -/

section Leaves

variable {f : Json → Json} (hf : Arrangement f)
include hf

theorem text?_arranged (s : String) : text? (f (.str s)) = some s := by
  rw [hf.str]; rfl

theorem nat?_arranged (n : Nat) : nat? (f (.nat n)) = some n := by
  rw [Json.nat, hf.int]
  simp [nat?]

theorem int64?_arranged (n : Int64) : int64? (f (.int n.toInt)) = some n := by
  rw [hf.int, int64?, if_pos (fits64_toInt n), Int64.ofInt_toInt]

theorem bool?_arranged (b : Bool) : bool? (f (.bool b)) = some b := by
  rw [hf.bool]; rfl

theorem float?_arranged {x : Float} (h : x.isFinite = true) : float? (f (.ofFloat x)) = some x := by
  rw [Json.ofFloat, if_pos h, hf.float]; rfl

theorem optionalText_arranged (o : Option String) :
    optional? text? (some (f (Json.optionalText o))) = some o :=
  hf.optional rfl fun s _ => text?_arranged hf s

theorem texts_arranged (names : List String) :
    list? text? (f (.arr (names.map .str))) = some names :=
  hf.list fun s _ => text?_arranged hf s

theorem Position.ofJson_arranged (p : Position) : Position.ofJson? (f p.toJson) = some p := by
  rw [Position.ofJson?, Position.toJson, hf.values_obj (by simp)]
  simp [lookup_cons, required, nat?_arranged hf]

theorem Span.ofJson_arranged (s : Span) : Span.ofJson? (f s.toJson) = some s := by
  rw [Span.ofJson?, Span.toJson, hf.values_obj (by simp)]
  simp [lookup_cons, required, Position.ofJson_arranged hf]

theorem tagged?_typed {tag : String} {fields : List (String × Json)} {tags : List String}
    (hnodup : ("type" :: fields.map Prod.fst).Nodup) (htag : tag ∈ tags) :
    tagged? "type" (tagOf? tags) (f (.typed tag fields)) = some (tag, f (.typed tag fields)) := by
  have hnodup' : ((("type", Json.str tag) :: fields).map Prod.fst).Nodup := hnodup
  exact hf.tagged_obj hnodup' rfl (by simp [tagOf?, htag])

/-- The name of a kind among the fields is in no other's way. -/
theorem values?_typed {tag : String} {fields : List (String × Json)} {keys : List String}
    (hnodup : ("type" :: fields.map Prod.fst).Nodup) (hkeys : "type" ∉ keys) :
    values? keys (f (.typed tag fields)) = values? keys (f (.obj fields)) := by
  have hnodup' : ((("type", Json.str tag) :: fields).map Prod.fst).Nodup := hnodup
  rw [Json.typed, hf.values_obj hnodup', hf.values_obj (List.nodup_cons.1 hnodup).2]
  refine congrArg some (List.map_congr_left fun k hk => ?_)
  have hne : "type" ≠ k := fun h => hkeys (h ▸ hk)
  rw [lookup_cons, if_neg hne]

theorem depth_lt_of_typed {tag key : String} {fields : List (String × Json)} {j : Json}
    (hnodup : ("type" :: fields.map Prod.fst).Nodup) (hkey : lookup key fields = some j) :
    (f j).depth < (f (.typed tag fields)).depth := by
  have hnodup' : ((("type", Json.str tag) :: fields).map Prod.fst).Nodup := hnodup
  have hmem := (lookup_eq_some_iff (List.nodup_cons.1 hnodup).2).1 hkey
  exact hf.depth_lt_of_lookup hnodup' ((lookup_eq_some_iff hnodup').2 (List.mem_cons_of_mem _ hmem))

theorem valued?_kinded (kind : String) (value : Json) :
    valued? "kind" "value" some (f (LiteralValue.toJson.kinded kind value)) =
      some (kind, some (f value)) :=
  hf.valued_obj (by simp) rfl rfl

theorem LiteralValue.ofJson_arranged {l : Literal} (h : l.isFinite = true) :
    LiteralValue.ofJson? (f l.value.toJson) = some l.value := by
  obtain ⟨value, raw⟩ := l
  cases value with
  | null =>
    rw [LiteralValue.toJson, hf.obj_singleton, hf.str]
    rfl
  | number x | duration x | percent x =>
    simp [LiteralValue.ofJson?, LiteralValue.toJson, valued?_kinded hf, required, float?_arranged hf h]
  | int n =>
    simp [LiteralValue.ofJson?, LiteralValue.toJson, valued?_kinded hf, required, int64?_arranged hf]
  | boolean b =>
    simp [LiteralValue.ofJson?, LiteralValue.toJson, valued?_kinded hf, required, bool?_arranged hf]
  | string s | color s =>
    simp [LiteralValue.ofJson?, LiteralValue.toJson, valued?_kinded hf, required, text?_arranged hf]

theorem Literal.ofJson_arranged {l : Literal} (h : l.isFinite = true) :
    Literal.ofJson? (f (.obj l.fields)) = some l := by
  rw [Literal.ofJson?, Literal.fields, hf.values_obj (by simp)]
  simp [lookup_cons, required, LiteralValue.ofJson_arranged hf h, text?_arranged hf]

end Leaves

/-! ## Names of kinds -/

/-- The name of a kind of target. -/
def TargetHead.tag : TargetHead → String
  | element kind => kind.tag
  | edge => "Edge"
  | matching key => key.tag
  | several how => how.tag
  | except => "Except"

theorem Target.headOfTag?_tag (head : TargetHead) : Target.headOfTag? head.tag = some head := by
  cases head with
  | element kind => cases kind <;> rfl
  | matching key => cases key <;> rfl
  | several how => cases how <;> rfl
  | _ => rfl

theorem UnaryOp.ofTag?_tag (op : UnaryOp) : UnaryOp.ofTag? op.tag = some op := by
  cases op <;> rfl

theorem BinaryOp.ofTag?_tag (op : BinaryOp) : BinaryOp.ofTag? op.tag = some op := by
  cases op <;> decide

theorem SectionKind.ofName?_name (kind : SectionKind) : SectionKind.ofName? kind.name = some kind := by
  cases kind <;> rfl

/-! ## Nodes -/

/-- The form of an entry. -/
def Entry.toJson (e : Entry Expr) : Json :=
  .obj [("key", .str e.key), ("value", e.value.toJson), ("span", e.span.toJson)]

/-- The form of an argument. -/
def Argument.toJson (a : Argument Expr) : Json :=
  .obj [("name", Json.optionalText a.name), ("value", a.value.toJson)]

theorem Expr.entriesToJson_eq (entries : List (Entry Expr)) :
    Expr.entriesToJson entries = entries.map Entry.toJson := by
  induction entries with
  | nil => rfl
  | cons e rest ih => rw [Expr.entriesToJson, ih]; rfl

theorem Expr.itemsToJson_eq (items : List Expr) : Expr.itemsToJson items = items.map Expr.toJson := by
  induction items with
  | nil => rfl
  | cons e rest ih => rw [Expr.itemsToJson, ih]; rfl

theorem Expr.argsToJson_eq (args : List (Argument Expr)) :
    Expr.argsToJson args = args.map Argument.toJson := by
  induction args with
  | nil => rfl
  | cons a rest ih => rw [Expr.argsToJson, ih]; rfl

theorem Target.membersToJson_eq (members : List Target) :
    Target.membersToJson members = members.map Target.toJson := by
  induction members with
  | nil => rfl
  | cons t rest ih => rw [Target.membersToJson, ih]; rfl

theorem Item.listToJson_eq (items : List Item) : Item.listToJson items = items.map Item.toJson := by
  induction items with
  | nil => rfl
  | cons i rest ih => rw [Item.listToJson, ih]; rfl

/-- What the word of a target opens. -/
def Target.head : Target → TargetHead
  | element kind _ _ => .element kind
  | edge _ _ => .edge
  | matching key _ _ => .matching key
  | several how _ _ => .several how
  | except _ _ _ => .except

/-- The form of the value of a target. -/
def Target.valueToJson : Target → Json
  | element _ ref _ => ref.toJson
  | edge ref _ => ref.toJson
  | matching _ value _ => .str value
  | several _ members _ => .arr (members.map Target.toJson)
  | except base removed _ => .arr [base.toJson, removed.toJson]

/-- The form of the kind of a target, without its span. -/
def Target.kindToJson (t : Target) : Json :=
  .obj [("type", .str t.head.tag), ("value", t.valueToJson)]

theorem Target.toJson_eq (t : Target) :
    t.toJson = .obj [("kind", t.kindToJson), ("span", t.span.toJson)] := by
  cases t with
  | several how members span => rw [Target.toJson, Target.membersToJson_eq]; rfl
  | _ => rfl

/-- The name of the kind of an expression. -/
def Expr.tag : Expr → String
  | literal _ _ => "Literal"
  | var _ _ => "Var"
  | object _ _ => "Object"
  | array _ _ => "Array"
  | call _ _ => "Call"
  | unary _ _ _ => "Unary"
  | binary _ _ _ _ => "Binary"
  | target _ _ => "Target"

/-- The fields of an expression beside the name of its kind. -/
def Expr.fields : Expr → List (String × Json)
  | literal l _ => l.fields
  | var path _ => [("path", .arr (path.map .str))]
  | object entries _ => [("entries", .arr (entries.map Entry.toJson))]
  | array items _ => [("items", .arr (items.map Expr.toJson))]
  | call c _ => [("callee", .str c.callee), ("args", .arr (c.args.map Argument.toJson))]
  | unary op operand _ => [("op", .str op.tag), ("operand", operand.toJson)]
  | binary op left right _ =>
    [("op", .str op.tag), ("left", left.toJson), ("right", right.toJson)]
  | target t _ => [("kind", t.kindToJson), ("span", t.span.toJson)]

theorem Expr.toJson_eq (e : Expr) :
    e.toJson = .obj [("kind", .typed e.tag e.fields), ("span", e.span.toJson)] := by
  cases e with
  | object entries span => rw [Expr.toJson, Expr.entriesToJson_eq]; rfl
  | array items span => rw [Expr.toJson, Expr.itemsToJson_eq]; rfl
  | call c span => rw [Expr.toJson, Expr.argsToJson_eq]; rfl
  | target t span => rw [Expr.toJson, t.toJson_eq]; rfl
  | _ => rfl

theorem Expr.nodup_fields (e : Expr) : ("type" :: e.fields.map Prod.fst).Nodup := by
  cases e <;> simp [Expr.fields, Literal.fields]

namespace Node

/-- The form of a node is read as the node, however its fields are arranged.  The form of a target may
have further fields, as those of an expression stand among its own. -/
def IsRead (f : Json → Json) : Node → Prop
  | item i => ∀ fuel, (f i.toJson).depth ≤ fuel → Item.ofJsonWithin fuel (f i.toJson) = some i
  | step _ s => Step.ofJson? (f s.toJson) = some s
  | binding b => Binding.ofJson? (f (.obj b.fields)) = some b
  | rule r => Rule.ofJson? (f r.toJson) = some r
  | statement s => Statement.ofJson? (f s.toJson) = some s
  | expr e => ∀ fuel, (f e.toJson).depth ≤ fuel → Expr.ofJsonWithin fuel (f e.toJson) = some e
  | target t => ∀ fields, (fields.map Prod.fst).Nodup →
      lookup "kind" fields = some t.kindToJson → lookup "span" fields = some t.span.toJson →
        ∀ fuel, (f (.obj fields)).depth ≤ fuel → Target.ofJsonWithin fuel (f (.obj fields)) = some t

variable {f : Json → Json} (hf : Arrangement f)
include hf

/-! ## Targets -/

theorem ElementRef.ofJson_arranged (r : ElementRef) : ElementRef.ofJson? (f r.toJson) = some r := by
  cases r with
  | named id => rw [ElementRef.toJson, hf.obj_singleton, hf.str]; rfl
  | wildcard => rw [ElementRef.toJson, hf.str]; rfl

theorem EdgeRef.ofJson_arranged (r : EdgeRef) : EdgeRef.ofJson? (f r.toJson) = some r := by
  cases r with
  | byId ref =>
    rw [EdgeRef.toJson, hf.obj_singleton, EdgeRef.ofJson?, ElementRef.ofJson_arranged hf]
    rfl
  | between source destination =>
    rw [EdgeRef.toJson, hf.obj_singleton, hf.arr, List.map_cons, List.map_cons, List.map_nil,
      EdgeRef.ofJson?, ElementRef.ofJson_arranged hf, ElementRef.ofJson_arranged hf]
    rfl

omit hf in
/-- A target is read from its form alone. -/
theorem IsRead.ofJsonWithin {t : Target} (h : (target t).IsRead f) {fuel : Nat}
    (hfuel : (f t.toJson).depth ≤ fuel) : Target.ofJsonWithin fuel (f t.toJson) = some t := by
  rw [t.toJson_eq] at hfuel ⊢
  exact h _ (by simp) (by simp [lookup_cons]) (by simp [lookup_cons]) fuel hfuel

theorem isRead_target {t : Target} (hparts : ∀ m ∈ (target t).children, m.IsRead f) :
    (target t).IsRead f := by
  intro fields hnodup hkind hspan fuel hfuel
  -- Only the kind and the span are looked at, whatever other fields stand beside them
  have hkindDepth := hf.depth_lt_of_lookup hnodup hkind
  have hvalueDepth : (f t.valueToJson).depth < (f t.kindToJson).depth :=
    hf.depth_lt_of_lookup (by simp) (show lookup "value" _ = _ from rfl)
  obtain ⟨fuel, rfl⟩ : ∃ k, fuel = k + 1 := ⟨fuel - 1, by omega⟩
  rw [Target.ofJsonWithin, hf.values_obj hnodup]
  simp only [List.map_cons, List.map_nil, hkind, hspan, Option.map_some, Option.bind_eq_bind,
    Option.bind_some, Span.ofJson_arranged hf, Target.kindToJson]
  rw [hf.valued_obj (by simp) rfl (Target.headOfTag?_tag t.head)]
  cases t with
  | element k ref span =>
    simp [lookup_cons, Target.head, Target.valueToJson, ElementRef.ofJson_arranged hf, Target.span]
  | edge ref span =>
    simp [lookup_cons, Target.head, Target.valueToJson, EdgeRef.ofJson_arranged hf, Target.span]
  | matching key value span =>
    simp [lookup_cons, Target.head, Target.valueToJson, text?_arranged hf, Target.span]
  | several how members span =>
    have hmembers : list? (Target.ofJsonWithin fuel) (f (.arr (members.map Target.toJson))) =
        some members := hf.list fun t ht =>
      (hparts (target t) (List.mem_map_of_mem ht)).ofJsonWithin (by
        have := hf.depth_lt_of_mem (List.mem_map_of_mem (f := Target.toJson) ht)
        rw [Target.valueToJson] at hvalueDepth
        omega)
    simp [lookup_cons, Target.head, Target.valueToJson, hmembers, Target.span]
  | except base removed span =>
    rw [Target.valueToJson] at hvalueDepth
    have hread : ∀ t ∈ [base, removed], Target.ofJsonWithin fuel (f t.toJson) = some t := fun t ht =>
      (hparts (target t) (by simpa [children] using ht)).ofJsonWithin (by
        have := hf.depth_lt_of_mem (List.mem_map_of_mem (f := Target.toJson) ht)
        rw [List.map_cons, List.map_cons, List.map_nil] at this
        omega)
    have hbase := hread base (by simp)
    have hremoved := hread removed (by simp)
    simp [lookup_cons, Target.head, Target.valueToJson, hf.arr, hbase, hremoved, Target.span]

/-! ## Expressions -/

theorem Entry.ofJson_arranged {part : Json → Option Expr} {e : Entry Expr}
    (h : part (f e.value.toJson) = some e.value) : Entry.ofJson? part (f e.toJson) = some e := by
  rw [Entry.ofJson?, Entry.toJson, hf.values_obj (by simp)]
  simp [lookup_cons, required, h, text?_arranged hf, Span.ofJson_arranged hf]

theorem Entry.depth_value_lt (e : Entry Expr) : (f e.value.toJson).depth < (f e.toJson).depth :=
  hf.depth_lt_of_lookup (by simp) (show lookup "value" _ = _ from rfl)

theorem Argument.ofJson_arranged {part : Json → Option Expr} {a : Argument Expr}
    (h : part (f a.value.toJson) = some a.value) : Argument.ofJson? part (f a.toJson) = some a := by
  rw [Argument.ofJson?, Argument.toJson, hf.values_obj (by simp)]
  simp [lookup_cons, required, h, optionalText_arranged hf]

theorem Argument.depth_value_lt (a : Argument Expr) : (f a.value.toJson).depth < (f a.toJson).depth :=
  hf.depth_lt_of_lookup (by simp) (show lookup "value" _ = _ from rfl)

theorem entries_arranged (part : Json → Option Expr) {entries : List (Entry Expr)}
    (h : ∀ e ∈ entries, part (f e.value.toJson) = some e.value) :
    list? (Entry.ofJson? part) (f (.arr (entries.map Entry.toJson))) = some entries :=
  hf.list fun e he => Entry.ofJson_arranged hf (h e he)

theorem Call.ofJson_arranged (tag : String) (part : Json → Option Expr) {c : Call Expr}
    (h : ∀ a ∈ c.args, part (f a.value.toJson) = some a.value) :
    Call.ofJson? part (f (.typed tag [("callee", .str c.callee),
      ("args", .arr (c.args.map Argument.toJson))])) = some c := by
  have hargs : list? (Argument.ofJson? part) (f (.arr (c.args.map Argument.toJson))) = some c.args :=
    hf.list fun a ha => Argument.ofJson_arranged hf (h a ha)
  rw [Call.ofJson?, values?_typed hf (by simp) (by simp), hf.values_obj (by simp)]
  simp [lookup_cons, required, hargs, text?_arranged hf]

theorem isRead_expr {e : Expr} (hfinite : (expr e).isFinite = true)
    (hparts : ∀ m ∈ (expr e).children, m.IsRead f) : (expr e).IsRead f := by
  intro fuel hfuel
  rw [e.toJson_eq] at hfuel ⊢
  have hkindDepth : (f (.typed e.tag e.fields)).depth < _ :=
    hf.depth_lt_of_lookup (by simp) (show lookup "kind"
      [("kind", .typed e.tag e.fields), ("span", e.span.toJson)] = _ from rfl)
  have htag : e.tag ∈ Expr.tags := by cases e <;> simp [Expr.tag, Expr.tags]
  obtain ⟨fuel, rfl⟩ : ∃ k, fuel = k + 1 := ⟨fuel - 1, by omega⟩
  -- The fields of the kind lie two levels below, so that what fuel is left is enough for them
  have hbelow : ∀ key j, lookup key e.fields = some j → (f j).depth < fuel := fun key j hkey => by
    have : (f j).depth < (f (.typed e.tag e.fields)).depth := depth_lt_of_typed hf e.nodup_fields hkey
    omega
  rw [Expr.ofJsonWithin, hf.values_obj (by simp)]
  simp only [lookup_cons, List.map_cons, List.map_nil, Option.map_some, Option.bind_eq_bind,
    Option.bind_some, Span.ofJson_arranged hf, String.reduceEq, ite_true, ite_false,
    tagged?_typed hf e.nodup_fields htag]
  have hvalues : ∀ keys, "type" ∉ keys →
      values? keys (f (.typed e.tag e.fields)) = values? keys (f (.obj e.fields)) := fun keys hkeys =>
    values?_typed hf e.nodup_fields hkeys
  cases e with
  | literal l span =>
    -- The fields of a literal stand beside the name of its kind, which is none of them
    have hread : Literal.ofJson? (f (.typed "Literal" l.fields)) = some l := by
      rw [← Literal.ofJson_arranged hf hfinite, Literal.ofJson?, Literal.ofJson?]
      exact congrArg (· >>= _) (hvalues _ (by simp))
    simp [Expr.tag, Expr.fields, hread, Expr.span]
  | var path span =>
    simp only [Expr.tag, Expr.fields, Expr.span] at hvalues ⊢
    simp [hvalues, hf.values_obj, lookup_cons, required, texts_arranged hf]
  | object entries span =>
    have hentries := entries_arranged hf (Expr.ofJsonWithin fuel) fun e he =>
      hparts (expr e.value) (List.mem_map_of_mem he) fuel (by
        have harr := hf.depth_lt_of_mem (List.mem_map_of_mem (f := Entry.toJson) he)
        have hvalue := Entry.depth_value_lt hf e
        have : (f (.arr (entries.map Entry.toJson))).depth < fuel := hbelow "entries" _ rfl
        omega)
    simp only [Expr.tag, Expr.fields, Expr.span] at hvalues ⊢
    simp [hvalues, hf.values_obj, lookup_cons, required, hentries]
  | array items span =>
    have hitems : list? (Expr.ofJsonWithin fuel) (f (.arr (items.map Expr.toJson))) = some items :=
      hf.list fun e he => hparts (expr e) (List.mem_map_of_mem he) fuel (by
        have harr := hf.depth_lt_of_mem (List.mem_map_of_mem (f := Expr.toJson) he)
        have : (f (.arr (items.map Expr.toJson))).depth < fuel := hbelow "items" _ rfl
        omega)
    simp only [Expr.tag, Expr.fields, Expr.span] at hvalues ⊢
    simp [hvalues, hf.values_obj, lookup_cons, required, hitems]
  | call c span =>
    have hcall := Call.ofJson_arranged hf "Call" (Expr.ofJsonWithin fuel) fun a ha =>
      hparts (expr a.value) (List.mem_map_of_mem ha) fuel (by
        have harr := hf.depth_lt_of_mem (List.mem_map_of_mem (f := Argument.toJson) ha)
        have hvalue := Argument.depth_value_lt hf a
        have : (f (.arr (c.args.map Argument.toJson))).depth < fuel := hbelow "args" _ rfl
        omega)
    simp [Expr.tag, Expr.fields, Expr.span, hcall]
  | unary op operand span =>
    have hoperand := hparts (expr operand) (by simp [children]) fuel (hbelow "operand" _ rfl).le
    simp only [Expr.tag, Expr.fields, Expr.span] at hvalues ⊢
    simp [hvalues, hf.values_obj, lookup_cons, required, hf.str, name?, UnaryOp.ofTag?_tag, hoperand]
  | binary op left right span =>
    have hleft := hparts (expr left) (by simp [children]) fuel (hbelow "left" _ rfl).le
    have hright := hparts (expr right) (by simp [children]) fuel (hbelow "right" _ rfl).le
    simp only [Expr.tag, Expr.fields, Expr.span] at hvalues ⊢
    simp [hvalues, hf.values_obj, lookup_cons, required, hf.str, name?, BinaryOp.ofTag?_tag, hleft,
      hright]
  | target t span =>
    -- The fields of a target do, too, and so it is read from more than its own form
    have hread : Target.ofJson? (f (.typed "Target" [("kind", t.kindToJson), ("span", t.span.toJson)])) =
        some t :=
      hparts (target t) (by simp [children]) _ (by simp) rfl rfl _ le_rfl
    simp [Expr.tag, Expr.fields, Expr.span, hread]

theorem option_arranged {o : Option Expr} (h : ∀ m ∈ o.toList.map expr, m.IsRead f) :
    optional? Expr.ofJson? (some (f (Expr.optionToJson o))) = some o :=
  hf.optional rfl fun e he => h (expr e) (by simp [he]) _ le_rfl

theorem entryList_arranged (entries : List (Entry Expr))
    (h : ∀ m ∈ entries.map (fun e => expr e.value), m.IsRead f) :
    entriesOfJson? (f (entryList entries)) = some entries := by
  rw [entryList, Expr.entriesToJson_eq]
  exact entries_arranged hf _ fun e he => h (expr e.value) (List.mem_map_of_mem he) _ le_rfl

omit hf in
theorem IsRead.ofJson {t : Target} (h : (target t).IsRead f) :
    Target.ofJson? (f t.toJson) = some t :=
  h.ofJsonWithin le_rfl

/-! ## Statements -/

theorem Definition.ofJson_arranged (tag : String) {d : Definition} (h : (expr d.value).IsRead f) :
    Definition.ofJson? (f (.typed tag d.fields)) = some d := by
  have hvalue : Expr.ofJson? (f d.value.toJson) = some d.value := h _ le_rfl
  rw [Definition.ofJson?, Definition.fields, values?_typed hf (by simp) (by simp),
    hf.values_obj (by simp)]
  simp [lookup_cons, required, text?_arranged hf, hvalue, Span.ofJson_arranged hf]

theorem Metadata.ofJson_arranged (tag : String) {m : Metadata}
    (h : ∀ n ∈ m.entries.map (fun e => expr e.value), n.IsRead f) :
    Metadata.ofJson? (f (.typed tag m.fields)) = some m := by
  rw [Metadata.ofJson?, Metadata.fields, values?_typed hf (by simp) (by simp), hf.values_obj (by simp)]
  simp [lookup_cons, required, entryList_arranged hf m.entries h, Span.ofJson_arranged hf]

theorem isRead_statement {s : Statement} (hparts : ∀ m ∈ (statement s).children, m.IsRead f) :
    (statement s).IsRead f := by
  obtain ⟨kind, span⟩ := s
  have hkind : StatementKind.ofJson? (f kind.toJson) = some kind := by
    rw [StatementKind.ofJson?]
    cases kind with
    | focus focus =>
      have htarget := (hparts (target focus.target) (by simp [children])).ofJson
      have hpad := option_arranged hf (o := focus.pad) fun m hm => hparts m (by simp_all [children])
      have hlock := option_arranged hf (o := focus.lock) fun m hm => hparts m (by simp_all [children])
      rw [StatementKind.toJson, tagged?_typed hf (by simp) (by simp [StatementKind.tags])]
      simp [values?_typed hf, hf.values_obj, lookup_cons, required, htarget, hpad, hlock,
        optionalText_arranged hf]
    | call c =>
      have hcall := Call.ofJson_arranged hf "Do" Expr.ofJson? fun a ha =>
        hparts (expr a.value) (List.mem_map_of_mem ha) _ le_rfl
      rw [StatementKind.toJson, tagged?_typed hf (by simp) (by simp [StatementKind.tags]),
        Expr.argsToJson_eq]
      simp [hcall]
    | define d =>
      have hread := Definition.ofJson_arranged hf "Let" (hparts (expr d.value) (by simp [children]))
      rw [StatementKind.toJson, tagged?_typed hf (by simp [Definition.fields])
        (by simp [StatementKind.tags])]
      simp [hread]
    | assert condition message =>
      have hcondition : Expr.ofJson? (f condition.toJson) = some condition :=
        hparts (expr condition) (by simp [children]) _ le_rfl
      have hmessage := option_arranged hf (o := message) fun m hm => hparts m (by simp_all [children])
      rw [StatementKind.toJson, tagged?_typed hf (by simp) (by simp [StatementKind.tags])]
      simp [values?_typed hf, hf.values_obj, lookup_cons, required, hcondition, hmessage]
    | metadata m =>
      have hread := Metadata.ofJson_arranged hf "Meta" (m := m) fun n hn => hparts n hn
      rw [StatementKind.toJson, tagged?_typed hf (by simp [Metadata.fields])
        (by simp [StatementKind.tags])]
      simp [hread]
  rw [IsRead, Statement.ofJson?, Statement.toJson, hf.values_obj (by simp)]
  simp [lookup_cons, required, hkind, Span.ofJson_arranged hf]

theorem statementList_arranged (statements : List Statement)
    (h : ∀ m ∈ statements.map statement, m.IsRead f) :
    list? Statement.ofJson? (f (statementList statements)) = some statements :=
  hf.list fun s hs => h (statement s) (List.mem_map_of_mem hs)

/-! ## Bindings and steps -/

theorem EventSpec.ofJson_arranged {e : EventSpec} (h : e.delay.all Literal.isFinite = true) :
    EventSpec.ofJson? (f e.toJson) = some e := by
  have hkind : optional? (name? EventKind.ofName?) (some (f (Json.optional (.str ∘ EventKind.name) e.kind))) =
      some e.kind := hf.optional rfl fun k _ => by
    rw [Function.comp_apply, hf.str, name?]
    cases k <;> decide
  have hdelay : optional? Literal.ofJson? (some (f (Json.optional (.obj ∘ Literal.fields) e.delay))) =
      some e.delay := hf.optional rfl fun l hl => by
    rw [hl] at h
    exact Literal.ofJson_arranged hf h
  rw [EventSpec.ofJson?, EventSpec.toJson, hf.values_obj (by simp)]
  simp [lookup_cons, required, hkind, hdelay, optionalText_arranged hf, Span.ofJson_arranged hf]

theorem isRead_rule {r : Rule} (hfinite : (rule r).isFinite = true)
    (hparts : ∀ m ∈ (rule r).children, m.IsRead f) : (rule r).IsRead f := by
  have hevent := EventSpec.ofJson_arranged hf hfinite
  have htarget : optional? Target.ofJson? (some (f (Json.optional Target.toJson r.target))) =
      some r.target := hf.optional rfl fun t ht => (hparts (target t) (by simp [children, ht])).ofJson
  have hguard := option_arranged hf (o := r.guard) fun m hm => hparts m (by simp_all [children])
  have hactions := statementList_arranged hf r.actions fun m hm =>
    hparts m (by simp_all [children])
  rw [IsRead, Rule.ofJson?, Rule.toJson, hf.values_obj (by simp)]
  simp [lookup_cons, required, hevent, htarget, hguard, hactions, Span.ofJson_arranged hf]

theorem isRead_binding {b : Binding} (hparts : ∀ m ∈ (binding b).children, m.IsRead f) :
    (binding b).IsRead f := by
  have hpriority : optional? int64? (some (f (Json.optional (fun n => .int n.toInt) b.priority))) =
      some b.priority := hf.optional rfl fun n _ => int64?_arranged hf n
  have hrules : list? Rule.ofJson? (f (.arr (b.rules.map Rule.toJson))) = some b.rules :=
    hf.list fun r hr => hparts (rule r) (List.mem_map_of_mem hr)
  rw [IsRead, Binding.ofJson?, Binding.fields, hf.values_obj (by simp)]
  simp [lookup_cons, required, hpriority, hrules, optionalText_arranged hf, Span.ofJson_arranged hf]

theorem isRead_step {earlier : List String} {s : Step}
    (hparts : ∀ m ∈ (step earlier s).children, m.IsRead f) : (step earlier s).IsRead f := by
  have hstatements := statementList_arranged hf s.statements fun m hm =>
    hparts m (List.mem_append_left _ hm)
  have hbindings : list? Binding.ofJson? (f (.arr (s.bindings.map fun b => .obj b.fields))) =
      some s.bindings :=
    hf.list fun b hb => hparts (binding b) (List.mem_append_right _ (List.mem_map_of_mem hb))
  rw [IsRead, Step.ofJson?, Step.toJson, hf.values_obj (by simp)]
  simp [lookup_cons, required, hstatements, hbindings, text?_arranged hf, optionalText_arranged hf,
    Span.ofJson_arranged hf]

/-! ## Declarations -/

theorem Diagram.ofJson_arranged {d : Diagram} (hparts : ∀ m ∈ (item (.diagram d)).children, m.IsRead f) :
    Diagram.ofJson? (f (Item.toJson (.diagram d))) = some d := by
  have hsource : optional? DiagramSource.ofJson? (some (f (Json.optional DiagramSource.toJson d.source))) =
      some d.source := hf.optional rfl fun source _ => by
    cases source with
    | heredoc tag body =>
      rw [DiagramSource.toJson, hf.obj_singleton, DiagramSource.ofJson?, hf.values_obj (by simp)]
      simp [lookup_cons, required, text?_arranged hf]
    | quoted text => rw [DiagramSource.toJson, hf.obj_singleton, hf.str]; rfl
  have hconfig := option_arranged hf (o := d.config) fun m hm => hparts m (List.mem_append_left _ hm)
  have hassets := option_arranged hf (o := d.assets) fun m hm => hparts m (List.mem_append_right _ hm)
  change Diagram.ofJson? (f (.typed "Diagram" _)) = _
  rw [Diagram.ofJson?, values?_typed hf (by simp) (by simp), hf.values_obj (by simp)]
  simp [lookup_cons, required, hsource, hconfig, hassets, optionalText_arranged hf,
    Span.ofJson_arranged hf]

theorem Runtime.ofJson_arranged {r : Runtime} (hparts : ∀ m ∈ (item (.runtime r)).children, m.IsRead f) :
    Runtime.ofJson? (f (Item.toJson (.runtime r))) = some r := by
  have hsections : list? RuntimeSection.ofJson? (f (.arr (r.sections.map RuntimeSection.toJson))) =
      some r.sections := hf.list fun s hs => by
    have hentries := entryList_arranged hf s.entries fun m hm =>
      hparts m (List.mem_flatMap.2 ⟨s, hs, hm⟩)
    rw [RuntimeSection.ofJson?, RuntimeSection.toJson, hf.values_obj (by simp)]
    simp [lookup_cons, required, hf.str, name?, SectionKind.ofName?_name, hentries,
      Span.ofJson_arranged hf]
  change Runtime.ofJson? (f (.typed "Runtime" _)) = _
  rw [Runtime.ofJson?, values?_typed hf (by simp) (by simp), hf.values_obj (by simp)]
  simp [lookup_cons, required, hsections, Span.ofJson_arranged hf]

theorem Selectors.ofJson_arranged {s : Selectors}
    (hparts : ∀ m ∈ (item (.selectors s)).children, m.IsRead f) :
    Selectors.ofJson? (f (Item.toJson (.selectors s))) = some s := by
  have hentries : list? Selector.ofJson? (f (.arr (s.entries.map Selector.toJson))) =
      some s.entries := hf.list fun e he => by
    have htarget := (hparts (target e.target) (List.mem_map_of_mem he)).ofJson
    rw [Selector.ofJson?, Selector.toJson, hf.values_obj (by simp)]
    simp [lookup_cons, required, htarget, text?_arranged hf, Span.ofJson_arranged hf]
  change Selectors.ofJson? (f (.typed "Selectors" _)) = _
  rw [Selectors.ofJson?, values?_typed hf (by simp) (by simp), hf.values_obj (by simp)]
  simp [lookup_cons, required, hentries, Span.ofJson_arranged hf]

theorem Styles.ofJson_arranged {s : Styles} (hparts : ∀ m ∈ (item (.styles s)).children, m.IsRead f) :
    Styles.ofJson? (f (Item.toJson (.styles s))) = some s := by
  have hentries := entryList_arranged hf s.entries fun m hm => hparts m hm
  change Styles.ofJson? (f (.typed "Styles" _)) = _
  rw [Styles.ofJson?, values?_typed hf (by simp) (by simp), hf.values_obj (by simp)]
  simp [lookup_cons, required, hentries, Span.ofJson_arranged hf]

theorem Scene.ofJson_arranged {s : Scene} (hparts : ∀ m ∈ (item (.scene s)).children, m.IsRead f) :
    Scene.ofJson? (f (Item.toJson (.scene s))) = some s := by
  have hsteps : list? Step.ofJson? (f (.arr (s.steps.map Step.toJson))) = some s.steps :=
    hf.list fun t ht => by
      obtain ⟨k, hk⟩ := List.mem_iff_getElem?.1 ht
      exact hparts (step ((s.steps.take k).map Step.name) t)
        (List.mem_map.2 ⟨(t, k), List.mem_zipIdx_iff_getElem?.2 hk, rfl⟩)
  change Scene.ofJson? (f (.typed "Scene" _)) = _
  rw [Scene.ofJson?, values?_typed hf (by simp) (by simp), hf.values_obj (by simp)]
  simp [lookup_cons, required, hsteps, optionalText_arranged hf, Span.ofJson_arranged hf]

theorem Binding.ofJson_arranged {b : Binding} (h : (binding b).IsRead f) :
    Binding.ofJson? (f (Item.toJson (.binding b))) = some b := by
  have hplain : Binding.ofJson? (f (.obj b.fields)) = some b := h
  change Binding.ofJson? (f (.typed "Binding" b.fields)) = _
  rw [← hplain, Binding.ofJson?, Binding.ofJson?,
    values?_typed hf (by simp [Binding.fields]) (by simp)]

theorem Plugin.ofJson_arranged {p : Plugin} (hparts : ∀ m ∈ (item (.plugin p)).children, m.IsRead f) :
    Plugin.ofJson? (f (Item.toJson (.plugin p))) = some p := by
  have hoptions := option_arranged hf (o := p.options) fun m hm => hparts m hm
  change Plugin.ofJson? (f (.typed "Plugin" _)) = _
  rw [Plugin.ofJson?, values?_typed hf (by simp) (by simp), hf.values_obj (by simp)]
  simp [lookup_cons, required, hoptions, text?_arranged hf, optionalText_arranged hf,
    Span.ofJson_arranged hf]

theorem UnknownBlock.ofJson_arranged (u : UnknownBlock) :
    UnknownBlock.ofJson? (f (Item.toJson (.unknown u))) = some u := by
  change UnknownBlock.ofJson? (f (.typed "Unknown" _)) = _
  rw [UnknownBlock.ofJson?, values?_typed hf (by simp) (by simp), hf.values_obj (by simp)]
  simp [lookup_cons, required, text?_arranged hf, Span.ofJson_arranged hf]

theorem isRead_item {i : Item} (hparts : ∀ m ∈ (item i).children, m.IsRead f) : (item i).IsRead f := by
  intro fuel hfuel
  obtain ⟨fuel, rfl⟩ : ∃ k, fuel = k + 1 := ⟨fuel - 1, by have := depth_pos (j := f i.toJson); omega⟩
  rw [Item.ofJsonWithin]
  have htagged : ∀ tag fields, i.toJson = .typed tag fields →
      ("type" :: fields.map Prod.fst).Nodup → tag ∈ Item.tags →
        tagged? "type" (tagOf? Item.tags) (f i.toJson) = some (tag, f i.toJson) := by
    intro tag fields hi hnodup htag
    rw [hi, tagged?_typed hf hnodup htag]
  cases i with
  | deck items span =>
    -- A deck alone holds declarations, which lie two levels below it
    have harr : (f (.arr (items.map Item.toJson))).depth < (f (Item.toJson (.deck items span))).depth := by
      rw [Item.toJson, Item.listToJson_eq]
      exact depth_lt_of_typed hf (by simp) (show lookup "items" _ = _ from rfl)
    have hitems : list? (Item.ofJsonWithin fuel) (f (.arr (items.map Item.toJson))) = some items :=
      hf.list fun i hi => hparts (item i) (List.mem_map_of_mem hi) fuel (by
        have := hf.depth_lt_of_mem (List.mem_map_of_mem (f := Item.toJson) hi)
        omega)
    rw [htagged _ _ rfl (by simp) (by simp [Item.tags]), Item.toJson, Item.listToJson_eq]
    simp [values?_typed hf, hf.values_obj, lookup_cons, required, hitems, Span.ofJson_arranged hf]
  | diagram d =>
    rw [htagged _ _ rfl (by simp) (by simp [Item.tags])]
    simp [Diagram.ofJson_arranged hf hparts]
  | runtime r =>
    rw [htagged _ _ rfl (by simp) (by simp [Item.tags])]
    simp [Runtime.ofJson_arranged hf hparts]
  | selectors s =>
    rw [htagged _ _ rfl (by simp) (by simp [Item.tags])]
    simp [Selectors.ofJson_arranged hf hparts]
  | styles s =>
    rw [htagged _ _ rfl (by simp) (by simp [Item.tags])]
    simp [Styles.ofJson_arranged hf hparts]
  | define d =>
    have hread := Definition.ofJson_arranged hf "Const" (hparts (expr d.value) (by simp [children]))
    rw [htagged _ _ rfl (by simp [Definition.fields]) (by simp [Item.tags])]
    simp [Item.toJson, hread]
  | scene s =>
    rw [htagged _ _ rfl (by simp) (by simp [Item.tags])]
    simp [Scene.ofJson_arranged hf hparts]
  | binding b =>
    rw [htagged _ _ rfl (by simp [Binding.fields]) (by simp [Item.tags])]
    simp [Binding.ofJson_arranged hf (hparts (binding b) (by simp [children]))]
  | plugin p =>
    rw [htagged _ _ rfl (by simp) (by simp [Item.tags])]
    simp [Plugin.ofJson_arranged hf hparts]
  | metadata m =>
    have hread := Metadata.ofJson_arranged hf "Meta" (m := m) fun n hn => hparts n hn
    rw [htagged _ _ rfl (by simp [Metadata.fields]) (by simp [Item.tags])]
    simp [Item.toJson, hread]
  | unknown u =>
    rw [htagged _ _ rfl (by simp) (by simp [Item.tags])]
    simp [UnknownBlock.ofJson_arranged hf u]

/-! ## Whole trees -/

/-- A node is read from its form, if its numbers are finite. -/
theorem isRead {n : Node} (hfinite : n.IsFinite) : n.IsRead f := by
  induction n using induction_children with
  | h n ih =>
    obtain ⟨hself, hbelow⟩ := isFinite_iff.1 hfinite
    have hparts : ∀ m ∈ n.children, m.IsRead f := fun m hm => ih m hm (hbelow m hm)
    cases n with
    | item i => exact isRead_item hf hparts
    | step earlier s => exact isRead_step hf hparts
    | binding b => exact isRead_binding hf hparts
    | rule r => exact isRead_rule hf hself hparts
    | statement s => exact isRead_statement hf hparts
    | expr e => exact isRead_expr hf hself hparts
    | target t => exact isRead_target hf hparts

end Node

section Programs

variable {f : Json → Json} (hf : Arrangement f)
include hf

theorem Item.hasNamedTag_arranged (i : Item) : Item.hasNamedTag (f i.toJson) = true := by
  have htyped : ∀ tag fields, i.toJson = .typed tag fields →
      ("type" :: fields.map Prod.fst).Nodup → Item.hasNamedTag (f i.toJson) = true := by
    intro tag fields hi hnodup
    have hnodup' : ((("type", Json.str tag) :: fields).map Prod.fst).Nodup := hnodup
    obtain ⟨gs, hgs, hlookup⟩ := hf.exists_obj hnodup'
    rw [hi, Json.typed, hgs, Item.hasNamedTag, hlookup, lookup_cons, if_pos rfl, Option.map_some, hf.str]
    rfl
  cases i with
  | define d => exact htyped _ _ rfl (by simp [Definition.fields])
  | binding b => exact htyped _ _ rfl (by simp [Binding.fields])
  | metadata m => exact htyped _ _ rfl (by simp [Metadata.fields])
  | _ => exact htyped _ _ rfl (by simp)

theorem Version.ofJson_arranged (v : Version) : Version.ofJson? (f v.toJson) = some v := by
  have hparts : list? nat? (f (.arr (v.parts.map .nat))) = some v.parts :=
    hf.list fun n _ => nat?_arranged hf n
  rw [Version.ofJson?, Version.toJson, hf.values_obj (by simp)]
  simp [lookup_cons, required, hparts, text?_arranged hf, Span.ofJson_arranged hf]

/-- A program is read from its form, however the fields of its objects are arranged. -/
theorem Program.ofJson_arranged {p : Program} (hfinite : p.IsFinite) :
    Program.ofJson? (f p.toJson) = some p := by
  have hitems : list? Item.ofJson? (f (.arr (p.items.map Item.toJson))) = some p.items :=
    hf.list fun i hi => by
      rw [Item.ofJson?, if_pos (Item.hasNamedTag_arranged hf i)]
      exact Node.isRead hf (Program.isFinite_iff.1 hfinite i hi) _ le_rfl
  rw [Program.ofJson?, Program.toJson, Item.listToJson_eq, hf.values_obj (by simp)]
  simp [lookup_cons, required, Version.ofJson_arranged hf, hitems, Span.ofJson_arranged hf]

end Programs

/-- A program is read from its JSON form, as it was written and as a map; and it is the only one that
has that form. -/
theorem programs_survive_json {p : Program} (hfinite : p.IsFinite) :
    Program.ofJson? p.toJson = some p ∧ Program.ofJson? p.toJson.settle = some p ∧
      ∀ q : Program, q.IsFinite → q.toJson.settle = p.toJson.settle → q = p := by
  have hread : ∀ q : Program, q.IsFinite → Program.ofJson? q.toJson.settle = some q := fun q hq =>
    Program.ofJson_arranged Arrangement.settle hq
  refine ⟨Program.ofJson_arranged Arrangement.refl hfinite, hread p hfinite, fun q hq hsame => ?_⟩
  have hq' := hread q hq
  rw [hsame, hread p hfinite] at hq'
  exact (Option.some.inj hq').symm

/-- A deck that defines a number. -/
theorem deck_survives_json :
    let p : Program := ⟨⟨"1.0", [1, 0], default⟩,
      [.deck [.define ⟨"n", .literal ⟨.int 3, "3"⟩ default, default⟩] default], default⟩
    p.IsFinite ∧ Program.ofJson? p.toJson = some p ∧ Program.ofJson? p.toJson.settle = some p := by
  intro p
  have hfinite : p.IsFinite := by
    simp [p, Program.IsFinite, Program.nodes, Node.all_eq, Node.children, Node.isFinite, Literal.isFinite]
  have hread := programs_survive_json hfinite
  exact ⟨hfinite, hread.1, hread.2.1⟩

end DiagramTour
