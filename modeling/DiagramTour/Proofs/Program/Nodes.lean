import DiagramTour.Program.Audit
import Mathlib.Data.List.Basic

/-!
# The nodes of a program

Whatever a program consists of is a node of its tree, and every node stands in the tree as often as it
was written.  The audit looks at each of them once: what it reports is what is wrong with the nodes one
by one, in source order.

## Architecture

- `Node.children` are the parts of a node, and `Program.nodes` are all nodes, each before its parts.
- `Node.faults` is what is wrong with a node by itself, whatever stands below it.
- `Node.audit_eq` takes the audit of a node one level down; `Program.audit_eq` goes all the way.
- `Program.audit_finds_each_once` sorts what is reported by its code.
-/

namespace DiagramTour

/-- A part of a syntax tree in which a target can stand. -/
inductive Node where
  | item (item : Item)
  /-- A step, with the names of the steps before it in its scene. -/
  | step (earlier : List String) (step : Step)
  | binding (binding : Binding)
  | rule (rule : Rule)
  | statement (statement : Statement)
  | expr (expr : Expr)
  | target (target : Target)

namespace Node

/-! ## Parts -/

/-- The parts of a node, in source order. -/
def children : Node → List Node
  | item (.deck items _) => items.map item
  | item (.diagram d) => d.config.toList.map expr ++ d.assets.toList.map expr
  | item (.runtime r) => r.sections.flatMap fun s => s.entries.map fun e => expr e.value
  | item (.selectors s) => s.entries.map fun e => target e.target
  | item (.styles s) => s.entries.map fun e => expr e.value
  | item (.define d) => [expr d.value]
  | item (.scene s) => s.steps.zipIdx.map fun t => step ((s.steps.take t.2).map Step.name) t.1
  | item (.binding b) => [binding b]
  | item (.plugin p) => p.options.toList.map expr
  | item (.metadata m) => m.entries.map fun e => expr e.value
  | item (.unknown _) => []
  | step _ s => s.statements.map statement ++ s.bindings.map binding
  | binding b => b.rules.map rule
  | rule r => r.target.toList.map target ++ r.guard.toList.map expr ++ r.actions.map statement
  | statement ⟨.focus f, _⟩ => target f.target :: (f.pad.toList.map expr ++ f.lock.toList.map expr)
  | statement ⟨.call c, _⟩ => c.args.map fun a => expr a.value
  | statement ⟨.define d, _⟩ => [expr d.value]
  | statement ⟨.assert condition message, _⟩ => expr condition :: message.toList.map expr
  | statement ⟨.metadata m, _⟩ => m.entries.map fun e => expr e.value
  | expr (.literal _ _) | expr (.var _ _) => []
  | expr (.object entries _) => entries.map fun e => expr e.value
  | expr (.array items _) => items.map expr
  | expr (.call c _) => c.args.map fun a => expr a.value
  | expr (.unary _ operand _) => [expr operand]
  | expr (.binary _ left right _) => [expr left, expr right]
  | expr (.target t _) => [target t]
  | target (.several _ members _) => members.map target
  | target (.except base removed _) => [target base, target removed]
  | target (.element _ _ _) | target (.edge _ _) | target (.matching _ _ _) => []

/-- The size of what a node stands for. -/
noncomputable def size : Node → Nat
  | item i => sizeOf i
  | step _ s => sizeOf s
  | binding b => sizeOf b
  | rule r => sizeOf r
  | statement s => sizeOf s
  | expr e => sizeOf e
  | target t => sizeOf t

variable {n m : Node}

private theorem size_lt_of_mem_map {α : Type} [SizeOf α] {f : α → Node} {as : List α}
    (hf : ∀ a, (f a).size ≤ sizeOf a) (h : m ∈ as.map f) : m.size < sizeOf as := by
  obtain ⟨a, ha, rfl⟩ := List.mem_map.1 h
  exact Nat.lt_of_le_of_lt (hf a) (List.sizeOf_lt_of_mem ha)

private theorem size_lt_of_mem_toList {α : Type} [SizeOf α] {f : α → Node} {o : Option α}
    (hf : ∀ a, (f a).size ≤ sizeOf a) (h : m ∈ o.toList.map f) : m.size < sizeOf o := by
  cases o with
  | none => simp at h
  | some a =>
    obtain rfl : m = f a := by simpa using h
    have := hf a
    simp only [Option.some.sizeOf_spec]
    omega

private theorem size_value_le (e : Entry Expr) : (expr e.value).size ≤ sizeOf e := by
  cases e
  simp only [size, Entry.mk.sizeOf_spec]
  omega

private theorem size_argument_le (a : Argument Expr) : (expr a.value).size ≤ sizeOf a := by
  cases a
  simp only [size, Argument.mk.sizeOf_spec]
  omega

private theorem size_selector_le (s : Selector) : (target s.target).size ≤ sizeOf s := by
  cases s
  simp only [size, Selector.mk.sizeOf_spec]
  omega

private theorem size_lt_of_mem_values {entries : List (Entry Expr)}
    (h : m ∈ entries.map fun e => expr e.value) : m.size < sizeOf entries :=
  size_lt_of_mem_map size_value_le h

private theorem size_lt_of_mem_arguments {args : List (Argument Expr)}
    (h : m ∈ args.map fun a => expr a.value) : m.size < sizeOf args :=
  size_lt_of_mem_map size_argument_le h

private theorem size_lt_of_mem_option {o : Option Expr} (h : m ∈ o.toList.map expr) :
    m.size < sizeOf o :=
  size_lt_of_mem_toList (fun _ => Nat.le_refl _) h

private theorem size_lt_of_item {i : Item} (h : m ∈ (item i).children) : m.size < sizeOf i := by
  cases i with
  | deck items span =>
    have := size_lt_of_mem_map (f := item) (fun _ => Nat.le_refl _) h
    simp only [Item.deck.sizeOf_spec]
    omega
  | diagram d =>
    cases d
    have := (List.mem_append.1 h).imp size_lt_of_mem_option size_lt_of_mem_option
    simp only [Item.diagram.sizeOf_spec, Diagram.mk.sizeOf_spec] at this ⊢
    omega
  | runtime r =>
    obtain ⟨sections, span⟩ := r
    obtain ⟨⟨kind, entries, place⟩, hs, hm⟩ := List.mem_flatMap.1 h
    have := size_lt_of_mem_values hm
    have := List.sizeOf_lt_of_mem hs
    simp only [Item.runtime.sizeOf_spec, Runtime.mk.sizeOf_spec, RuntimeSection.mk.sizeOf_spec] at *
    omega
  | selectors s =>
    cases s
    have := size_lt_of_mem_map size_selector_le h
    simp only [Item.selectors.sizeOf_spec, Selectors.mk.sizeOf_spec] at this ⊢
    omega
  | styles s =>
    cases s
    have := size_lt_of_mem_values h
    simp only [Item.styles.sizeOf_spec, Styles.mk.sizeOf_spec] at this ⊢
    omega
  | define d =>
    cases d
    obtain rfl := List.mem_singleton.1 h
    simp only [size, Item.define.sizeOf_spec, Definition.mk.sizeOf_spec]
    omega
  | scene s =>
    obtain ⟨name, steps, span⟩ := s
    obtain ⟨⟨t, k⟩, ht, rfl⟩ := List.mem_map.1 h
    have := List.sizeOf_lt_of_mem (List.fst_mem_of_mem_zipIdx ht)
    simp only [size, Item.scene.sizeOf_spec, Scene.mk.sizeOf_spec] at this ⊢
    omega
  | binding b =>
    obtain rfl := List.mem_singleton.1 h
    simp only [size, Item.binding.sizeOf_spec]
    omega
  | plugin p =>
    cases p
    have := size_lt_of_mem_option h
    simp only [Item.plugin.sizeOf_spec, Plugin.mk.sizeOf_spec] at this ⊢
    omega
  | metadata d =>
    cases d
    have := size_lt_of_mem_values h
    simp only [Item.metadata.sizeOf_spec, Metadata.mk.sizeOf_spec] at this ⊢
    omega
  | unknown u => simp [children] at h

private theorem size_lt_of_statement {s : Statement} (h : m ∈ (statement s).children) :
    m.size < sizeOf s := by
  obtain ⟨kind, span⟩ := s
  cases kind with
  | focus f =>
    cases f
    rcases List.mem_cons.1 h with rfl | h
    · simp only [size, Statement.mk.sizeOf_spec, StatementKind.focus.sizeOf_spec, Focus.mk.sizeOf_spec]
      omega
    · have := (List.mem_append.1 h).imp size_lt_of_mem_option size_lt_of_mem_option
      simp only [Statement.mk.sizeOf_spec, StatementKind.focus.sizeOf_spec, Focus.mk.sizeOf_spec] at this ⊢
      omega
  | call c =>
    cases c
    have := size_lt_of_mem_arguments h
    simp only [Statement.mk.sizeOf_spec, StatementKind.call.sizeOf_spec, Call.mk.sizeOf_spec] at this ⊢
    omega
  | define d =>
    cases d
    obtain rfl := List.mem_singleton.1 h
    simp only [size, Statement.mk.sizeOf_spec, StatementKind.define.sizeOf_spec, Definition.mk.sizeOf_spec]
    omega
  | assert condition message =>
    simp only [Statement.mk.sizeOf_spec, StatementKind.assert.sizeOf_spec]
    rcases List.mem_cons.1 h with rfl | h
    · simp only [size]
      omega
    · have := size_lt_of_mem_option h
      omega
  | metadata d =>
    cases d
    have := size_lt_of_mem_values h
    simp only [Statement.mk.sizeOf_spec, StatementKind.metadata.sizeOf_spec, Metadata.mk.sizeOf_spec] at this ⊢
    omega

private theorem size_lt_of_expr {e : Expr} (h : m ∈ (expr e).children) : m.size < sizeOf e := by
  cases e with
  | literal value span => simp [children] at h
  | var path span => simp [children] at h
  | object entries span =>
    have := size_lt_of_mem_values h
    simp only [Expr.object.sizeOf_spec]
    omega
  | array items span =>
    have := size_lt_of_mem_map (f := expr) (fun _ => Nat.le_refl _) h
    simp only [Expr.array.sizeOf_spec]
    omega
  | call c span =>
    cases c
    have := size_lt_of_mem_arguments h
    simp only [Expr.call.sizeOf_spec, Call.mk.sizeOf_spec] at this ⊢
    omega
  | unary op operand span =>
    obtain rfl := List.mem_singleton.1 h
    simp only [size, Expr.unary.sizeOf_spec]
    omega
  | binary op left right span =>
    simp only [children, List.mem_cons, List.not_mem_nil, or_false] at h
    rcases h with rfl | rfl
    all_goals
      simp only [size, Expr.binary.sizeOf_spec]
      omega
  | target t span =>
    obtain rfl := List.mem_singleton.1 h
    simp only [size, Expr.target.sizeOf_spec]
    omega

/-- The parts of a node are smaller than the node. -/
theorem size_lt_of_mem_children (h : m ∈ n.children) : m.size < n.size := by
  cases n with
  | item i => exact size_lt_of_item h
  | step earlier s =>
    cases s
    have := (List.mem_append.1 h).imp (size_lt_of_mem_map (f := statement) fun _ => Nat.le_refl _)
      (size_lt_of_mem_map (f := binding) fun _ => Nat.le_refl _)
    simp only [size, Step.mk.sizeOf_spec] at this ⊢
    omega
  | binding b =>
    cases b
    have := size_lt_of_mem_map (f := rule) (fun _ => Nat.le_refl _) h
    simp only [size, Binding.mk.sizeOf_spec] at this ⊢
    omega
  | rule r =>
    cases r
    simp only [children, List.mem_append] at h
    rcases h with (h | h) | h
    · have := size_lt_of_mem_toList (f := target) (fun _ => Nat.le_refl _) h
      simp only [size, Rule.mk.sizeOf_spec] at this ⊢
      omega
    · have := size_lt_of_mem_option h
      simp only [size, Rule.mk.sizeOf_spec] at this ⊢
      omega
    · have := size_lt_of_mem_map (f := statement) (fun _ => Nat.le_refl _) h
      simp only [size, Rule.mk.sizeOf_spec] at this ⊢
      omega
  | statement s => exact size_lt_of_statement h
  | expr e => exact size_lt_of_expr h
  | target t =>
    cases t with
    | several how members span =>
      have := size_lt_of_mem_map (f := target) (fun _ => Nat.le_refl _) h
      simp only [size, Target.several.sizeOf_spec] at this ⊢
      omega
    | except base removed span =>
      simp only [children, List.mem_cons, List.not_mem_nil, or_false] at h
      rcases h with rfl | rfl
      all_goals
        simp only [size, Target.except.sizeOf_spec]
        omega
    | _ => simp [children] at h

/-! ## The walk -/

/-- A node and all nodes below it, each before its parts. -/
def all (n : Node) : List Node :=
  n :: n.children.attach.flatMap fun m => m.1.all
termination_by n.size
decreasing_by exact size_lt_of_mem_children m.2

theorem all_eq (n : Node) : n.all = n :: n.children.flatMap all := by
  rw [all, ← List.flatMap_map (f := Subtype.val) (g := all), List.attach_map_subtype_val]

/-- What holds of a node if it holds of its parts, holds of every node. -/
@[elab_as_elim]
theorem induction_children {P : Node → Prop} (h : ∀ n : Node, (∀ m ∈ n.children, P m) → P n)
    (n : Node) : P n := by
  induction hsize : n.size using Nat.strongRecOn generalizing n with
  | _ k ih => exact h n fun m hm => ih m.size (hsize ▸ size_lt_of_mem_children hm) m rfl

/-- The target that a node is, if it is one. -/
def target? : Node → Option Target
  | target t => some t
  | _ => none

/-- The scene that a node is, if it is one. -/
def scene? : Node → Option Scene
  | item (.scene s) => some s
  | _ => none

/-- The block that a node is, if it is one that is not understood. -/
def unknown? : Node → Option UnknownBlock
  | item (.unknown u) => some u
  | _ => none

end Node

/-- All nodes of a program, each before its parts. -/
def Program.nodes (p : Program) : List Node :=
  p.items.flatMap fun i => (Node.item i).all

/-! ## Faults -/

/-- Whether a target is an edge by its two nodes, of which one is every node. -/
def Target.joinsWildcard : Target → Bool
  | edge (.between source destination) _ => source.isWildcard || destination.isWildcard
  | _ => false

/-- What a target compares with an empty text, if it does. -/
def Target.emptyKey? : Target → Option TextKey
  | matching key "" _ => some key
  | _ => none

/-- Whether a target is a difference of two wildcards. -/
def Target.isWildcardDifference : Target → Bool
  | except base removed _ => base.isWildcard && removed.isWildcard
  | _ => false

/-- The steps of a scene whose name is that of a step before. -/
def Scene.repeated (s : Scene) : List Step :=
  (s.steps.zipIdx.filter fun t => ((s.steps.take t.2).map Step.name).contains t.1.name).map Prod.fst

namespace Node

/-- What is wrong with a target by itself. -/
def targetFaults (t : Target) : List Diagnostic :=
  (if t.joinsWildcard then [⟨.edgeWildcard, t.span⟩] else []) ++
    (t.emptyKey?.toList.map fun key => ⟨.emptyTarget key.word, t.span⟩) ++
    (if t.isWildcardDifference then [⟨.wildcardDifference, t.span⟩] else [])

/-- What is wrong with a step among the steps of a scene. -/
def stepFaults (earlier : List String) (s : Step) : List Diagnostic :=
  if earlier.contains s.name then [⟨.duplicateStep s.name, s.span⟩] else []

/-- What is wrong with a node by itself, whatever stands below it. -/
def faults : Node → List Diagnostic
  | item (.unknown u) => [⟨.unknownBlock u.name, u.span⟩]
  | step earlier s => stepFaults earlier s
  | target t => targetFaults t
  | _ => []

/-! ## The audit -/

/-- The checks of a node. -/
def audit : Node → List Diagnostic
  | item i => i.audit
  | step earlier s => stepFaults earlier s ++ s.audit
  | binding b => b.audit
  | rule r => r.audit
  | statement s => s.audit
  | expr e => e.audit
  | target t => t.audit

theorem auditEntries_eq (entries : List (Entry Expr)) :
    Expr.auditEntries entries = (entries.map fun e => expr e.value).flatMap audit := by
  induction entries with
  | nil => rfl
  | cons e rest ih =>
    rw [Expr.auditEntries, ih]
    rfl

theorem auditItems_eq (items : List Expr) :
    Expr.auditItems items = (items.map expr).flatMap audit := by
  induction items with
  | nil => rfl
  | cons e rest ih =>
    rw [Expr.auditItems, ih]
    rfl

theorem auditArgs_eq (args : List (Argument Expr)) :
    Expr.auditArgs args = (args.map fun a => expr a.value).flatMap audit := by
  induction args with
  | nil => rfl
  | cons a rest ih =>
    rw [Expr.auditArgs, ih]
    rfl

theorem auditOption_eq (o : Option Expr) :
    Expr.auditOption o = (o.toList.map expr).flatMap audit := by
  cases o <;> simp [Expr.auditOption, audit]

theorem auditMembers_eq (members : List Target) :
    Target.auditMembers members = (members.map target).flatMap audit := by
  induction members with
  | nil => rfl
  | cons t rest ih =>
    rw [Target.auditMembers, ih]
    rfl

theorem auditAll_eq (items : List Item) :
    Item.auditAll items = (items.map item).flatMap audit := by
  induction items with
  | nil => rfl
  | cons i rest ih =>
    rw [Item.auditAll, ih]
    rfl

/-- The steps that are left are checked against those before them. -/
private theorem auditSteps_eq (before rest : List Step) :
    auditSteps (before.map Step.name).reverse rest = (rest.zipIdx before.length).flatMap fun t =>
      (step (((before ++ rest).take t.2).map Step.name) t.1).audit := by
  induction rest generalizing before with
  | nil => rfl
  | cons s rest ih =>
    -- The names of the steps before are kept in reverse, and are only searched
    have hnext := ih (before ++ [s])
    rw [List.map_append, List.reverse_append, List.length_append, List.append_assoc] at hnext
    have hseen : (before.map Step.name).reverse.contains s.name =
        (before.map Step.name).contains s.name := by
      simp [List.contains_eq_mem]
    rw [auditSteps, List.zipIdx_cons, List.flatMap_cons, hseen]
    simp only [List.take_left', audit, stepFaults]
    exact congrArg _ hnext

/-- The checks of a node are those of the node by itself, and then those of its parts. -/
theorem audit_eq (n : Node) : n.audit = n.faults ++ n.children.flatMap audit := by
  cases n with
  | item i =>
    cases i with
    | deck items span => exact auditAll_eq items
    | diagram d => simp [audit, Item.audit, faults, children, auditOption_eq]
    | runtime r => simp [audit, Item.audit, faults, children, auditEntries_eq, List.flatMap_assoc]
    | selectors s => simp [audit, Item.audit, faults, children, List.flatMap_map]
    | styles s => simp [audit, Item.audit, faults, children, auditEntries_eq]
    | define d => simp [audit, Item.audit, faults, children]
    | scene s =>
      have := auditSteps_eq [] s.steps
      simpa [audit, Item.audit, faults, children, List.flatMap_map] using this
    | binding b => simp [audit, Item.audit, faults, children]
    | plugin p => simp [audit, Item.audit, faults, children, auditOption_eq]
    | metadata d => simp [audit, Item.audit, faults, children, auditEntries_eq]
    | unknown u => rfl
  | step earlier s => simp [audit, faults, children, Step.audit, List.flatMap_map]
  | binding b => simp [audit, faults, children, Binding.audit, List.flatMap_map]
  | rule r =>
    obtain ⟨event, t, guard, actions, span⟩ := r
    cases t <;> simp [audit, faults, children, Rule.audit, auditOption_eq, List.flatMap_map]
  | statement s =>
    obtain ⟨kind, span⟩ := s
    cases kind <;>
      simp [audit, faults, children, Statement.audit, auditOption_eq, auditArgs_eq, auditEntries_eq]
  | expr e =>
    cases e <;>
      simp [audit, faults, children, Expr.audit, auditEntries_eq, auditItems_eq, auditArgs_eq]
  | target t =>
    cases t with
    | element kind ref span => rfl
    | edge ref span =>
      cases ref <;> simp [audit, faults, targetFaults, children, Target.audit, Target.joinsWildcard,
        Target.emptyKey?, Target.isWildcardDifference, Target.span]
    | matching key value span =>
      by_cases h : value = "" <;> simp [h, audit, faults, targetFaults, children, Target.audit,
        Target.joinsWildcard, Target.emptyKey?, Target.isWildcardDifference, Target.span]
    | several how members span =>
      simp [audit, faults, targetFaults, children, Target.audit, Target.joinsWildcard,
        Target.emptyKey?, Target.isWildcardDifference, auditMembers_eq]
    | except base removed span =>
      simp [audit, faults, targetFaults, children, Target.audit, Target.joinsWildcard,
        Target.emptyKey?, Target.isWildcardDifference, Target.span]

/-- The checks of a node are those of all nodes from it down. -/
theorem audit_eq_all (n : Node) : n.audit = n.all.flatMap faults := by
  induction n using induction_children with
  | h n ih =>
    rw [audit_eq, all_eq, List.flatMap_cons, List.flatMap_assoc]
    exact congrArg _ (List.flatMap_congr ih)

end Node

/-- The audit of a program reports what is wrong with its nodes one by one, after its version. -/
theorem Program.audit_eq (p : Program) :
    p.audit = p.version.audit ++ p.nodes.flatMap Node.faults := by
  rw [Program.audit, nodes, List.flatMap_assoc, Node.auditAll_eq, List.flatMap_map]
  exact congrArg _ (List.flatMap_congr fun i _ => (Node.item i).audit_eq_all)

/-! ## Scenes -/

/-- What is wrong with the steps of a scene, taken together. -/
def Scene.faults (s : Scene) : List Diagnostic :=
  s.repeated.map fun t => ⟨.duplicateStep t.name, t.span⟩

namespace Node

/-- Whether a node is a declaration. -/
def isItem : Node → Bool
  | item _ => true
  | _ => false

/-- Only declarations hold declarations. -/
theorem isItem_of_mem_children {n m : Node} (hn : n.isItem = false) (hm : m ∈ n.children) :
    m.isItem = false := by
  fun_cases children n <;> simp_all only [isItem, children, reduceCtorEq] <;> grind [isItem]

/-- Below what is no declaration there is no scene. -/
theorem filterMap_scene?_all {n : Node} (hn : n.isItem = false) : n.all.filterMap scene? = [] := by
  induction n using induction_children with
  | h n ih =>
    have hself : n.scene? = none := by cases n <;> simp_all [isItem, scene?]
    rw [all_eq, List.filterMap_cons_none hself, List.filterMap_flatMap, List.flatMap_eq_nil_iff]
    exact fun m hm => ih m hm (isItem_of_mem_children hn hm)

end Node

/-- Whether a diagnostic bears a code. -/
def Diagnostic.hasCode (code : String) (d : Diagnostic) : Bool :=
  d.problem.code == code

namespace Node

open Diagnostic

/-- Only a scene holds steps. -/
theorem ne_step_of_mem_children {n m : Node} (hn : n.scene? = none) (hm : m ∈ n.children)
    (earlier : List String) (s : Step) : m ≠ step earlier s := by
  rintro rfl
  fun_cases children n <;> simp_all [children, scene?]

/-- What is not a step has no other's name. -/
theorem repetitions_faults {n : Node} (hn : ∀ earlier s, n ≠ step earlier s) :
    n.faults.filter (hasCode "validate/duplicate-step") = [] := by
  cases n with
  | step earlier s => exact absurd rfl (hn earlier s)
  | target t =>
    rw [List.filter_eq_nil_iff]
    simp only [faults, targetFaults, List.mem_append, List.mem_map]
    rintro d ((h | ⟨key, -, rfl⟩) | h)
    · split at h <;> simp_all [hasCode, Problem.code]
    · simp [hasCode, Problem.code]
    · split at h <;> simp_all [hasCode, Problem.code]
  | item i => cases i <;> rfl
  | _ => rfl

/-- The steps of a scene that have the name of another are what is wrong with its parts. -/
theorem repetitions_children (s : Scene) :
    (item (.scene s)).children.flatMap (fun m => m.faults.filter (hasCode "validate/duplicate-step")) =
      s.faults := by
  have hstep : ∀ t : Step × Nat, (stepFaults ((s.steps.take t.2).map Step.name) t.1).filter
      (hasCode "validate/duplicate-step") =
        if ((s.steps.take t.2).map Step.name).contains t.1.name then
          [(⟨.duplicateStep t.1.name, t.1.span⟩ : Diagnostic)] else [] := by
    intro t
    unfold stepFaults
    split <;> rfl
  simp only [children, faults, List.flatMap_map, hstep, Scene.faults, Scene.repeated, List.map_map]
  induction s.steps.zipIdx with
  | nil => rfl
  | cons t rest ih => rw [List.flatMap_cons, List.filter_cons, ih]; split <;> rfl

theorem repetitions_all (n : Node) :
    (n.all.flatMap faults).filter (hasCode "validate/duplicate-step") =
      n.faults.filter (hasCode "validate/duplicate-step") ++
        (n.all.filterMap scene?).flatMap Scene.faults := by
  induction n using induction_children with
  | h n ih =>
    rw [all_eq, List.flatMap_cons, List.filter_append, List.flatMap_assoc, List.filter_flatMap]
    congr 1
    cases hn : n.scene? with
    | none =>
      -- no part is a step, so that whatever is reported stands further below
      rw [List.filterMap_cons_none hn, List.filterMap_flatMap, List.flatMap_assoc]
      refine List.flatMap_congr fun m hm => ?_
      rw [ih m hm, repetitions_faults (ne_step_of_mem_children hn hm), List.nil_append]
    | some s =>
      -- the parts are the steps, with no scene below them
      obtain rfl : n = item (.scene s) := by
        revert hn
        fun_cases scene? n <;> simp_all
      have hparts : ∀ m ∈ (item (.scene s)).children, m.all.filterMap scene? = [] := fun m hm => by
        obtain ⟨t, -, rfl⟩ := List.mem_map.1 hm
        exact filterMap_scene?_all rfl
      rw [List.filterMap_cons_some hn, List.filterMap_flatMap, List.flatMap_eq_nil_iff.2 hparts,
        List.flatMap_cons, List.flatMap_nil, List.append_nil, ← repetitions_children]
      refine List.flatMap_congr fun m hm => ?_
      rw [ih m hm, hparts m hm, List.flatMap_nil, List.append_nil]

/-- What bears a code among the faults of nodes is what every node contributes to it. -/
theorem filter_flatMap_faults {code : String} {report : Node → Option Diagnostic}
    (h : ∀ n : Node, n.faults.filter (hasCode code) = (report n).toList) (ns : List Node) :
    (ns.flatMap faults).filter (hasCode code) = ns.filterMap report := by
  rw [List.filter_flatMap]
  induction ns with
  | nil => rfl
  | cons n rest ih =>
    rw [List.flatMap_cons, ih, h]
    cases hn : report n with
    | none => rw [List.filterMap_cons_none hn]; rfl
    | some d => rw [List.filterMap_cons_some hn]; rfl

/-- What bears a code among the faults of nodes, if only targets have such faults. -/
theorem filter_flatMap_targets {code : String} {report : Target → Option Diagnostic}
    (h : ∀ t : Target, (targetFaults t).filter (hasCode code) = (report t).toList)
    (hstep : code ≠ "validate/duplicate-step") (hunknown : code ≠ "validate/unknown-block")
    (ns : List Node) :
    (ns.flatMap faults).filter (hasCode code) = (ns.filterMap target?).filterMap report := by
  rw [List.filterMap_filterMap]
  refine filter_flatMap_faults (fun n => ?_) ns
  cases n with
  | target t => exact h t
  | step earlier s =>
    simp only [faults, stepFaults]
    split
    · simp [hasCode, Problem.code, hstep.symm, target?]
    · rfl
  | item i =>
    cases i with
    | unknown u => simp [faults, hasCode, Problem.code, hunknown.symm, target?]
    | _ => rfl
  | _ => rfl

end Node

/-- What bears another code than that of the version is a fault of a node. -/
theorem Program.filter_audit (p : Program) {code : String} (hcode : code ≠ "validate/version-mismatch") :
    p.audit.filter (Diagnostic.hasCode code) =
      (p.nodes.flatMap Node.faults).filter (Diagnostic.hasCode code) := by
  have hversion : p.version.audit.filter (Diagnostic.hasCode code) = [] := by
    unfold Version.audit
    split
    · rfl
    · simp [Diagnostic.hasCode, Problem.code, hcode.symm]
  rw [Program.audit_eq, List.filter_append, hversion, List.nil_append]

open Node in
/-- The audit of a program finds every fault at every node where it is, and once there: an edge with
a wildcard, a comparison with an empty text, a difference of wildcards, a step with the name of a
step before it, and a block that is not understood. -/
theorem Program.audit_finds_each_once (p : Program) :
    p.audit.filter (Diagnostic.hasCode "validate/edge-wildcard") =
        ((p.nodes.filterMap target?).filter Target.joinsWildcard).map
          (fun t => ⟨.edgeWildcard, t.span⟩) ∧
      p.audit.filter (Diagnostic.hasCode "validate/empty-target") =
        (p.nodes.filterMap target?).filterMap
          (fun t => t.emptyKey?.map fun key => ⟨.emptyTarget key.word, t.span⟩) ∧
      p.audit.filter (Diagnostic.hasCode "validate/wildcard-except") =
        ((p.nodes.filterMap target?).filter Target.isWildcardDifference).map
          (fun t => ⟨.wildcardDifference, t.span⟩) ∧
      p.audit.filter (Diagnostic.hasCode "validate/duplicate-step") =
        (p.nodes.filterMap scene?).flatMap
          (fun s => s.repeated.map fun t => ⟨.duplicateStep t.name, t.span⟩) ∧
      p.audit.filter (Diagnostic.hasCode "validate/unknown-block") =
        (p.nodes.filterMap unknown?).map (fun u => ⟨.unknownBlock u.name, u.span⟩) := by
  refine ⟨?_, ?_, ?_, ?_, ?_⟩
  · rw [p.filter_audit (by decide), ← List.filterMap_eq_map, List.filterMap_filter]
    refine filter_flatMap_targets (fun t => ?_) (by decide) (by decide) _
    cases ht : t.joinsWildcard <;> cases ht' : t.isWildcardDifference <;>
      simp [targetFaults, ht, ht', Diagnostic.hasCode, Problem.code]
  · rw [p.filter_audit (by decide)]
    refine filter_flatMap_targets (fun t => ?_) (by decide) (by decide) _
    cases hkey : t.emptyKey? <;> cases ht : t.joinsWildcard <;> cases ht' : t.isWildcardDifference <;>
      simp [targetFaults, hkey, ht, ht', Diagnostic.hasCode, Problem.code]
  · rw [p.filter_audit (by decide), ← List.filterMap_eq_map, List.filterMap_filter]
    refine filter_flatMap_targets (fun t => ?_) (by decide) (by decide) _
    cases ht : t.joinsWildcard <;> cases ht' : t.isWildcardDifference <;>
      simp [targetFaults, ht, ht', Diagnostic.hasCode, Problem.code]
  · have hitem : ∀ i : Item, ((item i).all.flatMap faults).filter
        (Diagnostic.hasCode "validate/duplicate-step") =
          ((item i).all.filterMap scene?).flatMap Scene.faults := fun i => by
      rw [repetitions_all, repetitions_faults (n := item i) (fun _ _ => nofun), List.nil_append]
    -- Steps are compared within their scene, so their faults are collected scene by scene
    rw [p.filter_audit (by decide), Program.nodes, List.flatMap_assoc, List.filter_flatMap,
      List.filterMap_flatMap, List.flatMap_assoc]
    simp only [hitem]
    rfl
  · rw [p.filter_audit (by decide), ← List.filterMap_eq_map, List.filterMap_filterMap]
    refine filter_flatMap_faults (fun n => ?_) _
    cases n with
    | item i => cases i <;> rfl
    | step earlier s =>
      simp only [faults, stepFaults]
      split <;> rfl
    | target t =>
      cases hkey : t.emptyKey? <;> cases ht : t.joinsWildcard <;>
        cases ht' : t.isWildcardDifference <;>
        simp [faults, targetFaults, unknown?, hkey, ht, ht', Diagnostic.hasCode, Problem.code]
    | _ => rfl

end DiagramTour
