import DiagramTour.Program.Audit

/-!
# The targets of a program

All the targets that a program writes, wherever they stand: what a rule listens on, where the camera
looks, what is named, and what an expression mentions.  The audit looks at every one of them, so a
program that passes it holds none that fails.
-/

namespace DiagramTour

/-- What holds of a target if it holds of its parts, holds of every target. -/
@[elab_as_elim]
theorem Target.induction_parts {P : Target → Prop}
    (element : ∀ kind ref span, P (.element kind ref span)) (edge : ∀ ref span, P (.edge ref span))
    (matching : ∀ key value span, P (.matching key value span))
    (several : ∀ how members span, (∀ t ∈ members, P t) → P (.several how members span))
    (except : ∀ base removed span, P base → P removed → P (.except base removed span))
    (t : Target) : P t :=
  @Target.rec P (fun ts => ∀ t ∈ ts, P t) element edge matching several except (by simp)
    (by simp_all) t

/-! ## Targets -/

namespace Expr

mutual

/-- The targets in an expression, in source order. -/
def targets : Expr → List Target
  | literal _ _ | var _ _ => []
  | object entries _ => entriesTargets entries
  | array items _ => itemsTargets items
  | call ⟨_, args⟩ _ => argsTargets args
  | unary _ operand _ => operand.targets
  | binary _ left right _ => left.targets ++ right.targets
  | target t _ => [t]

/-- The targets in entries. -/
def entriesTargets : List (Entry Expr) → List Target
  | [] => []
  | ⟨_, value, _⟩ :: rest => value.targets ++ entriesTargets rest

/-- The targets in items. -/
def itemsTargets : List Expr → List Target
  | [] => []
  | e :: rest => e.targets ++ itemsTargets rest

/-- The targets in arguments. -/
def argsTargets : List (Argument Expr) → List Target
  | [] => []
  | ⟨_, value⟩ :: rest => value.targets ++ argsTargets rest

end

/-- The targets in an expression that may be missing. -/
def optionTargets (e : Option Expr) : List Target :=
  e.toList.flatMap targets

end Expr

/-- The targets of a statement. -/
def Statement.targets (s : Statement) : List Target :=
  match s.kind with
  | .focus f => f.target :: (Expr.optionTargets f.pad ++ Expr.optionTargets f.lock)
  | .call c => Expr.argsTargets c.args
  | .define d => d.value.targets
  | .assert condition message => condition.targets ++ Expr.optionTargets message
  | .metadata m => Expr.entriesTargets m.entries

/-- The targets of a rule. -/
def Rule.targets (r : Rule) : List Target :=
  r.target.toList ++ Expr.optionTargets r.guard ++ r.actions.flatMap Statement.targets

/-- The targets of a binding. -/
def Binding.targets (b : Binding) : List Target :=
  b.rules.flatMap Rule.targets

/-- The targets of a step. -/
def Step.targets (s : Step) : List Target :=
  s.statements.flatMap Statement.targets ++ s.bindings.flatMap Binding.targets

mutual

/-- The targets of a declaration, in decks of any depth. -/
def Item.targets : Item → List Target
  | .deck items _ => Item.allTargets items
  | .diagram d => Expr.optionTargets d.config ++ Expr.optionTargets d.assets
  | .runtime r => r.sections.flatMap fun s => Expr.entriesTargets s.entries
  | .selectors s => s.entries.map Selector.target
  | .styles s => Expr.entriesTargets s.entries
  | .define d => d.value.targets
  | .scene s => s.steps.flatMap Step.targets
  | .binding b => b.targets
  | .plugin p => Expr.optionTargets p.options
  | .metadata m => Expr.entriesTargets m.entries
  | .unknown _ => []

/-- The targets of declarations. -/
def Item.allTargets : List Item → List Target
  | [] => []
  | i :: is => i.targets ++ Item.allTargets is

end

/-- The targets of a program. -/
def Program.targets (p : Program) : List Target :=
  Item.allTargets p.items

theorem Item.allTargets_eq (items : List Item) :
    Item.allTargets items = items.flatMap Item.targets := by
  induction items with
  | nil => rfl
  | cons i is ih => rw [Item.allTargets, ih, List.flatMap_cons]

/-- The targets of a program are those of the declarations that make up the tour. -/
theorem Program.targets_eq (p : Program) : p.targets = p.deckItems.flatMap Item.targets := by
  rw [targets, Item.allTargets_eq, deckItems, List.flatMap_assoc]
  congr 1
  funext i
  cases i <;> simp [Item.targets, Item.allTargets_eq]

/-! ## The audit of targets -/

namespace Expr

mutual

/-- An expression is audited for its targets and nothing else. -/
theorem audit_eq : ∀ e : Expr, e.audit = e.targets.flatMap Target.audit
  | literal _ _ | var _ _ => rfl
  | object entries _ => auditEntries_eq entries
  | array items _ => auditItems_eq items
  | call ⟨_, args⟩ _ => auditArgs_eq args
  | unary _ operand _ => audit_eq operand
  | binary _ left right _ => by
    simp only [audit, targets, List.flatMap_append, audit_eq left, audit_eq right]
  | target t _ => by simp [audit, targets]

theorem auditEntries_eq : ∀ entries : List (Entry Expr),
    auditEntries entries = (entriesTargets entries).flatMap Target.audit
  | [] => rfl
  | ⟨_, value, _⟩ :: rest => by
    simp only [auditEntries, entriesTargets, List.flatMap_append, audit_eq value,
      auditEntries_eq rest]

theorem auditItems_eq : ∀ items : List Expr,
    auditItems items = (itemsTargets items).flatMap Target.audit
  | [] => rfl
  | e :: rest => by
    simp only [auditItems, itemsTargets, List.flatMap_append, audit_eq e, auditItems_eq rest]

theorem auditArgs_eq : ∀ args : List (Argument Expr),
    auditArgs args = (argsTargets args).flatMap Target.audit
  | [] => rfl
  | ⟨_, value⟩ :: rest => by
    simp only [auditArgs, argsTargets, List.flatMap_append, audit_eq value, auditArgs_eq rest]

end

theorem auditOption_eq (e : Option Expr) :
    auditOption e = (optionTargets e).flatMap Target.audit := by
  cases e with
  | none => rfl
  | some e => simp [auditOption, optionTargets, audit_eq]

end Expr

theorem Statement.audit_eq (s : Statement) : s.audit = s.targets.flatMap Target.audit := by
  obtain ⟨kind, span⟩ := s
  cases kind <;> simp [audit, targets, Expr.audit_eq, Expr.auditEntries_eq, Expr.auditArgs_eq,
    Expr.auditOption_eq]

/-- What is audited for its targets one by one is audited for them all. -/
theorem flatMap_audit {α : Type} {audit : α → List Diagnostic} {targets : α → List Target}
    (h : ∀ a, audit a = (targets a).flatMap Target.audit) (l : List α) :
    l.flatMap audit = (l.flatMap targets).flatMap Target.audit := by
  rw [List.flatMap_assoc, funext h]

theorem Rule.audit_eq (r : Rule) : r.audit = r.targets.flatMap Target.audit := by
  rw [audit, targets, List.flatMap_append, List.flatMap_append, Expr.auditOption_eq,
    flatMap_audit Statement.audit_eq]
  cases r.target <;> simp

theorem Binding.audit_eq (b : Binding) : b.audit = b.targets.flatMap Target.audit :=
  flatMap_audit Rule.audit_eq b.rules

theorem Step.audit_eq (s : Step) : s.audit = s.targets.flatMap Target.audit := by
  rw [audit, targets, List.flatMap_append, flatMap_audit Statement.audit_eq,
    flatMap_audit Binding.audit_eq]

/-- What is wrong with a target of a step is found, whatever steps come before it. -/
theorem mem_auditSteps {steps : List Step} {d : Diagnostic} (seen : List String)
    (h : d ∈ (steps.flatMap Step.targets).flatMap Target.audit) : d ∈ auditSteps seen steps := by
  induction steps generalizing seen with
  | nil => simp at h
  | cons s rest ih =>
    rw [List.flatMap_cons, List.flatMap_append, ← s.audit_eq] at h
    simp only [auditSteps, List.mem_append]
    rcases List.mem_append.1 h with h | h
    · exact .inl (.inr h)
    · exact .inr (ih _ h)

mutual

/-- What is wrong with a target of a declaration is found. -/
theorem Item.mem_audit {d : Diagnostic} : ∀ i : Item, d ∈ i.targets.flatMap Target.audit → d ∈ i.audit
  | .deck items _ => Item.mem_auditAll items
  | .diagram g => by simp [Item.targets, Item.audit, Expr.auditOption_eq]
  | .runtime r => by simp [Item.targets, Item.audit, Expr.auditEntries_eq, List.flatMap_assoc]
  | .selectors s => by simp [Item.targets, Item.audit, List.flatMap_map]
  | .styles s => by simp [Item.targets, Item.audit, Expr.auditEntries_eq]
  | .define e => by simp [Item.targets, Item.audit, Expr.audit_eq]
  | .scene s => mem_auditSteps []
  | .binding b => by simp [Item.targets, Item.audit, Binding.audit_eq]
  | .plugin p => by simp [Item.targets, Item.audit, Expr.auditOption_eq]
  | .metadata m => by simp [Item.targets, Item.audit, Expr.auditEntries_eq]
  | .unknown u => by simp [Item.targets]

theorem Item.mem_auditAll {d : Diagnostic} : ∀ items : List Item,
    d ∈ (Item.allTargets items).flatMap Target.audit → d ∈ Item.auditAll items
  | [], h => h
  | i :: is, h => by
    rw [Item.allTargets, List.flatMap_append] at h
    exact List.mem_append.2 ((List.mem_append.1 h).imp (Item.mem_audit i) (Item.mem_auditAll is))

end

/-- Everything that the audit says of a target is an error. -/
theorem Target.isError_of_mem_audit {d : Diagnostic} (t : Target) (h : d ∈ t.audit) :
    d.isError = true := by
  induction t using Target.induction_parts with
  | element kind ref span => simp [audit] at h
  | edge ref span =>
    cases ref with
    | byId ref => simp [audit] at h
    | between source destination =>
      rw [audit, List.mem_ite_nil_right, List.mem_singleton] at h
      rw [h.2]
      rfl
  | matching key value span =>
    rw [audit, List.mem_ite_nil_right, List.mem_singleton] at h
    rw [h.2]
    rfl
  | several how members span ih =>
    rw [audit] at h
    induction members with
    | nil => simp [auditMembers] at h
    | cons t ts iht =>
      rw [auditMembers, List.mem_append] at h
      rcases h with h | h
      · exact ih t (by simp) h
      · exact iht (fun u hu => ih u (by simp [hu])) h
  | except base removed span ihbase ihremoved =>
    rw [audit, List.mem_append, List.mem_append, List.mem_ite_nil_right, List.mem_singleton] at h
    rcases h with (⟨-, h⟩ | h) | h
    · rw [h]
      rfl
    · exact ihbase h
    · exact ihremoved h

/-- In a program that passes the audit every target does. -/
theorem Program.audit_targets {p : Program} (h : hasErrors p.audit = false) :
    ∀ t ∈ p.targets, t.audit = [] := by
  intro t ht
  refine List.eq_nil_iff_forall_not_mem.2 fun d hd => ?_
  have hfound : d ∈ p.audit :=
    List.mem_append_right _ (Item.mem_auditAll _ (List.mem_flatMap.2 ⟨t, ht, hd⟩))
  rw [hasErrors, List.any_eq_false] at h
  exact h d hfound (t.isError_of_mem_audit hd)

end DiagramTour
