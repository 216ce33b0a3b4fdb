import DiagramTour.Proofs.Lower.Specs

/-!
# Reactions by priority

Which of several reactions to one event comes first is settled when a program is lowered: the blocks of
rules are sorted by priority, and the rules of a block stay together.

## Architecture

- `Reaction.Answers` says what a reaction has of the rule that it was lowered from.
- `Binding.AreRanked` says in which order blocks come.  It leaves no choice: the blocks of each priority
  are those of the source, in source order.
- `AreByPriority` puts both together for a list of reactions, and `reactions_by_priority` says that the
  reactions of a document and those of its stops are such lists.
-/

namespace DiagramTour

variable {scope : Scope}

/-! ## Reactions and rules -/

/-- Whether the rule names a kind of event that is known. -/
def Rule.isHeard (r : Rule) : Bool :=
  r.event.kind.isSome

/-- The reaction is what the rule becomes among these variables. -/
structure Reaction.Answers (scope : Scope) (a : Reaction) (r : Rule) : Prop where
  event : r.event.kind = some a.event
  anchor : a.anchor = r.target.map fun t => .spec t.toSpec
  key : a.key = r.event.key
  delayMs : a.delayMs = r.event.delay.bind Literal.delayMs?
  eventName : a.eventName = r.event.name
  actions : a.actions = (lowerStatements scope r.actions).value

theorem Rule.lower_answers (r : Rule) :
    List.Forall₂ (Reaction.Answers scope) (r.lower scope).value.toList ([r].filter Rule.isHeard) := by
  rw [r.lower_value]
  cases hkind : r.event.kind with
  | none =>
    rw [List.filter_cons_of_neg (by simp [Rule.isHeard, hkind])]
    exact .nil
  | some event =>
    rw [List.filter_cons_of_pos (by simp [Rule.isHeard, hkind])]
    exact .cons ⟨hkind, rfl, rfl, rfl, rfl, rfl⟩ .nil

/-- The rules with a known kind of event become reactions, one by one. -/
theorem lowerRules_answer (rs : List Rule) :
    List.Forall₂ (Reaction.Answers scope) (lowerRules scope rs).value (rs.filter Rule.isHeard) := by
  induction rs with
  | nil => exact .nil
  | cons r rest ih =>
    rw [← List.singleton_append, List.filter_append]
    exact List.rel_append r.lower_answers ih

/-! ## The order of blocks -/

namespace Binding

/-- Whether the block may come before the other. -/
def isBefore (a b : Binding) : Bool :=
  b.rank ≤ a.rank

/-- Blocks in falling priority, of which those of one priority are in source order. -/
structure AreRanked (blocks source : List Binding) : Prop where
  perm : blocks.Perm source
  falling : blocks.Pairwise fun a b => b.rank ≤ a.rank
  stable : ∀ k : Int, blocks.filter (·.rank = k) = source.filter (·.rank = k)

theorem isBefore_trans (a b c : Binding) (hab : a.isBefore b = true) (hbc : b.isBefore c = true) :
    a.isBefore c = true := by
  simp only [isBefore, decide_eq_true_eq] at *
  omega

theorem isBefore_total (a b : Binding) : (a.isBefore b || b.isBefore a) = true := by
  simp only [isBefore, Bool.or_eq_true, decide_eq_true_eq]
  omega

/-- Sorting does not change the blocks of one priority, nor their order. -/
theorem filter_mergeSort (source : List Binding) (k : Int) :
    (source.mergeSort isBefore).filter (·.rank = k) = source.filter (·.rank = k) := by
  -- Among themselves these blocks are sorted already, so they stay in a row
  have hsorted : (source.filter (·.rank = k)).Pairwise fun a b => a.isBefore b = true := by
    refine List.pairwise_of_forall_mem_list fun a ha b hb => ?_
    have ha : a.rank = k := by simpa using (List.mem_filter.1 ha).2
    have hb : b.rank = k := by simpa using (List.mem_filter.1 hb).2
    simp [isBefore, ha, hb]
  have hsub : (source.filter (·.rank = k)).Sublist (source.mergeSort isBefore) :=
    List.sublist_mergeSort isBefore_trans isBefore_total hsorted List.filter_sublist
  have hkept : (source.filter (·.rank = k)).Sublist ((source.mergeSort isBefore).filter (·.rank = k)) := by
    simpa only [List.filter_filter, Bool.and_self] using hsub.filter (·.rank = k)
  have hlength := ((List.mergeSort_perm source isBefore).filter (·.rank = k)).length_eq
  exact (hkept.eq_of_length hlength.symm).symm

theorem areRanked_mergeSort (source : List Binding) : AreRanked (source.mergeSort isBefore) source where
  perm := List.mergeSort_perm source isBefore
  falling := by
    have hsorted := List.pairwise_mergeSort isBefore_trans isBefore_total source
    exact hsorted.imp fun h => by simpa [isBefore] using h
  stable := filter_mergeSort source

end Binding

/-! ## Sorted reactions -/

/-- The reactions are those of the rules with a known kind of event, block by block in the order of
priority, and in a block in source order. -/
def AreByPriority (scope : Scope) (reactions : List Reaction) (source : List Binding) : Prop :=
  ∃ blocks, Binding.AreRanked blocks source ∧
    List.Forall₂ (Reaction.Answers scope) reactions ((blocks.flatMap Binding.rules).filter Rule.isHeard)

/-- A block with its priority, lowered. -/
def Binding.ranked (scope : Scope) (b : Binding) : Int × List Reaction :=
  (b.rank, (lowerRules scope b.rules).value)

theorem lowerBindings_value (bs : List Binding) :
    (lowerBindings scope bs).value = bs.map (Binding.ranked scope) := by
  induction bs with
  | nil => rfl
  | cons b rest ih => exact congrArg ((b.ranked scope) :: ·) ih

/-- To sort lowered blocks is to sort the blocks and to lower them then. -/
theorem byRank_map_ranked (bs : List Binding) : byRank (bs.map (Binding.ranked scope)) =
    (bs.mergeSort Binding.isBefore).flatMap fun b => (lowerRules scope b.rules).value := by
  unfold byRank
  rw [← List.map_mergeSort (r := Binding.isBefore) (f := Binding.ranked scope) fun a _ b _ => rfl,
    List.flatMap_map]
  rfl

theorem flatMap_lowerRules_answer (bs : List Binding) : List.Forall₂ (Reaction.Answers scope)
    (bs.flatMap fun b => (lowerRules scope b.rules).value)
    ((bs.flatMap Binding.rules).filter Rule.isHeard) := by
  induction bs with
  | nil => exact .nil
  | cons b rest ih =>
    rw [List.flatMap_cons, List.flatMap_cons, List.filter_append]
    exact List.rel_append (lowerRules_answer b.rules) ih

theorem areByPriority_byRank (bs : List Binding) :
    AreByPriority scope (byRank (bs.map (Binding.ranked scope))) bs := by
  rw [byRank_map_ranked]
  exact ⟨_, Binding.areRanked_mergeSort bs, flatMap_lowerRules_answer _⟩

/-! ## Steps -/

/-- The variables after the statements of a step. -/
def Step.scopeAfter (scope : Scope) (s : Step) : Scope :=
  s.statements.foldl (fun scope t => (t.lower scope).value.2) scope

/-- Metadata binds nothing. -/
theorem lowerBody_scope (stop : Stop) (ts : List Statement) : (lowerBody scope stop ts).value.2 =
    ts.foldl (fun scope t => (t.lower scope).value.2) scope := by
  induction ts generalizing scope stop with
  | nil => rfl
  | cons t rest ih =>
    rw [List.foldl_cons, lowerBody]
    split
    · rename_i m hm
      have hscope : (t.lower scope).value.2 = scope := by
        unfold Statement.lower
        rw [hm]
        rfl
      rw [hscope]
      exact ih _
    · exact ih _

theorem Step.lower_areByPriority (s : Step) (id : String) :
    AreByPriority (s.scopeAfter scope) (s.lower scope id).value.reactions s.bindings := by
  have hreactions : (s.lower scope id).value.reactions =
      byRank (s.bindings.map (Binding.ranked (s.scopeAfter scope))) := by
    rw [← lowerBindings_value, Step.scopeAfter, ← lowerBody_scope ⟨id, s.title, [], [], none, []⟩]
    rfl
  rw [hreactions]
  exact areByPriority_byRank s.bindings

/-! ## Documents -/

/-- The block of rules, if the declaration is one. -/
def Item.binding? : Item → Option Binding
  | .binding b => some b
  | _ => none

/-- The blocks of rules that hold throughout: those at the top of a program, and those right in the
decks there. -/
def Program.bindings (p : Program) : List Binding :=
  p.items.flatMap fun
    | .binding b => [b]
    | .deck items _ => items.filterMap Item.binding?
    | _ => []

theorem Program.bindings_eq (p : Program) : p.bindings = p.deckItems.filterMap Item.binding? := by
  rw [bindings, deckItems, List.filterMap_flatMap]
  congr 1
  funext i
  cases i <;> rfl

/-- A declaration adds the block that it is. -/
theorem Lowering.add_ranked (l : Lowering) (i : Item) : (l.add scope i).value.ranked =
    l.ranked ++ i.binding?.toList.map (Binding.ranked scope) := by
  cases i with
  | binding b => rfl
  | diagram d =>
    rw [Lowering.add]
    split_ifs <;> simp [Item.binding?]
  | _ => simp [Lowering.add, Item.binding?]

theorem Lowering.addAll_ranked (l : Lowering) (items : List Item) : (l.addAll scope items).value.ranked =
    l.ranked ++ (items.filterMap Item.binding?).map (Binding.ranked scope) := by
  induction items generalizing l with
  | nil => simp [Lowering.addAll]
  | cons i rest ih =>
    have hrest : (l.addAll scope (i :: rest)).value.ranked =
        ((l.add scope i).value.addAll scope rest).value.ranked := rfl
    rw [hrest, ih, l.add_ranked, List.append_assoc, ← List.map_append]
    cases hi : i.binding? <;> simp [hi]

theorem Program.lower_reactions (p : Program) :
    p.lower.value.reactions = byRank (p.bindings.map (Binding.ranked p.commonScope)) := by
  rw [p.bindings_eq]
  exact congrArg byRank (Lowering.addAll_ranked ⟨.empty, [], []⟩ p.deckItems)

/-- The reactions that hold throughout a document are those of the blocks at the top of the program and
right in its decks, and the reactions of each stop are those of the blocks of its step: the rules with a
known kind of event, each once, block by block in falling priority. -/
theorem reactions_by_priority (p : Program) :
    AreByPriority p.commonScope p.lower.value.reactions p.bindings ∧
      List.Forall₂ (fun stop step =>
          AreByPriority (Step.scopeAfter p.commonScope step) (Stop.reactions stop) step.bindings)
        p.lower.value.stops (p.deckItems.flatMap Item.ownSteps) := by
  refine ⟨?_, p.lower_forall₂ fun s id => s.lower_areByPriority id⟩
  rw [p.lower_reactions]
  exact areByPriority_byRank p.bindings

end DiagramTour
