import DiagramTour.Proofs.Lower.Ids
import DiagramTour.Proofs.Program.Outset
import Mathlib.Data.List.Forall2

/-!
# The steps of a program and the stops of its document

Each step that lowering sees becomes one stop, in order, with one action for each statement that is
one.  But a program is looked through in two ways: the audit follows decks to any depth, and lowering
takes the declarations of the decks at the top alone.  A deck in a deck is read without complaint,
and its steps are lost.

## Architecture

- `Stop.Tells` relates a stop to the step that it was lowered from, statement by statement.
- `Item.steps` are the steps that the audit walks, and `Item.ownSteps` those that lowering sees;
  `Item.innerSteps` are the rest.
- `stops_tell_all_steps_iff` says when no step is lost, and `steps_in_inner_deck_lost` that one can
  be.
-/

namespace DiagramTour

/-! ## What stops and actions tell -/

/-- The kind of action that a statement becomes, if it becomes one: a focus, a call or a check. -/
def StatementKind.actionKind? : StatementKind → Option String
  | focus _ => some focusAction
  | call c => some c.callee
  | assert _ _ => some assertAction
  | define _ | metadata _ => none

/-- Whether a statement becomes an action. -/
def Statement.isDeed (t : Statement) : Bool :=
  t.kind.actionKind?.isSome

/-- The action carries out the statement: it is of its kind, and is what the statement is lowered
to. -/
structure Action.CarriesOut (a : Action) (t : Statement) : Prop where
  kind : t.kind.actionKind? = some a.kind
  lowered : ∃ scope, (t.lower scope).value.1 = some a

/-- The stop tells the step: it has its title, and one action for each statement that is one. -/
structure Stop.Tells (stop : Stop) (s : Step) : Prop where
  name : stop.name = s.title
  actions : List.Forall₂ Action.CarriesOut stop.actions (s.statements.filter Statement.isDeed)

/-! ## Steps of declarations -/

mutual

/-- The steps of a declaration in source order, in decks of any depth. -/
def Item.steps : Item → List Step
  | .deck items _ => Item.allSteps items
  | .scene s => s.steps
  | _ => []

/-- The steps of declarations. -/
def Item.allSteps : List Item → List Step
  | [] => []
  | i :: is => i.steps ++ Item.allSteps is

end

/-- The steps of a declaration that is a scene. -/
def Item.ownSteps : Item → List Step
  | .scene s => s.steps
  | _ => []

/-- The steps of a declaration that is a deck. -/
def Item.innerSteps : Item → List Step
  | .deck items _ => Item.allSteps items
  | _ => []

/-- The steps of a program in source order. -/
def Program.steps (p : Program) : List Step :=
  Item.allSteps p.items

variable {scope globals : Scope} {stop : Stop} {stops : List Stop} {p : Program}

theorem Item.allSteps_eq (items : List Item) : Item.allSteps items = items.flatMap Item.steps := by
  induction items with
  | nil => rfl
  | cons i is ih => rw [Item.allSteps, ih, List.flatMap_cons]

/-- The steps of a program are those of the declarations that make up the tour. -/
theorem Program.steps_eq (p : Program) : p.steps = p.deckItems.flatMap Item.steps := by
  rw [steps, Item.allSteps_eq, deckItems, List.flatMap_assoc]
  congr 1
  funext i
  cases i <;> simp [Item.steps, Item.allSteps_eq]

/-! ## Lowering steps -/

@[simp] theorem callAction_kind (callee : String) (args : List (Option String × Json)) :
    (callAction callee args).kind = callee := by
  unfold callAction
  split <;> rfl

theorem Statement.lower_action (t : Statement) (scope : Scope) :
    List.Forall₂ Action.CarriesOut (t.lower scope).value.1.toList
      ([t].filter Statement.isDeed) := by
  obtain ⟨kind, span⟩ := t
  cases kind with
  | focus f => exact .cons ⟨rfl, scope, rfl⟩ .nil
  | call c => exact .cons ⟨congrArg some (callAction_kind _ _).symm, scope, rfl⟩ .nil
  | assert condition message => exact .cons ⟨rfl, scope, rfl⟩ .nil
  | define d => exact .nil
  | metadata m => exact .nil

theorem lowerMetadata_keeps (scope : Scope) (stop : Stop) (entries : List (Entry Expr)) :
    (lowerMetadata scope stop entries).value.name = stop.name ∧
      (lowerMetadata scope stop entries).value.actions = stop.actions :=
  lowerMetadata_induction (P := fun t => t.name = stop.name ∧ t.actions = stop.actions) scope entries
    (fun _ _ _ h => h) (fun _ _ h => h) ⟨rfl, rfl⟩

theorem lowerBody_cons_of_not_metadata {t : Statement} {ts : List Statement}
    (h : ∀ m, t.kind ≠ .metadata m) :
    (lowerBody scope stop (t :: ts)).value =
      (lowerBody (t.lower scope).value.2
        { stop with actions := stop.actions ++ (t.lower scope).value.1.toList } ts).value := by
  rw [lowerBody]
  split
  · exact absurd ‹_› (h _)
  · rfl

/-- The statements of a step add their actions to a stop, one after the other. -/
theorem lowerBody_actions (ts : List Statement) :
    (lowerBody scope stop ts).value.1.name = stop.name ∧ ∃ as,
      (lowerBody scope stop ts).value.1.actions = stop.actions ++ as ∧
      List.Forall₂ Action.CarriesOut as (ts.filter Statement.isDeed) := by
  induction ts generalizing scope stop with
  | nil => exact ⟨rfl, [], by simp [lowerBody], .nil⟩
  | cons t rest ih =>
    by_cases hmeta : ∃ m, t.kind = .metadata m
    · -- Metadata is no action, and leaves those of the stop alone
      obtain ⟨m, hm⟩ := hmeta
      have hkeeps := lowerMetadata_keeps scope stop m.entries
      obtain ⟨hname, as, hactions, has⟩ := ih
      have hstep : (lowerBody scope stop (t :: rest)).value =
          (lowerBody scope (lowerMetadata scope stop m.entries).value rest).value := by
        rw [lowerBody]
        simp only [hm, Noted.bind_value]
      refine ⟨by rw [hstep, hname, hkeeps.1], as, by rw [hstep, hactions, hkeeps.2], ?_⟩
      rwa [List.filter_cons_of_neg (by simp [Statement.isDeed, hm, StatementKind.actionKind?])]
    · obtain ⟨hname, as, hactions, has⟩ := ih
      rw [lowerBody_cons_of_not_metadata fun m hm => hmeta ⟨m, hm⟩]
      refine ⟨hname, (t.lower scope).value.1.toList ++ as, by rw [hactions, List.append_assoc], ?_⟩
      rw [← List.singleton_append, List.filter_append]
      exact List.rel_append (t.lower_action scope) has

/-- A stop tells the step that it was lowered from. -/
theorem Step.lower_tells (s : Step) (id : String) : (s.lower scope id).value.Tells s := by
  obtain ⟨hname, as, hactions, has⟩ := lowerBody_actions s.statements
  refine ⟨hname, ?_⟩
  rw [List.nil_append] at hactions
  exact (congrArg (List.Forall₂ Action.CarriesOut · _) hactions).mpr has

/-- Steps become stops one by one, after those that are there: whatever holds of each stop and the step
that it was lowered from holds of them in order. -/
theorem lowerSteps_forall₂ {R : Stop → Step → Prop} (h : ∀ s id, R (Step.lower globals id s).value s)
    (ss : List Step) : ∃ new,
    (lowerSteps globals stops ss).value = stops ++ new ∧ List.Forall₂ R new ss := by
  induction ss generalizing stops with
  | nil => exact ⟨[], by simp [lowerSteps], .nil⟩
  | cons s rest ih =>
    let stop := (s.lower globals (uniqueId (stops.map Stop.id) s.name)).value
    obtain ⟨new, heq, hnew⟩ := ih
    refine ⟨stop :: new, ?_, .cons (h s _) hnew⟩
    rw [List.append_cons, ← heq]
    rfl

theorem lowerSteps_append (ss ts : List Step) : (lowerSteps globals stops (ss ++ ts)).value =
    (lowerSteps globals (lowerSteps globals stops ss).value ts).value := by
  induction ss generalizing stops with
  | nil => rfl
  | cons s rest ih => exact ih

/-! ## Lowering programs -/

/-- A declaration adds the stops of its own steps, and takes none away. -/
theorem Lowering.add_stops (l : Lowering) (i : Item) : (l.add globals i).value.document.stops =
    (lowerSteps globals l.document.stops i.ownSteps).value := by
  cases i with
  | diagram d =>
    rw [Lowering.add]
    split_ifs <;> rfl
  | _ => rfl

theorem Lowering.addAll_stops (l : Lowering) (items : List Item) :
    (l.addAll globals items).value.document.stops =
      (lowerSteps globals l.document.stops (items.flatMap Item.ownSteps)).value := by
  induction items generalizing l with
  | nil => rfl
  | cons i rest ih =>
    rw [List.flatMap_cons, lowerSteps_append, ← l.add_stops]
    exact ih _

/-- The variables that hold everywhere in a program. -/
def Program.commonScope (p : Program) : Scope :=
  (lowerGlobals [] p.deckItems).value

/-- The stops of a document are those of the steps of all scenes that make up the tour, as if these
stood in a row. -/
theorem Program.lower_stops (p : Program) : p.lower.value.stops =
    (lowerSteps p.commonScope [] (p.deckItems.flatMap Item.ownSteps)).value :=
  Lowering.addAll_stops ⟨.empty, [], []⟩ p.deckItems

/-- What holds of each stop and the step that it was lowered from holds of all stops of a document and
the steps of the declarations that make up the tour. -/
theorem Program.lower_forall₂ {R : Stop → Step → Prop} (p : Program)
    (h : ∀ s id, R (Step.lower p.commonScope id s).value s) :
    List.Forall₂ R p.lower.value.stops (p.deckItems.flatMap Item.ownSteps) := by
  obtain ⟨new, heq, hnew⟩ : ∃ new,
      (lowerSteps p.commonScope [] (p.deckItems.flatMap Item.ownSteps)).value = [] ++ new ∧
        List.Forall₂ R new (p.deckItems.flatMap Item.ownSteps) := lowerSteps_forall₂ h _
  rwa [p.lower_stops, heq]

/-- The stops of a document tell the steps of the declarations that make up the tour. -/
theorem Program.lower_tells (p : Program) :
    List.Forall₂ Stop.Tells p.lower.value.stops (p.deckItems.flatMap Item.ownSteps) :=
  p.lower_forall₂ fun s id => s.lower_tells id

/-! ## Lost steps -/

theorem Item.steps_eq_append (i : Item) : i.steps = i.ownSteps ++ i.innerSteps := by
  cases i <;> simp [steps, ownSteps, innerSteps]

/-- Lowering sees as many steps fewer than there are as stand in decks in the decks. -/
theorem Program.length_steps (p : Program) : p.steps.length =
    (p.deckItems.flatMap Item.ownSteps).length + (p.deckItems.flatMap Item.innerSteps).length := by
  rw [steps_eq]
  induction p.deckItems with
  | nil => rfl
  | cons i rest ih =>
    simp only [List.flatMap_cons, List.length_append, ih, i.steps_eq_append]
    omega

theorem Program.ownSteps_eq_steps {p : Program} (h : p.deckItems.flatMap Item.innerSteps = []) :
    p.deckItems.flatMap Item.ownSteps = p.steps := by
  rw [p.steps_eq]
  refine List.flatMap_congr fun i hi => ?_
  rw [i.steps_eq_append, List.flatMap_eq_nil_iff.1 h i hi, List.append_nil]

/-- A text that compiles without errors has a document, whose stops tell the steps of the scenes
that stand in no deck in a deck.  They tell all the steps of the program, one stop for each in
source order, exactly when no deck in a deck has a step. -/
theorem stops_tell_all_steps_iff (source : String) (h : (compile source).hasErrors = false) :
    ∃ p document, (compile source).program = some p ∧ (compile source).document = some document ∧
      List.Forall₂ Stop.Tells document.stops (p.deckItems.flatMap Item.ownSteps) ∧
      (List.Forall₂ Stop.Tells document.stops p.steps ↔
        p.deckItems.flatMap Item.innerSteps = []) := by
  obtain ⟨p, hprogram, hdocument, -⟩ := compile_of_not_hasErrors h
  refine ⟨p, p.lower.value, hprogram, hdocument, p.lower_tells, fun htell => ?_, fun hnone => ?_⟩
  · -- There are as many stops as steps that lowering sees, so there are no others
    have hseen := p.lower_tells.length_eq
    have hall := htell.length_eq
    have hsum := p.length_steps
    exact List.eq_nil_of_length_eq_zero (by omega)
  · rw [← p.ownSteps_eq_steps hnone]
    exact p.lower_tells

/-- A text with a step beside the deck and two in it. -/
def besideDeck : String :=
  "mpd 1\nscene { step a { focus node A do f() assert true } }\n" ++
    "deck { scene { step b { } step c { } } }"

/-- In a text whose deck holds no deck no step is lost. -/
theorem steps_beside_deck_told :
    (compile besideDeck).hasErrors = false ∧ ∃ p document,
      (compile besideDeck).program = some p ∧ (compile besideDeck).document = some document ∧
      List.Forall₂ Stop.Tells document.stops p.steps ∧ p.steps.length = 3 := by
  have hrun : (compile besideDeck).hasErrors = false ∧
      ((compile besideDeck).program.map fun p =>
        ((p.deckItems.flatMap Item.innerSteps).length, p.steps.length)) = some (0, 3) := by
    decide +kernel
  obtain ⟨p, document, hp, hd, -, hiff⟩ := stops_tell_all_steps_iff besideDeck hrun.1
  have hlengths := hrun.2
  simp only [hp, Option.map_some, Option.some.injEq, Prod.mk.injEq] at hlengths
  exact ⟨hrun.1, p, document, hp, hd, hiff.2 (List.eq_nil_of_length_eq_zero hlengths.1),
    hlengths.2⟩

/-- A text with a step in a deck in a deck. -/
def innerDeck : String :=
  "mpd 1\ndeck { deck { scene { step a { } } } }"

/-- A step can be lost without an error. -/
theorem steps_in_inner_deck_lost :
    ¬∀ source, (compile source).hasErrors = false →
      ∃ p document, (compile source).program = some p ∧ (compile source).document = some document ∧
        List.Forall₂ Stop.Tells document.stops p.steps := by
  intro hall
  have hrun : (compile innerDeck).hasErrors = false ∧
      ((compile innerDeck).program.map fun p => p.steps.length) = some 1 ∧
      ((compile innerDeck).document.map fun d => d.stops.length) = some 0 := by
    decide +kernel
  obtain ⟨hok, hsteps, hstops⟩ := hrun
  obtain ⟨p, document, hp, hd, htell⟩ := hall innerDeck hok
  simp only [hp, hd, Option.map_some, Option.some.injEq] at hsteps hstops
  exact absurd htell.length_eq (by omega)

end DiagramTour
