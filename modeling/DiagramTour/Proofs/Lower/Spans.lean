import DiagramTour.Compile
import DiagramTour.Proofs.Lower.Naming
import DiagramTour.Proofs.Program.Targets

/-!
# Spans only tell places

The span of a node says where something is wrong, and nothing else depends on it.  So two trees that
are equal without their spans are audited with the same complaints, and lowered to the same document
with the same warnings, wherever these are.

## Architecture

- `Target.audit_withoutSpans` to `Item.auditAll_withoutSpans` go through the audit, one theorem for
  each kind of node.
- `Noted.Alike` compares values with warnings; it goes along with doing one thing after the other, so
  every part of lowering is compared part by part.
- `Program.lower_alike` compares whole programs by the declarations that make up their tours.
-/

namespace DiagramTour

/-! ## The audit -/

/-- What the diagnostics are about, without their places. -/
def problemsOf (ds : List Diagnostic) : List Problem :=
  ds.map Diagnostic.problem

@[simp] theorem problemsOf_nil : problemsOf [] = [] := rfl

@[simp] theorem problemsOf_append (ds es : List Diagnostic) :
    problemsOf (ds ++ es) = problemsOf ds ++ problemsOf es :=
  List.map_append

theorem problemsOf_flatMap {α : Type} (f : α → List Diagnostic) (as : List α) :
    problemsOf (as.flatMap f) = as.flatMap fun a => problemsOf (f a) :=
  List.map_flatMap

/-- A problem that is reported on a condition is the same at any place. -/
theorem problemsOf_ite (b : Bool) (problem : Problem) (s s' : Span) :
    problemsOf (if b then [⟨problem, s⟩] else []) = problemsOf (if b then [⟨problem, s'⟩] else []) := by
  cases b <;> rfl

theorem Target.isWildcard_withoutSpans (t : Target) : t.withoutSpans.isWildcard = t.isWildcard := by
  cases t with
  | edge ref span => cases ref <;> rfl
  | _ => rfl

theorem Target.audit_withoutSpans (t : Target) :
    problemsOf t.withoutSpans.audit = problemsOf t.audit := by
  induction t using Target.induction_parts with
  | element kind ref span => rfl
  | edge ref span =>
      cases ref with
      | byId ref => rfl
      | between source destination => exact problemsOf_ite _ _ _ _
  | matching key value span =>
      simp only [withoutSpans, audit]
      split <;> rfl
  | several how members span ih =>
      simp only [withoutSpans, audit]
      induction members with
      | nil => rfl
      | cons t ts iht =>
          simp only [membersWithoutSpans, auditMembers, problemsOf_append]
          rw [ih t (by simp), iht fun u hu => ih u (by simp [hu])]
  | except base removed span ihbase ihremoved =>
      simp only [withoutSpans, audit, problemsOf_append, ihbase, ihremoved, isWildcard_withoutSpans]
      rw [problemsOf_ite]

namespace Expr

theorem audit_withoutSpans (e : Expr) : problemsOf e.withoutSpans.audit = problemsOf e.audit := by
  induction e using induction_parts with
  | literal l span => rfl
  | var path span => rfl
  | object entries span ih =>
      simp only [withoutSpans, audit]
      induction entries with
      | nil => rfl
      | cons n rest ihrest =>
          simp only [entriesWithoutSpans, auditEntries, problemsOf_append]
          rw [ih n (by simp), ihrest fun m hm => ih m (by simp [hm])]
  | array items span ih =>
      simp only [withoutSpans, audit]
      induction items with
      | nil => rfl
      | cons e rest ihrest =>
          simp only [itemsWithoutSpans, auditItems, problemsOf_append]
          rw [ih e (by simp), ihrest fun m hm => ih m (by simp [hm])]
  | call callee args span ih =>
      simp only [withoutSpans, audit]
      induction args with
      | nil => rfl
      | cons a rest ihrest =>
          simp only [argsWithoutSpans, auditArgs, problemsOf_append]
          rw [ih a (by simp), ihrest fun m hm => ih m (by simp [hm])]
  | unary op operand span ih => exact ih
  | binary op left right span ihl ihr =>
      simp only [withoutSpans, audit, problemsOf_append, ihl, ihr]
  | target t span => exact t.audit_withoutSpans

theorem auditEntries_withoutSpans (entries : List (Entry Expr)) :
    problemsOf (auditEntries (entriesWithoutSpans entries)) = problemsOf (auditEntries entries) :=
  audit_withoutSpans (.object entries default)

theorem auditArgs_withoutSpans (args : List (Argument Expr)) :
    problemsOf (auditArgs (argsWithoutSpans args)) = problemsOf (auditArgs args) :=
  audit_withoutSpans (.call ⟨"", args⟩ default)

theorem auditOption_withoutSpans (o : Option Expr) :
    problemsOf (auditOption (o.map withoutSpans)) = problemsOf (auditOption o) := by
  cases o with
  | none => rfl
  | some e => exact e.audit_withoutSpans

end Expr

theorem Statement.audit_withoutSpans (s : Statement) :
    problemsOf s.withoutSpans.audit = problemsOf s.audit := by
  obtain ⟨kind, span⟩ := s
  cases kind with
  | focus f =>
      simp only [withoutSpans, StatementKind.withoutSpans, audit, problemsOf_append,
        Expr.auditOption_withoutSpans, f.target.audit_withoutSpans]
  | call c => exact Expr.auditArgs_withoutSpans c.args
  | define d => exact d.value.audit_withoutSpans
  | assert condition message =>
      simp only [withoutSpans, StatementKind.withoutSpans, audit, problemsOf_append,
        Expr.auditOption_withoutSpans, condition.audit_withoutSpans]
  | metadata m => exact Expr.auditEntries_withoutSpans m.entries

/-- What is audited part by part has the complaints of its parts. -/
theorem problemsOf_flatMap_map {α : Type} {f : α → List Diagnostic} {g : α → α}
    (h : ∀ a, problemsOf (f (g a)) = problemsOf (f a)) (as : List α) :
    problemsOf ((as.map g).flatMap f) = problemsOf (as.flatMap f) := by
  simp only [problemsOf_flatMap, List.flatMap_map, h]

theorem Rule.audit_withoutSpans (r : Rule) :
    problemsOf r.withoutSpans.audit = problemsOf r.audit := by
  simp only [withoutSpans, audit, problemsOf_append, Expr.auditOption_withoutSpans,
    problemsOf_flatMap_map Statement.audit_withoutSpans]
  cases r.target with
  | none => rfl
  | some t => simp only [Option.map_some, t.audit_withoutSpans]

theorem Binding.audit_withoutSpans (b : Binding) :
    problemsOf b.withoutSpans.audit = problemsOf b.audit :=
  problemsOf_flatMap_map Rule.audit_withoutSpans b.rules

theorem Step.audit_withoutSpans (s : Step) :
    problemsOf s.withoutSpans.audit = problemsOf s.audit := by
  simp only [withoutSpans, audit, problemsOf_append,
    problemsOf_flatMap_map Statement.audit_withoutSpans,
    problemsOf_flatMap_map Binding.audit_withoutSpans]

theorem auditSteps_withoutSpans (seen : List String) (steps : List Step) :
    problemsOf (auditSteps seen (steps.map Step.withoutSpans)) = problemsOf (auditSteps seen steps) := by
  induction steps generalizing seen with
  | nil => rfl
  | cons s rest ih =>
      simp only [List.map_cons, auditSteps, problemsOf_append, s.audit_withoutSpans, ih]
      rw [problemsOf_ite]
      rfl

mutual

theorem Item.audit_withoutSpans : ∀ i : Item, problemsOf i.withoutSpans.audit = problemsOf i.audit
  | .deck items _ => Item.auditAll_withoutSpans items
  | .diagram d => by
      simp only [withoutSpans, Diagram.withoutSpans, audit, problemsOf_append,
        Expr.auditOption_withoutSpans]
  | .runtime r => problemsOf_flatMap_map (fun s => Expr.auditEntries_withoutSpans s.entries) r.sections
  | .selectors s => problemsOf_flatMap_map (fun e => e.target.audit_withoutSpans) s.entries
  | .styles s => Expr.auditEntries_withoutSpans s.entries
  | .define d => d.value.audit_withoutSpans
  | .scene s => auditSteps_withoutSpans [] s.steps
  | .binding b => b.audit_withoutSpans
  | .plugin p => Expr.auditOption_withoutSpans p.options
  | .metadata m => Expr.auditEntries_withoutSpans m.entries
  | .unknown _ => rfl

/-- Declarations are complained about for the same reasons without their spans. -/
theorem Item.auditAll_withoutSpans : ∀ items : List Item,
    problemsOf (Item.auditAll (Item.allWithoutSpans items)) = problemsOf (Item.auditAll items)
  | [] => rfl
  | i :: is => by
      simp only [Item.allWithoutSpans, Item.auditAll, problemsOf_append, i.audit_withoutSpans,
        Item.auditAll_withoutSpans is]

end

/-! ## Values with warnings -/

namespace Noted

variable {α β : Type} {x y z : Noted α}

/-- The same value, with the same warnings wherever they are. -/
structure Alike (x y : Noted α) : Prop where
  value : x.value = y.value
  notes : problemsOf x.notes = problemsOf y.notes

theorem Alike.refl (x : Noted α) : x.Alike x :=
  ⟨rfl, rfl⟩

theorem Alike.symm (h : x.Alike y) : y.Alike x :=
  ⟨h.value.symm, h.notes.symm⟩

theorem Alike.trans (h : x.Alike y) (h' : y.Alike z) : x.Alike z :=
  ⟨h.value.trans h'.value, h.notes.trans h'.notes⟩

theorem Alike.bind {f g : α → Noted β} (h : x.Alike y) (hf : ∀ a, (f a).Alike (g a)) :
    (x >>= f).Alike (y >>= g) := by
  have hrest := hf y.value
  refine ⟨?_, ?_⟩
  · rw [bind_value, bind_value, h.value, hrest.value]
  · rw [bind_notes, bind_notes, problemsOf_append, problemsOf_append, h.notes, h.value, hrest.notes]

/-- What is done with the same value goes the same way. -/
theorem Alike.andThen (h : x.Alike y) (f : α → Noted β) : (x >>= f).Alike (y >>= f) :=
  h.bind fun _ => .refl _

/-- A warning is the same at any place. -/
theorem note_alike (problem : Problem) (s s' : Span) : (note problem s).Alike (note problem s') :=
  ⟨rfl, rfl⟩

end Noted

open Noted (Alike)

/-! ## Expressions -/

variable {scope : Scope}

theorem Target.toSpec_withoutSpans (t : Target) : t.withoutSpans.toSpec = t.toSpec := by
  induction t using Target.induction_parts with
  | element kind ref span => rfl
  | edge ref span => cases ref <;> rfl
  | matching key value span => rfl
  | several how members span ih =>
      simp only [withoutSpans, toSpec]
      induction members with
      | nil => rfl
      | cons t ts iht =>
          have hrest := iht fun u hu => ih u (by simp [hu])
          simp only [membersWithoutSpans, membersToSpec, ih t (by simp)]
          rw [(TargetSpec.several.inj hrest).2]
  | except base removed span ihbase ihremoved =>
      simp only [withoutSpans, toSpec, ihbase, ihremoved]

namespace Expr

/-- If the arguments of a call come to the same without their spans, the call does. -/
theorem evalArgs_alike {args : List (Argument Expr)}
    (h : ∀ a ∈ args, (a.value.withoutSpans.eval scope).Alike (a.value.eval scope)) :
    (evalArgs scope (argsWithoutSpans args)).Alike (evalArgs scope args) := by
  induction args with
  | nil => exact .refl _
  | cons a rest ih =>
      exact (h a (by simp)).bind fun v => (ih fun b hb => h b (by simp [hb])).andThen _

theorem eval_withoutSpans (e : Expr) : (e.withoutSpans.eval scope).Alike (e.eval scope) := by
  induction e using induction_parts with
  | literal l span => exact .refl _
  | var path span =>
      simp only [withoutSpans, eval]
      split
      · exact .refl _
      · exact (Noted.note_alike _ _ _).andThen _
  | object entries span ih =>
      have hentries : (evalEntries scope (entriesWithoutSpans entries)).Alike
          (evalEntries scope entries) := by
        induction entries with
        | nil => exact .refl _
        | cons n rest ihrest =>
            exact (ih n (by simp)).bind fun v =>
              (ihrest fun m hm => ih m (by simp [hm])).andThen _
      exact hentries.andThen _
  | array items span ih =>
      have hitems : (evalItems scope (itemsWithoutSpans items)).Alike (evalItems scope items) := by
        induction items with
        | nil => exact .refl _
        | cons e rest ihrest =>
            exact (ih e (by simp)).bind fun v =>
              (ihrest fun m hm => ih m (by simp [hm])).andThen _
      exact hitems.andThen _
  | call callee args span ih => exact (evalArgs_alike ih).andThen _
  | unary op operand span ih => exact ih.andThen _
  | binary op left right span ihl ihr => exact ihl.bind fun a => ihr.andThen _
  | target t span =>
      simp only [withoutSpans, eval, Target.toValue, t.toSpec_withoutSpans]
      exact .refl _

theorem valueIn_withoutSpans (e : Expr) : (e.withoutSpans.valueIn scope).Alike (e.valueIn scope) :=
  e.eval_withoutSpans.andThen _

theorem evalOption_withoutSpans (o : Option Expr) :
    (evalOption scope (o.map withoutSpans)).Alike (evalOption scope o) := by
  cases o with
  | none => exact .refl _
  | some e => exact e.valueIn_withoutSpans.andThen _

end Expr

/-! ## Steps -/

theorem Call.toAction_withoutSpans (c : Call Expr) :
    (c.withoutSpans.toAction scope).Alike (c.toAction scope) :=
  (Expr.evalArgs_alike fun a _ => a.value.eval_withoutSpans).andThen _

theorem Statement.lower_withoutSpans (s : Statement) :
    (s.withoutSpans.lower scope).Alike (s.lower scope) := by
  obtain ⟨kind, span⟩ := s
  cases kind with
  | focus f =>
      refine (Expr.evalOption_withoutSpans f.pad).bind fun pad =>
        (Expr.evalOption_withoutSpans f.lock).bind fun lock => ?_
      simp only [Target.toValue, f.target.toSpec_withoutSpans]
      exact .refl _
  | call c => exact c.toAction_withoutSpans.andThen _
  | define d => exact d.value.valueIn_withoutSpans.andThen _
  | assert condition message =>
      exact condition.valueIn_withoutSpans.bind fun value =>
        (Expr.evalOption_withoutSpans message).andThen _
  | metadata m => exact .refl _

theorem lowerStatements_withoutSpans (ss : List Statement) :
    (lowerStatements scope (ss.map Statement.withoutSpans)).Alike (lowerStatements scope ss) := by
  induction ss generalizing scope with
  | nil => exact .refl _
  | cons s rest ih => exact s.lower_withoutSpans.bind fun r => ih.andThen _

theorem Rule.lower_withoutSpans (r : Rule) : (r.withoutSpans.lower scope).Alike (r.lower scope) := by
  have htarget : (r.withoutSpans.target.map fun t => Anchor.spec t.toSpec) =
      r.target.map fun t => Anchor.spec t.toSpec := by
    simp only [withoutSpans, Option.map_map, Function.comp_def, Target.toSpec_withoutSpans]
  have hevent : r.withoutSpans.event.kind = r.event.kind := rfl
  unfold lower
  rw [hevent, htarget]
  cases r.event.kind with
  | none => exact .refl _
  | some event =>
      cases hguard : r.guard with
      | none =>
          simp only [withoutSpans, hguard, Option.map_none]
          exact (lowerStatements_withoutSpans r.actions).andThen _
      | some guard =>
          simp only [withoutSpans, hguard, Option.map_some]
          exact (Noted.note_alike _ _ _).bind fun _ =>
            (lowerStatements_withoutSpans r.actions).andThen _

theorem lowerRules_withoutSpans (rs : List Rule) :
    (lowerRules scope (rs.map Rule.withoutSpans)).Alike (lowerRules scope rs) := by
  induction rs with
  | nil => exact .refl _
  | cons r rest ih => exact r.lower_withoutSpans.bind fun _ => ih.andThen _

theorem lowerBindings_withoutSpans (bs : List Binding) :
    (lowerBindings scope (bs.map Binding.withoutSpans)).Alike (lowerBindings scope bs) := by
  induction bs with
  | nil => exact .refl _
  | cons b rest ih => exact (lowerRules_withoutSpans b.rules).bind fun _ => ih.andThen _

theorem lowerMetadata_withoutSpans (stop : Stop) (entries : List (Entry Expr)) :
    (lowerMetadata scope stop (Expr.entriesWithoutSpans entries)).Alike
      (lowerMetadata scope stop entries) := by
  induction entries generalizing stop with
  | nil => exact .refl _
  | cons n rest ih =>
      refine n.value.valueIn_withoutSpans.bind fun value => ?_
      dsimp only
      split
      · exact ih _
      · split
        · exact ih _
        · exact (Noted.note_alike _ _ _).bind fun _ => ih _

theorem lowerBody_withoutSpans (stop : Stop) (ss : List Statement) :
    (lowerBody scope stop (ss.map Statement.withoutSpans)).Alike (lowerBody scope stop ss) := by
  induction ss generalizing scope stop with
  | nil => exact .refl _
  | cons s rest ih =>
      have hlower : (s.withoutSpans.lower scope).Alike (s.lower scope) := s.lower_withoutSpans
      obtain ⟨kind, span⟩ := s
      cases kind with
      | metadata m => exact (lowerMetadata_withoutSpans stop m.entries).bind fun _ => ih _
      | _ => exact hlower.bind fun _ => ih _

theorem Step.lower_withoutSpans (id : String) (s : Step) :
    (s.withoutSpans.lower scope id).Alike (s.lower scope id) :=
  (lowerBody_withoutSpans _ s.statements).bind fun _ =>
    (lowerBindings_withoutSpans s.bindings).andThen _

theorem lowerSteps_withoutSpans (stops : List Stop) (steps : List Step) :
    (lowerSteps scope stops (steps.map Step.withoutSpans)).Alike (lowerSteps scope stops steps) := by
  induction steps generalizing stops with
  | nil => exact .refl _
  | cons s rest ih => exact (s.lower_withoutSpans _).bind fun _ => ih _

/-! ## Programs -/

theorem lowerGlobals_withoutSpans (items : List Item) :
    (lowerGlobals scope (Item.allWithoutSpans items)).Alike (lowerGlobals scope items) := by
  induction items generalizing scope with
  | nil => exact .refl _
  | cons i rest ih =>
      cases i with
      | define d => exact d.value.valueIn_withoutSpans.bind fun _ => ih
      | _ => exact ih

theorem lowerEntries_withoutSpans (metadata : List (String × Json)) (entries : List (Entry Expr)) :
    (lowerEntries scope metadata (Expr.entriesWithoutSpans entries)).Alike
      (lowerEntries scope metadata entries) := by
  induction entries generalizing metadata with
  | nil => exact .refl _
  | cons n rest ih => exact n.value.valueIn_withoutSpans.bind fun _ => ih _

theorem Diagram.lower_withoutSpans (d : Diagram) :
    (d.withoutSpans.lower scope).Alike (d.lower scope) := by
  have hsource : d.withoutSpans.source = d.source := rfl
  unfold lower
  rw [hsource]
  cases d.source with
  | none => exact .refl _
  | some source => exact (Expr.evalOption_withoutSpans d.config).andThen _

namespace Lowering

theorem add_withoutSpans (l : Lowering) (i : Item) :
    (l.add scope i.withoutSpans).Alike (l.add scope i) := by
  cases i with
  | scene s => exact (lowerSteps_withoutSpans _ s.steps).andThen _
  | binding b => exact (lowerRules_withoutSpans b.rules).andThen _
  | diagram d =>
      simp only [Item.withoutSpans, add]
      split
      · exact .refl _
      · exact d.lower_withoutSpans.andThen _
  | metadata m => exact (lowerEntries_withoutSpans _ m.entries).andThen _
  | selectors s =>
      simp only [Item.withoutSpans, Selectors.withoutSpans, add, List.foldl_map, Target.toValue,
        Target.toSpec_withoutSpans]
      exact .refl _
  | _ => exact .refl _

theorem addAll_withoutSpans (l : Lowering) (items : List Item) :
    (l.addAll scope (Item.allWithoutSpans items)).Alike (l.addAll scope items) := by
  induction items generalizing l with
  | nil => exact .refl _
  | cons i rest ih => exact (l.add_withoutSpans i).bind fun l => ih l

end Lowering

/-- Programs whose tours are made up of the same declarations, wherever these stand, are lowered to
the same document with the same warnings. -/
theorem Program.lower_alike {p q : Program}
    (h : Item.allWithoutSpans p.deckItems = Item.allWithoutSpans q.deckItems) :
    p.lower.Alike q.lower := by
  have hglobals : (lowerGlobals [] p.deckItems).Alike (lowerGlobals [] q.deckItems) :=
    (h ▸ (lowerGlobals_withoutSpans p.deckItems).symm).trans (lowerGlobals_withoutSpans q.deckItems)
  refine hglobals.bind fun globals => Alike.andThen ?_ _
  exact (h ▸ (Lowering.addAll_withoutSpans _ p.deckItems).symm).trans
    (Lowering.addAll_withoutSpans _ q.deckItems)

end DiagramTour
