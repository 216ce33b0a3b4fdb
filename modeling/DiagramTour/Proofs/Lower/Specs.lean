import DiagramTour.Proofs.Json.Settled
import DiagramTour.Proofs.Lower.Stops
import DiagramTour.Proofs.Program.Targets

/-!
# Targets as a document names them

The audit refuses targets that make no sense: an edge between any nodes, an empty text, a difference
between everything and everything.  It looks at the tree, where a star in quotes is a name like any
other; a document has the same text for both.  So what the audit refuses for its stars can reach a
document, by quoting them, and nothing else that it refuses can.

## Architecture

- `TargetSpec.isSound` says of a document's target what the audit is for.
- `Target.hidesStar` says where a star in quotes passes for a name.
- `Document.IsDrawnFrom` says that nothing in a document is made up: what it holds was lowered from
  parts of the tree whose targets are known.
- `targets_reach_document_sound_iff` says which targets stay sound, and
  `quoted_star_reaches_document` that not all do.
-/

namespace DiagramTour

/-! ## Sound targets of documents -/

namespace TargetSpec

/-- Whether every node, every subgraph or every edge is meant. -/
def isWildcard : TargetSpec → Bool
  | element _ id => id == "*"
  | edge id _ _ => id == some "*"
  | _ => false

mutual

/-- Whether edges join named nodes, texts are not empty, and a difference leaves something. -/
def isSound : TargetSpec → Bool
  | element _ _ => true
  | edge _ source destination => source != some "*" && destination != some "*"
  | matching _ value => value != ""
  | several _ targets => allSound targets
  | except base removed =>
    !(base.isWildcard && removed.isWildcard) && (base.isSound && removed.isSound)

/-- Whether several targets are sound. -/
def allSound : List TargetSpec → Bool
  | [] => true
  | t :: ts => t.isSound && allSound ts

end

end TargetSpec

/-! ## Stars in quotes -/

/-- Whether a reference is a star in quotes, which is read as a name. -/
def ElementRef.isQuotedStar (r : ElementRef) : Bool :=
  r == .named "*"

theorem ElementRef.toText_beq_star (r : ElementRef) :
    (r.toText == "*") = (r.isWildcard || r.isQuotedStar) := by
  cases r <;> simp [toText, isWildcard, isQuotedStar]

namespace Target

/-- Whether the target is an element by a star in quotes. -/
def isQuotedStar : Target → Bool
  | element _ ref _ => ref.isQuotedStar
  | edge (.byId ref) _ => ref.isQuotedStar
  | _ => false

mutual

/-- Whether the target has a star in quotes where the audit would refuse a plain one. -/
def hidesStar : Target → Bool
  | element _ _ _ | edge (.byId _) _ | matching _ _ _ => false
  | edge (.between source destination) _ => source.isQuotedStar || destination.isQuotedStar
  | several _ members _ => membersHideStar members
  | except base removed _ =>
    base.isQuotedStar && (removed.isWildcard || removed.isQuotedStar) ||
      base.isWildcard && removed.isQuotedStar || (base.hidesStar || removed.hidesStar)

/-- Whether one of several targets has such a star. -/
def membersHideStar : List Target → Bool
  | [] => false
  | t :: ts => t.hidesStar || membersHideStar ts

end

theorem toSpec_isWildcard (t : Target) :
    t.toSpec.isWildcard = (t.isWildcard || t.isQuotedStar) := by
  cases t with
  | element kind ref span => exact ref.toText_beq_star
  | edge ref span =>
    cases ref with
    | byId ref => simpa [toSpec, TargetSpec.isWildcard, isWildcard, isQuotedStar] using
        ref.toText_beq_star
    | between source destination => rfl
  | matching key value span => rfl
  | several how members span => rfl
  | except base removed span => rfl

theorem membersToSpec_isSound {ts : List Target} (h : auditMembers ts = [])
    (ih : ∀ t ∈ ts, t.audit = [] → t.toSpec.isSound = !t.hidesStar) :
    TargetSpec.allSound (membersToSpec ts) = !membersHideStar ts := by
  induction ts with
  | nil => rfl
  | cons t ts iht =>
    rw [auditMembers, List.append_eq_nil_iff] at h
    rw [membersToSpec, TargetSpec.allSound, membersHideStar, ih t (by simp) h.1,
      iht h.2 fun u hu => ih u (by simp [hu]), Bool.not_or]

/-- A target that passes the audit stays sound in a document, unless it hides a star. -/
theorem toSpec_isSound {t : Target} (h : t.audit = []) : t.toSpec.isSound = !t.hidesStar := by
  induction t using Target.induction_parts with
  | element kind ref span => rfl
  | edge ref span =>
    cases ref with
    | byId ref => rfl
    | between source destination =>
      -- Neither endpoint is a plain star, so one that reads as a star is in quotes
      have hplain : source.isWildcard = false ∧ destination.isWildcard = false := by
        simpa [audit] using h
      have hsource := source.toText_beq_star
      have hdestination := destination.toText_beq_star
      rw [hplain.1, Bool.false_or] at hsource
      rw [hplain.2, Bool.false_or] at hdestination
      simp [toSpec, TargetSpec.isSound, hidesStar, bne, hsource, hdestination]
  | matching key value span =>
    have hvalue : value ≠ "" := by simpa [audit] using h
    simpa [toSpec, TargetSpec.isSound, hidesStar] using hvalue
  | several how members span ih => exact membersToSpec_isSound h ih
  | except base removed span ihbase ihremoved =>
    rw [audit, List.append_eq_nil_iff, List.append_eq_nil_iff] at h
    obtain ⟨⟨hplain, hbase⟩, hremoved⟩ := h
    -- The two sides are not both plain stars, so if both read as stars one is in quotes
    have hplain : (base.isWildcard && removed.isWildcard) = false := by simpa using hplain
    rw [toSpec, TargetSpec.isSound, hidesStar, toSpec_isWildcard, toSpec_isWildcard, ihbase hbase,
      ihremoved hremoved]
    revert hplain
    generalize base.isWildcard = a, removed.isWildcard = b, base.isQuotedStar = c,
      removed.isQuotedStar = d, base.hidesStar = e, removed.hidesStar = f
    revert a b c d e f
    decide

end Target

/-! ## Where documents come from -/

/-- The value is that of an expression with no other targets, whose variables stand for such values
in turn. -/
inductive Json.IsDrawnFrom (ts : List Target) : Json → Prop where
  | value (e : Expr) (scope : Scope) (hscope : ∀ f ∈ scope, IsDrawnFrom ts f.2)
      (he : e.targets ⊆ ts) : IsDrawnFrom ts (e.valueIn scope).value

/-- The action is what a statement with no other targets is lowered to. -/
def Action.IsDrawnFrom (a : Action) (ts : List Target) : Prop :=
  ∃ (s : Statement) (scope : Scope), (∀ f ∈ scope, f.2.IsDrawnFrom ts) ∧ s.targets ⊆ ts ∧
    a ∈ (s.lower scope).value.1

/-- The reaction listens on one of the targets, if on any. -/
structure Reaction.IsDrawnFrom (r : Reaction) (ts : List Target) : Prop where
  anchor : ∀ a ∈ r.anchor, ∃ t ∈ ts, a = .spec t.toSpec
  actions : ∀ a ∈ r.actions, a.IsDrawnFrom ts

/-- All that the stop holds has no other targets. -/
structure Stop.IsDrawnFrom (stop : Stop) (ts : List Target) : Prop where
  actions : ∀ a ∈ stop.actions, a.IsDrawnFrom ts
  reactions : ∀ r ∈ stop.reactions, r.IsDrawnFrom ts
  metadata : ∀ f ∈ stop.metadata, f.2.IsDrawnFrom ts

/-- All that the document holds has no other targets. -/
structure Document.IsDrawnFrom (d : Document) (ts : List Target) : Prop where
  stops : ∀ stop ∈ d.stops, stop.IsDrawnFrom ts
  reactions : ∀ r ∈ d.reactions, r.IsDrawnFrom ts
  /-- Targets with names are metadata as well. -/
  metadata : ∀ f ∈ d.metadata, f.2.IsDrawnFrom ts ∨
    ∃ fields, f.2 = .obj fields ∧ ∀ g ∈ fields, ∃ t ∈ ts, g.2 = t.toValue
  config : ∀ g ∈ d.diagram, ∀ v ∈ g.config, v.IsDrawnFrom ts

variable {scope : Scope} {ts : List Target} {stop : Stop} {stops : List Stop}

/-! ### Statements and rules -/

theorem evalOption_drawn {e : Option Expr} (hscope : ∀ f ∈ scope, f.2.IsDrawnFrom ts)
    (he : Expr.optionTargets e ⊆ ts) : ∀ v ∈ (evalOption scope e).value, v.IsDrawnFrom ts := by
  cases e with
  | none => simp [evalOption]
  | some e =>
    rintro v ⟨⟩
    exact .value e scope hscope (by simpa [Expr.optionTargets] using he)

/-- The scope after a statement binds what the statement defines, and what was bound. -/
theorem Statement.lower_scope_drawn (s : Statement) (hscope : ∀ f ∈ scope, f.2.IsDrawnFrom ts)
    (hs : s.targets ⊆ ts) : ∀ f ∈ (s.lower scope).value.2, f.2.IsDrawnFrom ts := by
  obtain ⟨kind, span⟩ := s
  cases kind with
  | define d => exact List.forall_mem_cons.2 ⟨.value d.value scope hscope hs, hscope⟩
  | _ => exact hscope

theorem lowerStatements_drawn {ss : List Statement} (hscope : ∀ f ∈ scope, f.2.IsDrawnFrom ts)
    (hs : ∀ s ∈ ss, s.targets ⊆ ts) :
    ∀ a ∈ (lowerStatements scope ss).value, a.IsDrawnFrom ts := by
  induction ss generalizing scope with
  | nil => simp [lowerStatements]
  | cons s rest ih =>
    obtain ⟨hs, hrest⟩ := List.forall_mem_cons.1 hs
    intro a ha
    rcases List.mem_append.1 ha with ha | ha
    · exact ⟨s, scope, hscope, hs, Option.mem_toList.1 ha⟩
    · exact ih (s.lower_scope_drawn hscope hs) hrest a ha

/-- A guard is only noted: it makes no difference to the reaction. -/
theorem Rule.lower_value (r : Rule) : (r.lower scope).value = r.event.kind.map fun event =>
    { event, actions := (lowerStatements scope r.actions).value
      anchor := r.target.map fun t => .spec t.toSpec
      key := r.event.key
      delayMs := r.event.delay.bind Literal.delayMs?
      eventName := r.event.name } := by
  rw [Rule.lower]
  cases r.event.kind with
  | none => rfl
  | some event => cases r.guard <;> rfl

theorem Rule.lower_drawn (r : Rule) (hscope : ∀ f ∈ scope, f.2.IsDrawnFrom ts)
    (hr : r.targets ⊆ ts) : ∀ a ∈ (r.lower scope).value, a.IsDrawnFrom ts := by
  have hactions : ∀ s ∈ r.actions, s.targets ⊆ ts := fun s hs t ht =>
    hr (List.mem_append_right _ (List.mem_flatMap.2 ⟨s, hs, ht⟩))
  intro a ha
  rw [r.lower_value, Option.mem_def, Option.map_eq_some_iff] at ha
  obtain ⟨event, -, rfl⟩ := ha
  refine ⟨fun b hb => ?_, lowerStatements_drawn hscope hactions⟩
  obtain ⟨t, ht, rfl⟩ := Option.map_eq_some_iff.1 hb
  exact ⟨t, hr (by simp [Rule.targets, ht]), rfl⟩

theorem lowerRules_drawn {rs : List Rule} (hscope : ∀ f ∈ scope, f.2.IsDrawnFrom ts)
    (hr : ∀ r ∈ rs, r.targets ⊆ ts) : ∀ a ∈ (lowerRules scope rs).value, a.IsDrawnFrom ts := by
  induction rs with
  | nil => simp [lowerRules]
  | cons r rest ih =>
    obtain ⟨hr, hrest⟩ := List.forall_mem_cons.1 hr
    intro a ha
    rcases List.mem_append.1 ha with ha | ha
    · exact r.lower_drawn hscope hr a (Option.mem_toList.1 ha)
    · exact ih hrest a ha

theorem Binding.lowerRules_drawn {b : Binding} (hscope : ∀ f ∈ scope, f.2.IsDrawnFrom ts)
    (hb : b.targets ⊆ ts) : ∀ a ∈ (lowerRules scope b.rules).value, a.IsDrawnFrom ts :=
  DiagramTour.lowerRules_drawn hscope fun r hr _ ht => hb (List.mem_flatMap.2 ⟨r, hr, ht⟩)

theorem lowerBindings_drawn {bs : List Binding} (hscope : ∀ f ∈ scope, f.2.IsDrawnFrom ts)
    (hb : ∀ b ∈ bs, b.targets ⊆ ts) :
    ∀ e ∈ (lowerBindings scope bs).value, ∀ a ∈ e.2, a.IsDrawnFrom ts := by
  induction bs with
  | nil => simp [lowerBindings]
  | cons b rest ih =>
    obtain ⟨hb, hrest⟩ := List.forall_mem_cons.1 hb
    exact List.forall_mem_cons.2 ⟨b.lowerRules_drawn hscope hb, ih hrest⟩

/-- Sorting by rank makes no reactions. -/
theorem forall_mem_byRank {P : Reaction → Prop} {ranked : List (Int × List Reaction)}
    (h : ∀ e ∈ ranked, ∀ a ∈ e.2, P a) : ∀ a ∈ byRank ranked, P a := by
  intro a ha
  obtain ⟨e, he, ha⟩ := List.mem_flatMap.1 ha
  exact h e ((List.mergeSort_perm _ _).mem_iff.1 he) a ha

/-! ### Steps -/

theorem lowerMetadata_drawn {entries : List (Entry Expr)}
    (hscope : ∀ f ∈ scope, f.2.IsDrawnFrom ts) (hentries : Expr.entriesTargets entries ⊆ ts)
    (hstop : stop.IsDrawnFrom ts) : (lowerMetadata scope stop entries).value.IsDrawnFrom ts := by
  induction entries generalizing stop with
  | nil => exact hstop
  | cons e rest ih =>
    obtain ⟨he, hrest⟩ := List.append_subset.1 hentries
    simp only [lowerMetadata, Noted.bind_value]
    split_ifs
    · exact ih hrest ⟨hstop.actions, hstop.reactions,
        Json.forall_mem_put (.value e.value scope hscope he) hstop.metadata⟩
    · split
      · exact ih hrest ⟨hstop.actions, hstop.reactions, hstop.metadata⟩
      · exact ih hrest hstop

theorem lowerBody_drawn {ss : List Statement} (hscope : ∀ f ∈ scope, f.2.IsDrawnFrom ts)
    (hs : ∀ s ∈ ss, s.targets ⊆ ts) (hstop : stop.IsDrawnFrom ts) :
    (lowerBody scope stop ss).value.1.IsDrawnFrom ts ∧
      ∀ f ∈ (lowerBody scope stop ss).value.2, f.2.IsDrawnFrom ts := by
  induction ss generalizing scope stop with
  | nil => exact ⟨hstop, hscope⟩
  | cons s rest ih =>
    obtain ⟨hs, hrest⟩ := List.forall_mem_cons.1 hs
    rw [lowerBody]
    split
    · rename_i m hm
      have hentries : Expr.entriesTargets m.entries ⊆ ts := by simpa [Statement.targets, hm] using hs
      exact ih hscope hrest (lowerMetadata_drawn hscope hentries hstop)
    · refine ih (s.lower_scope_drawn hscope hs) hrest ⟨fun a ha => ?_, hstop.reactions, hstop.metadata⟩
      rcases List.mem_append.1 ha with ha | ha
      · exact hstop.actions a ha
      · exact ⟨s, scope, hscope, hs, Option.mem_toList.1 ha⟩

theorem Step.lower_drawn (s : Step) (id : String) (hscope : ∀ f ∈ scope, f.2.IsDrawnFrom ts)
    (hs : s.targets ⊆ ts) : (s.lower scope id).value.IsDrawnFrom ts := by
  have hstatements : ∀ t ∈ s.statements, t.targets ⊆ ts := fun t ht _ hu =>
    hs (List.mem_append_left _ (List.mem_flatMap.2 ⟨t, ht, hu⟩))
  have hbindings : ∀ b ∈ s.bindings, b.targets ⊆ ts := fun b hb _ hu =>
    hs (List.mem_append_right _ (List.mem_flatMap.2 ⟨b, hb, hu⟩))
  have hempty : Stop.IsDrawnFrom ⟨id, s.title, [], [], none, []⟩ ts :=
    ⟨by simp, by simp, by simp⟩
  obtain ⟨hbody, hafter⟩ := lowerBody_drawn hscope hstatements hempty
  exact ⟨hbody.actions, forall_mem_byRank (lowerBindings_drawn hafter hbindings), hbody.metadata⟩

theorem lowerSteps_drawn {ss : List Step} (hscope : ∀ f ∈ scope, f.2.IsDrawnFrom ts)
    (hs : ∀ s ∈ ss, s.targets ⊆ ts) (hstops : ∀ stop ∈ stops, stop.IsDrawnFrom ts) :
    ∀ stop ∈ (lowerSteps scope stops ss).value, stop.IsDrawnFrom ts := by
  induction ss generalizing stops with
  | nil => exact hstops
  | cons s rest ih =>
    obtain ⟨hs, hrest⟩ := List.forall_mem_cons.1 hs
    exact ih hrest (List.forall_mem_append.2
      ⟨hstops, List.forall_mem_singleton.2 (s.lower_drawn _ hscope hs)⟩)

/-! ### Documents -/

theorem lowerGlobals_drawn {items : List Item} (hscope : ∀ f ∈ scope, f.2.IsDrawnFrom ts)
    (hi : ∀ i ∈ items, i.targets ⊆ ts) :
    ∀ f ∈ (lowerGlobals scope items).value, f.2.IsDrawnFrom ts := by
  induction items generalizing scope with
  | nil => exact hscope
  | cons i rest ih =>
    obtain ⟨hi, hrest⟩ := List.forall_mem_cons.1 hi
    cases i with
    | define d => exact ih (List.forall_mem_cons.2 ⟨.value d.value scope hscope hi, hscope⟩) hrest
    | _ => exact ih hscope hrest

theorem lowerEntries_drawn {entries : List (Entry Expr)} {metadata : List (String × Json)}
    (hscope : ∀ f ∈ scope, f.2.IsDrawnFrom ts) (hentries : Expr.entriesTargets entries ⊆ ts)
    (hmeta : ∀ f ∈ metadata, f.2.IsDrawnFrom ts) :
    ∀ f ∈ (lowerEntries scope metadata entries).value, f.2.IsDrawnFrom ts := by
  induction entries generalizing metadata with
  | nil => exact hmeta
  | cons e rest ih =>
    obtain ⟨he, hrest⟩ := List.append_subset.1 hentries
    exact ih hrest (Json.forall_mem_put (.value e.value scope hscope he) hmeta)

theorem Diagram.lower_drawn (d : Diagram) (hscope : ∀ f ∈ scope, f.2.IsDrawnFrom ts)
    (hd : (Item.diagram d).targets ⊆ ts) :
    ∀ g ∈ (d.lower scope).value, ∀ v ∈ g.config, v.IsDrawnFrom ts := by
  intro g hg
  rw [Diagram.lower] at hg
  split at hg
  · simp at hg
  · obtain rfl := Option.some.inj hg
    exact evalOption_drawn hscope (List.append_subset.1 hd).1

theorem selectors_drawn {es : List Selector} {fields : List (String × Json)}
    (he : ∀ e ∈ es, e.target ∈ ts) (hfields : ∀ f ∈ fields, ∃ t ∈ ts, f.2 = t.toValue) :
    ∀ f ∈ es.foldl (fun m e => Json.put e.name e.target.toValue m) fields,
      ∃ t ∈ ts, f.2 = t.toValue := by
  induction es generalizing fields with
  | nil => exact hfields
  | cons e rest ih =>
    obtain ⟨he, hrest⟩ := List.forall_mem_cons.1 he
    exact ih hrest (Json.forall_mem_put ⟨e.target, he, rfl⟩ hfields)

/-- What was lowered so far has no other targets. -/
structure Lowering.IsDrawnFrom (l : Lowering) (ts : List Target) : Prop where
  stops : ∀ stop ∈ l.document.stops, stop.IsDrawnFrom ts
  ranked : ∀ e ∈ l.ranked, ∀ r ∈ e.2, r.IsDrawnFrom ts
  metadata : ∀ f ∈ l.document.metadata, f.2.IsDrawnFrom ts
  selectors : ∀ f ∈ l.selectors, ∃ t ∈ ts, f.2 = t.toValue
  config : ∀ g ∈ l.document.diagram, ∀ v ∈ g.config, v.IsDrawnFrom ts

namespace Lowering.IsDrawnFrom

variable {l : Lowering}

theorem add {i : Item} (hscope : ∀ f ∈ scope, f.2.IsDrawnFrom ts) (hi : i.targets ⊆ ts)
    (h : l.IsDrawnFrom ts) : (l.add scope i).value.IsDrawnFrom ts := by
  cases i with
  | scene s =>
    have hsteps : ∀ t ∈ s.steps, t.targets ⊆ ts := fun t ht _ hu =>
      hi (List.mem_flatMap.2 ⟨t, ht, hu⟩)
    exact { h with stops := lowerSteps_drawn hscope hsteps h.stops }
  | binding b =>
    have hnew : ∀ e ∈ [(b.rank, (lowerRules scope b.rules).value)], ∀ r ∈ e.2, r.IsDrawnFrom ts :=
      List.forall_mem_singleton.2 (b.lowerRules_drawn hscope hi)
    exact { h with ranked := List.forall_mem_append.2 ⟨h.ranked, hnew⟩ }
  | diagram d =>
    rw [Lowering.add]
    split_ifs
    · exact h
    · exact { h with config := d.lower_drawn hscope hi }
  | metadata m => exact { h with metadata := lowerEntries_drawn hscope hi h.metadata }
  | selectors s =>
    have hentries : ∀ e ∈ s.entries, e.target ∈ ts := fun e he => hi (List.mem_map.2 ⟨e, he, rfl⟩)
    exact { h with selectors := selectors_drawn hentries h.selectors }
  | _ => exact h

theorem addAll {items : List Item} (hscope : ∀ f ∈ scope, f.2.IsDrawnFrom ts)
    (hi : ∀ i ∈ items, i.targets ⊆ ts) (h : l.IsDrawnFrom ts) :
    (l.addAll scope items).value.IsDrawnFrom ts := by
  induction items generalizing l with
  | nil => exact h
  | cons i rest ih =>
    obtain ⟨hi, hrest⟩ := List.forall_mem_cons.1 hi
    exact ih hrest (h.add hscope hi)

theorem finish (h : l.IsDrawnFrom ts) : l.finish.IsDrawnFrom ts := by
  refine ⟨h.stops, forall_mem_byRank h.ranked, ?_, h.config⟩
  have hmeta : ∀ f ∈ l.document.metadata, f.2.IsDrawnFrom ts ∨
      ∃ fields, f.2 = .obj fields ∧ ∀ g ∈ fields, ∃ t ∈ ts, g.2 = t.toValue :=
    fun f hf => .inl (h.metadata f hf)
  simp only [Lowering.finish]
  split_ifs
  · exact hmeta
  · exact Json.forall_mem_put (.inr ⟨l.selectors, rfl, h.selectors⟩) hmeta

end Lowering.IsDrawnFrom

/-- What a program is lowered to before the end. -/
def Program.lowering (p : Program) : Lowering :=
  (Lowering.addAll (lowerGlobals [] p.deckItems).value ⟨.empty, [], []⟩ p.deckItems).value

theorem Program.lowering_drawn (p : Program) : p.lowering.IsDrawnFrom p.targets := by
  have hitems : ∀ i ∈ p.deckItems, i.targets ⊆ p.targets := by
    intro i hi t ht
    rw [p.targets_eq]
    exact List.mem_flatMap.2 ⟨i, hi, ht⟩
  have hempty : ∀ f ∈ ([] : Scope), f.2.IsDrawnFrom p.targets := by simp
  have hglobals := lowerGlobals_drawn hempty hitems
  have hstart : Lowering.IsDrawnFrom ⟨.empty, [], []⟩ p.targets :=
    ⟨by simp [Document.empty], by simp, by simp [Document.empty], by simp, by simp [Document.empty]⟩
  exact hstart.addAll hglobals hitems

/-- All that a document holds was lowered from parts of the program. -/
theorem Program.lower_drawn (p : Program) : p.lower.value.IsDrawnFrom p.targets :=
  p.lowering_drawn.finish

/-! ## Targets that reach a document -/

/-- A text that compiles without errors has a document that was drawn from the targets of its
program.  Such a target, with all that it is combined of, is sound as the document names it exactly
when it hides no star. -/
theorem targets_reach_document_sound_iff (source : String)
    (h : (compile source).hasErrors = false) :
    ∃ p document, (compile source).program = some p ∧ (compile source).document = some document ∧
      document.IsDrawnFrom p.targets ∧
      ∀ t ∈ p.targets, t.toSpec.isSound = true ↔ t.hidesStar = false := by
  obtain ⟨p, hprogram, hdocument, -, haudit⟩ := compile_of_not_hasErrors h
  refine ⟨p, p.lower.value, hprogram, hdocument, p.lower_drawn, fun t ht => ?_⟩
  rw [Target.toSpec_isSound (Program.audit_targets haudit t ht), Bool.not_eq_true']

/-- A text with a node that is named by a star in quotes, where no plain star would be refused. -/
def starNode : String :=
  "mpd 1\nbinding \x7b on click target except(node *, group(edge A -> B, id \"x\")) \x7b " ++
    "focus node \"*\" \x7d \x7d"

theorem star_node_reaches_document_sound :
    (compile starNode).hasErrors = false ∧ ∃ p document,
      (compile starNode).program = some p ∧ (compile starNode).document = some document ∧
      document.IsDrawnFrom p.targets ∧ p.targets.length = 2 ∧
      ∀ t ∈ p.targets, t.toSpec.isSound = true := by
  have hrun : (compile starNode).hasErrors = false ∧
      ((compile starNode).program.map fun p => p.targets.map Target.hidesStar) =
        some [false, false] := by
    decide +kernel
  obtain ⟨p, document, hp, hd, hdrawn, hiff⟩ := targets_reach_document_sound_iff starNode hrun.1
  have hhides := hrun.2
  rw [hp, Option.map_some, Option.some.injEq] at hhides
  refine ⟨hrun.1, p, document, hp, hd, hdrawn, ?_, fun t ht => (hiff t ht).2 ?_⟩
  · simpa using congrArg List.length hhides
  · have : t.hidesStar ∈ [false, false] := hhides ▸ List.mem_map_of_mem ht
    simpa using this

/-- A text with an edge from a node that is named by a star in quotes. -/
def starEdge : String :=
  "mpd 1\nselectors \x7b e: edge \"*\" -> B \x7d"

/-- A star in quotes reaches a document where the audit refuses a plain one. -/
theorem quoted_star_reaches_document :
    ¬∀ source, (compile source).hasErrors = false → ∀ p, (compile source).program = some p →
      ∀ t ∈ p.targets, t.toSpec.isSound = true := by
  intro hall
  have hrun : (compile starEdge).hasErrors = false ∧
      ((compile starEdge).program.map fun p => p.targets.map fun t => t.toSpec.isSound) =
        some [false] := by
    decide +kernel
  obtain ⟨p, hp, -⟩ := compile_of_not_hasErrors hrun.1
  have hsound := hrun.2
  rw [hp, Option.map_some, Option.some.injEq] at hsound
  obtain ⟨t, ht, hfalse⟩ : ∃ t ∈ p.targets, t.toSpec.isSound = false := by
    rw [← List.mem_map, hsound]
    simp
  rw [hall starEdge hrun.1 p hp t ht] at hfalse
  exact absurd hfalse (by decide)

end DiagramTour
