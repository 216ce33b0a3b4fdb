import DiagramTour.Proofs.Document.RoundTrip
import DiagramTour.Proofs.Lower.Ids
import DiagramTour.Proofs.Lower.Naming
import DiagramTour.Proofs.Lower.Specs
import DiagramTour.Proofs.Program.Settings

/-!
# Lowered documents are in order

Whatever a program is lowered to is a document in order, be the program right or wrong: values are
settled, delays have 64 bits, stops are told apart by their ids, and no payload and no configuration is
null.

## Architecture

- `Expr.result_isSettled`: an expression comes to a settled value where its variables stand for such
  values.  So all values that a document was drawn from are settled.
- `Lowering.IsOrderly` is what else every declaration keeps.
- `Program.lower_isSettled` and `Program.lower_isPlain` put both together.
-/

namespace DiagramTour

variable {scope s : Scope} {v : Json} {fields : List (String × Json)}

/-! ## Known values -/

namespace Json

theorem isSettled_number (x : Float) : (Json.number x).IsSettled := by
  unfold Json.number Json.ofFloat
  split_ifs
  · exact .int _
  · exact .float _
  · exact .null

theorem IsSettled.lookup {key : String} (h : ∀ f ∈ fields, f.2.IsSettled)
    (hv : lookup key fields = some v) : v.IsSettled := by
  obtain ⟨f, hf, rfl⟩ := Option.map_eq_some_iff.mp hv
  exact h f (List.mem_of_find?_eq_some hf)

/-- A part of a settled value is settled. -/
theorem IsSettled.child? {j : Json} {segment : String} (h : j.IsSettled)
    (hv : j.child? segment = some v) : v.IsSettled := by
  cases j with
  | obj fields => exact .lookup (isSettled_obj.mp h).2 hv
  | arr items =>
      obtain ⟨i, -, hi⟩ := Option.bind_eq_some_iff.mp hv
      exact isSettled_arr.mp h v (List.mem_of_getElem? hi)
  | _ => cases hv

theorem IsSettled.descend? {path : List String} {j : Json} (h : j.IsSettled)
    (hv : j.descend? path = some v) : v.IsSettled := by
  induction path generalizing j with
  | nil =>
      cases hv
      exact h
  | cons segment path ih =>
      obtain ⟨k, hk, hv⟩ := Option.bind_eq_some_iff.mp hv
      exact ih (h.child? hk) hv

end Json

theorem isSettled_checked {n : Int} (h : checked n = some v) : v.IsSettled := by
  unfold checked at h
  split at h
  · cases h
    exact .int n
  · cases h

theorem isSettled_foldUnary {op : UnaryOp} {a : Json} (h : foldUnary op a = some v) : v.IsSettled := by
  unfold foldUnary at h
  split at h
  · split at h
    · cases h
      exact .bool _
    · cases h
  · split at h
    · exact isSettled_checked h
    · obtain ⟨x, -, rfl⟩ := Option.map_eq_some_iff.mp h
      exact Json.isSettled_number _

theorem isSettled_foldInts {op : BinaryOp} {m n : Int} (h : foldInts op m n = some v) : v.IsSettled := by
  unfold foldInts at h
  split at h
  · exact isSettled_checked h
  · exact isSettled_checked h
  · exact isSettled_checked h
  · split at h
    · cases h
    · exact isSettled_checked h
  · cases h

theorem isSettled_foldFloats {op : BinaryOp} {x y : Float} (h : foldFloats op x y = some v) :
    v.IsSettled := by
  unfold foldFloats at h
  split at h <;> try split at h
  all_goals first | cases h; exact .bool _ | cases h; exact Json.isSettled_number _ | cases h

theorem isSettled_foldNumbers {op : BinaryOp} {a b : Json} (h : foldNumbers op a b = some v) :
    v.IsSettled := by
  unfold foldNumbers at h
  dsimp only at h
  split at h
  · rename_i whole hwhole
    cases h
    split at hwhole
    · exact isSettled_foldInts hwhole
    · cases hwhole
  · split at h
    · exact isSettled_foldFloats h
    · cases h

theorem isSettled_foldBinary {op : BinaryOp} {a b : Json} (h : foldBinary op a b = some v) :
    v.IsSettled := by
  unfold foldBinary at h
  split at h <;> try split at h
  all_goals first
    | cases h; exact .bool _
    | cases h; exact .str _
    | exact isSettled_foldNumbers h
    | cases h

/-! ## Values of expressions -/

theorem Literal.isSettled_toValue (l : Literal) : l.toValue.IsSettled := by
  unfold Literal.toValue
  split
  · exact Json.isSettled_number _
  · exact Json.isSettled_number _
  · exact .int _
  · exact .str _
  · exact .bool _
  · exact .null
  · exact .str _
  · exact .str _

theorem Target.isSettled_toValue (t : Target) : t.toValue.IsSettled :=
  Json.isSettled_settle _

/-- The result of an operation is settled if its value and the operation are. -/
theorem Evaluated.isSettled_ofFold {known : Bool} {value : Option Json} {operation : Json}
    (hvalue : ∀ v, value = some v → v.IsSettled) (hoperation : operation.IsSettled) :
    (Evaluated.ofFold known value operation).value.IsSettled := by
  unfold Evaluated.ofFold
  split
  · exact hvalue _ rfl
  · exact hoperation

/-- The payload of a call is settled if its arguments are, and it is not null. -/
theorem isSettled_callAction {callee : String} {args : List (Option String × Json)}
    (h : ∀ a ∈ args, a.2.IsSettled) :
    (callAction callee args).IsSettled ∧ (callAction callee args).payload ≠ some .null := by
  unfold callAction
  split
  · exact ⟨by rintro v ⟨⟩, by simp⟩
  · refine ⟨?_, by simp⟩
    rintro v ⟨⟩
    -- The named arguments make up a map, and the others are one more entry of it
    have hnamed : (Json.obj (Json.mapOf (args.filterMap fun a =>
        a.1.map fun k => (k, a.2)))).IsSettled := by
      apply Json.isSettled_mapOf
      rintro f hf
      obtain ⟨a, ha, hname⟩ := List.mem_filterMap.mp hf
      obtain ⟨k, -, rfl⟩ := Option.map_eq_some_iff.mp hname
      exact h a ha
    unfold callPayload
    split
    · exact hnamed
    · apply hnamed.put
      apply Json.IsSettled.arr
      intro v hv
      obtain ⟨a, ha, hname⟩ := List.mem_filterMap.mp hv
      obtain rfl : a.2 = v := by
        dsimp only at hname
        split at hname
        · exact Option.some.inj hname
        · cases hname
      exact h a ha

theorem Action.isSettled_toValue {a : Action} (h : a.IsSettled) : a.toValue.IsSettled := by
  apply Json.isSettled_object
  intro f hf
  rcases List.mem_cons.mp hf with rfl | hf
  · exact .str _
  · obtain ⟨v, hv, rfl⟩ := Json.Draft.mem_fieldIfSome.mp hf
    exact h v hv

/-- An expression comes to a settled value where its variables stand for such values. -/
theorem Expr.result_isSettled (h : ∀ f ∈ s, f.2.IsSettled) (e : Expr) : (e.result s).value.IsSettled := by
  induction e using Expr.induction_parts with
  | literal l span =>
      rw [result_literal]
      exact l.isSettled_toValue
  | var path span =>
      -- A variable that nothing binds is null; else its value lies on a way into a settled one
      rw [result_var]
      cases hv : s.lookup? path with
      | none => exact .null
      | some v =>
          cases path with
          | nil => cases hv
          | cons name path =>
              obtain ⟨j, hj, hv⟩ := Option.bind_eq_some_iff.mp hv
              exact (Json.IsSettled.lookup h hj).descend? hv
  | object entries span ih =>
      rw [result_object]
      apply Json.isSettled_object
      exact List.forall_mem_map.mpr ih
  | array items span ih =>
      rw [result_array]
      exact .arr (List.forall_mem_map.mpr ih)
  | call callee args span ih =>
      rw [result_call]
      exact Action.isSettled_toValue (isSettled_callAction (List.forall_mem_map.mpr ih)).1
  | unary op operand span ih =>
      rw [result_unary]
      apply Evaluated.isSettled_ofFold fun v hv => isSettled_foldUnary hv
      apply Json.isSettled_object
      simp [ih, Json.IsSettled.str]
  | binary op left right span ihleft ihright =>
      rw [result_binary]
      apply Evaluated.isSettled_ofFold fun v hv => isSettled_foldBinary hv
      apply Json.isSettled_object
      simp [ihleft, ihright, Json.IsSettled.str]
  | target t span =>
      rw [result_target]
      exact t.isSettled_toValue

/-- All that was drawn from a tree is settled. -/
theorem Json.IsDrawnFrom.isSettled {ts : List Target} (h : v.IsDrawnFrom ts) : v.IsSettled := by
  induction h with
  | value e scope _ _ ih => exact e.result_isSettled ih

/-! ## Actions -/

theorem isSettled_putValue {key : String} {value : Option Json} (h : (Json.obj fields).IsSettled)
    (hvalue : ∀ v, value = some v → v.IsSettled) : (Json.obj (putValue key value fields)).IsSettled := by
  cases value with
  | none => exact h
  | some v => exact h.put (hvalue v rfl)

theorem isSettled_evalOption {e : Option Expr} (h : ∀ f ∈ s, f.2.IsSettled) :
    ∀ v, (evalOption s e).value = some v → v.IsSettled := by
  cases e with
  | none => rintro v ⟨⟩
  | some e =>
      rintro v ⟨⟩
      exact e.result_isSettled h

/-- The payload of an action is an object, if there is one. -/
theorem Statement.lower_isSettled {a : Action} (t : Statement) (h : ∀ f ∈ s, f.2.IsSettled)
    (ha : (t.lower s).value.1 = some a) : a.IsSettled ∧ a.payload ≠ some .null := by
  obtain ⟨kind, span⟩ := t
  cases kind with
  | focus f =>
      cases ha
      refine ⟨?_, by simp⟩
      rintro v ⟨⟩
      -- Each setting is put into a payload that has the target already
      have htarget : (Json.obj [("target", f.target.toValue)]).IsSettled :=
        .obj (List.pairwise_singleton _ _) (by simpa using f.target.isSettled_toValue)
      have halign : ∀ v, f.align.map Json.str = some v → v.IsSettled := by
        intro v hv
        obtain ⟨text, -, rfl⟩ := Option.map_eq_some_iff.mp hv
        exact .str _
      exact isSettled_putValue (isSettled_putValue (isSettled_putValue htarget
        (isSettled_evalOption h)) halign) (isSettled_evalOption h)
  | call c =>
      cases ha
      apply isSettled_callAction
      rw [Expr.evalArgs_value]
      exact List.forall_mem_map.mpr fun arg _ => arg.value.result_isSettled h
  | assert condition message =>
      cases ha
      refine ⟨?_, by simp⟩
      rintro v ⟨⟩
      have hcondition : (Json.obj [("condition", (condition.result s).value)]).IsSettled :=
        .obj (List.pairwise_singleton _ _) (by simpa using condition.result_isSettled h)
      exact isSettled_putValue hcondition (isSettled_evalOption h)
  | define d => cases ha
  | metadata m => cases ha

theorem Action.IsDrawnFrom.isSettled {a : Action} {ts : List Target} (h : a.IsDrawnFrom ts) :
    a.IsSettled ∧ a.payload ≠ some .null := by
  obtain ⟨t, scope, hscope, -, ha⟩ := h
  exact t.lower_isSettled (fun f hf => (hscope f hf).isSettled) ha

/-! ## Delays -/

/-- The delay of the rule has 64 bits. -/
def Reaction.IsTimely (r : Reaction) : Prop :=
  ∀ n, r.delayMs = some n → n < Number.twoTo 64

theorem Literal.delayMs?_lt {l : Literal} {n : Nat} (h : l.delayMs? = some n) : n < Number.twoTo 64 := by
  -- A double is rounded to 64 bits, and a whole number has one bit less
  have htwo : Number.twoTo 64 = 2 ^ 64 := by rfl
  rw [htwo]
  unfold Literal.delayMs? at h
  split at h
  · split at h
    · cases h
      exact UInt64.toNat_lt _
    · cases h
  · split at h
    · cases h
      exact UInt64.toNat_lt _
    · cases h
  · rename_i ms _
    split at h
    · cases h
      have := ms.toInt_lt
      omega
    · cases h
  · cases h

/-- A guard is dropped, and a delay is that of a literal. -/
theorem Rule.lower_isTimely {r : Rule} {a : Reaction} (ha : (r.lower s).value = some a) : a.IsTimely := by
  rw [r.lower_value, Option.map_eq_some_iff] at ha
  obtain ⟨event, -, rfl⟩ := ha
  intro n hn
  obtain ⟨l, -, hl⟩ := Option.bind_eq_some_iff.mp hn
  exact Literal.delayMs?_lt hl

theorem lowerRules_isTimely (rs : List Rule) : ∀ a ∈ (lowerRules s rs).value, a.IsTimely := by
  induction rs with
  | nil => simp [lowerRules]
  | cons r rest ih =>
      intro a ha
      rcases List.mem_append.mp ha with ha | ha
      · exact r.lower_isTimely (Option.mem_toList.mp ha)
      · exact ih a ha

theorem lowerBindings_isTimely (bs : List Binding) :
    ∀ e ∈ (lowerBindings s bs).value, ∀ a ∈ e.2, a.IsTimely := by
  induction bs with
  | nil => simp [lowerBindings]
  | cons b rest ih => exact List.forall_mem_cons.mpr ⟨lowerRules_isTimely b.rules, ih⟩

/-! ## Stops -/

/-- The metadata of the stop is a map, and its rules are timely. -/
structure Stop.IsOrderly (stop : Stop) : Prop where
  metadata : Json.IsMap stop.metadata
  reactions : ∀ r ∈ stop.reactions, r.IsTimely

theorem lowerMetadata_isMap {stop : Stop} (entries : List (Entry Expr)) (h : Json.IsMap stop.metadata) :
    Json.IsMap (lowerMetadata s stop entries).value.metadata :=
  lowerMetadata_induction (P := fun t => Json.IsMap t.metadata) s entries (fun _ _ _ h => h.put)
    (fun _ _ h => h) h

theorem lowerBody_isMap {stop : Stop} (ss : List Statement) (h : Json.IsMap stop.metadata) :
    Json.IsMap (lowerBody s stop ss).value.1.metadata := by
  induction ss generalizing s stop with
  | nil => exact h
  | cons t rest ih =>
      rw [lowerBody]
      split
      · exact ih (lowerMetadata_isMap _ h)
      · exact ih h

theorem Step.lower_isOrderly (t : Step) (id : String) : (t.lower s id).value.IsOrderly :=
  ⟨lowerBody_isMap t.statements .nil, forall_mem_byRank (lowerBindings_isTimely t.bindings)⟩

theorem lowerSteps_isOrderly {stops : List Stop} (ss : List Step) (h : ∀ stop ∈ stops, stop.IsOrderly) :
    ∀ stop ∈ (lowerSteps s stops ss).value, stop.IsOrderly := by
  induction ss generalizing stops with
  | nil => exact h
  | cons t rest ih =>
      exact ih (List.forall_mem_append.mpr ⟨h, List.forall_mem_singleton.mpr (t.lower_isOrderly _)⟩)

/-- A stop in order whose values were drawn from a tree is settled. -/
theorem Stop.IsOrderly.isSettled {stop : Stop} {ts : List Target} (h : stop.IsOrderly)
    (hdrawn : stop.IsDrawnFrom ts) : stop.IsSettled where
  actions a ha := (hdrawn.actions a ha).isSettled.1
  reactions r hr := ⟨h.reactions r hr, fun a ha => ((hdrawn.reactions r hr).actions a ha).isSettled.1⟩
  metadata := .obj h.metadata fun f hf => (hdrawn.metadata f hf).isSettled

/-! ## Documents -/

/-- What was lowered so far is in order: metadata and named targets are maps, delays have 64 bits, stops
are told apart, and a configuration is not null. -/
structure Lowering.IsOrderly (l : Lowering) : Prop where
  stops : ∀ stop ∈ l.document.stops, stop.IsOrderly
  distinct : AreDistinct l.document.stops
  ranked : ∀ e ∈ l.ranked, ∀ r ∈ e.2, r.IsTimely
  metadata : Json.IsMap l.document.metadata
  selectors : (Json.obj l.selectors).IsSettled
  config : ∀ g, l.document.diagram = some g → g.config ≠ some .null

theorem lowerEntries_isMap {metadata : List (String × Json)} (entries : List (Entry Expr))
    (h : Json.IsMap metadata) : Json.IsMap (lowerEntries s metadata entries).value := by
  induction entries generalizing metadata with
  | nil => exact h
  | cons e rest ih => exact ih h.put

theorem isSettled_selectors (es : List Selector) (h : (Json.obj fields).IsSettled) :
    (Json.obj (es.foldl (fun m e => Json.put e.name e.target.toValue m) fields)).IsSettled := by
  induction es generalizing fields with
  | nil => exact h
  | cons e rest ih => exact ih (h.put e.target.isSettled_toValue)

/-- An object comes to an object. -/
theorem Expr.AreSettings.result_ne_null {e : Expr} (h : e.AreSettings) : (e.result s).value ≠ .null := by
  obtain ⟨entries, span, rfl⟩ := h
  simp [Json.object]

theorem Diagram.IsConfigured.lower {d : Diagram} (h : d.IsConfigured) {g : DiagramSpec}
    (hg : (d.lower s).value = some g) : g.config ≠ some .null := by
  rw [Diagram.lower] at hg
  split at hg
  · cases hg
  · obtain rfl := Option.some.inj hg
    cases hconfig : d.config with
    | none => simp [evalOption]
    | some e =>
        have hne := (h e hconfig).result_ne_null (s := s)
        simpa [evalOption, hconfig, Expr.valueIn_value] using hne

namespace Lowering.IsOrderly

variable {l : Lowering}

theorem add {i : Item} (hi : ∀ d, i = .diagram d → d.IsConfigured) (h : l.IsOrderly) :
    (l.add s i).value.IsOrderly := by
  cases i with
  | scene sc =>
      exact { h with
        stops := lowerSteps_isOrderly sc.steps h.stops
        distinct := h.distinct.lowerSteps }
  | binding b =>
      have hnew : ∀ e ∈ [(b.rank, (lowerRules s b.rules).value)], ∀ r ∈ e.2, r.IsTimely :=
        List.forall_mem_singleton.mpr (lowerRules_isTimely b.rules)
      exact { h with ranked := List.forall_mem_append.mpr ⟨h.ranked, hnew⟩ }
  | diagram d =>
      rw [Lowering.add]
      split_ifs
      · exact h
      · exact { h with config := fun g hg => (hi d rfl).lower hg }
  | metadata m => exact { h with metadata := lowerEntries_isMap m.entries h.metadata }
  | selectors d => exact { h with selectors := isSettled_selectors d.entries h.selectors }
  | _ => exact h

theorem addAll {items : List Item} (hi : ∀ d, Item.diagram d ∈ items → d.IsConfigured)
    (h : l.IsOrderly) : (l.addAll s items).value.IsOrderly := by
  induction items generalizing l with
  | nil => exact h
  | cons i rest ih =>
      apply ih fun d hd => hi d (List.mem_cons_of_mem _ hd)
      apply h.add
      rintro d rfl
      exact hi d List.mem_cons_self

/-- What is settled and in order before the end is so in the end. -/
theorem finish_isSettled {ts : List Target} (h : l.IsOrderly) (hdrawn : l.IsDrawnFrom ts) :
    l.finish.IsSettled where
  stops stop hs := (h.stops stop hs).isSettled (hdrawn.stops stop hs)
  reactions r hr := ⟨forall_mem_byRank h.ranked r hr, fun a ha =>
    ((forall_mem_byRank hdrawn.ranked r hr).actions a ha).isSettled.1⟩
  diagram g hg v hv := (hdrawn.config g hg v hv).isSettled
  metadata := by
    -- The named targets are one more entry, unless their key is taken
    have hmetadata : (Json.obj l.document.metadata).IsSettled :=
      .obj h.metadata fun f hf => (hdrawn.metadata f hf).isSettled
    simp only [Lowering.finish]
    split_ifs
    · exact hmetadata
    · exact hmetadata.put h.selectors

theorem finish_isPlain {ts : List Target} (h : l.IsOrderly) (hdrawn : l.IsDrawnFrom ts) :
    l.finish.IsPlain where
  named := h.distinct.named
  distinct := h.distinct.distinct
  payloads a ha := by
    have hfinish := hdrawn.finish
    rcases List.mem_append.mp ha with ha | ha
    · obtain ⟨stop, hs, ha⟩ := List.mem_flatMap.mp ha
      exact ((hfinish.stops stop hs).actions a ha).isSettled.2
    · obtain ⟨r, hr, ha⟩ := List.mem_flatMap.mp ha
      rcases List.mem_append.mp hr with hr | hr
      · exact ((hfinish.reactions r hr).actions a ha).isSettled.2
      · obtain ⟨stop, hs, hr⟩ := List.mem_flatMap.mp hr
        exact (((hfinish.stops stop hs).reactions r hr).actions a ha).isSettled.2
  config := h.config

end Lowering.IsOrderly

/-- What a program is lowered to is in order, if its diagrams are configured by objects. -/
theorem Program.lowering_isOrderly {p : Program} (h : ∀ d, Item.diagram d ∈ p.deckItems → d.IsConfigured) :
    p.lowering.IsOrderly := by
  have hstart : Lowering.IsOrderly ⟨.empty, [], []⟩ :=
    ⟨by simp [Document.empty], ⟨by simp [Document.empty], by simp [Document.empty]⟩, by simp, .nil,
      .obj .nil (by simp), by simp [Document.empty]⟩
  exact hstart.addAll h

/-! ## Two ways to author a document -/

/-- A document whose stops are told apart by their ids, and whose payloads and configuration are not
null, is loaded again from its form.  What a text is compiled to is such a document, whatever is wrong
with the text: so whoever authors in one way could have authored in the other. -/
theorem documents_survive_json :
    (∀ d : Document, d.IsSettled → d.IsPlain → Document.ofJson d.toJson.settle = .ok d) ∧
      ∀ source p, (compile source).program = some p → ∃ d, (compile source).document = some d ∧
        d.IsSettled ∧ d.IsPlain ∧ Document.ofJson d.toJson.settle = .ok d := by
  refine ⟨fun d hsettled hplain => Document.ofJson_toJson hsettled hplain, fun source p hp => ?_⟩
  have hparsed : (parse source).program = some p ∧ (compile source).document = some p.lower.value := by
    unfold compile at hp ⊢
    cases hread : (parse source).program with
    | none => simp [hread] at hp
    | some q =>
        obtain rfl : q = p := by simpa [hread] using hp
        simp [hread]
  have horder := Program.lowering_isOrderly fun d hd => isConfigured_of_parse hparsed.1 hd
  have hsettled : p.lower.value.IsSettled := horder.finish_isSettled p.lowering_drawn
  have hplain : p.lower.value.IsPlain := horder.finish_isPlain p.lowering_drawn
  exact ⟨p.lower.value, hparsed.2, hsettled, hplain, Document.ofJson_toJson hsettled hplain⟩

/-- A document with something in most of its fields. -/
def authored : Document where
  stops := [⟨"a", some "A", [⟨"camera.fit", some (.obj [("pad", .int 24)])⟩], [], some .haltOnError,
    [("note", .null)]⟩, ⟨"b", none, [⟨"noop", none⟩], [], none, []⟩]
  reactions := [⟨.timer, some (.spec (.except (.element .node "*") (.several .group
    [.edge none (some "A") (some "B")]))), none, some 500, none, [⟨"nav.next", none⟩]⟩]
  diagram := some ⟨"mermaid", "graph TD", none, some (.obj [("theme", .str "dark")])⟩
  metadata := [("title", .str "T")]

/-- A text with steps of one name and an unfinished line. -/
def slipped : String :=
  "mpd 1\nscene \x7b step a \x7b do f(1, to: 2) \x7d step a \x7b do \x7d \x7d\n" ++
    "diagram d \x7b mermaid \"graph TD\" config \x7d"

theorem authored_survives_json :
    (authored.IsSettled ∧ authored.IsPlain ∧ Document.ofJson authored.toJson.settle = .ok authored) ∧
      (compile slipped).hasErrors = true ∧ ∃ p d, (compile slipped).program = some p ∧
        (compile slipped).document = some d ∧ d.stops.map Stop.id = ["a", "a-2"] ∧
        Document.ofJson d.toJson.settle = .ok d := by
  have hsettled : authored.IsSettled := by
    constructor
    · simp only [authored, List.forall_mem_cons]
      refine ⟨⟨?_, by simp, Json.isSettled_iff.mpr rfl⟩, ⟨?_, by simp, Json.isSettled_iff.mpr rfl⟩,
        by simp⟩
      · rintro a (_ | ⟨_, ⟨⟩⟩) v ⟨⟩
        exact Json.isSettled_iff.mpr rfl
      · rintro a (_ | ⟨_, ⟨⟩⟩) v ⟨⟩
    · simp only [authored, List.forall_mem_singleton]
      refine ⟨?_, ?_⟩
      · rintro n ⟨⟩
        decide
      · rintro a (_ | ⟨_, ⟨⟩⟩) v ⟨⟩
    · rintro g ⟨⟩ v ⟨⟩
      exact Json.isSettled_iff.mpr rfl
    · exact Json.isSettled_iff.mpr rfl
  have hplain : authored.IsPlain := by
    constructor <;> simp [authored, Document.actions]
  have hrun : (compile slipped).hasErrors = true ∧ (compile slipped).program.isSome = true ∧
      (compile slipped).document.map (fun d => d.stops.map Stop.id) = some ["a", "a-2"] := by
    decide +kernel
  obtain ⟨herrors, hprogram, hids⟩ := hrun
  obtain ⟨p, hp⟩ := Option.isSome_iff_exists.mp hprogram
  obtain ⟨d, hd, -, -, hread⟩ := documents_survive_json.2 slipped p hp
  rw [hd] at hids
  exact ⟨⟨hsettled, hplain, documents_survive_json.1 authored hsettled hplain⟩, herrors, p, d, hp, hd,
    Option.some.inj hids, hread⟩

end DiagramTour
