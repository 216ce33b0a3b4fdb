import DiagramTour.Proofs.Document.Targets
import DiagramTour.Proofs.Json.Reading

/-!
# Documents survive their form

A document is told by its form: whoever reads the form gets the document.  The form of nothing is nothing
only where a value is left out; so a payload or a configuration must not be null.

## Architecture

- `IsSettled` is what the fields of a document hold whoever made it: maps with their keys in order, and
  delays of 64 bits.
- One lemma for each record says that it is read from its form; each goes through
  `Json.Draft.record_settle`.
- `Document.ofJson_toJson` adds the check of the ids.
-/

namespace DiagramTour

/-! ## What the fields hold -/

/-- The payload of the action is in order. -/
def Action.IsSettled (a : Action) : Prop :=
  ∀ v, a.payload = some v → v.IsSettled

/-- The parts of the rule are in order, and its delay has 64 bits. -/
structure Reaction.IsSettled (r : Reaction) : Prop where
  delay : ∀ n, r.delayMs = some n → n < Number.twoTo 64
  actions : ∀ a ∈ r.actions, a.IsSettled

/-- The parts of the stop are in order. -/
structure Stop.IsSettled (s : Stop) : Prop where
  actions : ∀ a ∈ s.actions, a.IsSettled
  reactions : ∀ r ∈ s.reactions, r.IsSettled
  metadata : (Json.obj s.metadata).IsSettled

/-- The configuration of the diagram is in order. -/
def DiagramSpec.IsSettled (g : DiagramSpec) : Prop :=
  ∀ v, g.config = some v → v.IsSettled

/-- The parts of the document are in order. -/
structure Document.IsSettled (d : Document) : Prop where
  stops : ∀ s ∈ d.stops, s.IsSettled
  reactions : ∀ r ∈ d.reactions, r.IsSettled
  diagram : ∀ g, d.diagram = some g → g.IsSettled
  metadata : (Json.obj d.metadata).IsSettled

/-- Stops are told apart by their ids, and where there is a payload or a configuration, it is not
null. -/
structure Document.IsPlain (d : Document) : Prop where
  named : ∀ s ∈ d.stops, s.id ≠ ""
  distinct : (d.stops.map Stop.id).Nodup
  payloads : ∀ a ∈ d.actions, a.payload ≠ some .null
  config : ∀ g, d.diagram = some g → g.config ≠ some .null

/-- No payload of a rule is null, be it a rule of the document or of a stop. -/
theorem Document.IsPlain.payloads_of_reaction {d : Document} (h : d.IsPlain) {r : Reaction} {a : Action}
    (hr : r ∈ d.reactions ++ d.stops.flatMap Stop.reactions) (ha : a ∈ r.actions) :
    a.payload ≠ some .null :=
  h.payloads a (List.mem_append_right _ (List.mem_flatMap.mpr ⟨r, hr, ha⟩))

namespace Json.Draft

/-! ## Leaves -/

theorem text_toJson (s : String) : text (ofJson (Json.str s).settle) = .ok s := rfl

theorem oneOf_str {α : Type} {ofName : String → Option α} {name : String} {a : α}
    (h : ofName name = some a) : oneOf ofName (ofJson (Json.str name).settle) = .ok a := by
  simp [Json.settle, ofJson, oneOf, h]

theorem nat64_toJson {n : Nat} (h : n < Number.twoTo 64) : nat64 (ofJson (Json.nat n).settle) = .ok n := by
  have hle : (n : Int) ≤ (Number.twoTo 64 - 1 : Nat) := by omega
  simp only [Json.nat, Json.settle, ofJson, nat64, natUpTo]
  rw [if_pos (by simpa using hle)]
  simp

/-- What listens is a text or an object. -/
theorem anchor_toJson (a : Anchor) : anchor (ofJson a.toJson.settle) = .ok a := by
  cases a with
  | selector text => rfl
  | spec t =>
      obtain ⟨fields, hfields⟩ := t.exists_toJson_settle
      have hread : Anchor.ofJson? (.obj fields) = some (.spec t) := by
        rw [Anchor.ofJson?, ← hfields, t.ofJson?_toJson]
        · rfl
        · simp
      rw [Anchor.toJson, anchor, value_ofJson, hfields]
      simp [bind, Except.bind, hread]

theorem anchor_settle_ne_null (a : Anchor) : a.toJson.settle ≠ .null := by
  cases a with
  | selector text => simp [Anchor.toJson, Json.settle]
  | spec t =>
      obtain ⟨fields, hfields⟩ := t.exists_toJson_settle
      simp [Anchor.toJson, hfields]

theorem EventKind.ofName?_name (kind : EventKind) : EventKind.ofName? kind.name = some kind := by
  cases kind <;> rfl

theorem ErrorPolicy.ofName?_name (p : ErrorPolicy) : ErrorPolicy.ofName? p.name = some p := by
  cases p <;> rfl

/-- A value that is left out where there is none. -/
theorem orNull_toJson {α : Type} {shape : Shape α} {j : Json} {a : α} (h : shape (ofJson j) = .ok a)
    (hne : j ≠ .null) : orNull shape (ofJson j) = .ok (some a) := by
  rw [orNull_ofJson shape hne, h]
  rfl

/-! ## Records -/

/-- An action is read from its form.  A payload that is null would be taken for none. -/
theorem action_toJson {a : Action} (h : a.IsSettled) (hnull : a.payload ≠ some .null) :
    action (ofJson a.toJson.settle) = .ok a := by
  apply record_settle fun ks => ⟨part "type" ks "" a.kind, part "payload" ks none a.payload⟩
  case hstart => rfl
  case hset =>
    intro f hf ks
    rcases List.mem_cons.mp hf with rfl | hf
    · simp [text_toJson]
    · obtain ⟨v, hv, rfl⟩ := mem_fieldIfSome.mp hf
      have hv' := h v hv
      -- Here a null would be lost: it is read as nothing
      have hne : v ≠ .null := fun heq => hnull (heq ▸ hv)
      simp [hv'.settle_eq, orNull_toJson (any_ofJson hv') hne, hv]
  case hkeys => exact (keys_fieldIfSome _ _ _).cons_cons _
  case hnames => decide
  case hneeded => simp
  case hall =>
    intro ks hks
    obtain ⟨htype, hpayload⟩ := List.forall_mem_cons.mp hks
    rw [part_eq fun _ => htype, part_optional hpayload]

theorem actions_toJson {as : List Action} (h : ∀ a ∈ as, a.IsSettled)
    (hnull : ∀ a ∈ as, a.payload ≠ some .null) :
    list action (ofJson (actionList as).settle) = .ok as :=
  list_ofJson fun a ha => action_toJson (h a ha) (hnull a ha)

/-- A rule is read from its form. -/
theorem reaction_toJson {r : Reaction} (h : r.IsSettled) (hnull : ∀ a ∈ r.actions, a.payload ≠ some .null) :
    reaction (ofJson r.toJson.settle) = .ok r := by
  apply record_settle fun ks =>
    ⟨part "event" ks .click r.event, part "target" ks none r.anchor, part "key" ks none r.key,
      part "delayMs" ks none r.delayMs, part "eventName" ks none r.eventName,
      part "actions" ks [] r.actions⟩
  case hstart => rfl
  case hset =>
    intro f hf ks
    simp only [List.mem_cons, List.mem_append, mem_fieldIfSome, List.not_mem_nil, or_false] at hf
    rcases hf with rfl | (((⟨t, ht, rfl⟩ | ⟨k, hk, rfl⟩) | ⟨n, hn, rfl⟩) | ⟨e, he, rfl⟩) | rfl
    · simp [oneOf_str (EventKind.ofName?_name r.event)]
    · simp [orNull_toJson (anchor_toJson t) (anchor_settle_ne_null t), ht]
    · simp [orNull_toJson (text_toJson k) Json.noConfusion, hk]
    · simp [orNull_toJson (nat64_toJson (h.delay n hn)) Json.noConfusion, hn]
    · simp [orNull_toJson (text_toJson e) Json.noConfusion, he]
    · simp [actions_toJson h.actions hnull]
  case hkeys =>
    have hoptional := ((((keys_fieldIfSome "target" Anchor.toJson r.anchor).append
      (keys_fieldIfSome "key" Json.str r.key)).append
        (keys_fieldIfSome "delayMs" Json.nat r.delayMs)).append
          (keys_fieldIfSome "eventName" Json.str r.eventName)).append (.refl ["actions"])
    simpa using hoptional.cons_cons "event"
  case hnames => decide
  case hneeded => simp
  case hall =>
    intro ks hks
    simp only [List.forall_mem_cons, List.forall_mem_append] at hks
    obtain ⟨hevent, ⟨⟨⟨htarget, hkey⟩, hdelay⟩, hname⟩, hactions, -⟩ := hks
    rw [part_eq fun _ => hevent, part_optional htarget, part_optional hkey, part_optional hdelay,
      part_optional hname, part_eq fun _ => hactions]

theorem reactions_toJson {rs : List Reaction} (h : ∀ r ∈ rs, r.IsSettled)
    (hnull : ∀ r ∈ rs, ∀ a ∈ r.actions, a.payload ≠ some .null) :
    list reaction (ofJson (Json.arr (rs.map Reaction.toJson)).settle) = .ok rs :=
  list_ofJson fun r hr => reaction_toJson (h r hr) (hnull r hr)

/-- A stop is read from its form. -/
theorem stop_toJson {s : Stop} (h : s.IsSettled) (hnull : ∀ a ∈ s.actions, a.payload ≠ some .null)
    (hnulls : ∀ r ∈ s.reactions, ∀ a ∈ r.actions, a.payload ≠ some .null) :
    stop (ofJson s.toJson.settle) = .ok s := by
  apply record_settle fun ks =>
    ⟨part "id" ks "" s.id, part "name" ks none s.name, part "actions" ks [] s.actions,
      part "bindings" ks [] s.reactions, part "errorPolicy" ks none s.errorPolicy,
      part "meta" ks [] s.metadata⟩
  case hstart => rfl
  case hset =>
    intro f hf ks
    simp only [List.mem_cons, List.mem_append, mem_fieldIfSome, reactionField, metadataField,
      mem_fieldUnless] at hf
    rcases hf with rfl | ⟨n, hn, rfl⟩ | rfl | (⟨-, rfl⟩ | ⟨p, hp, rfl⟩) | ⟨-, rfl⟩
    · simp [text_toJson]
    · simp [orNull_toJson (text_toJson n) Json.noConfusion, hn]
    · simp [actions_toJson h.actions hnull]
    · simp [reactions_toJson h.reactions hnulls]
    · simp [orNull_toJson (oneOf_str (ErrorPolicy.ofName?_name p)) Json.noConfusion, hp]
    · simp [h.metadata.settle_eq, map_ofJson h.metadata]
  case hkeys =>
    have hfields := (keys_fieldIfSome "name" Json.str s.name).append
      ((((keys_fieldUnless "bindings" s.reactions.isEmpty (.arr (s.reactions.map Reaction.toJson))).append
        (keys_fieldIfSome "errorPolicy" (Json.str ∘ ErrorPolicy.name) s.errorPolicy)).append
          (keys_fieldUnless "meta" s.metadata.isEmpty (.obj s.metadata))).cons_cons "actions")
    simpa [reactionField, metadataField] using hfields.cons_cons "id"
  case hnames => decide
  case hneeded => simp
  case hall =>
    intro ks hks
    simp only [List.forall_mem_cons, List.forall_mem_append] at hks
    obtain ⟨hid, hname, hactions, ⟨hreactions, hpolicy⟩, hmetadata⟩ := hks
    rw [part_eq fun _ => hid, part_optional hname, part_eq fun _ => hactions, part_unless hreactions,
      part_optional hpolicy, part_unless hmetadata]

/-- A diagram is read from its form.  A configuration that is null would be taken for none. -/
theorem diagram_toJson {g : DiagramSpec} (h : g.IsSettled) (hnull : g.config ≠ some .null) :
    diagram (ofJson g.toJson.settle) = .ok g := by
  apply record_settle fun ks =>
    ⟨part "kind" ks "" g.kind, part "source" ks "" g.source, part "name" ks none g.name,
      part "config" ks none g.config⟩
  case hstart => rfl
  case hset =>
    intro f hf ks
    simp only [List.mem_cons, List.mem_append, mem_fieldIfSome] at hf
    rcases hf with rfl | rfl | ⟨n, hn, rfl⟩ | ⟨v, hv, rfl⟩
    · simp [text_toJson]
    · simp [text_toJson]
    · simp [orNull_toJson (text_toJson n) Json.noConfusion, hn]
    · have hv' := h v hv
      have hne : v ≠ .null := fun heq => hnull (heq ▸ hv)
      simp [hv'.settle_eq, orNull_toJson (any_ofJson hv') hne, hv]
  case hkeys =>
    have hfields := (keys_fieldIfSome "name" Json.str g.name).append
      (keys_fieldIfSome "config" id g.config)
    simpa using (hfields.cons_cons "source").cons_cons "kind"
  case hnames => decide
  case hneeded => simp
  case hall =>
    intro ks hks
    simp only [List.forall_mem_cons, List.forall_mem_append] at hks
    obtain ⟨hkind, hsource, hname, hconfig⟩ := hks
    rw [part_eq fun _ => hkind, part_eq fun _ => hsource, part_optional hname, part_optional hconfig]

/-- A document is read from its form. -/
theorem document_toJson {d : Document} (h : d.IsSettled) (hplain : d.IsPlain) :
    document (ofJson d.toJson.settle) = .ok d := by
  -- The actions of a stop and of its rules are among those of the document
  have hstop : ∀ s ∈ d.stops, stop (ofJson s.toJson.settle) = .ok s := by
    intro s hs
    apply stop_toJson (h.stops s hs)
    · intro a ha
      exact hplain.payloads a (List.mem_append_left _ (List.mem_flatMap.mpr ⟨s, hs, ha⟩))
    · intro r hr a ha
      exact hplain.payloads_of_reaction
        (List.mem_append_right _ (List.mem_flatMap.mpr ⟨s, hs, hr⟩)) ha
  have hreactions := reactions_toJson h.reactions fun r hr a ha =>
    hplain.payloads_of_reaction (List.mem_append_left _ hr) ha
  apply record_settle fun ks =>
    ⟨part "steps" ks [] d.stops, part "bindings" ks [] d.reactions, part "diagram" ks none d.diagram,
      part "meta" ks [] d.metadata⟩
  case hstart => rfl
  case hset =>
    intro f hf ks
    simp only [List.mem_cons, List.mem_append, mem_fieldIfSome, reactionField, metadataField,
      mem_fieldUnless] at hf
    rcases hf with rfl | (⟨-, rfl⟩ | ⟨g, hg, rfl⟩) | ⟨-, rfl⟩
    · simp [list_ofJson hstop]
    · simp [hreactions]
    · have hread := diagram_toJson (h.diagram g hg) (hplain.config g hg)
      simp [orNull_toJson hread Json.noConfusion, hg]
    · simp [h.metadata.settle_eq, map_ofJson h.metadata]
  case hkeys =>
    have hfields := ((keys_fieldUnless "bindings" d.reactions.isEmpty
      (.arr (d.reactions.map Reaction.toJson))).append
        (keys_fieldIfSome "diagram" DiagramSpec.toJson d.diagram)).append
          (keys_fieldUnless "meta" d.metadata.isEmpty (.obj d.metadata))
    simpa [reactionField, metadataField] using hfields.cons_cons "steps"
  case hnames => decide
  case hneeded => simp
  case hall =>
    intro ks hks
    simp only [List.forall_mem_cons, List.forall_mem_append] at hks
    obtain ⟨hsteps, ⟨hreactions, hdiagram⟩, hmetadata⟩ := hks
    rw [part_eq fun _ => hsteps, part_unless hreactions, part_optional hdiagram, part_unless hmetadata]

end Json.Draft

/-! ## Ids -/

/-- The check of the ids passes just when they are there and differ from one another and from those
before. -/
theorem findIdError_eq_none_iff : ∀ (stops : List Stop) (seen : List String) (index : Nat),
    findIdError seen index stops = none ↔ (∀ s ∈ stops, s.id ≠ "") ∧ (stops.map Stop.id).Nodup ∧
      ∀ s ∈ stops, s.id ∉ seen
  | [], _, _ => by simp [findIdError]
  | s :: rest, seen, index => by
      rw [findIdError]
      split_ifs with hempty hseen
      · simp [hempty]
      · have hmem : s.id ∈ seen := by simpa using hseen
        simp [hmem]
      · have hmem : s.id ∉ seen := by simpa using hseen
        -- What comes later must differ from this id as well
        rw [findIdError_eq_none_iff rest]
        simp only [List.forall_mem_cons, List.map_cons, List.nodup_cons]
        have hlater : (∀ t ∈ rest, t.id ∉ s.id :: seen) ↔
            s.id ∉ rest.map Stop.id ∧ ∀ t ∈ rest, t.id ∉ seen := by
          simp only [List.mem_cons, not_or, List.mem_map, not_exists, not_and]
          exact ⟨fun h => ⟨fun t ht => (h t ht).1, fun t ht => (h t ht).2⟩,
            fun h t ht => ⟨h.1 t ht, h.2 t ht⟩⟩
        rw [hlater]
        tauto

theorem Document.IsPlain.idError? {d : Document} (h : d.IsPlain) : d.idError? = none :=
  (findIdError_eq_none_iff d.stops [] 0).mpr ⟨h.named, h.distinct, by simp⟩

/-- A document in order, with ids to tell its stops apart and without nulls, is loaded from its
form. -/
theorem Document.ofJson_toJson {d : Document} (h : d.IsSettled) (hplain : d.IsPlain) :
    Document.ofJson d.toJson.settle = .ok d := by
  rw [Document.ofJson, Json.decode, Json.Draft.document_toJson h hplain]
  simp [Document.checked, Except.mapError, hplain.idError?]

end DiagramTour
