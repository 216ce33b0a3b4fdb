import DiagramTour.Proofs.Document.RoundTrip

/-!
# Loaded documents are in order

Whatever a document is loaded from, its values are settled and its delays have 64 bits; a null is read as
nothing, and the ids are checked.  So a document that was loaded once is loaded again from its form.

## Architecture

- One lemma for each record says what is known of it; each goes through `Json.Draft.record_induction`.
- `Document.isPlain_of_read` adds the check of the ids.
- `Document.ofJson_of_loaded` is the result.
-/

namespace DiagramTour

namespace Json.Draft

variable {d : Draft}

/-- An action that was read is in order, and its payload is not null. -/
theorem isSettled_of_action {a : Action} (h : action d = .ok a) : a.IsSettled ∧ a.payload ≠ some .null := by
  refine record_induction (P := fun a : Action => a.IsSettled ∧ a.payload ≠ some .null) ?hstart ?hset h
  case hstart => exact ⟨by rintro v ⟨⟩, by simp⟩
  case hset =>
    intro k e b c hb hc
    split at hc
    · obtain ⟨text, -, hc⟩ := ok_of_bind hc
      cases hc
      exact hb
    · -- A null is no payload, and any other value is settled when it is read
      obtain ⟨payload, hpayload, hc⟩ := ok_of_bind hc
      cases hc
      exact ⟨fun v hv => isSettled_of_any (of_orNull hpayload hv), ne_null_of_orNull_any hpayload⟩

theorem isSettled_of_actions {as : List Action} (h : list action d = .ok as) :
    ∀ a ∈ as, a.IsSettled ∧ a.payload ≠ some .null := by
  intro a ha
  obtain ⟨e, he⟩ := exists_of_list h a ha
  exact isSettled_of_action he

/-- A rule that was read is in order. -/
theorem isSettled_of_reaction {r : Reaction} (h : reaction d = .ok r) :
    r.IsSettled ∧ ∀ a ∈ r.actions, a.payload ≠ some .null := by
  refine record_induction (P := fun r : Reaction => r.IsSettled ∧ ∀ a ∈ r.actions, a.payload ≠ some .null)
    ?hstart ?hset h
  case hstart => exact ⟨⟨by rintro n ⟨⟩, by simp⟩, by simp⟩
  case hset =>
    intro k e b c hb hc
    split at hc <;> obtain ⟨part, hpart, hc⟩ := ok_of_bind hc <;> cases hc
    case h_4 =>
      -- The delay is read as a number of 64 bits
      refine ⟨⟨fun n hn => ?_, hb.1.actions⟩, hb.2⟩
      have hle := le_of_natUpTo (of_orNull hpart hn)
      have hpos : 0 < Number.twoTo 64 := by decide
      omega
    case h_6 =>
      have hactions := isSettled_of_actions hpart
      exact ⟨⟨hb.1.delay, fun a ha => (hactions a ha).1⟩, fun a ha => (hactions a ha).2⟩
    all_goals exact ⟨⟨hb.1.delay, hb.1.actions⟩, hb.2⟩

theorem isSettled_of_reactions {rs : List Reaction} (h : list reaction d = .ok rs) :
    ∀ r ∈ rs, r.IsSettled ∧ ∀ a ∈ r.actions, a.payload ≠ some .null := by
  intro r hr
  obtain ⟨e, he⟩ := exists_of_list h r hr
  exact isSettled_of_reaction he

/-- A stop that was read is in order. -/
theorem isSettled_of_stop {s : Stop} (h : stop d = .ok s) :
    s.IsSettled ∧ (∀ a ∈ s.actions, a.payload ≠ some .null) ∧
      ∀ r ∈ s.reactions, ∀ a ∈ r.actions, a.payload ≠ some .null := by
  refine record_induction (P := fun s : Stop => s.IsSettled ∧
    (∀ a ∈ s.actions, a.payload ≠ some .null) ∧
      ∀ r ∈ s.reactions, ∀ a ∈ r.actions, a.payload ≠ some .null) ?hstart ?hset h
  case hstart => exact ⟨⟨by simp, by simp, .obj .nil (by simp)⟩, by simp, by simp⟩
  case hset =>
    intro k e b c hb hc
    obtain ⟨hb, hnull, hnulls⟩ := hb
    split at hc <;> obtain ⟨part, hpart, hc⟩ := ok_of_bind hc <;> cases hc
    case h_3 =>
      have hactions := isSettled_of_actions hpart
      exact ⟨⟨fun a ha => (hactions a ha).1, hb.reactions, hb.metadata⟩, fun a ha => (hactions a ha).2,
        hnulls⟩
    case h_4 =>
      have hreactions := isSettled_of_reactions hpart
      exact ⟨⟨hb.actions, fun r hr => (hreactions r hr).1, hb.metadata⟩, hnull,
        fun r hr => (hreactions r hr).2⟩
    case h_6 => exact ⟨⟨hb.actions, hb.reactions, isSettled_of_map hpart⟩, hnull, hnulls⟩
    all_goals exact ⟨⟨hb.actions, hb.reactions, hb.metadata⟩, hnull, hnulls⟩

/-- A diagram that was read is in order, and its configuration is not null. -/
theorem isSettled_of_diagram {g : DiagramSpec} (h : diagram d = .ok g) :
    g.IsSettled ∧ g.config ≠ some .null := by
  refine record_induction (P := fun g : DiagramSpec => g.IsSettled ∧ g.config ≠ some .null) ?hstart ?hset h
  case hstart => exact ⟨by rintro v ⟨⟩, by simp⟩
  case hset =>
    intro k e b c hb hc
    split at hc <;> obtain ⟨part, hpart, hc⟩ := ok_of_bind hc <;> cases hc
    case h_4 =>
      exact ⟨fun v hv => isSettled_of_any (of_orNull hpart hv), ne_null_of_orNull_any hpart⟩
    all_goals exact hb

/-- A document that was read is in order but for its ids. -/
theorem isSettled_of_document {doc : Document} (h : document d = .ok doc) :
    doc.IsSettled ∧ (∀ a ∈ doc.actions, a.payload ≠ some .null) ∧
      ∀ g, doc.diagram = some g → g.config ≠ some .null := by
  have hparts := record_induction (P := fun doc : Document => doc.IsSettled ∧
    ((∀ s ∈ doc.stops, (∀ a ∈ s.actions, a.payload ≠ some .null) ∧
      ∀ r ∈ s.reactions, ∀ a ∈ r.actions, a.payload ≠ some .null) ∧
      ∀ r ∈ doc.reactions, ∀ a ∈ r.actions, a.payload ≠ some .null) ∧
      ∀ g, doc.diagram = some g → g.config ≠ some .null) ?hstart ?hset h
  · obtain ⟨hsettled, ⟨hstops, hreactions⟩, hdiagram⟩ := hparts
    refine ⟨hsettled, fun a ha => ?_, hdiagram⟩
    rcases List.mem_append.mp ha with ha | ha
    · obtain ⟨s, hs, ha⟩ := List.mem_flatMap.mp ha
      exact (hstops s hs).1 a ha
    · obtain ⟨r, hr, ha⟩ := List.mem_flatMap.mp ha
      rcases List.mem_append.mp hr with hr | hr
      · exact hreactions r hr a ha
      · obtain ⟨s, hs, hr⟩ := List.mem_flatMap.mp hr
        exact (hstops s hs).2 r hr a ha
  case hstart =>
    simp only [Document.empty]
    exact ⟨⟨by simp, by simp, by simp, .obj .nil (by simp)⟩, ⟨by simp, by simp⟩, by simp⟩
  case hset =>
    intro k e b c hb hc
    obtain ⟨hb, ⟨hstops, hreactions⟩, hdiagram⟩ := hb
    split at hc <;> obtain ⟨part, hpart, hc⟩ := ok_of_bind hc <;> cases hc
    -- A field that is set later replaces one that was set before, and leaves the others alone
    case h_1 =>
      have hread : ∀ s ∈ part, s.IsSettled ∧ _ := fun s hs =>
        (exists_of_list hpart s hs).elim fun _ => isSettled_of_stop
      exact ⟨⟨fun s hs => (hread s hs).1, hb.reactions, hb.diagram, hb.metadata⟩,
        ⟨fun s hs => (hread s hs).2, hreactions⟩, hdiagram⟩
    case h_2 =>
      have hread := isSettled_of_reactions hpart
      exact ⟨⟨hb.stops, fun r hr => (hread r hr).1, hb.diagram, hb.metadata⟩,
        ⟨hstops, fun r hr => (hread r hr).2⟩, hdiagram⟩
    case h_3 =>
      have hread : ∀ g, part = some g → _ := fun g hg => isSettled_of_diagram (of_orNull hpart hg)
      exact ⟨⟨hb.stops, hb.reactions, fun g hg => (hread g hg).1, hb.metadata⟩,
        ⟨hstops, hreactions⟩, fun g hg => (hread g hg).2⟩
    case h_4 =>
      exact ⟨⟨hb.stops, hb.reactions, hb.diagram, isSettled_of_map hpart⟩, ⟨hstops, hreactions⟩, hdiagram⟩

end Json.Draft

/-! ## Documents -/

/-- What passes the check of the ids was read, and passes it. -/
theorem Document.of_checked {read : Except Json.Fault Document} {d : Document}
    (h : checked read = .ok d) : read = .ok d ∧ d.idError? = none := by
  unfold checked at h
  split at h
  · cases h
  · split at h
    · cases h
    · cases h
      exact ⟨rfl, ‹_›⟩

/-- A document that was read from some draft, and whose ids pass, is in order. -/
theorem Document.isPlain_of_read {e : Json.Draft} {d : Document} (h : Json.Draft.document e = .ok d)
    (hids : d.idError? = none) : d.IsSettled ∧ d.IsPlain := by
  obtain ⟨hsettled, hpayloads, hconfig⟩ := Json.Draft.isSettled_of_document h
  obtain ⟨hnamed, hdistinct, -⟩ := (findIdError_eq_none_iff d.stops [] 0).mp hids
  exact ⟨hsettled, hnamed, hdistinct, hpayloads, hconfig⟩

theorem Document.isPlain_of_ofJson {j : Json} {d : Document} (h : Document.ofJson j = .ok d) :
    d.IsSettled ∧ d.IsPlain := by
  obtain ⟨hread, hids⟩ := of_checked h
  rw [Json.decode] at hread
  cases hdoc : Json.Draft.document (Json.Draft.ofJson j) with
  | error f =>
      rw [hdoc] at hread
      cases hread
  | ok d' =>
      rw [hdoc] at hread
      cases hread
      exact isPlain_of_read hdoc hids

theorem Document.isPlain_of_ofText {text : String} {d : Document} (h : Document.ofText text = .ok d) :
    d.IsSettled ∧ d.IsPlain := by
  obtain ⟨hread, hids⟩ := of_checked h
  unfold Json.decodeText at hread
  dsimp only at hread
  split at hread
  · rename_i hdoc
    split at hread
    · cases hread
    · cases hread
      exact isPlain_of_read hdoc hids
  · cases hread

/-- A document that was loaded is loaded again from its form. -/
theorem Document.ofJson_of_loaded {d : Document}
    (h : (∃ j, Document.ofJson j = .ok d) ∨ ∃ text, Document.ofText text = .ok d) :
    Document.ofJson d.toJson.settle = .ok d := by
  obtain ⟨hsettled, hplain⟩ : d.IsSettled ∧ d.IsPlain := by
    rcases h with ⟨j, h⟩ | ⟨text, h⟩
    · exact isPlain_of_ofJson h
    · exact isPlain_of_ofText h
  exact ofJson_toJson hsettled hplain

end DiagramTour
