import DiagramTour.Proofs.Document.RoundTrip
import DiagramTour.Proofs.Lower.Stops

/-!
# Numbers behind names

A stop takes the name of its step for an id, with a number behind it where the name is taken.  A number
can make an id that an author gave to another step, so it is not enough to count the steps of one name:
what counts is which ids the stops before have.

## Architecture

- `IdFor` says which id a name comes to when some are used, and `uniqueId_isIdFor` that the search among
  finitely many candidates finds it.
- `AreNumbered` goes through steps and stops in order.
- `stops_numbered` joins both with the checks of a document, for programs of every kind.
-/

namespace DiagramTour

variable {globals : Scope} {stops : List Stop} {used : List String} {name id : String}

/-! ## The least number -/

/-- A name with a number behind it. -/
def numberedId (name : String) (k : Nat) : String :=
  idBase name ++ "-" ++ toString k

/-- The id that a name comes to when some are used: the name by itself if that is new, else with the
least number from two on that makes it new. -/
inductive IdFor (used : List String) (name : String) : String → Prop where
  | kept (hnew : idBase name ∉ used) : IdFor used name (idBase name)
  | numbered (k : Nat) (htaken : idBase name ∈ used) (htwo : 2 ≤ k) (hnew : numberedId name k ∉ used)
      (hleast : ∀ j, 2 ≤ j → j < k → numberedId name j ∈ used) : IdFor used name (numberedId name k)

/-- There is one such id. -/
theorem IdFor.unique {id' : String} (h : IdFor used name id) (h' : IdFor used name id') : id = id' := by
  cases h with
  | kept hnew =>
    cases h' with
    | kept _ => rfl
    | numbered _ htaken _ _ _ => exact absurd htaken hnew
  | numbered k htaken htwo hnew hleast =>
    cases h' with
    | kept hnew' => exact absurd htaken hnew'
    | numbered j _ htwo' hnew' hleast' =>
      -- The lesser of two numbers would be taken
      rcases Nat.lt_trichotomy k j with hlt | rfl | hlt
      · exact absurd (hleast' k htwo hlt) hnew
      · rfl
      · exact absurd (hleast j htwo' hlt) hnew'

/-- The first candidate that is new has the least number. -/
theorem find?_idCandidates (h : (idCandidates used (idBase name)).find? (fun id => !used.contains id) =
    some id) : ∃ k, id = numberedId name k ∧ 2 ≤ k ∧ numberedId name k ∉ used ∧
      ∀ j, 2 ≤ j → j < k → numberedId name j ∈ used := by
  unfold idCandidates at h
  rw [List.find?_map, Option.map_eq_some_iff] at h
  obtain ⟨k, hk, rfl⟩ := h
  obtain ⟨hnew, -, hleast⟩ := List.find?_range_eq_some.1 hk
  refine ⟨k + 2, rfl, Nat.le_add_left 2 k, by simpa [numberedId] using hnew, fun j hj hlt => ?_⟩
  have htaken := hleast (j - 2) (by omega)
  simpa [numberedId, Nat.sub_add_cancel hj] using htaken

theorem uniqueId_isIdFor (used : List String) (name : String) :
    IdFor used name (uniqueId used name) := by
  rw [uniqueId_eq]
  split_ifs with htaken
  · obtain ⟨id, hid, hnew⟩ := exists_idCandidate used (idBase name)
    cases hfound : (idCandidates used (idBase name)).find? fun id => !used.contains id with
    | none => exact absurd (List.find?_eq_none.mp hfound id hid) (by simpa using hnew)
    | some found =>
      obtain ⟨k, rfl, htwo, hfresh, hleast⟩ := find?_idCandidates hfound
      exact .numbered k (by simpa using htaken) htwo hfresh hleast
  · exact .kept (by simpa using htaken)

/-! ## Stops in a row -/

/-- Going through the steps in order, each stop has the id that the name of its step comes to when those
before are used. -/
inductive AreNumbered : List String → List Stop → List Step → Prop where
  | nil (used : List String) : AreNumbered used [] []
  | cons {used : List String} {stop : Stop} {stops : List Stop} {s : Step} {ss : List Step}
      (hid : IdFor used s.name stop.id) (hrest : AreNumbered (used ++ [stop.id]) stops ss) :
      AreNumbered used (stop :: stops) (s :: ss)

/-- Steps become stops that are numbered behind those that are there. -/
theorem lowerSteps_areNumbered (ss : List Step) : ∃ new,
    (lowerSteps globals stops ss).value = stops ++ new ∧ AreNumbered (stops.map Stop.id) new ss := by
  induction ss generalizing stops with
  | nil => exact ⟨[], by simp [lowerSteps], .nil _⟩
  | cons s rest ih =>
    let stop := (s.lower globals (uniqueId (stops.map Stop.id) s.name)).value
    have hid : stop.id = uniqueId (stops.map Stop.id) s.name := s.lower_id _ _
    obtain ⟨new, heq, hnew⟩ : ∃ new, (lowerSteps globals (stops ++ [stop]) rest).value =
        stops ++ [stop] ++ new ∧ AreNumbered ((stops ++ [stop]).map Stop.id) new rest := ih
    rw [List.map_append, List.map_singleton] at hnew
    refine ⟨stop :: new, ?_, .cons (hid ▸ uniqueId_isIdFor _ _) hnew⟩
    rw [List.append_cons, ← heq]
    rfl

theorem Program.lower_areNumbered (p : Program) :
    AreNumbered [] p.lower.value.stops (p.deckItems.flatMap Item.ownSteps) := by
  obtain ⟨new, heq, hnew⟩ : ∃ new,
      (lowerSteps p.commonScope [] (p.deckItems.flatMap Item.ownSteps)).value = [] ++ new ∧
        AreNumbered [] new (p.deckItems.flatMap Item.ownSteps) := lowerSteps_areNumbered _
  rwa [p.lower_stops, heq]

/-! ## Documents -/

theorem Program.lower_areDistinct (p : Program) : AreDistinct p.lower.value.stops := by
  rw [p.lower_stops]
  exact AreDistinct.lowerSteps ⟨by simp, by simp⟩

/-- A stop is found where it is by its id. -/
theorem AreDistinct.stopIndex? {d : Document} (h : AreDistinct d.stops) (i : Nat)
    (hi : i < d.stops.length) : d.stopIndex? d.stops[i].id = some i := by
  refine List.findIdx?_eq_some_iff_getElem.2 ⟨hi, by simp, fun j hj hsame => ?_⟩
  have hlast : i < (d.stops.map Stop.id).length := by simpa
  have hfirst : j < (d.stops.map Stop.id).length := by omega
  -- Another stop before it would have the same id
  have hids : (d.stops.map Stop.id)[j] = (d.stops.map Stop.id)[i] := by simpa using hsame
  exact absurd ((h.distinct.getElem_inj_iff).1 hids) (by omega)

/-- Every program, be it right or wrong, is lowered to a document whose ids are in order: each is the
name of its step, or the name with the least number that makes it new, and leads to its own stop. -/
theorem stops_numbered (p : Program) : p.lower.value.idError? = none ∧
    AreNumbered [] p.lower.value.stops (p.deckItems.flatMap Item.ownSteps) ∧
    ∀ i (hi : i < p.lower.value.stops.length),
      p.lower.value.stopIndex? (p.lower.value.stops[i]).id = some i := by
  have hdistinct := p.lower_areDistinct
  refine ⟨?_, p.lower_areNumbered, hdistinct.stopIndex?⟩
  exact (findIdError_eq_none_iff p.lower.value.stops [] 0).2
    ⟨hdistinct.named, hdistinct.distinct, by simp⟩

/-- A program of one scene, with a step of each name. -/
def stepsNamed (names : List String) : Program :=
  ⟨default, [.scene ⟨none, names.map fun name => ⟨name, none, [], [], default⟩, default⟩], default⟩

/-- An author may give a step the very id that another one would get, and a nameless step has one too. -/
theorem crowded_names_numbered :
    let d := (stepsNamed ["a", "a-2", "a", "", "step"]).lower.value
    d.stops.map Stop.id = ["a", "a-2", "a-3", "step", "step-2"] ∧ d.idError? = none ∧
      d.stopIndex? "a-3" = some 2 := by
  intro d
  have hids : d.stops.map Stop.id = ["a", "a-2", "a-3", "step", "step-2"] := by decide +kernel
  obtain ⟨hok, -, hindex⟩ := stops_numbered (stepsNamed ["a", "a-2", "a", "", "step"])
  have hthird : 2 < d.stops.length := by
    rw [← List.length_map Stop.id, hids]
    decide
  have hid : d.stops[2].id = "a-3" := by
    have hget := congrArg (·[2]?) hids
    simpa [List.getElem?_eq_getElem hthird] using hget
  exact ⟨hids, hok, hid ▸ hindex 2 hthird⟩

end DiagramTour
