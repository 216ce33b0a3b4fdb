import DiagramTour.Lower.Program
import Mathlib.Data.List.Perm.Subperm
import Mathlib.Data.List.Nodup
import Mathlib.Data.List.Range

/-!
# Ids of stops

A stop is found by its id, so two stops must not share one, though two steps may share a name.

## Architecture

- `idCandidates_nodup`: the ids that are tried for a name that is taken differ from one another.
- `uniqueId_not_mem` counts: there is one more of them than there are ids, so one of them is new.
- `AreDistinct.lowerSteps` goes along the steps.
-/

namespace DiagramTour

variable {globals scope : Scope} {stop : Stop} {stops : List Stop} {used : List String}
  {name base : String}

/-! ## New ids -/

theorem toDigits_injective : Function.Injective (Nat.toDigits 10) := by
  intro m n h
  have hvalue := congrArg (Nat.ofDigitChars 10 · 0) h
  simpa [Nat.ofDigitChars_ten_toDigits] using hvalue

/-- The ids that are tried for a taken name, as many as there are ids and one more. -/
def idCandidates (used : List String) (base : String) : List String :=
  (List.range (used.length + 1)).map fun k => base ++ "-" ++ toString (k + 2)

theorem uniqueId_eq (used : List String) (name : String) :
    uniqueId used name = if used.contains (idBase name) then
      ((idCandidates used (idBase name)).find? fun id => !used.contains id).getD (idBase name)
      else idBase name := rfl

theorem idCandidates_nodup (used : List String) (base : String) : (idCandidates used base).Nodup := by
  apply List.nodup_range.map
  intro k l h
  -- After the common beginning the two numbers are written alike
  have hdigits : Nat.toDigits 10 (k + 2) = Nat.toDigits 10 (l + 2) := by
    simpa [Nat.repr_eq_ofList_toDigits] using congrArg String.toList h
  have := toDigits_injective hdigits
  omega

/-- Not every candidate is taken. -/
theorem exists_idCandidate (used : List String) (base : String) :
    ∃ id ∈ idCandidates used base, id ∉ used := by
  -- Else the candidates would be among the ids, though there are more of them
  by_contra! hall
  have hle := ((idCandidates_nodup used base).subperm hall).length_le
  simp only [idCandidates, List.length_map, List.length_range] at hle
  omega

/-- An id that is made up is none of those that are used. -/
theorem uniqueId_not_mem (used : List String) (name : String) : uniqueId used name ∉ used := by
  rw [uniqueId_eq]
  split_ifs with htaken
  · obtain ⟨id, hid, hnew⟩ := exists_idCandidate used (idBase name)
    cases hfound : (idCandidates used (idBase name)).find? fun id => !used.contains id with
    | none => exact absurd (List.find?_eq_none.mp hfound id hid) (by simpa using hnew)
    | some id => simpa using List.find?_some hfound
  · simpa using htaken

theorem idBase_ne_empty (name : String) : idBase name ≠ "" := by
  unfold idBase
  split_ifs with h
  · decide
  · exact h

theorem uniqueId_ne_empty (used : List String) (name : String) : uniqueId used name ≠ "" := by
  have hbase := idBase_ne_empty name
  rw [uniqueId_eq]
  split_ifs
  · cases hfound : (idCandidates used (idBase name)).find? fun id => !used.contains id with
    | none => exact hbase
    | some id =>
        obtain ⟨k, -, rfl⟩ := List.mem_map.mp (List.mem_of_find?_eq_some hfound)
        simp [hbase]
  · exact hbase

/-! ## Ids of steps -/

/-- Entries of metadata only set keys of the metadata, or the policy. -/
theorem lowerMetadata_induction {P : Stop → Prop} (scope : Scope) (entries : List (Entry Expr))
    (hmetadata : ∀ stop key value, P stop → P { stop with metadata := Json.put key value stop.metadata })
    (hpolicy : ∀ stop policy, P stop → P { stop with errorPolicy := some policy }) (h : P stop) :
    P (lowerMetadata scope stop entries).value := by
  induction entries generalizing stop with
  | nil => exact h
  | cons e rest ih =>
    simp only [lowerMetadata, Noted.bind_value]
    split_ifs
    · exact ih (hmetadata stop _ _ h)
    · split
      · exact ih (hpolicy stop _ h)
      · exact ih h

theorem lowerMetadata_id (scope : Scope) (stop : Stop) (entries : List (Entry Expr)) :
    (lowerMetadata scope stop entries).value.id = stop.id :=
  lowerMetadata_induction (P := fun t => t.id = stop.id) scope entries (fun _ _ _ h => h)
    (fun _ _ h => h) rfl

theorem lowerBody_id (scope : Scope) (stop : Stop) (ss : List Statement) :
    (lowerBody scope stop ss).value.1.id = stop.id := by
  induction ss generalizing scope stop with
  | nil => rfl
  | cons s rest ih =>
    rw [lowerBody]
    split
    · exact (ih _ _).trans (lowerMetadata_id _ _ _)
    · exact ih _ _

theorem Step.lower_id (s : Step) (scope : Scope) (id : String) : (s.lower scope id).value.id = id :=
  lowerBody_id scope _ s.statements

/-- Stops have ids, and no two of them share one. -/
structure AreDistinct (stops : List Stop) : Prop where
  named : ∀ s ∈ stops, s.id ≠ ""
  distinct : (stops.map Stop.id).Nodup

/-- Steps become stops with ids of their own. -/
theorem AreDistinct.lowerSteps {ss : List Step} (h : AreDistinct stops) :
    AreDistinct (lowerSteps globals stops ss).value := by
  induction ss generalizing stops with
  | nil => exact h
  | cons s rest ih =>
    have hid := s.lower_id globals (uniqueId (stops.map Stop.id) s.name)
    apply ih
    constructor
    · apply List.forall_mem_append.mpr ⟨h.named, List.forall_mem_singleton.mpr _⟩
      rw [hid]
      exact uniqueId_ne_empty _ _
    · rw [List.map_append, List.map_singleton, hid]
      exact List.nodup_append.mpr ⟨h.distinct, List.nodup_singleton _, by
        rintro a ha b hb rfl
        exact uniqueId_not_mem _ _ (List.mem_singleton.mp hb ▸ ha)⟩

end DiagramTour
