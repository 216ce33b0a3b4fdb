import DiagramTour.Document.Load
import DiagramTour.Proofs.Json.Arranged

/-!
# Reading targets

A target is told by its form: its tag says which fields to look for, and they are found wherever they
stand among the others.

## Architecture

- `TargetSpec.only?_settle`: turning fields into a map does not change what is found under a key.
- `TargetSpec.ofJsonWithin_toJson` goes along the target, one case for each kind; what stands in a form is
  less deep, so that the depth of the form is fuel enough.
-/

namespace DiagramTour

namespace TargetSpec

variable {key word : String} {head : TargetHead} {fields gs : List (String × Json)} {j : Json}

/-! ## Fields -/

/-- The order of the fields does not matter for what is given once. -/
theorem only?_perm (h : fields.Perm gs) : only? key fields = only? key gs := by
  have hfilter := h.filter fun f => f.1 == key
  unfold only?
  generalize fields.filter (fun f => f.1 == key) = found at hfilter
  generalize gs.filter (fun f => f.1 == key) = found' at hfilter
  match found, found', hfilter with
  | [], _, hfilter => rw [List.nil_perm.mp hfilter]
  | [_], _, hfilter => rw [List.singleton_perm.mp hfilter]
  | _ :: _ :: _, [], hfilter => exact absurd (List.perm_nil.mp hfilter) (List.cons_ne_nil _ _)
  | _ :: _ :: _, [_], hfilter => exact absurd (List.perm_singleton.mp hfilter) (by simp)
  | _ :: _ :: _, _ :: _ :: _, _ => rfl

/-- What is found under a key of a settled form. -/
theorem only?_settle (h : (fields.map Prod.fst).Nodup) :
    only? key (Json.mapOf (Json.settleFields fields)) =
      only? key (fields.map fun f => (f.1, f.2.settle)) := by
  rw [← Json.settleFields_eq]
  apply only?_perm
  apply Json.mapOf_perm
  rwa [Json.map_fst_settleFields]

theorem mem_of_only? (h : only? key fields = some (some j)) : ∃ k, (k, j) ∈ fields := by
  unfold only? at h
  split at h
  · simp at h
  · rename_i k j' heq
    obtain rfl : j' = j := by simpa using h
    exact ⟨k, List.mem_of_mem_filter (heq ▸ List.mem_singleton_self _)⟩
  · simp at h

/-- What is found in an object is less deep than the object. -/
theorem depth_lt_of_only? (h : only? key fields = some (some j)) : j.depth < (Json.obj fields).depth := by
  obtain ⟨k, hmem⟩ := mem_of_only? h
  exact Json.depth_lt_of_mem_obj hmem

/-! ## Targets -/

theorem ElementKind.ofWord?_word (kind : ElementKind) :
    TargetHead.ofWord? kind.word = some (.element kind) := by
  cases kind <;> rfl

theorem TextKey.ofWord?_word (key : TextKey) : TargetHead.ofWord? key.word = some (.matching key) := by
  cases key <;> rfl

theorem Combination.ofWord?_word (how : Combination) :
    TargetHead.ofWord? how.word = some (.several how) := by
  cases how <;> rfl

theorem edge_ofWord? : TargetHead.ofWord? "edge" = some .edge := rfl

theorem except_ofWord? : TargetHead.ofWord? "except" = some .except := rfl

/-- A form is tagged by its first field. -/
theorem tagged?_settle (hword : TargetHead.ofWord? word = some head)
    (h : ((("type", Json.str word) :: fields).map Prod.fst).Nodup) :
    tagged? (Json.obj (("type", .str word) :: fields)).settle =
      some (head, .keyed (Json.mapOf (Json.settleFields (("type", .str word) :: fields)))) := by
  have hothers : fields.filter (fun f => f.1 == "type") = [] := by
    rw [List.filter_eq_nil_iff]
    intro f hf heq
    exact (List.nodup_cons.mp h).1 (List.mem_map.mpr ⟨f, hf, by simpa using heq⟩)
  have htag : only? "type" (Json.mapOf (Json.settleFields (("type", .str word) :: fields))) =
      some (some (.str word)) := by
    rw [only?_settle h, only?]
    have hmap : (fields.map fun f => (f.1, f.2.settle)).filter (fun f => f.1 == "type") = [] := by
      rw [List.filter_map]
      exact List.map_eq_nil_iff.mpr hothers
    simp [hmap, Json.settle]
  rw [Json.settle, tagged?, htag]
  simp [headOf?, hword]

mutual

/-- A target is read from its form. -/
theorem ofJsonWithin_toJson : ∀ (t : TargetSpec) (fuel : Nat), t.toJson.settle.depth ≤ fuel →
    ofJsonWithin fuel t.toJson.settle = some t
  | _, 0, h => absurd h (not_le.mpr Json.depth_pos)
  | .element kind id, fuel + 1, _ => by
      have hnodup : ([("type", Json.str kind.word), ("id", .str id)].map Prod.fst).Nodup := by simp
      rw [toJson, ofJsonWithin, tagged?_settle (ElementKind.ofWord?_word kind) hnodup]
      simp only [Option.bind_eq_bind, Option.bind_some, Content.values?, List.mapM_cons, List.mapM_nil,
        only?_settle hnodup]
      simp [only?, Json.settle]
  | .edge id source destination, fuel + 1, _ => by
      have hnodup : ((("type", Json.str "edge") :: (Json.fieldIfSome "id" .str id ++
          Json.fieldIfSome "from" .str source ++ Json.fieldIfSome "to" .str destination)).map
            Prod.fst).Nodup := by
        cases id <;> cases source <;> cases destination <;> simp [Json.fieldIfSome]
      rw [toJson, ofJsonWithin, tagged?_settle edge_ofWord? hnodup]
      simp only [Option.bind_eq_bind, Option.bind_some, Content.values?, List.mapM_cons, List.mapM_nil,
        only?_settle hnodup]
      cases id <;> cases source <;> cases destination <;>
        simp [only?, Json.settle, optionalText?, Json.fieldIfSome]
  | .matching key value, fuel + 1, _ => by
      have hnodup : ([("type", Json.str key.word), (key.field, .str value)].map Prod.fst).Nodup := by
        cases key <;> simp [TextKey.field]
      have hkey : ("type" == key.field) = false := by cases key <;> rfl
      rw [toJson, ofJsonWithin, tagged?_settle (TextKey.ofWord?_word key) hnodup]
      simp only [Option.bind_eq_bind, Option.bind_some, Content.values?, List.mapM_cons, List.mapM_nil,
        only?_settle hnodup]
      simp [only?, Json.settle, hkey]
  | .several how targets, fuel + 1, h => by
      have hnodup : ([("type", Json.str how.word), ("targets", .arr (listToJson targets))].map
          Prod.fst).Nodup := by simp
      have hmembers : only? "targets" (Json.mapOf (Json.settleFields [("type", Json.str how.word),
          ("targets", .arr (listToJson targets))])) =
            some (some (.arr (Json.settleItems (listToJson targets)))) := by
        rw [only?_settle hnodup]
        simp [only?, Json.settle]
      rw [toJson, Json.settle] at h
      have hlt := depth_lt_of_only? hmembers
      rw [toJson, ofJsonWithin, tagged?_settle (Combination.ofWord?_word how) hnodup]
      -- Each member lies two levels below, in the list and in the object
      have hread := ofJsonWithin_listToJson targets fuel fun j hj => by
        have := Json.depth_lt_of_mem_arr hj
        omega
      simp [Content.values?, hmembers, hread]
  | .except base removed, fuel + 1, h => by
      have hnodup : ([("type", Json.str "except"), ("base", base.toJson),
          ("remove", removed.toJson)].map Prod.fst).Nodup := by simp
      have hbase : only? "base" (Json.mapOf (Json.settleFields [("type", Json.str "except"),
          ("base", base.toJson), ("remove", removed.toJson)])) = some (some base.toJson.settle) := by
        rw [only?_settle hnodup]
        simp [only?]
      have hremoved : only? "remove" (Json.mapOf (Json.settleFields [("type", Json.str "except"),
          ("base", base.toJson), ("remove", removed.toJson)])) = some (some removed.toJson.settle) := by
        rw [only?_settle hnodup]
        simp [only?]
      -- Both sides lie below the object, so that what fuel is left is enough for them
      rw [toJson, Json.settle] at h
      have hbelow := depth_lt_of_only? hbase
      have hbelow' := depth_lt_of_only? hremoved
      rw [toJson, ofJsonWithin, tagged?_settle except_ofWord? hnodup]
      have hread := ofJsonWithin_toJson base fuel (by omega)
      have hread' := ofJsonWithin_toJson removed fuel (by omega)
      simp [Content.values?, hbase, hremoved, hread, hread']

theorem ofJsonWithin_listToJson : ∀ (ts : List TargetSpec) (fuel : Nat),
    (∀ j ∈ Json.settleItems (listToJson ts), j.depth ≤ fuel) →
      (Json.settleItems (listToJson ts)).mapM (ofJsonWithin fuel) = some ts
  | [], _, _ => rfl
  | t :: ts, fuel, h => by
      rw [listToJson, Json.settleItems] at h ⊢
      obtain ⟨ht, hts⟩ := List.forall_mem_cons.mp h
      rw [List.mapM_cons, ofJsonWithin_toJson t fuel ht, ofJsonWithin_listToJson ts fuel hts]
      rfl

end

/-- Every target is read from its form. -/
theorem ofJson?_toJson (t : TargetSpec) : ofJson? t.toJson.settle = some t :=
  ofJsonWithin_toJson t _ le_rfl

/-- A form of a target is an object. -/
theorem exists_toJson_settle (t : TargetSpec) : ∃ fields, t.toJson.settle = .obj fields := by
  cases t <;> exact ⟨_, rfl⟩

end TargetSpec

end DiagramTour
