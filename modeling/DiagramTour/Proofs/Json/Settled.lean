import DiagramTour.Json.Basic
import Mathlib.Data.List.Induction
import Mathlib.Data.List.Nodup
import Mathlib.Data.String.Basic

/-!
# Settled values

A JSON value is settled if every object in it is a map.  Setting keys one after the other yields a map
whatever the keys are, so that settling a value settles all of it, and settling it again changes
nothing.

## Architecture

- `Json.IsMap`: keys ascend.  `Json.put` keeps that, and `Json.mapOf` leaves a map as it is.
- Where no key is there twice, turning fields into a map only reorders them: `Json.mapOf_perm`.
- `Json.IsSettled` is a predicate on the tree, and `Json.isSettled_iff` says that it is what settling
  leaves alone.
-/

namespace DiagramTour

namespace Json

variable {key : String} {value j : Json} {fields gs : List (String × Json)} {f : String × Json}

/-! ## Maps -/

/-- Fields whose keys ascend. -/
def IsMap (fields : List (String × Json)) : Prop :=
  fields.Pairwise fun f g => f.1 < g.1

theorem IsMap.nodup (h : IsMap fields) : (fields.map Prod.fst).Nodup :=
  List.pairwise_map.mpr (h.imp fun hlt => ne_of_lt hlt)

theorem mem_put (h : f ∈ put key value fields) : f = (key, value) ∨ f ∈ fields := by
  induction fields with
  | nil => simpa [put] using h
  | cons g rest ih =>
      unfold put at h
      split at h
      · rcases List.mem_cons.mp h with rfl | h
        · exact .inl rfl
        · exact .inr (List.mem_cons_of_mem _ h)
      · split at h
        · exact List.mem_cons.mp h
        · rcases List.mem_cons.mp h with rfl | h
          · exact .inr List.mem_cons_self
          · exact (ih h).imp_right (List.mem_cons_of_mem _)

theorem forall_mem_put {P : String × Json → Prop} (hnew : P (key, value)) (hold : ∀ f ∈ fields, P f) :
    ∀ f ∈ put key value fields, P f := by
  intro f hf
  rcases mem_put hf with rfl | hf
  · exact hnew
  · exact hold f hf

/-- Setting a key keeps the keys in order. -/
theorem IsMap.put (h : IsMap fields) : IsMap (put key value fields) := by
  induction fields with
  | nil => exact List.pairwise_singleton _ _
  | cons g rest ih =>
      obtain ⟨hfirst, hrest⟩ := List.pairwise_cons.mp h
      unfold Json.put
      split
      · rename_i heq
        subst heq
        exact List.pairwise_cons.mpr ⟨hfirst, hrest⟩
      · rename_i hne
        split
        · rename_i hlt
          refine List.pairwise_cons.mpr ⟨fun f hf => ?_, h⟩
          rcases List.mem_cons.mp hf with rfl | hf
          · exact hlt
          · exact lt_trans hlt (hfirst f hf)
        · rename_i hnlt
          refine List.pairwise_cons.mpr ⟨fun f hf => ?_, ih hrest⟩
          rcases mem_put hf with rfl | hf
          · exact lt_of_le_of_ne (not_lt.mp hnlt) (Ne.symm hne)
          · exact hfirst f hf

/-- A new key above all others comes last. -/
theorem put_of_above (h : ∀ f ∈ fields, f.1 < key) : put key value fields = fields ++ [(key, value)] := by
  induction fields with
  | nil => rfl
  | cons g rest ih =>
      obtain ⟨hfirst, hrest⟩ := List.forall_mem_cons.mp h
      rw [put, if_neg (ne_of_gt hfirst), if_neg (not_lt.mpr (le_of_lt hfirst)), ih hrest]
      rfl

/-- A new key is set beside the others. -/
theorem put_perm (h : key ∉ fields.map Prod.fst) : (put key value fields).Perm ((key, value) :: fields) := by
  induction fields with
  | nil => exact .refl _
  | cons g rest ih =>
      rw [List.map_cons, List.mem_cons, not_or] at h
      rw [put, if_neg h.1]
      split
      · exact .refl _
      · exact ((ih h.2).cons _).trans (.swap _ _ _)

/-- Fields that are set one after the other, beside those that are there. -/
private theorem foldl_put_perm : ∀ (fields acc : List (String × Json)),
    ((acc ++ fields).map Prod.fst).Nodup →
      (fields.foldl (fun m f => put f.1 f.2 m) acc).Perm (acc ++ fields)
  | [], acc, _ => by simp
  | f :: fs, acc, h => by
      have hnew : f.1 ∉ acc.map Prod.fst := by
        rw [List.map_append, List.nodup_append] at h
        exact fun hmem => h.2.2 f.1 hmem f.1 (by simp) rfl
      -- The next field joins those that are there, and the keys stay distinct
      have hput : (put f.1 f.2 acc ++ fs).Perm (acc ++ f :: fs) :=
        ((put_perm hnew).append_right fs).trans List.perm_middle.symm
      exact (foldl_put_perm fs _ ((hput.map Prod.fst).nodup_iff.mpr h)).trans hput

/-- Where no key is there twice, a map has the fields that it is made of. -/
theorem mapOf_perm (h : (fields.map Prod.fst).Nodup) : (mapOf fields).Perm fields :=
  foldl_put_perm fields [] h

theorem isMap_mapOf (fields : List (String × Json)) : IsMap (mapOf fields) := by
  have hfold : ∀ (fields acc : List (String × Json)), IsMap acc →
      IsMap (fields.foldl (fun m f => put f.1 f.2 m) acc) := by
    intro fields
    induction fields with
    | nil => exact fun _ h => h
    | cons f fs ih => exact fun acc h => ih _ h.put
  exact hfold fields [] List.Pairwise.nil

theorem forall_mem_mapOf {P : String × Json → Prop} (h : ∀ f ∈ fields, P f) :
    ∀ f ∈ mapOf fields, P f := by
  have hfold : ∀ (fields acc : List (String × Json)), (∀ f ∈ fields, P f) → (∀ f ∈ acc, P f) →
      ∀ f ∈ fields.foldl (fun m f => put f.1 f.2 m) acc, P f := by
    intro fields
    induction fields with
    | nil => exact fun _ _ h => h
    | cons f fs ih =>
        intro acc h hacc
        obtain ⟨hf, hfs⟩ := List.forall_mem_cons.mp h
        exact ih _ hfs (forall_mem_put hf hacc)
  exact hfold fields [] h (by simp)

/-- Setting a key replaces its field and leaves the others. -/
theorem IsMap.mem_put_iff (h : IsMap fields) :
    f ∈ Json.put key value fields ↔ f = (key, value) ∨ f ∈ fields ∧ f.1 ≠ key := by
  induction fields with
  | nil => simp [Json.put]
  | cons g rest ih =>
      obtain ⟨hfirst, hrest⟩ := List.pairwise_cons.mp h
      unfold Json.put
      split
      · rename_i heq
        -- The other keys are greater than the one that is set
        have hothers : f ∈ rest → f.1 ≠ key := fun hf => by
          rw [heq]
          exact ne_of_gt (hfirst f hf)
        simp only [List.mem_cons]
        constructor
        · rintro (hf | hf)
          · exact .inl hf
          · exact .inr ⟨.inr hf, hothers hf⟩
        · rintro (hf | ⟨rfl | hf, hne⟩)
          · exact .inl hf
          · exact absurd heq.symm hne
          · exact .inr hf
      · rename_i hne
        split
        · rename_i hlt
          have hothers : f ∈ g :: rest → f.1 ≠ key := fun hf => by
            rcases List.mem_cons.mp hf with rfl | hf
            · exact ne_of_gt hlt
            · exact ne_of_gt (lt_trans hlt (hfirst f hf))
          rw [List.mem_cons]
          exact or_congr_right ⟨fun hf => ⟨hf, hothers hf⟩, And.left⟩
        · rw [List.mem_cons, List.mem_cons, ih hrest]
          constructor
          · rintro (rfl | hf | ⟨hf, hf'⟩)
            · exact .inr ⟨.inl rfl, Ne.symm hne⟩
            · exact .inl hf
            · exact .inr ⟨.inr hf, hf'⟩
          · rintro (hf | ⟨hf | hf, hf'⟩)
            · exact .inr (.inl hf)
            · exact .inl hf
            · exact .inr (.inr ⟨hf, hf'⟩)

/-- Of the fields with one key the last one gets into the map. -/
theorem mem_mapOf_iff : f ∈ mapOf fields ↔
    ∃ before after, fields = before ++ f :: after ∧ ∀ g ∈ after, g.1 ≠ f.1 := by
  induction fields using List.reverseRecOn with
  | nil => simp [mapOf]
  | append_singleton rest g ih =>
      have hput : mapOf (rest ++ [g]) = Json.put g.1 g.2 (mapOf rest) := by simp [mapOf]
      rw [hput, (isMap_mapOf rest).mem_put_iff, ih]
      constructor
      · rintro (rfl | ⟨⟨before, after, rfl, hafter⟩, hne⟩)
        · exact ⟨rest, [], rfl, by simp⟩
        · refine ⟨before, after ++ [g], by simp, ?_⟩
          intro h hh
          rcases List.mem_append.mp hh with hh | hh
          · exact hafter h hh
          · rw [List.mem_singleton.mp hh]
            exact Ne.symm hne
      · rintro ⟨before, after, heq, hafter⟩
        -- The last field is this one, or it comes behind it and has another key
        rcases List.eq_nil_or_concat after with rfl | ⟨init, last, rfl⟩
        · obtain ⟨-, hlast⟩ := List.append_inj' heq rfl
          exact .inl (List.singleton_inj.mp hlast).symm
        · have hsplit : rest ++ [g] = (before ++ f :: init) ++ [last] := by simpa using heq
          obtain ⟨hrest, hlast⟩ := List.append_inj' hsplit rfl
          obtain rfl := List.singleton_inj.mp hlast
          refine .inr ⟨⟨before, init, hrest, fun h hh => hafter h (by simp [hh])⟩, ?_⟩
          exact Ne.symm (hafter g (by simp))

/-- A map is known by its fields. -/
theorem IsMap.ext (h : IsMap fields) (h' : IsMap gs) (hmem : ∀ f, f ∈ fields ↔ f ∈ gs) :
    fields = gs := by
  have hnodup {fields : List (String × Json)} (h : IsMap fields) : fields.Nodup :=
    List.Nodup.of_map _ h.nodup
  have hperm : fields.Perm gs := (List.perm_ext_iff_of_nodup (hnodup h) (hnodup h')).mpr hmem
  refine hperm.eq_of_pairwise (fun f g _ _ hlt hgt => ?_) h h'
  exact absurd hgt (lt_asymm hlt)

/-- A map is made of its own fields. -/
theorem IsMap.mapOf (h : IsMap fields) : mapOf fields = fields := by
  have hfold : ∀ (fields acc : List (String × Json)), IsMap (acc ++ fields) →
      fields.foldl (fun m f => Json.put f.1 f.2 m) acc = acc ++ fields := by
    intro fields
    induction fields with
    | nil => exact fun acc _ => (List.append_nil acc).symm
    | cons f fs ih =>
        intro acc h
        have habove : ∀ g ∈ acc, g.1 < f.1 := fun g hg =>
          (List.pairwise_append.mp h).2.2 g hg f List.mem_cons_self
        rw [List.foldl_cons, put_of_above habove, ih _ (by simpa using h), List.append_assoc]
        rfl
  exact hfold fields [] h

/-! ## Values -/

/-- A value in which every object is a map. -/
inductive IsSettled : Json → Prop where
  | null : IsSettled .null
  | bool (b : Bool) : IsSettled (.bool b)
  | int (n : Int) : IsSettled (.int n)
  | float (x : Float) : IsSettled (.float x)
  | str (s : String) : IsSettled (.str s)
  | arr {items : List Json} : (∀ j ∈ items, IsSettled j) → IsSettled (.arr items)
  | obj {fields : List (String × Json)} : IsMap fields → (∀ f ∈ fields, IsSettled f.2) →
      IsSettled (.obj fields)

theorem settleItems_eq (items : List Json) : settleItems items = items.map settle := by
  induction items with
  | nil => rfl
  | cons j js ih => rw [settleItems, ih, List.map_cons]

theorem settleFields_eq (fields : List (String × Json)) :
    settleFields fields = fields.map fun f => (f.1, f.2.settle) := by
  induction fields with
  | nil => rfl
  | cons f fs ih => rw [settleFields, ih, List.map_cons]

theorem map_fst_settleFields (fields : List (String × Json)) :
    (settleFields fields).map Prod.fst = fields.map Prod.fst := by
  rw [settleFields_eq, List.map_map]
  rfl

theorem isSettled_obj : IsSettled (.obj fields) ↔ IsMap fields ∧ ∀ f ∈ fields, IsSettled f.2 := by
  refine ⟨fun h => ?_, fun h => .obj h.1 h.2⟩
  cases h with
  | obj hmap hfields => exact ⟨hmap, hfields⟩

theorem isSettled_arr {items : List Json} : IsSettled (.arr items) ↔ ∀ j ∈ items, IsSettled j := by
  refine ⟨fun h => ?_, .arr⟩
  cases h with
  | arr hitems => exact hitems

/-- Setting a key of a settled object to a settled value keeps it settled. -/
theorem IsSettled.put (h : IsSettled (.obj fields)) (hvalue : value.IsSettled) :
    IsSettled (.obj (Json.put key value fields)) := by
  obtain ⟨hmap, hfields⟩ := isSettled_obj.mp h
  exact .obj hmap.put (forall_mem_put (P := fun f => f.2.IsSettled) hvalue hfields)

/-- The map of settled fields is settled. -/
theorem isSettled_mapOf (h : ∀ f ∈ fields, f.2.IsSettled) : IsSettled (.obj (mapOf fields)) :=
  .obj (isMap_mapOf fields) (forall_mem_mapOf h)

theorem isSettled_object (h : ∀ f ∈ fields, f.2.IsSettled) : IsSettled (object fields) :=
  isSettled_mapOf h

/-- What is settled stays as it is. -/
theorem IsSettled.settle_eq (h : j.IsSettled) : j.settle = j := by
  induction h with
  | arr _ ih =>
      rw [settle, settleItems_eq, List.map_congr_left ih, List.map_id']
  | obj hmap _ ih =>
      rename_i fields _
      have hsame : ∀ f ∈ fields, (f.1, f.2.settle) = f := fun f hf => Prod.ext rfl (ih f hf)
      have hfields : fields.map (fun f => (f.1, f.2.settle)) = fields := by
        rw [List.map_congr_left hsame, List.map_id']
      rw [settle, settleFields_eq, hfields, hmap.mapOf]
  | _ => rfl

mutual

/-- Settling a value settles all of it. -/
theorem isSettled_settle : ∀ j : Json, j.settle.IsSettled
  | .null => .null
  | .bool b => .bool b
  | .int n => .int n
  | .float x => .float x
  | .str s => .str s
  | .arr items => .arr (isSettled_settleItems items)
  | .obj fields => isSettled_mapOf (isSettled_settleFields fields)

theorem isSettled_settleItems : ∀ (items : List Json), ∀ j ∈ settleItems items, j.IsSettled
  | [] => by simp [settleItems]
  | j :: js => by
      rw [settleItems]
      exact List.forall_mem_cons.mpr ⟨isSettled_settle j, isSettled_settleItems js⟩

theorem isSettled_settleFields : ∀ (fields : List (String × Json)),
    ∀ f ∈ settleFields fields, f.2.IsSettled
  | [] => by simp [settleFields]
  | (k, j) :: fs => by
      rw [settleFields]
      exact List.forall_mem_cons.mpr ⟨isSettled_settle j, isSettled_settleFields fs⟩

end

/-- What settling leaves alone is settled. -/
theorem isSettled_iff : j.IsSettled ↔ j.settle = j :=
  ⟨IsSettled.settle_eq, fun h => h ▸ isSettled_settle j⟩

end Json

end DiagramTour
