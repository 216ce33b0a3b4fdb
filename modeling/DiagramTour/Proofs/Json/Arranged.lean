import DiagramTour.Json.Field
import DiagramTour.Proofs.Json.Settled

/-!
# Arrangements

The order in which an object lists its fields means nothing.  An arrangement may change that order,
in every object of a value, and nothing else; turning all objects into maps is one.  Whatever is taken
apart by its keys is then found as it was put there.

## Architecture

- `Json.Arrangement`: what an arrangement leaves alone.
- `Json.depth_lt_of_mem_obj` and `Json.depth_lt_of_mem_arr`: what stands in a value is less deep.
- `Json.lookup_perm`: a key that is given once is found wherever it stands.
- `Arrangement.values_obj`, `Arrangement.tagged_obj`, `Arrangement.valued_obj`: the parts of an arranged record.
- `Arrangement.list`, `Arrangement.optional`: parts that repeat or may be missing.
-/

namespace DiagramTour.Json

/-- A change of values that only moves the fields of objects, as long as no key is given twice. -/
structure Arrangement (f : Json → Json) : Prop where
  null : f .null = .null
  bool : ∀ b, f (.bool b) = .bool b
  int : ∀ n, f (.int n) = .int n
  float : ∀ x, f (.float x) = .float x
  str : ∀ s, f (.str s) = .str s
  arr : ∀ items, f (.arr items) = .arr (items.map f)
  obj : ∀ fields, (fields.map Prod.fst).Nodup →
    ∃ gs, f (.obj fields) = .obj gs ∧ gs.Perm (fields.map fun x => (x.1, f x.2))

/-- Leaving everything as it is. -/
theorem Arrangement.refl : Arrangement id where
  null := rfl
  bool _ := rfl
  int _ := rfl
  float _ := rfl
  str _ := rfl
  arr items := by simp
  obj fields _ := ⟨fields, rfl, by simp⟩

/-- Turning every object into a map. -/
theorem Arrangement.settle : Arrangement settle where
  null := rfl
  bool _ := rfl
  int _ := rfl
  float _ := rfl
  str _ := rfl
  arr items := by rw [Json.settle, settleItems_eq]
  obj fields hnodup := by
    refine ⟨_, rfl, ?_⟩
    rw [← settleFields_eq]
    exact mapOf_perm (by rwa [map_fst_settleFields])

variable {key : String} {items : List Json} {fields gs : List (String × Json)} {j : Json}

/-! ## Depth -/

theorem depth_pos : 0 < j.depth := by
  cases j <;> exact Nat.succ_pos _

theorem depth_le_depthOfItems (h : j ∈ items) : j.depth ≤ depthOfItems items := by
  induction items with
  | nil => simp at h
  | cons i is ih =>
      rw [depthOfItems]
      rcases List.mem_cons.mp h with rfl | h
      · exact le_max_left _ _
      · exact (ih h).trans (le_max_right _ _)

theorem depth_le_depthOfFields {g : String × Json} (h : g ∈ fields) : g.2.depth ≤ depthOfFields fields := by
  induction fields with
  | nil => simp at h
  | cons g rest ih =>
      rw [depthOfFields]
      rcases List.mem_cons.mp h with rfl | h
      · exact le_max_left _ _
      · exact (ih h).trans (le_max_right _ _)

theorem depth_lt_of_mem_arr (h : j ∈ items) : j.depth < (arr items).depth :=
  Nat.lt_succ_of_le (depth_le_depthOfItems h)

theorem depth_lt_of_mem_obj {g : String × Json} (h : g ∈ fields) : g.2.depth < (obj fields).depth :=
  Nat.lt_succ_of_le (depth_le_depthOfFields h)

/-! ## Lookup -/

theorem lookup_cons (k : String) (v : Json) (rest : List (String × Json)) :
    lookup key ((k, v) :: rest) = if k = key then some v else lookup key rest := by
  by_cases h : k = key <;> simp [lookup, h]

theorem lookup_eq_some_iff (hnodup : (fields.map Prod.fst).Nodup) :
    lookup key fields = some j ↔ (key, j) ∈ fields := by
  induction fields with
  | nil => simp [lookup]
  | cons g rest ih =>
    obtain ⟨k, v⟩ := g
    obtain ⟨hk, hrest⟩ := List.nodup_cons.1 hnodup
    rw [lookup_cons, List.mem_cons, Prod.mk.injEq]
    split
    · next h =>
      subst h
      have : (k, j) ∉ rest := fun hmem => hk (List.mem_map.2 ⟨_, hmem, rfl⟩)
      simp [this, eq_comm]
    · next h => simp [ih hrest, Ne.symm h]

/-- What is given once is found in any order. -/
theorem lookup_perm (h : gs.Perm fields) (hnodup : (fields.map Prod.fst).Nodup) :
    lookup key gs = lookup key fields := by
  have hnodup' : (gs.map Prod.fst).Nodup := (h.map _).nodup_iff.2 hnodup
  ext j
  rw [lookup_eq_some_iff hnodup, lookup_eq_some_iff hnodup', h.mem_iff]

theorem lookup_map (f : Json → Json) :
    lookup key (fields.map fun x => (x.1, f x.2)) = (lookup key fields).map f := by
  induction fields with
  | nil => rfl
  | cons g rest ih =>
    obtain ⟨k, v⟩ := g
    rw [List.map_cons, lookup_cons, lookup_cons, ih]
    split <;> rfl

namespace Arrangement

variable {f : Json → Json} {α : Type} {part : Json → Option α}

/-! ## Records -/

/-- An arranged object, with what is found in it. -/
theorem exists_obj (hf : Arrangement f) (hnodup : (fields.map Prod.fst).Nodup) :
    ∃ gs, f (.obj fields) = .obj gs ∧ ∀ k, lookup k gs = (lookup k fields).map f := by
  obtain ⟨gs, hgs, hperm⟩ := hf.obj fields hnodup
  refine ⟨gs, hgs, fun k => ?_⟩
  rw [lookup_perm hperm (by simpa [Function.comp_def] using hnodup), lookup_map]

/-- An object of one field has no other order. -/
theorem obj_singleton (hf : Arrangement f) (k : String) (v : Json) :
    f (.obj [(k, v)]) = .obj [(k, f v)] := by
  obtain ⟨gs, hgs, hperm⟩ := hf.obj [(k, v)] (by simp)
  rw [hgs, List.perm_singleton.1 hperm]

theorem values_obj (hf : Arrangement f) (hnodup : (fields.map Prod.fst).Nodup) (keys : List String) :
    values? keys (f (.obj fields)) = some (keys.map fun k => (lookup k fields).map f) := by
  obtain ⟨gs, hgs, hlookup⟩ := hf.exists_obj hnodup
  rw [hgs, values?]
  exact congrArg some (List.map_congr_left fun k _ => hlookup k)

theorem tagged_obj (hf : Arrangement f) (hnodup : (fields.map Prod.fst).Nodup) {tag : String}
    {kindOf : Json → Option String} (hkey : lookup key fields = some (.str tag))
    (htag : kindOf (.str tag) = some tag) :
    tagged? key kindOf (f (.obj fields)) = some (tag, f (.obj fields)) := by
  obtain ⟨gs, hgs, hlookup⟩ := hf.exists_obj hnodup
  rw [hgs, tagged?, hlookup, hkey, Option.map_some, hf.str]
  simp [htag]

theorem valued_obj (hf : Arrangement f) (hnodup : (fields.map Prod.fst).Nodup) {tag valueKey : String}
    {ofName : String → Option α} {a : α} (hkey : lookup key fields = some (.str tag))
    (htag : ofName tag = some a) :
    valued? key valueKey ofName (f (.obj fields)) = some (a, (lookup valueKey fields).map f) := by
  obtain ⟨gs, hgs, hlookup⟩ := hf.exists_obj hnodup
  rw [hgs, valued?, hlookup, hkey, Option.map_some, hf.str, hlookup]
  simp [name?, htag]

/-- What is found in an arranged object is less deep than the object. -/
theorem depth_lt_of_lookup (hf : Arrangement f) (hnodup : (fields.map Prod.fst).Nodup)
    (hkey : lookup key fields = some j) : (f j).depth < (f (.obj fields)).depth := by
  obtain ⟨gs, hgs, hlookup⟩ := hf.exists_obj hnodup
  rw [hgs]
  have hj : lookup key gs = some (f j) := by rw [hlookup, hkey, Option.map_some]
  obtain ⟨g, hg, hgj⟩ := Option.map_eq_some_iff.1 hj
  exact hgj ▸ depth_lt_of_mem_obj (List.mem_of_find?_eq_some hg)

/-! ## Repeated and missing parts -/

theorem list (hf : Arrangement f) {toJson : α → Json} {as : List α}
    (h : ∀ a ∈ as, part (f (toJson a)) = some a) :
    list? part (f (.arr (as.map toJson))) = some as := by
  rw [hf.arr, list?]
  induction as with
  | nil => rfl
  | cons a rest ih =>
    obtain ⟨ha, hrest⟩ := List.forall_mem_cons.1 h
    rw [List.map_cons, List.map_cons, List.mapM_cons, ha, ih hrest]
    rfl

theorem depth_lt_of_mem (hf : Arrangement f) (hj : j ∈ items) :
    (f j).depth < (f (.arr items)).depth := by
  rw [hf.arr]
  exact depth_lt_of_mem_arr (List.mem_map_of_mem hj)

theorem optional (hf : Arrangement f) {toJson : α → Json} {o : Option α} (hnull : part .null = none)
    (h : ∀ a, o = some a → part (f (toJson a)) = some a) :
    optional? part (some (f (Json.optional toJson o))) = some o := by
  cases o with
  | none => rw [Json.optional, hf.null]; rfl
  | some a =>
    have ha := h a rfl
    rw [Json.optional]
    cases hj : f (toJson a) with
    | null => rw [hj, hnull] at ha; cases ha
    | _ => rw [hj] at ha; simp [optional?, ha]

end Arrangement

end DiagramTour.Json
