import DiagramTour.Json.Draft
import DiagramTour.Json.Field
import DiagramTour.Proofs.Json.Settled

/-!
# Reading values

A value as a draft has no flaws, so that whoever wants it in a shape gets it, or is told that it has
another shape.

## Architecture

- `Json.Draft.any_ofJson`, `Json.Draft.map_ofJson` and `Json.Draft.list_ofJson` read free values, maps and
  lists.
- `Json.Draft.record_settle` reads a record.  It sets its fields in the order of their keys, which need
  not be the order in which they were written; so a record is compared with what it is like when some of
  its fields were set, in whatever order: `Json.Draft.part`.
- `Json.Draft.record_induction` goes the other way: what every field keeps is known of a record that was
  read, whatever it was read from.
-/

namespace DiagramTour

namespace Json.Draft

variable {α : Type} {j : Json} {fields : List (String × Json)}

/-! ## Values -/

mutual

/-- A value that is read as it stands is that value. -/
theorem value_ofJson : ∀ j : Json, (ofJson j).value = .ok j
  | .null => rfl
  | .bool _ => rfl
  | .int _ => rfl
  | .float _ => rfl
  | .str _ => rfl
  | .arr items => by
      rw [ofJson, value, values_ofItems items]
      rfl
  | .obj fields => by
      rw [ofJson, value, fieldValues_ofFields fields]
      rfl

theorem values_ofItems : ∀ items : List Json, values (ofItems items) = .ok items
  | [] => rfl
  | j :: js => by
      rw [ofItems, values, value_ofJson j, values_ofItems js]
      rfl

theorem fieldValues_ofFields : ∀ fields : List (String × Json),
    fieldValues (ofFields fields) = .ok fields
  | [] => rfl
  | (k, j) :: fs => by
      rw [ofFields, fieldValues, value_ofJson j, fieldValues_ofFields fs]
      rfl

end

theorem ofItems_eq (items : List Json) : ofItems items = items.map ofJson := by
  induction items with
  | nil => rfl
  | cons j js ih => rw [ofItems, ih, List.map_cons]

/-- A settled value is read as it is. -/
theorem any_ofJson (h : j.IsSettled) : any (ofJson j) = .ok j := by
  rw [any, value_ofJson]
  exact congrArg Except.ok h.settle_eq

theorem map_ofJson (h : (Json.obj fields).IsSettled) : map (ofJson (.obj fields)) = .ok fields := by
  have hsettle := h.settle_eq
  rw [Json.settle, Json.obj.injEq] at hsettle
  rw [ofJson, map, fieldValues_ofFields]
  exact congrArg Except.ok hsettle

/-- Only null is nothing. -/
theorem orNull_ofJson (shape : Shape α) (h : j ≠ .null) :
    orNull shape (ofJson j) = (shape (ofJson j)).map some := by
  cases j with
  | null => exact absurd rfl h
  | _ => rfl

/-- A list is read item by item. -/
theorem list_ofJson {shape : Shape α} {f : α → Json} {as : List α}
    (h : ∀ a ∈ as, shape (ofJson (f a).settle) = .ok a) :
    list shape (ofJson (Json.arr (as.map f)).settle) = .ok as := by
  have hitems : (as.map fun a => ofJson (f a).settle).mapM shape = .ok as := by
    induction as with
    | nil => rfl
    | cons a as ih =>
        obtain ⟨ha, has⟩ := List.forall_mem_cons.mp h
        simp only [List.map_cons, List.mapM_cons, ha, ih has]
        rfl
  rw [Json.settle, Json.settleItems_eq, ofJson, ofItems_eq, List.map_map, List.map_map, list]
  simp only [Function.comp_def, hitems]
  rfl

/-! ## Fields -/

section Fields

variable {β : Type} {key : String} {f : String × Json} {g : β → Json} {o : Option β}

theorem mem_fieldIfSome : f ∈ Json.fieldIfSome key g o ↔ ∃ b, o = some b ∧ f = (key, g b) := by
  cases o <;> simp [Json.fieldIfSome]

theorem mem_fieldUnless {isEmpty : Bool} :
    f ∈ Json.fieldUnless key isEmpty j ↔ isEmpty = false ∧ f = (key, j) := by
  cases isEmpty <;> simp [Json.fieldUnless]

theorem keys_fieldIfSome (key : String) (g : β → Json) (o : Option β) :
    ((Json.fieldIfSome key g o).map Prod.fst).Sublist [key] := by
  cases o <;> simp [Json.fieldIfSome]

theorem keys_fieldUnless (key : String) (isEmpty : Bool) (j : Json) :
    ((Json.fieldUnless key isEmpty j).map Prod.fst).Sublist [key] := by
  cases isEmpty <;> simp [Json.fieldUnless]

end Fields

/-! ## Records -/

section Part

variable {key k : String} {keys : List String} {start a : α}

/-- A part of a record when the fields of some keys were set: its value `a` if its own key is among
them, and what it was at the start if not. -/
def part (key : String) (keys : List String) (start a : α) : α :=
  if key ∈ keys then a else start

@[simp] theorem part_nil : part key [] start a = start := rfl

@[simp] theorem part_cons_self : part key (key :: keys) start a = a :=
  if_pos List.mem_cons_self

@[simp] theorem part_cons_of_ne (h : key ≠ k) : part key (k :: keys) start a = part key keys start a := by
  simp [part, h]

/-- A part that is there, or that is as it was at the start. -/
theorem part_eq (h : a ≠ start → key ∈ keys) : part key keys start a = a := by
  unfold part
  split
  · rfl
  · rename_i hnot
    exact (of_not_not fun hne => hnot (h (Ne.symm hne)))

/-- A part with a field of its own wherever there is something to say. -/
theorem part_optional {β : Type} {g : β → Json} {o : Option β}
    (h : ∀ f ∈ Json.fieldIfSome key g o, f.1 ∈ keys) : part key keys none o = o := by
  apply part_eq
  intro hne
  obtain ⟨b, hb⟩ := Option.ne_none_iff_exists'.mp hne
  exact h _ (mem_fieldIfSome.mpr ⟨b, hb, rfl⟩)

/-- A list with a field of its own unless it is empty. -/
theorem part_unless {β : Type} {items : List β} {j : Json}
    (h : ∀ f ∈ Json.fieldUnless key items.isEmpty j, f.1 ∈ keys) : part key keys [] items = items := by
  apply part_eq
  intro hne
  exact h _ (mem_fieldUnless.mpr ⟨by simpa using hne, rfl⟩)

end Part

variable {σ : Type} {names needed : List String} {set : String → Draft → σ → Except Fault σ}

/-- Fields are set one after the other; `mix` tells what a record is like when the fields of some keys
were set. -/
private theorem setFields_ofFields (names : List String) (set : String → Draft → σ → Except Fault σ)
    (mix : List String → σ) : ∀ (gs : List (String × Json))
    (seen : List String), (∀ g ∈ gs, ∀ ks, set g.1 (ofJson g.2) (mix ks) = .ok (mix (g.1 :: ks))) →
      (∀ g ∈ gs, g.1 ∈ names) → (gs.map Prod.fst).Nodup → (∀ g ∈ gs, g.1 ∉ seen) →
      setFields names set seen (mix seen) (ofFields gs) =
        .ok (mix ((gs.map Prod.fst).reverse ++ seen), (gs.map Prod.fst).reverse ++ seen)
  | [], _, _, _, _, _ => rfl
  | (k, j) :: gs, seen, hset, hnames, hnodup, hnew => by
      obtain ⟨hk, hgs⟩ := List.forall_mem_cons.mp hset
      obtain ⟨hname, hnames⟩ := List.forall_mem_cons.mp hnames
      obtain ⟨hfresh, hnew⟩ := List.forall_mem_cons.mp hnew
      rw [List.map_cons, List.nodup_cons] at hnodup
      have hrest : ∀ g ∈ gs, g.1 ∉ k :: seen := by
        intro g hg hmem
        rcases List.mem_cons.mp hmem with heq | hmem
        · exact hnodup.1 (List.mem_map.mpr ⟨g, hg, heq⟩)
        · exact hnew g hg hmem
      have htail := setFields_ofFields names set mix gs (k :: seen) hgs hnames hnodup.2 hrest
      rw [ofFields, setFields, if_pos (by simpa using hname), if_neg (by simpa using hfresh)]
      simp only at hk
      rw [hk seen]
      show setFields names set (k :: seen) (mix (k :: seen)) (ofFields gs) = _
      simpa using htail

/-- A record is read from its fields in whatever order they come, if each sets its own part. -/
theorem record_settle (mix : List String → σ) {start a : σ} (hstart : mix [] = start)
    (hset : ∀ f ∈ fields, ∀ ks, set f.1 (ofJson f.2.settle) (mix ks) = .ok (mix (f.1 :: ks)))
    (hkeys : (fields.map Prod.fst).Sublist names) (hnames : names.Nodup)
    (hneeded : ∀ k ∈ needed, k ∈ fields.map Prod.fst)
    (hall : ∀ ks, (∀ f ∈ fields, f.1 ∈ ks) → mix ks = a) :
    record names needed set start (ofJson (Json.obj fields).settle) = .ok a := by
  -- The keys of a map are those of its fields in another order, which `mix` does not tell
  have hnodup : ((Json.settleFields fields).map Prod.fst).Nodup := by
    rw [Json.map_fst_settleFields]
    exact hkeys.nodup hnames
  have hperm := Json.mapOf_perm hnodup
  have hfst : ((Json.mapOf (Json.settleFields fields)).map Prod.fst).Perm (fields.map Prod.fst) := by
    have h := hperm.map Prod.fst
    rwa [Json.map_fst_settleFields] at h
  have hfields := setFields_ofFields names set mix
    (Json.mapOf (Json.settleFields fields)) []
    (by
      intro g hg
      have hg := hperm.subset hg
      rw [Json.settleFields_eq] at hg
      obtain ⟨f, hf, rfl⟩ := List.mem_map.mp hg
      exact hset f hf)
    (fun g hg => hkeys.subset (hfst.subset (List.mem_map_of_mem hg)))
    (hfst.nodup_iff.mpr (hkeys.nodup hnames)) (by simp)
  rw [List.append_nil] at hfields
  have hmem : ∀ k ∈ fields.map Prod.fst,
      k ∈ ((Json.mapOf (Json.settleFields fields)).map Prod.fst).reverse :=
    fun k hk => List.mem_reverse.mpr (hfst.symm.subset hk)
  have hdone := hall _ fun f hf => hmem f.1 (List.mem_map_of_mem hf)
  have hcomplete : needed.all
      ((Json.mapOf (Json.settleFields fields)).map Prod.fst).reverse.contains = true := by
    rw [List.all_eq_true]
    exact fun k hk => by simpa using List.mem_reverse.mp (hmem k (hneeded k hk))
  rw [Json.settle, ofJson, record, ← hstart, hfields]
  simp only [hdone, closing]
  show (if needed.all _ = true then Except.ok a else _) = _
  rw [if_pos hcomplete]

/-! ## What is read -/

section Read

variable {β : Type} {shape : Shape α} {d : Draft} {start a : α} {x : Except Fault β}
  {f : β → Except Fault α} {v : Json}

/-- What comes of two parts comes of the first and then of the second. -/
theorem ok_of_bind (h : (x >>= f) = .ok a) : ∃ b, x = .ok b ∧ f b = .ok a := by
  cases x with
  | error e => cases h
  | ok b => exact ⟨b, rfl, h⟩

theorem ok_of_map {g : β → α} (h : x.map g = .ok a) : ∃ b, x = .ok b ∧ g b = a := by
  cases x with
  | error e => cases h
  | ok b => exact ⟨b, rfl, Except.ok.inj h⟩

theorem ok_of_closing {close : Option Fault} {b : α} (h : closing close b = .ok a) : b = a := by
  cases close with
  | some e => cases h
  | none => exact Except.ok.inj h

/-- Any value that is read is settled. -/
theorem isSettled_of_any (h : any d = .ok j) : j.IsSettled := by
  obtain ⟨v, -, rfl⟩ := ok_of_map h
  exact Json.isSettled_settle v

theorem isSettled_of_map (h : map d = .ok fields) : (Json.obj fields).IsSettled := by
  cases d with
  | obj fs close =>
      obtain ⟨vs, -, h⟩ := ok_of_bind h
      rw [← ok_of_closing h]
      exact Json.isSettled_mapOf (Json.isSettled_settleFields vs)
  | _ => cases h

/-- What is not nothing was read in its shape. -/
theorem of_orNull {o : Option α} (h : orNull shape d = .ok o) (ha : o = some a) : shape d = .ok a := by
  unfold orNull at h
  split at h
  · cases h
    cases ha
  · cases h
  · obtain ⟨b, hb, rfl⟩ := ok_of_map h
    cases ha
    exact hb

/-- Null is read only where null stands. -/
theorem eq_null_of_value (h : value d = .ok v) (hv : v.settle = .null) : d = .null := by
  cases d with
  | null => rfl
  | arr items close =>
      obtain ⟨vs, -, h⟩ := ok_of_bind h
      rw [← ok_of_closing h] at hv
      cases hv
  | obj fs close =>
      obtain ⟨vs, -, h⟩ := ok_of_bind h
      rw [← ok_of_closing h] at hv
      cases hv
  | bool b | int n | float y | str text =>
      cases h
      cases hv
  | deep inner | torn mayBeNull skipped | flawed seen skipped => cases h

/-- Null is read as nothing. -/
theorem ne_null_of_orNull_any {o : Option Json} (h : orNull any d = .ok o) : o ≠ some .null := by
  intro hnull
  obtain ⟨v, hv, hsettle⟩ := ok_of_map (of_orNull h hnull)
  rw [eq_null_of_value hv hsettle] at h
  cases h
  cases hnull

theorem le_of_natUpTo {limit n : Nat} (h : natUpTo limit d = .ok n) : n ≤ limit := by
  unfold natUpTo at h
  split at h
  · split at h
    · rename_i hle
      cases h
      simp only [Bool.and_eq_true, decide_eq_true_eq] at hle
      omega
    · cases h
  · cases h

/-- Each item of a list is read by itself. -/
theorem exists_of_list {as : List α} (h : list shape d = .ok as) : ∀ a ∈ as, ∃ d', shape d' = .ok a := by
  have hitems : ∀ (ds : List Draft) {as : List α}, ds.mapM shape = .ok as →
      ∀ a ∈ as, ∃ d', shape d' = .ok a := by
    intro ds
    induction ds with
    | nil =>
        intro as h
        cases h
        simp
    | cons d ds ih =>
        intro as h
        rw [List.mapM_cons] at h
        obtain ⟨b, hb, h⟩ := ok_of_bind h
        obtain ⟨bs, hbs, h⟩ := ok_of_bind h
        cases h
        exact List.forall_mem_cons.mpr ⟨⟨d, hb⟩, ih hbs⟩
  cases d with
  | arr items close =>
      obtain ⟨bs, hbs, h⟩ := ok_of_bind h
      rw [← ok_of_closing h]
      exact hitems items hbs
  | _ => cases h

/-! A record keeps what each of its fields keeps. -/

variable {P : α → Prop} {set : String → Draft → α → Except Fault α}

theorem setFields_induction (hset : ∀ k d b c, P b → set k d b = .ok c → P c) :
    ∀ (fs : List (Draft × Draft)) {seen seen' : List String} {b c : α}, P b →
      setFields names set seen b fs = .ok (c, seen') → P c := by
  intro fs
  induction fs with
  | nil =>
      intro seen seen' b c hb h
      cases h
      exact hb
  | cons f fs ih =>
      intro seen seen' b c hb h
      obtain ⟨k, d⟩ := f
      cases k with
      | str k =>
          rw [setFields] at h
          split at h
          · split at h
            · cases h
            · obtain ⟨b', hb', h⟩ := ok_of_bind h
              exact ih (hset k d b b' hb hb') h
          · obtain ⟨-, -, h⟩ := ok_of_bind h
            exact ih hb h
      | _ => cases h

theorem setItems_induction (hset : ∀ k d b c, P b → set k d b = .ok c → P c) :
    ∀ (ds : List Draft) {ks seen seen' : List String} {b c : α} {more : Bool}, P b →
      setItems set seen b ks ds = .ok (c, seen', more) → P c := by
  intro ds
  induction ds with
  | nil =>
      intro ks seen seen' b c more hb h
      cases ks <;> cases h <;> exact hb
  | cons d ds ih =>
      intro ks seen seen' b c more hb h
      cases ks with
      | nil =>
          cases h
          exact hb
      | cons k ks =>
          obtain ⟨b', hb', h⟩ := ok_of_bind h
          exact ih (hset k d b b' hb hb') h

/-- What holds before a record is read, and is kept by every field, holds of the record. -/
theorem record_induction (hstart : P start) (hset : ∀ k d b c, P b → set k d b = .ok c → P c)
    (h : record names needed set start d = .ok a) : P a := by
  cases d with
  | obj fs close =>
      obtain ⟨⟨b, seen⟩, hb, h⟩ := ok_of_bind h
      obtain ⟨c, hc, h⟩ := ok_of_bind h
      rw [← ok_of_closing hc] at h
      split at h
      · cases h
        exact setFields_induction hset fs hstart hb
      · cases h
  | arr items close =>
      obtain ⟨⟨b, seen, more⟩, hb, h⟩ := ok_of_bind h
      have hkept : P b := setItems_induction hset items hstart hb
      -- Whether an item is missing or one is too many makes no difference to what was set
      have hclosed : ∀ c, (if (!needed.all seen.contains) = true then .error .unexpectedShape
          else if more = true then .error .malformed else closing close c) = .ok a → c = a := by
        intro c hc
        split at hc
        · cases hc
        · split at hc
          · cases hc
          · exact ok_of_closing hc
      dsimp only at h
      split at h
      · obtain ⟨c, hc, h⟩ := ok_of_bind h
        cases hc
        exact hclosed b h ▸ hkept
      · obtain ⟨c, hc, h⟩ := ok_of_bind h
        rw [← ok_of_closing hc] at h
        exact hclosed b h ▸ hkept
  | _ => cases h

end Read

end Json.Draft

end DiagramTour
