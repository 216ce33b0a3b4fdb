import DiagramTour.Compile

/-!
# Settings of diagrams

Reading never stops at an error, and then little is known of what was read.  This much is known of
every text: the configuration of a diagram is an object, for its word only ever opens one.

## Architecture

- `Parse.Always` says what is known of a value wherever reading begins, errors or not.
- `Item.IsRead` says that a declaration is read from some cursor on; then those in it are as well.
- `isConfigured_of_parse` puts it together for the diagrams that a tour can have.
-/

namespace DiagramTour

variable {α β : Type} {c : Cursor}

/-! ## What is always read -/

/-- Wherever reading begins, a value of this kind is read. -/
def Parse.Always (p : Parse α) (Q : α → Prop) : Prop :=
  ∀ c, Q (p c).value

namespace Parse.Always

variable {p : Parse α} {f : α → Parse β} {Q : α → Prop} {R : β → Prop}

theorem trivial : p.Always fun _ => True :=
  fun _ => True.intro

theorem pure {a : α} (h : Q a) : (Pure.pure a : Parse α).Always Q :=
  fun _ => h

theorem bind (hp : p.Always Q) (hf : ∀ a, Q a → (f a).Always R) : (p >>= f).Always R :=
  fun c => hf _ (hp c) (p c).next

/-- What is read last decides. -/
theorem andThen (hf : ∀ a, (f a).Always R) : (p >>= f).Always R :=
  bind trivial fun a _ => hf a

theorem map {g : α → β} (hp : p.Always fun a => R (g a)) : (g <$> p).Always R :=
  bind hp fun _ => pure

end Parse.Always

namespace Cursor

variable {Q : α → Prop}

theorem forall_mem_blockItems {bound : Nat} (context : String)
    {item : (d : Cursor) → d.size < bound → Parsed d (Option α)}
    (hitem : ∀ d hd, ∀ a, (item d hd).value = some a → Q a) {c : Cursor} (hc : c.size < bound) :
    ∀ a ∈ (blockItems bound context item c hc).value, Q a := by
  induction hn : c.size using Nat.strongRecOn generalizing c with
  | _ n ih =>
    rw [blockItems]
    split
    · simp
    · rename_i hstop
      have hend := not_atEnd_of_not_stop hstop
      have hlt := size_afterTurn_lt hend (item c hc).le context
      have hrest := ih _ (hn ▸ hlt) (Nat.lt_trans hlt hc) rfl
      simp only [Parsed.weaken_value, Parsed.map_value]
      cases hv : (item c hc).value with
      | none => exact hrest
      | some a => exact List.forall_mem_cons.mpr ⟨hitem c hc a hv, hrest⟩

theorem forall_mem_block (context : String)
    {item : (d : Cursor) → d.size < c.size → Parsed d (Option α)}
    (hitem : ∀ d hd, ∀ a, (item d hd).value = some a → Q a) : ∀ a ∈ (c.block context item).value, Q a := by
  unfold block
  split
  · rename_i h
    exact forall_mem_blockItems context hitem (size_advance_lt_of_atPunct h)
  · simp

end Cursor

theorem Parse.Always.block {Q : α → Prop} {context : String} {item : Parse (Option α)}
    (hitem : item.Always fun o => ∀ a, o = some a → Q a) :
    (Parse.block context item).Always fun as => ∀ a ∈ as, Q a :=
  fun _ => Cursor.forall_mem_block context fun d _ => hitem d

/-! ## Diagrams -/

/-- The expression is an object. -/
def Expr.AreSettings (e : Expr) : Prop :=
  ∃ entries span, e = .object entries span

/-- The configuration of the diagram, if there is one, is an object. -/
def Diagram.IsConfigured (d : Diagram) : Prop :=
  ∀ e, d.config = some e → e.AreSettings

/-- What is known of the parts of any diagram. -/
def Parse.DiagramPart.IsConfigured : Parse.DiagramPart → Prop
  | .config e => e.AreSettings
  | _ => True

theorem Diagram.IsConfigured.addTo {d : Diagram} {part : Parse.DiagramPart} (h : d.IsConfigured)
    (hpart : part.IsConfigured) : (part.addTo d).IsConfigured := by
  cases part with
  | config e =>
      rintro e' ⟨⟩
      exact hpart
  | _ => exact h

namespace Parse.Always

theorem object : Parse.object.Always Expr.AreSettings :=
  fun _ => ⟨_, _, rfl⟩

theorem diagramPart? : Parse.diagramPart?.Always fun o => ∀ part, o = some part → part.IsConfigured := by
  apply andThen
  rintro (_ | _)
  · apply andThen
    rintro (_ | _)
    · apply andThen
      rintro (_ | _)
      · exact pure (by simp)
      · exact andThen fun e => pure (by rintro part ⟨⟩; trivial)
    · exact bind object fun e he => pure (by rintro part ⟨⟩; exact he)
  · apply andThen
    intro t
    split
    · exact andThen fun _ => pure (by rintro part ⟨⟩; trivial)
    · exact andThen fun _ => pure (by rintro part ⟨⟩; trivial)

theorem diagram : Parse.diagram.Always Diagram.IsConfigured := by
  -- A later part overrides an earlier one, so each must be right by itself
  have hfold : ∀ (parts : List Parse.DiagramPart) (d : Diagram),
      (∀ part ∈ parts, part.IsConfigured) → d.IsConfigured →
        (parts.foldl Parse.DiagramPart.addTo d).IsConfigured := by
    intro parts
    induction parts with
    | nil => exact fun d _ hd => hd
    | cons part parts ih =>
      intro d hparts hd
      obtain ⟨hpart, hparts⟩ := List.forall_mem_cons.mp hparts
      exact ih _ hparts (hd.addTo hpart)
  refine andThen fun _ => andThen fun _ => andThen fun _ => bind (block diagramPart?) fun parts hparts =>
    andThen fun _ => pure ?_
  apply hfold parts _ hparts
  rintro e ⟨⟩

end Parse.Always

/-! ## Declarations -/

/-- A declaration that is read by its word is no deck, and if a diagram, then a configured one. -/
theorem Parse.Always.itemOfWord (word : String) : (Parse.itemOfWord word).Always fun i =>
    (∀ items span, i ≠ .deck items span) ∧ ∀ d, i = .diagram d → d.IsConfigured := by
  unfold Parse.itemOfWord
  split
  case h_2 => exact andThen fun d => andThen fun _ => pure ⟨by simp, by simp⟩
  case h_4 => exact map fun c => ⟨by simp, by rintro d ⟨⟩; exact diagram c⟩
  all_goals exact map fun c => ⟨by simp, by simp⟩

/-- The declaration is read somewhere. -/
def Item.IsRead (i : Item) : Prop :=
  ∃ c : Cursor, c.item.value = some i

/-- What stands in a deck is read as well. -/
theorem Item.IsRead.deck {items : List Item} {span : Span} (h : (Item.deck items span).IsRead) :
    ∀ i ∈ items, i.IsRead := by
  obtain ⟨c, hc⟩ := h
  rw [Cursor.item] at hc
  split at hc
  · cases hc
    exact Cursor.forall_mem_block "a deck declaration" fun d _ i hi => ⟨d, hi⟩
  · split at hc
    · have hword := Option.some.inj hc
      exact absurd hword ((Parse.Always.itemOfWord c.peek.image c).1 items span)
    · cases hc
    · cases hc

theorem Item.IsRead.diagram {d : Diagram} (h : (Item.diagram d).IsRead) : d.IsConfigured := by
  obtain ⟨c, hc⟩ := h
  rw [Cursor.item] at hc
  split at hc
  · cases hc
  · split at hc
    · exact (Parse.Always.itemOfWord c.peek.image c).2 d (Option.some.inj hc)
    · cases hc
    · cases hc

/-- Declarations that are read one after the other are each read somewhere. -/
theorem Cursor.isRead_of_mem_items (first afterDeck : Bool) (c : Cursor) :
    ∀ i ∈ (items first afterDeck c).value, i.IsRead := by
  induction hn : c.size using Nat.strongRecOn generalizing first afterDeck c with
  | _ n ih =>
    rw [items]
    split
    · simp
    · rename_i hstop
      dsimp only
      intro i hi
      rcases List.mem_append.mp hi with hi | hi
      · exact ⟨_, Option.mem_toList.mp hi⟩
      · -- What is left of the text is shorter, for every turn of the loop reads a token or skips one
        refine ih _ ?_ _ _ _ rfl i hi
        rw [← hn]
        apply size_afterTurn_lt (by simpa using hstop)
        apply Nat.le_trans (Parsed.le _)
        split <;> simp

/-- Whatever a text says, its declarations were read. -/
theorem Parse.Always.program? : Parse.program?.Always fun o =>
    ∀ p, o = some p → ∀ i ∈ p.items, i.IsRead := by
  apply andThen
  intro start
  apply andThen
  rintro (_ | _)
  · exact andThen fun _ => pure (by simp)
  · have hread : Parse.Always (Cursor.items true false) fun items => ∀ i ∈ items, i.IsRead :=
      Cursor.isRead_of_mem_items true false
    refine andThen fun _ => andThen fun version => bind hread fun items hitems =>
      andThen fun stop => pure ?_
    rintro p ⟨⟩
    exact hitems

/-- Every diagram that a tour can have is configured by an object, whether the text is right or
wrong. -/
theorem isConfigured_of_parse {source : String} {p : Program} (h : (parse source).program = some p)
    {d : Diagram} (hd : Item.diagram d ∈ p.deckItems) : d.IsConfigured := by
  have hread : ∀ i ∈ p.items, i.IsRead := Parse.Always.program? _ p h
  obtain ⟨i, hi, hmem⟩ := List.mem_flatMap.mp hd
  cases i with
  | deck items span => exact ((hread _ hi).deck _ hmem).diagram
  | diagram d' =>
      cases List.mem_singleton.mp hmem
      exact (hread _ hi).diagram
  | _ => simp at hmem

end DiagramTour
